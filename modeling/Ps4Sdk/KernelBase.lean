import Mathlib.Logic.Function.Basic

/-! The return codes of `include/ps4/error.h` that the modelled functions return,
and the 64-bit pointers they take. A null pointer is the address zero. -/
namespace Ps4Sdk

abbrev Code := BitVec 32
abbrev Address := BitVec 64
abbrev Byte := BitVec 8

def ps4Ok : Code := 0
def ps4NotOk : Code := 0x85053000
def ps4ErrorArgumentMissing : Code := 0x85053600
def ps4ErrorArgumentPrimaryMissing : Code := 0x85053601
def ps4ErrorArgumentOutMissing : Code := 0x85053602
def ps4ErrorArgumentMalformed : Code := 0x85053603
def ps4ErrorArgumentExpectationFailed : Code := 0x85053604
def ps4ErrorArgumentInDifferentSpace : Code := 0x85053606
def ps4ErrorArgumentSizeInvalid : Code := 0x85053607
def ps4ErrorArgumentSizeNull : Code := 0x85053608
def ps4ErrorArgumentSizeTooSmall : Code := 0x85053609
def ps4ErrorArgumentThreadMissing : Code := 0x85053613
def ps4ErrorKernelSymbolLookupNotFound : Code := 0x85053701
def ps4ErrorKernelOutOfMemory : Code := 0x85053702
def ps4ErrorKernelSystemCallNumberTooLarge : Code := 0x85053703
def ps4ErrorInternalError : Code := 0x85053500
def ps4ErrorNotImplemented : Code := 0x85053501
def ps4ErrorAssemblerInstructionNotDecodable : Code := 0x85053800
def ps4ErrorOutOfMemory : Code := 0x85053801
def ps4ErrorBadRequest : Code := 0x85053400
def ps4ErrorForbidden : Code := 0x85053403
def ps4ErrorNotFound : Code := 0x85053404
def ps4ErrorNotAcceptable : Code := 0x85053406
def ps4ErrorExpectationFailed : Code := 0x85053417

/-- What `ps4KernelSymbolLookUp` gives: a code and a pointer. A name that is not found is cached
with a null pointer, and the next look-up of it succeeds with that. -/
structure LookUp where
  code : Code
  value : Address
  deriving DecidableEq

def LookUp.Found (l : LookUp) : Prop := l.code = ps4Ok ∧ l.value ≠ 0#64

instance (l : LookUp) : Decidable l.Found := inferInstanceAs (Decidable (_ ∧ _))

/-- A block that a function fills and grows. A pointer into it is the block and an index, and
memory goes on behind the bytes that were allocated. -/
structure Buffer where
  base : Address
  allocated : Nat
  cells : Nat → Byte

/-- The blocks that are live before a call, where its allocations are placed, one after the other,
and what memory holds there where nothing was stored. -/
structure Allocator where
  live : List Address
  place : Nat → Address
  fresh : Nat → Nat → Byte

/-- What `realloc` gives as the `n`-th allocation: the bytes that both blocks have are kept. -/
def Buffer.reallocated (b : Buffer) (m : Allocator) (n size : Nat) : Buffer :=
  ⟨m.place n, size, fun i => if i < min b.allocated size then b.cells i else m.fresh n i⟩

def Buffer.Holds (b : Buffer) (bytes : List Byte) : Prop :=
  ∀ i (h : i < bytes.length), b.cells i = bytes[i]

end Ps4Sdk
