import Ps4Sdk.ByteMemory
import Mathlib.Logic.Function.Iterate

/-!
# Assembly code that shares its memory

A machine has sixteen registers, eight vector registers and a memory of bytes. Code is
a list of instructions for each label, which begins at the label and goes on to the end.
Before every instruction other threads may change the memory, and a called function is a
parameter as well: both are functions of the time, the number of instructions so far. The
ranges of memory that the running thread keeps to itself are passed to them; they are a
record for the assumptions about them and are not read by any instruction.
-/

namespace Ps4Sdk.AssemblyMachines
open ByteMemory

abbrev Word := BitVec 64
abbrev Bytes := Memory 64 (BitVec 8)

inductive Register
  | rax | rcx | rdx | rbx | rsp | rbp | rsi | rdi | r8 | r9 | r10 | r11 | r12 | r13 | r14 | r15
  deriving DecidableEq

/-- What a comparison found is all that is kept of the flags. -/
structure View where
  register : Register → Word
  vector : Fin 8 → BitVec 128
  flags : Ordering
  thread : Word

structure Machine extends View where
  memory : Bytes

def wordAt (m : Bytes) (a : Word) : Word := BitVec.ofNat 64 (bytesValue (cellsAt m a 8))
def vectorAt (m : Bytes) (a : Word) : BitVec 128 := BitVec.ofNat 128 (bytesValue (cellsAt m a 16))
def putWord (m : Bytes) (a w : Word) : Bytes := write m a (wordBytes 8 w.toNat)
def putVector (m : Bytes) (a : Word) (x : BitVec 128) : Bytes := write m a (wordBytes 16 x.toNat)

inductive Condition
  | zero | nonzero | greater | less
  deriving DecidableEq

def Condition.holds : Condition → Ordering → Bool
  | .zero, flags => flags == .eq
  | .nonzero, flags => flags != .eq
  | .greater, flags => flags == .gt
  | .less, flags => flags == .lt

/-- The operands stand in the order of the AT&T syntax. -/
inductive Instruction (L : Type)
  | moveImmediate (w : Word) (target : Register)
  | move (source target : Register)
  | load (offset : ℕ) (base target : Register)
  | store (source : Register) (offset : ℕ) (base : Register)
  | storeImmediate (w : Word) (offset : ℕ) (base : Register)
  | loadVector (offset : ℕ) (base : Register) (target : Fin 8)
  | storeVector (source : Fin 8) (offset : ℕ) (base : Register)
  | loadElement (base index target : Register)
  | loadThread (target : Register)
  | increment (offset : ℕ) (base : Register)
  | decrement (offset : ℕ) (base : Register)
  | exchange (r : Register) (offset : ℕ) (base : Register)
  | exchangeRegisters (r r' : Register)
  | push (source : Register)
  | pop (target : Register)
  | pushMemory (offset : ℕ) (base : Register)
  | popMemory (offset : ℕ) (base : Register)
  | subtract (n : ℕ) (target : Register)
  | add (n : ℕ) (target : Register)
  | test (r : Register)
  | compare (w : Word) (r : Register)
  | jump (l : L)
  | jumpIf (c : Condition) (l : L)
  | jumpMemory (offset : ℕ) (base : Register)
  | call (r : Register)
  | callMemory (offset : ℕ) (base : Register)
  | ret
  deriving DecidableEq

namespace View

def set (v : View) (r : Register) (w : Word) : View :=
  { v with register := Function.update v.register r w }

def setVector (v : View) (i : Fin 8) (x : BitVec 128) : View :=
  { v with vector := Function.update v.vector i x }

def operand (v : View) (offset : ℕ) (base : Register) : Word :=
  v.register base + BitVec.ofNat 64 offset

def compared (v : View) (a b : ℤ) : View := { v with flags := compare a b }

def pushed (v : View) : View := v.set .rsp (v.register .rsp - 8)

def popped (v : View) : View := v.set .rsp (v.register .rsp + 8)

end View

/-- What an instruction does that goes on to the next one. -/
def perform {L : Type} : Instruction L → View → Bytes → Machine
  | .moveImmediate w r, v, m => ⟨v.set r w, m⟩
  | .move source target, v, m => ⟨v.set target (v.register source), m⟩
  | .load offset base r, v, m => ⟨v.set r (wordAt m (v.operand offset base)), m⟩
  | .store r offset base, v, m => ⟨v, putWord m (v.operand offset base) (v.register r)⟩
  | .storeImmediate w offset base, v, m => ⟨v, putWord m (v.operand offset base) w⟩
  | .loadVector offset base i, v, m => ⟨v.setVector i (vectorAt m (v.operand offset base)), m⟩
  | .storeVector i offset base, v, m => ⟨v, putVector m (v.operand offset base) (v.vector i)⟩
  | .loadElement base index r, v, m =>
      ⟨v.set r (wordAt m (v.register base + v.register index * 8)), m⟩
  | .loadThread r, v, m => ⟨v.set r v.thread, m⟩
  | .increment offset base, v, m =>
    let w := wordAt m (v.operand offset base)
    ⟨v.compared (w.toInt + 1) 0, putWord m (v.operand offset base) (w + 1)⟩
  | .decrement offset base, v, m =>
    let w := wordAt m (v.operand offset base)
    ⟨v.compared (w.toInt - 1) 0, putWord m (v.operand offset base) (w - 1)⟩
  | .exchange r offset base, v, m =>
    ⟨v.set r (wordAt m (v.operand offset base)), putWord m (v.operand offset base) (v.register r)⟩
  | .exchangeRegisters r r', v, m => ⟨(v.set r (v.register r')).set r' (v.register r), m⟩
  | .push r, v, m => ⟨v.pushed, putWord m (v.pushed.register .rsp) (v.register r)⟩
  | .pop r, v, m => ⟨v.popped.set r (wordAt m (v.register .rsp)), m⟩
  | .pushMemory offset base, v, m =>
    ⟨v.pushed, putWord m (v.pushed.register .rsp) (wordAt m (v.operand offset base))⟩
  | .popMemory offset base, v, m => ⟨v.popped, putWord m (v.popped.operand offset base)
      (wordAt m (v.register .rsp))⟩
  | .subtract n r, v, m => ⟨(v.set r (v.register r - BitVec.ofNat 64 n)).compared
      ((v.register r).toInt - n) 0, m⟩
  | .add n r, v, m => ⟨(v.set r (v.register r + BitVec.ofNat 64 n)).compared
      ((v.register r).toInt + n) 0, m⟩
  | .test r, v, m => ⟨v.compared (v.register r).toInt 0, m⟩
  | .compare w r, v, m => ⟨v.compared (v.register r).toInt w.toInt, m⟩
  | .jump _, v, m | .jumpIf _ _, v, m | .jumpMemory _ _, v, m | .call _, v, m | .callMemory _ _, v,
      m
  | .ret, v, m => ⟨v, m⟩

inductive Control (L : Type)
  | inside (rest : List (Instruction L))
  | outside (a : Word)
  deriving DecidableEq

abbrev Range := Word × ℕ

/-- A call: its instruction, the function called, and the machine at its entry and at its return. -/
structure Called (L : Type) where
  instruction : Instruction L
  target : Word
  entered : Machine
  left : Machine

structure Config (L : Type) where
  control : Control L
  machine : Machine
  kept : List Range
  time : ℕ
  calls : List (Called L)

/-- The code, what other threads and called functions do, where the instructions stand, which
address begins which label, and the upper end of the stack that the thread keeps to itself. -/
structure Environment (L : Type) where
  code : L → List (Instruction L)
  others : ℕ → List Range → Machine → Bytes
  callee : ℕ → List Range → Word → Machine → Machine × List Range
  address : List (Instruction L) → Word
  label : Word → Option L
  top : Word

variable {L : Type}

namespace Environment

/-- Where a jump to an address goes. -/
def target (env : Environment L) (a : Word) : Control L :=
  match env.label a with
  | some l => .inside (env.code l)
  | none => .outside a

/-- A function is called and returns. -/
def enter (env : Environment L) (c : Config L) (i : Instruction L) (rest : List (Instruction L))
    (target : Word) (v : View) (m : Bytes) : Config L :=
  let entered : Machine := ⟨v.pushed, putWord m (v.pushed.register .rsp) (env.address rest)⟩
  let r := env.callee c.time c.kept target entered
  { c with
    control := .inside rest
    machine := r.1
    kept := r.2
    time := c.time + 1
    calls := c.calls ++ [⟨i, target, entered, r.1⟩] }

def goTo (c : Config L) (control : Control L) (s : Machine) : Config L :=
  { c with control := control, machine := s, time := c.time + 1 }

def instruct (env : Environment L) (c : Config L) (rest : List (Instruction L))
    (v : View) (m : Bytes) :
    Instruction L → Config L
  | .jump l => goTo c (.inside (env.code l)) ⟨v, m⟩
  | .jumpIf cond l => goTo c (.inside (if cond.holds v.flags then env.code l else rest)) ⟨v, m⟩
  | .jumpMemory offset base => goTo c (env.target (wordAt m (v.operand offset base))) ⟨v, m⟩
  | .call r => env.enter c (.call r) rest (v.register r) v m
  | .callMemory offset base => env.enter c (.callMemory offset base) rest
      (wordAt m (v.operand offset base)) v m
  | .ret => goTo c (.outside (wordAt m (v.register .rsp))) ⟨v.popped, m⟩
  | i => goTo c (.inside rest) (perform i v m)

def step (env : Environment L) (c : Config L) : Config L :=
  match c.control with
  | .inside (i :: rest) => env.instruct c rest c.machine.toView
      (env.others c.time c.kept c.machine) i
  | _ => c

end Environment

end Ps4Sdk.AssemblyMachines
