import Ps4Sdk.FunctionHookTables
import Ps4Sdk.PayloadTemplates

/-!
# Installing and removing function hooks, `kernel/function.c`

`Create` copies the first instructions of a function into a bridge and puts a jump
to its prologue in their place; `Destroy` copies them back. A hooked function is
recognised by its own bytes: a jump to memory that has the bytes of a prologue. The
calls run one after the other under the hook mutex, so no thread is inside a
prologue when a handle is destroyed.
-/

namespace Ps4Sdk.FunctionHookInstallation
open CheckedBlocks AtomicSpinLocks FunctionHookTables ByteMemory PayloadTemplates

/-- The fields of `Ps4KernelFunctionHookArgument` that the calls use. -/
structure Handle where
  function : Address
  prologue : Address
  bridge : Address
  bridgeCopiedSize : BitVec 64
  entryCount : ℤ
  table : HookTable

/-- The memory as bytes, and the handle that a pointer points to. The list of live
handles is a record of the calls made; no call reads it. -/
structure Kernel where
  memory : KernelMemory
  handle : Address → Handle
  live : List Address

/-- The blocks that `Create` allocates, and the value that its local variable `t`
has before it is assigned. -/
structure Blocks where
  arg : Address
  prologue : Address
  bridge : Address
  uninitialized : Address

structure Residue where
  memory : KernelMemory
  handle : Handle

/-- How many bytes the disassembler consumes at an address, or zero at the end of
its input. -/
abbrev Disassembler := KernelMemory → Address → ℕ

/-- The loop of `ps4MachineInstructionSeek`. -/
def seekFrom (length : Address → ℕ) (current : Address) (offset i : ℕ) : ℕ :=
  if i < offset ∧ 0 < length (current + BitVec.ofNat 64 i) then
    seekFrom length current offset (i + length (current + BitVec.ofNat 64 i))
  else i
termination_by offset - i

def ps4MachineInstructionSeek (length : Address → ℕ) (current : Address) (offset : ℕ) :
    Except Code Address :=
  if current = 0#64 then .error ps4ErrorArgumentPrimaryMissing
  else if seekFrom length current offset 0 = 0 ∧ offset ≠ 0 then
    .error ps4ErrorAssemblerInstructionNotDecodable
  else .ok (current + BitVec.ofNat 64 (seekFrom length current offset 0))

def ps4KernelIsKernelAddress (address : Address) : Code :=
  if address >>> 48 > 0#64 then ps4Ok else ps4NotOk

def ps4KernelFunctionPatchToJump (m : KernelMemory) (function target : Address) :
    Code × KernelMemory :=
  if ps4KernelIsKernelAddress function ≠ ps4KernelIsKernelAddress target then
    (ps4ErrorArgumentInDifferentSpace, m)
  else (ps4Ok, (ps4PayloadJumpPatch m function target).2)

def ps4KernelFunctionIsHooked (m : KernelMemory) (function : Address) : Code :=
  match ps4PayloadJumpExtractTarget m function with
  | .error _ => ps4NotOk
  | .ok adr => ps4PayloadFunctionHookPrologueIsPatched m adr

def ps4KernelFunctionGetHook (m : KernelMemory) (function : Address) : Except Code Address :=
  match ps4PayloadJumpExtractTarget m function with
  | .error _ => .error ps4ErrorArgumentExpectationFailed
  | .ok adr => ps4PayloadFunctionHookPrologueExtractArgument m adr

/-- `ps4KernelMemoryAllocate` makes a block larger than a page and clears it. -/
def blockSize : ℕ := 0x4001

def ps4KernelMemoryAllocate (m : KernelMemory) (block : Address) (size : ℕ) : KernelMemory :=
  fill m block (if size ≤ 0x4000 then blockSize else size) 0

def ps4KernelMemoryFree (m : KernelMemory) (block : Address)
    (residue : KernelMemory) : KernelMemory :=
  if block = 0#64 then m else fun x => if Inside block blockSize x then residue x else m x

/-- The bytes of `ps4PayloadLock` as a word. -/
def ps4PayloadLock : BitVec 16 := 0xfceb

/-- `ps4AtomicSwap16` of two bytes of the memory with a local word. -/
def swapBits (m : KernelMemory) (function : Address) (bits : BitVec 16) :
    KernelMemory × BitVec 16 :=
  let r := ps4AtomicSwap16 (BitVec.ofNat 16 (bytesValue (cellsAt m function 2))) bits
  (write m function (wordBytes 2 r.1.toNat), r.2)

def ps4KernelFunctionLock (m : KernelMemory) (function : Address) (bits : BitVec 16) :
    Code × KernelMemory × BitVec 16 :=
  if function = 0#64 then (ps4ErrorArgumentPrimaryMissing, m, bits)
  else (ps4Ok, swapBits m function ps4PayloadLock)

def ps4KernelFunctionUnlock (m : KernelMemory) (function : Address) (bits : BitVec 16) :
    Code × KernelMemory :=
  if function = 0#64 then (ps4ErrorArgumentPrimaryMissing, m)
  else (ps4Ok, (swapBits m function bits).1)

/-- What the disassembler is known to do: it consumes something at each step, and
no instruction is long. -/
def Decodes (ud : Disassembler) : Prop := ∀ m a, 0 < ud m a ∧ ud m a < 256

theorem seekFrom_bounds {length : Address → ℕ} (h : ∀ a, 0 < length a ∧ length a < 256)
    (current : Address) (offset i : ℕ) (hi : i < offset + 256) :
    offset ≤ seekFrom length current offset i ∧
    seekFrom length current offset i < offset + 256 := by
  fun_induction seekFrom length current offset i with
  | case1 i hlt ih =>
    have hlen := h (current + BitVec.ofNat 64 i)
    exact ih (by omega)
  | case2 i hge =>
    have hpos := (h (current + BitVec.ofNat 64 i)).1
    exact ⟨by simpa [hpos] using hge, hi⟩

/-- How many bytes of the function `Create` copies, at least the size of the jump. -/
def bridgeCopiedSize (ud : Disassembler) (m : KernelMemory) (function : Address)
    (b : Blocks) : BitVec 64 :=
  match ps4MachineInstructionSeek (ud m) function (ps4PayloadJumpDeterminePatchSize b.prologue) with
  | .ok t => t - function
  | .error _ => b.uninitialized - function

theorem bridgeCopiedSize_bounds {ud : Disassembler} (h : Decodes ud) (m : KernelMemory)
    {function : Address} (b : Blocks) (hf : function ≠ 0#64) :
    ps4PayloadJumpDeterminePatchSize b.prologue ≤ (bridgeCopiedSize ud m function b).toNat ∧
      (bridgeCopiedSize ud m function b).toNat < 269 := by
  have hj : ps4PayloadJumpDeterminePatchSize b.prologue ≤ 13 := jumpTemplate_size_le b.prologue
  have hpos : 0 < ps4PayloadJumpDeterminePatchSize b.prologue := by
    simp only [ps4PayloadJumpDeterminePatchSize, jumpTemplate]
    split_ifs <;> decide
  have hs := seekFrom_bounds (h m) function
    (ps4PayloadJumpDeterminePatchSize b.prologue) 0 (by omega)
  rw [bridgeCopiedSize, ps4MachineInstructionSeek, if_neg hf, if_neg (by omega)]
  simp only
  rw [toNat_add_sub, Nat.mod_eq_of_lt (by omega)]
  omega

def prepare (m : KernelMemory) (function : Address) (b : Blocks) (size : BitVec 64) :
    KernelMemory :=
  let m := ps4KernelMemoryAllocate m b.bridge
    (size.toNat + ps4PayloadJumpDeterminePatchSize function)
  let m := (ps4PayloadFunctionHookProloguePatch m b.prologue b.arg).2
  let m := ps4KernelMemoryCopy m function b.bridge size.toNat
  (ps4KernelFunctionPatchToJump m (b.bridge + size) (function + size)).2

def install (m : KernelMemory) (function : Address) (b : Blocks) (size : BitVec 64) :
    KernelMemory :=
  (ps4KernelFunctionPatchToJump (prepare m function b size) function b.prologue).2

def ps4KernelFunctionHookCreate (ud : Disassembler) (k : Kernel) (function : Address)
    (b : Blocks) : Code × Kernel :=
  if function = 0#64 then (ps4ErrorArgumentMissing, k)
  else if ps4KernelFunctionIsHooked k.memory function = ps4Ok then (ps4ErrorNotAcceptable, k)
  else
    let m := ps4KernelMemoryAllocate k.memory b.prologue
      ps4PayloadFunctionHookPrologueDeterminePatchSize
    let size := bridgeCopiedSize ud m function b
    (ps4Ok,
      { memory := install m function b size
        handle := Function.update k.handle b.arg ⟨function, b.prologue, b.bridge, size, 0, created⟩
        live := b.arg :: k.live })

def restore (m : KernelMemory) (arg : Handle) (fnBits : BitVec 16) : KernelMemory :=
  let (_, m, fnBits) := ps4KernelFunctionLock m arg.function fnBits
  let m := ps4KernelMemoryCopy m (arg.bridge + 2) (arg.function + 2)
    (arg.bridgeCopiedSize - 2).toNat
  let fnBits := if arg.bridge =
    0#64 then fnBits else BitVec.ofNat 16 (bytesValue (cellsAt m arg.bridge 2))
  (ps4KernelFunctionUnlock m arg.function fnBits).2

/-- `Destroy` restores the function, waits for the entered threads, and frees the
blocks of the handle. A count that no thread decreases is waited for forever. -/
def ps4KernelFunctionHookDestroy (k : Kernel) (hook : Address) (r : Residue) :
    Except Stop (Code × Kernel) :=
  if hook = 0#64 then .ok (ps4ErrorArgumentPrimaryMissing, k)
  else do
    let arg := k.handle hook
    let m := restore k.memory arg 0
    let _ ← ps4AtomicSpinLock64 arg.table.lock
    if arg.entryCount > 0 then .error .spins
    else
      let m := ps4KernelMemoryFree m arg.prologue r.memory
      let m := ps4KernelMemoryFree m arg.bridge r.memory
      return (ps4Ok,
        { memory := m
          handle := Function.update k.handle hook r.handle
          live := k.live.filter (fun h => h ≠ hook) })

/-- `ps4KernelFunctionHookAdd` on the table of a handle. -/
def addToHandle (m : Allocation) (k : Kernel) (hookh hook : Address) (type : HookType) :
    Except Stop (Code × Kernel) :=
  if hookh = 0#64 then .ok (ps4ErrorArgumentPrimaryMissing, k)
  else do
    let (code, table) ← ps4KernelFunctionHookAdd m (k.handle hookh).table hook type.value
    return (code, { k with handle := Function.update k.handle hookh { k.handle hookh with
      table := table } })

def ps4KernelFunctionHook (ud : Disassembler) (m : Allocation) (k : Kernel)
    (function hook : Address) (type : HookType) (b : Blocks) : Except Stop (Code × Kernel) :=
  if ps4KernelFunctionIsHooked k.memory function ≠ ps4Ok then
    let r := ps4KernelFunctionHookCreate ud k function b
    if r.1 = ps4Ok then addToHandle m r.2 b.arg hook type else .ok r
  else
    match ps4KernelFunctionGetHook k.memory function with
    | .ok hookh => addToHandle m k hookh hook type
    | .error code => .ok (code, k)

def ps4KernelFunctionUnhook (k : Kernel) (function : Address) (r : Residue) :
    Except Stop (Code × Kernel) :=
  match ps4KernelFunctionGetHook k.memory function with
  | .error _ => .ok (ps4ErrorExpectationFailed, k)
  | .ok hook => ps4KernelFunctionHookDestroy k hook r

inductive Call
  | create (function : Address) (b : Blocks)
  | hook (function callee : Address) (type : HookType) (b : Blocks)
  | destroy (hookh : Address) (r : Residue)
  | unhook (function : Address) (r : Residue)

/-- A call whose allocations succeed. -/
def Call.run (ud : Disassembler) (k : Kernel) : Call → Except Stop (Code × Kernel)
  | .create function b => .ok (ps4KernelFunctionHookCreate ud k function b)
  | .hook function callee type b => ps4KernelFunctionHook ud .succeeds k function callee type b
  | .destroy hookh r => ps4KernelFunctionHookDestroy k hookh r
  | .unhook function r => ps4KernelFunctionUnhook k function r

end Ps4Sdk.FunctionHookInstallation
