import Ps4Sdk.AssemblyMachines
import Ps4Sdk.FunctionHookBytes

/-!
# The implementations of `ps4KernelExecute`

One variant is for code that runs in the kernel only, the other one enters the kernel
with a system call when it has to. Both test the stack pointer and compare the answer
with `PS4_OK`, which is zero; but the test of the first variant answers one in the
kernel, so it calls the function from user space and refuses to do so in the kernel.
-/

namespace Ps4Sdk.KernelExecution
open ByteMemory PayloadTemplates AssemblyMachines FunctionHookInstallation

/-- The stack pointer, and the current thread that is read from `%gs:0`. -/
structure Context where
  rsp : Address
  thread : Address

abbrev SyCall := Address → Address → KernelMemory → Code × KernelMemory

/-- The arguments of the calls that were made, the returned code, and the memory. -/
structure Outcome where
  calls : List (Address × Address)
  result : Code
  memory : KernelMemory

def retval (m : KernelMemory) (td : Address) (offset : ℕ) : Word :=
  wordAt m (td + BitVec.ofNat 64 offset)

/-! ### `in_kernel_only` -/

def ps4KernelExecuteIsInKernel (rsp : Address) : Code := if rsp >>> 48 > 0#64 then 1 else 0

def ps4KernelExecuteThreadGetReturn0 (m : KernelMemory) (td : Address) : Word := retval m td 0x380

def ps4KernelExecuteThreadGetReturn1 (m : KernelMemory) (td : Address) : Word := retval m td 0x388

def inKernelOnly (c : Context) (m : KernelMemory) (f : SyCall)
    (uap ret0 ret1 : Address) : Outcome :=
  if ps4KernelExecuteIsInKernel c.rsp = ps4Ok then
    let td := c.thread
    let (r, m) := f td uap m
    let m := if ret0 ≠ 0#64 then putWord m ret0 (ps4KernelExecuteThreadGetReturn0 m td) else m
    let m := if ret1 ≠ 0#64 then putWord m ret1 (ps4KernelExecuteThreadGetReturn1 m td) else m
    ⟨[(td, uap)], r, m⟩
  else ⟨[], ps4ErrorNotImplemented, m⟩

/-! ### `dynlib_prepare_dlclose` -/

def ps4KernelIsInKernel (rsp : Address) : Code := ps4KernelIsKernelAddress rsp

def threadGetReturn (offset : ℕ) (m : KernelMemory) (td ret : Address) : Code × KernelMemory :=
  if td = 0#64 then (ps4ErrorArgumentPrimaryMissing, m)
  else if ret = 0#64 then (ps4ErrorArgumentOutMissing, m)
  else (ps4Ok, putWord m ret (retval m td offset))

def ps4KernelThreadGetReturn : KernelMemory → Address → Address → Code × KernelMemory :=
  threadGetReturn 0x380

def ps4KernelThreadGetSecondaryReturn : KernelMemory → Address → Address → Code × KernelMemory :=
  threadGetReturn 0x388

/-- From user space the function is called with a system call, which is a parameter. -/
def dynlibPrepareDlclose (systemCall : KernelMemory → Outcome) (c : Context) (m : KernelMemory)
    (f : SyCall) (uap ret0 ret1 : Address) : Outcome :=
  if ps4KernelIsInKernel c.rsp = ps4Ok then
    let td := c.thread
    let (r, m) := f td uap m
    let m := if ret0 ≠ 0#64 then (ps4KernelThreadGetReturn m td ret0).2 else m
    let m := if ret1 ≠ 0#64 then (ps4KernelThreadGetSecondaryReturn m td ret1).2 else m
    ⟨[(td, uap)], r, m⟩
  else systemCall m

/-! ### What they are for -/

def storeReturns (m : KernelMemory) (td ret0 ret1 : Address) : KernelMemory :=
  let m := if ret0 ≠ 0#64 then putWord m ret0 (retval m td 0x380) else m
  if ret1 ≠ 0#64 then putWord m ret1 (retval m td 0x388) else m

/-- One call of the function on the current thread. -/
def executed (c : Context) (m : KernelMemory) (f : SyCall) (uap ret0 ret1 : Address) : Outcome :=
  ⟨[(c.thread, uap)], (f c.thread uap m).1, storeReturns (f c.thread uap m).2 c.thread ret0 ret1⟩

/-- In the kernel both variants call the function once, and outside of it the first one does
nothing. -/
structure Agree (systemCall : KernelMemory → Outcome) (c : Context) (m : KernelMemory) (f : SyCall)
    (uap ret0 ret1 : Address) : Prop where
  first : KernelSpace c.rsp → inKernelOnly c m f uap ret0 ret1 = executed c m f uap ret0 ret1
  second : KernelSpace c.rsp →
    dynlibPrepareDlclose systemCall c m f uap ret0 ret1 = executed c m f uap ret0 ret1
  outside : ¬KernelSpace c.rsp → inKernelOnly c m f uap ret0 ret1 = ⟨[], ps4ErrorNotImplemented, m⟩

section Variants

variable {systemCall : KernelMemory → Outcome} {c : Context} {m : KernelMemory} {f : SyCall}
  {uap ret0 ret1 : Address}

private theorem isInKernel_eq_ok_iff (rsp : Address) : ps4KernelExecuteIsInKernel rsp = ps4Ok ↔
    ¬KernelSpace rsp := by
  unfold ps4KernelExecuteIsInKernel KernelSpace ps4KernelIsKernelAddress
  split_ifs with h
  · decide
  · decide

private theorem inKernelOnly_kernel (h : KernelSpace c.rsp) :
    inKernelOnly c m f uap ret0 ret1 = ⟨[], ps4ErrorNotImplemented, m⟩ :=
  if_neg fun hok => (isInKernel_eq_ok_iff c.rsp).mp hok h

private theorem inKernelOnly_user (h : ¬KernelSpace c.rsp) :
    inKernelOnly c m f uap ret0 ret1 = executed c m f uap ret0 ret1 :=
  if_pos ((isInKernel_eq_ok_iff c.rsp).mpr h)

private theorem threadGetReturn_eq (offset : ℕ) (m : KernelMemory) {td ret : Address}
    (ht : td ≠ 0#64) (hr : ret ≠ 0#64) :
    (threadGetReturn offset m td ret).2 = putWord m ret (retval m td offset) := by
  rw [threadGetReturn, if_neg ht, if_neg hr]

/-- The second variant does what it is for on every thread that is not null. -/
theorem dynlibPrepareDlclose_kernel (h : KernelSpace c.rsp) (ht : c.thread ≠ 0#64) :
    dynlibPrepareDlclose systemCall c m f uap ret0 ret1 = executed c m f uap ret0 ret1 := by
  have hstore : ∀ (offset : ℕ) (m : KernelMemory) (ret : Address),
      (if ret ≠ 0#64 then (threadGetReturn offset m c.thread ret).2 else m) =
        if ret ≠ 0#64 then putWord m ret (retval m c.thread offset) else m := by
    intro offset m ret
    split_ifs with hr
    · exact threadGetReturn_eq offset m ht hr
    · rfl
  have hin : ps4KernelIsInKernel c.rsp = ps4Ok := h
  rw [dynlibPrepareDlclose, if_pos hin]
  simp only [ps4KernelThreadGetReturn, ps4KernelThreadGetSecondaryReturn, hstore]
  rfl

/-- For no input are the variants what they are for: in the kernel the first one refuses to call the
function that the second one calls, and outside of the kernel it calls it. -/
theorem variants_never_agree (systemCall : KernelMemory → Outcome) (c : Context) (m : KernelMemory)
    (f : SyCall) (uap ret0 ret1 : Address) :
    ¬Agree systemCall c m f uap ret0 ret1 ∧
      (KernelSpace c.rsp → inKernelOnly c m f uap ret0 ret1 = ⟨[], ps4ErrorNotImplemented, m⟩) ∧
      (KernelSpace c.rsp → c.thread ≠ 0#64 →
        dynlibPrepareDlclose systemCall c m f uap ret0 ret1 = executed c m f uap ret0 ret1) ∧
      (¬KernelSpace c.rsp → inKernelOnly c m f uap ret0 ret1 = executed c m f uap ret0 ret1) := by
  refine ⟨fun ha => ?_, inKernelOnly_kernel, dynlibPrepareDlclose_kernel, inKernelOnly_user⟩
  by_cases h : KernelSpace c.rsp
  · have he := (inKernelOnly_kernel h).symm.trans (ha.first h)
    exact List.cons_ne_nil _ _ (congrArg Outcome.calls he).symm
  · have he := (inKernelOnly_user h).symm.trans (ha.outside h)
    exact List.cons_ne_nil _ _ (congrArg Outcome.calls he)

end Variants

/-- On a stack of the kernel the first variant calls nothing, and the second one calls the
function. -/
theorem inKernelOnly_refuses :
    (inKernelOnly ⟨0xffff800000010000, 0xffff800000020000⟩ (fun _ => 0) (fun _ _ m => (ps4Ok, m)) 0
      0 0).calls = [] ∧
      (inKernelOnly ⟨0xffff800000010000, 0xffff800000020000⟩ (fun _ => 0)
        (fun _ _ m => (ps4Ok, m)) 0 0 0).result =
        ps4ErrorNotImplemented ∧
      (dynlibPrepareDlclose (fun m => ⟨[], ps4NotOk, m⟩) ⟨0xffff800000010000, 0xffff800000020000⟩
        (fun _ => 0) (fun _ _ m => (ps4Ok, m)) 0 0 0).calls = [(0xffff800000020000, 0)] := by
  decide

end Ps4Sdk.KernelExecution
