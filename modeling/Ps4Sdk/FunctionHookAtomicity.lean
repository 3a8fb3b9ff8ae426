import Ps4Sdk.FunctionHookAddFailures

/-!
# Failures of `ps4KernelFunctionHook`, `kernel/function.c`

The call hooks the function first where it is not hooked, and then adds the pair to its
handle. Nothing undoes the first part when the second one fails.
-/

namespace Ps4Sdk.FunctionHookFailures
open CheckedBlocks FallibleCalls
open FunctionHookTables (HookTable HookType)
open FunctionHookInstallation (Disassembler ps4KernelFunctionGetHook ps4KernelFunctionIsHooked)

def ps4KernelFunctionHook (ud : Disassembler) (initializer : Evaluations Code) (memory : Memory)
    (g : Growth) (function hook : Address) (type : HookType) (k : Kernel) :
    Except Stop (Code × Kernel) :=
  match k.ensure initializer with
  | .error (code, k) => .ok (code, k)
  | .ok k =>
    let k := k.lock
    if ps4KernelFunctionIsHooked k.memory function ≠ ps4Ok then do
      let (r, fr) ← ps4KernelFunctionHookCreate ud initializer memory true function ⟨k, 0#64, 0#64⟩
      if r = ps4Ok then
        let (r, k) ← ps4KernelFunctionHookAdd initializer g fr.hookh hook type fr.kernel
        return (r, k.unlock)
      else return (r, fr.kernel.unlock)
    else
      match ps4KernelFunctionGetHook k.memory function with
      | .ok hookh => do
        let (r, k) ← ps4KernelFunctionHookAdd initializer g hookh hook type k
        return (r, k.unlock)
      | .error code => .ok (code, k.unlock)

/-- What an atomic call leaves as it was when it returns an error: the bytes outside its
blocks, the handles with their pairs, the blocks and the mutex. -/
structure Atomic (memory : Memory) (k k' : Kernel) : Prop where
  bytes : ∀ x, ¬memory.Owns x → k'.memory x = k.memory x
  live : k'.live = k.live
  blocks : k.Balanced k'
  pairs : ∀ h, h ≠ memory.arg → SameEntries (k.handle h).table (k'.handle h).table
  depth : k'.depth = k.depth

section

variable {ud : Disassembler} {initializer : Evaluations Code} {memory : Memory} {g : Growth}
  {function hook : Address} {type : HookType} {k k' : Kernel} {code : Code}

private theorem Kernel.not_refuses (hi : k.initialized = true) : ¬k.Refuses initializer := by
  intro h
  rw [h.1] at hi
  cases hi

theorem hook_creates (hr : ¬k.Refuses initializer)
    (hh : ps4KernelFunctionIsHooked k.memory function ≠ ps4Ok) :
    ps4KernelFunctionHook ud initializer memory g function hook type k =
      (ps4KernelFunctionHookCreate ud initializer memory true function
        ⟨k.ready.lock, 0#64, 0#64⟩ >>= fun r =>
        if r.1 = ps4Ok then
          ps4KernelFunctionHookAdd initializer g r.2.hookh hook type r.2.kernel >>= fun r => .ok
            (r.1, r.2.unlock)
        else .ok (r.1, r.2.kernel.unlock)) := by
  have hh' : ps4KernelFunctionIsHooked k.ready.lock.memory function ≠ ps4Ok := hh
  rw [ps4KernelFunctionHook, Kernel.ensure_ready hr]
  change (if ps4KernelFunctionIsHooked k.ready.lock.memory function ≠ ps4Ok then _ else _) = _
  rw [if_pos hh']
  rfl

theorem hook_adds (hr : ¬k.Refuses initializer)
    (hh : ps4KernelFunctionIsHooked k.memory function = ps4Ok) :
    ps4KernelFunctionHook ud initializer memory g function hook type k =
      match ps4KernelFunctionGetHook k.memory function with
      | .ok hookh => ps4KernelFunctionHookAdd initializer g hookh hook type k.ready.lock >>=
          fun r =>
          .ok (r.1, r.2.unlock)
      | .error code => .ok (code, k.ready.lock.unlock) := by
  have hh' : ¬ps4KernelFunctionIsHooked k.ready.lock.memory function ≠ ps4Ok := not_not.mpr hh
  rw [ps4KernelFunctionHook, Kernel.ensure_ready hr]
  change (if ps4KernelFunctionIsHooked k.ready.lock.memory function ≠ ps4Ok then _ else _) = _
  rw [if_neg hh']
  rfl

theorem AddOutcome.atomic {hookh : Address}
    (h : AddOutcome initializer g hookh hook k.ready.lock code k') (hc : code ≠ ps4Ok) :
    Atomic memory k k'.unlock := by
  obtain ⟨hm, hl, _, hd, hb, he⟩ := h.unchanged hc
  refine ⟨fun x _ => congrFun hm x, hl, hb, fun h _ => he h, ?_⟩
  change k'.depth - 1 = k.depth
  rw [hd]
  rfl

/-- An error of `Create` under the mutex of the call. -/
theorem Untouched.atomic {fr : Frame} (h : Untouched memory ⟨k.ready.lock.ready, 0#64, 0#64⟩ fr) :
    Atomic memory k fr.kernel.unlock := by
  refine ⟨h.bytes, h.live, h.blocks, fun hookh hne => ?_, ?_⟩
  · change SameEntries _ (fr.kernel.handle hookh).table
    rw [h.handles hookh hne]
    exact .refl _
  · change fr.kernel.depth - 1 = k.depth
    rw [h.depth]
    rfl

private theorem add_created (initializer : Evaluations Code) (g : Growth) (type : HookType)
    (hi : k.initialized = true) {hookh : Address} (ha : hookh ≠ 0#64) (hh : hook ≠ 0#64)
    (ht : (k.handle hookh).table = FunctionHookTables.created) :
    ∃ k', ps4KernelFunctionHookAdd initializer g hookh hook type k = .ok (ps4Ok, k') := by
  rw [add_eq_table (Kernel.not_refuses hi) ha hh, ht, ← FunctionHookTables.CleanTable.created_table,
    FunctionHookTables.CleanTable.add_table _ _ _ _ hh]
  exact ⟨_, rfl⟩

private theorem created_frame (ud : Disassembler) (memory : Memory) (function : Address)
    {fr : Frame} (hi : fr.kernel.initialized = true) :
    (fr.created ud memory true function).hookh = memory.arg ∧
      (fr.created ud memory true function).kernel.initialized = true ∧
      ((fr.created ud memory true function).kernel.handle memory.arg).table =
        FunctionHookTables.created := by
  simp [Frame.created, Frame.finalizing, Frame.complete, Frame.made, Kernel.unlock, hi]

/-- Without a hook the call fails behind its `Create`. -/
theorem hook_null (ud : Disassembler) (g : Growth) (type : HookType) (hr : ¬k.Refuses initializer)
    (hz : hook = 0#64) (hf : function ≠ 0#64) (hh : ps4KernelFunctionIsHooked k.memory function ≠
      ps4Ok) (hm : memory.Succeeds) :
    ∃ code k', code ≠ ps4Ok ∧
    ps4KernelFunctionHook ud initializer memory g function hook type k = .ok (code, k') ∧
      FunctionHookInstallation.ps4KernelFunctionHookCreate ud k.toKernel function memory.blocks =
        (ps4Ok, k'.toKernel) := by
  have hready : ¬(⟨k.ready.lock, 0#64, 0#64⟩ : Frame).kernel.Refuses initializer :=
    Kernel.not_refuses rfl
  have hstarted : (⟨k.ready.lock, 0#64, 0#64⟩ : Frame).started.kernel.initialized = true := rfl
  have hcreate := create_installs ud true hready hf hh hm
  have hkernel := created_toKernel ud memory true hstarted hf hh
  obtain ⟨_, hi, _⟩ := created_frame ud memory function hstarted
  generalize (⟨k.ready.lock, 0#64, 0#64⟩ : Frame).started.created ud memory true function =
    fr at hcreate hkernel hi
  have hready' : ¬fr.kernel.Refuses initializer := Kernel.not_refuses hi
  obtain ⟨code, hc, hadd⟩ := add_missing g fr.hookh type hready' (.inr hz)
  refine ⟨code, fr.kernel.ready.unlock, hc, ?_, hkernel⟩
  rw [hook_creates hr hh, hcreate]
  change (ps4KernelFunctionHookAdd initializer g fr.hookh hook type fr.kernel >>= _) = _
  rw [hadd]
  rfl

/-- A call that fails leaves everything as it was, unless it is given no hook for a function
that it could hook: then the function stays hooked, with a handle that holds no pair. -/
theorem hook_atomic_iff (ud : Disassembler) (initializer : Evaluations Code) (memory : Memory)
    (g : Growth) (function hook : Address) (type : HookType) (k : Kernel) :
    (∀ code k', ps4KernelFunctionHook ud initializer memory g function hook type k =
      .ok (code, k') → code ≠ ps4Ok → Atomic memory k k') ↔
    ¬(¬k.Refuses initializer ∧ hook = 0#64 ∧ function ≠ 0#64 ∧
      ps4KernelFunctionIsHooked k.memory function ≠ ps4Ok ∧ memory.Succeeds) := by
  have hready : ¬k.ready.lock.Refuses initializer := Kernel.not_refuses rfl
  have hstarted : (⟨k.ready.lock, 0#64, 0#64⟩ : Frame).started.kernel.initialized = true := rfl
  constructor
  · rintro hall ⟨hr, hz, hf, hh, hm⟩
    obtain ⟨code, k', hc, hrun, hcreate⟩ := hook_null ud g type hr hz hf hh hm
    have hlive := (hall code k' hrun hc).live
    rw [FunctionHookInstallation.create_eq hf hh] at hcreate
    have hnew : memory.arg :: k.live = k'.live := congrArg (fun r => r.2.live) hcreate
    exact List.cons_ne_self _ _ (hnew.trans hlive)
  · intro hn code k' hrun hc
    by_cases hr : k.Refuses initializer
    · rw [ps4KernelFunctionHook, Kernel.ensure_refused hr] at hrun
      cases hrun
      exact ⟨fun _ _ => rfl, rfl, .of_eq rfl rfl, fun _ _ => .refl _, rfl⟩
    by_cases hh : ps4KernelFunctionIsHooked k.memory function = ps4Ok
    · rw [hook_adds hr hh] at hrun
      cases hg : ps4KernelFunctionGetHook k.memory function with
      | error code' =>
        rw [hg] at hrun
        cases hrun
        exact ⟨fun _ _ => rfl, rfl, .of_eq rfl rfl, fun _ _ => .refl _, rfl⟩
      | ok hookh =>
        rw [hg] at hrun
        obtain ⟨r, hadd, hr'⟩ := bind_eq_ok.mp hrun
        cases hr'
        exact (add_outcome hadd).atomic hc
    · rw [hook_creates hr hh] at hrun
      obtain ⟨code₁, fr, hcreate, hout⟩ :=
        create_outcome ud memory true function ⟨k.ready.lock, 0#64, 0#64⟩ hready
      rw [hcreate] at hrun
      change (if code₁ = ps4Ok then _ else _) = _ at hrun
      cases hout with
      | failed hc₁ hu _ =>
        rw [if_neg hc₁] at hrun
        cases hrun
        exact hu.atomic
      | created hf _ hm =>
        rw [if_pos rfl] at hrun
        have hz : hook ≠ 0#64 := fun hz => hn ⟨hr, hz, hf, hh, hm⟩
        obtain ⟨hhookh, hi, htable⟩ := created_frame ud memory function hstarted
        generalize (⟨k.ready.lock, 0#64, 0#64⟩ : Frame).started.created ud memory true function = fr
          at hrun hhookh hi htable
        have ha : fr.hookh ≠ 0#64 := hhookh ▸ hm.1
        rw [← hhookh] at htable
        obtain ⟨k₂, hadd⟩ := add_created initializer g type hi ha hz htable
        rw [hadd] at hrun
        cases hrun
        exact absurd rfl hc

end

private theorem plainMemory_succeeds : plainMemory.Succeeds :=
  ⟨by decide, fun f => by cases f <;> decide⟩

/-- Given no hook, the call returns an error and leaves the function hooked. -/
theorem hook_null_stays_hooked :
    ∃ code k', ps4KernelFunctionHook FunctionHookInstallation.singleBytes ⟨ps4Ok, ps4Ok⟩
      plainMemory ⟨0#64, 0#64⟩ FunctionHookInstallation.plainFunction 0#64 .genericPre plainKernel =
        .ok (code, k') ∧
    code ≠ ps4Ok ∧ ¬Atomic plainMemory plainKernel k' ∧ k'.live = [plainMemory.arg] ∧
    ps4KernelFunctionIsHooked k'.memory FunctionHookInstallation.plainFunction = ps4Ok := by
  have hr : ¬plainKernel.Refuses ⟨ps4Ok, ps4Ok⟩ := Kernel.not_refuses rfl
  obtain ⟨code, k', hc, hrun, hcreate⟩ :=
    hook_null FunctionHookInstallation.singleBytes ⟨0#64, 0#64⟩ .genericPre hr
    rfl (by decide) FunctionHookInstallation.plain_not_hooked plainMemory_succeeds
  have hkernel : k'.toKernel = FunctionHookInstallation.hookedKernel :=
    (congrArg Prod.snd hcreate).symm
  rw [FunctionHookInstallation.hookedKernel_eq] at hkernel
  have hlive : k'.live = [plainMemory.arg] := congrArg FunctionHookInstallation.Kernel.live hkernel
  refine ⟨code, k', hrun, hc, fun ha => ?_, hlive, ?_⟩
  · exact List.cons_ne_self _ _ (hlive.symm.trans ha.live)
  · have hplaced := FunctionHookInstallation.plain_fresh.placed
      FunctionHookInstallation.singleBytes_decodes
      FunctionHookInstallation.plainFunction_code FunctionHookInstallation.plainCode_kernel
    have hspace := FunctionHookInstallation.plainCode_kernel
      _ FunctionHookInstallation.plainFunction_code
    rw [hkernel]
    exact (FunctionHookInstallation.create_kernel hplaced.toLocated hspace (by decide)).1

end Ps4Sdk.FunctionHookFailures
