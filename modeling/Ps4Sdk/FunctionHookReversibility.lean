import Ps4Sdk.FunctionHookBytes
import Ps4Sdk.StepRuns

/-!
# Hooking is reversible

A live handle owns its prologue and its bridge, which hold the argument and the
copied bytes, and its function begins with the jump to the prologue; all other code
is as it was. The calls keep this as long as a function that they recognise as
hooked has a live handle.
-/

namespace Ps4Sdk.FunctionHookInstallation
open CheckedBlocks AtomicSpinLocks FunctionHookTables ByteMemory PayloadTemplates StepRuns

def Handle.Patched (a : Handle) (x : Address) : Prop :=
  Inside a.function (ps4PayloadJumpDeterminePatchSize a.prologue) x

/-- The blocks of a handle and the copied bytes of its function. -/
def Handle.Covers (a : Handle) (x : Address) : Prop :=
  Inside a.prologue blockSize x ∨ Inside a.bridge blockSize x ∨
    Inside a.function a.bridgeCopiedSize.toNat x

def Separate (a a' : Handle) : Prop := ∀ x, a.Covers x → ¬a'.Covers x

theorem Separate.symm {a a' : Handle} (h : Separate a a') : Separate a' a :=
  fun x hx hx' => h x hx' hx

/-- Every code byte is the initial one unless a live handle patches it, and every
live handle's function begins with the jump to that handle's prologue. -/
structure Reversible (code : Address → Prop) (initial : KernelMemory) (k : Kernel) : Prop where
  restored : ∀ x, code x → (∀ h ∈ k.live, ¬(k.handle h).Patched x) → k.memory x = initial x
  patched : ∀ h ∈ k.live,
    cellsAt k.memory (k.handle h).function (ps4PayloadJumpDeterminePatchSize
      (k.handle h).prologue) =
      jumpBytes (k.handle h).prologue

/-- The handle that `Create` makes. -/
def createdHandle (ud : Disassembler) (k : Kernel) (function : Address) (b : Blocks) : Handle :=
  ⟨function, b.prologue, b.bridge,
    bridgeCopiedSize ud
      (ps4KernelMemoryAllocate k.memory b.prologue
        ps4PayloadFunctionHookPrologueDeterminePatchSize) function b,
    0, created⟩

theorem Allotted.located {ud : Disassembler} {k : Kernel} {function : Address} {b : Blocks}
    (h : Allotted function b.prologue b.bridge (createdHandle ud k function b).bridgeCopiedSize)
    (hud : Decodes ud) :
    Located function b.prologue b.bridge (createdHandle ud k function b).bridgeCopiedSize :=
  ⟨h, (bridgeCopiedSize_bounds hud _ b h.present).1, (bridgeCopiedSize_bounds hud _ b h.present).2⟩

/-- The blocks are new kernel memory outside the code, and the bytes to be copied are
code that no live handle copied. -/
structure Fresh (ud : Disassembler) (code : Address → Prop) (k : Kernel)
    (function : Address) (b : Blocks) :
    Prop where
  handle : b.arg ≠ 0#64 ∧ b.arg ∉ k.live
  prologueBlock : ∀ x, Inside b.prologue blockSize x → KernelSpace x ∧ ¬code x
  bridgeBlock : ∀ x, Inside b.bridge blockSize x → KernelSpace x ∧ ¬code x
  apart : Apart b.prologue blockSize b.bridge blockSize
  copied : ∀ x, Inside function (createdHandle ud k function b).bridgeCopiedSize.toNat x → code x
  separate : ∀ h ∈ k.live, Separate (createdHandle ud k function b) (k.handle h)

/-- The calls on code whose allocations are fresh and whose handles are live. -/
def Placeable (ud : Disassembler) (code : Address → Prop) (k : Kernel) : Call → Prop
  | .create function b | .hook function _ _ b =>
    code function ∧ (ps4KernelFunctionIsHooked k.memory function ≠ ps4Ok →
      Fresh ud code k function b)
  | .destroy hookh _ => hookh ∈ k.live
  | .unhook function _ => code function

/-- The handle found in a function that looks hooked is live. -/
def Recognised (k : Kernel) : Call → Prop
  | .hook function _ _ _ | .unhook function _ =>
    ∀ h, ps4KernelFunctionGetHook k.memory function = .ok h → h ∈ k.live
  | _ => True

def CallStep (ud : Disassembler) (k : Kernel) (c : Call) (k' : Kernel) : Prop :=
  ∃ code, c.run ud k = .ok (code, k')

/-! ### The invariant -/

structure Owns (code : Address → Prop) (initial m : KernelMemory) (hookh : Address)
    (a : Handle) : Prop where
  nonNull : hookh ≠ 0#64
  placed : Placed code a.function a.prologue a.bridge a.bridgeCopiedSize
  jump : cellsAt m a.function (ps4PayloadJumpDeterminePatchSize a.prologue) = jumpBytes a.prologue
  argument : cellsAt m a.prologue 266 = prologueBytes hookh
  saved : cellsAt m a.bridge a.bridgeCopiedSize.toNat =
    cellsAt initial a.function a.bridgeCopiedSize.toNat
  idle : a.entryCount = 0
  clean : ∃ c : CleanTable, a.table = c.table

structure Installed (code : Address → Prop) (initial : KernelMemory) (k : Kernel) : Prop where
  owns : ∀ h ∈ k.live, Owns code initial k.memory h (k.handle h)
  separate : ∀ h ∈ k.live, ∀ h' ∈ k.live, h ≠ h' → Separate (k.handle h) (k.handle h')
  restored : ∀ x, code x → (∀ h ∈ k.live, ¬(k.handle h).Patched x) → k.memory x = initial x

section Invariant

variable {code : Address → Prop} {initial m m' : KernelMemory} {hookh : Address}
  {a : Handle} {k : Kernel}

private theorem Installed.reversible (h : Installed code initial k) : Reversible code initial k :=
  ⟨h.restored, fun hookh hl => (h.owns hookh hl).jump⟩

private theorem Placed.covers_of_patched
    (h : Placed code a.function a.prologue a.bridge a.bridgeCopiedSize) {x : Address}
    (hx : a.Patched x) : a.Covers x :=
  .inr (.inr (Inside.mono hx h.covers))

/-- What a handle owns does not depend on the rest of the memory. -/
theorem Owns.frame (h : Owns code initial m hookh a) (hm : ∀ x, a.Covers x → m' x = m x) :
    Owns code initial m' hookh a := by
  have hshort := h.placed.short
  refine { h with jump := ?_, argument := ?_, saved := ?_ }
  · rw [← h.jump]
    exact cellsAt_congr fun x hx => hm x (h.placed.covers_of_patched hx)
  · rw [← h.argument]
    exact cellsAt_congr fun x hx => hm x (.inl (hx.mono (by decide)))
  · rw [← h.saved]
    exact cellsAt_congr fun x hx => hm x (.inr (.inl (hx.mono (by simp only [blockSize]; omega))))

/-- A hooked function is recognised, and its own handle is found. -/
theorem Owns.getHook (h : Owns code initial m hookh a) :
    ps4KernelFunctionGetHook m a.function = .ok hookh := by
  obtain ⟨hf, hf'⟩ := h.placed.function_kernel
  obtain ⟨hp, hp'⟩ := h.placed.prologue_kernel
  have hsize : ps4PayloadTemplateFunctionHookPrologue.size = 266 :=
    ps4PayloadFunctionHookPrologueDeterminePatchSize_eq
  rw [ps4KernelFunctionGetHook, ps4PayloadJumpExtractTarget_filled hf.ne_zero hf'.ne_zero h.jump]
  exact ps4PayloadFunctionHookPrologueExtractArgument_filled hp.ne_zero hp'.ne_zero
    (by rw [hsize]; exact h.argument)

end Invariant

/-! ### The calls keep the invariant -/

section Calls

variable {ud : Disassembler} {code : Address → Prop} {initial : KernelMemory} {k : Kernel}
  {function hookh : Address} {b : Blocks}

theorem Fresh.placed (h : Fresh ud code k function b) (hud : Decodes ud) (hf : code function)
    (hcode : ∀ x, code x → KernelSpace x) :
    Placed code function b.prologue b.bridge (createdHandle ud k function b).bridgeCopiedSize := by
  have hallotted : Allotted function b.prologue b.bridge
    (createdHandle ud k function b).bridgeCopiedSize :=
    ⟨(hcode function hf).ne_zero, fun x hx => (h.prologueBlock x hx).1,
      fun x hx => (h.bridgeBlock x hx).1, h.apart,
      fun x hx hx' => (h.prologueBlock x hx').2 (h.copied x hx),
        fun x hx hx' => (h.bridgeBlock x hx').2 (h.copied x hx)⟩
  exact ⟨hallotted.located hud, fun x hx => (h.prologueBlock x hx).2,
    fun x hx => (h.bridgeBlock x hx).2,
    fun x hx => ⟨hcode x (h.copied x hx), h.copied x hx⟩⟩

/-- The memory after `Create` on a function that is not hooked. -/
def createdMemory (ud : Disassembler) (k : Kernel) (function : Address)
    (b : Blocks) : KernelMemory :=
  install (ps4KernelMemoryAllocate k.memory b.prologue
    ps4PayloadFunctionHookPrologueDeterminePatchSize)
    function b (createdHandle ud k function b).bridgeCopiedSize

theorem create_eq (hf : function ≠ 0#64)
    (hh : ps4KernelFunctionIsHooked k.memory function ≠ ps4Ok) :
    ps4KernelFunctionHookCreate ud k function b = (ps4Ok,
      ⟨createdMemory ud k function b, Function.update k.handle b.arg
        (createdHandle ud k function b), b.arg :: k.live⟩) := by
  rw [ps4KernelFunctionHookCreate, if_neg hf, if_neg hh]
  rfl

theorem allocate_prologue_outside {x : Address} (hx : ¬Inside b.prologue blockSize x) :
    ps4KernelMemoryAllocate k.memory b.prologue ps4PayloadFunctionHookPrologueDeterminePatchSize x =
      k.memory x :=
  allocate_outside (by rw [ps4PayloadFunctionHookPrologueDeterminePatchSize_eq]; decide) hx

private theorem createdMemory_outside {x : Address}
    (hp : Placed code function b.prologue b.bridge (createdHandle ud k function b).bridgeCopiedSize)
    (h₁ : ¬Inside b.prologue blockSize x) (h₂ : ¬Inside b.bridge blockSize x)
    (h₃ : ¬(createdHandle ud k function b).Patched x) :
    createdMemory ud k function b x = k.memory x := by
  rw [createdMemory, install_outside hp h₁ h₂ h₃, allocate_prologue_outside h₁]

/-- The bridge of the new handle holds initial bytes, since no live handle patches them. -/
theorem createdMemory_owns (hi : Installed code initial k) (hb : Fresh ud code k function b)
    (hp : Placed code function b.prologue b.bridge
      (createdHandle ud k function b).bridgeCopiedSize) :
    Owns code initial (createdMemory ud k function b) b.arg (createdHandle ud k function b) where
  nonNull := hb.handle.1
  placed := hp
  jump := install_jump hp
  argument := install_prologue hp
  saved := by
    refine (install_bridge hp).trans (cellsAt_congr fun x hx => ?_)
    rw [allocate_prologue_outside (hp.function_prologue x hx)]
    refine hi.restored x (hp.copied x hx).2 fun h hl hpat => ?_
    exact hb.separate h hl x (.inr (.inr hx)) ((hi.owns h hl).placed.covers_of_patched hpat)
  idle := rfl
  clean := ⟨.created, rfl⟩

theorem create_installed (hi : Installed code initial k) (hud : Decodes ud)
    (hcode : ∀ x, code x → KernelSpace x) (hf : code function)
    (hh : ps4KernelFunctionIsHooked k.memory function ≠ ps4Ok) (hb : Fresh ud code k function b) :
    Installed code initial (ps4KernelFunctionHookCreate ud k function b).2 := by
  have hp := hb.placed hud hf hcode
  have hself : Function.update k.handle b.arg (createdHandle ud k function b) b.arg =
      createdHandle ud k function b := Function.update_self ..
  have hother : ∀ h ∈ k.live,
      Function.update k.handle b.arg (createdHandle ud k function b) h = k.handle h := by
    intro h hl
    apply Function.update_of_ne
    rintro rfl
    exact hb.handle.2 hl
  rw [create_eq (hcode function hf).ne_zero hh]
  refine ⟨?_, ?_, ?_⟩
  · simp only [List.forall_mem_cons, hself]
    refine ⟨createdMemory_owns hi hb hp, fun h hl => ?_⟩
    rw [hother h hl]
    refine (hi.owns h hl).frame fun x hx => ?_
    have hc : ¬(createdHandle ud k function b).Covers x := fun hc => hb.separate h hl x hc hx
    exact createdMemory_outside hp (fun h₁ => hc (.inl h₁)) (fun h₂ => hc (.inr (.inl h₂)))
      (fun h₃ => hc (Placed.covers_of_patched hp h₃))
  · simp only [List.forall_mem_cons, hself]
    refine ⟨⟨fun hne => absurd rfl hne, fun h hl _ => ?_⟩,
      fun h hl => ⟨fun _ => ?_, fun h' hl' hne => ?_⟩⟩
    · rw [hother h hl]
      exact hb.separate h hl
    · rw [hother h hl]
      exact (hb.separate h hl).symm
    · rw [hother h hl, hother h' hl']
      exact hi.separate h hl h' hl' hne
  · simp only [List.forall_mem_cons, hself]
    rintro x hx ⟨hpat, hrest⟩
    rw [createdMemory_outside hp (fun h₁ => (hb.prologueBlock x h₁).2 hx)
      (fun h₂ => (hb.bridgeBlock x h₂).2 hx) hpat]
    refine hi.restored x hx fun h hl => ?_
    rw [← hother h hl]
    exact hrest h hl

/-- `Destroy` of a live handle does not wait for any thread. -/
theorem destroy_eq {m : KernelMemory}
    (h : Owns code initial m hookh (k.handle hookh)) (r : Residue) :
    ps4KernelFunctionHookDestroy k hookh r = .ok (ps4Ok,
      { memory := ps4KernelMemoryFree
          (ps4KernelMemoryFree (restore k.memory (k.handle hookh) 0)
            (k.handle hookh).prologue r.memory)
          (k.handle hookh).bridge r.memory
        handle := Function.update k.handle hookh r.handle
        live := k.live.filter (fun h => h ≠ hookh) }) := by
  obtain ⟨c, hc⟩ := h.clean
  have hlock : ps4AtomicSpinLock64 (k.handle hookh).table.lock = .ok 1 := by
    rw [hc]
    rfl
  have hcount : ¬(k.handle hookh).entryCount > 0 := by
    rw [h.idle]
    decide
  rw [ps4KernelFunctionHookDestroy, if_neg h.nonNull]
  simp only [hlock]
  change (if (k.handle hookh).entryCount > 0 then _ else _) = _
  rw [if_neg hcount]
  rfl

private theorem unhook_eq
    (hg : ps4KernelFunctionGetHook k.memory function = .ok hookh) (r : Residue) :
    ps4KernelFunctionUnhook k function r = ps4KernelFunctionHookDestroy k hookh r := by
  rw [ps4KernelFunctionUnhook, hg]

theorem destroy_installed (hi : Installed code initial k) (hl : hookh ∈ k.live) (r : Residue) :
    ∃ k', ps4KernelFunctionHookDestroy k hookh r = .ok (ps4Ok, k') ∧ Installed code initial k' := by
  have hown := hi.owns hookh hl
  have hp := hown.placed
  refine ⟨_, destroy_eq hown r, ?_⟩
  have hfree : ∀ x, ¬Inside (k.handle hookh).prologue blockSize x →
    ¬Inside (k.handle hookh).bridge blockSize x →
      ps4KernelMemoryFree
        (ps4KernelMemoryFree (restore k.memory (k.handle hookh) 0)
          (k.handle hookh).prologue r.memory)
        (k.handle hookh).bridge r.memory x = restore k.memory (k.handle hookh) 0 x := by
    intro x h₁ h₂
    rw [free_outside h₂, free_outside h₁]
  have hmem : ∀ h, h ∈ k.live.filter (fun h => h ≠ hookh) → h ∈ k.live ∧ h ≠ hookh := by
    intro h hm
    simpa using List.mem_filter.mp hm
  refine ⟨?_, ?_, ?_⟩
  · intro h hm
    obtain ⟨hlive, hne⟩ := hmem h hm
    simp only [Function.update_of_ne hne]
    refine (hi.owns h hlive).frame fun x hx => ?_
    have hc := hi.separate h hlive hookh hl hne x hx
    rw [hfree x (fun h₁ => hc (.inl h₁)) (fun h₂ => hc (.inr (.inl h₂))),
      restore_outside _ _ hp (fun h₃ => hc (.inr (.inr h₃)))]
  · intro h hm h' hm' hne
    simp only [Function.update_of_ne (hmem h hm).2, Function.update_of_ne (hmem h' hm').2]
    exact hi.separate h (hmem h hm).1 h' (hmem h' hm').1 hne
  · intro x hx hpat
    simp only
    rw [hfree x (fun h₁ => hp.prologue_code x h₁ hx) (fun h₂ => hp.bridge_code x h₂ hx)]
    by_cases hin : Inside (k.handle hookh).function (k.handle hookh).bridgeCopiedSize.toNat x
    · exact eq_of_cellsAt_eq ((restore_function k.memory 0 hp).trans hown.saved) hin
    · rw [restore_outside _ _ hp hin]
      refine hi.restored x hx fun h hlive => ?_
      by_cases hne : h = hookh
      · subst hne
        exact fun hpatched => hin (Inside.mono hpatched hp.covers)
      · have hother := hpat h (List.mem_filter.mpr ⟨hlive, by simpa using hne⟩)
        simpa only [Function.update_of_ne hne] using hother

theorem Installed.setTable (hi : Installed code initial k) (hl : hookh ∈ k.live) (c : CleanTable) :
    Installed code initial
      { k with handle := Function.update k.handle hookh { k.handle hookh with
        table := c.table } } := by
  have hhandle : ∀ h ∈ k.live, ∃ c' : CleanTable,
      Function.update k.handle hookh { k.handle hookh with table := c.table } h =
        { k.handle h with table := c'.table } := by
    intro h hlive
    rcases eq_or_ne h hookh with rfl | hne
    · exact ⟨c, Function.update_self ..⟩
    · obtain ⟨c', hc'⟩ := (hi.owns h hlive).clean
      refine ⟨c', ?_⟩
      rw [Function.update_of_ne hne, ← hc']
  refine ⟨fun h hlive => ?_, fun h hlive h' hlive' hne => ?_, fun x hx hpat => ?_⟩
  · obtain ⟨c', he⟩ := hhandle h hlive
    simp only [he]
    exact { hi.owns h hlive with clean := ⟨c', rfl⟩ }
  · obtain ⟨c₁, he₁⟩ := hhandle h hlive
    obtain ⟨c₂, he₂⟩ := hhandle h' hlive'
    simp only [he₁, he₂]
    exact hi.separate h hlive h' hlive' hne
  · refine hi.restored x hx fun h hlive => ?_
    obtain ⟨c', he⟩ := hhandle h hlive
    have hnot := hpat h hlive
    simp only [he] at hnot
    exact hnot

theorem addToHandle_installed (hi : Installed code initial k) (hl : hookh ∈ k.live)
    (callee : Address) (type : HookType) :
    ∃ code' k', addToHandle .succeeds k hookh callee type = .ok (code', k') ∧
    Installed code initial k' := by
  have hown := hi.owns hookh hl
  obtain ⟨c, hc⟩ := hown.clean
  rw [addToHandle, if_neg hown.nonNull, hc]
  by_cases hn : callee = 0#64
  · rw [ps4KernelFunctionHookAdd, if_pos hn]
    exact ⟨_, _, rfl, hi.setTable hl c⟩
  · rw [c.add_table _ _ _ hn, if_neg (by simp)]
    exact ⟨_, _, rfl, hi.setTable hl _⟩

theorem call_installed (hi : Installed code initial k) (hud : Decodes ud)
    (hcode : ∀ x, code x → KernelSpace x) (c : Call) (hp : Placeable ud code k c)
    (hr : Recognised k c) :
    ∃ code' k', c.run ud k = .ok (code', k') ∧ Installed code initial k' := by
  cases c with
  | create function b =>
    obtain ⟨hf, hb⟩ := hp
    refine ⟨_, (ps4KernelFunctionHookCreate ud k function b).2, rfl, ?_⟩
    by_cases hh : ps4KernelFunctionIsHooked k.memory function = ps4Ok
    · rw [ps4KernelFunctionHookCreate, if_neg (hcode function hf).ne_zero, if_pos hh]
      exact hi
    · exact create_installed hi hud hcode hf hh (hb hh)
  | hook function callee type b =>
    obtain ⟨hf, hb⟩ := hp
    change ∃ code' k', ps4KernelFunctionHook ud .succeeds k function callee type b =
      .ok (code', k') ∧ _
    by_cases hh : ps4KernelFunctionIsHooked k.memory function = ps4Ok
    · rw [ps4KernelFunctionHook, if_neg (not_not.mpr hh)]
      cases hg : ps4KernelFunctionGetHook k.memory function with
      | ok hookh => exact addToHandle_installed hi (hr hookh hg) callee type
      | error e => exact ⟨_, _, rfl, hi⟩
    · have hcreated := create_installed hi hud hcode hf hh (hb hh)
      have hne := (hcode function hf).ne_zero
      rw [create_eq hne hh] at hcreated
      rw [ps4KernelFunctionHook, if_pos hh, create_eq hne hh]
      exact addToHandle_installed hcreated (List.mem_cons_self ..) callee type
  | destroy hookh r =>
    obtain ⟨k', he, hi'⟩ := destroy_installed hi hp r
    exact ⟨_, k', he, hi'⟩
  | unhook function r =>
    cases hg : ps4KernelFunctionGetHook k.memory function with
    | ok hookh =>
      obtain ⟨k', he, hi'⟩ := destroy_installed hi (hr hookh hg) r
      exact ⟨_, k', (unhook_eq hg r).trans he, hi'⟩
    | error e =>
      refine ⟨ps4ErrorExpectationFailed, k, ?_, hi⟩
      change ps4KernelFunctionUnhook k function r = _
      rw [ps4KernelFunctionUnhook, hg]

end Calls

/-- Hooking is reversible in every run of calls on code, from a memory without live
handles, and each call returns. -/
theorem hooking_reversible (ud : Disassembler) (code : Address → Prop) (k₀ k : Kernel)
    (calls : List Call) (hud : Decodes ud) (hcode : ∀ x, code x → KernelSpace x) (h₀ : k₀.live = [])
    (h : Run (Guarded (fun k c => Placeable ud code k c ∧ Recognised k c)
      (CallStep ud)) k₀ calls k) :
    Reversible code k₀.memory k ∧
      ∀ c, Placeable ud code k c → Recognised k c → ∃ k', CallStep ud k c k' := by
  have hstart : Installed code k₀.memory k₀ := by
    constructor <;> simp [h₀]
  have hend : Installed code k₀.memory k := by
    refine h.invariant (fun k c k' hi hstep => ?_) hstart
    obtain ⟨⟨hp, hr⟩, code', hrun⟩ := hstep
    obtain ⟨code'', k'', hrun', hi'⟩ := call_installed hi hud hcode c hp hr
    rw [hrun] at hrun'
    cases hrun'
    exact hi'
  refine ⟨hend.reversible, fun c hp hr => ?_⟩
  obtain ⟨code', k', hrun, -⟩ := call_installed hend hud hcode c hp hr
  exact ⟨k', code', hrun⟩

/-! ### A function of plain instructions -/

def singleBytes : Disassembler := fun _ _ => 1

theorem singleBytes_decodes : Decodes singleBytes := fun _ _ => ⟨Nat.one_pos, Nat.one_lt_ofNat⟩

def plainFunction : Address := 0xffff800000000000#64

def plainCode (x : Address) : Prop := Inside plainFunction 0x1000 x

def plainBlocks : Blocks := ⟨0xffff800000040000, 0xffff800000010000, 0xffff800000020000, 0⟩

def plainKernel : Kernel := ⟨fun _ => 0x90, fun _ => ⟨0, 0, 0, 0, 0, created⟩, []⟩

theorem kernelSpace_of_le {x : Address} (h : 0xffff800000000000 ≤ x.toNat) : KernelSpace x := by
  have hx : x >>> 48 > 0#64 := by
    have hz : (0#64).toNat = 0 := rfl
    rw [gt_iff_lt, BitVec.lt_def, BitVec.toNat_ushiftRight, Nat.shiftRight_eq_div_pow]
    omega
  exact if_pos hx

theorem plainCode_bounds {x : Address} (h : plainCode x) :
    0xffff800000000000 ≤ x.toNat ∧ x.toNat < 0xffff800000001000 :=
  Inside.toNat_bounds (a := plainFunction) (n := 0x1000) h (by decide)

theorem plainCode_kernel (x : Address) (h : plainCode x) : KernelSpace x :=
  kernelSpace_of_le (plainCode_bounds h).1

theorem plainFunction_code : plainCode plainFunction := inside_self plainFunction (by decide)

private theorem plain_prologue {x : Address} (h : Inside plainBlocks.prologue blockSize x) :
    0xffff800000010000 ≤ x.toNat ∧ x.toNat < 0xffff800000014001 :=
  Inside.toNat_bounds (a := plainBlocks.prologue) h (by decide)

theorem plain_bridge {x : Address} (h : Inside plainBlocks.bridge blockSize x) :
    0xffff800000020000 ≤ x.toNat ∧ x.toNat < 0xffff800000024001 :=
  Inside.toNat_bounds (a := plainBlocks.bridge) h (by decide)

theorem plain_fresh_of {ud : Disassembler} (hud : Decodes ud) :
    Fresh ud plainCode plainKernel plainFunction plainBlocks where
  handle := by decide
  prologueBlock x hx := by
    have hp := plain_prologue hx
    refine ⟨kernelSpace_of_le (by omega), fun hc => ?_⟩
    have hf := plainCode_bounds hc
    omega
  bridgeBlock x hx := by
    have hb := plain_bridge hx
    refine ⟨kernelSpace_of_le (by omega), fun hc => ?_⟩
    have hf := plainCode_bounds hc
    omega
  apart := by
    intro x hx hx'
    have hp := plain_prologue hx
    have hb := plain_bridge hx'
    omega
  copied x hx := by
    have hs := (bridgeCopiedSize_bounds hud (ps4KernelMemoryAllocate plainKernel.memory
      plainBlocks.prologue ps4PayloadFunctionHookPrologueDeterminePatchSize) plainBlocks
      (by decide : plainFunction ≠ 0#64)).2
    exact Inside.mono hx (Nat.le_of_lt (Nat.lt_trans hs (by decide)))
  separate h hl := absurd hl List.not_mem_nil

theorem plain_fresh : Fresh singleBytes plainCode plainKernel plainFunction plainBlocks :=
  plain_fresh_of singleBytes_decodes

theorem plain_not_hooked :
    ps4KernelFunctionIsHooked plainKernel.memory plainFunction ≠ ps4Ok := by decide

def hookedKernel : Kernel :=
  (ps4KernelFunctionHookCreate singleBytes plainKernel plainFunction plainBlocks).2

theorem hookedKernel_eq : hookedKernel =
    ⟨createdMemory singleBytes plainKernel plainFunction plainBlocks,
      Function.update plainKernel.handle plainBlocks.arg
        (createdHandle singleBytes plainKernel plainFunction plainBlocks), [plainBlocks.arg]⟩ :=
  congrArg Prod.snd (create_eq (by decide) plain_not_hooked)

private theorem create_plain :
    CallStep singleBytes plainKernel (.create plainFunction plainBlocks) hookedKernel := by
  refine ⟨ps4Ok, ?_⟩
  rw [hookedKernel_eq]
  exact congrArg Except.ok (create_eq (by decide) plain_not_hooked)

private theorem hookedKernel_installed : Installed plainCode plainKernel.memory hookedKernel :=
  create_installed ⟨by simp [plainKernel], by simp [plainKernel], fun _ _ _ => rfl⟩
    singleBytes_decodes
    plainCode_kernel plainFunction_code plain_not_hooked plain_fresh

theorem hookedKernel_handle : hookedKernel.handle plainBlocks.arg =
    createdHandle singleBytes plainKernel plainFunction plainBlocks := by
  rw [hookedKernel_eq]
  simp only [Function.update_self]

private theorem hookedKernel_owns :
    Owns plainCode plainKernel.memory hookedKernel.memory plainBlocks.arg
      (hookedKernel.handle plainBlocks.arg) :=
  hookedKernel_installed.owns _ (by rw [hookedKernel_eq]; exact List.mem_singleton_self _)

private theorem hookedKernel_getHook :
    ps4KernelFunctionGetHook hookedKernel.memory plainFunction = .ok plainBlocks.arg := by
  have hg := hookedKernel_owns.getHook
  rwa [hookedKernel_handle] at hg

/-- The hook is removed whether or not its handle is recorded as live. -/
theorem unhook_plain (live : List Address) (r : Residue) :
    ∃ k, CallStep singleBytes { hookedKernel with live := live } (.unhook plainFunction r) k ∧
      k.live = live.filter (fun h => h ≠ plainBlocks.arg) ∧ k.memory plainFunction = 0x90 := by
  have hown := hookedKernel_owns
  have hp := hown.placed
  have hin : Inside (hookedKernel.handle plainBlocks.arg).function
      (hookedKernel.handle plainBlocks.arg).bridgeCopiedSize.toNat plainFunction := by
    rw [hookedKernel_handle] at hp ⊢
    exact inside_self _ (Nat.lt_trans Nat.two_pos hp.two_lt)
  have hrun := unhook_eq (k := { hookedKernel with live := live }) hookedKernel_getHook r
  refine ⟨_, ⟨_, hrun.trans (destroy_eq (k := { hookedKernel with live := live }) hown r)⟩, rfl, ?_⟩
  simp only
  rw [free_outside (hp.function_bridge _ hin), free_outside (hp.function_prologue _ hin)]
  exact eq_of_cellsAt_eq ((restore_function hookedKernel.memory 0 hp).trans hown.saved) hin

def cleared : Residue := ⟨fun _ => 0, ⟨0, 0, 0, 0, 0, created⟩⟩

theorem hooking_reversible_create_unhook :
    ∃ k, Run (Guarded (fun k c => Placeable singleBytes plainCode k c ∧ Recognised k c)
      (CallStep singleBytes))
        plainKernel [.create plainFunction plainBlocks, .unhook plainFunction cleared] k ∧
      k.live = [] ∧ Reversible plainCode plainKernel.memory k := by
  have hlive : hookedKernel.live = [plainBlocks.arg] := by rw [hookedKernel_eq]
  obtain ⟨k, hstep, hk, -⟩ := unhook_plain hookedKernel.live cleared
  have hrec : Recognised hookedKernel (.unhook plainFunction cleared) := by
    intro h hg
    rw [hookedKernel_getHook] at hg
    cases hg
    rw [hlive]
    exact List.mem_singleton_self _
  have hrun : Run (Guarded (fun k c => Placeable singleBytes plainCode k c ∧ Recognised k c)
      (CallStep singleBytes)) plainKernel [.create plainFunction plainBlocks,
      .unhook plainFunction cleared] k :=
    .cons ⟨⟨⟨plainFunction_code, fun _ => plain_fresh⟩, trivial⟩, create_plain⟩
      (.single ⟨⟨plainFunction_code, hrec⟩, hstep⟩)
  refine ⟨k, hrun, ?_, (hooking_reversible _ _ _ _ _ singleBytes_decodes
    plainCode_kernel rfl hrun).1⟩
  rw [hk, hlive]
  decide

/-- A hook that was there before the run is found by its bytes and removed. -/
theorem unhook_removes_earlier_hook :
    ∃ k, Run (Guarded (Placeable singleBytes plainCode) (CallStep singleBytes))
        { hookedKernel with live := [] } [.unhook plainFunction cleared] k ∧
      ¬Reversible plainCode hookedKernel.memory k := by
  obtain ⟨k, hstep, hk, hmem⟩ := unhook_plain [] cleared
  refine ⟨k, .single ⟨plainFunction_code, hstep⟩, fun hrev => ?_⟩
  have hsame := hrev.restored plainFunction plainFunction_code (by simp [hk])
  have hfirst : hookedKernel.memory plainFunction = 0x49 := by
    have hjump := hookedKernel_owns.jump
    rw [hookedKernel_handle] at hjump
    change cellsAt hookedKernel.memory plainFunction (12 + 1) = _ at hjump
    rw [cellsAt_succ] at hjump
    exact List.head_eq_of_cons_eq hjump
  rw [hmem, hfirst] at hsame
  exact absurd hsame (by decide)

end Ps4Sdk.FunctionHookInstallation
