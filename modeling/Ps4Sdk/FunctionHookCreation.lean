import Ps4Sdk.FunctionHookReversibility

/-!
# What `Create` promises

A jump is only written between addresses of one space. `Create` does not look at the
code that `ps4KernelFunctionPatchToJump` returns, so it succeeds for a function of
user space as well, and leaves that function without a hook.
-/

namespace Ps4Sdk.FunctionHookInstallation
open ByteMemory PayloadTemplates

/-! ### What the recognisers read -/

section Congruence

variable {m m' : KernelMemory} {a : Address}

private theorem compare_congr (t : Template) (h : ∀ x, Inside a t.size x → m x = m' x) :
    t.compare m a = t.compare m' a := by
  rw [Template.compare, Template.compare, ps4KernelMemoryCompareNonZeros,
    ps4KernelMemoryCompareNonZeros, t.length_bytes, cellsAt_congr h]

private theorem extract_congr (t : Template) (h : ∀ x, Inside a t.size x → m x = m' x) :
    t.extract m a = t.extract m' a := by
  have hcells : cellsAt m (a + BitVec.ofNat 64 t.front.length) t.width =
      cellsAt m' (a + BitVec.ofNat 64 t.front.length) t.width :=
    cellsAt_congr fun x hx => h x (hx.of_add (by simp [Template.size]))
  rw [Template.extract, Template.extract, copyFrom, copyFrom, hcells]

private theorem jumpExtractTarget_congr (h : ∀ x, Inside a 13 x → m x = m' x) :
    ps4PayloadJumpExtractTarget m a = ps4PayloadJumpExtractTarget m' a := by
  have h₃₂ : ∀ x, Inside a ps4PayloadTemplateJump32.size x → m x = m' x :=
    fun x hx => h x (hx.mono (by decide))
  rw [ps4PayloadJumpExtractTarget, ps4PayloadJumpExtractTarget, compare_congr _ h₃₂,
    extract_congr _ h₃₂, compare_congr ps4PayloadTemplateJump64 h,
    extract_congr ps4PayloadTemplateJump64 h]

private theorem prologueIsPatched_congr (h : ∀ x, Inside a 266 x → m x = m' x) :
    ps4PayloadFunctionHookPrologueIsPatched m a = ps4PayloadFunctionHookPrologueIsPatched m' a := by
  have hsize : ps4PayloadTemplateFunctionHookPrologue.size = 266 :=
    ps4PayloadFunctionHookPrologueDeterminePatchSize_eq
  rw [ps4PayloadFunctionHookPrologueIsPatched, ps4PayloadFunctionHookPrologueIsPatched,
    compare_congr ps4PayloadTemplateFunctionHookPrologue (by rwa [hsize])]

end Congruence

private theorem isHooked_iff {m : KernelMemory} {function : Address} :
    ps4KernelFunctionIsHooked m function = ps4Ok ↔
    ∃ adr, ps4PayloadJumpExtractTarget m function = .ok adr ∧
      ps4PayloadFunctionHookPrologueIsPatched m adr = ps4Ok := by
  rw [ps4KernelFunctionIsHooked]
  cases ps4PayloadJumpExtractTarget m function with
  | error code => exact iff_of_false (by simp [ps4NotOk, ps4Ok]) (by simp)
  | ok adr => simp

/-- Where the operand of the jump would be at zero, no operand is ever read. -/
theorem not_isHooked_of_add_two {m : KernelMemory} {function : Address} (h : function + 2 = 0#64) :
    ps4KernelFunctionIsHooked m function ≠ ps4Ok := by
  have hzero : ∀ t : Template, t.front.length = 2 → t.width = 4 ∨ t.width = 8 →
      t.extract m function = 0#64 := by
    intro t hf hw
    rw [Template.extract, hf, copyFrom, if_pos (show function + BitVec.ofNat 64 2 = 0#64 from h)]
    rcases hw with hw | hw <;> rw [hw] <;> rfl
  rw [Ne, isHooked_iff]
  rintro ⟨adr, hadr, hp⟩
  have hadr₀ : adr = 0#64 := by
    unfold ps4PayloadJumpExtractTarget at hadr
    split_ifs at hadr
    · rw [← Except.ok.inj hadr]
      exact hzero _ rfl (.inl rfl)
    · rw [← Except.ok.inj hadr]
      exact hzero _ rfl (.inr rfl)
  rw [hadr₀, ps4PayloadFunctionHookPrologueIsPatched, if_pos rfl] at hp
  exact absurd hp (by decide)

/-! ### Functions of the kernel -/

section Create

variable {ud : Disassembler} {k : Kernel} {function : Address} {b : Blocks}

/-- The jump to the prologue and the prologue are in their places. -/
theorem createdMemory_kernel
    (h : Located function b.prologue b.bridge (createdHandle ud k function b).bridgeCopiedSize)
    (hk : KernelSpace function) (h₂ : function + 2 ≠ 0#64) :
    cellsAt (createdMemory ud k function b) function (ps4PayloadJumpDeterminePatchSize b.prologue) =
        jumpBytes b.prologue ∧
      cellsAt (createdMemory ud k function b) b.prologue 266 = prologueBytes b.arg := by
  have hlen := length_jumpBytes b.prologue
  have hsize := (patchSize_bounds b.prologue).2
  have hspace : ps4KernelIsKernelAddress function = ps4KernelIsKernelAddress b.prologue :=
    hk.trans h.prologue_kernel.1.symm
  have heq : createdMemory ud k function b =
      write (prepare (ps4KernelMemoryAllocate k.memory b.prologue
        ps4PayloadFunctionHookPrologueDeterminePatchSize) function b
          (createdHandle ud k function b).bridgeCopiedSize) function (jumpBytes b.prologue) := by
    rw [createdMemory, install, ps4KernelFunctionPatchToJump, if_neg (not_not.mpr hspace),
      ps4PayloadJumpPatch, if_neg hk.ne_zero]
    refine (jumpTemplate b.prologue).patch_eq _ _ hk.ne_zero ?_ (Nat.le_trans hsize (by decide))
    rwa [jumpTemplate_front]
  rw [heq]
  constructor
  · rw [← hlen]
    exact cellsAt_write _ _ _ (by rw [hlen]; omega)
  · rw [cellsAt_write_apart, prepare_prologue h]
    rw [hlen]
    exact h.function_prologue.symm.mono (by decide) h.covers

/-- A function of the kernel is hooked, and the new handle is found. -/
theorem create_kernel
    (h : Located function b.prologue b.bridge (createdHandle ud k function b).bridgeCopiedSize)
    (hk : KernelSpace function) (h₂ : function + 2 ≠ 0#64) :
    ps4KernelFunctionIsHooked (createdMemory ud k function b) function = ps4Ok ∧
      ps4KernelFunctionGetHook (createdMemory ud k function b) function = .ok b.arg := by
  obtain ⟨hjump, hprologue⟩ := createdMemory_kernel h hk h₂
  obtain ⟨hp, hp'⟩ := h.prologue_kernel
  have hsize : ps4PayloadTemplateFunctionHookPrologue.size = 266 :=
    ps4PayloadFunctionHookPrologueDeterminePatchSize_eq
  rw [← hsize] at hprologue
  have htarget := ps4PayloadJumpExtractTarget_filled hk.ne_zero h₂ hjump
  constructor
  · exact isHooked_iff.mpr ⟨_, htarget, ps4PayloadFunctionHookPrologueIsPatched_filled hp.ne_zero
      hprologue⟩
  · rw [ps4KernelFunctionGetHook, htarget]
    exact ps4PayloadFunctionHookPrologueExtractArgument_filled hp.ne_zero hp'.ne_zero hprologue

/-! ### Functions of user space -/

theorem patchSize_kernel {target : Address} (h : KernelSpace target) :
    ps4PayloadJumpDeterminePatchSize target = 13 := by
  have hhigh : ¬target &&& 0xffffffff00000000 = 0#64 := by
    intro hlow
    have hlt := toNat_lt_of_low hlow
    refine absurd h (ne_of_eq_of_ne (if_neg ?_) (by decide))
    rw [gt_iff_lt, BitVec.lt_def, BitVec.toNat_ushiftRight, Nat.shiftRight_eq_div_pow]
    have hz : (0#64).toNat = 0 := rfl
    omega
  rw [ps4PayloadJumpDeterminePatchSize, jumpTemplate, if_neg hhigh]
  rfl

private theorem createdMemory_user
    (h : Located function b.prologue b.bridge (createdHandle ud k function b).bridgeCopiedSize)
    (hk : ¬KernelSpace function) {x : Address} (hp : ¬Inside b.prologue blockSize x)
    (hb : ¬Inside b.bridge blockSize x) : createdMemory ud k function b x = k.memory x := by
  have hspace : ps4KernelIsKernelAddress function ≠ ps4KernelIsKernelAddress b.prologue :=
    fun he => hk (he.trans h.prologue_kernel.1)
  rw [createdMemory, install, ps4KernelFunctionPatchToJump, if_pos hspace]
  exact (prepare_outside h hp hb).trans (allocate_prologue_outside hp)

/-- A function of user space is hooked after `Create` only if it was hooked before, unless it jumped
into the memory that the blocks are made of. -/
theorem isHooked_of_create_user
    (h : Located function b.prologue b.bridge (createdHandle ud k function b).bridgeCopiedSize)
    (hk : ¬KernelSpace function)
    (htarget : ∀ adr, ps4PayloadJumpExtractTarget k.memory function = .ok adr →
      Apart adr 266 b.prologue blockSize ∧ Apart adr 266 b.bridge blockSize)
    (hh : ps4KernelFunctionIsHooked (createdMemory ud k function b) function = ps4Ok) :
    ps4KernelFunctionIsHooked k.memory function = ps4Ok := by
  have hjump : ps4PayloadJumpDeterminePatchSize b.prologue = 13 :=
    patchSize_kernel h.prologue_kernel.1
  have hsame : ∀ x, Inside function 13 x → createdMemory ud k function b x = k.memory x := by
    intro x hx
    have hx' := hx.mono (hjump.symm.le.trans h.covers)
    exact createdMemory_user h hk (h.function_prologue x hx') (h.function_bridge x hx')
  obtain ⟨adr, hadr, hpatched⟩ := isHooked_iff.mp hh
  rw [jumpExtractTarget_congr hsame] at hadr
  obtain ⟨hp, hb⟩ := htarget adr hadr
  refine isHooked_iff.mpr ⟨adr, hadr, ?_⟩
  rw [← hpatched]
  exact prologueIsPatched_congr fun x hx => (createdMemory_user h hk (hp x hx) (hb x hx)).symm

end Create

/-! ### Blocks for any function -/

/-- Two blocks behind an address of the kernel. -/
def blocksBehind (base : ℕ) : Blocks :=
  ⟨BitVec.ofNat 64 (base + 0x30000), BitVec.ofNat 64 (base + 0x10000),
    BitVec.ofNat 64 (base + 0x20000), 0⟩

section BlocksBehind

variable {base : ℕ} (hbase : 0xffff800000000000 ≤ base) (hend : base ≤ 0xffff900000000000)
include hbase hend

theorem inside_prologue_behind {x : Address} (h : Inside (blocksBehind base).prologue blockSize x) :
    base + 0x10000 ≤ x.toNat ∧ x.toNat < base + 0x14001 := by
  have ht : (BitVec.ofNat 64 (base + 0x10000)).toNat = base + 0x10000 := by
    rw [BitVec.toNat_ofNat, Nat.mod_eq_of_lt (by omega)]
  have hb := Inside.toNat_cases h
  simp only [blocksBehind, blockSize, ht] at hb
  omega

theorem inside_bridge_behind {x : Address} (h : Inside (blocksBehind base).bridge blockSize x) :
    base + 0x20000 ≤ x.toNat ∧ x.toNat < base + 0x24001 := by
  have ht : (BitVec.ofNat 64 (base + 0x20000)).toNat = base + 0x20000 := by
    rw [BitVec.toNat_ofNat, Nat.mod_eq_of_lt (by omega)]
  have hb := Inside.toNat_cases h
  simp only [blocksBehind, blockSize, ht] at hb
  omega

theorem apart_behind {a : Address} {n : ℕ}
    (ha : ∀ x, Inside a n x → x.toNat < base ∨ base + 0x30000 ≤ x.toNat) :
    Apart a n (blocksBehind base).prologue blockSize ∧
    Apart a n (blocksBehind base).bridge blockSize := by
  constructor
  · intro x hx hb
    have h₁ := ha x hx
    have h₂ := inside_prologue_behind hbase hend hb
    omega
  · intro x hx hb
    have h₁ := ha x hx
    have h₂ := inside_bridge_behind hbase hend hb
    omega

theorem allotted_behind {function : Address} {size : BitVec 64} (hf : function ≠ 0#64)
    (ha : ∀ x, Inside function size.toNat x → x.toNat < base ∨ base + 0x30000 ≤ x.toNat) :
    Allotted function (blocksBehind base).prologue (blocksBehind base).bridge size where
  present := hf
  prologueBlock x hx := kernelSpace_of_le (by have h := inside_prologue_behind hbase hend hx; omega)
  bridgeBlock x hx := kernelSpace_of_le (by have h := inside_bridge_behind hbase hend hx; omega)
  apart x hx hx' := by
    have h₁ := inside_prologue_behind hbase hend hx
    have h₂ := inside_bridge_behind hbase hend hx'
    omega
  function_prologue := (apart_behind hbase hend ha).1
  function_bridge := (apart_behind hbase hend ha).2

end BlocksBehind

/-- There are blocks that a function does not jump into. -/
theorem exists_base (m : KernelMemory) (function : Address) :
    ∃ base, 0xffff800000000000 ≤ base ∧ base ≤ 0xffff900000000000 ∧
      ∀ adr, ps4PayloadJumpExtractTarget m function = .ok adr →
        ∀ x, Inside adr 266 x → x.toNat < base ∨ base + 0x30000 ≤ x.toNat := by
  cases hadr : ps4PayloadJumpExtractTarget m function with
  | error code => exact ⟨0xffff800000000000, by omega, by omega, fun adr h => by cases h⟩
  | ok adr =>
    by_cases hlow : adr.toNat < 0xffff880000000000
    · refine ⟨0xffff900000000000, by omega, by omega, fun adr' h x hx => ?_⟩
      cases h
      have hc := Inside.toNat_cases hx
      omega
    · refine ⟨0xffff800000000000, by omega, by omega, fun adr' h x hx => ?_⟩
      cases h
      have hc := Inside.toNat_cases hx
      omega

theorem toNat_lt_of_not_kernelSpace {x : Address} (h : ¬KernelSpace x) : x.toNat < 2 ^ 48 := by
  by_contra hlt
  refine h (if_pos ?_)
  have hx := x.isLt
  have hz : (0#64).toNat = 0 := rfl
  rw [gt_iff_lt, BitVec.lt_def, BitVec.toNat_ushiftRight, Nat.shiftRight_eq_div_pow]
  omega

/-- In a memory, whatever blocks are allocated, a successful `Create` means that the function is
hooked if and only if the function is one of the kernel, or is hooked already so that `Create`
fails. -/
theorem create_hooks_iff {ud : Disassembler} (hud : Decodes ud) (k : Kernel) {function : Address}
    (hf : function ≠ 0#64) :
    (∀ b, Allotted function b.prologue b.bridge (createdHandle ud k function b).bridgeCopiedSize →
      (ps4KernelFunctionHookCreate ud k function b).1 = ps4Ok →
        ps4KernelFunctionIsHooked (ps4KernelFunctionHookCreate ud k function b).2.memory function =
          ps4Ok ∧
          ps4KernelFunctionGetHook (ps4KernelFunctionHookCreate ud k function b).2.memory function =
            .ok b.arg) ↔
      ps4KernelFunctionIsHooked k.memory function = ps4Ok ∨ KernelSpace function ∧
      function + 2 ≠ 0#64 := by
  by_cases hh : ps4KernelFunctionIsHooked k.memory function = ps4Ok
  · refine iff_of_true (fun b _ hok => ?_) (.inl hh)
    rw [ps4KernelFunctionHookCreate, if_neg hf, if_pos hh] at hok
    change ps4ErrorNotAcceptable = ps4Ok at hok
    exact absurd hok (by decide)
  · simp only [create_eq hf hh, hh, false_or, true_implies]
    constructor
    · intro hall
      by_contra hcon
      obtain ⟨base, hbase, hend, htarget⟩ := exists_base k.memory function
      have hshort := (bridgeCopiedSize_bounds hud (ps4KernelMemoryAllocate k.memory
        (blocksBehind base).prologue ps4PayloadFunctionHookPrologueDeterminePatchSize)
        (blocksBehind base) hf).2
      have hplace : function.toNat < 2 ^ 48 ∨ function.toNat = 2 ^ 64 - 2 := by
        by_cases hk : KernelSpace function
        · have h₂ : function + 2 = 0#64 := not_not.mp fun h => hcon ⟨hk, h⟩
          right
          bv_omega
        · exact .inl (toNat_lt_of_not_kernelSpace hk)
      have hallotted : Allotted function (blocksBehind base).prologue (blocksBehind base).bridge
          (createdHandle ud k function (blocksBehind base)).bridgeCopiedSize := by
        refine allotted_behind hbase hend hf fun x hx => ?_
        have hc := Inside.toNat_cases (Inside.mono hx (Nat.le_of_lt hshort))
        omega
      have hhooked := (hall (blocksBehind base) hallotted).1
      by_cases hk : KernelSpace function
      · exact not_isHooked_of_add_two (not_not.mp fun h => hcon ⟨hk, h⟩) hhooked
      · refine hh (isHooked_of_create_user (hallotted.located hud) hk (fun adr hadr => ?_) hhooked)
        exact apart_behind hbase hend (htarget adr hadr)
    · rintro ⟨hk, h₂⟩ b hb
      exact create_kernel (hb.located hud) hk h₂

theorem create_hooks_iff_plain :
    ps4KernelFunctionIsHooked hookedKernel.memory plainFunction = ps4Ok ∧
      ps4KernelFunctionGetHook hookedKernel.memory plainFunction = .ok plainBlocks.arg := by
  have hp := plain_fresh.placed singleBytes_decodes plainFunction_code plainCode_kernel
  have hk := plainCode_kernel _ plainFunction_code
  refine (create_hooks_iff singleBytes_decodes plainKernel (by decide)).mpr (.inr ⟨hk, by decide⟩)
    plainBlocks hp.toAllotted ?_
  rw [create_eq (by decide) plain_not_hooked]

/-- `Create` succeeds for a function of user space, which is not hooked afterwards. -/
theorem create_user_not_hooked :
    (ps4KernelFunctionHookCreate singleBytes plainKernel 0x400000
      (blocksBehind 0xffff800000000000)).1 = ps4Ok ∧
      ps4KernelFunctionIsHooked (ps4KernelFunctionHookCreate singleBytes plainKernel 0x400000
        (blocksBehind 0xffff800000000000)).2.memory 0x400000 ≠ ps4Ok := by
  have hf : (0x400000 : Address) ≠ 0#64 := by decide
  have hh : ps4KernelFunctionIsHooked plainKernel.memory 0x400000 ≠ ps4Ok := by decide
  have htarget : ps4PayloadJumpExtractTarget plainKernel.memory 0x400000 =
      .error ps4ErrorArgumentExpectationFailed := by decide
  have hallotted : Allotted 0x400000 (blocksBehind 0xffff800000000000).prologue
      (blocksBehind 0xffff800000000000).bridge
      (createdHandle singleBytes plainKernel 0x400000
        (blocksBehind 0xffff800000000000)).bridgeCopiedSize := by
    refine allotted_behind le_rfl (by omega) hf fun x hx => ?_
    have hshort := (bridgeCopiedSize_bounds singleBytes_decodes
      (ps4KernelMemoryAllocate plainKernel.memory (blocksBehind 0xffff800000000000).prologue
        ps4PayloadFunctionHookPrologueDeterminePatchSize)
      (blocksBehind 0xffff800000000000) hf).2
    have hc := Inside.toNat_cases (Inside.mono hx (Nat.le_of_lt hshort))
    have hv : (0x400000 : Address).toNat = 0x400000 := rfl
    omega
  rw [create_eq hf hh]
  refine ⟨rfl, fun hhooked => hh ?_⟩
  refine isHooked_of_create_user (hallotted.located singleBytes_decodes) (by decide)
    (fun adr hadr => ?_) hhooked
  rw [htarget] at hadr
  cases hadr

end Ps4Sdk.FunctionHookInstallation
