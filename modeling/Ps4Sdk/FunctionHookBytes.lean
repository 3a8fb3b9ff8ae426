import Ps4Sdk.FunctionHookInstallation

/-!
# The bytes that `Create` and `Destroy` write

Code is a set of addresses that no block is allocated in. `Create` changes its two
blocks and the jump at the start of the function; the bridge then holds the bytes
that were there, and `Destroy` puts all of them back.
-/

namespace Ps4Sdk.FunctionHookInstallation
open CheckedBlocks AtomicSpinLocks FunctionHookTables ByteMemory PayloadTemplates

def KernelSpace (x : Address) : Prop := ps4KernelIsKernelAddress x = ps4Ok

instance (x : Address) : Decidable (KernelSpace x) :=
  inferInstanceAs (Decidable (ps4KernelIsKernelAddress x = ps4Ok))

theorem KernelSpace.ne_zero {x : Address} (h : KernelSpace x) : x ≠ 0#64 := by
  rintro rfl
  exact absurd h (by decide)

def jumpBytes (target : Address) : List Byte := (jumpTemplate target).filled target.toNat

theorem length_jumpBytes (target : Address) :
    (jumpBytes target).length = ps4PayloadJumpDeterminePatchSize target :=
      Template.length_filled _ _

theorem patchSize_bounds (target : Address) : 9 ≤ ps4PayloadJumpDeterminePatchSize target ∧
    ps4PayloadJumpDeterminePatchSize target ≤ 13 := by
  refine ⟨?_, jumpTemplate_size_le target⟩
  simp only [ps4PayloadJumpDeterminePatchSize, jumpTemplate]
  split_ifs <;> decide

theorem jumpTemplate_front (target : Address) : (jumpTemplate target).front.length = 2 := by
  unfold jumpTemplate
  split_ifs <;> rfl

def prologueBytes (arg : Address) : List Byte :=
  ps4PayloadTemplateFunctionHookPrologue.filled arg.toNat

private theorem length_prologueBytes (arg : Address) : (prologueBytes arg).length = 266 :=
  (Template.length_filled _ _).trans ps4PayloadFunctionHookPrologueDeterminePatchSize_eq

section Places

variable {m : KernelMemory} {function target block : Address} {x : Address}

theorem patchToJump_outside (hx : ¬Inside function 13 x) :
    (ps4KernelFunctionPatchToJump m function target).2 x = m x := by
  have hout : ¬Inside function (jumpTemplate target).size x :=
    fun h => hx (h.mono (jumpTemplate_size_le target))
  unfold ps4KernelFunctionPatchToJump ps4PayloadJumpPatch
  split_ifs
  · rfl
  · rfl
  · exact (jumpTemplate target).patch_outside m target.toNat hout

/-- Between kernel addresses the whole jump is written. -/
theorem patchToJump_eq (hf : KernelSpace function) (hf' : KernelSpace (function + 2))
    (ht : KernelSpace target) :
    (ps4KernelFunctionPatchToJump m function target).2 = write m function (jumpBytes target) := by
  have hs := (patchSize_bounds target).2
  rw [ps4KernelFunctionPatchToJump, if_neg (not_not.mpr (hf.trans ht.symm)), ps4PayloadJumpPatch,
    if_neg hf.ne_zero]
  refine (jumpTemplate target).patch_eq m target.toNat hf.ne_zero ?_ (Nat.le_trans hs (by decide))
  rw [jumpTemplate_front]
  exact hf'.ne_zero

theorem allocate_outside {size : ℕ} (hs : size ≤ 0x4000) (hx : ¬Inside block blockSize x) :
    ps4KernelMemoryAllocate m block size x = m x := by
  rw [ps4KernelMemoryAllocate, if_pos hs, fill]
  exact write_outside m (by rwa [List.length_replicate])

theorem free_outside {residue : KernelMemory} (hx : ¬Inside block blockSize x) :
    ps4KernelMemoryFree m block residue x = m x := by
  unfold ps4KernelMemoryFree
  split_ifs
  · rfl
  · exact if_neg hx

private theorem prologuePatch_eq {arg : Address} (hb : KernelSpace block)
    (hb' : KernelSpace (block + 2)) :
    (ps4PayloadFunctionHookProloguePatch m block arg).2 = write m block (prologueBytes arg) := by
  have hs : ps4PayloadTemplateFunctionHookPrologue.size = 266 :=
    ps4PayloadFunctionHookPrologueDeterminePatchSize_eq
  rw [ps4PayloadFunctionHookProloguePatch, if_neg hb.ne_zero]
  exact ps4PayloadTemplateFunctionHookPrologue.patch_eq m arg.toNat hb.ne_zero
    hb'.ne_zero (by omega)

theorem inside_self (a : Address) {n : ℕ} (h : 0 < n) : Inside a n a := by
  simpa using inside_add a h

private theorem inside_two (a : Address) {n : ℕ} (h : 2 < n) : Inside a n (a + 2) := inside_add a h

end Places

/-- The blocks of a handle lie in the kernel, apart from each other and from the bytes that are
copied, whatever space the function is in. -/
structure Allotted (function prologue bridge : Address) (size : BitVec 64) : Prop where
  present : function ≠ 0#64
  prologueBlock : ∀ x, Inside prologue blockSize x → KernelSpace x
  bridgeBlock : ∀ x, Inside bridge blockSize x → KernelSpace x
  apart : Apart prologue blockSize bridge blockSize
  function_prologue : Apart function size.toNat prologue blockSize
  function_bridge : Apart function size.toNat bridge blockSize

structure Located (function prologue bridge : Address) (size : BitVec 64) : Prop
    extends Allotted function prologue bridge size where
  covers : ps4PayloadJumpDeterminePatchSize prologue ≤ size.toNat
  short : size.toNat < 269

namespace Located

variable {function prologue bridge : Address} {size : BitVec 64}

theorem two_lt (h : Located function prologue bridge size) : 2 < size.toNat := by
  have h₁ := h.covers
  have h₂ := (patchSize_bounds prologue).1
  omega

theorem prologue_kernel (h : Located function prologue bridge size) :
    KernelSpace prologue ∧ KernelSpace (prologue + 2) :=
  ⟨h.prologueBlock _ (inside_self _ (by decide)), h.prologueBlock _ (inside_two _ (by decide))⟩

theorem bridge_kernel (h : Located function prologue bridge size) :
    KernelSpace bridge ∧ KernelSpace (bridge + 2) :=
  ⟨h.bridgeBlock _ (inside_self _ (by decide)), h.bridgeBlock _ (inside_two _ (by decide))⟩

end Located

/-- The blocks lie outside the code of the kernel, and the copied bytes are such code. -/
structure Placed (code : Address → Prop) (function prologue bridge : Address) (size : BitVec 64) :
    Prop extends Located function prologue bridge size where
  prologue_code : ∀ x, Inside prologue blockSize x → ¬code x
  bridge_code : ∀ x, Inside bridge blockSize x → ¬code x
  copied : ∀ x, Inside function size.toNat x → KernelSpace x ∧ code x

theorem Placed.function_kernel {code : Address → Prop} {function prologue bridge : Address}
    {size : BitVec 64} (h : Placed code function prologue bridge size) : KernelSpace function ∧
    KernelSpace (function + 2) :=
  ⟨(h.copied _ (inside_self _ (by have := h.two_lt; omega))).1,
    (h.copied _ (inside_two _ h.two_lt)).1⟩

/-! ### What the installation writes -/

section Prepare

variable {m : KernelMemory} {function : Address} {b : Blocks} {size : BitVec 64}
  {x : Address} (h : Located function b.prologue b.bridge size)
include h

theorem bridge_jump_outside (hx : ¬Inside b.bridge blockSize x) :
    ¬Inside (b.bridge + size) 13 x := by
  intro hin
  have hs : b.bridge + size = b.bridge + BitVec.ofNat 64 size.toNat := by simp
  rw [hs] at hin
  have hshort := h.short
  exact hx (hin.of_add (by simp only [blockSize]; omega))

/-- The preparation writes the prologue, copies the function, and appends a jump to
the copy. -/
theorem prepare_eq : ∃ m' : KernelMemory,
    prepare m function b size =
      (ps4KernelFunctionPatchToJump (copy m' function b.bridge size.toNat) (b.bridge + size)
        (function + size)).2 ∧
    cellsAt m' b.prologue 266 = prologueBytes b.arg ∧
    ∀ x, ¬Inside b.prologue blockSize x → ¬Inside b.bridge blockSize x → m' x = m x := by
  have hne : ¬(function = 0#64 ∨ b.bridge = 0#64) :=
    not_or.mpr ⟨h.present, h.bridge_kernel.1.ne_zero⟩
  have hsize : size.toNat + ps4PayloadJumpDeterminePatchSize function ≤ 0x4000 := by
    have h₁ := h.short
    have h₂ := (patchSize_bounds function).2
    omega
  have hlen := length_prologueBytes b.arg
  refine ⟨write (ps4KernelMemoryAllocate m b.bridge
    (size.toNat + ps4PayloadJumpDeterminePatchSize function)) b.prologue
    (prologueBytes b.arg), ?_, ?_, ?_⟩
  · simp only [prepare, ps4KernelMemoryCopy, if_neg hne,
      prologuePatch_eq h.prologue_kernel.1 h.prologue_kernel.2]
  · rw [← hlen]
    exact cellsAt_write _ _ _ (by rw [hlen]; decide)
  · intro x hp hb
    rw [write_outside _ (fun hin => hp (hin.mono (by rw [hlen]; decide))),
      allocate_outside hsize hb]

theorem prepare_outside (hp : ¬Inside b.prologue blockSize x) (hb : ¬Inside b.bridge blockSize x) :
    prepare m function b size x = m x := by
  obtain ⟨m', he, -, hm⟩ := prepare_eq (m := m) h
  have hshort := h.short
  rw [he, patchToJump_outside (bridge_jump_outside h hb), copy, write_outside, hm x hp hb]
  exact fun hin => hb (hin.mono (by simp only [length_cellsAt, blockSize]; omega))

theorem prepare_prologue :
    cellsAt (prepare m function b size) b.prologue 266 = prologueBytes b.arg := by
  obtain ⟨m', he, hp, -⟩ := prepare_eq (m := m) h
  have hshort := h.short
  rw [he, ← hp]
  apply cellsAt_congr
  intro y hy
  have hb : ¬Inside b.bridge blockSize y := h.apart y (hy.mono (by decide))
  rw [patchToJump_outside (bridge_jump_outside h hb), copy, write_outside]
  exact fun hin => hb (hin.mono (by simp only [length_cellsAt, blockSize]; omega))

/-- The bridge holds the bytes of the function that the jump will overwrite. -/
theorem prepare_bridge :
    cellsAt (prepare m function b size) b.bridge size.toNat = cellsAt m function size.toNat := by
  obtain ⟨m', he, -, hm⟩ := prepare_eq (m := m) h
  have hshort := h.short
  have hsize : b.bridge + size = b.bridge + BitVec.ofNat 64 size.toNat := by simp
  have hapart : Apart b.bridge size.toNat (b.bridge + size) 13 := by
    rw [hsize]
    exact apart_add b.bridge (by omega)
  have hwritten := cellsAt_write m' b.bridge (cellsAt m' function size.toNat)
    (by rw [length_cellsAt]; omega)
  rw [length_cellsAt] at hwritten
  calc
    cellsAt (prepare m function b size) b.bridge size.toNat
        = cellsAt (copy m' function b.bridge size.toNat) b.bridge size.toNat := by
      apply cellsAt_congr
      intro y hy
      rw [he, patchToJump_outside (hapart y hy)]
    _ = cellsAt m' function size.toNat := hwritten
    _ = cellsAt m function size.toNat :=
      cellsAt_congr fun y hy => hm y (h.function_prologue y hy) (h.function_bridge y hy)

end Prepare

section Install

variable {code : Address → Prop} {m : KernelMemory} {function : Address} {b : Blocks}
  {size : BitVec 64} {x : Address} (h : Placed code function b.prologue b.bridge size)
include h

private theorem install_eq :
    install m function b size = write (prepare m function b size) function (jumpBytes b.prologue) :=
  patchToJump_eq h.function_kernel.1 h.function_kernel.2 h.prologue_kernel.1

theorem install_outside (hp : ¬Inside b.prologue blockSize x) (hb : ¬Inside b.bridge blockSize x)
    (hf : ¬Inside function (ps4PayloadJumpDeterminePatchSize b.prologue) x) :
    install m function b size x = m x := by
  rw [install_eq h, write_outside _ (by rwa [length_jumpBytes]), prepare_outside h.toLocated hp hb]

theorem install_jump :
    cellsAt (install m function b size) function (ps4PayloadJumpDeterminePatchSize b.prologue) =
      jumpBytes b.prologue := by
  have hlen := (patchSize_bounds b.prologue).2
  rw [install_eq h, ← length_jumpBytes]
  exact cellsAt_write _ _ _ (by rw [length_jumpBytes]; omega)

theorem install_prologue :
    cellsAt (install m function b size) b.prologue 266 = prologueBytes b.arg := by
  rw [install_eq h, cellsAt_write_apart _ ?_, prepare_prologue h.toLocated]
  rw [length_jumpBytes]
  exact h.function_prologue.symm.mono (by decide) h.covers

theorem install_bridge :
    cellsAt (install m function b size) b.bridge size.toNat = cellsAt m function size.toNat := by
  have hshort := h.short
  rw [install_eq h, cellsAt_write_apart _ ?_, prepare_bridge h.toLocated]
  rw [length_jumpBytes]
  exact h.function_bridge.symm.mono (by simp only [blockSize]; omega) h.covers

end Install

/-! ### What the removal writes -/

theorem swapBits_eq (m : KernelMemory) (function : Address) (bits : BitVec 16) :
    (swapBits m function bits).1 = write m function (wordBytes 2 bits.toNat) := rfl

theorem wordBytes_cells (m : KernelMemory) (a : Address) :
    wordBytes 2 (BitVec.ofNat 16 (bytesValue (cellsAt m a 2))).toNat = cellsAt m a 2 := by
  have hlt : bytesValue (cellsAt m a 2) < 2 ^ 16 := by
    have hb := bytesValue_lt (cellsAt m a 2)
    rw [length_cellsAt] at hb
    omega
  rw [BitVec.toNat_ofNat, Nat.mod_eq_of_lt hlt]
  simpa using wordBytes_bytesValue (cellsAt m a 2)

theorem swapBits_cells (m m' : KernelMemory) (function a : Address) :
    (swapBits m function (BitVec.ofNat 16 (bytesValue (cellsAt m' a 2)))).1 =
      write m function (cellsAt m' a 2) := by
  rw [swapBits_eq, wordBytes_cells]

section Restore

variable {code : Address → Prop} (m : KernelMemory) {a : Handle} (bits : BitVec 16) {x : Address}
  (h : Placed code a.function a.prologue a.bridge a.bridgeCopiedSize)
include h

private theorem toNat_size_sub : (a.bridgeCopiedSize - 2).toNat = a.bridgeCopiedSize.toNat - 2 := by
  have h₁ := h.two_lt
  rw [BitVec.toNat_sub_of_le (by rw [BitVec.le_def]; exact Nat.le_of_lt h₁)]
  rfl

/-- The restoration locks the function, copies what follows the first two bytes, and
copies these. -/
theorem restore_eq : ∃ m' : KernelMemory,
    restore m a bits = write (copy m' (a.bridge + 2) (a.function + 2)
      (a.bridgeCopiedSize.toNat - 2))
      a.function
      (cellsAt (copy m' (a.bridge + 2) (a.function + 2)
        (a.bridgeCopiedSize.toNat - 2)) a.bridge 2) ∧
    ∀ x, ¬Inside a.function 2 x → m' x = m x := by
  have hne : ¬(a.bridge + 2 = 0#64 ∨ a.function + 2 = 0#64) :=
    not_or.mpr ⟨h.bridge_kernel.2.ne_zero, h.function_kernel.2.ne_zero⟩
  refine ⟨(swapBits m a.function ps4PayloadLock).1, ?_, ?_⟩
  · simp only [restore, ps4KernelFunctionLock, ps4KernelFunctionUnlock, ps4KernelMemoryCopy,
      if_neg h.function_kernel.1.ne_zero, if_neg h.bridge_kernel.1.ne_zero, if_neg hne,
      toNat_size_sub h,
      swapBits_cells]
  · intro x hx
    rw [swapBits_eq, write_outside]
    rwa [length_wordBytes]

theorem restore_outside (hx : ¬Inside a.function a.bridgeCopiedSize.toNat x) :
    restore m a bits x = m x := by
  obtain ⟨m', he, hm⟩ := restore_eq m bits h
  have htwo := h.two_lt
  have hfirst : ¬Inside a.function 2 x := fun hin => hx (hin.mono (by omega))
  rw [he, write_outside _ (by rwa [length_cellsAt]), copy, write_outside, hm x hfirst]
  intro hin
  rw [length_cellsAt] at hin
  exact hx (Inside.of_add (i := 2) hin (by omega))

theorem restore_function : cellsAt (restore m a bits) a.function a.bridgeCopiedSize.toNat =
    cellsAt m a.bridge a.bridgeCopiedSize.toNat := by
  obtain ⟨m', he, hm⟩ := restore_eq m bits h
  obtain ⟨n, hn⟩ : ∃ n, a.bridgeCopiedSize.toNat = 2 + n :=
    ⟨a.bridgeCopiedSize.toNat - 2, by have := h.two_lt; omega⟩
  have hshort := h.short
  have hapart := h.function_bridge
  rw [hn] at hapart he hshort ⊢
  rw [Nat.add_sub_cancel_left] at he
  have hnext : Apart a.function 2 (a.function + 2) n := apart_add a.function (by omega)
  have htail : Apart a.bridge blockSize (a.function + 2) n :=
    hapart.symm.add_right (i := 2) (le_refl _)
  have hbridge : ∀ y, Inside a.bridge blockSize y → m' y = m y :=
    fun y hy => hm y fun hf => hapart y (hf.mono (by omega)) hy
  have hfirst : cellsAt (copy m' (a.bridge + 2) (a.function + 2) n) a.bridge 2 =
      cellsAt m a.bridge 2 := by
    rw [copy, cellsAt_write_apart m' (by rw [length_cellsAt]; exact htail.mono (by decide) le_rfl)]
    exact cellsAt_congr fun y hy => hbridge y (hy.mono (by decide))
  have hcopied := cellsAt_write m' (a.function + 2) (cellsAt m' (a.bridge + 2) n)
    (by rw [length_cellsAt]; omega)
  rw [length_cellsAt] at hcopied
  rw [cellsAt_append, cellsAt_append, he, hfirst]
  congr 1
  · exact cellsAt_write _ a.function (cellsAt m a.bridge 2) (by rw [length_cellsAt]; decide)
  · calc
      _ = cellsAt (copy m' (a.bridge + 2) (a.function + 2) n) (a.function + 2) n :=
        cellsAt_write_apart _ (by rw [length_cellsAt]; exact hnext.symm)
      _ = cellsAt m' (a.bridge + 2) n := hcopied
      _ = cellsAt m (a.bridge + 2) n :=
        cellsAt_congr fun y hy => hbridge y (Inside.of_add (i := 2) hy
          (by simp only [blockSize]; omega))

end Restore

end Ps4Sdk.FunctionHookInstallation
