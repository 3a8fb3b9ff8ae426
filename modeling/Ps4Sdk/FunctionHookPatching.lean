import Ps4Sdk.FunctionHookReversibility

/-!
# A function while it is patched

A thread may enter a function between any two writes of `Create` and of `Destroy`. The
jump is written as a template and then its operand; before the copied bytes are
written back, the first two bytes are replaced by those of `payload/lock.s`, which is
a branch to the address two bytes in front of the function.
-/

namespace Ps4Sdk.FunctionHookInstallation
open CheckedBlocks AtomicSpinLocks FunctionHookTables ByteMemory PayloadTemplates

def copyStates (m : KernelMemory) (bytes : List Byte) (target : Address) : List KernelMemory :=
  if target = 0#64 then [m] else (List.range (bytes.length + 1)).map
    (fun n => write m target (bytes.take n))

/-- The memory during `ps4KernelFunctionPatchToJump`. -/
def patchStates (m : KernelMemory) (function target : Address) : List KernelMemory :=
  if ps4KernelIsKernelAddress function ≠ ps4KernelIsKernelAddress target ∨ function = 0#64 then [m]
  else
    copyStates m (jumpTemplate target).bytes function ++
      copyStates (copyTo m (jumpTemplate target).bytes function)
        (wordBytes (jumpTemplate target).width target.toNat)
        (function + BitVec.ofNat 64 (jumpTemplate target).front.length)

/-- The memory in which the copied bytes are written back, with the function locked. -/
def lockedMemory (m : KernelMemory) (arg : Handle) : KernelMemory :=
  (ps4KernelFunctionLock m arg.function 0).2.1

/-- The memory while `Destroy` restores the function. -/
def restoreStates (m : KernelMemory) (arg : Handle) : List KernelMemory :=
  [m, lockedMemory m arg] ++
    (if arg.bridge + 2 = 0#64 then [] else
      copyStates (lockedMemory m arg) (cellsAt (lockedMemory m arg) (arg.bridge + 2)
        (arg.bridgeCopiedSize - 2).toNat)
        (arg.function + 2)) ++ [restore m arg 0]

theorem getLast_copyStates (m : KernelMemory) (bytes : List Byte) (target : Address) :
    (copyStates m bytes target).getLast? = some (copyTo m bytes target) := by
  unfold copyStates copyTo
  split_ifs
  · rfl
  · rw [List.getLast?_map, List.getLast?_range]
    simp

private theorem template_mem_patchStates (m : KernelMemory) {function target : Address}
    (hs : ps4KernelIsKernelAddress function = ps4KernelIsKernelAddress target)
    (hf : function ≠ 0#64) :
    write m function (jumpTemplate target).bytes ∈ patchStates m function target := by
  rw [patchStates, if_neg (not_or.mpr ⟨not_not.mpr hs, hf⟩)]
  apply List.mem_append_left
  apply List.mem_of_getLast?
  rw [getLast_copyStates, copyTo_eq _ _ hf]

/-- The branches that the processor sees: what the code of a short jump and of a move to a
register is, is all that is used. -/
structure BranchDecoder where
  target : KernelMemory → Address → Option Address
  short : ∀ m a, m a = 0xeb → target m a = some (a + 2 + (m (a + 1)).signExtend 64)
  move : ∀ m a, m a = 0x49 ∨ m a = 0x41 → m (a + 1) = 0xbb → target m a = none

/-- What a thread that enters the function may find there. -/
def Exposes (d : BranchDecoder) (function prologue : Address) (original : List Byte)
    (m : KernelMemory) : Prop :=
  cellsAt m function original.length = original ∨
    cellsAt m function (ps4PayloadJumpDeterminePatchSize prologue) = jumpBytes prologue ∨
    d.target m function = some function

/-- No state during the installation of the jump and during its removal, from a memory that
may have changed elsewhere, exposes anything else. -/
def Untorn (d : BranchDecoder) (ud : Disassembler) (k : Kernel) (function : Address) (b : Blocks)
    (later : KernelMemory) : Prop :=
  ∀ m ∈ patchStates
      (prepare (ps4KernelMemoryAllocate k.memory b.prologue
        ps4PayloadFunctionHookPrologueDeterminePatchSize) function b
          (createdHandle ud k function b).bridgeCopiedSize) function b.prologue ++
      restoreStates later (createdHandle ud k function b),
    Exposes d function b.prologue
      (cellsAt k.memory function (createdHandle ud k function b).bridgeCopiedSize.toNat) m

private theorem cellsAt_two (m : KernelMemory) (a : Address) :
    cellsAt m a 2 = [m a, m (a + 1)] := by
  simp [cellsAt, List.range_succ]

theorem cellsAt_split {m : KernelMemory} {a : Address} {n : ℕ} (h : 2 ≤ n) :
    cellsAt m a n = m a :: m (a + 1) :: cellsAt m (a + 2) (n - 2) := by
  obtain ⟨k, rfl⟩ := Nat.exists_eq_add_of_le h
  rw [cellsAt_append, cellsAt_two, Nat.add_sub_cancel_left]
  rfl

private theorem take_cellsAt (m : KernelMemory) (a : Address) (n j : ℕ) :
    (cellsAt m a n).take j = cellsAt m a (min j n) := by
  rw [cellsAt, ← List.map_take, List.take_range, cellsAt]

private theorem jumpTemplate_front_eq (target : Address) :
    (jumpTemplate target).front = [0x49, 0xbb] ∨ (jumpTemplate target).front = [0x41, 0xbb] := by
  unfold jumpTemplate
  split_ifs
  · exact .inr rfl
  · exact .inl rfl

/-- The bytes of a template in front of its operand. -/
theorem cells_front {m : KernelMemory} {a target : Address} {n : ℕ} {tail : List Byte}
    (h : cellsAt m a n = (jumpTemplate target).front ++ tail) :
    (m a = 0x49 ∨ m a = 0x41) ∧ m (a + 1) = 0xbb := by
  have hn : 2 ≤ n := by
    have hl := congrArg List.length h
    rw [length_cellsAt, List.length_append, jumpTemplate_front] at hl
    omega
  rw [cellsAt_split hn] at h
  rcases jumpTemplate_front_eq target with hf | hf
  · rw [hf] at h
    simp only [List.cons_append, List.nil_append, List.cons.injEq] at h
    exact ⟨.inl h.1, h.2.1⟩
  · rw [hf] at h
    simp only [List.cons_append, List.nil_append, List.cons.injEq] at h
    exact ⟨.inr h.1, h.2.1⟩

private theorem locked_bytes (m : KernelMemory) (arg : Handle) (hf : arg.function ≠ 0#64) :
    lockedMemory m arg = write m arg.function [0xeb, 0xfc] := by
  have hbytes : wordBytes 2 ps4PayloadLock.toNat = [0xeb, 0xfc] := by decide
  rw [lockedMemory, ps4KernelFunctionLock, if_neg hf, ← hbytes]
  exact swapBits_eq m arg.function ps4PayloadLock

private theorem write_two (m : KernelMemory) (a : Address) (x y : Byte) :
    write m a [x, y] a = x ∧ write m a [x, y] (a + 1) = y := by
  have hw := cellsAt_write m a [x, y] (Nat.le_of_ble_eq_true rfl)
  rw [List.length_cons, List.length_singleton, cellsAt_two] at hw
  simpa using hw

theorem target_locked (d : BranchDecoder) {m : KernelMemory} {a : Address} (h₀ : m a = 0xeb)
    (h₁ : m (a + 1) = 0xfc) :
    d.target m a ≠ some a := by
  rw [d.short m a h₀, h₁]
  intro he
  have hs : (0xfc : BitVec 8).signExtend 64 = -4#64 := by decide
  rw [hs] at he
  have hback := Option.some.inj he
  bv_omega

section

variable {d : BranchDecoder} {function prologue : Address} {original : List Byte} {m : KernelMemory}

/-- A lock in front of code of at least two bytes is exposed only as that code. -/
theorem exposes_locked {m₀ : KernelMemory} {n : ℕ} (hn : 2 ≤ n)
    (h : Exposes d function prologue (cellsAt m₀ function n) (write m function [0xeb, 0xfc])) :
    m₀ function = 0xeb ∧ m₀ (function + 1) = 0xfc := by
  obtain ⟨h₀, h₁⟩ := write_two m function 0xeb 0xfc
  rcases h with h | h | h
  · rw [length_cellsAt, cellsAt_split hn, cellsAt_split hn, h₀, h₁, List.cons.injEq,
      List.cons.injEq] at h
    exact ⟨h.1.symm, h.2.1.symm⟩
  · rw [jumpBytes, Template.filled, List.append_assoc] at h
    have hfront := (cells_front h).1
    rw [h₀] at hfront
    exact absurd hfront (by decide)
  · exact absurd h (target_locked d h₀ h₁)

/-- The template with a zero operand is not the jump to a kernel address. -/
theorem bytes_ne_jumpBytes (hp : KernelSpace prologue) :
    (jumpTemplate prologue).bytes ≠ jumpBytes prologue := by
  intro he
  rw [Template.bytes, jumpBytes, Template.filled, List.append_left_inj, List.append_right_inj] at he
  have hz : bytesValue (List.replicate (jumpTemplate prologue).width (0 : Byte)) = 0 := by
    unfold jumpTemplate
    split_ifs <;> rfl
  rw [he, bytesValue_wordBytes] at hz
  have hlt : prologue.toNat < 256 ^ (jumpTemplate prologue).width := by
    unfold jumpTemplate
    split_ifs with hlow
    · exact toNat_lt_of_low hlow
    · exact prologue.isLt
  rw [Nat.mod_eq_of_lt hlt] at hz
  exact hp.ne_zero (BitVec.eq_of_toNat_eq hz)

/-- The state between the two copies of the installation. -/
theorem exposes_template {m₀ : KernelMemory} {n : ℕ} (hn : 2 ≤ n) (hp : KernelSpace prologue)
    (h : Exposes d function prologue (cellsAt m₀ function n)
      (write m function (jumpTemplate prologue).bytes)) :
    m₀ function ≠ 0xeb := by
  have hsize := jumpTemplate_size_le prologue
  have hw := cellsAt_write m function (jumpTemplate prologue).bytes
    (by rw [Template.length_bytes]; omega)
  rw [Template.length_bytes] at hw
  obtain ⟨h₀, h₁⟩ := cells_front (hw.trans (List.append_assoc _ _ _))
  rcases h with h | h | h
  · rw [length_cellsAt, cellsAt_split hn, cellsAt_split hn, List.cons.injEq] at h
    rw [← h.1]
    rcases h₀ with h₀ | h₀ <;> rw [h₀] <;> decide
  · exact absurd (hw.symm.trans h) (bytes_ne_jumpBytes hp)
  · rw [d.move _ _ h₀ h₁] at h
    cases h

/-- Copying what is there already passes through no other state. -/
theorem copyStates_self {a : Address} {n : ℕ} : ∀ m' ∈ copyStates m (cellsAt m a n) a, m' = m := by
  unfold copyStates
  split_ifs
  · simp
  · intro m' hm'
    obtain ⟨j, -, rfl⟩ := List.mem_map.mp hm'
    rw [take_cellsAt]
    exact write_cellsAt_self m a _

end

section

variable {ud : Disassembler} {k : Kernel} {function : Address} {b : Blocks}
  (h : Located function b.prologue b.bridge (createdHandle ud k function b).bridgeCopiedSize)
include h

private theorem prepared_function :
    cellsAt (prepare (ps4KernelMemoryAllocate k.memory b.prologue
      ps4PayloadFunctionHookPrologueDeterminePatchSize) function b
        (createdHandle ud k function b).bridgeCopiedSize) function
        (createdHandle ud k function b).bridgeCopiedSize.toNat =
      cellsAt k.memory function (createdHandle ud k function b).bridgeCopiedSize.toNat := by
  apply cellsAt_congr
  intro x hx
  rw [prepare_outside h (h.function_prologue x hx) (h.function_bridge x hx),
    allocate_prologue_outside (h.function_prologue x hx)]

theorem prepared_bridge :
    cellsAt (prepare (ps4KernelMemoryAllocate k.memory b.prologue
      ps4PayloadFunctionHookPrologueDeterminePatchSize) function b
        (createdHandle ud k function b).bridgeCopiedSize) b.bridge
        (createdHandle ud k function b).bridgeCopiedSize.toNat =
      cellsAt k.memory function (createdHandle ud k function b).bridgeCopiedSize.toNat := by
  rw [prepare_bridge h]
  apply cellsAt_congr
  intro x hx
  exact allocate_prologue_outside (h.function_prologue x hx)

end

/-- Restoring a function that is as its bridge and begins with the lock changes nothing at any
time. -/
theorem restoreStates_self {m : KernelMemory} (arg : Handle)
    (h : Located arg.function arg.prologue arg.bridge arg.bridgeCopiedSize)
    (hsame : cellsAt m arg.bridge arg.bridgeCopiedSize.toNat =
      cellsAt m arg.function arg.bridgeCopiedSize.toNat)
    (h₀ : m arg.function = 0xeb) (h₁ : m (arg.function + 1) = 0xfc) :
    ∀ m' ∈ restoreStates m arg, m' = m := by
  have htwo := h.two_lt
  have hshort := h.short
  have hsize : (arg.bridgeCopiedSize - 2).toNat = arg.bridgeCopiedSize.toNat - 2 := by
    rw [BitVec.toNat_sub_of_le (by rw [BitVec.le_def]; exact Nat.le_of_lt htwo)]
    rfl
  have hcells : cellsAt m arg.function 2 = [0xeb, 0xfc] := by rw [cellsAt_two, h₀, h₁]
  have hlock : lockedMemory m arg = m := by
    rw [locked_bytes m arg h.present, ← hcells]
    exact write_cellsAt_self m arg.function _
  rw [cellsAt_split (Nat.le_of_lt htwo), cellsAt_split (Nat.le_of_lt htwo), List.cons.injEq,
    List.cons.injEq] at hsame
  have hfirst : cellsAt m arg.bridge 2 = cellsAt m arg.function 2 := by
    rw [cellsAt_two, cellsAt_two, hsame.1, hsame.2.1]
  have hcopy : ps4KernelMemoryCopy m (arg.bridge + 2) (arg.function + 2)
      (arg.bridgeCopiedSize - 2).toNat = m := by
    unfold ps4KernelMemoryCopy
    split_ifs
    · rfl
    · rw [copy, hsize, hsame.2.2]
      exact write_cellsAt_self m (arg.function + 2) _
  have hrestore : restore m arg 0 = m := by
    have hswap : (swapBits m arg.function ps4PayloadLock).1 = m := by
      have hl := hlock
      rwa [lockedMemory, ps4KernelFunctionLock, if_neg h.present] at hl
    simp only [restore, ps4KernelFunctionLock, ps4KernelFunctionUnlock, if_neg h.present,
      if_neg h.bridge_kernel.1.ne_zero, hswap, hcopy, swapBits_cells, hfirst]
    exact write_cellsAt_self m arg.function _
  intro m' hm'
  rw [restoreStates, hlock, hrestore, hsize, hsame.2.2] at hm'
  rcases List.mem_append.mp hm' with hm' | hm'
  · rcases List.mem_append.mp hm' with hm' | hm'
    · simpa using hm'
    · split_ifs at hm'
      · cases hm'
      · exact copyStates_self m' hm'
  · simpa using hm'

/-- The patching of a function is never seen half done exactly when the function is not patched
because it lies in another space than the prologue, and begins with the bytes of the lock itself. -/
theorem patching_untorn_iff (d : BranchDecoder) (ud : Disassembler) (hud : Decodes ud) (k : Kernel)
    (function : Address) (b : Blocks)
    (hb : Allotted function b.prologue b.bridge (createdHandle ud k function b).bridgeCopiedSize)
    (later : KernelMemory)
    (hlater : ∀ x, Inside function (createdHandle ud k function b).bridgeCopiedSize.toNat x ∨
      Inside b.bridge blockSize x → later x = createdMemory ud k function b x) :
    Untorn d ud k function b later ↔
      ¬KernelSpace function ∧ k.memory function = 0xeb ∧ k.memory (function + 1) = 0xfc := by
  have h := hb.located hud
  have htwo := Nat.le_of_lt h.two_lt
  constructor
  · intro hu
    have hlocked := hu (lockedMemory later (createdHandle ud k function b))
      (List.mem_append_right _ (by simp [restoreStates]))
    rw [locked_bytes later (createdHandle ud k function b) h.present] at hlocked
    obtain ⟨h₀, h₁⟩ := exposes_locked htwo hlocked
    refine ⟨?_, h₀, h₁⟩
    intro hk
    have hspace : ps4KernelIsKernelAddress function = ps4KernelIsKernelAddress b.prologue :=
      hk.trans h.prologue_kernel.1.symm
    have htemplate := hu _ (List.mem_append_left _ (template_mem_patchStates _ hspace h.present))
    exact exposes_template htwo h.prologue_kernel.1 htemplate h₀
  · rintro ⟨hk, h₀, h₁⟩ m hm
    have hspace : ps4KernelIsKernelAddress function ≠ ps4KernelIsKernelAddress b.prologue :=
      fun he => hk (he.trans h.prologue_kernel.1)
    have hcreated : createdMemory ud k function b =
        prepare (ps4KernelMemoryAllocate k.memory b.prologue
          ps4PayloadFunctionHookPrologueDeterminePatchSize) function b
          (createdHandle ud k function b).bridgeCopiedSize := by
      rw [createdMemory, install, ps4KernelFunctionPatchToJump, if_pos hspace]
    left
    rw [length_cellsAt]
    rcases List.mem_append.mp hm with hm | hm
    · rw [patchStates, if_pos (.inl hspace), List.mem_singleton] at hm
      rw [hm]
      exact prepared_function h
    · have hfunction : cellsAt later function (createdHandle ud k function
        b).bridgeCopiedSize.toNat =
          cellsAt k.memory function (createdHandle ud k function b).bridgeCopiedSize.toNat := by
        rw [← prepared_function h, ← hcreated]
        exact cellsAt_congr (fun x hx => hlater x (.inl hx))
      have hbridge : cellsAt later b.bridge (createdHandle ud k function b).bridgeCopiedSize.toNat =
          cellsAt later function (createdHandle ud k function b).bridgeCopiedSize.toNat := by
        rw [hfunction, ← prepared_bridge h, ← hcreated]
        have hshort := h.short
        exact cellsAt_congr (fun x hx => hlater x (.inr
          (hx.mono (by simp only [blockSize]; omega))))
      have hbytes := hfunction
      rw [cellsAt_split htwo, cellsAt_split htwo, List.cons.injEq,
        List.cons.injEq, h₀, h₁] at hbytes
      rw [restoreStates_self (createdHandle ud k function b) h hbridge hbytes.1 hbytes.2.1 m hm]
      exact hfunction

/-- A processor with short jumps only. -/
def shortJumps : BranchDecoder where
  target m a := if m a = 0xeb then some (a + 2 + (m (a + 1)).signExtend 64) else none
  short m a h := if_pos h
  move m a h _ := by
    apply if_neg
    rcases h with h | h <;> rw [h] <;> decide

theorem patching_untorn_plain :
    ¬Untorn shortJumps singleBytes plainKernel plainFunction plainBlocks hookedKernel.memory := by
  have hp := plain_fresh.placed singleBytes_decodes plainFunction_code plainCode_kernel
  rw [patching_untorn_iff shortJumps singleBytes singleBytes_decodes plainKernel plainFunction
    plainBlocks hp.toAllotted hookedKernel.memory (fun x _ => by rw [hookedKernel_eq])]
  exact fun h => h.1 (plainCode_kernel _ plainFunction_code)

/-- While the plain function is restored, its first bytes branch to the address two bytes in
front. -/
theorem lock_branches_in_front :
    lockedMemory hookedKernel.memory (hookedKernel.handle plainBlocks.arg) ∈
        restoreStates hookedKernel.memory (hookedKernel.handle plainBlocks.arg) ∧
      shortJumps.target (lockedMemory hookedKernel.memory
        (hookedKernel.handle plainBlocks.arg)) plainFunction =
        some (plainFunction - 2) ∧
      ¬Exposes shortJumps plainFunction plainBlocks.prologue
        (cellsAt plainKernel.memory plainFunction 13)
        (lockedMemory hookedKernel.memory (hookedKernel.handle plainBlocks.arg)) := by
  refine ⟨by simp [restoreStates], ?_⟩
  rw [hookedKernel_handle, locked_bytes _ _ (by decide)]
  refine ⟨?_, fun h => ?_⟩
  · have hw := write_two hookedKernel.memory plainFunction 0xeb 0xfc
    exact (shortJumps.short _ plainFunction hw.1).trans (by rw [hw.2]; decide)
  · have hne := (exposes_locked (by decide) h).1
    exact absurd hne (by decide)

end Ps4Sdk.FunctionHookInstallation
