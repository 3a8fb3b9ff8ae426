import Ps4Sdk.WriteProtection
import Ps4Sdk.FunctionHookBytes

/-!
# The memory functions run alone

Without other threads, the programs that copy and fill memory and that lock and unlock a
function return what the functions of the hook models return, and leave the processors as
they were, provided that the processor has write protection.
-/

namespace Ps4Sdk.WriteProtection
open ByteMemory InterleavedPrograms FunctionHookInstallation

section Alone

variable {i : ℕ} {s : Processors}

private theorem run_load (a : Word) (n : ℕ) :
    run (execute i) (load a n) s = some (cellsAt s.memory a n, s) := rfl

theorem run_store (a : Word) (bytes : List (BitVec 8)) :
    run (execute i) (store a bytes) s = some ((), { s with memory := write s.memory a bytes }) :=
      rfl

private theorem run_xchg (a : Word) (bytes : List (BitVec 8)) : run (execute i) (xchg a bytes) s =
    some (cellsAt s.memory a bytes.length, { s with memory := write s.memory a bytes }) := rfl

private theorem run_disable : run (execute i) ps4KernelProtectionWriteDisable s =
    some ((), { s with cr0 := Function.update s.cr0 (s.cpu i) (s.cr0 (s.cpu i) &&& ~~~cr0Wp) }) :=
      rfl

private theorem run_enable : run (execute i) ps4KernelProtectionWriteEnable s =
    some ((), { s with cr0 := Function.update s.cr0 (s.cpu i) (s.cr0 (s.cpu i) ||| cr0Wp) }) := rfl

theorem and_or_cr0Wp {v : Word} (h : wp v = true) : v &&& ~~~cr0Wp ||| cr0Wp = v := by
  apply BitVec.eq_of_getLsbD_eq
  intro k hk
  have hbit : cr0Wp.getLsbD k = decide (k = 16) := by
    revert k
    decide
  rw [BitVec.getLsbD_or, BitVec.getLsbD_and, BitVec.getLsbD_not, hbit]
  by_cases h16 : k = 16
  · subst h16
    simpa [wp] using h
  · simp [h16, hk]

private theorem section_alone {body : Prog Unit} {rest : Prog Code} {m : Memory 64 (BitVec 8)}
    (hbody : ∀ cr0, run (execute i) body { s with cr0 := cr0 } =
      some ((), { s with cr0 := cr0, memory := m }))
    (hwp : wp (s.cr0 (s.cpu i)) = true) :
    run (execute i) (do
      ps4KernelProtectionWriteDisable
      body
      ps4KernelProtectionWriteEnable
      rest) s = run (execute i) rest { s with memory := m } := by
  simp only [run_bind, run_disable, Option.bind_some, hbody, run_enable, Function.update_self,
    Function.update_idem, and_or_cr0Wp hwp, Function.update_eq_self]

/-- A loop by what its first rounds leave in the memory. -/
theorem forEach_alone {size : Word} {body : Word → Prog Unit} (left : ℕ → Memory 64 (BitVec 8))
    (hstart : left 0 = s.memory)
    (hround : ∀ k < size.toNat, run (execute i) (body (BitVec.ofNat 64 k))
      { s with memory := left k } = some ((), { s with memory := left (k + 1) })) :
    run (execute i) (forEach size body) s = some ((), { s with memory := left size.toNat }) := by
  have hrounds : ∀ k ≤
    size.toNat, run (execute i) ((List.range k).forM fun i => body (BitVec.ofNat 64 i)) s =
      some ((), { s with memory := left k }) := by
    intro k
    induction k with
    | zero =>
      intro _
      rw [hstart]
      rfl
    | succ k ih =>
      intro hk
      have hlast : (List.range (k + 1)).forM (fun i => body (BitVec.ofNat 64 i)) =
          (List.range k).forM (fun i => body (BitVec.ofNat 64 i)) >>= fun _ => body
          (BitVec.ofNat 64 k) := by
        rw [List.range_succ, List.forM_eq_forM, List.forM_append]
        congr 1
        funext u
        exact bind_done _
      rw [hlast, run_bind, ih (by omega)]
      exact hround k (by omega)
  exact hrounds _ le_rfl

theorem memcpy_alone {target source size : Word} (h : Apart source size.toNat target size.toNat) :
    run (execute i) (memcpy target source size) s =
      some ((), { s with memory := copy s.memory source target size.toNat }) := by
  refine forEach_alone (fun k => copy s.memory source target k) (by funext x; rfl) fun k hk => ?_
  have hsize := size.isLt
  have hload : cellsAt (copy s.memory source target k) (source + BitVec.ofNat 64 k) 1 =
      cellsAt s.memory (source + BitVec.ofNat 64 k) 1 := by
    refine cellsAt_write_apart s.memory fun x hx hx' => ?_
    rw [length_cellsAt] at hx'
    exact h x (hx.of_add (by omega)) (hx'.mono (by omega))
  have hstore := write_append s.memory target (cellsAt s.memory source k)
    (cellsAt s.memory (source + BitVec.ofNat 64 k) 1)
    (by simp only [List.length_append, length_cellsAt]; omega)
  rw [length_cellsAt, ← cellsAt_append] at hstore
  rw [run_bind, run_load, Option.bind_some, run_store, hload]
  exact congrArg (fun m => some ((), { s with memory := m })) hstore

theorem memset_alone {memory size : Word} {byte : BitVec 8} :
    run (execute i) (memset memory byte size) s =
      some ((), { s with memory := fill s.memory memory size.toNat byte }) := by
  refine forEach_alone (fun k => fill s.memory memory k byte) (by funext x; rfl) fun k hk => ?_
  have hsize := size.isLt
  have hstore := write_append s.memory memory (List.replicate k byte) [byte]
    (by simp only [List.length_append, List.length_replicate, List.length_singleton]; omega)
  rw [List.length_replicate, ← List.replicate_succ'] at hstore
  rw [run_store]
  exact congrArg (fun m => some ((), { s with memory := m })) hstore

private theorem copy_alone {source target size : Word}
    (h : Apart source size.toNat target size.toNat) (hwp : wp (s.cr0 (s.cpu i)) = true) :
    run (execute i) (ps4KernelMemoryCopy source target size) s =
      some (if source = 0#64 ∨ target = 0#64 then ps4ErrorArgumentMissing else ps4Ok,
        { s with
          memory := PayloadTemplates.ps4KernelMemoryCopy s.memory source target size.toNat }) := by
  rw [ps4KernelMemoryCopy, PayloadTemplates.ps4KernelMemoryCopy]
  split_ifs with hnull
  · rfl
  · exact section_alone (fun _ => memcpy_alone h) hwp

theorem fill_alone_eq {memory size : Word} {byte : BitVec 8} (hm : memory ≠ 0#64)
    (hwp : wp (s.cr0 (s.cpu i)) = true) : run (execute i) (ps4KernelMemoryFill memory byte size) s =
      some (ps4Ok, { s with memory := fill s.memory memory size.toNat byte }) := by
  rw [ps4KernelMemoryFill, if_neg hm]
  exact section_alone (fun _ => memset_alone) hwp

private theorem swap16_alone {memory swap : Word} :
    run (execute i) (ps4AtomicSwap16 memory swap) s = some ((), { s with
      memory := write (write s.memory swap (cellsAt s.memory memory 2)) memory
          (cellsAt s.memory swap 2) }) := by
  simp only [ps4AtomicSwap16, run_bind, run_load, Option.bind_some, run_xchg,
    length_cellsAt, run_store]

end Alone

section Locks

variable {i : ℕ} {s : Processors} {function bits : Word}

private theorem swap_eq_swapBits {m : Memory 64 (BitVec 8)} {value : BitVec 16}
    (h : Apart bits 2 function 2) (hvalue : cellsAt m bits 2 = wordBytes 2 value.toNat) :
    write (write m bits (cellsAt m function 2)) function (cellsAt m bits 2) =
      write (swapBits m function value).1 bits (wordBytes 2
        (swapBits m function value).2.toNat) := by
  have hold : wordBytes 2 (swapBits m function value).2.toNat = cellsAt m function 2 :=
    wordBytes_cells m function
  have hcomm := write_comm m (a := bits) (b := function) (cellsAt m function 2) (cellsAt m bits 2)
    (by simpa using h)
  rw [hcomm, hold, swapBits_eq, hvalue]

/-- The swap between clearing and setting the bit, by a thread that has pinned itself. -/
theorem lockedSwap_alone {m : Memory 64 (BitVec 8)} (hwp : wp (s.cr0 (s.cpu i)) = true) :
    run (execute i) (do
      ps4KernelProtectionWriteDisable
      ps4AtomicSwap16 function bits
      ps4KernelProtectionWriteEnable
      schedUnpin
      return ps4Ok) { s with memory := m, pinned := Function.update s.pinned i (s.pinned i + 1) } =
    some (ps4Ok, { s with
      memory := write (write m bits (cellsAt m function 2)) function (cellsAt m bits 2) }) := by
  rw [section_alone
    (s := { s with memory := m, pinned := Function.update s.pinned i (s.pinned i + 1) })
    (m := write (write m bits (cellsAt m function 2)) function (cellsAt m bits 2))
    (fun _ => swap16_alone) hwp]
  have hpinned : Function.update (Function.update s.pinned i (s.pinned i + 1)) i
      (Function.update s.pinned i (s.pinned i + 1) i - 1) = s.pinned := by
    rw [Function.update_self, Function.update_idem, Nat.add_sub_cancel, Function.update_eq_self]
  generalize write (write m bits (cellsAt m function 2)) function (cellsAt m bits 2) = m'
  exact congrArg (fun pinned => some (ps4Ok, { s with memory := m', pinned := pinned })) hpinned

theorem unlock_alone {value : BitVec 16} (h : Apart bits 2 function 2)
    (hvalue : cellsAt s.memory bits 2 = wordBytes 2 value.toNat)
    (hwp : wp (s.cr0 (s.cpu i)) = true) :
    ∃ m, run (execute i) (ps4KernelFunctionUnlock function bits) s =
        some ((FunctionHookInstallation.ps4KernelFunctionUnlock s.memory function value).1,
          { s with memory := m }) ∧
      ∀ x, ¬Inside bits 2 x →
        m x = (FunctionHookInstallation.ps4KernelFunctionUnlock s.memory function value).2 x := by
  rw [ps4KernelFunctionUnlock, FunctionHookInstallation.ps4KernelFunctionUnlock]
  split_ifs
  · exact ⟨s.memory, rfl, fun _ _ => rfl⟩
  · refine ⟨_, lockedSwap_alone hwp, fun x hx => ?_⟩
    rw [swap_eq_swapBits h hvalue, write_outside _ (by rwa [length_wordBytes])]

/-- Locking leaves the start of the function behind the pointer and the payload at the function. -/
theorem lock_alone {payload : Word} (h : Apart bits 2 function 2) (hapart : Apart payload 2 bits 2)
    (hpayload : cellsAt s.memory payload 2 = wordBytes 2 ps4PayloadLock.toNat) (hp : payload ≠ 0#64)
    (hbits : bits ≠ 0#64) (value : BitVec 16) (hf : function ≠ 0#64)
    (hwp : wp (s.cr0 (s.cpu i)) = true) :
    ∃ m, run (execute i) (ps4KernelFunctionLock payload function bits) s =
        some ((FunctionHookInstallation.ps4KernelFunctionLock s.memory function value).1,
          { s with memory := m }) ∧
      (∀ x, ¬Inside bits 2 x →
        m x = (FunctionHookInstallation.ps4KernelFunctionLock s.memory function value).2.1 x) ∧
      cellsAt m bits 2 =
        wordBytes 2 (FunctionHookInstallation.ps4KernelFunctionLock s.memory function
          value).2.2.toNat := by
  have hcopied : PayloadTemplates.ps4KernelMemoryCopy s.memory payload bits 2 =
      write s.memory bits (wordBytes 2 ps4PayloadLock.toNat) := by
    rw [PayloadTemplates.ps4KernelMemoryCopy, if_neg (by simp [hp, hbits]), copy, hpayload]
  generalize hm : write s.memory bits (wordBytes 2 ps4PayloadLock.toNat) = m at hcopied
  have hvalue : cellsAt m bits 2 = wordBytes 2 ps4PayloadLock.toNat := by
    rw [← hm]
    exact cellsAt_write s.memory bits (wordBytes 2 ps4PayloadLock.toNat) (by simp)
  have hfunction : cellsAt m function 2 = cellsAt s.memory function 2 := by
    rw [← hm]
    exact cellsAt_write_apart s.memory (by simpa using h.symm)
  have hranges : Apart payload (2#64).toNat bits (2#64).toNat := hapart
  have hcopy := copy_alone (i := i)
    (s := { s with pinned := Function.update s.pinned i (s.pinned i + 1) }) hranges hwp
  refine ⟨write (write m bits (cellsAt m function 2)) function (cellsAt m bits 2), ?_,
    fun x hx => ?_, ?_⟩
  · rw [ps4KernelFunctionLock, if_neg hf, if_neg hbits,
      FunctionHookInstallation.ps4KernelFunctionLock, if_neg hf]
    change run (execute i) (WriteProtection.ps4KernelMemoryCopy payload bits 2#64 >>= _)
      { s with pinned := Function.update s.pinned i (s.pinned i + 1) } = _
    rw [run_bind, hcopy, Option.bind_some]
    change run (execute i) _ { s with
      memory := PayloadTemplates.ps4KernelMemoryCopy s.memory payload bits 2
      pinned := Function.update s.pinned i (s.pinned i + 1) } = _
    rw [hcopied]
    exact lockedSwap_alone hwp
  · have hcomm := write_comm s.memory (a := bits) (b := function) (wordBytes 2 ps4PayloadLock.toNat)
      (wordBytes 2 ps4PayloadLock.toNat) (by simpa using h)
    rw [swap_eq_swapBits h hvalue, write_outside _ (by rwa [length_wordBytes]),
      FunctionHookInstallation.ps4KernelFunctionLock, if_neg hf, swapBits_eq,
      swapBits_eq, ← hm, hcomm,
      write_outside _ (by rwa [length_wordBytes])]
  · have hbehind := cellsAt_write (swapBits m function ps4PayloadLock).1 bits
      (wordBytes 2 (swapBits m function ps4PayloadLock).2.toNat) (by simp)
    have hold : (swapBits m function ps4PayloadLock).2 =
      (swapBits s.memory function ps4PayloadLock).2 :=
      congrArg (fun cells => BitVec.ofNat 16 (bytesValue cells)) hfunction
    rw [length_wordBytes] at hbehind
    rw [swap_eq_swapBits h hvalue, FunctionHookInstallation.ps4KernelFunctionLock,
      if_neg hf, hbehind, hold]

end Locks

end Ps4Sdk.WriteProtection
