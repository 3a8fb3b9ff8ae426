import Ps4Sdk.FallibleCalls
import Ps4Sdk.FunctionHookInstallation
import Ps4Sdk.SystemCallHookChains

/-!
# Updates of the system call table in `kernel/system_call.c`

The table is an array that the code indexes with an `int`. Patching an entry, copying
code in front of that and creating a hook check the number from above only, and each
takes something before its last check: the first a block, the second the hook mutex.
`ps4ExpressionReturnOnError` evaluates a call that fails once more for its code. A table
that is looked up as `NULL` is none: what the call does with it is a fault, and so is the
lock of a mutex that was not made.
-/

namespace Ps4Sdk.SystemCallTables
open FallibleCalls (Evaluations)
open FunctionHookInstallation (ps4KernelIsKernelAddress)
open SystemCallHookChains (Handle sysMaxSyscall)

/-- `struct sysent` -/
structure Sysent where
  narg : ℤ
  call : Address
  auevent : BitVec 16
  systraceArgsFunc : Address
  entry : BitVec 32
  ret : BitVec 32
  flags : BitVec 32
  thrcnt : BitVec 32
  deriving DecidableEq

def aueNull : BitVec 16 := 0
def syThrStatic : BitVec 32 := 1

/-- The table, the live blocks and handles of this module, and its mutex: whether it has
been made, and how often it is locked. -/
structure Kernel where
  sysent : ℤ → Sysent
  live : List Address
  handles : List Handle
  initialized : Bool
  depth : ℕ

/-- The blocks that `Create` is given. -/
structure Memory where
  arg : Option Address
  hook : Option Address
  hookType : Option Address
  prologue : Option Address
  deriving DecidableEq

/-- The end of `ps4KernelSystemCallHookInitialize`: its code, and whether there is a mutex. It
succeeds without one if `Giant` is not found, by the second evaluation of that look-up. -/
structure Initialization where
  code : Code
  mutex : Bool
  deriving DecidableEq

/-! ### The calls -/

/-- The entry is cleared and filled again. -/
def patched (call : Address) (argumentCount : ℤ) : Sysent where
  narg := argumentCount
  call := call
  auevent := aueNull
  systraceArgsFunc := 0
  entry := 0
  ret := 0
  flags := 0
  thrcnt := syThrStatic

def ps4KernelSystemCallPatchUnsafe (lookUp : Evaluations LookUp) (k : Kernel) (number : ℤ)
    (call : Address) (argumentCount : ℤ) : Option (Code × Kernel) :=
  if lookUp.first.code ≠ ps4Ok then some (lookUp.second.code, k)
  else if lookUp.first.value = 0#64 then none
  else some (ps4Ok,
    { k with sysent := Function.update k.sysent number (patched call argumentCount) })

def ps4KernelSystemCallPatch (lookUp : Evaluations LookUp) (k : Kernel) (number : ℤ)
    (call : Address) (argumentCount : ℤ) : Option (Code × Kernel) :=
  if ps4KernelIsKernelAddress call ≠ ps4Ok then some (ps4ErrorArgumentInDifferentSpace, k)
  else if number > sysMaxSyscall then some (ps4ErrorKernelSystemCallNumberTooLarge, k)
  else ps4KernelSystemCallPatchUnsafe lookUp k number call argumentCount

def Kernel.allocate (k : Kernel) (memory : Option Address) : Kernel :=
  { k with live := memory.toList ++ k.live }

/-- The code at `call` is copied into a block; only a size of zero makes the allocation fail, and
a null block is refused by the address check. -/
def ps4KernelSystemCallCopyInAndPatch (lookUp : Evaluations LookUp) (m : Option Address)
    (k : Kernel) (number : ℤ) (size : ℕ) (argumentCount : ℤ) : Option (Code × Kernel) :=
  if size = 0 then some (ps4ErrorKernelOutOfMemory, k)
  else ps4KernelSystemCallPatch lookUp (k.allocate m) number (m.getD 0#64) argumentCount

/-- `ps4KernelSystemCallHookCreate` from the lock on. -/
def hookCreateLocked (sy : Address) (memory : Memory) (k : Kernel) (number : ℤ) :
    Option (Code × Kernel) :=
  let k := { k with depth := k.depth + 1 }
  match memory.arg with
  | none => some (ps4ErrorOutOfMemory, k)
  | some arg =>
    let k := (((k.allocate arg).allocate memory.hook).allocate
      memory.hookType).allocate memory.prologue
    if sy = 0#64 then none
    else
      let entry := k.sysent number
      let handle : Handle := ⟨arg, number, memory.prologue.getD 0#64, entry.call⟩
      some (ps4Ok, { k with
        sysent := Function.update k.sysent number { entry with call := handle.prologue }
        handles := handle :: k.handles
        depth := k.depth - 1 })

def ps4KernelSystemCallHookCreate (lookUp : Evaluations LookUp)
    (initializer : Evaluations (Option Initialization)) (memory : Memory) (k : Kernel)
    (hookh : Address) (number : ℤ) : Option (Code × Kernel) :=
  if lookUp.first.code ≠ ps4Ok then some (lookUp.second.code, k)
  else if hookh = 0#64 then some (ps4ErrorArgumentPrimaryMissing, k)
  else if number > sysMaxSyscall then some (ps4ErrorKernelSystemCallNumberTooLarge, k)
  else if k.initialized = true then hookCreateLocked lookUp.first.value memory k number
  else
    initializer.first.bind fun first =>
      if first.code ≠ ps4Ok then
        initializer.second.map fun second =>
          (second.code, { k with initialized := second.mutex })
      else if first.mutex = false then none
      else hookCreateLocked lookUp.first.value memory { k with initialized := true } number

/-! ### All or nothing -/

/-- The call returns. It succeeds in range, with this entry of the table and no other changed and
the mutex as it was, or it fails and changes nothing. -/
def Atomic (k : Kernel) (number : ℤ) (entry : Sysent) (r : Option (Code × Kernel)) : Prop :=
  ∃ code k', r = some (code, k') ∧
    (code = ps4Ok ∧ 0 ≤ number ∧ number ≤ sysMaxSyscall ∧ k'.sysent number = entry ∧
        (∀ n, n ≠ number → k'.sysent n = k.sysent n) ∧ k'.depth = k.depth ∨
      code ≠ ps4Ok ∧ k'.sysent = k.sysent ∧ k'.live = k.live ∧ k'.depth = k.depth)

variable {k k' : Kernel} {number : ℤ} {entry : Sysent} {code : Code}

private theorem not_atomic_none : ¬Atomic k number entry none := by
  rintro ⟨_, _, h, _⟩
  exact Option.some_ne_none _ h.symm

private theorem atomic_some : Atomic k number entry (some (code, k')) ↔
    code = ps4Ok ∧ 0 ≤ number ∧ number ≤ sysMaxSyscall ∧ k'.sysent number = entry ∧
        (∀ n, n ≠ number → k'.sysent n = k.sysent n) ∧ k'.depth = k.depth ∨
      code ≠ ps4Ok ∧ k'.sysent = k.sysent ∧ k'.live = k.live ∧ k'.depth = k.depth := by
  refine ⟨?_, fun h => ⟨code, k', rfl, h⟩⟩
  rintro ⟨c, t, heq, h⟩
  obtain ⟨rfl, rfl⟩ := Prod.mk.inj (Option.some.inj heq)
  exact h

theorem atomic_of_update (hs : k'.sysent = Function.update k.sysent number entry)
    (hd : k'.depth = k.depth) :
    Atomic k number entry (some (ps4Ok, k')) ↔ 0 ≤ number ∧ number ≤ sysMaxSyscall := by
  rw [atomic_some]
  refine ⟨?_, fun h => .inl ⟨rfl, h.1, h.2, ?_, fun n hn => ?_, hd⟩⟩
  · rintro (h | h)
    · exact ⟨h.2.1, h.2.2.1⟩
    · exact absurd rfl h.1
  · rw [hs, Function.update_self]
  · rw [hs, Function.update_of_ne hn]

private theorem atomic_of_error (hcode : code ≠ ps4Ok) : Atomic k number entry (some (code, k')) ↔
    k'.sysent = k.sysent ∧ k'.live = k.live ∧ k'.depth = k.depth := by
  rw [atomic_some]
  simp [hcode]

/-- The code of a second evaluation, returned with nothing done: an error, or a success for an entry
that was there before. -/
def Idle (k : Kernel) (number : ℤ) (entry : Sysent) (code : Code) : Prop :=
  code = ps4Ok → 0 ≤ number ∧ number ≤ sysMaxSyscall ∧ k.sysent number = entry

theorem atomic_of_unchanged (hs : k'.sysent = k.sysent) (hl : k'.live = k.live)
    (hd : k'.depth = k.depth) :
    Atomic k number entry (some (code, k')) ↔ Idle k number entry code := by
  by_cases hcode : code = ps4Ok
  · subst hcode
    rw [atomic_some, Idle, hs]
    simp [hd]
  · rw [atomic_of_error hcode]
    exact iff_of_true ⟨hs, hl, hd⟩ fun h => absurd h hcode

theorem patchUnsafe_atomic_iff (lookUp : Evaluations LookUp) (k : Kernel) (number : ℤ)
    (call : Address) (argumentCount : ℤ) :
    Atomic k number (patched call argumentCount)
        (ps4KernelSystemCallPatchUnsafe lookUp k number call argumentCount) ↔
      lookUp.first.code ≠ ps4Ok ∧ Idle k number (patched call argumentCount) lookUp.second.code ∨
        lookUp.first.Found ∧ 0 ≤ number ∧ number ≤ sysMaxSyscall := by
  unfold ps4KernelSystemCallPatchUnsafe LookUp.Found
  by_cases hfirst : lookUp.first.code = ps4Ok
  · rw [if_neg (not_not_intro hfirst)]
    by_cases hnull : lookUp.first.value = 0#64
    · rw [if_pos hnull]
      exact iff_of_false not_atomic_none (by simp [hfirst, hnull])
    · rw [if_neg hnull]
      refine Iff.trans (atomic_of_update rfl rfl) ?_
      simp [hfirst, hnull]
  · rw [if_pos hfirst, atomic_of_unchanged rfl rfl rfl]
    simp [hfirst]

theorem patch_atomic_iff (lookUp : Evaluations LookUp) (k : Kernel) (number : ℤ) (call : Address)
    (argumentCount : ℤ) :
    Atomic k number (patched call argumentCount)
        (ps4KernelSystemCallPatch lookUp k number call argumentCount) ↔
      ps4KernelIsKernelAddress call ≠ ps4Ok ∨ number > sysMaxSyscall ∨
        lookUp.first.code ≠ ps4Ok ∧
          Idle k number (patched call argumentCount) lookUp.second.code ∨
        lookUp.first.Found ∧ 0 ≤ number := by
  unfold ps4KernelSystemCallPatch
  by_cases hcall : ps4KernelIsKernelAddress call = ps4Ok
  · rw [if_neg (not_not_intro hcall)]
    by_cases hnumber : number > sysMaxSyscall
    · rw [if_pos hnumber, atomic_of_error (by decide)]
      exact iff_of_true ⟨rfl, rfl, rfl⟩ (.inr (.inl hnumber))
    · rw [if_neg hnumber, patchUnsafe_atomic_iff]
      simp [hcall, hnumber, Int.not_lt.mp hnumber]
  · rw [if_pos hcall, atomic_of_error (by decide)]
    exact iff_of_true ⟨rfl, rfl, rfl⟩ (.inl hcall)

/-- What the new block may be left for: the entry that was asked for, in range. -/
def Stores (lookUp : Evaluations LookUp) (k : Kernel) (number : ℤ) (entry : Sysent) : Prop :=
  0 ≤ number ∧ number ≤ sysMaxSyscall ∧ (lookUp.first.Found ∨
    lookUp.first.code ≠ ps4Ok ∧ lookUp.second.code = ps4Ok ∧ k.sysent number = entry)

/-- Once the block is there every error leaves it behind. -/
theorem patch_allocated_atomic_iff (lookUp : Evaluations LookUp) (a : Address) (k : Kernel)
    (number : ℤ) (call : Address) (argumentCount : ℤ) :
    Atomic k number (patched call argumentCount)
        (ps4KernelSystemCallPatch lookUp (k.allocate (some a)) number call argumentCount) ↔
      ps4KernelIsKernelAddress call = ps4Ok ∧
        Stores lookUp k number (patched call argumentCount) := by
  have hleak : (k.allocate (some a)).live ≠ k.live := by simp [Kernel.allocate]
  unfold ps4KernelSystemCallPatch Stores LookUp.Found
  by_cases hcall : ps4KernelIsKernelAddress call = ps4Ok
  · rw [if_neg (not_not_intro hcall)]
    by_cases hnumber : number > sysMaxSyscall
    · rw [if_pos hnumber, atomic_of_error (by decide)]
      exact iff_of_false (fun h => hleak h.2.1) fun h => by omega
    · rw [if_neg hnumber]
      unfold ps4KernelSystemCallPatchUnsafe
      by_cases hfirst : lookUp.first.code = ps4Ok
      · rw [if_neg (not_not_intro hfirst)]
        by_cases hnull : lookUp.first.value = 0#64
        · rw [if_pos hnull]
          exact iff_of_false not_atomic_none (by simp [hfirst, hnull])
        · rw [if_neg hnull]
          refine Iff.trans (atomic_of_update rfl rfl) ?_
          simp [hfirst, hnull, hcall]
      · rw [if_pos hfirst]
        by_cases hsecond : lookUp.second.code = ps4Ok
        · rw [hsecond, atomic_some]
          simp [hfirst, hcall, Kernel.allocate]
        · rw [atomic_of_error hsecond]
          exact iff_of_false (fun h => hleak h.2.1) (by simp [hfirst, hsecond])
  · rw [if_pos hcall, atomic_of_error (by decide)]
    exact iff_of_false (fun h => hleak h.2.1) fun h => hcall h.1

theorem copyInAndPatch_atomic_iff (lookUp : Evaluations LookUp) (m : Option Address) (k : Kernel)
    (number : ℤ) (size : ℕ) (argumentCount : ℤ) :
    Atomic k number (patched (m.getD 0#64) argumentCount)
        (ps4KernelSystemCallCopyInAndPatch lookUp m k number size argumentCount) ↔
      size = 0 ∨ ∀ a, m = some a → ps4KernelIsKernelAddress a = ps4Ok ∧
        Stores lookUp k number (patched a argumentCount) := by
  unfold ps4KernelSystemCallCopyInAndPatch
  by_cases hsize : size = 0
  · rw [if_pos hsize, atomic_of_error (by decide)]
    exact iff_of_true ⟨rfl, rfl, rfl⟩ (.inl hsize)
  · rw [if_neg hsize]
    cases m with
    | none =>
      refine iff_of_true ((patch_atomic_iff ..).mpr (.inl (by decide))) (.inr fun a ha => ?_)
      cases ha
    | some a =>
      rw [Option.getD_some, patch_allocated_atomic_iff]
      simp [hsize]

/-- The entry that the hook is to leave in the table. -/
def hooked (k : Kernel) (number : ℤ) (memory : Memory) : Sysent :=
  { k.sysent number with call := memory.prologue.getD 0#64 }

theorem hookCreateLocked_atomic_iff (sy : Address) (memory : Memory) (k : Kernel)
    (initialized : Bool) {number : ℤ} (hmax : number ≤ sysMaxSyscall) :
    Atomic k number (hooked k number memory)
        (hookCreateLocked sy memory { k with initialized := initialized } number) ↔
      memory.arg ≠ none ∧ sy ≠ 0#64 ∧ 0 ≤ number := by
  unfold hookCreateLocked
  cases harg : memory.arg with
  | none =>
    dsimp only
    rw [atomic_of_error (by decide)]
    exact iff_of_false (fun h => absurd h.2.2 (Nat.succ_ne_self _)) (by simp)
  | some arg =>
    dsimp only
    by_cases hsy : sy = 0#64
    · rw [if_pos hsy]
      exact iff_of_false not_atomic_none (by simp [hsy])
    · rw [if_neg hsy]
      refine Iff.trans (atomic_of_update rfl rfl) ?_
      simp [hsy, hmax]

/-- The call ends in front of the mutex with an error, or with a success that nothing was done
for. -/
def Refused (lookUp : Evaluations LookUp) (initializer : Evaluations (Option Initialization))
    (k : Kernel) (hookh : Address) (number : ℤ) (entry : Sysent) : Prop :=
  lookUp.first.code ≠ ps4Ok ∧ Idle k number entry lookUp.second.code ∨
    lookUp.first.code = ps4Ok ∧ (hookh = 0#64 ∨ number > sysMaxSyscall ∨
      k.initialized = false ∧ ∃ first second, initializer.first = some first ∧
        first.code ≠ ps4Ok ∧ initializer.second = some second ∧
        Idle k number entry second.code)

/-- The call gets past the checks and takes the mutex. -/
def Locks (lookUp : Evaluations LookUp) (initializer : Evaluations (Option Initialization))
    (k : Kernel) (hookh : Address) (number : ℤ) : Prop :=
  lookUp.first.code = ps4Ok ∧ hookh ≠ 0#64 ∧ number ≤ sysMaxSyscall ∧
    (k.initialized = false → initializer.first = some ⟨ps4Ok, true⟩)

theorem hookCreate_atomic_iff (lookUp : Evaluations LookUp)
    (initializer : Evaluations (Option Initialization)) (memory : Memory) (k : Kernel)
    (hookh : Address) (number : ℤ) :
    Atomic k number (hooked k number memory)
        (ps4KernelSystemCallHookCreate lookUp initializer memory k hookh number) ↔
      Refused lookUp initializer k hookh number (hooked k number memory) ∨
        Locks lookUp initializer k hookh number ∧ memory.arg ≠ none ∧
          lookUp.first.value ≠ 0#64 ∧ 0 ≤ number := by
  unfold ps4KernelSystemCallHookCreate Refused Locks
  by_cases hlook : lookUp.first.code = ps4Ok
  swap
  · rw [if_pos hlook, atomic_of_unchanged rfl rfl rfl]
    simp [hlook]
  rw [if_neg (not_not_intro hlook)]
  by_cases hhook : hookh = 0#64
  · rw [if_pos hhook, atomic_of_error (by decide)]
    exact iff_of_true ⟨rfl, rfl, rfl⟩ (.inl (.inr ⟨hlook, .inl hhook⟩))
  rw [if_neg hhook]
  by_cases hnumber : number > sysMaxSyscall
  · rw [if_pos hnumber, atomic_of_error (by decide)]
    exact iff_of_true ⟨rfl, rfl, rfl⟩ (.inl (.inr ⟨hlook, .inr (.inl hnumber)⟩))
  have hmax : number ≤ sysMaxSyscall := Int.not_lt.mp hnumber
  rw [if_neg hnumber]
  cases hinit : k.initialized with
  | true =>
    rw [if_pos rfl, hookCreateLocked_atomic_iff _ _ k k.initialized hmax]
    simp [hlook, hhook, hnumber, hmax]
  | false =>
    rw [if_neg Bool.false_ne_true]
    rcases hfirst : initializer.first with _ | ⟨code, mutex⟩
    · exact iff_of_false not_atomic_none (by simp [hlook, hhook, hnumber])
    rw [Option.bind_some]
    by_cases hcode : code = ps4Ok
    · cases mutex with
      | false =>
        exact iff_of_false (by simp [hcode, not_atomic_none])
          (by simp [hlook, hhook, hnumber, hcode])
      | true =>
        simp only [hcode, ne_eq, not_true_eq_false, if_false, Bool.true_eq_false]
        rw [hookCreateLocked_atomic_iff _ _ k true hmax]
        simp [hlook, hhook, hnumber, hmax]
    · simp only [ne_eq, hcode, not_false_eq_true, if_true]
      rcases hsecond : initializer.second with _ | second
      · exact iff_of_false not_atomic_none (by simp [hlook, hhook, hnumber, hcode])
      · rw [Option.map_some]
        refine Iff.trans (atomic_of_unchanged rfl rfl rfl) ?_
        simp [hlook, hhook, hnumber, hcode]

/-- The three updates of the table are all or nothing in range exactly under these conditions:
numbers are not negative where the entry is written, the table is found, nothing fails behind the
allocation of the block for the code, and there is memory for the handle once the mutex is locked.
A success without the entry written is none. -/
theorem systemCall_atomic_iff (k : Kernel) (number : ℤ) :
    (∀ lookUp call argumentCount,
      Atomic k number (patched call argumentCount)
          (ps4KernelSystemCallPatch lookUp k number call argumentCount) ↔
        ps4KernelIsKernelAddress call ≠ ps4Ok ∨ number > sysMaxSyscall ∨
          lookUp.first.code ≠ ps4Ok ∧
            Idle k number (patched call argumentCount) lookUp.second.code ∨
          lookUp.first.Found ∧ 0 ≤ number) ∧
    (∀ lookUp m size argumentCount,
      Atomic k number (patched (m.getD 0#64) argumentCount)
          (ps4KernelSystemCallCopyInAndPatch lookUp m k number size argumentCount) ↔
        size = 0 ∨ ∀ a, m = some a → ps4KernelIsKernelAddress a = ps4Ok ∧
          Stores lookUp k number (patched a argumentCount)) ∧
    ∀ lookUp initializer memory hookh,
      Atomic k number (hooked k number memory)
          (ps4KernelSystemCallHookCreate lookUp initializer memory k hookh number) ↔
        Refused lookUp initializer k hookh number (hooked k number memory) ∨
          Locks lookUp initializer k hookh number ∧ memory.arg ≠ none ∧
            lookUp.first.value ≠ 0#64 ∧ 0 ≤ number :=
  ⟨fun lookUp call argumentCount => patch_atomic_iff lookUp k number call argumentCount,
    fun lookUp m size argumentCount =>
      copyInAndPatch_atomic_iff lookUp m k number size argumentCount,
    fun lookUp initializer memory hookh =>
      hookCreate_atomic_iff lookUp initializer memory k hookh number⟩

def pristine : Kernel := ⟨fun _ => ⟨0, 0, 0, 0, 0, 0, 0, 0⟩, [], [], true, 0⟩

def found : Evaluations LookUp := ⟨⟨ps4Ok, 0xffffffff81000000⟩, ⟨ps4Ok, 0xffffffff81000000⟩⟩

/-- The table is not found, and the second evaluation gives the pointer that is cached for it. -/
def notFound : Evaluations LookUp := ⟨⟨ps4ErrorKernelSymbolLookupNotFound, 0⟩, ⟨ps4Ok, 0⟩⟩

/-- A patch of the number minus one writes in front of the table, a number that is too large leaves
the copied code behind, a hook without memory for the handle leaves the mutex locked, and a patch
without a table succeeds. -/
theorem systemCall_updates_diverge :
    (∃ k', ps4KernelSystemCallPatch found pristine (-1) 0xffffffff80000000 0 = some (ps4Ok, k') ∧
      (k'.sysent (-1)).call = 0xffffffff80000000) ∧
    ¬Atomic pristine (-1) (patched 0xffffffff80000000 0)
      (ps4KernelSystemCallPatch found pristine (-1) 0xffffffff80000000 0) ∧
    (∃ k', ps4KernelSystemCallCopyInAndPatch found (some 0xffffff8000001000) pristine 618 64 0 =
      some (ps4ErrorKernelSystemCallNumberTooLarge, k') ∧ k'.live = [0xffffff8000001000]) ∧
    ¬Atomic pristine 618 (patched 0xffffff8000001000 0)
      (ps4KernelSystemCallCopyInAndPatch found (some 0xffffff8000001000) pristine 618 64 0) ∧
    (∃ k', ps4KernelSystemCallHookCreate found ⟨none, none⟩ ⟨none, none, none, none⟩ pristine 0x1000
      0 = some (ps4ErrorOutOfMemory, k') ∧ k'.depth = 1) ∧
    ¬Atomic pristine 0 (hooked pristine 0 ⟨none, none, none, none⟩)
      (ps4KernelSystemCallHookCreate found ⟨none, none⟩
        ⟨none, none, none, none⟩ pristine 0x1000 0) ∧
    ps4KernelSystemCallPatch notFound pristine 0 0xffffffff80000000 0 = some (ps4Ok, pristine) ∧
    ¬Atomic pristine 0 (patched 0xffffffff80000000 0)
      (ps4KernelSystemCallPatch notFound pristine 0 0xffffffff80000000 0) := by
  refine ⟨⟨_, rfl, by decide⟩, ?_, ⟨_, rfl, rfl⟩, ?_, ⟨_, rfl, rfl⟩, ?_, rfl, ?_⟩
  · rw [patch_atomic_iff]
    rintro (h | h | h | h)
    · exact h (by decide)
    · exact absurd h (by decide)
    · exact h.1 rfl
    · exact absurd h.2 (by decide)
  · intro h
    have hstores := ((copyInAndPatch_atomic_iff ..).mp h).resolve_left (by decide) _ rfl
    exact absurd hstores.2.2.1 (by decide)
  · rw [hookCreate_atomic_iff]
    rintro ((h | ⟨_, h | h | h⟩) | h)
    · exact h.1 rfl
    · exact absurd h (by decide)
    · exact absurd h (by decide)
    · exact Bool.noConfusion h.1
    · exact h.2.1 rfl
  · rw [patch_atomic_iff]
    rintro (h | h | h | h)
    · exact h (by decide)
    · exact absurd h (by decide)
    · exact absurd (congrArg Sysent.thrcnt (h.2 rfl).2.2) (by decide)
    · exact h.1.2 rfl

/-! ### Chains of hooks -/

def Kernel.chains (k : Kernel) : SystemCallHookChains.Kernel :=
  ⟨fun n => (k.sysent n).call, k.handles⟩

theorem hookCreateLocked_chains {sy : Address} (hsy : sy ≠ 0#64) (memory : Memory) (k : Kernel)
    {number : ℤ} (hmax : number ≤ sysMaxSyscall) {arg prologue : Address}
    (harg : memory.arg = some arg) (hprologue : memory.prologue = some prologue) :
    ∃ k', hookCreateLocked sy memory k number = some (ps4Ok, k') ∧
      SystemCallHookChains.ps4KernelSystemCallHookCreate k.chains number arg prologue =
        (ps4Ok, k'.chains) := by
  rw [hookCreateLocked, harg, hprologue]
  dsimp only
  rw [if_neg hsy]
  refine ⟨_, rfl, ?_⟩
  rw [SystemCallHookChains.ps4KernelSystemCallHookCreate, if_neg (Int.not_lt.mpr hmax)]
  simp only [Kernel.chains, Prod.mk.injEq, true_and, SystemCallHookChains.Kernel.mk.injEq]
  constructor
  · funext n
    by_cases hn : n = number
    · subst hn
      simp
    · simp [Function.update_of_ne hn, Kernel.allocate]
  · rfl

/-- With a table and memory for everything, creating a hook does to the calls what it does to the
chains. -/
theorem hookCreate_chains {lookUp : Evaluations LookUp}
    {initializer : Evaluations (Option Initialization)} {k : Kernel} {hookh : Address} {number : ℤ}
    (h : Locks lookUp initializer k hookh number) (htable : lookUp.first.value ≠ 0#64)
    (memory : Memory) {arg prologue : Address} (harg : memory.arg = some arg)
    (hprologue : memory.prologue = some prologue) :
    ∃ k', ps4KernelSystemCallHookCreate lookUp initializer memory k hookh number =
        some (ps4Ok, k') ∧
      SystemCallHookChains.ps4KernelSystemCallHookCreate k.chains number arg prologue =
        (ps4Ok, k'.chains) := by
  obtain ⟨hlook, hhook, hmax, hready⟩ := h
  rw [ps4KernelSystemCallHookCreate, if_neg (not_not_intro hlook), if_neg hhook,
    if_neg (Int.not_lt.mpr hmax)]
  cases hinit : k.initialized with
  | true =>
    rw [if_pos rfl]
    exact hookCreateLocked_chains htable memory k hmax harg hprologue
  | false =>
    rw [if_neg Bool.false_ne_true, hready hinit]
    exact hookCreateLocked_chains htable memory { k with initialized := true } hmax harg hprologue

end Ps4Sdk.SystemCallTables
