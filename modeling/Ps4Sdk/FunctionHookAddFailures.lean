import Ps4Sdk.FunctionHookFailures

/-!
# Failures of `ps4KernelFunctionHookAdd`, `kernel/function.c`

`Add` takes the hook mutex and then the spin lock of the handle. Its last part unlocks
the mutex on every path behind the lock; the spin lock is released by a statement of the
body, which a throw out of the growing table passes over. `Add` is shown to be the call
on the table of the handle together with its record of the blocks.
-/

namespace Ps4Sdk.FunctionHookFailures
open CheckedBlocks AtomicSpinLocks FallibleCalls
open FunctionHookTables (HookTable HookType)

/-- The outcomes `m` and `m2` of the allocations of a growing table, where zero is NULL. -/
structure Growth where
  hook : Address
  hookType : Address
  deriving DecidableEq

def Growth.allocation (g : Growth) : FunctionHookTables.Allocation :=
  ⟨g.hook ≠ 0#64, g.hookType ≠ 0#64⟩

def Kernel.free (k : Kernel) (block : Address) : Kernel :=
  { k with freed := k.freed ++ blockAt block }

def Frame.table (fr : Frame) : HookTable := (fr.kernel.handle fr.arg).table

def Frame.setTable (fr : Frame) (a : HookTable) : Frame :=
  { fr with kernel :=
    { fr.kernel with
      handle := Function.update fr.kernel.handle fr.arg { fr.kernel.handle fr.arg with table := a }
        } }

def onTable (f : HookTable → Except Stop HookTable) : Body Stop Frame Code Unit :=
  attempt fun fr => (f fr.table).map fr.setTable

def Frame.record (block : Address) (fr : Frame) : Frame :=
  { fr with kernel := fr.kernel.record block }

def Frame.free (block : Address) (fr : Frame) : Frame := { fr with kernel := fr.kernel.free block }

def Frame.setPointer (f : Field) (block : Address) (fr : Frame) : Frame :=
  { fr with kernel :=
    { fr.kernel with
      pointer := Function.update fr.kernel.pointer fr.arg
        (Function.update (fr.kernel.pointer fr.arg) f block) } }

def Frame.replaceBlocks (g : Growth) (fr : Frame) : Frame :=
  (((fr.free (fr.kernel.pointer fr.arg .hook)).free (fr.kernel.pointer fr.arg .hookType)).setPointer
    .hook g.hook).setPointer .hookType g.hookType

/-- The branch of `Add` that doubles the table. -/
def growing (g : Growth) : Body Stop Frame Code Unit := do
  modify (Frame.record g.hook)
  exitIf (.throw ps4ErrorKernelOutOfMemory) fun _ => g.hook = 0#64
  modify (Frame.record g.hookType)
  if g.hookType = 0#64 then do
    modify (Frame.free g.hook)
    exit (.throw ps4ErrorKernelOutOfMemory)
  else do
    onTable FunctionHookTables.grow
    modify (Frame.replaceBlocks g)

def spinLocked (a : HookTable) : Except Stop HookTable :=
  (ps4AtomicSpinLock64 a.lock).map fun lock => { a with lock := lock }

def spinUnlocked (a : HookTable) : HookTable := { a with lock := (ps4AtomicSpinUnlock64 a.lock).2 }

def isFull (a : HookTable) : Bool := a.hookCount ≥ a.hookSize - 1

/-- The part of `Add` under the spin lock. -/
def reserving (g : Growth) : Body Stop Frame Code Unit := do
  let full ← read fun fr => isFull fr.table
  if full then growing g else pure ()

/-- The last statements of `Add`. -/
def publishing (hook : Address) (type : ℤ) : Body Stop Frame Code Empty := do
  onTable fun a => .ok (spinUnlocked a)
  onTable fun a => FunctionHookTables.publish a hook type
  exit (.finish ps4Ok)

/-- `Add` behind the lazy initializer. -/
def addBody (g : Growth) (hook : Address) (type : ℤ) : Body Stop Frame Code Empty := do
  exitIf (.leave ps4ErrorArgumentPrimaryMissing) fun fr => fr.arg = 0#64
  exitIf (.leave ps4ErrorArgumentMissing) fun _ => hook = 0#64
  modify Frame.lock
  onTable spinLocked
  reserving g
  publishing hook type

def ps4KernelFunctionHookAdd (initializer : Evaluations Code) (g : Growth) (hookh hook : Address)
    (type : HookType) (k : Kernel) : Except Stop (Code × Kernel) := do
  let (code, fr) ← handled id Frame.finalizing
    (initializing initializer >>= fun _ => addBody g hook type.value) ⟨k, hookh, 0#64⟩
  return (code, fr.kernel)

/-- The record of the blocks behind `Add`. -/
def Frame.settled (g : Growth) (fr : Frame) : Frame :=
  if isFull fr.table = true then
    if g.hook = 0#64 then fr
    else if g.hookType = 0#64 then (fr.record g.hook).free g.hook
    else ((fr.record g.hook).record g.hookType).replaceBlocks g
  else fr

section

variable {g : Growth} {hook : Address} {type : ℤ} {fr : Frame}

@[simp] theorem setTable_table (fr : Frame) (a : HookTable) : (fr.setTable a).table = a := by
  simp [Frame.setTable, Frame.table]

@[simp] theorem setTable_setTable (fr : Frame) (a a' : HookTable) :
    (fr.setTable a).setTable a' = fr.setTable a' := by
  simp [Frame.setTable]

private theorem onTable_ok {f : HookTable → Except Stop HookTable} {a : HookTable}
    (h : f fr.table = .ok a) :
    onTable f fr = .ok (.ok (), fr.setTable a) := by
  simp [onTable, attempt, h, Except.map]

private theorem onTable_stop {f : HookTable → Except Stop HookTable} {fault : Stop}
    (h : f fr.table = .error fault) :
    onTable f fr = .error fault := by
  simp [onTable, attempt, h, Except.map]

/-- The spin lock is released and the pair is written. -/
theorem publishing_run (fr : Frame) : publishing hook type fr =
    (FunctionHookTables.publish (spinUnlocked fr.table) hook type).map fun a =>
      (.error (.finish ps4Ok), fr.setTable a) := by
  have hunlock : onTable (fun a => .ok (spinUnlocked a)) fr =
    .ok (.ok (), fr.setTable (spinUnlocked fr.table)) :=
    onTable_ok rfl
  rw [publishing, bind_ok hunlock]
  cases hp : FunctionHookTables.publish (spinUnlocked fr.table) hook type with
  | error fault => exact bind_stop (onTable_stop (by rw [setTable_table, hp]))
  | ok a =>
    have hpublish : onTable (fun a => FunctionHookTables.publish a hook type)
        (fr.setTable (spinUnlocked fr.table)) = .ok (.ok (), fr.setTable a) := by
      rw [onTable_ok (by rw [setTable_table, hp]), setTable_setTable]
    rw [bind_ok hpublish]
    rfl

/-- A full table grows, or is left as it is with the blocks freed. -/
theorem reserving_run (g : Growth) (fr : Frame) : reserving g fr =
    if isFull fr.table then
      if g.hook = 0#64 ∨ g.hookType =
        0#64 then .ok (.error (.throw ps4ErrorKernelOutOfMemory), fr.settled g)
      else (FunctionHookTables.grow fr.table).map fun a => (.ok (), (fr.settled g).setTable a)
    else .ok (.ok (), fr) := by
  change (if isFull fr.table then growing g else pure ()) fr = _
  unfold Frame.settled
  by_cases hfull : isFull fr.table = true
  · rw [if_pos hfull, if_pos hfull, if_pos hfull, growing, modify_bind, exitIf_bind]
    by_cases hm : g.hook = 0#64
    · have hnone : fr.record g.hook = fr := by simp [Frame.record, Kernel.record, hm]
      rw [if_pos (decide_eq_true hm), if_pos (Or.inl hm), if_pos hm, hnone]
    rw [if_neg (by simpa using hm), if_neg hm, modify_bind]
    by_cases hm2 : g.hookType = 0#64
    · have hnone : (fr.record g.hook).record g.hookType = fr.record g.hook := by
        simp [Frame.record, Kernel.record, hm2]
      rw [if_pos (Or.inr hm2), if_pos hm2, if_pos hm2, modify_bind, hnone]
      rfl
    rw [if_neg (not_or.mpr ⟨hm, hm2⟩), if_neg hm2, if_neg hm2]
    cases hg : FunctionHookTables.grow fr.table with
    | error fault => exact bind_stop (onTable_stop hg)
    | ok a =>
      have hgrow : onTable FunctionHookTables.grow ((fr.record g.hook).record g.hookType) =
          .ok (.ok (), ((fr.record g.hook).record g.hookType).setTable a) := onTable_ok hg
      rw [bind_ok hgrow]
      rfl
  · rw [if_neg hfull, if_neg hfull]
    rfl

theorem spinLocked_full {a a' : HookTable} (h : spinLocked a = .ok a') :
    isFull a' = isFull a := by
  unfold spinLocked at h
  cases hl : ps4AtomicSpinLock64 a.lock with
  | error fault =>
    rw [hl] at h
    cases h
  | ok lock =>
    rw [hl] at h
    cases h
    rfl

private theorem settled_locked (g : Growth) (fr : Frame) {a : HookTable}
    (h : isFull a = isFull fr.table) :
    (fr.lock.setTable a).settled g = ((fr.settled g).setTable a).lock := by
  unfold Frame.settled
  rw [setTable_table, h]
  split_ifs <;> rfl

private theorem settled_initialized (g : Growth) (fr : Frame) :
    (fr.settled g).kernel.initialized = fr.kernel.initialized := by
  unfold Frame.settled
  split_ifs <;> rfl

theorem publishing_handled (hi : fr.kernel.initialized = true) (a : HookTable) :
    handled id Frame.finalizing (publishing hook type) (fr.setTable a).lock =
      (FunctionHookTables.publish (spinUnlocked a) hook type).map fun a =>
      (ps4Ok, fr.setTable a) := by
  have hback (a' : HookTable) : ((fr.setTable a).lock.setTable a').finalizing = fr.setTable a' := by
    have hsame : (fr.setTable a).lock.setTable a' = (fr.setTable a').lock :=
      congrArg Frame.lock (setTable_setTable fr a a')
    rw [hsame]
    exact locked_finalizing hi
  have htable : (fr.setTable a).lock.table = a := setTable_table fr a
  rw [handled, publishing_run, htable]
  cases FunctionHookTables.publish (spinUnlocked a) hook type with
  | error fault => rfl
  | ok a' => exact congrArg (fun fr => Except.ok (ps4Ok, fr)) (hback a')

def addLocked (m : FunctionHookTables.Allocation) (a : HookTable) (hook : Address) (type : ℤ) :
    Except Stop (Code × HookTable) :=
  if isFull a = true then
    if m.hook = false ∨ m.hookType = false then .ok (ps4ErrorKernelOutOfMemory, a)
    else FunctionHookTables.grow a >>= fun a =>
      (FunctionHookTables.publish (spinUnlocked a) hook type).map fun a => (ps4Ok, a)
  else (FunctionHookTables.publish (spinUnlocked a) hook type).map fun a => (ps4Ok, a)

theorem tableAdd_eq (m : FunctionHookTables.Allocation) (a : HookTable) (type : ℤ)
    (hh : hook ≠ 0#64) :
    FunctionHookTables.ps4KernelFunctionHookAdd m a hook type =
      spinLocked a >>= fun a => addLocked m a hook type := by
  rw [FunctionHookTables.ps4KernelFunctionHookAdd, if_neg hh, spinLocked]
  cases ps4AtomicSpinLock64 a.lock with
  | error fault => rfl
  | ok lock =>
    change (if a.hookCount ≥ a.hookSize - 1 then _ else _) =
      addLocked m { a with lock := lock } hook type
    have hpublish (a : HookTable) :
        (FunctionHookTables.publish (spinUnlocked a) hook type >>= fun a =>
        Except.ok (ps4Ok, a)) =
          (FunctionHookTables.publish (spinUnlocked a) hook type).map fun a => (ps4Ok, a) := by
      cases FunctionHookTables.publish (spinUnlocked a) hook type <;> rfl
    unfold addLocked
    by_cases hf : a.hookCount ≥ a.hookSize - 1
    · have hfull : isFull { a with lock := lock } = true := decide_eq_true hf
      rw [if_pos hf, if_pos hfull]
      by_cases hm : m.hook = false ∨ m.hookType = false
      · rw [if_pos hm, if_pos hm]
        rfl
      · rw [if_neg hm, if_neg hm]
        simp only [← hpublish]
        rfl
    · rw [if_neg hf, if_neg (by simpa [isFull] using hf), ← hpublish]
      rfl

/-- `Add` is the call on the table of the handle, with its record of the blocks. -/
theorem addBody_eq (hi : fr.kernel.initialized = true) (ha : fr.arg ≠ 0#64) (hh : hook ≠ 0#64) :
    handled id Frame.finalizing (addBody g hook type) fr =
      (FunctionHookTables.ps4KernelFunctionHookAdd g.allocation fr.table hook type).map fun r =>
        (r.1, (fr.settled g).setTable r.2) := by
  have hi' : (fr.settled g).kernel.initialized = true := (settled_initialized g fr).trans hi
  have hg : (g.allocation.hook = false ∨ g.allocation.hookType = false) ↔ g.hook = 0#64 ∨
      g.hookType = 0#64 := by
    simp [Growth.allocation]
  have hbody : addBody g hook type fr =
      (onTable spinLocked >>= fun _ => reserving g >>= fun _ => publishing hook type) fr.lock := by
    rw [addBody, exitIf_bind, if_neg (by simpa using ha), exitIf_bind,
      if_neg (by simpa using hh), modify_bind]
  rw [handled_congr hbody, tableAdd_eq g.allocation fr.table type hh]
  cases hl : spinLocked fr.table with
  | error fault =>
    have hstop : onTable spinLocked fr.lock = .error fault := onTable_stop hl
    rw [handled, bind_stop hstop]
    rfl
  | ok a =>
    have htaken : onTable spinLocked fr.lock = .ok (.ok (), fr.lock.setTable a) := onTable_ok hl
    have hfull : isFull a = isFull fr.table := spinLocked_full hl
    change _ = Except.map _ (addLocked g.allocation a hook type)
    rw [handled_congr (bind_ok htaken), addLocked]
    have hreserve := reserving_run g (fr.lock.setTable a)
    have htable : (fr.lock.setTable a).table = a := setTable_table fr.lock a
    rw [settled_locked g fr hfull, htable] at hreserve
    by_cases hf : isFull a = true
    · rw [if_pos hf] at hreserve ⊢
      by_cases hnull : g.hook = 0#64 ∨ g.hookType = 0#64
      · rw [if_pos hnull] at hreserve
        rw [if_pos (hg.mpr hnull), handled_exit (bind_exit hreserve)]
        exact congrArg (fun fr => Except.ok (ps4ErrorKernelOutOfMemory, fr)) (locked_finalizing hi')
      · rw [if_neg hnull] at hreserve
        rw [if_neg (fun h => hnull (hg.mp h))]
        cases hgrow : FunctionHookTables.grow a with
        | error fault =>
          rw [hgrow] at hreserve
          rw [handled, bind_stop hreserve]
          rfl
        | ok a' =>
          rw [hgrow] at hreserve
          have hset : (((fr.settled g).setTable a).lock).setTable a' =
            ((fr.settled g).setTable a').lock :=
            congrArg Frame.lock (setTable_setTable (fr.settled g) a a')
          replace hreserve : reserving g (fr.lock.setTable a) =
            .ok (.ok (), ((fr.settled g).setTable a').lock) :=
            hreserve.trans (congrArg (fun fr => Except.ok (Except.ok (), fr)) hset)
          rw [handled_congr (bind_ok hreserve), publishing_handled hi' a']
          change _ = Except.map _ (Except.map _ _)
          cases FunctionHookTables.publish (spinUnlocked a') hook type <;> rfl
    · have hnone : fr.settled g = fr := by
        rw [Frame.settled, if_neg (by rwa [← hfull])]
      rw [if_neg hf] at hreserve ⊢
      rw [handled_congr (bind_ok hreserve), hnone]
      refine (publishing_handled hi a).trans ?_
      cases FunctionHookTables.publish (spinUnlocked a) hook type <;> rfl

theorem spinLocked_ok {a a' : HookTable} : spinLocked a = .ok a' ↔ a.lock = 0 ∧
    a' = { a with lock := 1 } := by
  refine ⟨fun h => ?_, fun ⟨hz, he⟩ => ?_⟩
  · cases hl : ps4AtomicSpinLock64 a.lock with
    | error fault =>
      rw [spinLocked, hl] at h
      cases h
    | ok v =>
      obtain ⟨hz, rfl⟩ := ps4AtomicSpinLock64_eq_ok.mp hl
      rw [spinLocked, hl] at h
      exact ⟨hz, (Except.ok.inj h).symm⟩
  · rw [spinLocked, ps4AtomicSpinLock64_eq_ok.mpr ⟨hz, rfl⟩, he]
    rfl

private theorem publish_lock {a a' : HookTable}
    (h : FunctionHookTables.publish a hook type = .ok a') : a'.lock = a.lock := by
  obtain ⟨_, _, rfl⟩ := FunctionHookTables.publish_eq_ok h
  rfl

def Exhausted (m : FunctionHookTables.Allocation) (a : HookTable) : Prop :=
  isFull a = true ∧ (m.hook = false ∨ m.hookType = false)

private theorem tableAdd_exhausted {m : FunctionHookTables.Allocation} {a : HookTable}
    (hh : hook ≠ 0#64) (hl : a.lock = 0) (he : Exhausted m a) :
    FunctionHookTables.ps4KernelFunctionHookAdd m a hook type =
      .ok (ps4ErrorKernelOutOfMemory, { a with lock := 1 }) := by
  have hfull : isFull { a with lock := 1 } = true := he.1
  rw [tableAdd_eq m a type hh, spinLocked_ok.mpr ⟨hl, rfl⟩]
  change addLocked m { a with lock := 1 } hook type = _
  rw [addLocked, if_pos hfull, if_pos he.2]

private theorem tableAdd_lock {m : FunctionHookTables.Allocation} {a : HookTable}
    {r : Code × HookTable} (hh : hook ≠ 0#64) (h : FunctionHookTables.ps4KernelFunctionHookAdd m a
      hook type = .ok r) : a.lock = 0 := by
  rw [tableAdd_eq m a type hh] at h
  obtain ⟨a₁, hl, _⟩ := bind_eq_ok.mp h
  exact (spinLocked_ok.mp hl).1

/-- The call returns with the spin lock released, except on a table that cannot grow. -/
theorem tableAdd_added {m : FunctionHookTables.Allocation} {a a' : HookTable} {code : Code}
    (hh : hook ≠ 0#64) (he : ¬Exhausted m a) (h : FunctionHookTables.ps4KernelFunctionHookAdd m a
      hook type = .ok (code, a')) :
    code = ps4Ok ∧ a'.lock = 0 := by
  have hpublish {a : HookTable} (h : ((FunctionHookTables.publish (spinUnlocked a) hook type).map
      fun a =>
      (ps4Ok, a)) = .ok (code, a')) : code = ps4Ok ∧ a'.lock = 0 := by
    cases hp : FunctionHookTables.publish (spinUnlocked a) hook type with
    | error fault =>
      rw [hp] at h
      cases h
    | ok a'' =>
      rw [hp] at h
      cases h
      exact ⟨rfl, publish_lock hp⟩
  rw [tableAdd_eq m a type hh] at h
  obtain ⟨a₁, hl, h⟩ := bind_eq_ok.mp h
  obtain ⟨_, rfl⟩ := spinLocked_ok.mp hl
  unfold addLocked at h
  by_cases hf : isFull { a with lock := 1 } = true
  · rw [if_pos hf, if_neg fun hm => he ⟨hf, hm⟩] at h
    obtain ⟨a₂, _, h⟩ := bind_eq_ok.mp h
    exact hpublish h
  · rw [if_neg hf] at h
    exact hpublish h

private theorem settled_arg (g : Growth) (fr : Frame) : (fr.settled g).arg = fr.arg := by
  unfold Frame.settled
  split_ifs <;> rfl

private theorem settled_depth (g : Growth) (fr : Frame) :
    (fr.settled g).kernel.depth = fr.kernel.depth := by
  unfold Frame.settled
  split_ifs <;> rfl

/-- Where an allocation yields NULL, a block that was allocated is freed again. -/
theorem settled_null (fr : Frame) (hg : g.hook = 0#64 ∨ g.hookType = 0#64) :
    ∃ blocks, fr.settled g = { fr with kernel :=
      { fr.kernel with
          allocated := fr.kernel.allocated ++ blocks, freed := fr.kernel.freed ++ blocks } } := by
  unfold Frame.settled
  by_cases hf : isFull fr.table = true
  · rw [if_pos hf]
    by_cases hm : g.hook = 0#64
    · exact ⟨[], by simp [hm]⟩
    · have hm2 : g.hookType = 0#64 := hg.resolve_left hm
      rw [if_neg hm, if_pos hm2]
      exact ⟨blockAt g.hook, rfl⟩
  · exact ⟨[], by simp [hf]⟩

end

/-- The tables hold the same entries. -/
structure SameEntries (a a' : HookTable) : Prop where
  hook : a'.hook = a.hook
  hookType : a'.hookType = a.hookType
  hookCount : a'.hookCount = a.hookCount
  hookSize : a'.hookSize = a.hookSize

/-- The spin lock of the handle and the mutex are as before. -/
structure Released (hookh : Address) (k k' : Kernel) : Prop where
  lock : (k'.handle hookh).table.lock = (k.handle hookh).table.lock
  depth : k'.depth = k.depth

/-- How `Add` returns. -/
inductive AddOutcome (initializer : Evaluations Code) (g : Growth)
    (hookh hook : Address) (k : Kernel) :
    Code → Kernel → Prop
  | refused (hr : k.Refuses initializer) : AddOutcome initializer g hookh hook k initializer.second
      { k with initialized := decide (initializer.second = ps4Ok) }
  | missing {code : Code} (hr : ¬k.Refuses initializer) (hm : hookh = 0#64 ∨ hook = 0#64)
      (hc : code ≠ ps4Ok) :
      AddOutcome initializer g hookh hook k code k.ready
  | exhausted {blocks : List Address} (hr : ¬k.Refuses initializer) (ha : hookh ≠ 0#64)
      (hh : hook ≠ 0#64)
      (hl : (k.handle hookh).table.lock = 0) (he : Exhausted g.allocation (k.handle hookh).table) :
      AddOutcome initializer g hookh hook k ps4ErrorKernelOutOfMemory
        { k.ready with
          handle := Function.update k.handle hookh
            { k.handle hookh with table := { (k.handle hookh).table with lock := 1 } }
          allocated := k.allocated ++ blocks
          freed := k.freed ++ blocks }
  | added {k' : Kernel} (hl : (k.handle hookh).table.lock = 0)
      (hl' : (k'.handle hookh).table.lock = 0)
      (hd : k'.depth = k.depth) : AddOutcome initializer g hookh hook k ps4Ok k'

section

variable {initializer : Evaluations Code} {g : Growth} {hookh hook : Address} {type : HookType}
  {k k' : Kernel} {code : Code}

private theorem add_refused (hr : k.Refuses initializer) :
    ps4KernelFunctionHookAdd initializer g hookh hook type k =
      .ok (initializer.second, { k with initialized := decide (initializer.second = ps4Ok) }) := by
  have hr' : (⟨k, hookh, 0#64⟩ : Frame).kernel.Refuses initializer := hr
  rw [ps4KernelFunctionHookAdd, handled_refused hr']
  rfl

private theorem add_eq_body (hr : ¬k.Refuses initializer) :
    ps4KernelFunctionHookAdd initializer g hookh hook type k =
      (handled id Frame.finalizing (addBody g hook type.value) ⟨k.ready, hookh, 0#64⟩).map fun r =>
      (r.1, r.2.kernel) := by
  have hr' : ¬(⟨k, hookh, 0#64⟩ : Frame).kernel.Refuses initializer := hr
  rw [ps4KernelFunctionHookAdd, handled_ready hr']
  change (handled id Frame.finalizing (addBody g hook type.value) ⟨k.ready, hookh, 0#64⟩ >>= _) = _
  cases handled id Frame.finalizing (addBody g hook type.value) ⟨k.ready, hookh, 0#64⟩ <;> rfl

theorem add_missing (g : Growth) (hookh : Address) (type : HookType) (hr : ¬k.Refuses initializer)
    (hm : hookh = 0#64 ∨ hook = 0#64) :
    ∃ code, code ≠ ps4Ok ∧
    ps4KernelFunctionHookAdd initializer g hookh hook type k = .ok (code, k.ready) := by
  rw [add_eq_body hr]
  by_cases ha : hookh = 0#64
  · have hleave : addBody g hook type.value ⟨k.ready, hookh, 0#64⟩ =
        .ok (.error (.leave ps4ErrorArgumentPrimaryMissing), ⟨k.ready, hookh, 0#64⟩) := by
      rw [addBody, exitIf_bind, if_pos (decide_eq_true ha)]
    exact ⟨ps4ErrorArgumentPrimaryMissing, by decide, by rw [handled_exit hleave]; rfl⟩
  · have hh : hook = 0#64 := hm.resolve_left ha
    have hleave : addBody g hook type.value ⟨k.ready, hookh, 0#64⟩ =
        .ok (.error (.leave ps4ErrorArgumentMissing), ⟨k.ready, hookh, 0#64⟩) := by
      rw [addBody, exitIf_bind, if_neg (by simpa using ha), exitIf_bind, if_pos (decide_eq_true hh)]
    exact ⟨ps4ErrorArgumentMissing, by decide, by rw [handled_exit hleave]; rfl⟩

theorem add_eq_table (hr : ¬k.Refuses initializer) (ha : hookh ≠ 0#64) (hh : hook ≠ 0#64) :
    ps4KernelFunctionHookAdd initializer g hookh hook type k =
      (FunctionHookTables.ps4KernelFunctionHookAdd g.allocation (k.handle hookh).table hook
        type.value).map fun r =>
        (r.1, (((⟨k.ready, hookh, 0#64⟩ : Frame).settled g).setTable r.2).kernel) := by
  have hbody : handled id Frame.finalizing (addBody g hook type.value) ⟨k.ready, hookh, 0#64⟩ =
      (FunctionHookTables.ps4KernelFunctionHookAdd g.allocation (k.handle hookh).table hook
        type.value).map fun r =>
        (r.1, ((⟨k.ready, hookh, 0#64⟩ : Frame).settled g).setTable r.2) := addBody_eq rfl ha hh
  rw [add_eq_body hr, hbody]
  cases FunctionHookTables.ps4KernelFunctionHookAdd g.allocation (k.handle hookh).table hook
    type.value <;> rfl

theorem settled_setTable (g : Growth) (k : Kernel) (hookh : Address) (a : HookTable) :
    ((((⟨k, hookh, 0#64⟩ : Frame).settled g).setTable a).kernel.handle hookh).table = a := by
  have harg : ((⟨k, hookh, 0#64⟩ : Frame).settled g).arg = hookh := settled_arg g _
  have hset := setTable_table ((⟨k, hookh, 0#64⟩ : Frame).settled g) a
  rw [Frame.table, Frame.setTable, harg] at hset
  rw [Frame.setTable, harg]
  exact hset

private theorem add_exhausted (type : HookType) (hr : ¬k.Refuses initializer) (ha : hookh ≠ 0#64)
    (hh : hook ≠ 0#64) (hl : (k.handle hookh).table.lock = 0)
    (he : Exhausted g.allocation (k.handle hookh).table) :
    ∃ k', ps4KernelFunctionHookAdd initializer g hookh hook type k =
      .ok (ps4ErrorKernelOutOfMemory, k') ∧
      (k'.handle hookh).table.lock = 1 := by
  rw [add_eq_table hr ha hh, tableAdd_exhausted hh hl he]
  exact ⟨_, rfl, congrArg HookTable.lock (settled_setTable g k.ready hookh _)⟩

theorem add_outcome (h : ps4KernelFunctionHookAdd initializer g hookh hook type k =
    .ok (code, k')) :
    AddOutcome initializer g hookh hook k code k' := by
  by_cases hr : k.Refuses initializer
  · rw [add_refused hr] at h
    cases h
    exact .refused hr
  by_cases hm : hookh = 0#64 ∨ hook = 0#64
  · obtain ⟨code', hc, he⟩ := add_missing g hookh type hr hm
    rw [he] at h
    cases h
    exact .missing hr hm hc
  obtain ⟨ha, hh⟩ := not_or.mp hm
  rw [add_eq_table hr ha hh] at h
  cases ht : FunctionHookTables.ps4KernelFunctionHookAdd g.allocation
    (k.handle hookh).table hook type.value with
  | error fault =>
    rw [ht] at h
    cases h
  | ok r =>
    rw [ht] at h
    obtain ⟨hcode, hkernel⟩ := Prod.mk.inj (Except.ok.inj h)
    subst hcode hkernel
    by_cases he : Exhausted g.allocation (k.handle hookh).table
    · have hl : (k.handle hookh).table.lock = 0 := tableAdd_lock hh ht
      rw [tableAdd_exhausted hh hl he] at ht
      cases ht
      have hnull : g.hook = 0#64 ∨ g.hookType = 0#64 := by simpa [Growth.allocation] using he.2
      obtain ⟨blocks, hblocks⟩ := settled_null (⟨k.ready, hookh, 0#64⟩ : Frame) hnull
      rw [hblocks]
      exact .exhausted hr ha hh hl he
    · obtain ⟨hc, hl'⟩ := tableAdd_added hh he ht
      rw [hc]
      exact .added (tableAdd_lock hh ht) (by rw [settled_setTable, hl']) (settled_depth g _)

theorem SameEntries.refl (a : HookTable) : SameEntries a a := ⟨rfl, rfl, rfl, rfl⟩

/-- What an error of `Add` leaves of a kernel. -/
theorem AddOutcome.unchanged (h : AddOutcome initializer g hookh hook k code k')
    (hc : code ≠ ps4Ok) :
    k'.memory = k.memory ∧ k'.live = k.live ∧ k'.pointer = k.pointer ∧ k'.depth = k.depth ∧
    k.Balanced k' ∧
      ∀ h, SameEntries (k.handle h).table (k'.handle h).table := by
  cases h with
  | refused _ => exact ⟨rfl, rfl, rfl, rfl, .of_eq rfl rfl, fun _ => .refl _⟩
  | missing _ _ _ => exact ⟨rfl, rfl, rfl, rfl, .of_eq rfl rfl, fun _ => .refl _⟩
  | added _ _ _ => exact absurd rfl hc
  | @exhausted blocks _ _ _ _ _ =>
    refine ⟨rfl, rfl, rfl, rfl, ⟨blocks, blocks, rfl, rfl, .refl _⟩, fun h => ?_⟩
    by_cases hh : h = hookh
    · subst hh
      simp only [Function.update_self]
      exact ⟨rfl, rfl, rfl, rfl⟩
    · simp only [Function.update_of_ne hh]
      exact .refl _

/-- `Add` releases what it takes unless it finds the table full and cannot allocate: then it
returns with the spin lock of the handle taken. -/
theorem add_releases_iff (initializer : Evaluations Code) (g : Growth) (hookh hook : Address)
    (type : HookType) (k : Kernel) :
    (∀ code k', ps4KernelFunctionHookAdd initializer g hookh hook type k = .ok (code, k') →
      Released hookh k k' ∧
        (code ≠ ps4Ok → SameEntries (k.handle hookh).table (k'.handle hookh).table ∧
          k'.pointer hookh = k.pointer hookh ∧ k.Balanced k')) ↔
    ¬(¬k.Refuses initializer ∧ hookh ≠ 0#64 ∧ hook ≠ 0#64 ∧ (k.handle hookh).table.lock = 0 ∧
      (k.handle hookh).table.hookSize - 1 ≤ (k.handle hookh).table.hookCount ∧
      (g.hook = 0#64 ∨ g.hookType = 0#64)) := by
  constructor
  · rintro hall ⟨hr, ha, hh, hl, hf, hg⟩
    have he : Exhausted g.allocation (k.handle hookh).table :=
      ⟨decide_eq_true hf, by simpa [Growth.allocation] using hg⟩
    obtain ⟨k', hrun, hlock⟩ := add_exhausted type hr ha hh hl he
    have hkept := (hall _ k' hrun).1.lock
    rw [hlock, hl] at hkept
    cases hkept
  · intro hn code k' hrun
    have hout := add_outcome hrun
    refine ⟨?_, fun hc => ?_⟩
    · cases hout with
      | refused _ => exact ⟨rfl, rfl⟩
      | missing _ _ _ => exact ⟨rfl, rfl⟩
      | added hl hl' hd => exact ⟨hl'.trans hl.symm, hd⟩
      | exhausted hr ha hh hl he =>
        have hg : g.hook = 0#64 ∨ g.hookType = 0#64 := by simpa [Growth.allocation] using he.2
        exact absurd ⟨hr, ha, hh, hl, of_decide_eq_true he.1, hg⟩ hn
    · obtain ⟨_, _, hpointer, _, hblocks, hentries⟩ := hout.unchanged hc
      exact ⟨hentries hookh, congrFun hpointer hookh, hblocks⟩

end

/-- A kernel with one handle, whose table is full. -/
def fullKernel : Kernel where
  memory := fun _ => 0
  handle := fun _ => ⟨0xffff000000001000#64, 0xffff000000010000#64, 0xffff000000020000#64, 13, 0,
    ⟨List.replicate 7 0xffff000000002000#64 ++ [0#64], List.replicate 8 1, 7, 8, 0⟩⟩
  live := [0xffff000000030000#64]
  pointer := fun _ f => match f with
    | .arguments => 0xffff000000040000#64
    | .returns => 0xffff000000050000#64
    | .hook => 0xffff000000060000#64
    | .hookType => 0xffff000000070000#64
    | .prologue => 0xffff000000010000#64
    | .bridge => 0xffff000000020000#64
  initialized := true
  depth := 0
  allocated := []
  freed := []

/-- Without memory the eighth hook is refused with the spin lock taken, so the next `Add` waits
for ever. -/
theorem add_keeps_spin_lock :
    ∃ k', ps4KernelFunctionHookAdd ⟨ps4Ok, ps4Ok⟩ ⟨0#64, 0#64⟩ 0xffff000000030000#64
      0xffff000000002000#64 .genericPre fullKernel = .ok (ps4ErrorKernelOutOfMemory, k') ∧
    ¬Released 0xffff000000030000#64 fullKernel k' ∧
    ps4KernelFunctionHookAdd ⟨ps4Ok, ps4Ok⟩
      ⟨0#64, 0#64⟩ 0xffff000000030000#64 0xffff000000002000#64 .genericPre k' =
      .error .spins := by
  refine ⟨_, rfl, fun h => ?_, rfl⟩
  have hlock : (1 : BitVec 64) = 0 := h.lock
  cases hlock

end Ps4Sdk.FunctionHookFailures
