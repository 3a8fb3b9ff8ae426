import Mathlib.Data.List.Infix
import Ps4Sdk.FunctionHookSnapshotConsistency

/-!
# Runs of additions, removals and copies

Every clone made in an orderly run is run as the content before or after the call in
progress. A copy that nothing interrupts is of the table as it is, which during an
addition to a slot with another type pairs the new hook with that type.
-/

namespace Ps4Sdk.FunctionHookSnapshots
open CheckedBlocks AtomicSpinLocks StepRuns FunctionHookTables FunctionHookHandler InterruptedCopies

def Copy.left (a : HookTable) (p : Copy) : ℕ :=
  ((a.hookSize * 8).toNat - p.hook.length) + ((a.hookSize * 8).toNat - p.hookType.length)

theorem Copy.complete_or_next {a : HookTable} (hs : Sized a) (p : Copy) :
    p.Complete a ∨ ∃ p', p.next a = some p' ∧ p'.left a + 1 = p.left a := by
  have hsize : (a.hookSize * 8).toNat = 8 * a.hookSize.toNat := by omega
  by_cases hhook : p.hook.length < (a.hookSize * 8).toNat
  · right
    have hlt : p.hook.length < (arrayBytes a.hook).length := by
      rwa [length_arrayBytes, hs.hook, ← hsize]
    refine ⟨_, by rw [Copy.next, if_pos hhook, List.getElem?_eq_getElem hlt, Option.map_some], ?_⟩
    simp only [Copy.left, List.length_append, List.length_singleton]
    omega
  by_cases htype : p.hookType.length < (a.hookSize * 8).toNat
  · right
    have hlt : p.hookType.length < (arrayBytes (typeWords a.hookType)).length := by
      rwa [length_arrayBytes, typeWords, List.length_map, hs.hookType, ← hsize]
    refine ⟨_, by rw [Copy.next, if_neg hhook, if_pos htype, List.getElem?_eq_getElem hlt,
      Option.map_some], ?_⟩
    simp only [Copy.left, List.length_append, List.length_singleton]
    omega
  · left
    exact ⟨Nat.not_lt.mp hhook, Nat.not_lt.mp htype⟩

/-- A copy that nothing interrupts ends, and holds what it was to hold. -/
theorem run_copies {s : State} (hs : Sized s.table) {p : Copy} (hp : s.cloner = some p)
    {hooks : List Address} {types : List ℤ} (hv : Viewed s.table p hooks types) :
    ∃ as p', Run (Guarded Orderly Step) s as { s with cloner := some p' } ∧ p'.Complete s.table ∧
      Viewed s.table p' hooks types := by
  induction hn : p.left s.table using Nat.strong_induction_on generalizing s p with
  | _ n ih =>
    rcases Copy.complete_or_next hs p with hc | ⟨p', hnext, hleft⟩
    · exact ⟨[], p, by rw [← hp]; exact .nil s, hc, hv⟩
    · obtain ⟨as, q, hr, hc, hq⟩ :=
        ih (p'.left s.table) (by omega) (s := { s with cloner := some p' }) hs rfl
        (hv.next hnext) rfl
      exact ⟨.copy :: as, q, .cons ⟨trivial, .copy hp hnext⟩ hr, hc, hq⟩

/-- So the handler reads the table as it is from a clone that nothing interrupts. -/
theorem run_clone {s : State} (hs : Sized s.table) (free : s.cloner = none)
    (unlocked : s.table.lock = 0) :
    ∃ as c, Run (Guarded Orderly Step) s as { s with clones := s.clones ++ [⟨c, s.calls⟩] } ∧
      c.entries = entriesFrom 0 (s.table.hook.zip s.table.hookType) := by
  obtain ⟨as, p, hr, hc, hv⟩ :=
    run_copies (s := { s with cloner := some ⟨[], []⟩ }) hs rfl hs.viewed
  have henter : Guarded Orderly Step s .enter { s with cloner := some ⟨[], []⟩ } :=
    ⟨trivial, .enter free unlocked⟩
  have hleave : Guarded Orderly Step { s with cloner := some p } (.leave 0 0)
      { s with cloner := none, clones := s.clones ++ [⟨p.clone s.table 0 0, s.calls⟩] } :=
    ⟨trivial, .leave rfl hc⟩
  refine ⟨.enter :: as ++ [.leave 0 0], p.clone s.table 0 0, ?_, hv.entries hs hc 0 0⟩
  rw [free]
  exact (Run.cons henter hr).trans (.single hleave)

theorem run_add {s : State} {c : CleanTable} (ht : s.table = c.table) (idle : s.stage = .idle)
    (free : s.cloner = none) {hook : Address} (hh : hook ≠ 0#64) (type : HookType) :
    ∃ as, Run Step s as { s with
      table := (c.reserved.append hook type.value hh c.reserved_free).table
      calls := s.calls ++ [.add hook type .succeeds] } := by
  have hreserve : reserve .succeeds s.table = .ok (ps4Ok, c.reserved.table) := by
    rw [ht, c.reserve_table, if_neg (fun h => h.2 rfl)]
  rw [append_table]
  have hadd : Step s (.add hook type .succeeds) { s with
      table := c.reserved.table
      stage := .publishing hook type .hook
      calls := s.calls ++ [.add hook type .succeeds] } := .add hh idle free hreserve
  have hrun := Run.cons hadd <|
    .cons (.store rfl (store_hook c.reserved hook type.value)) <|
    .cons (.store rfl (store_hookType c.reserved hook type.value c.reserved_free)) <|
    .cons (.store rfl rfl) <|
    .single (.store rfl (store_terminator c.reserved hook type.value c.reserved_free))
  simp only [Stage.after, ← idle] at hrun
  exact ⟨_, hrun⟩

private theorem created_fits : ∀ type ∈ CleanTable.created.types, Fits type := by
  intro type ht
  rw [List.eq_of_mem_replicate ht]
  exact fits_value .disabled

/-- In every orderly run the handler will run each clone as the content after all calls
that had reached the table when the clone was made, or after all but the last. -/
theorem clones_consistent (s : State) (as : List Action)
    (h : Run (Guarded Orderly Step) initial as s) :
    ∀ x ∈ s.clones, x.calls <+: s.calls ∧ RunAs x.calls x.clone.entries := by
  have hidle : Idle initial CleanTable.created := ⟨rfl, rfl, created_fits, by simp [initial]⟩
  have hinitial : Sound initial := by
    refine ⟨?_, ?_, .inl ⟨_, hidle⟩⟩
    · simp [initial]
    · simp [initial, content]
  exact (h.invariant (fun s a t hs hstep => hs.step hstep.1 hstep.2) hinitial).clones

/-- A clone made between the first two stores of the first addition. -/
theorem clones_consistent_during_add :
    ∃ as s x, Run (Guarded Orderly Step) initial as s ∧ x ∈ s.clones ∧
      x.calls = [.add 1 .pre .succeeds] ∧ RunAs x.calls x.clone.entries := by
  have hadd : Guarded Orderly Step initial (.add 1 .pre .succeeds)
      ⟨created, .publishing 1 .pre .hook, none, [], [.add 1 .pre .succeeds]⟩ :=
    ⟨trivial, .add (by decide) rfl rfl rfl⟩
  have hstore : Guarded Orderly Step ⟨created, .publishing 1 .pre .hook, none, [],
    [.add 1 .pre .succeeds]⟩ .store
      ⟨published .created 1 HookType.pre.value .hookType, .publishing 1 .pre .hookType, none, [],
        [.add 1 .pre .succeeds]⟩ := by
    refine ⟨fun hook type => ⟨fun _ => ⟨.inl rfl, by simp⟩, fun h => ?_⟩,
      .store (k := .hook) rfl rfl⟩
    cases h
  have hsized : Sized (published .created 1 HookType.pre.value .hookType) :=
    published_sized 1 .hookType created_fits (fits_value .pre)
  obtain ⟨as, c, hclone, -⟩ := run_clone
    (s := ⟨published .created 1 HookType.pre.value .hookType, .publishing 1 .pre .hookType, none,
      [], [.add 1 .pre .succeeds]⟩) hsized rfl rfl
  have hrun := Run.cons hadd (.cons hstore hclone)
  exact ⟨_, _, ⟨c, _⟩, hrun, by simp, rfl, (clones_consistent _ _ hrun _ (by simp)).2⟩

def staleTable : CleanTable where
  hooks := []
  types := HookType.genericPost.value :: List.replicate 6 0
  free := 7
  nonNull := CleanTable.created.nonNull
  aligned := rfl

/-- A second hook has been stored in the slot of the first, its type has not. -/
def stale : State where
  table := published staleTable 2 HookType.pre.value .hookType
  stage := .publishing 2 .pre .hookType
  cloner := none
  clones := []
  calls := [.add 1 .genericPost .succeeds, .remove 1, .add 2 .pre .succeeds]

theorem run_stale : ∃ as, Run Step initial as stale := by
  obtain ⟨as, h⟩ := run_add (s := initial) (c := .created) rfl rfl rfl
    (by decide : (1 : Address) ≠ 0#64) .genericPost
  have hremove := CleanTable.remove_once
    (CleanTable.created.add 1 HookType.genericPost.value (by decide)) [] [] 1 rfl
    (by simp) (by simp)
  have hadd : reserve .succeeds staleTable.table = .ok (ps4Ok, staleTable.table) := rfl
  have hstore := store_hook staleTable 2 HookType.pre.value
  exact ⟨_, h.trans <| .cons (.remove (by decide) rfl rfl hremove) <|
    .cons (.add (by decide) rfl rfl hadd) <| .single (.store (k := .hook) rfl hstore)⟩

/-- A hook added to the slot of a removed one is seen with the type of that one, and is
run in a phase that its own type excludes. -/
theorem clone_pairs_stale_type :
    ∃ as s x, Run Step initial as s ∧ x ∈ s.clones ∧ ∀ done, done <+: s.calls →
      ¬HandledAs x.clone.entries (content done) := by
  have hsized : Sized stale.table := by
    refine published_sized 2 .hookType (fun type ht => ?_) (fits_value .pre)
    rcases List.mem_cons.mp ht with rfl | ht
    · exact fits_value .genericPost
    · rw [List.eq_of_mem_replicate ht]
      exact fits_value .disabled
  obtain ⟨as, h⟩ := run_stale
  obtain ⟨bs, c, hclone, hentries⟩ := run_clone hsized rfl rfl
  refine ⟨_, _, ⟨c, stale.calls⟩, h.trans hclone.unguard, by simp, fun done hdone h => ?_⟩
  have hseen : ∀ done ∈ stale.calls.inits,
      runnable .post (entriesFrom 0 (stale.table.hook.zip stale.table.hookType)) ≠
        runnable .post (readFrom 0 (content done) []) := by
    decide
  rw [hentries] at h
  exact hseen done ((List.mem_inits ..).mpr hdone) (h.read .post)

end Ps4Sdk.FunctionHookSnapshots
