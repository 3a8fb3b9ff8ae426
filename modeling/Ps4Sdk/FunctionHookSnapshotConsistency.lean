import Ps4Sdk.FunctionHookSnapshotViews

/-!
# Consistency of the clones

At each stage the table is a clean table of which an addition may have stored a
part, and the copy being made will end as one of the tables that the handler runs
as the content before or after that addition.
-/

namespace Ps4Sdk.FunctionHookSnapshots
open CheckedBlocks AtomicSpinLocks StepRuns FunctionHookTables FunctionHookHandler InterruptedCopies

def Fits (type : ℤ) : Prop := (BitVec.ofInt 64 type).toInt = type

theorem fits_value (type : HookType) : Fits type.value := by
  cases type <;> rfl

structure Viewed (a : HookTable) (p : Copy) (hooks : List Address) (types : List ℤ) : Prop where
  hook : outcome p.hook (arrayBytes a.hook) = arrayBytes hooks
  hookType : outcome p.hookType (arrayBytes (typeWords a.hookType)) = arrayBytes (typeWords types)
  hookLength : hooks.length = a.hookSize.toNat
  typeLength : types.length = a.hookSize.toNat
  fits : ∀ type ∈ types, Fits type

structure Sized (a : HookTable) : Prop where
  hook : a.hook.length = a.hookSize.toNat
  hookType : a.hookType.length = a.hookSize.toNat
  fits : ∀ type ∈ a.hookType, Fits type

section Copies

variable {a : HookTable} {p p' : Copy} {hooks : List Address} {types : List ℤ}

theorem Sized.viewed (h : Sized a) : Viewed a ⟨[], []⟩ a.hook a.hookType :=
  ⟨outcome_nil _, outcome_nil _, h.hook, h.hookType, h.fits⟩

/-- Copying a byte does not change what the copy will hold. -/
theorem Viewed.next (h : Viewed a p hooks types) (hn : p.next a = some p') :
    Viewed a p' hooks types := by
  unfold Copy.next at hn
  split_ifs at hn
  · obtain ⟨byte, hbyte, rfl⟩ := Option.map_eq_some_iff.mp hn
    exact { h with hook := (outcome_take hbyte).trans h.hook }
  · obtain ⟨byte, hbyte, rfl⟩ := Option.map_eq_some_iff.mp hn
    exact { h with hookType := (outcome_take hbyte).trans h.hookType }

private theorem typeWords_toInt (h : ∀ type ∈ types, Fits type) :
    (typeWords types).map BitVec.toInt = types := by
  rw [typeWords, List.map_map]
  exact (List.map_congr_left h).trans (List.map_id types)

/-- A complete copy is the clone that it was to become. -/
theorem Viewed.entries (h : Viewed a p hooks types) (hs : Sized a) (hc : p.Complete a)
    (address curthread : Address) :
    (p.clone a address curthread).entries = entriesFrom 0 (hooks.zip types) := by
  have hhook : p.hook = arrayBytes hooks := by
    rw [← h.hook, outcome_complete]
    have hle := hc.1
    rw [length_arrayBytes, hs.hook]
    omega
  have htype : p.hookType = arrayBytes (typeWords types) := by
    rw [← h.hookType, outcome_complete]
    have hle := hc.2
    simp only [length_arrayBytes, typeWords, List.length_map, hs.hookType]
    omega
  have hlength : (typeWords types).length = a.hookSize.toNat := by
    rw [typeWords, List.length_map, h.typeLength]
  simp only [Clone.entries, Copy.clone, hhook, htype]
  rw [← h.hookLength, wordsOf_arrayBytes, h.hookLength, ← hlength, wordsOf_arrayBytes,
    typeWords_toInt h.fits]

end Copies

/-! ### The invariant -/

/-- No addition is in progress. -/
structure Idle (s : State) (c : CleanTable) : Prop where
  table : s.table = c.table
  pairs : c.pairs = valuePairs (content s.calls)
  fits : ∀ type ∈ c.types, Fits type
  copies : ∀ p, s.cloner = some p → ∃ hooks types, Viewed s.table p hooks types ∧
    RunAs s.calls (entriesFrom 0 (hooks.zip types))

structure Publishing (s : State) (hook : Address) (type : HookType) (k : Store) (c : CleanTable)
    (l : List (Address × HookType)) : Prop where
  table : s.table = published c hook type.value k
  pairs : c.pairs = valuePairs l
  fits : ∀ type ∈ c.types, Fits type
  free : 0 < c.free
  nonNull : hook ≠ 0#64
  before : ∃ done, done <+: s.calls ∧ s.calls.length ≤ done.length + 1 ∧ content done = l
  after : content s.calls = l ++ [(hook, type)]
  slot : k ≠ .hook → c.types[c.hooks.length]? = some HookType.disabled.value ∨
    c.types[c.hooks.length]? = some type.value
  copies : ∀ p, s.cloner = some p → ∃ hooks types, Viewed s.table p hooks types ∧
    (hooks = c.table.hook ∨ k ≠ .hook ∧ hooks = newHooks c hook) ∧
    (types = c.table.hookType ∨ k ≠ .hook ∧ k ≠ .hookType ∧ types = newTypes c type.value)

/-- A lock that a failed addition has left taken ends everything. -/
def AtStage (s : State) : Stage → Prop
  | .idle => (∃ c, Idle s c) ∨ s.table.lock ≠ 0 ∧ s.cloner = none
  | .publishing hook type k => ∃ c l, Publishing s hook type k c l

structure Sound (s : State) : Prop where
  clones : ∀ x ∈ s.clones, x.calls <+: s.calls ∧ RunAs x.calls x.clone.entries
  nonNull : ∀ p ∈ content s.calls, p.1 ≠ 0#64
  stage : AtStage s s.stage

private theorem content_append (calls : List HookCall) (call : HookCall) :
    content (calls ++ [call]) = match call with
      | .add hook type _ => content calls ++ [(hook, type)]
      | .remove hook => (content calls).filter (fun p => p.1 ≠ hook) := by
  rw [content, List.foldl_append]
  cases call <;> rfl

theorem published_sized {c : CleanTable} (hook : Address) {type : ℤ} (k : Store)
    (hc : ∀ type ∈ c.types, Fits type) (ht : Fits type) : Sized (published c hook type k) := by
  obtain ⟨h₁, h₂⟩ := published_lengths c hook type k
  refine ⟨h₁, h₂, fun x hx => ?_⟩
  have hzero : Fits 0 := fits_value .disabled
  have hold : ∀ y ∈ c.table.hookType, Fits y := by
    intro y hy
    rcases List.mem_append.mp hy with hy | hy
    · exact hc y hy
    · rwa [List.mem_singleton.mp hy]
  have hnew : ∀ y ∈ newTypes c type, Fits y := by
    intro y hy
    rcases List.mem_append.mp hy with hy | hy
    · rcases List.mem_or_eq_of_mem_set hy with hy | rfl
      · exact hc y hy
      · exact ht
    · rwa [List.mem_singleton.mp hy]
  cases k with
  | hook | hookType => exact hold x hx
  | count | terminator => exact hnew x hx

/-- What a copy sees during an addition is run as the content before or after it. -/
theorem Publishing.runAs {s : State} {hook : Address} {type : HookType} {k : Store} {c : CleanTable}
    {l : List (Address × HookType)} (h : Publishing s hook type k c l) (hs : Sound s)
    {hooks : List Address}
    {types : List ℤ} (hooksSeen : hooks = c.table.hook ∨ k ≠ .hook ∧ hooks = newHooks c hook)
    (typesSeen : types = c.table.hookType ∨ k ≠ .hook ∧ k ≠ .hookType ∧
      types = newTypes c type.value) :
    RunAs s.calls (entriesFrom 0 (hooks.zip types)) := by
  obtain ⟨done, hdone, hlast, hl⟩ := h.before
  have hn : ∀ p ∈ l, p.1 ≠ 0#64 :=
    fun p hp => hs.nonNull p (by rw [h.after]; exact List.mem_append_left _ hp)
  rcases handledAs_seen h.pairs h.free h.nonNull hn (hooksSeen.imp_right fun x => ⟨x.2, h.slot x.1⟩)
    (typesSeen.imp_right fun x => x.2.2) with hr | hr
  · exact ⟨done, hdone, hlast, by rwa [hl]⟩
  · exact ⟨s.calls, List.prefix_refl _, Nat.le_succ _, by rwa [h.after]⟩

/-! ### The steps keep the invariant -/

section Steps

variable {s : State} {hook : Address} {type : HookType} {k : Store} {c : CleanTable}
  {l : List (Address × HookType)}

private theorem count_toNat (c : CleanTable) : c.table.hookCount.toNat = c.hooks.length := by
  simp [CleanTable.table]

private theorem Idle.sized (h : Idle s c) : Sized s.table := by
  rw [h.table]
  exact published_sized 0 .hook h.fits (fits_value .disabled)

private theorem Publishing.sized (h : Publishing s hook type k c l) : Sized s.table := by
  rw [h.table]
  exact published_sized hook k h.fits (fits_value type)

/-- A copy that has not reached the slot will see the hook, one that has passed it will not. -/
theorem Publishing.hookStored (h : Publishing s hook type .hook c l) (hg : Orderly s .store)
    (hk : s.stage = .publishing hook type .hook) :
    Publishing { s with
      table := published c hook type.value .hookType, stage := .publishing hook type .hookType }
      hook type .hookType c l := by
  have hal := c.aligned
  have hfree := h.free
  obtain ⟨hslot, hword⟩ := (hg hook type).1 hk
  rw [h.table] at hslot hword
  refine { h with table := rfl, slot := fun _ => ?_, copies := fun p hp => ?_ }
  · have hfront : c.table.hookType[c.hooks.length]? = c.types[c.hooks.length]? :=
      List.getElem?_append_left (by omega)
    simp only [published, count_toNat, hfront] at hslot
    exact hslot
  · obtain ⟨hooks, types, hview, hooksSeen, typesSeen⟩ := h.copies p hp
    obtain rfl : hooks = c.table.hook := by simpa using hooksSeen
    obtain rfl : types = c.table.hookType := by simpa using typesSeen
    have hsized := published_sized hook .hookType h.fits (fits_value type)
    have hhook := hview.hook
    have hword' := hword p hp
    rw [h.table] at hhook hview
    simp only [published, count_toNat] at hhook hword'
    rw [table_hook_eq] at hhook
    rcases outcome_word hook hhook hword' with hout | hout
    · exact ⟨newHooks c hook, _, { hview with hook := hout, hookLength := hsized.hook },
        .inr ⟨by simp, rfl⟩, .inl rfl⟩
    · exact ⟨_, _, { hview with hook := hout.trans (by rw [table_hook_eq]) }, .inl rfl, .inl rfl⟩

theorem Publishing.typeStored (h : Publishing s hook type .hookType c l) (hg : Orderly s .store)
    (hk : s.stage = .publishing hook type .hookType) :
    Publishing { s with
      table := published c hook type.value .count, stage := .publishing hook type .count }
      hook type .count c l := by
  have hword := (hg hook type).2 hk
  rw [h.table] at hword
  refine { h with table := rfl, slot := fun _ => h.slot (by simp), copies := fun p hp => ?_ }
  obtain ⟨hooks, types, hview, hooksSeen, typesSeen⟩ := h.copies p hp
  obtain rfl : types = c.table.hookType := by simpa using typesSeen
  obtain ⟨front, old, back, hlength, hold, hnew⟩ := types_split c type.value h.free
  have hsized := published_sized hook .count h.fits (fits_value type)
  have htype := hview.hookType
  have hword' := hword p hp
  rw [h.table] at htype hview
  simp only [published, count_toNat] at htype hword'
  rw [hold, typeWords, List.map_append, List.map_cons] at htype
  have hseen := outcome_word (BitVec.ofInt 64 type.value) htype (by rwa [List.length_map, hlength])
  rw [← List.map_cons, ← List.map_append, ← hnew, ← List.map_cons,
    ← List.map_append, ← hold] at hseen
  have hooksSeen' : hooks = c.table.hook ∨ Store.count ≠ .hook ∧ hooks = newHooks c hook := by
    simpa using hooksSeen
  rcases hseen with hout | hout
  · exact ⟨hooks, newTypes c type.value,
      { hview with hookType := hout, typeLength := hsized.hookType, fits := hsized.fits },
      hooksSeen',
      .inr ⟨by simp, by simp, rfl⟩⟩
  · exact ⟨hooks, _, { hview with hookType := hout }, hooksSeen', .inl rfl⟩

theorem Publishing.countStored (h : Publishing s hook type .count c l) :
    Publishing { s with
        table := published c hook type.value .terminator
        stage := .publishing hook type .terminator } hook type .terminator c l := by
  refine { h with table := rfl, slot := fun _ => h.slot (by simp), copies := fun p hp => ?_ }
  obtain ⟨hooks, types, hview, hooksSeen, typesSeen⟩ := h.copies p hp
  rw [h.table] at hview
  refine ⟨hooks, types, { hview with }, ?_, ?_⟩
  · simpa using hooksSeen
  · simpa using typesSeen

theorem Publishing.terminated (h : Publishing s hook type .terminator c l) (hs : Sound s) :
    Idle { s with table := published c hook type.value .terminator, stage := .idle }
      (c.append hook type.value h.nonNull h.free) := by
  refine ⟨(append_table c hook type.value h.nonNull h.free).symm, ?_, ?_, fun p hp => ?_⟩
  · rw [c.append_pairs, h.pairs, h.after, valuePairs, valuePairs, List.map_append]
    rfl
  · intro x hx
    rcases List.mem_or_eq_of_mem_set hx with hx | rfl
    · exact h.fits x hx
    · exact fits_value type
  · obtain ⟨hooks, types, hview, hooksSeen, typesSeen⟩ := h.copies p hp
    rw [h.table] at hview
    exact ⟨hooks, types, hview, h.runAs hs hooksSeen typesSeen⟩

/-- A store leaves the content, the clones and what is known about the calls. -/
theorem Publishing.store (h : Publishing s hook type k c l) (hg : Orderly s .store)
    (hk : s.stage = .publishing hook type k) {a : HookTable}
    (ha : k.run s.table hook type.value = .ok a)
    (hs : Sound s) :
    AtStage { s with table := a, stage := .after hook type k } (.after hook type k) := by
  rw [h.table] at ha
  cases k with
  | hook =>
    obtain rfl := Except.ok.inj ((store_hook c hook _).symm.trans ha)
    exact ⟨c, l, h.hookStored hg hk⟩
  | hookType =>
    obtain rfl := Except.ok.inj ((store_hookType c hook _ h.free).symm.trans ha)
    exact ⟨c, l, h.typeStored hg hk⟩
  | count =>
    obtain rfl := Except.ok.inj ha
    exact ⟨c, l, h.countStored⟩
  | terminator =>
    obtain rfl := Except.ok.inj ((store_terminator c hook _ h.free).symm.trans ha)
    exact .inl ⟨_, h.terminated hs⟩

/-- A copy in progress will be run as the content before or after the call in progress. -/
theorem Sound.seen (h : Sound s) {p : Copy} (hp : s.cloner = some p) :
    Sized s.table ∧ ∃ hooks types, Viewed s.table p hooks types ∧
      RunAs s.calls (entriesFrom 0 (hooks.zip types)) := by
  have hstage := h.stage
  cases hk : s.stage with
  | idle =>
    rw [hk] at hstage
    rcases hstage with ⟨c, hc⟩ | ⟨-, hnone⟩
    · exact ⟨hc.sized, hc.copies p hp⟩
    · simp [hnone] at hp
  | publishing hook type k =>
    rw [hk] at hstage
    obtain ⟨c, l, hpub⟩ := hstage
    obtain ⟨hooks, types, hview, hooksSeen, typesSeen⟩ := hpub.copies p hp
    exact ⟨hpub.sized, hooks, types, hview, hpub.runAs h hooksSeen typesSeen⟩

/-- A thread that enters will copy the table as it is. -/
theorem Sound.enter (h : Sound s) (hl : s.table.lock = 0) :
    Sound { s with cloner := some ⟨[], []⟩ } := by
  have hstage := h.stage
  refine { h with stage := ?_ }
  cases hk : s.stage with
  | idle =>
    rw [hk] at hstage
    rcases hstage with ⟨c, hc⟩ | ⟨hlock, -⟩
    · refine .inl ⟨c, { hc with copies := fun p hp => ?_ }⟩
      obtain rfl := Option.some.inj hp
      refine ⟨_, _, hc.sized.viewed, s.calls, List.prefix_refl _, Nat.le_succ _, ?_⟩
      have htyped := typed_table hc.pairs
      rw [hc.table]
      exact handledAs_hooks h.nonNull htyped.length htyped.pairs
    · exact absurd hl hlock
  | publishing hook type k =>
    rw [hk] at hstage
    obtain ⟨c, l, hp⟩ := hstage
    refine ⟨c, l, { hp with copies := fun p hcl => ?_ }⟩
    obtain rfl := Option.some.inj hcl
    refine ⟨_, _, hp.sized.viewed, ?_, ?_⟩
    · rw [hp.table]
      cases k <;> simp [published]
    · rw [hp.table]
      cases k <;> simp [published]

theorem Sound.copy (h : Sound s) {p p' : Copy} (hp : s.cloner = some p)
    (hn : p.next s.table = some p') :
    Sound { s with cloner := some p' } := by
  have hstage := h.stage
  refine { h with stage := ?_ }
  cases hk : s.stage with
  | idle =>
    rw [hk] at hstage
    rcases hstage with ⟨c, hc⟩ | ⟨-, hnone⟩
    · refine .inl ⟨c, { hc with copies := fun q hq => ?_ }⟩
      obtain rfl := Option.some.inj hq
      obtain ⟨hooks, types, hview, hrun⟩ := hc.copies p hp
      exact ⟨hooks, types, hview.next hn, hrun⟩
    · simp [hnone] at hp
  | publishing hook type k =>
    rw [hk] at hstage
    obtain ⟨c, l, hpub⟩ := hstage
    refine ⟨c, l, { hpub with copies := fun q hq => ?_ }⟩
    obtain rfl := Option.some.inj hq
    obtain ⟨hooks, types, hview, hseen⟩ := hpub.copies p hp
    exact ⟨hooks, types, hview.next hn, hseen⟩

theorem AtStage.released {stage : Stage} (h : AtStage s stage) (clones : List Taken) :
    AtStage { s with cloner := none, clones := clones } stage := by
  cases stage with
  | idle =>
    rcases h with ⟨c, hc⟩ | ⟨hlock, -⟩
    · exact .inl ⟨c, { hc with copies := by simp }⟩
    · exact .inr ⟨hlock, rfl⟩
  | publishing hook type k =>
    obtain ⟨c, l, hpub⟩ := h
    exact ⟨c, l, { hpub with copies := by simp }⟩

theorem Sound.leave (h : Sound s) {p : Copy} (hp : s.cloner = some p) (hc : p.Complete s.table)
    (address curthread : Address) :
    Sound { s with
      cloner := none, clones := s.clones ++ [⟨p.clone s.table address curthread, s.calls⟩] } := by
  obtain ⟨hsized, hooks, types, hview, hrun⟩ := h.seen hp
  refine { h with clones := fun x hm => ?_, stage := h.stage.released _ }
  rcases List.mem_append.mp hm with hm | hm
  · exact h.clones x hm
  · rw [List.mem_singleton.mp hm, hview.entries hsized hc]
    exact ⟨List.prefix_refl _, hrun⟩

theorem fits_reserved (h : ∀ type ∈ c.types, Fits type) : ∀ type ∈ c.reserved.types, Fits type := by
  intro x hx
  unfold CleanTable.reserved at hx
  split_ifs at hx
  · exact h x hx
  · rcases List.mem_append.mp hx with hx | hx
    · exact h x (List.mem_of_mem_take hx)
    · rw [List.eq_of_mem_replicate hx]
      exact fits_value .disabled

/-- An addition begins when no other call and no copy is in progress. -/
theorem Sound.add (h : Sound s) (type : HookType) {m : Allocation} {a : HookTable} {code : Code}
    (hh : hook ≠ 0#64) (hidle : s.stage = .idle) (hfree : s.cloner = none)
    (hr : reserve m s.table = .ok (code, a)) :
    (code = ps4Ok → Sound { s with
      table := a, stage := .publishing hook type .hook, calls := s.calls ++ [.add hook type m] }) ∧
    (code ≠ ps4Ok → Sound { s with table := a }) := by
  have hstage := h.stage
  rw [hidle] at hstage
  rcases hstage with ⟨c, hc⟩ | ⟨hlock, -⟩
  · rw [hc.table, c.reserve_table m] at hr
    split_ifs at hr with hfull <;> cases hr
    · refine ⟨fun hcode => absurd hcode (by decide), fun _ => { h with stage := ?_ }⟩
      rw [hidle]
      exact .inr ⟨by simp, hfree⟩
    · refine ⟨fun _ => ?_, fun hcode => absurd rfl hcode⟩
      have hcontent := content_append s.calls (.add hook type m)
      refine ⟨fun x hx => (h.clones x hx).imp_left fun hp => hp.trans (List.prefix_append ..), ?_,
        c.reserved, content s.calls, ?_⟩
      · rw [hcontent]
        exact nonNull_append h.nonNull hh type
      · exact
          { table := rfl
            pairs := c.reserved_pairs.trans hc.pairs
            fits := fits_reserved hc.fits
            free := c.reserved_free
            nonNull := hh
            before := ⟨s.calls, List.prefix_append .., by simp, rfl⟩
            after := hcontent
            slot := fun hne => absurd rfl hne
            copies := by simp [hfree] }
  · have hspin : ps4AtomicSpinLock64 s.table.lock = .error .spins := if_pos hlock
    rw [reserve, hspin] at hr
    cases hr

theorem remove_hookType {a a' : HookTable} {code : Code}
    (h : ps4KernelFunctionHookRemove a hook = .ok (code, a')) : a'.hookType = a.hookType := by
  unfold ps4KernelFunctionHookRemove at h
  split_ifs at h
  · cases h
    rfl
  · cases hl : ps4AtomicSpinLock64 a.lock with
    | error e =>
      rw [hl] at h
      cases h
    | ok lock =>
      rw [hl] at h
      cases hm : removeLoop hook a.hook 0 0 with
      | error e =>
        simp only [hm] at h
        cases h
      | ok r =>
        simp only [hm] at h
        cases h
        rfl

theorem pairCall_remove (hh : hook ≠ 0#64) (l : List (Address × HookType)) :
    (pairCall (valuePairs l) (.remove hook)).2 = valuePairs (l.filter (fun p => p.1 ≠ hook)) := by
  have hfilter : (valuePairs l).filter (fun p => p.1 ≠ hook) =
    valuePairs (l.filter (fun p => p.1 ≠ hook)) :=
    List.filter_map ..
  rw [pairCall, if_neg hh, ← hfilter]
  split_ifs with hm
  · rfl
  · exact (filter_ne_of_not_mem hook _ hm).symm

/-- A removal that leaves the types in their places removes the pairs of the hook. -/
theorem Sound.remove (h : Sound s) {a : HookTable} {code : Code} (hh : hook ≠ 0#64)
    (hidle : s.stage = .idle) (hfree : s.cloner = none) (hg : Aligned s.table (.remove hook))
    (hr : ps4KernelFunctionHookRemove s.table hook = .ok (code, a)) :
    Sound { s with table := a, calls := s.calls ++ [.remove hook] } := by
  have hstage := h.stage
  have hcontent := content_append s.calls (.remove hook)
  rw [hidle] at hstage
  have hidle' : AtStage { s with table := a, calls := s.calls ++ [.remove hook] } .idle := by
    rcases hstage with ⟨c, hc⟩ | ⟨hlock, -⟩
    · have htypes := remove_hookType hr
      rw [hc.table] at hr hg htypes
      obtain ⟨c', hrun, hpairs, -⟩ := c.call_aligned (.remove hook) trivial hg
      have hresult := hr.symm.trans hrun
      obtain rfl : a = c'.table := congrArg Prod.snd (Except.ok.inj hresult)
      have hsame : c'.types = c.types := List.append_cancel_right htypes
      refine .inl ⟨c', rfl, ?_, by rw [hsame]; exact hc.fits, by simp [hfree]⟩
      rw [hpairs, hc.pairs, pairCall_remove hh, hcontent]
    · have hspin : ps4AtomicSpinLock64 s.table.lock = .error .spins := if_pos hlock
      rw [ps4KernelFunctionHookRemove, if_neg hh, hspin] at hr
      cases hr
  refine ⟨fun x hx => (h.clones x hx).imp_left fun hp => hp.trans (List.prefix_append ..), ?_,
    by simpa only [hidle] using hidle'⟩
  rw [hcontent]
  exact fun p hp => h.nonNull p (List.mem_of_mem_filter hp)

theorem Sound.step (h : Sound s) {x : Action} {t : State} (hg : Orderly s x)
    (hs : Step s x t) : Sound t := by
  cases hs with
  | add hh idle free hr => exact (h.add _ hh idle free hr).1 rfl
  | addFails hh idle free hr hc => exact (h.add .disabled hh idle free hr).2 hc
  | store stage hr =>
    have hstage := h.stage
    rw [stage] at hstage
    obtain ⟨c, l, hp⟩ := hstage
    exact { h with stage := hp.store hg stage hr h }
  | remove hh idle free hr => exact h.remove hh idle free hg hr
  | enter free unlocked => exact h.enter unlocked
  | copy cloner hn => exact h.copy cloner hn
  | leave cloner complete => exact h.leave cloner complete _ _

end Steps

end Ps4Sdk.FunctionHookSnapshots
