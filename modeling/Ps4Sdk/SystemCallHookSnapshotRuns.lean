import Ps4Sdk.SystemCallHookSnapshotSafety

/-!
# Runs of additions and clones

Every step that meets the conditions keeps the invariant, so in an orderly run no clone
reads a freed or a short array, and each holds the pairs that count.
-/

namespace Ps4Sdk.SystemCallHookSnapshots
open HeapBlocks StepRuns InterruptedCopies ByteMemory

variable {s : State}

private theorem not_midGrowth_storing {pair : Pair} {k : Store} :
    ¬(Stage.storing pair k).MidGrowth := by
  rintro ⟨_, _, _, _, hstage, -⟩
  cases hstage

private theorem not_midGrowth_idle : ¬Stage.idle.MidGrowth := by
  rintro ⟨_, _, _, _, hstage, -⟩
  cases hstage

theorem Invariant.storeWord {stage' : Stage} {heap : WordHeap} (h : Invariant s)
    (hstage : AtStage { s with heap := heap } stage') (hn : ¬stage'.MidGrowth)
    (hstored : ∀ hooks types, Stored s hooks types → ∃ hooks' types',
      Stored { s with heap := heap } hooks' types' ∧
      hooks'.take s.added.length = hooks.take s.added.length ∧
        types'.take s.added.length = types.take s.added.length) :
    Invariant { s with heap := heap, stage := stage' } where
  counted := h.counted
  bounded := h.bounded
  fits := h.fits
  positive := h.positive
  stage := hstage
  apart := fun hm => absurd hm hn
  progress := by
    intro p hp
    obtain ⟨hooks, types, hs, hprogress⟩ := h.progress p hp
    obtain ⟨hooks', types', hs', hhooks, htypes⟩ := hstored hooks types hs
    exact ⟨hooks', types', hs', hprogress.frame rfl rfl rfl rfl hhooks htypes⟩
  correct := h.correct

theorem Invariant.store {pair : Pair} {k : Store} {heap : WordHeap} {a : Table} (h : Invariant s)
    (stage : s.stage = .storing pair k) (hrun : k.run s.heap s.table pair = .ok (heap, a))
    (orderly : Orderly s .store) :
    Invariant { s with
      heap := heap, table := a, stage := k.after pair, added := k.counted s.added pair } := by
  have hs := h.stage
  have hcounted := h.counted
  rw [stage] at hs
  cases k with
  | hook =>
    obtain ⟨hlt, hooks, types, hstored⟩ := hs
    obtain ⟨heap', hw, hrun⟩ := FallibleCalls.bind_eq_ok.mp hrun
    cases hrun
    obtain ⟨rfl, hi⟩ := storeWord_eq hstored.hooksLive hw
    rw [hcounted] at hi ⊢
    have hnew := hstored.store_hook pair.1
    refine h.storeWord ⟨hlt, _, types, hnew, ?_⟩ not_midGrowth_storing ?_
    · exact List.getElem?_set_self hi
    · intro hooks' types' hs'
      obtain ⟨rfl, rfl⟩ := hstored.hooks_eq hs'
      exact ⟨_, _, hnew, take_set_self _ _ _, rfl⟩
  | hookType =>
    obtain ⟨hlt, hooks, types, hstored, hword⟩ := hs
    obtain ⟨heap', hw, hrun⟩ := FallibleCalls.bind_eq_ok.mp hrun
    cases hrun
    obtain ⟨rfl, hi⟩ := storeWord_eq hstored.typesLive hw
    rw [hcounted] at hi ⊢
    have hnew := hstored.store_hookType pair.2
    refine h.storeWord ⟨hlt, hooks, _, hnew, hword, ?_⟩ not_midGrowth_storing ?_
    · exact List.getElem?_set_self hi
    · intro hooks' types' hs'
      obtain ⟨rfl, rfl⟩ := hstored.hooks_eq hs'
      exact ⟨_, _, hnew, rfl, take_set_self _ _ _⟩
  | count =>
    obtain ⟨hlt, hooks, types, hstored, hhook, htype⟩ := hs
    cases hrun
    have hnew := hstored.count hhook htype
    have hlength : (s.added ++ [pair]).length = s.added.length + 1 := by simp
    refine ⟨?_, ?_, h.fits, h.positive, ⟨hooks, types, hnew⟩,
      fun hm => absurd hm not_midGrowth_idle, ?_,
      h.correct⟩
    · simp only [Store.counted, hlength, hcounted]
    · simp only [Store.counted, hlength]
      omega
    · intro p hp
      obtain ⟨hooks', types', hs', hentered, hprogress⟩ := h.progress p hp
      obtain ⟨rfl, rfl⟩ := hstored.hooks_eq hs'
      refine ⟨hooks', types', hnew, ?_, ?_⟩
      · simp only [Store.counted, hlength]
        omega
      · simp only [Store.counted, hlength]
        rcases hprogress with ⟨hlen, -, hstart, hstart'⟩ | ⟨n, hn, hleast, hmost, hh, ht⟩
        · have hnone : p.count = [] := by
            have := orderly pair p stage hp
            exact List.length_eq_zero_iff.mp (by omega)
          exact .inl ⟨hlen, by rw [hnone]; rfl, hstart, hstart'⟩
        · exact .inr ⟨n, hn, hleast, by omega, hh, ht⟩

theorem Invariant.enter (h : Invariant s) (orderly : Orderly s .enter) :
    Invariant { s with cloner := some ⟨[], .start, .start, s.added.length⟩ } := by
  have hn : ¬s.stage.MidGrowth := by
    rintro ⟨pair, m, m2, g, hstage, hg⟩
    exact hg (orderly pair m m2 g hstage)
  obtain ⟨hooks, types, hs⟩ := h.stage.stored hn
  refine ⟨h.counted, h.bounded, h.fits, h.positive, h.stage, fun hm => absurd hm hn, ?_, h.correct⟩
  intro p hp
  cases hp
  exact ⟨hooks, types, hs, le_rfl, .inl ⟨by simp, rfl, rfl, rfl⟩⟩

/-- A clone in progress goes on, and keeps what it is about. -/
theorem InProgress.next {hooks types : List (BitVec 64)} {p : Cloner} (hs : Stored s hooks types)
    (hcounted : s.table.hookCount = s.added.length) (h : InProgress s hooks types p) :
    ∃ p', p.next s.heap s.table = .ok p' ∧ ∀ q ∈ p', InProgress s hooks types q := by
  obtain ⟨hentered, hcount⟩ := h
  rcases hcount with ⟨hlen, hprefix, hstart, hstart'⟩ | ⟨n, hn, hleast, hmost, hh, ht⟩
  · have hin : p.count.length < (wordBytes 8 s.added.length).length := by
      rw [length_wordBytes]
      exact hlen
    have hbyte := List.getElem?_eq_getElem hin
    refine ⟨some { p with count := p.count ++ [(wordBytes 8 s.added.length)[p.count.length]] }, ?_,
      ?_⟩
    · rw [Cloner.next, hcounted, hbyte]
    · rintro _ ⟨⟩
      refine ⟨hentered, ?_⟩
      have hnext : p.count ++ [(wordBytes 8 s.added.length)[p.count.length]] =
          (wordBytes 8 s.added.length).take (p.count.length + 1) := by
        rw [List.take_succ_eq_append_getElem hin, ← hprefix]
      by_cases hlast : p.count.length + 1 < 8
      · left
        refine ⟨by simpa using hlast, ?_, hstart, hstart'⟩
        simp only [hnext, List.length_take, length_wordBytes]
        congr 1
        omega
      · right
        refine ⟨s.added.length, ?_, hentered, le_rfl, ?_, ?_⟩
        · simp only [hnext]
          exact List.take_of_length_le (by rw [length_wordBytes]; omega)
        · simp only [hstart]
          trivial
        · simp only [hstart']
          trivial
  · have hdone : (wordBytes 8 s.table.hookCount)[p.count.length]? = none := by
      rw [List.getElem?_eq_none_iff, hn, length_wordBytes, length_wordBytes]
    obtain ⟨stage, hstage, hfollows⟩ := hh.next hs.hooksLive hs.hooksSize
    cases stage with
    | some stage =>
      refine ⟨some { p with hook := stage }, ?_, ?_⟩
      · simp only [Cloner.next, hdone, hstage]
        rfl
      · rintro _ ⟨⟩
        exact ⟨hentered, .inr ⟨n, hn, hleast, hmost, hfollows stage rfl, ht⟩⟩
    | none =>
      obtain ⟨stage', hstage', hfollows'⟩ := ht.next hs.typesLive hs.typesSize
      refine ⟨stage'.map (fun stage => { p with hookType := stage }), ?_, ?_⟩
      · simp only [Cloner.next, hdone, hstage, hstage']
        rfl
      · intro q hq
        obtain ⟨stage'', hmem, rfl⟩ := Option.mem_map.mp hq
        exact ⟨hentered, .inr ⟨n, hn, hleast, hmost, hh, hfollows' stage'' hmem⟩⟩

theorem Invariant.copy {p p' : Cloner} (h : Invariant s) (cloner : s.cloner = some p)
    (hnext : p.next s.heap s.table = .ok (some p')) : Invariant { s with cloner := some p' } := by
  obtain ⟨hooks, types, hs, hprogress⟩ := h.progress p cloner
  obtain ⟨q, hq, hkeeps⟩ := hprogress.next hs h.counted
  rw [hnext] at hq
  cases hq
  refine ⟨h.counted, h.bounded, h.fits, h.positive, h.stage, ?_, ?_, h.correct⟩
  · intro hm
    have := h.apart hm
    rw [cloner] at this
    cases this
  · intro q hq
    cases hq
    exact ⟨hooks, types, hs, hkeeps p' rfl⟩

theorem InProgress.clone_correct {hooks types : List (BitVec 64)} {p : Cloner}
    (hs : Stored s hooks types) (hbounded : s.added.length ≤ s.table.hookSize)
    (hfits : s.table.hookSize * 8 < 2 ^ 64)
    (h : InProgress s hooks types p) (hdone : p.next s.heap s.table = .ok none) :
    (p.clone s.added).Correct := by
  obtain ⟨hentered, hcount⟩ := h
  rcases hcount with ⟨hlen, -⟩ | ⟨n, hn, hleast, hmost, hh, ht⟩
  · have hin : p.count.length < (wordBytes 8 s.table.hookCount).length := by
      rw [length_wordBytes]
      exact hlen
    rw [Cloner.next, List.getElem?_eq_getElem hin] at hdone
    cases hdone
  · have hvalue : bytesValue p.count = n := by
      rw [hn, bytesValue_wordBytes, Nat.mod_eq_of_lt]
      have : (256 : ℕ) ^ 8 = 2 ^ 64 := by decide
      omega
    have hend : (wordBytes 8 s.table.hookCount)[p.count.length]? = none := by
      rw [List.getElem?_eq_none_iff, hn, length_wordBytes, length_wordBytes]
    obtain ⟨stage, hstage, -⟩ := hh.next hs.hooksLive hs.hooksSize
    obtain ⟨stage', hstage', -⟩ := ht.next hs.typesLive hs.typesSize
    simp only [Cloner.next, hend, hstage, hstage', bind, Except.bind] at hdone
    cases stage with
    | some stage => cases hdone
    | none =>
      cases stage' with
      | some stage' => cases hdone
      | none =>
        have hhooks := hh.done hs.hooksSize (by omega) hstage
        have htypes := ht.done hs.typesSize (by omega) hstage'
        refine ⟨by rw [Cloner.clone, hvalue]; exact hleast,
          by rw [Cloner.clone, hvalue]; exact hmost, ?_⟩
        simp only [Cloner.clone, hvalue, hhooks, htypes]
        have hfirst := congrArg (List.take n) hs.hooksAdded
        have hsecond := congrArg (List.take n) hs.typesAdded
        rw [List.take_take, Nat.min_eq_left hmost] at hfirst hsecond
        rw [hfirst, hsecond, ← List.map_take, ← List.map_take, List.zip_map']
        exact List.map_id _

theorem Invariant.leave {p : Cloner} (h : Invariant s) (cloner : s.cloner = some p)
    (hdone : p.next s.heap s.table = .ok none) :
    Invariant { s with cloner := none, clones := s.clones ++ [p.clone s.added] } := by
  obtain ⟨hooks, types, hs, hprogress⟩ := h.progress p cloner
  have hcorrect := hprogress.clone_correct hs h.bounded h.fits hdone
  refine ⟨h.counted, h.bounded, h.fits, h.positive, h.stage, fun _ => rfl, ?_, ?_⟩
  · rintro p ⟨⟩
  · intro t ht
    rcases List.mem_append.mp ht with ht | ht
    · exact h.correct t ht
    · rw [List.mem_singleton.mp ht]
      exact hcorrect

theorem Invariant.alone {pair : Pair} {m m2 : Address} {g : Growth} (h : Invariant s)
    (stage : s.stage = .growing pair m m2 g) (orderly : Orderly s .grow) : s.cloner = none := by
  by_cases hg : g = .freeHook
  · exact orderly pair m m2 (by rw [stage, hg])
  · exact h.apart ⟨pair, m, m2, g, stage, hg⟩

/-- A step that meets the conditions keeps the invariant. -/
theorem Invariant.step {action : Action} {s' : State} (h : Invariant s)
    (hstep : Guarded Orderly Step s action s') : Invariant s' := by
  obtain ⟨orderly, hstep⟩ := hstep
  cases hstep with
  | add idle room => exact h.add idle room
  | addFull idle full hooksLive typesLive fresh fresh2 different size size2 fits =>
    exact h.addFull idle full hooksLive typesLive fresh fresh2 different size size2 fits
  | grow stage hrun => exact h.grow stage hrun (h.alone stage orderly)
  | store stage hrun => exact h.store stage hrun orderly
  | enter free => exact h.enter orderly
  | copy cloner hnext => exact h.copy cloner hnext
  | leave cloner hdone => exact h.leave cloner hdone

theorem Invariant.safe (h : Invariant s) : Safe s where
  reads := by
    intro p hp
    obtain ⟨hooks, types, hs, hprogress⟩ := h.progress p hp
    obtain ⟨p', hp', -⟩ := hprogress.next hs h.counted
    exact ⟨p', hp'⟩
  live := by
    intro p c hp hc hlt
    obtain ⟨hooks, types, hs, -, hprogress⟩ := h.progress p hp
    rcases hprogress with ⟨-, -, hstart, hstart'⟩ | ⟨n, -, -, -, hh, ht⟩
    · rcases hc with hc | hc
      · rw [hstart] at hc
        cases hc
      · rw [hstart'] at hc
        cases hc
    · rcases hc with hc | hc
      · rw [hc] at hh
        exact ⟨hooks, by rw [hh.2.1]; exact hs.hooksLive, by rw [hs.hooksSize]⟩
      · rw [hc] at ht
        exact ⟨types, by rw [ht.2.1]; exact hs.typesLive, by rw [hs.typesSize]⟩
  correct := h.correct

theorem Invariant.initial {heap : WordHeap} {hook hookType : Address}
    {hooks types : List (BitVec 64)} (hh : heap hook = some hooks) (ht : heap hookType = some types)
    (hd : hook ≠ hookType)
    (hl : hooks.length = 8) (hl' : types.length = 8) :
    Invariant (SystemCallHookSnapshots.initial heap hook hookType) where
  counted := rfl
  bounded := Nat.zero_le _
  fits := (by decide : 8 * 8 < 2 ^ 64)
  positive := (by decide : 0 < 8)
  stage := ⟨hooks, types, hh, ht, hd, hl, hl', rfl, rfl⟩
  apart := fun _ => rfl
  progress := by rintro p ⟨⟩
  correct := by simp [SystemCallHookSnapshots.initial]

/-- In every run whose steps meet the conditions, a clone reads only live arrays of the size of the
table, and holds the pairs below its count. -/
theorem systemCallHook_clones_safe {heap : WordHeap} {hook hookType : Address}
    {hooks types : List (BitVec 64)} (hh : heap hook = some hooks) (ht : heap hookType = some types)
    (hd : hook ≠ hookType)
    (hl : hooks.length = 8) (hl' : types.length = 8) {actions : List Action}
    (run : Run (Guarded Orderly Step) (initial heap hook hookType) actions s) : Safe s := by
  have hinvariant : Invariant s := by
    refine run.invariant ?_ (.initial hh ht hd hl hl')
    intro s action s' h hstep
    exact h.step hstep
  exact hinvariant.safe

def newArrays : WordHeap :=
  put (put (fun _ => none) 1#64 (List.replicate 8 0#64)) 2#64 (List.replicate 8 0#64)

private theorem newArrays_invariant : Invariant (initial newArrays 1#64 2#64) :=
  .initial rfl rfl (by decide) rfl rfl

def Cloner.finish (heap : WordHeap) (a : Table) : ℕ → Cloner → Option Cloner
  | 0, _ => none
  | n + 1, p =>
    match p.next heap a with
    | .ok none => some p
    | .ok (some p') => p'.finish heap a n
    | .error _ => none

theorem finish_run {n : ℕ} {p p' : Cloner} (hs : s.cloner = some p)
    (h : p.finish s.heap s.table n = some p') :
    ∃ actions, Run (Guarded Orderly Step) s actions
      { s with cloner := none, clones := s.clones ++ [p'.clone s.added] } := by
  induction n generalizing s p with
  | zero => cases h
  | succ n ih =>
    rw [Cloner.finish] at h
    cases hn : p.next s.heap s.table with
    | error fault =>
      rw [hn] at h
      cases h
    | ok next =>
      rw [hn] at h
      cases next with
      | none =>
        cases h
        exact ⟨[.leave], .single ⟨trivial, .leave hs hn⟩⟩
      | some q =>
        obtain ⟨actions, run⟩ := ih (s := { s with cloner := some q }) rfl h
        exact ⟨.copy :: actions, .cons ⟨trivial, .copy hs hn⟩ run⟩

/-- A clone that begins while the first pair is added, and is made. -/
theorem systemCallHook_clones_safe_enter :
    ∃ actions s t, Run (Guarded Orderly Step) (initial newArrays 1#64 2#64)
      ([.add (5#64, 1#64), .store, .enter, .store, .store] ++ actions) s ∧ s.clones = [t] ∧
      t.added = [(5#64, 1#64)] ∧ Safe s := by
  obtain ⟨s, run, hsome, hs, hclones, hadded⟩ :
    ∃ s, Run (Guarded Orderly Step) (initial newArrays 1#64 2#64)
      [.add (5#64, 1#64), .store, .enter, .store, .store] s ∧
      ((⟨[], .start, .start, 0⟩ : Cloner).finish s.heap s.table 150).isSome = true ∧
      s.cloner = some ⟨[], .start, .start, 0⟩ ∧ s.clones = [] ∧ s.added = [(5#64, 1#64)] := by
    refine ⟨_, .cons ⟨trivial, .add rfl (by decide)⟩
      (.cons ⟨?_, .store rfl rfl⟩ (.cons ⟨?_, .enter rfl⟩
        (.cons ⟨?_, .store rfl rfl⟩ (.cons ⟨?_, .store rfl rfl⟩ (.nil _))))), ?_, rfl, rfl, rfl⟩
    · rintro pair p ⟨⟩
    · rintro pair m m2 g ⟨⟩
    · rintro pair p ⟨⟩
    · rintro pair p ⟨⟩ ⟨⟩
      simp
    · decide +kernel
  obtain ⟨p, hp⟩ := Option.isSome_iff_exists.mp hsome
  obtain ⟨actions, run'⟩ := finish_run hs hp
  have hrun := run.trans run'
  exact ⟨actions, _, _, hrun, by rw [hclones]; rfl, hadded,
    systemCallHook_clones_safe rfl rfl (by decide) rfl rfl hrun⟩

private theorem storeWord_live {heap : WordHeap} {array : Address} {i : ℕ}
    {words : List (BitVec 64)} (word : BitVec 64) (live : heap array = some words)
    (hi : i < words.length) :
    SystemCallHookSnapshots.storeWord heap array i word =
      .ok (put heap array (words.set i word)) := by
  simp only [SystemCallHookSnapshots.storeWord, live, hi, if_true]

theorem put_none {heap : WordHeap} {array a : Address} {words words' : List (BitVec 64)}
    (live : heap array = some words) (h : heap a = none) : put heap array words' a = none := by
  rw [put_other]
  · exact h
  · rintro rfl
    rw [live] at h
    cases h

/-- A call of `Add` with room and without clones. -/
theorem Invariant.add_pair (h : Invariant s) (idle : s.stage = .idle) (alone : s.cloner = none)
    (room : s.table.hookCount < s.table.hookSize) (pair : Pair) :
    ∃ s', Run Step s [.add pair, .store, .store, .store] s' ∧ Invariant s' ∧ s'.stage = .idle ∧
      s'.cloner = none ∧ s'.table = { s.table with hookCount := s.table.hookCount + 1 } ∧
      ∀ a, s.heap a = none → s'.heap a = none := by
  obtain ⟨hooks, types, hs⟩ : ∃ hooks types, Stored s hooks types := by
    have hstage := h.stage
    rw [idle] at hstage
    exact hstage
  have hfirst := storeWord_live pair.1 hs.hooksLive (i := s.table.hookCount)
    (by rw [hs.hooksSize]; exact room)
  have hlive : put s.heap s.table.hook (hooks.set s.table.hookCount pair.1) s.table.hookType =
      some types := by
    rw [put_other _ _ hs.different.symm, hs.typesLive]
  have hsecond := storeWord_live pair.2 hlive (i := s.table.hookCount)
    (by rw [hs.typesSize]; exact room)
  have orderly : ∀ s' : State, s'.cloner = none → Orderly s' .store := by
    rintro s' hs' pair p - hp
    rw [hs'] at hp
    cases hp
  have h1 : Invariant { s with stage := .storing pair .hook } := h.add idle room
  have h2 := h1.store rfl (k := .hook) (by rw [Store.run, hfirst]; rfl) (orderly _ alone)
  have h3 := h2.store rfl (k := .hookType) (by rw [Store.run, hsecond]; rfl) (orderly _ alone)
  have h4 := h3.store rfl (k := .count) rfl (orderly _ alone)
  refine ⟨_, .cons (.add idle room) (.cons (.store rfl (by rw [Store.run, hfirst]; rfl))
    (.cons (.store rfl (by rw [Store.run, hsecond]; rfl)) (.cons (.store rfl rfl) (.nil _)))),
    h4, rfl, alone, rfl, ?_⟩
  intro a ha
  exact put_none hlive (put_none hs.hooksLive ha)

/-- So many calls of `Add` without clones. -/
theorem filled (n : ℕ) (hn : n ≤ 8) :
    ∃ actions s, Run Step (initial newArrays 1#64 2#64) actions s ∧ Invariant s ∧ s.stage = .idle ∧
    s.cloner = none ∧ s.table = ⟨1#64, 2#64, n, 8⟩ ∧
    s.heap 3#64 = none ∧ s.heap 4#64 = none := by
  induction n with
  | zero => exact ⟨[], _, .nil _, newArrays_invariant, rfl, rfl, rfl, rfl, rfl⟩
  | succ n ih =>
    obtain ⟨actions, s, run, h, idle, alone, htable, h3, h4⟩ := ih (by omega)
    obtain ⟨s', run', h', idle', alone', htable', hfresh⟩ :=
      h.add_pair idle alone (by rw [htable]; exact hn) (5#64, 1#64)
    exact ⟨_, s', run.trans run', h', idle',
      alone', by rw [htable', htable], hfresh _ h3, hfresh _ h4⟩

theorem loading (heap : WordHeap) (clones : List Taken) (added : List Pair) :
    ∃ actions, Run Step ⟨heap, ⟨1#64, 2#64, 8, 8⟩, .idle, none, clones, added⟩ actions
      ⟨heap, ⟨1#64, 2#64, 8, 8⟩, .idle, some ⟨wordBytes 8 8, .loaded 64 1#64, .start, added.length⟩,
        clones, added⟩ := by
  refine ⟨_, .cons (.enter rfl) (.cons (.copy rfl rfl) (.cons (.copy rfl rfl) (.cons (.copy rfl rfl)
    (.cons (.copy rfl rfl) (.cons (.copy rfl rfl) (.cons (.copy rfl rfl) (.cons (.copy rfl rfl)
    (.cons (.copy rfl rfl) (.cons (.copy rfl rfl) (.cons (.copy rfl rfl) (.nil _)))))))))))⟩

/-- The ninth call of `Add` frees the array, and the clone reads the size. -/
theorem freeing {heap : WordHeap} {hooks types : List (BitVec 64)} (live : heap 1#64 = some hooks)
    (live2 : heap 2#64 = some types) (fresh : heap 3#64 = none) (fresh2 : heap 4#64 = none)
    (clones : List Taken) (added : List Pair) :
    ∃ heap' stage, heap' 1#64 = none ∧
      Run Step ⟨heap, ⟨1#64, 2#64, 8, 8⟩, .idle, some
          ⟨wordBytes 8 8, .loaded 64 1#64, .start, added.length⟩, clones, added⟩
            [.add (5#64, 1#64), .grow, .copy]
        ⟨heap', ⟨1#64, 2#64, 8, 8⟩, stage,
          some ⟨wordBytes 8 8, .copying ⟨64, 1#64, 64, []⟩, .start, added.length⟩,
          clones, added⟩ := by
  obtain ⟨grown, hgrown⟩ :
    ∃ grown, grown = put (put heap 3#64 (copied hooks (List.replicate 16 0#64) 8)) 4#64
      (copied types (List.replicate 16 0#64) 8) := ⟨_, rfl⟩
  have hlive : grown 1#64 = some hooks := by
    rw [hgrown, put_other _ _ (by decide), put_other _ _ (by decide)]
    exact live
  have hfree : Growth.freeHook.run grown ⟨1#64, 2#64, 8, 8⟩ 3#64 4#64 =
      .ok (erase grown 1#64, ⟨1#64, 2#64, 8, 8⟩) := by
    rw [Growth.run, free_live hlive]
    rfl
  subst hgrown
  have fits : 2 * 8 * 8 < 2 ^ 64 := by decide
  exact ⟨_, _, erase_self _ _, .cons (.addFull rfl le_rfl live live2 fresh fresh2 (by decide) rfl
    rfl fits) (.cons (.grow rfl hfree) (.cons (.copy rfl rfl) (.nil _)))⟩

/-- A clone has read the address of the array of hooks when the ninth call of `Add` frees it. -/
theorem systemCallHook_clone_reads_freed :
    ∃ actions s p, Run Step (initial newArrays 1#64 2#64) actions s ∧ s.cloner = some p ∧
    p.next s.heap s.table = .error .notLive := by
  obtain ⟨actions, ⟨heap, table, stage, cloner, clones, added⟩, run, h, rfl, rfl, rfl, h3, h4⟩ :=
    filled 8 le_rfl
  obtain ⟨hooks, types, hs⟩ := h.stage
  obtain ⟨actions', run'⟩ := loading heap clones added
  obtain ⟨heap', stage, hfreed, run''⟩ := freeing hs.hooksLive hs.typesLive h3 h4 clones added
  refine ⟨_, _, _, (run.trans run').trans run'', rfl, ?_⟩
  have hcopy : ArrayCopy.next heap' ⟨64, 1#64, 64, []⟩ = .error .notLive := by
    simp only [ArrayCopy.next, hfreed]
    rfl
  have hdone : (wordBytes 8 8)[(wordBytes 8 8).length]? = none := rfl
  simp only [Cloner.next, hdone, ArrayStage.next, hcopy]
  rfl

end Ps4Sdk.SystemCallHookSnapshots
