import Ps4Sdk.FallibleCalls
import Ps4Sdk.SystemCallHookSnapshots

/-!
# When clones of a system call hook are safe

The arrays of the handle are live, have the size of the table and begin with the pairs
that count, except in the middle of a growth, where the new arrays are like that. A
clone that is not in progress there reads the arrays of the table, and the words it
takes below the count it has read do not change any more.
-/

namespace Ps4Sdk.SystemCallHookSnapshots
open HeapBlocks StepRuns InterruptedCopies ByteMemory

structure Arrays (heap : WordHeap) (hook hookType : Address) (size : ℕ) (added : List Pair)
    (hooks types : List (BitVec 64)) : Prop where
  hooksLive : heap hook = some hooks
  typesLive : heap hookType = some types
  different : hook ≠ hookType
  hooksSize : hooks.length = size
  typesSize : types.length = size
  hooksAdded : hooks.take added.length = added.map Prod.fst
  typesAdded : types.take added.length = added.map Prod.snd

def Stored (s : State) (hooks types : List (BitVec 64)) : Prop :=
  Arrays s.heap s.table.hook s.table.hookType s.table.hookSize s.added hooks types

def Replacing (s : State) (m m2 : Address) : Prop :=
  s.added.length = s.table.hookSize ∧ 2 * s.table.hookSize * 8 < 2 ^ 64 ∧
    ∃ hooks types, Arrays s.heap m m2 (2 * s.table.hookSize) s.added hooks types

/-- What holds at each stage of `Add`. -/
def AtStage (s : State) : Stage → Prop
  | .idle => ∃ hooks types, Stored s hooks types
  | .storing _ .hook => s.added.length < s.table.hookSize ∧ ∃ hooks types, Stored s hooks types
  | .storing pair .hookType => s.added.length < s.table.hookSize ∧
      ∃ hooks types, Stored s hooks types ∧ hooks[s.added.length]? = some pair.1
  | .storing pair .count => s.added.length < s.table.hookSize ∧
      ∃ hooks types, Stored s hooks types ∧ hooks[s.added.length]? = some pair.1 ∧
        types[s.added.length]? = some pair.2
  | .growing _ m m2 .freeHook => Replacing s m m2 ∧ (∃ hooks types, Stored s hooks types) ∧
      m ≠ s.table.hook ∧ m2 ≠ s.table.hook ∧ m ≠ s.table.hookType ∧ m2 ≠ s.table.hookType
  | .growing _ m m2 .freeHookType => Replacing s m m2 ∧ m ≠ s.table.hookType ∧ m2 ≠ s.table.hookType
  | .growing _ m m2 .setHook => Replacing s m m2
  | .growing _ m m2 .setHookType => Replacing s m m2 ∧ s.table.hook = m
  | .growing _ m m2 .doubleSize => Replacing s m m2 ∧ s.table.hook = m ∧ s.table.hookType = m2

def Stage.MidGrowth (stage : Stage) : Prop := ∃ pair m m2 g, stage = .growing pair m m2 g ∧
    g ≠ .freeHook

/-- The copy of an array takes its first `n` words as they are. -/
def Follows (array : Address) (size n : ℕ) (words : List (BitVec 64)) : ArrayStage → Prop
  | .start => True
  | .allocated space => space = size * 8
  | .loaded space source => space = size * 8 ∧ source = array
  | .copying c => c.space = size * 8 ∧ c.source = array ∧ c.limit = size * 8 ∧
      c.taken.length ≤ size * 8 ∧
      c.taken.take (8 * n) = (arrayBytes (words.take n)).take c.taken.length

/-- A clone in progress: it is copying the count, or has copied one and the words below it. -/
def InProgress (s : State) (hooks types : List (BitVec 64)) (p : Cloner) : Prop :=
  p.entered ≤ s.added.length ∧
    ((p.count.length < 8 ∧ p.count = (wordBytes 8 s.added.length).take p.count.length ∧
        p.hook = .start ∧ p.hookType = .start) ∨
      ∃ n, p.count = wordBytes 8 n ∧ p.entered ≤ n ∧ n ≤ s.added.length ∧
        Follows s.table.hook s.table.hookSize n hooks p.hook ∧
        Follows s.table.hookType s.table.hookSize n types p.hookType)

structure Invariant (s : State) : Prop where
  counted : s.table.hookCount = s.added.length
  bounded : s.added.length ≤ s.table.hookSize
  fits : s.table.hookSize * 8 < 2 ^ 64
  positive : 0 < s.table.hookSize
  stage : AtStage s s.stage
  apart : s.stage.MidGrowth → s.cloner = none
  progress : ∀ p, s.cloner = some p → ∃ hooks types, Stored s hooks types ∧
    InProgress s hooks types p
  correct : ∀ t ∈ s.clones, t.Correct

/-! ### Arrays and copies -/

theorem take_wordsOf {n k : ℕ} (h : n ≤ k) (bytes : List (BitVec 8)) :
    (wordsOf k bytes).take n = wordsOf n (bytes.take (8 * n)) := by
  induction n generalizing k bytes with
  | zero => rfl
  | succ n ih =>
    obtain ⟨k, rfl⟩ : ∃ j, k = j + 1 := ⟨k - 1, by omega⟩
    have hrest : 8 * (n + 1) - 8 = 8 * n := by omega
    rw [wordsOf, List.take_succ_cons, wordsOf, ih (by omega), List.take_take, List.drop_take, hrest,
      Nat.min_eq_left (by omega)]

theorem Follows.frame {array : Address} {size n : ℕ} {words words' : List (BitVec 64)}
    {stage : ArrayStage} (h : Follows array size n words stage)
    (hw : words'.take n = words.take n) :
    Follows array size n words' stage := by
  cases stage with
  | copying c =>
    obtain ⟨hspace, hsource, hlimit, hlength, htaken⟩ := h
    exact ⟨hspace, hsource, hlimit, hlength, by rw [hw]; exact htaken⟩
  | _ => exact h

theorem arrayBytes_take (words : List (BitVec 64)) (n : ℕ) :
    arrayBytes (words.take n) = (arrayBytes words).take (8 * n) := by
  have hs : arrayBytes words = arrayBytes (words.take n) ++ arrayBytes (words.drop n) := by
    rw [← arrayBytes_append, List.take_append_drop]
  by_cases hn : n ≤ words.length
  · rw [hs, List.take_left' (by rw [length_arrayBytes, List.length_take, Nat.min_eq_left hn])]
  · rw [List.take_of_length_le (by omega), List.take_of_length_le
      (by rw [length_arrayBytes]; omega)]

theorem take_snoc {array taken : List (BitVec 8)} {byte : BitVec 8} {n : ℕ}
    (h : taken.take n = (array.take n).take taken.length)
    (hbyte : array[taken.length]? = some byte) :
    (taken ++ [byte]).take n = (array.take n).take (taken ++ [byte]).length := by
  have hlt := (List.getElem?_eq_some_iff.mp hbyte).1
  rw [List.take_take] at h ⊢
  rw [List.length_append, List.length_singleton]
  by_cases hn : n ≤ taken.length
  · rw [List.take_append_of_le_length hn, h, Nat.min_eq_right hn, Nat.min_eq_right (by omega)]
  · rw [List.take_of_length_le (by omega), Nat.min_eq_left (by omega)] at h
    rw [List.take_of_length_le (by simp; omega), Nat.min_eq_left (by omega),
      List.take_succ_eq_append_getElem hlt, ← h]
    congr 2
    exact ((List.getElem?_eq_some_iff.mp hbyte).2).symm

theorem Follows.next {heap : WordHeap} {array : Address} {size n : ℕ} {words : List (BitVec 64)}
    {stage : ArrayStage} (h : Follows array size n words stage) (hlive : heap array = some words)
    (hsize : words.length = size) :
    ∃ stage', stage.next heap array size = .ok stage' ∧
    ∀ stage'' ∈ stage', Follows array size n words stage'' := by
  cases stage with
  | start => exact ⟨_, rfl, by rintro _ ⟨⟩; rfl⟩
  | allocated space => exact ⟨_, rfl, by rintro _ ⟨⟩; exact ⟨h, rfl⟩⟩
  | loaded space source =>
      exact ⟨_, rfl, by rintro _ ⟨⟩; exact ⟨h.1, h.2, rfl, Nat.zero_le _, by simp⟩⟩
  | copying c =>
    obtain ⟨hspace, hsource, hlimit, hlength, htaken⟩ := h
    by_cases hlt : c.taken.length < c.limit
    · obtain ⟨byte, hbyte⟩ : ∃ byte, (arrayBytes words)[c.taken.length]? = some byte := by
        have hin : c.taken.length < (arrayBytes words).length := by
          rw [length_arrayBytes, hsize]
          omega
        exact ⟨_, List.getElem?_eq_getElem hin⟩
      refine ⟨some (.copying { c with taken := c.taken ++ [byte] }), ?_, ?_⟩
      · rw [← hsource] at hlive
        simp only [ArrayStage.next, ArrayCopy.next, if_pos hlt, hlive, hbyte, hspace ▸ hlimit ▸ hlt]
        rfl
      · rintro _ ⟨⟩
        refine ⟨hspace, hsource, hlimit, by simp; omega, ?_⟩
        rw [arrayBytes_take] at htaken ⊢
        exact take_snoc htaken hbyte
    · refine ⟨none, ?_, by simp⟩
      simp only [ArrayStage.next, ArrayCopy.next, if_neg hlt]
      rfl

/-- A copy that is done holds the first words of the array. -/
theorem Follows.done {heap : WordHeap} {array : Address} {size n : ℕ} {words : List (BitVec 64)}
    {stage : ArrayStage} (h : Follows array size n words stage)
    (hsize : words.length = size) (hn : n ≤ size)
    (hdone : stage.next heap array size = .ok none) : stage.words.take n = words.take n := by
  cases stage with
  | copying c =>
    obtain ⟨hspace, hsource, hlimit, hlength, htaken⟩ := h
    have hnot : ¬c.taken.length < c.limit := by
      intro hlt
      simp only [ArrayStage.next, ArrayCopy.next, if_pos hlt] at hdone
      split at hdone
      · cases hdone
      · split at hdone
        · split_ifs at hdone <;> cases hdone
        · cases hdone
    have hwords : (words.take n).length = n := by
      rw [List.length_take]
      omega
    rw [ArrayStage.words, take_wordsOf (by omega), htaken, List.take_of_length_le (by
      rw [length_arrayBytes, hwords]; omega)]
    have hback := wordsOf_arrayBytes (words.take n)
    rwa [hwords] at hback
  | _ => cases hdone

/-! ### The steps of `Add` -/

section
variable {s : State} {hooks types : List (BitVec 64)} {p : Cloner}

/-- A clone that has read a count is not concerned by what happens behind it. -/
theorem InProgress.frame {s' : State} {hooks' types' : List (BitVec 64)}
    (h : InProgress s hooks types p) (hhook : s'.table.hook = s.table.hook)
    (htype : s'.table.hookType = s.table.hookType)
    (hsize : s'.table.hookSize = s.table.hookSize) (hadded : s'.added = s.added)
    (hhooks : hooks'.take s.added.length = hooks.take s.added.length)
    (htypes : types'.take s.added.length = types.take s.added.length) :
    InProgress s' hooks' types' p := by
  obtain ⟨hentered, hcount⟩ := h
  refine ⟨by rwa [hadded], ?_⟩
  rcases hcount with hcount | ⟨n, hn, hleast, hmost, hh, ht⟩
  · rw [hadded]
    exact .inl hcount
  · refine .inr ⟨n, hn, hleast, by rwa [hadded], ?_, ?_⟩
    · rw [hhook, hsize]
      apply hh.frame
      have := congrArg (List.take n) hhooks
      rwa [List.take_take, List.take_take, Nat.min_eq_left hmost] at this
    · rw [htype, hsize]
      apply ht.frame
      have := congrArg (List.take n) htypes
      rwa [List.take_take, List.take_take, Nat.min_eq_left hmost] at this

theorem AtStage.stored {stage : Stage} (h : AtStage s stage) (hn : ¬stage.MidGrowth) :
    ∃ hooks types, Stored s hooks types := by
  cases stage with
  | idle => exact h
  | storing pair k =>
    cases k with
    | hook => exact h.2
    | hookType =>
      obtain ⟨-, hooks, types, hs, -⟩ := h
      exact ⟨hooks, types, hs⟩
    | count =>
      obtain ⟨-, hooks, types, hs, -⟩ := h
      exact ⟨hooks, types, hs⟩
  | growing pair m m2 g =>
    cases g with
    | freeHook => exact h.2.1
    | _ => exact absurd ⟨_, _, _, _, rfl, by simp⟩ hn

theorem Stored.hooks_eq {hooks' types' : List (BitVec 64)} (h : Stored s hooks types)
    (h' : Stored s hooks' types') :
    hooks' = hooks ∧ types' = types :=
  ⟨Option.some.inj (h'.hooksLive.symm.trans h.hooksLive),
    Option.some.inj (h'.typesLive.symm.trans h.typesLive)⟩

/-- What is put at a fresh address leaves the arrays alone. -/
theorem Arrays.put_fresh {heap : WordHeap} {hook hookType a : Address} {size : ℕ}
    {added : List Pair} (h : Arrays heap hook hookType size added hooks types) (ha : heap a = none)
    (words : List (BitVec 64)) :
    Arrays (put heap a words) hook hookType size added hooks types := by
  have hne : ∀ x ws, heap x = some ws → x ≠ a := by
    rintro x ws hx rfl
    rw [ha] at hx
    cases hx
  exact { h with
    hooksLive := (put_other _ _ (hne _ _ h.hooksLive)).trans h.hooksLive
    typesLive := (put_other _ _ (hne _ _ h.typesLive)).trans h.typesLive }

theorem Arrays.free_other {heap heap' : WordHeap} {hook hookType a : Address} {size : ℕ}
    {added : List Pair} (h : Arrays heap hook hookType size added hooks types)
    (hf : free heap a = .ok heap')
    (hh : hook ≠ a) (ht : hookType ≠ a) : Arrays heap' hook hookType size added hooks types := by
  have herase : heap' = erase heap a := by
    unfold free at hf
    split at hf
    · exact (Except.ok.inj hf).symm
    · cases hf
  subst herase
  exact { h with
    hooksLive := (erase_other _ hh).trans h.hooksLive
    typesLive := (erase_other _ ht).trans h.typesLive }

private theorem take_copied {old new : List (BitVec 64)} {n : ℕ} (h : n ≤ old.length) :
    (copied old new n).take n = old.take n := by
  rw [copied, List.take_left' (by rw [List.length_take, Nat.min_eq_left h])]

private theorem length_copied {old new : List (BitVec 64)} {n : ℕ} (h : n ≤ old.length)
    (h' : n ≤ new.length) :
    (copied old new n).length = new.length := by
  rw [copied, List.length_append, List.length_take, List.length_drop]
  omega

theorem Invariant.add {pair : Pair} (h : Invariant s) (idle : s.stage = .idle)
    (room : s.table.hookCount < s.table.hookSize) :
    Invariant { s with stage := .storing pair .hook } where
  counted := h.counted
  bounded := h.bounded
  fits := h.fits
  positive := h.positive
  stage := by
    have hs := h.stage
    rw [idle] at hs
    exact ⟨by rw [← h.counted]; exact room, hs⟩
  apart := by
    rintro ⟨_, _, _, _, hstage, -⟩
    cases hstage
  progress := h.progress
  correct := h.correct

theorem Invariant.addFull {pair : Pair} {m m2 : Address} {hooks types new new2 : List (BitVec 64)}
    (h : Invariant s) (idle : s.stage = .idle) (full : s.table.hookSize ≤ s.table.hookCount)
    (hooksLive : s.heap s.table.hook = some hooks)
    (typesLive : s.heap s.table.hookType = some types)
    (fresh : s.heap m = none) (fresh2 : s.heap m2 = none) (different : m ≠ m2)
    (size : new.length = 2 * s.table.hookSize) (size2 : new2.length = 2 * s.table.hookSize)
    (fits : 2 * s.table.hookSize * 8 < 2 ^ 64) :
    Invariant { s with
      heap := put (put s.heap m (copied hooks new s.table.hookCount)) m2
        (copied types new2 s.table.hookCount)
      stage := .growing pair m m2 .freeHook } := by
  have hbounded := h.bounded
  have hcounted := h.counted
  obtain ⟨hooks', types', hs⟩ :=
    h.stage.stored (by rw [idle]; rintro ⟨_, _, _, _, hstage, -⟩; cases hstage)
  obtain rfl := Option.some.inj (hooksLive.symm.trans hs.hooksLive)
  obtain rfl := Option.some.inj (typesLive.symm.trans hs.typesLive)
  have hput : ∀ hooks' types', Stored s hooks' types' → Arrays (put (put s.heap m
      (copied hooks new s.table.hookCount)) m2 (copied types new2 s.table.hookCount))
        s.table.hook s.table.hookType
      s.table.hookSize s.added hooks' types' := by
    intro hooks' types' hs'
    exact (hs'.put_fresh fresh _).put_fresh ((put_other _ _ different.symm).trans fresh2) _
  have hlive : ∀ x ws, s.heap x = some ws → m ≠ x ∧ m2 ≠ x := by
    intro x ws hx
    constructor
    · rintro rfl
      rw [fresh] at hx
      cases hx
    · rintro rfl
      rw [fresh2] at hx
      cases hx
  have hhooks := hs.hooksSize
  have htypes := hs.typesSize
  have hhooksNew : (copied hooks new s.table.hookCount).take s.added.length =
      s.added.map Prod.fst := by
    rw [hcounted, take_copied (by omega)]
    exact hs.hooksAdded
  have htypesNew : (copied types new2 s.table.hookCount).take s.added.length =
      s.added.map Prod.snd := by
    rw [hcounted, take_copied (by omega)]
    exact hs.typesAdded
  refine ⟨h.counted, h.bounded, h.fits, h.positive, ?_, ?_, ?_, h.correct⟩
  · refine ⟨⟨by simp only; omega, fits, ?_⟩, ⟨hooks, types, hput _ _ hs⟩, (hlive _ _ hooksLive).1,
      (hlive _ _ hooksLive).2, (hlive _ _ typesLive).1, (hlive _ _ typesLive).2⟩
    refine ⟨copied hooks new s.table.hookCount, copied types new2 s.table.hookCount, ?_,
      put_self .., different, ?_, ?_, ?_, ?_⟩
    · exact (put_other _ _ different).trans (put_self ..)
    · rw [length_copied (by omega) (by omega), size]
    · rw [length_copied (by omega) (by omega), size2]
    · exact hhooksNew
    · exact htypesNew
  · rintro ⟨_, _, _, _, hstage, hg⟩
    cases hstage
    exact absurd rfl hg
  · intro p hp
    obtain ⟨hooks', types', hs', hprogress⟩ := h.progress p hp
    exact ⟨hooks', types', hput _ _ hs', hprogress.frame rfl rfl rfl rfl rfl rfl⟩

theorem Invariant.grow {pair : Pair} {m m2 : Address} {g : Growth} {heap : WordHeap} {a : Table}
    (h : Invariant s) (stage : s.stage = .growing pair m m2 g)
    (hrun : g.run s.heap s.table m m2 = .ok (heap, a))
    (alone : s.cloner = none) :
    Invariant { s with heap := heap, table := a, stage := g.after pair m m2 } := by
  have hs := h.stage
  have hnone : ∀ p, s.cloner ≠ some p := by
    rw [alone]
    simp
  rw [stage] at hs
  cases g with
  | freeHook =>
    obtain ⟨⟨hfull, hfits, hooks, types, ha⟩, -, h₁, h₂, h₃, h₄⟩ := hs
    obtain ⟨heap', hf, hrun⟩ := FallibleCalls.bind_eq_ok.mp hrun
    cases hrun
    exact ⟨h.counted, h.bounded, h.fits, h.positive,
      ⟨⟨hfull, hfits, hooks, types, ha.free_other hf h₁ h₂⟩, h₃, h₄⟩, fun _ => alone,
      fun p hp => absurd hp (hnone p), h.correct⟩
  | freeHookType =>
    obtain ⟨⟨hfull, hfits, hooks, types, ha⟩, h₃, h₄⟩ := hs
    obtain ⟨heap', hf, hrun⟩ := FallibleCalls.bind_eq_ok.mp hrun
    cases hrun
    exact ⟨h.counted, h.bounded, h.fits, h.positive,
      ⟨hfull, hfits, hooks, types, ha.free_other hf h₃ h₄⟩, fun _ => alone,
      fun p hp => absurd hp (hnone p), h.correct⟩
  | setHook =>
    cases hrun
    exact ⟨h.counted, h.bounded, h.fits, h.positive, ⟨hs, rfl⟩, fun _ => alone,
      fun p hp => absurd hp (hnone p),
      h.correct⟩
  | setHookType =>
    cases hrun
    exact ⟨h.counted, h.bounded, h.fits, h.positive, ⟨hs.1, hs.2, rfl⟩, fun _ => alone,
      fun p hp => absurd hp (hnone p), h.correct⟩
  | doubleSize =>
    cases hrun
    obtain ⟨⟨hfull, hfits, hooks, types, ha⟩, rfl, rfl⟩ := hs
    have hbounded := h.bounded
    have hpositive := h.positive
    rw [Nat.mul_comm] at ha
    refine ⟨h.counted, by simp only; omega, by simp only; omega, by simp only; omega,
      ⟨by simp only; omega, hooks, types, ha⟩, ?_, fun p hp => absurd hp (hnone p), h.correct⟩
    rintro ⟨_, _, _, _, hstage, -⟩
    cases hstage

theorem storeWord_eq {heap heap' : WordHeap} {array : Address} {i : ℕ} {word : BitVec 64}
    {words : List (BitVec 64)} (hlive : heap array = some words)
    (h : storeWord heap array i word = .ok heap') :
    heap' = put heap array (words.set i word) ∧ i < words.length := by
  rw [storeWord, hlive] at h
  simp only at h
  split_ifs at h with hi
  exact ⟨(Except.ok.inj h).symm, hi⟩

theorem take_set_self (words : List (BitVec 64)) (i : ℕ) (word : BitVec 64) :
    (words.set i word).take i = words.take i := by
  rw [List.take_set, List.set_eq_of_length_le (by simp)]

theorem Arrays.store_hook {heap : WordHeap} {hook hookType : Address} {size : ℕ} {added : List Pair}
    (h : Arrays heap hook hookType size added hooks types) (word : BitVec 64) :
    Arrays (put heap hook (hooks.set added.length word)) hook hookType size added
      (hooks.set added.length word) types :=
  { h with
    hooksLive := put_self ..
    typesLive := (put_other _ _ h.different.symm).trans h.typesLive
    hooksSize := by rw [List.length_set, h.hooksSize]
    hooksAdded := by rw [take_set_self, h.hooksAdded] }

theorem Arrays.store_hookType {heap : WordHeap} {hook hookType : Address} {size : ℕ}
    {added : List Pair} (h : Arrays heap hook hookType size added hooks types) (word : BitVec 64) :
    Arrays (put heap hookType (types.set added.length word)) hook hookType size added
      hooks (types.set added.length word) :=
  { h with
    hooksLive := (put_other _ _ h.different).trans h.hooksLive
    typesLive := put_self ..
    typesSize := by rw [List.length_set, h.typesSize]
    typesAdded := by rw [take_set_self, h.typesAdded] }

theorem Arrays.count {heap : WordHeap} {hook hookType : Address} {size : ℕ} {added : List Pair}
    {pair : Pair} (h : Arrays heap hook hookType size added hooks types)
    (hh : hooks[added.length]? = some pair.1)
    (ht : types[added.length]? = some pair.2) :
    Arrays heap hook hookType size (added ++ [pair]) hooks types := by
  obtain ⟨hlt, hh⟩ := List.getElem?_eq_some_iff.mp hh
  obtain ⟨hlt', ht⟩ := List.getElem?_eq_some_iff.mp ht
  refine { h with hooksAdded := ?_, typesAdded := ?_ }
  · rw [List.length_append, List.length_singleton, List.take_succ_eq_append_getElem hlt,
      h.hooksAdded, hh]
    simp
  · rw [List.length_append, List.length_singleton, List.take_succ_eq_append_getElem hlt',
      h.typesAdded, ht]
    simp

end

end Ps4Sdk.SystemCallHookSnapshots
