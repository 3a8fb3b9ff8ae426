import Ps4Sdk.FunctionHookHandler

/-!
# Dispatch of the function hook engine

A table holds pairs of a hook and a type, then nulls with the types that earlier
removals left, and a zero type at the end. The hooks of a phase are those of its
types, in table order. The handler takes the zero type of a disabled entry for the
end of the table. So it runs exactly these if none of them stands behind a disabled
entry, or if a hook in front of that ends the phase.
-/

namespace Ps4Sdk.FunctionHookHandler
open CheckedBlocks CallSequences FunctionHookTables

def Phase.runs : Phase → HookType → Bool
  | .pre, .pre | .pre, .genericPre | .pre, .genericBoth => true
  | .post, .genericPost | .post, .genericBoth => true
  | _, _ => false

def specified (phase : Phase) (i : ℕ) (pairs : List (Address × HookType)) : List Entry :=
  ((pairs.zipIdx i).filter (fun q => phase.runs q.1.2)).map (fun q => ⟨q.2, q.1.1, q.1.2.value⟩)

/-- The clone is that of a table with these pairs. -/
structure Holds (c : Clone) (pairs : List (Address × HookType)) (stale : List ℤ) : Prop where
  nonNull : ∀ p ∈ pairs, p.1 ≠ 0#64
  hook : c.hook = pairs.map Prod.fst ++ List.replicate (stale.length + 1) 0#64
  hookType : c.hookType = pairs.map (fun p => p.2.value) ++ (stale ++ [0])

/-- The handler returns the registers of the returns block, having called the
hooks of both phases and the original as the types of the table say. -/
def Correct {W : Type} (b : Behaviour W) (c : Clone)
    (pairs : List (Address × HookType)) (f : Frame W) :
    Prop :=
  ∃ calls f', Reaches b c (.handler, f) (.ret, f') ∧ f'.calls = f.calls ++ calls ∧
    f'.returned = some f'.shared.returns ∧
    Dispatches 0#64 (fun control => control.toInt < 0) ((specified .pre 0 pairs).map Entry.callee)
      ((specified .post 0 pairs).map Entry.callee) calls

def DisabledLast (pairs : List (Address × HookType)) : Prop :=
  pairs.Pairwise (fun p q => p.2 = .disabled → q.2 = .disabled)

instance (pairs : List (Address × HookType)) : Decidable (DisabledLast pairs) :=
  inferInstanceAs (Decidable (List.Pairwise _ pairs))

private theorem skips_value (phase : Phase) (type : HookType) (h : type ≠ .disabled) :
    phase.skips type.value = !phase.runs type := by
  cases phase <;> cases type <;> first | rfl | exact absurd rfl h

private theorem value_eq_zero (type : HookType) : type.value = 0 ↔ type = .disabled := by
  cases type <;> simp [HookType.value]

private theorem runs_disabled (phase : Phase) :
    phase.runs .disabled = false := by cases phase <;> rfl

private theorem specified_cons (phase : Phase) (i : ℕ) (p : Address × HookType)
    (pairs : List (Address × HookType)) :
    specified phase i (p :: pairs) = if phase.runs p.2 then
      ⟨i, p.1, p.2.value⟩ :: specified phase (i + 1) pairs else specified phase (i + 1) pairs := by
  unfold specified
  cases h : phase.runs p.2 <;> simp [h]

theorem specified_eq_nil (phase : Phase) (i : ℕ) (pairs : List (Address × HookType)) :
    specified phase i pairs = [] ↔ ∀ p ∈ pairs, phase.runs p.2 = false := by
  induction pairs generalizing i with
  | nil => simp [specified]
  | cons p pairs ih =>
    rw [specified_cons]
    cases h : phase.runs p.2 <;> simp [h, ih]

def readFrom (i : ℕ) (pairs : List (Address × HookType)) (stale : List ℤ) : List Entry :=
  entriesFrom i (pairs.map (fun p => (p.1, p.2.value)) ++ stale.map (fun type => (0#64, type)))

theorem zip_nulls (n : ℕ) (types : List ℤ) (h : types.length = n) :
    (List.replicate n 0#64).zip types = types.map (fun type => (0#64, type)) := by
  subst h
  induction types with
  | nil => rfl
  | cons x xs ih => simp [List.replicate_succ, ih]

theorem Holds.entries {c : Clone} {pairs : List (Address × HookType)} {stale : List ℤ}
    (h : Holds c pairs stale) : c.entries = readFrom 0 pairs (stale ++ [0]) := by
  rw [Clone.entries, readFrom, h.hook, h.hookType, List.zip_append (by simp),
    zip_nulls _ _ (by simp)]
  congr 2
  rw [List.zip_map']

theorem runnable_stale (phase : Phase) (i : ℕ) (stale : List ℤ) :
    runnable phase (readFrom i [] stale) = [] := by
  induction stale generalizing i with
  | nil => rfl
  | cons type stale ih =>
    have h := ih (i + 1)
    simp only [readFrom, List.map_nil, List.nil_append] at h
    simp [readFrom, entriesFrom, runnable, h]

theorem runnable_cons (phase : Phase) (i : ℕ) (p : Address × HookType)
    (pairs : List (Address × HookType)) (stale : List ℤ) (hn : p.1 ≠ 0#64) :
    runnable phase (readFrom i (p :: pairs) stale) =
      if p.2 = .disabled then []
      else if phase.runs p.2 then ⟨i, p.1, p.2.value⟩ :: runnable phase
        (readFrom (i + 1) pairs stale)
      else runnable phase (readFrom (i + 1) pairs stale) := by
  simp only [readFrom, List.map_cons, List.cons_append, entriesFrom, runnable, value_eq_zero]
  by_cases hd : p.2 = .disabled
  · rw [if_pos hd, if_pos hd]
  · rw [if_neg hd, if_neg hd, skips_value phase p.2 hd]
    cases phase.runs p.2 <;> simp [hn]

/-- With the disabled entries last the handler runs what the types say. -/
theorem runnable_eq_specified (phase : Phase) (i : ℕ) (pairs : List (Address × HookType))
    (stale : List ℤ) (hn : ∀ p ∈ pairs, p.1 ≠ 0#64) (hd : DisabledLast pairs) :
    runnable phase (readFrom i pairs stale) = specified phase i pairs := by
  induction pairs generalizing i with
  | nil => simp [runnable_stale, specified]
  | cons p pairs ih =>
    obtain ⟨hhead, htail⟩ := List.pairwise_cons.mp hd
    rw [runnable_cons phase i p pairs stale (hn p (by simp))]
    by_cases hp : p.2 = .disabled
    · rw [if_pos hp, eq_comm, specified_eq_nil]
      intro q hq
      rcases List.mem_cons.mp hq with rfl | hq
      · rw [hp, runs_disabled]
      · rw [hhead q hq hp, runs_disabled]
    · rw [if_neg hp, specified_cons, ih (i + 1) (fun q hq => hn q (List.mem_cons_of_mem _ hq))
        htail]

/-- No hook of the phase stands behind the first disabled entry. -/
def NoneHidden (phase : Phase) (pairs : List (Address × HookType)) : Prop :=
  ∀ p ∈ pairs.dropWhile (fun p => p.2 ≠ .disabled), phase.runs p.2 = false

instance (phase : Phase) (pairs : List (Address × HookType)) : Decidable (NoneHidden phase pairs) :=
  inferInstanceAs (Decidable (∀ p ∈ _, _))

/-- What the types say is what the handler runs, and what is hidden behind a disabled entry. -/
theorem specified_eq_append (phase : Phase) (i : ℕ) (pairs : List (Address × HookType))
    (stale : List ℤ) (hn : ∀ p ∈ pairs, p.1 ≠ 0#64) :
    ∃ hidden, specified phase i pairs = runnable phase (readFrom i pairs stale) ++ hidden ∧
      (hidden = [] ↔ NoneHidden phase pairs) := by
  induction pairs generalizing i with
  | nil => exact ⟨[], by simp [runnable_stale, specified], by simp [NoneHidden]⟩
  | cons p pairs ih =>
    rw [runnable_cons phase i p pairs stale (hn p List.mem_cons_self)]
    by_cases hp : p.2 = .disabled
    · refine ⟨specified phase i (p :: pairs), by rw [if_pos hp, List.nil_append], ?_⟩
      rw [specified_eq_nil, NoneHidden, List.dropWhile_cons_of_neg (by simp [hp])]
    · obtain ⟨hidden, heq, hiff⟩ := ih (i + 1) fun q hq => hn q (List.mem_cons_of_mem _ hq)
      refine ⟨hidden, ?_, ?_⟩
      · rw [if_neg hp, specified_cons, heq]
        split_ifs <;> rfl
      · rw [hiff, NoneHidden, NoneHidden, List.dropWhile_cons_of_pos (by simp [hp])]

/-- Hooks that always say to go on, and leave everything as it is. -/
def quiet : Behaviour Unit where
  specific _ _ _ _ s := (0#64, s)
  generic _ _ _ _ _ s := (0#64, s)
  original _ s := (s.returns, s)

theorem returns_quiet {control : BitVec 64} (h : quiet.Returns control) : control = 0#64 := by
  rcases h with ⟨_, _, _, _, _, rfl⟩ | ⟨_, _, _, _, _, _, rfl⟩ <;> rfl

theorem Holds.length {c : Clone} {pairs : List (Address × HookType)} {stale : List ℤ}
    (h : Holds c pairs stale) : c.hook.length = c.hookType.length := by
  simp [h.hook, h.hookType]

theorem Holds.zero_mem {c : Clone} {pairs : List (Address × HookType)} {stale : List ℤ}
    (h : Holds c pairs stale) : 0 ∈ c.hookType := by
  simp [h.hookType]

/-- A frame in which a thread enters the handler. -/
def entered : Frame Unit where
  hookCurrent := 0
  hookTypeCurrent := 0
  registers := ⟨0, 0, 0, 0, 0, 0, 0, 0, 0, 0, 0, 0, 0, 0, 0⟩
  shared := ⟨⟨0, 0, 0, 0, 0, 0, 0, 0, 0, 0, 0, 0, 0, 0, 0⟩, ⟨0, 0, 0, 0⟩, 0, ()⟩
  calls := []
  returned := none

/-- The clone of a new table to which these pairs were added. -/
def smallClone (pairs : List (Address × HookType)) : Clone where
  address := 0x1000
  hook := pairs.map Prod.fst ++ List.replicate 6 0#64
  hookType := pairs.map (fun p => p.2.value) ++ List.replicate 6 0
  curthread := 0x2000

theorem holds_smallClone (pairs : List (Address × HookType)) (h : ∀ p ∈ pairs, p.1 ≠ 0#64) :
    Holds (smallClone pairs) pairs (List.replicate 5 0) := ⟨h, rfl, rfl⟩

/-- The run of the handler is correct exactly if what is hidden from a phase that runs would not
have been called. -/
theorem Runs.correct_iff {W : Type} {b : Behaviour W} {c : Clone} {f f' : Frame W}
    {cs ds : List ((ℤ × Address) × BitVec 64)} (hruns : Runs b c f f' cs ds)
    {pairs : List (Address × HookType)} {stale : List ℤ} (h : Holds c pairs stale) :
    Correct b c pairs f ↔ (NoneHidden .pre pairs ∨ (b.preRun c f).1 ≠ 0#64) ∧
      ((b.preRun c f).1.toInt < 0 ∨ NoneHidden .post pairs ∨ (b.postRun c f).1 ≠ 0#64) := by
  obtain ⟨pre', hpre, hpreNil⟩ := specified_eq_append .pre 0 pairs (stale ++ [0]) h.nonNull
  obtain ⟨post', hpost, hpostNil⟩ := specified_eq_append .post 0 pairs (stale ++ [0]) h.nonNull
  have hfirst := hruns.first
  have hsecond := hruns.second
  have hevents := hruns.events
  rw [h.entries] at hfirst hsecond
  have hcorrect : Correct b c pairs f ↔ Dispatches 0#64 (fun control => control.toInt < 0)
      ((specified .pre 0 pairs).map Entry.callee) ((specified .post 0 pairs).map Entry.callee)
      (if (b.preRun c f).1.toInt < 0 then calls cs else calls cs ++ .original :: calls ds) := by
    refine ⟨?_, fun hd => ⟨_, f', hruns.reaches, hevents, hruns.returned, hd⟩⟩
    rintro ⟨events, f'', hr, hcalls, -, hd⟩
    obtain rfl := hr.ret_unique hruns.reaches
    rwa [List.append_cancel_left (hcalls.symm.trans hevents)] at hd
  rw [hcorrect, hpre, hpost, List.map_append, List.map_append, ← hpreNil, ← hpostNil,
    ← List.map_eq_nil_iff (f := Entry.callee) (l := pre'),
    ← List.map_eq_nil_iff (f := Entry.callee) (l := post')]
  by_cases hneg : (b.preRun c f).1.toInt < 0
  · rw [if_pos hneg, dispatches_intercepted_iff hfirst hneg]
    simp only [hneg, true_or, and_true]
  · rw [if_neg hneg, dispatches_performed_iff hfirst hneg hsecond]
    simp only [hneg, false_or]

/-- The handler dispatches as the types of its table say exactly when, in each phase that runs, no
hook of the phase stands behind the first disabled entry, or a hook in front of it ended the
phase. -/
theorem handler_correct_iff {W : Type} (b : Behaviour W) (c : Clone)
    (pairs : List (Address × HookType)) (stale : List ℤ) (f : Frame W) (h : Holds c pairs stale) :
    Correct b c pairs f ↔ (NoneHidden .pre pairs ∨ (b.preRun c f).1 ≠ 0#64) ∧
      ((b.preRun c f).1.toInt < 0 ∨ NoneHidden .post pairs ∨ (b.postRun c f).1 ≠ 0#64) := by
  obtain ⟨f', cs, ds, hruns⟩ := handler_runs b c f h.length h.zero_mem
  exact hruns.correct_iff h

/-- The first hook returns `RETURN`. -/
def returning : Behaviour Unit where
  specific _ _ _ _ s := (0#64, s)
  generic hook _ _ _ _ s := (if hook = 1 then -1#64 else 0#64, s)
  original _ s := (s.returns, s)

theorem handler_correct_in_front :
    Correct returning (smallClone [(1, .genericPre), (2, .disabled), (3, .genericPre)])
        [(1, .genericPre), (2, .disabled), (3, .genericPre)] entered ∧
      Correct quiet (smallClone [(1, .pre), (2, .genericPost), (3, .disabled)])
        [(1, .pre), (2, .genericPost), (3, .disabled)] entered :=
  ⟨(handler_correct_iff returning _ _ _ entered (holds_smallClone _ (by decide))).mpr (by decide),
    (handler_correct_iff quiet _ _ _ entered (holds_smallClone _ (by decide))).mpr (by decide)⟩

/-- Behind a disabled hook a hook that goes on is not called at all. -/
theorem disabled_hook_ends_table :
    Holds (smallClone [(1, .disabled), (2, .genericPre)]) [(1, .disabled), (2, .genericPre)]
      (List.replicate 5 0) ∧
    (∃ f', Reaches quiet (smallClone [(1, .disabled), (2, .genericPre)]) (.handler, entered)
      (.ret, f') ∧ f'.calls = [.original]) ∧
    ¬Correct quiet (smallClone [(1, .disabled), (2, .genericPre)])
      [(1, .disabled), (2, .genericPre)]
      entered := by
  have h := holds_smallClone [(1, .disabled), (2, .genericPre)] (by decide)
  refine ⟨h, ?_, ?_⟩
  · obtain ⟨calls, f', hr, hcalls, -, hq, hd⟩ := handler_run quiet _ entered h.length h.zero_mem
    exact ⟨f', hr,
      hcalls.trans (hd.all_called
        (fun k control hm => returns_quiet (hq k control hm)) (by decide))⟩
  · obtain ⟨f', cs, ds, hruns⟩ := handler_runs quiet _ entered h.length h.zero_mem
    rw [hruns.correct_iff h]
    decide

end Ps4Sdk.FunctionHookHandler
