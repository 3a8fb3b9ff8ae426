import Ps4Sdk.InterleavedPrograms

/-!
# Stages of programs

The statements of a program lead it from stage to stage. Which stage follows depends on the
statement and its answer only, so a thread is at a stage whatever the others do. Threads
call such programs again and again; what one statement does to its stage and to the shared
state is all that an invariant of the threads has to consider.
-/

namespace Ps4Sdk.ProgramStages
open StepRuns InterleavedPrograms

variable {A : Type} {R : A → Type} {S T C α β : Type}

/-- Every statement has a next stage, and the result fits the last one. -/
def Follows (advance : T → (a : A) → R a → Option T) (final : T → α → Prop) : T → Program R α → Prop
  | t, .done a => final t a
  | t, .statement a next =>
    ∀ answer, ∃ t', advance t a answer = some t' ∧ Follows advance final t' (next answer)

section

variable {advance : T → (a : A) → R a → Option T} {t : T}

theorem Follows.bind {f : α → Program R β} {final : T → β → Prop} {p : Program R α}
    (h : Follows advance (fun t a => Follows advance final t (f a)) t p) :
    Follows advance final t (p >>= f) := by
  induction p generalizing t with
  | done a => exact h
  | statement a next ih =>
    intro answer
    obtain ⟨t', ht, hnext⟩ := h answer
    exact ⟨t', ht, ih answer hnext⟩

/-- The stage at which a program returns is one that can be reached from its first stage. -/
theorem Follows.returns {final : T → α → Prop} {K : T → Prop}
    {step : (a : A) → S → Option (R a × S)} (hK : ∀ t a answer t', K t →
      advance t a answer = some t' → K t') {p : Program R α} {s s' : S} {r : α}
    (h : Follows advance final t p) (ht : K t) (hrun : run step p s = some (r, s')) : ∃ t', K t' ∧
    final t' r := by
  induction p generalizing s t with
  | done a =>
    obtain ⟨rfl, -⟩ := Prod.mk.inj (Option.some.inj hrun)
    exact ⟨t, ht, h⟩
  | statement a next ih =>
    rw [run] at hrun
    cases hs : step a s with
    | none => simp [hs] at hrun
    | some answer =>
      simp only [hs] at hrun
      obtain ⟨t', hadvance, hnext⟩ := h answer.1
      exact ih answer.1 hnext (hK t a answer.1 t' ht hadvance) hrun

end

/-- A program returns if each of its statements can be performed in the states that the others
leave. -/
theorem run_returns {step : (a : A) → S → Option (R a × S)} {I : S → Prop}
    (hstep : ∀ a s, I s → ∃ answer, step a s = some answer ∧ I answer.2) (p : Program R α)
    {s : S} (hs : I s) :
    ∃ r s', run step p s = some (r, s') := by
  induction p generalizing s with
  | done a => exact ⟨a, s, rfl⟩
  | statement a next ih =>
    obtain ⟨answer, hanswer, hi⟩ := hstep a s hs
    obtain ⟨r, s', hrun⟩ := ih answer.1 hi
    refine ⟨r, s', ?_⟩
    rw [run, hanswer]
    exact hrun

/-! ### Threads that call programs -/

inductive Event (C : Type)
  | call (i : ℕ) (k : C)
  | perform (i : ℕ)

/-- A thread that has returned calls a program; or a thread performs its next statement. -/
inductive Serves (program : C → Program R α) (step : ℕ → (a : A) → S → Option (R a × S)) :
    Threads R S α → Event C → Threads R S α → Prop
  | call {c : Threads R S α} {i : ℕ} {k : C} {r : α} (idle : c.program i = .done r) :
      Serves program step c (.call i k) ⟨c.shared, Function.update c.program i (program k)⟩
  | perform {c c' : Threads R S α} {i : ℕ} (h : Step step c i c') :
      Serves program step c (.perform i) c'

def Idle (c : Threads R S α) : Prop := ∀ i, ∃ r, c.program i = .done r

theorem Idle.update {c : Threads R S α} (h : Idle c) (s : S) (i : ℕ) (r : α) :
    Idle ⟨s, Function.update c.program i (.done r)⟩ := by
  intro j
  by_cases hj : j = i
  · subst hj
    exact ⟨r, Function.update_self ..⟩
  · obtain ⟨r', hr'⟩ := h j
    exact ⟨r', (Function.update_of_ne hj ..).trans hr'⟩

variable {program : C → Program R α} {step : ℕ → (a : A) → S → Option (R a × S)}
  {c c' : Threads R S α} {i : ℕ}

def serve (program : C → Program R α) (step : ℕ → (a : A) → S → Option (R a × S))
    (c : Threads R S α) :
    Event C → Option (Threads R S α)
  | .call i k =>
    match c.program i with
    | .done _ => some ⟨c.shared, Function.update c.program i (program k)⟩
    | .statement .. => none
  | .perform i => c.next step i

theorem serve_serves {e : Event C} (h : serve program step c e = some c') :
    Serves program step c e c' := by
  cases e with
  | call i k =>
    rw [serve] at h
    cases hp : c.program i with
    | done r =>
      simp only [hp, Option.some.injEq] at h
      rw [← h]
      exact .call hp
    | statement a next => simp [hp] at h
  | perform i => exact .perform (Threads.next_step h)

def serveAll (program : C → Program R α) (step : ℕ → (a : A) → S → Option (R a × S))
    (c : Threads R S α) :
    List (Event C) → Option (Threads R S α)
  | [] => some c
  | e :: es => (serve program step c e).bind (fun c => serveAll program step c es)

theorem serveAll_run {es : List (Event C)} (h : serveAll program step c es = some c') :
    Run (Serves program step) c es c' := by
  induction es generalizing c with
  | nil =>
    cases h
    exact .nil _
  | cons e es ih =>
    obtain ⟨c₁, hc, hrest⟩ := Option.bind_eq_some_iff.mp h
    exact .cons (serve_serves hc) (ih hrest)

/-- A thread whose program returns when it runs alone can do so between the others, if nothing that
they have ahead of them forbids it. -/
theorem run_alone (program : C → Program R α) (step : ℕ → (a : A) → S → Option (R a × S))
    (guard : Threads R S α → Event C → Prop) (i : ℕ) (programs : ℕ → Program R α)
    {p : Program R α} {r : α}
    {s s' : S} (h : run (step i) p s = some (r, s'))
    (allowed : ∀ p s, guard ⟨s, Function.update programs i p⟩ (.perform i)) :
    ∃ es, Run (Guarded guard (Serves program step)) ⟨s, Function.update programs i p⟩ es
      ⟨s', Function.update programs i (.done r)⟩ := by
  induction p generalizing s with
  | done a =>
    obtain ⟨rfl, rfl⟩ := Prod.mk.inj (Option.some.inj h)
    exact ⟨[], .nil _⟩
  | statement a next ih =>
    rw [run] at h
    cases hs : step i a s with
    | none => simp [hs] at h
    | some answer =>
      simp only [hs] at h
      obtain ⟨es, hrun⟩ := ih answer.1 h
      have hfirst : Step step ⟨s, Function.update programs i (.statement a next)⟩ i
          ⟨answer.2, Function.update programs i (next answer.1)⟩ := by
        have hstep : Step step ⟨s, Function.update programs i (.statement a next)⟩ i
            ⟨answer.2, Function.update (Function.update programs i (.statement a next)) i
              (next answer.1)⟩ :=
          .statement (Function.update_self ..) hs
        rwa [Function.update_idem] at hstep
      exact ⟨.perform i :: es, .cons ⟨allowed _ _, .perform hfirst⟩ hrun⟩

/-! ### Stages of threads -/

section

variable {advance : T → (a : A) → R a → Option T} {final : T → α → Prop} {stage : ℕ → T}

def AtStages (advance : T → (a : A) → R a → Option T) (final : T → α → Prop) (stage : ℕ → T)
    (c : Threads R S α) : Prop := ∀ i, Follows advance final (stage i) (c.program i)

theorem AtStages.update {s : S} {t : T} {p : Program R α} (h : AtStages advance final stage c)
    (hp : Follows advance final t p) :
    AtStages advance final (Function.update stage i t) ⟨s, Function.update c.program i p⟩ := by
  intro j
  by_cases hj : j = i
  · subst hj
    simpa using hp
  · simpa [Function.update_of_ne hj] using h j

/-- What a statement does: its answer gives the next stage of its thread. -/
theorem AtStages.perform (h : AtStages advance final stage c) (hs : Step step c i c') :
    ∃ a next answer t, c.program i = .statement a next ∧
    step i a c.shared = some (answer, c'.shared) ∧
      advance (stage i) a answer = some t ∧
      AtStages advance final (Function.update stage i t) c' := by
  cases hs with
  | statement current hstep =>
    have hi := h i
    rw [current] at hi
    obtain ⟨t, ht, hnext⟩ := hi _
    exact ⟨_, _, _, t, current, hstep, ht, h.update hnext⟩

theorem AtStages.result (h : AtStages advance final stage c) {r : α} (hr : c.program i = .done r) :
    final (stage i) r := by
  have hi := h i
  rwa [hr] at hi

end

end Ps4Sdk.ProgramStages
