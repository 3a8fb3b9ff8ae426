import Ps4Sdk.StepRuns

/-!
# Interleaved programs

A program is a tree: a statement, and for each of its answers the program that follows.
Alone it runs statement by statement; several threads interleave their statements. What
a thread may rely on is a preorder of the shared states, and each of its own statements
must respect what the others rely on. A program keeps a discipline when it does so
whatever the others do in between.
-/

namespace Ps4Sdk.InterleavedPrograms
open StepRuns

inductive Program {A : Type} (R : A → Type) (α : Type) : Type
  | done (a : α)
  | statement (a : A) (next : R a → Program R α)

variable {A : Type} {R : A → Type} {S α β : Type}

def Program.bind (f : α → Program R β) : Program R α → Program R β
  | .done a => f a
  | .statement a next => .statement a (fun answer => (next answer).bind f)

instance : Monad (Program R) where
  pure := .done
  bind p f := p.bind f

def perform (a : A) : Program R (R a) := .statement a .done

private theorem statement_bind (a : A) (next : R a → Program R α) (f : α → Program R β) :
    (Program.statement a next >>= f) = .statement a (fun answer => next answer >>= f) := rfl

theorem bind_done (p : Program R α) : (p >>= .done) = p := by
  induction p with
  | done a => rfl
  | statement a next ih =>
    rw [statement_bind]
    congr 1
    funext answer
    exact ih answer

theorem bind_bind {γ : Type} (p : Program R α) (f : α → Program R β) (g : β → Program R γ) :
    (p >>= f >>= g) = p >>= fun a => f a >>= g := by
  induction p with
  | done a => rfl
  | statement a next ih =>
    rw [statement_bind, statement_bind, statement_bind]
    congr 1
    funext answer
    exact ih answer

instance : LawfulMonad (Program R) :=
  LawfulMonad.mk' (m := Program R) bind_done (fun _ _ => rfl) bind_bind

/-! ### A program alone -/

/-- The result and the state, unless a statement cannot be performed. -/
def run (step : (a : A) → S → Option (R a × S)) : Program R α → S → Option (α × S)
  | .done a, s => some (a, s)
  | .statement a next, s =>
    match step a s with
    | some (answer, s) => run step (next answer) s
    | none => none

@[simp] theorem run_pure (step : (a : A) → S → Option (R a × S)) (a : α) (s : S) :
    run step (pure a) s = some (a, s) := rfl

theorem run_perform (step : (a : A) → S → Option (R a × S)) (a : A) (s : S) :
    run step (perform a) s = step a s := by
  rw [perform, run]
  cases step a s with
  | none => rfl
  | some r => rfl

theorem run_bind (step : (a : A) → S → Option (R a × S)) (p : Program R α)
    (f : α → Program R β) (s : S) :
    run step (p >>= f) s = (run step p s).bind (fun r => run step (f r.1) r.2) := by
  induction p generalizing s with
  | done a => rfl
  | statement a next ih =>
    rw [statement_bind, run, run]
    cases step a s with
    | none => rfl
    | some r => exact ih r.1 r.2

/-! ### Threads -/

structure Threads (R : A → Type) (S α : Type) where
  shared : S
  program : ℕ → Program R α

/-- A thread performs its next statement. -/
inductive Step (step : ℕ → (a : A) → S → Option (R a × S)) : Threads R S α → ℕ → Threads R S α →
    Prop
  | statement {c : Threads R S α} {i : ℕ} {a : A} {next : R a → Program R α} {answer : R a} {s : S}
      (current : c.program i = .statement a next) (h : step i a c.shared = some (answer, s)) :
      Step step c i ⟨s, Function.update c.program i (next answer)⟩

/-- The threads after the next statement of one of them. -/
def Threads.next (step : ℕ → (a : A) → S → Option (R a × S)) (c : Threads R S α) (i : ℕ) :
    Option (Threads R S α) :=
  match c.program i with
  | .done _ => none
  | .statement a next =>
    (step i a c.shared).map (fun r => ⟨r.2, Function.update c.program i (next r.1)⟩)

theorem Threads.next_step {step : ℕ → (a : A) → S → Option (R a × S)} {c c' : Threads R S α} {i : ℕ}
    (h : c.next step i = some c') : Step step c i c' := by
  unfold Threads.next at h
  cases hp : c.program i with
  | done a =>
    rw [hp] at h
    cases h
  | statement a next =>
    simp only [hp] at h
    obtain ⟨r, hr, rfl⟩ := Option.map_eq_some_iff.mp h
    exact .statement hp hr

def Threads.schedule (step : ℕ → (a : A) → S → Option (R a × S)) (c : Threads R S α) :
    List ℕ → Option (Threads R S α)
  | [] => some c
  | i :: threads => (c.next step i).bind (fun c => c.schedule step threads)

theorem Threads.schedule_run {step : ℕ → (a : A) → S → Option (R a × S)} {c c' : Threads R S α}
    {threads : List ℕ} (h : c.schedule step threads = some c') : Run (Step step) c threads c' := by
  induction threads generalizing c with
  | nil =>
    cases h
    exact .nil _
  | cons i threads ih =>
    obtain ⟨c₁, hc, hrest⟩ := Option.bind_eq_some_iff.mp h
    exact .cons (next_step hc) (ih hrest)

/-- The threads from whose next statements nothing bad follows. -/
def Safe (safe : ℕ → A → S → Prop) (c : Threads R S α) : Prop :=
  ∀ i a next, c.program i = .statement a next → safe i a c.shared

/-- The threads whose next statements meet the condition. -/
def Allowed (allowed : ℕ → A → S → Prop) (c : Threads R S α) (i : ℕ) : Prop :=
  ∀ a next, c.program i = .statement a next → allowed i a c.shared

/-- A schedule of statements that are tested for the condition. -/
theorem Threads.schedule_guarded {step : ℕ → (a : A) → S → Option (R a × S)}
    {allowed : ℕ → A → S → Prop} [∀ i a s, Decidable (allowed i a s)] {c c' : Threads R S α}
    {threads : List ℕ}
    (h : c.schedule (fun i a s => if allowed i a s then step i a s else none) threads = some c') :
    Run (Guarded (Allowed allowed) (Step step)) c threads c' := by
  have hguarded : ∀ c i c', Step (fun i a s => if allowed i a s then step i a s else none) c i c' →
      Guarded (Allowed allowed) (Step step) (c : Threads R S α) (id i) c' := by
    rintro c i _ ⟨current, hstep⟩
    split at hstep
    case isTrue ha =>
      refine ⟨fun a next hn => ?_, .statement current hstep⟩
      cases current.symm.trans hn
      exact ha
    case isFalse => cases hstep
  have hrun := (schedule_run h).map id hguarded
  rwa [List.map_id] at hrun

/-! ### Keeping a discipline -/

/-- An invariant, what each thread relies on, and which statements are safe and allowed. -/
structure Discipline (A S : Type) where
  invariant : S → Prop
  rely : ℕ → S → S → Prop
  refl : ∀ i s, rely i s s
  trans : ∀ i s t u, rely i s t → rely i t u → rely i s u
  safe : ℕ → A → S → Prop
  allowed : ℕ → A → S → Prop

variable (D : Discipline A S) (step : ℕ → (a : A) → S → Option (R a × S)) (i : ℕ)

/-- What the statement does keeps the invariant and what the others rely on. -/
def Respects (s s' : S) : Prop := D.invariant s' ∧ ∀ j, j ≠ i → D.rely j s s'

/-- Whatever the others do meanwhile, each statement of the program is safe and respects them, and
the program ends in the postcondition. -/
def Keeps (post : α → S → Prop) : Program R α → S → Prop
  | .done a, s => post a s
  | .statement a next, s => ∀ s₁, D.rely i s s₁ → D.invariant s₁ → D.safe i a s₁ ∧
      (D.allowed i a s₁ → ∀ answer s₂, step i a s₁ = some (answer, s₂) →
        Respects D i s₁ s₂ ∧ Keeps post (next answer) s₂)

def Stable (P : S → Prop) : Prop := ∀ s s', D.invariant s' → D.rely i s s' → P s → P s'

def Triple (P : S → Prop) (p : Program R α) (Q : α → S → Prop) : Prop :=
  ∀ s, D.invariant s → P s → Keeps D step i Q p s

variable {D step i}

theorem Keeps.bind {f : α → Program R β} {post : β → S → Prop} {p : Program R α} {s : S}
    (h : Keeps D step i (fun a s => Keeps D step i post (f a) s) p s) :
    Keeps D step i post (p >>= f) s := by
  induction p generalizing s with
  | done a => exact h
  | statement a next ih =>
    intro s₁ hrely hinvariant
    obtain ⟨hsafe, hnext⟩ := h s₁ hrely hinvariant
    refine ⟨hsafe, fun hallowed answer s₂ hstep => ?_⟩
    obtain ⟨hrespects, hkeeps⟩ := hnext hallowed answer s₂ hstep
    exact ⟨hrespects, ih answer hkeeps⟩

theorem Keeps.mono {post post' : α → S → Prop} {p : Program R α} {s : S}
    (hp : ∀ a s, D.invariant s → post a s → post' a s) (hi : D.invariant s)
    (h : Keeps D step i post p s) :
    Keeps D step i post' p s := by
  induction p generalizing s with
  | done a => exact hp a s hi h
  | statement a next ih =>
    intro s₁ hrely hinvariant
    obtain ⟨hsafe, hnext⟩ := h s₁ hrely hinvariant
    refine ⟨hsafe, fun hallowed answer s₂ hstep => ?_⟩
    obtain ⟨hrespects, hkeeps⟩ := hnext hallowed answer s₂ hstep
    exact ⟨hrespects, ih answer hrespects.1 hkeeps⟩

theorem Keeps.rely {p : Program R α} {s s' : S} (h : Keeps D step i (fun _ _ => True) p s)
    (hr : D.rely i s s') : Keeps D step i (fun _ _ => True) p s' := by
  cases p with
  | done a => trivial
  | statement a next =>
    intro s₁ hrely
    exact h s₁ (D.trans i s s' s₁ hr hrely)

/-! ### The rules -/

theorem Triple.bind {P : S → Prop} {p : Program R α} {f : α → Program R β} {M : α → S → Prop}
    {Q : β → S → Prop} (hp : Triple D step i P p M) (hf : ∀ a, Triple D step i (M a) (f a) Q) :
    Triple D step i P (p >>= f) Q := by
  intro s hinvariant hs
  exact (Keeps.mono (fun a s hi hm => hf a s hi hm) hinvariant (hp s hinvariant hs)).bind

theorem Triple.weaken {P P' : S → Prop} {p : Program R α} {Q Q' : α → S → Prop}
    (h : Triple D step i P p Q) (hP : ∀ s, D.invariant s → P' s → P s)
    (hQ : ∀ a s, D.invariant s → Q a s → Q' a s) :
    Triple D step i P' p Q' := by
  intro s hinvariant hs
  exact (h s hinvariant (hP s hinvariant hs)).mono hQ hinvariant

/-- What every thread relies on is also kept by the thread itself. -/
theorem Keeps.frame {F : S → Prop} (hF : ∀ j s s', D.invariant s' → D.rely j s s' → F s → F s')
    {post : α → S → Prop} {p : Program R α} {s : S} (h : Keeps D step i post p s) (hs : F s) :
    Keeps D step i (fun a s => post a s ∧ F s) p s := by
  induction p generalizing s with
  | done a => exact ⟨h, hs⟩
  | statement a next ih =>
    intro s₁ hrely hinvariant
    obtain ⟨hsafe, hnext⟩ := h s₁ hrely hinvariant
    refine ⟨hsafe, fun hallowed answer s₂ hstep => ?_⟩
    obtain ⟨hrespects, hkeeps⟩ := hnext hallowed answer s₂ hstep
    refine ⟨hrespects, ih answer hkeeps ?_⟩
    exact hF (i + 1) s₁ s₂ hrespects.1 (hrespects.2 (i + 1) (Nat.succ_ne_self i))
      (hF i s s₁ hinvariant hrely hs)

theorem Triple.frame {P F : S → Prop} {p : Program R α} {Q : α → S → Prop}
    (hF : ∀ j s s', D.invariant s' → D.rely j s s' → F s → F s') (h : Triple D step i P p Q) :
    Triple D step i (fun s => P s ∧ F s) p (fun a s => Q a s ∧ F s) :=
  fun s hinvariant hs => (h s hinvariant hs.1).frame hF hs.2

theorem Triple.perform {P : S → Prop} {a : A} {Q : R a → S → Prop} (hstable : Stable D i P)
    (h : ∀ s, D.invariant s → P s → D.safe i a s ∧
      (D.allowed i a s → ∀ answer s', step i a s = some (answer, s') → Respects D i s s' ∧
        Q answer s')) :
    Triple D step i P (perform a) Q := by
  intro s _ hs s₁ hrely hinvariant
  exact h s₁ hinvariant (hstable s s₁ hinvariant hrely hs)

/-- The invariant holds and every thread keeps the discipline with what is left of its program. -/
def Kept (D : Discipline A S) (step : ℕ → (a : A) → S → Option (R a × S))
    (c : Threads R S α) : Prop :=
  D.invariant c.shared ∧ ∀ i, Keeps D step i (fun _ _ => True) (c.program i) c.shared

theorem Kept.next {c c' : Threads R S α} (h : Kept D step c)
    (hstep : Guarded (Allowed D.allowed) (Step step) c i c') : Kept D step c' := by
  obtain ⟨hi, hk⟩ := h
  obtain ⟨hallowed, hstep⟩ := hstep
  cases hstep with
  | statement current hs =>
    have hnext := hk i
    rw [current] at hnext
    obtain ⟨⟨hinvariant, hothers⟩, hkeeps⟩ :=
      (hnext c.shared (D.refl i c.shared) hi).2 (hallowed _ _ current) _ _ hs
    refine ⟨hinvariant, fun j => ?_⟩
    by_cases hj : j = i
    · subst hj
      simpa using hkeeps
    · simpa [Function.update_of_ne hj] using (hk j).rely (hothers j hj)

theorem Kept.safe {c : Threads R S α} (h : Kept D step c) : Safe D.safe c := by
  intro i a next hp
  have hnext := h.2 i
  rw [hp] at hnext
  exact (hnext c.shared (D.refl i c.shared) h.1).1

theorem Kept.run {c c' : Threads R S α} {threads : List ℕ} (h : Kept D step c)
    (run : Run (Guarded (Allowed D.allowed) (Step step)) c threads c') : Kept D step c' :=
  run.invariant (fun _ _ _ h hstep => Kept.next h hstep) h

end Ps4Sdk.InterleavedPrograms
