import Mathlib.Tactic.Common

/-!
# Calls that may not return, and functions with a handler

A call that returns does so through the calls it is made of. The body of a function
with a handler can be left in three ways: at once, through its last part, or through
its clean-up and then its last part. A triple says what holds when the body goes on
and what holds when it is left.
-/

namespace Ps4Sdk.FallibleCalls

universe u

section

variable {ε α β : Type u}

theorem bind_eq_ok {x : Except ε α} {f : α → Except ε β} {r : β} :
    (x >>= f) = .ok r ↔ ∃ a, x = .ok a ∧ f a = .ok r := by
  cases x with
  | error fault => simp [Bind.bind, Except.bind]
  | ok a => simp [Bind.bind, Except.bind]

end

/-- The codes of a call that is evaluated again to return its error. -/
structure Evaluations (γ : Type) where
  first : γ
  second : γ
  deriving DecidableEq

inductive Exit (γ : Type)
  | leave (code : γ)
  | finish (code : γ)
  | throw (code : γ)
  deriving DecidableEq

def Body (ε σ γ α : Type) : Type := σ → Except ε (Except (Exit γ) α × σ)

variable {ε σ γ α β : Type}

def Body.bind (x : Body ε σ γ α) (f : α → Body ε σ γ β) : Body ε σ γ β := fun s =>
  match x s with
  | .error fault => .error fault
  | .ok (.error exit, s) => .ok (.error exit, s)
  | .ok (.ok a, s) => f a s

instance : Monad (Body ε σ γ) where
  pure a s := .ok (.ok a, s)
  bind := Body.bind

def modify (f : σ → σ) : Body ε σ γ Unit := fun s => .ok (.ok (), f s)

def attempt (f : σ → Except ε σ) : Body ε σ γ Unit := fun s =>
  match f s with
  | .error fault => .error fault
  | .ok s => .ok (.ok (), s)

def read (f : σ → α) : Body ε σ γ α := fun s => .ok (.ok (f s), s)

def exit (e : Exit γ) : Body ε σ γ α := fun s => .ok (.error e, s)

def exitIf (e : Exit γ) (p : σ → Bool) : Body ε σ γ Unit := fun s =>
  if p s then .ok (.error e, s) else .ok (.ok (), s)

def Exit.outcome (catching finalizing : σ → σ) : Exit γ → σ → γ × σ
  | .leave code, s => (code, s)
  | .finish code, s => (code, finalizing s)
  | .throw code, s => (code, finalizing (catching s))

def handled (catching finalizing : σ → σ) (body : Body ε σ γ Empty) (s : σ) : Except ε (γ × σ) :=
  match body s with
  | .error fault => .error fault
  | .ok (.ok a, _) => a.elim
  | .ok (.error e, s) => .ok (e.outcome catching finalizing s)

/-! ### Running a body -/

section

variable {s s' : σ} {x : Body ε σ γ α} {f : α → Body ε σ γ β} {e : Exit γ}
  {catching finalizing : σ → σ}

theorem bind_ok {a : α} (h : x s = .ok (.ok a, s')) : (x >>= f) s = f a s' := by
  change Body.bind x f s = _
  rw [Body.bind, h]

theorem bind_exit (h : x s = .ok (.error e, s')) : (x >>= f) s = .ok (.error e, s') := by
  change Body.bind x f s = _
  rw [Body.bind, h]

theorem bind_stop {fault : ε} (h : x s = .error fault) : (x >>= f) s = .error fault := by
  change Body.bind x f s = _
  rw [Body.bind, h]

theorem modify_bind (g : σ → σ) (f : Unit → Body ε σ γ β) (s : σ) :
    (modify g >>= f) s = f () (g s) := rfl

theorem exitIf_bind (p : σ → Bool) (f : Unit → Body ε σ γ β) (s : σ) :
    (exitIf e p >>= f) s = if p s then .ok (.error e, s) else f () s := by
  change Body.bind (exitIf e p) f s = _
  unfold Body.bind exitIf
  cases p s <;> rfl

theorem handled_exit {body : Body ε σ γ Empty} (h : body s = .ok (.error e, s')) :
    handled catching finalizing body s = .ok (e.outcome catching finalizing s') := by
  rw [handled, h]

theorem handled_congr {body body' : Body ε σ γ Empty} (h : body s = body' s') :
    handled catching finalizing body s = handled catching finalizing body' s' := by
  rw [handled, handled, h]

end

/-! ### Triples -/

/-- From the precondition, the part returns: it goes on to the postcondition or is left as the
exits say. -/
def Triple (P : σ → Prop) (x : Body ε σ γ α) (Q : α → σ → Prop) (E : Exit γ → σ → Prop) : Prop :=
  ∀ s, P s → (∃ a s', x s = .ok (.ok a, s') ∧ Q a s') ∨ ∃ e s', x s = .ok (.error e, s') ∧ E e s'

variable {P : σ → Prop} {Q : α → σ → Prop} {R : β → σ → Prop} {E : Exit γ → σ → Prop}

theorem Triple.bind {x : Body ε σ γ α} {f : α → Body ε σ γ β} (hx : Triple P x Q E)
    (hf : ∀ a, Triple (Q a) (f a) R E) : Triple P (x >>= f) R E := by
  intro s hs
  rcases hx s hs with ⟨a, s', hr, hq⟩ | ⟨e, s', hr, he⟩
  · rw [bind_ok hr]
    exact hf a s' hq
  · exact .inr ⟨e, s', bind_exit hr, he⟩

theorem Triple.given {p : Prop} {x : Body ε σ γ α} (h : p → Triple P x Q E) :
    Triple (fun s => P s ∧ p) x Q E :=
  fun s hs => h hs.2 s hs.1

theorem Triple.modify {f : σ → σ} {Q : Unit → σ → Prop} (h : ∀ s, P s → Q () (f s)) :
    Triple P (modify f : Body ε σ γ Unit) Q E :=
  fun s hs => .inl ⟨(), f s, rfl, h s hs⟩

theorem Triple.exit {e : Exit γ} (h : ∀ s, P s → E e s) : Triple P (exit e : Body ε σ γ α) Q E :=
  fun s hs => .inr ⟨e, s, rfl, h s hs⟩

theorem Triple.exitIf {e : Exit γ} {p : σ → Bool} {Q : Unit → σ → Prop}
    (hexit : ∀ s, P s → p s = true → E e s) (hgo : ∀ s, P s → p s = false → Q () s) :
    Triple P (exitIf e p : Body ε σ γ Unit) Q E := by
  intro s hs
  cases hp : p s with
  | true => exact .inr ⟨e, s, by simp [FallibleCalls.exitIf, hp], hexit s hs hp⟩
  | false => exact .inl ⟨(), s, by simp [FallibleCalls.exitIf, hp], hgo s hs hp⟩

theorem Triple.handled {catching finalizing : σ → σ} {body : Body ε σ γ Empty}
    {Q : Empty → σ → Prop} {post : γ → σ → Prop}
    (h : Triple P body Q fun e s => post (e.outcome catching finalizing s).1
      (e.outcome catching finalizing s).2)
    {s : σ} (hs : P s) :
    ∃ code s', FallibleCalls.handled catching finalizing body s = .ok (code, s') ∧
    post code s' := by
  rcases h s hs with ⟨a, _⟩ | ⟨e, s', hr, he⟩
  · exact a.elim
  · exact ⟨_, _, handled_exit hr, he⟩

end Ps4Sdk.FallibleCalls
