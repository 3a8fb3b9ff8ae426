import Mathlib.Logic.Function.Basic
import Mathlib.Data.Nat.Notation
import Mathlib.Tactic.SplitIfs

/-!
# Objects with names

A name leads to at most one object, and an object has at most one name. To open a name
that leads nowhere creates an object. Without its name an object is removed: whoever has
it open keeps it, but nobody can open it again.
-/

namespace Ps4Sdk.NamedObjects

universe u v

variable {κ : Type u} {β : Type v}

structure Objects (κ : Type u) (β : Type v) where
  object : κ → Option ℕ
  content : ℕ → β
  next : ℕ
  injective : ∀ {k k' : κ} {o : ℕ}, object k = some o → object k' = some o → k = k'
  created : ∀ {k : κ} {o : ℕ}, object k = some o → o < next

namespace Objects

def empty (b : β) : Objects κ β := ⟨fun _ => none, fun _ => b, 0, by simp, by simp⟩

def set (s : Objects κ β) (o : ℕ) (b : β) : Objects κ β :=
  { s with content := Function.update s.content o b }

def Named (s : Objects κ β) (o : ℕ) : Prop := ∃ k, s.object k = some o

def Removes (s s' : Objects κ β) (o : ℕ) : Prop := s.Named o ∧ ¬s'.Named o

variable {s : Objects κ β} {k k' : κ} {b : β} {o : ℕ}

theorem Named.created (h : s.Named o) : o < s.next := by
  obtain ⟨k, hk⟩ := h
  exact s.created hk

@[simp] theorem object_set : (s.set o b).object = s.object := rfl

@[simp] theorem next_set : (s.set o b).next = s.next := rfl

variable [DecidableEq κ]

def create (s : Objects κ β) (k : κ) (b : β) : Objects κ β where
  object := Function.update s.object k (some s.next)
  content := Function.update s.content s.next b
  next := s.next + 1
  injective := by
    intro k₁ k₂ o h₁ h₂
    rw [Function.update_apply] at h₁ h₂
    split_ifs at h₁ h₂ with e₁ e₂ e₂
    · rw [e₁, e₂]
    · have hlt := s.created h₂
      have heq := Option.some.inj h₁
      omega
    · have hlt := s.created h₁
      have heq := Option.some.inj h₂
      omega
    · exact s.injective h₁ h₂
  created := by
    intro k' o h
    rw [Function.update_apply] at h
    split_ifs at h
    · have heq := Option.some.inj h
      omega
    · have hlt := s.created h
      omega

/-- The object of a name, created with the content if there is none. -/
def opened (s : Objects κ β) (k : κ) (b : β) : ℕ × Objects κ β :=
  match s.object k with
  | some o => (o, s)
  | none => (s.next, s.create k b)

def remove (s : Objects κ β) (k : κ) : Objects κ β where
  object := Function.update s.object k none
  content := s.content
  next := s.next
  injective := by
    intro k₁ k₂ o h₁ h₂
    rw [Function.update_apply] at h₁ h₂
    split_ifs at h₁ h₂
    exact s.injective h₁ h₂
  created := by
    intro k' o h
    rw [Function.update_apply] at h
    split_ifs at h
    exact s.created h

private theorem object_remove_of_ne (h : k' ≠ k) : (s.remove k).object k' = s.object k' :=
  Function.update_of_ne h _ _

@[simp] theorem content_remove : (s.remove k).content = s.content := rfl

theorem named_remove : (s.remove k).Named o ↔ s.Named o ∧ s.object k ≠ some o := by
  constructor
  · rintro ⟨k', h⟩
    have hne : k' ≠ k := by
      rintro rfl
      exact Option.some_ne_none o (h.symm.trans (Function.update_self ..))
    rw [object_remove_of_ne hne] at h
    exact ⟨⟨k', h⟩, fun hk => hne (s.injective h hk)⟩
  · rintro ⟨⟨k', h⟩, hk⟩
    refine ⟨k', ?_⟩
    have hne : k' ≠ k := by
      rintro rfl
      exact hk h
    rw [object_remove_of_ne hne, h]

theorem removes_remove : Removes s (s.remove k) o ↔ s.object k = some o := by
  rw [Removes, named_remove]
  constructor
  · rintro ⟨h, hn⟩
    exact by_contra fun hk => hn ⟨h, hk⟩
  · exact fun h => ⟨⟨k, h⟩, fun hn => hn.2 h⟩

theorem opened_of_some (h : s.object k = some o) : s.opened k b = (o, s) := by rw [opened, h]

private theorem opened_of_none (h : s.object k = none) :
    s.opened k b = (s.next, s.create k b) := by rw [opened, h]

theorem object_opened_iff (ho : o < s.next) : (s.opened k b).2.object k' = some o ↔
    s.object k' = some o := by
  cases h : s.object k with
  | some _ => rw [opened_of_some h]
  | none =>
    rw [opened_of_none h]
    change Function.update s.object k (some s.next) k' = some o ↔ _
    rw [Function.update_apply]
    split_ifs with he
    · rw [he, h]
      simp only [Option.some.injEq, reduceCtorEq, iff_false]
      omega
    · exact Iff.rfl

theorem named_opened_iff (ho : o < s.next) : (s.opened k b).2.Named o ↔ s.Named o :=
  exists_congr fun _ => object_opened_iff ho

theorem content_opened (ho : o < s.next) : (s.opened k b).2.content o = s.content o := by
  cases h : s.object k with
  | some _ => rw [opened_of_some h]
  | none =>
    rw [opened_of_none h]
    exact Function.update_of_ne (by omega) ..

theorem content_opened_self :
    (s.opened k b).2.content (s.opened k b).1 = (s.object k).elim b s.content := by
  cases h : s.object k with
  | some o => rw [opened_of_some h]; rfl
  | none =>
    rw [opened_of_none h]
    exact Function.update_self ..

theorem opened_lt_iff : (s.opened k b).1 < s.next ↔ s.object k = some (s.opened k b).1 := by
  cases h : s.object k with
  | some o =>
    rw [opened_of_some h]
    exact iff_of_true (s.created h) rfl
  | none => simp [opened_of_none h]

end Objects

end Ps4Sdk.NamedObjects
