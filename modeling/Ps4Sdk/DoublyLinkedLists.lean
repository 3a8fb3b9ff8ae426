import Mathlib.Data.List.Nodup
import Mathlib.Data.List.Perm.Basic
import Mathlib.Data.Nat.Notation
import Mathlib.Tactic.Common

/-!
# Doubly linked lists

The links are two functions on the nodes. A segment of linked nodes is entered from the node
in front of it and left to the node behind it; a whole list has neither. What an operation on
the links does to a list is said by what the new links are at each node, so that the rules
fit any way of storing them.
-/

namespace Ps4Sdk.DoublyLinkedLists

variable {P : Type*}

/-- The nodes are linked in this order, behind `before` and in front of `after`. -/
def Links (next prev : P → Option P) : Option P → List P → Option P → Prop
  | _, [], _ => True
  | before, p :: l, after => prev p = before ∧ next p = l.head?.or after ∧
      Links next prev (some p) l after

variable {next prev next' prev' : P → Option P} {before before' after after' : Option P}
  {l l₁ l₂ : List P} {p : P}

theorem Links.congr (hn : ∀ q ∈ l, next' q = next q) (hp : ∀ q ∈ l, prev' q = prev q)
    (h : Links next prev before l after) : Links next' prev' before l after := by
  induction l generalizing before with
  | nil => trivial
  | cons p l ih =>
    obtain ⟨hb, ha, ht⟩ := h
    refine ⟨(hp p List.mem_cons_self).trans hb, (hn p List.mem_cons_self).trans ha, ?_⟩
    exact ih (fun q hq => hn q (List.mem_cons_of_mem _ hq))
      (fun q hq => hp q (List.mem_cons_of_mem _ hq)) ht

theorem links_append : Links next prev before (l₁ ++ l₂) after ↔
    Links next prev before l₁ (l₂.head?.or after) ∧
    Links next prev (l₁.getLast?.or before) l₂ after := by
  induction l₁ generalizing before with
  | nil => simp [Links]
  | cons p l₁ ih =>
    have hfirst : ((l₁ ++ l₂).head?).or after = l₁.head?.or (l₂.head?.or after) := by
      cases l₁ <;> simp
    have hlast : (p :: l₁).getLast?.or before = l₁.getLast?.or (some p) := by
      cases l₁ with
      | nil => rfl
      | cons q l₁ => simp [List.getLast?_eq_some_getLast]
    rw [List.cons_append, Links, Links, ih, hfirst, hlast]
    tauto

theorem Links.left (h : Links next prev before (l₁ ++ l₂) after) :
    Links next prev before l₁ (l₂.head?.or after) := (links_append.mp h).1

theorem Links.right (h : Links next prev before (l₁ ++ l₂) after) :
    Links next prev (l₁.getLast?.or before) l₂ after := (links_append.mp h).2

theorem Links.node (h : Links next prev before (l₁ ++ p :: l₂) after) :
    prev p = l₁.getLast?.or before ∧ next p = l₂.head?.or after := ⟨h.right.1, h.right.2.1⟩

variable [DecidableEq P]

/-- The ends of a segment are led elsewhere, and the links inside of it stay. -/
theorem Links.reroute (h : Links next prev before l after) (hl : l.Nodup)
    (hn : ∀ q ∈ l, next' q = if l.getLast? = some q then after' else next q)
    (hp : ∀ q ∈ l, prev' q = if l.head? = some q then before' else prev q) :
    Links next' prev' before' l after' := by
  induction l generalizing before before' with
  | nil => trivial
  | cons p l ih =>
    obtain ⟨-, ha, ht⟩ := h
    obtain ⟨hpl, hl⟩ := List.nodup_cons.mp hl
    refine ⟨by rw [hp p List.mem_cons_self]; simp, ?_, ?_⟩
    · rw [hn p List.mem_cons_self]
      cases l with
      | nil => simp
      | cons q l =>
        have hlast : (p :: q :: l).getLast? ≠ some p := by
          rw [List.getLast?_cons_cons]
          exact fun he => hpl (List.mem_of_getLast? he)
        rw [if_neg hlast, ha]
        rfl
    · refine ih ht hl (fun q hq => ?_) (fun q hq => ?_)
      · have hlast : (p :: l).getLast? = l.getLast? := by
          cases l with
          | nil => simp at hq
          | cons r l => rw [List.getLast?_cons_cons]
        rw [hn q (List.mem_cons_of_mem _ hq), hlast]
      · have hne : p ≠ q := fun he => hpl (he ▸ hq)
        rw [hp q (List.mem_cons_of_mem _ hq), List.head?_cons, if_neg (by simpa using hne)]
        cases l with
        | nil => simp at hq
        | cons r l =>
          by_cases hr : r = q
          · rw [← hr, if_pos (by simp)]
            exact ht.1
          · rw [if_neg (by simpa using hr)]

theorem Links.push (h : Links next prev none l none) (hl : l.Nodup)
    (hfirst : next' p = l.head? ∧ prev' p = none) (hn : ∀ q ∈ l, next' q = next q)
    (hp : ∀ q ∈ l, prev' q = if l.head? = some q then some p else prev q) :
    Links next' prev' none (p :: l) none := by
  refine ⟨hfirst.2, by simp [hfirst.1], h.reroute hl (fun q hq => ?_) hp⟩
  rw [hn q hq]
  split_ifs with hlast
  · obtain ⟨l', rfl⟩ := List.getLast?_eq_some_iff.mp hlast
    have hend : Links next prev none (l' ++ q :: []) none := h
    exact hend.node.2
  · rfl

theorem Links.concat (h : Links next prev none l none) (hl : l.Nodup)
    (hlast : next' p = none ∧ prev' p = l.getLast?) (hp : ∀ q ∈ l, prev' q = prev q)
    (hn : ∀ q ∈ l, next' q = if l.getLast? = some q then some p else next q) :
    Links next' prev' none (l ++ [p]) none := by
  refine links_append.mpr ⟨h.reroute hl hn fun q hq => ?_, ?_, ?_, trivial⟩
  · rw [hp q hq]
    split_ifs with hfirst
    · obtain ⟨l', rfl⟩ := List.head?_eq_some_iff.mp hfirst
      exact h.1
    · rfl
  · simp [hlast.2]
  · simp [hlast.1]

/-- The neighbours of a node are linked with each other. -/
theorem Links.unlink (h : Links next prev none (l₁ ++ p :: l₂) none) (hl : (l₁ ++ p :: l₂).Nodup)
    (hn : ∀ q ∈ l₁ ++ l₂, next' q = if l₁.getLast? = some q then l₂.head? else next q)
    (hp : ∀ q ∈ l₁ ++ l₂, prev' q = if l₂.head? = some q then l₁.getLast? else prev q) :
    Links next' prev' none (l₁ ++ l₂) none := by
  have hsub : (l₁ ++ l₂).Nodup := hl.sublist ((List.sublist_cons_self p l₂).append_left l₁)
  obtain ⟨hl₁, hl₂, hdisjoint⟩ := List.nodup_append.mp hsub
  refine links_append.mpr ⟨h.left.reroute hl₁ (fun q hq => ?_) (fun q hq => ?_),
    h.right.2.2.reroute hl₂ (fun q hq => ?_) (fun q hq => ?_)⟩
  · rw [hn q (List.mem_append_left _ hq), Option.or_none]
  · have hne : ¬l₂.head? = some q := fun he => hdisjoint q hq q (List.mem_of_head? he) rfl
    rw [hp q (List.mem_append_left _ hq), if_neg hne]
    split_ifs with hfirst
    · obtain ⟨l', rfl⟩ := List.head?_eq_some_iff.mp hfirst
      exact h.1
    · rfl
  · have hne : ¬l₁.getLast? = some q := fun he => hdisjoint q (List.mem_of_getLast? he) q hq rfl
    rw [hn q (List.mem_append_right _ hq), if_neg hne]
    split_ifs with hlast
    · obtain ⟨l', rfl⟩ := List.getLast?_eq_some_iff.mp hlast
      have h' : Links next prev none ((l₁ ++ p :: l') ++ q :: []) none := by simpa using h
      exact h'.node.2
    · rfl
  · rw [hp q (List.mem_append_right _ hq), Option.or_none]

end Ps4Sdk.DoublyLinkedLists
