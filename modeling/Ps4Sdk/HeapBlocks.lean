import Mathlib.Logic.Function.Basic
import Mathlib.Data.List.Nodup
import Mathlib.Data.List.Perm.Basic

/-!
# Heaps of allocated blocks

A heap gives the content of each live block. Freeing a block that is not live is a
fault. A program that allocates and frees owns some of the blocks: the heap is a
base, which it does not touch, and the owned blocks above it.
-/

namespace Ps4Sdk.HeapBlocks

universe u v

inductive Fault
  | notLive | outOfBounds
  deriving DecidableEq

abbrev Heap (ι : Type u) (β : Type v) := ι → Option β

variable {ι : Type u} {β : Type v}

structure Owns (base h : Heap ι β) (owned : List (ι × β)) : Prop where
  nodup : (owned.map Prod.fst).Nodup
  held : ∀ p ∈ owned, h p.1 = some p.2
  apart : ∀ p ∈ owned, base p.1 = none
  frame : ∀ a, a ∉ owned.map Prod.fst → h a = base a

variable {base h : Heap ι β} {owned rest : List (ι × β)} {a : ι} {b c : β}

theorem Owns.nil (h : Heap ι β) : Owns h h [] where
  nodup := List.nodup_nil
  held := by simp
  apart := by simp
  frame := fun _ _ => rfl

theorem Owns.perm (o : Owns base h owned) (hp : owned.Perm rest) : Owns base h rest where
  nodup := (hp.map Prod.fst).nodup_iff.mp o.nodup
  held := fun p h => o.held p (hp.mem_iff.mpr h)
  apart := fun p h => o.apart p (hp.mem_iff.mpr h)
  frame := fun a h => o.frame a (fun hm => h ((hp.map Prod.fst).mem_iff.mp hm))

theorem Owns.head (o : Owns base h ((a, b) :: rest)) : h a = some b :=
  o.held (a, b) List.mem_cons_self

private theorem Owns.ne_head (o : Owns base h ((a, b) :: rest)) {p : ι × β}
    (hp : p ∈ rest) : p.1 ≠ a := by
  intro he
  have hn := (List.nodup_cons.mp o.nodup).1
  exact hn (List.mem_map.mpr ⟨p, hp, he⟩)

/-- A fresh address belongs neither to the base nor to the owned blocks. -/
theorem Owns.fresh (o : Owns base h owned) (ha : h a = none) : a ∉ owned.map Prod.fst ∧
    base a = none := by
  have hn : a ∉ owned.map Prod.fst := by
    intro hm
    obtain ⟨p, hp, rfl⟩ := List.mem_map.mp hm
    rw [o.held p hp] at ha
    cases ha
  exact ⟨hn, (o.frame a hn).symm.trans ha⟩

/-- The live blocks are those of the base exactly when nothing is owned. -/
theorem Owns.live_eq_iff (o : Owns base h owned) : (∀ a, h a ≠ none ↔ base a ≠ none) ↔
    owned = [] := by
  constructor
  · intro hl
    cases owned with
    | nil => rfl
    | cons p rest =>
      have hb := (hl p.1).mp (by simp [o.held p List.mem_cons_self])
      exact absurd (o.apart p List.mem_cons_self) hb
  · rintro rfl a
    rw [o.frame a (by simp)]

variable [DecidableEq ι]

/-- Both the allocation of a block with its first content and a store into it. -/
def put (h : Heap ι β) (a : ι) (b : β) : Heap ι β := Function.update h a (some b)

def erase (h : Heap ι β) (a : ι) : Heap ι β := Function.update h a none

def free (h : Heap ι β) (a : ι) : Except Fault (Heap ι β) :=
  match h a with
  | some _ => .ok (erase h a)
  | none => .error .notLive

@[simp] theorem put_self (h : Heap ι β) (a : ι) (b : β) : put h a b a = some b :=
  Function.update_self ..

theorem put_other (h : Heap ι β) {a c : ι} (b : β) (hc : c ≠ a) : put h a b c = h c :=
  Function.update_of_ne hc ..

@[simp] theorem erase_self (h : Heap ι β) (a : ι) : erase h a a = none := Function.update_self ..

theorem erase_other (h : Heap ι β) {a c : ι} (hc : c ≠ a) : erase h a c = h c :=
  Function.update_of_ne hc ..

theorem free_live {h : Heap ι β} {a : ι} {b : β} (ha : h a = some b) :
    free h a = .ok (erase h a) := by
  simp [free, ha]

theorem Owns.store (o : Owns base h ((a, b) :: rest)) (c : β) :
    Owns base (put h a c) ((a, c) :: rest) where
  nodup := o.nodup
  held := by
    intro p hp
    rcases List.mem_cons.mp hp with rfl | hp
    · exact put_self ..
    · rw [put_other h c (o.ne_head hp)]
      exact o.held p (List.mem_cons_of_mem _ hp)
  apart := by
    intro p hp
    rcases List.mem_cons.mp hp with rfl | hp
    · exact o.apart (a, b) List.mem_cons_self
    · exact o.apart p (List.mem_cons_of_mem _ hp)
  frame := by
    intro x hx
    have hxa : x ≠ a := fun he => hx (he ▸ List.mem_cons_self)
    rw [put_other h c hxa]
    exact o.frame x hx

theorem Owns.allocate (o : Owns base h owned) (ha : h a = none) (b : β) :
    Owns base (put h a b) ((a, b) :: owned) where
  nodup := List.nodup_cons.mpr ⟨(o.fresh ha).1, o.nodup⟩
  held := by
    intro p hp
    rcases List.mem_cons.mp hp with rfl | hp
    · exact put_self ..
    · have hpa : p.1 ≠ a := fun he => (o.fresh ha).1 (List.mem_map.mpr ⟨p, hp, he⟩)
      rw [put_other h b hpa]
      exact o.held p hp
  apart := by
    intro p hp
    rcases List.mem_cons.mp hp with rfl | hp
    · exact (o.fresh ha).2
    · exact o.apart p hp
  frame := by
    intro x hx
    have hxa : x ≠ a := fun he => hx (he ▸ List.mem_cons_self)
    rw [put_other h b hxa]
    exact o.frame x (fun hm => hx (List.mem_cons_of_mem _ hm))

theorem Owns.erase (o : Owns base h ((a, b) :: rest)) : Owns base (erase h a) rest where
  nodup := (List.nodup_cons.mp o.nodup).2
  held := by
    intro p hp
    rw [erase_other h (o.ne_head hp)]
    exact o.held p (List.mem_cons_of_mem _ hp)
  apart := fun p hp => o.apart p (List.mem_cons_of_mem _ hp)
  frame := by
    intro x hx
    by_cases hxa : x = a
    · subst hxa
      rw [erase_self, o.apart (x, b) List.mem_cons_self]
    · rw [erase_other h hxa]
      exact o.frame x (by simpa [hxa] using hx)

theorem Owns.free (o : Owns base h ((a, b) :: rest)) :
    ∃ h', free h a = .ok h' ∧ Owns base h' rest :=
  ⟨_, free_live o.head, o.erase⟩

/-- A block that is no longer looked after counts as part of the base. -/
theorem Owns.abandon (o : Owns base h ((a, b) :: rest)) : Owns (put base a b) h rest where
  nodup := (List.nodup_cons.mp o.nodup).2
  held := fun p hp => o.held p (List.mem_cons_of_mem _ hp)
  apart := by
    intro p hp
    rw [put_other base b (o.ne_head hp)]
    exact o.apart p (List.mem_cons_of_mem _ hp)
  frame := by
    intro x hx
    by_cases hxa : x = a
    · subst hxa
      rw [put_self, o.head]
    · rw [put_other base b hxa]
      exact o.frame x (by simpa [hxa] using hx)

/-- Others may do anything to the blocks that are not owned. -/
theorem Owns.others (o : Owns base h owned) {h' : Heap ι β} (hk : ∀ p ∈ owned, h' p.1 = h p.1) :
    ∃ base', Owns base' h' owned := by
  refine ⟨fun a => if a ∈ owned.map Prod.fst then none else h' a, o.nodup, ?_, ?_, ?_⟩
  · intro p hp
    rw [hk p hp, o.held p hp]
  · intro p hp
    exact if_pos (List.mem_map_of_mem hp)
  · intro a ha
    exact (if_neg ha).symm

end Ps4Sdk.HeapBlocks
