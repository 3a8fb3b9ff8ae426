import Ps4Sdk.KernelCaches
import Mathlib.Data.List.Count
import Mathlib.Tactic.Ring

/-!
# What a cache holds

The blocks of a cache are its own, those of the container, and for each entry the
entry and the copy of its name. A call keeps this layout and changes the content at
one key; `Delete` leaves the copy of the name behind.
-/

namespace Ps4Sdk.KernelCaches
open HeapBlocks

structure Slot where
  entry : Address
  name : Address
  value : Address
  key : List (BitVec 8)
  last : BitVec 8

def Slot.nameBlock (s : Slot) : Address × Block := (s.name, .string (s.key ++ [s.last]))

def Slot.blocks (s : Slot) : List (Address × Block) :=
  [(s.entry, .entry s.name s.value s.name s.key.length), s.nameBlock]

def containerBlocks : Option (Address × Address) → List (Address × Block)
  | none => []
  | some (t, b) => [(b, .container), (t, .container)]

def blocks (cache : Address) (slots : List Slot) (table : Option (Address × Address)) :
    List (Address × Block) :=
  (cache, .cache (slots.map Slot.entry) table) :: (containerBlocks table ++
    slots.flatMap Slot.blocks)

/-- The cache has these slots, and these blocks of deleted entries are left. -/
structure Represents (base h : KernelHeap) (cache : Address) (slots : List Slot)
    (table : Option (Address × Address)) (left : List (Address × Block)) : Prop where
  owns : Owns base h (blocks cache slots table ++ left)
  keys : (slots.map Slot.key).Nodup
  table : table = none ↔ slots = []

def content (slots : List Slot) (key : List (BitVec 8)) : Option Address :=
  (slots.find? (fun s => s.key = key)).map Slot.value

section
variable {base h : KernelHeap} {cache : Address} {slots before after : List Slot} {s : Slot}
variable {table : Option (Address × Address)} {left : List (Address × Block)} {k : List (BitVec 8)}

theorem Represents.cache_eq (r : Represents base h cache slots table left) :
    h cache = some (.cache (slots.map Slot.entry) table) := r.owns.held (_, _) (by simp [blocks])

theorem Represents.block_eq (r : Represents base h cache slots table left) (hs : s ∈ slots)
    {p : Address × Block} (hp : p ∈ s.blocks) : h p.1 = some p.2 := by
  apply r.owns.held
  apply List.mem_append_left
  apply List.mem_cons_of_mem
  apply List.mem_append_right
  exact List.mem_flatMap.mpr ⟨s, hs, hp⟩

theorem Represents.entry_eq (r : Represents base h cache slots table left) (hs : s ∈ slots) :
    h s.entry = some (.entry s.name s.value s.name s.key.length) :=
  r.block_eq hs (p := (_, _)) List.mem_cons_self

theorem Represents.entries_nodup (r : Represents base h cache slots table left) :
    (slots.map Slot.entry).Nodup := by
  have hn := r.owns.nodup
  have hsub : (slots.map Slot.entry).Sublist ((blocks cache slots table ++ left).map Prod.fst) := by
    have hslots : (slots.map Slot.entry).Sublist ((slots.flatMap Slot.blocks).map Prod.fst) := by
      clear hn r
      induction slots with
      | nil => exact List.Sublist.refl _
      | cons s slots ih =>
        simp only [List.map_cons, List.flatMap_cons, Slot.blocks, List.cons_append, List.nil_append]
        exact (ih.cons _).cons_cons _
    rw [List.map_append, blocks, List.map_cons, List.map_append]
    exact ((hslots.trans (List.sublist_append_right _ _)).cons _).trans
      (List.sublist_append_left _ _)
  exact hn.sublist hsub

theorem hashFind_slots (hb : ∀ s ∈ slots, ∀ p ∈ s.blocks, h p.1 = some p.2)
    (key tail : List (BitVec 8)) :
    hashFind h (key ++ tail) key.length (slots.map Slot.entry) =
      .ok ((slots.find? (fun s => s.key = key)).map Slot.entry) := by
  induction slots with
  | nil => rfl
  | cons s slots ih =>
    have he : h s.entry = some (.entry s.name s.value s.name s.key.length) :=
      hb s List.mem_cons_self (_, _) (by simp [Slot.blocks])
    have hn : h s.name = some (.string (s.key ++ [s.last])) :=
      hb s List.mem_cons_self s.nameBlock (by simp [Slot.blocks])
    have ih := ih (fun s hs => hb s (List.mem_cons_of_mem _ hs))
    rw [List.map_cons, hashFind]
    simp only [loadEntry, he, loadString, hn, readBytes_append, bind, Except.bind]
    by_cases hk : s.key = key
    · subst hk
      simp [readBytes_append, List.find?_cons_of_pos, pure, Except.pure]
    · rw [List.find?_cons_of_neg (by simpa using hk), ← ih]
      split_ifs with hl
      · rw [hl, readBytes_append]
        simp [hk]
      · rfl

theorem Represents.find (r : Represents base h cache slots table left) {a : Address}
    {name : List (BitVec 8)} (hs : StringAt h a name) :
    ∃ last tail, h a = some (.string (keyOf name ++ last :: tail)) ∧
      strnlen (keyOf name ++ last :: tail) ps4LimitStringLengthMaximum = .ok (keyOf name).length ∧
      hashFind h (keyOf name ++ last :: tail) (keyOf name).length (slots.map Slot.entry) =
        .ok ((slots.find? (fun s => s.key = keyOf name)).map Slot.entry) := by
  obtain ⟨hz, rest, ha⟩ := hs
  obtain ⟨last, tail, ht⟩ := keyOf_append name rest
  have hl := strnlen_name hz rest ps4LimitStringLengthMaximum
  rw [ht] at ha hl
  exact ⟨last, tail, ha, hl, hashFind_slots (fun s hs p hp => r.block_eq hs hp) _ _⟩

theorem Represents.get (r : Represents base h cache slots table left) (hc : cache ≠ 0#64)
    {a value : Address} (hv : value ≠ 0#64) {name : List (BitVec 8)} (hs : StringAt h a name) :
    ps4KernelCacheGet h cache a value = .ok (match content slots (keyOf name) with
      | some v => (ps4Ok, some v)
      | none => (ps4ErrorNotFound, some 0#64)) := by
  obtain ⟨last, tail, ha, hl, hf⟩ := r.find hs
  simp only [ps4KernelCacheGet, if_neg hc, if_neg hv, loadString, ha, hl, loadCache, r.cache_eq, hf,
    content, bind, Except.bind]
  cases hfound : slots.find? (fun s => s.key = keyOf name) with
  | none => rfl
  | some s =>
    have he := r.entry_eq (List.mem_of_find?_eq_some hfound)
    simp only [Option.map_some, loadEntry, he]
    rfl

theorem content_append_cons (after : List Slot) (hb : ∀ t ∈ before, t.key ≠ s.key)
    (k : List (BitVec 8)) :
    content (before ++ s :: after) k = if k =
      s.key then some s.value else content (before ++ after) k := by
  unfold content
  rw [List.find?_append, List.find?_append]
  split_ifs with hk
  · subst hk
    have hn : before.find? (fun t => t.key = s.key) = none := by
      rw [List.find?_eq_none]
      intro t ht
      simpa using hb t ht
    rw [hn, List.find?_cons_of_pos (by simp)]
    rfl
  · rw [List.find?_cons_of_neg (by simpa using fun h => hk h.symm)]

theorem content_eq_none (hk : ∀ t ∈ slots, t.key ≠ k) : content slots k = none := by
  unfold content
  rw [Option.map_eq_none_iff, List.find?_eq_none]
  intro t ht
  simpa using hk t ht

end

end Ps4Sdk.KernelCaches
