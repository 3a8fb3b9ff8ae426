import Ps4Sdk.KernelCacheContents

/-!
# Changes of a cache

A call of `Set` or `Delete` keeps the layout of the cache and changes the content at
the key of its name only. The container makes its table with the first entry, may
replace the buckets with a later one, and frees both with the last one.
-/

namespace Ps4Sdk.KernelCaches
open HeapBlocks

section
variable {base h : KernelHeap} {cache : Address} {slots before after : List Slot} {s : Slot}
variable {table : Option (Address × Address)} {left : List (Address × Block)} {a value : Address}
variable {name : List (BitVec 8)} {m : Supply}

/-- The entries before the one that is found have other keys. -/
theorem find_split (hf : slots.find? (fun s => s.key = keyOf name) = some s) :
    s.key = keyOf name ∧ ∃ before after, slots = before ++ s :: after ∧
    ∀ t ∈ before, t.key ≠ s.key := by
  obtain ⟨hk, before, after, hsplit, hb⟩ := List.find?_eq_some_iff_append.mp hf
  have hk : s.key = keyOf name := by simpa using hk
  refine ⟨hk, before, after, hsplit, ?_⟩
  intro t ht
  rw [hk]
  simpa using hb t ht

theorem blocks_perm (cache : Address) (table : Option (Address × Address))
    (left : List (Address × Block)) (before after : List Slot) (s : Slot) :
    (blocks cache (before ++ s :: after) table ++ left).Perm
      ((s.entry, .entry s.name s.value s.name s.key.length) :: s.nameBlock ::
        (cache, .cache ((before ++ s :: after).map Slot.entry) table) ::
        (containerBlocks table ++ (before ++ after).flatMap Slot.blocks ++ left)) := by
  rw [List.perm_iff_count]
  intro p
  simp only [blocks, Slot.blocks, List.flatMap_append, List.flatMap_cons, List.cons_append,
    List.nil_append, List.count_append, List.count_cons]
  ring

theorem Represents.overwrite (r : Represents base h cache (before ++ s :: after) table left)
    (value : Address) :
    Represents base (put h s.entry (.entry s.name value s.name s.key.length)) cache
      (before ++ { s with value := value } :: after) table left := by
  have ho := (r.owns.perm (blocks_perm cache table left before after s)).store
    (.entry s.name value s.name s.key.length)
  refine ⟨?_, by simpa using r.keys, by simpa using r.table⟩
  have hp := blocks_perm cache table left before after { s with value := value }
  apply Owns.perm _ hp.symm
  simpa [Slot.nameBlock] using ho

def newSlot (m : Supply) (value : Address) (key : List (BitVec 8)) (last : BitVec 8) : Slot :=
  ⟨m.entry, m.name, value, key, last⟩

theorem hashAdd_first {key : List (BitVec 8)} {last : BitVec 8}
    (ho : Owns base h ((m.entry, .entry m.name value 0#64 0) ::
      (newSlot m value key last).nameBlock :: (blocks cache [] none ++ left)))
    (ht : h m.table = none) (hb : h m.buckets = none) (hne : m.buckets ≠ m.table) :
    ∃ h', hashAdd h cache m.entry m.name key.length m = .ok h' ∧
      Owns base h' (blocks cache [newSlot m value key last]
        (some (m.table, m.buckets)) ++ left) := by
  have hcache : h cache = some (.cache [] none) := ho.held (_, _) (by simp [blocks])
  have hentry := ho.head
  have h1 := ho.store (.entry m.name value m.name key.length)
  have hte : m.table ≠ m.entry := by
    rintro he
    rw [he, hentry] at ht
    cases ht
  have hbe : m.buckets ≠ m.entry := by
    rintro he
    rw [he, hentry] at hb
    cases hb
  have h2 := h1.allocate ((put_other _ _ hte).trans ht) .container
  have h3 := h2.allocate ((put_other _ _ hne).trans ((put_other _ _ hbe).trans hb)) .container
  have hp : ((m.buckets, Block.container) :: (m.table, Block.container) ::
      (m.entry, Block.entry m.name value m.name key.length) ::
      (newSlot m value key last).nameBlock ::
      (blocks cache [] none ++ left)).Perm
      ((cache, .cache [] none) :: (containerBlocks (some (m.table, m.buckets)) ++
        [newSlot m value key last].flatMap Slot.blocks ++ left)) := by
    rw [List.perm_iff_count]
    intro p
    simp only [blocks, containerBlocks, Slot.blocks, newSlot, List.map_nil, List.flatMap_cons,
      List.flatMap_nil, List.cons_append, List.nil_append, List.append_nil, List.count_cons]
    ring
  have h4 := (h3.perm hp).store (.cache [m.entry] (some (m.table, m.buckets)))
  refine ⟨_, ?_, h4⟩
  simp [hashAdd, loadCache, hcache, loadEntry, hentry, bind, Except.bind, pure, Except.pure]

theorem hashAdd_later {key : List (BitVec 8)} {last : BitVec 8} {t b : Address} (hs : slots ≠ [])
    (ho : Owns base h ((m.entry, .entry m.name value 0#64 0) ::
      (newSlot m value key last).nameBlock :: (blocks cache slots (some (t, b)) ++ left)))
    (he : ∀ b' ∈ m.expanded, h b' = none) :
    ∃ h' b', hashAdd h cache m.entry m.name key.length m = .ok h' ∧
      Owns base h' (blocks cache (slots ++ [newSlot m value key last]) (some (t, b')) ++ left) := by
  have hcache : h cache = some (.cache (slots.map Slot.entry) (some (t, b))) :=
    ho.held (_, _) (by simp [blocks])
  have hentry := ho.head
  have h1 := ho.store (.entry m.name value m.name key.length)
  cases hx : m.expanded with
  | none =>
    have hp : ((m.entry, Block.entry m.name value m.name key.length) ::
        (newSlot m value key last).nameBlock :: (blocks cache slots (some (t, b)) ++ left)).Perm
        ((cache, .cache (slots.map Slot.entry) (some (t, b))) :: (containerBlocks (some (t, b)) ++
          (slots ++ [newSlot m value key last]).flatMap Slot.blocks ++ left)) := by
      rw [List.perm_iff_count]
      intro p
      simp only [blocks, containerBlocks, Slot.blocks, newSlot, List.flatMap_append,
        List.flatMap_cons, List.flatMap_nil, List.cons_append, List.nil_append, List.append_nil,
        List.count_cons, List.count_append,
        List.count_nil]
      ring
    have h2 := (h1.perm hp).store (.cache (slots.map Slot.entry ++ [m.entry]) (some (t, b)))
    refine ⟨_, b, ?_, by simpa [blocks, newSlot] using h2⟩
    simp [hashAdd, loadCache, hcache, loadEntry, hentry, hx, hs, bind, Except.bind,
      pure, Except.pure]
  | some b' =>
    have hb' := he b' hx
    have hbe : b' ≠ m.entry := by
      rintro he
      rw [he, hentry] at hb'
      cases hb'
    have h2 := h1.allocate ((put_other _ _ hbe).trans hb') .container
    have hp : ((b', Block.container) :: (m.entry, Block.entry m.name value m.name key.length) ::
        (newSlot m value key last).nameBlock :: (blocks cache slots (some (t, b)) ++ left)).Perm
        ((b, .container) :: (cache, .cache (slots.map Slot.entry) (some (t, b))) ::
          (containerBlocks (some (t, b')) ++ (slots ++ [newSlot m value key last]).flatMap
            Slot.blocks ++ left)) := by
      rw [List.perm_iff_count]
      intro p
      simp only [blocks, containerBlocks, Slot.blocks, newSlot, List.flatMap_append,
        List.flatMap_cons, List.flatMap_nil, List.cons_append, List.nil_append, List.append_nil,
        List.count_cons, List.count_append,
        List.count_nil]
      ring
    obtain ⟨h3, hfree, ho3⟩ := (h2.perm hp).free
    have h4 := ho3.store (.cache (slots.map Slot.entry ++ [m.entry]) (some (t, b')))
    refine ⟨_, b', ?_, by simpa [blocks, newSlot] using h4⟩
    simp [hashAdd, loadCache, hcache, loadEntry, hentry, hx, hs, hfree, bind, Except.bind,
      pure, Except.pure]

theorem Supply.Fresh.ne (hm : m.Fresh h) : m.name ≠ m.entry ∧ m.buckets ≠ m.table ∧
    (∀ x ∈ [m.table, m.buckets] ++ m.expanded.toList, x ≠ m.entry ∧ x ≠ m.name) := by
  have hn := hm.nodup
  simp only [Supply.addresses, List.cons_append, List.nil_append, List.nodup_cons,
    List.mem_cons, not_or] at hn
  obtain ⟨⟨h1, h2, h3, h4⟩, ⟨h5, h6, h7⟩, ⟨h8, h9⟩, -⟩ := hn
  refine ⟨Ne.symm h1, Ne.symm h8, ?_⟩
  intro x hx
  rcases List.mem_cons.mp hx with rfl | hx
  · exact ⟨Ne.symm h2, Ne.symm h5⟩
  · rcases List.mem_cons.mp hx with rfl | hx
    · exact ⟨Ne.symm h3, Ne.symm h6⟩
    · exact ⟨fun he => h4 (he ▸ hx), fun he => h7 (he ▸ hx)⟩

/-- What a call of `Set` does to a key that is not there. -/
theorem Represents.insert (r : Represents base h cache slots table left) (hm : m.Fresh h)
    {key : List (BitVec 8)} (hk : ∀ t ∈ slots, t.key ≠ key) (value : Address) (last : BitVec 8) :
    ∃ h' table', hashAdd (put (put h m.entry (.entry m.name value 0#64 0)) m.name
      (.string (key ++ [last])))
        cache m.entry m.name key.length m = .ok h' ∧
      Represents base h' cache (slots ++ [newSlot m value key last]) table' left := by
  obtain ⟨hne, hbt, hothers⟩ := hm.ne
  have hdead : ∀ x ∈ [m.table, m.buckets] ++ m.expanded.toList,
      put (put h m.entry (.entry m.name value 0#64 0)) m.name
        (.string (key ++ [last])) x = none := by
    intro x hx
    rw [put_other _ _ (hothers x hx).2, put_other _ _ (hothers x hx).1]
    exact hm.dead x (List.mem_cons_of_mem _ (List.mem_cons_of_mem _ hx))
  have h1 := r.owns.allocate (hm.dead m.entry (by simp [Supply.addresses]))
    (.entry m.name value 0#64 0)
  have h2 := h1.allocate ((put_other _ _ hne).trans (hm.dead m.name (by simp [Supply.addresses])))
    (.string (key ++ [last]))
  have h3 := h2.perm (List.Perm.swap _ _ _)
  have hkeys : ((slots ++ [newSlot m value key last]).map Slot.key).Nodup := by
    rw [List.map_append, List.nodup_append]
    refine ⟨r.keys, by simp, ?_⟩
    rintro _ hx _ hy rfl
    obtain ⟨t, ht, rfl⟩ := List.mem_map.mp hx
    exact hk t ht (by simpa [newSlot] using hy)
  cases table with
  | none =>
    obtain rfl := r.table.mp rfl
    obtain ⟨h', hh, ho⟩ :=
      hashAdd_first h3 (hdead m.table (by simp)) (hdead m.buckets (by simp)) hbt
    exact ⟨h', _, hh, ho, hkeys, by simp⟩
  | some tb =>
    have hs : slots ≠ [] := fun he => by cases r.table.mpr he
    obtain ⟨h', b', hh, ho⟩ :=
      hashAdd_later hs h3 (fun b' hb' => hdead b' (by simp [Option.mem_def.mp hb']))
    exact ⟨h', _, hh, ho, hkeys, by simp⟩

theorem Represents.set (r : Represents base h cache slots table left) (hc : cache ≠ 0#64)
    (hs : StringAt h a name) (hm : m.Fresh h) (value : Address) :
    ∃ h' slots' table', ps4KernelCacheSet h cache a value m = .ok (ps4Ok, h') ∧
      Represents base h' cache slots' table' left ∧
      content slots' = Function.update (content slots) (keyOf name) (some value) := by
  obtain ⟨last, tail, ha, hl, hf⟩ := r.find hs
  simp only [ps4KernelCacheSet, if_neg hc, loadString, ha, hl, loadCache, r.cache_eq, hf,
    bind, Except.bind]
  cases hfound : slots.find? (fun s => s.key = keyOf name) with
  | some s =>
    obtain ⟨hk, before, after, rfl, hb⟩ := find_split hfound
    have he := r.entry_eq (List.mem_of_find?_eq_some hfound)
    refine ⟨_, _, table, ?_, r.overwrite value, ?_⟩
    · simp only [Option.map_some, loadEntry, he]
      rfl
    · funext k
      have hnew := content_append_cons (s := { s with value := value }) after hb k
      rw [hnew, Function.update_apply, content_append_cons after hb, ← hk]
      split_ifs <;> rfl
  | none =>
    have hk : ∀ t ∈ slots, t.key ≠ keyOf name := by
      intro t ht
      simpa using List.find?_eq_none.mp hfound t ht
    obtain ⟨h', table', hh, r'⟩ := r.insert hm hk value last
    have hread : readBytes (keyOf name ++ last :: tail) ((keyOf name).length + 1) =
        .ok (keyOf name ++ [last]) := by
      have := readBytes_append (keyOf name ++ [last]) tail
      simpa using this
    refine ⟨h', _, table', ?_, r', ?_⟩
    · simp only [Option.map_none, hread, hh]
      rfl
    · funext k
      have happ := content_append_cons [] (s := newSlot m value (keyOf name) last) hk k
      rw [happ, List.append_nil, Function.update_apply]
      rfl

def containerLeft (slots : List Slot) (table : Option (Address × Address)) :
    Option (Address × Address) :=
  if slots.isEmpty then none else table

theorem Represents.hashDelete (r : Represents base h cache (before ++ s :: after) table left) :
    ∃ h', hashDelete h cache s.entry = .ok h' ∧
      Owns base h' ((s.entry, .entry s.name s.value s.name s.key.length) ::
        (blocks cache (before ++ after) (containerLeft (before ++ after) table) ++
          s.nameBlock :: left)) := by
  have hn := r.entries_nodup
  have ho := r.owns.perm (blocks_perm cache table left before after s)
  cases htable : table with
  | none =>
    have := r.table.mp htable
    simp at this
  | some tb =>
    obtain ⟨t, b⟩ := tb
    subst htable
    by_cases hlast : before ++ after = []
    · obtain ⟨rfl, rfl⟩ := List.append_eq_nil_iff.mp hlast
      have hp : ((s.entry, Block.entry s.name s.value s.name s.key.length) :: s.nameBlock ::
          (cache, .cache (([] ++ s :: []).map Slot.entry) (some (t, b))) ::
          (containerBlocks (some (t, b)) ++ ([] ++ []).flatMap Slot.blocks ++ left)).Perm
          ((b, .container) :: (t, .container) :: (cache, .cache [s.entry] (some (t, b))) ::
            (s.entry, Block.entry s.name s.value s.name s.key.length) :: s.nameBlock :: left) := by
        rw [List.perm_iff_count]
        intro p
        simp only [containerBlocks, List.nil_append, List.map_cons, List.map_nil, List.flatMap_nil,
          List.append_nil, List.cons_append, List.count_cons]
        ring
      obtain ⟨h1, hf1, ho1⟩ := (ho.perm hp).free
      obtain ⟨h2, hf2, ho2⟩ := ho1.free
      have ho3 := (ho2.store (.cache [] none)).perm (List.Perm.swap _ _ _)
      refine ⟨_, ?_, ho3⟩
      have hcache := r.cache_eq
      simp [KernelCaches.hashDelete, loadCache, hcache, hf1, hf2, bind, Except.bind,
        pure, Except.pure]
    · have hp : ((s.entry, Block.entry s.name s.value s.name s.key.length) :: s.nameBlock ::
          (cache, .cache ((before ++ s :: after).map Slot.entry) (some (t, b))) ::
          (containerBlocks (some (t, b)) ++ (before ++ after).flatMap Slot.blocks ++ left)).Perm
          ((cache, .cache ((before ++ s :: after).map Slot.entry) (some (t, b))) ::
            (s.entry, Block.entry s.name s.value s.name s.key.length) ::
            (containerBlocks (some (t, b)) ++ (before ++ after).flatMap Slot.blocks ++
              s.nameBlock :: left)) := by
        rw [List.perm_iff_count]
        intro p
        simp only [List.count_cons, List.count_append]
        ring
      have ho1 := (ho.perm hp).store (.cache ((before ++ after).map Slot.entry) (some (t, b)))
      have ho2 := ho1.perm (List.Perm.swap _ _ _)
      have herase : ((before ++ s :: after).map Slot.entry).erase s.entry =
          (before ++ after).map Slot.entry := by
        rw [List.map_append, List.map_cons] at hn ⊢
        have hnot : s.entry ∉ before.map Slot.entry := by
          intro hm
          exact (List.nodup_append.mp hn).2.2 _ hm _ List.mem_cons_self rfl
        rw [List.erase_append_right _ hnot, List.erase_cons_head, List.map_append]
      have hne : (before ++ s :: after).map Slot.entry ≠ [s.entry] := by
        intro he
        have hlen := congrArg List.length he
        have hpos := List.length_pos_of_ne_nil hlast
        simp at hlen hpos
        omega
      have hkept : containerLeft (before ++ after) (some (t, b)) = some (t, b) := by
        rw [containerLeft, if_neg (by rwa [List.isEmpty_iff])]
      refine ⟨_, ?_, by rw [hkept]; exact ho2⟩
      simp only [KernelCaches.hashDelete, loadCache, r.cache_eq, herase, if_neg hne, bind,
        Except.bind, pure, Except.pure]

/-- The entry is taken out and freed; the copy of its name stays. -/
theorem Represents.remove (r : Represents base h cache (before ++ s :: after) table left) :
    ∃ h₁ h₂, KernelCaches.hashDelete h cache s.entry = .ok h₁ ∧ free h₁ s.entry = .ok h₂ ∧
      Represents base h₂ cache (before ++ after) (containerLeft (before ++ after) table)
        (s.nameBlock :: left) := by
  obtain ⟨h₁, hd, ho⟩ := r.hashDelete
  obtain ⟨h₂, hf, ho₂⟩ := ho.free
  refine ⟨h₁, h₂, hd, hf, ho₂, ?_, ?_⟩
  · have hk := r.keys
    rw [List.map_append, List.map_cons] at hk
    rw [List.map_append]
    exact hk.sublist (List.Sublist.append_left (List.sublist_cons_self _ _) _)
  · have ht : table ≠ none := fun he => by simpa using r.table.mp he
    cases he : before ++ after <;> simp [containerLeft, ht]

theorem Represents.delete (r : Represents base h cache slots table left) (hc : cache ≠ 0#64)
    (hs : StringAt h a name) :
    ∃ h' slots' table' left', ps4KernelCacheDelete h cache a =
        .ok (if content slots (keyOf name) = none then ps4ErrorNotFound else ps4Ok, h') ∧
      Represents base h' cache slots' table' left' ∧
      (slots' = [] ∧ left' = [] ↔ slots = [] ∧ left = []) ∧
      content slots' = Function.update (content slots) (keyOf name) none := by
  obtain ⟨last, tail, ha, hl, hf⟩ := r.find hs
  simp only [ps4KernelCacheDelete, if_neg hc, loadString, ha, hl, loadCache, r.cache_eq, hf,
    bind, Except.bind]
  cases hfound : slots.find? (fun s => s.key = keyOf name) with
  | none =>
    have hn : content slots (keyOf name) = none := by rw [content, hfound]; rfl
    refine ⟨h, slots, table, left, ?_, r, Iff.rfl, ?_⟩
    · rw [if_pos hn]
      rfl
    · rw [← hn, Function.update_eq_self]
  | some s =>
    obtain ⟨hk, before, after, rfl, hb⟩ := find_split hfound
    obtain ⟨h₁, h₂, hd, hfree, r'⟩ := r.remove
    have hn : content (before ++ s :: after) (keyOf name) ≠ none := by
      rw [content, hfound]
      simp
    refine ⟨h₂, _, _, _, ?_, r', by simp, ?_⟩
    · rw [if_neg hn]
      simp only [Option.map_some, hd, hfree]
      rfl
    · have ha : ∀ t ∈ before ++ after, t.key ≠ s.key := by
        have hkeys := r.keys
        rw [List.map_append, List.map_cons, List.nodup_middle, List.nodup_cons] at hkeys
        intro t ht he
        rw [← List.map_append] at hkeys
        exact hkeys.1 (List.mem_map.mpr ⟨t, ht, he⟩)
      funext k
      rw [Function.update_apply, content_append_cons after hb, ← hk]
      split_ifs with hkey
      · exact hkey ▸ content_eq_none ha
      · rfl

end

end Ps4Sdk.KernelCaches
