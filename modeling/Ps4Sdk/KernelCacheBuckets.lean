import Ps4Sdk.KernelCacheMap
import Ps4Sdk.HashContainerRuns

/-!
# The kernel cache over the buckets of its container

The calls of a cache search, add and delete through the macros of `uthash.h`. The model of the
cache lists the entries in the order of insertion and searches the list; here the buckets are
kept beside it, and the decisions are made by the searches of buckets. The two never part.
-/

namespace Ps4Sdk.KernelCaches
open HeapBlocks StepRuns HashContainers

private theorem take_short (bytes : List (BitVec 8)) :
    (bytes.take ps4LimitStringLengthMaximum).length < 4294967296 := by
  rw [List.length_take, ps4LimitStringLengthMaximum]
  omega

def storedKey (name : List (BitVec 8)) : Key := ⟨keyOf name, take_short name⟩

section

variable (rounds : ℕ) (c : Container Address) (key : Key)

/-- What `ps4KernelCacheSet` does to the container, where the new entry is `entry`. -/
def setInBuckets (entry : Address) : Option (Container Address) := do
  match ← HashContainers.hashFind hashJen rounds c key with
  | some _ => some c
  | none => hashAddKeyptr hashJen rounds c key entry

/-- What `ps4KernelCacheDelete` does to the container. -/
def deleteInBuckets : Option (Container Address) := do
  match ← HashContainers.hashFind hashJen rounds c key with
  | some entry => HashContainers.hashDelete c entry
  | none => some c

end

inductive BucketStep (cache : Address) (rounds : ℕ) :
    KernelHeap × Container Address → CacheAction → KernelHeap × Container Address → Prop
  | set {h h' : KernelHeap} {c c' : Container Address} {a value : Address} {name : List (BitVec 8)}
      {m : Supply}
      {code : Code} (string : StringAt h a name) (fresh : m.Fresh h)
      (call : ps4KernelCacheSet h cache a value m = .ok (code, h'))
      (buckets : setInBuckets rounds c (storedKey name) m.entry = some c') :
      BucketStep cache rounds (h, c) (.set name value) (h', c')
  | delete {h h' : KernelHeap} {c c' : Container Address} {a : Address} {name : List (BitVec 8)}
      {code : Code}
      (string : StringAt h a name) (call : ps4KernelCacheDelete h cache a = .ok (code, h'))
      (buckets : deleteInBuckets rounds c (storedKey name) = some c') :
      BucketStep cache rounds (h, c) (.delete name) (h', c')
  | get {h : KernelHeap} {c : Container Address} {a value : Address} {name : List (BitVec 8)}
      {result : Code × Option Address} (string : StringAt h a name)
      (call : ps4KernelCacheGet h cache a value = .ok result) :
      BucketStep cache rounds (h, c) (.get name) (h, c)
  | callers {h h' : KernelHeap} {c : Container Address}
      (others : ∀ a, Reaches h cache a → h' a = h a) :
      BucketStep cache rounds (h, c) .callers (h', c)

def Slot.item (s : Slot) : Address × Key := (s.entry, storedKey s.key)

structure Mirrors (cache : Address) (h : KernelHeap) (c : Container Address)
    (slots : List Slot) : Prop where
  cache : ∃ base table, Represents base h cache slots table []
  short : ∀ s ∈ slots, keyOf s.key = s.key
  container : HashContainers.Represents hashJen c (slots.map Slot.item)

variable {cache : Address} {h h' : KernelHeap} {c : Container Address}
  {slots before after : List Slot} {s : Slot}
variable {rounds : ℕ} {name : List (BitVec 8)} {a value : Address} {m : Supply}

private theorem keyOf_keyOf (name : List (BitVec 8)) : keyOf (keyOf name) = keyOf name := by
  simp [keyOf, List.take_take]

private theorem storedKey_inj {name name' : List (BitVec 8)}
    (h : storedKey name = storedKey name') :
    keyOf name = keyOf name' := congrArg Key.bytes h

theorem lookUp_items (hs : ∀ s ∈ slots, keyOf s.key = s.key) :
    lookUp (slots.map Slot.item) (storedKey name) =
      (slots.find? fun s => s.key = keyOf name).map Slot.entry := by
  induction slots with
  | nil => rfl
  | cons s slots ih =>
    have hrest := ih fun t ht => hs t (List.mem_cons_of_mem _ ht)
    have hiff : s.item.2 = storedKey name ↔ s.key = keyOf name :=
      ⟨fun he => (hs s List.mem_cons_self).symm.trans (storedKey_inj he),
        fun he => by simp [Slot.item, storedKey, he, keyOf_keyOf]⟩
    rw [lookUp] at hrest ⊢
    by_cases hk : s.key = keyOf name
    · rw [List.map_cons, List.find?_cons_of_pos (by simpa using hiff.mpr hk),
        List.find?_cons_of_pos (by simpa using hk)]
      rfl
    · rw [List.map_cons, List.find?_cons_of_neg (by simpa using fun he => hk (hiff.mp he)),
        List.find?_cons_of_neg (by simpa using hk), hrest]

theorem Mirrors.keys (hm : Mirrors cache h c slots) :
    ((slots.map Slot.item).map Prod.snd).Nodup := by
  obtain ⟨base, table, r⟩ := hm.cache
  rw [List.map_map]
  refine (List.nodup_map_iff_inj_on r.keys.of_map).mpr fun s hs t ht he => ?_
  have hkey : s.key = t.key := (hm.short s hs).symm.trans ((storedKey_inj he).trans (hm.short t ht))
  exact List.inj_on_of_nodup_map r.keys hs ht hkey

theorem Mirrors.find (hm : Mirrors cache h c slots) (hr : slots.length ≤ rounds)
    (name : List (BitVec 8)) :
    HashContainers.hashFind hashJen rounds c (storedKey name) =
      some ((slots.find? fun s => s.key = keyOf name).map Slot.entry) := by
  rw [hm.container.find hm.keys (by simpa using hr), lookUp_items hm.short]

/-- A call of `Set` changes the value of an entry or adds an entry. -/
theorem Mirrors.set (hm : Mirrors cache h c slots) (hc : cache ≠ 0#64) (hs : StringAt h a name)
    (hf : m.Fresh h) (value : Address) (hr : slots.length + 1 ≤ rounds) :
    ∃ h' c' slots', ps4KernelCacheSet h cache a value m = .ok (ps4Ok, h') ∧
      setInBuckets rounds c (storedKey name) m.entry = some c' ∧ Mirrors cache h' c' slots' ∧
      slots'.length ≤ slots.length + 1 := by
  obtain ⟨base, table, r⟩ := hm.cache
  obtain ⟨last, tail, ha, hl, hfind⟩ := r.find hs
  have hbucket := hm.find (Nat.le_of_succ_le hr) name
  simp only [ps4KernelCacheSet, if_neg hc, loadString, ha, hl, loadCache, r.cache_eq, hfind,
    setInBuckets, hbucket, bind, Except.bind, Option.bind]
  cases hfound : slots.find? (fun s => s.key = keyOf name) with
  | some s =>
    obtain ⟨-, before, after, rfl, -⟩ := find_split hfound
    have he := r.entry_eq (List.mem_of_find?_eq_some hfound)
    simp only [Option.map_some, loadEntry, he]
    refine ⟨_, c, before ++ { s with value } :: after, rfl, rfl,
      ⟨⟨base, table, r.overwrite value⟩, fun t ht => ?_, ?_⟩, by simp⟩
    · rcases List.mem_append.mp ht with ht | ht
      · exact hm.short t (List.mem_append_left _ ht)
      · rcases List.mem_cons.mp ht with rfl | ht
        · exact hm.short s (by simp)
        · exact hm.short t (by simp [ht])
    · have hsame : (before ++ { s with value } :: after).map Slot.item =
          (before ++ s :: after).map Slot.item := by
        simp [Slot.item]
      rw [hsame]
      exact hm.container
  | none =>
    have hk : ∀ t ∈ slots, t.key ≠ keyOf name := by
      intro t ht
      simpa using List.find?_eq_none.mp hfound t ht
    obtain ⟨h', table', hh, r'⟩ := r.insert hf hk value last
    have hread : readBytes (keyOf name ++ last :: tail) ((keyOf name).length + 1) =
        .ok (keyOf name ++ [last]) := by
      have := readBytes_append (keyOf name ++ [last]) tail
      simpa using this
    have hnew : m.entry ∉ (slots.map Slot.item).map Prod.fst := by
      intro hmem
      obtain ⟨x, hx, he⟩ := List.mem_map.mp hmem
      obtain ⟨t, ht, rfl⟩ := List.mem_map.mp hx
      have hlive := r.entry_eq ht
      rw [show t.entry = m.entry from he, hf.dead m.entry (by simp [Supply.addresses])] at hlive
      cases hlive
    have hlen : (slots.map Slot.item).length + 1 ≤ rounds := by simpa using hr
    obtain ⟨c', hadd, hcontainer⟩ := hm.container.add (storedKey name) hnew hlen
    simp only [Option.map_none, hread, hh]
    refine ⟨h', c', slots ++ [newSlot m value (keyOf name) last], rfl, hadd,
      ⟨⟨base, table', r'⟩, fun t ht => ?_, ?_⟩, by simp⟩
    · rcases List.mem_append.mp ht with ht | ht
      · exact hm.short t ht
      · obtain rfl := List.mem_singleton.mp ht
        exact keyOf_keyOf name
    · have hitem : (newSlot m value (keyOf name) last).item = (m.entry, storedKey name) := by
        simp [newSlot, Slot.item, storedKey, keyOf_keyOf]
      rw [List.map_append, List.map_singleton, hitem]
      exact hcontainer

/-- A call of `Delete` takes out the entry of the name, if there is one. -/
theorem Mirrors.delete (hm : Mirrors cache h c slots) (hc : cache ≠ 0#64) (hs : StringAt h a name)
    (hr : slots.length ≤ rounds) :
    ∃ code h' c' slots', ps4KernelCacheDelete h cache a = .ok (code, h') ∧
      deleteInBuckets rounds c (storedKey name) = some c' ∧ Mirrors cache h' c' slots' ∧
      slots'.length ≤ slots.length := by
  obtain ⟨base, table, r⟩ := hm.cache
  obtain ⟨last, tail, ha, hl, hfind⟩ := r.find hs
  simp only [ps4KernelCacheDelete, if_neg hc, loadString, ha, hl, loadCache, r.cache_eq, hfind,
    deleteInBuckets, hm.find hr name, bind, Except.bind, Option.bind]
  cases hfound : slots.find? (fun s => s.key = keyOf name) with
  | none => exact ⟨_, h, c, slots, rfl, rfl, hm, Nat.le_refl _⟩
  | some s =>
    obtain ⟨-, before, after, rfl, -⟩ := find_split hfound
    obtain ⟨h₁, h₂, hd, hfree, r'⟩ := r.remove
    obtain ⟨base', r''⟩ := r'.abandon
    have hmem : s.entry ∈ ((before ++ s :: after).map Slot.item).map Prod.fst := by simp [Slot.item]
    obtain ⟨c', hdel, hcontainer⟩ := hm.container.delete hmem
    have hn : (((before.map Slot.item) ++ (s.entry, storedKey s.key) :: after.map Slot.item).map
        Prod.fst).Nodup := by
      have he := r.entries_nodup
      simpa [Slot.item, Function.comp_def] using he
    have hremove := remove_append hn
    rw [show (before ++ s :: after).map Slot.item =
      before.map Slot.item ++ (s.entry, storedKey s.key) :: after.map
        Slot.item by simp [Slot.item], hremove,
      ← List.map_append] at hcontainer
    simp only [Option.map_some, hd, hfree]
    refine ⟨_, h₂, c', before ++ after, rfl, hdel,
      ⟨⟨base', _, r''⟩, fun t ht => hm.short t ?_, hcontainer⟩, by simp⟩
    rcases List.mem_append.mp ht with ht | ht <;> simp [ht]

theorem Mirrors.step (hm : Mirrors cache h c slots) (hc : cache ≠ 0#64) {action : CacheAction}
    (hs : CacheStep cache h action h') (hr : slots.length + 1 ≤ rounds) :
    ∃ c' slots', BucketStep cache rounds (h, c) action (h', c') ∧ Mirrors cache h' c' slots' ∧
      slots'.length ≤ slots.length + 1 := by
  cases hs with
  | set string fresh call =>
    obtain ⟨h₁, c', slots', hcall, hbuckets, hm', hl⟩ := hm.set hc string fresh _ hr
    have he := Except.ok.inj (hcall.symm.trans call)
    obtain ⟨-, rfl⟩ := Prod.mk.inj he
    exact ⟨c', slots', .set string fresh call hbuckets, hm', hl⟩
  | delete string call =>
    obtain ⟨code, h₁, c', slots', hcall, hbuckets, hm', hl⟩ :=
      hm.delete hc string (Nat.le_of_succ_le hr)
    have he := Except.ok.inj (hcall.symm.trans call)
    obtain ⟨-, rfl⟩ := Prod.mk.inj he
    exact ⟨c', slots', .delete string call hbuckets, hm', hl.trans (Nat.le_succ _)⟩
  | get string call => exact ⟨c, slots, .get string call, hm, Nat.le_succ _⟩
  | callers others =>
    obtain ⟨base, table, r⟩ := hm.cache
    obtain ⟨base', ho⟩ := r.owns.others (fun p hp => others p.1 (r.reaches hp))
    exact ⟨c, slots, .callers others,
      ⟨⟨base', table, ho, r.keys, r.table⟩, hm.short, hm.container⟩, Nat.le_succ _⟩

theorem Mirrors.run (hc : cache ≠ 0#64) {actions : List CacheAction}
    (hr : Run (CacheStep cache) h actions h') (hm : Mirrors cache h c slots)
    (hl : slots.length + actions.length ≤ rounds) :
    ∃ c' slots', Run (BucketStep cache rounds) (h, c) actions (h', c') ∧
    Mirrors cache h' c' slots' ∧
      slots'.length ≤ rounds := by
  induction hr generalizing c slots with
  | nil h => exact ⟨c, slots, .nil _, hm, by simpa using hl⟩
  | cons first rest ih =>
    rw [List.length_cons] at hl
    obtain ⟨c₁, slots₁, hstep, hm₁, hl₁⟩ :=
      hm.step hc first (show slots.length + 1 ≤ rounds by omega)
    obtain ⟨c', slots', hrun, hm', hl'⟩ := ih hm₁ (by omega)
    exact ⟨c', slots', .cons hstep hrun, hm', hl'⟩

/-- Every run of calls on a created cache can be followed on the buckets of `uthash.h`, where the
entries are held in the order in which the cache lists them, and the search of the bucket finds for
every name the entry that the search of the list finds. -/
theorem cache_run_buckets (h₀ : KernelHeap) (out cache : Address) (ho : out ≠ 0#64)
    (hc : cache ≠ 0#64) (fresh : h₀ cache = none) (hh : Address → Handle Address)
    (actions : List CacheAction) (h : KernelHeap)
    (hr : Run (CacheStep cache) (ps4KernelCacheCreate h₀ out cache).2 actions h) (rounds : ℕ)
    (hl : actions.length ≤ rounds) :
    ∃ c l table,
      Run (BucketStep cache rounds)
        ((ps4KernelCacheCreate h₀ out cache).2, ⟨none, none, hh⟩) actions (h, c) ∧
      HashContainers.Represents hashJen c l ∧ h cache = some (.cache (l.map Prod.fst) table) ∧
      ∀ a name, StringAt h a name → ∃ bytes length found, h a = some (.string bytes) ∧
        strnlen bytes ps4LimitStringLengthMaximum = .ok length ∧
        hashFind h bytes length (l.map Prod.fst) = .ok found ∧
        HashContainers.hashFind hashJen rounds c (storedKey name) = some found := by
  rw [ps4KernelCacheCreate, if_neg ho] at hr ⊢
  have hstart : Mirrors cache (put h₀ cache (.cache [] none)) ⟨none, none, hh⟩ [] :=
    ⟨⟨h₀, none, represents_created h₀ fresh⟩, by simp, empty_represents hashJen hh⟩
  obtain ⟨c, slots, hrun, hm, hlen⟩ := hstart.run hc hr (by simpa using hl)
  obtain ⟨base, table, r⟩ := hm.cache
  have hmap : (slots.map Slot.item).map Prod.fst = slots.map Slot.entry := by
    simp [Slot.item, Function.comp_def]
  refine ⟨c, slots.map Slot.item, table, hrun,
    hm.container, by rw [hmap]; exact r.cache_eq, fun a name hs => ?_⟩
  obtain ⟨last, tail, ha, hstr, hfind⟩ := r.find hs
  exact ⟨_, _, _, ha, hstr, by rw [hmap]; exact hfind, hm.find hlen name⟩

/-- An entry that is set, found, deleted and set again. -/
theorem cache_run_buckets_one :
    ∃ h c l table,
      Run (BucketStep 8#64 4) ((ps4KernelCacheCreate twoStrings 4#64 8#64).2,
        ⟨none, none, fun _ => zeroHandle⟩)
        [.set [1] 7#64, .get [1], .delete [1], .set [1] 9#64] (h, c) ∧
      HashContainers.Represents hashJen c l ∧ h 8#64 = some (.cache (l.map Prod.fst) table) ∧
      ∀ a name, StringAt h a name → ∃ bytes length found, h a = some (.string bytes) ∧
        strnlen bytes ps4LimitStringLengthMaximum = .ok length ∧
        hashFind h bytes length (l.map Prod.fst) = .ok found ∧
        HashContainers.hashFind hashJen 4 c (storedKey name) = some found := by
  have hset : CacheStep 8#64 (ps4KernelCacheCreate twoStrings 4#64 8#64).2
    (.set [1] 7#64) oneEntry :=
    .set (a := 5#64) ⟨by decide, [], rfl⟩ fresh_supply rfl
  have hget : CacheStep 8#64 oneEntry (.get [1]) oneEntry :=
    .get (a := 6#64) ⟨by decide, [], rfl⟩
      (show ps4KernelCacheGet oneEntry 8#64 6#64 9#64 = .ok (ps4Ok, some 7#64) from rfl)
  obtain ⟨h₁, h₂, hdelete, hagain⟩ : ∃ h₁ h₂, CacheStep 8#64 oneEntry (.delete [1]) h₁ ∧
      CacheStep 8#64 h₁ (.set [1] 9#64) h₂ :=
    ⟨_, _, .delete (a := 6#64) ⟨by decide, [], rfl⟩ rfl, .set (a := 5#64) ⟨by decide, [], rfl⟩
      (.of_dead (a := 30#64) (b := 31#64) (c := 32#64) (d := 33#64) (by decide) rfl rfl rfl rfl)
        rfl⟩
  exact ⟨h₂, cache_run_buckets twoStrings 4#64 8#64 (by decide) (by decide) rfl _ _ h₂
    (.cons hset (.cons hget (.cons hdelete (.single hagain)))) 4 (by decide)⟩

end Ps4Sdk.KernelCaches
