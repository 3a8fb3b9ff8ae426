import Ps4Sdk.KernelCacheUpdates
import Ps4Sdk.StepRuns

/-!
# The kernel cache as a finite map

The calls on a created cache behave as those on a map from keys to values. Between
the calls the callers may overwrite or free whatever does not belong to the cache.
-/

namespace Ps4Sdk.KernelCaches
open HeapBlocks StepRuns

/-- A call with the string its name is, or something the callers do to other blocks. -/
inductive CacheAction
  | set (name : List (BitVec 8)) (value : Address)
  | delete (name : List (BitVec 8))
  | get (name : List (BitVec 8))
  | callers

/-- The blocks that the cache reaches: its own, its entries, their names and the container. -/
def Reaches (h : KernelHeap) (cache a : Address) : Prop :=
  a = cache ∨ ∃ handle table, h cache = some (.cache handle table) ∧
    ((∃ t b, table = some (t, b) ∧ (a = t ∨ a = b)) ∨
      ∃ entry ∈ handle, a = entry ∨ ∃ value key n, h entry = some (.entry a value key n))

inductive CacheStep (cache : Address) : KernelHeap → CacheAction → KernelHeap → Prop
  | set {h h' : KernelHeap} {a value : Address} {name : List (BitVec 8)} {m : Supply} {code : Code}
      (string : StringAt h a name) (fresh : m.Fresh h)
      (call : ps4KernelCacheSet h cache a value m = .ok (code, h')) :
      CacheStep cache h (.set name value) h'
  | delete {h h' : KernelHeap} {a : Address} {name : List (BitVec 8)} {code : Code}
      (string : StringAt h a name)
      (call : ps4KernelCacheDelete h cache a = .ok (code, h')) : CacheStep cache h (.delete name) h'
  | get {h : KernelHeap} {a value : Address} {name : List (BitVec 8)}
      {result : Code × Option Address}
      (string : StringAt h a name)
      (call : ps4KernelCacheGet h cache a value = .ok result) : CacheStep cache h (.get name) h
  | callers {h h' : KernelHeap} (others : ∀ a, Reaches h cache a → h' a = h a) :
      CacheStep cache h .callers h'

def CacheAction.apply (f : List (BitVec 8) → Option Address) : CacheAction → List (BitVec 8) →
    Option Address
  | .set name value => Function.update f (keyOf name) (some value)
  | .delete name => Function.update f (keyOf name) none
  | .get _ | .callers => f

/-- What the calls have made of an empty map. -/
def mapped (actions : List CacheAction) : List (BitVec 8) → Option Address :=
  actions.foldl CacheAction.apply (fun _ => none)

/-- The cache holds the map. -/
def Holds (cache : Address) (h : KernelHeap) (f : List (BitVec 8) → Option Address) : Prop :=
  ∃ base slots table, Represents base h cache slots table [] ∧ content slots = f

theorem represents_created (h : KernelHeap) {cache : Address} (fresh : h cache = none) :
    Represents h (put h cache (.cache [] none)) cache [] none [] where
  owns := (Owns.nil h).allocate fresh _
  keys := List.nodup_nil
  table := by simp

theorem Represents.abandon {base h : KernelHeap} {cache : Address} {slots : List Slot}
    {table : Option (Address × Address)} {left : List (Address × Block)}
    (r : Represents base h cache slots table left) :
    ∃ base', Represents base' h cache slots table [] := by
  induction left generalizing base with
  | nil => exact ⟨base, r⟩
  | cons p left ih =>
    have ho := (r.owns.perm List.perm_middle).abandon
    exact ih ⟨ho, r.keys, r.table⟩

theorem Represents.reaches {base h : KernelHeap} {cache : Address} {slots : List Slot}
    {table : Option (Address × Address)} (r : Represents base h cache slots table [])
    {p : Address × Block} (hp : p ∈ blocks cache slots table ++ []) : Reaches h cache p.1 := by
  rw [List.append_nil, blocks, List.mem_cons, List.mem_append, List.mem_flatMap] at hp
  rcases hp with rfl | hp | ⟨s, hs, hp⟩
  · exact .inl rfl
  · refine .inr ⟨_, _, r.cache_eq, .inl ?_⟩
    cases table with
    | none => simp [containerBlocks] at hp
    | some tb =>
      refine ⟨tb.1, tb.2, rfl, ?_⟩
      simp only [containerBlocks, List.mem_cons, List.not_mem_nil, or_false] at hp
      rcases hp with rfl | rfl
      · exact .inr rfl
      · exact .inl rfl
  · refine .inr ⟨_, _, r.cache_eq, .inr ⟨s.entry, List.mem_map_of_mem hs, ?_⟩⟩
    simp only [Slot.blocks, List.mem_cons, List.not_mem_nil, or_false] at hp
    rcases hp with rfl | rfl
    · exact .inl rfl
    · exact .inr ⟨_, _, _, r.entry_eq hs⟩

theorem Holds.step {cache : Address} (hc : cache ≠ 0#64) {h h' : KernelHeap}
    {f : List (BitVec 8) → Option Address} {action : CacheAction} (hf : Holds cache h f)
    (hs : CacheStep cache h action h') :
    Holds cache h' (action.apply f) := by
  obtain ⟨base, slots, table, r, rfl⟩ := hf
  cases hs with
  | set string fresh call =>
    obtain ⟨h₁, slots', table', hcall, r', hcontent⟩ := r.set hc string fresh _
    rw [hcall] at call
    cases call
    exact ⟨base, slots', table', r', hcontent⟩
  | delete string call =>
    obtain ⟨h₁, slots', table', left', hcall, r', -, hcontent⟩ := r.delete hc string
    rw [hcall] at call
    cases call
    obtain ⟨base', r''⟩ := r'.abandon
    exact ⟨base', slots', table', r'', hcontent⟩
  | get string call => exact ⟨base, slots, table, r, rfl⟩
  | callers others =>
    obtain ⟨base', ho⟩ := r.owns.others (fun p hp => others p.1 (r.reaches hp))
    exact ⟨base', slots, table, ⟨ho, r.keys, r.table⟩, rfl⟩

theorem Holds.run {cache : Address} (hc : cache ≠ 0#64) {h₀ h : KernelHeap}
    (fresh : h₀ cache = none) {actions : List CacheAction}
    (hr : Run (CacheStep cache) (put h₀ cache (.cache [] none)) actions h) :
    Holds cache h (mapped actions) :=
  hr.simulation (Holds cache) (fun _ _ _ _ hf hs => hf.step hc hs)
    ⟨h₀, [], none, represents_created h₀ fresh, rfl⟩

/-- After any calls on a created cache, whatever the callers do to the strings in between, a
call behaves as on the map that the earlier calls have made. -/
theorem cache_finite_map (h₀ : KernelHeap) (out cache : Address) (ho : out ≠ 0#64)
    (hc : cache ≠ 0#64) (fresh : h₀ cache = none) (actions : List CacheAction) (h : KernelHeap)
    (hr : Run (CacheStep cache) (ps4KernelCacheCreate h₀ out cache).2 actions h)
    (name : List (BitVec 8)) (a value : Address) (hs : StringAt h a name) :
    (value ≠ 0#64 → ps4KernelCacheGet h cache a value = .ok (match mapped actions (keyOf name) with
      | some v => (ps4Ok, some v)
      | none => (ps4ErrorNotFound, some 0#64))) ∧
    (∀ m : Supply, m.Fresh h → ∃ h', ps4KernelCacheSet h cache a value m = .ok (ps4Ok, h')) ∧
    ∃ h', ps4KernelCacheDelete h cache a =
      .ok (if mapped actions (keyOf name) = none then ps4ErrorNotFound else ps4Ok, h') := by
  rw [ps4KernelCacheCreate, if_neg ho] at hr
  obtain ⟨base, slots, table, r, hcontent⟩ := Holds.run hc fresh hr
  rw [← hcontent]
  refine ⟨fun hv => r.get hc hv hs, ?_, ?_⟩
  · intro m hm
    obtain ⟨h', -, -, hset, -⟩ := r.set hc hs hm value
    exact ⟨h', hset⟩
  · obtain ⟨h', -, -, -, hdelete, -⟩ := r.delete hc hs
    exact ⟨h', hdelete⟩

def twoStrings : KernelHeap := fun a => if a = 5#64 ∨ a = 6#64 then some (.string [1, 0]) else none

/-- The cache at 8 with its first entry, whose key was at 5. -/
def oneEntry : KernelHeap :=
  let h := put (ps4KernelCacheCreate twoStrings 4#64 8#64).2 20#64 (.entry 21#64 7#64 0#64 0)
  let h := put (put h 21#64 (.string [1, 0])) 20#64 (.entry 21#64 7#64 21#64 1)
  put (put (put h 22#64 .container) 23#64 .container) 8#64 (.cache [20#64] (some (22#64, 23#64)))

theorem Supply.Fresh.of_dead {h : KernelHeap} {a b c d : Address} (hn : [a, b, c, d].Nodup)
    (ha : h a = none) (hb : h b = none) (hc : h c = none) (hd : h d = none) :
    Supply.Fresh ⟨a, b, c, d, none⟩ h := by
  refine ⟨hn, fun x hx => ?_⟩
  simp only [Supply.addresses, Option.toList_none, List.append_nil, List.mem_cons,
    List.not_mem_nil, or_false] at hx
  rcases hx with rfl | rfl | rfl | rfl <;> assumption

theorem fresh_supply :
    Supply.Fresh ⟨20#64, 21#64, 22#64, 23#64, none⟩ (ps4KernelCacheCreate twoStrings 4#64 8#64).2 :=
  .of_dead (by decide) rfl rfl rfl rfl

theorem cache_finite_map_freed_name :
    ps4KernelCacheGet (erase oneEntry 5#64) 8#64 6#64 9#64 = .ok (ps4Ok, some 7#64) := by
  have hset : CacheStep 8#64 (ps4KernelCacheCreate twoStrings 4#64 8#64).2
    (.set [1] 7#64) oneEntry :=
    .set (a := 5#64) ⟨by decide, [], rfl⟩ fresh_supply rfl
  have hfree : CacheStep 8#64 oneEntry .callers (erase oneEntry 5#64) := by
    apply CacheStep.callers
    intro a ha
    apply erase_other
    rcases ha with rfl | ⟨handle, table, hcache, ha⟩
    · decide
    · have hcache' : oneEntry 8#64 = some (.cache [20#64] (some (22#64, 23#64))) := rfl
      rw [hcache'] at hcache
      cases hcache
      rcases ha with ⟨t, b, htable, ha⟩ | ⟨entry, hentry, ha⟩
      · cases htable
        rcases ha with rfl | rfl <;> decide
      · cases List.mem_singleton.mp hentry
        rcases ha with rfl | ⟨value, key, n, ha⟩
        · decide
        · cases ha
          decide
  have hr := Run.cons hset (Run.single hfree)
  exact (cache_finite_map twoStrings 4#64 8#64 (by decide) (by decide) rfl _ _ hr [1] 6#64 9#64
    ⟨by decide, [], rfl⟩).1 (by decide)

end Ps4Sdk.KernelCaches
