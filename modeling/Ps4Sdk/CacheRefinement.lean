import Ps4Sdk.LazyModuleExecutions
import Ps4Sdk.LazyModuleFailures
import Ps4Sdk.SymbolLookUps

/-!
# The caches of the initialisers

The models of the initialisers have a map of names for a cache. A map and a cache on the heap with
the same entries give the same answers and are left with the same entries, and so does a look-up of
a symbol with its cache in place. Where nothing fails but the registration of the leaf, the
initialiser of the global cache is the same with failures and without.
-/

namespace Ps4Sdk.CacheRefinement
open HeapBlocks KernelCaches SymbolLookUps
open LazyModules (alone alone_call alone_load alone_dlSym alone_bind_eq_some alone_mtxLock
  alone_mtxUnlock alone_cacheGet alone_cacheSet alone_cacheGlobalLocked
  alone_cacheGlobalLocked_ready alone_cacheGlobalMake_register alone_initializing alone_leave
  alone_store alone_sysctlAddOid alone_sysctlCache alone_sysctlNode cacheGlobalTake fetched
  symbolFind)

def nameBytes (name : String) : List (BitVec 8) := name.toUTF8.data.toList.map UInt8.toBitVec

theorem nameBytes_inj {name name' : String} : nameBytes name = nameBytes name' ↔ name = name' := by
  unfold nameBytes
  rw [List.map_inj_right fun _ _ => UInt8.toBitVec_inj.mp, Array.toList_inj, ← ByteArray.ext_iff]
  exact String.toByteArray_inj

structure Named (h : KernelHeap) (a : Address) (name : String) : Prop where
  string : StringAt h a (nameBytes name)
  short : (nameBytes name).length ≤ ps4LimitStringLengthMaximum

/-- The cache on the heap has the entries of the map, as far as their names are keys. -/
def Reflects (cache : Address) (h : KernelHeap) (entries : String → Option Address) : Prop :=
  ∃ f, Holds cache h f ∧ ∀ name, (nameBytes name).length ≤ ps4LimitStringLengthMaximum →
    f (nameBytes name) = entries name

section

variable {cache a value : Address} {h : KernelHeap} {entries : String → Option Address}
  {name : String} {m : Supply}

theorem Named.key_eq (hn : Named h a name) : keyOf (nameBytes name) = nameBytes name :=
  List.take_of_length_le hn.short

theorem Reflects.get (hr : Reflects cache h entries) (hc : cache ≠ 0#64) (hn : Named h a name)
    (hv : value ≠ 0#64) :
    ps4KernelCacheGet h cache a value =
      .ok ((fetched (entries name)).code, some (fetched (entries name)).value) := by
  obtain ⟨_, ⟨base, slots, table, r, rfl⟩, hf⟩ := hr
  rw [r.get hc hv hn.string, hn.key_eq, hf name hn.short]
  cases entries name <;> rfl

theorem Reflects.update {f : List (BitVec 8) → Option Address} (hn : Named h a name)
    (hf : ∀ name, (nameBytes name).length ≤ ps4LimitStringLengthMaximum →
      f (nameBytes name) = entries name)
    {h' : KernelHeap} (hh : Holds cache h'
      (Function.update f (keyOf (nameBytes name)) (some value))) :
    Reflects cache h' (Function.update entries name (some value)) := by
  refine ⟨_, hh, fun name' hshort => ?_⟩
  rw [hn.key_eq]
  by_cases hname : name' = name
  · rw [hname, Function.update_self, Function.update_self]
  · rw [Function.update_of_ne (nameBytes_inj.not.mpr hname), Function.update_of_ne hname,
      hf name' hshort]

theorem Reflects.set (hr : Reflects cache h entries) (hc : cache ≠ 0#64) (hn : Named h a name)
    (hm : m.Fresh h) (value : Address) :
    ∃ h', ps4KernelCacheSet h cache a value m = .ok (ps4Ok, h') ∧
      Reflects cache h' (Function.update entries name (some value)) := by
  obtain ⟨_, ⟨base, slots, table, r, rfl⟩, hf⟩ := hr
  obtain ⟨h', slots', table', hset, r', hcontent⟩ := r.set hc hn.string hm value
  exact ⟨h', hset, .update hn hf ⟨base, slots', table', r', hcontent⟩⟩

/-! ### Statements of a thread -/

section

variable {symbols : String → Address} {i : ℕ} {k k' : LazyModules.Kernel}

theorem cacheGet_agrees (hr : Reflects cache h (k.content cache)) (hc : cache ≠ 0#64)
    (hn : Named h a name) (hv : value ≠ 0#64) :
    ∃ r, alone symbols i (LazyModules.ps4KernelCacheGet cache name .variable) k = some (r, k) ∧
      ps4KernelCacheGet h cache a value = .ok (r.code, some r.value) :=
  ⟨_, alone_cacheGet hc (by simp), hr.get hc hn hv⟩

theorem cacheSet_agrees (hr : Reflects cache h (k.content cache)) (hc : cache ≠ 0#64)
    (hn : Named h a name) (hm : m.Fresh h) (v : Address) : ∃ h' k',
      alone symbols i (LazyModules.ps4KernelCacheSet cache name v) k = some (⟨ps4Ok, 0#64⟩, k') ∧
      ps4KernelCacheSet h cache a v m = .ok (ps4Ok, h') ∧ Reflects cache h' (k'.content cache) := by
  obtain ⟨h', hset, hr'⟩ := hr.set hc hn hm v
  refine ⟨h', _, alone_cacheSet hc, hset, ?_⟩
  change Reflects cache h' (Function.update k.content cache _ cache)
  rwa [Function.update_self]

/-- A look-up with the cache and the mutex in place returns the same in both models, and leaves the
same entries. -/
theorem symbolLookUp_agrees {elf : Elf} {s : Lookups} {r : LazyModules.Returned}
    (hsymbols : symbols name = symbolOf elf (nameBytes name))
    (hcache : k.static .symbolCache = cache)
    (hr : Reflects cache s.heap (k.content cache)) (hc : cache ≠ 0#64) (hn : Named s.heap a name)
    (ha : a ≠ 0#64) (hv : value ≠ 0#64) (hm : m.Fresh s.heap)
    (h : alone symbols i (symbolFind name .variable) k = some (r, k')) :
    ∃ s', ps4KernelSymbolLookUp elf cache s a value m = .ok (r.code, some r.value, s') ∧
      Reflects cache s'.heap (k'.content cache) := by
  subst hcache
  obtain ⟨-, hreturns⟩ := LazyModules.symbolFind_returns h hc
  obtain ⟨f, hf, hentries⟩ := id hr
  have hkey : f (keyOf (nameBytes name)) = k.content (k.static .symbolCache) name := by
    rw [hn.key_eq, hentries name hn.short]
  cases hentry : k.content (k.static .symbolCache) name with
  | some v =>
    simp only [hentry] at hreturns
    obtain ⟨rfl, hcontent⟩ := hreturns
    exact ⟨s, lookUp_cached hf hc hn.string ha hv (hkey.trans hentry), hcontent ▸ hr⟩
  | none =>
    simp only [hentry] at hreturns
    obtain ⟨rfl, hcontent⟩ := hreturns
    obtain ⟨heap, hheap, hlookUp⟩ := lookUp_missing elf hf hc hn.string hm ha hv (hkey.trans hentry)
    have hleft := Reflects.update hn hentries hheap
    rw [hlookUp, hcontent, hsymbols]
    by_cases hzero : symbolOf elf (nameBytes name) = 0#64
    · exact ⟨⟨heap, s.depth + 1⟩, by rw [if_pos hzero, if_pos hzero, hzero], hleft⟩
    · exact ⟨⟨heap, s.depth⟩, by rw [if_neg hzero, if_neg hzero], hleft⟩

end

/-! ### Calls that may fail -/

section

variable {e : LazyModuleFailures.Environment} {k : LazyModuleFailures.Kernel}

theorem failing_cacheGet_agrees (hk : k.caches cache = some entries) (hr : Reflects cache h entries)
    (hc : cache ≠ 0#64) (hn : Named h a name) (hv : value ≠ 0#64) : ∃ r,
      LazyModuleFailures.ps4KernelCacheGet k cache name = .ok r ∧
      ps4KernelCacheGet h cache a value = .ok (r.code, r.stored) := by
  rw [hr.get hc hn hv, LazyModuleFailures.ps4KernelCacheGet, if_neg hc]
  simp only [LazyModuleFailures.Kernel.entries, hk, bind, Except.bind, pure, Except.pure]
  cases entries name <;> exact ⟨_, rfl, rfl⟩

theorem failing_cacheSet_agrees (hk : k.caches cache = some entries) (hr : Reflects cache h entries)
    (hc : cache ≠ 0#64) (hn : Named h a name) (hm : m.Fresh h)
    (hentry : e.entry name = true) (v : Address) :
    ∃ h' k' entries', LazyModuleFailures.ps4KernelCacheSet e k cache name v =
      .ok (⟨ps4Ok, none⟩, k') ∧
      k'.caches cache = some entries' ∧ ps4KernelCacheSet h cache a v m = .ok (ps4Ok, h') ∧
      Reflects cache h' entries' := by
  obtain ⟨h', hset, hr'⟩ := hr.set hc hn hm v
  refine ⟨h', { k with
    caches := Function.update k.caches cache (some (Function.update entries name (some v))) }, _,
      ?_, Function.update_self .., hset, hr'⟩
  rw [LazyModuleFailures.ps4KernelCacheSet, if_neg hc]
  simp [LazyModuleFailures.Kernel.entries, hk, hentry, bind, Except.bind, pure, Except.pure]

end

end

/-! ### The initialiser of the global cache -/

def view (k : LazyModules.Kernel) (attempts : ℕ) : LazyModuleFailures.Kernel where
  globalCache := k.static .globalCache
  cacheGlobalMutex := k.static .cacheGlobalMutex
  symbolCache := k.static .symbolCache
  symbolLookUpMutex := k.static .symbolLookUpMutex
  caches := fun a => some (k.content a)
  mutexes := k.initialized
  leaf := k.leaf
  attempts := attempts

/-- The answers where nothing fails but the registration of the leaf. -/
def answers (k : LazyModules.Kernel) : LazyModuleFailures.Answers :=
  ⟨true, k.supply[0]?, k.supply[1]?, k.supply[2]?, k.node, true, k.adds⟩

section

variable {symbols : String → Address} {i : ℕ} {k k' : LazyModules.Kernel}
  {e : LazyModuleFailures.Environment} {n : ℕ} {r : LazyModules.Returned}

private theorem view_update (f : Address → String → Option Address) (a : Address)
    (entries : String → Option Address) :
    Function.update (fun a => some (f a)) a (some entries) =
      fun x => some (Function.update f a entries x) := by
  funext x
  by_cases hx : x = a
  · rw [hx, Function.update_self, Function.update_self]
  · rw [Function.update_of_ne hx, Function.update_of_ne hx]

theorem cacheGlobalInitialize_agrees (hnull : 0#64 ∉ k.supply) (hleaf : k.leaf ≠ some 0#64)
    (hnode : k.node ≠ .other) (he : e.answers n = answers k)
    (hentry : e.entry LazyModules.ps4KernelCacheGlobalMutexName = true)
    (h : alone symbols i LazyModules.ps4KernelCacheGlobalInitialize k = some (r, k')) :
    LazyModuleFailures.ps4KernelCacheGlobalInitialize e (view k n) =
      .ok (r.code, view k' (n + 1)) := by
  rw [LazyModules.ps4KernelCacheGlobalInitialize, alone_dlSym] at h
  obtain ⟨_, k₁, hlock, h⟩ := alone_bind_eq_some.mp h
  obtain ⟨owner, rfl⟩ := alone_mtxLock hlock
  rw [alone_sysctlCache] at h
  cases hk : k.leaf with
  | some g =>
    have hg : g ≠ 0#64 := fun hg => hleaf (hg ▸ hk)
    simp only [hk, cacheGlobalTake, alone_store, alone_load, Function.update_self] at h
    rw [alone_call (alone_cacheGet hg (by simp)), alone_leave] at h
    obtain ⟨_, k₂, hunlock, h⟩ := alone_bind_eq_some.mp h
    obtain ⟨owner', rfl⟩ := alone_mtxUnlock hunlock
    cases h
    simp only [LazyModuleFailures.ps4KernelCacheGlobalInitialize, view, he, answers,
      LazyModuleFailures.Answers.leaf, hk, if_true, LazyModuleFailures.ps4KernelCacheGet, if_neg hg,
      LazyModuleFailures.Kernel.entries, bind, Except.bind, pure, Except.pure]
    cases k.content g LazyModules.ps4KernelCacheGlobalMutexName <;>
      simp [fetched, LazyModules.Kernel.written]
  | none =>
    simp only [hk] at h
    obtain ⟨a, c, m, rest, hsupply, h⟩ := alone_cacheGlobalMake_register h hnull
    replace hsupply : k.supply = a :: c :: m :: rest := hsupply
    have hm : m ≠ 0#64 := fun hm => hnull (by simp [hsupply, hm])
    have ha : a ≠ 0#64 := fun ha => hnull (by simp [hsupply, ha])
    rw [LazyModules.cacheGlobalRegister, alone_sysctlNode] at h
    cases hnd : k.node with
    | other => exact absurd hnd hnode
    | _ =>
      simp only [hnd, alone_sysctlAddOid, alone_leave] at h
      obtain ⟨_, k₅, hunlock, h⟩ := alone_bind_eq_some.mp h
      obtain ⟨owner', rfl⟩ := alone_mtxUnlock hunlock
      cases h
      cases hadds : k.adds <;>
        simp [LazyModuleFailures.ps4KernelCacheGlobalInitialize, LazyModuleFailures.cacheGlobalMake,
          LazyModuleFailures.ps4KernelCacheCreate, LazyModuleFailures.ps4KernelCacheSet,
          LazyModuleFailures.cacheGlobalRegister, LazyModuleFailures.Kernel.entries,
          LazyModuleFailures.Answers.leaf,
          he, answers, view, hk, hsupply, hnd, hadds, ha, hm, hentry, view_update, bind,
          Except.bind, pure, Except.pure]

theorem cacheGlobalGet_agrees {name : String} (hg : k.static .globalCache ≠ 0#64)
    (h : alone symbols i (LazyModules.ps4KernelCacheGlobalGet (some name) .variable) k =
      some (r, k')) :
    LazyModuleFailures.ps4KernelCacheGlobalGet e (view k n) name =
      .ok (⟨r.code, some r.value⟩, view k' n) := by
  rw [LazyModules.ps4KernelCacheGlobalGet, alone_initializing hg] at h
  simp only [reduceCtorEq, if_false] at h
  have hready := alone_cacheGlobalLocked_ready h
  obtain ⟨owner, owner', k₁, huse, rfl⟩ := alone_cacheGlobalLocked h
  rw [alone_cacheGet hg (by simp)] at huse
  cases huse
  rw [LazyModuleFailures.ps4KernelCacheGlobalGet, LazyModuleFailures.initializing,
    if_neg (show (view k n).globalCache ≠ 0#64 from hg)]
  simp only [LazyModuleFailures.Kernel.lock, view, if_neg hready.1, hready.2, if_true,
    LazyModuleFailures.ps4KernelCacheGet, hg, if_false, LazyModuleFailures.Kernel.entries, bind,
    Except.bind, pure, Except.pure]
  cases k.content (k.static .globalCache) name <;> rfl

end

end Ps4Sdk.CacheRefinement
