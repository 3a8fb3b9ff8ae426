import Ps4Sdk.FallibleCalls
import Ps4Sdk.LazyModules

/-!
# Initialisers that fail

The first calls of the global cache and of the symbol look-up, alone, with allocations
and sysctl calls that may fail. Each evaluation of the initialiser of the global cache
meets the answers of one attempt. A call that stores through a null pointer, or uses a
destroyed cache or a mutex that is not initialised, does not return.
-/

namespace Ps4Sdk.LazyModuleFailures
open FallibleCalls
open LazyModules (NodeAnswer ps4KernelCacheGlobalMutexName ps4KernelCacheSymbolLookupCache
  ps4KernelCacheSymbolLookupMutex)

inductive Fault
  | nullPointer | destroyedCache | freedMutex
  deriving DecidableEq

/-- The static pointers of `cache_global.c` and `symbol.c`, the caches and the mutexes that
can be used, the sysctl leaf `ps4.cache`, and how often the initialiser of the global cache
has been evaluated. -/
structure Kernel where
  globalCache : Address
  cacheGlobalMutex : Address
  symbolCache : Address
  symbolLookUpMutex : Address
  caches : Address → Option (String → Option Address)
  mutexes : Address → Bool
  leaf : Option Address
  attempts : ℕ

/-- What an evaluation of `ps4KernelCacheGlobalInitialize` is answered: whether the leaf can
be read, the blocks for the cache, for the cell that the leaf points to and for the mutex,
the node `ps4`, whether the strings and the node that the leaf is added with are there, and
whether the leaf is added. -/
structure Answers where
  reads : Bool
  cache : Option Address
  cell : Option Address
  mutex : Option Address
  node : NodeAnswer
  parent : Bool
  adds : Bool

/-- The answers to each attempt, the blocks for the cache and the mutex of the symbols, and
whether there is memory for a new entry. -/
structure Environment where
  answers : ℕ → Answers
  symbolCache : Option Address
  symbolLookUpMutex : Option Address
  entry : String → Bool

/-- A result code, and what was stored through the pointer to the result. -/
structure Returned where
  code : Code
  stored : Option Address

/-! ### Caches and mutexes -/

def Kernel.lock (k : Kernel) (mutex : Address) : Except Fault Unit :=
  if mutex = 0#64 then .error .nullPointer
  else if k.mutexes mutex then .ok ()
  else .error .freedMutex

def Kernel.entries (k : Kernel) (cache : Address) : Except Fault (String → Option Address) :=
  match k.caches cache with
  | some entries => .ok entries
  | none => .error .destroyedCache

/-- The block is stored in a static pointer first. -/
def ps4KernelCacheCreate (memory : Option Address) (store : Address → Kernel) :
    Except Fault (Code × Kernel) :=
  match memory with
  | none => .error .nullPointer
  | some a => .ok
      (ps4Ok, { store a with caches := Function.update (store a).caches a (some fun _ => none) })

def ps4KernelCacheDestroy (k : Kernel) (cache : Address) : Except Fault Kernel :=
  if cache = 0#64 then .ok k
  else do
    let _ ← k.entries cache
    return { k with caches := Function.update k.caches cache none }

def ps4KernelCacheGet (k : Kernel) (cache : Address) (name : String) : Except Fault Returned :=
  if cache = 0#64 then .ok ⟨ps4ErrorArgumentPrimaryMissing, none⟩
  else do
    let entries ← k.entries cache
    match entries name with
    | none => return ⟨ps4ErrorNotFound, some 0#64⟩
    | some value => return ⟨ps4Ok, some value⟩

def ps4KernelCacheSet (e : Environment) (k : Kernel) (cache : Address) (name : String)
    (value : Address) :
    Except Fault (Returned × Kernel) :=
  if cache = 0#64 then .ok (⟨ps4ErrorArgumentPrimaryMissing, none⟩, k)
  else do
    let entries ← k.entries cache
    if entries name = none ∧ e.entry name = false then throw .nullPointer
    return (⟨ps4Ok, none⟩, { k with
      caches := Function.update k.caches cache (some (Function.update entries name (some value))) })

/-! ### The global cache -/

def Answers.leaf (answers : Answers) (k : Kernel) : Option Address :=
  if answers.reads then k.leaf else none

def cacheGlobalRegister (answers : Answers) (k : Kernel) : Except Fault (Code × Kernel) :=
  match answers.node with
  | .other => do
    let k := { k with mutexes := Function.update k.mutexes k.cacheGlobalMutex false }
    let k ← ps4KernelCacheDestroy k k.globalCache
    return (ps4ErrorInternalError, k)
  | _ =>
    if answers.parent = false then .error .nullPointer
    else if answers.adds then .ok (ps4Ok, { k with leaf := some k.globalCache })
    else .ok (ps4NotOk, k)

def cacheGlobalMake (e : Environment) (answers : Answers) (k : Kernel) :
    Except Fault (Code × Kernel) := do
  let (r, k) ← ps4KernelCacheCreate answers.cache (fun a => { k with globalCache := a })
  if r ≠ ps4Ok then return (r, k)
  if answers.cell = none then
    let k ← ps4KernelCacheDestroy k k.globalCache
    return (ps4ErrorKernelOutOfMemory, k)
  let k := { k with cacheGlobalMutex := answers.mutex.getD 0#64 }
  if k.cacheGlobalMutex = 0#64 then
    let k ← ps4KernelCacheDestroy k k.globalCache
    return (ps4ErrorKernelOutOfMemory, k)
  let k := { k with mutexes := Function.update k.mutexes k.cacheGlobalMutex true }
  let (_, k) ← ps4KernelCacheSet e k k.globalCache ps4KernelCacheGlobalMutexName k.cacheGlobalMutex
  cacheGlobalRegister answers k

def ps4KernelCacheGlobalInitialize (e : Environment) (k : Kernel) : Except Fault (Code × Kernel) :=
  do
  let answers := e.answers k.attempts
  let k := { k with attempts := k.attempts + 1 }
  match answers.leaf k with
  | some cache =>
    let k := { k with globalCache := cache }
    let r ← ps4KernelCacheGet k k.globalCache ps4KernelCacheGlobalMutexName
    return (ps4Ok, { k with cacheGlobalMutex := r.stored.getD k.cacheGlobalMutex })
  | none => cacheGlobalMake e answers k

/-- `if(cache == NULL) ps4ExpressionReturnOnError(ps4KernelCacheGlobalInitialize());`, which
evaluates the initialiser again to return its code. -/
def initializing (e : Environment) (k : Kernel) (rest : Kernel → Except Fault (Returned × Kernel)) :
    Except Fault (Returned × Kernel) :=
  if k.globalCache = 0#64 then do
    let (r, k) ← ps4KernelCacheGlobalInitialize e k
    if r ≠ ps4Ok then
      let (again, k) ← ps4KernelCacheGlobalInitialize e k
      return (⟨again, none⟩, k)
    rest k
  else rest k

def ps4KernelCacheGlobalGet (e : Environment) (k : Kernel) (name : String) :
    Except Fault (Returned × Kernel) :=
  initializing e k fun k => do
    k.lock k.cacheGlobalMutex
    let r ← ps4KernelCacheGet k k.globalCache name
    return (r, k)

def ps4KernelCacheGlobalSet (e : Environment) (k : Kernel) (name : String) (value : Address) :
    Except Fault (Returned × Kernel) :=
  initializing e k fun k =>
    if value = 0#64 then .ok (⟨ps4ErrorArgumentMissing, none⟩, k)
    else do
      k.lock k.cacheGlobalMutex
      ps4KernelCacheSet e k k.globalCache name value

/-! ### The symbol look-up -/

def symbolMake (e : Environment) (k : Kernel) : Except Fault (Code × Kernel) := do
  let (r, k) ← ps4KernelCacheCreate e.symbolCache (fun a => { k with symbolCache := a })
  if r ≠ ps4Ok then return (r, k)
  let (_, k) ← ps4KernelCacheGlobalSet e k ps4KernelCacheSymbolLookupCache k.symbolCache
  let k := { k with symbolLookUpMutex := e.symbolLookUpMutex.getD 0#64 }
  if k.symbolLookUpMutex = 0#64 then
    let k ← ps4KernelCacheDestroy k k.symbolCache
    return (ps4ErrorKernelOutOfMemory, k)
  let k := { k with mutexes := Function.update k.mutexes k.symbolLookUpMutex true }
  let (_, k) ← ps4KernelCacheGlobalSet e k ps4KernelCacheSymbolLookupMutex k.symbolLookUpMutex
  return (ps4Ok, k)

/-- The block of `ps4KernelSymbolLookUp` that initialises the module. -/
def symbolInitialize (e : Environment) (k : Kernel) : Except Fault (Code × Kernel) := do
  let (r, k) ← ps4KernelCacheGlobalGet e k ps4KernelCacheSymbolLookupCache
  let k := { k with symbolCache := r.stored.getD k.symbolCache }
  if r.code ≠ ps4Ok then symbolMake e k
  else
    let (r, k) ← ps4KernelCacheGlobalGet e k ps4KernelCacheSymbolLookupMutex
    return (ps4Ok, { k with symbolLookUpMutex := r.stored.getD k.symbolLookUpMutex })

/-! ### What an evaluation of the initialiser does -/

/-- The answers with which a new global cache is made, as far as it returns. -/
structure Answers.Succeeds (answers : Answers) : Prop where
  cell : answers.cell ≠ none
  mutex : answers.mutex.getD 0#64 ≠ 0#64
  node : answers.node ≠ .other
  adds : answers.adds = true

theorem create_ok {memory : Option Address} {store : Address → Kernel} {r : Code} {k : Kernel}
    (h : ps4KernelCacheCreate memory store = .ok (r, k)) : ∃ a, memory = some a ∧ r = ps4Ok ∧
      k = { store a with caches := Function.update (store a).caches a (some fun _ => none) } := by
  cases memory with
  | none => cases h
  | some a =>
    cases h
    exact ⟨a, rfl, rfl, rfl⟩

theorem destroy_ok {k k' : Kernel} {cache : Address} (h : ps4KernelCacheDestroy k cache = .ok k') :
    ∃ caches, k' = { k with caches := caches } := by
  unfold ps4KernelCacheDestroy at h
  split_ifs at h
  · cases h
    exact ⟨_, rfl⟩
  · obtain ⟨entries, -, hk⟩ := bind_eq_ok.mp h
    cases hk
    exact ⟨_, rfl⟩

theorem entries_ok {k : Kernel} {cache : Address} {entries : String → Option Address}
    (h : k.entries cache = .ok entries) : k.caches cache = some entries := by
  unfold Kernel.entries at h
  cases hk : k.caches cache with
  | none =>
    rw [hk] at h
    cases h
  | some other =>
    rw [hk] at h
    cases h
    rfl

theorem set_ok {e : Environment} {k k' : Kernel} {cache value : Address} {name : String}
    {r : Returned} (h : ps4KernelCacheSet e k cache name value = .ok (r, k')) : k' = k ∧
    cache = 0#64 ∨
      ∃ entries, k.caches cache = some entries ∧
        k' = { k with
          caches := Function.update k.caches cache
              (some (Function.update entries name (some value))) } := by
  unfold ps4KernelCacheSet at h
  by_cases hc : cache = 0#64
  · rw [if_pos hc] at h
    cases h
    exact .inl ⟨rfl, hc⟩
  · rw [if_neg hc] at h
    obtain ⟨entries, hentries, hrest⟩ := bind_eq_ok.mp h
    refine .inr ⟨entries, entries_ok hentries, ?_⟩
    split_ifs at hrest
    · cases hrest
    · cases hrest
      rfl

structure Made (answers : Answers) (k : Kernel) (r : Code) (k' : Kernel) : Prop where
  cache : answers.cache = some k'.globalCache
  code : r = ps4Ok ↔ answers.Succeeds
  leaf : r ≠ ps4Ok → k'.leaf = k.leaf
  attempts : k'.attempts = k.attempts
  symbolCache : k'.symbolCache = k.symbolCache
  entries : r = ps4Ok → k'.globalCache ≠ 0#64 → ∃ mutex,
    k'.caches k'.globalCache =
      some (Function.update (fun _ => none) ps4KernelCacheGlobalMutexName (some mutex))

theorem register_ok {answers : Answers} {k k' : Kernel} {r : Code} (hcell : answers.cell ≠ none)
    (hmutex : answers.mutex.getD 0#64 ≠ 0#64) (hcache : answers.cache = some k.globalCache)
    (hentries : k.globalCache ≠ 0#64 → ∃ mutex, k.caches k.globalCache =
      some (Function.update (fun _ => none) ps4KernelCacheGlobalMutexName (some mutex)))
    (h : cacheGlobalRegister answers k = .ok (r, k')) : Made answers k r k' := by
  unfold cacheGlobalRegister at h
  have hadd : answers.node ≠ .other → (if answers.parent = false then .error .nullPointer
      else if answers.adds then .ok (ps4Ok, { k with leaf := some k.globalCache })
      else .ok (ps4NotOk, k) : Except Fault (Code × Kernel)) = .ok (r, k') →
      Made answers k r k' := by
    intro hnode h
    split_ifs at h with hparent hadds
    · cases h
      exact ⟨hcache, iff_of_true rfl ⟨hcell, hmutex, hnode, hadds⟩, fun hr => absurd rfl hr, rfl,
        rfl,
        fun _ => hentries⟩
    · cases h
      exact ⟨hcache, iff_of_false (by decide) (fun hs => hadds hs.adds), fun _ => rfl, rfl, rfl,
        fun hr => absurd hr (by decide)⟩
  cases hnode : answers.node with
  | other =>
    rw [hnode] at h
    obtain ⟨k₁, hk, hr⟩ := bind_eq_ok.mp h
    obtain ⟨caches, rfl⟩ := destroy_ok hk
    cases hr
    exact ⟨hcache, iff_of_false (by decide) (fun hs => hs.node hnode), fun _ => rfl, rfl, rfl,
      fun hr => absurd hr (by decide)⟩
  | enoent =>
    rw [hnode] at h
    exact hadd (by rw [hnode]; decide) h
  | eisdir =>
    rw [hnode] at h
    exact hadd (by rw [hnode]; decide) h

theorem made_of_destroyed {answers : Answers} {k k₁ k' : Kernel} {cache : Address}
    {r : Code} (h : (do
      let k ← ps4KernelCacheDestroy k₁ cache
      return (ps4ErrorKernelOutOfMemory, k) : Except Fault (Code × Kernel)) = .ok (r, k'))
    (hcache : answers.cache = some k₁.globalCache) (hfails : ¬answers.Succeeds)
    (hleaf : k₁.leaf = k.leaf)
    (hattempts : k₁.attempts = k.attempts) (hsymbol : k₁.symbolCache = k.symbolCache) :
    Made answers k r k' := by
  obtain ⟨k₂, hk, hr⟩ := bind_eq_ok.mp h
  obtain ⟨caches, rfl⟩ := destroy_ok hk
  cases hr
  exact ⟨hcache, iff_of_false (by decide) hfails, fun _ => hleaf, hattempts, hsymbol,
    fun hr => absurd hr (by decide)⟩

theorem make_ok {e : Environment} {answers : Answers} {k k' : Kernel} {r : Code}
    (h : cacheGlobalMake e answers k = .ok (r, k')) : Made answers k r k' := by
  obtain ⟨⟨r₁, k₁⟩, hcreate, h⟩ := bind_eq_ok.mp h
  obtain ⟨a, hcache, rfl, rfl⟩ := create_ok hcreate
  simp only [ne_eq, not_true_eq_false, if_false] at h
  by_cases hcell : answers.cell = none
  · simp only [hcell, if_true] at h
    exact made_of_destroyed h hcache (fun hs => hs.cell hcell) rfl rfl rfl
  · simp only [hcell, if_false] at h
    by_cases hmutex : answers.mutex.getD 0#64 = 0#64
    · simp only [hmutex, if_true] at h
      exact made_of_destroyed h hcache (fun hs => hs.mutex hmutex) rfl rfl rfl
    · simp only [hmutex, if_false] at h
      obtain ⟨⟨r₂, k₂⟩, hset, h⟩ := bind_eq_ok.mp h
      rcases set_ok hset with ⟨rfl, hnull⟩ | ⟨entries, hentries, rfl⟩
      · obtain ⟨h₁, h₂, h₃, h₄, h₅, h₆⟩ :=
          register_ok hcell hmutex hcache (fun hn => absurd hnull hn) h
        exact ⟨h₁, h₂, h₃, h₄, h₅, h₆⟩
      · obtain rfl : (fun _ => none) = entries := by simpa using hentries
        obtain ⟨h₁, h₂, h₃, h₄, h₅, h₆⟩ :=
          register_ok hcell hmutex hcache (fun _ => ⟨_, Function.update_self ..⟩) h
        exact ⟨h₁, h₂, h₃, h₄, h₅, h₆⟩

/-- What an evaluation of the initialiser does, if it returns. -/
theorem initialize_ok {e : Environment} {k k' : Kernel} {r : Code}
    (h : ps4KernelCacheGlobalInitialize e k = .ok (r, k')) :
    (∃ cache, (e.answers k.attempts).leaf k = some cache ∧ r = ps4Ok ∧ k'.globalCache = cache ∧
      k'.caches = k.caches ∧ k'.symbolCache = k.symbolCache) ∨
    (e.answers k.attempts).leaf k = none ∧
      Made (e.answers k.attempts) { k with attempts := k.attempts + 1 } r k' := by
  unfold ps4KernelCacheGlobalInitialize at h
  change (match (e.answers k.attempts).leaf k with
    | some cache => _
    | none => _) = _ at h
  cases hleaf : (e.answers k.attempts).leaf k with
  | some cache =>
    rw [hleaf] at h
    obtain ⟨r₁, -, hr⟩ := bind_eq_ok.mp h
    cases hr
    exact .inl ⟨cache, rfl, rfl, rfl, rfl, rfl⟩
  | none =>
    rw [hleaf] at h
    exact .inr ⟨rfl, make_ok h⟩

/-! ### Unchanged after an error -/

/-- The module of the global cache is as before, and so are the entries. -/
structure GlobalUnchanged (k k' : Kernel) : Prop where
  cache : k'.globalCache = k.globalCache
  mutex : k'.cacheGlobalMutex = k.cacheGlobalMutex
  entries : k'.caches k.globalCache = k.caches k.globalCache

/-- The module of the symbols is as before, and so are the entries of the global cache. -/
structure SymbolUnchanged (k k' : Kernel) : Prop where
  cache : k'.symbolCache = k.symbolCache
  mutex : k'.symbolLookUpMutex = k.symbolLookUpMutex
  entries : k'.caches k.globalCache = k.caches k.globalCache

/-- The new cache stays in the static pointer whichever step fails behind it. -/
theorem globalUnchanged_iff {e : Environment} {k k' : Kernel} {r : Code}
    (hfresh : (e.answers k.attempts).cache ≠ some k.globalCache)
    (h : ps4KernelCacheGlobalInitialize e k = .ok (r, k')) : (r ≠ ps4Ok → GlobalUnchanged k k') ↔
      (e.answers k.attempts).leaf k ≠ none ∨ (e.answers k.attempts).Succeeds := by
  rcases initialize_ok h with ⟨cache, hleaf, hr, -⟩ | ⟨hleaf, hmade⟩
  · exact iff_of_true (fun hne => absurd hr hne) (.inl (by simp [hleaf]))
  · by_cases hr : r = ps4Ok
    · exact iff_of_true (fun hne => absurd hr hne) (.inr (hmade.code.mp hr))
    · refine iff_of_false (fun hsame => hfresh ?_) ?_
      · rw [← (hsame hr).cache]
        exact hmade.cache
      · rintro (hn | hs)
        · exact hn hleaf
        · exact hr (hmade.code.mpr hs)

def Kernel.Holds (k : Kernel) (cache : Address) (name : String) : Prop :=
  cache ≠ 0#64 ∧ ∃ entries value, k.caches cache = some entries ∧ entries name = some value

/-- The look-up of a name in the global cache is answered with success: the cache that is
there or that the leaf gives has it, or a first evaluation of the initialiser fails and
a second one does not. -/
def Cached (e : Environment) (k : Kernel) (name : String) : Prop :=
  if k.globalCache ≠ 0#64 then k.Holds k.globalCache name
  else match (e.answers k.attempts).leaf k with
    | some cache => k.Holds cache name
    | none => ¬(e.answers k.attempts).Succeeds ∧
        ((e.answers (k.attempts + 1)).leaf k ≠ none ∨ (e.answers (k.attempts + 1)).Succeeds)

theorem get_code {k : Kernel} {cache : Address} {name : String} {r : Returned}
    (h : ps4KernelCacheGet k cache name = .ok r) : r.code = ps4Ok ↔ k.Holds cache name := by
  unfold ps4KernelCacheGet at h
  by_cases hc : cache = 0#64
  · rw [if_pos hc] at h
    cases h
    exact iff_of_false (by decide) (fun hh => hh.1 hc)
  · rw [if_neg hc] at h
    obtain ⟨entries, hentries, h⟩ := bind_eq_ok.mp h
    have hcaches : k.caches cache = some entries := entries_ok hentries
    cases hv : entries name with
    | none =>
      rw [hv] at h
      cases h
      refine iff_of_false (by decide) ?_
      rintro ⟨-, entries', value, he, hvalue⟩
      rw [hcaches] at he
      cases he
      rw [hv] at hvalue
      cases hvalue
    | some value =>
      rw [hv] at h
      cases h
      exact iff_of_true rfl ⟨hc, entries, value, hcaches, hv⟩

private theorem locked_get_ok {k k' : Kernel} {name : String} {r : Returned} (h : (do
      k.lock k.cacheGlobalMutex
      let r ← ps4KernelCacheGet k k.globalCache name
      return (r, k) : Except Fault (Returned × Kernel)) = .ok (r, k')) :
    (r.code = ps4Ok ↔ k.Holds k.globalCache name) ∧ k' = k := by
  obtain ⟨_, -, h⟩ := bind_eq_ok.mp h
  obtain ⟨r₁, hget, h⟩ := bind_eq_ok.mp h
  cases h
  exact ⟨get_code hget, rfl⟩

theorem globalGet_ok {e : Environment} {k k' : Kernel} {name : String} {r : Returned}
    (hname : name ≠ ps4KernelCacheGlobalMutexName)
    (h : ps4KernelCacheGlobalGet e k name = .ok (r, k')) :
    (r.code = ps4Ok ↔ Cached e k name) ∧ k'.symbolCache = k.symbolCache := by
  unfold ps4KernelCacheGlobalGet initializing at h
  unfold Cached
  by_cases hnull : k.globalCache = 0#64
  · rw [if_pos hnull] at h
    rw [if_neg (not_not.mpr hnull)]
    obtain ⟨⟨r₁, k₁⟩, hinit, h⟩ := bind_eq_ok.mp h
    simp only at h
    rcases initialize_ok hinit with ⟨cache, hleaf, hr, hcache, hcaches, hsymbol⟩ | ⟨hleaf, hmade⟩
    · rw [if_neg (not_not.mpr hr)] at h
      obtain ⟨hcode, rfl⟩ := locked_get_ok h
      rw [hleaf]
      refine ⟨hcode.trans ?_, hsymbol⟩
      unfold Kernel.Holds
      rw [hcache, hcaches]
    · rw [hleaf]
      by_cases hr : r₁ = ps4Ok
      · rw [if_neg (not_not.mpr hr)] at h
        obtain ⟨hcode, rfl⟩ := locked_get_ok h
        refine ⟨hcode.trans (iff_of_false ?_ (fun hn => hn.1 (hmade.code.mp hr))),
          hmade.symbolCache⟩
        rintro ⟨hc, entries, value, hentries, hvalue⟩
        obtain ⟨mutex, hmutex⟩ := hmade.entries hr hc
        rw [hentries] at hmutex
        cases hmutex
        rw [Function.update_of_ne hname] at hvalue
        cases hvalue
      · rw [if_pos hr] at h
        obtain ⟨⟨r₂, k₂⟩, hagain, h⟩ := bind_eq_ok.mp h
        cases h
        have hattempts : k₁.attempts = k.attempts + 1 := hmade.attempts
        have hleaf₁ : k₁.leaf = k.leaf := hmade.leaf hr
        have hsame : ∀ answers : Answers, answers.leaf k₁ = answers.leaf k := fun answers => by
          rw [Answers.leaf, Answers.leaf, hleaf₁]
        have hfails : ¬(e.answers k.attempts).Succeeds := fun hs => hr (hmade.code.mpr hs)
        rcases initialize_ok hagain with ⟨cache, hleaf₂, hr₂, -, -, hsymbol⟩ | ⟨hleaf₂, hmade₂⟩
        · rw [hattempts, hsame] at hleaf₂
          exact ⟨iff_of_true hr₂ ⟨hfails, .inl (by simp [hleaf₂])⟩, hsymbol.trans hmade.symbolCache⟩
        · rw [hattempts] at hleaf₂ hmade₂
          rw [hsame] at hleaf₂
          refine ⟨hmade₂.code.trans ⟨fun hs => ⟨hfails, .inr hs⟩, ?_⟩,
            hmade₂.symbolCache.trans hmade.symbolCache⟩
          rintro ⟨-, hn | hs⟩
          · exact absurd hleaf₂ hn
          · exact hs
  · rw [if_neg hnull] at h
    rw [if_pos hnull]
    obtain ⟨hcode, rfl⟩ := locked_get_ok h
    exact ⟨hcode, rfl⟩

private theorem initialize_symbolCache {e : Environment} {k k' : Kernel} {r : Code}
    (h : ps4KernelCacheGlobalInitialize e k = .ok (r, k')) : k'.symbolCache = k.symbolCache := by
  rcases initialize_ok h with ⟨cache, -, -, -, -, hsymbol⟩ | ⟨-, hmade⟩
  · exact hsymbol
  · exact hmade.symbolCache

theorem initializing_symbolCache {e : Environment}
    {rest : Kernel → Except Fault (Returned × Kernel)}
    (hrest : ∀ k r k', rest k = .ok (r, k') → k'.symbolCache = k.symbolCache)
    {k k' : Kernel} {r : Returned}
    (h : initializing e k rest = .ok (r, k')) : k'.symbolCache = k.symbolCache := by
  unfold initializing at h
  by_cases hnull : k.globalCache = 0#64
  · rw [if_pos hnull] at h
    obtain ⟨⟨r₁, k₁⟩, hinit, h⟩ := bind_eq_ok.mp h
    simp only at h
    by_cases hr : r₁ = ps4Ok
    · rw [if_neg (not_not.mpr hr)] at h
      exact (hrest _ _ _ h).trans (initialize_symbolCache hinit)
    · rw [if_pos hr] at h
      obtain ⟨⟨r₂, k₂⟩, hagain, h⟩ := bind_eq_ok.mp h
      cases h
      exact (initialize_symbolCache hagain).trans (initialize_symbolCache hinit)
  · rw [if_neg hnull] at h
    exact hrest _ _ _ h

/-- Insertions in the global cache leave the pointer to the cache of the symbols alone. -/
theorem globalSet_symbolCache {e : Environment} {k k' : Kernel} {name : String} {value : Address}
    {r : Returned} (h : ps4KernelCacheGlobalSet e k name value = .ok (r, k')) :
    k'.symbolCache = k.symbolCache := by
  refine initializing_symbolCache (fun k r k' h => ?_) h
  split_ifs at h
  · cases h
    rfl
  · obtain ⟨_, -, h⟩ := bind_eq_ok.mp h
    rcases set_ok h with ⟨rfl, -⟩ | ⟨entries, -, rfl⟩
    · rfl
    · rfl

/-- Making a cache for the symbols fails when there is no memory for the mutex, and leaves
the destroyed cache in the static pointer. -/
theorem symbolMake_ok {e : Environment} {k k' : Kernel} {r : Code}
    (h : symbolMake e k = .ok (r, k')) :
    e.symbolCache = some k'.symbolCache ∧ (r = ps4Ok ↔ e.symbolLookUpMutex.getD 0#64 ≠ 0#64) := by
  obtain ⟨⟨r₁, k₁⟩, hcreate, h⟩ := bind_eq_ok.mp h
  obtain ⟨a, hcache, rfl, rfl⟩ := create_ok hcreate
  simp only [ne_eq, not_true_eq_false, if_false] at h
  obtain ⟨⟨r₂, k₂⟩, hset, h⟩ := bind_eq_ok.mp h
  have hsymbol : k₂.symbolCache = a := globalSet_symbolCache hset
  by_cases hmutex : e.symbolLookUpMutex.getD 0#64 = 0#64
  · simp only [hmutex, if_true] at h
    obtain ⟨k₃, hdestroy, h⟩ := bind_eq_ok.mp h
    obtain ⟨caches, rfl⟩ := destroy_ok hdestroy
    cases h
    exact ⟨hcache.trans (congrArg some hsymbol.symm), iff_of_false (by decide) (not_not.mpr hmutex)⟩
  · simp only [hmutex, if_false] at h
    obtain ⟨⟨r₃, k₃⟩, hset', h⟩ := bind_eq_ok.mp h
    have hsymbol' := globalSet_symbolCache hset'
    cases h
    exact ⟨hcache.trans (congrArg some (hsymbol'.trans hsymbol).symm), iff_of_true rfl hmutex⟩

theorem symbolUnchanged_iff {e : Environment} {k k' : Kernel} {r : Code}
    (hfresh : e.symbolCache ≠ some k.symbolCache) (h : symbolInitialize e k = .ok (r, k')) :
    (r ≠ ps4Ok → SymbolUnchanged k k') ↔
      Cached e k ps4KernelCacheSymbolLookupCache ∨ e.symbolLookUpMutex.getD 0#64 ≠ 0#64 := by
  obtain ⟨⟨r₁, k₁⟩, hget, h⟩ := bind_eq_ok.mp h
  obtain ⟨hcode, -⟩ := globalGet_ok (by decide) hget
  simp only at h
  by_cases hr : r₁.code = ps4Ok
  · rw [if_neg (not_not.mpr hr)] at h
    obtain ⟨r₂, -, h⟩ := bind_eq_ok.mp h
    cases h
    exact iff_of_true (fun hne => absurd rfl hne) (.inl (hcode.mp hr))
  · rw [if_pos hr] at h
    obtain ⟨hcache, hok⟩ := symbolMake_ok h
    by_cases hmutex : e.symbolLookUpMutex.getD 0#64 = 0#64
    · refine iff_of_false (fun hsame => hfresh ?_) ?_
      · have hne : r ≠ ps4Ok := fun hr => hok.mp hr hmutex
        rw [← (hsame hne).cache]
        exact hcache
      · rintro (hc | hm)
        · exact hr (hcode.mpr hc)
        · exact hm hmutex
    · exact iff_of_true (fun hne => absurd (hok.mpr hmutex) hne) (.inr hmutex)

/-- Whatever allocations and sysctl calls fail, an initialiser that returns an error has left
the pointers of its module and the entries of the global cache as they were exactly when no
step behind the creation of its cache has failed, which is when it returns no error. -/
theorem initialization_unchanged_iff (e : Environment) (k : Kernel)
    (hglobal : (e.answers k.attempts).cache ≠ some k.globalCache)
    (hsymbol : e.symbolCache ≠ some k.symbolCache) :
    (∀ r k', ps4KernelCacheGlobalInitialize e k = .ok (r, k') →
      ((r ≠ ps4Ok → GlobalUnchanged k k') ↔ (e.answers k.attempts).leaf k ≠ none ∨
        (e.answers k.attempts).Succeeds)) ∧
    ∀ r k', symbolInitialize e k = .ok (r, k') → ((r ≠ ps4Ok → SymbolUnchanged k k') ↔
      Cached e k ps4KernelCacheSymbolLookupCache ∨ e.symbolLookUpMutex.getD 0#64 ≠ 0#64) :=
  ⟨fun _ _ h => globalUnchanged_iff hglobal h, fun _ _ h => symbolUnchanged_iff hsymbol h⟩

def unused : Kernel := ⟨0, 0, 0, 0, fun _ => none, fun _ => false, none, 0⟩

/-- There is memory for everything but the cell of the leaf, and but for the mutex of the
symbols. -/
def scarce (cell : Option Address) : Environment where
  answers _ := ⟨true, some 0x1000, cell, some 0x3000, .enoent, true, true⟩
  symbolCache := some 0x4000
  symbolLookUpMutex := none
  entry _ := true

theorem initialization_unchanged_unused :
    (∀ r k', ps4KernelCacheGlobalInitialize (scarce (some 0x2000)) unused = .ok (r, k') →
      r ≠ ps4Ok → GlobalUnchanged unused k') ∧
    ∃ k', ps4KernelCacheGlobalInitialize (scarce (some 0x2000)) unused = .ok (ps4Ok, k') := by
  have h := (initialization_unchanged_iff (scarce (some 0x2000)) unused (by decide) (by decide)).1
  refine ⟨fun r k' hr => (h r k' hr).mpr (.inr ⟨by decide, by decide, by decide, rfl⟩), _, rfl⟩

/-- After an initialisation without memory for the cell, the next look-up takes the null
mutex for one; after one without memory for the mutex of the symbols, a destroyed cache is
in the static pointer and in the global cache. -/
theorem failed_initialization_sticks :
    (∃ k', ps4KernelCacheGlobalInitialize (scarce none) unused =
      .ok (ps4ErrorKernelOutOfMemory, k') ∧ ¬GlobalUnchanged unused k' ∧ k'.globalCache ≠ 0#64 ∧
      k'.caches k'.globalCache = none ∧
      ∀ name, ps4KernelCacheGlobalGet (scarce none) k' name = .error .nullPointer) ∧
    ∃ k', symbolInitialize (scarce (some 0x2000)) unused = .ok (ps4ErrorKernelOutOfMemory, k') ∧
      ¬SymbolUnchanged unused k' ∧ k'.symbolCache ≠ 0#64 ∧ k'.caches k'.symbolCache = none ∧
      k'.Holds k'.globalCache ps4KernelCacheSymbolLookupCache := by
  refine ⟨⟨_, rfl, ?_, ?_, ?_, ?_⟩, ⟨_, rfl, ?_, ?_, ?_, ?_⟩⟩
  · exact fun h => absurd h.cache (by decide)
  · decide
  · decide
  · intro name
    rfl
  · exact fun h => absurd h.cache (by decide)
  · decide
  · decide
  · exact ⟨by decide, _, _, rfl, rfl⟩

end Ps4Sdk.LazyModuleFailures
