import Ps4Sdk.LazyModules
import Mathlib.Data.List.Nodup

/-!
# Calls of a thread that is alone

What the initialisers and the look-ups do when no other thread interferes: which cache they
end up with, and when they succeed.
-/

namespace Ps4Sdk.LazyModules
open InterleavedPrograms

def alone (symbols : String → Address) (i : ℕ) {α : Type} (p : Prog α) (k : Kernel) :
    Option (α × Kernel) :=
  run (step symbols i) p k

variable {symbols : String → Address} {i : ℕ} {α β : Type} {k k' : Kernel}

@[simp] theorem alone_pure (a : α) : alone symbols i (pure a) k = some (a, k) := rfl

private theorem alone_bind (p : Prog α) (f : α → Prog β) :
    alone symbols i (p >>= f) k =
      (alone symbols i p k).bind (fun r => alone symbols i (f r.1) r.2) :=
  run_bind (step symbols i) p f k

theorem alone_bind_eq_some {p : Prog α} {f : α → Prog β} {r : β × Kernel} :
    alone symbols i (p >>= f) k = some r ↔
      ∃ a k₁, alone symbols i p k = some (a, k₁) ∧ alone symbols i (f a) k₁ = some r := by
  rw [alone_bind, Option.bind_eq_some_iff]
  exact ⟨fun ⟨⟨a, k₁⟩, ha, hf⟩ => ⟨a, k₁, ha, hf⟩, fun ⟨a, k₁, ha, hf⟩ => ⟨(a, k₁), ha, hf⟩⟩

/-! ### Statements -/

section
variable {r : α × Kernel}

@[simp] theorem alone_load (x : Static) (f : Address → Prog α) :
    alone symbols i (load x >>= f) k = alone symbols i (f (k.static x)) k := rfl

@[simp] theorem alone_store (x : Static) (a : Address) (f : Unit → Prog α) :
    alone symbols i (store x a >>= f) k =
      alone symbols i (f ()) { k with static := Function.update k.static x a } := rfl

@[simp] theorem alone_dlSym (name : String) (f : Address → Prog α) :
    alone symbols i (ps4KernelDlSym name >>= f) k = alone symbols i (f (symbols name)) k := rfl

@[simp] theorem alone_free (a : Address) (f : Unit → Prog α) :
    alone symbols i (ps4KernelMemoryFree a >>= f) k =
      alone symbols i (f ()) { k with initialized := Function.update k.initialized a false } := rfl

@[simp] theorem alone_clear (cache : Address) (f : Unit → Prog α) :
    alone symbols i (clear cache >>= f) k =
      alone symbols i (f ())
        { k with content := Function.update k.content cache (fun _ => none) } := rfl

@[simp] theorem alone_hashFind (cache : Address) (name : String) (f : Option Address → Prog α) :
    alone symbols i (hashFind cache name >>= f) k = alone symbols i (f (k.content cache name)) k :=
      rfl

@[simp] theorem alone_hashAdd (cache : Address) (name : String) (value : Address)
    (f : Unit → Prog α) :
    alone symbols i (hashAdd cache name value >>= f) k = alone symbols i (f ()) { k with
      content := Function.update k.content cache (Function.update (k.content cache) name
        (some value)) } := rfl

@[simp] theorem alone_sysctlCache (f : Option Address → Prog α) :
    alone symbols i (sysctlCache >>= f) k = alone symbols i (f k.leaf) k := rfl

@[simp] theorem alone_sysctlNode (f : NodeAnswer → Prog α) :
    alone symbols i (sysctlNode >>= f) k = alone symbols i (f k.node) k := rfl

@[simp] theorem alone_sysctlAddOid (cache : Address) (f : Bool → Prog α) :
    alone symbols i (sysctlAddOid cache >>= f) k =
      alone symbols i (f k.adds) (if k.adds then { k with leaf := some cache } else k) := rfl

@[simp] theorem alone_leave (m : Module) (f : Unit → Prog α) : alone symbols i (leave m >>= f) k =
    alone symbols i (f ())
      { k with filling := Function.update k.filling m ((k.filling m).erase i) } := rfl

@[simp] theorem alone_body (f : Unit → Prog α) :
    alone symbols i (body >>= f) k = alone symbols i (f ()) k := rfl

end

theorem alone_call {p : Prog α} {f : α → Prog β} {a : α} {k₁ : Kernel}
    (h : alone symbols i p k = some (a, k₁)) :
    alone symbols i (p >>= f) k = alone symbols i (f a) k₁ := by
  rw [alone_bind, h, Option.bind_some]

private theorem alone_perform (a : Statement) :
    alone symbols i (perform a) k = step symbols i a k := by
  rw [alone, perform, run]
  cases step symbols i a k with
  | none => rfl
  | some r => rfl

private theorem lockMutex_eq {mutex : Address} (h : lockMutex i k mutex = some k') :
    ∃ owner, k' = { k with owner := owner } := by
  obtain ⟨⟨n, rfl⟩, -⟩ := lockMutex_owner h
  exact ⟨_, rfl⟩

private theorem unlockMutex_eq {mutex : Address} (h : unlockMutex i k mutex = some k') :
    ∃ owner, k' = { k with owner := owner } := by
  obtain ⟨⟨o, rfl⟩, -⟩ := unlockMutex_owner h
  exact ⟨_, rfl⟩

theorem alone_mtxLock {mutex : Address} {r : Unit}
    (h : alone symbols i (mtxLock mutex) k = some (r, k')) :
    ∃ owner, k' = { k with owner := owner } := by
  rw [mtxLock, alone_perform, step] at h
  obtain ⟨k₁, hk, he⟩ := Option.map_eq_some_iff.mp h
  cases he
  exact lockMutex_eq hk

theorem alone_mtxUnlock {mutex : Address} {r : Unit}
    (h : alone symbols i (mtxUnlock mutex) k = some (r, k')) :
    ∃ owner, k' = { k with owner := owner } := by
  rw [mtxUnlock, alone_perform, step] at h
  obtain ⟨k₁, hk, he⟩ := Option.map_eq_some_iff.mp h
  cases he
  exact unlockMutex_eq hk

private theorem alone_mtxInit {mutex : Address} {r : Unit}
    (h : alone symbols i (mtxInit mutex) k = some (r, k')) :
    k' = { k with initialized := Function.update k.initialized mutex true } := by
  rw [mtxInit, alone_perform, step] at h
  split_ifs at h
  cases h
  rfl

theorem alone_malloc {a : Address} (h : alone symbols i malloc k = some (a, k')) :
    ∃ rest, k.supply = a :: rest ∧ k' = { k with supply := rest } := by
  rw [malloc, alone_perform, step] at h
  cases hs : k.supply with
  | nil =>
    rw [hs] at h
    cases h
  | cons b rest =>
    rw [hs] at h
    cases h
    exact ⟨rest, rfl, rfl⟩

private theorem alone_allocate {x : Static} {r : Unit}
    (h : alone symbols i (ps4KernelMemoryAllocate x) k = some (r, k')) :
    ∃ a rest, k.supply = a :: rest ∧
      k' = { k with supply := rest, static := Function.update k.static x a } := by
  obtain ⟨a, k₁, ha, h⟩ := alone_bind_eq_some.mp h
  obtain ⟨rest, hsupply, rfl⟩ := alone_malloc ha
  cases h
  exact ⟨a, rest, hsupply, rfl⟩

/-! ### Caches -/

def Kernel.written (k : Kernel) (value : Destination) (a : Address) : Kernel :=
  match value with
  | .static x => { k with static := Function.update k.static x a }
  | _ => k

theorem alone_write (value : Destination) (a : Address) :
    alone symbols i (write value a) k = some ((), k.written value a) := by
  cases value <;> rfl

private theorem written_written (value : Destination) (a b : Address) :
    (k.written value a).written value b = k.written value b := by
  cases value with
  | static x => simp [Kernel.written]
  | _ => rfl

def fetched (entry : Option Address) : Returned :=
  match entry with
  | none => ⟨ps4ErrorNotFound, 0#64⟩
  | some v => ⟨ps4Ok, v⟩

theorem alone_cacheGet {cache : Address} {name : String} {value : Destination} (hc : cache ≠ 0#64)
    (hv : value ≠ .null) : alone symbols i (ps4KernelCacheGet cache name value) k =
      some (fetched (k.content cache name), k.written value
        (fetched (k.content cache name)).value) := by
  have hcontent : (k.written value 0#64).content = k.content := by cases value <;> rfl
  rw [ps4KernelCacheGet, if_neg hc, if_neg hv, alone_call (alone_write value 0#64), alone_hashFind]
  cases h : (k.written value 0#64).content cache name with
  | none =>
    rw [hcontent] at h
    simp [h, fetched]
  | some v =>
    rw [hcontent] at h
    rw [h, fetched]
    change alone symbols i (write value v >>= fun _ => pure _) _ = _
    rw [alone_call (alone_write value v), alone_pure, written_written]

theorem alone_cacheSet {cache : Address} {name : String} {value : Address} (hc : cache ≠ 0#64) :
    alone symbols i (ps4KernelCacheSet cache name value) k = some (⟨ps4Ok, 0#64⟩, { k with
      content := Function.update k.content cache (Function.update (k.content cache) name
          (some value)) }) := by
  rw [ps4KernelCacheSet, if_neg hc, alone_hashAdd, alone_pure]

theorem alone_cacheCreate {x : Static} {r : Code}
    (h : alone symbols i (ps4KernelCacheCreate x) k = some (r, k')) :
    r = ps4Ok ∧ ∃ a rest, k.supply = a :: rest ∧ k' = { k with
      supply := rest
      static := Function.update k.static x a
      content := Function.update k.content a (fun _ => none) } := by
  obtain ⟨_, k₁, ha, h⟩ := alone_bind_eq_some.mp h
  obtain ⟨a, rest, hsupply, rfl⟩ := alone_allocate ha
  rw [alone_load, alone_clear, alone_pure] at h
  cases h
  exact ⟨rfl, a, rest, hsupply, by simp⟩

theorem alone_initializing {m : Module} {first rest : Prog Returned}
    (h : k.static m.tested ≠ 0#64) :
    alone symbols i (initializing m first rest) k = alone symbols i rest k := by
  have htest : alone symbols i (test m) k = some (k.static m.tested, k) := by
    rw [test, alone_perform, step, if_neg (fun hn => h hn.1)]
  rw [initializing, alone_call htest, if_neg h]

theorem alone_cacheGlobalLocked_ready {use : Address → Prog Returned} {r : Returned}
    (h : alone symbols i (cacheGlobalLocked use) k = some (r, k')) :
    k.static .cacheGlobalMutex ≠ 0#64 ∧ k.initialized (k.static .cacheGlobalMutex) = true := by
  rw [cacheGlobalLocked, alone_load] at h
  obtain ⟨_, k₁, hlock, -⟩ := alone_bind_eq_some.mp h
  rw [mtxLock, alone_perform, step] at hlock
  obtain ⟨k₂, hk, -⟩ := Option.map_eq_some_iff.mp hlock
  unfold lockMutex at hk
  split_ifs at hk with hm
  simpa using hm

theorem alone_cacheGlobalLocked {use : Address → Prog Returned} {r : Returned}
    (h : alone symbols i (cacheGlobalLocked use) k = some (r, k')) :
    ∃ owner owner' k₁, alone symbols i (use (k.static .globalCache))
      { k with owner := owner } = some (r, k₁) ∧
      k' = { k₁ with owner := owner' } := by
  rw [cacheGlobalLocked, alone_load] at h
  obtain ⟨_, k₁, hlock, h⟩ := alone_bind_eq_some.mp h
  obtain ⟨owner, rfl⟩ := alone_mtxLock hlock
  rw [alone_load] at h
  obtain ⟨r', k₂, huse, h⟩ := alone_bind_eq_some.mp h
  rw [alone_load] at h
  obtain ⟨_, k₃, hunlock, h⟩ := alone_bind_eq_some.mp h
  obtain ⟨owner', rfl⟩ := alone_mtxUnlock hunlock
  cases h
  exact ⟨owner, owner', k₂, huse, rfl⟩

/-! ### The global cache -/

/-- What a new global cache and its mutex leave: the cache is one of the unused blocks, and nothing
is stored in it but the mutex. -/
structure Made (k k' : Kernel) : Prop where
  created : k'.static .globalCache ∈ k.supply
  spent : k'.static .globalCache ∉ k'.supply
  empty : ∀ name, name ≠ ps4KernelCacheGlobalMutexName →
    k'.content (k'.static .globalCache) name = none
  content : ∀ a, a ∉ k.supply → k'.content a = k.content a
  supply : k'.supply <:+ k.supply

theorem Made.trans {k k₁ k' : Kernel} (h : Made k k₁) (h' : Made k₁ k') : Made k k' where
  created := h.supply.subset h'.created
  spent := h'.spent
  empty := h'.empty
  content := fun a ha => (h'.content a (fun hm => ha (h.supply.subset hm))).trans (h.content a ha)
  supply := h'.supply.trans h.supply

theorem alone_cacheGlobalTake {giant g : Address} {r : Returned}
    (h : alone symbols i (cacheGlobalTake giant g) k = some (r, k')) (hg : g ≠ 0#64) :
    r = ⟨ps4Ok, 0#64⟩ ∧ k'.static .globalCache = g ∧ k'.content = k.content ∧
    k'.supply = k.supply := by
  simp only [cacheGlobalTake, alone_store, alone_load, Function.update_self] at h
  rw [alone_call (alone_cacheGet hg (by simp)), alone_leave] at h
  obtain ⟨_, k₁, hunlock, h⟩ := alone_bind_eq_some.mp h
  obtain ⟨owner, rfl⟩ := alone_mtxUnlock hunlock
  cases h
  refine ⟨rfl, ?_, rfl, rfl⟩
  simp [Kernel.written]

private theorem alone_cacheDestroy (cache : Address) :
    alone symbols i (ps4KernelCacheDestroy cache) k = some ((), { k with
    content := Function.update k.content cache (fun _ => none)
    initialized := Function.update k.initialized cache false }) := rfl

theorem alone_cacheGlobalRegister {giant c g : Address} {r : Returned}
    (h : alone symbols i (cacheGlobalRegister giant c g) k = some (r, k')) :
    (r.code = ps4Ok ↔ k.node ≠ .other ∧ k.adds = true) ∧ k'.static = k.static ∧
    k'.supply = k.supply ∧
      (k'.content = k.content ∨ k'.content = Function.update k.content (k.static .globalCache)
        (fun _ => none)) ∧
      (r.code ≠ ps4Ok → k'.leaf = k.leaf) ∧ k'.node = k.node ∧ k'.adds = k.adds := by
  have hinternal : ps4ErrorInternalError ≠ ps4Ok := by decide
  have hnot : ps4NotOk ≠ ps4Ok := by decide
  rw [cacheGlobalRegister, alone_sysctlNode] at h
  cases hnode : k.node with
  | other =>
    simp only [hnode, alone_load, alone_free] at h
    rw [alone_call (alone_cacheDestroy _), alone_leave] at h
    obtain ⟨_, k₁, hunlock, h⟩ := alone_bind_eq_some.mp h
    obtain ⟨owner, rfl⟩ := alone_mtxUnlock hunlock
    cases h
    exact ⟨by simp [hinternal], rfl, rfl, .inr rfl, fun _ => rfl, hnode.symm ▸ rfl, rfl⟩
  | _ =>
    simp only [hnode, alone_sysctlAddOid, alone_leave] at h
    obtain ⟨_, k₁, hunlock, h⟩ := alone_bind_eq_some.mp h
    obtain ⟨owner, rfl⟩ := alone_mtxUnlock hunlock
    cases h
    cases hadds : k.adds with
    | true => exact ⟨by simp, rfl, rfl, .inl rfl, by simp, by simp, by simp⟩
    | false =>
      exact ⟨by simp [hnot], rfl, rfl, .inl rfl, fun _ => rfl, by simp [hnode], by simp [hadds]⟩

/-- What a new global cache is registered with: the first and the third of the unused blocks are the
cache and its mutex, which is all that the cache holds. -/
theorem alone_cacheGlobalMake_register {giant : Address} {r : Returned}
    (h : alone symbols i (cacheGlobalMake giant) k = some (r, k')) (hnull : 0#64 ∉ k.supply) :
    ∃ a c m rest, k.supply = a :: c :: m :: rest ∧
      alone symbols i (cacheGlobalRegister giant c a) { k with
        supply := rest
        static := Function.update (Function.update k.static .globalCache a) .cacheGlobalMutex m
        initialized := Function.update k.initialized m true
        content := Function.update k.content a
          (Function.update (fun _ => none) ps4KernelCacheGlobalMutexName (some m)) } =
            some (r, k') := by
  obtain ⟨code, k₁, hcreate, h₁⟩ := alone_bind_eq_some.mp h
  obtain ⟨rfl, a, rest, hsupply, rfl⟩ := alone_cacheCreate hcreate
  rw [if_neg (by simp)] at h₁
  obtain ⟨c, k₂, hmalloc, h₂⟩ := alone_bind_eq_some.mp h₁
  obtain ⟨rest₂, hsupply₂, rfl⟩ := alone_malloc hmalloc
  replace hsupply := hsupply.trans (congrArg (a :: ·) hsupply₂)
  have hc : c ≠ 0#64 := by
    rintro rfl
    exact hnull (by simp [hsupply])
  simp only [alone_load, Function.update_self, if_neg hc] at h₂
  obtain ⟨_, k₃, hallocate, h₃⟩ := alone_bind_eq_some.mp h₂
  obtain ⟨m, rest₃, hsupply₃, rfl⟩ := alone_allocate hallocate
  replace hsupply := hsupply.trans (congrArg (a :: c :: ·) hsupply₃)
  have hm : m ≠ 0#64 := by
    rintro rfl
    exact hnull (by simp [hsupply])
  have ha : a ≠ 0#64 := by
    rintro rfl
    exact hnull (by simp [hsupply])
  simp only [alone_load, Function.update_self, if_neg hm] at h₃
  obtain ⟨_, k₄, hinit, h₄⟩ := alone_bind_eq_some.mp h₃
  obtain rfl := alone_mtxInit hinit
  have hother : Static.globalCache ≠ Static.cacheGlobalMutex := by decide
  simp only [alone_load, Function.update_self, Function.update_of_ne hother] at h₄
  rw [alone_call (alone_cacheSet ha)] at h₄
  simp only [Function.update_self, Function.update_idem] at h₄
  exact ⟨a, c, m, rest₃, hsupply, h₄⟩

theorem alone_cacheGlobalMake {giant : Address} {r : Returned}
    (h : alone symbols i (cacheGlobalMake giant) k = some (r, k')) (hnodup : k.supply.Nodup)
    (hnull : 0#64 ∉ k.supply) :
    (r.code = ps4Ok ↔ k.node ≠ .other ∧ k.adds = true) ∧ Made k k' ∧
    (r.code ≠ ps4Ok → k'.leaf = k.leaf) ∧
      k'.node = k.node ∧ k'.adds = k.adds := by
  obtain ⟨a, c, m, rest, hsupply, hregister⟩ := alone_cacheGlobalMake_register h hnull
  obtain ⟨hcode, hstatic, hrest, hcontent, hleaf, hnode, hadds⟩ :=
    alone_cacheGlobalRegister hregister
  have hother : Static.globalCache ≠ Static.cacheGlobalMutex := by decide
  have hg : k'.static .globalCache = a := by
    rw [hstatic]
    simp
  simp only [Function.update_of_ne hother, Function.update_self, Function.update_idem] at hcontent
  rw [hsupply, List.nodup_cons] at hnodup
  refine ⟨hcode, ⟨?_, ?_, ?_, ?_, ?_⟩, hleaf, hnode, hadds⟩
  · rw [hg, hsupply]
    exact List.mem_cons_self
  · rw [hg, hrest]
    exact fun hmem => hnodup.1 (List.mem_cons_of_mem _ (List.mem_cons_of_mem _ hmem))
  · intro name hname
    rcases hcontent with hcontent | hcontent
    · simp [hg, hcontent, hname]
    · simp [hg, hcontent]
  · intro b hb
    have hne : b ≠ a := by
      rintro rfl
      exact hb (by simp [hsupply])
    rcases hcontent with hcontent | hcontent
    · simp [hcontent, hne]
    · simp [hcontent, hne]
  · rw [hrest, hsupply]
    exact ⟨[a, c, m], rfl⟩

theorem alone_cacheGlobalInitialize_take {g : Address} {r : Returned}
    (h : alone symbols i ps4KernelCacheGlobalInitialize k = some (r, k')) (hleaf : k.leaf = some g)
    (hg : g ≠ 0#64) :
    r = ⟨ps4Ok, 0#64⟩ ∧ k'.static .globalCache = g ∧ k'.content = k.content ∧
    k'.supply = k.supply := by
  rw [ps4KernelCacheGlobalInitialize, alone_dlSym] at h
  obtain ⟨_, k₁, hlock, h₁⟩ := alone_bind_eq_some.mp h
  obtain ⟨owner, rfl⟩ := alone_mtxLock hlock
  simp only [alone_sysctlCache, hleaf] at h₁
  obtain ⟨hr, hstatic, hcontent, hsupply⟩ := alone_cacheGlobalTake h₁ hg
  exact ⟨hr, hstatic, hcontent, hsupply⟩

theorem alone_cacheGlobalInitialize_make {r : Returned}
    (h : alone symbols i ps4KernelCacheGlobalInitialize k = some (r, k')) (hleaf : k.leaf = none)
    (hnodup : k.supply.Nodup) (hnull : 0#64 ∉ k.supply) :
    (r.code = ps4Ok ↔ k.node ≠ .other ∧ k.adds = true) ∧ Made k k' ∧
    (r.code ≠ ps4Ok → k'.leaf = none) ∧
      k'.node = k.node ∧ k'.adds = k.adds := by
  rw [ps4KernelCacheGlobalInitialize, alone_dlSym] at h
  obtain ⟨_, k₁, hlock, h₁⟩ := alone_bind_eq_some.mp h
  obtain ⟨owner, rfl⟩ := alone_mtxLock hlock
  simp only [alone_sysctlCache, hleaf] at h₁
  obtain ⟨hcode, hmade, hleft, hnode, hadds⟩ := alone_cacheGlobalMake h₁ hnodup hnull
  exact ⟨hcode, ⟨hmade.created, hmade.spent, hmade.empty, hmade.content, hmade.supply⟩,
    hleft, hnode, hadds⟩

/-- A guarded step that succeeds is followed by the rest, one that fails by itself. -/
theorem alone_returnOnError {val : Prog Returned} {rest : Address → Prog Returned} {r : Returned}
    (h : alone symbols i (ps4ExpressionReturnOnError val rest) k = some (r, k')) :
    (∃ value k₁, alone symbols i val k = some (⟨ps4Ok, value⟩, k₁) ∧
      alone symbols i (rest value) k₁ = some (r, k')) ∨
      ∃ r₁ k₁ r₂, alone symbols i val k = some (r₁, k₁) ∧ r₁.code ≠ ps4Ok ∧
        alone symbols i val k₁ = some (r₂, k') ∧ r = ⟨r₂.code, 0#64⟩ := by
  obtain ⟨⟨code, value⟩, k₁, hval, h₁⟩ := alone_bind_eq_some.mp h
  by_cases hc : code = ps4Ok
  · subst hc
    rw [if_neg (by simp)] at h₁
    exact .inl ⟨value, k₁, hval, h₁⟩
  · rw [if_pos hc] at h₁
    obtain ⟨r₂, k₂, hagain, h₂⟩ := alone_bind_eq_some.mp h₁
    cases h₂
    exact .inr ⟨_, k₁, r₂, hval, hc, hagain, rfl⟩

theorem alone_initializing_null {m : Module} {first rest : Prog Returned} {r : Returned}
    (h0 : k.static m.tested = 0#64)
    (h : alone symbols i (initializing m first rest) k = some (r, k')) :
    ∃ filling, alone symbols i (ps4ExpressionReturnOnError first (fun _ => rest))
      { k with filling := filling } =
      some (r, k') := by
  rw [initializing] at h
  by_cases hm : m.testDecides = true
  · have htest : alone symbols i (test m) k = some (k.static m.tested, { k with
        filling := Function.update k.filling m (i :: k.filling m) }) := by
      rw [test, alone_perform, step, if_pos ⟨h0, hm⟩]
    rw [alone_call htest, if_pos h0] at h
    exact ⟨_, h⟩
  · have htest : alone symbols i (test m) k = some (k.static m.tested, k) := by
      rw [test, alone_perform, step, if_neg (fun hn => hm hn.2)]
    rw [alone_call htest, if_pos h0] at h
    exact ⟨k.filling, h⟩

def globalInUse (k : Kernel) : Option Address :=
  if k.static .globalCache = 0#64 then k.leaf else some (k.static .globalCache)

/-- The unused memory is new, and the global cache holds no null pointers. -/
structure Sane (k : Kernel) : Prop where
  nodup : k.supply.Nodup
  nonnull : 0#64 ∉ k.supply
  fresh : ∀ g, globalInUse k = some g → g ≠ 0#64 ∧ g ∉ k.supply
  entries : ∀ g name v, globalInUse k = some g → k.content g name = some v → v ≠ 0#64

private theorem alone_globalLockedGet {name : String} {x : Static} {r : Returned}
    (hg : k.static .globalCache ≠ 0#64) (h : alone symbols i
      (cacheGlobalLocked (fun cache => ps4KernelCacheGet cache name (.static x))) k =
        some (r, k')) :
    r = fetched (k.content (k.static .globalCache) name) ∧ k'.static x = r.value ∧
      (∀ y, y ≠ x → k'.static y = k.static y) ∧ k'.content = k.content ∧ k'.supply = k.supply := by
  obtain ⟨owner, owner', k₁, huse, rfl⟩ := alone_cacheGlobalLocked h
  rw [alone_cacheGet hg (by simp)] at huse
  cases huse
  exact ⟨rfl, by simp [Kernel.written], fun y hy => by simp [Kernel.written, hy], rfl, rfl⟩

private theorem alone_cacheGlobalGet {name : String} {x : Static} {r : Returned}
    (h : alone symbols i (ps4KernelCacheGlobalGet (some name) (.static x)) k = some (r, k'))
    (hg : k.static .globalCache ≠ 0#64) :
    r = fetched (k.content (k.static .globalCache) name) ∧ k'.static x = r.value ∧
      (∀ y, y ≠ x → k'.static y = k.static y) ∧ k'.content = k.content ∧ k'.supply = k.supply := by
  rw [ps4KernelCacheGlobalGet, alone_initializing hg] at h
  simp only [reduceCtorEq, if_false] at h
  exact alone_globalLockedGet hg h

theorem alone_cacheGlobalGet_inUse {name : String} {x : Static} {g : Address} {r : Returned}
    (h : alone symbols i (ps4KernelCacheGlobalGet (some name) (.static x)) k = some (r, k'))
    (hg : globalInUse k = some g) (hg0 : g ≠ 0#64) (hx : x ≠ .globalCache) :
    r = fetched (k.content g name) ∧ k'.static x = r.value ∧ k'.static .globalCache = g ∧
    k'.content = k.content ∧
      k'.supply = k.supply := by
  unfold globalInUse at hg
  split_ifs at hg with h0
  · obtain ⟨filling, hguarded⟩ := alone_initializing_null h0 h
    rcases alone_returnOnError hguarded with ⟨value, k₁, hinit, hrest⟩
      | ⟨r₁, k₁, r₂, hinit, hfails, -, -⟩
    · obtain ⟨-, hstatic, hcontent, hsupply⟩ := alone_cacheGlobalInitialize_take hinit hg hg0
      simp only [reduceCtorEq, if_false] at hrest
      obtain ⟨hr, hx', hothers, hcontent', hsupply'⟩ :=
        alone_globalLockedGet (by rw [hstatic]; exact hg0) hrest
      rw [hstatic, hcontent] at hr
      exact ⟨hr, hx', (hothers _ hx.symm).trans hstatic, hcontent'.trans hcontent,
        hsupply'.trans hsupply⟩
    · obtain ⟨rfl, -⟩ := alone_cacheGlobalInitialize_take hinit hg hg0
      exact absurd rfl hfails
  · cases hg
    obtain ⟨hr, hx', hothers, hcontent, hsupply⟩ := alone_cacheGlobalGet h h0
    exact ⟨hr, hx', hothers _ hx.symm, hcontent, hsupply⟩

theorem alone_cacheGlobalGet_made {name : String} {x : Static} {r : Returned}
    (h : alone symbols i (ps4KernelCacheGlobalGet (some name) (.static x)) k = some (r, k'))
    (sane : Sane k)
    (hg : globalInUse k = none) (hx : x ≠ .globalCache)
    (hname : name ≠ ps4KernelCacheGlobalMutexName) :
    r.code ≠ ps4Ok ∧ Made k k' := by
  unfold globalInUse at hg
  unfold ps4KernelCacheGlobalGet at h
  split_ifs at hg with h0
  obtain ⟨filling, hguarded⟩ := alone_initializing_null h0 h
  rcases alone_returnOnError hguarded with ⟨value, k₁, hinit, hrest⟩
    | ⟨r₁, k₁, r₂, hinit, hfails, hagain, rfl⟩
  · obtain ⟨-, hmade, -⟩ := alone_cacheGlobalInitialize_make hinit hg sane.nodup sane.nonnull
    have hne : k₁.static .globalCache ≠ 0#64 := fun he => sane.nonnull (he ▸ hmade.created)
    simp only [reduceCtorEq, if_false] at hrest
    obtain ⟨rfl, -, hothers, hcontent, hsupply⟩ := alone_globalLockedGet hne hrest
    have hglobal := hothers _ hx.symm
    refine ⟨?_, ⟨?_, ?_, ?_, ?_, ?_⟩⟩
    · rw [hmade.empty name hname]
      decide
    · rw [hglobal]
      exact hmade.created
    · rw [hglobal, hsupply]
      exact hmade.spent
    · rw [hglobal, hcontent]
      exact hmade.empty
    · rw [hcontent]
      exact hmade.content
    · rw [hsupply]
      exact hmade.supply
  · obtain ⟨hcode, hmade, hleaf, hnode, hadds⟩ :=
      alone_cacheGlobalInitialize_make hinit hg sane.nodup sane.nonnull
    obtain ⟨hcode', hmade', -⟩ := alone_cacheGlobalInitialize_make hagain (hleaf hfails)
      (hmade.supply.sublist.nodup sane.nodup) (fun hm => sane.nonnull (hmade.supply.subset hm))
    rw [hnode, hadds, ← hcode] at hcode'
    have htrans := hmade.trans hmade'
    exact ⟨fun he => hfails (hcode'.mp he),
      ⟨htrans.created, htrans.spent, htrans.empty, htrans.content,
      htrans.supply⟩⟩

/-! ### Symbols -/

/-- An insertion into the global cache that there is. -/
theorem alone_cacheGlobalSet {name : String} {value : Address} {r : Returned}
    (h : alone symbols i (ps4KernelCacheGlobalSet (some name) value) k = some (r, k'))
    (hg : k.static .globalCache ≠ 0#64) (hv : value ≠ 0#64) :
    ∃ owner, k' = { k with
      owner := owner
      content := Function.update k.content (k.static .globalCache)
        (Function.update (k.content (k.static .globalCache)) name (some value)) } := by
  rw [ps4KernelCacheGlobalSet, alone_initializing hg] at h
  simp only [if_neg hv] at h
  obtain ⟨owner, owner', k₁, huse, rfl⟩ := alone_cacheGlobalLocked h
  rw [alone_cacheSet hg] at huse
  cases huse
  exact ⟨owner', rfl⟩

theorem alone_symbolMake {giant : Address} {r : Code}
    (h : alone symbols i (symbolMake giant) k = some (r, k')) (hg : k.static .globalCache ≠ 0#64)
    (hfresh : k.static .globalCache ∉ k.supply) (hnull : 0#64 ∉ k.supply) :
    r = ps4Ok ∧ k'.static .symbolCache ≠ 0#64 ∧
    ∀ name, k'.content (k'.static .symbolCache) name = none := by
  obtain ⟨code, k₁, hcreate, h₁⟩ := alone_bind_eq_some.mp h
  obtain ⟨rfl, a, rest, hsupply, rfl⟩ := alone_cacheCreate hcreate
  have ha : a ≠ 0#64 := by
    rintro rfl
    exact hnull (by simp [hsupply])
  have hga : a ≠ k.static .globalCache := by
    rintro rfl
    exact hfresh (by simp [hsupply])
  have hother : Static.globalCache ≠ Static.symbolCache := by decide
  have hmutex : Static.symbolCache ≠ Static.symbolLookUpMutex := by decide
  have hmutex' : Static.globalCache ≠ Static.symbolLookUpMutex := by decide
  simp only [ne_eq, not_true_eq_false, if_false, alone_load, Function.update_self] at h₁
  obtain ⟨_, k₂, hset, h₂⟩ := alone_bind_eq_some.mp h₁
  obtain ⟨owner, rfl⟩ := alone_cacheGlobalSet hset (by simpa [hother] using hg) ha
  obtain ⟨_, k₃, hallocate, h₃⟩ := alone_bind_eq_some.mp h₂
  obtain ⟨m, rest₃, hsupply₃, rfl⟩ := alone_allocate hallocate
  replace hsupply := hsupply.trans (congrArg (a :: ·) hsupply₃)
  have hm : m ≠ 0#64 := by
    rintro rfl
    exact hnull (by simp [hsupply])
  simp only [alone_load, Function.update_self, if_neg hm] at h₃
  obtain ⟨_, k₄, hinit, h₄⟩ := alone_bind_eq_some.mp h₃
  obtain rfl := alone_mtxInit hinit
  simp only [alone_load, Function.update_self] at h₄
  obtain ⟨_, k₅, hset', h₅⟩ := alone_bind_eq_some.mp h₄
  obtain ⟨owner', rfl⟩ := alone_cacheGlobalSet hset' (by simpa [hother, hmutex'] using hg) hm
  rw [alone_leave] at h₅
  obtain ⟨_, k₆, hunlock, h₆⟩ := alone_bind_eq_some.mp h₅
  obtain ⟨owner'', rfl⟩ := alone_mtxUnlock hunlock
  cases h₆
  refine ⟨rfl, by simpa [hmutex] using ha, fun name => ?_⟩
  simp [hmutex, hother, hmutex', hga]

def symbolsKnown (k : Kernel) : Option Address :=
  (globalInUse k).bind (fun g => k.content g ps4KernelCacheSymbolLookupCache)

def symbolsInUse (k : Kernel) : Option Address :=
  if k.static .symbolCache = 0#64 then symbolsKnown k else some (k.static .symbolCache)

theorem alone_symbolInitialize {r : Code} (h : alone symbols i symbolInitialize k = some (r, k'))
    (sane : Sane k) :
    r = ps4Ok ∧ k'.static .symbolCache ≠ 0#64 ∧ ∀ name, k'.content (k'.static .symbolCache) name =
      (symbolsKnown k).bind (fun cache => k.content cache name) := by
  rw [symbolInitialize, alone_dlSym] at h
  obtain ⟨_, k₁, hlock, h₁⟩ := alone_bind_eq_some.mp h
  obtain ⟨owner, rfl⟩ := alone_mtxLock hlock
  obtain ⟨r₂, k₂, hget, h₂⟩ := alone_bind_eq_some.mp h₁
  have hother : Static.symbolCache ≠ Static.globalCache := by decide
  have hname : ps4KernelCacheSymbolLookupCache ≠ ps4KernelCacheGlobalMutexName := by decide
  cases hg : globalInUse k with
  | none =>
    obtain ⟨hcode, hmade⟩ :=
      alone_cacheGlobalGet_made hget ⟨sane.nodup, sane.nonnull, sane.fresh, sane.entries⟩ hg
      hother hname
    rw [if_pos hcode] at h₂
    obtain ⟨hr, hne, hempty⟩ :=
      alone_symbolMake h₂ (fun he => sane.nonnull (he ▸ hmade.created)) hmade.spent
      (fun hm => sane.nonnull (hmade.supply.subset hm))
    exact ⟨hr, hne, fun name => by rw [hempty, symbolsKnown, hg]; rfl⟩
  | some g =>
    obtain ⟨hg0, hgfresh⟩ := sane.fresh g hg
    obtain ⟨rfl, hvalue, hglobal, hcontent, hsupply⟩ :=
      alone_cacheGlobalGet_inUse hget hg hg0 hother
    cases hentry : k.content g ps4KernelCacheSymbolLookupCache with
    | none =>
      rw [hentry, if_pos (by decide)] at h₂
      obtain ⟨hr, hne, hempty⟩ :=
        alone_symbolMake h₂ (by rw [hglobal]; exact hg0) (by rw [hglobal, hsupply]; exact hgfresh)
        (by rw [hsupply]; exact sane.nonnull)
      exact ⟨hr, hne, fun name => by simp [hempty, symbolsKnown, hg, hentry]⟩
    | some v =>
      rw [hentry, if_neg (by simp [fetched])] at h₂
      obtain ⟨_, k₃, hget', h₃⟩ := alone_bind_eq_some.mp h₂
      obtain ⟨-, -, hothers, hcontent', -⟩ :=
        alone_cacheGlobalGet hget' (by rw [hglobal]; exact hg0)
      rw [alone_leave] at h₃
      obtain ⟨_, k₄, hunlock, h₄⟩ := alone_bind_eq_some.mp h₃
      obtain ⟨owner', rfl⟩ := alone_mtxUnlock hunlock
      cases h₄
      have hv : k₃.static .symbolCache = v := by
        rw [hothers _ (by decide), hvalue, hentry]
        rfl
      refine ⟨rfl, ?_, fun name => ?_⟩
      · change k₃.static .symbolCache ≠ 0#64
        rw [hv]
        exact sane.entries g _ v hg hentry
      · change k₃.content (k₃.static .symbolCache) name = _
        rw [hv, hcontent', hcontent]
        simp [symbolsKnown, hg, hentry]

/-- A look-up in the cache in place: an entry is returned as it is, and what is found for a name
without one is put in the cache, be it null. -/
theorem symbolFind_returns {name : String} {r : Returned}
    (h : alone symbols i (symbolFind name .variable) k = some (r, k'))
    (hc : k.static .symbolCache ≠ 0#64) :
    k'.static = k.static ∧
      match k.content (k.static .symbolCache) name with
      | some v => r = ⟨ps4Ok, v⟩ ∧ k'.content = k.content
      | none =>
        r = ⟨if symbols name = 0#64 then ps4ErrorKernelSymbolLookupNotFound else ps4Ok,
          symbols name⟩ ∧
        k'.content (k.static .symbolCache) =
          Function.update (k.content (k.static .symbolCache)) name (some (symbols name)) := by
  rw [symbolFind, alone_load] at h
  obtain ⟨_, k₁, hlock, h₁⟩ := alone_bind_eq_some.mp h
  obtain ⟨owner, rfl⟩ := alone_mtxLock hlock
  rw [alone_load, alone_call (alone_cacheGet hc (by simp))] at h₁
  cases hentry : k.content (k.static .symbolCache) name with
  | some v =>
    simp only [hentry, fetched, ne_eq, not_true_eq_false, if_false,
      Kernel.written, alone_load] at h₁
    obtain ⟨_, k₂, hunlock, h₂⟩ := alone_bind_eq_some.mp h₁
    obtain ⟨owner', rfl⟩ := alone_mtxUnlock hunlock
    cases h₂
    exact ⟨rfl, rfl, rfl⟩
  | none =>
    have hne : ps4ErrorNotFound ≠ ps4Ok := by decide
    simp only [hentry, fetched, if_pos hne, Kernel.written, alone_dlSym, alone_load] at h₁
    rw [alone_call (alone_cacheSet hc), alone_call (alone_write _ _)] at h₁
    by_cases h0 : symbols name = 0#64
    · rw [if_pos h0] at h₁
      cases h₁
      exact ⟨rfl, by rw [if_pos h0, h0], Function.update_self ..⟩
    · rw [if_neg h0, alone_load] at h₁
      obtain ⟨_, k₂, hunlock, h₂⟩ := alone_bind_eq_some.mp h₁
      obtain ⟨owner', rfl⟩ := alone_mtxUnlock hunlock
      cases h₂
      exact ⟨rfl, by rw [if_neg h0], Function.update_self ..⟩

theorem alone_symbolFind {name : String} {r : Returned}
    (h : alone symbols i (symbolFind name .variable) k = some (r, k'))
    (hc : k.static .symbolCache ≠ 0#64) :
    (r.code = ps4Ok ↔ k.content (k.static .symbolCache) name ≠ none ∨ symbols name ≠ 0#64) ∧
      k'.static = k.static ∧ (r.code ≠ ps4Ok → k'.content (k.static .symbolCache) name ≠ none) := by
  obtain ⟨hstatic, hreturns⟩ := symbolFind_returns h hc
  cases hentry : k.content (k.static .symbolCache) name with
  | some v =>
    simp only [hentry] at hreturns
    obtain ⟨rfl, -⟩ := hreturns
    exact ⟨by simp, hstatic, by simp⟩
  | none =>
    simp only [hentry] at hreturns
    obtain ⟨rfl, hcontent⟩ := hreturns
    have hnot : ps4ErrorKernelSymbolLookupNotFound ≠ ps4Ok := by decide
    exact ⟨by simp [hnot], hstatic, fun _ => by simp [hcontent]⟩

theorem alone_lookUp_inPlace {name : String} {r : Returned}
    (h : alone symbols i (ps4KernelSymbolLookUp (some name) .variable) k = some (r, k'))
    (hc : k.static .symbolCache ≠ 0#64) :
    (r.code = ps4Ok ↔ k.content (k.static .symbolCache) name ≠ none ∨ symbols name ≠ 0#64) ∧
      k'.static = k.static ∧ (r.code ≠ ps4Ok → k'.content (k.static .symbolCache) name ≠ none) := by
  have htest : alone symbols i (test .symbol) k = some (k.static .symbolCache, k) := by
    rw [test, alone_perform, step, if_neg (fun hn => hc hn.1)]
    rfl
  simp only [ps4KernelSymbolLookUp, reduceCtorEq, if_false] at h
  rw [alone_call htest, if_neg hc] at h
  exact alone_symbolFind h hc

def Known (symbols : String → Address) (k : Kernel) (name : String) : Prop :=
  symbols name ≠ 0#64 ∨ ∃ cache, symbolsInUse k = some cache ∧ k.content cache name ≠ none

/-- A look-up succeeds when the name is known. Otherwise it fails, and leaves the name in the
cache. -/
theorem alone_lookUp {name : String} {r : Returned}
    (h : alone symbols i (ps4KernelSymbolLookUp (some name) .variable) k = some (r, k'))
    (sane : Sane k) :
    (r.code = ps4Ok ↔ Known symbols k name) ∧ k'.static .symbolCache ≠ 0#64 ∧
      (r.code ≠ ps4Ok → k'.content (k'.static .symbolCache) name ≠ none) := by
  by_cases hc : k.static .symbolCache = 0#64
  · have htest : alone symbols i (test .symbol) k = some (k.static .symbolCache, { k with
        filling := Function.update k.filling .symbol (i :: k.filling .symbol) }) := by
      rw [test, alone_perform, step, if_pos ⟨hc, rfl⟩]
      rfl
    simp only [ps4KernelSymbolLookUp, reduceCtorEq, if_false] at h
    rw [alone_call htest, if_pos hc] at h
    obtain ⟨code, k₁, hinit, h₁⟩ := alone_bind_eq_some.mp h
    obtain ⟨rfl, hne, hcontent⟩ := alone_symbolInitialize hinit
      ⟨sane.nodup, sane.nonnull, sane.fresh, sane.entries⟩
    rw [if_neg (by simp)] at h₁
    obtain ⟨hcode, hstatic, hcached⟩ := alone_symbolFind h₁ hne
    refine ⟨?_, by rw [hstatic]; exact hne, by rw [hstatic]; exact hcached⟩
    rw [hcode, hcontent, Known, symbolsInUse, if_pos hc, or_comm]
    change _ ∨ (symbolsKnown k).bind _ ≠ none ↔ _
    cases hknown : symbolsKnown k with
    | none => simp
    | some cache => simp
  · obtain ⟨hcode, hstatic, hcached⟩ := alone_lookUp_inPlace h hc
    refine ⟨?_, by rw [hstatic]; exact hc, by rw [hstatic]; exact hcached⟩
    rw [hcode, Known, symbolsInUse, if_neg hc, or_comm]
    simp

theorem alone_lookUp_again {name : String} {r r' : Returned} {k₁ : Kernel}
    (h : alone symbols i (ps4KernelSymbolLookUp (some name) .variable) k = some (r, k₁))
    (sane : Sane k)
    (hr : r.code ≠ ps4Ok) (h' :
      alone symbols i (ps4KernelSymbolLookUp (some name) .variable) k₁ = some (r', k')) :
    r'.code = ps4Ok := by
  obtain ⟨-, hne, hcached⟩ := alone_lookUp h sane
  exact (alone_lookUp_inPlace h' hne).1.mpr (.inl (hcached hr))

theorem alone_lookUp_inPlace_again {name : String} {r r' : Returned} {k₁ : Kernel}
    (h : alone symbols i (ps4KernelSymbolLookUp (some name) .variable) k = some (r, k₁))
    (hc : k.static .symbolCache ≠ 0#64) (hr : r.code ≠ ps4Ok)
    (h' : alone symbols i (ps4KernelSymbolLookUp (some name) .variable) k₁ = some (r', k')) :
    r'.code = ps4Ok := by
  obtain ⟨-, hstatic, hcached⟩ := alone_lookUp_inPlace h hc
  apply (alone_lookUp_inPlace h' (by rw [hstatic]; exact hc)).1.mpr
  rw [hstatic]
  exact .inl (hcached hr)

end Ps4Sdk.LazyModules
