import Ps4Sdk.LazyModuleAccess

/-!
# The symbol look-up under the discipline

The initialiser of the symbol look-up takes the cache of symbols and its mutex from the
global cache, or makes them and puts them there. Behind it the module is settled, and
the symbol `Giant` is found with its value.
-/

namespace Ps4Sdk.LazyModules
open InterleavedPrograms

variable {symbols : String → Address} {i : ℕ} {k : Kernel} {g b a : Address}

/-- The thread fills the symbol look-up, with the global cache settled: the two pointers, and what
the global cache has for them. -/
def FillingSymbol (symbols : String → Address) (i : ℕ) (g b : Address)
    (φ : Address → Address → Option Address → Option Address → Prop) (k : Kernel) : Prop :=
  (∀ m, m ≠ .symbol → i ∉ k.filling m) ∧ k.filling .symbol = [i] ∧ SettledAt symbols g b k ∧
    φ (k.static .symbolCache) (k.static .symbolLookUpMutex)
      (k.content g ps4KernelCacheSymbolLookupCache)
      (k.content g ps4KernelCacheSymbolLookupMutex)

section
variable {φ ψ : Address → Address → Option Address → Option Address → Prop}

theorem fillingSymbol_lasting : Lasting symbols i (FillingSymbol symbols i g b φ) := by
  rintro k k' hi hr ⟨ho, hf, hs, hφ⟩
  obtain ⟨hf', hstatic⟩ := hr.own _ hf
  have hnames := hr.names hf hs.1
  rw [hs.2.1] at hnames
  refine ⟨fun m hm => hr.notOwn m (ho m hm), hf', settledAt_everlasting i k k' hi hr hs, ?_⟩
  rw [hstatic .symbolCache rfl, hstatic .symbolLookUpMutex rfl, hnames _ List.mem_cons_self,
    hnames _ (List.mem_cons_of_mem _ (List.mem_singleton_self _))]
  exact hφ

theorem FillingSymbol.store {x : Static} (h : FillingSymbol symbols i g b φ k)
    (hx : x.module = .symbol) (hψ : ψ (Function.update k.static x a .symbolCache)
      (Function.update k.static x a .symbolLookUpMutex)
      (k.content g ps4KernelCacheSymbolLookupCache) (k.content g ps4KernelCacheSymbolLookupMutex)) :
    FillingSymbol symbols i g b ψ { k with static := Function.update k.static x a } := by
  have hstatic : ∀ y, Static.module y = .global → Function.update k.static x a y = k.static y := by
    intro y hy
    refine Function.update_of_ne ?_ ..
    rintro rfl
    rw [hx] at hy
    cases hy
  obtain ⟨ho, hf, ⟨⟨hc, he⟩, hg, hb⟩, -⟩ := h
  refine ⟨ho, hf, ⟨⟨hc.mono hstatic (fun _ ha => ha), he⟩, ?_, ?_⟩, hψ⟩
  · exact (hstatic .globalCache rfl).trans hg
  · exact (hstatic .cacheGlobalMutex rfl).trans hb

theorem FillingSymbol.change {content : Address → String → Option Address}
    (h : FillingSymbol symbols i g b φ k) (hψ : ψ (k.static .symbolCache)
      (k.static .symbolLookUpMutex) (content g ps4KernelCacheSymbolLookupCache)
      (content g ps4KernelCacheSymbolLookupMutex)) :
    FillingSymbol symbols i g b ψ { k with content := content } := by
  obtain ⟨ho, hf, ⟨⟨hc, he⟩, hg, hb⟩, -⟩ := h
  exact ⟨ho, hf, ⟨⟨⟨hc.filled, hc.mutex⟩, he⟩, hg, hb⟩, hψ⟩

end

/-! ### The end of the initialiser -/

def SymbolReady (symbols : String → Address) (i : ℕ) (k : Kernel) : Prop :=
  ∃ g b, FillingSymbol symbols i g b (fun c m e e' => e = some c ∧ e' = some m) k

theorem spec_symbolDone {r : Code} :
    Spec symbols i (SymbolReady symbols i)
      (do
        leave .symbol
        mtxUnlock (symbols "Giant")
        pure r)
      (fun r' k => r' = r ∧ Free i k ∧ Settled (symbols "Giant") .symbol k) := by
  rintro k hi ⟨g, b, hready⟩
  revert k
  refine spec_leave (M := fun k => Free i k ∧ Settled (symbols "Giant") .symbol k)
    fillingSymbol_lasting ?_ ?_
  · rintro k hi ⟨ho, hf, hs, hcache, hmutex⟩
    have hentries := hs.entries hi
    obtain ⟨h0, hne, hgiant⟩ := hentries.symbols _ hcache
    have husable := hentries.mutexes _ (by decide) _ hmutex
    have hcomplete : Complete (symbols "Giant") .symbol k := by
      refine ⟨fun x hx => ?_, husable⟩
      cases x with
      | symbolCache => exact h0
      | symbolLookUpMutex => exact husable.1
      | _ => cases hx
    have hpaired : Paired (symbols "Giant") k := by
      have hin : PairedIn k g := fun _ _ => ⟨_, hmutex⟩
      refine ⟨fun g' hg' => ?_, fun _ => hs.2.1.symm ▸ hin⟩
      rw [← hi.same hs.1 g' hg', hs.2.1]
      exact hin
    refine ⟨hf, hcomplete, by simp, fun _ => ⟨hpaired, hgiant⟩, fun m => ?_,
      ⟨hcomplete.filled, hcomplete.mutex⟩, by simp⟩
    by_cases hm : m = .symbol
    · subst hm
      simp
    · simp only [Function.update_of_ne hm]
      exact ho m hm
  · refine spec_mtxUnlock (free_lasting.and ?_) (fun k hp => .inr (fun m _ => hp.1 m))
      (fun k _ hp => ⟨rfl, hp⟩)
    exact fun _ _ _ hr hs => hr.settled _ rfl hs

/-! ### The two pointers of the global cache -/

def Unstored (c m : Address) (e e' : Option Address) : Prop :=
  c = 0#64 ∧ m = 0#64 ∧ ∀ v, e = some v → ∃ v', e' = some v'

def CacheFound (c m : Address) (e e' : Option Address) : Prop := m = 0#64 ∧ e = some c ∧
    ∃ v', e' = some v'

def CacheMissing (c m : Address) (e _ : Option Address) : Prop := c = 0#64 ∧ m = 0#64 ∧ e = none

def SymbolFound (symbols : String → Address) (i : ℕ) (r : Returned) (k : Kernel) : Prop :=
  ∃ g b, FillingSymbol symbols i g b (if r.code = ps4Ok then CacheFound else CacheMissing) k

theorem spec_getSymbolCache (hgiant : symbols "Giant" ≠ 0#64) :
    Spec symbols i (Beside symbols i true)
      (ps4KernelCacheGlobalGet (some ps4KernelCacheSymbolLookupCache) (.static .symbolCache))
      (SymbolFound symbols i) := by
  refine spec_globalInitializing hgiant (Spec.settledAt (fun k hp => hp.2) (fun g b => ?_))
  have huse : Spec symbols i (fun k => FillingSymbol symbols i g b Unstored k ∧
    SettledAt symbols g b k)
      (cacheGlobalLocked
        (fun cache => ps4KernelCacheGet cache ps4KernelCacheSymbolLookupCache
          (.static .symbolCache)))
      (fun r => FillingSymbol symbols i g b (if r.code =
        ps4Ok then CacheFound else CacheMissing)) := by
    refine spec_cacheGlobalLocked fillingSymbol_lasting (fun r => fillingSymbol_lasting)
      (Spec.known (fun k hp => hp.2.nonnull) (fun hg => ?_))
    refine spec_cacheGet
      (M := fun v => FillingSymbol symbols i g b (fun c m e e' => c = 0#64 ∧ m = 0#64 ∧ e = some v ∧
        ∃ v', e' = some v'))
      hg (fillingSymbol_lasting.and settledAt_everlasting.lasting)
        (fun v => fillingSymbol_lasting) ?_ ?_ ?_ ?_
    · exact fun k hp => ⟨hp.1.2.1, hp.1.2.2.2.1⟩
    · rintro v k - ⟨⟨ho, hf, hs, hc, hm, hp⟩, -⟩ hv
      exact ⟨ho, hf, hs, hc, hm, hv, hp v hv⟩
    · rintro k - ⟨⟨ho, hf, hs, hc, hm, -⟩, -⟩ hv
      rw [if_neg (by decide)]
      exact ⟨ho, hf, hs, hc, hm, hv⟩
    · intro v k hi hm
      obtain ⟨hf, hs, hc, hmutex, hv, hv'⟩ := hm.2
      obtain ⟨-, hne, -⟩ := (hs.entries hi).symbols v hv
      refine ⟨⟨hf, fun hcomplete => hcomplete.filled .symbolCache rfl
        hc, by simp, fun _ _ => ⟨hs.1, hs.2.1 ▸ hne⟩⟩, ?_⟩
      rw [if_pos rfl]
      exact hm.store rfl ⟨by simpa using hmutex, by simpa using hv, hv'⟩
  refine huse.weaken (fun k hi hp => ⟨?_, hp.2⟩) (fun r k _ hq => ⟨g, b, hq⟩)
  obtain ⟨⟨⟨⟨hhooks, hf, hu, hpaired⟩, hglobal⟩, -⟩, hs⟩ := hp
  refine ⟨fun m hm => ?_, hf, hs, hu .symbolCache rfl, hu .symbolLookUpMutex rfl,
    hs.2.1 ▸ hpaired.2 hs.1⟩
  cases m with
  | symbol => exact absurd rfl hm
  | global => exact hglobal
  | functionHook => exact hhooks _ rfl
  | systemCallHook => exact hhooks _ rfl

theorem spec_settledUse {P : Kernel → Prop} {Q : Returned → Kernel → Prop}
    {use : Address → Prog Returned} (hP : Lasting symbols i P) (hQ : ∀ r, Lasting symbols i (Q r))
    (hs : ∀ k, P k → SettledAt symbols g b k)
    (huse : Spec symbols i P (use g) Q) :
    Spec symbols i P (initializing .global ps4KernelCacheGlobalInitialize
      (cacheGlobalLocked use)) Q := by
  refine spec_initializingFilled hP (fun k hp => (hs k hp).1.1.filled _ rfl) ?_
  have hlocked : Spec symbols i (fun k => P k ∧ SettledAt symbols g b k)
    (cacheGlobalLocked use) Q :=
    spec_cacheGlobalLocked hP hQ (huse.weaken (fun _ _ hp => hp.1) (fun _ _ _ hq => hq))
  exact hlocked.weaken (fun k _ hp => ⟨hp, hs k hp⟩) (fun _ _ _ hq => hq)

theorem spec_getSymbolMutex :
    Spec symbols i (FillingSymbol symbols i g b CacheFound)
      (ps4KernelCacheGlobalGet (some ps4KernelCacheSymbolLookupMutex) (.static .symbolLookUpMutex))
      (fun _ => FillingSymbol symbols i g b (fun c m e e' => e = some c ∧ e' = some m)) := by
  refine spec_settledUse fillingSymbol_lasting (fun r => fillingSymbol_lasting)
    (fun k hp => hp.2.2.1)
    (Spec.known (fun k hp => hp.2.2.1.nonnull) (fun hg => ?_))
  refine spec_cacheGet (M := fun v => FillingSymbol symbols i g b
    (fun c m e e' => m = 0#64 ∧ e = some c ∧ e' = some v))
    hg fillingSymbol_lasting (fun v => fillingSymbol_lasting) ?_ ?_ ?_ ?_
  · exact fun k hp => ⟨hp.2.1, hp.2.2.2.1⟩
  · rintro v k - ⟨ho, hf, hs, hm, hc, -⟩ hv
    exact ⟨ho, hf, hs, hm, hc, hv⟩
  · rintro k - ⟨-, -, -, -, -, v, hv⟩ hn
    rw [hv] at hn
    cases hn
  · intro v k hi hm
    obtain ⟨hf, hs, hm0, hc, hv⟩ := hm.2
    refine ⟨⟨hf, fun hcomplete => hcomplete.filled .symbolLookUpMutex rfl
      hm0, by simp, by simp⟩, ?_⟩
    exact hm.store rfl ⟨by simpa using hc, by simpa using hv⟩

/-! ### New pointers -/

def Cleared (i : ℕ) (k : Kernel) : Prop :=
  k.filling .symbol = [i] ∧ k.static .symbolCache ≠ 0#64 ∧
    k.content (k.static .symbolCache) "Giant" = none

theorem cleared_lasting : Lasting symbols i (Cleared i) := by
  rintro k k' hi hr ⟨hf, h0, hn⟩
  obtain ⟨hf', hstatic⟩ := hr.own _ hf
  refine ⟨hf', by rw [hstatic .symbolCache rfl]; exact h0, ?_⟩
  rw [hstatic .symbolCache rfl, hr.symbols hf h0]
  exact hn

theorem spec_setSymbolCache (ha : a ≠ 0#64) :
    Spec symbols i (fun k => FillingSymbol symbols i g b (fun c m _ _ => c = a ∧ m = 0#64) k ∧
      Cleared i k)
      (ps4KernelCacheGlobalSet (some ps4KernelCacheSymbolLookupCache) a)
      (fun _ => FillingSymbol symbols i g b (fun c m e _ => c = a ∧ m = 0#64 ∧ e = some a)) := by
  rw [ps4KernelCacheGlobalSet]
  simp only [if_neg ha]
  have hlast : Lasting symbols i
      (fun k => FillingSymbol symbols i g b (fun c m _ _ => c = a ∧ m = 0#64) k ∧ Cleared i k) :=
    fillingSymbol_lasting.and cleared_lasting
  refine spec_settledUse hlast (fun _ => fillingSymbol_lasting) (fun k hp => hp.1.2.2.1)
    (Spec.known (fun k hp => hp.1.2.2.1.nonnull) (fun hg => spec_cacheSet hg hlast ?_))
  rintro k hi ⟨hm, -, h0, hn⟩
  obtain ⟨hf, hs, hc, hmutex⟩ := hm.2
  refine ⟨mayChange_insert hi hs
    ⟨by decide, fun h => absurd h (by decide), fun h => absurd h (by decide),
    fun _ => ⟨ha, ?_, ?_⟩, fun hne => absurd hf hne⟩, hm.change ⟨hc, hmutex, ?_⟩⟩
  · rw [← hc, ← hs.2.1]
    exact (hi.after h0).2
  · intro v hv
    rw [← hc, hn] at hv
    cases hv
  · rw [Function.update_self, Function.update_self]

theorem spec_setSymbolMutex {mutex : Address} (hmutex : mutex ≠ 0#64) :
    Spec symbols i (fun k => FillingSymbol symbols i g b
      (fun c m e _ => c = a ∧ m = mutex ∧ e = some a) k ∧
        Usable (symbols "Giant") k mutex)
      (ps4KernelCacheGlobalSet (some ps4KernelCacheSymbolLookupMutex) mutex)
      (fun _ => FillingSymbol symbols i g b (fun c m e e' => e = some c ∧ e' = some m)) := by
  rw [ps4KernelCacheGlobalSet]
  simp only [if_neg hmutex]
  have hlast : Lasting symbols i (fun k => FillingSymbol symbols i g b
    (fun c m e _ => c = a ∧ m = mutex ∧ e = some a) k ∧
      Usable (symbols "Giant") k mutex) := fillingSymbol_lasting.and usable_lasting
  refine spec_settledUse hlast (fun _ => fillingSymbol_lasting) (fun k hp => hp.1.2.2.1)
    (Spec.known (fun k hp => hp.1.2.2.1.nonnull) (fun hg => spec_cacheSet hg hlast ?_))
  rintro k hi ⟨hm, husable⟩
  obtain ⟨hf, hs, hc, hm', he⟩ := hm.2
  refine ⟨mayChange_insert hi hs
    ⟨by decide, fun _ => husable, fun h => absurd h (by decide), fun h => absurd h (by decide),
    fun hne => absurd hf hne⟩, hm.change ⟨?_, ?_⟩⟩
  · rw [Function.update_self, Function.update_of_ne (by decide), he, hc]
  · rw [Function.update_self, Function.update_self, hm']

/-- The new cache is cleared before anybody else has it. -/
theorem mayChange_clear (hi : Invariant (symbols "Giant") k)
    (h : FillingSymbol symbols i g b (fun c m e _ => c = a ∧ m = 0#64 ∧ e = none) k) (ha : a ≠ g) :
    MayChange symbols i (Function.update k.content a (fun _ => none)) k := by
  obtain ⟨hf, hs, -, -, he⟩ := h.2
  have hentries := hs.entries hi
  have hsame : Function.update k.content a (fun _ => none) g = k.content g :=
    Function.update_of_ne (Ne.symm ha) ..
  refine ⟨fun g' hg => ?_, fun hempty => ?_, fun j hj hf' => ?_,
    fun hne => absurd hf hne, fun j hj => ?_⟩
  · rw [hs.shared hi hg]
    refine ⟨⟨fun name hn v hv => ?_, fun name hn v hv => ?_, fun v hv => ?_⟩, congrFun hsame _⟩
    · exact (hentries.mutexes name hn v (by rw [← hsame]; exact hv)).mono (fun _ hr => hr)
    · exact hentries.codes name hn v (by rw [← hsame]; exact hv)
    · have hv' := (congrFun hsame _).symm.trans hv
      rw [he] at hv'
      cases hv'
  · rw [hf] at hempty
    cases hempty
  · rw [hf] at hf'
    cases hf'
    exact absurd rfl hj
  · rw [hs.1.2] at hj
    cases hj

theorem spec_symbolMutex :
    Spec symbols i (FillingSymbol symbols i g b (fun c m e _ => c = a ∧ m = 0#64 ∧ e = some a))
      (do
        ps4KernelMemoryAllocate .symbolLookUpMutex
        let mutex ← load .symbolLookUpMutex
        if mutex = 0#64 then
          let cache ← load .symbolCache
          ps4KernelCacheDestroy cache
          leave .symbol
          mtxUnlock (symbols "Giant")
          pure ps4ErrorKernelOutOfMemory
        else
          let mutex ← load .symbolLookUpMutex
          mtxInit mutex
          let mutex ← load .symbolLookUpMutex
          let _ ← ps4KernelCacheGlobalSet (some ps4KernelCacheSymbolLookupMutex) mutex
          leave .symbol
          mtxUnlock (symbols "Giant")
          pure ps4Ok)
      (fun r k => r = ps4Ok ∧ Free i k ∧ Settled (symbols "Giant") .symbol k) := by
  let M (mutex : Address) (k : Kernel) : Prop :=
    FillingSymbol symbols i g b (fun c m e _ => c = a ∧ m = mutex ∧ e = some a) k ∧ mutex ≠ 0#64 ∧
      mutex ≠ symbols "Giant"
  have hM : ∀ mutex, Lasting symbols i (M mutex) := fun _ => fillingSymbol_lasting.and .const
  have hload : ∀ mutex k, M mutex k → k.static .symbolLookUpMutex = mutex :=
    fun _ _ hm => hm.1.2.2.2.2.1
  refine spec_memoryAllocate (N := fun mutex k => FillingSymbol symbols i g b
      (fun c m e _ => c = a ∧ m = 0#64 ∧ e = some a) k ∧ mutex ≠ 0#64 ∧
      mutex ≠ symbols "Giant") (M := M)
    fillingSymbol_lasting (fun _ => fillingSymbol_lasting.and .const)
      (fun _ _ _ hm hf _ => ⟨hm, hf.1, hf.2.1⟩) ?_
    (fun mutex => Spec.known (fun k hm => hm.2.1) (fun hmutex => ?_))
  · rintro mutex k - ⟨hm, hmutex⟩
    obtain ⟨hf, hs, hc, hm0, he⟩ := hm.2
    refine ⟨⟨hf, fun hcomplete => hcomplete.filled .symbolLookUpMutex rfl hm0, by simp, by simp⟩,
      hm.store rfl ⟨?_, ?_, he⟩, hmutex⟩
    · simpa using hc
    · simp
  refine spec_load_eq (hM mutex) (hload mutex) ?_
  rw [if_neg hmutex]
  refine spec_load_eq (hM mutex) (hload mutex) (spec_mtxInit (hM mutex) ?_)
  refine spec_load_eq ((hM mutex).and ready_lasting) (fun k hp => hload mutex k hp.1) ?_
  refine Triple.bind ((spec_setSymbolMutex hmutex).weaken
    (fun k _ hp => ⟨hp.1.1, hp.1.2.1, hp.1.2.2, hp.2⟩) (fun _ _ _ hq => hq)) (fun _ => ?_)
  exact spec_symbolDone.weaken (fun k _ hp => ⟨g, b, hp⟩) (fun _ _ _ hq => hq)

theorem spec_symbolMake :
    Spec symbols i (FillingSymbol symbols i g b CacheMissing) (symbolMake (symbols "Giant"))
      (fun r k => r = ps4Ok ∧ Free i k ∧ Settled (symbols "Giant") .symbol k) := by
  rw [symbolMake, ps4KernelCacheCreate, bind_assoc]
  refine spec_memoryAllocate
    (N := fun a k => FillingSymbol symbols i g b CacheMissing k ∧ a ≠ 0#64 ∧ a ≠ g)
    (M := fun a k => FillingSymbol symbols i g b (fun c m e _ => c = a ∧ m = 0#64 ∧ e = none) k ∧
      a ≠ 0#64 ∧ a ≠ g)
    fillingSymbol_lasting (fun a => fillingSymbol_lasting.and .const) ?_ ?_ (fun a => ?_)
  · rintro a k - hm ha hne
    exact ⟨hm, ha.1, hm.2.2.1.2.1 ▸ hne⟩
  · rintro a k - ⟨hm, ha, hne⟩
    obtain ⟨hf, hs, hc, hmutex, he⟩ := hm.2
    refine ⟨⟨hf, fun hcomplete => hcomplete.filled .symbolCache rfl
      hc, by simp, fun _ _ => ⟨hs.1, hs.2.1.symm ▸ hne⟩⟩, hm.store rfl ⟨?_, ?_, he⟩, ha, hne⟩
    · simp
    · simpa using hmutex
  have hlast : Lasting symbols i
      (fun k => FillingSymbol symbols i g b (fun c m e _ => c = a ∧ m = 0#64 ∧ e = none) k ∧
        a ≠ 0#64 ∧ a ≠ g) :=
    fillingSymbol_lasting.and .const
  rw [bind_assoc]
  refine spec_load_eq hlast (fun k hp => hp.1.2.2.2.1) ?_
  rw [bind_assoc]
  refine Spec.known (φ := a ≠ 0#64) (fun k hp => hp.2.1) (fun ha => ?_)
  refine spec_clear (M := fun k => FillingSymbol symbols i g b (fun c m _ _ => c = a ∧ m = 0#64) k ∧
    Cleared i k)
    hlast ?_ ?_
  · rintro k hi ⟨hm, -, hne⟩
    obtain ⟨hf, -, hc, hmutex, -⟩ := hm.2
    refine ⟨mayChange_clear hi hm hne, hm.change ⟨hc, hmutex⟩, hf, ?_, ?_⟩
    · exact hc.symm ▸ ha
    · simp [hc]
  rw [pure_bind, if_neg (fun h => h rfl)]
  refine spec_load_eq (fillingSymbol_lasting.and cleared_lasting) (fun k hp => hp.1.2.2.2.1) ?_
  exact Triple.bind (spec_setSymbolCache ha) (fun _ => spec_symbolMutex)

theorem spec_symbolInitialize (hgiant : symbols "Giant" ≠ 0#64) :
    Spec symbols i (Beside symbols i true) symbolInitialize
      (fun r k => r = ps4Ok ∧ Free i k ∧ Settled (symbols "Giant") .symbol k) := by
  refine spec_dlSym beside_lasting (spec_mtxLock beside_lasting
    (fun k hi _ => ⟨hgiant, hi.giantReady⟩) ?_)
  refine Triple.bind (spec_getSymbolCache hgiant) (fun r => ?_)
  by_cases hr : r.code = ps4Ok
  · rw [if_neg (fun hn => hn hr)]
    rintro k hi ⟨g, b, hm⟩
    rw [if_pos hr] at hm
    refine Triple.bind spec_getSymbolMutex (fun _ => ?_) k hi hm
    exact spec_symbolDone.weaken (fun k _ hp => ⟨g, b, hp⟩) (fun _ _ _ hq => hq)
  · rw [if_pos hr]
    rintro k hi ⟨g, b, hm⟩
    rw [if_neg hr] at hm
    exact spec_symbolMake k hi hm

/-! ### The look-up -/

def SymbolsAt (symbols : String → Address) (c b : Address) (k : Kernel) : Prop :=
  Settled (symbols "Giant") .symbol k ∧ k.static .symbolCache = c ∧ k.static .symbolLookUpMutex = b

private theorem symbolsAt_everlasting {c : Address} :
    Everlasting symbols (SymbolsAt symbols c b) := by
  rintro j k k' hi hr ⟨hs, hc, hb⟩
  have hstatic := (hr.complete .symbol hs.1).2
  exact ⟨hr.settled _ rfl hs, (hstatic .symbolCache rfl).trans hc,
    (hstatic .symbolLookUpMutex rfl).trans hb⟩

theorem SymbolsAt.nonnull {c : Address} (h : SymbolsAt symbols c b k) : c ≠ 0#64 :=
  h.2.1 ▸ h.1.1.filled .symbolCache rfl

theorem SymbolsAt.usable {c : Address} (h : SymbolsAt symbols c b k) :
    Usable (symbols "Giant") k b :=
  h.2.2 ▸ h.1.1.mutex

theorem mayChange_symbol {c : Address} {name : String} (hi : Invariant (symbols "Giant") k)
    (hs : SymbolsAt symbols c b k) :
    MayChange symbols i (Function.update k.content c
      (Function.update (k.content c) name (some (symbols name)))) k := by
  have h0 : k.static .symbolCache ≠ 0#64 := hs.1.1.filled .symbolCache rfl
  obtain ⟨hglobal, hapart⟩ := hi.after h0
  have hsettled : SettledAt symbols (k.static .globalCache) (k.static .cacheGlobalMutex) k :=
    ⟨hglobal, rfl, rfl⟩
  have hentries := hsettled.entries hi
  rw [hs.2.1] at hapart
  have hsame : Function.update k.content c (Function.update (k.content c) name
    (some (symbols name)))
      (k.static .globalCache) = k.content (k.static .globalCache) :=
        Function.update_of_ne (Ne.symm hapart) ..
  have hgiant : ∀ v, GiantIn (symbols "Giant") k v → GiantIn (symbols "Giant") { k with
      content := Function.update k.content c (Function.update (k.content c) name
          (some (symbols name))) } v := by
    intro v hv w hw
    by_cases hvc : v = c
    · subst hvc
      by_cases hn : "Giant" = name
      · subst hn
        simpa using hw.symm
      · simp only [Function.update_self, Function.update_of_ne hn] at hw
        exact hv w hw
    · simp only [Function.update_of_ne hvc] at hw
      exact hv w hw
  refine ⟨fun g hg => ?_, fun hf h0 => hgiant _ (hi.giantIn hf h0), fun j hj hf => ?_,
    fun _ g hg name _ => ?_,
    fun j hj => ?_⟩
  · rw [hsettled.shared hi hg]
    refine ⟨⟨fun name' hn v hv => ?_, fun name' hn v hv => ?_, fun v hv => ?_⟩, congrFun hsame _⟩
    · exact (hentries.mutexes name' hn v ((congrFun hsame _).symm.trans hv)).mono (fun _ hr => hr)
    · exact hentries.codes name' hn v ((congrFun hsame _).symm.trans hv)
    · obtain ⟨hv0, hvg, hv⟩ := hentries.symbols v ((congrFun hsame _).symm.trans hv)
      exact ⟨hv0, hvg, hgiant v hv⟩
  · rw [hs.1.2] at hf
    cases hf
  · rw [hsettled.shared hi hg]
    exact congrFun hsame _
  · rw [hglobal.2] at hj
    cases hj

/-- What the look-up returns for `Giant`. -/
def GiantFound (symbols : String → Address) (name : String) (r : Returned) : Prop :=
  name = "Giant" → r = ⟨ps4Ok, symbols "Giant"⟩

theorem spec_symbolFind {name : String} (hgiant : symbols "Giant" ≠ 0#64) :
    Spec symbols i (fun k => Free i k ∧ Settled (symbols "Giant") .symbol k)
      (symbolFind name .variable)
      (fun r k => GiantFound symbols name r ∧ Free i k ∧ Settled (symbols "Giant") .symbol k) := by
  rintro k hi ⟨hfree, hs⟩
  obtain ⟨c, hc⟩ : ∃ c, c = k.static .symbolCache := ⟨_, rfl⟩
  obtain ⟨b, hb⟩ : ∃ b, b = k.static .symbolLookUpMutex := ⟨_, rfl⟩
  have hp : Free i k ∧ SymbolsAt symbols c b k := ⟨hfree, hs, hc.symm, hb.symm⟩
  clear hfree hs hc hb
  revert k
  have hlast : Lasting symbols i (fun k => Free i k ∧ SymbolsAt symbols c b k) :=
    free_lasting.and symbolsAt_everlasting.lasting
  have hunlock : ∀ r : Returned, GiantFound symbols name r →
    Spec symbols i (fun k => Free i k ∧ SymbolsAt symbols c b k)
      (do
        let mutex ← load .symbolLookUpMutex
        mtxUnlock mutex
        pure r)
      (fun r k => GiantFound symbols name r ∧ Free i k ∧ Settled (symbols "Giant") .symbol k) := by
    intro r hr
    refine spec_load_eq hlast (fun k hp => hp.2.2.2)
      (spec_mtxUnlock hlast ?_ (fun k _ hp => ⟨hr, hp.1, hp.2.1⟩))
    exact fun k hp => .inl hp.2.usable.2.1
  refine spec_load_eq hlast (fun k hp => hp.2.2.2) (spec_mtxLock hlast ?_ ?_)
  · exact fun k _ hp => ⟨hp.2.usable.1, hp.2.usable.2.2⟩
  refine spec_load_eq hlast (fun k hp => hp.2.2.1)
    (Spec.known (fun k hp => hp.2.nonnull) (fun hc => ?_))
  refine Triple.bind (M := fun r k => (r.code = ps4Ok → name = "Giant" →
    r.value = symbols "Giant") ∧ Free i k ∧
    SymbolsAt symbols c b k) (spec_cacheGetVariable hc hlast ?_ ?_)
      (fun r => Spec.assume (fun hr => ?_))
  · rintro v k hi hp hv
    refine ⟨fun _ hn => ?_, hp⟩
    subst hn
    rw [← hp.2.2.1] at hv
    exact hi.giantIn hp.2.1.2 (hp.2.1.1.filled .symbolCache rfl) v hv
  · exact fun k _ hp _ => ⟨fun h => absurd h (by decide), hp⟩
  by_cases hok : r.code = ps4Ok
  · rw [if_neg (fun hn => hn hok)]
    exact hunlock ⟨ps4Ok, r.value⟩ (fun hn => by rw [hr hok hn])
  · rw [if_pos hok]
    refine spec_dlSym hlast (spec_load_eq hlast (fun k hp => hp.2.2.1) ?_)
    refine Triple.bind (spec_cacheSet (M := fun k => Free i k ∧ SymbolsAt symbols c b k) hc hlast
      (fun k hi hp => ⟨mayChange_symbol hi hp.2, hp.1, ?_⟩)) (fun _ => ?_)
    · exact ⟨⟨⟨hp.2.1.1.filled, hp.2.1.1.mutex⟩, hp.2.1.2⟩, hp.2.2⟩
    change Spec symbols i _ (if symbols name = 0#64 then _ else _) _
    by_cases h0 : symbols name = 0#64
    · rw [if_pos h0]
      refine fun k _ hp => ⟨fun hn => ?_, hp.1, hp.2.1⟩
      subst hn
      exact absurd h0 hgiant
    · rw [if_neg h0]
      exact hunlock ⟨ps4Ok, symbols name⟩ (fun hn => by rw [hn])

/-- The look-up, from any thread that fills nothing. -/
theorem spec_symbolLookUp {name : String} (hgiant : symbols "Giant" ≠ 0#64) :
    Spec symbols i (Free i) (ps4KernelSymbolLookUp (some name) .variable)
      (fun r k => GiantFound symbols name r ∧ Free i k ∧ Settled (symbols "Giant") .symbol k) := by
  refine spec_test (m := .symbol) (N := Beside symbols i true) rfl free_lasting
    (fun k hp => hp .symbol) ?_ ?_
    (fun v hv => ?_)
  · intro k hi hp hempty hu
    refine ⟨⟨fun m hm => ?_, ?_, hu, (hi.paired hempty).1, fun hs => ?_⟩, hp .global⟩
    · have hne : m ≠ .symbol := by
        rintro rfl
        cases hm
      simp only [Function.update_of_ne hne]
      exact hp m
    · simp
    · exact (hi.paired hempty).2 ⟨⟨hs.1.filled, hs.1.mutex⟩, hs.2⟩
  · rw [if_pos rfl]
    refine Triple.bind (spec_symbolInitialize hgiant) (fun r => Spec.assume (fun hr => ?_))
    rw [if_neg (fun hn => hn hr)]
    exact spec_symbolFind hgiant
  · rw [if_neg hv]
    exact spec_symbolFind hgiant

end Ps4Sdk.LazyModules
