import Ps4Sdk.LazyModules
import Mathlib.Data.List.Nodup

/-!
# What threads rely on while modules are initialised

A module whose pointers are all filled stays as it is. While a thread fills the pointers
of a module nobody else changes them, and nobody else is in their way: in the symbol
look-up and the global cache because of the condition on the tests, in the hooks because
of `Giant`. The global cache holds only pointers that are ready for use.
-/

namespace Ps4Sdk.LazyModules
open InterleavedPrograms

def Static.module : Static → Module
  | .symbolCache | .symbolLookUpMutex => .symbol
  | .globalCache | .cacheGlobalMutex => .global
  | .functionHookMutex | .functionHookHandler | .functionHookArgumentClone
  | .functionHookArgumentDestroy =>
    .functionHook
  | .systemCallHookMutex | .systemCallHookHandler | .systemCallHookArgumentClone => .systemCallHook

def Module.mutex : Module → Static
  | .symbol => .symbolLookUpMutex
  | .global => .cacheGlobalMutex
  | .functionHook => .functionHookMutex
  | .systemCallHook => .systemCallHookMutex

def mutexNames : List String :=
  [ps4KernelCacheSymbolLookupMutex, "ps4.kernel.function.hook.mutex",
    "ps4.kernel.system_call.hook.mutex"]

def codeNames : List String :=
  ["ps4.kernel.function.hook.handler", "ps4.kernel.function.hook.clone",
    "ps4.kernel.function.hook.destroy", "ps4.kernel.system_call.hook.handler",
    "ps4.kernel.system_call.hook.clone"]

def reservedNames : List String :=
  ps4KernelCacheGlobalMutexName :: ps4KernelCacheSymbolLookupCache :: (mutexNames ++ codeNames)

section
variable (giant : Address)

def Usable (k : Kernel) (a : Address) : Prop := a ≠ 0#64 ∧ a ≠ giant ∧ k.initialized a = true

structure Complete (m : Module) (k : Kernel) : Prop where
  filled : ∀ x, Static.module x = m → k.static x ≠ 0#64
  mutex : Usable giant k (k.static m.mutex)

def Untouched (m : Module) (k : Kernel) : Prop := ∀ x, Static.module x = m → k.static x = 0#64

def Settled (m : Module) (k : Kernel) : Prop := Complete giant m k ∧ k.filling m = []

def GiantIn (k : Kernel) (cache : Address) : Prop := ∀ v, k.content cache "Giant" = some v →
    v = giant

structure Entries (k : Kernel) (g : Address) : Prop where
  mutexes : ∀ name ∈ mutexNames, ∀ v, k.content g name = some v → Usable giant k v
  codes : ∀ name ∈ codeNames, ∀ v, k.content g name = some v → v ≠ 0#64
  symbols : ∀ v, k.content g ps4KernelCacheSymbolLookupCache = some v → v ≠ 0#64 ∧ v ≠ g ∧
    GiantIn giant k v

structure Leaf (k : Kernel) (g : Address) : Prop where
  nonnull : g ≠ 0#64
  fresh : g ∉ k.supply
  entries : Entries giant k g
  mutex : ∃ v, k.content g ps4KernelCacheGlobalMutexName = some v ∧ Usable giant k v

def PairedIn (k : Kernel) (g : Address) : Prop :=
  ∀ v, k.content g ps4KernelCacheSymbolLookupCache = some v →
    ∃ mutex, k.content g ps4KernelCacheSymbolLookupMutex = some mutex

def Paired (k : Kernel) : Prop :=
  (∀ g, k.leaf = some g → PairedIn k g) ∧
    (Settled giant .global k → PairedIn k (k.static .globalCache))

structure Invariant (k : Kernel) : Prop where
  giantReady : k.initialized giant = true
  registers : k.leaf = none → k.node ≠ .other ∧ k.adds = true
  supply : k.supply.Nodup ∧ 0#64 ∉ k.supply ∧ giant ∉ k.supply ∧ k.static .globalCache ∉ k.supply
  alone : ∀ m, k.filling m = [] ∨ ∃ i, k.filling m = [i]
  held : ∀ m i, Module.testDecides m = false → k.filling m = [i] → ∃ n, k.owner giant = some (i, n)
  settled : ∀ m, k.filling m = [] → Untouched m k ∨ Complete giant m k
  after : k.static .symbolCache ≠ 0#64 → Settled giant .global k ∧
    k.static .symbolCache ≠ k.static .globalCache
  leaf : ∀ g, k.leaf = some g → Leaf giant k g
  same : Settled giant .global k → ∀ g, k.leaf = some g → k.static .globalCache = g
  entries : Settled giant .global k → Entries giant k (k.static .globalCache)
  giantIn : k.filling .symbol = [] → k.static .symbolCache ≠ 0#64 →
    GiantIn giant k (k.static .symbolCache)
  paired : k.filling .symbol = [] → Paired giant k

/-- What a thread may rely on, except that it holds `Giant`. -/
structure Steady (i : ℕ) (k k' : Kernel) : Prop where
  complete : ∀ m, Complete giant m k → Complete giant m k' ∧ ∀ x, Static.module x = m →
    k'.static x = k.static x
  own : ∀ m, k.filling m = [i] → k'.filling m = [i] ∧ ∀ x, Static.module x = m →
    k'.static x = k.static x
  notOwn : ∀ m, i ∉ k.filling m → i ∉ k'.filling m
  ready : ∀ a, k.initialized a = true → k'.initialized a = true
  supply : ∀ a, a ∉ k.supply → a ∉ k'.supply
  settled : ∀ m, Module.testDecides m = true → Settled giant m k → Settled giant m k'
  making : k.filling .global = [i] → k'.content = k.content ∧ k'.leaf = k.leaf
  names : k.filling .symbol = [i] → Settled giant .global k →
    ∀ name ∈ [ps4KernelCacheSymbolLookupCache, ps4KernelCacheSymbolLookupMutex],
      k'.content (k.static .globalCache) name = k.content (k.static .globalCache) name
  symbols : k.filling .symbol = [i] → k.static .symbolCache ≠ 0#64 →
    k'.content (k.static .symbolCache) = k.content (k.static .symbolCache)
  paired : k.filling .symbol = [i] → Paired giant k → Paired giant k'

structure Rely (i : ℕ) (k k' : Kernel) : Prop extends Steady giant i k k' where
  owner : ∀ n, k.owner giant = some (i, n) → k'.owner giant = some (i, n)

variable {giant} {i j : ℕ} {k k' k₁ : Kernel} {m : Module}

theorem Rely.refl (giant : Address) (i : ℕ) (k : Kernel) : Rely giant i k k where
  complete := fun _ h => ⟨h, fun _ _ => rfl⟩
  own := fun _ h => ⟨h, fun _ _ => rfl⟩
  notOwn := fun _ h => h
  ready := fun _ h => h
  owner := fun _ h => h
  supply := fun _ h => h
  settled := fun _ _ h => h
  making := fun _ => ⟨rfl, rfl⟩
  names := fun _ _ _ _ => rfl
  symbols := fun _ _ => rfl
  paired := fun _ h => h

theorem Rely.trans (h : Rely giant i k k₁) (h' : Rely giant i k₁ k') : Rely giant i k k' where
  complete := fun m hm =>
    ⟨(h'.complete m (h.complete m hm).1).1, fun x hx =>
      ((h'.complete m (h.complete m hm).1).2 x hx).trans ((h.complete m hm).2 x hx)⟩
  own := fun m hm =>
    ⟨(h'.own m (h.own m hm).1).1, fun x hx => ((h'.own m (h.own m hm).1).2 x hx).trans
      ((h.own m hm).2 x hx)⟩
  notOwn := fun m hm => h'.notOwn m (h.notOwn m hm)
  ready := fun a ha => h'.ready a (h.ready a ha)
  owner := fun n hn => h'.owner n (h.owner n hn)
  supply := fun a ha => h'.supply a (h.supply a ha)
  settled := fun m hm hs => h'.settled m hm (h.settled m hm hs)
  making := fun hm =>
    ⟨(h'.making (h.own _ hm).1).1.trans (h.making hm).1,
      (h'.making (h.own _ hm).1).2.trans (h.making hm).2⟩
  names := by
    intro hm hs name hname
    have hg := (h.complete .global hs.1).2 .globalCache rfl
    rw [← h.names hm hs name hname, ← hg]
    exact h'.names (h.own _ hm).1 (h.settled .global rfl hs) name hname
  symbols := by
    intro hm hs
    have hsame := (h.own _ hm).2 .symbolCache rfl
    rw [← h.symbols hm hs, ← hsame]
    exact h'.symbols (h.own _ hm).1 (by rw [hsame]; exact hs)
  paired := fun hm hp => h'.paired (h.own _ hm).1 (h.paired hm hp)

/-- The statements that are safe: no mutex is locked that is null or not initialised, and no null
pointer is installed. -/
def safe (a : Statement) (k : Kernel) : Prop :=
  match a with
  | .lock mutex => mutex ≠ 0#64 ∧ k.initialized mutex = true
  | .install pointers => ∀ p ∈ pointers, p ≠ 0#64
  | _ => True

/-- The condition on the tests: when the pointer is found set, and in the symbol look-up and the
global cache in any case, no other thread is filling the module. -/
def orderly (i : ℕ) (a : Statement) (k : Kernel) : Prop :=
  match a with
  | .test m => k.static m.tested ≠ 0#64 ∨ m.testDecides = true → ∀ j ∈ k.filling m, j = i
  | _ => True

instance (i : ℕ) (a : Statement) (k : Kernel) : Decidable (orderly i a k) := by
  cases a with
  | test m => exact inferInstanceAs (Decidable (_ → _))
  | _ => exact inferInstanceAs (Decidable True)

def discipline (giant : Address) : Discipline Statement Kernel where
  invariant := Invariant giant
  rely := Rely giant
  refl := Rely.refl giant
  trans := fun _ _ _ _ => Rely.trans
  safe := fun _ => safe
  allowed := orderly

/-! ### What each kind of statement changes -/

theorem Usable.mono {a : Address} (h : Usable giant k a)
    (hr : ∀ a, k.initialized a = true → k'.initialized a = true) : Usable giant k' a :=
      ⟨h.1, h.2.1, hr a h.2.2⟩

theorem Complete.mono (h : Complete giant m k)
    (hs : ∀ x, Static.module x = m → k'.static x = k.static x)
    (hr : ∀ a, k.initialized a = true → k'.initialized a = true) : Complete giant m k' where
  filled := fun x hx => by rw [hs x hx]; exact h.filled x hx
  mutex := by
    rw [hs _ (by cases m <;> rfl)]
    exact h.mutex.mono hr

theorem Entries.mono {g : Address} (h : Entries giant k g) (hc : k'.content = k.content)
    (hr : ∀ a, k.initialized a = true → k'.initialized a = true) : Entries giant k' g where
  mutexes := fun name hn v hv => (h.mutexes name hn v (by rw [← hc]; exact hv)).mono hr
  codes := fun name hn v hv => h.codes name hn v (by rw [← hc]; exact hv)
  symbols := by
    unfold GiantIn
    rw [hc]
    exact h.symbols

theorem settled_back (h : Invariant giant k) (hs : k'.static = k.static)
    (hf : k'.filling .global = k.filling .global) (h' : Settled giant .global k') :
    Settled giant .global k := by
  obtain ⟨hcomplete, hfill⟩ := h'
  rw [hf] at hfill
  rcases h.settled .global hfill with hu | hc
  · have hnull := hcomplete.filled .globalCache rfl
    rw [hs] at hnull
    exact absurd (hu .globalCache rfl) hnull
  · exact ⟨hc, hfill⟩

/-- Neither the pointers nor what is shared is changed. -/
structure Quiet (k k' : Kernel) : Prop where
  static : k'.static = k.static
  content : k'.content = k.content
  leaf : k'.leaf = k.leaf
  node : k'.node = k.node
  adds : k'.adds = k.adds
  filling : k'.filling = k.filling
  ready : ∀ a, k.initialized a = true → k'.initialized a = true
  supply : k'.supply <:+ k.supply

theorem Quiet.complete (hq : Quiet k k') (h : Complete giant m k) : Complete giant m k' :=
  h.mono (fun x _ => congrFun hq.static x) hq.ready

theorem Quiet.paired (hq : Quiet k k') (h : Invariant giant k) (hp : Paired giant k) :
    Paired giant k' := by
  obtain ⟨hl, hs⟩ := hp
  refine ⟨fun g hg => ?_, fun hg => ?_⟩
  · unfold PairedIn
    rw [hq.content]
    exact hl g (hq.leaf ▸ hg)
  · unfold PairedIn
    rw [hq.content, hq.static]
    exact hs (settled_back h hq.static (congrFun hq.filling .global) hg)

theorem Quiet.steady (hq : Quiet k k') (h : Invariant giant k) : Steady giant i k k' where
  complete := fun m hm => ⟨hq.complete hm, fun x _ => congrFun hq.static x⟩
  own := fun m hm => ⟨by rw [hq.filling]; exact hm, fun x _ => congrFun hq.static x⟩
  notOwn := by
    rw [hq.filling]
    exact fun m hm => hm
  ready := hq.ready
  supply := fun a ha hm => ha (hq.supply.subset hm)
  settled := fun m _ hs => ⟨hq.complete hs.1, by rw [hq.filling]; exact hs.2⟩
  making := fun _ => ⟨hq.content, hq.leaf⟩
  names := by
    intro _ _ name _
    rw [hq.content]
  symbols := by
    intro _ _
    rw [hq.content]
  paired := fun _ => hq.paired h

theorem respects_quiet (h : Invariant giant k) (hq : Quiet k k')
    (howner : ∀ j n, j ≠ i → k.owner giant = some (j, n) → k'.owner giant = some (j, n))
    (hheld : ∀ m n, Module.testDecides m = false → k.filling m = [i] → k.owner giant = some (i, n) →
      ∃ n', k'.owner giant = some (i, n')) : Respects (discipline giant) i k k' := by
  have hback := settled_back h hq.static (congrFun hq.filling .global)
  refine ⟨⟨hq.ready _ h.giantReady, ?_, ?_, ?_, ?_, ?_, ?_, ?_, ?_, ?_, ?_, ?_⟩, fun j hj =>
    ⟨hq.steady h, fun n hn => howner j n hj hn⟩⟩
  · rw [hq.leaf, hq.node, hq.adds]
    exact h.registers
  · obtain ⟨hnodup, hnull, hgiant, hglobal⟩ := h.supply
    rw [hq.static]
    exact ⟨hq.supply.sublist.nodup hnodup, fun hm => hnull (hq.supply.subset hm),
      fun hm => hgiant (hq.supply.subset hm), fun hm => hglobal (hq.supply.subset hm)⟩
  · rw [hq.filling]
    exact h.alone
  · intro m j hm hj
    rw [hq.filling] at hj
    obtain ⟨n, hn⟩ := h.held m j hm hj
    by_cases hji : j = i
    · subst hji
      exact hheld m n hm hj hn
    · exact ⟨n, howner j n hji hn⟩
  · intro m hm
    rw [hq.filling] at hm
    rcases h.settled m hm with hu | hc
    · exact .inl (fun x hx => by rw [hq.static]; exact hu x hx)
    · exact .inr (hq.complete hc)
  · rw [hq.static]
    intro hs
    obtain ⟨⟨hc, hf⟩, hne⟩ := h.after hs
    exact ⟨⟨hq.complete hc, by rw [hq.filling]; exact hf⟩, hne⟩
  · intro g hg
    rw [hq.leaf] at hg
    obtain ⟨hnonnull, hfresh, hentries, v, hv, hu⟩ := h.leaf g hg
    exact ⟨hnonnull, fun hm => hfresh (hq.supply.subset hm), hentries.mono hq.content hq.ready, v,
      by rw [hq.content]; exact hv, hu.mono hq.ready⟩
  · intro hs g hg
    rw [hq.static]
    exact h.same (hback hs) g (hq.leaf ▸ hg)
  · intro hs
    rw [hq.static]
    exact (h.entries (hback hs)).mono hq.content hq.ready
  · rw [hq.static, hq.filling]
    intro hf hs
    unfold GiantIn
    rw [hq.content]
    exact h.giantIn hf hs
  · rw [hq.filling]
    exact fun hs => hq.paired h (h.paired hs)

/-- A pointer of a module is stored by the thread that fills it. -/
theorem respects_store {x : Static} {a : Address} (h : Invariant giant k) (hx : x.module = m)
    (hf : k.filling m = [i]) (hn : ¬Complete giant m k) (hglobal : x = .globalCache → a ∉ k.supply)
    (hsymbol : x = .symbolCache → a ≠ 0#64 → Settled giant .global k ∧ a ≠ k.static .globalCache) :
    Respects (discipline giant) i k { k with static := Function.update k.static x a } := by
  obtain ⟨k', hk'⟩ : ∃ k', k' = { k with static := Function.update k.static x a } := ⟨_, rfl⟩
  have hstatic : ∀ y, Static.module y ≠ m → k'.static y = k.static y := by
    intro y hy
    have hne : y ≠ x := by
      rintro rfl
      exact hy hx
    rw [hk']
    exact Function.update_of_ne hne ..
  have hmk : ∀ m', k.filling m' = [] → m' ≠ m := by
    rintro m' hm' rfl
    rw [hf] at hm'
    cases hm'
  have hcomplete : ∀ m', Complete giant m' k → Complete giant m' k' := by
    intro m' hm'
    have hne : m' ≠ m := fun he => hn (he ▸ hm')
    exact hm'.mono (fun y hy => hstatic y (hy ▸ hne)) (fun a ha => by rw [hk']; exact ha)
  have hsettled : ∀ m', Settled giant m' k → Settled giant m' k' := fun m' hs =>
    ⟨hcomplete _ hs.1, by rw [hk']; exact hs.2⟩
  have hback : Settled giant .global k' → Settled giant .global k ∧
      k'.static .globalCache = k.static .globalCache := by
    rintro ⟨hc, hfill⟩
    have hfill' : k.filling .global = [] := by
      rw [hk'] at hfill
      exact hfill
    have hsame := hstatic .globalCache (fun he => hmk .global hfill' he)
    rcases h.settled .global hfill' with hu | hc'
    · exact absurd (hsame.trans (hu .globalCache rfl)) (hc.filled .globalCache rfl)
    · exact ⟨⟨hc', hfill'⟩, hsame⟩
  have hpaired : Paired giant k → Paired giant k' := by
    rintro ⟨hl, hs⟩
    refine ⟨fun g hg => ?_, fun hg => ?_⟩
    · rw [hk'] at hg ⊢
      exact hl g hg
    · obtain ⟨hg, hsame⟩ := hback hg
      rw [hsame, hk']
      exact hs hg
  rw [← hk']
  refine ⟨⟨by rw [hk']; exact h.giantReady, by rw [hk']; exact h.registers, ?_,
    by rw [hk']; exact h.alone,
    by rw [hk']; exact h.held, ?_, ?_, ?_, ?_, ?_, ?_, ?_⟩,
    fun j hj => ⟨⟨?_, ?_, by rw [hk']; exact fun _ hm => hm,
      by rw [hk']; exact fun _ hm => hm, by rw [hk']; exact fun _ hm => hm, fun m' _ => hsettled m',
      by rw [hk']; exact fun _ => ⟨rfl, rfl⟩, by rw [hk']; exact fun _ _ _ _ => rfl,
      by rw [hk']; exact fun _ _ => rfl, fun _ => hpaired⟩, by rw [hk']; exact fun _ hm => hm⟩⟩
  · obtain ⟨hnodup, hnull, hgiant, hfresh⟩ := h.supply
    rw [hk']
    refine ⟨hnodup, hnull, hgiant, ?_⟩
    by_cases hxg : x = .globalCache
    · subst hxg
      simpa using hglobal rfl
    · simpa [Function.update_of_ne (Ne.symm hxg)] using hfresh
  · intro m' hm'
    have hm'' : k.filling m' = [] := by
      rw [hk'] at hm'
      exact hm'
    rcases h.settled m' hm'' with hu | hc
    · exact .inl (fun y hy => (hstatic y (hy ▸ hmk m' hm'')).trans (hu y hy))
    · exact .inr (hcomplete m' hc)
  · intro hs
    have hafter : Settled giant .global k ∧ k'.static .symbolCache ≠ k.static .globalCache := by
      by_cases hxs : x = .symbolCache
      · subst hxs
        rw [hk'] at hs ⊢
        simp only [Function.update_self] at hs ⊢
        exact hsymbol rfl hs
      · rw [hk'] at hs ⊢
        simp only [Function.update_of_ne (Ne.symm hxs)] at hs ⊢
        exact h.after hs
    rw [hstatic .globalCache (fun he => hmk .global hafter.1.2 he)]
    exact ⟨hsettled _ hafter.1, hafter.2⟩
  · intro g hg
    rw [hk'] at hg ⊢
    obtain ⟨hnonnull, hfresh, hentries, v, hv, hu⟩ := h.leaf g hg
    exact ⟨hnonnull, hfresh, ⟨hentries.mutexes, hentries.codes, hentries.symbols⟩, v, hv, hu⟩
  · intro hs g hg
    obtain ⟨hs, hsame⟩ := hback hs
    rw [hsame]
    rw [hk'] at hg
    exact h.same hs g hg
  · intro hs
    obtain ⟨hs, hsame⟩ := hback hs
    have hentries := h.entries hs
    rw [hsame, hk']
    exact ⟨hentries.mutexes, hentries.codes, hentries.symbols⟩
  · intro hfill hs
    have hfill' : k.filling .symbol = [] := by
      rw [hk'] at hfill
      exact hfill
    have hsame := hstatic .symbolCache (fun he => hmk .symbol hfill' he)
    rw [hsame] at hs ⊢
    rw [hk']
    exact h.giantIn hfill' hs
  · intro hs
    rw [hk'] at hs
    exact hpaired (h.paired hs)
  · intro m' hm'
    exact ⟨hcomplete m' hm', fun y hy => hstatic y (hy ▸ fun he => hn (he ▸ hm'))⟩
  · intro m' hm'
    have hne : m' ≠ m := by
      rintro rfl
      rw [hf] at hm'
      cases hm'
      exact hj rfl
    exact ⟨by rw [hk']; exact hm', fun y hy => hstatic y (hy ▸ hne)⟩

private theorem PairedIn.of_names {g : Address} (h : PairedIn k g)
    (hn : ∀ name ∈ [ps4KernelCacheSymbolLookupCache, ps4KernelCacheSymbolLookupMutex],
      k'.content g name = k.content g name) : PairedIn k' g := by
  intro v hv
  rw [hn _ List.mem_cons_self] at hv
  rw [hn _ (List.mem_cons_of_mem _ (List.mem_singleton_self _))]
  exact h v hv

/-- The global caches that others may use. -/
def Shared (giant : Address) (k : Kernel) (g : Address) : Prop :=
  k.leaf = some g ∨ Settled giant .global k ∧ g = k.static .globalCache

theorem respects_content {content : Address → String → Option Address} (h : Invariant giant k)
    (hentries : ∀ g, Shared giant k g → Entries giant { k with content := content } g ∧
      content g ps4KernelCacheGlobalMutexName = k.content g ps4KernelCacheGlobalMutexName)
    (hgiantIn : k.filling .symbol = [] → k.static .symbolCache ≠ 0#64 →
      GiantIn giant { k with content := content } (k.static .symbolCache))
    (hsymbols : ∀ j, j ≠ i → k.filling .symbol = [j] → k.static .symbolCache ≠ 0#64 →
      content (k.static .symbolCache) = k.content (k.static .symbolCache))
    (hnames : k.filling .symbol ≠ [i] → ∀ g, Shared giant k g →
      ∀ name ∈ [ps4KernelCacheSymbolLookupCache, ps4KernelCacheSymbolLookupMutex], content g name =
        k.content g name)
    (hmaking : ∀ j, k.filling .global = [j] → j = i) :
    Respects (discipline giant) i k { k with content := content } := by
  have hpaired : k.filling .symbol ≠ [i] → Paired giant k →
      Paired giant { k with content := content } := by
    rintro hf ⟨hl, hs⟩
    refine ⟨fun g hg => (hl g hg).of_names (hnames hf g (.inl hg)), fun hg => ?_⟩
    have hsettled : Settled giant .global k := ⟨⟨hg.1.filled, hg.1.mutex⟩, hg.2⟩
    exact (hs hsettled).of_names (hnames hf _ (.inr ⟨hsettled, rfl⟩))
  have hcomplete : ∀ m, Complete giant m k → Complete giant m { k with content := content } :=
      fun m hm =>
    ⟨hm.filled, hm.mutex⟩
  have hback : Settled giant .global { k with content := content } → Settled giant .global k :=
      fun hs =>
    ⟨⟨hs.1.filled, hs.1.mutex⟩, hs.2⟩
  refine ⟨⟨h.giantReady, h.registers, h.supply, h.alone, h.held, ?_, ?_, ?_, ?_, ?_, hgiantIn, ?_⟩,
      fun j hj =>
    ⟨⟨fun m hm => ⟨hcomplete m hm, fun _ _ => rfl⟩, fun m hm => ⟨hm, fun _ _ => rfl⟩,
      fun _ hm => hm, fun _ hm => hm,
      fun _ hm => hm, fun _ _ hs => ⟨hcomplete _ hs.1, hs.2⟩, ?_, ?_, hsymbols j hj,
        ?_⟩, fun _ hm => hm⟩⟩
  · intro m hm
    exact (h.settled m hm).imp (fun hu => hu) (hcomplete m)
  · exact fun hs => ⟨⟨hcomplete _ (h.after hs).1.1, (h.after hs).1.2⟩, (h.after hs).2⟩
  · intro g hg
    obtain ⟨hnonnull, hfresh, -, v, hv, hu⟩ := h.leaf g hg
    obtain ⟨hentries, hmutex⟩ := hentries g (.inl hg)
    exact ⟨hnonnull, hfresh, hentries, v, hmutex.trans hv, hu⟩
  · exact fun hs => h.same (hback hs)
  · exact fun hs => (hentries _ (.inr ⟨hback hs, rfl⟩)).1
  · intro hs
    refine hpaired ?_ (h.paired hs)
    rw [show k.filling .symbol = [] from hs]
    simp
  · intro hf
    exact absurd (hmaking j hf) hj
  · intro hf hs
    refine hnames ?_ _ (.inr ⟨hs, rfl⟩)
    rw [hf]
    simpa using hj
  · intro hf
    refine hpaired ?_
    rw [hf]
    simpa using hj

theorem respects_leaf {g : Address} (h : Invariant giant k) (hf : k.filling .global = [i])
    (hleaf : Leaf giant k g) (hpaired : PairedIn k g) :
    Respects (discipline giant) i k { k with leaf := some g } := by
  have hcomplete : ∀ m, Complete giant m k → Complete giant m { k with leaf := some g } :=
      fun m hm =>
    ⟨hm.filled, hm.mutex⟩
  have hnot : ¬Settled giant .global { k with leaf := some g } := by
    rintro ⟨-, hs⟩
    rw [show k.filling .global = [] from hs] at hf
    cases hf
  have hpaired' : Paired giant { k with leaf := some g } := by
    refine ⟨?_, fun hs => absurd hs hnot⟩
    rintro g' hg'
    cases hg'
    exact hpaired
  refine ⟨⟨h.giantReady, by simp, h.supply, h.alone, h.held, ?_, ?_, ?_, fun hs => absurd hs hnot,
    fun hs => absurd hs hnot, h.giantIn, fun _ => hpaired'⟩, fun j hj =>
    ⟨⟨fun m hm => ⟨hcomplete m hm, fun _ _ => rfl⟩, fun m hm => ⟨hm, fun _ _ => rfl⟩,
      fun _ hm => hm, fun _ hm => hm,
      fun _ hm => hm, fun _ _ hs => ⟨hcomplete _ hs.1, hs.2⟩, ?_, fun _ _ _ _ => rfl,
        fun _ _ => rfl,
      fun _ _ => hpaired'⟩,
      fun _ hm => hm⟩⟩
  · intro m hm
    exact (h.settled m hm).imp (fun hu => hu) (hcomplete m)
  · exact fun hs => ⟨⟨hcomplete _ (h.after hs).1.1, (h.after hs).1.2⟩, (h.after hs).2⟩
  · rintro g' hg'
    cases hg'
    exact ⟨hleaf.nonnull, hleaf.fresh, ⟨hleaf.entries.mutexes, hleaf.entries.codes,
      hleaf.entries.symbols⟩, hleaf.mutex⟩
  · intro hf'
    rw [hf] at hf'
    cases hf'
    exact absurd rfl hj

/-- A thread begins to fill a module, or has filled it. -/
theorem respects_filling {threads : List ℕ} (h : Invariant giant k)
    (hbefore : ∀ j ∈ k.filling m, j = i) (hthreads : threads = [] ∨ threads = [i])
    (hheld : threads = [i] → m.testDecides = false → ∃ n, k.owner giant = some (i, n))
    (hfilled : threads = [] → Complete giant m k)
    (hbegin : m.testDecides = true → threads = [i] → ¬Settled giant m k)
    (hglobal : m = .global → threads = [] → Entries giant k (k.static .globalCache) ∧
      k.leaf = some (k.static .globalCache))
    (hsymbol : m = .symbol → threads = [] → Paired giant k ∧
      GiantIn giant k (k.static .symbolCache)) :
    Respects (discipline giant) i k { k with filling := Function.update k.filling m threads } := by
  obtain ⟨k', hk'⟩ : ∃ k', k' = { k with filling := Function.update k.filling m threads } :=
    ⟨_, rfl⟩
  have hfm : k'.filling m = threads := by
    rw [hk']
    exact Function.update_self ..
  have hfother : ∀ m', m' ≠ m → k'.filling m' = k.filling m' := by
    intro m' hm'
    rw [hk']
    exact Function.update_of_ne hm' ..
  have hcomplete : ∀ m', Complete giant m' k → Complete giant m' k' := fun m' hm' => by
    rw [hk']
    exact ⟨hm'.filled, hm'.mutex⟩
  have hsettled : ∀ m', Module.testDecides m' = true → Settled giant m' k →
      Settled giant m' k' := by
    intro m' hd hs
    refine ⟨hcomplete _ hs.1, ?_⟩
    by_cases hm : m' = m
    · subst hm
      rcases hthreads with ht | ht
      · rw [hfm, ht]
      · exact absurd hs (hbegin hd ht)
    · exact (hfother _ hm).trans hs.2
  have hback : Settled giant .global k' → Settled giant .global k ∨ m = .global ∧ threads = [] := by
    rintro ⟨hc, hfill⟩
    by_cases hm : Module.global = m
    · rw [hm, hfm] at hfill
      exact .inr ⟨hm.symm, hfill⟩
    · rw [hfother _ hm] at hfill
      rw [hk'] at hc
      exact .inl ⟨⟨hc.filled, hc.mutex⟩, hfill⟩
  have hpaired : Paired giant k → Paired giant k' := by
    rintro ⟨hl, hs⟩
    refine ⟨fun g hg => ?_, fun hg => ?_⟩
    · rw [hk'] at hg ⊢
      exact hl g hg
    · have hp : PairedIn k (k.static .globalCache) := by
        rcases hback hg with hg | ⟨hm, ht⟩
        · exact hs hg
        · exact hl _ (hglobal hm ht).2
      rw [hk']
      exact hp
  have hother : ∀ m' j, k.filling m' = [j] → j ≠ i → m' ≠ m := by
    rintro m' j hm' hj rfl
    exact hj (hbefore j (by rw [hm']; exact List.mem_singleton_self j))
  rw [← hk']
  refine ⟨⟨by rw [hk']; exact h.giantReady, by rw [hk']; exact h.registers,
    by rw [hk']; exact h.supply, ?_, ?_, ?_, ?_,
    ?_, ?_, ?_, ?_, ?_⟩, fun j hj => ⟨⟨?_, ?_, ?_, by rw [hk']; exact fun _ hm => hm,
      by rw [hk']; exact fun _ hm => hm, hsettled, by rw [hk']; exact fun _ => ⟨rfl, rfl⟩,
      by rw [hk']; exact fun _ _ _ _ => rfl, by rw [hk']; exact fun _ _ => rfl, fun _ => hpaired⟩,
      by rw [hk']; exact fun _ hm => hm⟩⟩
  · intro m'
    by_cases hm' : m' = m
    · subst hm'
      rw [hfm]
      exact hthreads.imp id (fun ht => ⟨i, ht⟩)
    · rw [hfother m' hm']
      exact h.alone m'
  · intro m' j hd hj
    by_cases hm' : m' = m
    · subst hm'
      rw [hfm] at hj
      rcases hthreads with ht | ht
      · rw [ht] at hj
        cases hj
      · rw [ht] at hj
        cases hj
        rw [hk']
        exact hheld ht hd
    · rw [hfother m' hm'] at hj
      rw [hk']
      exact h.held m' j hd hj
  · intro m' hm'
    by_cases hne : m' = m
    · subst hne
      rw [hfm] at hm'
      exact .inr (hcomplete _ (hfilled hm'))
    · rw [hfother m' hne] at hm'
      exact (h.settled m' hm').imp (fun hu => by rw [hk']; exact hu) (hcomplete m')
  · intro hs
    have hafter := h.after (by rw [hk'] at hs; exact hs)
    refine ⟨hsettled _ rfl hafter.1, ?_⟩
    rw [hk']
    exact hafter.2
  · intro g hg
    rw [hk'] at hg ⊢
    obtain ⟨hnonnull, hfresh, hentries, v, hv, hu⟩ := h.leaf g hg
    exact ⟨hnonnull, hfresh, ⟨hentries.mutexes, hentries.codes, hentries.symbols⟩, v, hv, hu⟩
  · intro hs
    have hsame : ∀ g, k.leaf = some g → k.static .globalCache = g := by
      rcases hback hs with hs | ⟨hm, ht⟩
      · exact h.same hs
      · intro g hg
        rw [(hglobal hm ht).2] at hg
        cases hg
        rfl
    rw [hk']
    exact hsame
  · intro hs
    have hentries : Entries giant k (k.static .globalCache) := by
      rcases hback hs with hs | ⟨hm, ht⟩
      · exact h.entries hs
      · exact (hglobal hm ht).1
    rw [hk']
    exact ⟨hentries.mutexes, hentries.codes, hentries.symbols⟩
  · intro hf hs
    have hgiant : GiantIn giant k (k.static .symbolCache) := by
      by_cases hm : Module.symbol = m
      · rw [hm, hfm] at hf
        exact (hsymbol hm.symm hf).2
      · rw [hfother _ hm] at hf
        rw [hk'] at hs
        exact h.giantIn hf hs
    rw [hk']
    exact hgiant
  · intro hs
    by_cases hm : Module.symbol = m
    · rw [hm, hfm] at hs
      exact hpaired (hsymbol hm.symm hs).1
    · rw [hfother _ hm] at hs
      exact hpaired (h.paired hs)
  · intro m' hm'
    exact ⟨hcomplete m' hm', by rw [hk']; exact fun _ _ => rfl⟩
  · intro m' hm'
    exact ⟨(hfother m' (hother m' j hm' hj)).trans hm', by rw [hk']; exact fun _ _ => rfl⟩
  · intro m' hm'
    by_cases hne : m' = m
    · subst hne
      rw [hfm]
      rcases hthreads with ht | ht
      · rw [ht]
        exact List.not_mem_nil
      · rw [ht]
        simpa using hj
    · rw [hfother m' hne]
      exact hm'

end

end Ps4Sdk.LazyModules
