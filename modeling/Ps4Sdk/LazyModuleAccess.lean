import Ps4Sdk.LazyModuleGlobals

/-!
# The tests of the modules and the uses of the global cache

Behind its test a module is settled or the thread fills it. A settled global cache is used
under its mutex; what is put there under a reserved name must be ready for use.
-/

namespace Ps4Sdk.LazyModules
open InterleavedPrograms

variable {symbols : String → Address} {i : ℕ} {sym : Bool} {k : Kernel} {β : Type}
  {m : Module} {g b : Address}

section
variable {P : Kernel → Prop} {Q : β → Kernel → Prop} {f : Address → Prog β}

theorem spec_testFilled (hP : Lasting symbols i P) (hm : ∀ k, P k → k.static m.tested ≠ 0#64)
    (h : ∀ v, v ≠ 0#64 → Spec symbols i P (f v) Q) : Spec symbols i P (test m >>= f) Q := by
  refine spec_effect (a := .test m) (fun (v : Address) k => v ≠ 0#64 ∧ P k) hP ?_
    (fun v => Spec.assume (h v))
  intro k hi hp
  refine ⟨trivial, fun _ v k' hs => ?_⟩
  rw [step, if_neg (fun h => hm k hp h.1)] at hs
  cases hs
  exact ⟨respects_refl hi, hm k hp, hp⟩

private theorem not_filled_of_orderly (ho : ∀ j ∈ k.filling m, j = i) (hfree : i ∉ k.filling m) :
    k.filling m = [] := by
  rw [List.eq_nil_iff_forall_not_mem]
  intro j hj
  rw [ho j hj] at hj
  exact hfree hj

theorem spec_test {N : Kernel → Prop} (hd : m.testDecides = true) (hP : Lasting symbols i P)
    (hfree : ∀ k, P k → i ∉ k.filling m)
    (hbegin : ∀ k, Invariant (symbols "Giant") k → P k → k.filling m = [] → Untouched m k →
      N { k with filling := Function.update k.filling m [i] })
    (hnull : Spec symbols i N (f 0#64) Q)
    (hfilled : ∀ v, v ≠ 0#64 →
      Spec symbols i (fun k => P k ∧ Settled (symbols "Giant") m k) (f v) Q) :
    Spec symbols i P (test m >>= f) Q := by
  refine spec_effect (a := .test m) (fun (v : Address) k =>
    if v = 0#64 then N k else P k ∧ Settled (symbols "Giant") m k) hP ?_ (fun v => ?_)
  · intro k hi hp
    refine ⟨trivial, fun ho v k' hs => ?_⟩
    have hempty := not_filled_of_orderly (ho (.inr hd)) (hfree k hp)
    rw [step] at hs
    rcases hi.settled m hempty with hu | hc
    · have h0 : k.static m.tested = 0#64 := hu _ (by cases m <;> rfl)
      rw [if_pos ⟨h0, hd⟩, hempty] at hs
      cases hs
      refine ⟨respects_filling hi (by rw [hempty]; simp) (.inr rfl) (fun _ hf => ?_) (by simp)
        (fun _ _ hs => ?_) (by simp) (by simp), ?_⟩
      · rw [hd] at hf
        cases hf
      · exact hs.1.filled m.tested (by cases m <;> rfl) h0
      · rw [if_pos h0]
        exact hbegin k hi hp hempty hu
    · have h0 : k.static m.tested ≠ 0#64 := hc.filled _ (by cases m <;> rfl)
      rw [if_neg (fun h => h0 h.1)] at hs
      cases hs
      refine ⟨respects_refl hi, ?_⟩
      rw [if_neg h0]
      exact ⟨hp, hc, hempty⟩
  · by_cases hv : v = 0#64
    · subst hv
      exact hnull
    · exact fun k hi hp => hfilled v hv k hi (by simpa only [if_neg hv] using hp)

/-- The test of a module that is tested again under `Giant`. -/
theorem spec_testAgain (hd : m.testDecides = false) (hP : Lasting symbols i P)
    (hfree : ∀ k, P k → i ∉ k.filling m) (hnull : Spec symbols i P (f 0#64) Q)
    (hfilled : ∀ v, v ≠ 0#64 →
      Spec symbols i (fun k => P k ∧ Complete (symbols "Giant") m k) (f v) Q) :
    Spec symbols i P (test m >>= f) Q := by
  refine spec_effect (a := .test m) (fun (v : Address) k =>
    P k ∧ (v ≠ 0#64 → Complete (symbols "Giant") m k)) hP ?_ (fun v => ?_)
  · intro k hi hp
    refine ⟨trivial, fun ho v k' hs => ?_⟩
    rw [step, if_neg (by simp [hd])] at hs
    cases hs
    refine ⟨respects_refl hi, hp, fun h0 => ?_⟩
    rcases hi.settled m (not_filled_of_orderly (ho (.inl h0)) (hfree k hp)) with hu | hc
    · exact absurd (hu m.tested (by cases m <;> rfl)) h0
    · exact hc
  · by_cases hv : v = 0#64
    · subst hv
      exact fun k hi hp => hnull k hi hp.1
    · exact fun k hi hp => hfilled v hv k hi ⟨hp.1, hp.2 hv⟩

end

section
variable {P : Kernel → Prop} {Q : Returned → Kernel → Prop}

theorem spec_returnOnError {val : Prog Returned} {rest : Address → Prog Returned}
    {M : Returned → Kernel → Prop} (h : Spec symbols i P val (fun r k => r.code = ps4Ok ∧ M r k))
    (hrest : ∀ r, Spec symbols i (M r) (rest r.value) Q) :
    Spec symbols i P (ps4ExpressionReturnOnError val rest) Q := by
  refine Triple.bind h (fun r => Spec.assume (fun hr => ?_))
  rw [if_neg (fun hn => hn hr)]
  exact hrest r

theorem spec_initializingFilled {first rest : Prog Returned} (hP : Lasting symbols i P)
    (hm : ∀ k, P k → k.static m.tested ≠ 0#64) (h : Spec symbols i P rest Q) :
    Spec symbols i P (initializing m first rest) Q := by
  refine spec_testFilled hP hm (fun v hv => ?_)
  rw [if_neg hv]
  exact h

theorem spec_globalInitializing {rest : Prog Returned} (hgiant : symbols "Giant" ≠ 0#64)
    (h : Spec symbols i (fun k => Beside symbols i sym k ∧
      Settled (symbols "Giant") .global k) rest Q) :
    Spec symbols i (Beside symbols i sym)
      (initializing .global ps4KernelCacheGlobalInitialize rest) Q := by
  refine spec_test (N := Making symbols i sym (fun a b _ _ => a = 0#64 ∧ b = 0#64))
    rfl beside_lasting
    (fun k hp => hp.2) ?_ ?_ (fun v hv => ?_)
  · intro k hi hp hempty hu
    refine ⟨⟨fun m hm => ?_, ?_⟩, by simp, hu .globalCache rfl, hu .cacheGlobalMutex rfl⟩
    · have hne : m ≠ .global := by
        rintro rfl
        cases hm
      simp only [Function.update_of_ne hne]
      exact hp.1.1 m hm
    · cases sym with
      | false => exact hp.1.2
      | true =>
        obtain ⟨hf, hu', hpaired⟩ := hp.1.2
        refine ⟨hf, hu', hpaired.1, fun hs => ?_⟩
        exact absurd (hu .globalCache rfl) (hs.1.filled .globalCache rfl)
  · rw [if_pos rfl]
    exact spec_returnOnError (M := fun _ k => Beside symbols i sym k ∧
      Settled (symbols "Giant") .global k)
      (spec_cacheGlobalInitialize hgiant) (fun _ => h)
  · rw [if_neg hv]
    exact h

end

/-! ### The settled global cache -/

def SettledAt (symbols : String → Address) (g b : Address) (k : Kernel) : Prop :=
  Settled (symbols "Giant") .global k ∧ k.static .globalCache = g ∧ k.static .cacheGlobalMutex = b

theorem settledAt_everlasting : Everlasting symbols (SettledAt symbols g b) := by
  rintro j k k' hi hr ⟨hs, hg, hb⟩
  have hstatic := (hr.complete .global hs.1).2
  exact ⟨hr.settled _ rfl hs, (hstatic .globalCache rfl).trans hg,
    (hstatic .cacheGlobalMutex rfl).trans hb⟩

theorem SettledAt.nonnull (h : SettledAt symbols g b k) : g ≠ 0#64 :=
  h.2.1 ▸ h.1.1.filled .globalCache rfl

theorem SettledAt.shared {g' : Address} (h : SettledAt symbols g b k)
    (hi : Invariant (symbols "Giant") k) (hg : Shared (symbols "Giant") k g') : g' = g := by
  rcases hg with hg | hg
  · rw [← hi.same h.1 g' hg, h.2.1]
  · rw [hg.2, h.2.1]

theorem SettledAt.entries (h : SettledAt symbols g b k) (hi : Invariant (symbols "Giant") k) :
    Entries (symbols "Giant") k g := h.2.1 ▸ hi.entries h.1

theorem SettledAt.usable (h : SettledAt symbols g b k) : Usable (symbols "Giant") k b :=
  h.2.2 ▸ h.1.1.mutex

section
variable {P : Kernel → Prop} {Q : Returned → Kernel → Prop}

theorem Spec.settledAt {p : Prog β} {Q : β → Kernel → Prop}
    (hP : ∀ k, P k → Settled (symbols "Giant") .global k)
    (h : ∀ g b, Spec symbols i (fun k => P k ∧ SettledAt symbols g b k) p Q) :
    Spec symbols i P p Q :=
  fun k hi hp => h _ _ k hi ⟨hp, hP k hp, rfl, rfl⟩

theorem spec_cacheGlobalLocked {use : Address → Prog Returned} (hP : Lasting symbols i P)
    (hQ : ∀ r, Lasting symbols i (Q r))
    (huse : Spec symbols i (fun k => P k ∧ SettledAt symbols g b k) (use g) Q) :
    Spec symbols i (fun k => P k ∧ SettledAt symbols g b k) (cacheGlobalLocked use) Q := by
  have hlast : Lasting symbols i (fun k => P k ∧ SettledAt symbols g b k) :=
    hP.and settledAt_everlasting.lasting
  refine spec_load_eq hlast (fun k hp => hp.2.2.2) (spec_mtxLock hlast ?_ ?_)
  · exact fun k _ hp => ⟨hp.2.usable.1, hp.2.usable.2.2⟩
  refine spec_load_eq hlast (fun k hp => hp.2.2.1) ?_
  have hframe : Spec symbols i (fun k => P k ∧ SettledAt symbols g b k) (use g)
      (fun r k => Q r k ∧ SettledAt symbols g b k) :=
    (huse.frame settledAt_everlasting).weaken (fun k _ hp => ⟨hp, hp.2⟩) (fun _ _ _ hq => hq)
  refine Triple.bind hframe (fun r => ?_)
  have hlast' : Lasting symbols i (fun k => Q r k ∧ SettledAt symbols g b k) :=
    (hQ r).and settledAt_everlasting.lasting
  refine spec_load_eq hlast' (fun k hp => hp.2.2.2) (spec_mtxUnlock hlast' ?_ (fun k _ hp => hp.1))
  exact fun k hp => .inl hp.2.usable.2.1

end

theorem mayChange_global {entries : String → Option Address} (hi : Invariant (symbols "Giant") k)
    (hs : SettledAt symbols g b k)
    (hentries : Entries (symbols "Giant")
      { k with content := Function.update k.content g entries } g)
    (hmutex : entries ps4KernelCacheGlobalMutexName = k.content g ps4KernelCacheGlobalMutexName)
    (hnames : k.filling .symbol ≠ [i] → ∀ name ∈ [ps4KernelCacheSymbolLookupCache,
      ps4KernelCacheSymbolLookupMutex], entries name = k.content g name) :
      MayChange symbols i (Function.update k.content g entries) k := by
  have hapart : k.static .symbolCache ≠ 0#64 → k.static .symbolCache ≠ g := by
    intro h0
    rw [← hs.2.1]
    exact (hi.after h0).2
  refine ⟨fun g' hg => ?_, fun hf h0 => ?_, fun j _ _ h0 => Function.update_of_ne (hapart h0) ..,
    fun hf g' hg => ?_,
    fun j hj => ?_⟩
  · rw [hs.shared hi hg]
    exact ⟨hentries, by rw [Function.update_self]; exact hmutex⟩
  · intro v hv
    simp only [Function.update_of_ne (hapart h0)] at hv
    exact hi.giantIn hf h0 v hv
  · rw [hs.shared hi hg, Function.update_self]
    exact hnames hf
  · rw [hs.1.2] at hj
    cases hj

structure Admits (symbols : String → Address) (i : ℕ) (g : Address) (name : String)
    (value : Address) (k : Kernel) : Prop where
  other : name ≠ ps4KernelCacheGlobalMutexName
  mutex : name ∈ mutexNames → Usable (symbols "Giant") k value
  code : name ∈ codeNames → value ≠ 0#64
  cache : name = ps4KernelCacheSymbolLookupCache → value ≠ 0#64 ∧ value ≠ g ∧
  GiantIn (symbols "Giant") k value
  own : k.filling .symbol ≠ [i] → name ≠ ps4KernelCacheSymbolLookupCache ∧
  name ≠ ps4KernelCacheSymbolLookupMutex

theorem mayChange_insert {name : String} {value : Address} (hi : Invariant (symbols "Giant") k)
    (hs : SettledAt symbols g b k) (ha : Admits symbols i g name value k) :
    MayChange symbols i (Function.update k.content g
      (Function.update (k.content g) name (some value))) k := by
  have hentries := hs.entries hi
  have hgiant : ∀ v, v ≠ g → GiantIn (symbols "Giant") k v → GiantIn (symbols "Giant") { k with
      content := Function.update k.content g
          (Function.update (k.content g) name (some value)) } v := by
    intro v hv hgiant w hw
    simp only [Function.update_of_ne hv] at hw
    exact hgiant w hw
  refine mayChange_global hi hs ⟨fun name' hn v hv => ?_, fun name' hn v hv => ?_, fun v hv => ?_⟩
    (Function.update_of_ne (Ne.symm ha.other) ..) (fun hf name' hn => Function.update_of_ne ?_ ..)
  · simp only [Function.update_self] at hv
    by_cases he : name' = name
    · subst he
      rw [Function.update_self] at hv
      cases hv
      exact ha.mutex hn
    · rw [Function.update_of_ne he] at hv
      exact hentries.mutexes name' hn v hv
  · simp only [Function.update_self] at hv
    by_cases he : name' = name
    · subst he
      rw [Function.update_self] at hv
      cases hv
      exact ha.code hn
    · rw [Function.update_of_ne he] at hv
      exact hentries.codes name' hn v hv
  · simp only [Function.update_self] at hv
    by_cases he : ps4KernelCacheSymbolLookupCache = name
    · rw [he, Function.update_self] at hv
      cases hv
      obtain ⟨h0, hg, hv⟩ := ha.cache he.symm
      exact ⟨h0, hg, hgiant _ hg hv⟩
    · rw [Function.update_of_ne he] at hv
      obtain ⟨h0, hg, hv⟩ := hentries.symbols v hv
      exact ⟨h0, hg, hgiant _ hg hv⟩
  · obtain ⟨hcache, hmutex⟩ := ha.own hf
    rintro rfl
    simp only [List.mem_cons, List.not_mem_nil, or_false] at hn
    exact hn.elim hcache hmutex

theorem mayChange_delete {name : String} (hi : Invariant (symbols "Giant") k)
    (hs : SettledAt symbols g b k) (hname : name ∉ reservedNames) :
    MayChange symbols i (Function.update k.content g
      (Function.update (k.content g) name none)) k := by
  have hentries := hs.entries hi
  have hother : ∀ name' ∈ reservedNames, Function.update (k.content g) name none name' =
      k.content g name' := by
    intro name' hn
    refine Function.update_of_ne ?_ ..
    rintro rfl
    exact hname hn
  have hmutexes : mutexNames ⊆ reservedNames := by decide
  have hcodes : codeNames ⊆ reservedNames := by decide
  refine mayChange_global hi hs ⟨fun name' hn v hv => ?_, fun name' hn v hv => ?_, fun v hv => ?_⟩
    (hother _ (by decide)) (fun _ name' hn => hother _ ?_)
  · simp only [Function.update_self] at hv
    rw [hother name' (hmutexes hn)] at hv
    exact hentries.mutexes name' hn v hv
  · simp only [Function.update_self] at hv
    rw [hother name' (hcodes hn)] at hv
    exact hentries.codes name' hn v hv
  · simp only [Function.update_self] at hv
    rw [hother _ (by decide)] at hv
    obtain ⟨h0, hg, hgiant⟩ := hentries.symbols v hv
    refine ⟨h0, hg, fun w hw => ?_⟩
    simp only [Function.update_of_ne hg] at hw
    exact hgiant w hw
  · have hnames : [ps4KernelCacheSymbolLookupCache, ps4KernelCacheSymbolLookupMutex] ⊆
      reservedNames := by decide
    exact hnames hn

theorem Admits.unreserved {name : String} {value : Address} (hname : name ∉ reservedNames) :
    Admits symbols i g name value k := by
  have hmutexes : mutexNames ⊆ reservedNames := by decide
  have hcodes : codeNames ⊆ reservedNames := by decide
  refine ⟨?_, fun hn => absurd (hmutexes hn) hname, fun hn => absurd (hcodes hn) hname, ?_,
    fun _ => ⟨?_, ?_⟩⟩ <;>
  · rintro rfl
    exact absurd (by decide) hname

/-! ### Threads that fill nothing -/

def Free (i : ℕ) (k : Kernel) : Prop := ∀ m, i ∉ k.filling m

theorem free_lasting : Lasting symbols i (Free i) := fun _ _ _ hr hf m => hr.notOwn m (hf m)

theorem beside_iff_free : Beside symbols i false k ↔ Free i k := by
  constructor
  · rintro ⟨⟨hhooks, hsymbol⟩, hglobal⟩ m
    cases m with
    | symbol => exact hsymbol
    | global => exact hglobal
    | functionHook => exact hhooks _ rfl
    | systemCallHook => exact hhooks _ rfl
  · exact fun h => ⟨⟨fun m _ => h m, h .symbol⟩, h .global⟩

section
variable {P : Kernel → Prop} {Q : Returned → Kernel → Prop} (hgiant : symbols "Giant" ≠ 0#64)
include hgiant

private theorem spec_globalInitializingFree {rest : Prog Returned}
    (h : Spec symbols i (fun k => Free i k ∧ Settled (symbols "Giant") .global k) rest Q) :
    Spec symbols i (Free i) (initializing .global ps4KernelCacheGlobalInitialize rest) Q := by
  have hbeside : Spec symbols i (Beside symbols i false)
    (initializing .global ps4KernelCacheGlobalInitialize rest) Q :=
    spec_globalInitializing hgiant
      (h.weaken (fun _ _ hp => ⟨beside_iff_free.mp hp.1, hp.2⟩) (fun _ _ _ hq => hq))
  exact hbeside.weaken (fun _ _ hp => beside_iff_free.mpr hp) (fun _ _ _ hq => hq)

private theorem spec_globalUse {use : Address → Prog Returned}
    (huse : ∀ g b, Spec symbols i (fun k => Free i k ∧ SettledAt symbols g b k) (use g)
      (fun _ => Free i)) :
    Spec symbols i (Free i) (initializing .global ps4KernelCacheGlobalInitialize
      (cacheGlobalLocked use))
      (fun _ => Free i) := by
  refine spec_globalInitializingFree hgiant (Spec.settledAt (fun k hp => hp.2) (fun g b => ?_))
  exact (spec_cacheGlobalLocked free_lasting (fun _ => free_lasting) (huse g b)).weaken
    (fun k _ hp => ⟨hp.1.1, hp.2⟩) (fun _ _ _ hq => hq)

theorem spec_cacheGlobalGet {name : Option String} {value : Destination}
    (hvalue : ∀ x, value ≠ .static x) :
    Spec symbols i (Free i) (ps4KernelCacheGlobalGet name value) (fun _ => Free i) := by
  cases name with
  | none => exact spec_globalInitializingFree hgiant (fun k _ hp => hp.1)
  | some name =>
    cases value with
    | null => exact spec_globalInitializingFree hgiant (fun k _ hp => hp.1)
    | static x => exact absurd rfl (hvalue x)
    | _ =>
      refine spec_globalUse hgiant (fun g b => Spec.known (fun k hp => hp.2.nonnull) (fun hg => ?_))
      exact spec_cacheGetVariable hg (free_lasting.and settledAt_everlasting.lasting)
        (fun _ _ _ hp _ => hp.1)
        (fun _ _ hp _ => hp.1)

theorem spec_cacheGlobalSet {name : Option String} {value : Address}
    (hname : ∀ s, name = some s → s ∉ reservedNames) :
    Spec symbols i (Free i) (ps4KernelCacheGlobalSet name value) (fun _ => Free i) := by
  cases name with
  | none => exact spec_globalInitializingFree hgiant (fun k _ hp => hp.1)
  | some name =>
    by_cases hv : value = 0#64
    · rw [ps4KernelCacheGlobalSet, if_pos hv]
      exact spec_globalInitializingFree hgiant (fun k _ hp => hp.1)
    · rw [ps4KernelCacheGlobalSet, if_neg hv]
      refine spec_globalUse hgiant (fun g b => Spec.known (fun k hp => hp.2.nonnull) (fun hg => ?_))
      exact spec_cacheSet hg (free_lasting.and settledAt_everlasting.lasting)
        (fun k hi hp => ⟨mayChange_insert hi hp.2 (.unreserved (hname name rfl)), hp.1⟩)

theorem spec_cacheGlobalDelete {name : Option String}
    (hname : ∀ s, name = some s → s ∉ reservedNames) :
    Spec symbols i (Free i) (ps4KernelCacheGlobalDelete name) (fun _ => Free i) := by
  cases name with
  | none => exact spec_globalInitializingFree hgiant (fun k _ hp => hp.1)
  | some name =>
    refine spec_globalUse hgiant (fun g b => Spec.known (fun k hp => hp.2.nonnull) (fun hg => ?_))
    have hlast : Lasting symbols i (fun k => Free i k ∧ SettledAt symbols g b k) :=
      free_lasting.and settledAt_everlasting.lasting
    rw [ps4KernelCacheDelete, if_neg hg]
    refine spec_hashFind hlast (fun v => ?_)
    cases v with
    | none => exact fun k _ hp => hp.1.1
    | some v =>
      have hdelete : Spec symbols i (fun k => Free i k ∧ SettledAt symbols g b k)
          (hashDelete g name >>= fun _ => pure (Returned.mk ps4Ok 0#64)) (fun _ => Free i) :=
        spec_hashDelete (M := Free i) hlast (fun k hi hp =>
          ⟨mayChange_delete hi hp.2 (hname name rfl), hp.1⟩)
          (fun k _ hp => hp)
      exact fun k hi hp => hdelete k hi hp.1

end

end Ps4Sdk.LazyModules
