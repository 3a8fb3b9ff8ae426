import Ps4Sdk.LazyModuleDiscipline

/-!
# Rules for the statements of the modules

Each statement has a rule under the discipline: from an assertion that the other threads
leave alone to what holds behind the statement.
-/

namespace Ps4Sdk.LazyModules
open InterleavedPrograms

section
variable {symbols : String → Address} {i : ℕ} {α β : Type} {k k' : Kernel}

abbrev Spec (symbols : String → Address) (i : ℕ) (P : Kernel → Prop) (p : Prog α)
    (Q : α → Kernel → Prop) : Prop :=
  Triple (discipline (symbols "Giant")) (step symbols) i P p Q

/-- The other threads leave the assertion alone, and so do the thread's own quiet statements. -/
def Lasting (symbols : String → Address) (i : ℕ) (P : Kernel → Prop) : Prop :=
  ∀ k k', Invariant (symbols "Giant") k' → Steady (symbols "Giant") i k k' → P k → P k'

def Everlasting (symbols : String → Address) (F : Kernel → Prop) : Prop :=
  ∀ j k k', Invariant (symbols "Giant") k' → Steady (symbols "Giant") j k k' → F k → F k'

theorem Lasting.stable {P : Kernel → Prop} (h : Lasting symbols i P) :
    Stable (discipline (symbols "Giant")) i P :=
  fun k k' hi hr hp => h k k' hi hr.toSteady hp

theorem Everlasting.lasting {F : Kernel → Prop} (h : Everlasting symbols F) : Lasting symbols i F :=
  fun k k' hi hr hf => h i k k' hi hr hf

theorem Lasting.and {P P' : Kernel → Prop} (h : Lasting symbols i P) (h' : Lasting symbols i P') :
    Lasting symbols i (fun k => P k ∧ P' k) :=
  fun k k' hi hr hp => ⟨h k k' hi hr hp.1, h' k k' hi hr hp.2⟩

theorem Lasting.const {φ : Prop} : Lasting symbols i (fun _ => φ) := fun _ _ _ _ h => h

theorem respects_refl (h : Invariant (symbols "Giant") k) :
    Respects (discipline (symbols "Giant")) i k k :=
  ⟨h, fun j _ => Rely.refl _ j k⟩

variable {P : Kernel → Prop} {Q : β → Kernel → Prop}

theorem Spec.assume {φ : Prop} {p : Prog β} (h : φ → Spec symbols i P p Q) :
    Spec symbols i (fun k => φ ∧ P k) p Q :=
  fun k hi hp => h hp.1 k hi hp.2

theorem Spec.known {φ : Prop} {p : Prog β} (hφ : ∀ k, P k → φ) (h : φ → Spec symbols i P p Q) :
    Spec symbols i P p Q :=
  fun k hi hp => h (hφ k hp) k hi hp

theorem Spec.frame {F : Kernel → Prop} {p : Prog β} (hF : Everlasting symbols F)
    (h : Spec symbols i P p Q) :
    Spec symbols i (fun k => P k ∧ F k) p (fun r k => Q r k ∧ F k) :=
  Triple.frame (D := discipline (symbols "Giant"))
    (fun j k k' hi hr hf => hF j k k' hi hr.toSteady hf) h

theorem spec_read {a : Statement} {f : a.Answer → Prog β} (hP : Lasting symbols i P)
    (answer : Kernel → a.Answer) (hstep : ∀ k, step symbols i a k = some (answer k, k))
    (hsafe : ∀ k, safe a k)
    (h : ∀ v, Spec symbols i (fun k => P k ∧ answer k = v) (f v) Q) :
    Spec symbols i P (perform a >>= f) Q := by
  refine Triple.bind (Triple.perform hP.stable ?_) h
  intro k hi hp
  refine ⟨hsafe k, fun _ v k' hs => ?_⟩
  rw [hstep] at hs
  cases hs
  exact ⟨respects_refl hi, hp, rfl⟩

theorem spec_load {x : Static} {f : Address → Prog β} (hP : Lasting symbols i P)
    (h : ∀ v, Spec symbols i (fun k => P k ∧ k.static x = v) (f v) Q) :
    Spec symbols i P (load x >>= f) Q :=
  spec_read (a := .load x) hP (fun k => k.static x) (fun _ => rfl) (fun _ => trivial) h

theorem spec_load_eq {x : Static} {a : Address} {f : Address → Prog β} (hP : Lasting symbols i P)
    (hx : ∀ k, P k → k.static x = a) (h : Spec symbols i P (f a) Q) :
    Spec symbols i P (load x >>= f) Q := by
  refine spec_load hP (fun v k hi hp => ?_)
  obtain ⟨hp, rfl⟩ := hp
  rw [hx k hp]
  exact h k hi hp

theorem spec_dlSym {name : String} {f : Address → Prog β} (hP : Lasting symbols i P)
    (h : Spec symbols i P (f (symbols name)) Q) :
    Spec symbols i P (ps4KernelDlSym name >>= f) Q := by
  refine spec_read (a := .dlSym name) hP (fun _ => symbols name) (fun _ => rfl)
    (fun _ => trivial) (fun v => ?_)
  intro k hi hp
  obtain ⟨hp, rfl⟩ := hp
  exact h k hi hp

theorem spec_hashFind {cache : Address} {name : String} {f : Option Address → Prog β}
    (hP : Lasting symbols i P)
    (h : ∀ v, Spec symbols i (fun k => P k ∧ k.content cache name = v) (f v) Q) :
    Spec symbols i P (hashFind cache name >>= f) Q :=
  spec_read (a := .find cache name) hP (fun k => k.content cache name) (fun _ => rfl)
    (fun _ => trivial) h

theorem spec_sysctlCache {f : Option Address → Prog β} (hP : Lasting symbols i P)
    (h : ∀ v, Spec symbols i (fun k => P k ∧ k.leaf = v) (f v) Q) :
    Spec symbols i P (sysctlCache >>= f) Q :=
  spec_read (a := .sysctlCache) hP (fun k => k.leaf) (fun _ => rfl) (fun _ => trivial) h

theorem spec_sysctlNode {f : NodeAnswer → Prog β} (hP : Lasting symbols i P)
    (h : ∀ v, Spec symbols i (fun k => P k ∧ k.node = v) (f v) Q) :
    Spec symbols i P (sysctlNode >>= f) Q :=
  spec_read (a := .sysctlNode) hP (fun k => k.node) (fun _ => rfl) (fun _ => trivial) h

theorem spec_body {f : Unit → Prog β} (hP : Lasting symbols i P) (h : Spec symbols i P (f ()) Q) :
    Spec symbols i P (body >>= f) Q := by
  refine spec_read (a := .body) hP (fun _ => ()) (fun _ => rfl) (fun _ => trivial) (fun _ => ?_)
  exact fun k hi hp => h k hi hp.1

theorem spec_install {pointers : List Address} {f : Unit → Prog β} (hP : Lasting symbols i P)
    (hp : ∀ p ∈ pointers, p ≠ 0#64) (h : Spec symbols i P (f ()) Q) :
    Spec symbols i P (install pointers >>= f) Q := by
  refine spec_read (a := .install pointers) hP (fun _ => ()) (fun _ => rfl)
    (fun _ => hp) (fun _ => ?_)
  exact fun k hi hp => h k hi hp.1

theorem spec_effect {a : Statement} {f : a.Answer → Prog β} (M : a.Answer → Kernel → Prop)
    (hP : Lasting symbols i P) (hstep : ∀ k, Invariant (symbols "Giant") k → P k → safe a k ∧
      (orderly i a k → ∀ v k', step symbols i a k = some (v, k') →
        Respects (discipline (symbols "Giant")) i k k' ∧ M v k'))
    (h : ∀ v, Spec symbols i (M v) (f v) Q) : Spec symbols i P (perform a >>= f) Q :=
  Triple.bind (Triple.perform hP.stable hstep) h

theorem respects_lock {mutex : Address} (h : Invariant (symbols "Giant") k)
    (hl : lockMutex i k mutex = some k') :
    Respects (discipline (symbols "Giant")) i k k' ∧ Quiet k k' ∧
    ∃ n, k'.owner mutex = some (i, n) := by
  obtain ⟨⟨n, rfl⟩, howner⟩ := lockMutex_owner hl
  have hq : Quiet k { k with owner := Function.update k.owner mutex (some (i, n)) } :=
    ⟨rfl, rfl, rfl, rfl, rfl, rfl, fun _ ha => ha, List.suffix_rfl⟩
  refine ⟨respects_quiet h hq ?_ ?_, hq, n, Function.update_self ..⟩
  · intro j n' hj hn'
    have hne : symbols "Giant" ≠ mutex := by
      rintro rfl
      exact hj (howner j n' hn')
    exact (Function.update_of_ne hne ..).trans hn'
  · intro m n' hm hf hn'
    by_cases he : symbols "Giant" = mutex
    · subst he
      exact ⟨n, Function.update_self ..⟩
    · exact ⟨n', (Function.update_of_ne he ..).trans hn'⟩

theorem respects_unlock {mutex : Address} (h : Invariant (symbols "Giant") k)
    (hl : unlockMutex i k mutex = some k')
    (hm : mutex ≠ symbols "Giant" ∨ ∀ m, Module.testDecides m = false → i ∉ k.filling m) :
    Respects (discipline (symbols "Giant")) i k k' ∧ Quiet k k' := by
  obtain ⟨⟨o, rfl⟩, howner⟩ := unlockMutex_owner hl
  have hq : Quiet k { k with owner := Function.update k.owner mutex o } :=
    ⟨rfl, rfl, rfl, rfl, rfl, rfl, fun _ ha => ha, List.suffix_rfl⟩
  refine ⟨respects_quiet h hq ?_ ?_, hq⟩
  · intro j n' hj hn'
    have hne : symbols "Giant" ≠ mutex := by
      rintro rfl
      exact hj (howner j n' hn')
    exact (Function.update_of_ne hne ..).trans hn'
  · intro m n' hd hf hn'
    rcases hm with hm | hm
    · exact ⟨n', (Function.update_of_ne (Ne.symm hm) ..).trans hn'⟩
    · exact absurd (by rw [hf]; exact List.mem_singleton_self i) (hm m hd)

theorem spec_mtxLock {mutex : Address} {f : Unit → Prog β} (hP : Lasting symbols i P)
    (hsafe : ∀ k, Invariant (symbols "Giant") k → P k → mutex ≠ 0#64 ∧ k.initialized mutex = true)
    (h : Spec symbols i P (f ()) Q) : Spec symbols i P (mtxLock mutex >>= f) Q := by
  refine spec_effect (a := .lock mutex) (fun _ => P) hP ?_ (fun _ => h)
  intro k hi hp
  refine ⟨hsafe k hi hp, fun _ v k' hs => ?_⟩
  rw [step] at hs
  obtain ⟨k₁, hl, he⟩ := Option.map_eq_some_iff.mp hs
  cases he
  obtain ⟨hrespects, hquiet, -⟩ := respects_lock hi hl
  exact ⟨hrespects, hP _ _ hrespects.1 (hquiet.steady hi) hp⟩

theorem spec_mtxUnlock {mutex : Address} {f : Unit → Prog β} (hP : Lasting symbols i P)
    (hm : ∀ k, P k → mutex ≠ symbols "Giant" ∨ ∀ m, Module.testDecides m = false → i ∉ k.filling m)
    (h : Spec symbols i P (f ()) Q) : Spec symbols i P (mtxUnlock mutex >>= f) Q := by
  refine spec_effect (a := .unlock mutex) (fun _ => P) hP ?_ (fun _ => h)
  intro k hi hp
  refine ⟨trivial, fun _ v k' hs => ?_⟩
  rw [step] at hs
  obtain ⟨k₁, hl, he⟩ := Option.map_eq_some_iff.mp hs
  cases he
  obtain ⟨hrespects, hquiet⟩ := respects_unlock hi hl (hm k hp)
  exact ⟨hrespects, hP _ _ hrespects.1 (hquiet.steady hi) hp⟩

/-- A block that nothing else uses. -/
def Fresh (symbols : String → Address) (a : Address) (k : Kernel) : Prop :=
  a ≠ 0#64 ∧ a ≠ symbols "Giant" ∧ a ∉ k.supply

theorem spec_malloc {f : Address → Prog β} (hP : Lasting symbols i P)
    (h : ∀ a, Spec symbols i (fun k => P k ∧ Fresh symbols a k ∧
      a ≠ k.static .globalCache) (f a) Q) :
    Spec symbols i P (malloc >>= f) Q := by
  refine spec_effect (a := .allocate)
    (fun (a : Address) k => P k ∧ Fresh symbols a k ∧ a ≠ k.static .globalCache) hP ?_ h
  intro k hi hp
  refine ⟨trivial, fun _ v k' hs => ?_⟩
  rw [step] at hs
  cases hk : k.supply with
  | nil =>
    rw [hk] at hs
    cases hs
  | cons a rest =>
    rw [hk] at hs
    cases hs
    have hq : Quiet k { k with supply := rest } := by
      refine ⟨rfl, rfl, rfl, rfl, rfl, rfl, fun _ ha => ha, ?_⟩
      rw [hk]
      exact List.suffix_cons _ rest
    have hrespects : Respects (discipline (symbols "Giant")) i k { k with supply := rest } :=
      respects_quiet hi hq (fun _ _ _ hn => hn) (fun _ n _ _ hn => ⟨n, hn⟩)
    obtain ⟨hnodup, hnull, hgiant, hglobal⟩ := hi.supply
    rw [hk] at hnodup hnull hgiant hglobal
    refine ⟨hrespects, hP _ _ hrespects.1 (hq.steady hi) hp,
      ⟨?_, ?_, (List.nodup_cons.mp hnodup).1⟩, ?_⟩
    · rintro rfl
      exact hnull List.mem_cons_self
    · rintro rfl
      exact hgiant List.mem_cons_self
    · rintro rfl
      exact hglobal List.mem_cons_self

theorem spec_mtxInit {mutex : Address} {f : Unit → Prog β} (hP : Lasting symbols i P)
    (h : Spec symbols i (fun k => P k ∧ k.initialized mutex = true) (f ()) Q) :
    Spec symbols i P (mtxInit mutex >>= f) Q := by
  refine spec_effect (a := .mtxInit mutex)
    (fun _ k => P k ∧ k.initialized mutex = true) hP ?_ (fun _ => h)
  intro k hi hp
  refine ⟨trivial, fun _ v k' hs => ?_⟩
  rw [step] at hs
  split_ifs at hs
  cases hs
  have hq : Quiet k { k with initialized := Function.update k.initialized mutex true } := by
    refine ⟨rfl, rfl, rfl, rfl, rfl, rfl, fun a ha => ?_, List.suffix_rfl⟩
    by_cases he : a = mutex
    · simp [he]
    · simpa [Function.update_of_ne he] using ha
  have hrespects : Respects (discipline (symbols "Giant")) i k
      { k with initialized := Function.update k.initialized mutex true } :=
    respects_quiet hi hq (fun _ _ _ hn => hn) (fun _ n _ _ hn => ⟨n, hn⟩)
  exact ⟨hrespects, hP _ _ hrespects.1 (hq.steady hi) hp, Function.update_self ..⟩

structure MayStore (symbols : String → Address) (i : ℕ) (x : Static) (a : Address)
    (k : Kernel) : Prop where
  own : k.filling x.module = [i]
  incomplete : ¬Complete (symbols "Giant") x.module k
  global : x = .globalCache → a ∉ k.supply
  symbol : x = .symbolCache → a ≠ 0#64 → Settled (symbols "Giant") .global k ∧
  a ≠ k.static .globalCache

/-- A pointer is stored by the thread that fills its module. -/
theorem spec_store {x : Static} {a : Address} {f : Unit → Prog β} {M : Kernel → Prop}
    (hP : Lasting symbols i P) (hstep : ∀ k, Invariant (symbols "Giant") k → P k →
      MayStore symbols i x a k ∧ M { k with static := Function.update k.static x a })
    (h : Spec symbols i M (f ()) Q) : Spec symbols i P (store x a >>= f) Q := by
  refine spec_effect (a := .store x a) (fun _ => M) hP ?_ (fun _ => h)
  intro k hi hp
  obtain ⟨hmay, hm⟩ := hstep k hi hp
  refine ⟨trivial, fun _ v k' hs => ?_⟩
  rw [step] at hs
  cases hs
  exact ⟨respects_store hi rfl hmay.own hmay.incomplete hmay.global hmay.symbol, hm⟩

theorem spec_memoryAllocate {x : Static} {f : Unit → Prog β} {N M : Address → Kernel → Prop}
    (hP : Lasting symbols i P) (hN : ∀ a, Lasting symbols i (N a))
    (hfresh : ∀ a k, Invariant (symbols "Giant") k → P k → Fresh symbols a k →
      a ≠ k.static .globalCache → N a k)
    (hstep : ∀ a k, Invariant (symbols "Giant") k → N a k →
      MayStore symbols i x a k ∧ M a { k with static := Function.update k.static x a })
    (h : ∀ a, Spec symbols i (M a) (f ()) Q) :
    Spec symbols i P (ps4KernelMemoryAllocate x >>= f) Q := by
  rw [ps4KernelMemoryAllocate, bind_assoc]
  refine spec_malloc hP (fun a => ?_)
  have hstore := spec_store (hN a) (hstep a) (h a)
  exact fun k hi hp => hstore k hi (hfresh a k hi hp.1 hp.2.1 hp.2.2)

structure MayChange (symbols : String → Address) (i : ℕ)
    (content : Address → String → Option Address) (k : Kernel) : Prop where
  entries : ∀ g, Shared (symbols "Giant") k g →
  Entries (symbols "Giant") { k with content := content } g ∧
    content g ps4KernelCacheGlobalMutexName = k.content g ps4KernelCacheGlobalMutexName
  giantIn : k.filling .symbol = [] → k.static .symbolCache ≠ 0#64 →
    GiantIn (symbols "Giant") { k with content := content } (k.static .symbolCache)
  other : ∀ j, j ≠ i → k.filling .symbol = [j] → k.static .symbolCache ≠ 0#64 →
    content (k.static .symbolCache) = k.content (k.static .symbolCache)
  names : k.filling .symbol ≠ [i] → ∀ g, Shared (symbols "Giant") k g →
    ∀ name ∈ [ps4KernelCacheSymbolLookupCache, ps4KernelCacheSymbolLookupMutex],
      content g name = k.content g name
  making : ∀ j, k.filling .global = [j] → j = i

theorem spec_content {a : Statement} {f : a.Answer → Prog β} {M : Kernel → Prop}
    (content : Kernel → Address → String → Option Address) (hP : Lasting symbols i P)
    (heffect : ∀ k v k', step symbols i a k = some (v, k') → k' = { k with content := content k })
    (hsafe : ∀ k, safe a k)
    (hstep : ∀ k, Invariant (symbols "Giant") k → P k →
      MayChange symbols i (content k) k ∧ M { k with content := content k })
    (h : ∀ v, Spec symbols i M (f v) Q) : Spec symbols i P (perform a >>= f) Q := by
  refine spec_effect (fun _ => M) hP ?_ h
  intro k hi hp
  obtain ⟨hmay, hm⟩ := hstep k hi hp
  refine ⟨hsafe k, fun _ v k' hs => ?_⟩
  rw [heffect k v k' hs]
  exact ⟨respects_content hi hmay.entries hmay.giantIn hmay.other hmay.names hmay.making, hm⟩

theorem spec_clear {cache : Address} {f : Unit → Prog β} {M : Kernel → Prop}
    (hP : Lasting symbols i P) (hstep : ∀ k, Invariant (symbols "Giant") k → P k →
      MayChange symbols i (Function.update k.content cache (fun _ => none)) k ∧
        M { k with content := Function.update k.content cache (fun _ => none) })
    (h : Spec symbols i M (f ()) Q) : Spec symbols i P (clear cache >>= f) Q := by
  refine spec_content (a := .clear cache) _ hP ?_ (fun _ => trivial) hstep (fun _ => h)
  rintro k v k' hs
  rw [step] at hs
  cases hs
  rfl

theorem spec_hashAdd {cache : Address} {name : String} {value : Address} {f : Unit → Prog β}
    {M : Kernel → Prop} (hP : Lasting symbols i P)
    (hstep : ∀ k, Invariant (symbols "Giant") k → P k →
      MayChange symbols i (Function.update k.content cache
        (Function.update (k.content cache) name (some value))) k ∧
        M { k with
          content := Function.update k.content cache
            (Function.update (k.content cache) name (some value)) })
    (h : Spec symbols i M (f ()) Q) : Spec symbols i P (hashAdd cache name value >>= f) Q := by
  refine spec_content (a := .insert cache name value) _ hP ?_ (fun _ => trivial) hstep (fun _ => h)
  rintro k v k' hs
  rw [step] at hs
  cases hs
  rfl

theorem spec_hashDelete {cache : Address} {name : String} {f : Unit → Prog β} {M : Kernel → Prop}
    (hP : Lasting symbols i P)
    (hstep : ∀ k, Invariant (symbols "Giant") k → P k →
      MayChange symbols i (Function.update k.content cache
        (Function.update (k.content cache) name none)) k ∧
        M { k with
          content := Function.update k.content cache
            (Function.update (k.content cache) name none) })
    (h : Spec symbols i M (f ()) Q) : Spec symbols i P (hashDelete cache name >>= f) Q := by
  refine spec_content (a := .remove cache name) _ hP ?_ (fun _ => trivial) hstep (fun _ => h)
  rintro k v k' hs
  rw [step] at hs
  cases hs
  rfl

theorem spec_leave {m : Module} {f : Unit → Prog β} {M : Kernel → Prop} (hP : Lasting symbols i P)
    (hstep : ∀ k, Invariant (symbols "Giant") k → P k → k.filling m = [i] ∧
      Complete (symbols "Giant") m k ∧
      (m = .global → Entries (symbols "Giant") k (k.static .globalCache) ∧
        k.leaf = some (k.static .globalCache)) ∧
      (m = .symbol → Paired (symbols "Giant") k ∧ GiantIn (symbols "Giant") k
        (k.static .symbolCache)) ∧
      M { k with filling := Function.update k.filling m [] })
    (h : Spec symbols i M (f ()) Q) : Spec symbols i P (leave m >>= f) Q := by
  refine spec_effect (a := .leave m) (fun _ => M) hP ?_ (fun _ => h)
  intro k hi hp
  obtain ⟨hf, hc, hglobal, hsymbol, hm⟩ := hstep k hi hp
  refine ⟨trivial, fun _ v k' hs => ?_⟩
  rw [step, hf, List.erase_cons_head] at hs
  cases hs
  refine ⟨respects_filling hi ?_ (.inl rfl) (by simp) (fun _ => hc) (by simp)
    (fun he _ => hglobal he) (fun he _ => hsymbol he), hm⟩
  rw [hf]
  simp

/-! ### The operations on caches -/

/-- A pointer that is null is taken from a cache, if it is there. -/
theorem spec_cacheGet {cache : Address} {name : String} {x : Static} {M : Address → Kernel → Prop}
    {Q : Returned → Kernel → Prop} (hc : cache ≠ 0#64) (hP : Lasting symbols i P)
    (hM : ∀ v, Lasting symbols i (M v))
    (hnull : ∀ k, P k → k.filling x.module = [i] ∧ k.static x = 0#64)
    (hfind : ∀ v k, Invariant (symbols "Giant") k → P k → k.content cache name = some v → M v k)
    (hnone : ∀ k, Invariant (symbols "Giant") k → P k → k.content cache name = none →
      Q ⟨ps4ErrorNotFound, 0#64⟩ k)
    (hstore : ∀ v k, Invariant (symbols "Giant") k → M v k →
      MayStore symbols i x v k ∧ Q ⟨ps4Ok, v⟩ { k with static := Function.update k.static x v }) :
    Spec symbols i P (ps4KernelCacheGet cache name (.static x)) Q := by
  rw [ps4KernelCacheGet, if_neg hc, if_neg (by simp)]
  refine spec_store (M := P) hP ?_ (spec_hashFind hP (fun v => ?_))
  · intro k hi hp
    obtain ⟨hf, h0⟩ := hnull k hp
    refine ⟨⟨hf, fun hk => hk.filled x rfl h0, fun _ => hi.supply.2.1, fun _ h => absurd rfl h⟩, ?_⟩
    rw [← h0, Function.update_eq_self]
    exact hp
  · cases v with
    | none => exact fun k hi hp => hnone k hi hp.1 hp.2
    | some v =>
      have hwrite : Spec symbols i (M v) (store x v >>= fun _ => pure ⟨ps4Ok, v⟩) Q :=
        spec_store (M := Q ⟨ps4Ok, v⟩) (hM v) (hstore v) (fun k _ hq => hq)
      exact fun k hi hp => hwrite k hi (hfind v k hi hp.1 hp.2)

theorem spec_cacheGetVariable {cache : Address} {name : String} {Q : Returned → Kernel → Prop}
    (hc : cache ≠ 0#64) (hP : Lasting symbols i P)
    (hfind : ∀ v k, Invariant (symbols "Giant") k → P k → k.content cache name = some v →
      Q ⟨ps4Ok, v⟩ k)
    (hnone : ∀ k, Invariant (symbols "Giant") k → P k → k.content cache name = none →
      Q ⟨ps4ErrorNotFound, 0#64⟩ k) :
    Spec symbols i P (ps4KernelCacheGet cache name .variable) Q := by
  rw [ps4KernelCacheGet, if_neg hc, if_neg (by simp)]
  refine spec_hashFind hP (fun v => ?_)
  cases v with
  | none => exact fun k hi hp => hnone k hi hp.1 hp.2
  | some v => exact fun k hi hp => hfind v k hi hp.1 hp.2

theorem spec_cacheSet {cache : Address} {name : String} {value : Address} {M : Kernel → Prop}
    (hc : cache ≠ 0#64) (hP : Lasting symbols i P)
    (hstep : ∀ k, Invariant (symbols "Giant") k → P k →
      MayChange symbols i (Function.update k.content cache
        (Function.update (k.content cache) name (some value))) k ∧
        M { k with
          content := Function.update k.content cache
            (Function.update (k.content cache) name (some value)) }) :
    Spec symbols i P (ps4KernelCacheSet cache name value) (fun _ => M) := by
  rw [ps4KernelCacheSet, if_neg hc]
  exact spec_hashAdd hP hstep (fun _ _ hm => hm)

end

end Ps4Sdk.LazyModules
