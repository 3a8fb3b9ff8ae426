import Ps4Sdk.LazyModuleRules

/-!
# The global cache under the discipline

The initialiser of the global cache ends with a cache that others may use, whether it takes
over the one of the sysctl leaf or makes a new one. It is called from anywhere outside the
initialisers of hooks, also from the one of the symbol look-up.
-/

namespace Ps4Sdk.LazyModules
open InterleavedPrograms

variable {symbols : String → Address} {i : ℕ} {sym : Bool} {k : Kernel}

/-- What the thread knows around the initialiser of the global cache: it fills no hooks, and the
cache of symbols either not at all or without having stored anything. -/
def Outer (symbols : String → Address) (i : ℕ) (sym : Bool) (k : Kernel) : Prop :=
  (∀ m, Module.testDecides m = false → i ∉ k.filling m) ∧
    if sym then k.filling .symbol = [i] ∧ Untouched .symbol k ∧ Paired (symbols "Giant") k
    else i ∉ k.filling .symbol

def Making (symbols : String → Address) (i : ℕ) (sym : Bool)
    (φ : Address → Address → (Address → String → Option Address) → Option Address → Prop)
    (k : Kernel) : Prop :=
  Outer symbols i sym k ∧ k.filling .global = [i] ∧
    φ (k.static .globalCache) (k.static .cacheGlobalMutex) k.content k.leaf

def Beside (symbols : String → Address) (i : ℕ) (sym : Bool) (k : Kernel) : Prop :=
  Outer symbols i sym k ∧ i ∉ k.filling .global

theorem outer_lasting : Lasting symbols i (Outer symbols i sym) := by
  intro k k' hi hr ho
  refine ⟨fun m hm => hr.notOwn m (ho.1 m hm), ?_⟩
  cases sym with
  | false => exact hr.notOwn _ ho.2
  | true =>
    obtain ⟨hf, hu, hp⟩ := ho.2
    obtain ⟨hf', hs⟩ := hr.own _ hf
    exact ⟨hf', fun x hx => (hs x hx).trans (hu x hx), hr.paired hf hp⟩

theorem making_lasting {φ : Address → Address → (Address → String → Option Address) →
    Option Address → Prop} :
    Lasting symbols i (Making symbols i sym φ) := by
  intro k k' hi hr hm
  obtain ⟨ho, hf, hφ⟩ := hm
  obtain ⟨hf', hs⟩ := hr.own _ hf
  obtain ⟨hc, hl⟩ := hr.making hf
  refine ⟨outer_lasting k k' hi hr ho, hf', ?_⟩
  rw [hs .globalCache rfl, hs .cacheGlobalMutex rfl, hc, hl]
  exact hφ

theorem beside_lasting : Lasting symbols i (Beside symbols i sym) :=
  fun k k' hi hr hb => ⟨outer_lasting k k' hi hr hb.1, hr.notOwn _ hb.2⟩

private theorem settled_everlasting : Everlasting symbols (Settled (symbols "Giant") .global) :=
  fun _ _ _ _ hr hs => hr.settled _ rfl hs

private theorem fresh_lasting {a : Address} : Lasting symbols i (Fresh symbols a) :=
  fun _ _ _ hr hf => ⟨hf.1, hf.2.1, hr.supply a hf.2.2⟩

theorem ready_lasting {a : Address} : Lasting symbols i (fun k => k.initialized a = true) :=
  fun _ _ _ hr ha => hr.ready a ha

theorem usable_lasting {a : Address} : Lasting symbols i (fun k => Usable (symbols "Giant") k a) :=
  fun _ _ _ hr ha => ha.mono hr.ready

private theorem not_settled (hf : k.filling .global = [i]) :
    ¬Settled (symbols "Giant") .global k := by
  rintro ⟨-, hs⟩
  rw [hs] at hf
  cases hf

/-- While the global cache is being filled, only the sysctl leaf counts. -/
theorem Outer.of_leaf {k' : Kernel} (h : Outer symbols i sym k) (hfilling : k'.filling = k.filling)
    (hstatic : ∀ x, Static.module x = .symbol → k'.static x = k.static x)
    (hf : k.filling .global = [i]) (hl : ∀ g, k'.leaf = some g → PairedIn k g → PairedIn k' g)
    (hn : ∀ g, k'.leaf = some g → k.leaf = some g ∨ PairedIn k g) : Outer symbols i sym k' := by
  refine ⟨by rw [hfilling]; exact h.1, ?_⟩
  cases sym with
  | false =>
    have hs := h.2
    simp only [Bool.false_eq_true, if_false] at hs ⊢
    rw [hfilling]
    exact hs
  | true =>
    obtain ⟨hs, hu, hp, -⟩ := h.2
    refine ⟨by rw [hfilling]; exact hs, fun x hx => (hstatic x hx).trans (hu x hx),
      fun g hg => ?_, fun hg => ?_⟩
    · rcases hn g hg with hg' | hg'
      · exact hl g hg (hp g hg')
      · exact hl g hg hg'
    · exact absurd hg (not_settled (by rw [hfilling]; exact hf))

theorem Making.store {φ ψ : Address → Address → (Address → String → Option Address) →
    Option Address → Prop} {x : Static} {a : Address} (h : Making symbols i sym φ k)
      (hx : x.module = .global)
    (hψ : ψ (Function.update k.static x a .globalCache)
      (Function.update k.static x a .cacheGlobalMutex) k.content k.leaf) :
      Making symbols i sym ψ { k with static := Function.update k.static x a } := by
  refine ⟨h.1.of_leaf rfl (fun y hy => ?_) h.2.1 (fun _ _ hp => hp)
    (fun g hg => .inl hg), h.2.1, hψ⟩
  refine Function.update_of_ne ?_ ..
  rintro rfl
  rw [hx] at hy
  cases hy

def Registered (symbols : String → Address) (i : ℕ) (sym : Bool) (k : Kernel) : Prop :=
  Making symbols i sym (fun a _ _ l => l = some a) k ∧
    Usable (symbols "Giant") k (k.static .cacheGlobalMutex)

private theorem registered_lasting : Lasting symbols i (Registered symbols i sym) := by
  intro k k' hi hr h
  refine ⟨making_lasting k k' hi hr h.1, ?_⟩
  rw [(hr.own _ h.1.2.1).2 .cacheGlobalMutex rfl]
  exact h.2.mono hr.ready

/-- Behind the initialiser the global cache is settled. -/
theorem spec_cacheGlobalDone {r : Returned} :
    Spec symbols i (Registered symbols i sym)
      (do
        leave .global
        mtxUnlock (symbols "Giant")
        pure r)
      (fun r' k => r' = r ∧ Beside symbols i sym k ∧ Settled (symbols "Giant") .global k) := by
  refine spec_leave (M := fun k => Beside symbols i sym k ∧ Settled (symbols "Giant") .global k)
    registered_lasting ?_ ?_
  · rintro k hi ⟨⟨ho, hf, hl⟩, hb⟩
    have hleaf := hi.leaf _ hl
    have hcomplete : Complete (symbols "Giant") .global k := by
      refine ⟨fun x hx => ?_, hb⟩
      cases x with
      | globalCache => exact hleaf.nonnull
      | cacheGlobalMutex => exact hb.1
      | _ => cases hx
    refine ⟨hf, hcomplete, fun _ => ⟨hleaf.entries, hl⟩, by simp, ⟨⟨?_, ?_⟩, by simp⟩,
      ⟨hcomplete.filled, hcomplete.mutex⟩, by simp⟩
    · intro m hm
      have hne : m ≠ .global := by
        rintro rfl
        cases hm
      simp only [Function.update_of_ne hne]
      exact ho.1 m hm
    · cases sym with
      | false => exact ho.2
      | true =>
        obtain ⟨hs, hu, hp, -⟩ := ho.2
        exact ⟨hs, hu, hp, fun _ => hp _ hl⟩
  · exact spec_mtxUnlock (beside_lasting.and settled_everlasting.lasting)
      (fun k hp => .inr hp.1.1.1)
      (fun k _ hp => ⟨rfl, hp⟩)

theorem spec_cacheGlobalTake {g : Address} (hg : g ≠ 0#64) :
    Spec symbols i (Making symbols i sym (fun a b _ l => a = 0#64 ∧ b = 0#64 ∧ l = some g))
      (cacheGlobalTake (symbols "Giant") g)
      (fun r k => r.code = ps4Ok ∧ Beside symbols i sym k ∧
        Settled (symbols "Giant") .global k) := by
  unfold cacheGlobalTake
  refine spec_store (M := Making symbols i sym (fun a b _ l => a = g ∧ b = 0#64 ∧ l = some g))
    making_lasting ?_ ?_
  · intro k hi hp
    obtain ⟨ha, hb, hl⟩ := hp.2.2
    exact ⟨⟨hp.2.1, fun hc => hc.filled .globalCache rfl ha,
      fun _ => (hi.leaf g hl).fresh, by simp⟩, hp.store rfl (by simp [hb, hl])⟩
  refine spec_load_eq making_lasting (fun k hp => hp.2.2.1) ?_
  refine Triple.bind (M := fun _ => Registered symbols i sym) ?_
    (fun r => spec_cacheGlobalDone.weaken (fun _ _ hp => hp) ?_)
  · refine spec_cacheGet (M := fun b k => Making symbols i sym
      (fun a b _ l => a = g ∧ b = 0#64 ∧ l = some g) k ∧
      Usable (symbols "Giant") k b) hg making_lasting ?_ ?_ ?_ ?_ ?_
    · exact fun v k k' hi hr hp => ⟨making_lasting k k' hi hr hp.1, hp.2.mono hr.ready⟩
    · exact fun k hp => ⟨hp.2.1, hp.2.2.2.1⟩
    · intro b k hi hp hb
      obtain ⟨v, hv, hu⟩ := (hi.leaf g hp.2.2.2.2).mutex
      rw [hb] at hv
      cases hv
      exact ⟨hp, hu⟩
    · intro k hi hp hn
      obtain ⟨v, hv, -⟩ := (hi.leaf g hp.2.2.2.2).mutex
      rw [hn] at hv
      cases hv
    · rintro b k hi ⟨hp, hb⟩
      obtain ⟨ha, h0, hl⟩ := hp.2.2
      refine ⟨⟨hp.2.1, fun hc => hc.filled .cacheGlobalMutex rfl h0, by simp, by simp⟩,
        hp.store rfl ?_, ?_⟩
      · simp [ha, hl]
      · simp only [Function.update_self]
        exact hb.mono (fun _ ha => ha)
  · rintro r' k - ⟨rfl, hp⟩
    exact ⟨rfl, hp⟩

theorem Making.change {φ ψ : Address → Address → (Address → String → Option Address) →
    Option Address → Prop} (h : Making symbols i sym φ k) (hi : Invariant (symbols "Giant") k)
      (content : Address → String → Option Address)
    (hleaf : k.leaf = none)
    (hψ : ψ (k.static .globalCache) (k.static .cacheGlobalMutex) content k.leaf) :
    MayChange symbols i content k ∧ Making symbols i sym ψ { k with content := content } := by
  have hshared : ∀ g, ¬Shared (symbols "Giant") k g := by
    rintro g (hg | hg)
    · rw [hleaf] at hg
      cases hg
    · exact not_settled h.2.1 hg.1
  have hnull : ¬k.static .symbolCache ≠ 0#64 := fun hs => not_settled h.2.1 (hi.after hs).1
  refine ⟨⟨fun g hg => absurd hg (hshared g), fun _ hs => absurd hs hnull,
    fun _ _ _ hs => absurd hs hnull,
    fun _ g hg => absurd hg (hshared g), fun j hj => ?_⟩, ?_, h.2.1, hψ⟩
  · rw [h.2.1] at hj
    cases hj
    rfl
  · refine h.1.of_leaf rfl (fun _ _ => rfl) h.2.1 (fun g hg => ?_) (fun g hg => ?_) <;>
    · rw [show k.leaf = some g from hg] at hleaf
      cases hleaf

def Entered (a b : Address) (content : Address → String → Option Address) : Prop :=
  content a = Function.update (fun _ => none) ps4KernelCacheGlobalMutexName (some b)

theorem Entered.leaf {a b : Address} (h : Entered a b k.content) (ha : Fresh symbols a k)
    (hb : Usable (symbols "Giant") k b) : Leaf (symbols "Giant") k a ∧ PairedIn k a := by
  have hnone : ∀ name, name ≠ ps4KernelCacheGlobalMutexName → k.content a name = none := by
    intro name hn
    rw [h, Function.update_of_ne hn]
  have hsymbols : ∀ v, k.content a ps4KernelCacheSymbolLookupCache ≠ some v := by
    intro v hv
    rw [hnone _ (by decide)] at hv
    cases hv
  refine ⟨⟨ha.1, ha.2.2, ⟨?_, ?_, fun v hv => absurd hv (hsymbols v)⟩, b, ?_, hb⟩,
    fun v hv => absurd hv (hsymbols v)⟩
  · intro name hname v hv
    rw [hnone name (by rintro rfl; exact absurd hname (by decide))] at hv
    cases hv
  · intro name hname v hv
    rw [hnone name (by rintro rfl; exact absurd hname (by decide))] at hv
    cases hv
  · rw [h, Function.update_self]

def Unregistered (symbols : String → Address) (i : ℕ) (sym : Bool) (a b : Address)
    (k : Kernel) : Prop :=
  Making symbols i sym (fun a' b' c l => a' = a ∧ b' = b ∧ l = none ∧ Entered a b c) k ∧
  Fresh symbols a k ∧
    Usable (symbols "Giant") k b

private theorem unregistered_lasting {a b : Address} :
    Lasting symbols i (Unregistered symbols i sym a b) :=
  making_lasting.and (fresh_lasting.and usable_lasting)

theorem spec_cacheGlobalAdd {a b : Address} :
    Spec symbols i (Unregistered symbols i sym a b)
      (do
        let added ← sysctlAddOid a
        leave .global
        mtxUnlock (symbols "Giant")
        pure (Returned.mk (if added then ps4Ok else ps4NotOk) 0#64))
      (fun r k => r.code = ps4Ok ∧ Beside symbols i sym k ∧
        Settled (symbols "Giant") .global k) := by
  refine spec_effect (a := .sysctlAddOid a)
    (fun (added : Bool) k => added = true ∧ Registered symbols i sym k) unregistered_lasting ?_
    (fun added => Spec.assume ?_)
  · rintro k hi ⟨hm, ha, hb⟩
    obtain ⟨ha', hb', hl, hmade⟩ := hm.2.2
    obtain ⟨hleaf, hpaired⟩ := hmade.leaf ha hb
    have hadds := (hi.registers hl).2
    refine ⟨trivial, fun _ v k' hs => ?_⟩
    rw [step, if_pos hadds] at hs
    cases hs
    refine ⟨respects_leaf hi hm.2.1 hleaf hpaired, hadds, ⟨?_, hm.2.1, ?_⟩, ?_⟩
    · refine hm.1.of_leaf rfl (fun _ _ => rfl) hm.2.1 (fun g _ hp => hp) (fun g hg => .inr ?_)
      cases hg
      exact hpaired
    · exact congrArg some ha'.symm
    · change Usable _ _ (k.static .cacheGlobalMutex)
      rw [hb']
      exact hb.mono (fun _ hr => hr)
  · rintro rfl
    exact spec_cacheGlobalDone.weaken (fun _ _ hp => hp) (fun r k _ hr => ⟨by rw [hr.1]; rfl, hr.2⟩)

theorem spec_cacheGlobalRegister {a b c : Address} :
    Spec symbols i (Unregistered symbols i sym a b) (cacheGlobalRegister (symbols "Giant") c a)
      (fun r k => r.code = ps4Ok ∧ Beside symbols i sym k ∧
        Settled (symbols "Giant") .global k) := by
  unfold cacheGlobalRegister
  refine spec_sysctlNode unregistered_lasting (fun node => ?_)
  cases node with
  | other => exact fun k hi hp => absurd hp.2 (hi.registers hp.1.1.2.2.2.2.1).1
  | enoent => exact fun k hi hp => spec_cacheGlobalAdd k hi hp.1
  | eisdir => exact fun k hi hp => spec_cacheGlobalAdd k hi hp.1

def Begun (symbols : String → Address) (i : ℕ) (sym : Bool) (a b : Address)
    (φ : (Address → String → Option Address) → Prop) (k : Kernel) : Prop :=
  Making symbols i sym (fun a' b' c l => a' = a ∧ b' = b ∧ l = none ∧ φ c) k

theorem spec_cacheGlobalMutex {a c : Address} :
    Spec symbols i (fun k => Begun symbols i sym a 0#64 (fun c => c a = fun _ => none) k ∧
      Fresh symbols a k)
      (do
        ps4KernelMemoryAllocate .cacheGlobalMutex
        let mutex ← load .cacheGlobalMutex
        if mutex = 0#64 then
          ps4KernelMemoryFree c
          let current ← load .globalCache
          ps4KernelCacheDestroy current
          leave .global
          mtxUnlock (symbols "Giant")
          pure (Returned.mk ps4ErrorKernelOutOfMemory 0#64)
        else
          let mutex ← load .cacheGlobalMutex
          mtxInit mutex
          let current ← load .globalCache
          let mutex ← load .cacheGlobalMutex
          let _ ← ps4KernelCacheSet current ps4KernelCacheGlobalMutexName mutex
          cacheGlobalRegister (symbols "Giant") c a)
      (fun r k => r.code = ps4Ok ∧ Beside symbols i sym k ∧
        Settled (symbols "Giant") .global k) := by
  let M (b : Address) (k : Kernel) : Prop :=
    Begun symbols i sym a b (fun c => c a = fun _ => none) k ∧ Fresh symbols a k ∧ b ≠ 0#64 ∧
      b ≠ symbols "Giant"
  have hM : ∀ b, Lasting symbols i (M b) := fun b => making_lasting.and (fresh_lasting.and .const)
  have hglobal : ∀ b k, M b k → k.static .globalCache = a := fun b k hm => hm.1.2.2.1
  have hmutex : ∀ b k, M b k → k.static .cacheGlobalMutex = b := fun b k hm => hm.1.2.2.2.1
  refine spec_memoryAllocate (N := fun b k => (Begun symbols i sym a 0#64
    (fun c => c a = fun _ => none) k ∧
    Fresh symbols a k) ∧ b ≠ 0#64 ∧ b ≠ symbols "Giant") (M := M) (making_lasting.and fresh_lasting)
    (fun b => (making_lasting.and fresh_lasting).and .const)
    (fun b k _ hp hf _ => ⟨hp, hf.1, hf.2.1⟩) ?_ (fun b => ?_)
  · rintro b k hi ⟨⟨hm, ha⟩, hb⟩
    obtain ⟨ha', hb', hrest⟩ := hm.2.2
    exact ⟨⟨hm.2.1, fun hc => hc.filled .cacheGlobalMutex rfl hb', by simp, by simp⟩,
      hm.store rfl (by simpa [ha'] using hrest), ha, hb⟩
  refine Spec.known (φ := b ≠ 0#64) (fun k hm => hm.2.2.1) (fun hb => ?_)
  refine spec_load_eq (hM b) (hmutex b) ?_
  rw [if_neg hb]
  refine spec_load_eq (hM b) (hmutex b) (spec_mtxInit (hM b) ?_)
  have hlast := (hM b).and (ready_lasting (a := b))
  refine spec_load_eq hlast (fun k hp => hglobal b k hp.1)
    (spec_load_eq hlast (fun k hp => hmutex b k hp.1) ?_)
  refine Spec.known (φ := a ≠ 0#64) (fun k hm => hm.1.2.1.1) (fun ha => ?_)
  refine Triple.bind (spec_cacheSet ha hlast (M := Unregistered symbols i sym a b) ?_)
    (fun _ => spec_cacheGlobalRegister)
  rintro k hi ⟨⟨hm, ha, hb⟩, hr⟩
  obtain ⟨ha', hb', hl, hc⟩ := hm.2.2
  obtain ⟨hmay, hmaking⟩ := hm.change hi (Function.update k.content a
      (Function.update (k.content a) ps4KernelCacheGlobalMutexName (some b))) hl
    (ψ := fun a' b' c l => a' = a ∧ b' = b ∧ l = none ∧ Entered a b c)
    ⟨ha', hb', hl, by rw [Entered, Function.update_self, hc]⟩
  exact ⟨hmay, hmaking, ha, hb.1, hb.2, hr⟩

theorem spec_cacheGlobalMake :
    Spec symbols i (Making symbols i sym (fun a b _ l => a = 0#64 ∧ b = 0#64 ∧ l = none))
      (cacheGlobalMake (symbols "Giant"))
      (fun r k => r.code = ps4Ok ∧ Beside symbols i sym k ∧
        Settled (symbols "Giant") .global k) := by
  rw [cacheGlobalMake, ps4KernelCacheCreate, bind_assoc]
  refine spec_memoryAllocate (N := fun a k => Begun symbols i sym 0#64 0#64 (fun _ => True) k ∧
    Fresh symbols a k)
    (M := fun a k => Begun symbols i sym a 0#64 (fun _ => True) k ∧
      Fresh symbols a k) making_lasting
    (fun a => making_lasting.and fresh_lasting) (fun a k _ hp hf _ => ⟨?_, hf⟩) ?_ (fun a => ?_)
  · obtain ⟨ho, hf, ha, hb, hl⟩ := hp
    exact ⟨ho, hf, ha, hb, hl, trivial⟩
  · rintro a k hi ⟨hm, ha⟩
    obtain ⟨ha', hb', hl, -⟩ := hm.2.2
    exact ⟨⟨hm.2.1, fun hc => hc.filled .globalCache rfl ha', fun _ => ha.2.2, by simp⟩,
      hm.store rfl (by simp [hb', hl]), ha⟩
  rw [bind_assoc]
  refine spec_load_eq (making_lasting.and fresh_lasting) (fun k hp => hp.1.2.2.1) ?_
  rw [bind_assoc]
  refine spec_clear (M := fun k => Begun symbols i sym a 0#64 (fun c => c a = fun _ => none) k ∧
    Fresh symbols a k)
    (making_lasting.and fresh_lasting) ?_ ?_
  · rintro k hi ⟨hm, ha⟩
    obtain ⟨ha', hb', hl, -⟩ := hm.2.2
    obtain ⟨hmay, hmaking⟩ := hm.change hi (Function.update k.content a (fun _ => none)) hl
      (ψ := fun a' b c l => a' = a ∧ b = 0#64 ∧ l = none ∧ c a = fun _ => none)
      ⟨ha', hb', hl, Function.update_self ..⟩
    exact ⟨hmay, hmaking, ha⟩
  rw [pure_bind, if_neg (fun h => h rfl)]
  refine spec_malloc (making_lasting.and fresh_lasting) (fun c => ?_)
  refine Spec.known (φ := c ≠ 0#64) (fun k hp => hp.2.1.1) (fun hc => ?_)
  simp only [if_neg hc]
  refine Triple.weaken (spec_load_eq (making_lasting.and fresh_lasting) (fun k hp => hp.1.2.2.1)
    spec_cacheGlobalMutex)
    (fun _ _ hp => hp.1) (fun _ _ _ hq => hq)

theorem spec_cacheGlobalInitialize (hgiant : symbols "Giant" ≠ 0#64) :
    Spec symbols i (Making symbols i sym (fun a b _ _ => a = 0#64 ∧ b = 0#64))
      ps4KernelCacheGlobalInitialize
      (fun r k => r.code = ps4Ok ∧ Beside symbols i sym k ∧
        Settled (symbols "Giant") .global k) := by
  refine spec_dlSym making_lasting (spec_mtxLock making_lasting
    (fun k hi _ => ⟨hgiant, hi.giantReady⟩) ?_)
  refine spec_sysctlCache making_lasting (fun leaf => ?_)
  cases leaf with
  | none => exact fun k hi hp => spec_cacheGlobalMake k hi ⟨hp.1.1, hp.1.2.1, hp.1.2.2.1,
      hp.1.2.2.2, hp.2⟩
  | some g =>
    exact fun k hi hp => spec_cacheGlobalTake (hi.leaf g hp.2).nonnull k hi
      ⟨hp.1.1, hp.1.2.1, hp.1.2.2.1, hp.1.2.2.2, hp.2⟩

end Ps4Sdk.LazyModules
