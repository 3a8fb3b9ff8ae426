import Ps4Sdk.LazyModuleSymbols

/-!
# The hooks under the discipline

The initialisers of the hooks run under `Giant` and test each pointer again there. Behind
them all pointers of the module are filled and its mutex is ready, and so every operation
on hooks locks a mutex that is ready and installs pointers that are not null.
-/

namespace Ps4Sdk.LazyModules
open InterleavedPrograms

variable {symbols : String → Address} {i : ℕ} {k : Kernel} {m : Module} {g b a : Address}
  {x : Static} {done : List Static}

/-- What a pointer of the hooks may be. -/
def Good (symbols : String → Address) (x : Static) (a : Address) (k : Kernel) : Prop :=
  a ≠ 0#64 ∧ (x = x.module.mutex → Usable (symbols "Giant") k a)

theorem Good.mono {k' : Kernel} (h : Good symbols x a k)
    (hr : ∀ a, k.initialized a = true → k'.initialized a = true) : Good symbols x a k' :=
  ⟨h.1, fun hx => (h.2 hx).mono hr⟩

private theorem good_lasting : Lasting symbols i (Good symbols x a) :=
  fun _ _ _ hr h => h.mono hr.ready

def FillingOnly (symbols : String → Address) (i : ℕ) (m : Module) (g b : Address)
    (k : Kernel) : Prop :=
  (∀ m', m' ≠ m → i ∉ k.filling m') ∧ k.filling m = [i] ∧ SettledAt symbols g b k

private theorem fillingOnly_lasting : Lasting symbols i (FillingOnly symbols i m g b) :=
  fun k k' hi hr h =>
  ⟨fun m' hm => hr.notOwn m' (h.1 m' hm), (hr.own m h.2.1).1,
    settledAt_everlasting i k k' hi hr h.2.2⟩

/-- The pointers of the module are filled, or those of a list are and the others are null. -/
def FilledUpTo (symbols : String → Address) (i : ℕ) (m : Module) (g b : Address)
    (done : List Static) (k : Kernel) : Prop :=
  FillingOnly symbols i m g b k ∧ (Complete (symbols "Giant") m k ∨
    ∀ y, Static.module y = m →
    if y ∈ done then Good symbols y (k.static y) k else k.static y = 0#64)

def FillingOne (symbols : String → Address) (i : ℕ) (m : Module) (g b : Address)
    (done : List Static) (x : Static) (a : Address) (k : Kernel) : Prop :=
  FillingOnly symbols i m g b k ∧ k.static x = a ∧
    ∀ y, Static.module y = m → y ≠ x →
    if y ∈ done then Good symbols y (k.static y) k else k.static y = 0#64

theorem filledUpTo_lasting : Lasting symbols i (FilledUpTo symbols i m g b done) := by
  rintro k k' hi hr ⟨ho, hc⟩
  refine ⟨fillingOnly_lasting k k' hi hr ho, hc.imp (fun hc => (hr.complete m hc).1)
    (fun hy y hm => ?_)⟩
  rw [(hr.own m ho.2.1).2 y hm]
  have hy := hy y hm
  split_ifs at hy ⊢ with hd
  · exact hy.mono hr.ready
  · exact hy

theorem fillingOne_lasting (hx : x.module = m) :
    Lasting symbols i (FillingOne symbols i m g b done x a) := by
  rintro k k' hi hr ⟨ho, ha, hc⟩
  have hstatic := (hr.own m ho.2.1).2
  refine ⟨fillingOnly_lasting k k' hi hr ho, (hstatic x hx).trans ha, fun y hm hne => ?_⟩
  rw [hstatic y hm]
  have hy := hc y hm hne
  split_ifs at hy ⊢ with hd
  · exact hy.mono hr.ready
  · exact hy

theorem FillingOne.store (h : FillingOne symbols i m g b done x a k) (a' : Address)
    (hx : x.module = m) (hm : m.testDecides = false) (ha : a = 0#64) :
    MayStore symbols i x a' k ∧
      FillingOne symbols i m g b done x a' { k with static := Function.update k.static x a' } := by
  obtain ⟨⟨ho, hf, ⟨⟨hc, he⟩, hg, hb⟩⟩, hxa, hy⟩ := h
  have hother : ∀ y, y ≠ x → Function.update k.static x a' y = k.static y :=
    fun y hne => Function.update_of_ne hne ..
  have hglobal : ∀ y, Static.module y = .global → y ≠ x := by
    rintro y hglobal rfl
    rw [← hx, hglobal] at hm
    cases hm
  refine ⟨⟨hx ▸ hf, fun hcomplete => hcomplete.filled x rfl (hxa.trans ha), ?_, ?_⟩,
    ⟨ho, hf, ⟨⟨?_, he⟩, ?_, ?_⟩⟩, ?_, fun y hym hne => ?_⟩
  · rintro rfl
    exact absurd rfl (hglobal .globalCache rfl)
  · rintro rfl
    rw [← hx] at hm
    cases hm
  · exact hc.mono (fun y hy => hother y (hglobal y hy)) (fun _ hr => hr)
  · exact (hother _ (hglobal .globalCache rfl)).trans hg
  · exact (hother _ (hglobal .cacheGlobalMutex rfl)).trans hb
  · exact Function.update_self ..
  · have hy := hy y hym hne
    simp only [hother y hne]
    split_ifs at hy ⊢ with hd
    · exact hy.mono (fun _ hr => hr)
    · exact hy

theorem FillingOne.change {content : Address → String → Option Address}
    (h : FillingOne symbols i m g b done x a k) :
    FillingOne symbols i m g b done x a { k with content := content } := by
  obtain ⟨⟨ho, hf, ⟨⟨hc, he⟩, hg, hb⟩⟩, hxa, hy⟩ := h
  refine ⟨⟨ho, hf, ⟨⟨⟨hc.filled, hc.mutex⟩, he⟩, hg, hb⟩⟩, hxa, fun y hym hne => ?_⟩
  have hy := hy y hym hne
  change if y ∈ done then Good symbols y (k.static y) _ else k.static y = 0#64
  split_ifs at hy ⊢ with hd
  · exact hy.mono (fun _ hr => hr)
  · exact hy

theorem FillingOne.filled (h : FillingOne symbols i m g b done x a k) (ha : Good symbols x a k) :
    FilledUpTo symbols i m g b (x :: done) k := by
  obtain ⟨ho, hxa, hy⟩ := h
  refine ⟨ho, .inr (fun y hm => ?_)⟩
  by_cases hne : y = x
  · subst hne
    rw [if_pos List.mem_cons_self, hxa]
    exact ha
  · have hy := hy y hm hne
    simp only [List.mem_cons, hne, false_or]
    exact hy

def NameOf (x : Static) (name : String) : Prop :=
  if x = x.module.mutex then name ∈ mutexNames ∧
    name ≠ ps4KernelCacheSymbolLookupMutex else name ∈ codeNames

instance (x : Static) (name : String) : Decidable (NameOf x name) := by
  unfold NameOf
  infer_instance

theorem NameOf.good {name : String} (hname : NameOf x name) (he : Entries (symbols "Giant") k g)
    (hv : k.content g name = some a) : Good symbols x a k := by
  unfold NameOf at hname
  split_ifs at hname with hx
  · have husable := he.mutexes name hname.1 a hv
    exact ⟨husable.1, fun _ => husable⟩
  · exact ⟨he.codes name hname a hv, fun h => absurd h hx⟩

theorem NameOf.admits {name : String} (hname : NameOf x name) (ha : Good symbols x a k) :
    Admits symbols i g name a k := by
  unfold NameOf at hname
  split_ifs at hname with hx
  · obtain ⟨hn, hne⟩ := hname
    refine ⟨?_, fun _ => ha.2 hx, fun _ => ha.1, ?_, fun _ => ⟨?_, hne⟩⟩ <;> rintro rfl <;>
      exact absurd hn (by decide)
  · have hapart : ∀ name ∈ codeNames, name ∉ mutexNames := by decide
    refine ⟨?_, fun hn => absurd hn (hapart name hname), fun _ => ha.1, ?_, fun _ => ⟨?_, ?_⟩⟩
      <;> rintro rfl <;>
      exact absurd hname (by decide)

/-! ### One pointer -/

section
variable {name : String} {prepare : Address → Prog Unit}

theorem spec_getHookPointer (hm : m.testDecides = false) (hx : x.module = m)
    (hname : NameOf x name) :
    Spec symbols i (FillingOne symbols i m g b done x 0#64)
      (ps4KernelCacheGlobalGet (some name) (.static x))
      (fun r k => if r.code = ps4Ok then FilledUpTo symbols i m g b (x :: done) k
        else FillingOne symbols i m g b done x 0#64 k) := by
  have hlast : Lasting symbols i (FillingOne symbols i m g b done x 0#64) := fillingOne_lasting hx
  refine spec_settledUse hlast (fun r => ?_) (fun k hp => hp.1.2.2)
    (Spec.known (fun k hp => hp.1.2.2.nonnull) (fun hg => ?_))
  · intro k k' hi hr hq
    split_ifs at hq ⊢ with hr'
    · exact filledUpTo_lasting k k' hi hr hq
    · exact hlast k k' hi hr hq
  refine spec_cacheGet (M := fun v k => FillingOne symbols i m g b done x 0#64 k ∧
    Good symbols x v k) hg hlast
    (fun v => hlast.and good_lasting) (fun k hp => ⟨hx ▸ hp.1.2.1, hp.2.1⟩)
    (fun v k hi hp hv => ⟨hp, hname.good (hp.1.2.2.entries hi) hv⟩) ?_ ?_
  · intro k _ hp _
    rw [if_neg (by decide)]
    exact hp
  · rintro v k hi ⟨hp, hv⟩
    obtain ⟨hmay, hp⟩ := hp.store v hx hm rfl
    rw [if_pos rfl]
    exact ⟨hmay, hp.filled (hv.mono (fun _ hr => hr))⟩

theorem spec_setHookPointer (hx : x.module = m) (hname : NameOf x name) (ha : a ≠ 0#64) :
    Spec symbols i (fun k => FillingOne symbols i m g b done x a k ∧ Good symbols x a k)
      (ps4KernelCacheGlobalSet (some name) a) (fun _ => FilledUpTo symbols i m g b
        (x :: done)) := by
  rw [ps4KernelCacheGlobalSet]
  simp only [if_neg ha]
  have hlast : Lasting symbols i (fun k => FillingOne symbols i m g b done x a k ∧
    Good symbols x a k) :=
    (fillingOne_lasting hx).and good_lasting
  refine spec_settledUse hlast (fun _ => filledUpTo_lasting) (fun k hp => hp.1.1.2.2)
    (Spec.known (fun k hp => hp.1.1.2.2.nonnull) (fun hg => spec_cacheSet hg hlast ?_))
  rintro k hi ⟨hp, hgood⟩
  exact ⟨mayChange_insert hi hp.1.2.2 (hname.admits hgood),
    hp.change.filled (hgood.mono (fun _ hr => hr))⟩

theorem spec_fillStatic (hm : m.testDecides = false) (hx : x.module = m) (hdone : x ∉ done)
    (hname : NameOf x name) (hprepare : ∀ (R : Kernel → Prop) a, Lasting symbols i R → a ≠ 0#64 →
      a ≠ symbols "Giant" → Spec symbols i R (prepare a) (fun _ k => R k ∧ Good symbols x a k)) :
    Spec symbols i (FilledUpTo symbols i m g b done) (fillStatic x name prepare)
      (fun _ => FilledUpTo symbols i m g b (x :: done)) := by
  refine spec_load filledUpTo_lasting (fun pointer => ?_)
  by_cases hp : pointer = 0#64
  · rw [if_pos hp]
    refine Triple.weaken (P := FillingOne symbols i m g b done x 0#64) ?_ ?_ (fun _ _ _ hq => hq)
    · refine Triple.bind (spec_getHookPointer hm hx hname) (fun r => ?_)
      by_cases hr : r.code = ps4Ok
      · rw [if_neg (fun hn => hn hr)]
        simp only [if_pos hr]
        exact fun k _ hq => hq
      · rw [if_pos hr]
        simp only [if_neg hr]
        refine spec_memoryAllocate
          (N := fun a k => FillingOne symbols i m g b done x 0#64 k ∧ a ≠ 0#64 ∧
            a ≠ symbols "Giant")
          (M := fun a k => FillingOne symbols i m g b done x a k ∧ a ≠ 0#64 ∧ a ≠ symbols "Giant")
          (fillingOne_lasting hx) (fun _ => (fillingOne_lasting hx).and .const)
          (fun _ _ _ hp hf _ => ⟨hp, hf.1, hf.2.1⟩)
          (fun a k _ hp => ?_) (fun a => Spec.known (φ := a ≠ 0#64 ∧ a ≠ symbols "Giant")
            (fun k hp => hp.2) ?_)
        · obtain ⟨hmay, hp'⟩ := hp.1.store a hx hm rfl
          exact ⟨hmay, hp', hp.2⟩
        rintro ⟨h0, hgiant⟩
        refine spec_load_eq ((fillingOne_lasting hx).and .const) (fun k hp => hp.1.2.1) ?_
        refine Triple.bind (hprepare _ a ((fillingOne_lasting hx).and .const) h0 hgiant)
          (fun _ => ?_)
        refine spec_load_eq (((fillingOne_lasting hx).and .const).and good_lasting)
          (fun k hp => hp.1.1.2.1) ?_
        refine Triple.bind ((spec_setHookPointer hx hname h0).weaken (fun k _ hp => ⟨hp.1.1, hp.2⟩)
          (fun _ _ _ hq => hq))
          (fun _ => fun k _ hq => hq)
    · rintro k - ⟨⟨ho, hc⟩, hxp⟩
      subst hp
      refine ⟨ho, hxp, fun y hym hne => ?_⟩
      rcases hc with hc | hc
      · exact absurd hxp (hc.filled x hx)
      · exact hc y hym
  · rw [if_neg hp]
    rintro k - ⟨⟨ho, hc⟩, hxp⟩
    refine ⟨ho, .inl ?_⟩
    rcases hc with hc | hc
    · exact hc
    · have hx0 := hc x hx
      rw [if_neg hdone, hxp] at hx0
      exact absurd hx0 hp

private theorem spec_prepareMutex (R : Kernel → Prop) (a : Address) (hR : Lasting symbols i R)
    (h0 : a ≠ 0#64) (hgiant : a ≠ symbols "Giant") :
    Spec symbols i R (mtxInit a) (fun _ k => R k ∧ Good symbols x a k) := by
  rw [← bind_pure (mtxInit a)]
  exact spec_mtxInit hR (fun k _ hp => ⟨hp.1, h0, fun _ => ⟨h0, hgiant, hp.2⟩⟩)

private theorem spec_prepareCode (hx : x ≠ x.module.mutex) (R : Kernel → Prop) (a : Address)
    (hR : Lasting symbols i R) (h0 : a ≠ 0#64) (_ : a ≠ symbols "Giant") :
    Spec symbols i R (ps4KernelMemoryCopy a) (fun _ k => R k ∧ Good symbols x a k) := by
  rw [ps4KernelMemoryCopy, ← bind_pure body]
  exact spec_body hR (fun k _ hp => ⟨hp, h0, fun h => absurd h hx⟩)

end

/-! ### The initialisers -/

section
variable {β : Type} {P N : Kernel → Prop} {Q : β → Kernel → Prop} {p : Prog β}

/-- Under `Giant` nobody else fills the hooks. -/
theorem spec_lockEnter (hgiant : symbols "Giant" ≠ 0#64) (hm : m.testDecides = false)
    (hP : Lasting symbols i P) (hfree : ∀ k, P k → i ∉ k.filling m)
    (hN : ∀ k, Invariant (symbols "Giant") k → P k → k.filling m = [] →
      N { k with filling := Function.update k.filling m [i] })
    (h : Spec symbols i N p Q) :
    Spec symbols i P (do
      mtxLock (symbols "Giant")
      enter m
      p) Q := by
  refine Triple.bind (M := fun _ k => P k ∧ ∃ n, k.owner (symbols "Giant") = some (i, n))
    (Triple.perform hP.stable ?_)
    (fun _ => Triple.bind (M := fun _ => N) (Triple.perform ?_ ?_) (fun _ => h))
  · intro k hi hp
    refine ⟨⟨hgiant, hi.giantReady⟩, fun _ v k' hs => ?_⟩
    rw [step] at hs
    obtain ⟨k₁, hl, he⟩ := Option.map_eq_some_iff.mp hs
    cases he
    obtain ⟨hrespects, hquiet, howner⟩ := respects_lock hi hl
    exact ⟨hrespects, hP _ _ hrespects.1 (hquiet.steady hi) hp, howner⟩
  · rintro k k' hi hr ⟨hp, n, hn⟩
    exact ⟨hP.stable k k' hi hr hp, n, hr.owner n hn⟩
  · rintro k hi ⟨hp, n, hn⟩
    refine ⟨trivial, fun _ v k' hs => ?_⟩
    have hempty : k.filling m = [] := by
      rcases hi.alone m with hempty | ⟨j, hj⟩
      · exact hempty
      · obtain ⟨n', hn'⟩ := hi.held m j hm hj
        rw [hn] at hn'
        cases hn'
        exact absurd (by rw [hj]; exact List.mem_singleton_self i) (hfree k hp)
    rw [step, hempty] at hs
    cases hs
    refine ⟨respects_filling hi (by rw [hempty]; simp) (.inr rfl) (fun _ _ => ⟨n, hn⟩) (by simp)
      (fun hd => ?_) (by simp) (by simp), hN k hi hp hempty⟩
    rw [hm] at hd
    cases hd

end

theorem spec_hooksDone {r : Returned} (hm : m.testDecides = false)
    (hall : ∀ y, Static.module y = m → y ∈ done) :
    Spec symbols i (FilledUpTo symbols i m g b done)
      (do
        leave m
        mtxUnlock (symbols "Giant")
        pure r)
      (fun r' k => r' = r ∧ Free i k ∧ Complete (symbols "Giant") m k) := by
  refine spec_leave (M := fun k => Free i k ∧ Complete (symbols "Giant") m k)
    filledUpTo_lasting ?_ ?_
  · rintro k hi ⟨⟨ho, hf, hs⟩, hc⟩
    have hcomplete : Complete (symbols "Giant") m k := by
      rcases hc with hc | hc
      · exact hc
      · refine ⟨fun y hy => ?_, ?_⟩
        · have hgood := hc y hy
          rw [if_pos (hall y hy)] at hgood
          exact hgood.1
        · have hmutex : m.mutex.module = m := by cases m <;> rfl
          have hgood := hc _ hmutex
          rw [if_pos (hall _ hmutex)] at hgood
          exact hgood.2 (by rw [hmutex])
    refine ⟨hf, hcomplete, ?_, ?_, fun m' => ?_, hcomplete.filled, hcomplete.mutex⟩
    · rintro rfl
      cases hm
    · rintro rfl
      cases hm
    · by_cases hne : m' = m
      · subst hne
        simp
      · simp only [Function.update_of_ne hne]
        exact ho m' hne
  · refine spec_mtxUnlock (free_lasting.and ?_) (fun k hp => .inr (fun m' _ => hp.1 m'))
      (fun k _ hp => ⟨rfl, hp⟩)
    exact fun _ _ _ hr hc => (hr.complete m hc).1

/-- The look-up of `Giant` in front of an initialiser. -/
theorem spec_withGiant {rest : Address → Prog Returned} {Q : Returned → Kernel → Prop}
    (hgiant : symbols "Giant" ≠ 0#64) (hrest : ∀ g b,
      Spec symbols i (fun k => Free i k ∧ SettledAt symbols g b k) (rest (symbols "Giant")) Q) :
    Spec symbols i (Free i) (ps4ExpressionReturnOnError
      (ps4KernelSymbolLookUp (some "Giant") .variable) rest) Q := by
  refine spec_returnOnError (M := fun r k => r.value = symbols "Giant" ∧ Free i k ∧
    Settled (symbols "Giant") .symbol k)
    ((spec_symbolLookUp hgiant).weaken (fun _ _ hp => hp) ?_) (fun r => Spec.assume (fun hr => ?_))
  · rintro r k - ⟨hfound, hk⟩
    rw [hfound rfl]
    exact ⟨rfl, rfl, hk⟩
  · rw [hr]
    rintro k hi ⟨hfree, hs⟩
    exact hrest _ _ k hi ⟨hfree, (hi.after (hs.1.filled .symbolCache rfl)).1, rfl, rfl⟩

theorem spec_beginHooks {β : Type} {p : Prog β} {Q : β → Kernel → Prop}
    (hgiant : symbols "Giant" ≠ 0#64) (hm : m.testDecides = false)
    (h : Spec symbols i (FilledUpTo symbols i m g b []) p Q) :
    Spec symbols i (fun k => Free i k ∧ SettledAt symbols g b k) (do
      mtxLock (symbols "Giant")
      enter m
      p) Q := by
  refine spec_lockEnter hgiant hm (free_lasting.and settledAt_everlasting.lasting)
    (fun k hp => hp.1 m) ?_ h
  rintro k hi ⟨hfree, ⟨⟨hc, he⟩, hg, hb⟩⟩ hempty
  refine ⟨⟨fun m' hne => ?_, by simp, ⟨⟨⟨hc.filled, hc.mutex⟩, ?_⟩, hg, hb⟩⟩,
    (hi.settled m hempty).symm.imp ?_ ?_⟩
  · simp only [Function.update_of_ne hne]
    exact hfree m'
  · have hne : Module.global ≠ m := by
      rintro rfl
      cases hm
    simp only [Function.update_of_ne hne]
    exact he
  · exact fun hc => ⟨hc.filled, hc.mutex⟩
  · exact fun hu y hy => hu y hy

theorem spec_functionHookInitialize (hgiant : symbols "Giant" ≠ 0#64) :
    Spec symbols i (Free i) ps4KernelFunctionHookInitialize
      (fun r k => r.code = ps4Ok ∧ Free i k ∧ Complete (symbols "Giant") .functionHook k) := by
  refine spec_withGiant hgiant (fun g b => spec_beginHooks hgiant rfl ?_)
  refine Triple.bind (spec_fillStatic rfl rfl (by decide) (by decide) spec_prepareMutex)
    (fun _ => ?_)
  refine Triple.bind (spec_fillStatic rfl rfl (by decide) (by decide)
    (spec_prepareCode (by decide))) (fun _ => ?_)
  refine Triple.bind (spec_fillStatic rfl rfl (by decide) (by decide)
    (spec_prepareCode (by decide))) (fun _ => ?_)
  refine Triple.bind (spec_fillStatic rfl rfl (by decide) (by decide)
    (spec_prepareCode (by decide))) (fun _ => ?_)
  refine (spec_hooksDone rfl ?_).weaken (fun _ _ hp => hp) (fun r k _ hr => ⟨by rw [hr.1], hr.2⟩)
  intro y hy
  cases y <;> cases hy <;> decide

theorem spec_systemCallHookInitialize (hgiant : symbols "Giant" ≠ 0#64) :
    Spec symbols i (Free i) ps4KernelSystemCallHookInitialize
      (fun r k => r.code = ps4Ok ∧ Free i k ∧ Complete (symbols "Giant") .systemCallHook k) := by
  refine spec_withGiant hgiant (fun g b => spec_beginHooks hgiant rfl ?_)
  refine Triple.bind (spec_fillStatic rfl rfl (by decide) (by decide) spec_prepareMutex)
    (fun _ => ?_)
  refine Triple.bind (spec_fillStatic rfl rfl (by decide) (by decide)
    (spec_prepareCode (by decide))) (fun _ => ?_)
  refine Triple.bind (spec_fillStatic rfl rfl (by decide) (by decide)
    (spec_prepareCode (by decide))) (fun _ => ?_)
  refine (spec_hooksDone rfl ?_).weaken (fun _ _ hp => hp) (fun r k _ hr => ⟨by rw [hr.1], hr.2⟩)
  intro y hy
  cases y <;> cases hy <;> decide

end Ps4Sdk.LazyModules
