import Ps4Sdk.FunctionHookDispatch

/-!
# The controls of function hooks

A hook returns its control as an `int`, so that a caller may rely on the low half
of `rax` only. The handler compares all of `rax`. Two runs whose hooks return the
same controls may therefore part: the controls agree in the low half, the
comparisons do not.
-/

namespace Ps4Sdk.FunctionHookHandler
open CheckedBlocks CallSequences FunctionHookTables

def int (control : BitVec 64) : BitVec 32 := control.setWidth 32

/-- Two runs from one state whose hooks return the same `int`s call the same hooks
in the same order and agree on the original, which no hook with the control
`RETURN` in front of it lets run. -/
def Respects {W : Type} (b b' : Behaviour W) (c : Clone) (f : Frame W) : Prop :=
  ∀ events events' f₁ f₂, Reaches b c (.handler, f) (.ret, f₁) → f₁.calls = f.calls ++ events →
    Reaches b' c (.handler, f) (.ret, f₂) → f₂.calls = f.calls ++ events' →
    Agree (fun x y => int x = int y) (controls events) (controls events') →
    events.map Event.callee = events'.map Event.callee ∧
      Prevents (fun control => int control = -1) events ∧
      Prevents (fun control => int control = -1) events'

/-- Where the comparisons of the handler can decide something, values that hooks return and that
are one `int` are compared alike, and those that are `RETURN` are negative. With no hook in front of
the original and one behind it nothing is decided, and with one in front of it only the sign is. -/
def Told (V : BitVec 64 → Prop) (c : Clone) : Prop :=
  (runnable .pre c.entries ≠ [] →
    (∀ x y, V x → V y → int x = int y → (x.toInt < 0 ↔ y.toInt < 0)) ∧
      ∀ x, V x → int x = -1 → x.toInt < 0) ∧
  (2 ≤ (runnable .pre c.entries).length ∨ 2 ≤ (runnable .post c.entries).length →
    ∀ x y, V x → V y → int x = int y → (x = 0#64 ↔ y = 0#64))

private theorem dispatches_of_returned {W : Type} {b : Behaviour W} {c : Clone} {f f' : Frame W}
    {events : List Call} (hl : c.hook.length = c.hookType.length) (hz : 0 ∈ c.hookType)
    (hr : Reaches b c (.handler, f) (.ret, f')) (hcalls : f'.calls = f.calls ++ events) :
    (∀ k control, .called k control ∈ events → b.Returns control) ∧
      Dispatches 0#64 (fun control => control.toInt < 0)
        ((runnable .pre c.entries).map Entry.callee)
        ((runnable .post c.entries).map Entry.callee) events := by
  obtain ⟨events', f'', hr', hcalls', -, hb, hd⟩ := handler_run b c f hl hz
  obtain rfl := hr.ret_unique hr'
  obtain rfl := List.append_cancel_left (hcalls.symm.trans hcalls')
  exact ⟨hb, hd⟩

theorem mem_controls {events : List Call} {control : BitVec 64} (h : control ∈ controls events) :
    ∃ k, Event.called k control ∈ events := by
  obtain ⟨e, he, hc⟩ := List.mem_filterMap.mp h
  cases e with
  | called k x =>
    obtain rfl := Option.some.inj hc
    exact ⟨k, he⟩
  | original => simp [Event.control] at hc

/-- Hooks that all return one value and change nothing. -/
def constant (control : BitVec 64) : Behaviour Unit where
  specific _ _ _ _ s := (control, s)
  generic _ _ _ _ _ s := (control, s)
  original _ s := (s.returns, s)

private theorem returns_constant {control x : BitVec 64} (h : (constant control).Returns x) :
    x = control := by
  rcases h with ⟨_, _, _, _, _, rfl⟩ | ⟨_, _, _, _, _, _, rfl⟩ <;> rfl

private theorem constant_run (c : Clone) (hl : c.hook.length = c.hookType.length)
    (hz : 0 ∈ c.hookType) (control : BitVec 64) :
    ∃ events f', Reaches (constant control) c (.handler, entered) (.ret, f') ∧
      f'.calls = entered.calls ++ events ∧ (∀ k x, .called k x ∈ events → x = control) ∧
      Dispatches 0#64 (fun control => control.toInt < 0)
        ((runnable .pre c.entries).map Entry.callee)
        ((runnable .post c.entries).map Entry.callee) events := by
  obtain ⟨events, f', hr, hcalls, -, hb, hd⟩ := handler_run (constant control) c entered hl hz
  exact ⟨events, f', hr, hcalls, fun k x hm => returns_constant (hb k x hm), hd⟩

/-- Hooks that return a positive value do not keep the original from running. -/
theorem constant_pre {k : ℤ × Address} {ks : List (ℤ × Address)} {post : List (ℤ × Address)}
    {control : BitVec 64} {events : List Call} (hpos : 0 < control.toInt)
    (hx : ∀ k x, .called k x ∈ events → x = control)
    (hd : Dispatches 0#64 (fun control => control.toInt < 0) (k :: ks) post events) :
    ∃ ds, events = .called k control :: .original :: calls ds := by
  have hne : control ≠ 0#64 := by
    rintro rfl
    simp at hpos
  cases hd with
  | intercepted first hc =>
    obtain ⟨-, rfl⟩ := first.one_call (fun p hp => hx _ _ (called_mem_calls hp)) hne
    omega
  | @performed cs ds _ _ first hc second =>
    obtain ⟨rfl, rfl⟩ := first.one_call
      (fun p hp => hx _ _ (List.mem_append_left _ (called_mem_calls hp))) hne
    exact ⟨ds, rfl⟩

private theorem agree_of_constant {events events' : List Call} {x y : BitVec 64} (h : int x = int y)
    (hx : ∀ k z, .called k z ∈ events → z = x) (hy : ∀ k z, .called k z ∈ events' → z = y) :
    Agree (fun x y => int x = int y) (controls events) (controls events') := by
  intro i u v hu hv
  obtain ⟨k, hk⟩ := mem_controls (List.mem_of_getElem? hu)
  obtain ⟨k', hk'⟩ := mem_controls (List.mem_of_getElem? hv)
  rw [hx _ _ hk, hy _ _ hk', h]

section Table

variable (c : Clone) (hl : c.hook.length = c.hookType.length) (hz : 0 ∈ c.hookType)

include hl hz

/-- Hooks that return one value each, of a set for which all runs respect the controls. -/
theorem callees_of_respects {V : BitVec 64 → Prop} (h : ∀ (b b' : Behaviour Unit) (f : Frame Unit),
      (∀ x, b.Returns x → V x) → (∀ x, b'.Returns x → V x) → Respects b b' c f)
    {x y : BitVec 64} (hx : V x) (hy : V y) (hint : int x = int y) :
    ∃ events events' : List Call,
      (∀ k z, .called k z ∈ events → z = x) ∧ (∀ k z, .called k z ∈ events' → z = y) ∧
      Dispatches 0#64 (fun control => control.toInt < 0)
        ((runnable .pre c.entries).map Entry.callee)
        ((runnable .post c.entries).map Entry.callee) events ∧
      Dispatches 0#64 (fun control => control.toInt < 0)
        ((runnable .pre c.entries).map Entry.callee)
        ((runnable .post c.entries).map Entry.callee) events' ∧
      events.map Event.callee = events'.map Event.callee ∧
      Prevents (fun control => int control = -1) events := by
  obtain ⟨events, f₁, hr, hcalls, hxs, hd⟩ := constant_run c hl hz x
  obtain ⟨events', f₂, hr', hcalls', hys, hd'⟩ := constant_run c hl hz y
  obtain ⟨hsame, hprevents, -⟩ := h (constant x) (constant y) entered
    (fun z hz => returns_constant hz ▸ hx)
    (fun z hz => returns_constant hz ▸ hy) events events' f₁ f₂ hr hcalls
    hr' hcalls' (agree_of_constant hint hxs hys)
  exact ⟨events, events', hxs, hys, hd, hd', hsame, hprevents⟩

theorem told_of_respects {V : BitVec 64 → Prop} (h : ∀ (b b' : Behaviour Unit) (f : Frame Unit),
      (∀ x, b.Returns x → V x) → (∀ x, b'.Returns x → V x) → Respects b b' c f) : Told V c := by
  refine ⟨fun hne => ⟨fun x y hx hy hint => ?_, fun x hx hreturn => ?_⟩, fun htwo => ?_⟩
  · obtain ⟨events, events', hxs, hys, hd, hd', hsame, -⟩ :=
      callees_of_respects c hl hz h hx hy hint
    obtain ⟨e, es, hpre⟩ := List.exists_cons_of_ne_nil hne
    rw [hpre] at hd hd'
    have horiginal : ∀ l : List Call, .original ∈ l ↔ none ∈ l.map Event.callee := by
      intro l
      constructor
      · exact fun hm => List.mem_map.mpr ⟨_, hm, rfl⟩
      · intro hm
        obtain ⟨e, he, hn⟩ := List.mem_map.mp hm
        cases e with
        | called => cases hn
        | original => exact he
    rw [← not_iff_not, ← hd.original_mem_iff hxs, ← hd'.original_mem_iff hys,
      horiginal, horiginal, hsame]
  · -- A value that is `RETURN` and not negative is positive, so it lets the original run.
    by_contra hneg
    obtain ⟨events, -, hxs, -, hd, -, -, hprevents⟩ := callees_of_respects c hl hz h hx hx rfl
    obtain ⟨e, es, hpre⟩ := List.exists_cons_of_ne_nil hne
    rw [hpre] at hd
    have h0 : x.toInt ≠ 0 := by
      intro h0
      obtain rfl : x = 0#64 := BitVec.eq_of_toInt_eq h0
      exact absurd hreturn (by decide)
    obtain ⟨ds, rfl⟩ := constant_pre (by omega) hxs hd
    exact absurd List.mem_cons_self (hprevents [] _ _ _ rfl hreturn (by simp))
  · have hzero : ∀ x y, V x → V y → int x = int y → x = 0#64 → y = 0#64 := by
      intro x y hx hy hint hx0
      by_contra hy0
      obtain ⟨events, events', hxs, hys, hd, hd', hsame, -⟩ :=
        callees_of_respects c hl hz h hx hy hint
      have hall := congrArg List.length
        (hd.all_called (fun k z hm => (hxs k z hm).trans hx0) (by decide))
      have hlt := hd'.length_lt hys hy0 (by simpa using htwo)
      have hlength := congrArg List.length hsame
      simp only [calls, List.length_map, List.length_append, List.length_cons] at hall hlt hlength
      omega
    exact fun x y hx hy hint => ⟨hzero x y hx hy hint, hzero y x hy hx hint.symm⟩

theorem respects_of_told {W : Type} {V : BitVec 64 → Prop} (ht : Told V c) (b b' : Behaviour W)
    (f : Frame W) (hb : ∀ x, b.Returns x → V x) (hb' : ∀ x, b'.Returns x → V x) :
    Respects b b' c f := by
  intro events events' f₁ f₂ hr hcalls hr' hcalls' ha
  obtain ⟨hx, hd⟩ := dispatches_of_returned hl hz hr hcalls
  obtain ⟨hx', hd'⟩ := dispatches_of_returned hl hz hr' hcalls'
  have hagree : Agree (fun x y => V x ∧ V y ∧ int x = int y) (controls events)
      (controls events') := by
    intro i x y hxi hyi
    obtain ⟨k, hk⟩ := mem_controls (List.mem_of_getElem? hxi)
    obtain ⟨k', hk'⟩ := mem_controls (List.mem_of_getElem? hyi)
    exact ⟨hb _ (hx _ _ hk), hb' _ (hx' _ _ hk'), ha i x y hxi hyi⟩
  have hprevents : ∀ {events : List Call}, (∀ k x, .called k x ∈ events → V x) →
      Dispatches 0#64 (fun control => control.toInt < 0)
        ((runnable .pre c.entries).map Entry.callee)
        ((runnable .post c.entries).map Entry.callee) events →
      Prevents (fun control => int control = -1) events := by
    intro events hV hd
    by_cases hpre : runnable .pre c.entries = []
    · rw [hpre] at hd
      exact hd.prevents_of_nil (by decide) _
    · exact hd.prevents (fun k x hm => (ht.1 hpre).2 x (hV k x hm)) (by decide)
  refine ⟨Dispatches.agree ?_ ?_ hd hd' hagree, hprevents (fun k x hm => hb x (hx k x hm)) hd,
    hprevents (fun k x hm => hb' x (hx' k x hm)) hd'⟩
  · exact fun htwo x y hxy => ht.2 (by simpa using htwo) x y hxy.1 hxy.2.1 hxy.2.2
  · exact fun hne x y hxy => (ht.1 (by simpa using hne)).1 x y hxy.1 hxy.2.1 hxy.2.2

omit hl hz in
/-- Where hooks may return anything, the comparisons must not decide anything. -/
theorem told_all_iff : Told (fun _ => True) c ↔
    runnable .pre c.entries = [] ∧ (runnable .post c.entries).length ≤ 1 := by
  constructor
  · rintro ⟨hpre, htwo⟩
    have hnil : runnable .pre c.entries = [] := by
      by_contra hne
      exact absurd ((hpre hne).2 0xffffffff#64 trivial (by decide)) (by decide)
    refine ⟨hnil, Nat.le_of_not_lt fun hlt => ?_⟩
    exact absurd ((htwo (.inr hlt) 0#64 0x100000000#64 trivial trivial (by decide)).mp rfl)
      (by decide)
  · rintro ⟨hpre, hpost⟩
    refine ⟨fun hne => absurd hpre hne, fun htwo => ?_⟩
    rw [hpre, List.length_nil] at htwo
    omega

end Table

/-- Values whose upper half is the sign of the lower one are told apart as `int`s. -/
theorem told_signExtended (c : Clone) : Told (fun x => x = (int x).signExtend 64) c := by
  have heq : ∀ x y : BitVec 64, x = (int x).signExtend 64 → y = (int y).signExtend 64 →
    int x = int y → x = y :=
    fun x y hx hy hint => by rw [hx, hy, hint]
  refine ⟨fun _ => ⟨fun x y hx hy hint => ?_, fun x hx hreturn => ?_⟩, fun _ x y hx hy hint => ?_⟩
  · rw [heq x y hx hy hint]
  · rw [hx, hreturn]
    decide
  · rw [heq x y hx hy hint]

/-- The handler respects the controls of its hooks, whatever they and the original
do, exactly when its table holds nothing to run in front of the original and at
most one hook to run behind it. With hooks that return certain values only, it does
so exactly when the values that are one `int` are told apart by no comparison that
decides something. -/
theorem handler_respects_iff (c : Clone) (hl : c.hook.length = c.hookType.length)
    (hz : 0 ∈ c.hookType) :
    ((∀ (W : Type) (b b' : Behaviour W) (f : Frame W), Respects b b' c f) ↔
      runnable .pre c.entries = [] ∧ (runnable .post c.entries).length ≤ 1) ∧
    ∀ V : BitVec 64 → Prop,
      (∀ (W : Type) (b b' : Behaviour W) (f : Frame W), (∀ x, b.Returns x → V x) →
        (∀ x, b'.Returns x → V x) → Respects b b' c f) ↔ Told V c := by
  have hexact := fun V : BitVec 64 → Prop => (⟨fun h => told_of_respects c hl hz (h Unit),
    fun h W b b' f => respects_of_told c hl hz h b b' f⟩ :
    (∀ (W : Type) (b b' : Behaviour W) (f : Frame W), (∀ x, b.Returns x → V x) →
      (∀ x, b'.Returns x → V x) → Respects b b' c f) ↔ Told V c)
  refine ⟨?_, hexact⟩
  rw [← told_all_iff c, ← hexact]
  exact ⟨fun h W b b' f _ _ => h W b b' f, fun h W b b' f => h W b b' f (fun _ _ => trivial)
    fun _ _ => trivial⟩

theorem handler_respects_genericPost :
    0 ∈ (smallClone [(1, .genericPost)]).hookType ∧
    (∀ (W : Type) (b b' : Behaviour W) (f : Frame W),
      Respects b b' (smallClone [(1, .genericPost)]) f) ∧
    ∀ (W : Type) (b b' : Behaviour W) (f : Frame W),
    (∀ x, b.Returns x → x = (int x).signExtend 64) →
      (∀ x, b'.Returns x → x = (int x).signExtend 64) →
      Respects b b' (smallClone [(1, .genericPre), (2, .genericPost)]) f :=
  ⟨by decide,
    (handler_respects_iff (smallClone [(1, .genericPost)]) (by decide) (by decide)).1.mpr
      (by decide),
    ((handler_respects_iff (smallClone [(1, .genericPre), (2, .genericPost)]) (by decide)
      (by decide)).2 _).mpr
      (told_signExtended _)⟩

/-- The `int` `RETURN` of one hook in front of the original stops it with one upper
half of `rax` and not with another. -/
theorem return_runs_original :
    int 0xffffffff#64 = int 0xffffffffffffffff#64 ∧
    (∃ f', Reaches (constant 0xffffffff#64) (smallClone [(1, .genericPre)]) (.handler, entered)
      (.ret, f') ∧ f'.calls = [.called (0, 1) 0xffffffff#64, .original]) ∧
    (∃ f', Reaches (constant 0xffffffffffffffff#64) (smallClone [(1, .genericPre)])
      (.handler, entered) (.ret, f') ∧ f'.calls = [.called (0, 1) 0xffffffffffffffff#64]) ∧
    ¬Respects (constant 0xffffffff#64) (constant 0xffffffffffffffff#64)
      (smallClone [(1, .genericPre)])
      entered := by
  obtain ⟨events, f', hr, hcalls, hx, hd⟩ :=
    constant_run (smallClone [(1, .genericPre)]) (by decide) (by decide) 0xffffffff#64
  obtain ⟨events', f'', hr', hcalls', hx', hd'⟩ :=
    constant_run (smallClone [(1, .genericPre)]) (by decide) (by decide) 0xffffffffffffffff#64
  change Dispatches 0#64 _ [(0, 1)] [] events at hd
  change Dispatches 0#64 _ [(0, 1)] [] events' at hd'
  have hevents : events = [.called (0, 1) 0xffffffff#64, .original] := by
    cases hd with
    | intercepted first hc =>
      obtain ⟨-, rfl⟩ := first.one_call (fun p hp => hx _ _ (called_mem_calls hp)) (by decide)
      exact absurd hc (by decide)
    | performed first hc second =>
      obtain ⟨rfl, -⟩ := first.one_call
        (fun p hp => hx _ _ (List.mem_append_left _ (called_mem_calls hp))) (by decide)
      cases second
      rfl
  have hevents' : events' = [.called (0, 1) 0xffffffffffffffff#64] := by
    cases hd' with
    | intercepted first hc =>
      obtain ⟨rfl, -⟩ := first.one_call (fun p hp => hx' _ _ (called_mem_calls hp)) (by decide)
      rfl
    | performed first hc second =>
      obtain ⟨-, rfl⟩ := first.one_call
        (fun p hp => hx' _ _ (List.mem_append_left _ (called_mem_calls hp))) (by decide)
      exact absurd (by decide) hc
  refine ⟨by decide, ⟨f', hr, hcalls.trans hevents⟩,
    ⟨f'', hr', hcalls'.trans hevents'⟩, fun h => ?_⟩
  have hsame := (h events events' f' f'' hr hcalls hr' hcalls'
    (agree_of_constant (by decide) hx hx')).1
  rw [hevents, hevents'] at hsame
  simp [Event.callee] at hsame

end Ps4Sdk.FunctionHookHandler
