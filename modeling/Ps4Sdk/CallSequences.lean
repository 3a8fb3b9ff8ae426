import Mathlib.Data.List.Basic

/-!
# Calling lists of callees around an original

Each call returns a control. The calls of a list go on as long as the control is
the one that says so; the first other control ends them. A dispatcher calls one
list, then the original unless the control intercepts it, then a second list.
-/

namespace Ps4Sdk.CallSequences

universe u v

variable {κ : Type u} {γ : Type v}

/-- The callees, the calls made of them with their controls, and the control
that ended the sequence, which is the one to go on where no call did. -/
inductive CallsUntil (go : γ) : List κ → List (κ × γ) → γ → Prop
  | done : CallsUntil go [] [] go
  | next {k : κ} {ks : List κ} {cs : List (κ × γ)} {c : γ} (rest : CallsUntil go ks cs c) :
      CallsUntil go (k :: ks) ((k, go) :: cs) c
  | stop {k : κ} {ks : List κ} {c : γ} (h : c ≠ go) : CallsUntil go (k :: ks) [(k, c)] c

inductive Event (κ : Type u) (γ : Type v)
  | called (callee : κ) (control : γ)
  | original
  deriving DecidableEq

def calls (cs : List (κ × γ)) : List (Event κ γ) := cs.map (fun p => .called p.1 p.2)

inductive Dispatches (go : γ) (intercepts : γ → Prop) (pre post : List κ) : List (Event κ γ) → Prop
  | intercepted {cs : List (κ × γ)} {c : γ} (first : CallsUntil go pre cs c) (h : intercepts c) :
      Dispatches go intercepts pre post (calls cs)
  | performed {cs ds : List (κ × γ)} {c d : γ} (first : CallsUntil go pre cs c) (h : ¬intercepts c)
      (second : CallsUntil go post ds d) :
      Dispatches go intercepts pre post (calls cs ++ .original :: calls ds)

variable {go c : γ} {intercepts : γ → Prop} {ks pre post pre' post' : List κ} {cs : List (κ × γ)}
  {events : List (Event κ γ)}

@[simp] theorem calls_nil : calls ([] : List (κ × γ)) = [] := rfl

@[simp] theorem calls_cons (p : κ × γ) (cs : List (κ × γ)) :
    calls (p :: cs) = .called p.1 p.2 :: calls cs := rfl

theorem called_mem_calls {p : κ × γ} (h : p ∈ cs) : .called p.1 p.2 ∈ calls cs :=
  List.mem_map.mpr ⟨p, h, rfl⟩

theorem mem_calls {k : κ} (h : Event.called k c ∈ calls cs) : (k, c) ∈ cs := by
  obtain ⟨p, hp, he⟩ := List.mem_map.mp h
  simp only [Event.called.injEq] at he
  rwa [← he.1, ← he.2]

/-- The calls in front of the original can be told from those behind it. -/
theorem calls_original_inj {cs ds cs' ds' : List (κ × γ)}
    (h : calls cs ++ .original :: calls ds = calls cs' ++ .original :: calls ds') :
    calls cs = calls cs' ∧ calls ds = calls ds' := by
  induction cs generalizing cs' with
  | nil =>
    cases cs' with
    | nil => simpa using h
    | cons p cs' => simp at h
  | cons p cs ih =>
    cases cs' with
    | nil => simp at h
    | cons q cs' =>
      simp only [calls_cons, List.cons_append, List.cons.injEq] at h ⊢
      obtain ⟨h₁, h₂⟩ := ih h.2
      exact ⟨⟨h.1, h₁⟩, h₂⟩

private theorem original_not_mem_calls : Event.original ∉ calls cs := by simp [calls]

private theorem CallsUntil.control_of_nil (h : CallsUntil go ([] : List κ) cs c) : c = go := by
  cases h
  rfl

/-- Events that end with the original leave no callees behind it. -/
theorem Dispatches.post_eq_nil (cs : List (κ × γ))
    (h : Dispatches go intercepts pre post (calls cs ++ [.original])) : post = [] := by
  generalize he : calls cs ++ [.original] = events at h
  cases h with
  | intercepted first hc =>
    exact absurd (he ▸ List.mem_append_right _ (List.mem_singleton_self _)) original_not_mem_calls
  | @performed cs' ds c d first hc second =>
    have hds : calls ([] : List (κ × γ)) = calls ds := (calls_original_inj he).2
    rw [List.map_eq_nil_iff.mp hds.symm] at second
    cases second
    rfl

/-- When every call said to go on, every callee was called. -/
theorem CallsUntil.all_called (h : CallsUntil go ks cs c) (hg : ∀ p ∈ cs, p.2 = go) :
    cs = ks.map (fun k => (k, go)) ∧ c = go := by
  induction h with
  | done => exact ⟨rfl, rfl⟩
  | next rest ih =>
    obtain ⟨hk, hc⟩ := ih (fun p hp => hg p (List.mem_cons_of_mem _ hp))
    exact ⟨by simp [hk], hc⟩
  | stop hne => exact absurd (hg _ (List.mem_singleton_self _)) hne

/-- When every call said to go on, the events hold all callees of both lists. -/
theorem Dispatches.all_called (h : Dispatches go intercepts pre post events)
    (hg : ∀ k c, Event.called k c ∈ events → c = go) (hi : ¬intercepts go) :
    events = calls (pre.map fun k => (k, go)) ++ .original :: calls
      (post.map fun k => (k, go)) := by
  cases h with
  | @intercepted cs c first hc =>
    obtain ⟨-, rfl⟩ := first.all_called fun p hp => hg _ _ (called_mem_calls hp)
    exact absurd hc hi
  | @performed cs ds c d first _ second =>
    obtain ⟨rfl, -⟩ := first.all_called fun p hp =>
      hg _ _ (List.mem_append_left _ (called_mem_calls hp))
    obtain ⟨rfl, -⟩ := second.all_called fun p hp =>
      hg _ _ (List.mem_append_right _ (List.mem_cons_of_mem _ (called_mem_calls hp)))
    rfl

private theorem calls_injective : Function.Injective (calls : List (κ × γ) → List (Event κ γ)) := by
  refine List.map_injective_iff.mpr fun p q h => ?_
  obtain ⟨hk, hc⟩ := Event.called.inj h
  exact Prod.ext hk hc

/-- The calls of a list are those of a longer one exactly if nothing was added, or a control had
ended them. -/
theorem CallsUntil.append_iff {ks' : List κ} {c' : γ} (h : CallsUntil go ks cs c) :
    CallsUntil go (ks ++ ks') cs c' ↔ c' = c ∧ (ks' = [] ∨ c ≠ go) := by
  induction h with
  | done =>
    constructor
    · intro h'
      cases ks' with
      | nil => exact ⟨h'.control_of_nil, .inl rfl⟩
      | cons k ks' => nomatch h'
    · rintro ⟨rfl, rfl | hne⟩
      · exact .done
      · exact absurd rfl hne
  | @next k ks cs c rest ih =>
    rw [← ih]
    constructor
    · intro h'
      cases h' with
      | next rest' => exact rest'
      | stop hne => exact absurd rfl hne
    · exact fun h' => .next h'
  | @stop k ks c hne =>
    constructor
    · intro h'
      cases h' with
      | next => exact absurd rfl hne
      | stop => exact ⟨rfl, .inr hne⟩
    · rintro ⟨rfl, -⟩
      exact .stop hne

/-- Calls that were intercepted, as those of longer lists. -/
theorem dispatches_intercepted_iff (first : CallsUntil go pre cs c) (h : intercepts c) :
    Dispatches go intercepts (pre ++ pre') post (calls cs) ↔ pre' = [] ∨ c ≠ go := by
  constructor
  · generalize he : calls cs = events
    rintro (⟨first', _⟩ | _)
    · obtain rfl := calls_injective he
      exact (first.append_iff.mp first').2
    · exact absurd (he ▸ List.mem_append_right _ List.mem_cons_self) original_not_mem_calls
  · exact fun hpre => .intercepted (first.append_iff.mpr ⟨rfl, hpre⟩) h

/-- Calls around the original, as those of longer lists. -/
theorem dispatches_performed_iff {d : γ} {ds : List (κ × γ)} (first : CallsUntil go pre cs c)
    (h : ¬intercepts c) (second : CallsUntil go post ds d) :
    Dispatches go intercepts (pre ++ pre') (post ++ post') (calls cs ++ .original :: calls ds) ↔
      (pre' = [] ∨ c ≠ go) ∧ (post' = [] ∨ d ≠ go) := by
  constructor
  · generalize he : calls cs ++ .original :: calls ds = events
    rintro (_ | ⟨first', _, second'⟩)
    · exact absurd (he ▸ List.mem_append_right _ List.mem_cons_self) original_not_mem_calls
    · obtain ⟨hcs, hds⟩ := calls_original_inj he
      obtain rfl := calls_injective hcs
      obtain rfl := calls_injective hds
      exact ⟨(first.append_iff.mp first').2, (second.append_iff.mp second').2⟩
  · rintro ⟨hpre, hpost⟩
    exact .performed (first.append_iff.mpr ⟨rfl, hpre⟩) h (second.append_iff.mpr ⟨rfl, hpost⟩)

/-! ### Two sequences of calls -/

def Event.callee : Event κ γ → Option κ
  | .called k _ => some k
  | .original => none

def Event.control : Event κ γ → Option γ
  | .called _ c => some c
  | .original => none

def controls (events : List (Event κ γ)) : List γ := events.filterMap Event.control

/-- The entries of two lists are related as far as both lists go. -/
def Agree (r : γ → γ → Prop) (xs ys : List γ) : Prop :=
  ∀ (i : ℕ) (x y : γ), xs[i]? = some x → ys[i]? = some y → r x y

def Prevents (stops : γ → Prop) (events : List (Event κ γ)) : Prop :=
  ∀ before after k c, events = before ++ .called k c :: after → stops c → .original ∉ before →
    .original ∉ after

variable {r : γ → γ → Prop} {xs ys xs' ys' : List γ} {events' : List (Event κ γ)}

@[simp] theorem controls_calls (cs : List (κ × γ)) : controls (calls cs) = cs.map Prod.snd := by
  induction cs with
  | nil => rfl
  | cons p cs ih => simpa [controls, Event.control] using ih

@[simp] theorem controls_performed (cs ds : List (κ × γ)) :
    controls (calls cs ++ .original :: calls ds) = cs.map Prod.snd ++ ds.map Prod.snd := by
  rw [controls, List.filterMap_append]
  exact congrArg₂ _ (controls_calls cs) (controls_calls ds)

@[simp] theorem callee_calls (cs : List (κ × γ)) :
    (calls cs).map Event.callee = (cs.map Prod.fst).map some := by
  simp [calls, Event.callee]

theorem Agree.left (h : Agree r (xs ++ ys) (xs' ++ ys')) : Agree r xs xs' := by
  intro i x y hx hy
  refine h i x y ?_ ?_
  · rw [List.getElem?_append_left (List.getElem?_eq_some_iff.mp hx).1, hx]
  · rw [List.getElem?_append_left (List.getElem?_eq_some_iff.mp hy).1, hy]

theorem Agree.right (h : Agree r (xs ++ ys) (xs' ++ ys')) (hl : xs.length = xs'.length) :
    Agree r ys ys' := by
  intro i x y hx hy
  refine h (xs.length + i) x y ?_ ?_
  · rw [List.getElem?_append_right (Nat.le_add_right _ _), Nat.add_sub_cancel_left, hx]
  · rw [hl, List.getElem?_append_right (Nat.le_add_right _ _), Nat.add_sub_cancel_left, hy]

theorem Agree.tail {x y : γ} (h : Agree r (x :: xs) (y :: ys)) : Agree r xs ys :=
  fun i u v hu hv => h (i + 1) u v hu hv

section TwoRuns

variable {d : γ} {ds : List (κ × γ)}

/-- Related controls lead through the same callees, to controls that both intercept or both do
not. Whether a control is the one to go on matters with two callees only. -/
theorem CallsUntil.agree (hgo : 2 ≤ ks.length → ∀ x y, r x y → (x = go ↔ y = go))
    (hint : ks ≠ [] → ∀ x y, r x y → (intercepts x ↔ intercepts y)) (h : CallsUntil go ks cs c)
    (h' : CallsUntil go ks ds d) (ha : Agree r (cs.map Prod.snd) (ds.map Prod.snd)) :
    cs.map Prod.fst = ds.map Prod.fst ∧ (intercepts c ↔ intercepts d) := by
  induction h generalizing ds with
  | done =>
    cases h'
    exact ⟨rfl, Iff.rfl⟩
  | @next k ks cs c rest ih =>
    have hrel := fun y hy => ha 0 go y rfl hy
    cases h' with
    | next rest' =>
      obtain ⟨hk, hi⟩ := ih (fun hle => hgo (Nat.le_succ_of_le hle))
        (fun _ => hint (List.cons_ne_nil _ _))
        rest' ha.tail
      exact ⟨by simp [hk], hi⟩
    | stop hne =>
      cases ks with
      | nil =>
        cases rest
        exact ⟨rfl, hint (List.cons_ne_nil _ _) _ _ (hrel _ rfl)⟩
      | cons k' ks => exact absurd ((hgo (by simp) _ _ (hrel _ rfl)).mp rfl) hne
  | @stop k ks c hne =>
    have hrel := fun y hy => ha 0 c y rfl hy
    cases h' with
    | next rest' =>
      cases ks with
      | nil =>
        cases rest'
        exact ⟨rfl, hint (List.cons_ne_nil _ _) _ _ (hrel _ rfl)⟩
      | cons k' ks => exact absurd ((hgo (by simp) _ _ (hrel _ rfl)).mpr rfl) hne
    | stop hne' => exact ⟨rfl, hint (List.cons_ne_nil _ _) _ _ (hrel _ rfl)⟩

/-- Two dispatches of the same lists with related controls differ in no call. -/
theorem Dispatches.agree (hgo : 2 ≤ pre.length ∨ 2 ≤ post.length → ∀ x y, r x y → (x = go ↔ y = go))
    (hint : pre ≠ [] → ∀ x y, r x y → (intercepts x ↔ intercepts y))
    (h : Dispatches go intercepts pre post events) (h' : Dispatches go intercepts pre post events')
    (ha : Agree r (controls events) (controls events')) :
    events.map Event.callee = events'.map Event.callee := by
  have hpre := fun hle => hgo (.inl hle)
  cases h with
  | @intercepted cs c first hc =>
    cases h' with
    | intercepted first' hc' =>
      simp only [controls_calls] at ha
      rw [callee_calls, callee_calls, (CallsUntil.agree hpre hint first first' ha).1]
    | @performed cs' ds' c' d' first' hc' second' =>
      have ha' : Agree r (cs.map Prod.snd ++ []) (cs'.map Prod.snd ++ ds'.map Prod.snd) := by
        simpa using ha
      exact absurd ((CallsUntil.agree hpre hint first first' ha'.left).2.mp hc) hc'
  | @performed cs ds c d first hc second =>
    cases h' with
    | @intercepted cs' c' first' hc' =>
      have ha' : Agree r (cs.map Prod.snd ++ ds.map Prod.snd) (cs'.map Prod.snd ++ []) := by
        simpa using ha
      exact absurd ((CallsUntil.agree hpre hint first first' ha'.left).2.mpr hc') hc
    | @performed cs' ds' c' d' first' hc' second' =>
      simp only [controls_performed] at ha
      have hfirst := (CallsUntil.agree hpre hint first first' ha.left).1
      have hlength : (cs.map Prod.snd).length = (cs'.map Prod.snd).length := by
        simpa using congrArg List.length hfirst
      have hsecond := (CallsUntil.agree (fun hle => hgo (.inr hle))
        (fun _ _ _ _ => Iff.rfl (a := True)) second second' (ha.right hlength)).1
      simp [Event.callee, hfirst, hsecond]

end TwoRuns

theorem CallsUntil.control_mem (h : CallsUntil go ks cs c) {p : κ × γ} (hp : p ∈ cs) : p.2 = go ∨
    p.2 = c := by
  induction h with
  | done => simp at hp
  | next rest ih =>
    rcases List.mem_cons.mp hp with rfl | hp
    · exact .inl rfl
    · exact ih hp
  | stop hne =>
    obtain rfl := List.mem_singleton.mp hp
    exact .inr rfl

/-- A control that intercepts prevents the original. -/
theorem Dispatches.prevents (h : Dispatches go intercepts pre post events) {stops : γ → Prop}
    (hstops : ∀ k x, .called k x ∈ events → stops x → intercepts x) (hi : ¬intercepts go) :
    Prevents stops events := by
  intro before after k x he hx hbefore
  have hx := hstops k x (he ▸ List.mem_append_right _ List.mem_cons_self) hx
  cases h with
  | intercepted first hc =>
    intro hafter
    exact original_not_mem_calls (he ▸ List.mem_append_right _ (List.mem_cons_of_mem _ hafter))
  | @performed cs ds c d first hc second =>
    rcases List.append_eq_append_iff.mp he with ⟨as, rfl, hrest⟩ | ⟨bs, hcs, hrest⟩
    · cases as with
      | nil => simp at hrest
      | cons e as =>
        obtain rfl := (List.cons.inj hrest).1
        exact absurd (by simp) hbefore
    · cases bs with
      | nil => simp at hrest
      | cons e bs =>
        obtain rfl := (List.cons.inj hrest).1
        have hmem : (k, x) ∈ cs := mem_calls (hcs ▸ List.mem_append_right _ List.mem_cons_self)
        rcases first.control_mem hmem with rfl | rfl
        · exact absurd hx hi
        · exact absurd hx hc

/-- With nothing in front of the original there is no such control. -/
theorem Dispatches.prevents_of_nil (h : Dispatches go intercepts [] post events)
    (hi : ¬intercepts go) (stops : γ → Prop) : Prevents stops events := by
  cases h with
  | intercepted first hc => exact absurd (first.control_of_nil ▸ hc) hi
  | performed first hc second =>
    cases first
    intro before after k c he _ hbefore
    cases before with
    | nil => simp at he
    | cons e before =>
      obtain rfl := (List.cons.inj he).1
      exact absurd List.mem_cons_self hbefore

/-! ### Callees that all return the same control -/

section Constant

variable {k : κ} {x : γ}

theorem CallsUntil.one_call (h : CallsUntil go (k :: ks) cs c)
    (hx : ∀ p ∈ cs, p.2 = x) (hne : x ≠ go) :
    cs = [(k, x)] ∧ c = x := by
  cases h with
  | next rest => exact absurd (hx _ List.mem_cons_self).symm hne
  | stop =>
    obtain rfl := hx _ List.mem_cons_self
    exact ⟨rfl, rfl⟩

theorem CallsUntil.length_le (h : CallsUntil go ks cs c) (hx : ∀ p ∈ cs, p.2 = x) (hne : x ≠ go) :
    cs.length ≤ ks.length ∧ cs.length ≤ 1 := by
  cases ks with
  | nil =>
    cases h
    simp
  | cons k ks =>
    obtain ⟨rfl, -⟩ := h.one_call hx hne
    simp

private theorem CallsUntil.control_eq (h : CallsUntil go (k :: ks) cs c)
    (hx : ∀ p ∈ cs, p.2 = x) : c = x := by
  by_cases hgo : x = go
  · exact (h.all_called fun p hp => (hx p hp).trans hgo).2.trans hgo.symm
  · exact (h.one_call hx hgo).2

/-- The original is called exactly if the control does not intercept it. -/
theorem Dispatches.original_mem_iff (h : Dispatches go intercepts (k :: ks) post events)
    (hx : ∀ k c, .called k c ∈ events → c = x) : .original ∈ events ↔ ¬intercepts x := by
  cases h with
  | intercepted first hc =>
    obtain rfl := first.control_eq fun p hp => hx _ _ (called_mem_calls hp)
    exact iff_of_false original_not_mem_calls (not_not_intro hc)
  | performed first hc second =>
    obtain rfl := first.control_eq fun p hp => hx _ _ (List.mem_append_left _ (called_mem_calls hp))
    exact iff_of_true (List.mem_append_right _ List.mem_cons_self) hc

/-- With a control that ends the calls not all callees of lists with two of them are called. -/
theorem Dispatches.length_lt (h : Dispatches go intercepts pre post events)
    (hx : ∀ k c, .called k c ∈ events → c = x) (hne : x ≠ go)
    (hl : 2 ≤ pre.length ∨ 2 ≤ post.length) :
    events.length < pre.length + 1 + post.length := by
  cases h with
  | intercepted first hc =>
    have hcs := first.length_le (fun p hp => hx _ _ (called_mem_calls hp)) hne
    simp only [calls, List.length_map]
    omega
  | performed first hc second =>
    have hcs := first.length_le
      (fun p hp => hx _ _ (List.mem_append_left _ (called_mem_calls hp))) hne
    have hds := second.length_le (fun p hp =>
      hx _ _ (List.mem_append_right _ (List.mem_cons_of_mem _ (called_mem_calls hp)))) hne
    simp only [calls, List.length_append, List.length_cons, List.length_map]
    omega

end Constant

end Ps4Sdk.CallSequences
