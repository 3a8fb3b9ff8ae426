import Ps4Sdk.AssemblyRuns

/-!
# Saving the register parameters, `register.s`

`ps4AssemblerRegisterParameterPush` leaves the registers of the caller's arguments on the
stack and returns below them; `ps4AssemblerRegisterParameterPop` loads them again and
returns above them. The return address is moved over them, since it was pushed first.
-/

namespace Ps4Sdk.RegisterParameters
open ByteMemory AssemblyMachines

/-- Instructions without a jump, one after the other. -/
def performAll (is : List (Instruction Empty)) (s : Machine) : Machine :=
  is.foldl (fun s i => perform i s.toView s.memory) s

/-- A call of a function, whose return address is the one behind the call. -/
def called (after : Word) (s : Machine) : Machine :=
  ⟨s.pushed, putWord s.memory (s.pushed.register .rsp) after⟩

def returned (s : Machine) : Word × Machine :=
  (wordAt s.memory (s.register .rsp), ⟨s.popped, s.memory⟩)

/-- Where the parameters are saved, besides `%rax`. -/
def places : List (Slot × ℕ) :=
  [(.register .rdi, 16), (.register .rsi, 24), (.register .rdx, 32), (.register .rcx, 40),
    (.register .r8, 48), (.register .r9, 56)] ++ (List.finRange 8).map
    (fun i => (.vector i, 64 + 16 * i.val))

def ps4AssemblerRegisterParameterPush (s : Machine) : Word × Machine :=
  returned (performAll ([.subtract 192 .rsp, .store .rax 8 .rsp, .load 192 .rsp .rax] ++
    places.reverse.map (Slot.storeTo .rsp) ++ [.store .rax 0 .rsp]) s)

def ps4AssemblerRegisterParameterPop (s : Machine) : Word × Machine :=
  returned (performAll ([.load 0 .rsp .rax] ++ places.map (Slot.loadFrom .rsp) ++
    [.store .rax 192 .rsp, .load 8 .rsp .rax, .add 192 .rsp]) s)

/-! ### Saving and loading -/

private theorem performAll_append (is is' : List (Instruction Empty)) (s : Machine) :
    performAll (is ++ is') s = performAll is' (performAll is s) := List.foldl_append

theorem performAll_stores (base : Register) (l : List (Slot × ℕ)) (v : View) (m : Bytes) :
    performAll (l.map (Slot.storeTo base)) ⟨v, m⟩ = ⟨v, saveAll v (v.register base) l m⟩ := by
  induction l generalizing m with
  | nil => rfl
  | cons p l ih =>
    rw [List.map_cons, performAll, List.foldl_cons, perform_storeTo]
    exact ih _

theorem performAll_loads {base : Register} {l : List (Slot × ℕ)} (hl : .register base ∉ slots l)
    (v : View) (m : Bytes) :
    performAll (l.map (Slot.loadFrom base)) ⟨v, m⟩ = ⟨loadAll m (v.register base) l v, m⟩ := by
  induction l generalizing v with
  | nil => rfl
  | cons p l ih =>
    rw [slots, List.map_cons, List.mem_cons, not_or] at hl
    rw [List.map_cons, performAll, List.foldl_cons, perform_loadFrom]
    refine (ih hl.2 _).trans ?_
    rw [View.register_of_bytes (View.bytes_assign_of_ne hl.1), loadAll, loadAll, List.foldl_cons]

private theorem separate_places : Separate places.reverse := by decide

private theorem nodup_places : (slots places).Nodup := by decide

/-- The parameters besides `%rax` are in registers that the push itself does not change. -/
theorem bytes_places {v w : View} (hr : ∀ r, r ≠ .rsp → r ≠ .rax → v.register r = w.register r)
    (hv : v.vector = w.vector) : ∀ p ∈ places, v.bytes p.1 = w.bytes p.1 := by
  have hother : ∀ p ∈ places, p.1 ≠ .register .rsp ∧ p.1 ≠ .register .rax := by decide
  rintro ⟨s, i⟩ hp
  have hne := hother _ hp
  cases s with
  | register r =>
    rw [View.bytes, View.bytes, hr r (fun h => hne.1 (h ▸ rfl)) fun h => hne.2 (h ▸ rfl)]
  | vector j => rw [View.bytes, View.bytes, hv]

private theorem places_within : ∀ p ∈ places, 16 ≤ p.2 ∧ p.2 + p.1.size ≤ 192 := by decide

section

variable {a x : Word}

private theorem atSlot_places (h : AtSlot a places x) : 16 ≤ (x - a).toNat ∧
    (x - a).toNat < 192 := by
  obtain ⟨p, hp, hx⟩ := h
  have hw := places_within p hp
  rw [inside_offset (by omega)] at hx
  omega

private theorem atSlot_places_reverse (h : AtSlot a places.reverse x) : 16 ≤ (x - a).toNat ∧
    (x - a).toNat < 192 := by
  obtain ⟨p, hp, hx⟩ := h
  exact atSlot_places ⟨p, List.mem_reverse.mp hp, hx⟩

private theorem inside_word {i : ℕ} (h : i ≤ 192) (hx : Inside (a + BitVec.ofNat 64 i) 8 x) :
    i ≤ (x - a).toNat ∧ (x - a).toNat < i + 8 := (inside_offset (by omega)).mp hx

end

structure Saved (a : Word) (v : View) (m : Bytes) : Prop where
  rax : wordAt m (a + BitVec.ofNat 64 8) = v.register .rax
  rest : Holds m a places v

theorem Saved.congr {a : Word} {v : View} {m m' : Bytes} (h : Saved a v m)
    (hm : ∀ x, 8 ≤ (x - a).toNat → (x - a).toNat < 192 → m' x = m x) : Saved a v m' where
  rax := by
    refine (wordAt_congr fun x hx => ?_).trans h.rax
    have hb := inside_word (by omega) hx
    exact hm x hb.1 (by omega)
  rest := h.rest.congr fun x hx => by
    have hb := atSlot_places hx
    exact hm x (by omega) hb.2

structure Pushed (a after : Word) (s : Machine) (r : Word × Machine) : Prop where
  target : r.1 = after
  rsp : r.2.register .rsp = a + BitVec.ofNat 64 8
  registers : ∀ reg, reg ≠ .rsp → reg ≠ .rax → r.2.register reg = s.register reg
  saved : Saved a s.toView r.2.memory
  memory : ∀ x, 200 ≤ (x - a).toNat → r.2.memory x = s.memory x

/-- The machine when the push begins to save the registers behind `%rax`. -/
theorem push_begins {a after : Word} {s : Machine}
    (hrsp : s.register .rsp = a + BitVec.ofNat 64 200) :
    performAll [.subtract 192 .rsp, .store .rax 8 .rsp, .load 192 .rsp .rax] (called after s) =
      ⟨((s.pushed.set .rsp a).compared ((a + BitVec.ofNat 64 192).toInt - 192) 0).set .rax after,
        putWord (putWord s.memory (a + BitVec.ofNat 64 192) after) (a + BitVec.ofNat 64 8)
          (s.register .rax)⟩ := by
  have hpushed : s.pushed.register .rsp = a + BitVec.ofNat 64 192 := by
    rw [View.pushed, View.register_set, hrsp]
    exact offset_sub a (i := 200) (j := 8) (by omega)
  have hrax : s.pushed.register .rax = s.register .rax := View.register_set_of_ne (by decide)
  have hlow : a + BitVec.ofNat 64 192 - BitVec.ofNat 64 192 = a := BitVec.add_sub_cancel _ _
  have hload : wordAt (putWord (putWord s.memory (a + BitVec.ofNat 64 192) after)
      (a + BitVec.ofNat 64 8) (s.register .rax)) (a + BitVec.ofNat 64 192) = after := by
    rw [wordAt_putWord_apart (apart_offsets (.inr (by omega)) (by omega) (by omega)),
      wordAt_putWord]
  simp only [performAll, List.foldl_cons, List.foldl_nil, perform, called, hpushed, View.operand,
    View.compared, hlow]
  have hset : (s.pushed.set .rsp a).register .rsp = a := View.register_set
  have hset' : (s.pushed.set .rsp a).register .rax = s.register .rax :=
    (View.register_set_of_ne (by decide)).trans hrax
  rw [hset, hset', hload]
  rfl

theorem push_eq {a : Word} (after : Word) {s : Machine}
    (hrsp : s.register .rsp = a + BitVec.ofNat 64 200) :
    ∃ (v : View) (m : Bytes), v.register .rsp = a ∧ v.register .rax = after ∧
      (∀ r, r ≠ .rsp → r ≠ .rax → v.register r = s.register r) ∧ v.vector = s.vector ∧
      m = putWord (putWord s.memory (a + BitVec.ofNat 64 192) after) (a + BitVec.ofNat 64 8)
        (s.register .rax) ∧
      ps4AssemblerRegisterParameterPush (called after s) =
        (after, ⟨v.popped, putWord (saveAll v a places.reverse m) a after⟩) := by
  have hbase : (s.pushed.set .rsp a).register .rsp = a := View.register_set
  have hlow : (((s.pushed.set .rsp a).compared ((a + BitVec.ofNat 64 192).toInt - 192) 0).set
    .rax after).register
      .rsp = a := (View.register_set_of_ne (by decide)).trans hbase
  refine ⟨((s.pushed.set .rsp a).compared ((a + BitVec.ofNat 64 192).toInt - 192) 0).set .rax after,
    _, hlow, View.register_set, fun r hr hr' => ?_, rfl, rfl, ?_⟩
  · rw [View.register_set_of_ne hr']
    exact (View.register_set_of_ne hr).trans (View.register_set_of_ne hr)
  · rw [ps4AssemblerRegisterParameterPush, performAll_append, performAll_append, push_begins hrsp,
      performAll_stores, hlow]
    simp only [performAll, List.foldl_cons, List.foldl_nil, perform, View.operand, hlow,
      View.register_set, BitVec.add_zero, returned, wordAt_putWord]

theorem push_called {a : Word} (after : Word) {s : Machine}
    (hrsp : s.register .rsp = a + BitVec.ofNat 64 200) :
    Pushed a after s (ps4AssemblerRegisterParameterPush (called after s)) := by
  obtain ⟨v, m, hlow, hrax, hregisters, hvector, hm, heq⟩ := push_eq after hrsp
  have houter : ∀ x, 192 ≤ (x - a).toNat ∨ (x - a).toNat < 16 → 8 ≤ (x - a).toNat →
      putWord (saveAll v a places.reverse m) a after x = m x := by
    intro x hx hx'
    rw [putWord_outside fun hin => absurd hin (by unfold Inside; omega),
      saveAll_outside fun hin => by have hb := atSlot_places_reverse hin; omega]
  have hsaved : Saved a s.toView (putWord (saveAll v a places.reverse m) a after) := by
    constructor
    · have hkeep : ∀ x, Inside (a + BitVec.ofNat 64 8) 8 x →
          putWord (saveAll v a places.reverse m) a after x = m x := by
        intro x hx
        have hb := inside_word (by omega) hx
        exact houter x (.inr hb.2) hb.1
      rw [wordAt_congr hkeep, hm, wordAt_putWord]
    · have hheld : Holds (saveAll v a places.reverse m) a places v :=
        (holds_saveAll separate_places).perm fun p hp => List.mem_reverse.mpr hp
      have hview := hheld.view fun p hp => (bytes_places hregisters hvector p hp).symm
      refine hview.congr fun x hx => putWord_outside fun hin => ?_
      have hb := atSlot_places hx
      unfold Inside at hin
      omega
  rw [heq]
  refine ⟨rfl, ?_, fun reg h h' => ?_, hsaved, fun x hx => ?_⟩
  · rw [View.popped, View.register_set, hlow]
    rfl
  · exact (View.register_set_of_ne h).trans (hregisters reg h h')
  · refine (houter x (.inl (by omega)) (by omega)).trans ?_
    rw [hm, putWord_outside, putWord_outside]
    · exact fun hin => by have hb := inside_word (by omega) hin; omega
    · exact fun hin => by have hb := inside_word (by omega) hin; omega

structure Popped (a after : Word) (w : View) (s : Machine) (r : Word × Machine) : Prop where
  target : r.1 = after
  rsp : r.2.register .rsp = a + BitVec.ofNat 64 200
  rax : r.2.register .rax = w.register .rax
  parameters : ∀ slot ∈ slots places, r.2.bytes slot = w.bytes slot
  registers : ∀ reg, reg ≠ .rsp → reg ≠ .rax → .register reg ∉ slots places →
    r.2.register reg = s.register reg
  memory : ∀ x, 200 ≤ (x - a).toNat → r.2.memory x = s.memory x

/-- The machine when the pop has loaded the registers behind `%rax`. -/
theorem pop_loads {a after : Word} {s : Machine} (hrsp : s.register .rsp = a + BitVec.ofNat 64 8) :
    performAll ([.load 0 .rsp .rax] ++ places.map (Slot.loadFrom .rsp)) (called after s) =
      ⟨loadAll (putWord s.memory a after) a places (s.pushed.set .rax after),
        putWord s.memory a after⟩ := by
  have hpushed : s.pushed.register .rsp = a := by
    rw [View.pushed, View.register_set, hrsp]
    exact BitVec.add_sub_cancel _ _
  have hset : (s.pushed.set .rax after).register .rsp = a :=
    (View.register_set_of_ne (by decide)).trans hpushed
  have hfirst : performAll [.load 0 .rsp .rax] (called after s) =
      ⟨s.pushed.set .rax after, putWord s.memory a after⟩ := by
    simp only [performAll, List.foldl_cons, List.foldl_nil, perform, called, View.operand, hpushed,
      BitVec.add_zero, wordAt_putWord]
  rw [performAll_append, hfirst, performAll_loads (by decide), hset]

theorem pop_eq {a : Word} (after : Word) {w : View} {s : Machine}
    (hrsp : s.register .rsp = a + BitVec.ofNat 64 8) (hs : Saved a w (putWord s.memory a after)) :
    ps4AssemblerRegisterParameterPop (called after s) =
      (after, ⟨((((loadAll (putWord s.memory a after) a places (s.pushed.set .rax after)).set .rax
        (w.register .rax)).set .rsp (a + BitVec.ofNat 64 192)).compared (a.toInt + 192) 0).popped,
        putWord (putWord s.memory a after) (a + BitVec.ofNat 64 192) after⟩) := by
  generalize hv : loadAll (putWord s.memory a after) a places (s.pushed.set .rax after) = v
  have hlow : v.register .rsp = a := by
    rw [← hv, loadAll_register (by decide), View.register_set_of_ne (by decide), View.pushed,
      View.register_set, hrsp]
    exact BitVec.add_sub_cancel _ _
  have hrax : v.register .rax = after := by
    rw [← hv, loadAll_register (by decide), View.register_set]
  have hload : wordAt (putWord (putWord s.memory a after) (a + BitVec.ofNat 64 192) after)
      (a + BitVec.ofNat 64 8) = w.register .rax := by
    rw [wordAt_putWord_apart (apart_offsets (.inl (by omega)) (by omega) (by omega)), hs.rax]
  have hset : (v.set .rax (w.register .rax)).register .rsp = a :=
    (View.register_set_of_ne (by decide)).trans hlow
  rw [ps4AssemblerRegisterParameterPop, performAll_append, pop_loads hrsp, hv]
  simp only [performAll, List.foldl_cons, List.foldl_nil, perform, View.operand, hlow, hrax, hload,
    hset, returned, View.compared, View.register_set, wordAt_putWord]
  rfl

theorem pop_called {a : Word} (after : Word) {w : View} {s : Machine}
    (hrsp : s.register .rsp = a + BitVec.ofNat 64 8) (hs : Saved a w s.memory) :
    Popped a after w s (ps4AssemblerRegisterParameterPop (called after s)) := by
  have hsaved : Saved a w (putWord s.memory a after) :=
    hs.congr fun x hx _ => putWord_outside fun hin => by unfold Inside at hin; omega
  rw [pop_eq after hrsp hsaved]
  generalize hv : loadAll (putWord s.memory a after) a places (s.pushed.set .rax after) = v
  have hothers : ∀ slot ∈ slots places, slot ≠ .register .rsp ∧ slot ≠ .register .rax := by decide
  have htop : ((v.set .rax (w.register .rax)).set .rsp (a + BitVec.ofNat 64 192)).register .rsp =
      a + BitVec.ofNat 64 192 := View.register_set
  refine ⟨rfl, ?_, ?_, fun slot hslot => ?_, fun reg h h' hp => ?_, fun x hx => ?_⟩
  · change (View.set _ .rsp (View.register _ .rsp + 8)).register .rsp = _
    rw [View.register_set]
    exact (congrArg (fun r => r + 8) htop).trans (offset_add a 192 8)
  · calc
      _ = ((v.set .rax (w.register .rax)).set .rsp (a + BitVec.ofNat 64 192)).register .rax :=
        View.register_set_of_ne (by decide)
      _ = w.register .rax := by rw [View.register_set_of_ne (by decide), View.register_set]
  · obtain ⟨hne, hne'⟩ := hothers slot hslot
    calc
      _ = ((v.set .rax (w.register .rax)).set .rsp (a + BitVec.ofNat 64 192)).bytes slot := by
        refine (View.bytes_set_of_ne hne).trans ?_
        cases slot <;> rfl
      _ = v.bytes slot := by rw [View.bytes_set_of_ne hne, View.bytes_set_of_ne hne']
      _ = w.bytes slot := by
        rw [← hv]
        exact loadAll_of_holds hsaved.rest nodup_places hslot
  · calc
      _ = ((v.set .rax (w.register .rax)).set .rsp (a + BitVec.ofNat 64 192)).register reg :=
        View.register_set_of_ne h
      _ = v.register reg := by rw [View.register_set_of_ne h, View.register_set_of_ne h']
      _ = s.register reg := by
        rw [← hv, loadAll_register hp, View.register_set_of_ne h', View.pushed,
          View.register_set_of_ne h]
  · change putWord (putWord s.memory a after) (a + BitVec.ofNat 64 192) after x = _
    rw [putWord_outside, putWord_outside]
    · exact fun hin => by unfold Inside at hin; omega
    · exact fun hin => by have hb := inside_word (by omega) hin; omega

/-- The stack pointer, the parameters and the lowest bytes of the stack are as they were. -/
structure Agree (n : ℕ) (s s' : Machine) : Prop where
  rsp : s'.register .rsp = s.register .rsp
  rax : s'.register .rax = s.register .rax
  parameters : ∀ slot ∈ slots places, s'.bytes slot = s.bytes slot
  stack : ∀ x, Inside (s.register .rsp) n x → s'.memory x = s.memory x

theorem Agree.symm {n : ℕ} {s s' : Machine} (h : Agree n s s') : Agree n s' s where
  rsp := h.rsp.symm
  rax := h.rax.symm
  parameters slot hs := (h.parameters slot hs).symm
  stack x hx := (h.stack x (by rwa [← h.rsp])).symm

theorem Agree.trans {n : ℕ} {s s' s'' : Machine} (h : Agree n s s') (h' : Agree n s' s'') :
    Agree n s s'' where
  rsp := h'.rsp.trans h.rsp
  rax := h'.rax.trans h.rax
  parameters slot hs := (h'.parameters slot hs).trans (h.parameters slot hs)
  stack x hx := (h'.stack x (by rwa [h.rsp])).trans (h.stack x hx)

/-- No parameter is in `%r11`. -/
theorem agree_of_registers {n : ℕ} {s : Machine} {v : View}
    (hregister : ∀ r, r ≠ .r11 → v.register r = s.register r) (hvector : v.vector = s.vector) :
    Agree n s ⟨v, s.memory⟩ := by
  refine ⟨hregister _ (by decide), hregister _ (by decide), fun slot hslot => ?_, fun _ _ => rfl⟩
  have hother : ∀ slot ∈ slots places, slot ≠ .register .r11 := by decide
  cases slot with
  | register r =>
    change wordBytes 8 (v.register r).toNat = _
    rw [hregister r fun hr => hother _ hslot (hr ▸ rfl)]
    rfl
  | vector i =>
    change wordBytes 16 (v.vector i).toNat = _
    rw [hvector]
    rfl

/-- A function that was called between the push and the pop left the stack above its return address
alone: then the pop gives everything back. -/
theorem pop_agree {n : ℕ} (hn : 200 + n ≤ 2 ^ 64) {a after : Word} {s r : Machine}
    {p : Word × Machine} (ha : s.register .rsp = a + BitVec.ofNat 64 200)
    (hpush : Pushed a after s p)
    (hrsp : r.register .rsp = a + BitVec.ofNat 64 8)
    (hmemory : ∀ x, 8 ≤ (x - a).toNat → (x - a).toNat < 200 + n → r.memory x = p.2.memory x)
    (after' : Word) :
    (ps4AssemblerRegisterParameterPop (called after' r)).1 = after' ∧
      Agree n s (ps4AssemblerRegisterParameterPop (called after' r)).2 ∧
      (ps4AssemblerRegisterParameterPop (called after' r)).2.register .r11 = r.register .r11 := by
  have hsaved : Saved a s.toView r.memory :=
    hpush.saved.congr fun x hx hx' => hmemory x hx (by omega)
  have hpop := pop_called after' hrsp hsaved
  refine ⟨hpop.target, ⟨?_, hpop.rax, hpop.parameters, fun x hx => ?_⟩, ?_⟩
  · rw [ha, hpop.rsp]
  · rw [ha, inside_offset (i := 200) (by omega)] at hx
    rw [hpop.memory x hx.1, hmemory x (by omega) hx.2, hpush.memory x hx.1]
  · exact hpop.registers .r11 (by decide) (by decide) (by decide)

end Ps4Sdk.RegisterParameters
