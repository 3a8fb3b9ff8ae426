import Ps4Sdk.AssemblyMachines
import Mathlib.Data.List.Pairwise

/-!
# Rules for assembly code

What is known of the memory is a reference memory and the addresses at which the real one
agrees with it. Those addresses are among what the thread keeps to itself, so that other
threads leave the knowledge alone. Each instruction has a rule; lists of stores and loads
of several registers have one rule each.
-/

namespace Ps4Sdk.AssemblyMachines
open ByteMemory

variable {L : Type} {m m' m₀ : Bytes} {a b : Word}

/-! ### Values in memory -/

private theorem write_inside {bs : List (BitVec 8)} {x : Word} (h : Inside a bs.length x) :
    write m a bs x = write m' a bs x := by
  unfold write
  rw [List.getElem?_eq_getElem h]
  rfl

private theorem cellsAt_write_self (bs : List (BitVec 8)) (h : bs.length ≤ 16) :
    cellsAt (write m a bs) a bs.length = bs :=
  cellsAt_write m a bs (by omega)

theorem wordAt_congr (h : ∀ x, Inside a 8 x → m' x = m x) : wordAt m' a = wordAt m a := by
  rw [wordAt, wordAt, cellsAt_congr h]

@[simp] theorem wordAt_putWord (m : Bytes) (a w : Word) : wordAt (putWord m a w) a = w := by
  have hc := cellsAt_write m a (wordBytes 8 w.toNat) (by simp)
  rw [length_wordBytes] at hc
  rw [wordAt, putWord, hc, bytesValue_wordBytes]
  apply BitVec.eq_of_toNat_eq
  have hlt := w.isLt
  rw [BitVec.toNat_ofNat]
  omega

theorem putWord_outside {w x : Word} (h : ¬Inside a 8 x) : putWord m a w x = m x :=
  write_outside m (by simpa using h)

theorem wordAt_putWord_apart {w : Word} (h : Apart b 8 a 8) :
    wordAt (putWord m a w) b = wordAt m b :=
  wordAt_congr (fun x hx => putWord_outside (h x hx))

/-! ### Offsets -/

theorem inside_offset {i n : ℕ} {x : Word} (h : i + n ≤ 2 ^ 64) :
    Inside (a + BitVec.ofNat 64 i) n x ↔ i ≤ (x - a).toNat ∧ (x - a).toNat < i + n := by
  have hlt := (x - a).isLt
  unfold Inside
  rw [toNat_sub_add a x (by omega)]
  split_ifs <;> omega

theorem offset_add (a : Word) (i j : ℕ) :
    a + BitVec.ofNat 64 i + BitVec.ofNat 64 j = a + BitVec.ofNat 64 (i + j) := by
  rw [BitVec.add_assoc, ← BitVec.ofNat_add]

theorem offset_sub (a : Word) {i j : ℕ} (h : j ≤ i) :
    a + BitVec.ofNat 64 i - BitVec.ofNat 64 j = a + BitVec.ofNat 64 (i - j) := by
  rw [BitVec.sub_eq_iff_eq_add, offset_add, Nat.sub_add_cancel h]

/-! ### Registers as slots -/

namespace View
variable {v : View} {r r' : Register} {w : Word} {i : Fin 8} {x : BitVec 128}

@[simp] theorem register_set : (v.set r w).register r = w := Function.update_self ..

theorem register_set_of_ne (h : r' ≠ r) : (v.set r w).register r' = v.register r' :=
  Function.update_of_ne h ..

@[simp] theorem vector_setVector : (v.setVector i x).vector i = x := Function.update_self ..

end View

inductive Slot
  | register (r : Register)
  | vector (i : Fin 8)
  deriving DecidableEq

def Slot.size : Slot → ℕ
  | .register _ => 8
  | .vector _ => 16

def Slot.storeTo (base : Register) (p : Slot × ℕ) : Instruction L :=
  match p.1 with
  | .register r => .store r p.2 base
  | .vector i => .storeVector i p.2 base

def Slot.loadFrom (base : Register) (p : Slot × ℕ) : Instruction L :=
  match p.1 with
  | .register r => .load p.2 base r
  | .vector i => .loadVector p.2 base i

namespace View
variable {v v' : View} {s s' : Slot}

def bytes (v : View) : Slot → List (BitVec 8)
  | .register r => wordBytes 8 (v.register r).toNat
  | .vector i => wordBytes 16 (v.vector i).toNat

def assign (v : View) : Slot → List (BitVec 8) → View
  | .register r, bs => v.set r (BitVec.ofNat 64 (bytesValue bs))
  | .vector i, bs => v.setVector i (BitVec.ofNat 128 (bytesValue bs))

@[simp] theorem length_bytes (v : View) (s : Slot) : (v.bytes s).length = s.size := by
  cases s <;> simp [bytes, Slot.size]

theorem bytes_assign {bs : List (BitVec 8)} (h : bs.length = s.size) :
    (v.assign s bs).bytes s = bs := by
  cases s with
  | register r =>
    have hlt := bytesValue_lt bs
    rw [h, Slot.size] at hlt
    rw [assign, bytes, register_set, BitVec.toNat_ofNat, Nat.mod_eq_of_lt (by simpa using hlt)]
    conv_lhs => rw [show (8 : ℕ) = bs.length from h.symm]
    exact wordBytes_bytesValue bs
  | vector i =>
    have hlt := bytesValue_lt bs
    rw [h, Slot.size] at hlt
    rw [assign, bytes, vector_setVector, BitVec.toNat_ofNat, Nat.mod_eq_of_lt (by simpa using hlt)]
    conv_lhs => rw [show (16 : ℕ) = bs.length from h.symm]
    exact wordBytes_bytesValue bs

theorem bytes_assign_of_ne {bs : List (BitVec 8)} (h : s' ≠ s) :
    (v.assign s bs).bytes s' = v.bytes s' := by
  cases s with
  | register r =>
    cases s' with
    | register r' =>
      have hne : r' ≠ r := fun he => h (he ▸ rfl)
      simp [assign, bytes, set, Function.update_of_ne hne]
    | vector i => rfl
  | vector i =>
    cases s' with
    | register r => rfl
    | vector i' =>
      have hne : i' ≠ i := fun he => h (he ▸ rfl)
      simp [assign, bytes, setVector, Function.update_of_ne hne]

theorem bytes_set_of_ne {r : Register} {w : Word} (h : s ≠ .register r) :
    (v.set r w).bytes s = v.bytes s := by
  cases s with
  | register r' =>
    have hne : r' ≠ r := fun he => h (he ▸ rfl)
    rw [bytes, bytes, register_set_of_ne hne]
  | vector i => rfl

theorem register_of_bytes {r : Register} (h : v.bytes (.register r) = v'.bytes (.register r)) :
    v.register r = v'.register r := by
  have hvalue := congrArg bytesValue h
  simp only [bytes, bytesValue_wordBytes] at hvalue
  have hlt := (v.register r).isLt
  have hlt' := (v'.register r).isLt
  apply BitVec.eq_of_toNat_eq
  omega

theorem vector_of_bytes {i : Fin 8} (h : v.bytes (.vector i) = v'.bytes (.vector i)) :
    v.vector i = v'.vector i := by
  have hvalue := congrArg bytesValue h
  simp only [bytes, bytesValue_wordBytes] at hvalue
  have hlt := (v.vector i).isLt
  have hlt' := (v'.vector i).isLt
  apply BitVec.eq_of_toNat_eq
  omega

end View

/-! ### Layouts -/

def Separate (l : List (Slot × ℕ)) : Prop :=
  l.Pairwise (fun p q => p.2 + p.1.size ≤ q.2 ∨ q.2 + q.1.size ≤ p.2) ∧ ∀ p ∈ l, p.2 ≤ 1024

instance (l : List (Slot × ℕ)) : Decidable (Separate l) := by
  unfold Separate
  infer_instance

/-- The block holds the registers. -/
def Holds (m : Bytes) (a : Word) (l : List (Slot × ℕ)) (v : View) : Prop :=
  ∀ p ∈ l, cellsAt m (a + BitVec.ofNat 64 p.2) p.1.size = v.bytes p.1

def saveAll (v : View) (a : Word) (l : List (Slot × ℕ)) (m : Bytes) : Bytes :=
  l.foldl (fun m p => write m (a + BitVec.ofNat 64 p.2) (v.bytes p.1)) m

def loadAll (m : Bytes) (a : Word) (l : List (Slot × ℕ)) (v : View) : View :=
  l.foldl (fun v p => v.assign p.1 (cellsAt m (a + BitVec.ofNat 64 p.2) p.1.size)) v

def AtSlot (a : Word) (l : List (Slot × ℕ)) (x : Word) : Prop :=
  ∃ p ∈ l, Inside (a + BitVec.ofNat 64 p.2) p.1.size x

section
variable {v w : View} {l : List (Slot × ℕ)}

private theorem slot_size_le (s : Slot) : s.size ≤ 16 := by cases s <;> simp [Slot.size]

theorem apart_offsets {i n j k : ℕ} (h : i + n ≤ j ∨ j + k ≤ i) (hi : i + n ≤ 2 ^ 64)
    (hj : j + k ≤ 2 ^ 64) :
    Apart (a + BitVec.ofNat 64 i) n (a + BitVec.ofNat 64 j) k := by
  intro x hx hx'
  rw [inside_offset hi] at hx
  rw [inside_offset hj] at hx'
  omega

theorem saveAll_outside {x : Word} (h : ¬AtSlot a l x) : saveAll v a l m x = m x := by
  induction l generalizing m with
  | nil => rfl
  | cons p l ih =>
    have hrest : ¬AtSlot a l x := by
      rintro ⟨q, hq, hx⟩
      exact h ⟨q, List.mem_cons_of_mem _ hq, hx⟩
    rw [saveAll, List.foldl_cons]
    refine (ih hrest).trans (write_outside m ?_)
    intro hx
    exact h ⟨p, List.mem_cons_self, by simpa using hx⟩

theorem Separate.tail {p : Slot × ℕ} (h : Separate (p :: l)) : Separate l :=
  ⟨(List.pairwise_cons.mp h.1).2, fun q hq => h.2 q (List.mem_cons_of_mem _ hq)⟩

theorem holds_saveAll (h : Separate l) : Holds (saveAll v a l m) a l v := by
  induction l generalizing m with
  | nil =>
    intro p hp
    cases hp
  | cons p l ih =>
    intro q hq
    rcases List.mem_cons.mp hq with rfl | hq
    · have hkeep : ∀ x, Inside (a + BitVec.ofNat 64 q.2) q.1.size x →
          saveAll v a l (write m (a + BitVec.ofNat 64 q.2) (v.bytes q.1)) x =
            write m (a + BitVec.ofNat 64 q.2) (v.bytes q.1) x := by
        intro x hx
        refine saveAll_outside ?_
        rintro ⟨r, hr, hx'⟩
        have hsize := slot_size_le q.1
        have hsize' := slot_size_le r.1
        have hoffset := h.2 q hq
        have hoffset' := h.2 r (List.mem_cons_of_mem _ hr)
        exact apart_offsets ((List.pairwise_cons.mp h.1).1 r hr) (by omega) (by omega) x hx hx'
      rw [saveAll, List.foldl_cons]
      refine (cellsAt_congr hkeep).trans ?_
      have hself := cellsAt_write_self (m := m) (a := a + BitVec.ofNat 64 q.2) (v.bytes q.1)
        (by simpa using slot_size_le q.1)
      rwa [View.length_bytes] at hself
    · exact ih h.tail q hq

theorem Holds.congr (h : Holds m a l v) (hm : ∀ x, AtSlot a l x → m' x = m x) : Holds m' a l v := by
  intro p hp
  rw [cellsAt_congr (fun x hx => hm x ⟨p, hp, hx⟩)]
  exact h p hp

theorem Holds.perm {l' : List (Slot × ℕ)} (h : Holds m a l v) (hl : ∀ p ∈ l', p ∈ l) :
    Holds m a l' v :=
  fun p hp => h p (hl p hp)

theorem Holds.view (h : Holds m a l v) (hw : ∀ p ∈ l, w.bytes p.1 = v.bytes p.1) : Holds m a l w :=
  fun p hp => (h p hp).trans (hw p hp).symm

def slots (l : List (Slot × ℕ)) : List Slot := l.map Prod.fst

theorem loadAll_of_notMem {s : Slot} (h : s ∉ slots l) : (loadAll m a l v).bytes s = v.bytes s := by
  induction l generalizing v with
  | nil => rfl
  | cons p l ih =>
    rw [slots, List.map_cons, List.mem_cons, not_or] at h
    rw [loadAll, List.foldl_cons]
    exact (ih h.2).trans (View.bytes_assign_of_ne h.1)

theorem loadAll_of_holds (h : Holds m a l w) (hl : (slots l).Nodup) {s : Slot} (hs : s ∈ slots l) :
    (loadAll m a l v).bytes s = w.bytes s := by
  induction l generalizing v with
  | nil => cases hs
  | cons p l ih =>
    rw [slots, List.map_cons, List.nodup_cons] at hl
    rw [loadAll, List.foldl_cons]
    by_cases hmem : s ∈ slots l
    · exact ih (h.perm (fun q hq => List.mem_cons_of_mem _ hq)) hl.2 hmem
    · rw [slots, List.map_cons, List.mem_cons] at hs
      have hsp : s = p.1 := hs.resolve_right hmem
      refine (loadAll_of_notMem hmem).trans ?_
      rw [hsp, View.bytes_assign (by simp), h p List.mem_cons_self]

theorem loadAll_flags : (loadAll m a l v).flags = v.flags ∧
    (loadAll m a l v).thread = v.thread := by
  induction l generalizing v with
  | nil => exact ⟨rfl, rfl⟩
  | cons p l ih =>
    rw [loadAll, List.foldl_cons]
    obtain ⟨hf, ht⟩ := ih (v := v.assign p.1 (cellsAt m (a + BitVec.ofNat 64 p.2) p.1.size))
    refine ⟨hf.trans ?_, ht.trans ?_⟩ <;> cases p.1 <;> rfl

theorem loadAll_register {r : Register} (h : .register r ∉ slots l) :
    (loadAll m a l v).register r = v.register r :=
  View.register_of_bytes (loadAll_of_notMem h)

end

/-! ### Runs -/

/-- What the thread keeps to itself: the listed ranges, and its stack from the stack pointer up. -/
def Kept (top : Word) (kept : List Range) (v : View) (x : Word) : Prop :=
  (∃ r ∈ kept, Inside r.1 r.2 x) ∨ Inside (v.register .rsp) (top - v.register .rsp).toNat x

/-- Other threads leave what the thread keeps alone. -/
def Environment.Quiet (env : Environment L) : Prop :=
  ∀ t kept s x, Kept env.top kept s.toView x → env.others t kept s x = s.memory x

/-- What a condition says about the compared numbers. -/
def Condition.Holds : Condition → ℤ → ℤ → Prop
  | .zero, x, y => x = y
  | .nonzero, x, y => x ≠ y
  | .greater, x, y => y < x
  | .less, x, y => x < y

theorem holds_compare (c : Condition) (x y : ℤ) : c.holds (compare x y) = true ↔ c.Holds x y := by
  cases c <;> simp [Condition.holds, Condition.Holds, compare_gt_iff_gt, compare_lt_iff_lt]

def Leads (env : Environment L) (c : Config L) (Q : Config L → Prop) : Prop :=
  ∃ n, Q (env.step^[n] c)

def Agrees (S : Word → Prop) (m₀ m : Bytes) : Prop := ∀ x, S x → m x = m₀ x

def Covers (S : Word → Prop) (a : Word) (n : ℕ) : Prop := ∀ x, Inside a n x → S x

/-- From a list of instructions with these registers, and a memory known at some addresses of those
that the thread keeps, the execution comes to such a configuration. -/
def Goes (env : Environment L) (kept : List Range) (calls : List (Called L)) (Q : Config L → Prop)
    (is : List (Instruction L)) (v : View) (S : Word → Prop) (m₀ : Bytes) : Prop :=
  (∀ x, S x → Kept env.top kept v x) → ∀ m t, Agrees S m₀ m →
  Leads env ⟨.inside is, ⟨v, m⟩, kept, t, calls⟩ Q

theorem Leads.step {env : Environment L} {c : Config L} {Q : Config L → Prop}
    (h : Leads env (env.step c) Q) :
    Leads env c Q := by
  obtain ⟨n, hn⟩ := h
  exact ⟨n + 1, hn⟩

theorem Leads.here {env : Environment L} {c : Config L} {Q : Config L → Prop} (h : Q c) :
    Leads env c Q := ⟨0, h⟩

theorem kept_offset {top : Word} {kept : List Range} {v : View} {x : Word} {k e : ℕ}
    (htop : top = a + BitVec.ofNat 64 e) (he : e < 2 ^ 64)
    (hrsp : v.register .rsp = a + BitVec.ofNat 64 k) (hk : k ≤ e) :
    Kept top kept v x ↔ (∃ r ∈ kept, Inside r.1 r.2 x) ∨ k ≤ (x - a).toNat ∧ (x - a).toNat < e := by
  have hlength : (a + BitVec.ofNat 64 e - (a + BitVec.ofNat 64 k)).toNat = e - k := by
    rw [toNat_sub_add a _ (by omega), toNat_add_sub, Nat.mod_eq_of_lt he, if_pos hk]
  rw [Kept, htop, hrsp, hlength, inside_offset (by omega), Nat.add_sub_cancel' hk]

theorem Kept.congr {top : Word} {kept : List Range} {v v' : View} {x : Word} (h : Kept top kept v x)
    (hrsp : v'.register .rsp = v.register .rsp) : Kept top kept v' x := by
  unfold Kept
  rw [hrsp]
  exact h

theorem after_steps {env : Environment L} {D : Config L → Prop} {c : Config L} {k n : ℕ}
    (hk : ∀ j < k, ¬D (env.step^[j] c)) (hn : D (env.step^[n] c)) : k ≤ n ∧
    D (env.step^[n - k] (env.step^[k] c)) := by
  have hle : k ≤ n := by
    by_contra hlt
    exact hk n (by omega) hn
  rw [← Function.iterate_add_apply, Nat.sub_add_cancel hle]
  exact ⟨hle, hn⟩

theorem Leads.steps {env : Environment L} {c : Config L} {Q : Config L → Prop} {k : ℕ}
    (h : Leads env (env.step^[k] c) Q) :
    Leads env c Q := by
  obtain ⟨n, hn⟩ := h
  rw [← Function.iterate_add_apply] at hn
  exact ⟨n + k, hn⟩

/-- From a loop that is passed in some steps and is left at some time, the execution comes to where
it is left. -/
theorem leads_of_left {env : Environment L} {P D Q : Config L → Prop}
    (hpass : ∀ c, P c → Leads env c Q ∨ ∃ k, 0 < k ∧ (∀ j < k, ¬D (env.step^[j] c)) ∧
      P (env.step^[k] c))
    {c : Config L} (hc : P c) {n : ℕ} (hn : D (env.step^[n] c)) : Leads env c Q := by
  induction n using Nat.strong_induction_on generalizing c with
  | _ n ih =>
    rcases hpass c hc with hleads | ⟨k, hk, hstays, hP⟩
    · exact hleads
    · obtain ⟨hle, hrest⟩ := after_steps hstays hn
      exact (ih (n - k) (by omega) hP hrest).steps

section
variable {S S' : Word → Prop}

theorem Agrees.word (h : Agrees S m₀ m) (hc : Covers S a 8) : wordAt m a = wordAt m₀ a :=
  wordAt_congr (fun x hx => h x (hc x hx))

theorem Agrees.cells (h : Agrees S m₀ m) {n : ℕ} (hc : Covers S a n) :
    cellsAt m a n = cellsAt m₀ a n :=
  cellsAt_congr (fun x hx => h x (hc x hx))

theorem Agrees.mono (h : Agrees S m₀ m) (hS : ∀ x, S' x → S x) : Agrees S' m₀ m :=
  fun x hx => h x (hS x hx)

theorem Agrees.write (h : Agrees S m₀ m) {bs : List (BitVec 8)} {n : ℕ} (hn : bs.length = n) :
    Agrees (fun x => S x ∨ Inside a n x) (write m₀ a bs) (write m a bs) := by
  intro x hx
  by_cases hi : Inside a bs.length x
  · exact write_inside hi
  · rw [write_outside m hi, write_outside m₀ hi]
    rcases hx with hx | hx
    · exact h x hx
    · rw [hn] at hi
      exact absurd hx hi

theorem Agrees.put_more (h : Agrees S m₀ m) {w : Word} :
    Agrees (fun x => S x ∨ Inside a 8 x) (putWord m₀ a w) (putWord m a w) :=
  h.write (length_wordBytes 8 w.toNat)

theorem Agrees.put_elsewhere (h : Agrees S m₀ m) {w : Word} (ha : ∀ x, Inside a 8 x → ¬S x) :
    Agrees S m₀ (putWord m a w) := by
  intro x hx
  rw [putWord_outside (fun hi => ha x hi hx)]
  exact h x hx

end

section
variable {env : Environment L} {kept : List Range} {calls : List (Called L)} {Q : Config L → Prop}
  {i : Instruction L} {rest : List (Instruction L)} {v v' : View} {S S' : Word → Prop} {m₀' : Bytes}

def Instruction.straight : Instruction L → Bool
  | .jump _ | .jumpIf _ _ | .jumpMemory _ _ | .call _ | .callMemory _ _ | .ret => false
  | _ => true

theorem step_straight {s : Machine} {t : ℕ} (hi : i.straight = true) :
    env.step ⟨.inside (i :: rest), s, kept, t, calls⟩ =
      ⟨.inside rest, perform i s.toView (env.others t kept s), kept, t + 1, calls⟩ := by
  cases i <;> first | rfl | cases hi

theorem perform_storeTo (p : Slot × ℕ) (base : Register) (m : Bytes) :
    perform (Slot.storeTo base p : Instruction L) v m =
      ⟨v, write m (v.register base + BitVec.ofNat 64 p.2) (v.bytes p.1)⟩ := by
  obtain ⟨s, offset⟩ := p
  cases s <;> rfl

theorem perform_loadFrom (p : Slot × ℕ) (base : Register) (m : Bytes) :
    perform (Slot.loadFrom base p : Instruction L) v m =
      ⟨v.assign p.1 (cellsAt m (v.register base + BitVec.ofNat 64 p.2) p.1.size), m⟩ := by
  obtain ⟨s, offset⟩ := p
  cases s <;> rfl

theorem Goes.mono (h : Goes env kept calls Q rest v S' m₀) (hS : ∀ x, S' x → S x) :
    Goes env kept calls Q rest v S m₀ :=
  fun hkept m t hm => h (fun x hx => hkept x (hS x hx)) m t (hm.mono hS)

theorem Goes.memory (h : Goes env kept calls Q rest v S m₀') (hm : Agrees S m₀ m₀') :
    Goes env kept calls Q rest v S m₀ :=
  fun hkept m t hagrees => h hkept m t (fun x hx => (hagrees x hx).trans (hm x hx).symm)

theorem leads_enter {control : Control L} {s : Machine} {t : ℕ} {target : Word} {entered : Machine}
    (he : entered = ⟨v.pushed, putWord m (v.pushed.register .rsp) (env.address rest)⟩)
    {kept' : List Range}
    (hkept' : (env.callee t kept target entered).2 = kept')
    (hkept : ∀ x, S x → Kept env.top kept' (env.callee t kept target entered).1.toView x)
    (hm : Agrees S m₀ (env.callee t kept target entered).1.memory)
    (h : Goes env kept' (calls ++ [⟨i, target, entered, (env.callee t kept target entered).1⟩]) Q
      rest (env.callee t kept target entered).1.toView S m₀) :
    Leads env (env.enter ⟨control, s, kept, t, calls⟩ i rest target v m) Q := by
  subst he hkept'
  exact h hkept _ (t + 1) hm

variable (hq : env.Quiet)
include hq

theorem agrees_others {t : ℕ} (hkept : ∀ x, S x → Kept env.top kept v x) (hm : Agrees S m₀ m) :
    Agrees S m₀ (env.others t kept ⟨v, m⟩) :=
  fun x hx => (hq t kept ⟨v, m⟩ x (hkept x hx)).trans (hm x hx)

theorem goes_perform (hi : i.straight = true)
    (h : (∀ x, S x → Kept env.top kept v x) → ∀ m, Agrees S m₀ m → ∃ S' m₀',
      (∀ x, S' x → Kept env.top kept (perform i v m).toView x) ∧
      Agrees S' m₀' (perform i v m).memory ∧
        Goes env kept calls Q rest (perform i v m).toView S' m₀') :
        Goes env kept calls Q (i :: rest) v S m₀ := by
  intro hkept m t hm
  obtain ⟨S', m₀', hkept', hm', hgoes⟩ := h hkept _ (agrees_others hq hkept hm)
  refine Leads.step ?_
  rw [step_straight hi]
  exact hgoes hkept' _ (t + 1) hm'

theorem goes_registers (hi : i.straight = true) (hv : ∀ m, perform i v m = ⟨v', m⟩)
    (hrsp : v'.register .rsp = v.register .rsp) (h : Goes env kept calls Q rest v' S m₀) :
    Goes env kept calls Q (i :: rest) v S m₀ := by
  refine goes_perform hq hi (fun hkept m hm => ⟨S, m₀, ?_, ?_, ?_⟩)
  · rw [hv]
    exact fun x hx => (hkept x hx).congr hrsp
  · rw [hv]
    exact hm
  · rw [hv]
    exact h

/-- An instruction that moves the stack pointer, by which some knowledge may be given up. -/
theorem goes_restack (v' : View) (S' : Word → Prop) (hi : i.straight = true)
    (hv : ∀ m, Agrees S m₀ m → perform i v m = ⟨v', m⟩) (hS : ∀ x, S' x → S x)
    (hkept : (∀ x, S x → Kept env.top kept v x) → ∀ x, S' x → Kept env.top kept v' x)
    (h : Goes env kept calls Q rest v' S' m₀) : Goes env kept calls Q (i :: rest) v S m₀ := by
  refine goes_perform hq hi (fun hk m hm => ⟨S', m₀, ?_, ?_, ?_⟩)
  · rw [hv m hm]
    exact hkept hk
  · rw [hv m hm]
    exact hm.mono hS
  · rw [hv m hm]
    exact h

theorem goes_load {offset : ℕ} {base r : Register} {w : Word} (hr : r ≠ .rsp)
    (hc : Covers S (v.operand offset base) 8) (hw : wordAt m₀ (v.operand offset base) = w)
    (h : Goes env kept calls Q rest (v.set r w) S m₀) :
    Goes env kept calls Q (.load offset base r :: rest) v S m₀ := by
  refine goes_perform hq rfl (fun hkept m hm => ⟨S, m₀, ?_, hm, ?_⟩)
  · exact fun x hx => (hkept x hx).congr (View.register_set_of_ne (Ne.symm hr))
  · rw [perform, hm.word hc, hw]
    exact h

theorem goes_loadElement {base index r : Register} {w : Word} (hr : r ≠ .rsp)
    (hc : Covers S (v.register base + v.register index * 8) 8)
    (hw : wordAt m₀ (v.register base + v.register index * 8) = w)
    (h : Goes env kept calls Q rest (v.set r w) S m₀) :
    Goes env kept calls Q (.loadElement base index r :: rest) v S m₀ := by
  refine goes_perform hq rfl (fun hkept m hm => ⟨S, m₀, ?_, hm, ?_⟩)
  · exact fun x hx => (hkept x hx).congr (View.register_set_of_ne (Ne.symm hr))
  · rw [perform, hm.word hc, hw]
    exact h

theorem goes_put (a w : Word) (S' : Word → Prop) (hi : i.straight = true)
    (hp : ∀ m, Agrees S m₀ m → perform i v m = ⟨v', putWord m a w⟩)
    (hS : ∀ x, S' x → S x ∨ Inside a 8 x)
    (hkept : (∀ x, S x → Kept env.top kept v x) → ∀ x, S' x → Kept env.top kept v' x)
    (h : Goes env kept calls Q rest v' S' (putWord m₀ a w)) :
    Goes env kept calls Q (i :: rest) v S m₀ := by
  refine goes_perform hq hi (fun hk m hm => ⟨S', putWord m₀ a w, ?_, ?_, ?_⟩)
  · rw [hp m hm]
    exact hkept hk
  · rw [hp m hm]
    exact hm.put_more.mono hS
  · rw [hp m hm]
    exact h

theorem goes_putKnown (a w : Word) (hi : i.straight = true)
    (hp : ∀ m, Agrees S m₀ m → perform i v m = ⟨v', putWord m a w⟩)
    (hrsp : v'.register .rsp = v.register .rsp)
    (h : Goes env kept calls Q rest v' S (putWord m₀ a w)) :
    Goes env kept calls Q (i :: rest) v S m₀ :=
  goes_put hq a w S hi hp (fun _ hx => .inl hx) (fun hk x hx => (hk x hx).congr hrsp) h

theorem goes_shared (offset : ℕ) (base : Register) (hi : i.straight = true)
    (hp : ∀ m, ∃ w, (perform i v m).memory = putWord m (v.operand offset base) w)
    (hrsp : ∀ m, (perform i v m).register .rsp = v.register .rsp)
    (ha : ∀ x, Inside (v.operand offset base) 8 x → ¬S x)
    (h : ∀ m, Goes env kept calls Q rest (perform i v m).toView S m₀) :
    Goes env kept calls Q (i :: rest) v S m₀ := by
  refine goes_perform hq hi (fun hk m hm => ⟨S, m₀, ?_, ?_, h m⟩)
  · exact fun x hx => (hk x hx).congr (hrsp m)
  · obtain ⟨w, hw⟩ := hp m
    rw [hw]
    exact hm.put_elsewhere ha

theorem goes_jump {l : L} (h : Goes env kept calls Q (env.code l) v S m₀) :
    Goes env kept calls Q (.jump l :: rest) v S m₀ :=
  fun hkept _ t hm => Leads.step (h hkept _ (t + 1) (agrees_others hq hkept hm))

theorem goes_jumpIf {c : Condition} {l : L} {x y : ℤ} (hf : v.flags = compare x y)
    (htaken : c.Holds x y → Goes env kept calls Q (env.code l) v S m₀)
    (hrest : ¬c.Holds x y → Goes env kept calls Q rest v S m₀) :
    Goes env kept calls Q (.jumpIf c l :: rest) v S m₀ := by
  have h : Goes env kept calls Q (if c.holds v.flags then env.code l else rest) v S m₀ := by
    rw [hf]
    by_cases hc : c.Holds x y
    · rw [if_pos ((holds_compare c x y).mpr hc)]
      exact htaken hc
    · rw [if_neg (fun h => hc ((holds_compare c x y).mp h))]
      exact hrest hc
  exact fun hkept _ t hm => Leads.step (h hkept _ (t + 1) (agrees_others hq hkept hm))

theorem goes_jumpMemory {offset : ℕ} {base : Register} {l : L}
    (hc : Covers S (v.operand offset base) 8)
    (hl : env.label (wordAt m₀ (v.operand offset base)) = some l)
    (h : Goes env kept calls Q (env.code l) v S m₀) :
    Goes env kept calls Q (.jumpMemory offset base :: rest) v S m₀ := by
  intro hkept m t hm
  have hm' := agrees_others hq hkept hm (t := t)
  refine Leads.step ?_
  change Leads env (Environment.goTo _ (env.target
    (wordAt (env.others t kept ⟨v, m⟩) (v.operand offset base))) _) Q
  rw [hm'.word hc, Environment.target, hl]
  exact h hkept _ (t + 1) hm'

theorem goes_call {r : Register} (h : ∀ m t, Agrees S m₀ m →
      Leads env (env.enter ⟨.inside rest, ⟨v, m⟩, kept, t, calls⟩ (.call r) rest
        (v.register r) v m) Q) :
    Goes env kept calls Q (.call r :: rest) v S m₀ :=
  fun hkept _ t hm => Leads.step (h _ t (agrees_others hq hkept hm))

theorem goes_callMemory {offset : ℕ} {base : Register} {w : Word}
    (hc : Covers S (v.operand offset base) 8) (hw : wordAt m₀ (v.operand offset base) = w)
      (h : ∀ m t, Agrees S m₀ m → Leads env (env.enter ⟨.inside rest, ⟨v, m⟩, kept, t, calls⟩
        (.callMemory offset base) rest w v m) Q) :
    Goes env kept calls Q (.callMemory offset base :: rest) v S m₀ := by
  intro hkept m t hm
  have hm' := agrees_others hq hkept hm (t := t)
  refine Leads.step ?_
  change Leads env (env.enter _ _ _
    (wordAt (env.others t kept ⟨v, m⟩) (v.operand offset base)) _ _) Q
  rw [hm'.word hc, hw]
  exact h _ t hm'

theorem goes_ret (hc : Covers S (v.register .rsp) 8)
    (h : ∀ m t, Agrees S m₀ m →
      Q ⟨.outside (wordAt m₀ (v.register .rsp)), ⟨v.popped, m⟩, kept, t, calls⟩) :
    Goes env kept calls Q (.ret :: rest) v S m₀ := by
  intro hkept m t hm
  have hm' := agrees_others hq hkept hm (t := t)
  refine Leads.step (Leads.here ?_)
  change Q ⟨.outside (wordAt (env.others t kept ⟨v, m⟩) (v.register .rsp)), _, _, _, _⟩
  rw [hm'.word hc]
  exact h _ (t + 1) hm'

/-! ### Several registers -/

theorem goes_saves {base : Register} {l : List (Slot × ℕ)}
    (hl : ∀ x, AtSlot (v.register base) l x → Kept env.top kept v x)
    (h : Goes env kept calls Q rest v (fun x => S x ∨ AtSlot (v.register base) l x)
      (saveAll v (v.register base) l m₀)) :
    Goes env kept calls Q (l.map (Slot.storeTo base) ++ rest) v S m₀ := by
  induction l generalizing S m₀ with
  | nil => exact h.mono (fun x hx => hx.resolve_right (fun ⟨p, hp, _⟩ => by cases hp))
  | cons p l ih =>
    refine goes_perform hq (by cases p with | mk s o => cases s <;> rfl) (fun hkept m hm => ?_)
    rw [perform_storeTo]
    refine ⟨_, _, fun x hx => ?_, hm.write (View.length_bytes v p.1), ?_⟩
    · rcases hx with hx | hx
      · exact hkept x hx
      · exact hl x ⟨p, List.mem_cons_self, hx⟩
    · refine ih (fun x ⟨q, hq, hx⟩ => hl x ⟨q, List.mem_cons_of_mem _ hq, hx⟩)
        (h.mono (fun x hx => ?_))
      rcases hx with hx | ⟨q, hq, hx⟩
      · exact .inl (.inl hx)
      · rcases List.mem_cons.mp hq with rfl | hq
        · exact .inl (.inr hx)
        · exact .inr ⟨q, hq, hx⟩

theorem goes_loads {base : Register} {l : List (Slot × ℕ)}
    (hl : ∀ x, AtSlot (v.register base) l x → S x) (hbase : .register base ∉ slots l)
    (hrsp : .register .rsp ∉ slots l)
    (h : Goes env kept calls Q rest (loadAll m₀ (v.register base) l v) S m₀) :
    Goes env kept calls Q (l.map (Slot.loadFrom base) ++ rest) v S m₀ := by
  induction l generalizing v with
  | nil => exact h
  | cons p l ih =>
    rw [slots, List.map_cons, List.mem_cons, not_or] at hbase hrsp
    have hother : ∀ r bs, .register r ≠ p.1 → (v.assign p.1 bs).register r = v.register r :=
        fun r bs hr =>
      View.register_of_bytes (View.bytes_assign_of_ne hr)
    refine goes_perform hq (by cases p with | mk s o => cases s <;> rfl)
      (fun hkept m hm => ⟨S, m₀, ?_, ?_, ?_⟩)
    · rw [perform_loadFrom]
      exact fun x hx => (hkept x hx).congr (hother _ _ hrsp.1)
    · rw [perform_loadFrom]
      exact hm
    · rw [perform_loadFrom, hm.cells (fun x hx => hl x ⟨p, List.mem_cons_self, hx⟩)]
      refine ih ?_ hbase.2 hrsp.2 ?_
      · rw [hother _ _ hbase.1]
        exact fun x ⟨q, hq, hx⟩ => hl x ⟨q, List.mem_cons_of_mem _ hq, hx⟩
      · rw [hother _ _ hbase.1]
        exact h

end

end Ps4Sdk.AssemblyMachines
