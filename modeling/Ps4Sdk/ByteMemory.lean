import Mathlib.Data.Nat.Notation
import Mathlib.Data.List.Basic
import Mathlib.Data.List.TakeDrop
import Mathlib.Tactic.Common
import Mathlib.Tactic.Ring

/-!
# Memories that are written and read in ranges

A memory gives a cell at each address, and addresses wrap around. A range is a
base and a length; an address lies in it when its distance to the base is below
the length. A write puts a list of cells into the range it starts, and words are
lists of bytes with the low byte first.
-/

namespace Ps4Sdk.ByteMemory

universe u

variable {w : ℕ} {β : Type u}

abbrev Memory (w : ℕ) (β : Type u) := BitVec w → β

def Inside (a : BitVec w) (n : ℕ) (x : BitVec w) : Prop := (x - a).toNat < n

instance (a : BitVec w) (n : ℕ) (x : BitVec w) : Decidable (Inside a n x) :=
  inferInstanceAs (Decidable ((x - a).toNat < n))

def Apart (a : BitVec w) (n : ℕ) (b : BitVec w) (k : ℕ) : Prop := ∀ x, Inside a n x → ¬Inside b k x

def cellsAt (m : Memory w β) (a : BitVec w) (n : ℕ) : List β :=
  (List.range n).map (fun i => m (a + BitVec.ofNat w i))

def write (m : Memory w β) (a : BitVec w) (bs : List β) : Memory w β :=
  fun x => (bs[(x - a).toNat]?).getD (m x)

def copy (m : Memory w β) (source target : BitVec w) (n : ℕ) : Memory w β :=
  write m target (cellsAt m source n)

def fill (m : Memory w β) (a : BitVec w) (n : ℕ) (b : β) : Memory w β :=
  write m a (List.replicate n b)

theorem toNat_add_sub (a : BitVec w) (i : ℕ) : (a + BitVec.ofNat w i - a).toNat = i % 2 ^ w := by
  rw [BitVec.add_comm, BitVec.add_sub_cancel]
  simp

theorem inside_add (a : BitVec w) {i n : ℕ} (h : i < n) : Inside a n (a + BitVec.ofNat w i) := by
  unfold Inside
  rw [toNat_add_sub]
  have hle := Nat.mod_le i (2 ^ w)
  omega

theorem Inside.mono {a x : BitVec w} {n k : ℕ} (h : Inside a n x) (hk : n ≤ k) : Inside a k x :=
  Nat.lt_of_lt_of_le h hk

/-- A range that starts inside another one and does not reach beyond it. -/
theorem Inside.of_add {a x : BitVec w} {i n k : ℕ} (h : Inside (a + BitVec.ofNat w i) n x)
    (hk : i + n ≤ k) : Inside a k x := by
  unfold Inside at h ⊢
  have he : x - a = (x - (a + BitVec.ofNat w i)) + BitVec.ofNat w i := by
    rw [BitVec.sub_eq_iff_eq_add, BitVec.add_assoc, BitVec.add_comm (BitVec.ofNat w i) a,
      BitVec.sub_add_cancel]
  rw [he, BitVec.toNat_add, BitVec.toNat_ofNat]
  have h₁ := Nat.mod_le ((x - (a + BitVec.ofNat w i)).toNat + i % 2 ^ w) (2 ^ w)
  have h₂ := Nat.mod_le i (2 ^ w)
  omega

theorem Inside.toNat_bounds {a x : BitVec w} {n : ℕ} (h : Inside a n x) (hn : a.toNat + n ≤ 2 ^ w) :
    a.toNat ≤ x.toNat ∧ x.toNat < a.toNat + n := by
  have hx : x = x - a + a := (BitVec.sub_add_cancel x a).symm
  have hsum := congrArg BitVec.toNat hx
  unfold Inside at h
  rw [BitVec.toNat_add, Nat.mod_eq_of_lt (by omega)] at hsum
  omega

theorem Inside.toNat_cases {a x : BitVec w} {n : ℕ} (h : Inside a n x) :
    a.toNat ≤ x.toNat ∧ x.toNat < a.toNat + n ∨ x.toNat + 2 ^ w < a.toNat + n := by
  unfold Inside at h
  have ha := a.isLt
  by_cases hle : a.toNat ≤ x.toNat
  · rw [BitVec.toNat_sub_of_le (BitVec.le_def.mpr hle)] at h
    omega
  · rw [BitVec.toNat_sub, Nat.mod_eq_of_lt (by omega)] at h
    omega

theorem Apart.symm {a b : BitVec w} {n k : ℕ} (h : Apart a n b k) : Apart b k a n :=
  fun x hb ha => h x ha hb

theorem Apart.mono {a b : BitVec w} {n k n' k' : ℕ} (h : Apart a n b k) (hn : n' ≤ n)
    (hk : k' ≤ k) :
    Apart a n' b k' :=
  fun x ha hb => h x (ha.mono hn) (hb.mono hk)

theorem Apart.add_right {a b : BitVec w} {n k k' i : ℕ} (h : Apart a n b k) (hk : i + k' ≤ k) :
    Apart a n (b + BitVec.ofNat w i) k' :=
  fun x ha hb => h x ha (hb.of_add hk)

theorem write_outside (m : Memory w β) {a x : BitVec w} {bs : List β} (h : ¬Inside a bs.length x) :
    write m a bs x = m x := by
  rw [write, List.getElem?_eq_none (Nat.le_of_not_lt h)]
  rfl

theorem write_add (m : Memory w β) (a : BitVec w) {bs : List β} {i : ℕ} (h : i < bs.length)
    (hb : bs.length ≤ 2 ^ w) : write m a bs (a + BitVec.ofNat w i) = bs[i] := by
  have he : (a + BitVec.ofNat w i - a).toNat = i := by
    rw [toNat_add_sub, Nat.mod_eq_of_lt (by omega)]
  rw [write, he, List.getElem?_eq_getElem h]
  rfl

@[simp] theorem length_cellsAt (m : Memory w β) (a : BitVec w) (n : ℕ) :
    (cellsAt m a n).length = n := by
  simp [cellsAt]

theorem getElem_cellsAt (m : Memory w β) (a : BitVec w) (n i : ℕ) (h : i < (cellsAt m a n).length) :
    (cellsAt m a n)[i] = m (a + BitVec.ofNat w i) := by
  simp [cellsAt]

theorem cellsAt_congr {m m' : Memory w β} {a : BitVec w} {n : ℕ}
    (h : ∀ x, Inside a n x → m x = m' x) :
    cellsAt m a n = cellsAt m' a n := by
  apply List.map_congr_left
  intro i hi
  exact h _ (inside_add a (List.mem_range.mp hi))

theorem cellsAt_write_apart (m : Memory w β) {a b : BitVec w} {n : ℕ} {bs : List β}
    (h : Apart a n b bs.length) : cellsAt (write m b bs) a n = cellsAt m a n :=
  cellsAt_congr fun x hx => write_outside m (h x hx)

theorem cellsAt_write (m : Memory w β) (a : BitVec w) (bs : List β) (hb : bs.length ≤ 2 ^ w) :
    cellsAt (write m a bs) a bs.length = bs := by
  apply List.ext_getElem
  · simp
  · intro i h₁ h₂
    rw [getElem_cellsAt, write_add m a h₂ hb]

theorem cellsAt_append (m : Memory w β) (a : BitVec w) (n k : ℕ) :
    cellsAt m a (n + k) = cellsAt m a n ++ cellsAt m (a + BitVec.ofNat w n) k := by
  simp only [cellsAt, List.range_add, List.map_append, List.map_map]
  congr 1
  apply List.map_congr_left
  intro i _
  simp [BitVec.ofNat_add, BitVec.add_assoc]

theorem cellsAt_succ (m : Memory w β) (a : BitVec w) (n : ℕ) :
    cellsAt m a (n + 1) = m a :: cellsAt m (a + BitVec.ofNat w 1) n := by
  rw [Nat.add_comm, cellsAt_append]
  simp [cellsAt]

theorem eq_of_cellsAt_eq {m m' : Memory w β} {a x : BitVec w} {n : ℕ}
    (h : cellsAt m a n = cellsAt m' a n) (hx : Inside a n x) : m x = m' x := by
  have hadd : a + BitVec.ofNat w (x - a).toNat = x := by
    rw [BitVec.ofNat_toNat, BitVec.setWidth_eq, BitVec.add_comm, BitVec.sub_add_cancel]
  have hcell := List.map_inj_left.mp h (x - a).toNat (List.mem_range.mpr hx)
  rwa [hadd] at hcell

/-- The distance to a base further up, where it wraps around below that base. -/
theorem toNat_sub_add (a x : BitVec w) {k : ℕ} (hk : k ≤ 2 ^ w) :
    (x - (a + BitVec.ofNat w k)).toNat =
      if k ≤ (x - a).toNat then (x - a).toNat - k else 2 ^ w - k + (x - a).toNat := by
  have hd := (x - a).isLt
  have he : x - (a + BitVec.ofNat w k) = (x - a) - BitVec.ofNat w k := by
    rw [BitVec.sub_eq_iff_eq_add, BitVec.add_comm a, ← BitVec.add_assoc, BitVec.sub_add_cancel,
      BitVec.sub_add_cancel]
  by_cases hlt : k = 2 ^ w
  · have hzero : BitVec.ofNat w k = 0#w := by
      apply BitVec.eq_of_toNat_eq
      rw [BitVec.toNat_ofNat, BitVec.toNat_ofNat, hlt, Nat.mod_self, Nat.zero_mod]
    rw [he, if_neg (by omega), hzero, BitVec.sub_zero, hlt, Nat.sub_self, Nat.zero_add]
  rw [he, BitVec.toNat_sub, BitVec.toNat_ofNat, Nat.mod_eq_of_lt (by omega : k < 2 ^ w)]
  split_ifs with h
  · rw [show 2 ^ w - k + (x - a).toNat = (x - a).toNat - k + 2 ^ w by omega, Nat.add_mod_right,
      Nat.mod_eq_of_lt (by omega)]
  · exact Nat.mod_eq_of_lt (by omega)

theorem apart_add (a : BitVec w) {i n : ℕ} (h : i + n ≤ 2 ^ w) :
    Apart a i (a + BitVec.ofNat w i) n := by
  intro x hx hx'
  unfold Inside at hx hx'
  rw [toNat_sub_add a x (by omega), if_neg (by omega)] at hx'
  omega

theorem write_write_middle (m : Memory w β) (a : BitVec w) (front old new back : List β)
    (hl : old.length = new.length) (hb : (front ++ new ++ back).length ≤ 2 ^ w) :
    write (write m a (front ++ old ++ back)) (a + BitVec.ofNat w front.length) new =
      write m a (front ++ new ++ back) := by
  funext x
  simp only [List.length_append] at hb
  have hd := toNat_sub_add a x (by omega : front.length ≤ 2 ^ w)
  simp only [write, hd]
  generalize (x - a).toNat = d
  by_cases h₁ : front.length ≤ d
  · rw [if_pos h₁, List.append_assoc, List.append_assoc, List.getElem?_append_right h₁,
      List.getElem?_append_right h₁]
    by_cases h₂ : d - front.length < new.length
    · rw [List.getElem?_append_left h₂, List.getElem?_eq_getElem h₂]
      rfl
    · rw [List.getElem?_eq_none (by omega), List.getElem?_append_right (by omega),
        List.getElem?_append_right (by omega), hl]
      rfl
  · rw [if_neg h₁, List.getElem?_eq_none (by omega), List.append_assoc, List.append_assoc,
      List.getElem?_append_left (by omega), List.getElem?_append_left (by omega)]
    rfl

theorem write_append (m : Memory w β) (a : BitVec w) (front back : List β)
    (hb : (front ++ back).length ≤ 2 ^ w) :
    write (write m a front) (a + BitVec.ofNat w front.length) back = write m a (front ++ back) := by
  funext x
  rw [List.length_append] at hb
  have hd := toNat_sub_add a x (by omega : front.length ≤ 2 ^ w)
  simp only [write, hd]
  generalize (x - a).toNat = d
  by_cases h : front.length ≤ d
  · rw [if_pos h, List.getElem?_append_right h, List.getElem?_eq_none h]
    rfl
  · rw [if_neg h, List.getElem?_append_left (by omega), List.getElem?_eq_none (by omega)]
    rfl

theorem write_comm (m : Memory w β) {a b : BitVec w} (bs cs : List β)
    (h : Apart a bs.length b cs.length) :
    write (write m a bs) b cs = write (write m b cs) a bs := by
  funext x
  by_cases ha : Inside a bs.length x
  · rw [write_outside _ (h x ha)]
    simp only [write, List.getElem?_eq_getElem ha, Option.getD_some]
  · rw [write_outside _ ha]
    simp only [write]
    rw [List.getElem?_eq_none (Nat.le_of_not_lt ha)]
    rfl

private theorem write_write (m : Memory w β) (a : BitVec w) {bs cs : List β}
    (h : bs.length = cs.length) :
    write (write m a bs) a cs = write m a cs := by
  funext x
  by_cases hx : Inside a cs.length x
  · simp only [write, List.getElem?_eq_getElem hx, Option.getD_some]
  · rw [write_outside _ hx, write_outside _ hx, write_outside _ (by rwa [h])]

theorem write_cellsAt_self (m : Memory w β) (a : BitVec w) (n : ℕ) :
    write m a (cellsAt m a n) = m := by
  funext x
  by_cases hx : Inside a n x
  · have hadd : a + BitVec.ofNat w (x - a).toNat = x := by
      rw [BitVec.ofNat_toNat, BitVec.setWidth_eq, BitVec.add_comm, BitVec.sub_add_cancel]
    have hlt : (x - a).toNat < (cellsAt m a n).length := by rwa [length_cellsAt]
    rw [write, List.getElem?_eq_getElem hlt, Option.getD_some, getElem_cellsAt, hadd]
  · exact write_outside m (by rwa [length_cellsAt])

/-! ### Several writes -/

/-- Lists written one after the other, the last of them first. -/
def writeAll (m : Memory w β) : List (BitVec w × List β) → Memory w β
  | [] => m
  | p :: l => write (writeAll m l) p.1 p.2

/-- The ranges of the lists have nothing in common. -/
def Separated (l : List (BitVec w × List β)) : Prop :=
  l.Pairwise fun p q => Apart p.1 p.2.length q.1 q.2.length

theorem writeAll_outside (m : Memory w β) {l : List (BitVec w × List β)} {x : BitVec w}
    (h : ∀ p ∈ l, ¬Inside p.1 p.2.length x) : writeAll m l x = m x := by
  induction l with
  | nil => rfl
  | cons p l ih =>
    rw [writeAll, write_outside _ (h p List.mem_cons_self)]
    exact ih fun q hq => h q (List.mem_cons_of_mem p hq)

theorem writeAll_self {m : Memory w β} {l : List (BitVec w × List β)}
    (h : ∀ p ∈ l, p.2 = cellsAt m p.1 p.2.length) : writeAll m l = m := by
  induction l with
  | nil => rfl
  | cons p l ih =>
    rw [writeAll, ih fun q hq => h q (List.mem_cons_of_mem p hq), h p List.mem_cons_self]
    exact write_cellsAt_self m p.1 _

theorem write_writeAll (m : Memory w β) {l : List (BitVec w × List β)} (hs : Separated l) {k : ℕ}
    (hk : k < l.length) {bs : List β} (hb : l[k].2.length = bs.length) :
    write (writeAll m l) l[k].1 bs = writeAll m (l.set k (l[k].1, bs)) := by
  induction l generalizing k with
  | nil => cases hk
  | cons p l ih =>
    obtain ⟨hp, hs⟩ := List.pairwise_cons.mp hs
    cases k with
    | zero => exact write_write _ _ hb
    | succ k =>
      have hk' : k < l.length := Nat.lt_of_succ_lt_succ hk
      simp only [List.getElem_cons_succ, List.set_cons_succ, writeAll] at hb ⊢
      rw [write_comm _ _ _ (hb ▸ hp _ (List.getElem_mem hk')), ih hs hk' hb]

/-! ### Words -/

/-- The lowest bytes of a number, the lowest first. -/
def wordBytes : ℕ → ℕ → List (BitVec 8)
  | 0, _ => []
  | n + 1, v => BitVec.ofNat 8 v :: wordBytes n (v / 256)

def bytesValue : List (BitVec 8) → ℕ
  | [] => 0
  | b :: bs => b.toNat + 256 * bytesValue bs

@[simp] theorem length_wordBytes (n v : ℕ) : (wordBytes n v).length = n := by
  induction n generalizing v with
  | zero => rfl
  | succ n ih => simp [wordBytes, ih]

theorem bytesValue_wordBytes (n v : ℕ) : bytesValue (wordBytes n v) = v % 256 ^ n := by
  induction n generalizing v with
  | zero => simp [wordBytes, bytesValue, Nat.mod_one]
  | succ n ih => rw [wordBytes, bytesValue, ih, Nat.pow_succ', Nat.mod_mul, BitVec.toNat_ofNat]

theorem wordBytes_bytesValue (bs : List (BitVec 8)) : wordBytes bs.length (bytesValue bs) = bs := by
  induction bs with
  | nil => rfl
  | cons b bs ih =>
    have hb := b.isLt
    have hdiv : (b.toNat + 256 * bytesValue bs) / 256 = bytesValue bs := by omega
    have hmod : BitVec.ofNat 8 (b.toNat + 256 * bytesValue bs) = b := by
      apply BitVec.eq_of_toNat_eq
      rw [BitVec.toNat_ofNat]
      omega
    rw [List.length_cons, wordBytes, bytesValue, hdiv, hmod, ih]

theorem bytesValue_lt (bs : List (BitVec 8)) : bytesValue bs < 256 ^ bs.length := by
  induction bs with
  | nil => simp [bytesValue]
  | cons b bs ih =>
    have hb := b.isLt
    rw [bytesValue, List.length_cons, Nat.pow_succ']
    omega

theorem wordBytes_cellsAt (m : Memory w (BitVec 8)) (a : BitVec w) (n : ℕ) :
    wordBytes n (BitVec.ofNat (8 * n) (bytesValue (cellsAt m a n))).toNat = cellsAt m a n := by
  have hlt := bytesValue_lt (cellsAt m a n)
  have hb := wordBytes_bytesValue (cellsAt m a n)
  rw [length_cellsAt] at hlt hb
  rw [BitVec.toNat_ofNat, Nat.pow_mul, Nat.mod_eq_of_lt hlt, hb]

end Ps4Sdk.ByteMemory
