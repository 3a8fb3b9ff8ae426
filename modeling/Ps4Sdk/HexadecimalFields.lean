import Mathlib.Data.List.Basic
import Mathlib.Tactic.Common
import Mathlib.Tactic.IntervalCases

/-! # Hexadecimal fields of a fixed width, and lists of blocks of one length -/

namespace Ps4Sdk.HexadecimalFields

def digit (n : ℕ) : BitVec 8 := BitVec.ofNat 8 (if n < 10 then 0x30 + n else 0x57 + n)

/-- The last digits of a number, the most significant one first. -/
def field : ℕ → ℕ → List (BitVec 8)
  | 0, _ => []
  | width + 1, n => field width (n / 16) ++ [digit (n % 16)]

def readDigit (d : BitVec 8) : Option ℕ :=
  if 0x30 ≤ d.toNat ∧ d.toNat ≤ 0x39 then some (d.toNat - 0x30)
  else if 0x61 ≤ d.toNat ∧ d.toNat ≤ 0x66 then some (d.toNat - 0x57)
  else none

def readField (ds : List (BitVec 8)) : Option ℕ :=
  ds.foldlM (fun value d => (readDigit d).map (16 * value + ·)) 0

@[simp] theorem length_field (width n : ℕ) : (field width n).length = width := by
  induction width generalizing n with
  | zero => rfl
  | succ width ih => simp [field, ih]

private theorem readDigit_digit {n : ℕ} (h : n < 16) : readDigit (digit n) = some n := by
  interval_cases n <;> rfl

theorem readField_field {width n : ℕ} (h : n < 16 ^ width) :
    readField (field width n) = some n := by
  induction width generalizing n with
  | zero =>
    obtain rfl : n = 0 := by simpa using h
    rfl
  | succ width ih =>
    have hhigh := ih (n := n / 16) (by rw [pow_succ] at h; omega)
    rw [readField] at hhigh
    rw [readField, field, List.foldlM_append, hhigh]
    simp only [List.foldlM_cons, List.foldlM_nil, readDigit_digit
      (Nat.mod_lt n (by decide : 16 > 0)), Option.map_some, Option.bind_eq_bind, Option.bind_some]
    exact congrArg some (Nat.div_add_mod n 16)

theorem notMem_field {d : BitVec 8} (h : readDigit d = none) (width n : ℕ) : d ∉ field width n := by
  induction width generalizing n with
  | zero => exact List.not_mem_nil
  | succ width ih =>
    rw [field, List.mem_append, List.mem_singleton]
    rintro (hmem | rfl)
    · exact ih _ hmem
    · rw [readDigit_digit (Nat.mod_lt n (by decide))] at h
      exact Option.some_ne_none _ h

section

variable {α β : Type*}

theorem length_flatMap_blocks {f : α → List β} {k : ℕ} (hk : ∀ x, (f x).length = k) (l : List α) :
    (l.flatMap f).length = k * l.length := by
  induction l with
  | nil => rfl
  | cons x l ih => rw [List.flatMap_cons, List.length_append, ih, hk, List.length_cons,
      Nat.mul_succ, Nat.add_comm]

theorem take_drop_flatMap {f : α → List β} {k : ℕ} (hk : ∀ x, (f x).length = k) {l : List α} {c : ℕ}
    (hc : c < l.length) (rest : List β) : ((l.flatMap f ++ rest).drop (k * c)).take k = f l[c] := by
  induction l generalizing c with
  | nil => exact absurd hc (Nat.not_lt_zero c)
  | cons x l ih =>
    rw [List.flatMap_cons, List.append_assoc]
    cases c with
    | zero => rw [Nat.mul_zero, List.drop_zero, List.take_left' (hk x), List.getElem_cons_zero]
    | succ c =>
      rw [Nat.mul_succ, Nat.add_comm, ← List.drop_drop, List.drop_left' (hk x),
        List.getElem_cons_succ]
      exact ih (Nat.lt_of_succ_lt_succ hc)

theorem flatMap_range_lead {f g : ℕ → List β} {lead : List β} {n : ℕ} (hzero : f 0 = lead ++ g 0)
    (hsucc : ∀ c < n, f (c + 1) = g (c + 1)) :
    (List.range (n + 1)).flatMap f = lead ++ (List.range (n + 1)).flatMap g := by
  rw [List.range_succ_eq_map, List.flatMap_cons, List.flatMap_cons, hzero, List.append_assoc,
    List.flatMap_map, List.flatMap_map]
  rw [List.flatMap_congr fun c hc => hsucc c (List.mem_range.mp hc)]

theorem filterMap_range_getElem? (l : List α) (m k : ℕ) :
    (List.range k).filterMap (fun c => l[m + c]?) = (l.drop m).take k := by
  induction k with
  | zero => rfl
  | succ k ih =>
    rw [List.range_succ, List.filterMap_append, ih, List.take_add_one, List.getElem?_drop]
    cases h : l[m + k]? <;> simp [h]

theorem flatMap_range_pieces (l : List α) (k n : ℕ) :
    (List.range n).flatMap (fun r => (l.drop (k * r)).take k) = l.take (k * n) := by
  induction n with
  | zero => rw [Nat.mul_zero, List.take_zero]; rfl
  | succ n ih => rw [List.range_succ, List.flatMap_append, ih, List.flatMap_singleton,
      Nat.mul_succ, List.take_add]

end

end Ps4Sdk.HexadecimalFields
