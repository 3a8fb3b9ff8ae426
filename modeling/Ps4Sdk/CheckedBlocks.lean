import Mathlib.Data.Int.Notation
import Mathlib.Data.List.Basic
import Mathlib.Data.List.TakeDrop
import Ps4Sdk.FallibleCalls

/-!
# Blocks of words with checked accesses

A block is the list of its words. An access outside the block stops the
computation, and so does a wait that no one can end. Indices are integers,
since a signed index can leave a block on either side.
-/

namespace Ps4Sdk.CheckedBlocks

inductive Stop
  | outOfBounds | spins
  deriving DecidableEq, Repr

universe u

variable {α : Type u}

def load (block : List α) (i : ℤ) : Except Stop α :=
  if 0 ≤ i then
    match block[i.toNat]? with
    | some x => .ok x
    | none => .error .outOfBounds
  else .error .outOfBounds

def store (block : List α) (i : ℤ) (x : α) : Except Stop (List α) :=
  if 0 ≤ i ∧ i < block.length then .ok (block.set i.toNat x) else .error .outOfBounds

private theorem load_ok {block : List α} {i : ℕ} (h : i < block.length) :
    load block i = .ok block[i] := by
  simp [load, h]

theorem store_ok {block : List α} {i : ℕ} (h : i < block.length) (x : α) :
    store block i x = .ok (block.set i x) := by
  simp [store, h]

theorem store_eq_ok {block block' : List α} {i : ℤ} {x : α} (h : store block i x = .ok block') :
    0 ≤ i ∧ i < block.length ∧ block' = block.set i.toNat x := by
  by_cases hi : 0 ≤ i ∧ i < block.length
  · rw [store, if_pos hi] at h
    exact ⟨hi.1, hi.2, (Except.ok.inj h).symm⟩
  · rw [store, if_neg hi] at h
    cases h

/-- Copy `n` words from index `t` on, one word at a time. -/
def copyFrom (source : List α) : ℕ → ℕ → List α → Except Stop (List α)
  | 0, _, target => .ok target
  | n + 1, t, target => do
    let x ← load source t
    let target ← store target t x
    copyFrom source n (t + 1) target

private theorem set_take_append_drop (source target : List α) (t : ℕ) (hs : t < source.length)
    (ht : t < target.length) :
    (source.take t ++ target.drop t).set t source[t] = source.take (t + 1) ++
      target.drop (t + 1) := by
  have hl : (source.take t).length = t := by simp; omega
  rw [List.set_append_right _ _ (by omega), hl, Nat.sub_self, List.drop_eq_getElem_cons ht,
    List.set_cons_zero, List.take_succ_eq_append_getElem hs, List.append_assoc]
  rfl

theorem copyFrom_eq (source target : List α) (n t : ℕ) (hs : t + n ≤ source.length)
    (ht : t + n ≤ target.length) :
    copyFrom source n t (source.take t ++ target.drop t) =
      .ok (source.take (t + n) ++ target.drop (t + n)) := by
  induction n generalizing t with
  | zero => rfl
  | succ n ih =>
    have hlen : t < (source.take t ++ target.drop t).length := by simp; omega
    have hstep : copyFrom source (n + 1) t (source.take t ++ target.drop t) =
        copyFrom source n (t + 1) (source.take (t + 1) ++ target.drop (t + 1)) := by
      rw [copyFrom, load_ok (by omega),
        ← set_take_append_drop source target t (by omega) (by omega)]
      change (store _ _ _ >>= _) = _
      rw [store_ok hlen]
      rfl
    rw [hstep, ih (t + 1) (by omega) (by omega)]
    congr 3 <;> omega

theorem copyFrom_start (source target : List α) (n : ℕ) (hs : n ≤ source.length)
    (ht : n ≤ target.length) :
    copyFrom source n 0 target = .ok (source.take n ++ target.drop n) := by
  simpa using copyFrom_eq source target n 0 (by omega) (by omega)

/-- Parallel blocks are read only up to the shorter one. -/
theorem zip_take_length {β : Type*} (xs : List α) (ys : List β) :
    xs.zip (ys.take xs.length) = xs.zip ys := by
  induction xs generalizing ys with
  | nil => simp
  | cons x xs ih =>
    cases ys with
    | nil => simp
    | cons y ys => simp [ih]

end Ps4Sdk.CheckedBlocks
