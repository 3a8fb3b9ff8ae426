import Ps4Sdk.ByteMemory

/-!
# Copies of an array that is written meanwhile

A copy takes the cells of an array one by one. What it will hold in the end, if
nothing else is written, is what it has taken and the rest of the array. A write
behind the copy does not change that, and a write ahead of it does; an array of
words is copied by bytes, so a write may also fall into the word being copied.
-/

namespace Ps4Sdk.InterruptedCopies
open ByteMemory

universe u

variable {α : Type u}

def outcome (taken array : List α) : List α := taken ++ array.drop taken.length

@[simp] theorem outcome_nil (array : List α) : outcome [] array = array := rfl

theorem outcome_take {taken array : List α} {x : α} (h : array[taken.length]? = some x) :
    outcome (taken ++ [x]) array = outcome taken array := by
  obtain ⟨hlt, hx⟩ := List.getElem?_eq_some_iff.mp h
  simp [outcome, List.drop_eq_getElem_cons hlt, hx]

theorem outcome_complete {taken array : List α} (h : array.length ≤ taken.length) :
    outcome taken array = taken := by
  rw [outcome, List.drop_eq_nil_of_le h, List.append_nil]

theorem outcome_write_ahead {taken front old new back : List α} (hp : taken.length ≤ front.length)
    (h : outcome taken (front ++ (old ++ back)) = front ++ (old ++ back)) :
    outcome taken (front ++ (new ++ back)) = front ++ (new ++ back) := by
  have htaken : taken = front.take taken.length := by
    have hfront := congrArg (List.take taken.length) h
    rwa [outcome, List.take_left, List.take_append_of_le_length hp] at hfront
  rw [outcome, List.drop_append_of_le_length hp, ← List.append_assoc]
  congr 1
  rw [htaken, List.length_take, Nat.min_eq_left hp, List.take_append_drop]

theorem outcome_write_behind {taken front old new back : List α} (hl : old.length = new.length)
    (hp : front.length + old.length ≤ taken.length) :
    outcome taken (front ++ (new ++ back)) = outcome taken (front ++ (old ++ back)) := by
  have hdrop : ∀ middle : List α, middle.length = old.length →
      (front ++ (middle ++ back)).drop taken.length =
        back.drop (taken.length - front.length - old.length) := by
    intro middle hm
    rw [List.drop_append, List.drop_append, List.drop_eq_nil_of_le (by omega),
      List.drop_eq_nil_of_le (by omega), hm]
    rfl
  rw [outcome, outcome, hdrop new hl.symm, hdrop old rfl]

/-! ### Arrays of words -/

def arrayBytes (words : List (BitVec 64)) : List (BitVec 8) :=
  words.flatMap (fun w => wordBytes 8 w.toNat)

def wordsOf : ℕ → List (BitVec 8) → List (BitVec 64)
  | 0, _ => []
  | n + 1, bytes => BitVec.ofNat 64 (bytesValue (bytes.take 8)) :: wordsOf n (bytes.drop 8)

private theorem arrayBytes_cons (w : BitVec 64) (words : List (BitVec 64)) :
    arrayBytes (w :: words) = wordBytes 8 w.toNat ++ arrayBytes words := rfl

theorem arrayBytes_append (words words' : List (BitVec 64)) :
    arrayBytes (words ++ words') = arrayBytes words ++ arrayBytes words' := List.flatMap_append

@[simp] theorem length_arrayBytes (words : List (BitVec 64)) :
    (arrayBytes words).length = 8 * words.length := by
  induction words with
  | nil => rfl
  | cons w words ih =>
    rw [arrayBytes_cons, List.length_append, length_wordBytes, ih, List.length_cons]
    omega

theorem wordsOf_arrayBytes (words : List (BitVec 64)) :
    wordsOf words.length (arrayBytes words) = words := by
  induction words with
  | nil => rfl
  | cons w words ih =>
    have hlt : w.toNat < 256 ^ 8 := w.isLt
    rw [arrayBytes_cons, List.length_cons, wordsOf, List.take_left' (length_wordBytes 8 _),
      List.drop_left' (length_wordBytes 8 _), ih, bytesValue_wordBytes, Nat.mod_eq_of_lt hlt]
    simp

/-- A word that is written while it is not itself being copied is seen as it was or as
it is now. -/
theorem outcome_word {taken : List (BitVec 8)} {front back : List (BitVec 64)} {old : BitVec 64}
    (new : BitVec 64)
    (h : outcome taken (arrayBytes (front ++ old :: back)) = arrayBytes (front ++ old :: back))
    (hp : ¬(8 * front.length < taken.length ∧ taken.length < 8 * front.length + 8)) :
    outcome taken (arrayBytes (front ++ new :: back)) = arrayBytes (front ++ new :: back) ∨
      outcome taken (arrayBytes (front ++ new :: back)) = arrayBytes (front ++ old :: back) := by
  simp only [arrayBytes_append, arrayBytes_cons] at h ⊢
  by_cases hle : taken.length ≤ 8 * front.length
  · left
    exact outcome_write_ahead (by simpa using hle) h
  · right
    rw [← h]
    exact outcome_write_behind (by simp) (by simp; omega)

end Ps4Sdk.InterruptedCopies
