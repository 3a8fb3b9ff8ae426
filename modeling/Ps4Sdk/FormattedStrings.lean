import Ps4Sdk.KernelBase
import Mathlib.Data.List.Basic
import Mathlib.Tactic.Common

/-!
# Strings made by a format, `kernel/memory.c`

The text that a format and its arguments make is a parameter. The first call of
`vsnprintf` measures it: it returns the length of the whole text, whatever the size it is
given. The limit is passed to this call and then compared with what it returns. The call has
no buffer, and for any size but zero it stores the beginning of the text or a terminator
through `NULL`; whether this page is mapped is a parameter, and otherwise the call faults.
-/

namespace Ps4Sdk.FormattedStrings

/-- The complete text, whose length is an `int`. -/
structure Formatted where
  text : List Byte
  fits : text.length < 0x80000000

/-- What the call leaves in the block at `str`, and what it returns; nothing if it faults. -/
def vsnprintf (nullMapped : Bool) (f : Formatted) (str : Address) (block : List Byte) (size : ℕ) :
    Option (List Byte × ℕ) :=
  if size = 0 then some (block, f.text.length)
  else if str = 0#64 then
    -- the bytes go to the page at zero, if there is one
    if nullMapped then some (block, f.text.length) else none
  else
    some (f.text.take (size - 1) ++ 0#8 ::
      block.drop ((f.text.take (size - 1)).length + 1), f.text.length)

structure Stored where
  string : List Byte
  size : ℕ
  deriving DecidableEq

/-- The address `s` is what `malloc` returns. Without a result the call does not return. -/
def ps4KernelMemoryAllocateStringWithArgumentList_ (nullMapped : Bool) (s string size : Address)
    (sizeMax : BitVec 64) (isPartial : Bool) (format : Option Formatted) :
    Option (Code × Option Stored) :=
  if string = 0#64 then some (ps4ErrorArgumentPrimaryMissing, none)
  else
    match format with
    | none => some (ps4ErrorArgumentMissing, none)
    | some f =>
      if size = 0#64 then some (ps4ErrorArgumentMissing, none)
      else if sizeMax + 1 < sizeMax then some (ps4ErrorArgumentSizeInvalid, none)
      else
        let sizeMax := if sizeMax ≠ 0#64 then sizeMax + 1 else sizeMax
        (vsnprintf nullMapped f 0#64 [] sizeMax.toNat).bind fun (_, sz) =>
          if sz = 0 then some (ps4ErrorArgumentExpectationFailed, none)
          else if isPartial = false ∧ 0 < sizeMax ∧ sz = sizeMax.toNat then
            some (ps4ErrorArgumentSizeTooSmall, none)
          else if s = 0#64 then some (ps4ErrorKernelOutOfMemory, none)
          else
            (vsnprintf nullMapped f s (List.replicate (sz + 1) 0#8) (sz + 1)).map fun (block, _) =>
              (ps4Ok, some ⟨block.set sz 0#8, sz⟩)

def ps4KernelMemoryAllocateStringWithArgumentList (nullMapped : Bool) (s string size : Address)
    (sizeMax : BitVec 64) (format : Option Formatted) : Option (Code × Option Stored) :=
  ps4KernelMemoryAllocateStringWithArgumentList_ nullMapped s string size sizeMax false format

def ps4KernelMemoryAllocateStringPartialWithArgumentList (nullMapped : Bool)
    (s string size : Address) (sizeMax : BitVec 64) (format : Option Formatted) :
    Option (Code × Option Stored) :=
  ps4KernelMemoryAllocateStringWithArgumentList_ nullMapped s string size sizeMax true format

/-- The string is the beginning of the text with its terminator, and no longer than the limit. -/
structure Stored.Keeps (o : Stored) (text : List Byte) (sizeMax : ℕ) : Prop where
  size_le : o.size ≤ text.length
  string : o.string = text.take o.size ++ [0#8]
  limit : 0 < sizeMax → o.size ≤ sizeMax

/-- The call returns; a text beyond the limit is refused, and no other. -/
def Refuses (r : Option (Code × Option Stored)) (text : List Byte) (sizeMax : ℕ) : Prop :=
  ∃ code out, r = some (code, out) ∧
    (code = ps4ErrorArgumentSizeTooSmall ↔ 0 < sizeMax ∧ sizeMax < text.length) ∧
    (code = ps4Ok → ∃ o, out = some o ∧ o.Keeps text sizeMax)

/-- A text beyond the limit is cut there. -/
def Cuts (r : Option (Code × Option Stored)) (text : List Byte) (sizeMax : ℕ) : Prop :=
  ∃ o, r = some (ps4Ok, some o) ∧ o.Keeps text sizeMax ∧
    o.size = if sizeMax = 0 then text.length else min text.length sizeMax

theorem toNat_succ {sizeMax : BitVec 64} (h : ¬sizeMax + 1 < sizeMax) :
    (sizeMax + 1).toNat = sizeMax.toNat + 1 := by
  have hlt := sizeMax.isLt
  rw [BitVec.lt_def, BitVec.toNat_add] at h
  rw [BitVec.toNat_add]
  have hone : (1 : BitVec 64).toNat = 1 := rfl
  omega

private theorem vsnprintf_null (nullMapped : Bool) (f : Formatted) (size : ℕ) :
    vsnprintf nullMapped f 0#64 [] size =
      if size ≠ 0 ∧ nullMapped = false then none else some ([], f.text.length) := by
  unfold vsnprintf
  by_cases hsize : size = 0
  · rw [if_pos hsize, if_neg fun h => h.1 hsize]
  · cases nullMapped <;> simp [hsize]

private theorem vsnprintf_all (nullMapped : Bool) (f : Formatted) {s : Address} (hs : s ≠ 0#64) :
    vsnprintf nullMapped f s (List.replicate (f.text.length + 1) 0#8) (f.text.length + 1) =
      some (f.text ++ [0#8], f.text.length) := by
  simp [vsnprintf, hs]

section

variable {nullMapped : Bool} {s string size : Address} {sizeMax : BitVec 64}

/-- All that the call does with the limit is to store through `NULL` if there is one, and to
compare its successor with the length. -/
theorem allocateString_eq (hs : s ≠ 0#64) (hstring : string ≠ 0#64) (hsize : size ≠ 0#64)
    (hmax : ¬sizeMax + 1 < sizeMax) (isPartial : Bool) (f : Formatted) :
    ps4KernelMemoryAllocateStringWithArgumentList_ nullMapped s string size sizeMax
        isPartial (some f) =
      if sizeMax.toNat ≠ 0 ∧ nullMapped = false then none
      else if f.text.length = 0 then some (ps4ErrorArgumentExpectationFailed, none)
      else if isPartial = false ∧ sizeMax.toNat ≠ 0 ∧ f.text.length = sizeMax.toNat + 1 then
        some (ps4ErrorArgumentSizeTooSmall, none)
      else some (ps4Ok, some ⟨f.text ++ [0#8], f.text.length⟩) := by
  have hlimit : 0 < (if sizeMax ≠ 0#64 then sizeMax + 1 else sizeMax) ↔ sizeMax.toNat ≠ 0 := by
    by_cases hz : sizeMax = 0#64
    · subst hz
      simp
    · have hnat : sizeMax.toNat ≠ 0 := fun h => hz (BitVec.eq_of_toNat_eq h)
      rw [if_pos hz, BitVec.lt_def, toNat_succ hmax]
      simp [hnat]
  have hsucc : sizeMax.toNat ≠ 0 →
      (if sizeMax ≠ 0#64 then sizeMax + 1 else sizeMax).toNat = sizeMax.toNat + 1 := by
    intro hnat
    rw [if_pos fun hz => hnat (congrArg BitVec.toNat hz), toNat_succ hmax]
  have hzero : (if sizeMax ≠ 0#64 then sizeMax + 1 else sizeMax).toNat ≠ 0 ↔
      sizeMax.toNat ≠ 0 := by
    rw [← hlimit, BitVec.lt_def]
    exact Nat.pos_iff_ne_zero.symm
  have hsame : (isPartial = false ∧ 0 < (if sizeMax ≠ 0#64 then sizeMax + 1 else sizeMax) ∧
      f.text.length = (if sizeMax ≠ 0#64 then sizeMax + 1 else sizeMax).toNat) ↔
      isPartial = false ∧ sizeMax.toNat ≠ 0 ∧ f.text.length = sizeMax.toNat + 1 := by
    rw [hlimit]
    exact and_congr_right fun _ => and_congr_right fun hnat => by rw [hsucc hnat]
  rw [ps4KernelMemoryAllocateStringWithArgumentList_, if_neg hstring]
  simp only [if_neg hsize, if_neg hmax, if_neg hs, vsnprintf_null, hzero]
  by_cases hfault : sizeMax.toNat ≠ 0 ∧ nullMapped = false
  · rw [if_pos hfault, if_pos hfault]
    rfl
  · rw [if_neg hfault, if_neg hfault, Option.bind_some]
    simp only [hsame, vsnprintf_all nullMapped f hs, Option.map_some, List.set_append_right,
      Nat.le_refl, Nat.sub_self, List.set_cons_zero]

/-- Without a limit the call returns, and there is a string unless the text is empty. -/
theorem allocateString_unlimited (hs : s ≠ 0#64) (hstring : string ≠ 0#64) (hsize : size ≠ 0#64)
    (f : Formatted) :
    ps4KernelMemoryAllocateStringWithArgumentList nullMapped s string size 0 (some f) =
      some (if f.text.length = 0 then (ps4ErrorArgumentExpectationFailed, none)
        else (ps4Ok, some ⟨f.text ++ [0#8], f.text.length⟩)) := by
  rw [ps4KernelMemoryAllocateStringWithArgumentList,
    allocateString_eq hs hstring hsize (by decide), if_neg (by simp)]
  split_ifs with hempty hlimit
  · rfl
  · exact absurd rfl hlimit.2.1
  · rfl

theorem keeps_all (f : Formatted) {sizeMax : ℕ} :
    Stored.Keeps ⟨f.text ++ [0#8], f.text.length⟩ f.text sizeMax ↔
      sizeMax = 0 ∨ f.text.length ≤ sizeMax := by
  refine ⟨fun h => ?_, fun h => ⟨Nat.le_refl _, by simp, fun hpos => ?_⟩⟩
  · have hlimit : 0 < sizeMax → f.text.length ≤ sizeMax := h.limit
    omega
  · change f.text.length ≤ sizeMax
    omega

private theorem not_refuses_none (text : List Byte) (n : ℕ) : ¬Refuses none text n := by
  rintro ⟨_, _, h, _⟩
  exact Option.some_ne_none _ h.symm

private theorem not_cuts_none (text : List Byte) (n : ℕ) : ¬Cuts none text n := by
  rintro ⟨_, h, _⟩
  exact Option.some_ne_none _ h.symm

variable (nullMapped) in
/-- The limit is kept exactly here. Any limit makes the measuring call store through `NULL`. If
that is survived, the plain call lets every text pass that is longer by more than one, and the
partial call never cuts a text; nor does it make an empty string. -/
theorem allocateString_limit_iff (hs : s ≠ 0#64) (hstring : string ≠ 0#64) (hsize : size ≠ 0#64)
    (hmax : ¬sizeMax + 1 < sizeMax) (f : Formatted) :
    (Refuses (ps4KernelMemoryAllocateStringWithArgumentList nullMapped s string size sizeMax
        (some f)) f.text sizeMax.toNat ↔
      sizeMax.toNat = 0 ∨ nullMapped = true ∧ f.text.length ≤ sizeMax.toNat + 1) ∧
    (Cuts (ps4KernelMemoryAllocateStringPartialWithArgumentList nullMapped s string size sizeMax
        (some f)) f.text sizeMax.toNat ↔
      f.text.length ≠ 0 ∧
        (sizeMax.toNat = 0 ∨ nullMapped = true ∧ f.text.length ≤ sizeMax.toNat)) := by
  rw [ps4KernelMemoryAllocateStringWithArgumentList, allocateString_eq hs hstring hsize hmax,
    ps4KernelMemoryAllocateStringPartialWithArgumentList, allocateString_eq hs hstring hsize hmax]
  generalize sizeMax.toNat = n
  by_cases hfault : n ≠ 0 ∧ nullMapped = false
  · rw [if_pos hfault, if_pos hfault]
    simp only [hfault.1, hfault.2, Bool.false_eq_true, false_and, or_self, and_false, iff_false]
    exact ⟨not_refuses_none _ _, not_cuts_none _ _⟩
  have hlives : n = 0 ∨ nullMapped = true := by
    by_cases hn : n = 0
    · exact .inl hn
    · exact .inr (eq_true_of_ne_false fun h => hfault ⟨hn, h⟩)
  have hbound : ∀ m, (n = 0 ∨ nullMapped = true ∧ f.text.length ≤ m) ↔
      n = 0 ∨ f.text.length ≤ m := by
    intro m
    rcases hlives with rfl | htrue
    · simp
    · simp [htrue]
  rw [if_neg hfault, if_neg hfault, hbound, hbound]
  by_cases hempty : f.text.length = 0
  · rw [if_pos hempty, if_pos hempty]
    refine ⟨iff_of_true ⟨_, _, rfl, iff_of_false (by decide) (by omega), fun h => ?_⟩ (by omega),
      iff_of_false ?_ (by omega)⟩
    · exact absurd h (by decide)
    · rintro ⟨o, ho, _⟩
      exact absurd (congrArg Prod.fst (Option.some.inj ho))
        (show ¬ps4ErrorArgumentExpectationFailed = ps4Ok by decide)
  rw [if_neg hempty, if_neg hempty]
  refine ⟨?_, ?_⟩
  · by_cases hone : n ≠ 0 ∧ f.text.length = n + 1
    · rw [if_pos ⟨rfl, hone⟩]
      refine iff_of_true ⟨_, _, rfl, iff_of_true rfl (by omega), fun h => ?_⟩ (by omega)
      exact absurd h (by decide)
    · rw [if_neg fun h => hone h.2]
      refine ⟨?_, fun h => ⟨_, _, rfl, iff_of_false ?_ (by omega),
        fun _ => ⟨_, rfl, (keeps_all f).mpr (by omega)⟩⟩⟩
      · rintro ⟨code, out, hout, _, hstored⟩
        obtain ⟨rfl, rfl⟩ := Prod.mk.inj (Option.some.inj hout)
        obtain ⟨o, ho, hkeeps⟩ := hstored rfl
        obtain rfl := Option.some.inj ho
        have hlimit := (keeps_all f).mp hkeeps
        omega
      · exact show ¬ps4Ok = ps4ErrorArgumentSizeTooSmall by decide
  · rw [if_neg fun h => Bool.false_ne_true h.1.symm]
    refine ⟨?_, fun ⟨_, h⟩ => ⟨_, rfl, (keeps_all f).mpr h, ?_⟩⟩
    · rintro ⟨o, ho, hkeeps, _⟩
      obtain rfl := Option.some.inj (congrArg Prod.snd (Option.some.inj ho))
      exact ⟨hempty, (keeps_all f).mp hkeeps⟩
    · change f.text.length = _
      split_ifs <;> omega

end

def letters : Formatted := ⟨[0x61, 0x62, 0x63], by decide⟩

theorem allocateString_limit_iff_letters :
    Refuses (ps4KernelMemoryAllocateStringWithArgumentList false 0x1000 0x2000 0x3000 0
        (some letters)) letters.text 0 ∧
      Cuts (ps4KernelMemoryAllocateStringPartialWithArgumentList false 0x1000 0x2000 0x3000 0
        (some letters)) letters.text 0 ∧
      Refuses (ps4KernelMemoryAllocateStringWithArgumentList true 0x1000 0x2000 0x3000 2
        (some letters)) letters.text 2 ∧
      Cuts (ps4KernelMemoryAllocateStringPartialWithArgumentList true 0x1000 0x2000 0x3000 3
        (some letters)) letters.text 3 :=
  have hcalls : ∀ (nullMapped : Bool) (sizeMax : BitVec 64) (hmax : ¬sizeMax + 1 < sizeMax), _ :=
    fun nullMapped _ hmax => allocateString_limit_iff nullMapped
      (show (0x1000 : Address) ≠ 0#64 by decide) (show (0x2000 : Address) ≠ 0#64 by decide)
      (show (0x3000 : Address) ≠ 0#64 by decide) hmax letters
  ⟨(hcalls false 0 (by decide)).1.mpr (.inl rfl),
    (hcalls false 0 (by decide)).2.mpr ⟨by decide, .inl rfl⟩,
    (hcalls true 2 (by decide)).1.mpr (.inr ⟨rfl, by decide⟩),
    (hcalls true 3 (by decide)).2.mpr ⟨by decide, .inr ⟨rfl, by decide⟩⟩⟩

/-- With a limit of one character neither call returns. If the store through `NULL` is survived,
both return all three of them. -/
theorem allocateString_exceeds :
    ps4KernelMemoryAllocateStringWithArgumentList false 0x1000 0x2000 0x3000 1
        (some letters) = none ∧
      ps4KernelMemoryAllocateStringPartialWithArgumentList false 0x1000 0x2000 0x3000 1
        (some letters) = none ∧
      ps4KernelMemoryAllocateStringWithArgumentList true 0x1000 0x2000 0x3000 1 (some letters) =
        some (ps4Ok, some ⟨[0x61, 0x62, 0x63, 0], 3⟩) ∧
      ps4KernelMemoryAllocateStringPartialWithArgumentList true 0x1000 0x2000 0x3000 1
        (some letters) = some (ps4Ok, some ⟨[0x61, 0x62, 0x63, 0], 3⟩) ∧
      ∀ nullMapped : Bool,
        ¬Refuses (ps4KernelMemoryAllocateStringWithArgumentList nullMapped 0x1000 0x2000 0x3000 1
          (some letters)) letters.text 1 ∧
        ¬Cuts (ps4KernelMemoryAllocateStringPartialWithArgumentList nullMapped 0x1000 0x2000 0x3000
          1 (some letters)) letters.text 1 := by
  refine ⟨by decide, by decide, by decide, by decide, ?_⟩
  rintro (_ | _)
  · exact ⟨not_refuses_none _ _, not_cuts_none _ _⟩
  · refine ⟨?_, ?_⟩
    · rintro ⟨code, out, hout, htooSmall, _⟩
      obtain ⟨rfl, rfl⟩ := Prod.mk.inj (Option.some.inj hout)
      exact absurd (htooSmall.mpr ⟨by decide, by decide⟩) (by decide)
    · rintro ⟨o, ho, hkeeps, _⟩
      obtain rfl := Option.some.inj (congrArg Prod.snd (Option.some.inj ho))
      exact absurd (hkeeps.limit (by decide)) (by decide)

end Ps4Sdk.FormattedStrings
