import Ps4Sdk.FunctionHookInstallation
import Mathlib.Order.Bounds.Basic
import Mathlib.Order.WellFounded

/-!
# Whole instructions, `machine_instruction.c`

The disassembler is known by what it consumes at a position and by whether it found a valid
instruction there. It consumes something in either case, and the two functions look at the
length only. The loop counts in a `size_t`, so that it need not end where the lengths pass
the end of the address space.
-/

namespace Ps4Sdk.InstructionSeeking
open PayloadTemplates

structure Decoder where
  length : KernelMemory → Address → ℕ
  valid : KernelMemory → Address → Bool
  positive : ∀ code a, 0 < length code a

section

variable (d : Decoder) (code : KernelMemory) (current : Address)

def ps4MachineInstructionNext (next : Option Address) : Code × Option Address :=
  if current = 0#64 then (ps4ErrorArgumentPrimaryMissing, next)
  else
    match next with
    | none => (ps4ErrorArgumentOutMissing, none)
    | some a =>
      if d.length code current = 0 then (ps4ErrorAssemblerInstructionNotDecodable, some a)
      else (ps4Ok, some (current + BitVec.ofNat 64 (d.length code current)))

/-- The loop, with a bound for its rounds. -/
def seekLoop (offset : BitVec 64) : ℕ → BitVec 64 → Option (BitVec 64)
  | 0, _ => none
  | rounds + 1, i =>
    if i < offset ∧ d.length code (current + i) ≠ 0 then
      seekLoop offset rounds (i + BitVec.ofNat 64 (d.length code (current + i)))
    else some i

/-- An out parameter is what it holds, or nothing where the pointer is NULL. -/
def ps4MachineInstructionSeek (found : Option Address) (offset : BitVec 64) (rounds : ℕ) :
    Option (Code × Option Address) :=
  if current = 0#64 then some (ps4ErrorArgumentPrimaryMissing, found)
  else
    match found with
    | none => some (ps4ErrorArgumentOutMissing, none)
    | some a => (seekLoop d code current offset rounds 0).map fun i =>
      if i = 0 ∧ offset ≠ 0 then (ps4ErrorAssemblerInstructionNotDecodable, some a)
        else (ps4Ok, some (current + i))

/-! ### Consecutive instructions -/

/-- The sum of the lengths of the first instructions. -/
def reached : ℕ → ℕ
  | 0 => 0
  | n + 1 => reached n + d.length code (current + BitVec.ofNat 64 (reached n))

/-- The instructions that start in front of the offset are valid. -/
def AllValid (offset : ℕ) : Prop :=
  ∀ n, reached d code current n < offset →
    d.valid code (current + BitVec.ofNat 64 (reached d code current n)) = true

def Covers (offset s : ℕ) : Prop :=
  IsLeast {s | s ∈ Set.range (reached d code current) ∧ offset ≤ s} s

/-- What a search is to do. -/
structure Seeks (found : Address) (offset : BitVec 64) : Prop where
  valid : AllValid d code current offset.toNat → ∃ s, Covers d code current offset.toNat s ∧
    ∃ rounds a,
    ps4MachineInstructionSeek d code current (some found) offset rounds = some (ps4Ok, some a) ∧
    (a - current).toNat = s
  invalid : ¬AllValid d code current offset.toNat → ∃ rounds,
    ps4MachineInstructionSeek d code current (some found) offset rounds =
      some (ps4ErrorAssemblerInstructionNotDecodable, some found)

end

section

variable {d : Decoder} {code : KernelMemory} {current : Address} {offset : BitVec 64}

private theorem reached_strictMono (d : Decoder) (code : KernelMemory) (current : Address) :
    StrictMono (reached d code current) :=
  strictMono_nat_of_lt_succ fun _ => Nat.lt_add_of_pos_right (d.positive _ _)

private theorem exists_first (d : Decoder) (code : KernelMemory) (current : Address) (offset : ℕ) :
    ∃ n, offset ≤ reached d code current n ∧ ∀ k < n, reached d code current k < offset := by
  have hex : ∃ n, offset ≤ reached d code current n :=
    ⟨offset, (reached_strictMono d code current).le_apply⟩
  classical
  exact ⟨Nat.find hex, Nat.find_spec hex, fun k hk => Nat.lt_of_not_le (Nat.find_min hex hk)⟩

theorem covers_reached {offset n : ℕ} (hn : offset ≤ reached d code current n)
    (hfirst : ∀ k < n, reached d code current k < offset) :
    Covers d code current offset (reached d code current n) := by
  refine ⟨⟨⟨n, rfl⟩, hn⟩, ?_⟩
  rintro s ⟨⟨k, rfl⟩, hk⟩
  by_contra hlt
  have := hfirst k ((reached_strictMono d code current).lt_iff_lt.mp (Nat.lt_of_not_le hlt))
  omega

theorem seekLoop_eq {n : ℕ} (hn : offset.toNat ≤ reached d code current n)
    (hfirst : ∀ k < n, reached d code current k < offset.toNat)
    (hfits : reached d code current n < 2 ^ 64) {k : ℕ}
    (hk : k ≤ n) : seekLoop d code current offset (n - k + 1)
    (BitVec.ofNat 64 (reached d code current k)) =
      some (BitVec.ofNat 64 (reached d code current n)) := by
  generalize hd : n - k = r
  induction r generalizing k with
  | zero =>
    obtain rfl : k = n := by omega
    rw [seekLoop, if_neg]
    rintro ⟨hlt, _⟩
    rw [BitVec.lt_def, BitVec.toNat_ofNat, Nat.mod_eq_of_lt hfits] at hlt
    omega
  | succ r ih =>
    have hlt := hfirst k (by omega)
    have hpos := d.positive code (current + BitVec.ofNat 64 (reached d code current k))
    have hlimit := offset.isLt
    rw [seekLoop, if_pos, ← BitVec.ofNat_add]
    · exact ih (k := k + 1) (by omega) (by omega)
    · refine ⟨?_, by omega⟩
      rw [BitVec.lt_def, BitVec.toNat_ofNat, Nat.mod_eq_of_lt (by omega)]
      exact hlt

theorem le_of_seekLoop {rounds : ℕ} {i j : BitVec 64}
    (h : seekLoop d code current offset rounds i = some j) :
    offset ≤ j := by
  induction rounds generalizing i with
  | zero => cases h
  | succ rounds ih =>
    rw [seekLoop] at h
    split_ifs at h with hgo
    · exact ih h
    · obtain rfl := Option.some.inj h
      have hpos := d.positive code (current + i)
      exact BitVec.not_lt.mp fun hlt => hgo ⟨hlt, by omega⟩

theorem seek_ok {found : Address} {rounds : ℕ} {r : Code × Option Address} (hc : current ≠ 0#64)
    (h : ps4MachineInstructionSeek d code current (some found) offset rounds = some r) :
    ∃ i, seekLoop d code current offset rounds 0 = some i ∧ r = (ps4Ok, some (current + i)) := by
  rw [ps4MachineInstructionSeek, if_neg hc] at h
  obtain ⟨i, hloop, hr⟩ := Option.map_eq_some_iff.mp h
  refine ⟨i, hloop, ?_⟩
  rw [← hr, if_neg]
  rintro ⟨rfl, hne⟩
  exact hne (BitVec.le_zero_iff.mp (le_of_seekLoop hloop))

theorem seek_eq (hc : current ≠ 0#64) (found : Address) {n : ℕ}
    (hn : offset.toNat ≤ reached d code current n)
    (hfirst : ∀ k < n, reached d code current k < offset.toNat)
    (hfits : reached d code current n < 2 ^ 64) :
    ps4MachineInstructionSeek d code current (some found) offset (n + 1) =
      some (ps4Ok, some (current + BitVec.ofNat 64 (reached d code current n))) := by
  have hloop := seekLoop_eq hn hfirst hfits (Nat.zero_le n)
  rw [ps4MachineInstructionSeek, if_neg hc]
  change Option.map _ (seekLoop d code current offset (n - 0 + 1)
    (BitVec.ofNat 64 (reached d code current 0))) = _
  rw [hloop, Option.map_some, if_neg]
  rintro ⟨hz, hne⟩
  have hnat := congrArg BitVec.toNat hz
  rw [BitVec.toNat_ofNat, Nat.mod_eq_of_lt hfits] at hnat
  refine hne (BitVec.eq_of_toNat_eq ?_)
  have hzero : (0 : BitVec 64).toNat = 0 := rfl
  omega

/-- The search does what it is to do exactly if every instruction in front of the offset is valid
and they end in the address space; the step to the next instruction, exactly if the one it passes is
valid. -/
theorem seek_covers_iff (d : Decoder) (code : KernelMemory) {current : Address}
    (hc : current ≠ 0#64) (found : Address) (offset : BitVec 64) :
    (Seeks d code current found offset ↔
      AllValid d code current offset.toNat ∧ ∀ s, Covers d code current offset.toNat s →
      s < 2 ^ 64) ∧
    (((ps4MachineInstructionNext d code current (some found)).1 = ps4Ok →
      d.valid code current = true) ↔ d.valid code current = true) := by
  refine ⟨⟨fun h => ?_, fun ⟨hvalid, hfits⟩ => ?_⟩, ⟨fun h => h ?_, fun h _ => h⟩⟩
  · have hvalid : AllValid d code current offset.toNat := by
      by_contra hnot
      obtain ⟨rounds, hr⟩ := h.invalid hnot
      obtain ⟨i, _, he⟩ := seek_ok hc hr
      exact absurd (congrArg Prod.fst he)
        (show ¬ps4ErrorAssemblerInstructionNotDecodable = ps4Ok by decide)
    refine ⟨hvalid, fun s hs => ?_⟩
    obtain ⟨s', hs', rounds, a, _, rfl⟩ := h.valid hvalid
    rw [hs.unique hs']
    exact (a - current).isLt
  · refine ⟨fun _ => ?_, fun hnot => absurd hvalid hnot⟩
    obtain ⟨n, hn, hfirst⟩ := exists_first d code current offset.toNat
    have hcovers := covers_reached hn hfirst
    have hlt := hfits _ hcovers
    refine ⟨_, hcovers, n + 1, _, seek_eq hc found hn hfirst hlt, ?_⟩
    rw [ByteMemory.toNat_add_sub, Nat.mod_eq_of_lt hlt]
  · have hpos := d.positive code current
    rw [ps4MachineInstructionNext, if_neg hc]
    change (if d.length code current = 0 then (_ : Code × Option Address) else _).1 = ps4Ok
    rw [if_neg (by omega)]

/-- Instructions of one byte, of which `0x06` is none in 64-bit mode. -/
def bytewise : Decoder where
  length _ _ := 1
  valid code a := code a != 0x06
  positive _ _ := Nat.one_pos

private theorem reached_bytewise (code : KernelMemory) (current : Address) (n : ℕ) :
    reached bytewise code current n = n := by
  induction n with
  | zero => rfl
  | succ n ih => rw [reached, ih, bytewise]

/-- Three instructions without an operation. -/
theorem seek_covers_iff_nops : (0x400000 : Address) ≠ 0#64 ∧
    Seeks bytewise (fun _ => 0x90) 0x400000 0 3 ∧
    ((ps4MachineInstructionNext bytewise (fun _ => 0x90) 0x400000 (some 0)).1 = ps4Ok →
      bytewise.valid (fun _ => 0x90) 0x400000 = true) := by
  obtain ⟨hseek, hnext⟩ :=
    seek_covers_iff bytewise (fun _ => 0x90) (show (0x400000 : Address) ≠ 0#64 by decide) 0 3
  refine ⟨by decide, hseek.mpr ⟨fun _ _ => rfl, fun s hs => ?_⟩, hnext.mpr rfl⟩
  obtain ⟨n, hn, hfirst⟩ := exists_first bytewise (fun _ => 0x90) 0x400000 3
  have he : s = reached bytewise (fun _ => 0x90) 0x400000 n := hs.unique (covers_reached hn hfirst)
  rw [reached_bytewise] at he
  have hlt : n ≤ 3 := by
    by_contra hgt
    have h₃ := hfirst 3 (by omega)
    rw [reached_bytewise] at h₃
    omega
  omega

def undecodable : KernelMemory := fun a => if a = 0x400000 then 0x90 else 0x06

/-- A search passes what is no instruction, and so does the step to the next instruction. -/
theorem seek_passes_invalid :
    ps4MachineInstructionSeek bytewise undecodable 0x400000 (some 0) 3 4 =
      some (ps4Ok, some 0x400003) ∧
      bytewise.valid undecodable (0x400000 + BitVec.ofNat 64
        (reached bytewise undecodable 0x400000 1)) = false ∧
      ps4MachineInstructionNext bytewise undecodable 0x400001 (some 0) = (ps4Ok, some 0x400002) ∧
      bytewise.valid undecodable 0x400001 = false ∧ ¬Seeks bytewise undecodable 0x400000 0 3 := by
  refine ⟨by decide, by decide, by decide, by decide, fun h => ?_⟩
  have hnot : ¬AllValid bytewise undecodable 0x400000 3 :=
    fun hall => absurd (hall 1 (by decide)) (by decide)
  obtain ⟨rounds, hr⟩ := h.invalid hnot
  obtain ⟨i, _, he⟩ := seek_ok (by decide) hr
  exact absurd (congrArg Prod.fst he)
    (show ¬ps4ErrorAssemblerInstructionNotDecodable = ps4Ok by decide)

/-! ### The search of `Create` -/

theorem seekFrom_eq {offset n : ℕ} (hn : offset ≤ reached d code current n)
    (hfirst : ∀ k < n, reached d code current k < offset) {k : ℕ} (hk : k ≤ n) :
    FunctionHookInstallation.seekFrom (d.length code) current offset (reached d code current k) =
      reached d code current n := by
  generalize hd : n - k = r
  induction r generalizing k with
  | zero =>
    obtain rfl : k = n := by omega
    rw [FunctionHookInstallation.seekFrom, if_neg (by omega)]
  | succ r ih =>
    have hlt := hfirst k (by omega)
    rw [FunctionHookInstallation.seekFrom, if_pos ⟨hlt, d.positive _ _⟩]
    exact ih (k := k + 1) (by omega) (by omega)

/-- The search that `Create` is modelled with is this one, where no sum of lengths leaves the
address space. -/
theorem seek_eq_installation (hc : current ≠ 0#64) (found : Address)
    (hfits : ∀ s, Covers d code current offset.toNat s → s < 2 ^ 64) :
    ∃ rounds a, ps4MachineInstructionSeek d code current (some found) offset rounds =
      some (ps4Ok, some a) ∧
      FunctionHookInstallation.ps4MachineInstructionSeek (d.length code) current offset.toNat =
        .ok a := by
  obtain ⟨n, hn, hfirst⟩ := exists_first d code current offset.toNat
  have hlt := hfits _ (covers_reached hn hfirst)
  have hseek : FunctionHookInstallation.seekFrom (d.length code) current offset.toNat 0 =
    reached d code current n :=
    seekFrom_eq hn hfirst (Nat.zero_le n)
  refine ⟨n + 1, _, seek_eq hc found hn hfirst hlt, ?_⟩
  rw [FunctionHookInstallation.ps4MachineInstructionSeek, if_neg hc, hseek, if_neg (by omega)]

end

end Ps4Sdk.InstructionSeeking
