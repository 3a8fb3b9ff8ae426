import Ps4Sdk.AlignedSizes
import Ps4Sdk.KernelBase
import Mathlib.Data.List.Basic
import Mathlib.Tactic.Common

/-!
# Files loaded to aligned memory, `memory/memory.c`

`ps4MemoryAllocateFileFromPathAligned` allocates a block for a file and its padding, and reads the
file into it. What the system functions answer and what the block holds before is given. The
memory goes on behind the block.
-/

namespace Ps4Sdk.AlignedFiles

open AlignedSizes

abbrev Word := BitVec 64

/-- A file; its size is an `off_t`. -/
structure File where
  bytes : List Byte
  size_lt : bytes.length < 0x8000000000000000

def File.stSize (f : File) : Word := BitVec.ofNat 64 f.bytes.length

/-- Whether `stat` and `fopen` succeed, the address that `malloc` returns, the bytes that `fread`
transfers at most, and the live blocks. -/
structure Answers where
  stat : Bool
  malloc : Address
  fopen : Bool
  fread : ℕ
  live : List Address

structure Block where
  cells : ℕ → Byte
  stores : List ℕ

namespace Block

def store (b : Block) (i : ℕ) (v : Byte) : Block := ⟨Function.update b.cells i v, b.stores ++ [i]⟩

/-- An element of type `uint32_t` set to zero. -/
def clear (b : Block) (i : ℕ) : Block :=
  (((b.store (4 * i) 0).store (4 * i + 1) 0).store (4 * i + 2) 0).store (4 * i + 3) 0

def fread (b : Block) (bytes : List Byte) : Block :=
  ⟨fun i => (bytes[i]?).getD (b.cells i), b.stores ++ List.range bytes.length⟩

def clearLoop (b : Block) (i : ℕ) : ℕ → Block
  | 0 => b
  | n + 1 => (b.clear i).clearLoop (i + 1) n

end Block

structure Result where
  r : Code
  memory : Option Block
  size : Option Word
  live : List Address

def paddedSize (stSize alignment : Word) : Word := (stSize * alignment) / alignment

def ps4MemoryAllocateFileFromPathAligned (x : Answers) (fresh : ℕ → Byte) (memory size : Address)
    (file : File) (alignment : Word) : Result :=
  if memory = 0#64 then ⟨ps4ErrorArgumentPrimaryMissing, none, none, x.live⟩
  else if x.stat = false then ⟨ps4ErrorNotFound, none, none, x.live⟩
  else if alignment = 0#64 then ⟨ps4ErrorArgumentExpectationFailed, none, none, x.live⟩
  else
    let sz := paddedSize file.stSize alignment
    if x.malloc = 0#64 then ⟨ps4ErrorOutOfMemory, none, none, x.live⟩
    else
      let live := x.malloc :: x.live
      if x.fopen = false then ⟨ps4ErrorForbidden, none, none, live.erase x.malloc⟩
      else
        let b := (Block.mk fresh []).fread (file.bytes.take x.fread)
        let b := b.clearLoop file.stSize.toNat (sz.toNat - file.stSize.toNat)
        ⟨ps4Ok, some b, if size ≠ 0#64 then some sz else none, live⟩

/-- The file is in the block with zeros behind it up to the next multiple of the alignment, and
nothing is stored behind that. -/
structure Pads (file : File) (alignment : Word) (b : Block) (sz : Word) : Prop where
  size : IsLeast {n | alignment.toNat ∣ n ∧ file.bytes.length ≤ n} sz.toNat
  bytes : ∀ i (h : i < file.bytes.length), b.cells i = file.bytes[i]
  zeros : ∀ i, file.bytes.length ≤ i → i < sz.toNat → b.cells i = 0
  inside : ∀ i ∈ b.stores, i < sz.toNat

/-- What is asked of a result. -/
def Padded (file : File) (alignment : Word) (o : Result) : Prop :=
  o.r = ps4Ok → ∃ b sz, o.memory = some b ∧ o.size = some sz ∧ Pads file alignment b sz

/-- No check fails and the file can be opened. -/
structure Loads (x : Answers) (memory : Address) (alignment : Word) : Prop where
  memory : memory ≠ 0#64
  stat : x.stat = true
  alignment : alignment ≠ 0#64
  malloc : x.malloc ≠ 0#64
  fopen : x.fopen = true

/-! ### The size -/

private theorem toNat_stSize (file : File) : file.stSize.toNat = file.bytes.length := by
  have h := file.size_lt
  rw [File.stSize, BitVec.toNat_ofNat]
  exact Nat.mod_eq_of_lt (by omega)

private theorem toNat_paddedSize (file : File) (alignment : Word) :
    (paddedSize file.stSize alignment).toNat =
      file.bytes.length * alignment.toNat % 2 ^ 64 / alignment.toNat := by
  rw [paddedSize, BitVec.toNat_udiv, BitVec.toNat_mul, toNat_stSize]

section

variable {file : File} {alignment : Word}

private theorem paddedSize_le (file : File) (alignment : Word) :
    (paddedSize file.stSize alignment).toNat ≤ file.bytes.length := by
  rw [toNat_paddedSize]
  exact mul_mod_div_le _ _ _

private theorem paddedSize_eq_iff (h : alignment ≠ 0#64) :
    (paddedSize file.stSize alignment).toNat = file.bytes.length ↔
    file.bytes.length * alignment.toNat < 2 ^ 64 := by
  rw [toNat_paddedSize]
  exact mul_mod_div_eq_iff (toNat_pos h) (by decide)

/-! ### The block -/

/-- The block of a file that is loaded: what `fread` left of it, since no element is cleared. -/
theorem allocateFile_of_loads {x : Answers} {memory size : Address} (h : Loads x memory alignment)
    (hsize : size ≠ 0#64) (file : File) (fresh : ℕ → Byte) :
    ps4MemoryAllocateFileFromPathAligned x fresh memory size file alignment =
      ⟨ps4Ok, some ((Block.mk fresh []).fread (file.bytes.take x.fread)),
        some (paddedSize file.stSize alignment), x.malloc :: x.live⟩ := by
  have hclears : (paddedSize file.stSize alignment).toNat - file.stSize.toNat = 0 := by
    rw [toNat_stSize]
    exact Nat.sub_eq_zero_of_le (paddedSize_le file alignment)
  have hstat := h.stat
  have hfopen := h.fopen
  rw [ps4MemoryAllocateFileFromPathAligned, if_neg h.memory, if_neg (by rw [hstat]; decide),
    if_neg h.alignment]
  dsimp only
  rw [if_neg h.malloc, if_neg (by rw [hfopen]; decide), hclears, if_pos hsize]
  rfl

theorem allocateFile_of_not_loads {x : Answers} {memory size : Address}
    (h : ¬Loads x memory alignment) (fresh : ℕ → Byte) :
    (ps4MemoryAllocateFileFromPathAligned x fresh memory size file alignment).r ≠ ps4Ok := by
  rw [ps4MemoryAllocateFileFromPathAligned]
  dsimp only
  split_ifs with h₁ h₂ h₃ h₄ h₅
  · exact show ¬ps4ErrorArgumentPrimaryMissing = ps4Ok by decide
  · exact show ¬ps4ErrorNotFound = ps4Ok by decide
  · exact show ¬ps4ErrorArgumentExpectationFailed = ps4Ok by decide
  · exact show ¬ps4ErrorOutOfMemory = ps4Ok by decide
  · exact show ¬ps4ErrorForbidden = ps4Ok by decide
  all_goals exact absurd ⟨h₁, Bool.of_not_eq_false h₂, h₃, h₄, Bool.of_not_eq_false h₅⟩ h

private theorem fread_cells_of_lt (fresh : ℕ → Byte) {bytes : List Byte} {n i : ℕ} (hn : i < n)
    (h : i < bytes.length) :
    ((Block.mk fresh []).fread (bytes.take n)).cells i = bytes[i] := by
  change ((bytes.take n)[i]?).getD (fresh i) = _
  rw [List.getElem?_take_of_lt hn, List.getElem?_eq_getElem h, Option.getD_some]

private theorem fread_cells_of_le (fresh : ℕ → Byte) {bytes : List Byte} {n i : ℕ} (hn : n ≤ i) :
    ((Block.mk fresh []).fread (bytes.take n)).cells i = fresh i := by
  change ((bytes.take n)[i]?).getD (fresh i) = _
  rw [List.getElem?_eq_none (by rw [List.length_take]; omega), Option.getD_none]

/-- The block of a size that did not wrap, with all of the file read, is padded if there is nothing
to pad. -/
theorem pads_of_dvd {n : ℕ} (halignment : alignment ≠ 0#64)
    (hdvd : alignment.toNat ∣ file.bytes.length) (hfits : file.bytes.length * alignment.toNat <
      2 ^ 64) (hread : file.bytes.length ≤ n) (fresh : ℕ → Byte) :
    Pads file alignment ((Block.mk fresh []).fread (file.bytes.take n))
      (paddedSize file.stSize alignment) := by
  have hsize := (paddedSize_eq_iff halignment).mpr hfits
  refine ⟨?_, fun i hi => fread_cells_of_lt fresh (by omega) hi, fun i hle hlt => ?_,
    fun i hi => ?_⟩
  · rw [hsize, isLeast_iff (toNat_pos halignment), roundUp_of_dvd (toNat_pos halignment) hdvd]
  · omega
  · have hi : i < (file.bytes.take n).length := List.mem_range.mp hi
    rw [List.length_take] at hi
    omega

theorem Pads.dvd {b : Block} (halignment : alignment ≠ 0#64)
    (h : Pads file alignment b (paddedSize file.stSize alignment)) :
    alignment.toNat ∣ file.bytes.length ∧ file.bytes.length * alignment.toNat < 2 ^ 64 := by
  have heq : (paddedSize file.stSize alignment).toNat = file.bytes.length :=
    le_antisymm (paddedSize_le file alignment) h.size.1.2
  refine ⟨?_, (paddedSize_eq_iff halignment).mp heq⟩
  rw [← heq]
  exact h.size.1.1

end

/-- A file that is loaded is padded, whatever the memory held, if its size is a multiple of the
alignment, the product of both does not wrap, and `fread` transfers the whole file. -/
theorem allocateFile_padded_iff (x : Answers) (memory size : Address) (hsize : size ≠ 0#64)
    (file : File) (alignment : Word) :
    (∀ fresh, Padded file alignment
      (ps4MemoryAllocateFileFromPathAligned x fresh memory size file alignment)) ↔
      (Loads x memory alignment → alignment.toNat ∣ file.bytes.length ∧
        file.bytes.length * alignment.toNat < 2 ^ 64 ∧ file.bytes.length ≤ x.fread) := by
  by_cases hloads : Loads x memory alignment
  · have hresult := allocateFile_of_loads hloads hsize file
    constructor
    · intro h _
      have hpads : ∀ fresh, Pads file alignment ((Block.mk fresh []).fread
        (file.bytes.take x.fread))
          (paddedSize file.stSize alignment) := by
        intro fresh
        obtain ⟨b, sz, hb, hsz, hp⟩ := h fresh (by rw [hresult])
        rw [hresult] at hb hsz
        obtain rfl := Option.some.inj hb
        obtain rfl := Option.some.inj hsz
        exact hp
      obtain ⟨hdvd, hfits⟩ := (hpads fun _ => 0).dvd hloads.alignment
      refine ⟨hdvd, hfits, not_lt.mp fun hlt => ?_⟩
      have hbyte := (hpads fun _ => file.bytes[x.fread] + 1).bytes x.fread hlt
      rw [fread_cells_of_le _ le_rfl] at hbyte
      generalize file.bytes[x.fread] = byte at hbyte
      revert byte
      decide
    · intro h fresh _
      obtain ⟨hdvd, hfits, hread⟩ := h hloads
      rw [hresult]
      exact ⟨_, _, rfl, rfl, pads_of_dvd hloads.alignment hdvd hfits hread fresh⟩
  · refine iff_of_true (fun fresh hr => ?_) fun h => absurd h hloads
    exact absurd hr (allocateFile_of_not_loads hloads fresh)

section Examples

def answers : Answers := ⟨true, 0x1000, true, 8, []⟩

def threeBytes : File := ⟨[1, 2, 3], by decide⟩

def fourBytes : File := ⟨[1, 2, 3, 4], by decide⟩

theorem allocateFile_padded_fourBytes :
    Loads answers 16 4 ∧
    Padded fourBytes 4 (ps4MemoryAllocateFileFromPathAligned answers
      (fun _ => 0xff) 16 8 fourBytes 4) := by
  have h := allocateFile_padded_iff answers 16 8 (by decide) fourBytes 4
  exact ⟨⟨by decide, rfl, by decide, by decide, rfl⟩, h.mpr (fun _ => by decide) _⟩

/-- Three bytes at an alignment of four keep their size. At an alignment of `2 ^ 63` one byte is
allocated for them, and two are stored behind the block. -/
theorem allocateFile_not_padded :
    (ps4MemoryAllocateFileFromPathAligned answers (fun _ => 0xff) 16 8 threeBytes 4).size = some 3 ∧
    ¬Padded threeBytes 4 (ps4MemoryAllocateFileFromPathAligned answers
      (fun _ => 0xff) 16 8 threeBytes 4) ∧
    (ps4MemoryAllocateFileFromPathAligned answers (fun _ => 0xff) 16 8 threeBytes
      0x8000000000000000).size = some 1 ∧
    (ps4MemoryAllocateFileFromPathAligned answers (fun _ => 0xff) 16 8 threeBytes
      0x8000000000000000).memory.map
      Block.stores = some [0, 1, 2] := by
  refine ⟨by decide, fun h => ?_, by decide, by decide⟩
  have hloads : Loads answers 16 4 := ⟨by decide, rfl, by decide, by decide, rfl⟩
  have hsize : (8 : Address) ≠ 0#64 := by decide
  rw [allocateFile_of_loads hloads hsize] at h
  obtain ⟨b, sz, hb, hsz, hp⟩ := h rfl
  obtain rfl := Option.some.inj hsz
  exact absurd (hp.dvd hloads.alignment).1 (by decide)

end Examples

end Ps4Sdk.AlignedFiles
