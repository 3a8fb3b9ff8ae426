import Ps4Sdk.ByteMemory
import Ps4Sdk.SymbolLookUps

/-!
# The symbol table in the image of the kernel, `dlsym.c` and `seek.c`

The image is found by its magic bytes, and its dynamic section says where the symbols and
their strings are. The number of symbols is not known: the search goes on while there is
a symbol behind the current one in front of the strings.
-/

namespace Ps4Sdk.ElfSymbols
open ByteMemory HeapBlocks SymbolLookUps

abbrev Image := Memory 64 (BitVec 8)

def fieldAt (m : Image) (a n : ℕ) : ℕ := bytesValue (cellsAt m (BitVec.ofNat 64 a) n)

/-! ### The image -/

def elfMagic : List (BitVec 8) := [0x7f, 0x45, 0x4c, 0x46, 0x02, 0x01, 0x01, 0x09, 0x00]

def isElf (m : Image) (a : ℕ) : Bool := cellsAt m (BitVec.ofNat 64 a) elfMagic.length = elfMagic

def seekElf (m : Image) (a : ℕ) : ℕ → ℕ
  | 0 => 0
  | pages + 1 => if isElf m a then a else seekElf m (a + 0x4000) pages

/-- The address that the kernel has without address space randomisation, then the pages of the
range. -/
def ps4KernelSeekElfAddress (m : Image) : ℕ :=
  if isElf m 0xffffffff80700000 then 0xffffffff80700000 else seekElf m 0xffffffff80000000
    (0x02000000 / 0x4000)

/-- The two static pointers. -/
structure Tables where
  elfSymbols : ℕ
  elfStrings : ℕ
  deriving DecidableEq

/-- The entries of a dynamic section up to `DT_NULL`, with `DT_STRTAB` and `DT_SYMTAB`. -/
def readDynamic (m : Image) (d : ℕ) (t : Tables) : Tables :=
  if d < 2 ^ 64 ∧ fieldAt m d 8 ≠ 0 then
    readDynamic m (d + 16)
      (if fieldAt m d 8 = 6 then { t with elfSymbols := fieldAt m (d + 8) 8 }
        else if fieldAt m d 8 = 5 then { t with elfStrings := fieldAt m (d + 8) 8 }
        else t)
  else t
termination_by 2 ^ 64 - d

/-- The program headers, with `PT_DYNAMIC`. -/
def readHeaders (m : Image) (phdr : ℕ) : ℕ → Tables → Tables
  | 0, t => t
  | n + 1, t =>
    readHeaders m (phdr + 56) n (if fieldAt m phdr 4 =
      2 then readDynamic m (fieldAt m (phdr + 16) 8) t else t)

def ps4KernelDlSymInitialize (m : Image) (t : Tables) : Tables :=
  let kernelAddress := ps4KernelSeekElfAddress m
  if kernelAddress = 0 then t
  else readHeaders m (kernelAddress + fieldAt m (kernelAddress + 32) 8)
    (fieldAt m (kernelAddress + 56) 2) t

/-! ### The search -/

def symbolAt (m : Image) (a : ℕ) : Symbol := ⟨fieldAt m a 4, BitVec.ofNat 64 (fieldAt m (a + 8) 8)⟩

/-- The loop over the symbols, `symbol + 1 < strings`. -/
def searchTable (m : Image) (strings : ℕ) (name : List (BitVec 8)) (symbol : ℕ) :
    Except Fault Address :=
  if symbol + 24 < strings then do
    if ← compareNames (fun j => m
      (BitVec.ofNat 64 (strings + (symbolAt m symbol).name + j))) 0 name then
      return (symbolAt m symbol).value
    else searchTable m strings name (symbol + 24)
  else .ok 0#64
termination_by strings - symbol

/-- The search for a name, which is given with its terminating zero. -/
def ps4KernelDlSym (m : Image) (t : Tables) (name : List (BitVec 8)) : Except Fault Address :=
  let t := if t.elfSymbols = 0 ∨ t.elfStrings = 0 then ps4KernelDlSymInitialize m t else t
  searchTable m t.elfStrings name t.elfSymbols

/-- So many symbols from an address on. -/
def symbolsFrom (m : Image) (a : ℕ) : ℕ → List Symbol
  | 0 => []
  | n + 1 => symbolAt m a :: symbolsFrom m (a + 24) n

def stringsAt (m : Image) (strings : ℕ) : ℕ → BitVec 8 := fun j => m (BitVec.ofNat 64 (strings + j))

def named (m : Image) (t : Tables) (name : List (BitVec 8)) (symbol : Symbol) : Bool :=
  spells (fun j => stringsAt m t.elfStrings (symbol.name + j)) 0 name

def firstNamed (m : Image) (t : Tables) (n : ℕ) (name : List (BitVec 8)) : Option Symbol :=
  (symbolsFrom m t.elfSymbols n).find? (named m t name)

/-- The search visits all symbols but the last one in front of the strings. -/
theorem searchTable_eq (m : Image) (strings : ℕ) (name : List (BitVec 8)) (n symbol : ℕ)
    (h : strings = symbol + 24 * n) : searchTable m strings name symbol =
      searchSymbols (stringsAt m strings) name (symbolsFrom m symbol n).dropLast := by
  induction n generalizing symbol with
  | zero =>
    rw [searchTable, if_neg (by omega)]
    rfl
  | succ n ih =>
    cases n with
    | zero =>
      rw [searchTable, if_neg (by omega)]
      rfl
    | succ n =>
      have hnext := ih (symbol + 24) (by omega)
      have hlast : (symbolsFrom m symbol (n + 2)).dropLast =
          symbolAt m symbol :: (symbolsFrom m (symbol + 24) (n + 1)).dropLast := rfl
      rw [searchTable, if_pos (by omega), hlast, searchSymbols, hnext]
      simp only [stringsAt, Nat.add_assoc]

section Placed

variable {m : Image} {t : Tables} {n : ℕ} {name : List (BitVec 8)}

private theorem dlSym_eq_visited (hsymbols : t.elfSymbols ≠ 0)
    (hstrings : t.elfStrings = t.elfSymbols + 24 * n) :
    ps4KernelDlSym m t name =
      SymbolLookUps.ps4KernelDlSym ⟨(symbolsFrom m t.elfSymbols n).dropLast,
        stringsAt m t.elfStrings⟩ name := by
  have hset : ¬(t.elfSymbols = 0 ∨ t.elfStrings = 0) := by omega
  rw [ps4KernelDlSym, if_neg hset]
  exact searchTable_eq m t.elfStrings name n t.elfSymbols hstrings

private theorem symbolOf_visited (hname : name ≠ []) (symbols : List Symbol) :
    symbolOf ⟨symbols, stringsAt m t.elfStrings⟩ name =
      ((symbols.find? (named m t name)).map Symbol.value).getD 0#64 := by
  have hfull : (!name.isEmpty) = true := by simpa using hname
  simp only [symbolOf, hfull, Bool.true_and]
  rfl

private theorem dlSym_name (hsymbols : t.elfSymbols ≠ 0)
    (hstrings : t.elfStrings = t.elfSymbols + 24 * n) (hname : name ≠ []) (hz : 0 ∉ name) :
    ps4KernelDlSym m t (name ++ [0]) =
      .ok ((((symbolsFrom m t.elfSymbols n).dropLast.find? (named m t name)).map
        Symbol.value).getD 0#64) := by
  rw [dlSym_eq_visited hsymbols hstrings, ps4KernelDlSym_name _ hz, symbolOf_visited hname]

end Placed

/-- The result is the value of the first symbol with the name, and null if and only if there is no
such symbol or its value is null. -/
structure Answers (first : Option Symbol) (v : Address) : Prop where
  value : ∀ symbol, first = some symbol → v = symbol.value
  null : v = 0#64 ↔ ∀ symbol, first = some symbol → symbol.value = 0#64

theorem answers_iff {first : Option Symbol} {v : Address} :
    Answers first v ↔ v = (first.map Symbol.value).getD 0#64 := by
  cases first with
  | none =>
    constructor
    · intro h
      exact h.null.mpr fun _ hs => by cases hs
    · rintro rfl
      refine ⟨fun _ hs => ?_, iff_of_true rfl fun _ hs => ?_⟩
      · cases hs
      · cases hs
  | some symbol =>
    constructor
    · intro h
      exact h.value symbol rfl
    · rintro rfl
      refine ⟨fun symbol'
        hs => by cases hs; rfl, fun hv symbol' hs => by cases hs; exact hv, fun hv => ?_⟩
      exact hv symbol rfl

/-- Leaving out the last element changes what is found first only if that is the element itself. -/
theorem find_dropLast_iff (p : Symbol → Bool) (symbols : List Symbol) :
    ((symbols.dropLast.find? p).map Symbol.value).getD 0#64 =
    ((symbols.find? p).map Symbol.value).getD 0#64 ↔
      ∀ symbol, symbols.getLast? = some symbol → p symbol = true →
        symbol.value = 0#64 ∨ ∃ symbol' ∈ symbols.dropLast, p symbol' = true := by
  rcases List.eq_nil_or_concat symbols with rfl | ⟨front, last, rfl⟩
  · simp
  · rw [List.concat_eq_append, List.dropLast_concat, List.getLast?_concat, List.find?_append]
    cases hfront : front.find? p with
    | some symbol =>
      have hmem := List.mem_of_find?_eq_some hfront
      have hp := List.find?_some hfront
      refine iff_of_true (by simp) fun _ _ _ => .inr ⟨symbol, hmem, hp⟩
    | none =>
      have hnone : ¬∃ symbol ∈ front, p symbol = true := by
        rintro ⟨symbol, hmem, hp⟩
        exact List.find?_eq_none.mp hfront symbol hmem hp
      cases hlast : p last with
      | true =>
        have hkeep : ∀ v : Address, 0#64 = v ↔ v = 0#64 := fun v => eq_comm
        simp [hlast, hnone, hkeep]
      | false => simp [hlast]

/-- The search finds what is there if and only if the name is not only that of the last symbol. -/
theorem dlSym_complete_iff (m : Image) (t : Tables) (n : ℕ) (name : List (BitVec 8))
    (hsymbols : t.elfSymbols ≠ 0) (hstrings : t.elfStrings = t.elfSymbols + 24 * n)
    (hname : name ≠ []) (hz : 0 ∉ name) :
    (∃ v, ps4KernelDlSym m t (name ++ [0]) = .ok v ∧ Answers (firstNamed m t n name) v) ↔
      ∀ symbol, (symbolsFrom m t.elfSymbols n).getLast? = some symbol →
      named m t name symbol = true →
        symbol.value = 0#64 ∨
        ∃ symbol' ∈ (symbolsFrom m t.elfSymbols n).dropLast, named m t name symbol' = true := by
  rw [dlSym_name hsymbols hstrings hname hz, ← find_dropLast_iff]
  constructor
  · rintro ⟨v, hv, hanswers⟩
    rw [answers_iff] at hanswers
    exact (Except.ok.inj hv).trans hanswers
  · intro hv
    exact ⟨_, rfl, answers_iff.mpr hv⟩

/-- Two symbols with the strings behind them at 72: both are called `a`. -/
def namesakes : Image := fun x =>
  if x = 24 ∨ x = 48 then 1 else if x = 32 then 98 else if x = 56 then 99 else if x =
    73 then 97 else 0

theorem dlSym_complete_iff_namesakes : Answers (firstNamed namesakes ⟨24, 72⟩ 2 [97]) 98#64 := by
  have hlast : (symbolsFrom namesakes 24 2).dropLast = [⟨1, 98#64⟩] := rfl
  obtain ⟨v, hv, hanswers⟩ :=
    (dlSym_complete_iff namesakes ⟨24, 72⟩ 2 [97] (by decide) (by decide) (by decide)
      (by decide)).mpr fun _ _ _ => .inr
        ⟨⟨1, 98#64⟩, by rw [hlast]; exact List.mem_singleton_self _, by decide⟩
  rw [dlSym_name (n := 2) (by decide) (by decide) (by decide) (by decide)] at hv
  have hvalue : v = 98#64 := (Except.ok.inj hv).symm.trans rfl
  rwa [hvalue] at hanswers

/-- The only symbol of a table is not found. -/
theorem dlSym_misses_last : ps4KernelDlSym namesakes ⟨48, 72⟩ ([97] ++ [0]) = .ok 0#64 ∧
    firstNamed namesakes ⟨48, 72⟩ 1 [97] = some ⟨1, 99#64⟩ ∧
    ¬∃ v, ps4KernelDlSym namesakes ⟨48, 72⟩ ([97] ++ [0]) = .ok v ∧
      Answers (firstNamed namesakes ⟨48, 72⟩ 1 [97]) v := by
  have hsearch : ps4KernelDlSym namesakes ⟨48, 72⟩ ([97] ++ [0]) = .ok 0#64 := by
    rw [dlSym_name (n := 1) (by decide) (by decide) (by decide) (by decide)]
    rfl
  refine ⟨hsearch, rfl, ?_⟩
  rintro ⟨v, hv, hanswers⟩
  rw [hsearch] at hv
  have hvalue := hanswers.value ⟨1, 99#64⟩ rfl
  rw [← Except.ok.inj hv] at hvalue
  exact absurd hvalue (by decide)

end Ps4Sdk.ElfSymbols
