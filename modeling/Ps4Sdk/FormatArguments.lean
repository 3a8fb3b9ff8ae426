import Ps4Sdk.KernelBase
import Mathlib.Data.List.Basic
import Mathlib.Tactic.Common

/-!
# The arguments of a format, `kernel/socket.c`

`ps4StringEstimateFormatArguments` counts the arguments that a format asks for. A format is made of
plain characters, of doubled percent signs that stand for one, and of directives: a percent sign and
a character behind it. The memory goes on behind the terminator.
-/

namespace Ps4Sdk.FormatArguments

def percent : Byte := 0x25

/-! ### The grammar -/

inductive Piece
  | plain (c : Byte) (h : c ≠ percent)
  | literal
  | directive (c : Byte) (h : c ≠ percent)

def Piece.text : Piece → List Byte
  | .plain c _ => [c]
  | .literal => [percent, percent]
  | .directive c _ => [percent, c]

def Piece.isDirective : Piece → Bool
  | .directive _ _ => true
  | _ => false

def Piece.isLiteral : Piece → Bool
  | .literal => true
  | _ => false

def spell (ps : List Piece) : List Byte := ps.flatMap Piece.text

def directives (ps : List Piece) : ℕ := ps.countP Piece.isDirective

def literals (ps : List Piece) : ℕ := ps.countP Piece.isLiteral

@[simp] theorem spell_nil : spell [] = [] := rfl

@[simp] theorem spell_cons (p : Piece) (ps : List Piece) : spell (p :: ps) = p.text ++ spell ps :=
  List.flatMap_cons

theorem literals_eq_zero_iff {ps : List Piece} : literals ps = 0 ↔ Piece.literal ∉ ps := by
  rw [literals, List.countP_eq_zero]
  constructor
  · exact fun h hmem => h _ hmem rfl
  · intro h p hp hliteral
    cases p with
    | literal => exact h hp
    | plain c hc => cases hliteral
    | directive c hc => cases hliteral

/-- Every text is a sequence of pieces, with or without a percent sign that begins another one. -/
theorem exists_pieces : ∀ bytes : List Byte, (∃ ps, bytes = spell ps) ∨
    ∃ ps, bytes = spell ps ++ [percent]
  | [] => .inl ⟨[], rfl⟩
  | [c] => by
    by_cases hc : c = percent
    · exact .inr ⟨[], by rw [hc]; rfl⟩
    · exact .inl ⟨[.plain c hc], rfl⟩
  | c :: d :: bytes => by
    by_cases hc : c = percent
    · obtain ⟨p, hp⟩ : ∃ p : Piece, p.text = [c, d] := by
        by_cases hd : d = percent
        · exact ⟨.literal, by rw [hc, hd]; rfl⟩
        · exact ⟨.directive d hd, by rw [hc]; rfl⟩
      rcases exists_pieces bytes with ⟨ps, rfl⟩ | ⟨ps, rfl⟩
      · exact .inl ⟨p :: ps, by rw [spell_cons, hp]; rfl⟩
      · exact .inr ⟨p :: ps, by rw [spell_cons, hp]; rfl⟩
    · rcases exists_pieces (d :: bytes) with ⟨ps, hps⟩ | ⟨ps, hps⟩
      · exact .inl ⟨.plain c hc :: ps, by rw [hps]; rfl⟩
      · exact .inr ⟨.plain c hc :: ps, by rw [hps]; rfl⟩

theorem text_append_inj {p q : Piece} {x y : List Byte} (h : p.text ++ x = q.text ++ y) : p = q ∧
    x = y := by
  cases p with
  | plain c hc =>
    cases q with
    | plain d hd => simpa [Piece.text] using h
    | literal => exact absurd (List.cons.inj h).1 hc
    | directive d hd => exact absurd (List.cons.inj h).1 hc
  | literal =>
    cases q with
    | plain d hd => exact absurd (List.cons.inj h).1.symm hd
    | literal => simpa [Piece.text] using h
    | directive d hd => exact absurd (List.cons.inj (List.cons.inj h).2).1.symm hd
  | directive c hc =>
    cases q with
    | plain d hd => exact absurd (List.cons.inj h).1.symm hd
    | literal => exact absurd (List.cons.inj (List.cons.inj h).2).1 hc
    | directive d hd => simpa [Piece.text] using h

def Remainder (x : List Byte) : Prop := x = [] ∨ x = [percent]

private theorem remainder_ne_text_append {x : List Byte} (h : Remainder x) (p : Piece)
    (y : List Byte) : x ≠ p.text ++ y := by
  rcases h with rfl | rfl <;> cases p <;> simp_all [Piece.text, eq_comm]

/-- The pieces of a text and what is left behind them are unique. -/
theorem spell_append_inj {ps qs : List Piece} {x y : List Byte} (hx : Remainder x)
    (hy : Remainder y) (h : spell ps ++ x = spell qs ++ y) : ps = qs ∧ x = y := by
  induction ps generalizing qs with
  | nil =>
    cases qs with
    | nil => exact ⟨rfl, h⟩
    | cons q qs =>
      rw [spell_cons, List.append_assoc] at h
      exact absurd h (remainder_ne_text_append hx q _)
  | cons p ps ih =>
    cases qs with
    | nil =>
      rw [spell_cons, List.append_assoc] at h
      exact absurd h.symm (remainder_ne_text_append hy p _)
    | cons q qs =>
      rw [spell_cons, spell_cons, List.append_assoc, List.append_assoc] at h
      obtain ⟨rfl, hrest⟩ := text_append_inj h
      obtain ⟨rfl, hxy⟩ := ih hrest
      exact ⟨rfl, hxy⟩

private theorem spell_injective {ps qs : List Piece} (h : spell ps = spell qs) : ps = qs :=
  (spell_append_inj (.inl rfl) (.inl rfl) (congrArg (· ++ []) h)).1

private theorem spell_ne_append_percent (ps qs : List Piece) :
    spell ps ≠ spell qs ++ [percent] := by
  intro h
  rw [← List.append_nil (spell ps)] at h
  cases (spell_append_inj (.inl rfl) (.inr rfl) h).2

/-! ### The function -/

/-- The bytes of a format in front of its terminator. -/
structure Format where
  bytes : List Byte
  terminated : 0#8 ∉ bytes

/-- The memory from the format on. -/
def Format.cells (f : Format) (behind : ℕ → Byte) (i : ℕ) : Byte :=
  if i = f.bytes.length then 0#8 else (f.bytes[i]?).getD (behind i)

structure Result where
  r : Code
  count : Option ℕ
  reads : List ℕ

section

variable (format : ℕ → Byte)

/-- The loop, for a number of rounds at most. -/
def estimateLoop : ℕ → ℕ → ℕ → List ℕ → Option Result
  | 0, _, _, _ => none
  | fuel + 1, i, c, reads =>
    let reads := reads ++ [i]
    if format i = 0#8 then some ⟨ps4Ok, some c, reads⟩
    else if format i = percent then
      let c := c + 1
      let reads := reads ++ [i + 1]
      if format (i + 1) = 0#8 then some ⟨ps4ErrorArgumentMalformed, none, reads⟩
      else if format (i + 1) = percent then estimateLoop fuel (i + 2) c reads
      else estimateLoop fuel (i + 1) c reads
    else estimateLoop fuel (i + 1) c reads

def ps4StringEstimateFormatArguments (address count : Address) (fuel : ℕ) : Option Result :=
  if address = 0#64 then some ⟨ps4ErrorArgumentPrimaryMissing, none, []⟩
  else if count = 0#64 then some ⟨ps4ErrorArgumentOutMissing, none, []⟩
  else estimateLoop format fuel 0 0 []

end

/-- What is asked of a result: an error if the last percent sign begins a piece that is not there,
and else the number of directives; nothing is read behind the terminator. -/
structure Matches (f : Format) (o : Result) : Prop where
  malformed : o.r = ps4ErrorArgumentMalformed ↔ ∃ ps, f.bytes = spell ps ++ [percent]
  counted : (¬∃ ps, f.bytes = spell ps ++ [percent]) →
    o.r = ps4Ok ∧ ∃ ps, f.bytes = spell ps ∧ o.count = some (directives ps)
  inside : ∀ i ∈ o.reads, i ≤ f.bytes.length

/-! ### Runs over pieces -/

/-- The rounds that a piece takes; the character of a directive has one of its own. -/
def Piece.rounds : Piece → ℕ
  | .plain _ _ => 1
  | .literal => 1
  | .directive _ _ => 2

def Piece.counts : Piece → ℕ
  | .plain _ _ => 0
  | .literal => 1
  | .directive _ _ => 1

private theorem Piece.rounds_le (p : Piece) : p.rounds ≤ p.text.length := by
  cases p <;> simp [Piece.rounds, Piece.text]

section

variable {f : Format} {behind : ℕ → Byte}

private theorem cells_of_append {before rest : List Byte} {c : Byte}
    (h : f.bytes = before ++ c :: rest) :
    f.cells behind before.length = c := by
  have hlength := congrArg List.length h
  rw [List.length_append, List.length_cons] at hlength
  rw [Format.cells, if_neg (by omega), h]
  simp

private theorem cells_end {before : List Byte} (h : f.bytes = before) :
    f.cells behind before.length = 0#8 := by
  rw [Format.cells, if_pos (by rw [h])]

private theorem ne_zero_of_append {before rest : List Byte} {c : Byte}
    (h : f.bytes = before ++ c :: rest) : c ≠ 0#8 := by
  rintro rfl
  exact f.terminated (by rw [h]; simp)

private theorem percent_ne_zero : percent ≠ 0#8 := by decide

private theorem estimateLoop_plain {before rest : List Byte} {c : Byte}
    (h : f.bytes = before ++ c :: rest) (hc : c ≠ percent) (fuel n : ℕ) (reads : List ℕ) :
    estimateLoop (f.cells behind) (fuel + 1) before.length n reads =
      estimateLoop (f.cells behind) fuel (before.length + 1) n (reads ++ [before.length]) := by
  rw [estimateLoop, cells_of_append h]
  dsimp only
  rw [if_neg (ne_zero_of_append h), if_neg hc]

/-- A round at a percent sign that is not the last character. -/
theorem estimateLoop_percent {before rest : List Byte} {c : Byte}
    (h : f.bytes = before ++ percent :: c :: rest) (fuel n : ℕ) (reads : List ℕ) :
    estimateLoop (f.cells behind) (fuel + 1) before.length n reads =
      estimateLoop (f.cells behind) fuel (before.length + if c = percent then 2 else 1) (n + 1)
        (reads ++ [before.length] ++ [before.length + 1]) := by
  have hnext : f.bytes = (before ++ [percent]) ++ c :: rest := h.trans (List.append_cons _ _ _)
  have hcell : f.cells behind (before ++ [percent]).length = c := cells_of_append hnext
  rw [List.length_append, List.length_singleton] at hcell
  rw [estimateLoop, cells_of_append h]
  dsimp only
  rw [if_neg percent_ne_zero, if_pos rfl, hcell, if_neg (ne_zero_of_append hnext)]
  split_ifs <;> rfl

def Piece.reads (i : ℕ) : Piece → List ℕ
  | .plain _ _ => [i]
  | .literal => [i, i + 1]
  | .directive _ _ => [i, i + 1, i + 1]

private theorem Piece.lt_of_mem_reads {p : Piece} {i j : ℕ} (h : j ∈ p.reads i) :
    j < i + p.text.length := by
  cases p <;> simp_all [Piece.reads, Piece.text] <;> omega

theorem estimateLoop_piece (p : Piece) {before rest : List Byte}
    (h : f.bytes = before ++ (p.text ++ rest)) (fuel n : ℕ) (reads : List ℕ) :
    estimateLoop (f.cells behind) (fuel + p.rounds) before.length n reads =
      estimateLoop (f.cells behind) fuel (before ++ p.text).length (n + p.counts)
        (reads ++ p.reads before.length) := by
  rw [List.length_append]
  cases p with
  | plain c hc => exact estimateLoop_plain h hc fuel n reads
  | literal =>
    refine (estimateLoop_percent h fuel n reads).trans ?_
    rw [if_pos rfl, List.append_assoc]
    rfl
  | directive c hc =>
    have hnext : f.bytes = (before ++ [percent]) ++ c :: rest := h.trans (List.append_cons _ _ _)
    refine (estimateLoop_percent h (fuel + 1) n reads).trans ?_
    rw [if_neg hc, show before.length + 1 = (before ++
      [percent]).length by simp, estimateLoop_plain hnext hc]
    simp [Piece.text, Piece.counts, Piece.reads]

def rounds : List Piece → ℕ
  | [] => 0
  | p :: ps => rounds ps + p.rounds

theorem rounds_le (ps : List Piece) : rounds ps ≤ (spell ps).length := by
  induction ps with
  | nil => exact Nat.le_refl 0
  | cons p ps ih =>
    rw [spell_cons, List.length_append]
    rw [Nat.add_comm]
    exact Nat.add_le_add ih p.rounds_le

private theorem counts_add (p : Piece) (ps : List Piece) :
    p.counts + (directives ps + literals ps) = directives (p :: ps) + literals (p :: ps) := by
  cases p <;> simp [directives, literals, List.countP_cons, Piece.counts, Piece.isDirective,
    Piece.isLiteral] <;> omega

variable (behind) in
/-- The loop over a sequence of pieces counts the directives and the doubled percent signs. -/
theorem estimateLoop_spell (ps : List Piece) {before rest : List Byte}
    (h : f.bytes = before ++ (spell ps ++ rest)) (fuel n : ℕ) (reads : List ℕ)
    (hreads : ∀ i ∈ reads, i ≤ f.bytes.length) :
    ∃ reads', (∀ i ∈ reads', i ≤ f.bytes.length) ∧
      estimateLoop (f.cells behind) (fuel + rounds ps) before.length n reads =
        estimateLoop (f.cells behind) fuel (before ++ spell ps).length
          (n + (directives ps + literals ps)) reads' := by
  induction ps generalizing before n reads with
  | nil => exact ⟨reads, hreads, by rw [spell_nil, List.append_nil]; rfl⟩
  | cons p ps ih =>
    rw [spell_cons, List.append_assoc] at h
    have hnext : f.bytes = (before ++ p.text) ++ (spell ps ++ rest) := by rw [h, List.append_assoc]
    have hinside : ∀ i ∈ reads ++ p.reads before.length, i ≤ f.bytes.length := by
      intro i hi
      rcases List.mem_append.mp hi with hi | hi
      · exact hreads i hi
      · have hlt := Piece.lt_of_mem_reads hi
        have hlength := congrArg List.length h
        simp only [List.length_append] at hlength
        omega
    obtain ⟨reads', hreads', hrun⟩ := ih hnext (n + p.counts) _ hinside
    refine ⟨reads', hreads', ?_⟩
    rw [rounds, ← Nat.add_assoc, estimateLoop_piece p h, hrun, Nat.add_assoc, counts_add,
      spell_cons, List.append_assoc]

variable (behind) in
private theorem estimateLoop_pieces (ps : List Piece) {rest : List Byte}
    (h : f.bytes = spell ps ++ rest) (fuel : ℕ) :
    ∃ reads, (∀ i ∈ reads, i ≤ f.bytes.length) ∧
      estimateLoop (f.cells behind) (fuel + rounds ps) 0 0 [] =
        estimateLoop (f.cells behind) fuel (spell ps).length
          (directives ps + literals ps) reads := by
  have hstart : f.bytes = [] ++ (spell ps ++ rest) := h
  obtain ⟨reads, hreads, hrun⟩ := estimateLoop_spell behind ps hstart fuel 0 [] (by simp)
  refine ⟨reads, hreads, hrun.trans ?_⟩
  rw [List.nil_append, Nat.zero_add]

private theorem estimateLoop_end {before : List Byte} (h : f.bytes = before) (fuel n : ℕ)
    (reads : List ℕ) :
    estimateLoop (f.cells behind) (fuel + 1) before.length n reads =
      some ⟨ps4Ok, some n, reads ++ [before.length]⟩ := by
  rw [estimateLoop, cells_end h]
  rfl

theorem estimateLoop_last_percent {before : List Byte} (h : f.bytes = before ++ [percent])
    (fuel n : ℕ) (reads : List ℕ) :
    estimateLoop (f.cells behind) (fuel + 1) before.length n reads =
      some ⟨ps4ErrorArgumentMalformed, none, reads ++ [before.length] ++ [before.length + 1]⟩ := by
  have hcell : f.cells behind (before ++ [percent]).length = 0#8 := cells_end h
  rw [List.length_append, List.length_singleton] at hcell
  rw [estimateLoop, cells_of_append h]
  dsimp only
  rw [if_neg percent_ne_zero, if_pos rfl, if_pos hcell]

variable {address count : Address} {fuel : ℕ}

private theorem estimate_eq (haddress : address ≠ 0#64) (hcount : count ≠ 0#64) :
    ps4StringEstimateFormatArguments (f.cells behind) address count fuel =
      estimateLoop (f.cells behind) fuel 0 0 [] := by
  rw [ps4StringEstimateFormatArguments, if_neg haddress, if_neg hcount]

/-- A format that is made of pieces: the directives are counted, and so are the doubled percent
signs. -/
theorem estimate_of_spell (haddress : address ≠ 0#64) (hcount : count ≠ 0#64)
    (hfuel : f.bytes.length < fuel) {ps : List Piece} (h : f.bytes = spell ps) :
    ∃ reads, (∀ i ∈ reads, i ≤ f.bytes.length) ∧
      ps4StringEstimateFormatArguments (f.cells behind) address count fuel =
        some ⟨ps4Ok, some (directives ps + literals ps), reads⟩ := by
  have hrounds := rounds_le ps
  rw [← h] at hrounds
  obtain ⟨spare, rfl⟩ := Nat.exists_eq_add_of_lt (show rounds ps < fuel by omega)
  have hwhole : f.bytes = spell ps ++ [] := by rw [h, List.append_nil]
  obtain ⟨reads, hreads, hrun⟩ := estimateLoop_pieces behind ps hwhole (spare + 1)
  refine ⟨reads ++ [f.bytes.length], ?_, ?_⟩
  · intro i hi
    rcases List.mem_append.mp hi with hi | hi
    · exact hreads i hi
    · exact Nat.le_of_eq (List.mem_singleton.mp hi)
  · rw [estimate_eq haddress hcount, show rounds ps + spare + 1 =
      spare + 1 + rounds ps by omega, hrun,
      estimateLoop_end h, h]

/-- A format that ends in a percent sign behind its pieces is refused. -/
theorem estimate_of_append_percent (haddress : address ≠ 0#64) (hcount : count ≠ 0#64)
    (hfuel : f.bytes.length < fuel) {ps : List Piece} (h : f.bytes = spell ps ++ [percent]) :
    ∃ reads, (∀ i ∈ reads, i ≤ f.bytes.length) ∧
      ps4StringEstimateFormatArguments (f.cells behind) address count fuel =
        some ⟨ps4ErrorArgumentMalformed, none, reads⟩ := by
  have hrounds := rounds_le ps
  have hlength : f.bytes.length = (spell ps).length + 1 := by
    rw [h, List.length_append, List.length_singleton]
  obtain ⟨spare, rfl⟩ := Nat.exists_eq_add_of_lt (show rounds ps < fuel by omega)
  obtain ⟨reads, hreads, hrun⟩ := estimateLoop_pieces behind ps h (spare + 1)
  refine ⟨reads ++ [(spell ps).length] ++ [(spell ps).length + 1], ?_, ?_⟩
  · intro i hi
    rcases List.mem_append.mp hi with hi | hi
    · rcases List.mem_append.mp hi with hi | hi
      · exact hreads i hi
      · rw [List.mem_singleton.mp hi]
        omega
    · rw [List.mem_singleton.mp hi]
      omega
  · rw [estimate_eq haddress hcount, show rounds ps + spare + 1 =
      spare + 1 + rounds ps by omega, hrun,
      estimateLoop_last_percent h]

end

/-- The estimate is that of the grammar if the format has no doubled percent sign or is
malformed. -/
theorem estimateFormatArguments_matches_iff (f : Format) (behind : ℕ → Byte)
    (address count : Address) (haddress : address ≠ 0#64) (hcount : count ≠ 0#64) (fuel : ℕ)
    (hfuel : f.bytes.length < fuel) :
    (∃ o, ps4StringEstimateFormatArguments (f.cells behind) address count fuel = some o ∧
      Matches f o) ↔
      ∀ ps, f.bytes = spell ps → Piece.literal ∉ ps := by
  rcases exists_pieces f.bytes with ⟨ps, hps⟩ | ⟨ps, hps⟩
  · obtain ⟨reads, hreads, heq⟩ := estimate_of_spell haddress hcount hfuel hps
    have hunique : ∀ qs, f.bytes = spell qs → qs = ps :=
      fun qs hqs => spell_injective (hqs.symm.trans hps)
    have hwell : ¬∃ qs, f.bytes = spell qs ++ [percent] := by
      rintro ⟨qs, hqs⟩
      exact spell_ne_append_percent ps qs (hps.symm.trans hqs)
    rw [heq]
    constructor
    · rintro ⟨o, ho, hmatches⟩ qs hqs
      obtain rfl := Option.some.inj ho
      obtain ⟨-, qs', hqs', hcounted⟩ := hmatches.counted hwell
      have hsum : directives ps + literals ps = directives ps := by
        rw [hunique qs' hqs'] at hcounted
        exact Option.some.inj hcounted
      rw [hunique qs hqs, ← literals_eq_zero_iff]
      omega
    · intro h
      have hzero : literals ps = 0 := literals_eq_zero_iff.mpr (h ps hps)
      refine ⟨_, rfl, iff_of_false (show ¬ps4Ok = ps4ErrorArgumentMalformed by decide) hwell,
        fun _ => ?_, hreads⟩
      exact ⟨rfl, ps, hps, by rw [hzero, Nat.add_zero]⟩
  · obtain ⟨reads, hreads, heq⟩ := estimate_of_append_percent haddress hcount hfuel hps
    refine iff_of_true ⟨_, heq, iff_of_true rfl ⟨ps, hps⟩, fun h => absurd ⟨ps, hps⟩ h,
      hreads⟩ fun qs hqs => ?_
    exact absurd (hqs.symm.trans hps) (spell_ne_append_percent qs ps)

section Examples

def cutFormat : Format := ⟨[0x25, 0x64, 0x25], by decide⟩

def percentFormat : Format := ⟨[0x25, 0x25], by decide⟩

theorem estimateFormatArguments_cutFormat :
    cutFormat.bytes.length < 4 ∧
    ∃ o, ps4StringEstimateFormatArguments (cutFormat.cells fun _ => 0xff) 8 16 4 = some o ∧
    Matches cutFormat o := by
  refine ⟨by decide,
    (estimateFormatArguments_matches_iff cutFormat (fun _ => 0xff) 8 16 (by decide) (by decide) 4
    (by decide)).mpr fun ps hps => ?_⟩
  have hcut : cutFormat.bytes = spell [.directive 0x64 (by decide)] ++ [percent] := rfl
  exact absurd (hps.symm.trans hcut) (spell_ne_append_percent _ _)

/-- A doubled percent sign is counted as an argument. -/
theorem estimateFormatArguments_percentFormat :
    ∃ o, ps4StringEstimateFormatArguments (percentFormat.cells fun _ => 0xff) 8 16 3 = some o ∧
    o.r = ps4Ok ∧
      o.count = some 1 ∧ percentFormat.bytes = spell [.literal] ∧ directives [.literal] = 0 ∧
      ¬Matches percentFormat o := by
  refine ⟨_, rfl, by decide, by decide, rfl, rfl, fun h => ?_⟩
  have hwell : ¬∃ ps, percentFormat.bytes = spell ps ++ [percent] := by
    rintro ⟨ps, hps⟩
    exact spell_ne_append_percent [.literal] ps hps
  obtain ⟨-, ps, hps, hcounted⟩ := h.counted hwell
  rw [← spell_injective (show spell [.literal] = spell ps from hps)] at hcounted
  exact absurd hcounted (by decide)

end Examples

end Ps4Sdk.FormatArguments
