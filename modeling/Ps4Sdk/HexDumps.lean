import Ps4Sdk.FormattedStrings
import Ps4Sdk.HexadecimalFields
import Mathlib.Logic.Function.Basic

/-!
# Hex dumps, `standard_io.c` and `kernel/socket.c`

Both functions run the same two loops over a line buffer `b` that nothing initialises; they
differ in the call that prints. The user's one is `printf`. The kernel's one makes a string
and sends it, so an empty text would not be sent.
-/

namespace Ps4Sdk.HexDumps

open FormattedStrings HexadecimalFields

abbrev Line := Fin 19 → Byte

def cellIndex (i : ℕ) : Fin 19 := ⟨i % 16 + 1, by omega⟩

def shown (d : Byte) : Byte := if 0x20 ≤ d.toNat ∧ d.toNat ≤ 0x7e then d else 0x2e

def lineString (b : Line) : List Byte := (List.ofFn b).takeWhile (· ≠ 0#8)

/-- The format `  %s` and a newline. -/
def lineFormat (b : Line) : Formatted where
  text := [0x20, 0x20] ++ lineString b ++ [0x0a]
  fits := by
    have h : (lineString b).length ≤ (List.ofFn b).length := (List.takeWhile_sublist _).length_le
    rw [List.length_ofFn] at h
    simp only [List.length_append, List.length_cons, List.length_nil]
    omega

def addressFormat (a : Address) : Formatted := ⟨field 16 a.toNat ++ [0x20], by simp⟩

def byteFormat (d : Byte) : Formatted := ⟨0x20 :: field 2 d.toNat, by simp⟩

def spaceFormat : Formatted := ⟨[0x20], by decide⟩

def threeSpacesFormat : Formatted := ⟨[0x20, 0x20, 0x20], by decide⟩

def fourSpacesFormat : Formatted := ⟨[0x20, 0x20, 0x20, 0x20], by decide⟩

def padFormat (i : ℕ) : Formatted := if i % 16 = 8 then fourSpacesFormat else threeSpacesFormat

structure Dump where
  b : Line
  i : ℕ
  text : List Byte

section

variable (print : Formatted → List Byte) (data : Address)

def Dump.emit (s : Dump) (f : Formatted) : Dump := { s with text := s.text ++ print f }

/-- The body of the `for` loop for the byte `d[i]`. -/
def dumpByte (s : Dump) (d : Byte) : Dump :=
  let s := if s.i % 16 = 0 then
      (if s.i ≠ 0 then s.emit print (lineFormat s.b) else s).emit print
        (addressFormat (data + BitVec.ofNat 64 s.i))
    else s
  let s := if s.i % 16 = 8 then s.emit print spaceFormat else s
  let s := s.emit print (byteFormat d)
  { s with b := Function.update s.b (cellIndex s.i) (shown d), i := s.i + 1 }

/-- The `while` loop, which fills the last line. -/
def padLine (s : Dump) : Dump :=
  if s.i % 16 ≠ 0 then
    let p := s.emit print (padFormat s.i)
    padLine { p with b := Function.update s.b (cellIndex s.i) 0x2e, i := s.i + 1 }
  else s
termination_by (16 - s.i % 16) % 16
decreasing_by omega

def frame (b : Line) : Line :=
  Function.update (Function.update (Function.update b 0 0x7c) 17 0x7c) 18 0

def hexDump (bytes : List Byte) (b : Line) : List Byte :=
  let s := padLine print (bytes.foldl (dumpByte print data) ⟨frame b, 0, []⟩)
  (s.emit print (lineFormat s.b)).text

end

def printf (f : Formatted) : List Byte := f.text

def ps4StandardIoPrintHexDump (data : Address) (bytes : List Byte) (b : Line) : Code × List Byte :=
  if data = 0#64 then (ps4ErrorArgumentPrimaryMissing, []) else (ps4Ok, hexDump printf data bytes b)

/-- What the kernel's print finds: whether the page at zero is mapped, the address that `malloc`
returns, which sleeps until there is one, the addresses of its two local variables, and what
`sosend` returns. -/
structure Printing where
  nullMapped : Bool
  s : Address
  msg : Address
  size : Address
  sosend : List Byte → Code
  s_ne : s ≠ 0#64
  msg_ne : msg ≠ 0#64
  size_ne : size ≠ 0#64

section

variable (k : Printing) (td sock : Address)

/-- The second component is what `sosend` is given. -/
def ps4KernelSocketSend (data : List Byte) (size : ℕ) : Code × List Byte :=
  if td = 0#64 then (ps4ErrorArgumentThreadMissing, [])
  else if sock = 0#64 then (ps4ErrorArgumentPrimaryMissing, [])
  else if size = 0 then (ps4ErrorArgumentSizeNull, [])
  else (k.sosend (data.take size), data.take size)

/-- Without a result the call does not return. -/
def ps4KernelSocketPrintSizedWithArgumentList (sz : BitVec 64) (format : Option Formatted) :
    Option (Code × List Byte) :=
  if td = 0#64 then some (ps4ErrorArgumentThreadMissing, [])
  else
    match format with
    | none => some (ps4ErrorArgumentMissing, [])
    | some f =>
      (ps4KernelMemoryAllocateStringWithArgumentList k.nullMapped k.s k.msg k.size sz
          (some f)).map fun
        | (r, none) => (r, [])
        | (_, some o) => ps4KernelSocketSend k td sock o.string o.size

theorem print_unlimited_isSome (format : Option Formatted) :
    (ps4KernelSocketPrintSizedWithArgumentList k td sock 0 format).isSome := by
  by_cases htd : td = 0#64
  · simp [ps4KernelSocketPrintSizedWithArgumentList, htd]
  · cases format with
    | none => simp [ps4KernelSocketPrintSizedWithArgumentList, htd]
    | some f =>
      rw [ps4KernelSocketPrintSizedWithArgumentList, if_neg htd,
        allocateString_unlimited k.s_ne k.msg_ne k.size_ne]
      rfl

/-- The print has no limit, so it returns. -/
def ps4KernelSocketPrint (format : Option Formatted) : Code × List Byte :=
  (ps4KernelSocketPrintSizedWithArgumentList k td sock 0 format).get
    (print_unlimited_isSome k td sock format)

def ps4KernelSocketPrintHexDump (data : Address) (bytes : List Byte) (b : Line) :
    Code × List Byte :=
  if td = 0#64 then (ps4ErrorArgumentThreadMissing, [])
  else if sock = 0#64 then (ps4ErrorArgumentPrimaryMissing, [])
  else if data = 0#64 then (ps4ErrorArgumentMissing, [])
  else (ps4Ok, hexDump (fun f => (ps4KernelSocketPrint k td sock (some f)).2) data bytes b)

end

def Prints (print : Formatted → List Byte) : Prop := ∀ f, f.text ≠ [] → print f = f.text

private theorem printf_prints : Prints printf := fun _ _ => rfl

theorem ps4KernelSocketPrint_prints (k : Printing) {td sock : Address} (htd : td ≠ 0#64)
    (hsock : sock ≠ 0#64) :
    Prints fun f => (ps4KernelSocketPrint k td sock (some f)).2 := by
  intro f hf
  have hlength : f.text.length ≠ 0 := fun h => hf (List.length_eq_zero_iff.mp h)
  have hprint : ps4KernelSocketPrintSizedWithArgumentList k td sock 0 (some f) =
      some (ps4KernelSocketSend k td sock (f.text ++ [0#8]) f.text.length) := by
    rw [ps4KernelSocketPrintSizedWithArgumentList, if_neg htd,
      allocateString_unlimited k.s_ne k.msg_ne k.size_ne, if_neg hlength]
    rfl
  change (ps4KernelSocketPrint k td sock (some f)).2 = f.text
  rw [ps4KernelSocketPrint, Option.get_of_eq_some _ hprint, ps4KernelSocketSend, if_neg htd,
    if_neg hsock, if_neg hlength]
  exact List.take_left

section

variable (data : Address) (bytes : List Byte)

def fieldText (i : ℕ) : List Byte :=
  match bytes[i]? with
  | some d => 0x20 :: field 2 d.toNat
  | none => [0x20, 0x20, 0x20]

def column (i : ℕ) : Byte :=
  match bytes[i]? with
  | some d => shown d
  | none => 0x2e

def opening (r : ℕ) : List Byte :=
  field 16 (data + BitVec.ofNat 64 (16 * r)).toNat ++ [0x20] ++
    ((List.range 8).flatMap (fun c => fieldText bytes (16 * r + c)) ++ ([0x20] ++
      (List.range 8).flatMap (fun c => fieldText bytes (16 * r + (8 + c)))))

def closing (r : ℕ) : List Byte :=
  [0x20, 0x20, 0x7c] ++ (List.range 16).map (fun c => column bytes (16 * r + c)) ++ [0x7c, 0x0a]

def row (r : ℕ) : List Byte := opening data bytes r ++ closing bytes r

def piece (i : ℕ) : List Byte :=
  (if i % 16 = 0 then
    (if i ≠ 0 then closing bytes (i / 16 - 1) else []) ++
      (field 16 (data + BitVec.ofNat 64 i).toNat ++ [0x20])
  else []) ++ ((if i % 16 = 8 then [0x20] else []) ++ fieldText bytes i)

def fieldStart (c : ℕ) : ℕ := if c < 8 then 17 + 3 * c else 18 + 3 * c

def readByte (text : List Byte) : Option Byte := (readField (text.drop 1)).map (BitVec.ofNat 8)

def readBytes (text : List Byte) : List Byte :=
  (List.range 16).filterMap fun c => readByte ((text.drop (fieldStart c)).take 3)

/-- The rows of a dump: lines of one width, the first sixteen characters the address, then the hex
fields, and the text column, in which a printable byte stands in its place and a dot elsewhere. -/
structure IsDump (rows : List (List Byte)) : Prop where
  count : rows.length = (bytes.length + 15) / 16
  lines : ∀ text ∈ rows, ∃ line : List Byte, text = line ++ [0x0a] ∧ line.length = 86 ∧ 0x0a ∉ line
  address : ∀ r (h : r < rows.length), readField (rows[r].take 16) =
    some (data + BitVec.ofNat 64 (16 * r)).toNat
  parsed : rows.flatMap readBytes = bytes
  printable : ∀ r (h : r < rows.length), ∀ c < 16, ∀ d, bytes[16 * r + c]? = some d →
    0x20 ≤ d.toNat → d.toNat ≤ 0x7e → rows[r][69 + c]? = some d
  dots : ∀ r (h : r < rows.length), ∀ c < 16,
    (∀ d, bytes[16 * r + c]? = some d → d.toNat < 0x20 ∨ 0x7e < d.toNat) →
      rows[r][69 + c]? = some 0x2e

/-- The state of the loops after the rounds for the first positions: the cells of the last sixteen
of them stand in the line buffer. -/
structure Reached (s : Dump) : Prop where
  text : s.text = (List.range s.i).flatMap (piece data bytes)
  left : s.b 0 = 0x7c
  right : s.b 17 = 0x7c
  terminator : s.b 18 = 0
  cells : ∀ j < s.i, s.i ≤ j + 16 → s.b (cellIndex j) = column bytes j

end

section

variable {print : Formatted → List Byte} {data : Address} {bytes : List Byte}

private theorem le_shown (d : Byte) : 0x20 ≤ (shown d).toNat := by
  unfold shown
  split_ifs with h
  · exact h.1
  · decide

private theorem le_column (i : ℕ) : 0x20 ≤ (column bytes i).toNat := by
  unfold column
  split
  · exact le_shown _
  · decide

private theorem column_printable {i : ℕ} {d : Byte} (h : bytes[i]? = some d) (hlow : 0x20 ≤ d.toNat)
    (hhigh : d.toNat ≤ 0x7e) : column bytes i = d := by
  rw [column, h]
  exact if_pos ⟨hlow, hhigh⟩

theorem column_dot {i : ℕ} (h : ∀ d, bytes[i]? = some d → d.toNat < 0x20 ∨ 0x7e < d.toNat) :
    column bytes i = 0x2e := by
  unfold column
  split
  · rename_i d hd
    have hout := h d hd
    exact if_neg (by omega)
  · rfl

private theorem column_ne {d : Byte} (hd : d.toNat < 0x20) (i : ℕ) : column bytes i ≠ d := by
  rintro rfl
  exact Nat.not_lt.mpr (le_column i) hd

private theorem cellIndex_ne {i j : ℕ} (hj : j < i) (hi : i < j + 16) :
    cellIndex j ≠ cellIndex i := by
  intro h
  have hval : j % 16 + 1 = i % 16 + 1 := congrArg Fin.val h
  omega

/-- At the end of a row the buffer holds exactly the cells of this row. -/
theorem Reached.line {s : Dump} (h : Reached data bytes s) {r : ℕ} (hr : s.i = 16 * (r + 1)) :
    (lineFormat s.b).text = closing bytes r := by
  have hcell : ∀ c (hc : c < 16), s.b ⟨c + 1, by omega⟩ = column bytes (16 * r + c) := by
    intro c hc
    rw [← h.cells (16 * r + c) (by omega) (by omega)]
    congr 1
    exact Fin.ext (by change c + 1 = (16 * r + c) % 16 + 1; omega)
  have hcells : List.ofFn s.b =
      0x7c :: ((List.range 16).map (fun c => column bytes (16 * r + c)) ++ [0x7c, 0]) := by
    have hb : s.b = fun n => if n = 0 then 0x7c else if n = 17 then 0x7c else if n = 18 then 0
        else column bytes (16 * r + (n.val - 1)) := by
      funext n
      split_ifs with hleft hright hend
      · rw [hleft, h.left]
      · rw [hright, h.right]
      · rw [hend, h.terminator]
      · have hn : n.val - 1 < 16 ∧ n.val - 1 + 1 = n.val := by omega
        rw [← hcell (n.val - 1) hn.1]
        exact congrArg s.b (Fin.ext hn.2.symm)
    rw [hb]
    rfl
  have hstring : lineString s.b =
      0x7c :: ((List.range 16).map (fun c => column bytes (16 * r + c)) ++ [0x7c]) := by
    rw [lineString, hcells, List.takeWhile_cons_of_pos (by decide), List.takeWhile_append_of_pos]
    · rfl
    · intro d hd
      obtain ⟨c, _, rfl⟩ := List.mem_map.mp hd
      exact decide_eq_true (column_ne (by decide) _)
  change [0x20, 0x20] ++ lineString s.b ++ [0x0a] = _
  rw [hstring, closing]
  simp

/-- One round, for a byte or for a position behind the last one. -/
theorem Reached.next {s t : Dump} (h : Reached data bytes s) (hi : t.i = s.i + 1)
    (hb : t.b = Function.update s.b (cellIndex s.i) (column bytes s.i))
    (htext : t.text = s.text ++ piece data bytes s.i) : Reached data bytes t := by
  have hfixed : ∀ n : Fin 19, n ≠ cellIndex s.i → t.b n = s.b n := fun n hn => by
    rw [hb, Function.update_of_ne hn]
  have hbound : (cellIndex s.i).val ≤ 16 ∧ 1 ≤ (cellIndex s.i).val := by
    change s.i % 16 + 1 ≤ 16 ∧ 1 ≤ s.i % 16 + 1
    omega
  refine ⟨?_, ?_, ?_, ?_, fun j hj hlast => ?_⟩
  · rw [htext, h.text, hi, List.range_succ, List.flatMap_append, List.flatMap_singleton]
  · rw [hfixed 0 fun e => by rw [← e] at hbound; exact absurd hbound (by decide), h.left]
  · rw [hfixed 17 fun e => by rw [← e] at hbound; exact absurd hbound (by decide), h.right]
  · rw [hfixed 18 fun e => by rw [← e] at hbound; exact absurd hbound (by decide), h.terminator]
  · rw [hi] at hj hlast
    rcases Nat.lt_succ_iff_lt_or_eq.mp hj with hlt | rfl
    · rw [hfixed _ (cellIndex_ne hlt (by omega)), h.cells j hlt (by omega)]
    · rw [hb, Function.update_self]

private theorem lineFormat_ne_nil (b : Line) : (lineFormat b).text ≠ [] := List.cons_ne_nil _ _

private theorem addressFormat_ne_nil (a : Address) :
    (addressFormat a).text ≠ [] := by simp [addressFormat]

/-- What the body of the loop prints, and what it leaves in the buffer. -/
theorem dumpByte_eq (s : Dump) (d : Byte) :
    dumpByte print data s d = ⟨Function.update s.b (cellIndex s.i) (shown d), s.i + 1, s.text ++
      ((if s.i % 16 = 0 then
        (if s.i ≠ 0 then print (lineFormat s.b) else []) ++
          print (addressFormat (data + BitVec.ofNat 64 s.i))
      else []) ++ ((if s.i % 16 = 8 then print spaceFormat else []) ++ print (byteFormat d)))⟩ := by
  by_cases hzero : s.i % 16 = 0
  · have hgap : ¬s.i % 16 = 8 := by omega
    by_cases hfirst : s.i = 0
    · simp [dumpByte, Dump.emit, hfirst]
    · simp [dumpByte, Dump.emit, hzero, hfirst]
  · by_cases hgap : s.i % 16 = 8
    · simp [dumpByte, Dump.emit, hgap]
    · simp [dumpByte, Dump.emit, hzero, hgap]

theorem dumpByte_reached (hprint : Prints print) {s : Dump} (h : Reached data bytes s) {d : Byte}
    (hd : bytes[s.i]? = some d) : Reached data bytes (dumpByte print data s d) := by
  have hbyte : print (byteFormat d) = fieldText bytes s.i := by
    rw [hprint _ (List.cons_ne_nil _ _), fieldText, hd]
    rfl
  rw [dumpByte_eq]
  refine h.next rfl ?_ ?_
  · change Function.update _ _ _ = Function.update _ _ _
    rw [column, hd]
  · change s.text ++ _ = s.text ++ _
    rw [piece, hbyte, hprint _ (addressFormat_ne_nil _), hprint spaceFormat (List.cons_ne_nil _ _)]
    by_cases hzero : s.i % 16 = 0
    · rw [if_pos hzero, if_pos hzero]
      by_cases hfirst : s.i = 0
      · rw [if_neg (not_not_intro hfirst), if_neg (not_not_intro hfirst)]
        rfl
      · rw [if_pos hfirst, if_pos hfirst, hprint _ (lineFormat_ne_nil _),
          h.line (r := s.i / 16 - 1) (by omega)]
        rfl
    · rw [if_neg hzero, if_neg hzero]
      rfl

theorem padLine_reached (hprint : Prints print) (s : Dump) (h : Reached data bytes s)
    (hend : bytes.length ≤ s.i) :
    Reached data bytes (padLine print s) ∧ (padLine print s).i = 16 * ((s.i + 15) / 16) := by
  fun_induction padLine print s with
  | case1 s hmod p ih =>
    have hnone : bytes[s.i]? = none := List.getElem?_eq_none hend
    have hnext : (s.i + 1 + 15) / 16 = (s.i + 15) / 16 := by omega
    have htext : p.text = s.text ++ piece data bytes s.i := by
      change s.text ++ print _ = _
      rw [piece, if_neg hmod, fieldText, hnone, padFormat]
      by_cases hgap : s.i % 16 = 8
      · rw [if_pos hgap, if_pos hgap, hprint _ (List.cons_ne_nil _ _)]
        rfl
      · rw [if_neg hgap, if_neg hgap, hprint _ (List.cons_ne_nil _ _)]
        rfl
    have hdone := ih (h.next rfl (by rw [column, hnone]) htext) (Nat.le_succ_of_le hend)
    rw [hnext] at hdone
    exact hdone
  | case2 s hmod => exact ⟨h, by omega⟩

theorem foldl_reached (hprint : Prints print) (rest : List Byte) :
    ∀ (before : List Byte) (s : Dump), bytes = before ++ rest → s.i = before.length →
    Reached data bytes s →
      Reached data bytes (rest.foldl (dumpByte print data) s) ∧
        (rest.foldl (dumpByte print data) s).i = bytes.length := by
  induction rest with
  | nil =>
    intro before s hbytes hi h
    rw [List.append_nil] at hbytes
    exact ⟨h, by rw [hbytes]; exact hi⟩
  | cons d rest ih =>
    intro before s hbytes hi h
    have hd : bytes[s.i]? = some d := by rw [hbytes, hi]; simp
    rw [List.foldl_cons]
    refine ih (before ++ [d]) _ (by rw [hbytes]; simp) ?_ (dumpByte_reached hprint h hd)
    rw [dumpByte_eq, List.length_append]
    exact congrArg (· + 1) hi

variable (data bytes) in
private theorem frame_reached (b : Line) : Reached data bytes ⟨frame b, 0, []⟩ :=
  ⟨rfl, rfl, rfl, rfl, fun j hj => absurd hj (Nat.not_lt_zero j)⟩

variable (data bytes) in
/-- The pieces of one row, in front of which the row before is closed. -/
theorem flatMap_piece (r : ℕ) : (List.range 16).flatMap (fun c => piece data bytes (16 * r + c)) =
    (if r ≠ 0 then closing bytes (r - 1) else []) ++ opening data bytes r := by
  have hother : ∀ c < 16, c ≠ 0 → c ≠ 8 →
      piece data bytes (16 * r + c) = fieldText bytes (16 * r + c) := by
    intro c hc hzero hgap
    rw [piece, if_neg (by omega), if_neg (by omega)]
    rfl
  have hgap : piece data bytes (16 * r + 8) = [0x20] ++ fieldText bytes (16 * r + 8) := by
    rw [piece, if_neg (by omega), if_pos (by omega)]
    rfl
  have hfirst : piece data bytes (16 * r + 0) = (if r ≠ 0 then closing bytes (r - 1) else []) ++
      (field 16 (data + BitVec.ofNat 64 (16 * r)).toNat ++ [0x20]) ++
        fieldText bytes (16 * r + 0) := by
    have hdiv : (16 * r + 0) / 16 = r := by omega
    rw [piece, if_pos (show (16 * r + 0) % 16 = 0 by omega),
      if_neg (show ¬(16 * r + 0) % 16 = 8 by omega), hdiv]
    by_cases hr : r = 0
    · subst hr
      rfl
    · rw [if_pos (show 16 * r + 0 ≠ 0 by omega), if_pos hr]
      rfl
  have hleft := flatMap_range_lead (f := fun c => piece data bytes (16 * r + c))
    (g := fun c => fieldText bytes (16 * r + c)) (n := 7) hfirst fun c hc =>
      hother (c + 1) (by omega) (by omega) (by omega)
  have hright := flatMap_range_lead (f := fun c => piece data bytes (16 * r + (8 + c)))
    (g := fun c => fieldText bytes (16 * r + (8 + c))) (n := 7) hgap fun c hc =>
      hother (8 + (c + 1)) (by omega) (by omega) (by omega)
  rw [List.range_add (n := 8) (m := 8), List.flatMap_append, List.flatMap_map,
    hleft, hright, opening]
  simp only [List.append_assoc]

variable (data bytes) in
theorem rows_eq (r : ℕ) :
    (List.range (16 * (r + 1))).flatMap (piece data bytes) ++ closing bytes r =
    (List.range (r + 1)).flatMap (row data bytes) := by
  induction r with
  | zero =>
    have hfirst := flatMap_piece data bytes 0
    simp only [Nat.mul_zero, Nat.zero_add] at hfirst
    rw [Nat.zero_add, Nat.mul_one, hfirst, List.range_one, List.flatMap_singleton,
      if_neg (by decide), List.nil_append, row]
  | succ r ih =>
    have hrow : (List.range (16 * (r + 1 + 1))).flatMap (piece data bytes) =
        (List.range (16 * (r + 1))).flatMap (piece data bytes) ++
        (closing bytes r ++ opening data bytes (r + 1)) := by
      rw [Nat.mul_succ 16 (r + 1), List.range_add, List.flatMap_append,
        List.flatMap_map, flatMap_piece]
      rfl
    rw [List.range_succ, List.flatMap_append, ← ih, List.flatMap_singleton, hrow, row]
    simp only [List.append_assoc]

/-- The text is made of the rows, whatever was in the line buffer. -/
theorem hexDump_eq (hprint : Prints print) (hbytes : bytes ≠ []) (b : Line) :
    hexDump print data bytes b =
      (List.range ((bytes.length + 15) / 16)).flatMap (row data bytes) := by
  obtain ⟨hall, hi⟩ :=
    foldl_reached hprint bytes [] _ (List.nil_append bytes).symm rfl (frame_reached data bytes b)
  obtain ⟨hend, hlast⟩ := padLine_reached hprint _ hall (le_of_eq hi.symm)
  have hpos : 0 < bytes.length := List.length_pos_iff.mpr hbytes
  obtain ⟨r, hr⟩ : ∃ r, (bytes.length + 15) / 16 = r + 1 := ⟨(bytes.length + 15) / 16 - 1, by omega⟩
  rw [hi, hr] at hlast
  rw [hr, ← rows_eq, ← hlast, ← hend.text, ← hend.line hlast, ← hprint _ (lineFormat_ne_nil _)]
  rfl

variable (bytes) in
private theorem length_fieldText (i : ℕ) : (fieldText bytes i).length = 3 := by
  unfold fieldText
  split <;> simp

private theorem length_opening (r : ℕ) : (opening data bytes r).length = 66 := by
  simp only [opening, List.length_append, length_field, List.length_cons, List.length_nil,
    length_flatMap_blocks (fun c => length_fieldText bytes _), List.length_range]

theorem field_row (r : ℕ) {c : ℕ} (hc : c < 16) :
    ((row data bytes r).drop (fieldStart c)).take 3 = fieldText bytes (16 * r + c) := by
  rw [row, opening, fieldStart]
  by_cases hhalf : c < 8
  · rw [if_pos hhalf, ← List.drop_drop, List.append_assoc, List.drop_left' (by simp),
      List.append_assoc, take_drop_flatMap (fun c => length_fieldText bytes _)
        (by simpa using hhalf), List.getElem_range]
  · have hcolumn : c = 8 + (c - 8) := by omega
    have hstart : 18 + 3 * c = 17 + (24 + (1 + 3 * (c - 8))) := by omega
    rw [if_neg hhalf, hstart, ← List.drop_drop, List.append_assoc, List.drop_left' (by simp),
      ← List.drop_drop, List.append_assoc, List.drop_left'
        (by rw [length_flatMap_blocks fun c => length_fieldText bytes _]; rfl), ← List.drop_drop,
      List.append_assoc, List.drop_left' List.length_singleton,
      take_drop_flatMap (fun c => length_fieldText bytes _) (by simp; omega),
      List.getElem_range, ← hcolumn]

theorem readByte_fieldText (i : ℕ) : readByte (fieldText bytes i) = bytes[i]? := by
  unfold fieldText
  split <;> rename_i h
  · rename_i d
    rw [h, readByte, List.drop_one, List.tail_cons, readField_field d.isLt, Option.map_some,
      BitVec.ofNat_toNat, BitVec.setWidth_eq]
  · rw [h]
    rfl

private theorem readBytes_row (r : ℕ) :
    readBytes (row data bytes r) = (bytes.drop (16 * r)).take 16 := by
  rw [← filterMap_range_getElem?, readBytes]
  refine List.filterMap_congr fun c hc => ?_
  rw [field_row r (List.mem_range.mp hc), readByte_fieldText]

theorem newline_notMem_fieldText (i : ℕ) : 0x0a#8 ∉ fieldText bytes i := by
  unfold fieldText
  split
  · rw [List.mem_cons]
    rintro (h | h)
    · exact absurd h (by decide)
    · exact notMem_field (by decide) _ _ h
  · decide

theorem newline_notMem_opening (r : ℕ) : 0x0a#8 ∉ opening data bytes r := by
  simp only [opening, List.mem_append, List.mem_singleton, List.mem_flatMap]
  rintro ((h | h) | ⟨c, _, h⟩ | h | ⟨c, _, h⟩)
  · exact notMem_field (by decide) _ _ h
  · exact absurd h (by decide)
  · exact newline_notMem_fieldText _ h
  · exact absurd h (by decide)
  · exact newline_notMem_fieldText _ h

theorem row_line (r : ℕ) : ∃ line : List Byte, row data bytes r = line ++ [0x0a] ∧
    line.length = 86 ∧ 0x0a ∉ line := by
  refine ⟨opening data bytes r ++ ([0x20, 0x20, 0x7c] ++
    (List.range 16).map (fun c => column bytes (16 * r + c)) ++ [0x7c]), ?_, ?_, ?_⟩
  · rw [row, closing]
    simp
  · simp [length_opening]
  · rw [List.mem_append, List.mem_append, List.mem_append, List.mem_map]
    rintro (h | (h | ⟨c, _, h⟩) | h)
    · exact newline_notMem_opening r h
    · exact absurd h (by decide)
    · exact column_ne (by decide) _ h
    · exact absurd h (by decide)

theorem cell_row (r : ℕ) {c : ℕ} (hc : c < 16) :
    (row data bytes r)[69 + c]? = some (column bytes (16 * r + c)) := by
  have hcells : ((row data bytes r).drop 69).take 16 =
      (List.range 16).map fun c => column bytes (16 * r + c) := by
    rw [row, closing, ← List.append_assoc, ← List.append_assoc, List.append_assoc,
      List.drop_left' (by simp [length_opening]), List.take_left' (by simp)]
  rw [← List.getElem?_drop, ← List.getElem?_take_of_lt hc, hcells, List.getElem?_map,
    List.getElem?_range hc, Option.map_some]

theorem rows_isDump :
    IsDump data bytes ((List.range ((bytes.length + 15) / 16)).map (row data bytes)) := by
  refine ⟨by simp, ?_, ?_, ?_, ?_, ?_⟩
  · intro text htext
    obtain ⟨r, _, rfl⟩ := List.mem_map.mp htext
    exact row_line r
  · intro r hr
    rw [List.getElem_map, List.getElem_range, row, opening, List.append_assoc, List.append_assoc,
      List.take_left' (length_field _ _)]
    exact readField_field (BitVec.isLt _)
  · rw [List.flatMap_map, List.flatMap_congr fun r _ => readBytes_row r, flatMap_range_pieces]
    exact List.take_of_length_le (by omega)
  · intro r hr c hc d hd hlow hhigh
    rw [List.getElem_map, List.getElem_range, cell_row r hc, column_printable hd hlow hhigh]
  · intro r hr c hc hout
    rw [List.getElem_map, List.getElem_range, cell_row r hc, column_dot hout]

end


/-- Both functions print the same text, and it is a dump of the bytes. -/
theorem hexDumps_faithful (k : Printing) {td sock : Address} (htd : td ≠ 0#64) (hsock : sock ≠ 0#64)
    (data : Address) {bytes : List Byte} (hbytes : bytes ≠ []) (b b' : Line) :
    (ps4KernelSocketPrintHexDump k td sock data bytes b').2 =
    (ps4StandardIoPrintHexDump data bytes b).2 ∧
      (data ≠ 0#64 → ∃ rows, ps4StandardIoPrintHexDump data bytes b = (ps4Ok, rows.flatten) ∧
        IsDump data bytes rows) := by
  rw [ps4KernelSocketPrintHexDump, if_neg htd, if_neg hsock, ps4StandardIoPrintHexDump]
  by_cases hdata : data = 0#64
  · rw [if_pos hdata, if_pos hdata]
    exact ⟨rfl, fun h => absurd hdata h⟩
  · rw [if_neg hdata, if_neg hdata, hexDump_eq printf_prints hbytes b,
      hexDump_eq (ps4KernelSocketPrint_prints k htd hsock) hbytes b']
    exact ⟨rfl, fun _ => ⟨_, rfl, rows_isDump⟩⟩

/-- A print that finds memory and sends everything. -/
def plainPrinting : Printing where
  nullMapped := false
  s := 0x1000
  msg := 0x2000
  size := 0x3000
  sosend := fun _ => ps4Ok
  s_ne := by decide
  msg_ne := by decide
  size_ne := by decide

theorem hexDumps_faithful_letters :
    ∃ rows, ps4StandardIoPrintHexDump 0x4000 [0x61, 0x62, 0x63] (fun _ => 0) =
      (ps4Ok, rows.flatten) ∧
      IsDump 0x4000 [0x61, 0x62, 0x63] rows :=
  (hexDumps_faithful plainPrinting (show (0x5000 : Address) ≠ 0#64 by decide)
    (show (0x6000 : Address) ≠ 0#64 by decide) 0x4000 (List.cons_ne_nil _ _) (fun _ => 0) fun _ =>
      0).2 (by decide)

/-- Without bytes the last line is the line buffer as it was found. -/
theorem hexDump_nil {print : Formatted → List Byte} (hprint : Prints print)
    (data : Address) (b : Line) :
    hexDump print data [] b = [0x20, 0x20] ++ lineString (frame b) ++ [0x0a] := by
  have hpad : padLine print ⟨frame b, 0, []⟩ = ⟨frame b, 0, []⟩ := by
    rw [padLine]
    exact if_neg (not_not_intro (Nat.zero_mod 16))
  have hdump : hexDump print data [] b = print (lineFormat (frame b)) := by
    simp only [hexDump, List.foldl_nil, hpad]
    rfl
  rw [hdump, hprint _ (lineFormat_ne_nil _)]
  rfl

private theorem hexDump_nil_ne {print : Formatted → List Byte} (hprint : Prints print)
    (data : Address) :
    hexDump print data [] (fun _ => 0x41) ≠ hexDump print data [] fun _ => 0x42 := by
  rw [hexDump_nil hprint, hexDump_nil hprint]
  decide

private theorem hexDump_same_iff {print : Formatted → List Byte} (hprint : Prints print)
    (data : Address) (bytes : List Byte) :
    (∀ b b' : Line, (ps4Ok, hexDump print data bytes b) = (ps4Ok, hexDump print data bytes b')) ↔
    bytes ≠ [] := by
  refine ⟨?_, fun hbytes b b' => by rw [hexDump_eq hprint hbytes b, hexDump_eq hprint hbytes b']⟩
  rintro hsame rfl
  exact hexDump_nil_ne hprint data (congrArg Prod.snd (hsame (fun _ => 0x41) fun _ => 0x42))

/-- The text does not depend on what was in the line buffer exactly if there is a byte, or nothing
is printed. -/
theorem hexDump_hides_iff (k : Printing) (td sock data : Address) (bytes : List Byte) :
    ((∀ b b' : Line, ps4StandardIoPrintHexDump data bytes b =
      ps4StandardIoPrintHexDump data bytes b') ↔ data = 0#64 ∨ bytes ≠ []) ∧
    ((∀ b b' : Line, ps4KernelSocketPrintHexDump k td sock data bytes b =
        ps4KernelSocketPrintHexDump k td sock data bytes b') ↔
      td = 0#64 ∨ sock = 0#64 ∨ data = 0#64 ∨ bytes ≠ []) := by
  refine ⟨?_, ?_⟩
  · simp only [ps4StandardIoPrintHexDump]
    by_cases hdata : data = 0#64
    · simp only [if_pos hdata]
      exact iff_of_true (fun _ _ => trivial) (.inl hdata)
    · simp only [if_neg hdata]
      rw [hexDump_same_iff printf_prints]
      simp only [hdata, false_or]
  · simp only [ps4KernelSocketPrintHexDump]
    by_cases htd : td = 0#64
    · simp only [if_pos htd]
      exact iff_of_true (fun _ _ => trivial) (.inl htd)
    by_cases hsock : sock = 0#64
    · simp only [if_neg htd, if_pos hsock]
      exact iff_of_true (fun _ _ => trivial) (.inr (.inl hsock))
    by_cases hdata : data = 0#64
    · simp only [if_neg htd, if_neg hsock, if_pos hdata]
      exact iff_of_true (fun _ _ => trivial) (.inr (.inr (.inl hdata)))
    · simp only [if_neg htd, if_neg hsock, if_neg hdata]
      rw [hexDump_same_iff (ps4KernelSocketPrint_prints k htd hsock)]
      simp only [htd, hsock, hdata, false_or]

/-- A dump of no bytes prints the sixteen characters that the line buffer was left with. -/
theorem hexDump_reveals :
    ps4StandardIoPrintHexDump 0x4000 [] (fun _ => 0x41) =
        (ps4Ok, [0x20, 0x20, 0x7c] ++ List.replicate 16 0x41 ++ [0x7c, 0x0a]) ∧
      ps4StandardIoPrintHexDump 0x4000 [] (fun _ => 0x42) =
        (ps4Ok, [0x20, 0x20, 0x7c] ++ List.replicate 16 0x42 ++ [0x7c, 0x0a]) ∧
      ps4KernelSocketPrintHexDump plainPrinting 0x5000 0x6000 0x4000 [] (fun _ => 0x41) =
        (ps4Ok, [0x20, 0x20, 0x7c] ++ List.replicate 16 0x41 ++ [0x7c, 0x0a]) ∧
      ps4KernelSocketPrintHexDump plainPrinting 0x5000 0x6000 0x4000 [] (fun _ => 0x42) =
        (ps4Ok, [0x20, 0x20, 0x7c] ++ List.replicate 16 0x42 ++ [0x7c, 0x0a]) := by
  have hkernel := ps4KernelSocketPrint_prints plainPrinting
    (show (0x5000 : Address) ≠ 0#64 by decide)
    (show (0x6000 : Address) ≠ 0#64 by decide)
  rw [ps4StandardIoPrintHexDump, ps4StandardIoPrintHexDump, ps4KernelSocketPrintHexDump,
    ps4KernelSocketPrintHexDump, hexDump_nil printf_prints, hexDump_nil printf_prints,
    hexDump_nil hkernel, hexDump_nil hkernel]
  decide

end Ps4Sdk.HexDumps
