import Ps4Sdk.KernelBase
import Mathlib.Algebra.Order.Ring.Nat
import Mathlib.Data.List.Basic
import Mathlib.Tactic.Common

/-!
# Reading a descriptor to its end, `memory/memory.c`

`ps4MemoryAllocateFromFileWithoutSize` reads into a buffer that it doubles when it is full. What
the reads give and where the allocator places the blocks is given, the first by `malloc` and the
others by `realloc`; address zero is a failure. To double the largest power of two of an `int` has
no defined result, and neither has a transfer to address zero.
-/

namespace Ps4Sdk.DescriptorReading

/-- What a read that transfers nothing says. -/
inductive Ending
  | endOfFile
  | failed
  deriving DecidableEq

/-- Each read gets some of the bytes it asks for, which are those that have room in the buffer. -/
def Answered : ℕ → ℕ → List (List Byte) → Prop
  | _, _, [] => True
  | full, s, chunk :: chunks =>
    chunk ≠ [] ∧ s + chunk.length ≤ full ∧
      Answered (if s + chunk.length = full then full * 2 else full) (s + chunk.length) chunks

/-- The results of the reads, up to the first that transfers nothing. -/
structure Descriptor where
  chunks : List (List Byte)
  ending : Ending
  answered : Answered 4096 0 chunks

def Descriptor.bytes (d : Descriptor) : List Byte := d.chunks.flatten

/-- The variables of the function, the live blocks, and a record: the calls of `realloc`, and the
size of each read with the room that was left in the buffer. -/
structure State where
  data : Buffer
  full : ℕ
  s : ℕ
  live : List Address
  reallocations : ℕ
  requests : List (ℕ × ℕ)

/-- What the function returns and stores, with the last read if it transferred nothing and whether
`realloc` failed. -/
structure Result where
  r : Code
  ended : Option Ending
  reallocFailed : Bool
  memory : Option Buffer
  size : Option ℕ
  live : List Address
  requests : List (ℕ × ℕ)

def toInt (length : ℕ) : ℤ := (BitVec.ofNat 32 length).toInt

def transfer (b : Buffer) (start : ℕ) (bytes : List Byte) : Buffer :=
  { b with cells := fun i => if i < start then b.cells i else (bytes[i - start]?).getD (b.cells i) }

namespace State

def request (t : State) : ℕ := (t.full + (2 ^ 64 - t.s)) % 2 ^ 64

def ask (t : State) : State :=
  { t with requests := t.requests ++ [(t.request, t.data.allocated - t.s)] }

def take (t : State) (chunk : List Byte) : State :=
  { t with data := transfer t.data t.s chunk, s := (t.s + (toInt chunk.length).toNat) % 2 ^ 64 }

def reallocated (t : State) (m : Allocator) (full : ℕ) : State :=
  { t with
    data := t.data.reallocated m (t.reallocations + 1) full
    full := full
    live := m.place (t.reallocations + 1) :: t.live.erase t.data.base
    reallocations := t.reallocations + 1 }

def finish (t : State) (size : Address) (ended : Option Ending) : Result :=
  ⟨ps4Ok, ended, false, some t.data, if size ≠ 0#64 then some t.s else none, t.live, t.requests⟩

def abandon (t : State) : Result :=
  ⟨-1, none, true, none, none, t.live.erase t.data.base, t.requests⟩

end State

section

variable (m : Allocator) (size : Address)

def start : State where
  data := ⟨m.place 0, if m.place 0 = 0#64 then 0 else 4096, m.fresh 0⟩
  full := 4096
  s := 0
  live := if m.place 0 = 0#64 then m.live else m.place 0 :: m.live
  reallocations := 0
  requests := []

def readLoop (ending : Ending) : List (List Byte) → State → Option Result
  | [], t => some (t.ask.finish size (some ending))
  | chunk :: chunks, t =>
    let t := t.ask
    if toInt chunk.length ≤ 0 then some (t.finish size none)
    else if t.data.base = 0#64 then none
    else
      let t := t.take chunk
      if t.s = t.full then
        if 2 ^ 31 ≤ t.full * 2 then none
        else if m.place (t.reallocations + 1) = 0#64 then some t.abandon
        else readLoop ending chunks (t.reallocated m (t.full * 2))
      else readLoop ending chunks t

def ps4MemoryAllocateFromFileWithoutSize (memory : Address) (d : Descriptor) : Option Result :=
  if memory = 0#64 then some ⟨ps4ErrorArgumentPrimaryMissing, none, false, none, none,
    (start m).live, []⟩
  else readLoop m size d.ending d.chunks (start m)

def Fitting (requests : List (ℕ × ℕ)) : Prop := ∀ q ∈ requests, 0 < q.1 ∧ q.1 ≤ q.2

/-- What is asked of a result: success means that the end of the file was reached and all bytes are
there; after a failure there is an error and the buffer is freed. -/
structure Honest (d : Descriptor) (o : Result) : Prop where
  complete : o.r = ps4Ok → o.ended = some .endOfFile ∧
    (∃ b, o.memory = some b ∧ (List.range d.bytes.length).map b.cells = d.bytes) ∧
    (size ≠ 0#64 → o.size = some d.bytes.length)
  failed : o.ended = some .failed ∨ o.reallocFailed = true → o.r ≠ ps4Ok ∧ o.live = m.live
  fitting : Fitting o.requests

/-- One of the calls of `realloc` that so many bytes lead to fails, from the `n`-th on; there are
eighteen before the size overflows. -/
def Fails (n total : ℕ) : Prop := ∃ j, n ≤ j ∧ j < 18 ∧ 4096 * 2 ^ j ≤ total ∧
    m.place (j + 1) = 0#64

end

/-! ### One round -/

/-- The buffer holds the bytes so far; it has the size that the doublings gave and is the block on
top of the live ones from before. -/
structure Reading (m : Allocator) (got : List Byte) (t : State) : Prop where
  full : t.full = 4096 * 2 ^ t.reallocations
  doubled : t.reallocations ≤ 18
  room : t.s ≤ t.full
  allocated : t.data.allocated = t.full
  base : t.data.base ≠ 0#64
  live : t.live = t.data.base :: m.live
  count : t.s = got.length
  holds : t.data.Holds got
  fitting : Fitting t.requests

private theorem toInt_eq {n : ℕ} (h : n < 2 ^ 31) : toInt n = n := by
  rw [toInt, BitVec.toInt_eq_toNat_of_lt (by rw [BitVec.toNat_ofNat]; omega), BitVec.toNat_ofNat,
    Nat.mod_eq_of_lt (by omega)]

private theorem not_toInt_le_zero {chunk : List Byte} (hne : chunk ≠ [])
    (h : chunk.length ≤ 2 ^ 30) :
    ¬toInt chunk.length ≤ 0 := by
  have hpos : 0 < chunk.length := List.length_pos_iff.mpr hne
  rw [toInt_eq (by omega)]
  omega

private theorem capacity_le {n : ℕ} (h : n ≤ 18) : 4096 * 2 ^ n ≤ 2 ^ 30 :=
  (Nat.mul_le_mul_left 4096 (Nat.pow_le_pow_right (by decide) h)).trans_eq (by decide)

section

variable {m : Allocator} {size : Address} {got chunk : List Byte} {t : State}

private theorem reading_start (h : m.place 0 ≠ 0#64) : Reading m [] (start m) where
  full := rfl
  doubled := Nat.zero_le 18
  room := Nat.zero_le 4096
  allocated := if_neg h
  base := h
  live := if_neg h
  count := rfl
  holds := fun _ hi => absurd hi (Nat.not_lt_zero _)
  fitting := by simp [Fitting, start]

private theorem Reading.full_le (h : Reading m got t) : t.full ≤ 2 ^ 30 := by
  rw [h.full]
  exact capacity_le h.doubled

private theorem Reading.request_eq (h : Reading m got t) : t.request = t.full - t.s := by
  have hfull := h.full_le
  have hroom := h.room
  rw [State.request, show t.full + (2 ^ 64 - t.s) =
    t.full - t.s + 2 ^ 64 by omega, Nat.add_mod_right]
  exact Nat.mod_eq_of_lt (by omega)

theorem Reading.ask (h : Reading m got t) (hs : t.s < t.full) : Reading m got t.ask where
  full := h.full
  doubled := h.doubled
  room := h.room
  allocated := h.allocated
  base := h.base
  live := h.live
  count := h.count
  holds := h.holds
  fitting := by
    intro q hq
    rcases List.mem_append.mp hq with hq | hq
    · exact h.fitting q hq
    · rw [List.mem_singleton.mp hq, h.request_eq, h.allocated]
      exact ⟨by omega, le_rfl⟩

private theorem transfer_cells_of_lt {b : Buffer} {start i : ℕ} (h : i < start)
    (bytes : List Byte) :
    (transfer b start bytes).cells i = b.cells i := if_pos h

private theorem transfer_cells {b : Buffer} {start i : ℕ} {bytes : List Byte}
    (h : i < bytes.length) :
    (transfer b start bytes).cells (start + i) = bytes[i] := by
  change (if start + i < start then _ else _) = _
  rw [if_neg (by omega), Nat.add_sub_cancel_left, List.getElem?_eq_getElem h, Option.getD_some]

private theorem Reading.take_s (h : Reading m got t) (hfits : t.s + chunk.length ≤ t.full) :
    (t.take chunk).s = t.s + chunk.length := by
  have hfull := h.full_le
  change (t.s + (toInt chunk.length).toNat) % 2 ^ 64 = _
  rw [toInt_eq (by omega), Int.toNat_natCast]
  exact Nat.mod_eq_of_lt (by omega)

theorem Reading.take (h : Reading m got t) (hfits : t.s + chunk.length ≤ t.full) :
    Reading m (got ++ chunk) (t.take chunk) where
  full := h.full
  doubled := h.doubled
  room := by
    rw [h.take_s hfits]
    exact hfits
  allocated := h.allocated
  base := h.base
  live := h.live
  count := by rw [h.take_s hfits, h.count, List.length_append]
  holds := by
    intro i hi
    change (transfer t.data t.s chunk).cells i = _
    rw [h.count]
    by_cases hlt : i < got.length
    · rw [transfer_cells_of_lt hlt, h.holds i hlt, List.getElem_append_left hlt]
    · obtain ⟨k, rfl⟩ := Nat.exists_eq_add_of_le (not_lt.mp hlt)
      rw [List.length_append] at hi
      rw [transfer_cells (show k < chunk.length by omega),
        List.getElem_append_right (Nat.le_add_right _ _)]
      simp
  fitting := h.fitting

theorem Reading.reallocated (h : Reading m got t) (hs : t.s = t.full) (hn : t.reallocations < 18)
    (hbase : m.place (t.reallocations + 1) ≠ 0#64) :
    Reading m got (t.reallocated m (t.full * 2)) where
  full := by
    change t.full * 2 = 4096 * 2 ^ (t.reallocations + 1)
    rw [h.full, Nat.pow_succ, Nat.mul_assoc]
  doubled := hn
  room := by
    change t.s ≤ t.full * 2
    omega
  allocated := rfl
  base := hbase
  live := by
    change m.place (t.reallocations + 1) :: t.live.erase t.data.base =
      m.place (t.reallocations + 1) :: m.live
    rw [h.live, List.erase_cons_head]
  count := h.count
  holds := by
    intro i hi
    have hcount := h.count
    have hallocated := h.allocated
    change (if i < min t.data.allocated (t.full * 2) then t.data.cells i else _) = _
    rw [if_pos (by omega)]
    exact h.holds i hi
  fitting := h.fitting

theorem Reading.round (h : Reading m got t) (hs : t.s < t.full) (hne : chunk ≠ [])
    (hfits : t.s + chunk.length ≤ t.full) (ending : Ending) (chunks : List (List Byte)) :
    readLoop m size ending (chunk :: chunks) t =
      if t.s + chunk.length = t.full then
        if t.reallocations = 18 then none
        else if m.place (t.reallocations + 1) = 0#64 then some (t.ask.take chunk).abandon
        else readLoop m size ending chunks ((t.ask.take chunk).reallocated m (t.full * 2))
      else readLoop m size ending chunks (t.ask.take chunk) := by
  have hfull := h.full_le
  have hlength : ¬toInt chunk.length ≤ 0 := not_toInt_le_zero hne (by omega)
  have hlast : 2 ^ 31 ≤ t.full * 2 ↔ t.reallocations = 18 := by
    rw [h.full]
    constructor
    · intro hle
      by_contra hn
      have hdoubled := h.doubled
      have hpow : 2 ^ t.reallocations ≤ 2 ^ 17 := Nat.pow_le_pow_right (by decide) (by omega)
      omega
    · intro hn
      rw [hn]
      decide
  rw [readLoop]
  dsimp only
  rw [if_neg hlength, if_neg (show ¬t.ask.data.base = 0#64 from h.base), (h.ask hs).take_s hfits]
  exact if_congr Iff.rfl (if_congr hlast rfl rfl) rfl

end

/-! ### The whole loop -/

section

variable {m : Allocator} {size : Address}

private theorem not_fails_of_lt {n total : ℕ} (h : total < 4096 * 2 ^ n) : ¬Fails m n total := by
  rintro ⟨j, hj, -, hle, -⟩
  have hpow : 2 ^ n ≤ 2 ^ j := Nat.pow_le_pow_right (by decide) hj
  omega

private theorem not_fails_last (total : ℕ) : ¬Fails m 18 total := by
  rintro ⟨j, hj, hlt, -⟩
  omega

theorem fails_iff_of_le {n total : ℕ} (hn : n < 18) (h : 4096 * 2 ^ n ≤ total) :
    Fails m n total ↔ m.place (n + 1) = 0#64 ∨ Fails m (n + 1) total := by
  constructor
  · rintro ⟨j, hj, hlt, hle, hzero⟩
    rcases Nat.eq_or_lt_of_le hj with rfl | hj
    · exact .inl hzero
    · exact .inr ⟨j, hj, hlt, hle, hzero⟩
  · rintro (hzero | ⟨j, hj, hlt, hle, hzero⟩)
    · exact ⟨n, le_rfl, hn, h, hzero⟩
    · exact ⟨j, by omega, hlt, hle, hzero⟩

/-- The outcome of the loop: an abandoned buffer, no defined result, or all bytes in the buffer. -/
structure Outcome (m : Allocator) (size : Address) (ending : Ending) (n : ℕ) (bytes : List Byte)
    (o : Option Result) : Prop where
  abandoned : Fails m n bytes.length → ∃ requests, Fitting requests ∧
    o = some ⟨-1, none, true, none, none, m.live, requests⟩
  undefined : ¬Fails m n bytes.length → 2 ^ 30 ≤ bytes.length → o = none
  finished : ¬Fails m n bytes.length → bytes.length < 2 ^ 30 →
    ∃ t, Reading m bytes t ∧ o = some (t.finish size (some ending))

theorem Outcome.congr {ending : Ending} {n n' : ℕ} {bytes : List Byte} {o : Option Result}
    (h : Outcome m size ending n bytes o) (hfails : Fails m n' bytes.length ↔
      Fails m n bytes.length) :
    Outcome m size ending n' bytes o :=
  ⟨fun hf => h.abandoned (hfails.mp hf), fun hf => h.undefined fun h' => hf (hfails.mpr h'),
    fun hf => h.finished fun h' => hf (hfails.mpr h')⟩

theorem readLoop_outcome (ending : Ending) (chunks : List (List Byte)) {got : List Byte} {t : State}
    (h : Reading m got t) (hs : t.s < t.full) (ha : Answered t.full t.s chunks) :
    Outcome m size ending t.reallocations (got ++ chunks.flatten)
      (readLoop m size ending chunks t) := by
  induction chunks generalizing got t with
  | nil =>
    rw [List.flatten_nil, List.append_nil]
    have hlt : got.length < 4096 * 2 ^ t.reallocations := by
      rw [← h.full, ← h.count]
      exact hs
    refine ⟨fun hf => absurd hf (not_fails_of_lt hlt), fun _ hle => ?_,
      fun _ _ => ⟨t.ask, h.ask hs, rfl⟩⟩
    exact absurd (hlt.trans_le (capacity_le h.doubled)) hle.not_gt
  | cons chunk chunks ih =>
    obtain ⟨hne, hfits, ha⟩ := ha
    have htook : Reading m (got ++ chunk) (t.ask.take chunk) := (h.ask hs).take hfits
    have hcount : (t.ask.take chunk).s = t.s + chunk.length := (h.ask hs).take_s hfits
    rw [h.round hs hne hfits, List.flatten_cons, ← List.append_assoc]
    by_cases hfull : t.s + chunk.length = t.full
    · have hle : 4096 * 2 ^ t.reallocations ≤ (got ++ chunk ++ chunks.flatten).length := by
        rw [← h.full, ← hfull, h.count]
        simp
      rw [if_pos hfull]
      by_cases hlast : t.reallocations = 18
      · rw [if_pos hlast]
        rw [hlast] at hle ⊢
        refine ⟨fun hf => absurd hf (not_fails_last _), fun _ _ => rfl, fun _ hlt => ?_⟩
        exact absurd hle (not_le.mpr (hlt.trans_eq (by decide)))
      · have hn : t.reallocations < 18 := lt_of_le_of_ne h.doubled hlast
        rw [if_neg hlast]
        by_cases hzero : m.place (t.reallocations + 1) = 0#64
        · have hfails : Fails m t.reallocations (got ++ chunk ++ chunks.flatten).length :=
            (fails_iff_of_le hn hle).mpr (.inl hzero)
          rw [if_pos hzero]
          refine ⟨fun _ => ⟨_, htook.fitting, ?_⟩, fun hf => absurd hfails hf,
            fun hf => absurd hfails hf⟩
          rw [State.abandon, htook.live, List.erase_cons_head]
        · rw [if_neg hzero]
          rw [if_pos hfull] at ha
          have hnext := ih (htook.reallocated (hcount.trans hfull) hn hzero)
            (show (t.ask.take chunk).s < t.full * 2 by omega)
            (show Answered (t.full * 2) (t.ask.take chunk).s chunks by rw [hcount]; exact ha)
          refine hnext.congr ((fails_iff_of_le hn hle).trans ?_)
          exact ⟨fun hf => hf.resolve_left hzero, .inr⟩
    · rw [if_neg hfull]
      rw [if_neg hfull] at ha
      exact ih htook (show (t.ask.take chunk).s < t.full by omega)
        (show Answered t.full (t.ask.take chunk).s chunks by rw [hcount]; exact ha)

private theorem Reading.map_cells {got : List Byte} {t : State} (h : Reading m got t) :
    (List.range got.length).map t.data.cells = got := by
  refine List.ext_getElem (by simp) fun i _ hi => ?_
  rw [List.getElem_map, List.getElem_range, h.holds i hi]

/-- A buffer that holds all bytes is an honest result if the end of the file was reached. -/
theorem Reading.honest_finish_iff {d : Descriptor} {t : State} (h : Reading m d.bytes t) :
    Honest m size d (t.finish size (some d.ending)) ↔ d.ending = .endOfFile := by
  constructor
  · intro hh
    exact Option.some.inj (hh.complete rfl).1
  · intro he
    refine ⟨fun _ => ⟨congrArg some he, ⟨t.data, rfl, h.map_cells⟩, fun hsize => ?_⟩, ?_, h.fitting⟩
    · change (if size ≠ 0#64 then some t.s else none) = _
      rw [if_pos hsize, h.count]
    · rintro (hf | hf)
      · have hfailed : d.ending = .failed := Option.some.inj hf
        rw [he] at hfailed
        cases hfailed
      · cases hf

private theorem honest_abandoned (d : Descriptor) {requests : List (ℕ × ℕ)} (h : Fitting requests) :
    Honest m size d ⟨-1, none, true, none, none, m.live, requests⟩ where
  complete hr := absurd hr (show ¬(-1 : Code) = ps4Ok by decide)
  failed _ := ⟨show ¬(-1 : Code) = ps4Ok by decide, rfl⟩
  fitting := h

theorem Outcome.honest_iff {d : Descriptor} {o : Option Result}
    (h : Outcome m size d.ending 0 d.bytes o) :
    (∃ result, o = some result ∧ Honest m size d result) ↔
      Fails m 0 d.bytes.length ∨ d.bytes.length < 2 ^ 30 ∧ d.ending = .endOfFile := by
  by_cases hfails : Fails m 0 d.bytes.length
  · obtain ⟨requests, hfitting, heq⟩ := h.abandoned hfails
    exact iff_of_true ⟨_, heq, honest_abandoned d hfitting⟩ (.inl hfails)
  · rw [or_iff_right hfails]
    by_cases hlt : d.bytes.length < 2 ^ 30
    · obtain ⟨t, hreading, rfl⟩ := h.finished hfails hlt
      simp only [Option.some.injEq, exists_eq_left', hreading.honest_finish_iff, hlt, true_and]
    · rw [h.undefined hfails (not_lt.mp hlt)]
      exact iff_of_false (fun ⟨_, heq, _⟩ => by cases heq) fun hd => hlt hd.1

/-- Without a first buffer nothing can be transferred. -/
theorem readLoop_of_malloc_failed (h : m.place 0 = 0#64) (d : Descriptor) {o : Result}
    (ho : readLoop m size d.ending d.chunks (start m) = some o) : ¬Fitting o.requests := by
  have hanswered := d.answered
  cases hchunks : d.chunks with
  | nil =>
    rw [hchunks] at ho
    obtain rfl := Option.some.inj ho
    intro hfitting
    have hfirst := hfitting ((start m).request, (start m).data.allocated - (start m).s)
      (List.mem_singleton.mpr rfl)
    rw [show (start m).data.allocated = 0 from if_pos h] at hfirst
    omega
  | cons chunk chunks =>
    rw [hchunks] at ho hanswered
    obtain ⟨hne, hle, -⟩ := hanswered
    have hlength : ¬toInt chunk.length ≤ 0 := not_toInt_le_zero hne (by omega)
    rw [readLoop] at ho
    dsimp only at ho
    rw [if_neg hlength, if_pos (show (start m).ask.data.base = 0#64 from h)] at ho
    cases ho

end

/-- The function does what is asked of it if it has no out parameter, or if it gets its first buffer
and then either a reallocation fails or the end of the file is reached, before the size of the
buffer overflows. -/
theorem readDescriptor_honest_iff (m : Allocator) (size memory : Address) (d : Descriptor) :
    (∃ o, ps4MemoryAllocateFromFileWithoutSize m size memory d = some o ∧ Honest m size d o) ↔
      memory = 0#64 ∨ m.place 0 ≠ 0#64 ∧
        (Fails m 0 d.bytes.length ∨ d.bytes.length < 2 ^ 30 ∧ d.ending = .endOfFile) := by
  rw [ps4MemoryAllocateFromFileWithoutSize]
  by_cases hmemory : memory = 0#64
  · rw [if_pos hmemory]
    refine iff_of_true ⟨_, rfl, fun hr => absurd hr
      (show ¬ps4ErrorArgumentPrimaryMissing = ps4Ok by decide), ?_, ?_⟩
      (.inl hmemory)
    · rintro (hf | hf) <;> cases hf
    · exact fun q hq => absurd hq List.not_mem_nil
  · rw [if_neg hmemory, or_iff_right hmemory]
    by_cases hmalloc : m.place 0 = 0#64
    · refine iff_of_false ?_ fun h => h.1 hmalloc
      rintro ⟨o, ho, hh⟩
      exact readLoop_of_malloc_failed hmalloc d ho hh.fitting
    · have hstart := reading_start hmalloc
      rw [and_iff_right hmalloc]
      exact (readLoop_outcome d.ending d.chunks hstart (show 0 < 4096 by decide)
        d.answered).honest_iff

section Examples

def allocator : Allocator := ⟨[], fun n => 0x1000 + BitVec.ofNat 64 n, fun _ _ => 0⟩

def broken : Descriptor := ⟨[[0x41]], .failed, by simp [Answered]⟩

/-- A read that fails behind the first byte is taken for the end of the file: there is no error, and
the byte is given as the whole file. -/
theorem failedRead_succeeds :
    ∃ o, ps4MemoryAllocateFromFileWithoutSize allocator 8 16 broken = some o ∧ o.r = ps4Ok ∧
      o.ended = some .failed ∧ o.size = some 1 ∧ o.live = [0x1000] ∧
      ¬Honest allocator 8 broken o := by
  refine ⟨_, rfl, rfl, rfl, rfl, rfl, fun h => ?_⟩
  exact (h.failed (.inl rfl)).1 rfl

end Examples

end Ps4Sdk.DescriptorReading
