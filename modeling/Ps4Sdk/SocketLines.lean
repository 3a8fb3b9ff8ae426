import Ps4Sdk.FormattedStrings
import Mathlib.Order.Bounds.Basic
import Mathlib.Order.ConditionallyCompleteLattice.Basic
import Mathlib.Order.Lattice.Nat

/-!
# Lines received from a socket, `kernel/socket.c`

`ps4KernelSocketReceiveString` receives one byte after the other into a buffer that it doubles
when the counter reaches `_size`. What the allocator leaves behind the bytes that were allocated and
in those that a reallocation adds is a parameter.
-/

namespace Ps4Sdk.SocketLines

def newline : Byte := 0x0a

/-- What a call of `soreceive` for one byte returns, and the byte if it transfers one. -/
structure Received where
  r : Code
  byte : Option Byte
  deriving DecidableEq

def ps4KernelSocketReceive (td sock : Address) (soreceive : Received) : Received :=
  if td = 0#64 then ⟨ps4ErrorArgumentThreadMissing, none⟩
  else if sock = 0#64 then ⟨ps4ErrorArgumentPrimaryMissing, none⟩
  else soreceive

/-- The allocator beside the out parameter at `data`: no block of the call is there, or live
before. -/
structure LineAllocator (data : Address) extends Allocator where
  place_notMem : ∀ n, place n ∉ live
  place_ne : ∀ n, place n ≠ data

/-- The variables of the function, the live blocks, and what was done so far: the allocations, the
bytes that were received, the stores with the number of bytes allocated at each of them. -/
structure State where
  buffer : Buffer
  size : ℕ
  offset : ℕ
  live : List Address
  allocations : ℕ
  rounds : ℕ
  consumed : ℕ
  stores : List (ℕ × ℕ)

structure Result where
  r : Code
  out : Option (Buffer × ℕ)
  live : List Address
  consumed : ℕ
  stores : List (ℕ × ℕ)

def initialSize (sizeMax : BitVec 64) : ℕ :=
  let sizeMax := if sizeMax = 0#64 then BitVec.allOnes 64 else sizeMax
  if (sizeMax - 1#64).toNat < 1024 then (sizeMax - 1#64).toNat else 1024

def State.store (s : State) (index : ℕ) (b : Byte) : State :=
  { s with
    buffer := { s.buffer with cells := Function.update s.buffer.cells index b }
    stores := s.stores ++ [(index, s.buffer.allocated)] }

def State.take (s : State) (got : Received) : State :=
  match got.byte with
  | some b => { s.store s.offset b with consumed := s.consumed + 1 }
  | none => s

section

variable {data : Address} (m : LineAllocator data)

/-- The state in front of the loop; `malloc` fills its block with zeros. -/
def start (sizeMax : BitVec 64) : State where
  buffer := ⟨m.place 0, initialSize sizeMax + 1, fun i => if i <
    initialSize sizeMax + 1 then 0#8 else m.fresh 0 i⟩
  size := initialSize sizeMax
  offset := 0
  live := m.place 0 :: m.live
  allocations := 1
  rounds := 0
  consumed := 0
  stores := []

def ps4KernelMemoryReallocateData (s : State) (size : ℕ) : State :=
  if size = 0 then s
  else { s with
    buffer := s.buffer.reallocated m.toAllocator s.allocations size
    live := m.place s.allocations :: s.live.erase s.buffer.base
    allocations := s.allocations + 1 }

def State.advance (s : State) : State :=
  let s := if s.offset = s.size then
      ps4KernelMemoryReallocateData m { s with size := s.size * 2 % 2 ^ 64 }
        ((s.size * 2 % 2 ^ 64 + 1) % 2 ^ 64)
    else s
  { s with offset := (s.offset + 1) % 2 ^ 64, rounds := s.rounds + 1 }

/-- `free` of an address where no block is live does not return. -/
def ps4KernelMemoryFree (live : List Address) (memory : Address) : Option (List Address) :=
  if memory = 0#64 then some live
  else if live.contains memory then some (live.erase memory)
  else none

def State.finish (s : State) : Result :=
  let s := s.store ((s.offset + 1) % 2 ^ 64) 0#8
  ⟨ps4Ok, some (s.buffer, (s.offset + 2) % 2 ^ 64), s.live, s.consumed, s.stores⟩

variable (receive : ℕ → Received)

/-- The loop, for a number of rounds at most. -/
def receiveLoop : ℕ → State → Option Result
  | 0, _ => none
  | fuel + 1, s =>
    let t := s.take (receive s.rounds)
    if (receive s.rounds).r ≠ ps4Ok then
      (ps4KernelMemoryFree t.live data).map fun live =>
        ⟨ps4ErrorBadRequest, none, live, t.consumed, t.stores⟩
    else if t.buffer.cells t.offset = newline then some t.finish
    else receiveLoop fuel (t.advance m)

/-- What the calls of `ps4KernelSocketReceive` give if the `n`-th call of `soreceive` gives
`soreceive n`. -/
def received (td sock : Address) (soreceive : ℕ → Received) (n : ℕ) : Received :=
  ps4KernelSocketReceive td sock (soreceive n)

def ps4KernelSocketReceiveString (td sock : Address) (soreceive : ℕ → Received)
    (sizeMax : BitVec 64) (fuel : ℕ) :
    Option Result :=
  receiveLoop m (received td sock soreceive) fuel (start m sizeMax)

end

/-- The value of `_size` in a round: it doubles when the counter reaches it. -/
def sizeAt (first : ℕ) : ℕ → ℕ
  | 0 => first
  | n + 1 => if n % 2 ^ 64 = sizeAt first n then sizeAt first n * 2 % 2 ^ 64 else sizeAt first n

def Capacity (first s : ℕ) : Prop := ∃ j, s = first * 2 ^ j ∧ s < 2 ^ 64

private theorem initialSize_le (sizeMax : BitVec 64) : initialSize sizeMax ≤ 1024 := by
  unfold initialSize
  dsimp only
  split_ifs <;> omega

theorem initialSize_pos {sizeMax : BitVec 64} (h : sizeMax = 0#64 ∨ 2 ≤ sizeMax.toNat) :
    1 ≤ initialSize sizeMax := by
  rcases h with rfl | h
  · decide
  · have hne : sizeMax ≠ 0#64 := by
      rintro rfl
      exact absurd h (by decide)
    have hlt := sizeMax.isLt
    have hsub : (sizeMax - 1#64).toNat = sizeMax.toNat - 1 := by
      rw [BitVec.toNat_sub_of_le (by rw [BitVec.le_def]; change 1 ≤ _; omega)]
      rfl
    unfold initialSize
    dsimp only
    rw [if_neg hne, hsub]
    split_ifs <;> omega

section

variable {first : ℕ}

theorem capacity_first (h : first ≤ 1024) : Capacity first first := ⟨0, by simp, by omega⟩

theorem Capacity.lt {s : ℕ} (h : Capacity first s) : s < 2 ^ 64 := by
  obtain ⟨_, _, hlt⟩ := h
  exact hlt

/-- A capacity is small or a multiple of four, so that it is none of the last four numbers. -/
theorem Capacity.add_lt {s : ℕ} (hfirst : first ≤ 1024) (h : Capacity first s) :
    s + 2 < 2 ^ 64 := by
  obtain ⟨j, rfl, hlt⟩ := h
  rcases j with _ | _ | j
  · omega
  · omega
  · rw [Nat.pow_succ, Nat.pow_succ, ← Nat.mul_assoc, ← Nat.mul_assoc] at hlt ⊢
    omega

/-- Beyond a capacity the next one is its double, or there is none. -/
theorem Capacity.double_le {s t : ℕ} (hs : Capacity first s) (ht : Capacity first t) (hst : s < t) :
    0 < s ∧ s * 2 ≤ t ∧ Capacity first (s * 2) := by
  obtain ⟨i, rfl, _⟩ := hs
  obtain ⟨j, rfl, hlt⟩ := ht
  have hij : i < j := by
    by_contra hle
    exact absurd (Nat.mul_le_mul_left first (Nat.pow_le_pow_right (by decide)
      (Nat.le_of_not_lt hle)))
      (Nat.not_le.mpr hst)
  have hle : first * 2 ^ i * 2 ≤ first * 2 ^ j := by
    rw [Nat.mul_assoc, ← Nat.pow_succ]
    exact Nat.mul_le_mul_left first (Nat.pow_le_pow_right (by decide) hij)
  have hpos : 0 < first := Nat.pos_of_ne_zero fun hzero => by simp [hzero] at hst
  exact ⟨Nat.mul_pos hpos (Nat.pow_pos (by decide)), hle,
    i + 1, by rw [Nat.pow_succ, Nat.mul_assoc], by omega⟩

theorem sizeAt_add_one_lt (hfirst : first ≤ 1024) (n : ℕ) : sizeAt first n + 1 < 2 ^ 64 := by
  have h : sizeAt first n ≤ 1024 ∨ sizeAt first n % 2 = 0 ∧ sizeAt first n < 2 ^ 64 := by
    induction n with
    | zero => exact .inl hfirst
    | succ n ih =>
      rw [sizeAt]
      split_ifs
      · exact .inr (by omega)
      · exact ih
  omega

/-- As long as the counter is at most some capacity, `_size` is the least of these. -/
theorem sizeAt_isLeast (hfirst : first ≤ 1024) (n : ℕ) (h : ∃ s, Capacity first s ∧ n ≤ s) :
    IsLeast {s | Capacity first s ∧ n ≤ s} (sizeAt first n) := by
  induction n with
  | zero =>
    refine ⟨⟨capacity_first hfirst, Nat.zero_le _⟩, fun s hs => ?_⟩
    obtain ⟨⟨j, rfl, _⟩, _⟩ := hs
    exact Nat.le_mul_of_pos_right first (Nat.pow_pos (by decide))
  | succ n ih =>
    obtain ⟨s, hs, hle⟩ := h
    obtain ⟨⟨hcap, hn⟩, hleast⟩ := ih ⟨s, hs, by omega⟩
    have hlt := hs.lt
    have hmod : n % 2 ^ 64 = n := Nat.mod_eq_of_lt (by omega)
    rw [sizeAt, hmod]
    by_cases heq : n = sizeAt first n
    · obtain ⟨hpos, _, hnext⟩ := hcap.double_le hs (by omega)
      rw [if_pos heq, Nat.mod_eq_of_lt hnext.lt]
      refine ⟨⟨hnext, by omega⟩, fun t ht => (hcap.double_le ht.1 ?_).2.1⟩
      have hbeyond := ht.2
      omega
    · rw [if_neg heq]
      exact ⟨⟨hcap, by omega⟩, fun t ht => hleast ⟨ht.1, by have := ht.2; omega⟩⟩

private theorem Capacity.sizeAt_eq {c : ℕ} (hfirst : first ≤ 1024) (h : Capacity first c) :
    sizeAt first c = c := by
  have hleast := sizeAt_isLeast hfirst c ⟨c, h, Nat.le_refl c⟩
  exact Nat.le_antisymm (hleast.2 ⟨h, Nat.le_refl c⟩) hleast.1.2

/-- There is a greatest capacity, and `_size` is smaller after it. -/
theorem exists_greatest (hfirst : first ≤ 1024) : ∃ c, Capacity first c ∧
    (∀ s, Capacity first s → s ≤ c) ∧ sizeAt first c = c ∧ sizeAt first (c + 1) ≤ c ∧
    (1 ≤ first → sizeAt first (c + 1) < c) := by
  have hne : {s | Capacity first s}.Nonempty := ⟨first, capacity_first hfirst⟩
  have hbound : BddAbove {s | Capacity first s} := ⟨2 ^ 64, fun s hs => hs.lt.le⟩
  obtain ⟨c, hc⟩ : ∃ c, c = sSup {s | Capacity first s} := ⟨_, rfl⟩
  have hcap : Capacity first c := hc ▸ Nat.sSup_mem hne hbound
  have hgreatest : ∀ s, Capacity first s → s ≤ c := fun s hs => hc ▸ le_csSup hbound hs
  have hsize := hcap.sizeAt_eq hfirst
  have hlt := hcap.lt
  have hover : c = 0 ∨ 2 ^ 64 ≤ c * 2 := by
    obtain ⟨j, hj, _⟩ := hcap
    by_contra hnot
    have hnext := hgreatest (c * 2) ⟨j + 1, by rw [hj, Nat.pow_succ, Nat.mul_assoc], by omega⟩
    omega
  have hfirst' := hgreatest first (capacity_first hfirst)
  refine ⟨c, hcap, hgreatest, hsize, ?_⟩
  rw [sizeAt, hsize, if_pos (Nat.mod_eq_of_lt hlt)]
  omega

private theorem sizeAt_le_of_lt {c n : ℕ} (hnext : sizeAt first (c + 1) ≤ c) (hn : c < n)
    (hlt : n ≤ 2 ^ 64) :
    sizeAt first n ≤ c := by
  induction n, hn using Nat.le_induction with
  | base => exact hnext
  | succ n hn ih =>
    have hle := ih (by omega)
    rw [sizeAt, if_neg]
    · exact hle
    · rw [Nat.mod_eq_of_lt (by omega)]
      omega

/-- The bytes up to the one behind a capacity have their place. -/
theorem bytes_inside_iff (hfirst : first ≤ 1024) (k : ℕ) :
    (∀ i < k, i % 2 ^ 64 < sizeAt first i + 1) ↔ ∃ s, Capacity first s ∧ k ≤ s + 1 := by
  constructor
  · intro h
    obtain ⟨c, hc, _, _, hafter, _⟩ := exists_greatest hfirst
    have hclt := hc.add_lt hfirst
    refine ⟨c, hc, ?_⟩
    by_contra hnot
    have hbyte := h (c + 1) (by omega)
    rw [Nat.mod_eq_of_lt (by omega)] at hbyte
    omega
  · rintro ⟨s, hs, hle⟩ i hi
    have hlt := hs.lt
    have hleast := (sizeAt_isLeast hfirst i ⟨s, hs, by omega⟩).1.2
    rw [Nat.mod_eq_of_lt (by omega)]
    omega

/-- The byte behind the newline has its place exactly if the newline is in front of a capacity, and
is at none. -/
theorem terminator_inside_iff (hfirst : first ≤ 1024) {n : ℕ} (hn : n + 1 < 2 ^ 64) :
    (n % 2 ^ 64 + 1) % 2 ^ 64 < sizeAt first n + 1 ↔ (∃ s, Capacity first s ∧ n < s) ∧
    ¬Capacity first n := by
  rw [Nat.mod_eq_of_lt (show n < 2 ^ 64 by omega), Nat.mod_eq_of_lt hn]
  constructor
  · intro h
    obtain ⟨c, hc, _, _, hafter, _⟩ := exists_greatest hfirst
    have hnot : ¬Capacity first n := fun hcap => by
      rw [hcap.sizeAt_eq hfirst] at h
      omega
    refine ⟨⟨c, hc, ?_⟩, hnot⟩
    by_contra hle
    have hne : n ≠ c := fun he => hnot (he ▸ hc)
    have hsize := sizeAt_le_of_lt hafter (show c < n by omega) (by omega)
    omega
  · rintro ⟨⟨s, hs, hlt⟩, hnot⟩
    obtain ⟨⟨hcap, hleast⟩, _⟩ := sizeAt_isLeast hfirst n ⟨s, hs, by omega⟩
    have hne : n ≠ sizeAt first n := fun he => hnot (he ▸ hcap)
    omega

end

section

variable {data : Address} (m : LineAllocator data) (receive : ℕ → Received) (sizeMax : BitVec 64)

/-- The state after a number of rounds that do not leave the loop. -/
def after : ℕ → State
  | 0 => start m sizeMax
  | n + 1 => ((after n).take (receive n)).advance m

structure InRound (n : ℕ) (s : State) : Prop where
  offset : s.offset = n % 2 ^ 64
  rounds : s.rounds = n
  size : s.size = sizeAt (initialSize sizeMax) n
  allocated : s.buffer.allocated = sizeAt (initialSize sizeMax) n + 1
  live : s.live = s.buffer.base :: m.live
  base : ∃ j, s.buffer.base = m.place j

/-- The call returns: some number of rounds is enough. -/
def Returns (td sock : Address) (soreceive : ℕ → Received) (o : Result) : Prop :=
  ∃ fuel, ps4KernelSocketReceiveString m td sock soreceive sizeMax fuel = some o

/-- The calls give the bytes of the list, one after the other. -/
def Arrives (receive : ℕ → Received) (bytes : List Byte) : Prop :=
  ∀ i (h : i < bytes.length), receive i = ⟨ps4Ok, some bytes[i]⟩

end

section

variable {data : Address} {m : LineAllocator data} {receive : ℕ → Received} {sizeMax : BitVec 64}

theorem InRound.take {n : ℕ} {s : State} (h : InRound m sizeMax n s) (got : Received) :
    InRound m sizeMax n (s.take got) := by
  obtain ⟨r, _ | b⟩ := got
  · exact h
  · exact ⟨h.offset, h.rounds, h.size, h.allocated, h.live, h.base⟩

/-- The end of a round: the buffer is a block of the new size, or the same one. -/
theorem InRound.advance_eq {n : ℕ} {s : State} (h : InRound m sizeMax n s) :
    s.advance m =
      if n % 2 ^ 64 = sizeAt (initialSize sizeMax) n then
        { s with
          buffer := ⟨m.place s.allocations, sizeAt (initialSize sizeMax) (n + 1) + 1, fun i =>
            if i < min (sizeAt (initialSize sizeMax) n + 1)
              (sizeAt (initialSize sizeMax) (n + 1) + 1) then
              s.buffer.cells i
            else m.fresh s.allocations i⟩
          size := sizeAt (initialSize sizeMax) (n + 1)
          offset := (n + 1) % 2 ^ 64
          live := m.place s.allocations :: m.live
          allocations := s.allocations + 1
          rounds := n + 1 }
      else { s with offset := (n + 1) % 2 ^ 64, rounds := n + 1 } := by
  have hlt := sizeAt_add_one_lt (initialSize_le sizeMax) (n + 1)
  have hmod : (n % 2 ^ 64 + 1) % 2 ^ 64 = (n + 1) % 2 ^ 64 := by omega
  unfold State.advance
  by_cases hfull : n % 2 ^ 64 = sizeAt (initialSize sizeMax) n
  · have hsize : s.size * 2 % 2 ^ 64 = sizeAt (initialSize sizeMax) (n + 1) := by
      rw [sizeAt, if_pos hfull, h.size]
    have hcond : s.offset = s.size := by rw [h.offset, h.size, hfull]
    rw [if_pos hfull, if_pos hcond, hsize, Nat.mod_eq_of_lt hlt, ps4KernelMemoryReallocateData,
      if_neg (Nat.succ_ne_zero _)]
    simp only [Buffer.reallocated, h.allocated, h.live, List.erase_cons_head,
      h.offset, h.rounds, hmod]
  · have hcond : ¬s.offset = s.size := by
      rw [h.offset, h.size]
      exact hfull
    rw [if_neg hfull, if_neg hcond]
    simp only [h.offset, h.rounds, hmod]

theorem InRound.advance {n : ℕ} {s : State} (h : InRound m sizeMax n s) :
    InRound m sizeMax (n + 1) (s.advance m) := by
  rw [h.advance_eq]
  by_cases hfull : n % 2 ^ 64 = sizeAt (initialSize sizeMax) n
  · rw [if_pos hfull]
    exact ⟨rfl, rfl, rfl, rfl, rfl, _, rfl⟩
  · have hsize : sizeAt (initialSize sizeMax) (n + 1) = sizeAt (initialSize sizeMax) n := by
      rw [sizeAt, if_neg hfull]
    rw [if_neg hfull]
    refine ⟨rfl, rfl, h.size.trans hsize.symm, ?_, h.live, h.base⟩
    rw [hsize]
    exact h.allocated

variable (m receive sizeMax) in
theorem inRound_after (n : ℕ) : InRound m sizeMax n (after m receive sizeMax n) := by
  induction n with
  | zero => exact ⟨rfl, rfl, rfl, rfl, rfl, 0, rfl⟩
  | succ n ih => exact (ih.take _).advance

private theorem receiveLoop_round {s : State} (hr : (receive s.rounds).r = ps4Ok)
    (hcell : (s.take (receive s.rounds)).buffer.cells (s.take (receive s.rounds)).offset ≠ newline)
    (fuel : ℕ) :
    receiveLoop m receive (fuel + 1) s =
      receiveLoop m receive fuel ((s.take (receive s.rounds)).advance m) := by
  rw [receiveLoop, if_neg (not_not_intro hr), if_neg hcell]

/-- The round goes on. -/
def Continues (m : LineAllocator data) (receive : ℕ → Received)
    (sizeMax : BitVec 64) (n : ℕ) : Prop :=
  (receive n).r = ps4Ok ∧
  ((after m receive sizeMax n).take (receive n)).buffer.cells (n % 2 ^ 64) ≠ newline

theorem receiveLoop_after (n : ℕ) (h : ∀ i < n, Continues m receive sizeMax i) (fuel : ℕ) :
    receiveLoop m receive (n + fuel) (start m sizeMax) =
      receiveLoop m receive fuel (after m receive sizeMax n) := by
  induction n generalizing fuel with
  | zero => rw [Nat.zero_add]; rfl
  | succ n ih =>
    have hround := inRound_after m receive sizeMax n
    obtain ⟨hr, hcell⟩ := h n (Nat.lt_succ_self n)
    rw [Nat.succ_add_eq_add_succ, ih (fun i hi => h i (Nat.lt_succ_of_lt hi)),
      receiveLoop_round, hround.rounds]
    · rfl
    · rw [hround.rounds]
      exact hr
    · rw [(hround.take _).offset, hround.rounds]
      exact hcell

theorem receiveLoop_mono {fuel : ℕ} {s : State} {o : Result}
    (h : receiveLoop m receive fuel s = some o) (d : ℕ) :
    receiveLoop m receive (fuel + d) s = some o := by
  induction fuel generalizing s with
  | zero => exact absurd h (by simp [receiveLoop])
  | succ fuel ih =>
    rw [Nat.succ_add, receiveLoop]
    rw [receiveLoop] at h
    split_ifs at h ⊢
    · exact h
    · exact h
    · exact ih h

theorem take_cell (s : State) (r : Code) (b : Byte) :
    (s.take ⟨r, some b⟩).buffer.cells s.offset = b :=
  Function.update_self _ _ _

private theorem take_cells_of_ne {s : State} (got : Received) {i : ℕ} (h : i ≠ s.offset) :
    (s.take got).buffer.cells i = s.buffer.cells i := by
  obtain ⟨r, _ | b⟩ := got
  · rfl
  · exact Function.update_of_ne h _ _

private theorem continues_of_byte {n : ℕ} {b : Byte} (h : receive n = ⟨ps4Ok, some b⟩)
    (hb : b ≠ newline) :
    Continues m receive sizeMax n := by
  refine ⟨by rw [h], ?_⟩
  rw [h, ← (inRound_after m receive sizeMax n).offset, take_cell]
  exact hb

theorem Arrives.left {bytes more : List Byte} (h : Arrives receive (bytes ++ more)) :
    Arrives receive bytes := by
  intro i hi
  rw [h i (by rw [List.length_append]; omega), List.getElem_append_left hi]

theorem Arrives.continues {bytes : List Byte} (h : Arrives receive bytes) (hbytes : newline ∉ bytes)
    {n : ℕ} (hn : n < bytes.length) : Continues m receive sizeMax n :=
  continues_of_byte (h n hn) fun he => hbytes (he ▸ List.getElem_mem hn)

end

section

variable {data : Address} {m : LineAllocator data} {sizeMax : BitVec 64} {td sock : Address}
  {soreceive : ℕ → Received}

theorem Returns.unique {o o' : Result} (h : Returns m sizeMax td sock soreceive o)
    (h' : Returns m sizeMax td sock soreceive o') : o = o' := by
  obtain ⟨fuel, h⟩ := h
  obtain ⟨fuel', h'⟩ := h'
  have hboth := receiveLoop_mono h fuel'
  rw [Nat.add_comm, receiveLoop_mono h' fuel] at hboth
  exact (Option.some.inj hboth).symm

private theorem not_returns
    (h : ∀ n, Continues m (received td sock soreceive) sizeMax n) (o : Result) :
    ¬Returns m sizeMax td sock soreceive o := by
  rintro ⟨fuel, hfuel⟩
  have hend := receiveLoop_after fuel (fun i _ => h i) 0
  rw [Nat.add_zero] at hend
  exact absurd (hfuel.symm.trans hend) (by simp [receiveLoop])

variable (m sizeMax td sock soreceive) in
def lineEnd (k : ℕ) : State :=
  (after m (received td sock soreceive) sizeMax k).take ⟨ps4Ok, some newline⟩

/-- The loop is left in the round that finds a newline, received or not. -/
theorem returns_found {n : ℕ} (h : ∀ i < n, Continues m (received td sock soreceive) sizeMax i)
    {got : Received} (hgot : received td sock soreceive n = got) (hr : got.r = ps4Ok)
    (hcell : ((after m (received td sock soreceive) sizeMax n).take got).buffer.cells
      (n % 2 ^ 64) = newline) :
    Returns m sizeMax td sock soreceive ((after m (received td sock soreceive) sizeMax n).take
      got).finish := by
  have hround := inRound_after m (received td sock soreceive) sizeMax n
  refine ⟨n + 1, ?_⟩
  rw [ps4KernelSocketReceiveString, receiveLoop_after _ h, receiveLoop, hround.rounds, hgot,
    if_neg (not_not_intro hr), if_pos]
  rw [(hround.take _).offset]
  exact hcell

/-- A line is received up to its newline, and no limit stops it. -/
theorem returns_line {text : List Byte} (hline : newline ∉ text)
    (h : Arrives (received td sock soreceive) (text ++ [newline])) :
    Returns m sizeMax td sock soreceive (lineEnd m sizeMax td sock soreceive
      text.length).finish := by
  have hlast : received td sock soreceive text.length = ⟨ps4Ok, some newline⟩ := by
    rw [h text.length (by simp), List.getElem_concat_length rfl]
  refine returns_found (fun i hi => h.left.continues hline hi) hlast rfl ?_
  rw [← (inRound_after m (received td sock soreceive) sizeMax text.length).offset]
  exact take_cell _ _ _

private theorem Returns.exists_iff {o : Result} (h : Returns m sizeMax td sock soreceive o)
    {P : Result → Prop} :
    (∃ o, Returns m sizeMax td sock soreceive o ∧ P o) ↔ P o := by
  refine ⟨?_, fun hP => ⟨_, h, hP⟩⟩
  rintro ⟨o', ho', hP⟩
  exact ho'.unique h ▸ hP

end

/-- Every store is inside what was allocated at the time. -/
def Inside (stores : List (ℕ × ℕ)) : Prop := ∀ p ∈ stores, p.1 < p.2

def Result.Inside (o : Result) : Prop := SocketLines.Inside o.stores

private theorem inside_concat {stores : List (ℕ × ℕ)} {p : ℕ × ℕ} : Inside (stores ++ [p]) ↔
    Inside stores ∧ p.1 < p.2 := by
  simp only [Inside, List.mem_append, List.mem_singleton, or_imp, forall_and, forall_eq]

section

variable {data : Address} {m : LineAllocator data} {receive : ℕ → Received} {sizeMax : BitVec 64}

private theorem InRound.advance_record {n : ℕ} {s : State} (h : InRound m sizeMax n s) :
    (s.advance m).stores = s.stores ∧ (s.advance m).consumed = s.consumed := by
  rw [h.advance_eq]
  split_ifs <;> exact ⟨rfl, rfl⟩

variable (m sizeMax) in
/-- The stores of the bytes, and how many there are. -/
theorem Arrives.stores {bytes : List Byte} (h : Arrives receive bytes) (n : ℕ)
    (hn : n ≤ bytes.length) :
    (after m receive sizeMax n).stores =
        (List.range n).map (fun i => (i % 2 ^ 64, sizeAt (initialSize sizeMax) i + 1)) ∧
      (after m receive sizeMax n).consumed = n := by
  induction n with
  | zero => exact ⟨rfl, rfl⟩
  | succ n ih =>
    have hround := inRound_after m receive sizeMax n
    obtain ⟨hstores, hconsumed⟩ := ih (by omega)
    obtain ⟨hstores', hconsumed'⟩ := (hround.take (receive n)).advance_record
    rw [after, hstores', hconsumed', h n hn, List.range_succ, List.map_append, ← hstores]
    refine ⟨?_, congrArg (· + 1) hconsumed⟩
    change _ ++ [((after m receive sizeMax n).offset,
      (after m receive sizeMax n).buffer.allocated)] = _
    rw [hround.offset, hround.allocated]
    rfl

variable (m sizeMax) in
private theorem Arrives.consumed {bytes : List Byte} (h : Arrives receive bytes) (got : Received) :
    ((after m receive sizeMax bytes.length).take got).consumed =
      bytes.length + got.byte.toList.length := by
  have hbefore := (h.stores m sizeMax _ le_rfl).2
  obtain ⟨r, _ | b⟩ := got
  · exact hbefore
  · exact congrArg (· + 1) hbefore

variable (m sizeMax) in
/-- The bytes that were received are inside exactly if they are not more than some capacity and
one. -/
theorem Arrives.inside_iff {bytes : List Byte} (h : Arrives receive bytes) (got : Received) :
    Inside ((after m receive sizeMax bytes.length).take got).stores ↔
      ∃ s, Capacity (initialSize sizeMax) s ∧
        ((after m receive sizeMax bytes.length).take got).consumed ≤ s + 1 := by
  have hle := initialSize_le sizeMax
  have hround := inRound_after m receive sizeMax bytes.length
  have hbefore : Inside (after m receive sizeMax bytes.length).stores ↔
      ∀ i < bytes.length, i % 2 ^ 64 < sizeAt (initialSize sizeMax) i + 1 := by
    rw [(h.stores m sizeMax _ le_rfl).1]
    simp only [Inside, List.forall_mem_map, List.mem_range]
  rw [h.consumed m sizeMax, ← bytes_inside_iff hle]
  obtain ⟨r, _ | b⟩ := got
  · exact hbefore
  · change Inside (_ ++ [((after m receive sizeMax bytes.length).offset, _)]) ↔
      ∀ i < bytes.length + 1, _
    rw [inside_concat, hbefore, hround.offset, hround.allocated, Nat.forall_lt_succ_right]

variable (m sizeMax) in
theorem stores_of_nothing {k n : ℕ} (h : ∀ i, k ≤ i → (receive i).byte = none) (hn : k ≤ n) :
    (after m receive sizeMax n).stores = (after m receive sizeMax k).stores := by
  induction n, hn using Nat.le_induction with
  | base => rfl
  | succ n hn ih =>
    have hnone := h n hn
    rw [after, ((inRound_after m receive sizeMax n).take (receive n)).advance_record.1, ← ih]
    unfold State.take
    rw [hnone]

private theorem InRound.advance_cells {n : ℕ} {s : State} (h : InRound m sizeMax n s) :
    (s.advance m).buffer.cells =
      if n % 2 ^ 64 = sizeAt (initialSize sizeMax) n then fun i =>
        if i < min (sizeAt (initialSize sizeMax) n + 1)
          (sizeAt (initialSize sizeMax) (n + 1) + 1) then s.buffer.cells i
        else m.fresh s.allocations i
      else s.buffer.cells := by
  rw [h.advance_eq]
  split_ifs <;> rfl

private theorem InRound.advance_keeps {n : ℕ} {s : State} (h : InRound m sizeMax n s) {i : ℕ}
    (hold : i ≤ sizeAt (initialSize sizeMax) n) (hnew : i ≤ sizeAt (initialSize sizeMax) (n + 1)) :
    (s.advance m).buffer.cells i = s.buffer.cells i := by
  rw [h.advance_cells]
  split_ifs
  · exact if_pos (by omega)
  · rfl

/-- Up to the greatest capacity the buffer holds what was received. -/
theorem Arrives.cells {bytes : List Byte} (h : Arrives receive bytes) (n : ℕ)
    (hn : n ≤ bytes.length) (hcap : ∃ s, Capacity (initialSize sizeMax) s ∧ n ≤ s)
    {i : ℕ} (hi : i < n) :
    (after m receive sizeMax n).buffer.cells i = bytes[i] := by
  induction n with
  | zero => exact absurd hi (Nat.not_lt_zero i)
  | succ n ih =>
    have hround := inRound_after m receive sizeMax n
    have hnew := (sizeAt_isLeast (initialSize_le sizeMax) (n + 1) hcap).1.2
    obtain ⟨s, hs, hle⟩ := hcap
    have hlt := hs.lt
    have hold := (sizeAt_isLeast (initialSize_le sizeMax) n ⟨s, hs, by omega⟩).1.2
    rw [after, (hround.take _).advance_keeps (by omega) (by omega), h n hn]
    change Function.update (after m receive sizeMax n).buffer.cells
      (after m receive sizeMax n).offset bytes[n] i = _
    rw [hround.offset, Nat.mod_eq_of_lt (show n < 2 ^ 64 by omega)]
    rcases Nat.lt_succ_iff_lt_or_eq.mp hi with hlt | rfl
    · rw [Function.update_of_ne (Nat.ne_of_lt hlt), ih (by omega) ⟨s, hs, by omega⟩ hlt]
    · rw [Function.update_self]

variable (m receive) in
/-- Behind the greatest capacity the last cell of the old block is lost. -/
theorem cells_lost {c : ℕ} (hc : Capacity (initialSize sizeMax) c)
    (hsize : sizeAt (initialSize sizeMax) (c + 1) < c)
    (hfull : sizeAt (initialSize sizeMax) c = c) (n : ℕ)
    (hn : c < n) (hlt : n ≤ 2 ^ 64) :
    sizeAt (initialSize sizeMax) n < c ∧
    ∃ j, (after m receive sizeMax n).buffer.cells c = m.fresh j c := by
  have hclt := hc.lt
  induction n, hn using Nat.le_induction with
  | base =>
    have hround := (inRound_after m receive sizeMax c).take (receive c)
    refine ⟨hsize, ((after m receive sizeMax c).take (receive c)).allocations, ?_⟩
    rw [after, hround.advance_cells, if_pos (by rw [hfull, Nat.mod_eq_of_lt hclt])]
    exact if_neg (by omega)
  | succ n hn ih =>
    have hround := inRound_after m receive sizeMax n
    obtain ⟨hsmall, j, hcell⟩ := ih (by omega)
    have hnot : ¬n % 2 ^ 64 = sizeAt (initialSize sizeMax) n := by
      rw [Nat.mod_eq_of_lt (by omega)]
      omega
    refine ⟨by rw [sizeAt, if_neg hnot]; exact hsmall, j, ?_⟩
    rw [after, (hround.take _).advance_cells, if_neg hnot, ← hcell]
    exact take_cells_of_ne _ (by rw [hround.offset, Nat.mod_eq_of_lt (by omega)]; omega)

end

section

variable {data : Address} {m : LineAllocator data} {sizeMax : BitVec 64} {td sock : Address}
  {soreceive : ℕ → Received}

/-- The stores when the loop is left at a newline: those before, with the newline if it was
received, and the terminator. -/
private theorem stores_finish (n : ℕ) (got : Received) :
    ((after m (received td sock soreceive) sizeMax n).take got).finish.stores =
      ((after m (received td sock soreceive) sizeMax n).take got).stores ++
        [((n % 2 ^ 64 + 1) % 2 ^ 64, sizeAt (initialSize sizeMax) n + 1)] := by
  have hround := (inRound_after m (received td sock soreceive) sizeMax n).take got
  rw [← hround.offset, ← hround.allocated]
  rfl

/-- With a newline found in a round, received or not, the terminator decides. -/
private theorem inside_finish_iff {n k : ℕ} {got : Received} (hk : k ≤ n + 1)
    (hbytes : Inside ((after m (received td sock soreceive) sizeMax n).take got).stores ↔
      ∃ s, Capacity (initialSize sizeMax) s ∧ k ≤ s + 1) (hn : n + 1 < 2 ^ 64 ∨ k = n + 1) :
    ((after m (received td sock soreceive) sizeMax n).take got).finish.Inside ↔
      (∃ s, Capacity (initialSize sizeMax) s ∧ n < s) ∧ ¬Capacity (initialSize sizeMax) n := by
  have hle := initialSize_le sizeMax
  rw [Result.Inside, stores_finish, inside_concat, hbytes]
  constructor
  · rintro ⟨⟨s, hs, hlen⟩, hterminator⟩
    have hlt := hs.add_lt hle
    exact (terminator_inside_iff hle (by omega)).mp hterminator
  · rintro ⟨⟨s, hs, hlen⟩, hnot⟩
    have hlt := hs.lt
    exact ⟨⟨s, hs, by omega⟩, (terminator_inside_iff hle (by omega)).mpr ⟨⟨s, hs, hlen⟩, hnot⟩⟩

/-- All stores are inside exactly if the line is shorter than some capacity and is none itself. -/
theorem inside_line_iff {text : List Byte}
    (h : Arrives (received td sock soreceive) (text ++ [newline])) :
    (lineEnd m sizeMax td sock soreceive text.length).finish.Inside ↔
      (∃ s, Capacity (initialSize sizeMax) s ∧ text.length < s) ∧
      ¬Capacity (initialSize sizeMax) text.length := by
  refine inside_finish_iff le_rfl ((h.left.inside_iff m sizeMax _).trans ?_) (.inr rfl)
  rw [h.left.consumed m sizeMax]
  rfl

end

/-- A line within the limit is returned with its newline and a terminator, and one beyond it is
refused. -/
structure Result.Meets (o : Result) (sizeMax : BitVec 64) (text : List Byte) : Prop where
  within : sizeMax = 0#64 ∨ text.length + 2 ≤ sizeMax.toNat → o.r = ps4Ok ∧
    o.consumed = text.length + 1 ∧
    ∃ b, o.out = some (b, text.length + 2) ∧ b.Holds (text ++ [newline, 0])
  beyond : sizeMax ≠ 0#64 → sizeMax.toNat < text.length + 2 → o.r ≠ ps4Ok ∧
    o.consumed ≤ sizeMax.toNat

/-- An allocator with one block, and the given memory behind what it defines. -/
def plainAllocator (data : Address) (fresh : ℕ → ℕ → Byte) : LineAllocator data where
  live := []
  place := fun _ => data + 1
  fresh := fresh
  place_notMem := fun _ => List.not_mem_nil
  place_ne := fun _ => by bv_omega

section

variable {data : Address} {m : LineAllocator data} {sizeMax : BitVec 64} {td sock : Address}
  {soreceive : ℕ → Received}

variable (m sizeMax td sock soreceive) in
private theorem lineEnd_out (k : ℕ) : ∃ b, (lineEnd m sizeMax td sock soreceive k).finish.out =
      some (b, (k % 2 ^ 64 + 2) % 2 ^ 64) ∧
    b.cells = Function.update (Function.update (after m (received td sock soreceive) sizeMax
      k).buffer.cells (k % 2 ^ 64) newline) ((k % 2 ^ 64 + 1) % 2 ^ 64) 0#8 := by
  rw [← (inRound_after m (received td sock soreceive) sizeMax k).offset]
  exact ⟨_, rfl, rfl⟩

/-- A line up to the greatest capacity is in the buffer with its terminator. -/
theorem holds_line {text : List Byte} (h : Arrives (received td sock soreceive) (text ++ [newline]))
    (hcap : ∃ s, Capacity (initialSize sizeMax) s ∧ text.length ≤ s) :
    ∃ b, (lineEnd m sizeMax td sock soreceive text.length).finish.out = some (b, text.length + 2) ∧
      b.Holds (text ++ [newline, 0]) := by
  obtain ⟨b, hout, hcells⟩ := lineEnd_out m sizeMax td sock soreceive text.length
  obtain ⟨s, hs, hle⟩ := id hcap
  have hlt := hs.add_lt (initialSize_le sizeMax)
  have hmod : text.length % 2 ^ 64 = text.length := Nat.mod_eq_of_lt (by omega)
  rw [hmod, Nat.mod_eq_of_lt (by omega)] at hout
  rw [hmod, Nat.mod_eq_of_lt (by omega)] at hcells
  refine ⟨b, hout, fun i hi => ?_⟩
  rw [hcells]
  rw [List.length_append, List.length_cons, List.length_cons, List.length_nil] at hi
  rcases (by omega : i < text.length ∨ i = text.length ∨ i = text.length + 1) with hbyte | rfl | rfl
  · rw [Function.update_of_ne (by omega), Function.update_of_ne (by omega),
      h.cells text.length (by simp) hcap hbyte, List.getElem_append_left hbyte,
      List.getElem_append_left hbyte]
  · rw [Function.update_of_ne (by omega), Function.update_self]
    simp
  · rw [Function.update_self]
    simp

/-- A line that outgrows the last capacity loses a byte if memory holds another one. -/
theorem not_holds_line {text : List Byte} (hpos : 1 ≤ initialSize sizeMax)
    (hlt : text.length + 2 < 2 ^ 64) (hnot : ¬∃ s, Capacity (initialSize sizeMax) s ∧
      text.length ≤ s)
    (hfresh : ∀ j i (hi : i < text.length), m.fresh j i ≠ text[i]) {b : Buffer} {size : ℕ}
    (hout : (lineEnd m sizeMax td sock soreceive text.length).finish.out = some (b, size)) :
    ¬b.Holds (text ++ [newline, 0]) := by
  obtain ⟨c, hc, _, hfull, _, hsize⟩ := exists_greatest (initialSize_le sizeMax)
  obtain ⟨b', hout', hcells⟩ := lineEnd_out m sizeMax td sock soreceive text.length
  obtain rfl : b = b' := congrArg Prod.fst (Option.some.inj (hout.symm.trans hout'))
  have hcline : c < text.length := Nat.lt_of_not_le fun hle => hnot ⟨c, hc, hle⟩
  obtain ⟨_, j, hlost⟩ := cells_lost m (received td sock soreceive) hc (hsize hpos) hfull
    text.length hcline (by omega)
  intro hholds
  have hcell := hholds c (by rw [List.length_append]; omega)
  rw [hcells, Nat.mod_eq_of_lt (show text.length < 2 ^ 64 by omega), Nat.mod_eq_of_lt (by omega),
    Function.update_of_ne (by omega), Function.update_of_ne (by omega), hlost,
    List.getElem_append_left hcline] at hcell
  exact hfresh j c hcline hcell

/-- The line is returned as it should be, whatever memory holds, exactly if the limit lets it pass
and it does not outgrow the last capacity. No line is refused. -/
theorem receiveString_line_iff {text : List Byte} (hline : newline ∉ text)
    (h : Arrives (received td sock soreceive) (text ++ [newline])) :
    (∀ m : LineAllocator data, ∃ o, Returns m sizeMax td sock soreceive o ∧ o.Meets sizeMax text) ↔
      (sizeMax = 0#64 ∨ text.length + 2 ≤ sizeMax.toNat) ∧
        ∃ s, Capacity (initialSize sizeMax) s ∧ text.length ≤ s := by
  simp only [(returns_line hline h).exists_iff]
  constructor
  · intro hmeets
    have hwithin : sizeMax = 0#64 ∨ text.length + 2 ≤ sizeMax.toNat := by
      by_contra hnot
      obtain ⟨hne, hlt⟩ := not_or.mp hnot
      exact absurd rfl ((hmeets (plainAllocator data fun _ _ => 0)).beyond hne
        (Nat.lt_of_not_le hlt)).1
    refine ⟨hwithin, ?_⟩
    by_contra hnot
    have hother : ∀ j i (hi : i < text.length),
        (plainAllocator data fun _ i => text.getD i 0 + 1).fresh j i ≠ text[i] := by
      intro j i hi
      change text.getD i 0 + 1 ≠ text[i]
      rw [List.getD_eq_getElem?_getD, List.getElem?_eq_getElem hi, Option.getD_some]
      bv_omega
    obtain ⟨_, _, b, hout, hholds⟩ :=
      (hmeets (plainAllocator data fun _ i => text.getD i 0 + 1)).within hwithin
    obtain ⟨b', hout', _⟩ :=
      lineEnd_out (plainAllocator data fun _ i => text.getD i 0 + 1) sizeMax td sock soreceive
        text.length
    have hsize : text.length + 2 = (text.length % 2 ^ 64 + 2) % 2 ^ 64 :=
      congrArg Prod.snd (Option.some.inj (hout.symm.trans hout'))
    exact not_holds_line (initialSize_pos (hwithin.imp_right fun h => by omega)) (by omega) hnot
      hother hout hholds
  · rintro ⟨hwithin, hcap⟩ m
    refine ⟨fun _ => ⟨rfl, ?_, holds_line h hcap⟩, fun hne hlt => ?_⟩
    · exact h.left.consumed m sizeMax ⟨ps4Ok, some newline⟩
    · exact absurd hwithin (not_or.mpr ⟨hne, Nat.not_le.mpr hlt⟩)

end

/-- The stream gives these bytes, and then its end: nothing is transferred, and there is no
error. -/
def closedStream (bytes : List Byte) (n : ℕ) : Received := ⟨ps4Ok, bytes[n]?⟩

theorem received_closedStream {td sock : Address} (htd : td ≠ 0#64) (hsock : sock ≠ 0#64)
    (bytes : List Byte) (n : ℕ) :
    received td sock (closedStream bytes) n = ⟨ps4Ok, bytes[n]?⟩ := by
  rw [received, ps4KernelSocketReceive, if_neg htd, if_neg hsock, closedStream]

theorem arrives_closedStream {td sock : Address} (htd : td ≠ 0#64) (hsock : sock ≠ 0#64)
    (bytes more : List Byte) : Arrives (received td sock (closedStream (bytes ++ more))) bytes := by
  intro i hi
  rw [received_closedStream htd hsock, List.getElem?_append_left hi, List.getElem?_eq_getElem hi]

theorem receiveString_line_iff_letter :
    ∃ o, Returns (plainAllocator 0x7000 fun _ _ => 0) 0 0x1000 0x2000
      (closedStream [0x61, newline]) o ∧ o.Meets 0 [0x61] :=
  (receiveString_line_iff (show newline ∉ [0x61] by decide)
    (arrives_closedStream (by decide) (by decide) ([0x61] ++ [newline]) [])).mpr
    ⟨.inl rfl, 1024, ⟨0, by decide⟩, by decide⟩ (plainAllocator 0x7000 fun _ _ => 0)

/-- With a limit of two bytes the three bytes of a line are returned. -/
theorem receiveString_passes_limit :
    ∃ o, Returns (plainAllocator 0x7000 fun _ _ => 0) 2 0x1000 0x2000
      (closedStream [0x61, newline]) o ∧
      o.r = ps4Ok ∧ o.consumed = 2 ∧ o.out.map Prod.snd = some 3 ∧ ¬o.Meets 2 [0x61] :=
  ⟨_, ⟨2, rfl⟩, rfl, rfl, rfl, fun h => absurd rfl (h.beyond (by decide) (by decide)).1⟩

section

variable {data : Address} {m : LineAllocator data} {sizeMax : BitVec 64} {td sock : Address}
  {soreceive : ℕ → Received}

/-- A failed receive ends the call with the bytes so far. -/
private theorem Arrives.failed {text : List Byte} (hline : newline ∉ text)
    (h : Arrives (received td sock soreceive) text)
    (hr : (received td sock soreceive text.length).r ≠ ps4Ok)
    {o : Result} (ho : Returns m sizeMax td sock soreceive o) : ∃ t : State,
      t = (after m (received td sock soreceive) sizeMax text.length).take
        (received td sock soreceive text.length) ∧
        ∃ live, ps4KernelMemoryFree t.live data = some live ∧
          o = ⟨ps4ErrorBadRequest, none, live, t.consumed, t.stores⟩ := by
  obtain ⟨fuel, ho⟩ := ho
  have hend := receiveLoop_mono ho (text.length + 1)
  rw [Nat.add_left_comm, receiveLoop_after _ fun i hi => h.continues hline hi, receiveLoop,
    (inRound_after m (received td sock soreceive) sizeMax text.length).rounds, if_pos hr] at hend
  obtain ⟨live, hlive, rfl⟩ := Option.map_eq_some_iff.mp hend
  exact ⟨_, rfl, live, hlive, rfl⟩

/-- All stores of a line are in the block exactly if the terminator is: the line is shorter than
some capacity, and is none itself. Without a newline, the bytes are inside up to the one behind a
capacity. After a failed receive this is all that is stored; after the end of the stream a newline
that the buffer happens to hold has its terminator as a line. -/
theorem receiveString_inside_iff {text : List Byte} (hline : newline ∉ text)
    (h : Arrives (received td sock soreceive) text) :
    (Arrives (received td sock soreceive) (text ++ [newline]) →
      ((∃ o, Returns m sizeMax td sock soreceive o ∧ o.Inside) ↔
        (∃ s, Capacity (initialSize sizeMax) s ∧ text.length < s) ∧
        ¬Capacity (initialSize sizeMax) text.length)) ∧
    ((received td sock soreceive text.length).r ≠ ps4Ok →
      ∀ o, Returns m sizeMax td sock soreceive o →
      (o.Inside ↔ ∃ s, Capacity (initialSize sizeMax) s ∧ o.consumed ≤ s + 1)) ∧
    ((∀ n, text.length ≤ n → received td sock soreceive n = ⟨ps4Ok, none⟩) → ∀ n, text.length ≤ n →
      (Inside (after m (received td sock soreceive) sizeMax n).stores ↔
        ∃ s, Capacity (initialSize sizeMax) s ∧ text.length ≤ s + 1) ∧
      (n + 1 < 2 ^ 64 → (∀ i < n, Continues m (received td sock soreceive) sizeMax i) →
        (after m (received td sock soreceive) sizeMax n).buffer.cells n = newline →
        ((∃ o, Returns m sizeMax td sock soreceive o ∧ o.Inside) ↔
          (∃ s, Capacity (initialSize sizeMax) s ∧ n < s) ∧
          ¬Capacity (initialSize sizeMax) n))) := by
  refine ⟨fun hnewline => ?_, fun hr o ho => ?_, fun hclosed n hn => ?_⟩
  · rw [(returns_line hline hnewline).exists_iff, inside_line_iff hnewline]
  · obtain ⟨t, rfl, live, _, rfl⟩ := h.failed hline hr ho
    exact h.inside_iff m sizeMax _
  · have hbytes : Inside (after m (received td sock soreceive) sizeMax n).stores ↔
        ∃ s, Capacity (initialSize sizeMax) s ∧ text.length ≤ s + 1 := by
      rw [stores_of_nothing m sizeMax (fun i hi => by rw [hclosed i hi]) hn]
      refine (h.inside_iff m sizeMax ⟨ps4Ok, none⟩).trans ?_
      rw [h.consumed m sizeMax]
      rfl
    refine ⟨hbytes, fun hlt hcontinues hcell => ?_⟩
    rw [(returns_found hcontinues (hclosed n hn) rfl
      (by rw [Nat.mod_eq_of_lt (by omega)]; exact hcell)).exists_iff]
    exact inside_finish_iff (Nat.le_succ_of_le hn) hbytes (.inl hlt)

end

/-- An empty line, a receive that fails at once, and a stream that ends at once, with a newline in
the bytes that the first reallocation adds. -/
theorem receiveString_inside_iff_empty :
    (∃ o, Returns (plainAllocator 0x7000 fun _ _ => 0) 0 0x1000 0x2000 (closedStream [newline]) o ∧
      o.Inside) ∧
    (∃ o, Returns (plainAllocator 0 fun _ _ => 0) 0 0x1000 0x2000 (fun _ => ⟨54, none⟩) o ∧
      o.Inside) ∧
    ∃ o, Returns (plainAllocator 0x7000 fun _ _ => newline) 3 0x1000 0x2000 (closedStream []) o ∧
    o.Inside := by
  have hnone : ∀ soreceive, Arrives (received 0x1000 0x2000 soreceive) [] :=
    fun _ i hi => absurd hi (Nat.not_lt_zero i)
  have hodd : ∀ first n j : ℕ, first % 2 = 0 → n % 2 = 1 → n ≠ first * 2 ^ j := by
    rintro first n j hfirst hn rfl
    rw [Nat.mul_mod, hfirst, Nat.zero_mul] at hn
    exact absurd hn (by decide)
  refine ⟨?_, ?_, ?_⟩
  · refine ((receiveString_inside_iff List.not_mem_nil (hnone _)).1
      (arrives_closedStream (by decide) (by decide) ([] ++ [newline]) [])).mpr
        ⟨⟨1024, ⟨0, by decide⟩, by decide⟩, ?_⟩
    rintro ⟨j, hj, _⟩
    exact absurd hj.symm (Nat.mul_ne_zero (by decide) (Nat.pow_pos (by decide)).ne')
  · have hfails : (received 0x1000 0x2000 (fun _ => ⟨54, none⟩) 0).r ≠ ps4Ok := by decide
    have hreturns : Returns (plainAllocator 0 fun _ _ => 0) 0 0x1000 0x2000
      (fun _ => ⟨54, none⟩) _ := ⟨1, rfl⟩
    exact ⟨_, hreturns, ((receiveString_inside_iff List.not_mem_nil (hnone _)).2.1 hfails
      _ hreturns).mpr ⟨1024, ⟨0, by decide⟩, by decide⟩⟩
  · have hcontinues : ∀ i < 3, Continues (plainAllocator 0x7000 fun _ _ => newline)
        (received 0x1000 0x2000 (closedStream [])) 3 i := by
      intro i hi
      rcases (by omega : i = 0 ∨ i = 1 ∨ i = 2) with rfl | rfl | rfl <;> exact ⟨rfl, by decide⟩
    have hcell : (after (plainAllocator 0x7000 fun _ _ => newline)
        (received 0x1000 0x2000 (closedStream [])) 3 3).buffer.cells 3 = newline := by decide
    refine (((receiveString_inside_iff List.not_mem_nil (hnone _)).2.2
      (fun n _ => received_closedStream (by decide) (by decide) [] n) 3 (by decide)).2 (by decide)
        hcontinues hcell).mpr ⟨⟨4, ⟨1, by decide⟩, by decide⟩, ?_⟩
    rintro ⟨j, hj, _⟩
    exact hodd 2 3 j rfl rfl hj

/-- The terminator of a line of 1024 characters is stored behind the 1025 bytes that were
allocated. -/
theorem receiveString_writes_behind :
    ∃ o, Returns (plainAllocator 0x7000 fun _ _ => 0) 0 0x1000 0x2000
        (closedStream (List.replicate 1024 0x61 ++ [newline])) o ∧ (1025, 1025) ∈ o.stores ∧
        ¬o.Inside := by
  have hline : newline ∉ List.replicate 1024 0x61 :=
    fun h => absurd (List.eq_of_mem_replicate h) (by decide)
  have harrives : Arrives (received 0x1000 0x2000 (closedStream
    (List.replicate 1024 0x61 ++ [newline])))
      (List.replicate 1024 0x61 ++ [newline]) := by
    have hall := arrives_closedStream (show (0x1000 : Address) ≠ 0#64 by decide)
      (show (0x2000 : Address) ≠ 0#64 by decide) (List.replicate 1024 0x61 ++ [newline]) []
    rwa [List.append_nil] at hall
  have hsize : sizeAt (initialSize 0) 1024 = 1024 :=
    Capacity.sizeAt_eq (initialSize_le 0) (show Capacity (initialSize 0) 1024 from ⟨0, by decide⟩)
  have hreturns : Returns (plainAllocator 0x7000 fun _ _ => 0) 0 0x1000 0x2000 _ _ :=
    returns_line hline harrives
  rw [List.length_replicate] at hreturns
  have hmem : (1025, 1025) ∈ (lineEnd (plainAllocator 0x7000 fun _ _ => 0) 0 0x1000 0x2000
      (closedStream (List.replicate 1024 0x61 ++ [newline])) 1024).finish.stores := by
    rw [lineEnd, stores_finish, hsize]
    exact List.mem_append_right _ (List.mem_singleton_self _)
  exact ⟨_, hreturns, hmem, fun h => Nat.lt_irrefl _ (h _ hmem)⟩

section

variable {data : Address} {sizeMax : BitVec 64} {td sock : Address}

theorem cells_ne_newline {m : LineAllocator data} {receive : ℕ → Received}
    (hfresh : ∀ j i, m.fresh j i ≠ newline)
    (hreceive : ∀ n, (receive n).byte ≠ some newline) (n i : ℕ) :
    (after m receive sizeMax n).buffer.cells i ≠ newline ∧
      ((after m receive sizeMax n).take (receive n)).buffer.cells i ≠ newline := by
  have htake : ∀ (s : State) (n : ℕ), (∀ i, s.buffer.cells i ≠ newline) →
      ∀ i, (s.take (receive n)).buffer.cells i ≠ newline := by
    intro s n hs i
    have hbyte := hreceive n
    generalize receive n = got at hbyte ⊢
    obtain ⟨r, _ | b⟩ := got
    · exact hs i
    · by_cases hi : i = s.offset
      · subst hi
        rw [take_cell]
        exact fun he => hbyte (congrArg some he)
      · rw [take_cells_of_ne _ hi]
        exact hs i
  have hafter : ∀ n i, (after m receive sizeMax n).buffer.cells i ≠ newline := by
    intro n
    induction n with
    | zero =>
      intro i
      change (if i < initialSize sizeMax + 1 then 0#8 else m.fresh 0 i) ≠ newline
      split_ifs
      · decide
      · exact hfresh 0 i
    | succ n ih =>
      intro i
      rw [after, ((inRound_after m receive sizeMax n).take _).advance_cells]
      split_ifs
      · dsimp only
        split_ifs
        · exact htake _ n ih i
        · exact hfresh _ i
      · exact htake _ n ih i
  exact ⟨hafter n i, htake _ n (hafter n) i⟩

private theorem closedStream_never (htd : td ≠ 0#64) (hsock : sock ≠ 0#64) {stream : List Byte}
    (h : newline ∉ stream) (o : Result) :
    ¬Returns (plainAllocator data fun _ _ => 0) sizeMax td sock (closedStream stream) o := by
  refine not_returns (fun n => ⟨by rw [received_closedStream htd hsock], ?_⟩) o
  refine (cells_ne_newline (fun j i => show (0 : Byte) ≠ newline by decide) (fun n he => ?_) n _).2
  rw [received_closedStream htd hsock] at he
  exact h (List.mem_of_getElem? he)

/-- The call returns on a stream that ends exactly if there is a newline in it. -/
theorem receiveString_returns_iff (htd : td ≠ 0#64) (hsock : sock ≠ 0#64) (stream : List Byte) :
    (∀ m : LineAllocator data, ∃ o, Returns m sizeMax td sock (closedStream stream) o) ↔
    newline ∈ stream := by
  constructor
  · intro h
    by_contra hnot
    obtain ⟨o, ho⟩ := h (plainAllocator data fun _ _ => 0)
    exact closedStream_never htd hsock hnot o ho
  · intro hmem m
    obtain ⟨text, rest, rfl, hline⟩ := List.eq_append_cons_of_mem hmem
    refine ⟨_, returns_line hline ?_⟩
    rw [← List.singleton_append, ← List.append_assoc]
    exact arrives_closedStream htd hsock _ _

end

theorem receiveString_returns_iff_newline :
    ∃ o, Returns (plainAllocator 0x7000 fun _ _ => 0) 0 0x1000 0x2000 (closedStream [newline]) o :=
  (receiveString_returns_iff (by decide) (by decide) [newline]).mpr (by decide)
  (plainAllocator 0x7000 fun _ _ => 0)

/-- On a stream that is closed at once the loop goes on for ever. -/
theorem receiveString_spins :
    ¬∃ o, Returns (plainAllocator 0x7000 fun _ _ => 0) 0 0x1000 0x2000 (closedStream []) o :=
  fun ⟨o, ho⟩ => closedStream_never (by decide) (by decide) List.not_mem_nil o ho

/-- The calls give some bytes, none of them a newline, and then fail. -/
structure FailsAfter (receive : ℕ → Received) (bytes : List Byte) : Prop where
  arrives : Arrives receive bytes
  noNewline : newline ∉ bytes
  fails : (receive bytes.length).r ≠ ps4Ok

/-- The error is returned, the blocks are those that were live before, and the out parameters are
not set. -/
structure Result.Clean {data : Address} (o : Result) (m : LineAllocator data) : Prop where
  r : o.r = ps4ErrorBadRequest
  live : o.live = m.live
  out : o.out = none

section

variable {data : Address} {m : LineAllocator data} {sizeMax : BitVec 64} {td sock : Address}
  {soreceive : ℕ → Received}

theorem base_mem_free {base : Address} (hbase : base ≠ data) {live : List Address}
    (h : ps4KernelMemoryFree (base :: m.live) data = some live) : base ∈ live := by
  unfold ps4KernelMemoryFree at h
  split_ifs at h with hzero hmem
  · exact Option.some.inj h ▸ List.mem_cons_self
  · rw [← Option.some.inj h, List.erase_cons_tail (by simpa using hbase)]
    exact List.mem_cons_self

/-- After a failed receive the buffer is always left. -/
theorem FailsAfter.not_clean {bytes : List Byte} (h : FailsAfter (received td sock soreceive) bytes)
    {o : Result} (ho : Returns m sizeMax td sock soreceive o) : ¬o.Clean m := by
  have hround := (inRound_after m (received td sock soreceive) sizeMax bytes.length).take
    (received td sock soreceive bytes.length)
  obtain ⟨t, rfl, live, hlive, rfl⟩ := h.arrives.failed h.noNewline h.fails ho
  rw [hround.live] at hlive
  obtain ⟨j, hj⟩ := hround.base
  intro hclean
  have hmem := base_mem_free (hj ▸ m.place_ne j) hlive
  have hsame : live = m.live := hclean.live
  rw [hsame, hj] at hmem
  exact m.place_notMem j hmem

/-- The clean end that a failed receive asks for is there exactly if no receive fails. -/
theorem receiveString_clean_iff :
    ((∃ bytes, FailsAfter (received td sock soreceive) bytes) →
        ∃ o, Returns m sizeMax td sock soreceive o ∧ o.Clean m) ↔
      ¬∃ bytes, FailsAfter (received td sock soreceive) bytes := by
  refine ⟨fun h hfails => ?_, fun hnot h => absurd h hnot⟩
  obtain ⟨o, ho, hclean⟩ := h hfails
  obtain ⟨bytes, hbytes⟩ := hfails
  exact hbytes.not_clean ho hclean

end

/-- If the first receive fails, the call does not come back when the out parameter is no block, and
otherwise it frees this block instead of its own. -/
theorem receiveString_frees_out :
    (∀ fuel, ps4KernelSocketReceiveString (plainAllocator 0x7000 fun _ _ => 0) 0x1000 0x2000
      (fun _ => ⟨54, none⟩) 0 fuel = none) ∧
    ∃ m : LineAllocator 0x7000, m.live = [0x7000] ∧
      ∃ o, Returns m 0 0x1000 0x2000 (fun _ => ⟨54, none⟩) o ∧ o.r = ps4ErrorBadRequest ∧
      o.live = [0x8000] := by
  refine ⟨fun fuel => ?_, ⟨⟨[0x7000], fun _ => 0x8000, fun _ _ => 0⟩,
    fun _ => show (0x8000 : Address) ∉
      [0x7000] by decide, fun _ => show (0x8000 : Address) ≠ 0x7000 by decide⟩, rfl,
    _, ⟨1, rfl⟩, rfl, rfl⟩
  cases fuel <;> rfl

end Ps4Sdk.SocketLines
