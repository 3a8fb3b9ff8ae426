import Ps4Sdk.PayloadExecution

/-!
# Hidden information, `payload/template.c`

A block of data is hidden in code behind a short jump over it. The operand of the jump is a
signed byte and is the size of the data as well, so that there is room for 127 bytes. Blocks
can stand one behind the other.
-/

namespace Ps4Sdk.PayloadTemplates
open ByteMemory AssemblyMachines

def ps4ErrorArgumentSizeTooLarge : Code := 0x85053610

def ps4KernelMemoryFill (m : KernelMemory) (memory : Address) (byte : Byte)
    (size : ℕ) : KernelMemory :=
  if memory = 0#64 then m else fill m memory size byte

/-- The code, what is stored through `size`, and the memory; the data is copied to the address in
`data`. -/
def ps4PayloadHiddenInformationExtractData (m : KernelMemory) (memory data size : Address) :
    Code × Option ℕ × KernelMemory :=
  if memory = 0#64 then (ps4ErrorArgumentPrimaryMissing, none, m)
  else if size = 0#64 then (ps4ErrorArgumentOutMissing, none, m)
  else if m memory ≠ 0xeb ∨
  127 < (m (memory + 1)).toNat then (ps4ErrorArgumentExpectationFailed, none, m)
  else
    let n := (m (memory + 1)).toNat
    (ps4Ok, some n, if data ≠ 0#64 then ps4KernelMemoryCopy m (memory + 2) data n else m)

def ps4PayloadHiddenInformationIsPatched (m : KernelMemory) (memory : Address) : Code :=
  if memory = 0#64 then ps4ErrorArgumentPrimaryMissing
  else if m memory = 0xeb ∧ (m (memory + 1)).toNat ≤ 127 then ps4Ok
  else ps4ErrorArgumentExpectationFailed

def ps4PayloadHiddenInformationPatch (m : KernelMemory) (memory data : Address) (size : Byte) :
    Code × KernelMemory :=
  if memory = 0#64 then (ps4ErrorArgumentPrimaryMissing, m)
  else if 127 < size.toNat then (ps4ErrorArgumentSizeTooLarge, m)
  else
    let m := ps4KernelMemoryFill m memory 0xeb 1
    let m := ps4KernelMemoryFill m (memory + 1) size 1
    (ps4Ok, ps4KernelMemoryCopy m data (memory + 2) size.toNat)

def stepShort (m : KernelMemory) (p : Processor) : Option Processor :=
  if m p.rip = 0xeb then some
    { p with rip := p.rip + 2 + (m (p.rip + 1)).signExtend 64 } else step m p

def executeShort (m : KernelMemory) : ℕ → Processor → Option Processor
  | 0, p => some p
  | n + 1, p => (stepShort m p).bind (executeShort m n)

/-- Data to hide. -/
structure Hidden where
  data : Address
  size : Byte

def Hidden.length (b : Hidden) : ℕ := 2 + b.size.toNat

def Hidden.content (m : KernelMemory) (b : Hidden) : List Byte := cellsAt m b.data b.size.toNat

def patchBlocks (m : KernelMemory) (memory : Address) : List Hidden → List Code × KernelMemory
  | [] => ([], m)
  | b :: bs =>
    let r := ps4PayloadHiddenInformationPatch m memory b.data b.size
    let rest := patchBlocks r.2 (memory + BitVec.ofNat 64 b.length) bs
    (r.1 :: rest.1, rest.2)

def total (bs : List Hidden) : ℕ := (bs.map Hidden.length).sum

/-! ### The format -/

def hiddenBytes (d : List Byte) : List Byte := 0xeb :: BitVec.ofNat 8 d.length :: d

def hiddenFormat (ds : List (List Byte)) : List Byte := ds.flatMap hiddenBytes

private theorem length_hiddenBytes (d : List Byte) : (hiddenBytes d).length = 2 + d.length := by
  simp only [hiddenBytes, List.length_cons]
  omega

theorem signExtend_size {n : ℕ} (h : n ≤ 127) :
    (BitVec.ofNat 8 n).signExtend 64 = BitVec.ofNat 64 n := by
  have hmsb : (BitVec.ofNat 8 n).msb = false := by
    rw [BitVec.msb_eq_false_iff_two_mul_lt, BitVec.toNat_ofNat]
    omega
  rw [BitVec.signExtend_eq_setWidth_of_msb_false hmsb]
  apply BitVec.eq_of_toNat_eq
  rw [BitVec.toNat_setWidth, BitVec.toNat_ofNat, BitVec.toNat_ofNat]
  omega

section Reading

variable {m : KernelMemory} {a : Address} {d : List Byte} {ds : List (List Byte)}

theorem cells_hiddenBytes (h : cellsAt m a (hiddenBytes d).length = hiddenBytes d) :
    m a = 0xeb ∧ m (a + 1) = BitVec.ofNat 8 d.length ∧ cellsAt m (a + 2) d.length = d := by
  rw [length_hiddenBytes, Nat.add_comm, show d.length + 2 = d.length + 1 + 1 from rfl, cellsAt_succ,
    cellsAt_succ, hiddenBytes] at h
  obtain ⟨h₀, h⟩ := List.cons_eq_cons.mp h
  obtain ⟨h₁, h₂⟩ := List.cons_eq_cons.mp h
  rw [BitVec.add_assoc] at h₂
  exact ⟨h₀, h₁, h₂⟩

private theorem cells_hiddenFormat_cons (h : cellsAt m a (hiddenFormat (d :: ds)).length =
    hiddenFormat (d :: ds)) :
    cellsAt m a (hiddenBytes d).length = hiddenBytes d ∧
      cellsAt m (a + BitVec.ofNat 64 (hiddenBytes d).length) (hiddenFormat ds).length =
        hiddenFormat ds := by
  have heq : hiddenFormat (d :: ds) = hiddenBytes d ++ hiddenFormat ds := List.flatMap_cons
  rw [heq, List.length_append, cellsAt_append] at h
  exact List.append_inj h (length_cellsAt ..)

private theorem stepShort_hidden (hd : d.length ≤ 127)
    (h : cellsAt m a (hiddenBytes d).length = hiddenBytes d) (v : View) :
    stepShort m ⟨v, a⟩ = some ⟨v, a + BitVec.ofNat 64 (hiddenBytes d).length⟩ := by
  obtain ⟨h₀, h₁, -⟩ := cells_hiddenBytes h
  rw [stepShort, if_pos h₀, length_hiddenBytes, BitVec.ofNat_add, ← BitVec.add_assoc,
    ← signExtend_size hd, ← h₁]
  rfl

theorem executeShort_hidden (hds : ∀ d ∈ ds, d.length ≤ 127)
    (h : cellsAt m a (hiddenFormat ds).length = hiddenFormat ds) (v : View) (k : ℕ) :
    executeShort m (ds.length + k) ⟨v, a⟩ =
      executeShort m k ⟨v, a + BitVec.ofNat 64 (hiddenFormat ds).length⟩ := by
  induction ds generalizing a with
  | nil =>
    have hzero : a + BitVec.ofNat 64 0 = a := BitVec.add_zero a
    rw [List.length_nil, Nat.zero_add]
    exact congrArg (fun x => executeShort m k ⟨v, x⟩) hzero.symm
  | cons d ds ih =>
    obtain ⟨hblock, hrest⟩ := cells_hiddenFormat_cons h
    have hlength : (hiddenFormat (d :: ds)).length =
        (hiddenBytes d).length + (hiddenFormat ds).length := by
      simp [hiddenFormat]
    rw [List.length_cons, Nat.add_right_comm, executeShort,
      stepShort_hidden (hds d List.mem_cons_self) hblock, Option.bind_some,
      ih (fun e he => hds e (List.mem_cons_of_mem _ he)) hrest, hlength, BitVec.ofNat_add,
      BitVec.add_assoc]

private theorem cells_hiddenFormat_split {front back : List (List Byte)}
    (h : cellsAt m a (hiddenFormat (front ++ d :: back)).length =
      hiddenFormat (front ++ d :: back)) :
    cellsAt m (a + BitVec.ofNat 64 (hiddenFormat front).length) (hiddenBytes d).length =
      hiddenBytes d := by
  have heq : hiddenFormat (front ++ d :: back) = hiddenFormat front ++
      (hiddenBytes d ++ hiddenFormat back) := by
    simp [hiddenFormat]
  rw [heq, List.length_append, List.length_append, cellsAt_append, cellsAt_append] at h
  exact (List.append_inj (List.append_inj h (length_cellsAt ..)).2 (length_cellsAt ..)).1

end Reading

/-! ### Writing and reading back -/

/-- The blocks and the byte behind them are not at null, and the data is elsewhere. -/
structure FitsBlocks (memory : Address) (bs : List Hidden) : Prop where
  small : ∀ b ∈ bs, b.size.toNat ≤ 127
  room : total bs ≤ 2 ^ 64
  null : ¬Inside memory (total bs + 1) 0#64
  data : ∀ b ∈ bs, b.data ≠ 0#64
  apart : ∀ b ∈ bs, Apart memory (total bs) b.data b.size.toNat

section Writing

variable {memory : Address} {b : Hidden} {bs : List Hidden}

private theorem FitsBlocks.ne_null (h : FitsBlocks memory bs) {i : ℕ} (hi : i ≤ total bs) :
    memory + BitVec.ofNat 64 i ≠ 0#64 :=
  fun he => h.null (he ▸ inside_add memory (by omega))

theorem FitsBlocks.tail (h : FitsBlocks memory (b :: bs)) :
    FitsBlocks (memory + BitVec.ofNat 64 b.length) bs where
  small c hc := h.small c (List.mem_cons_of_mem _ hc)
  room := (Nat.le_add_left _ _).trans h.room
  null hn := h.null (hn.of_add (by simp only [total, List.map_cons, List.sum_cons]; omega))
  data c hc := h.data c (List.mem_cons_of_mem _ hc)
  apart c hc := ((h.apart c (List.mem_cons_of_mem _ hc)).symm.add_right (by simp [total])).symm

theorem patch_eq (h : FitsBlocks memory (b :: bs)) (m : KernelMemory) :
    ps4PayloadHiddenInformationPatch m memory b.data b.size =
      (ps4Ok, write m memory (hiddenBytes (b.content m))) := by
  have hsum : total (b :: bs) = b.length + total bs := rfl
  have hlength : b.length = 2 + b.size.toNat := rfl
  have hroom := h.room
  have hcontent : (b.content m).length = b.size.toNat := length_cellsAt ..
  have h₀ : memory ≠ 0#64 := by simpa using h.ne_null (i := 0) (by omega)
  have h₁ : memory + 1 ≠ 0#64 := h.ne_null (i := 1) (by omega)
  have h₂ : memory + 2 ≠ 0#64 := h.ne_null (i := 2) (by omega)
  have hfills : ps4KernelMemoryFill (ps4KernelMemoryFill m memory 0xeb 1) (memory + 1) b.size 1 =
      write m memory [0xeb, b.size] := by
    rw [ps4KernelMemoryFill, ps4KernelMemoryFill, if_neg h₀, if_neg h₁]
    exact write_append m memory [0xeb] [b.size] (show 2 ≤ 2 ^ 64 by decide)
  have hapart : Apart b.data b.size.toNat memory [(0xeb : Byte), b.size].length :=
    ((h.apart b List.mem_cons_self).mono
      (by simp only [List.length_cons, List.length_nil]; omega) le_rfl).symm
  rw [ps4PayloadHiddenInformationPatch, if_neg h₀,
    if_neg (by have := h.small b List.mem_cons_self; omega)]
  dsimp only
  rw [hfills, ps4KernelMemoryCopy, if_neg (not_or.mpr ⟨h.data b List.mem_cons_self, h₂⟩), copy,
    cellsAt_write_apart _ hapart]
  have happend := write_append m memory [0xeb, b.size] (b.content m)
    (by simp only [List.length_append, List.length_cons, List.length_nil, hcontent]; omega)
  have hbytes : hiddenBytes (b.content m) = [0xeb, b.size] ++ b.content m := by
    rw [hiddenBytes, hcontent, BitVec.ofNat_toNat, BitVec.setWidth_eq]
    rfl
  rw [hbytes, ← happend]
  rfl

theorem length_hiddenFormat (m : KernelMemory) (bs : List Hidden) :
    (hiddenFormat (bs.map (Hidden.content m))).length = total bs := by
  induction bs with
  | nil => rfl
  | cons b bs ih =>
    have hcontent : (b.content m).length = b.size.toNat := length_cellsAt ..
    rw [List.map_cons, hiddenFormat, List.flatMap_cons, List.length_append,
      length_hiddenBytes, hcontent]
    exact congrArg _ ih

theorem patchBlocks_eq (h : FitsBlocks memory bs) (m : KernelMemory) :
    patchBlocks m memory bs =
      (bs.map fun _ => ps4Ok, write m memory (hiddenFormat (bs.map (Hidden.content m)))) := by
  induction bs generalizing m memory with
  | nil => rfl
  | cons b bs ih =>
    have hcontent : (b.content m).length = b.size.toNat := length_cellsAt ..
    have hlength : (hiddenBytes (b.content m)).length = b.length := by
      rw [length_hiddenBytes, hcontent]
      rfl
    have hsum : total (b :: bs) = b.length + total bs := rfl
    have hroom := h.room
    have hsame : bs.map (Hidden.content (write m memory (hiddenBytes (b.content m)))) =
        bs.map (Hidden.content m) := by
      apply List.map_congr_left
      intro c hc
      exact cellsAt_write_apart _
        ((h.apart c (List.mem_cons_of_mem _ hc)).mono (by omega) le_rfl).symm
    have happend := write_append m memory (hiddenBytes (b.content m))
      (hiddenFormat (bs.map (Hidden.content m)))
      (by rw [List.length_append, hlength, length_hiddenFormat]; omega)
    rw [patchBlocks, patch_eq h, ih h.tail, hsame, ← hlength, happend]
    rfl

end Writing

/-- Blocks of hidden data are all read back as they were, nothing else is written, and code that
runs into them comes out behind them with all registers as they were. -/
theorem hiddenBlocks_roundTrip (m : KernelMemory) {memory : Address} {bs : List Hidden}
    (h : FitsBlocks memory bs) :
    let r := patchBlocks m memory bs
    (∀ code ∈ r.1, code = ps4Ok) ∧ (∀ x, ¬Inside memory (total bs) x → r.2 x = m x) ∧
      (∀ front b back, bs = front ++ b :: back →
        ps4PayloadHiddenInformationIsPatched r.2 (memory + BitVec.ofNat 64 (total front)) = ps4Ok ∧
          ∀ data size, data ≠ 0#64 → size ≠ 0#64 →
            ps4PayloadHiddenInformationExtractData r.2
              (memory + BitVec.ofNat 64 (total front)) data size =
              (ps4Ok, some b.size.toNat, write r.2 data (b.content m))) ∧
      ∀ v k, executeShort r.2 (bs.length + k) ⟨v, memory⟩ =
        executeShort r.2 k ⟨v, memory + BitVec.ofNat 64 (total bs)⟩ := by
  intro r
  have hr : r = _ := patchBlocks_eq h m
  have hlength := length_hiddenFormat m bs
  have hcells : cellsAt r.2 memory (hiddenFormat (bs.map (Hidden.content m))).length =
      hiddenFormat (bs.map (Hidden.content m)) := by
    rw [hr]
    exact cellsAt_write _ _ _ (hlength ▸ h.room)
  refine ⟨fun code hcode => ?_, fun x hx => ?_, ?_, fun v k => ?_⟩
  · rw [hr] at hcode
    obtain ⟨-, -, rfl⟩ := List.mem_map.mp hcode
    rfl
  · rw [hr]
    exact write_outside _ (hlength.symm ▸ hx)
  · rintro front b back rfl
    have hcontent : (b.content m).length = b.size.toNat := length_cellsAt ..
    have hsum : total (front ++ b :: back) = total front + (b.length + total back) := by
      simp [total]
    have hb : b.length = 2 + b.size.toNat := rfl
    rw [List.map_append, List.map_cons] at hcells
    obtain ⟨h₀, h₁, h₂⟩ := cells_hiddenBytes (cells_hiddenFormat_split hcells)
    rw [length_hiddenFormat m front] at h₀ h₁ h₂
    have hsize : (r.2 (memory + BitVec.ofNat 64 (total front) + 1)).toNat = b.size.toNat := by
      rw [h₁, hcontent, BitVec.ofNat_toNat, BitVec.setWidth_eq]
    have hsmall : b.size.toNat ≤ 127 := h.small b (by simp)
    have hplace : memory + BitVec.ofNat 64 (total front) ≠ 0#64 := h.ne_null (by omega)
    have hdata : memory + BitVec.ofNat 64 (total front) + 2 ≠ 0#64 := by
      have hne := h.ne_null (i := total front + 2) (by omega)
      rwa [BitVec.ofNat_add, ← BitVec.add_assoc] at hne
    refine ⟨?_, fun data size hd hs => ?_⟩
    · rw [ps4PayloadHiddenInformationIsPatched, if_neg hplace, if_pos ⟨h₀, hsize.trans_le hsmall⟩]
    · rw [ps4PayloadHiddenInformationExtractData, if_neg hplace, if_neg hs,
        if_neg (not_or.mpr ⟨not_not.mpr h₀, by omega⟩)]
      dsimp only
      rw [if_pos hd, ps4KernelMemoryCopy, if_neg (not_or.mpr ⟨hdata, hd⟩), copy,
        hsize, ← hcontent, h₂]
  · have hds : ∀ d ∈ bs.map (Hidden.content m), d.length ≤ 127 := by
      intro d hd
      obtain ⟨b, hb, rfl⟩ := List.mem_map.mp hd
      exact (length_cellsAt ..).trans_le (h.small b hb)
    have hexecute := executeShort_hidden hds hcells v k
    rwa [List.length_map, hlength] at hexecute

def sampleBlocks : List Hidden := [⟨0x2000, 2⟩, ⟨0x2010, 1⟩]

theorem hiddenBlocks_roundTrip_two :
    let m := (patchBlocks (fun x => x.setWidth 8) 0x1000 sampleBlocks).2
    ps4PayloadHiddenInformationExtractData m 0x1004 0x3000 8 =
      (ps4Ok, some 1, write m 0x3000 [0x10]) ∧
      executeShort m 2 ⟨cleared, 0x1000⟩ = some ⟨cleared, 0x1007⟩ := by
  have hfits : FitsBlocks 0x1000 sampleBlocks := by
    have hapart : ∀ b ∈ sampleBlocks, Apart 0x1000 7 b.data b.size.toNat := by
      intro b hb x hx hx'
      simp only [sampleBlocks, List.mem_cons, List.not_mem_nil, or_false] at hb
      unfold Inside at hx hx'
      rcases hb with rfl | rfl <;> bv_omega
    exact ⟨by decide, by decide, by decide, by decide, hapart⟩
  obtain ⟨-, -, hblocks, hexecute⟩ := hiddenBlocks_roundTrip (fun x => x.setWidth 8) hfits
  exact ⟨(hblocks [⟨0x2000, 2⟩] ⟨0x2010, 1⟩ [] rfl).2 0x3000 8 (by decide) (by decide),
    hexecute cleared 0⟩

end Ps4Sdk.PayloadTemplates
