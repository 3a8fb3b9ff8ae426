import Ps4Sdk.PayloadTemplates

/-!
# Recognising payloads, `payload/template.c`

A payload is recognised by the bytes of its template that are not zero. Besides the
operand, the long prologues have other zero bytes, in the constants and displacements
of their instructions, and the recognisers do not look at those either.
-/

namespace Ps4Sdk.PayloadTemplates
open ByteMemory

def Template.byte (t : Template) (i : ℕ) : Byte := t.bytes.getD i 0

def Template.InOperand (t : Template) (i : ℕ) : Prop := t.front.length ≤ i ∧
    i < t.front.length + t.width

instance (t : Template) (i : ℕ) : Decidable (t.InOperand i) :=
  inferInstanceAs (Decidable (t.front.length ≤ i ∧ i < t.front.length + t.width))

/-- The memory has the bytes of the template outside of its operand. -/
def Template.Matches (t : Template) (m : KernelMemory) (memory : Address) : Prop :=
  ∀ i < t.size, ¬t.InOperand i → m (memory + BitVec.ofNat 64 i) = t.byte i

/-- Where the template is zero outside of its operand. -/
def Template.skipped (t : Template) : List ℕ :=
  (List.range t.size).filter (fun i => ¬t.InOperand i ∧ t.byte i = 0)

def Template.Clashes (s t : Template) (i : ℕ) : Prop :=
  i < s.size ∧ i < t.size ∧ ¬s.InOperand i ∧ t.byte i ≠ 0 ∧ s.byte i ≠ t.byte i

instance (s t : Template) (i : ℕ) : Decidable (s.Clashes t i) :=
  inferInstanceAs (Decidable (i < s.size ∧ i < t.size ∧ ¬s.InOperand i ∧ t.byte i ≠ 0 ∧
    s.byte i ≠ t.byte i))

/-! ### The functions -/

def isPatched (family : List Template) (m : KernelMemory) (memory : Address) : Code :=
  if memory = 0#64 then ps4ErrorArgumentPrimaryMissing
  else if ∃ t ∈ family, t.compare m memory = ps4Ok then ps4Ok
  else ps4ErrorArgumentExpectationFailed

def ps4PayloadJumpIsPatched : KernelMemory → Address → Code :=
  isPatched [ps4PayloadTemplateJump32, ps4PayloadTemplateJump64]

def ps4PayloadTemplateReturn64 : Template := ⟨[0x48, 0xb8], 8, [0xc3]⟩

def ps4PayloadTemplateReturn32 : Template := ⟨[0xb8], 4, [0xc3]⟩

/-- `xorq %rax, %rax` has no operand to fill in. -/
def ps4PayloadTemplateReturnZero : Template := ⟨[0x48, 0x31, 0xc0, 0xc3], 0, []⟩

def ps4PayloadReturnIsPatched : KernelMemory → Address → Code :=
  isPatched [ps4PayloadTemplateReturn64, ps4PayloadTemplateReturn32, ps4PayloadTemplateReturnZero]

/-- The system call prologue counts the entry, takes the spin lock, and clones the chain. -/
def systemCallPrologueEntry : List Byte := [
  0xf0, 0x49, 0xff, 0x43, 0x18, 0x41, 0x54, 0x49, 0xc7, 0xc4, 0x01, 0x00, 0x00, 0x00,
  0xf0, 0x4d, 0x87, 0x63, 0x28, 0x4d, 0x85, 0xe4, 0x75, 0xef, 0x41, 0x5c, 0x48, 0x89,
  0xf2, 0x4c, 0x89, 0xde, 0x41, 0x53, 0x41, 0xff, 0x13, 0x41, 0x5b]

def systemCallPrologueLeave : List Byte := [
  0x48, 0x8b, 0x78, 0x10, 0x48, 0x89, 0xc6, 0xf0, 0x49, 0xff, 0x43, 0x20, 0x41, 0x54,
  0xf0, 0x49, 0xff, 0x4b, 0x18, 0x49, 0xc7, 0xc4, 0x00, 0x00, 0x00, 0x00, 0xf0, 0x4d,
  0x87, 0x63, 0x28, 0x41, 0x5c, 0xff, 0x60, 0x08]

def ps4PayloadTemplateSystemCallHookPrologue : Template :=
  ⟨[0x49, 0xbb], 8, systemCallPrologueEntry ++ systemCallPrologueLeave⟩

def ps4PayloadSystemCallHookPrologueExtractArgument (m : KernelMemory) (memory : Address) :
    Except Code Address :=
  if memory = 0#64 then .error ps4ErrorArgumentPrimaryMissing
  else if ps4PayloadTemplateSystemCallHookPrologue.compare m memory = ps4Ok then
    .ok (ps4PayloadTemplateSystemCallHookPrologue.extract m memory)
  else .error ps4ErrorArgumentExpectationFailed

def ps4PayloadSystemCallHookPrologueIsPatched : KernelMemory → Address → Code :=
  isPatched [ps4PayloadTemplateSystemCallHookPrologue]

def ps4PayloadSystemCallHookProloguePatch (m : KernelMemory) (memory argument : Address) :
    Code × KernelMemory :=
  if memory = 0#64 then (ps4ErrorArgumentPrimaryMissing, m)
  else (ps4Ok, ps4PayloadTemplateSystemCallHookPrologue.patch m memory argument.toNat)

def ps4PayloadSystemCallHookPrologueDeterminePatchSize : ℕ :=
  ps4PayloadTemplateSystemCallHookPrologue.size

/-! ### What a comparison says -/

private theorem Template.byte_of_inOperand {t : Template} {i : ℕ} (h : t.InOperand i) :
    t.byte i = 0 := by
  rw [byte, bytes, List.getD_eq_getElem?_getD, List.getElem?_append_left (by simp [h.2]),
    List.getElem?_append_right h.1, List.getElem?_replicate]
  split_ifs <;> rfl

private theorem Template.getElem_bytes (t : Template) {i : ℕ} (h : i < t.bytes.length) :
    t.bytes[i] = t.byte i := by
  rw [byte, List.getD_eq_getElem?_getD, List.getElem?_eq_getElem h]
  rfl

/-- The operand is the only difference between a template and the filled one. -/
theorem Template.getElem_filled (t : Template) (v : ℕ) {i : ℕ} (h : i < (t.filled v).length)
    (ho : ¬t.InOperand i) : (t.filled v)[i] = t.byte i := by
  have hi : i < t.bytes.length := by rwa [t.length_bytes, ← t.length_filled v]
  rw [← t.getElem_bytes hi]
  unfold InOperand at ho
  simp only [filled, bytes]
  by_cases hf : i < t.front.length
  · rw [List.getElem_append_left (by simp; omega), List.getElem_append_left hf,
      List.getElem_append_left (by simp; omega), List.getElem_append_left hf]
  · rw [List.getElem_append_right (by simp; omega), List.getElem_append_right (by simp; omega)]
    congr 1
    simp

section Comparing

variable {t : Template} {m : KernelMemory} {memory : Address}

theorem Template.compare_eq_ok_iff (h : memory ≠ 0#64) :
    t.compare m memory = ps4Ok ↔
      ∀ i < t.size, t.byte i ≠ 0 → m (memory + BitVec.ofNat 64 i) = t.byte i := by
  rw [compare, ps4KernelMemoryCompareNonZeros, if_neg h, compareNonZeros_eq_ok]
  have hl : (t.bytes.zip (cellsAt m memory t.bytes.length)).length = t.size := by
    simp [t.length_bytes]
  constructor
  · intro hall i hi hne
    have hmem := List.getElem_mem (hl ▸ hi)
    rw [List.getElem_zip, getElem_cellsAt, t.getElem_bytes] at hmem
    rcases hall _ hmem with h₀ | h₀
    · exact absurd h₀ hne
    · exact h₀.symm
  · intro hall p hp
    obtain ⟨i, hi, rfl⟩ := List.getElem_of_mem hp
    rw [List.getElem_zip, getElem_cellsAt, t.getElem_bytes]
    rw [hl] at hi
    by_cases h₀ : t.byte i = 0
    · exact .inl h₀
    · exact .inr (hall i hi h₀).symm

theorem Template.matches_iff (h : memory ≠ 0#64) : t.Matches m memory ↔
    t.compare m memory = ps4Ok ∧ ∀ i ∈ t.skipped, m (memory + BitVec.ofNat 64 i) = 0 := by
  rw [compare_eq_ok_iff h]
  simp only [skipped, List.mem_filter, List.mem_range, decide_eq_true_eq]
  constructor
  · intro hall
    refine ⟨fun i hi hne => hall i hi fun ho => hne (byte_of_inOperand ho), ?_⟩
    rintro i ⟨hi, ho, h₀⟩
    rw [hall i hi ho, h₀]
  · rintro ⟨hshown, hzero⟩ i hi ho
    by_cases h₀ : t.byte i = 0
    · rw [hzero i ⟨hi, ho, h₀⟩, h₀]
    · exact hshown i hi h₀

/-- A comparison is exact on a memory unless only skipped bytes differ. -/
theorem Template.compare_exact_iff (h : memory ≠ 0#64) :
    (t.compare m memory = ps4Ok ↔ t.Matches m memory) ↔
      (∃ i < t.size, t.byte i ≠ 0 ∧ m (memory + BitVec.ofNat 64 i) ≠ t.byte i) ∨
        ∀ i ∈ t.skipped, m (memory + BitVec.ofNat 64 i) = 0 := by
  have hdiffers : (∃ i < t.size, t.byte i ≠ 0 ∧ m (memory + BitVec.ofNat 64 i) ≠ t.byte i) ↔
      t.compare m memory ≠ ps4Ok := by
    rw [Ne, compare_eq_ok_iff h]
    push Not
    rfl
  rw [hdiffers, matches_iff h, iff_self_and, ← imp_iff_not_or]

private theorem Template.compare_iff_matches (ht : t.skipped = []) (h : memory ≠ 0#64) :
    t.compare m memory = ps4Ok ↔ t.Matches m memory := by
  rw [matches_iff h, ht]
  simp

theorem Template.matches_of_filled {v : ℕ} (hm : cellsAt m memory t.size = t.filled v) :
    t.Matches m memory := by
  intro i hi ho
  have hc : i < (cellsAt m memory t.size).length := by simpa using hi
  rw [← getElem_cellsAt m memory t.size i hc]
  simp only [hm]
  exact t.getElem_filled v _ ho

theorem Template.compare_of_clashes {s : Template} {i : ℕ} (hc : s.Clashes t i) (h : memory ≠ 0#64)
    (hm : s.Matches m memory) : t.compare m memory ≠ ps4Ok := by
  obtain ⟨hs, ht, ho, hne, hdiff⟩ := hc
  rw [Ne, compare_eq_ok_iff h]
  intro hall
  exact hdiff ((hm i hs ho).symm.trans (hall i ht hne))

theorem isPatched_eq_ok_iff {family : List Template} (h : memory ≠ 0#64) :
    isPatched family m memory = ps4Ok ↔ ∃ t ∈ family, t.compare m memory = ps4Ok := by
  rw [isPatched, if_neg h]
  split_ifs with hany
  · exact iff_of_true rfl hany
  · exact iff_of_false (by decide) hany

private theorem ps4PayloadFunctionHookPrologueIsPatched_eq :
    ps4PayloadFunctionHookPrologueIsPatched =
      isPatched [ps4PayloadTemplateFunctionHookPrologue] := by
  funext m memory
  simp only [ps4PayloadFunctionHookPrologueIsPatched, isPatched, List.mem_singleton, exists_eq_left]

end Comparing

/-! ### The recognisers -/

private theorem skipped_eq_nil {t : Template}
    (h : t ∈ [ps4PayloadTemplateJump32, ps4PayloadTemplateJump64, ps4PayloadTemplateReturn64,
      ps4PayloadTemplateReturn32, ps4PayloadTemplateReturnZero]) :
    t.skipped = [] := by
  revert h t
  decide

private theorem isPatched_iff_matches {family : List Template} {m : KernelMemory} {memory : Address}
    (hf : ∀ t ∈ family, t.skipped = []) (h : memory ≠ 0#64) :
    isPatched family m memory = ps4Ok ↔ ∃ t ∈ family, t.Matches m memory := by
  rw [isPatched_eq_ok_iff h]
  refine exists_congr fun t => and_congr_right fun ht => ?_
  exact t.compare_iff_matches (hf t ht) h

private theorem isPatched_singleton {t : Template} {m : KernelMemory} {memory : Address}
    (h : memory ≠ 0#64) :
    isPatched [t] m memory = ps4Ok ↔ t.compare m memory = ps4Ok := by
  rw [isPatched_eq_ok_iff h]
  simp

/-- On a memory, every recogniser accepts exactly the payloads of its family if and only if no
prologue template differs from the memory in skipped bytes alone. -/
theorem recognisers_exact_iff {m : KernelMemory} {memory : Address} (h : memory ≠ 0#64) :
    ((ps4PayloadJumpIsPatched m memory = ps4Ok ↔
        ∃ t ∈ [ps4PayloadTemplateJump32, ps4PayloadTemplateJump64], t.Matches m memory) ∧
      (ps4PayloadReturnIsPatched m memory = ps4Ok ↔
        ∃ t ∈ [ps4PayloadTemplateReturn64, ps4PayloadTemplateReturn32,
          ps4PayloadTemplateReturnZero],
          t.Matches m memory) ∧
      (ps4PayloadFunctionHookPrologueIsPatched m memory = ps4Ok ↔
        ps4PayloadTemplateFunctionHookPrologue.Matches m memory) ∧
      (ps4PayloadSystemCallHookPrologueIsPatched m memory = ps4Ok ↔
        ps4PayloadTemplateSystemCallHookPrologue.Matches m memory)) ↔
    ∀ t ∈ [ps4PayloadTemplateFunctionHookPrologue, ps4PayloadTemplateSystemCallHookPrologue],
      (∃ i < t.size, t.byte i ≠ 0 ∧ m (memory + BitVec.ofNat 64 i) ≠ t.byte i) ∨
        ∀ i ∈ t.skipped, m (memory + BitVec.ofNat 64 i) = 0 := by
  have hjump : ps4PayloadJumpIsPatched m memory = ps4Ok ↔
      ∃ t ∈ [ps4PayloadTemplateJump32, ps4PayloadTemplateJump64], t.Matches m memory := by
    refine isPatched_iff_matches (fun t ht => skipped_eq_nil ?_) h
    revert t
    simp
  have hreturn : ps4PayloadReturnIsPatched m memory = ps4Ok ↔
      ∃ t ∈ [ps4PayloadTemplateReturn64, ps4PayloadTemplateReturn32, ps4PayloadTemplateReturnZero],
        t.Matches m memory := by
    refine isPatched_iff_matches (fun t ht => skipped_eq_nil ?_) h
    exact List.mem_cons_of_mem _ (List.mem_cons_of_mem _ ht)
  rw [ps4PayloadFunctionHookPrologueIsPatched_eq, ps4PayloadSystemCallHookPrologueIsPatched,
    isPatched_singleton h, isPatched_singleton h, Template.compare_exact_iff h,
    Template.compare_exact_iff h, List.forall_mem_cons, List.forall_mem_singleton]
  exact ⟨fun hall => hall.2.2, fun hall => ⟨hjump, hreturn, hall⟩⟩

def plainPrologue : KernelMemory :=
  fun x => ps4PayloadTemplateSystemCallHookPrologue.byte (x - 0x1000).toNat

/-- Cleared memory is no prologue at its first byte, and a prologue is recognised as its own
kind. -/
theorem recognisers_exact_iff_cleared :
    ((ps4PayloadFunctionHookPrologueIsPatched (fun _ => 0) 0x1000#64 = ps4Ok ↔
        ps4PayloadTemplateFunctionHookPrologue.Matches (fun _ => 0) 0x1000#64) ∧
      (ps4PayloadSystemCallHookPrologueIsPatched (fun _ => 0) 0x1000#64 = ps4Ok ↔
        ps4PayloadTemplateSystemCallHookPrologue.Matches (fun _ => 0) 0x1000#64)) ∧
      ps4PayloadSystemCallHookPrologueIsPatched plainPrologue 0x1000#64 = ps4Ok ∧
      ps4PayloadFunctionHookPrologueIsPatched plainPrologue 0x1000#64 ≠ ps4Ok := by
  refine ⟨((recognisers_exact_iff (by decide)).mpr ?_).2.2, ?_⟩
  · intro t ht
    refine .inl ⟨0, ?_⟩
    revert t
    decide +kernel
  · obtain ⟨-, -, hfunction, hsystemCall⟩ :=
      (recognisers_exact_iff (m := plainPrologue) (show 0x1000#64 ≠ 0#64 by decide)).mpr
        (by decide +kernel)
    unfold Template.Matches at hfunction hsystemCall
    exact ⟨hsystemCall.mpr (by decide +kernel), fun h => absurd (hfunction.mp h)
      (by decide +kernel)⟩

/-- A system call prologue whose first `movq` to `%r12` has another constant. -/
def strayPrologue : KernelMemory := fun x =>
  if x = 0x1000 + 21 then 1 else ps4PayloadTemplateSystemCallHookPrologue.byte (x - 0x1000).toNat

theorem strayPrologue_recognised :
    ps4PayloadSystemCallHookPrologueIsPatched strayPrologue 0x1000 = ps4Ok ∧
      ¬ps4PayloadTemplateSystemCallHookPrologue.Matches strayPrologue 0x1000 := by
  constructor
  · rw [ps4PayloadSystemCallHookPrologueIsPatched, isPatched_singleton (by decide),
      Template.compare_eq_ok_iff (by decide)]
    decide +kernel
  · intro hm
    exact absurd (hm 21 (by decide) (by decide)) (by decide)

/-! ### Patching and reading back -/

/-- The patch writes every byte of the block, whatever was there, and no other byte. -/
structure Overwrites (patch : KernelMemory → KernelMemory) (memory : Address) (n : ℕ) : Prop where
  inside : ∀ x, Inside memory n x → ∀ m m', patch m x = patch m' x
  outside : ∀ x, ¬Inside memory n x → ∀ m, patch m x = m x

private theorem overwrites_write (memory : Address) (bs : List Byte) :
    Overwrites (fun m => write m memory bs) memory bs.length where
  inside x hx m m' := by
    rw [write, write, List.getElem?_eq_getElem hx]
    rfl
  outside _ hx m := write_outside m hx

/-- What is encoded is read back, the recogniser of its own family and no other one accepts it,
and no byte outside of it has changed. -/
structure RoundTrips (patch : KernelMemory → KernelMemory)
    (extract : KernelMemory → Except Code Address) (v : Address) (own : KernelMemory → Code)
    (others : List (KernelMemory → Code)) (memory : Address)
    (size : ℕ) : Prop where
  decodes : ∀ m, extract (patch m) = .ok v
  accepts : ∀ m, own (patch m) = ps4Ok
  rejects : ∀ m, ∀ other ∈ others, other (patch m) ≠ ps4Ok
  overwrites : Overwrites patch memory size

/-- The bytes of a payload can be copied to the place: neither they nor the operand start at
zero. -/
structure Template.Fits (t : Template) (memory : Address) : Prop where
  present : memory ≠ 0#64
  operand : t.width ≠ 0 → memory + BitVec.ofNat 64 t.front.length ≠ 0#64
  short : t.size ≤ 2 ^ 64

namespace Template.Fits

variable {t : Template} {memory : Address}

theorem patch_eq_write (ht : t.Fits memory) (m : KernelMemory) (v : ℕ) :
    t.patch m memory v = write m memory (t.filled v) := by
  by_cases hw : t.width = 0
  · have hwrite : ∀ m' a, copyTo m' [] a = m' := by
      intro m' a
      unfold copyTo
      split_ifs
      · rfl
      · funext x
        simp [write]
    have hfilled : t.filled v = t.bytes := by simp [filled, bytes, hw, wordBytes]
    rw [patch, hw, wordBytes, hwrite, copyTo_eq _ _ ht.present, hfilled]
  · exact t.patch_eq m v ht.present (ht.operand hw) ht.short

theorem cellsAt_patch (ht : t.Fits memory) (m : KernelMemory) (v : ℕ) :
    cellsAt (t.patch m memory v) memory t.size = t.filled v := by
  rw [ht.patch_eq_write, ← t.length_filled v]
  exact cellsAt_write m memory _ ((t.length_filled v).trans_le ht.short)

theorem overwrites (ht : t.Fits memory) (v : ℕ) :
    Overwrites (fun m => t.patch m memory v) memory t.size := by
  have hw := overwrites_write memory (t.filled v)
  rw [t.length_filled] at hw
  simpa only [ht.patch_eq_write] using hw

private theorem isPatched_patch (ht : t.Fits memory) (m : KernelMemory) (v : ℕ)
    {family : List Template} (hf : t ∈ family) :
    isPatched family (t.patch m memory v) memory = ps4Ok :=
  (isPatched_eq_ok_iff ht.present).mpr ⟨t, hf, t.compare_filled ht.present (ht.cellsAt_patch m v)⟩

private theorem not_isPatched_patch (ht : t.Fits memory) (m : KernelMemory) (v : ℕ)
    {family : List Template} (hc : ∀ s ∈ family, ∃ i ∈ [0, 10, 14], t.Clashes s i) :
    isPatched family (t.patch m memory v) memory ≠ ps4Ok := by
  rw [Ne, isPatched_eq_ok_iff ht.present]
  rintro ⟨s, hs, hok⟩
  obtain ⟨i, -, hi⟩ := hc s hs
  exact compare_of_clashes hi ht.present (matches_of_filled (ht.cellsAt_patch m v)) hok

private theorem roundTrips (ht : t.Fits memory) {extract : KernelMemory → Except Code Address}
    {v : Address} (he : ∀ m, cellsAt m memory t.size = t.filled v.toNat → extract m = .ok v)
    {own other other' : List Template} (hown : t ∈ own)
    (hother : ∀ s ∈ other, ∃ i ∈ [0, 10, 14], t.Clashes s i)
    (hother' : ∀ s ∈ other', ∃ i ∈ [0, 10, 14], t.Clashes s i) :
    RoundTrips (fun m => t.patch m memory v.toNat) extract v (fun m => isPatched own m memory)
      [fun m => isPatched other m memory, fun m => isPatched other' m memory] memory t.size where
  decodes m := he _ (ht.cellsAt_patch m _)
  accepts m := ht.isPatched_patch m _ hown
  rejects m := List.forall_mem_cons.mpr
    ⟨ht.not_isPatched_patch m _ hother, List.forall_mem_singleton.mpr
      (ht.not_isPatched_patch m _ hother')⟩
  overwrites := ht.overwrites _

end Template.Fits

private theorem jumpTemplate_mem (target : Address) :
    jumpTemplate target ∈ [ps4PayloadTemplateJump32, ps4PayloadTemplateJump64] := by
  unfold jumpTemplate
  split_ifs <;> simp

private theorem ps4PayloadSystemCallHookPrologueExtractArgument_filled {m : KernelMemory}
    {memory argument : Address} (h : memory ≠ 0#64) (h' : memory + 2 ≠ 0#64)
    (hm : cellsAt m memory ps4PayloadTemplateSystemCallHookPrologue.size =
      ps4PayloadTemplateSystemCallHookPrologue.filled argument.toNat) :
    ps4PayloadSystemCallHookPrologueExtractArgument m memory = .ok argument := by
  rw [ps4PayloadSystemCallHookPrologueExtractArgument, if_neg h,
    if_pos (ps4PayloadTemplateSystemCallHookPrologue.compare_filled h hm),
    ps4PayloadTemplateSystemCallHookPrologue.extract_filled h' hm]
  exact congrArg _ (ofNat_toNat_mod argument argument.isLt)

section Families

private theorem prologues_clash : (∀ s ∈ [ps4PayloadTemplateJump32, ps4PayloadTemplateJump64],
    ∀ t ∈ [ps4PayloadTemplateFunctionHookPrologue, ps4PayloadTemplateSystemCallHookPrologue],
      (∃ i ∈ [0, 10, 14], s.Clashes t i) ∧ ∃ i ∈ [0, 10, 14], t.Clashes s i) ∧
    (∃ i ∈ [0, 10, 14],
      ps4PayloadTemplateFunctionHookPrologue.Clashes ps4PayloadTemplateSystemCallHookPrologue i) ∧
    ∃ i ∈ [0, 10, 14],
      ps4PayloadTemplateSystemCallHookPrologue.Clashes
          ps4PayloadTemplateFunctionHookPrologue i := by
  decide +kernel

variable {memory : Address} (h : memory ≠ 0#64) (h' : memory + 2 ≠ 0#64)
include h h'

theorem fits_jumpTemplate (target : Address) : (jumpTemplate target).Fits memory := by
  refine ⟨h, fun _ => ?_, (jumpTemplate_size_le target).trans (by decide)⟩
  unfold jumpTemplate
  split_ifs
  · exact h'
  · exact h'

theorem jump_roundTrips (target : Address) :
    RoundTrips (fun m => (ps4PayloadJumpPatch m memory target).2)
      (fun m => ps4PayloadJumpExtractTarget m memory) target
      (fun m => ps4PayloadJumpIsPatched m memory)
      [fun m => ps4PayloadFunctionHookPrologueIsPatched m memory,
        fun m => ps4PayloadSystemCallHookPrologueIsPatched m memory]
      memory (ps4PayloadJumpDeterminePatchSize target) := by
  have hmem := jumpTemplate_mem target
  have hfits := fits_jumpTemplate h h' target
  have hclash := prologues_clash.1 _ hmem
  simp only [ps4PayloadJumpPatch, if_neg h, ps4PayloadFunctionHookPrologueIsPatched_eq]
  refine hfits.roundTrips (fun m hm => ps4PayloadJumpExtractTarget_filled h h' hm) hmem ?_ ?_
  · exact List.forall_mem_singleton.mpr (hclash _ (by simp)).1
  · exact List.forall_mem_singleton.mpr (hclash _ (by simp)).1

theorem functionHookPrologue_roundTrips (argument : Address) :
    RoundTrips (fun m => (ps4PayloadFunctionHookProloguePatch m memory argument).2)
      (fun m => ps4PayloadFunctionHookPrologueExtractArgument m memory) argument
      (fun m => ps4PayloadFunctionHookPrologueIsPatched m memory)
      [fun m => ps4PayloadJumpIsPatched m memory,
        fun m => ps4PayloadSystemCallHookPrologueIsPatched m memory]
      memory ps4PayloadFunctionHookPrologueDeterminePatchSize := by
  have hfits : ps4PayloadTemplateFunctionHookPrologue.Fits memory :=
    ⟨h, fun _ => h', ps4PayloadFunctionHookPrologueDeterminePatchSize_eq.trans_le (by decide)⟩
  simp only [ps4PayloadFunctionHookProloguePatch, if_neg h,
    ps4PayloadFunctionHookPrologueIsPatched_eq]
  refine hfits.roundTrips (fun m hm => ps4PayloadFunctionHookPrologueExtractArgument_filled h h' hm)
    (List.mem_singleton_self _) ?_ ?_
  · exact fun s hs => (prologues_clash.1 s hs _ (by simp)).2
  · exact List.forall_mem_singleton.mpr prologues_clash.2.1

theorem systemCallHookPrologue_roundTrips (argument : Address) :
    RoundTrips (fun m => (ps4PayloadSystemCallHookProloguePatch m memory argument).2)
      (fun m => ps4PayloadSystemCallHookPrologueExtractArgument m memory) argument
      (fun m => ps4PayloadSystemCallHookPrologueIsPatched m memory)
      [fun m => ps4PayloadJumpIsPatched m memory,
        fun m => ps4PayloadFunctionHookPrologueIsPatched m memory]
      memory ps4PayloadSystemCallHookPrologueDeterminePatchSize := by
  have hfits : ps4PayloadTemplateSystemCallHookPrologue.Fits memory := ⟨h, fun _ => h', by decide⟩
  simp only [ps4PayloadSystemCallHookProloguePatch, if_neg h,
    ps4PayloadFunctionHookPrologueIsPatched_eq]
  refine hfits.roundTrips (fun m hm =>
    ps4PayloadSystemCallHookPrologueExtractArgument_filled h h' hm)
    (List.mem_singleton_self _) ?_ ?_
  · exact fun s hs => (prologues_clash.1 s hs _ (by simp)).2
  · exact List.forall_mem_singleton.mpr prologues_clash.2.2

end Families

/-- Jumps and prologues are read back as what was encoded, whatever the memory, the target and the
argument are. -/
theorem payloads_roundTrip {memory : Address} (h : memory ≠ 0#64) (h' : memory + 2 ≠ 0#64)
    (target argument : Address) :
    RoundTrips (fun m => (ps4PayloadJumpPatch m memory target).2)
        (fun m => ps4PayloadJumpExtractTarget m memory) target
        (fun m => ps4PayloadJumpIsPatched m memory)
        [fun m => ps4PayloadFunctionHookPrologueIsPatched m memory,
          fun m => ps4PayloadSystemCallHookPrologueIsPatched m memory]
        memory (ps4PayloadJumpDeterminePatchSize target) ∧
      RoundTrips (fun m => (ps4PayloadFunctionHookProloguePatch m memory argument).2)
        (fun m => ps4PayloadFunctionHookPrologueExtractArgument m memory) argument
        (fun m => ps4PayloadFunctionHookPrologueIsPatched m memory)
        [fun m => ps4PayloadJumpIsPatched m memory,
          fun m => ps4PayloadSystemCallHookPrologueIsPatched m memory]
        memory ps4PayloadFunctionHookPrologueDeterminePatchSize ∧
      RoundTrips (fun m => (ps4PayloadSystemCallHookProloguePatch m memory argument).2)
        (fun m => ps4PayloadSystemCallHookPrologueExtractArgument m memory) argument
        (fun m => ps4PayloadSystemCallHookPrologueIsPatched m memory)
        [fun m => ps4PayloadJumpIsPatched m memory,
          fun m => ps4PayloadFunctionHookPrologueIsPatched m memory]
        memory ps4PayloadSystemCallHookPrologueDeterminePatchSize :=
  ⟨jump_roundTrips h h' target, functionHookPrologue_roundTrips h h' argument,
    systemCallHookPrologue_roundTrips h h' argument⟩

/-- A jump to a kernel address, written to a page of the kernel. -/
theorem payloads_roundTrip_kernelPage :
    ps4PayloadJumpExtractTarget (ps4PayloadJumpPatch (fun _ => 0) 0xffffffff80001000#64
      0xffffffff80002000#64).2
      0xffffffff80001000#64 = .ok 0xffffffff80002000#64 :=
  (payloads_roundTrip (by decide) (by decide) _ 0#64).1.decodes _

end Ps4Sdk.PayloadTemplates
