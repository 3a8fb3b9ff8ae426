import Ps4Sdk.ByteMemory
import Ps4Sdk.KernelBase

/-!
# The payload templates of `payload/template.c`

A template is a piece of code with one immediate operand, which is zero in the
template and is filled in when it is copied to its place. It is recognised by its
bytes that are not zero.
-/

namespace Ps4Sdk.PayloadTemplates
open ByteMemory

abbrev KernelMemory := Memory 64 Byte

/-- `ps4KernelMemoryCopy` of bytes that are not part of the memory. -/
def copyTo (m : KernelMemory) (bytes : List Byte) (target : Address) : KernelMemory :=
  if target = 0#64 then m else write m target bytes

/-- `ps4KernelMemoryCopy` into a local variable that is zero before. -/
def copyFrom (m : KernelMemory) (source : Address) (n : ℕ) : List Byte :=
  if source = 0#64 then List.replicate n 0 else cellsAt m source n

def ps4KernelMemoryCopy (m : KernelMemory) (source target : Address) (n : ℕ) : KernelMemory :=
  if source = 0#64 ∨ target = 0#64 then m else copy m source target n

/-- The loop of `ps4KernelMemoryCompareNonZeros`. -/
def compareNonZeros : List Byte → List Byte → Code
  | a :: as, b :: bs => if a ≠ 0 ∧
      a ≠ b then a.setWidth 32 - b.setWidth 32 else compareNonZeros as bs
  | _, _ => ps4Ok

def ps4KernelMemoryCompareNonZeros (a : List Byte) (m : KernelMemory) (b : Address) : Code :=
  if b = 0#64 then ps4ErrorArgumentMissing else compareNonZeros a (cellsAt m b a.length)

structure Template where
  front : List Byte
  width : ℕ
  back : List Byte

def Template.bytes (t : Template) : List Byte := t.front ++ List.replicate t.width 0 ++ t.back

def Template.size (t : Template) : ℕ := t.front.length + t.width + t.back.length

def Template.filled (t : Template) (v : ℕ) : List Byte := t.front ++ wordBytes t.width v ++ t.back

def Template.patch (t : Template) (m : KernelMemory) (memory : Address) (v : ℕ) : KernelMemory :=
  copyTo (copyTo m t.bytes memory) (wordBytes t.width v) (memory + BitVec.ofNat 64 t.front.length)

def Template.compare (t : Template) (m : KernelMemory) (memory : Address) : Code :=
  ps4KernelMemoryCompareNonZeros t.bytes m memory

def Template.extract (t : Template) (m : KernelMemory) (memory : Address) : Address :=
  BitVec.ofNat 64 (bytesValue (copyFrom m (memory + BitVec.ofNat 64 t.front.length) t.width))

/-! ### The templates and their functions -/

def ps4PayloadTemplateJump64 : Template := ⟨[0x49, 0xbb], 8, [0x41, 0xff, 0xe3]⟩

def ps4PayloadTemplateJump32 : Template := ⟨[0x41, 0xbb], 4, [0x41, 0xff, 0xe3]⟩

def prologueEntry : List Byte := [
  0xf0, 0x49, 0xff, 0x43, 0x10, 0x41, 0x54, 0x49, 0xc7, 0xc4, 0x01, 0x00, 0x00, 0x00,
  0xf0, 0x4d, 0x87, 0xa3, 0xb8, 0x00, 0x00, 0x00, 0x4d, 0x85, 0xe4, 0x75, 0xec, 0x41,
  0x5c]

def prologueSave : List Byte := [
  0x48, 0x81, 0xec, 0xb8, 0x00, 0x00, 0x00, 0xf3, 0x0f, 0x7f, 0xbc, 0x24, 0xa8, 0x00,
  0x00, 0x00, 0xf3, 0x0f, 0x7f, 0xb4, 0x24, 0x98, 0x00, 0x00, 0x00, 0xf3, 0x0f, 0x7f,
  0xac, 0x24, 0x88, 0x00, 0x00, 0x00, 0xf3, 0x0f, 0x7f, 0x64, 0x24, 0x78, 0xf3, 0x0f,
  0x7f, 0x5c, 0x24, 0x68, 0xf3, 0x0f, 0x7f, 0x54, 0x24, 0x58, 0xf3, 0x0f, 0x7f, 0x4c,
  0x24, 0x48, 0xf3, 0x0f, 0x7f, 0x44, 0x24, 0x38, 0x4c, 0x89, 0x4c, 0x24, 0x30, 0x4c,
  0x89, 0x44, 0x24, 0x28, 0x48, 0x89, 0x4c, 0x24, 0x20, 0x48, 0x89, 0x54, 0x24, 0x18,
  0x48, 0x89, 0x74, 0x24, 0x10, 0x48, 0x89, 0x7c, 0x24, 0x08, 0x48, 0x89, 0x04, 0x24]

def prologueClone : List Byte := [
  0x4c, 0x89, 0xdf, 0x41, 0x53, 0x41, 0xff, 0x13, 0x41, 0x5b, 0xf0, 0x49, 0xff, 0x43,
  0x38, 0x4c, 0x89, 0x60, 0x20, 0x49, 0x89, 0xc4]

def prologueRestore : List Byte := [
  0x48, 0x8b, 0x04, 0x24, 0x48, 0x8b, 0x7c, 0x24, 0x08, 0x48, 0x8b, 0x74, 0x24, 0x10,
  0x48, 0x8b, 0x54, 0x24, 0x18, 0x48, 0x8b, 0x4c, 0x24, 0x20, 0x4c, 0x8b, 0x44, 0x24,
  0x28, 0x4c, 0x8b, 0x4c, 0x24, 0x30, 0xf3, 0x0f, 0x6f, 0x44, 0x24, 0x38, 0xf3, 0x0f,
  0x6f, 0x4c, 0x24, 0x48, 0xf3, 0x0f, 0x6f, 0x54, 0x24, 0x58, 0xf3, 0x0f, 0x6f, 0x5c,
  0x24, 0x68, 0xf3, 0x0f, 0x6f, 0x64, 0x24, 0x78, 0xf3, 0x0f, 0x6f, 0xac, 0x24, 0x88,
  0x00, 0x00, 0x00, 0xf3, 0x0f, 0x6f, 0xb4, 0x24, 0x98, 0x00, 0x00, 0x00, 0xf3, 0x0f,
  0x6f, 0xbc, 0x24, 0xa8, 0x00, 0x00, 0x00, 0x48, 0x81, 0xc4, 0xb8, 0x00, 0x00, 0x00]

def prologueLeave : List Byte := [
  0x41, 0x8f, 0x44, 0x24, 0x18, 0x41, 0xff, 0x63, 0x08]

def ps4PayloadTemplateFunctionHookPrologue : Template :=
  ⟨[0x49, 0xbb], 8, prologueEntry ++ prologueSave ++ prologueClone ++
    prologueRestore ++ prologueLeave⟩

def jumpTemplate (target : Address) : Template :=
  if target &&& 0xffffffff00000000 =
    0#64 then ps4PayloadTemplateJump32 else ps4PayloadTemplateJump64

def ps4PayloadJumpExtractTarget (m : KernelMemory) (memory : Address) : Except Code Address :=
  if memory = 0#64 then .error ps4ErrorArgumentPrimaryMissing
  else if ps4PayloadTemplateJump32.compare m memory = ps4Ok then
    .ok (ps4PayloadTemplateJump32.extract m memory)
  else if ps4PayloadTemplateJump64.compare m memory = ps4Ok then
    .ok (ps4PayloadTemplateJump64.extract m memory)
  else .error ps4ErrorArgumentExpectationFailed

def ps4PayloadJumpPatch (m : KernelMemory) (memory target : Address) : Code × KernelMemory :=
  if memory = 0#64 then (ps4ErrorArgumentPrimaryMissing, m)
  else (ps4Ok, (jumpTemplate target).patch m memory target.toNat)

def ps4PayloadJumpDeterminePatchSize (target : Address) : ℕ := (jumpTemplate target).size

def ps4PayloadFunctionHookPrologueExtractArgument (m : KernelMemory) (memory : Address) :
    Except Code Address :=
  if memory = 0#64 then .error ps4ErrorArgumentPrimaryMissing
  else if ps4PayloadTemplateFunctionHookPrologue.compare m memory = ps4Ok then
    .ok (ps4PayloadTemplateFunctionHookPrologue.extract m memory)
  else .error ps4ErrorArgumentExpectationFailed

def ps4PayloadFunctionHookPrologueIsPatched (m : KernelMemory) (memory : Address) : Code :=
  if memory = 0#64 then ps4ErrorArgumentPrimaryMissing
  else if ps4PayloadTemplateFunctionHookPrologue.compare m memory = ps4Ok then ps4Ok
  else ps4ErrorArgumentExpectationFailed

def ps4PayloadFunctionHookProloguePatch (m : KernelMemory) (memory argument : Address) :
    Code × KernelMemory :=
  if memory = 0#64 then (ps4ErrorArgumentPrimaryMissing, m)
  else (ps4Ok, ps4PayloadTemplateFunctionHookPrologue.patch m memory argument.toNat)

def ps4PayloadFunctionHookPrologueDeterminePatchSize : ℕ :=
  ps4PayloadTemplateFunctionHookPrologue.size

/-! ### What is patched is recognised -/

theorem copyTo_eq (m : KernelMemory) (bytes : List Byte) {target : Address} (h : target ≠ 0#64) :
    copyTo m bytes target = write m target bytes := if_neg h

private theorem copyFrom_eq_cellsAt (m : KernelMemory) {source : Address} (n : ℕ)
    (h : source ≠ 0#64) :
    copyFrom m source n = cellsAt m source n := if_neg h

/-- The comparison succeeds exactly when each byte of the template that is not
zero stands in the memory. -/
theorem compareNonZeros_eq_ok (as bs : List Byte) :
    compareNonZeros as bs = ps4Ok ↔ ∀ p ∈ as.zip bs, p.1 = 0 ∨ p.1 = p.2 := by
  induction as generalizing bs with
  | nil => simp [compareNonZeros]
  | cons a as ih =>
    cases bs with
    | nil => simp [compareNonZeros]
    | cons b bs =>
      rw [compareNonZeros, List.zip_cons_cons, List.forall_mem_cons]
      by_cases h : a ≠ 0 ∧ a ≠ b
      · have hne : a.setWidth 32 - b.setWidth 32 ≠ ps4Ok := by
          intro he
          apply h.2
          have hab : a.setWidth 32 = b.setWidth 32 :=
            BitVec.sub_eq_iff_eq_add.mp he |>.trans (by simp [ps4Ok])
          apply BitVec.eq_of_toNat_eq
          have ht := congrArg BitVec.toNat hab
          have h₁ := a.isLt
          have h₂ := b.isLt
          simp only [BitVec.toNat_setWidth] at ht
          omega
        rw [if_pos h]
        refine iff_of_false hne fun hall => ?_
        rcases hall.1 with h₀ | h₀
        · exact h.1 h₀
        · exact h.2 h₀
      · rw [if_neg h, ih]
        refine ⟨fun hall => ⟨?_, hall⟩, fun hall => hall.2⟩
        by_contra hcon
        exact h ⟨fun h₀ => hcon (.inl h₀), fun h₀ => hcon (.inr h₀)⟩

private theorem eq_of_mem_zip_self {l : List Byte} {p : Byte × Byte}
    (h : p ∈ l.zip l) : p.1 = p.2 := by
  induction l with
  | nil => cases h
  | cons x l ih =>
    rcases List.mem_cons.mp h with rfl | h
    · rfl
    · exact ih h

theorem Template.length_filled (t : Template) (v : ℕ) : (t.filled v).length = t.size := by
  simp only [filled, size, List.length_append, length_wordBytes]

theorem Template.length_bytes (t : Template) : t.bytes.length = t.size := by
  simp only [bytes, size, List.length_append, List.length_replicate]

section Patching

variable (t : Template) (m : KernelMemory) {memory : Address} (v : ℕ)

theorem Template.patch_eq (h : memory ≠ 0#64) (h' : memory + BitVec.ofNat 64 t.front.length ≠ 0#64)
    (hs : t.size ≤ 2 ^ 64) : t.patch m memory v = write m memory (t.filled v) := by
  rw [patch, copyTo_eq _ _ h', copyTo_eq _ _ h]
  refine write_write_middle m memory t.front _ _ t.back (by simp) ?_
  rw [← t.length_filled v] at hs
  exact hs

theorem Template.patch_outside {x : Address} (h : ¬Inside memory t.size x) :
    t.patch m memory v x = m x := by
  have hbytes : ¬Inside memory t.bytes.length x := by rwa [t.length_bytes]
  have hword : ¬Inside (memory + BitVec.ofNat 64 t.front.length) (wordBytes t.width v).length x :=
    fun hx => h (hx.of_add (by simp [size]))
  unfold patch copyTo
  split_ifs
  · rfl
  · exact write_outside m hbytes
  · exact write_outside m hword
  · rw [write_outside _ hword, write_outside m hbytes]

theorem compareNonZeros_filled : compareNonZeros t.bytes (t.filled v) = ps4Ok := by
  rw [compareNonZeros_eq_ok, Template.bytes, Template.filled,
    List.zip_append (by simp), List.zip_append (by simp)]
  simp only [List.mem_append]
  rintro p ((hp | hp) | hp)
  · exact .inr (eq_of_mem_zip_self hp)
  · exact .inl (List.eq_of_mem_replicate (List.of_mem_zip hp).1)
  · exact .inr (eq_of_mem_zip_self hp)

variable {m v}

theorem Template.compare_filled (h : memory ≠ 0#64) (hm : cellsAt m memory t.size = t.filled v) :
    t.compare m memory = ps4Ok := by
  rw [compare, ps4KernelMemoryCompareNonZeros, if_neg h, t.length_bytes, hm, compareNonZeros_filled]

theorem Template.cellsAt_operand (hm : cellsAt m memory t.size = t.filled v) :
    cellsAt m (memory + BitVec.ofNat 64 t.front.length) t.width = wordBytes t.width v := by
  rw [Template.size, Template.filled, cellsAt_append, cellsAt_append] at hm
  have hfront := List.append_inj_left hm (by simp)
  exact List.append_inj_right hfront (by simp)

theorem Template.extract_filled (h' : memory + BitVec.ofNat 64 t.front.length ≠ 0#64)
    (hm : cellsAt m memory t.size = t.filled v) :
    t.extract m memory = BitVec.ofNat 64 (v % 256 ^ t.width) := by
  rw [extract, copyFrom_eq_cellsAt m _ h', t.cellsAt_operand hm, bytesValue_wordBytes]

end Patching

theorem jumpTemplate_size_le (target : Address) : (jumpTemplate target).size ≤ 13 := by
  unfold jumpTemplate
  split_ifs <;> decide

theorem ps4PayloadFunctionHookPrologueDeterminePatchSize_eq :
    ps4PayloadFunctionHookPrologueDeterminePatchSize = 266 := by
  have h₁ : prologueEntry.length = 29 := rfl
  have h₂ : prologueSave.length = 98 := rfl
  have h₃ : prologueClone.length = 22 := rfl
  have h₄ : prologueRestore.length = 98 := rfl
  have h₅ : prologueLeave.length = 9 := rfl
  simp [ps4PayloadFunctionHookPrologueDeterminePatchSize, Template.size,
    ps4PayloadTemplateFunctionHookPrologue, h₁, h₂, h₃, h₄, h₅]

theorem toNat_lt_of_low {target : Address} (h : target &&& 0xffffffff00000000 = 0#64) :
    target.toNat < 2 ^ 32 := by
  have hmask : ∀ i : Fin 32, (0xffffffff00000000#64).getLsbD (32 + i) = true := by decide
  have hshift : target >>> 32 = 0#64 := by
    apply BitVec.eq_of_getLsbD_eq
    intro i hi
    rw [BitVec.getLsbD_ushiftRight, BitVec.getLsbD_zero]
    by_cases hlt : i < 32
    · have hbit := congrArg (fun x => BitVec.getLsbD x (32 + i)) h
      simpa [hmask ⟨i, hlt⟩] using hbit
    · exact BitVec.getLsbD_of_ge _ _ (by omega)
  have hdiv := congrArg BitVec.toNat hshift
  simp only [BitVec.toNat_ushiftRight, Nat.shiftRight_eq_div_pow, BitVec.toNat_ofNat] at hdiv
  omega

theorem ofNat_toNat_mod (v : Address) {n : ℕ} (h : v.toNat < 256 ^ n) :
    BitVec.ofNat 64 (v.toNat % 256 ^ n) = v := by
  rw [Nat.mod_eq_of_lt h]
  simp

section Spec

variable {m : KernelMemory} {memory target argument : Address}

/-- The long jump begins with another byte than the short one. -/
theorem compare_jump32_of_jump64 {v : ℕ} (h : memory ≠ 0#64)
    (hm : cellsAt m memory ps4PayloadTemplateJump64.size = ps4PayloadTemplateJump64.filled v) :
    ps4PayloadTemplateJump32.compare m memory ≠ ps4Ok := by
  have hfirst : m memory = 0x49 := by
    change cellsAt m memory (12 + 1) = _ at hm
    rw [cellsAt_succ] at hm
    exact List.head_eq_of_cons_eq hm
  rw [Template.compare, ps4KernelMemoryCompareNonZeros, if_neg h]
  change compareNonZeros _ (cellsAt m memory (8 + 1)) ≠ _
  rw [cellsAt_succ, hfirst]
  simp [compareNonZeros, Template.bytes, ps4PayloadTemplateJump32, ps4Ok]

theorem ps4PayloadJumpExtractTarget_filled (h : memory ≠ 0#64) (h' : memory + 2 ≠ 0#64)
    (hm : cellsAt m memory (jumpTemplate target).size = (jumpTemplate target).filled target.toNat) :
    ps4PayloadJumpExtractTarget m memory = .ok target := by
  rw [ps4PayloadJumpExtractTarget, if_neg h]
  unfold jumpTemplate at hm
  split_ifs at hm with hlow
  · rw [if_pos (ps4PayloadTemplateJump32.compare_filled h hm),
      ps4PayloadTemplateJump32.extract_filled h' hm]
    exact congrArg _ (ofNat_toNat_mod target (toNat_lt_of_low hlow))
  · rw [if_neg (compare_jump32_of_jump64 h hm), if_pos
      (ps4PayloadTemplateJump64.compare_filled h hm), ps4PayloadTemplateJump64.extract_filled h' hm]
    exact congrArg _ (ofNat_toNat_mod target target.isLt)

theorem ps4PayloadFunctionHookPrologueIsPatched_filled (h : memory ≠ 0#64)
    (hm : cellsAt m memory ps4PayloadTemplateFunctionHookPrologue.size =
      ps4PayloadTemplateFunctionHookPrologue.filled argument.toNat) :
    ps4PayloadFunctionHookPrologueIsPatched m memory = ps4Ok := by
  rw [ps4PayloadFunctionHookPrologueIsPatched, if_neg h,
    if_pos (ps4PayloadTemplateFunctionHookPrologue.compare_filled h hm)]

theorem ps4PayloadFunctionHookPrologueExtractArgument_filled (h : memory ≠ 0#64)
    (h' : memory + 2 ≠ 0#64) (hm : cellsAt m memory ps4PayloadTemplateFunctionHookPrologue.size =
      ps4PayloadTemplateFunctionHookPrologue.filled argument.toNat) :
    ps4PayloadFunctionHookPrologueExtractArgument m memory = .ok argument := by
  rw [ps4PayloadFunctionHookPrologueExtractArgument, if_neg h,
    if_pos (ps4PayloadTemplateFunctionHookPrologue.compare_filled h hm),
    ps4PayloadTemplateFunctionHookPrologue.extract_filled h' hm]
  exact congrArg _ (ofNat_toNat_mod argument argument.isLt)

end Spec

end Ps4Sdk.PayloadTemplates
