import Ps4Sdk.AssemblyMachines
import Ps4Sdk.PayloadRecognition

/-!
# Payloads that return a value, `payload/template.c`

One of three encodings is chosen by the magnitude of the value. The short one moves the
value to a 32-bit register, which clears the upper half of the 64-bit one, so a
negative value does not come out of it; and the decoder copies the value over its own
pointer instead of through it.
-/

namespace Ps4Sdk.PayloadTemplates
open ByteMemory AssemblyMachines

/-! ### The functions -/

def isInt32 (value : BitVec 64) : Prop := value.toInt ≤ 0x7fffffff ∧ -0x80000000 ≤ value.toInt

instance (value : BitVec 64) : Decidable (isInt32 value) :=
  inferInstanceAs (Decidable (value.toInt ≤ 0x7fffffff ∧ -0x80000000 ≤ value.toInt))

def ps4PayloadReturnPatch (m : KernelMemory) (memory : Address) (value : BitVec 64) :
    Code × KernelMemory :=
  if memory = 0#64 then (ps4ErrorArgumentPrimaryMissing, m)
  else if value = 0#64 then (ps4Ok, copyTo m ps4PayloadTemplateReturnZero.bytes memory)
  else if isInt32 value then (ps4Ok, ps4PayloadTemplateReturn32.patch m memory value.toNat)
  else (ps4Ok, ps4PayloadTemplateReturn64.patch m memory value.toNat)

def ps4PayloadReturnDeterminePatchSize (value : BitVec 64) : ℕ :=
  if value = 0#64 then ps4PayloadTemplateReturnZero.size
  else if isInt32 value then ps4PayloadTemplateReturn32.size
  else ps4PayloadTemplateReturn64.size

/-- `ps4KernelMemoryCopy` over the first bytes of a local word. -/
def copyOver (m : KernelMemory) (source : Address) (n : ℕ) (word : Address) : Address :=
  if source = 0#64 then word
  else BitVec.ofNat 64 (bytesValue (cellsAt m source n ++ (wordBytes 8 word.toNat).drop n))

/-- The code, the memory, and what the parameter `value` holds when the function returns. The
copies are made to the address of the parameter, not to the one that it holds. -/
def ps4PayloadReturnExtractValue (m : KernelMemory) (memory value : Address) :
    Code × KernelMemory × Address :=
  if memory = 0#64 then (ps4ErrorArgumentPrimaryMissing, m, value)
  else if value = 0#64 then (ps4ErrorArgumentOutMissing, m, value)
  else if ps4PayloadTemplateReturn64.compare m memory =
    ps4Ok then (ps4Ok, m, copyOver m (memory + 2) 8 value)
  else if ps4PayloadTemplateReturn32.compare m memory =
    ps4Ok then (ps4Ok, m, copyOver m (memory + 1) 4 value)
  else if ps4PayloadTemplateReturnZero.compare m memory = ps4Ok ∧ value = 0#64 then
    (ps4Ok, putWord m value 0, value)
  else (ps4ErrorArgumentExpectationFailed, m, value)

def ps4KernelFunctionPatchToReturn (m : KernelMemory) (function : Address)
    (ret : BitVec 64) : KernelMemory :=
  (ps4PayloadReturnPatch m function ret).2

/-! ### Patching -/

def returnTemplate (value : BitVec 64) : Template :=
  if value = 0#64 then ps4PayloadTemplateReturnZero
  else if isInt32 value then ps4PayloadTemplateReturn32
  else ps4PayloadTemplateReturn64

private theorem returnTemplate_mem (value : BitVec 64) : returnTemplate value ∈
    [ps4PayloadTemplateReturn64, ps4PayloadTemplateReturn32, ps4PayloadTemplateReturnZero] := by
  unfold returnTemplate
  split_ifs <;> simp

private theorem ps4PayloadReturnDeterminePatchSize_eq (value : BitVec 64) :
    ps4PayloadReturnDeterminePatchSize value = (returnTemplate value).size := by
  unfold ps4PayloadReturnDeterminePatchSize returnTemplate
  split_ifs <;> rfl

section Patched

variable {memory : Address} (h : memory ≠ 0#64) (h₁ : memory + 1 ≠ 0#64) (h₂ : memory + 2 ≠ 0#64)
include h h₁ h₂

theorem fits_returnTemplate (value : BitVec 64) : (returnTemplate value).Fits memory := by
  unfold returnTemplate
  split_ifs
  · exact ⟨h, fun hw => absurd rfl hw, by decide⟩
  · exact ⟨h, fun _ => h₁, by decide⟩
  · exact ⟨h, fun _ => h₂, by decide⟩

theorem ps4PayloadReturnPatch_eq (m : KernelMemory) (value : BitVec 64) :
    ps4PayloadReturnPatch m memory value =
      (ps4Ok, (returnTemplate value).patch m memory value.toNat) := by
  have hfits := fits_returnTemplate h h₁ h₂ value
  rw [hfits.patch_eq_write, ps4PayloadReturnPatch, if_neg h]
  unfold returnTemplate at hfits ⊢
  split_ifs at hfits ⊢
  · rw [copyTo_eq _ _ h]
    rfl
  · rw [hfits.patch_eq_write]
  · rw [hfits.patch_eq_write]

theorem cellsAt_returnPatch (m : KernelMemory) (value : BitVec 64) :
    cellsAt (ps4PayloadReturnPatch m memory value).2 memory (returnTemplate value).size =
      (returnTemplate value).filled value.toNat := by
  rw [ps4PayloadReturnPatch_eq h h₁ h₂]
  exact (fits_returnTemplate h h₁ h₂ value).cellsAt_patch m _

theorem matches_returnPatch (m : KernelMemory) (value : BitVec 64) :
    (returnTemplate value).Matches (ps4PayloadReturnPatch m memory value).2 memory :=
  Template.matches_of_filled (cellsAt_returnPatch h h₁ h₂ m value)

private theorem compare_returnPatch (m : KernelMemory) (value : BitVec 64) :
    (returnTemplate value).compare (ps4PayloadReturnPatch m memory value).2 memory = ps4Ok :=
  (returnTemplate value).compare_filled h (cellsAt_returnPatch h h₁ h₂ m value)

/-- The decoder leaves the memory as it is, and refuses the encoding of zero. -/
theorem ps4PayloadReturnExtractValue_patched (m : KernelMemory) (value : BitVec 64) {x : Address}
    (hx : x ≠ 0#64) :
    (ps4PayloadReturnExtractValue (ps4PayloadReturnPatch m memory value).2 memory x).1 =
        (if value = 0#64 then ps4ErrorArgumentExpectationFailed else ps4Ok) ∧
      (ps4PayloadReturnExtractValue (ps4PayloadReturnPatch m memory value).2 memory x).2.1 =
        (ps4PayloadReturnPatch m memory value).2 := by
  have hm := matches_returnPatch h h₁ h₂ m value
  have hc := compare_returnPatch h h₁ h₂ m value
  revert hm hc
  generalize (ps4PayloadReturnPatch m memory value).2 = m'
  intro hm hc
  rw [ps4PayloadReturnExtractValue, if_neg h, if_neg hx]
  unfold returnTemplate at hm hc
  split_ifs at hm hc with h₀ hint
  · have hno64 : ps4PayloadTemplateReturn64.compare m' memory ≠ ps4Ok :=
      Template.compare_of_clashes (i := 1) (by decide) h hm
    have hno32 : ps4PayloadTemplateReturn32.compare m' memory ≠ ps4Ok :=
      Template.compare_of_clashes (i := 0) (by decide) h hm
    rw [if_neg hno64, if_neg hno32, if_neg fun hboth => hx hboth.2, if_pos h₀]
    exact ⟨rfl, rfl⟩
  · have hno64 : ps4PayloadTemplateReturn64.compare m' memory ≠ ps4Ok :=
      Template.compare_of_clashes (i := 0) (by decide) h hm
    rw [if_neg hno64, if_pos hc, if_neg h₀]
    exact ⟨rfl, rfl⟩
  · rw [if_pos hc, if_neg h₀]
    exact ⟨rfl, rfl⟩

/-- After patching, the value is recognised, and exactly its bytes are overwritten; it is read back
if and only if it is not zero and the variable for it holds it already. -/
theorem returnPatch_decodes_iff (m : KernelMemory) (value : BitVec 64) {x : Address}
    (hx : x ≠ 0#64) :
    (ps4PayloadReturnIsPatched (ps4PayloadReturnPatch m memory value).2 memory = ps4Ok ∧
      (ps4PayloadReturnExtractValue (ps4PayloadReturnPatch m memory value).2 memory x).1 = ps4Ok ∧
      wordAt (ps4PayloadReturnExtractValue
        (ps4PayloadReturnPatch m memory value).2 memory x).2.1 x = value ∧
      Overwrites (fun m => (ps4PayloadReturnPatch m memory value).2) memory
        (ps4PayloadReturnDeterminePatchSize value)) ↔
    value ≠ 0#64 ∧ wordAt (ps4PayloadReturnPatch m memory value).2 x = value := by
  have hfits := fits_returnTemplate h h₁ h₂ value
  have hover : Overwrites (fun m => (ps4PayloadReturnPatch m memory value).2) memory
      (ps4PayloadReturnDeterminePatchSize value) := by
    rw [ps4PayloadReturnDeterminePatchSize_eq]
    simpa only [ps4PayloadReturnPatch_eq h h₁ h₂] using hfits.overwrites value.toNat
  have hpatched : ps4PayloadReturnIsPatched (ps4PayloadReturnPatch m memory value).2 memory =
    ps4Ok :=
    (isPatched_eq_ok_iff h).mpr ⟨_, returnTemplate_mem value, compare_returnPatch h h₁ h₂ m value⟩
  obtain ⟨hcode, hmemory⟩ := ps4PayloadReturnExtractValue_patched h h₁ h₂ m value hx
  have hok : (ps4PayloadReturnExtractValue (ps4PayloadReturnPatch m memory value).2 memory x).1 =
    ps4Ok ↔
      value ≠ 0#64 := by
    rw [hcode]
    split_ifs with h₀
    · exact iff_of_false (by decide) (not_not.mpr h₀)
    · exact iff_of_true rfl h₀
  rw [hok, hmemory]
  exact ⟨fun hall => ⟨hall.2.1, hall.2.2.1⟩, fun hall => ⟨hpatched, hall.1, hall.2, hover⟩⟩

end Patched

/-- The variable for the value holds it already. -/
theorem returnPatch_decodes_iff_held :
    wordAt (ps4PayloadReturnExtractValue
      (ps4PayloadReturnPatch (putWord (fun _ => 0) 0x2000 5) 0x1000 5).2 0x1000 0x2000).2.1 0x2000 =
        5 :=
  ((returnPatch_decodes_iff (by decide) (by decide) (by decide) _ 5 (by decide)).mpr
    (by decide +kernel)).2.2.1

/-- Five is not stored to a variable that is zero, and zero is not recognised as a value at all. -/
theorem returnPatch_not_decoded :
    (ps4PayloadReturnExtractValue (ps4PayloadReturnPatch (fun _ => 0) 0x1000 5).2 0x1000 0x2000).1 =
      ps4Ok ∧
      wordAt (ps4PayloadReturnExtractValue
        (ps4PayloadReturnPatch (fun _ => 0) 0x1000 5).2 0x1000 0x2000).2.1
        0x2000 = 0 ∧
      (ps4PayloadReturnExtractValue
        (ps4PayloadReturnPatch (fun _ => 0) 0x1000 0).2 0x1000 0x2000).1 =
        ps4ErrorArgumentExpectationFailed := by
  decide +kernel

end Ps4Sdk.PayloadTemplates
