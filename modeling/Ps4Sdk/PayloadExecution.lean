import Ps4Sdk.ReturnPayloads

/-!
# Executing the short payloads

The processor decodes the instructions of the jump and return templates from the memory
at its instruction pointer. Writing a 32-bit register clears the upper half of the
64-bit one, which makes the short return of a negative value wrong.
-/

namespace Ps4Sdk.PayloadTemplates
open ByteMemory AssemblyMachines

inductive PayloadInstruction
  | movabs (v : BitVec 64) (target : Register)
  | movl (v : BitVec 32) (target : Register)
  | xorq (source target : Register)
  | jmp (target : Register)
  | ret
  deriving DecidableEq

def immediate (m : KernelMemory) (a : Address) (n : ℕ) : ℕ := bytesValue (cellsAt m a n)

def decodeAt (m : KernelMemory) (a : Address) : Option (PayloadInstruction × ℕ) :=
  if m a = 0x48 ∧ m (a + 1) =
    0xb8 then some (.movabs (BitVec.ofNat 64 (immediate m (a + 2) 8)) .rax, 10)
  else if m a = 0x49 ∧
    m (a + 1) = 0xbb then some (.movabs (BitVec.ofNat 64 (immediate m (a + 2) 8)) .r11, 10)
  else if m a = 0xb8 then some (.movl (BitVec.ofNat 32 (immediate m (a + 1) 4)) .rax, 5)
  else if m a = 0x41 ∧
    m (a + 1) = 0xbb then some (.movl (BitVec.ofNat 32 (immediate m (a + 2) 4)) .r11, 6)
  else if m a = 0x48 ∧ m (a + 1) = 0x31 ∧ m (a + 2) = 0xc0 then some (.xorq .rax .rax, 3)
  else if m a = 0x41 ∧ m (a + 1) = 0xff ∧ m (a + 2) = 0xe3 then some (.jmp .r11, 3)
  else if m a = 0xc3 then some (.ret, 1)
  else none

/-- The registers and the instruction pointer. -/
structure Processor extends View where
  rip : Address

/-- An instruction that goes on to the next one. -/
def Processor.next (p : Processor) (v : View) (n : ℕ) : Processor := ⟨v, p.rip + BitVec.ofNat 64 n⟩

/-- What the processor does before it comes to a `ret`. -/
def step (m : KernelMemory) (p : Processor) : Option Processor :=
  match decodeAt m p.rip with
  | some (.movabs v target, n) => some (p.next (p.set target v) n)
  | some (.movl v target, n) => some (p.next (p.set target (v.setWidth 64)) n)
  | some (.xorq source target, n) =>
    let w := p.register target ^^^ p.register source
    some (p.next ((p.set target w).compared w.toInt 0) n)
  | some (.jmp target, _) => some { p with rip := p.register target }
  | some (.ret, _) => none
  | none => none

def execute (m : KernelMemory) : ℕ → Processor → Option Processor
  | 0, p => some p
  | n + 1, p => (step m p).bind (execute m n)

/-- The processor comes to a `ret`, and is then in the given state. -/
def ReachesReturn (m : KernelMemory) (p q : Processor) : Prop :=
  ∃ n, execute m n p = some q ∧ decodeAt m q.rip = some (.ret, 1)

/-- A payload of one instruction and a `ret` has one outcome. -/
theorem reachesReturn_iff {m : KernelMemory} {p p' q : Processor} (hs : step m p = some p')
    (hret : decodeAt m p'.rip = some (.ret, 1)) : ReachesReturn m p q ↔ q = p' := by
  have hend : step m p' = none := by rw [step, hret]
  constructor
  · rintro ⟨n, hn, hq⟩
    match n with
    | 0 =>
      obtain rfl : p = q := Option.some.inj hn
      rw [step, hq] at hs
      cases hs
    | 1 =>
      rw [execute, hs] at hn
      exact (Option.some.inj hn).symm
    | n + 2 =>
      rw [execute, hs, Option.bind_some, execute, hend] at hn
      cases hn
  · rintro rfl
    exact ⟨1, by rw [execute, hs]; rfl, hret⟩

theorem Template.Matches.first {t : Template} {m : KernelMemory} {a : Address} (hm : t.Matches m a)
    (h : 0 < t.front.length) : m a = t.byte 0 := by
  have h₀ := hm 0 (by simp only [size]; omega) (by simp only [InOperand]; omega)
  rwa [BitVec.add_zero] at h₀

private theorem decodeAt_ret {m : KernelMemory} {a : Address} (h : m a = 0xc3) :
    decodeAt m a = some (.ret, 1) := by
  rw [decodeAt, h]
  rfl

section Payloads

variable {m : KernelMemory} {a : Address}

theorem decodeAt_return64 (hm : ps4PayloadTemplateReturn64.Matches m a) :
    decodeAt m a = some (.movabs (BitVec.ofNat 64 (immediate m (a + 2) 8)) .rax, 10) ∧
      decodeAt m (a + 10) = some (.ret, 1) := by
  have h₀ : m a = 0x48 := hm.first (by decide)
  have h₁ : m (a + 1) = 0xb8 := hm 1 (by decide) (by decide)
  refine ⟨?_, decodeAt_ret (hm 10 (by decide) (by decide))⟩
  rw [decodeAt, h₀, h₁]
  rfl

private theorem decodeAt_return32 (hm : ps4PayloadTemplateReturn32.Matches m a) :
    decodeAt m a = some (.movl (BitVec.ofNat 32 (immediate m (a + 1) 4)) .rax, 5) ∧
      decodeAt m (a + 5) = some (.ret, 1) := by
  have h₀ : m a = 0xb8 := hm.first (by decide)
  refine ⟨?_, decodeAt_ret (hm 5 (by decide) (by decide))⟩
  rw [decodeAt, h₀]
  rfl

theorem decodeAt_returnZero (hm : ps4PayloadTemplateReturnZero.Matches m a) :
    decodeAt m a = some (.xorq .rax .rax, 3) ∧ decodeAt m (a + 3) = some (.ret, 1) := by
  have h₀ : m a = 0x48 := hm.first (by decide)
  have h₁ : m (a + 1) = 0x31 := hm 1 (by decide) (by decide)
  have h₂ : m (a + 2) = 0xc0 := hm 2 (by decide) (by decide)
  refine ⟨?_, decodeAt_ret (hm 3 (by decide) (by decide))⟩
  rw [decodeAt, h₀, h₁, h₂]
  rfl

end Payloads

/-! ### Returning -/

def returnedValue (value : BitVec 64) : BitVec 64 :=
  if isInt32 value then (value.setWidth 32).setWidth 64 else value

private theorem toNat_returnedValue {value : BitVec 64} (h : isInt32 value) :
    (returnedValue value).toNat = value.toNat % 2 ^ 32 := by
  have hlt : value.toNat % 2 ^ 32 < 2 ^ 64 := (Nat.mod_lt _ (by decide)).trans (by decide)
  rw [returnedValue, if_pos h, BitVec.toNat_setWidth, BitVec.toNat_setWidth, Nat.mod_eq_of_lt hlt]

/-- The upper half of a negative value is lost if it has a short encoding. -/
theorem returnedValue_eq_iff (value : BitVec 64) :
    returnedValue value = value ↔ ¬(-0x80000000 ≤ value.toInt ∧ value.toInt < 0) := by
  have hv := value.isLt
  have hint : value.toInt = if value.toNat <
      2 ^ 63 then (value.toNat : ℤ) else value.toNat - 2 ^ 64 := by
    rw [BitVec.toInt_eq_toNat_cond]
    have hcond : 2 * value.toNat < 2 ^ 64 ↔ value.toNat < 2 ^ 63 := by omega
    simp only [hcond, Nat.cast_pow, Nat.cast_ofNat]
  by_cases h : isInt32 value
  · have hr := toNat_returnedValue h
    obtain ⟨hmax, hmin⟩ := h
    rw [← BitVec.toNat_inj, hr]
    split_ifs at hint <;> omega
  · rw [returnedValue, if_neg h]
    refine iff_of_true rfl fun hneg => h ⟨?_, hneg.1⟩
    omega

section Patched

variable {memory : Address} (h : memory ≠ 0#64) (h₁ : memory + 1 ≠ 0#64) (h₂ : memory + 2 ≠ 0#64)
include h h₁ h₂

/-- One instruction sets the register, and a `ret` follows it. -/
theorem step_returnPatch (m : KernelMemory) (value : BitVec 64) (v : View) :
    ∃ p, step (ps4PayloadReturnPatch m memory value).2 ⟨v, memory⟩ = some p ∧
      decodeAt (ps4PayloadReturnPatch m memory value).2 p.rip = some (.ret, 1) ∧
      p.register .rax = returnedValue value := by
  have hcells := cellsAt_returnPatch h h₁ h₂ m value
  have hm := matches_returnPatch h h₁ h₂ m value
  have ho := Template.cellsAt_operand _ hcells
  revert hm ho
  generalize (ps4PayloadReturnPatch m memory value).2 = m'
  unfold returnTemplate
  split_ifs with h₀ hint
  · intro hm _
    obtain ⟨hd, hret⟩ := decodeAt_returnZero hm
    refine ⟨_, by rw [step, hd], hret, ?_⟩
    subst h₀
    simp [Processor.next, View.compared, View.set]
    decide
  · intro hm ho
    obtain ⟨hd, hret⟩ := decodeAt_return32 hm
    refine ⟨_, by rw [step, hd], hret, ?_⟩
    have himm : immediate m' (memory + 1) 4 = value.toNat % 2 ^ 32 :=
      (congrArg bytesValue ho).trans (bytesValue_wordBytes 4 value.toNat)
    apply BitVec.eq_of_toNat_eq
    rw [toNat_returnedValue hint]
    simp only [Processor.next, View.set, Function.update_self, himm, BitVec.toNat_setWidth,
      BitVec.toNat_ofNat]
    omega
  · intro hm ho
    obtain ⟨hd, hret⟩ := decodeAt_return64 hm
    refine ⟨_, by rw [step, hd], hret, ?_⟩
    have himm : immediate m' (memory + 2) 8 = value.toNat % 2 ^ 64 :=
      (congrArg bytesValue ho).trans (bytesValue_wordBytes 8 value.toNat)
    rw [returnedValue, if_neg hint]
    apply BitVec.eq_of_toNat_eq
    simp only [Processor.next, View.set, Function.update_self, himm, BitVec.toNat_ofNat]
    omega

end Patched

/-- A function that is patched to return a value comes to its `ret` with the value in `%rax`, from
all registers, if and only if the value is not a negative one of 32 bits. -/
theorem patchToReturn_returns_iff {function : Address} (h : function ≠ 0#64)
    (h₁ : function + 1 ≠ 0#64) (h₂ : function + 2 ≠ 0#64) (m : KernelMemory)
    (value : BitVec 64) (v : View) :
    (∃ q, ReachesReturn (ps4KernelFunctionPatchToReturn m function value) ⟨v, function⟩ q ∧
      q.register .rax = value) ↔ ¬(-0x80000000 ≤ value.toInt ∧ value.toInt < 0) := by
  obtain ⟨p, hs, hret, hrax⟩ := step_returnPatch h h₁ h₂ m value v
  rw [← returnedValue_eq_iff, ← hrax]
  constructor
  · rintro ⟨q, hq, hv⟩
    obtain rfl := (reachesReturn_iff hs hret).mp hq
    exact hv
  · exact fun hv => ⟨p, (reachesReturn_iff hs hret).mpr rfl, hv⟩

def cleared : View := ⟨fun _ => 0, fun _ => 0, .eq, 0⟩

theorem patchToReturn_returns_iff_five :
    ∃ q, ReachesReturn (ps4KernelFunctionPatchToReturn (fun _ => 0) 0x1000 5) ⟨cleared, 0x1000⟩ q ∧
      q.register .rax = 5 :=
  (patchToReturn_returns_iff (by decide) (by decide) (by decide) _ 5 cleared).mpr (by decide)

/-- A function that is patched to return minus one returns `0xffffffff`. -/
theorem patchToReturn_minusOne :
    (∃ q, ReachesReturn (ps4KernelFunctionPatchToReturn (fun _ => 0) 0x1000 (-1))
      ⟨cleared, 0x1000⟩ q) ∧
      ∀ q, ReachesReturn (ps4KernelFunctionPatchToReturn (fun _ => 0) 0x1000 (-1))
        ⟨cleared, 0x1000⟩ q →
        q.register .rax = 0xffffffff ∧ q.register .rax ≠ -1 := by
  have h : (0x1000#64 ≠ 0#64) ∧ 0x1000#64 + 1 ≠ 0#64 ∧ 0x1000#64 + 2 ≠ 0#64 := by decide
  obtain ⟨p, hs, hret, hrax⟩ := step_returnPatch h.1 h.2.1 h.2.2 (fun _ => 0) (-1) cleared
  refine ⟨⟨p, (reachesReturn_iff hs hret).mpr rfl⟩, fun q hq => ?_⟩
  rw [(reachesReturn_iff hs hret).mp hq, hrax]
  decide

end Ps4Sdk.PayloadTemplates
