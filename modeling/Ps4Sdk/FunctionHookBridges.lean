import Ps4Sdk.FunctionHookPatching

/-!
# Running the bridge of a function

The bridge is a copy of the first instructions of a function followed by a jump to
the rest of it. What the instructions do is a parameter; only the two moves and the
indirect jump of the jump templates are fixed. The code is not among the memory
that the instructions work on.
-/

namespace Ps4Sdk.FunctionHookInstallation
open CheckedBlocks AtomicSpinLocks FunctionHookTables ByteMemory PayloadTemplates

inductive Register
  | rax | rcx | rdx | rbx | rsp | rbp | rsi | rdi | r8 | r9 | r10 | r11 | r12 | r13 | r14 | r15
  deriving DecidableEq

/-- What the instructions work on. -/
@[ext] structure Machine where
  register : Register → BitVec 64
  flags : BitVec 64
  memory : KernelMemory

def Machine.withR11 (s : Machine) (v : BitVec 64) : Machine :=
  { s with register := Function.update s.register .r11 v }

private theorem Machine.r11_withR11 (s : Machine) (v : BitVec 64) :
    (s.withR11 v).register .r11 = v := by
  simp [withR11]

theorem Machine.withR11_eq_self (s : Machine) (v : BitVec 64) : s.withR11 v = s ↔
    s.register .r11 = v := by
  constructor
  · intro h
    rw [← h, r11_withR11]
  · rintro rfl
    rw [withR11, Function.update_eq_self]

/-- A processor: how long the instruction at an address is, which its own bytes decide, and what
an instruction does that is fetched from an address. -/
structure Processor where
  length : Disassembler
  execute : List Byte → Address → Machine → Address × Machine
  decodes : Decodes length
  decided : ∀ m a m' a', cellsAt m' a' (length m a) = cellsAt m a (length m a) →
    length m' a' = length m a
  wideLength : ∀ m a v, cellsAt m a 10 = [0x49, 0xbb] ++ wordBytes 8 v → length m a = 10
  narrowLength : ∀ m a v, cellsAt m a 6 = [0x41, 0xbb] ++ wordBytes 4 v → length m a = 6
  jumpLength : ∀ m a, cellsAt m a 3 = [0x41, 0xff, 0xe3] → length m a = 3
  wide : ∀ (v a : Address) s, execute ([0x49, 0xbb] ++ wordBytes 8 v.toNat) a s =
    (a + 10, s.withR11 v)
  narrow : ∀ (v : Address), v.toNat < 2 ^ 32 → ∀ a s,
    execute ([0x41, 0xbb] ++ wordBytes 4 v.toNat) a s = (a + 6, s.withR11 v)
  jump : ∀ a s, execute [0x41, 0xff, 0xe3] a s = (s.register .r11, s)

/-- One instruction of the code at the first component. -/
def Processor.step (p : Processor) (code : KernelMemory) (c : Address × Machine) :
    Address × Machine :=
  p.execute (cellsAt code c.1 (p.length code c.1)) c.1 c.2

/-- The execution comes to the address for the first time. -/
inductive Reaches (p : Processor) (code : KernelMemory) (target : Address) :
    Address × Machine → Machine → Prop
  | here (s : Machine) : Reaches p code target (target, s) s
  | step {c : Address × Machine} {s : Machine} (ne : c.1 ≠ target)
      (rest : Reaches p code target (p.step code c) s) : Reaches p code target c s

/-- The bytes from an address on are whole instructions that go to the next one and do the same
wherever they stand. -/
inductive StraightLine (p : Processor) (code : KernelMemory) : Address → ℕ → Prop
  | done (a : Address) : StraightLine p code a 0
  | next {a : Address} {n : ℕ} (effect : Machine → Machine)
      (independent : ∀ b s, p.execute (cellsAt code a (p.length code a)) b s =
        (b + BitVec.ofNat 64 (p.length code a), effect s))
      (rest : StraightLine p code (a + BitVec.ofNat 64 (p.length code a)) n) :
      StraightLine p code a (p.length code a + n)

section

variable {p : Processor} {code code' : KernelMemory} {target a a' : Address} {n : ℕ}

theorem Reaches.unique {c : Address × Machine} {s t : Machine} (h : Reaches p code target c s)
    (h' : Reaches p code target c t) : s = t := by
  induction h with
  | here s =>
    cases h' with
    | here => rfl
    | step ne rest => exact absurd rfl ne
  | step ne rest ih =>
    cases h' with
    | here => exact absurd rfl ne
    | step ne' rest' => exact ih rest'

/-- Straight-line code does the same at every place it is copied to. -/
theorem StraightLine.run (h : StraightLine p code a n) (hn : n ≤ 2 ^ 64) (s : Machine) :
    ∃ s', ∀ code' a' target t, cellsAt code' a' n = cellsAt code a n →
      (∀ i < n, a' + BitVec.ofNat 64 i ≠ target) →
      Reaches p code' target (a' + BitVec.ofNat 64 n, s') t → Reaches p code' target (a', s) t := by
  induction h generalizing s with
  | done a =>
    refine ⟨s, fun code' a' target t _ _ hr => ?_⟩
    simpa using hr
  | @next a n effect independent rest ih =>
    obtain ⟨s', hs'⟩ := ih (by omega) (effect s)
    refine ⟨s', fun code' a' target t hcells hne hr => ?_⟩
    have hpos := (p.decodes code a).1
    rw [cellsAt_append, cellsAt_append] at hcells
    obtain ⟨hfirst, hrest⟩ := List.append_inj hcells (by simp)
    have hlen := p.decided code a code' a' hfirst
    have hadd : ∀ i : ℕ, a' + BitVec.ofNat 64 (p.length code a) + BitVec.ofNat 64 i =
        a' + BitVec.ofNat 64 (p.length code a + i) := by
      intro i
      rw [BitVec.ofNat_add, BitVec.add_assoc]
    have hstep : p.step code' (a', s) = (a' + BitVec.ofNat 64 (p.length code a), effect s) := by
      rw [Processor.step, hlen, hfirst, independent]
    refine .step ?_ ?_
    · simpa using hne 0 (by omega)
    · rw [hstep]
      refine hs' code' _ target t hrest (fun i hi => ?_) (by rwa [hadd])
      rw [hadd]
      exact hne _ (by omega)

/-- A move of the target into `r11` and the jump to it. -/
theorem reaches_move {size : ℕ} {move : List Byte}
    (hcells : cellsAt code a (size + 3) = move ++ [0x41, 0xff, 0xe3]) (hsize : move.length = size)
    (hlength : p.length code a = size) (hmove : ∀ b s, p.execute move b s =
      (b + BitVec.ofNat 64 size, s.withR11 target))
    (hne : a ≠ target) (hne' : a + BitVec.ofNat 64 size ≠ target) (s : Machine) :
    Reaches p code target (a, s) (s.withR11 target) := by
  rw [cellsAt_append] at hcells
  obtain ⟨hfirst, hjump⟩ := List.append_inj hcells (by rw [length_cellsAt, hsize])
  have hstep₁ : p.step code (a, s) = (a + BitVec.ofNat 64 size, s.withR11 target) := by
    rw [Processor.step, hlength, hfirst, hmove]
  have hr11 : (s.withR11 target).register .r11 = target := s.r11_withR11 target
  have hstep₂ : p.step code (a + BitVec.ofNat 64 size, s.withR11 target) =
      (target, s.withR11 target) := by
    rw [Processor.step, p.jumpLength code _ hjump, hjump, p.jump, hr11]
  refine .step hne ?_
  rw [hstep₁]
  refine .step hne' ?_
  rw [hstep₂]
  exact .here _

/-- The jump of the templates arrives with its target in `r11`. -/
theorem reaches_jump (hcells : cellsAt code a (ps4PayloadJumpDeterminePatchSize target) =
    jumpBytes target) (hne :
    ∀ i < ps4PayloadJumpDeterminePatchSize target, a + BitVec.ofNat 64 i ≠ target) (s : Machine) :
    Reaches p code target (a, s) (s.withR11 target) := by
  have hfirst : a ≠ target := by simpa using hne 0 (by have := (patchSize_bounds target).1; omega)
  unfold jumpBytes ps4PayloadJumpDeterminePatchSize jumpTemplate at hcells
  unfold ps4PayloadJumpDeterminePatchSize jumpTemplate at hne
  split_ifs at hcells hne with hlow
  · have hmove := hcells
    rw [show ps4PayloadTemplateJump32.size = 6 + 3 from rfl, cellsAt_append] at hmove
    obtain ⟨hmove, -⟩ := List.append_inj hmove (by simp [ps4PayloadTemplateJump32])
    exact reaches_move hcells (by simp [ps4PayloadTemplateJump32]) (p.narrowLength code a _ hmove)
      (fun b s => p.narrow target (toNat_lt_of_low hlow) b s) hfirst (hne 6 (by decide)) s
  · have hmove := hcells
    rw [show ps4PayloadTemplateJump64.size = 10 + 3 from rfl, cellsAt_append] at hmove
    obtain ⟨hmove, -⟩ := List.append_inj hmove (by simp [ps4PayloadTemplateJump64])
    exact reaches_move hcells (by simp [ps4PayloadTemplateJump64]) (p.wideLength code a _ hmove)
      (fun b s => p.wide target b s) hfirst (hne 10 (by decide)) s

end

section

variable {ud : Disassembler} {k : Kernel} {function : Address} {b : Blocks}
  (h : Located function b.prologue b.bridge (createdHandle ud k function b).bridgeCopiedSize)
include h

/-- The jump to the prologue leaves the bridge alone. -/
theorem createdMemory_bridge_block {x : Address} (hx : Inside b.bridge blockSize x) :
    createdMemory ud k function b x =
      prepare (ps4KernelMemoryAllocate k.memory b.prologue
        ps4PayloadFunctionHookPrologueDeterminePatchSize)
        function b (createdHandle ud k function b).bridgeCopiedSize x := by
  rw [createdMemory, install]
  unfold ps4KernelFunctionPatchToJump ps4PayloadJumpPatch
  split_ifs
  · rfl
  · rfl
  · apply Template.patch_outside
    exact fun hin => h.function_bridge x (hin.mono h.covers) hx

theorem createdMemory_bridge :
    cellsAt (createdMemory ud k function b) b.bridge
      (createdHandle ud k function b).bridgeCopiedSize.toNat =
      cellsAt k.memory function (createdHandle ud k function b).bridgeCopiedSize.toNat := by
  have hshort := h.short
  rw [← prepared_bridge h]
  apply cellsAt_congr
  intro x hx
  exact createdMemory_bridge_block h (hx.mono (by simp only [blockSize]; omega))

/-- Behind the copied bytes the bridge holds the jump to the rest of the function. -/
theorem createdMemory_bridge_jump
    (hk : KernelSpace (function + (createdHandle ud k function b).bridgeCopiedSize)) :
    cellsAt (createdMemory ud k function b) (b.bridge +
      (createdHandle ud k function b).bridgeCopiedSize)
        (ps4PayloadJumpDeterminePatchSize (function +
          (createdHandle ud k function b).bridgeCopiedSize)) =
      jumpBytes (function + (createdHandle ud k function b).bridgeCopiedSize) := by
  have hshort := h.short
  have hpatch := (patchSize_bounds (function + (createdHandle ud k function b).bridgeCopiedSize)).2
  have hplace : ∀ i, i < 0x1000 → Inside b.bridge blockSize
      (b.bridge + (createdHandle ud k function b).bridgeCopiedSize + BitVec.ofNat 64 i) := by
    intro i hi
    have hsum : b.bridge + (createdHandle ud k function b).bridgeCopiedSize + BitVec.ofNat 64 i =
        b.bridge + BitVec.ofNat 64
          ((createdHandle ud k function b).bridgeCopiedSize.toNat + i) := by
      rw [BitVec.ofNat_add, BitVec.ofNat_toNat, BitVec.setWidth_eq, BitVec.add_assoc]
    rw [hsum]
    exact inside_add b.bridge (by simp only [blockSize]; omega)
  obtain ⟨m', hprepare, -, -⟩ := prepare_eq (m := ps4KernelMemoryAllocate k.memory b.prologue
    ps4PayloadFunctionHookPrologueDeterminePatchSize) h
  have h₀ : KernelSpace (b.bridge + (createdHandle ud k function b).bridgeCopiedSize) := by
    simpa using h.bridgeBlock _ (hplace 0 (by decide))
  have h₂ : KernelSpace (b.bridge + (createdHandle ud k function b).bridgeCopiedSize + 2) :=
    h.bridgeBlock _ (hplace 2 (by decide))
  rw [patchToJump_eq h₀ h₂ hk] at hprepare
  have hwritten := cellsAt_write (copy m' function b.bridge
    (createdHandle ud k function b).bridgeCopiedSize.toNat)
    (b.bridge + (createdHandle ud k function b).bridgeCopiedSize)
    (jumpBytes (function + (createdHandle ud k function b).bridgeCopiedSize))
    (by rw [length_jumpBytes]; omega)
  rw [length_jumpBytes, ← hprepare] at hwritten
  rw [← hwritten]
  apply cellsAt_congr
  intro x hx
  apply createdMemory_bridge_block h
  have hin := hx.mono hpatch
  have hs : b.bridge + (createdHandle ud k function b).bridgeCopiedSize =
      b.bridge + BitVec.ofNat 64 (createdHandle ud k function b).bridgeCopiedSize.toNat := by simp
  rw [hs] at hin
  exact hin.of_add (by simp only [blockSize]; omega)

end

/-- The bridge and the original code come to the rest of the function in the same state. -/
def StandsIn (p : Processor) (k : Kernel) (function : Address) (b : Blocks) (s : Machine) : Prop :=
  ∃ t, Reaches p k.memory (function + (createdHandle p.length k function b).bridgeCopiedSize)
    (function, s) t ∧
    Reaches p (createdMemory p.length k function b)
      (function + (createdHandle p.length k function b).bridgeCopiedSize) (b.bridge, s) t

/-- Both arrive, and the bridge changes `r11`. -/
theorem bridge_reaches (p : Processor) (k : Kernel) (function : Address) (b : Blocks) (s : Machine)
    (hb : Allotted function b.prologue b.bridge (createdHandle p.length k function
      b).bridgeCopiedSize)
    (hs : StraightLine p k.memory function (createdHandle p.length k function
      b).bridgeCopiedSize.toNat)
    (hk : KernelSpace (function + (createdHandle p.length k function b).bridgeCopiedSize))
    (hrest : ¬Inside b.bridge blockSize (function +
      (createdHandle p.length k function b).bridgeCopiedSize)) :
    ∃ t, Reaches p k.memory (function + (createdHandle p.length k function b).bridgeCopiedSize)
      (function, s) t ∧
      Reaches p (createdMemory p.length k function b)
        (function + (createdHandle p.length k function b).bridgeCopiedSize) (b.bridge, s)
        (t.withR11 (function + (createdHandle p.length k function b).bridgeCopiedSize)) := by
  have h := hb.located p.decodes
  have hshort := h.short
  have hpatch := (patchSize_bounds (function + (createdHandle p.length k function
    b).bridgeCopiedSize)).2
  have hend : ∀ a : Address, a + BitVec.ofNat 64 (createdHandle p.length k function
    b).bridgeCopiedSize.toNat =
      a + (createdHandle p.length k function b).bridgeCopiedSize := by simp
  have hbridge : ∀ i < 0x1000, b.bridge + BitVec.ofNat 64 i ≠
      function + (createdHandle p.length k function b).bridgeCopiedSize := by
    rintro i hi he
    exact hrest (he ▸ inside_add b.bridge (by simp only [blockSize]; omega))
  obtain ⟨t, ht⟩ := hs.run (by omega) s
  refine ⟨t, ?_, ?_⟩
  · refine ht _ _ _ _ rfl ?_ (by rw [hend]; exact .here t)
    intro i hi he
    rw [← hend] at he
    have hoffset := congrArg (fun x => (x - function).toNat) he
    simp only [toNat_add_sub] at hoffset
    omega
  · refine ht _ _ _ _ (createdMemory_bridge h) (fun i hi => hbridge i (by omega)) ?_
    rw [hend]
    refine reaches_jump (createdMemory_bridge_jump h hk) ?_ t
    intro i hi
    have hsum := hbridge ((createdHandle p.length k function b).bridgeCopiedSize.toNat + i)
      (by omega)
    rwa [BitVec.ofNat_add, ← BitVec.add_assoc, hend] at hsum

theorem standsIn_iff_r11 {p : Processor} {k : Kernel} {function : Address} {b : Blocks}
    {s t : Machine} (ht : Reaches p k.memory (function +
      (createdHandle p.length k function b).bridgeCopiedSize) (function, s) t)
    (ht' : Reaches p (createdMemory p.length k function b)
      (function + (createdHandle p.length k function b).bridgeCopiedSize) (b.bridge, s)
      (t.withR11 (function + (createdHandle p.length k function b).bridgeCopiedSize))) :
    StandsIn p k function b s ↔
      t.register .r11 = function + (createdHandle p.length k function b).bridgeCopiedSize := by
  rw [← Machine.withR11_eq_self]
  constructor
  · rintro ⟨u, hu, hu'⟩
    rw [ht'.unique hu', ← ht.unique hu]
  · intro he
    rw [he] at ht'
    exact ⟨t, ht, ht'⟩

/-- The bridge of a function whose copied instructions go straight on stands in for them exactly
when they leave the address behind them in `r11`, which the jump of the bridge overwrites. -/
theorem bridge_standsIn_iff (p : Processor) (k : Kernel) (function : Address) (b : Blocks)
    (s : Machine) (hb : Allotted function b.prologue b.bridge
      (createdHandle p.length k function b).bridgeCopiedSize)
    (hs : StraightLine p k.memory function (createdHandle p.length k function
      b).bridgeCopiedSize.toNat)
    (hk : KernelSpace (function + (createdHandle p.length k function b).bridgeCopiedSize))
    (hrest : ¬Inside b.bridge blockSize (function +
      (createdHandle p.length k function b).bridgeCopiedSize)) :
    StandsIn p k function b s ↔
      ∃ t, Reaches p k.memory (function + (createdHandle p.length k function b).bridgeCopiedSize)
        (function, s) t ∧
        t.register .r11 = function + (createdHandle p.length k function b).bridgeCopiedSize := by
  obtain ⟨t, ht, ht'⟩ := bridge_reaches p k function b s hb hs hk hrest
  rw [standsIn_iff_r11 ht ht']
  constructor
  · intro hr11
    exact ⟨t, ht, hr11⟩
  · rintro ⟨u, hu, hr11⟩
    rwa [ht.unique hu]

/-! ### A function of instructions that do nothing -/

def plainLength (m : KernelMemory) (a : Address) : ℕ :=
  if m a = 0x49 then (if m (a + 1) = 0xbb then 10 else 2)
  else if m a = 0x41 then (if m (a + 1) = 0xbb then 6 else if m (a + 1) = 0xff then 3 else 2)
  else 1

/-- The other instructions do nothing. -/
def plainExecute (bytes : List Byte) (a : Address) (s : Machine) : Address × Machine :=
  if bytes.take 2 = [0x41, 0xff] then (s.register .r11, s)
  else if bytes.take 2 = [0x49, 0xbb] ∨ bytes.take 2 = [0x41, 0xbb] then
    (a + BitVec.ofNat 64 bytes.length, s.withR11 (BitVec.ofNat 64 (bytesValue (bytes.drop 2))))
  else (a + BitVec.ofNat 64 bytes.length, s)

private theorem plainLength_decodes : Decodes plainLength := by
  intro m a
  unfold plainLength
  split_ifs <;> decide

private theorem cells_first {m m' : KernelMemory} {a a' : Address} {n : ℕ} (hn : 0 < n)
    (h : cellsAt m' a' n = cellsAt m a n) : m' a' = m a := by
  obtain ⟨k, rfl⟩ := Nat.exists_eq_add_of_lt hn
  rw [cellsAt_succ, cellsAt_succ, List.cons.injEq] at h
  exact h.1

theorem plainLength_decided (m : KernelMemory) (a : Address) (m' : KernelMemory) (a' : Address)
    (h : cellsAt m' a' (plainLength m a) = cellsAt m a (plainLength m a)) :
    plainLength m' a' = plainLength m a := by
  have h₀ := cells_first (plainLength_decodes m a).1 h
  by_cases hp : m a = 0x49 ∨ m a = 0x41
  · have htwo : 2 ≤ plainLength m a := by
      unfold plainLength
      rcases hp with hp | hp <;> rw [hp] <;> split_ifs <;> first | decide | contradiction
    rw [cellsAt_split htwo, cellsAt_split htwo, List.cons.injEq, List.cons.injEq] at h
    unfold plainLength
    rw [h.1, h.2.1]
  · obtain ⟨h₁, h₂⟩ := not_or.mp hp
    unfold plainLength
    rw [h₀, if_neg h₁, if_neg h₁, if_neg h₂, if_neg h₂]

theorem plainLength_front {m : KernelMemory} {a : Address} {n : ℕ} {x y : Byte} {tail : List Byte}
    (h : cellsAt m a n = x :: y :: tail) : m a = x ∧ m (a + 1) = y := by
  have hn : 2 ≤ n := by
    have hl := congrArg List.length h
    rw [length_cellsAt, List.length_cons, List.length_cons] at hl
    omega
  rw [cellsAt_split hn, List.cons.injEq, List.cons.injEq] at h
  exact ⟨h.1, h.2.1⟩

theorem plainExecute_move {n : ℕ} {v : Address} (first : Byte) (hf : first = 0x49 ∨ first = 0x41)
    (hv : v.toNat < 256 ^ n) (a : Address) (s : Machine) :
    plainExecute ([first, 0xbb] ++ wordBytes n v.toNat) a s =
      (a + BitVec.ofNat 64 (2 + n), s.withR11 v) := by
  have htake : ([first, 0xbb] ++ wordBytes n v.toNat).take 2 = [first, 0xbb] := rfl
  have hdrop : ([first, 0xbb] ++ wordBytes n v.toNat).drop 2 = wordBytes n v.toNat := rfl
  have hlength : ([first, 0xbb] ++ wordBytes n v.toNat).length = 2 + n := by
    rw [List.length_append, length_wordBytes]
    rfl
  rw [plainExecute, htake, hdrop, hlength, bytesValue_wordBytes, ofNat_toNat_mod v hv,
    if_neg (by simp), if_pos]
  rcases hf with rfl | rfl
  · exact .inl rfl
  · exact .inr rfl

def plainProcessor : Processor where
  length := plainLength
  execute := plainExecute
  decodes := plainLength_decodes
  decided := plainLength_decided
  wideLength m a v h := by
    obtain ⟨h₀, h₁⟩ := plainLength_front h
    rw [plainLength, if_pos h₀, if_pos h₁]
  narrowLength m a v h := by
    obtain ⟨h₀, h₁⟩ := plainLength_front h
    rw [plainLength, h₀, h₁]
    rfl
  jumpLength m a h := by
    obtain ⟨h₀, h₁⟩ := plainLength_front h
    rw [plainLength, h₀, h₁]
    rfl
  wide v a s := plainExecute_move 0x49 (.inl rfl) v.isLt a s
  narrow v hv a s := plainExecute_move 0x41 (.inr rfl) hv a s
  jump a s := rfl

private theorem plain_step (a : Address) (s : Machine) :
    plainProcessor.step plainKernel.memory (a, s) = (a + BitVec.ofNat 64 1, s) := rfl

theorem plain_straightLine (a : Address) (n : ℕ) :
    StraightLine plainProcessor plainKernel.memory a n := by
  induction n generalizing a with
  | zero => exact .done a
  | succ n ih =>
    rw [Nat.add_comm]
    exact .next (a := a) id (fun _ _ => rfl) (ih _)

theorem plain_reaches (a : Address) (s : Machine) {n : ℕ} (hn : n < 2 ^ 64) :
    Reaches plainProcessor plainKernel.memory (a + BitVec.ofNat 64 n) (a, s) s := by
  induction n generalizing a with
  | zero =>
    rw [BitVec.add_zero]
    exact .here s
  | succ n ih =>
    have hnext : a + BitVec.ofNat 64 1 + BitVec.ofNat 64 n = a + BitVec.ofNat 64 (n + 1) := by
      rw [BitVec.add_assoc, ← BitVec.ofNat_add, Nat.add_comm]
    refine .step ?_ ?_
    · intro he
      have hoffset := congrArg (fun x => (x - a).toNat) he
      simp only [toNat_add_sub, BitVec.sub_self] at hoffset
      have hz : (0#64).toNat = 0 := rfl
      omega
    · rw [plain_step, ← hnext]
      exact ih _ (by omega)

/-- The address behind the copied instructions of the plain function. -/
def plainRest : Address :=
  plainFunction + (createdHandle plainLength plainKernel plainFunction plainBlocks).bridgeCopiedSize

private theorem plain_located : Located plainFunction plainBlocks.prologue plainBlocks.bridge
    (createdHandle plainLength plainKernel plainFunction plainBlocks).bridgeCopiedSize :=
  ((plain_fresh_of plainLength_decodes).placed plainLength_decodes plainFunction_code
    plainCode_kernel).toLocated

private theorem plainRest_code : plainCode plainRest := by
  have hin := inside_add plainFunction (i := (createdHandle plainLength plainKernel plainFunction
    plainBlocks).bridgeCopiedSize.toNat) (n := 0x1000)
      (Nat.lt_trans plain_located.short (by decide))
  simpa [plainRest, plainCode] using hin

private theorem plainRest_outside : ¬Inside plainBlocks.bridge blockSize plainRest := by
  intro hin
  have hcode := plainCode_bounds plainRest_code
  have hbridge := plain_bridge hin
  omega

theorem bridge_standsIn_plain :
    StandsIn plainProcessor plainKernel plainFunction plainBlocks
      ⟨fun _ => plainRest, 0, fun _ => 0⟩ := by
  have hreaches := plain_reaches plainFunction ⟨fun _ => plainRest, 0, fun _ => 0⟩
    (createdHandle plainLength plainKernel plainFunction plainBlocks).bridgeCopiedSize.isLt
  rw [BitVec.ofNat_toNat, BitVec.setWidth_eq] at hreaches
  exact (bridge_standsIn_iff plainProcessor plainKernel plainFunction plainBlocks
    _ plain_located.toAllotted (plain_straightLine _ _) (plainCode_kernel _ plainRest_code)
      plainRest_outside).mpr ⟨_, hreaches, rfl⟩

/-- Instructions that do nothing leave `r11` alone, and their bridge does not. -/
theorem bridge_changes_r11 :
    ¬StandsIn plainProcessor plainKernel plainFunction plainBlocks ⟨fun _ => 0, 0, fun _ => 0⟩ := by
  have hreaches := plain_reaches plainFunction ⟨fun _ => 0, 0, fun _ => 0⟩
    (createdHandle plainLength plainKernel plainFunction plainBlocks).bridgeCopiedSize.isLt
  rw [BitVec.ofNat_toNat, BitVec.setWidth_eq] at hreaches
  obtain ⟨t, ht, ht'⟩ := bridge_reaches plainProcessor plainKernel plainFunction plainBlocks
    ⟨fun _ => 0, 0, fun _ => 0⟩ plain_located.toAllotted (plain_straightLine _ _)
    (plainCode_kernel _ plainRest_code) plainRest_outside
  rw [standsIn_iff_r11 ht ht', ht.unique hreaches]
  intro hzero
  exact (plainCode_kernel _ plainRest_code).ne_zero hzero.symm

end Ps4Sdk.FunctionHookInstallation
