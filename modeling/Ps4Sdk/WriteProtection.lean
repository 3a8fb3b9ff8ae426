import Ps4Sdk.ByteMemory
import Ps4Sdk.KernelBase
import Ps4Sdk.ProgramStages
import Mathlib.Tactic.Common

/-!
# Write protection, `kernel/protection.c`

Memory that is read-only can be written by the kernel on a processor whose `CR0.WP` is
clear. The functions that copy, fill and swap memory and that lock and unlock a function
clear the bit, store, and set the bit. The bit belongs to the processor, not to the thread:
a thread may be interrupted at any point, and moved to another processor unless it is
pinned.
-/

namespace Ps4Sdk.WriteProtection
open StepRuns ByteMemory InterleavedPrograms ProgramStages

abbrev Word := BitVec 64

/-- The control registers of the processors, the memory, and where the threads run and how often
they are pinned there. -/
structure Processors where
  cr0 : ℕ → Word
  memory : Memory 64 (BitVec 8)
  cpu : ℕ → ℕ
  pinned : ℕ → ℕ

def cr0Wp : Word := 0x10000

def wp (cr0 : Word) : Bool := cr0.getLsbD 16

private theorem wp_and (v : Word) : wp (v &&& ~~~cr0Wp) = false := by
  rw [wp, BitVec.getLsbD_and]
  simp [cr0Wp]

private theorem wp_or (v : Word) : wp (v ||| cr0Wp) = true := by
  rw [wp, BitVec.getLsbD_or]
  simp [cr0Wp]

inductive Statement
  | rcr0
  | loadCr0 (v : Word)
  | load (a : Word) (n : ℕ)
  | store (a : Word) (bytes : List (BitVec 8))
  | xchg (a : Word) (bytes : List (BitVec 8))
  | schedPin
  | schedUnpin

def Answer : Statement → Type
  | .rcr0 => Word
  | .load .. | .xchg .. => List (BitVec 8)
  | .loadCr0 _ | .store .. | .schedPin | .schedUnpin => Unit

def execute (i : ℕ) : (a : Statement) → Processors → Option (Answer a × Processors)
  | .rcr0, s => some (s.cr0 (s.cpu i), s)
  | .loadCr0 v, s => some ((), { s with cr0 := Function.update s.cr0 (s.cpu i) v })
  | .load a n, s => some (cellsAt s.memory a n, s)
  | .store a bytes, s => some ((), { s with memory := write s.memory a bytes })
  | .xchg a bytes, s => some (cellsAt s.memory a bytes.length,
      { s with memory := write s.memory a bytes })
  | .schedPin, s => some ((), { s with pinned := Function.update s.pinned i (s.pinned i + 1) })
  | .schedUnpin, s => some ((), { s with pinned := Function.update s.pinned i (s.pinned i - 1) })

abbrev Prog := Program Answer

def rcr0 : Prog Word := perform Statement.rcr0
def loadCr0 (v : Word) : Prog Unit := perform (Statement.loadCr0 v)
def load (a : Word) (n : ℕ) : Prog (List (BitVec 8)) := perform (Statement.load a n)
def store (a : Word) (bytes : List (BitVec 8)) : Prog Unit := perform (Statement.store a bytes)
def xchg (a : Word) (bytes : List (BitVec 8)) : Prog (List (BitVec 8)) :=
  perform (Statement.xchg a bytes)
def schedPin : Prog Unit := perform Statement.schedPin
def schedUnpin : Prog Unit := perform Statement.schedUnpin

/-! ### The functions -/

def ps4KernelProtectionWriteDisable : Prog Unit := do
  let v ← rcr0
  loadCr0 (v &&& ~~~cr0Wp)

def ps4KernelProtectionWriteEnable : Prog Unit := do
  let v ← rcr0
  loadCr0 (v ||| cr0Wp)

def forEach (size : Word) (body : Word → Prog Unit) : Prog Unit :=
  (List.range size.toNat).forM (fun i => body (BitVec.ofNat 64 i))

def memcpy (target source size : Word) : Prog Unit := forEach size fun i => do
  let b ← load (source + i) 1
  store (target + i) b

def memset (memory : Word) (byte : BitVec 8) (size : Word) : Prog Unit := forEach size fun i =>
  store (memory + i) [byte]

def ps4KernelMemoryCopy (source target size : Word) : Prog Code := do
  if source = 0#64 ∨ target = 0#64 then return ps4ErrorArgumentMissing
  ps4KernelProtectionWriteDisable
  memcpy target source size
  ps4KernelProtectionWriteEnable
  return ps4Ok

def ps4KernelMemorySwap (a b size : Word) : Prog Code := do
  if a = 0#64 ∨ b = 0#64 then return ps4ErrorArgumentMissing
  ps4KernelProtectionWriteDisable
  forEach size fun i => do
    let t ← load (a + i) 1
    let u ← load (b + i) 1
    store (a + i) u
    store (b + i) t
  ps4KernelProtectionWriteEnable
  return ps4Ok

def ps4KernelMemoryFill (memory : Word) (byte : BitVec 8) (size : Word) : Prog Code := do
  if memory = 0#64 then return ps4ErrorArgumentMissing
  ps4KernelProtectionWriteDisable
  memset memory byte size
  ps4KernelProtectionWriteEnable
  return ps4Ok

def ps4AtomicSwap16 (memory swap : Word) : Prog Unit := do
  let ax ← load memory 2
  let ax ← xchg swap ax
  store memory ax

/-- The payload has two bytes. -/
def ps4KernelFunctionLock (ps4PayloadLock function bits : Word) : Prog Code := do
  if function = 0#64 then return ps4ErrorArgumentPrimaryMissing
  if bits = 0#64 then return ps4ErrorArgumentOutMissing
  schedPin
  let _ ← ps4KernelMemoryCopy ps4PayloadLock bits 2
  ps4KernelProtectionWriteDisable
  ps4AtomicSwap16 function bits
  ps4KernelProtectionWriteEnable
  schedUnpin
  return ps4Ok

/-- The parameter with the bits is on the stack. -/
def ps4KernelFunctionUnlock (function bits : Word) : Prog Code := do
  if function = 0#64 then return ps4ErrorArgumentPrimaryMissing
  schedPin
  ps4KernelProtectionWriteDisable
  ps4AtomicSwap16 function bits
  ps4KernelProtectionWriteEnable
  schedUnpin
  return ps4Ok

inductive Call
  | copy (source target size : Word)
  | swap (a b size : Word)
  | fill (memory : Word) (byte : BitVec 8) (size : Word)
  | lock (ps4PayloadLock function bits : Word)
  | unlock (function bits : Word)

def Call.program : Call → Prog Code
  | .copy source target size => ps4KernelMemoryCopy source target size
  | .swap a b size => ps4KernelMemorySwap a b size
  | .fill memory byte size => ps4KernelMemoryFill memory byte size
  | .lock ps4PayloadLock function bits => ps4KernelFunctionLock ps4PayloadLock function bits
  | .unlock function bits => ps4KernelFunctionUnlock function bits

/-! ### Threads on processors -/

abbrev System := Threads Answer Processors Code

inductive Action
  | serve (e : Event Call)
  | move (i cpu : ℕ)

inductive Acts : System → Action → System → Prop
  | serve {c c' : System} {e : Event Call} (h : Serves Call.program execute c e c') :
      Acts c (.serve e) c'
  | move {c : System} {i : ℕ} (cpu : ℕ) (unpinned : c.shared.pinned i = 0) :
      Acts c (.move i cpu) ⟨{ c.shared with cpu := Function.update c.shared.cpu i cpu }, c.program⟩

def start (s : Processors) : System := ⟨s, fun _ => .done ps4Ok⟩

/-- The next statement stores. -/
def Stores {α : Type} : Prog α → Prop
  | .statement (.store ..) _ | .statement (.xchg ..) _ => True
  | _ => False

/-- Threads are about to store only on processors without write protection, and when all calls have
returned, every processor has the write protection from before. -/
def Good (s : Processors) (c : System) : Prop :=
  (∀ i, Stores (c.program i) → wp (c.shared.cr0 (c.shared.cpu i)) = false) ∧
    (Idle c → ∀ cpu, wp (c.shared.cr0 cpu) = wp (s.cr0 cpu))

def InSection {α : Type} : Prog α → Prop
  | .done _ => False
  | .statement (.loadCr0 v) _ => wp v = true
  | .statement _ next => ∃ answer, InSection (next answer)

/-- The bit is not cleared on a processor on which another thread has cleared it, and a thread that
has cleared it is not moved. -/
def Careful (c : System) : Action → Prop
  | .serve (.call ..) => True
  | .serve (.perform i) => ∀ v next, c.program i = .statement (.loadCr0 v) next → wp v = false →
      ∀ j, j ≠ i → c.shared.cpu j = c.shared.cpu i → ¬InSection (c.program j)
  | .move i _ => ¬InSection (c.program i)

/-! ### The stages of the functions -/

structure Stage where
  inside : Bool
  pins : ℕ

def advance (t : Stage) : (a : Statement) → Answer a → Option Stage
  | .rcr0, _ | .load .., _ => some t
  | .loadCr0 v, _ => if wp v = t.inside then some { t with inside := !t.inside } else none
  | .store .., _ | .xchg .., _ => if t.inside then some t else none
  | .schedPin, _ => some { t with pins := t.pins + 1 }
  | .schedUnpin, _ => if t.pins = 0 then none else some { t with pins := t.pins - 1 }

def final (t : Stage) (_ : Code) : Prop := t = ⟨false, 0⟩

section Functions

variable {pins : ℕ}

theorem disable_follows {f : Stage → Unit → Prop} (hf : f ⟨true, pins⟩ ()) :
    Follows advance f ⟨false, pins⟩ ps4KernelProtectionWriteDisable := by
  intro (v : Word)
  exact ⟨_, rfl, fun _ => ⟨_, if_pos (wp_and v), hf⟩⟩

theorem enable_follows {f : Stage → Unit → Prop} (hf : f ⟨false, pins⟩ ()) :
    Follows advance f ⟨true, pins⟩ ps4KernelProtectionWriteEnable := by
  intro (v : Word)
  exact ⟨_, rfl, fun _ => ⟨_, if_pos (wp_or v), hf⟩⟩

private theorem forEach_follows {t : Stage} {size : Word} {body : Word → Prog Unit}
    {f : Stage → Unit → Prop} (hbody : ∀ i {f : Stage → Unit → Prop}, f t () →
      Follows advance f t (body i)) (hf : f t ()) :
    Follows advance f t (forEach size body) := by
  rw [forEach]
  induction List.range size.toNat with
  | nil => exact hf
  | cons i is ih => exact (hbody _ ih).bind

private theorem load_follows {t : Stage} {a : Word} {n : ℕ} {f : Stage → List (BitVec 8) → Prop}
    (hf : ∀ bytes, f t bytes) :
    Follows advance f t (load a n) := fun bytes => ⟨t, rfl, hf bytes⟩

private theorem store_follows {a : Word} {bytes : List (BitVec 8)} {f : Stage → Unit → Prop}
    (hf : f ⟨true, pins⟩ ()) :
    Follows advance f ⟨true, pins⟩ (store a bytes) := fun _ => ⟨⟨true, pins⟩, rfl, hf⟩

private theorem xchg_follows {a : Word} {bytes : List (BitVec 8)}
    {f : Stage → List (BitVec 8) → Prop} (hf : ∀ bytes, f ⟨true, pins⟩ bytes) :
    Follows advance f ⟨true, pins⟩ (xchg a bytes) :=
  fun bytes => ⟨⟨true, pins⟩, rfl, hf bytes⟩

private theorem swap16_follows {memory swap : Word} {f : Stage → Unit → Prop}
    (hf : f ⟨true, pins⟩ ()) :
    Follows advance f ⟨true, pins⟩ (ps4AtomicSwap16 memory swap) :=
  (load_follows fun _ => (xchg_follows fun _ => store_follows hf).bind).bind

theorem copy_follows {source target size : Word} {f : Stage → Code → Prop}
    (hf : ∀ code, f ⟨false, pins⟩ code) :
    Follows advance f ⟨false, pins⟩ (ps4KernelMemoryCopy source target size) := by
  have hbody : ∀ {f : Stage → Unit → Prop}, f ⟨true, pins⟩ () →
      Follows advance f ⟨true, pins⟩ (memcpy target source size) :=
    forEach_follows fun i _ h => (load_follows fun _ => store_follows h).bind
  rw [ps4KernelMemoryCopy]
  split_ifs
  · exact hf _
  · exact (disable_follows (hbody (enable_follows (hf _)).bind).bind).bind

theorem swap_follows {a b size : Word} {f : Stage → Code → Prop}
    (hf : ∀ code, f ⟨false, pins⟩ code) :
    Follows advance f ⟨false, pins⟩ (ps4KernelMemorySwap a b size) := by
  rw [ps4KernelMemorySwap]
  split_ifs
  · exact hf _
  · refine (disable_follows (forEach_follows (fun i _ h => ?_)
      (enable_follows (hf _)).bind).bind).bind
    exact (load_follows fun _ => (load_follows fun _ =>
      (store_follows (store_follows h)).bind).bind).bind

private theorem fill_follows {memory : Word} {byte : BitVec 8} {size : Word}
    {f : Stage → Code → Prop} (hf : ∀ code, f ⟨false, pins⟩ code) :
    Follows advance f ⟨false, pins⟩ (ps4KernelMemoryFill memory byte size) := by
  rw [ps4KernelMemoryFill]
  split_ifs
  · exact hf _
  · exact (disable_follows (forEach_follows (fun i _ h => store_follows h)
      (enable_follows (hf _)).bind).bind).bind

theorem lock_follows {ps4PayloadLock function bits : Word} {f : Stage → Code → Prop}
    (hf : ∀ code, f ⟨false, pins⟩ code) :
    Follows advance f ⟨false, pins⟩ (ps4KernelFunctionLock ps4PayloadLock function bits) := by
  rw [ps4KernelFunctionLock]
  split_ifs
  · exact hf _
  · exact hf _
  · refine fun _ => ⟨⟨false, pins + 1⟩, rfl, (copy_follows fun _ => ?_).bind⟩
    refine (disable_follows (swap16_follows (enable_follows fun _ => ?_).bind).bind).bind
    exact ⟨⟨false, pins⟩, rfl, hf _⟩

theorem unlock_follows {function bits : Word} {f : Stage → Code → Prop}
    (hf : ∀ code, f ⟨false, pins⟩ code) :
    Follows advance f ⟨false, pins⟩ (ps4KernelFunctionUnlock function bits) := by
  rw [ps4KernelFunctionUnlock]
  split_ifs
  · exact hf _
  · refine fun _ => ⟨⟨false, pins + 1⟩, rfl, ?_⟩
    refine (disable_follows (swap16_follows (enable_follows fun _ => ?_).bind).bind).bind
    exact ⟨⟨false, pins⟩, rfl, hf _⟩

end Functions

theorem program_follows (k : Call) : Follows advance final ⟨false, 0⟩ k.program := by
  cases k with
  | copy source target size => exact copy_follows fun _ => rfl
  | swap a b size => exact swap_follows fun _ => rfl
  | fill memory byte size => exact fill_follows fun _ => rfl
  | lock ps4PayloadLock function bits => exact lock_follows fun _ => rfl
  | unlock function bits => exact unlock_follows fun _ => rfl

theorem stores_inside {t : Stage} {p : Prog Code} (h : Follows advance final t p) (hs : Stores p) :
    t.inside = true := by
  cases p with
  | done r => exact hs.elim
  | statement a next =>
    cases a with
    | store a bytes =>
      obtain ⟨t', ht, -⟩ := h ()
      by_contra hn
      simp [advance, hn] at ht
    | xchg a bytes =>
      obtain ⟨t', ht, -⟩ := h []
      by_contra hn
      simp [advance, hn] at ht
    | rcr0 => exact hs.elim
    | loadCr0 v => exact hs.elim
    | load a n => exact hs.elim
    | schedPin => exact hs.elim
    | schedUnpin => exact hs.elim

structure Effect (i : ℕ) (a : Statement) (s : Processors) (t : Stage) (s' : Processors)
    (t' : Stage) : Prop where
  cpu : s'.cpu = s.cpu
  others : ∀ j, j ≠ i → s'.pinned j = s.pinned j
  pinned : ∀ n, s.pinned i = n + t.pins → s'.pinned i = n + t'.pins
  cr0 : s'.cr0 = s.cr0 ∧ t'.inside = t.inside ∨
    ∃ v, a = .loadCr0 v ∧ wp v = t.inside ∧ t'.inside = !t.inside ∧
    s'.cr0 = Function.update s.cr0 (s.cpu i) v

theorem advance_inside {a : Statement} {answer : Answer a} {t t' : Stage} (ha : ∀ v, a ≠ .loadCr0 v)
    (ht : advance t a answer = some t') : t'.inside = t.inside := by
  cases a with
  | loadCr0 v => exact absurd rfl (ha v)
  | rcr0 | load | schedPin =>
    rw [← Option.some.inj ht]
  | store | xchg | schedUnpin =>
    rw [advance] at ht
    split_ifs at ht
    rw [← Option.some.inj ht]

theorem execute_effect {i : ℕ} {a : Statement} {s s' : Processors} {answer : Answer a}
    {t t' : Stage} (hs : execute i a s = some (answer, s')) (ht : advance t a answer = some t') :
    Effect i a s t s' t' := by
  obtain rfl : s' = ((execute i a s).map Prod.snd).getD s := by rw [hs]; rfl
  have hsame : ∀ {b : Statement}, (∀ v, b ≠ .loadCr0 v) →
    ∀ {answer : Answer b}, advance t b answer = some t' →
      t'.inside = t.inside := fun hb _ ht => advance_inside hb ht
  cases a with
  | rcr0 | load =>
    have h := Option.some.inj ht
    exact ⟨rfl, fun _ _ => rfl, fun _ hn => h ▸ hn, .inl ⟨rfl, hsame (by simp) ht⟩⟩
  | store | xchg =>
    have hinside := hsame (by simp) ht
    rw [advance] at ht
    split_ifs at ht
    have h := Option.some.inj ht
    exact ⟨rfl, fun _ _ => rfl, fun _ hn => h ▸ hn, .inl ⟨rfl, hinside⟩⟩
  | loadCr0 v =>
    rw [advance] at ht
    split_ifs at ht with hv
    have h := Option.some.inj ht
    exact ⟨rfl, fun _ _ => rfl, fun _ hn => h ▸ hn, .inr ⟨v, rfl, hv, by rw [← h], rfl⟩⟩
  | schedPin =>
    have h := Option.some.inj ht
    refine ⟨rfl, fun _ hj => Function.update_of_ne hj .., fun n hn => ?_,
      .inl ⟨rfl, hsame (by simp) ht⟩⟩
    change Function.update s.pinned i (s.pinned i + 1) i = _
    rw [Function.update_self, hn, ← h]
    rfl
  | schedUnpin =>
    have hinside := hsame (by simp) ht
    rw [advance] at ht
    split_ifs at ht with hpins
    have h := Option.some.inj ht
    refine ⟨rfl, fun _ hj => Function.update_of_ne hj .., fun n hn => ?_, .inl ⟨rfl, hinside⟩⟩
    change Function.update s.pinned i (s.pinned i - 1) i = _
    rw [Function.update_self, hn, ← h]
    change n + t.pins - 1 = n + (t.pins - 1)
    omega

private theorem answer_nonempty (a : Statement) : Nonempty (Answer a) := by
  cases a with
  | rcr0 => exact ⟨0#64⟩
  | load | xchg => exact ⟨[]⟩
  | loadCr0 | store | schedPin | schedUnpin => exact ⟨()⟩

private theorem inSection_statement {a : Statement} {next : Answer a → Prog Code}
    (ha : ∀ v, a ≠ .loadCr0 v) :
    InSection (.statement a next) ↔ ∃ answer, InSection (next answer) := by
  cases a with
  | loadCr0 v => exact absurd rfl (ha v)
  | rcr0 | load | store | xchg | schedPin | schedUnpin => exact Iff.rfl

theorem inSection_iff {t : Stage} {p : Prog Code} (h : Follows advance final t p) :
    InSection p ↔ t.inside = true := by
  induction p generalizing t with
  | done r =>
    rw [show t = ⟨false, 0⟩ from h]
    exact iff_of_false id Bool.false_ne_true
  | statement a next ih =>
    by_cases ha : ∃ v, a = .loadCr0 v
    · obtain ⟨v, rfl⟩ := ha
      obtain ⟨t', ht, -⟩ := h ()
      have hv : wp v = t.inside := by
        by_contra hne
        simp [advance, hne] at ht
      rw [← hv]
      exact Iff.rfl
    · have ha : ∀ v, a ≠ .loadCr0 v := fun v hv => ha ⟨v, hv⟩
      rw [inSection_statement ha]
      constructor
      · rintro ⟨answer, hin⟩
        obtain ⟨t', ht, hnext⟩ := h answer
        rw [← advance_inside ha ht]
        exact (ih answer hnext).mp hin
      · intro hinside
        obtain ⟨answer⟩ := answer_nonempty a
        obtain ⟨t', ht, hnext⟩ := h answer
        exact ⟨answer, (ih answer hnext).mpr ((advance_inside ha ht).trans hinside)⟩

/-! ### Whole runs -/

structure Inv (s : Processors) (stage : ℕ → Stage) (c : System) : Prop where
  stages : AtStages advance final stage c
  unprotected : ∀ i, (stage i).inside = true → wp (c.shared.cr0 (c.shared.cpu i)) = false
  alone : ∀ i j, (stage i).inside = true → (stage j).inside = true →
    c.shared.cpu i = c.shared.cpu j → i = j
  restored : ∀ cpu, (∀ i, (stage i).inside = true → c.shared.cpu i ≠ cpu) →
    wp (c.shared.cr0 cpu) = wp (s.cr0 cpu)
  pinned : ∀ i, c.shared.pinned i = s.pinned i + (stage i).pins
  places : ∀ i, s.cpu i = c.shared.cpu i ∨ s.pinned i = 0

def Protected (s : Processors) : Prop := ∀ i cpu, s.cpu i = cpu ∨ s.pinned i = 0 →
    wp (s.cr0 cpu) = true

variable {s : Processors} {stage : ℕ → Stage} {c c' : System}

theorem start_inv (s : Processors) : Inv s (fun _ => ⟨false, 0⟩) (start s) where
  stages _ := rfl
  unprotected _ h := by cases h
  alone _ _ h := by cases h
  restored _ _ := rfl
  pinned _ := rfl
  places _ := .inl rfl

theorem Inv.good (h : Inv s stage c) : Good s c := by
  refine ⟨fun i hi => h.unprotected i (stores_inside (h.stages i) hi), fun hidle cpu => ?_⟩
  refine h.restored cpu fun i hi => ?_
  obtain ⟨r, hr⟩ := hidle i
  have hout : stage i = ⟨false, 0⟩ := h.stages.result hr
  rw [hout] at hi
  cases hi

theorem inside_update {i j : ℕ} {t : Stage} (h : (Function.update stage i t j).inside = true) :
    j = i ∧ t.inside = true ∨ j ≠ i ∧ (stage j).inside = true := by
  by_cases hj : j = i
  · subst hj
    rw [Function.update_self] at h
    exact .inl ⟨rfl, h⟩
  · rw [Function.update_of_ne hj] at h
    exact .inr ⟨hj, h⟩

theorem Inv.call (h : Inv s stage c) {i : ℕ} {r : Code} (hidle : c.program i = .done r) (k : Call) :
    Inv s stage ⟨c.shared, Function.update c.program i k.program⟩ := by
  have hout : stage i = ⟨false, 0⟩ := h.stages.result hidle
  have hstages := h.stages.update (i := i) (s := c.shared) (program_follows k)
  rw [← hout, Function.update_eq_self] at hstages
  exact ⟨hstages, h.unprotected, h.alone, h.restored, h.pinned, h.places⟩

theorem Inv.move (h : Inv s stage c) {i cpu : ℕ} (hpinned : c.shared.pinned i = 0)
    (hout : (stage i).inside = false) :
    Inv s stage ⟨{ c.shared with cpu := Function.update c.shared.cpu i cpu }, c.program⟩ := by
  have hcpu : ∀ j, (stage j).inside = true →
      Function.update c.shared.cpu i cpu j = c.shared.cpu j := by
    intro j hj
    refine Function.update_of_ne (fun hji => ?_) ..
    rw [hji, hout] at hj
    cases hj
  refine ⟨h.stages, fun j hj => ?_, fun j k hj hk he => ?_, fun cpu' hcpu' => ?_,
    h.pinned, fun j => ?_⟩
  · change wp (c.shared.cr0 (Function.update c.shared.cpu i cpu j)) = false
    rw [hcpu j hj]
    exact h.unprotected j hj
  · change Function.update c.shared.cpu i cpu j = Function.update c.shared.cpu i cpu k at he
    rw [hcpu j hj, hcpu k hk] at he
    exact h.alone j k hj hk he
  · exact h.restored cpu' fun j hj he => hcpu' j hj ((hcpu j hj).trans he)
  · by_cases hj : j = i
    · subst hj
      have hzero := h.pinned j
      exact .inr (by omega)
    · change s.cpu j = Function.update c.shared.cpu i cpu j ∨ _
      rw [Function.update_of_ne hj]
      exact h.places j

section Performing

variable {i : ℕ} {a : Statement} {t : Stage} {v : Word}
  (h : Inv s stage c) (hstages : AtStages advance final (Function.update stage i t) c')
  (he : Effect i a c.shared (stage i) c'.shared t)

include h he

theorem Inv.pinned_effect (j : ℕ) :
    c'.shared.pinned j = s.pinned j + (Function.update stage i t j).pins := by
  by_cases hj : j = i
  · subst hj
    rw [Function.update_self]
    exact he.pinned _ (h.pinned j)
  · rw [Function.update_of_ne hj, he.others j hj]
    exact h.pinned j

private theorem Inv.places_effect (j : ℕ) : s.cpu j = c'.shared.cpu j ∨ s.pinned j = 0 := by
  rw [he.cpu]
  exact h.places j

include hstages

/-- The statement does not load the control register. -/
theorem Inv.keeps (hcr0 : c'.shared.cr0 = c.shared.cr0) (hinside : t.inside = (stage i).inside) :
    Inv s (Function.update stage i t) c' := by
  have hsame : ∀ j, (Function.update stage i t j).inside = (stage j).inside := by
    intro j
    by_cases hj : j = i
    · subst hj
      rw [Function.update_self, hinside]
    · rw [Function.update_of_ne hj]
  refine ⟨hstages, fun j => ?_, fun j k => ?_, fun cpu => ?_, h.pinned_effect he,
    h.places_effect he⟩
  · rw [hsame, hcr0, he.cpu]
    exact h.unprotected j
  · rw [hsame, hsame, he.cpu]
    exact h.alone j k
  · simp only [hsame]
    rw [hcr0, he.cpu]
    exact h.restored cpu

/-- The thread clears the bit where no other thread has. -/
theorem Inv.clears (hcr0 : c'.shared.cr0 = Function.update c.shared.cr0 (c.shared.cpu i) v)
    (hv : wp v = false) (hbefore : (stage i).inside = false) (hafter : t.inside = true)
    (hothers : ∀ j, j ≠ i → (stage j).inside = true → c.shared.cpu j ≠ c.shared.cpu i) :
    Inv s (Function.update stage i t) c' := by
  refine ⟨hstages, fun j hj => ?_, fun j k hj hk hcpu => ?_, fun cpu hcpu => ?_, h.pinned_effect he,
    h.places_effect he⟩
  · rw [hcr0, he.cpu]
    rcases inside_update hj with ⟨rfl, -⟩ | ⟨hji, hj⟩
    · rw [Function.update_self]
      exact hv
    · rw [Function.update_of_ne (hothers j hji hj)]
      exact h.unprotected j hj
  · rw [he.cpu] at hcpu
    rcases inside_update hj with ⟨hji, -⟩ | ⟨hji, hj'⟩ <;> rcases inside_update hk
      with ⟨hki, -⟩ | ⟨hki, hk'⟩
    · rw [hji, hki]
    · rw [hji] at hcpu
      exact absurd hcpu.symm (hothers k hki hk')
    · rw [hki] at hcpu
      exact absurd hcpu (hothers j hji hj')
    · exact h.alone j k hj' hk' hcpu
  · rw [he.cpu] at hcpu
    have hi : c.shared.cpu i ≠ cpu := hcpu i (by rwa [Function.update_self])
    rw [hcr0, Function.update_of_ne hi.symm]
    refine h.restored cpu fun j hj => hcpu j ?_
    have hji : j ≠ i := by
      rintro rfl
      rw [hbefore] at hj
      cases hj
    rwa [Function.update_of_ne hji]

theorem Inv.sets (hs : Protected s) (hcr0 : c'.shared.cr0 =
    Function.update c.shared.cr0 (c.shared.cpu i) v) (hv : wp v = true)
      (hbefore : (stage i).inside = true) (hafter : t.inside = false) :
    Inv s (Function.update stage i t) c' := by
  have hother : ∀ j, (Function.update stage i t j).inside = true → j ≠ i ∧
      (stage j).inside = true := by
    intro j hj
    rcases inside_update hj with ⟨-, hj⟩ | hj
    · rw [hafter] at hj
      cases hj
    · exact hj
  refine ⟨hstages, fun j hj => ?_, fun j k hj hk hcpu => ?_, fun cpu hcpu => ?_, h.pinned_effect he,
    h.places_effect he⟩
  · obtain ⟨hji, hj⟩ := hother j hj
    rw [hcr0, he.cpu, Function.update_of_ne fun hcpu => hji (h.alone j i hj hbefore hcpu)]
    exact h.unprotected j hj
  · rw [he.cpu] at hcpu
    exact h.alone j k (hother j hj).2 (hother k hk).2 hcpu
  · rw [he.cpu] at hcpu
    by_cases hi : cpu = c.shared.cpu i
    · subst hi
      rw [hcr0, Function.update_self, hv]
      exact (hs i _ (h.places i)).symm
    · rw [hcr0, Function.update_of_ne hi]
      refine h.restored cpu fun j hj => ?_
      by_cases hji : j = i
      · subst hji
        exact fun he => hi he.symm
      · exact hcpu j (by rwa [Function.update_of_ne hji])

end Performing

theorem Inv.step (hs : Protected s) (h : Inv s stage c) {a : Action}
    (hstep : Guarded Careful Acts c a c') :
    ∃ stage, Inv s stage c' := by
  obtain ⟨hcareful, hstep⟩ := hstep
  cases hstep with
  | move cpu unpinned =>
    refine ⟨stage, h.move unpinned ?_⟩
    exact Bool.eq_false_iff.mpr fun hin => hcareful ((inSection_iff (h.stages _)).mpr hin)
  | serve hserve =>
    cases hserve with
    | call hidle => exact ⟨stage, h.call hidle _⟩
    | @perform _ i hperform =>
      obtain ⟨a, next, answer, t, hprogram, hexecute, hadvance, hstages⟩ :=
        h.stages.perform hperform
      have he := execute_effect hexecute hadvance
      refine ⟨Function.update stage i t, ?_⟩
      rcases he.cr0 with ⟨hcr0, hinside⟩ | ⟨v, rfl, hv, hinside, hcr0⟩
      · exact h.keeps hstages he hcr0 hinside
      · cases hw : wp v with
        | true =>
          rw [hw] at hv
          rw [← hv] at hinside
          exact h.sets hstages he hs hcr0 hw hv.symm hinside
        | false =>
          rw [hw] at hv
          rw [← hv] at hinside
          refine h.clears hstages he hcr0 hw hv.symm hinside fun j hji hj hcpu => ?_
          exact hcareful v next hprogram hw j hji hcpu ((inSection_iff (h.stages j)).mpr hj)

private theorem protectedRun_good (hs : Protected s) {as : List Action}
    (h : Run (Guarded Careful Acts) (start s) as c) :
    Good s c := by
  obtain ⟨stage, hinv⟩ := h.invariant_exists (fun _ _ _ _ h hstep => h.step hs hstep) (start_inv s)
  exact hinv.good

theorem fill_alone (i : ℕ) (s : Processors) : ∃ s',
    run (execute i) (ps4KernelMemoryFill 1 0 0) s = some (ps4Ok, s') ∧
    wp (s'.cr0 (s.cpu i)) = true := by
  let cleared := Function.update s.cr0 (s.cpu i) (s.cr0 (s.cpu i) &&& ~~~cr0Wp)
  refine ⟨{ s with cr0 := Function.update cleared (s.cpu i) (cleared (s.cpu i) ||| cr0Wp) }, rfl,
    ?_⟩
  change wp (Function.update cleared (s.cpu i) (cleared (s.cpu i) ||| cr0Wp) (s.cpu i)) = true
  rw [Function.update_self]
  exact wp_or _

/-- Careful threads do what is asked of them exactly if the processors on which they can run had
write protection. -/
theorem writeProtection_good_iff (s : Processors) :
    (∀ as c, Run (Guarded Careful Acts) (start s) as c → Good s c) ↔ Protected s := by
  refine ⟨fun h i cpu hcpu => ?_, fun hs as c hrun => protectedRun_good hs hrun⟩
  have hrest : ∀ s' as, s'.cpu i = cpu → s'.cr0 = s.cr0 →
    Run (Guarded Careful Acts) (start s) as (start s') →
      wp (s.cr0 cpu) = true := by
    intro s' as hat hcr0 hbefore
    obtain ⟨s'', hrun, hwp⟩ := fill_alone i s'
    have hcall : Guarded Careful Acts (start s') (.serve (.call i (.fill 1 0 0)))
        ⟨s', Function.update (start s').program i (ps4KernelMemoryFill 1 0 0)⟩ :=
          ⟨trivial, .serve (.call rfl)⟩
    have hallowed : ∀ p s'',
        Careful ⟨s'', Function.update (start s').program i p⟩ (.serve (.perform i)) := by
      intro p s'' v next _ _ j hj _ hin
      change InSection (Function.update (start s').program i p j) at hin
      rw [Function.update_of_ne hj] at hin
      exact hin
    obtain ⟨es, halone⟩ :=
      run_alone Call.program execute (fun c e => Careful c (.serve e)) i _ hrun hallowed
    have hmapped : Run (Guarded Careful Acts) _ (es.map .serve) _ :=
      halone.map Action.serve fun _ _ _ hg => ⟨hg.1, .serve hg.2⟩
    have hgood := h _ _ (hbefore.trans (.cons hcall hmapped))
    rw [← hat, ← hwp]
    have hidle : Idle (start s') := fun _ => ⟨ps4Ok, rfl⟩
    exact (hgood.2 (hidle.update s'' i ps4Ok) _).symm
  rcases hcpu with hcpu | hcpu
  · exact hrest s [] hcpu rfl (.nil _)
  · have hmove : Guarded Careful Acts (start s) (.move i cpu)
        (start { s with cpu := Function.update s.cpu i cpu }) :=
          ⟨fun hin => hin.elim, .move cpu hcpu⟩
    exact hrest { s with cpu := Function.update s.cpu i cpu } _
      (Function.update_self ..) rfl (.single hmove)

/-! ### Threads that are not careful -/

theorem moved_stores {i cpu : ℕ} (hi : Stores (c.program i)) (hpinned : c.shared.pinned i = 0)
    (hcpu : wp (c.shared.cr0 cpu) = true) :
    ∃ c', Acts c (.move i cpu) c' ∧ Stores (c'.program i) ∧
      wp (c'.shared.cr0 (c'.shared.cpu i)) = true := by
  refine ⟨_, .move cpu hpinned, hi, ?_⟩
  change wp (c.shared.cr0 (Function.update c.shared.cpu i cpu i)) = true
  rwa [Function.update_self]

/-- A thread that is about to store, pinned or not, finds write protection if another one has set
the bit of the processor meanwhile. -/
theorem interrupted_stores {i j : ℕ} {v : Word} {next : Unit → Prog Code}
    (hi : Stores (c.program i)) (hj : c.program j = .statement (.loadCr0 v) next)
    (hv : wp v = true) (hcpu : c.shared.cpu i = c.shared.cpu j) :
    ∃ c', Acts c (.serve (.perform j)) c' ∧ Stores (c'.program i) ∧
      wp (c'.shared.cr0 (c'.shared.cpu i)) = true := by
  have hij : i ≠ j := by
    rintro rfl
    rw [hj] at hi
    exact hi
  have hstep : Step execute c j
      ⟨{ c.shared with cr0 := Function.update c.shared.cr0 (c.shared.cpu j) v },
        Function.update c.program j (next ())⟩ := .statement hj rfl
  refine ⟨_, .serve (.perform hstep), ?_, ?_⟩
  · change Stores (Function.update c.program j (next ()) i)
    rwa [Function.update_of_ne hij]
  · change wp (Function.update c.shared.cr0 (c.shared.cpu j) v (c.shared.cpu i)) = true
    rwa [hcpu, Function.update_self]

section Example

def protectedProcessors : Processors := ⟨fun _ => 0x80010033, fun _ => 0, fun _ => 0, fun _ => 0⟩

/-- A thread that fills a byte is moved to the next processor before it stores. The store finds
write protection, and the processor that it leaves has none when the call has returned. -/
theorem movedFill_not_restored : ∃ c c' : System,
    Run Acts (start protectedProcessors) [.serve (.call 0 (.fill 0xffffffff82000000 0x90 1)),
      .serve (.perform 0), .serve (.perform 0), .move 0 1] c ∧
    Stores (c.program 0) ∧ wp (c.shared.cr0 (c.shared.cpu 0)) = true ∧
    Run Acts c [.serve (.perform 0), .serve (.perform 0), .serve (.perform 0)] c' ∧ Idle c' ∧
    wp (c'.shared.cr0 0) = false ∧ wp (protectedProcessors.cr0 0) = true := by
  have hserve : ∀ {c c' : System} {e : Event Call}, serve Call.program execute c e = some c' →
      Acts c (.serve e) c' := fun h => .serve (serve_serves h)
  refine ⟨_, _, .cons (hserve rfl) (.cons (hserve rfl)
    (.cons (hserve rfl) (.single (.move 1 rfl)))), trivial, rfl,
    .cons (hserve rfl) (.cons (hserve rfl) (.single (hserve rfl))), fun i => ?_, rfl, rfl⟩
  match i with
  | 0 => exact ⟨_, rfl⟩
  | _ + 1 => exact ⟨_, rfl⟩

end Example

end Ps4Sdk.WriteProtection
