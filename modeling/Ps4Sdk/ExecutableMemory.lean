import Ps4Sdk.KernelBase
import Ps4Sdk.ProgramStages
import Mathlib.Tactic.Common

/-!
# Allocation of executable memory, `kernel/memory.c` and `kernel/protection.c`

The kernel maps memory executable while the word behind its symbol `pg_nx` is zero. An
allocation clears the word, allocates, and sets the word again; there is one word for all
threads, and no lock. The kernel may sleep before it maps the memory.
-/

namespace Ps4Sdk.ExecutableMemory
open StepRuns InterleavedPrograms ProgramStages

abbrev Word := BitVec 64

/-- The kernel symbols `pg_nx` and `M_TEMP`. -/
structure Symbols where
  pgNx : Word
  mTemp : Word
  present : pgNx ≠ 0#64

/-- The two static pointers, the word behind `pg_nx`, and the number of blocks that were mapped. -/
structure Kernel (y : Symbols) where
  ps4KernelMemoryType : Word
  pointer : Word
  word : Word
  mapped : ℕ

structure Block where
  number : ℕ
  size : Word
  type : Word
  executable : Bool
  deriving DecidableEq

inductive Statement
  | readType
  | resolveType
  | readPointer
  | resolvePointer
  | store (value : Word)
  | malloc (size : Word)

def Answer : Statement → Type
  | .readType | .readPointer => Word
  | .resolveType | .resolvePointer | .store _ => Unit
  | .malloc .. => Block

/-- A store through the null pointer is a fault. -/
def execute {y : Symbols} : (a : Statement) → Kernel y → Option (Answer a × Kernel y)
  | .readType, s => some (s.ps4KernelMemoryType, s)
  | .resolveType, s => some ((), { s with ps4KernelMemoryType := y.mTemp })
  | .readPointer, s => some (s.pointer, s)
  | .resolvePointer, s => some ((), { s with pointer := y.pgNx })
  | .store value, s => if s.pointer = 0#64 then none else some ((), { s with word := value })
  | .malloc size, s =>
    some (⟨s.mapped, size, s.ps4KernelMemoryType, s.word = 0#64⟩, { s with mapped := s.mapped + 1 })

def noExecute : Word := 1 <<< 63

abbrev Prog := Program Answer

def readType : Prog Word := perform Statement.readType
def resolveType : Prog Unit := perform Statement.resolveType
def readPointer : Prog Word := perform Statement.readPointer
def resolvePointer : Prog Unit := perform Statement.resolvePointer
def store (value : Word) : Prog Unit := perform (Statement.store value)
def malloc (size : Word) : Prog Block := perform (Statement.malloc size)

def storeWord (value : Word) : Prog Unit := do
  let pointer ← readPointer
  if pointer = 0#64 then resolvePointer
  store value

def ps4KernelProtectionExecuteDisable : Prog Unit := storeWord 0#64

def ps4KernelProtectionExecuteEnable : Prog Unit := storeWord noExecute

def ps4KernelMemoryInitialize : Prog Code := do
  resolveType
  return ps4Ok

/-- `malloc` is called with `M_WAITOK`: it waits when there is no memory and never returns null. -/
def ps4KernelMemoryAllocate (memory : Bool) (size : Word) : Prog (Code × Option Block) := do
  if memory = false then return (ps4ErrorArgumentPrimaryMissing, none)
  if size = 0#64 then return (ps4ErrorArgumentSizeNull, none)
  let size := if size ≤ 0x4000#64 then 0x4001#64 else size
  if (← readType) = 0#64 then let _ ← ps4KernelMemoryInitialize
  ps4KernelProtectionExecuteDisable
  let block ← malloc size
  ps4KernelProtectionExecuteEnable
  return (ps4Ok, some block)

/-- The arguments of a call. -/
structure Call where
  memory : Bool
  size : Word

abbrev System (y : Symbols) := Threads Answer (Kernel y) (Code × Option Block)

def Call.program (k : Call) : Prog (Code × Option Block) := ps4KernelMemoryAllocate k.memory k.size

/-- Any threads call the allocation, in any interleaving of their statements. -/
def allocates {y : Symbols} : System y → Event Call → System y → Prop :=
  Serves Call.program (fun _ => execute)

def start {y : Symbols} (s : Kernel y) : System y := ⟨s, fun _ => .done (ps4NotOk, none)⟩

/-- The blocks that were returned are executable, and with no call in progress the word has its
value from before. -/
def Good {y : Symbols} (before : Word) (c : System y) : Prop :=
  (∀ i code block, c.program i = .done (code, some block) → block.executable = true) ∧
    (Idle c → c.shared.word = before)

def Unmapped {α : Type} (p : Prog α) : Prop := ∃ size next, p = .statement (.malloc size) next

/-- The word is only set again when no other thread is about to map memory. -/
def Careful {y : Symbols} (c : System y) : Event Call → Prop
  | .call .. => True
  | .perform i => ∀ value next, c.program i = .statement (.store value) next → value ≠ 0#64 →
      ∀ j, j ≠ i → ¬Unmapped (c.program j)

/-! ### The stages of an allocation -/

inductive Stage
  | outside
  | cleared
  | mapped (block : Block)
  | restored (block : Block)

def advance : Stage → (a : Statement) → Answer a → Option Stage
  | .outside, .store value, _ => if value = 0#64 then some .cleared else none
  | .outside, .malloc _, _ => none
  | .outside, _, _ => some .outside
  | .cleared, .malloc _, block => some (.mapped block)
  | .cleared, _, _ => none
  | .mapped block, .store value, _ => if value = noExecute then some (.restored block) else none
  | .mapped block, .readPointer, _ => some (.mapped block)
  | .mapped block, .resolvePointer, _ => some (.mapped block)
  | .mapped _, _, _ => none
  | .restored _, _, _ => none

def final : Stage → Code × Option Block → Prop
  | .outside, r => r.2 = none
  | .restored block, r => r.2 = some block
  | .cleared, _ | .mapped _, _ => False

theorem storeWord_follows {t t' : Stage} {value : Word} {f : Stage → Unit → Prop}
    (hpointer : ∀ w, advance t .readPointer w = some t)
    (hresolve : ∀ w, advance t .resolvePointer w = some t)
    (hstore : ∀ w, advance t (.store value) w = some t') (hf : f t' ()) :
    Follows advance f t (storeWord value) := by
  have hrest : Follows advance f t (store value) := fun w => ⟨t', hstore w, hf⟩
  intro (pointer : Word)
  refine ⟨t, hpointer pointer, ?_⟩
  change Follows advance f t (if pointer = 0#64 then _ else _)
  split_ifs
  · exact fun w => ⟨t, hresolve w, hrest⟩
  · exact hrest

theorem disable_follows {f : Stage → Unit → Prop} (hf : f .cleared ()) :
    Follows advance f .outside ps4KernelProtectionExecuteDisable :=
  storeWord_follows (fun _ => rfl) (fun _ => rfl) (fun _ => rfl) hf

theorem enable_follows {f : Stage → Unit → Prop} {block : Block} (hf : f (.restored block) ()) :
    Follows advance f (.mapped block) ps4KernelProtectionExecuteEnable :=
  storeWord_follows (fun _ => rfl) (fun _ => rfl) (fun _ => by simp [advance]) hf

theorem allocate_follows (k : Call) : Follows advance final .outside k.program := by
  rw [Call.program, ps4KernelMemoryAllocate]
  by_cases h₁ : k.memory = false
  · rw [if_pos h₁]
    rfl
  by_cases h₂ : k.size = 0#64
  · rw [if_neg h₁, if_pos h₂]
    rfl
  · rw [if_neg h₁, if_neg h₂]
    have hrest : ∀ size, Follows advance final .outside (do
        ps4KernelProtectionExecuteDisable
        let block ← malloc size
        ps4KernelProtectionExecuteEnable
        return (ps4Ok, some block)) :=
      fun size => (disable_follows fun block => ⟨.mapped block, rfl,
        (enable_follows rfl).bind⟩).bind
    intro (type : Word)
    refine ⟨.outside, rfl, ?_⟩
    by_cases h : type = 0#64
    · change Follows advance final .outside (if type = 0#64 then _ else _)
      rw [if_pos h]
      exact fun w => ⟨.outside, rfl, hrest _⟩
    · change Follows advance final .outside (if type = 0#64 then _ else _)
      rw [if_neg h]
      exact hrest _

theorem unmapped_iff {t : Stage} {p : Prog (Code × Option Block)} (h : Follows advance final t p) :
    Unmapped p ↔ t = .cleared := by
  constructor
  · rintro ⟨size, next, rfl⟩
    obtain ⟨t', ht, -⟩ := h ⟨0, 0, 0, false⟩
    cases t with
    | cleared => rfl
    | outside => cases ht
    | mapped block => cases ht
    | restored block => cases ht
  · rintro rfl
    cases p with
    | done r => exact h.elim
    | statement a next =>
      cases a with
      | malloc size => exact ⟨size, next, rfl⟩
      | readType =>
        obtain ⟨t', ht, -⟩ := h 0#64
        cases ht
      | readPointer =>
        obtain ⟨t', ht, -⟩ := h 0#64
        cases ht
      | resolveType =>
        obtain ⟨t', ht, -⟩ := h ()
        cases ht
      | resolvePointer =>
        obtain ⟨t', ht, -⟩ := h ()
        cases ht
      | store value =>
        obtain ⟨t', ht, -⟩ := h ()
        cases ht

inductive Change (a : Statement) (word : Word) : Stage → Word → Stage → Prop
  | same (t : Stage) : Change a word t word t
  | clears : Change a word .outside 0 .cleared
  | maps (block : Block) (h : block.executable = decide (word = 0#64)) :
      Change a word .cleared word (.mapped block)
  | restores (block : Block) (h : a = .store noExecute) :
      Change a word (.mapped block) noExecute (.restored block)

/-- Only a store and the allocation move a thread to another stage. -/
theorem advance_eq {a : Statement} {answer : Answer a} {t t' : Stage}
    (hstore : ∀ value, a ≠ .store value) (hmalloc : ∀ size, a ≠ .malloc size)
    (h : advance t a answer = some t') : t' = t := by
  cases a with
  | store value => exact absurd rfl (hstore value)
  | malloc size => exact absurd rfl (hmalloc size)
  | readType | resolveType =>
    cases t with
    | outside => exact (Option.some.inj h).symm
    | cleared | mapped block | restored block => cases h
  | readPointer | resolvePointer =>
    cases t with
    | outside | mapped block => exact (Option.some.inj h).symm
    | cleared | restored block => cases h

theorem execute_change {y : Symbols} {a : Statement} {s s' : Kernel y} {answer : Answer a}
    {t t' : Stage} (hs : execute a s = some (answer, s')) (ht : advance t a answer = some t') :
    Change a s.word t s'.word t' := by
  cases a with
  | readType | resolveType | readPointer | resolvePointer =>
    obtain rfl := (Prod.mk.inj (Option.some.inj hs)).2
    obtain rfl := advance_eq (by simp) (by simp) ht
    exact .same _
  | store value =>
    rw [execute] at hs
    split_ifs at hs
    obtain rfl := (Prod.mk.inj (Option.some.inj hs)).2
    cases t with
    | outside =>
      rw [advance] at ht
      split_ifs at ht with h
      obtain rfl := Option.some.inj ht
      rw [h]
      exact .clears
    | mapped block =>
      rw [advance] at ht
      split_ifs at ht with h
      obtain rfl := Option.some.inj ht
      rw [h]
      exact .restores block rfl
    | cleared => cases ht
    | restored block => cases ht
  | malloc size =>
    obtain ⟨rfl, rfl⟩ := Prod.mk.inj (Option.some.inj hs)
    cases t with
    | cleared =>
      obtain rfl := Option.some.inj ht
      exact .maps _ rfl
    | outside => cases ht
    | mapped block => cases ht
    | restored block => cases ht

/-! ### Whole runs -/

/-- The stages at which no call is in progress. -/
def Stage.Quiet : Stage → Prop
  | .outside | .restored _ => True
  | .cleared | .mapped _ => False

theorem final_quiet {t : Stage} {r : Code × Option Block} (h : final t r) : t.Quiet := by
  cases t with
  | outside => trivial
  | restored block => trivial
  | cleared => exact h
  | mapped block => exact h

structure Inv {y : Symbols} (stage : ℕ → Stage) (c : System y) : Prop where
  stages : AtStages advance final stage c
  cleared : ∀ i, stage i = .cleared → c.shared.word = 0#64
  executable : ∀ i block, stage i = .mapped block ∨ stage i = .restored block →
    block.executable = true
  restored : (∀ i, (stage i).Quiet) → c.shared.word = noExecute

theorem Inv.good {y : Symbols} {stage : ℕ → Stage} {c : System y} (h : Inv stage c) :
    Good noExecute c := by
  refine ⟨fun i code block hi => ?_, fun hidle => h.restored fun i => ?_⟩
  · have hf := h.stages.result hi
    cases ht : stage i with
    | outside => simp [ht, final] at hf
    | cleared => simp [ht, final] at hf
    | mapped block => simp [ht, final] at hf
    | restored block' =>
      rw [ht] at hf
      obtain rfl := Option.some.inj hf
      exact h.executable i _ (.inr ht)
  · obtain ⟨r, hr⟩ := hidle i
    exact final_quiet (h.stages.result hr)

private theorem update_eq_iff {stage : ℕ → Stage} {i j : ℕ} {t u : Stage} :
    Function.update stage i t j = u ↔ j = i ∧ t = u ∨ j ≠ i ∧ stage j = u := by
  by_cases hj : j = i
  · subst hj
    simp
  · simp [hj]

theorem Inv.executable_update {y : Symbols} {stage : ℕ → Stage} {c : System y} (h : Inv stage c)
    (i : ℕ) {t : Stage} (ht : ∀ block, t = .mapped block ∨ t = .restored block →
      block.executable = true) (j : ℕ) (block : Block)
    (hj : Function.update stage i t j = .mapped block ∨
      Function.update stage i t j = .restored block) :
    block.executable = true := by
  by_cases hji : j = i
  · rw [hji, Function.update_self] at hj
    exact ht block hj
  · rw [Function.update_of_ne hji] at hj
    exact h.executable j block hj

private theorem not_quiet_update {stage : ℕ → Stage} {i : ℕ} {t : Stage} (ht : ¬t.Quiet) :
    ¬∀ j, (Function.update stage i t j).Quiet := by
  intro hq
  have hqi := hq i
  rw [Function.update_self] at hqi
  exact ht hqi

/-- A statement that does not restore the word, or does so when no other thread is about to map. -/
theorem Inv.change {y : Symbols} {stage : ℕ → Stage} {c c' : System y} {i : ℕ} {a : Statement}
    {t : Stage} (h : Inv stage c) (hstages : AtStages advance final (Function.update stage i t) c')
    (hchange : Change a c.shared.word (stage i) c'.shared.word t)
    (hcareful : a = .store noExecute → ∀ j, j ≠ i → stage j ≠ .cleared) :
    Inv (Function.update stage i t) c' := by
  generalize hi : stage i = t₀ at hchange
  generalize hw : c'.shared.word = w at hchange
  cases hchange with
  | same =>
    have hsame : Function.update stage i t = stage := by rw [← hi, Function.update_eq_self]
    rw [hsame] at hstages ⊢
    exact ⟨hstages, fun j hj => hw.trans (h.cleared j hj), h.executable,
      fun hq => hw.trans (h.restored hq)⟩
  | clears =>
    refine ⟨hstages, fun _ _ => hw, h.executable_update i fun block hb => ?_,
      fun hq => absurd hq (not_quiet_update id)⟩
    simp at hb
  | maps block hexecutable =>
    have hword := h.cleared i hi
    refine ⟨hstages, fun _ _ => hw.trans hword, h.executable_update i fun block' hb => ?_,
      fun hq => absurd hq (not_quiet_update id)⟩
    simp only [Stage.mapped.injEq, reduceCtorEq, or_false] at hb
    rw [← hb, hexecutable, hword]
    rfl
  | restores block ha =>
    refine ⟨hstages, fun j hj => ?_, h.executable_update i fun block' hb => ?_, fun _ => hw⟩
    · rw [update_eq_iff] at hj
      rcases hj with ⟨-, hj⟩ | ⟨hji, hj⟩
      · cases hj
      · exact absurd hj (hcareful ha j hji)
    · simp only [Stage.restored.injEq, reduceCtorEq, false_or] at hb
      rw [← hb]
      exact h.executable i block (.inl hi)

theorem Inv.step {y : Symbols} {stage : ℕ → Stage} {c c' : System y} {e : Event Call}
    (h : Inv stage c) (hstep : Guarded Careful allocates c e c') : ∃ stage, Inv stage c' := by
  obtain ⟨hcareful, hstep⟩ := hstep
  cases hstep with
  | @call i k r hidle =>
    have hquiet := final_quiet (h.stages.result hidle)
    refine ⟨Function.update stage i .outside, h.stages.update (allocate_follows k), fun j hj => ?_,
      h.executable_update i fun block hb => ?_, fun hq => h.restored fun j => ?_⟩
    · simp only [update_eq_iff, reduceCtorEq, and_false, false_or] at hj
      exact h.cleared j hj.2
    · simp at hb
    · by_cases hj : j = i
      · rwa [hj]
      · have hqj := hq j
        rwa [Function.update_of_ne hj] at hqj
  | perform hperform =>
    obtain ⟨a, next, answer, t, hprogram, hexecute, hadvance, hstages⟩ := h.stages.perform hperform
    refine ⟨_, h.change hstages (execute_change hexecute hadvance) fun ha j hj hcleared => ?_⟩
    subst ha
    exact hcareful noExecute next hprogram (by decide) j hj
      ((unmapped_iff (h.stages j)).mpr hcleared)

theorem start_inv {y : Symbols} {s : Kernel y} (h : s.word = noExecute) :
    Inv (fun _ => .outside) (start s) where
  stages _ := rfl
  cleared _ hi := by cases hi
  executable _ _ hi := by simp at hi
  restored _ := h

section Alone

variable {y : Symbols} (s : Kernel y)

private theorem run_readPointer : run execute readPointer s = some (s.pointer, s) := rfl

private theorem run_resolvePointer :
    run execute resolvePointer s = some ((), { s with pointer := y.pgNx }) := rfl

theorem run_store (value : Word) (h : s.pointer ≠ 0#64) :
    run execute (store value) s = some ((), { s with word := value }) :=
  (run_perform execute (.store value) s).trans (if_neg h)

private theorem run_malloc (size : Word) : run execute (malloc size) s =
    some (⟨s.mapped, size, s.ps4KernelMemoryType, s.word = 0#64⟩,
      { s with mapped := s.mapped + 1 }) := rfl

end Alone

theorem storeWord_alone {y : Symbols} (value : Word) (s : Kernel y) :
    ∃ s', run execute (storeWord value) s = some ((), s') ∧ s'.word = value := by
  by_cases h : s.pointer = 0#64
  · refine ⟨{ s with pointer := y.pgNx, word := value }, ?_, rfl⟩
    simp [storeWord, run_bind, run_readPointer, run_resolvePointer, run_store, h, y.present]
  · refine ⟨{ s with word := value }, ?_, rfl⟩
    simp [storeWord, run_bind, run_readPointer, run_store, h]

/-- Alone, a call sets the word, whatever it was before. -/
theorem allocate_alone {y : Symbols} (s : Kernel y) : ∃ block s',
    run execute (ps4KernelMemoryAllocate true 1) s = some ((ps4Ok, some block), s') ∧
    s'.word = noExecute := by
  have hrest : ∀ s : Kernel y, ∃ block s', run execute (do
      ps4KernelProtectionExecuteDisable
      let block ← malloc 0x4001#64
      ps4KernelProtectionExecuteEnable
      return (ps4Ok, some block)) s = some ((ps4Ok, some block), s') ∧ s'.word = noExecute := by
    intro s
    obtain ⟨s₁, hdisable, -⟩ := storeWord_alone 0#64 s
    obtain ⟨s₂, henable, hword⟩ := storeWord_alone noExecute { s₁ with mapped := s₁.mapped + 1 }
    refine ⟨⟨s₁.mapped, 0x4001#64, s₁.ps4KernelMemoryType, s₁.word = 0#64⟩, s₂, ?_, hword⟩
    simp only [run_bind, ps4KernelProtectionExecuteDisable, ps4KernelProtectionExecuteEnable,
      hdisable, run_malloc, henable, Option.bind_some, run_pure]
  by_cases h : s.ps4KernelMemoryType = 0#64
  · obtain ⟨block, s', hrun, hword⟩ := hrest { s with ps4KernelMemoryType := y.mTemp }
    refine ⟨block, s', ?_, hword⟩
    rw [← hrun]
    change run execute (if s.ps4KernelMemoryType = 0#64 then _ else _) s = _
    rw [if_pos h]
    rfl
  · obtain ⟨block, s', hrun, hword⟩ := hrest s
    refine ⟨block, s', ?_, hword⟩
    rw [← hrun]
    change run execute (if s.ps4KernelMemoryType = 0#64 then _ else _) s = _
    rw [if_neg h]
    rfl

/-! ### Threads that are not careful -/

structure Resolved {y : Symbols} (stage : ℕ → Stage) (c : System y) : Prop where
  stages : AtStages advance final stage c
  pointer : ∀ i, ¬(stage i).Quiet → c.shared.pointer ≠ 0#64

theorem execute_pointer {y : Symbols} {a : Statement} {s s' : Kernel y} {answer : Answer a}
    {t t' : Stage} (hs : execute a s = some (answer, s')) (ht : advance t a answer = some t') :
    (s.pointer ≠ 0#64 → s'.pointer ≠ 0#64) ∧ (t.Quiet → ¬t'.Quiet → s'.pointer ≠ 0#64) := by
  cases a with
  | readType | resolveType | readPointer =>
    obtain rfl := (Prod.mk.inj (Option.some.inj hs)).2
    obtain rfl := advance_eq (by simp) (by simp) ht
    exact ⟨id, fun hq hn => absurd hq hn⟩
  | resolvePointer =>
    obtain rfl := (Prod.mk.inj (Option.some.inj hs)).2
    exact ⟨fun _ => y.present, fun _ _ => y.present⟩
  | store value =>
    rw [execute] at hs
    split_ifs at hs with hp
    obtain rfl := (Prod.mk.inj (Option.some.inj hs)).2
    exact ⟨id, fun _ _ => hp⟩
  | malloc size =>
    obtain rfl := (Prod.mk.inj (Option.some.inj hs)).2
    refine ⟨id, fun hq => ?_⟩
    cases t with
    | cleared => exact hq.elim
    | outside => cases ht
    | mapped block => cases ht
    | restored block => cases ht

theorem Resolved.step {y : Symbols} {stage : ℕ → Stage} {c c' : System y} {e : Event Call}
    (h : Resolved stage c) (hstep : allocates c e c') : ∃ stage, Resolved stage c' := by
  cases hstep with
  | @call i k r hidle =>
    refine ⟨Function.update stage i .outside, h.stages.update (allocate_follows k), fun j hj => ?_⟩
    by_cases hji : j = i
    · subst hji
      rw [Function.update_self] at hj
      exact absurd trivial hj
    · rw [Function.update_of_ne hji] at hj
      exact h.pointer j hj
  | @perform _ i hperform =>
    obtain ⟨a, next, answer, t, -, hexecute, hadvance, hstages⟩ := h.stages.perform hperform
    obtain ⟨hkeep, hnew⟩ := execute_pointer hexecute hadvance
    refine ⟨Function.update stage i t, hstages, fun j hj => ?_⟩
    by_cases hji : j = i
    · subst hji
      rw [Function.update_self] at hj
      by_cases hq : (stage j).Quiet
      · exact hnew hq hj
      · exact hkeep (h.pointer j hq)
    · rw [Function.update_of_ne hji] at hj
      exact hkeep (h.pointer j hj)

private theorem run_resolved {y : Symbols} {s : Kernel y} {es : List (Event Call)} {c : System y}
    (h : Run allocates (start s) es c) : ∃ stage, Resolved stage c := by
  have hstart : Resolved (fun _ => .outside) (start s) :=
    ⟨fun _ => rfl, fun _ h => absurd trivial h⟩
  exact h.invariant_exists (fun _ _ _ _ h hstep => h.step hstep) hstart

private theorem execute_isSome {y : Symbols} (a : Statement) (s : Kernel y) (h : s.pointer ≠ 0#64) :
    ∃ answer, execute a s = some answer ∧ answer.2.pointer ≠ 0#64 := by
  cases a with
  | readType | resolveType | readPointer | malloc => exact ⟨_, rfl, h⟩
  | resolvePointer => exact ⟨_, rfl, y.present⟩
  | store value => exact ⟨_, if_neg h, h⟩

theorem mapped_returns {y : Symbols} {block : Block} {p : Prog (Code × Option Block)} {s : Kernel y}
    (h : Follows advance final (.mapped block) p) (hs : s.pointer ≠ 0#64) :
    ∃ code s', run execute p s = some ((code, some block), s') := by
  obtain ⟨⟨code, result⟩, s', hrun⟩ := run_returns execute_isSome p hs
  have hkeep : ∀ t a answer t', t = .mapped block ∨ t = .restored block →
    advance t a answer = some t' →
      t' = .mapped block ∨ t' = .restored block := by
    rintro t a answer t' (rfl | rfl) ht
    · cases a with
      | readPointer | resolvePointer => exact .inl (Option.some.inj ht).symm
      | store value =>
        rw [advance] at ht
        split_ifs at ht
        exact .inr (Option.some.inj ht).symm
      | readType | resolveType | malloc => cases ht
    · cases ht
  obtain ⟨t', ht, hfinal⟩ := h.returns hkeep (.inl rfl) hrun
  rcases ht with rfl | rfl
  · exact hfinal.elim
  · obtain rfl : result = some block := hfinal
    exact ⟨code, s', hrun⟩

/-- If the word is set while a thread is about to map memory, the thread may return memory that is
not executable. -/
theorem careless_returns {y : Symbols} {s : Kernel y} {es : List (Event Call)} {c : System y}
    {i : ℕ} (h : Run allocates (start s) es c) (hcareless : ¬Careful c (.perform i)) :
    ∃ es' c' j code block, Run allocates c (.perform i :: es') c' ∧
      c'.program j = .done (code, some block) ∧ block.executable = false := by
  obtain ⟨stage, hstages, hpointer⟩ := run_resolved h
  obtain ⟨value, next, hi, hvalue, j, hij, size, rest, hj⟩ : ∃ value next,
      c.program i = .statement (.store value) next ∧ value ≠ 0#64 ∧ ∃ j, j ≠ i ∧
      Unmapped (c.program j) := by
    simpa [Careful] using hcareless
  have hcleared : stage j = .cleared := (unmapped_iff (hstages j)).mp ⟨size, rest, hj⟩
  have hp : c.shared.pointer ≠ 0#64 := hpointer j (by rw [hcleared]; exact id)
  let block : Block := ⟨c.shared.mapped, size, c.shared.ps4KernelMemoryType, decide (value = 0#64)⟩
  let changed : Kernel y := { c.shared with word := value }
  have hstore : Step (fun _ => execute) c i ⟨changed, Function.update c.program i (next ())⟩ :=
    .statement hi (if_neg hp)
  have hmap : Step (fun _ => execute) ⟨changed, Function.update c.program i (next ())⟩ j
      ⟨{ changed with mapped := changed.mapped + 1 },
        Function.update (Function.update c.program i (next ())) j (rest block)⟩ :=
    @Step.statement _ _ _ _ (fun _ => execute)
      ⟨changed, Function.update c.program i (next ())⟩ j (.malloc size)
      rest block _ ((Function.update_of_ne hij ..).trans hj) rfl
  have hrest : Follows advance final (.mapped block) (rest block) := by
    have hfollows := hstages j
    rw [hj, hcleared] at hfollows
    obtain ⟨t, ht, hrest⟩ := hfollows block
    rwa [← Option.some.inj ht] at hrest
  have hp' : ({ changed with mapped := changed.mapped + 1 } : Kernel y).pointer ≠ 0#64 := hp
  obtain ⟨code, s', hrun⟩ := mapped_returns hrest hp'
  obtain ⟨es', halone⟩ := run_alone Call.program (fun _ => execute) (fun _ _ => True) j
    (Function.update c.program i (next ())) hrun (fun _ _ => trivial)
  exact ⟨.perform j :: es', _, j, code, block, .cons (.perform hstore)
    (.cons (.perform hmap) halone.unguard), Function.update_self .., decide_eq_false hvalue⟩

/-- Calls that are careful about each other do what is asked of them exactly if the word had the
value that they set. A call that is not careful can be continued to one that returns memory that is
not executable. -/
theorem allocations_good_iff {y : Symbols} (s : Kernel y) :
    ((∀ es c, Run (Guarded Careful allocates) (start s) es c → Good s.word c) ↔
      s.word = noExecute) ∧
    ∀ es c i, Run allocates (start s) es c → ¬Careful c (.perform i) →
      ∃ es' c' j code block, Run allocates c (.perform i :: es') c' ∧
        c'.program j = .done (code, some block) ∧ block.executable = false := by
  refine ⟨⟨fun h => ?_, fun hword es c hrun => ?_⟩, fun es c i => careless_returns⟩
  · obtain ⟨block, s', hrun, hword⟩ := allocate_alone s
    have hcall : Guarded Careful allocates (start s) (.call 0 ⟨true, 1⟩)
        ⟨s, Function.update (start s).program 0 (ps4KernelMemoryAllocate true 1)⟩ :=
          ⟨trivial, .call rfl⟩
    have hallowed : ∀ p s', Careful (⟨s', Function.update (start s).program 0 p⟩ : System y)
        (.perform 0) := by
      intro p s' value next _ _ j hj hmaps
      obtain ⟨size, next, hmaps⟩ := hmaps
      simp [Function.update_of_ne hj, start] at hmaps
    obtain ⟨es, halone⟩ := run_alone Call.program (fun _ => execute) Careful 0 _ hrun hallowed
    have hgood := h _ _ (.cons hcall halone)
    rw [← hword]
    have hidle : Idle (start s) := fun _ => ⟨(ps4NotOk, none), rfl⟩
    exact (hgood.2 (hidle.update s' 0 (ps4Ok, some block))).symm
  · obtain ⟨stage, hinv⟩ :=
      hrun.invariant_exists (fun _ _ _ _ h hstep => Inv.step h hstep) (start_inv hword)
    rw [hword]
    exact hinv.good

section Example

def pageTables : Symbols := ⟨0xffffffff83000000, 0xffffffff82000000, by decide⟩

def resolvedKernel : Kernel pageTables := ⟨0xffffffff82000000, 0xffffffff83000000, noExecute, 1⟩

/-- The first thread clears the word, then the second one does, then the first one has its memory
mapped and sets the word, and then the second one has its memory mapped. -/
def overlap : List (Event Call) :=
  [.call 0 ⟨true, 0x8000⟩, .call 1 ⟨true, 0x8000⟩] ++ List.replicate 3 (.perform 0) ++
    List.replicate 3 (.perform 1) ++ List.replicate 3 (.perform 0) ++ List.replicate 3 (.perform 1)

theorem overlap_not_executable : ∃ c :
    System pageTables, Run allocates (start resolvedKernel) overlap c ∧ Idle c ∧
    c.program 1 = .done (ps4Ok, some ⟨2, 0x8000, 0xffffffff82000000, false⟩) := by
  refine ⟨_, serveAll_run rfl, fun i => ?_, rfl⟩
  match i with
  | 0 => exact ⟨_, rfl⟩
  | 1 => exact ⟨_, rfl⟩
  | _ + 2 => exact ⟨_, rfl⟩

end Example

end Ps4Sdk.ExecutableMemory
