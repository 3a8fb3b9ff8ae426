import Ps4Sdk.AtomicSpinLocks
import Mathlib.Algebra.BigOperators.Group.Finset.Piecewise
import Mathlib.Algebra.Order.BigOperators.Group.Finset
import Mathlib.Data.Fintype.Basic
import Mathlib.Algebra.Order.Group.Int

/-!
# Destroying a hook while threads run through it

Both kinds of hooks count the threads in their prologue. `Destroy` stops new
threads from entering, waits until every thread that has branched to the prologue
has counted itself, and then until the count is zero, and frees the blocks of the
handle. A thread executes a list of instructions, each of which lies in a block or
outside all of them, and accesses blocks.
-/

namespace Ps4Sdk.HookDestruction
open StepRuns AtomicSpinLocks

/-- What an instruction does to the words that matter here: the entry count and
the spin lock of the handle, and the register `r12` with the zero flag. -/
inductive Effect
  | plain
  | countUp
  | countDown
  | set (v : BitVec 64)
  | exchange
  | test
  | jnz (back : ℕ)
  deriving DecidableEq

structure Instruction (β : Type) where
  place : Option β
  accesses : List β
  effect : Effect
  deriving DecidableEq

def Instruction.uses {β : Type} (ins : Instruction β) : List β := ins.place.toList ++ ins.accesses

structure Thread (β : Type) where
  program : List (Instruction β)
  pc : ℕ
  r12 : BitVec 64
  zero : Bool

def Thread.next {β : Type} (t : Thread β) : Option (Instruction β) := t.program[t.pc]?

def Thread.execute {β : Type} (entryCount : ℤ) (lock : BitVec 64) (t : Thread β) :
    Effect → ℤ × BitVec 64 × Thread β
  | .plain => (entryCount, lock, { t with pc := t.pc + 1 })
  | .countUp => (entryCount + 1, lock, { t with pc := t.pc + 1 })
  | .countDown => (entryCount - 1, lock, { t with pc := t.pc + 1 })
  | .set v => (entryCount, lock, { t with pc := t.pc + 1, r12 := v })
  | .exchange => (entryCount, t.r12, { t with pc := t.pc + 1, r12 := lock })
  | .test => (entryCount, lock, { t with pc := t.pc + 1, zero := t.r12 = 0 })
  | .jnz back => (entryCount, lock, { t with pc := if t.zero then t.pc + 1 else t.pc - back })

/-- Where `Destroy` is: before it restores the call, in `pause`, between taking and
releasing the spin lock, with the result of its last test of the count, or with
these blocks left to free. -/
inductive Destroyer (β : Type)
  | installed
  | pausing
  | critical (t : AtomicSpinLocks.Thread) (drained : Bool)
  | freeing (rest : List β)

structure State (ι β : Type) where
  entryCount : ℤ
  lock : BitVec 64
  freed : List β
  thread : ι → Thread β
  destroyer : Destroyer β

/-- The program increments the count at one place and decrements it at a later one,
and jumps back only in between. -/
structure Counts {β : Type} (up down : ℕ) (p : List (Instruction β)) : Prop where
  length : down < p.length
  countUp : ∀ j ins, p[j]? = some ins → (ins.effect = .countUp ↔ j = up)
  countDown : ∀ j ins, p[j]? = some ins → (ins.effect = .countDown ↔ j = down)
  jump : ∀ j ins back, p[j]? = some ins → ins.effect = .jnz back → up + back < j ∧ j < down

/-- The programs of the calls of a hooked function, and the blocks of its handle in
the order in which they are freed. -/
structure Protocol (β : Type) where
  programs : List (Instruction β) → Prop
  up : ℕ
  down : ℕ
  frees : List β
  order : up < down
  counts : ∀ p, programs p → Counts up down p

/-! ### The instructions that both prologues share -/

def outside {β : Type} : Instruction β := ⟨none, [], .plain⟩

/-- `push %r12`, the loop of `movq $1, %r12`, `lock xchg` with the lock, `testq %r12, %r12`
and `jnz`, and `pop %r12`. -/
def spinLock {β : Type} (prologue handle : β) : List (Instruction β) :=
  [⟨some prologue, [], .plain⟩, ⟨some prologue, [], .set 1⟩, ⟨some prologue, [handle], .exchange⟩,
    ⟨some prologue, [], .test⟩, ⟨some prologue, [], .jnz 3⟩, ⟨some prologue, [], .plain⟩]

/-- `push %r12`, `lock decq` of the count, `movq $0, %r12`, `lock xchg` with the lock, and
`pop %r12`. -/
def spinUnlock {β : Type} (place : Option β) (handle : β) : List (Instruction β) :=
  [⟨place, [], .plain⟩, ⟨place, [handle], .countDown⟩, ⟨place, [], .set 0⟩,
    ⟨place, [handle], .exchange⟩, ⟨place, [], .plain⟩]

inductive Action (ι β : Type)
  | call (i : ι) (p : List (Instruction β))
  | execute (i : ι)
  | destroy

variable {ι β : Type}

def State.execute [DecidableEq ι] (s : State ι β) (i : ι) (e : Effect) : State ι β :=
  let r := (s.thread i).execute s.entryCount s.lock e
  { s with entryCount := r.1, lock := r.2.1, thread := Function.update s.thread i r.2.2 }

/-- One step of `Destroy`, from the moment on at which it restores the call. -/
def State.destroy (frees : List β) (s : State ι β) : Option (State ι β) :=
  match s.destroyer with
  | .installed => some { s with destroyer := .pausing }
  | .pausing => some { s with destroyer := .critical ⟨.lockBegin, 0, 0, 0⟩ false }
  | .critical t drained =>
    if t.pc = .inside then
      some { s with destroyer := .critical (t.next s.lock).2 (decide (¬s.entryCount > 0)) }
    else if t.pc = .outside then
      some { s with destroyer := if drained then .freeing frees else .pausing }
    else some { s with lock := (t.next s.lock).1, destroyer := .critical (t.next s.lock).2 drained }
  | .freeing (b :: rest) => some { s with freed := b :: s.freed, destroyer := .freeing rest }
  | .freeing [] => none

def Thread.Waiting (up : ℕ) (t : Thread β) : Prop := t.pc ≤ up ∧ t.pc < t.program.length

/-- A thread calls the hooked function as long as it is hooked. A `pause` ends when
each thread that has branched to the prologue has counted itself. -/
inductive Step [DecidableEq ι] (P : Protocol β) : State ι β → Action ι β → State ι β → Prop
  | call {s : State ι β} {i : ι} {p : List (Instruction β)} (hooked : s.destroyer = .installed)
      (outside : (s.thread i).next = none) (program : P.programs p) :
      Step P s (.call i p) { s with thread := Function.update s.thread i ⟨p, 0, 0, false⟩ }
  | execute {s : State ι β} {i : ι} {ins : Instruction β} (next : (s.thread i).next = some ins) :
      Step P s (.execute i) (s.execute i ins.effect)
  | destroy {s t : State ι β} (paused : s.destroyer = .pausing → ∀ i, ¬(s.thread i).Waiting P.up)
      (next : s.destroy P.frees = some t) : Step P s .destroy t

structure Initial (s : State ι β) : Prop where
  entryCount : s.entryCount = 0
  freed : s.freed = []
  thread : ∀ i, (s.thread i).program = [] ∧ (s.thread i).pc = 0
  destroyer : s.destroyer = .installed

/-- No thread is about to execute an instruction of a freed block or to access one. -/
def Safe (s : State ι β) : Prop :=
  ∀ i ins, (s.thread i).next = some ins → ∀ b ∈ ins.uses, b ∉ s.freed

def Settled (P : Protocol β) (s : State ι β) : Prop :=
  ∀ i j ins, P.down < (s.thread i).pc → (s.thread i).pc ≤ j → (s.thread i).program[j]? = some ins →
    ∀ b ∈ ins.uses, b ∉ P.frees

/-- When `Destroy` finds the count at zero, the threads that left it are settled. -/
def Quiet (P : Protocol β) (s : State ι β) : Action ι β → Prop
  | .destroy => ∀ t drained, s.destroyer = .critical t drained → t.pc = .inside →
      ¬s.entryCount > 0 →
    Settled P s
  | _ => True

/-! ### Programs that count -/

def Effect.back : Effect → Option ℕ
  | .jnz back => some back
  | _ => none

/-- The conditions on a program, instruction by instruction. -/
theorem counts_of_zipIdx {up down : ℕ} {p : List (Instruction β)} (hl : down < p.length)
    (h : ∀ x ∈ p.zipIdx, (x.1.effect = .countUp ↔ x.2 = up) ∧
      (x.1.effect = .countDown ↔ x.2 = down) ∧ ∀ back ∈ x.1.effect.back, up + back < x.2 ∧
      x.2 < down) : Counts up down p := by
  have hmem : ∀ j ins, p[j]? = some ins → (ins, j) ∈ p.zipIdx := by
    intro j ins hj
    exact List.mem_zipIdx_iff_getElem?.mpr hj
  refine ⟨hl, fun j ins hj => (h _ (hmem j ins hj)).1,
    fun j ins hj => (h _ (hmem j ins hj)).2.1, ?_⟩
  intro j ins back hj he
  exact (h _ (hmem j ins hj)).2.2 back (by rw [he]; rfl)

/-- What follows the count does not matter as long as it is plain. -/
theorem Counts.append {up down : ℕ} {p q : List (Instruction β)} (h : Counts up down p)
    (ho : up < down) (hq : ∀ ins ∈ q, ins.effect = .plain) : Counts up down (p ++ q) := by
  have hl := h.length
  have hplain : ∀ j ins, ¬j < p.length → (p ++ q)[j]? = some ins → ins.effect = .plain := by
    intro j ins hj hins
    rw [List.getElem?_append_right (by omega)] at hins
    exact hq ins (List.mem_of_getElem? hins)
  have hfront : ∀ j ins, j < p.length → (p ++ q)[j]? = some ins → p[j]? = some ins := by
    intro j ins hj hins
    rwa [List.getElem?_append_left hj] at hins
  refine ⟨by rw [List.length_append]; omega, fun j ins hins => ?_, fun j ins hins => ?_,
    fun j ins back hins he => ?_⟩
  all_goals by_cases hj : j < p.length
  · exact h.countUp j ins (hfront j ins hj hins)
  · rw [hplain j ins hj hins]
    exact iff_of_false (by decide) (by omega)
  · exact h.countDown j ins (hfront j ins hj hins)
  · rw [hplain j ins hj hins]
    exact iff_of_false (by decide) (by omega)
  · exact h.jump j ins back (hfront j ins hj hins) he
  · rw [hplain j ins hj hins] at he
    cases he

/-! ### One instruction of a thread -/

def Thread.weight (up down : ℕ) (t : Thread β) : ℤ := if up < t.pc ∧ t.pc ≤ down then 1 else 0

section Execute

variable {up down : ℕ} {t : Thread β} {ins : Instruction β} (c : ℤ) (l : BitVec 64)

theorem execute_program (e : Effect) : (t.execute c l e).2.2.program = t.program := by
  cases e <;> rfl

/-- A thread goes on to the next instruction, or jumps back inside the count. -/
theorem execute_pc (h : Counts up down t.program) (hn : t.next = some ins) :
    (t.execute c l ins.effect).2.2.pc = t.pc + 1 ∨
      up < (t.execute c l ins.effect).2.2.pc ∧ (t.execute c l ins.effect).2.2.pc ≤ t.pc ∧
        up < t.pc ∧ t.pc < down := by
  cases he : ins.effect with
  | jnz back =>
    have hj := h.jump t.pc ins back hn he
    simp only [Thread.execute]
    split_ifs
    · exact .inl rfl
    · right
      omega
  | plain | countUp | countDown | set v | exchange | test => exact .inl rfl

/-- The count and the weight of the thread change together. -/
theorem execute_weight (h : Counts up down t.program) (ho : up < down) (hn : t.next = some ins) :
    (t.execute c l ins.effect).1 - c =
      (t.execute c l ins.effect).2.2.weight up down - t.weight up down := by
  have hup := h.countUp t.pc ins hn
  have hdown := h.countDown t.pc ins hn
  cases he : ins.effect with
  | countUp =>
    have hpc := hup.mp he
    simp only [Thread.execute, Thread.weight, hpc]
    rw [if_pos (by omega), if_neg (by omega)]
    omega
  | countDown =>
    have hpc := hdown.mp he
    simp only [Thread.execute, Thread.weight, hpc]
    rw [if_neg (by omega), if_pos (by omega)]
    omega
  | jnz back =>
    have hpc := execute_pc c l h hn
    have hj := h.jump t.pc ins back hn he
    rw [he] at hpc
    rw [Thread.weight, Thread.weight, if_pos (by omega), if_pos (by omega)]
    simp [Thread.execute]
  | plain | set v | exchange | test =>
    have h₁ : t.pc ≠ up := fun hpc => by simp [hup.mpr hpc] at he
    have h₂ : t.pc ≠ down := fun hpc => by simp [hdown.mpr hpc] at he
    have hw : (t.pc + 1 ≤ down ∧ up < t.pc + 1) ↔ (t.pc ≤ down ∧ up < t.pc) := by omega
    simp only [Thread.execute, Thread.weight, and_comm, hw, sub_self]

theorem execute_waiting (h : Counts up down t.program) (hn : t.next = some ins)
    (hw : (t.execute c l ins.effect).2.2.Waiting up) : t.Waiting up := by
  have hlt : t.pc < t.program.length := (List.getElem?_eq_some_iff.mp hn).1
  rcases execute_pc c l h hn with hpc | hpc
  · have hle := hw.1
    exact ⟨by omega, hlt⟩
  · have hle := hw.1
    omega

end Execute

/-! ### The invariant -/

/-- The thread has left the count, if it is in a call at all, and has no instruction
ahead that uses a block of the handle. -/
structure Clear (P : Protocol β) (t : Thread β) : Prop where
  left : ∀ ins, t.next = some ins → P.down < t.pc
  ahead : ∀ j ins, t.pc ≤ j → t.program[j]? = some ins → ∀ b ∈ ins.uses, b ∉ P.frees

def Destroyer.Paused : Destroyer β → Prop
  | .critical _ _ | .freeing _ => True
  | _ => False

def Destroyer.Drained : Destroyer β → Prop
  | .critical _ drained => drained = true
  | .freeing _ => True
  | _ => False

def Destroyer.Freed (frees freed : List β) : Destroyer β → Prop
  | .freeing rest => frees = freed.reverse ++ rest
  | _ => freed = []

structure Draining [Fintype ι] (P : Protocol β) (s : State ι β) : Prop where
  programs : ∀ i, ((s.thread i).program = [] ∧ (s.thread i).pc = 0) ∨
    P.programs (s.thread i).program
  count : s.entryCount = ∑ i, (s.thread i).weight P.up P.down
  paused : s.destroyer.Paused → ∀ i, ¬(s.thread i).Waiting P.up
  drained : s.destroyer.Drained → ∀ i, Clear P (s.thread i)
  freed : s.destroyer.Freed P.frees s.freed

section Invariant

variable [Fintype ι] {P : Protocol β} {s t : State ι β} {i : ι}

theorem Draining.safe (h : Draining P s) : Safe s := by
  intro i ins hn b hb hf
  have hfreed := h.freed
  cases hd : s.destroyer with
  | freeing rest =>
    rw [hd] at hfreed
    have hclear := h.drained (by rw [hd]; trivial) i
    apply hclear.ahead _ ins (le_refl _) hn b hb
    rw [hfreed]
    simp [hf]
  | installed | pausing | critical t drained =>
    rw [hd] at hfreed
    have hnil : s.freed = [] := hfreed
    simp [hnil] at hf

theorem Draining.counts (h : Draining P s) {ins : Instruction β}
    (hn : (s.thread i).next = some ins) :
    P.programs (s.thread i).program := by
  rcases h.programs i with hnil | hp
  · simp [Thread.next, hnil.1] at hn
  · exact hp

theorem draining_initial (h : Initial s) : Draining P s where
  programs i := .inl (h.thread i)
  count := by
    rw [h.entryCount]
    symm
    apply Finset.sum_eq_zero
    intro i _
    simp [Thread.weight, (h.thread i).2]
  paused hp := by rw [h.destroyer] at hp; exact hp.elim
  drained hd := by rw [h.destroyer] at hd; exact hd.elim
  freed := by rw [h.destroyer]; exact h.freed

/-- A thread behind the pause is outside a call, in the count, or has left it. -/
theorem clear_of_settled (h : Draining P s) (hp : s.destroyer.Paused) (hz : ¬s.entryCount > 0)
    (hs : Settled P s) (i : ι) : Clear P (s.thread i) := by
  have hweight : (s.thread i).weight P.up P.down = 0 := by
    have hnonneg : ∀ j ∈ Finset.univ, 0 ≤ (s.thread j).weight P.up P.down := by
      intro j _
      unfold Thread.weight
      split_ifs <;> decide
    have hsum : ∑ j, (s.thread j).weight P.up P.down = 0 :=
      le_antisymm (by rw [← h.count]; omega) (Finset.sum_nonneg hnonneg)
    exact (Finset.sum_eq_zero_iff_of_nonneg hnonneg).mp hsum i (Finset.mem_univ i)
  have hleft : ∀ j ins, (s.thread i).pc ≤ j → (s.thread i).program[j]? = some ins →
      P.down < (s.thread i).pc := by
    intro j ins hj hins
    have hlt : j < (s.thread i).program.length := (List.getElem?_eq_some_iff.mp hins).1
    have hwait := h.paused hp i
    unfold Thread.Waiting at hwait
    have hup : P.up < (s.thread i).pc := by omega
    by_contra hdown
    rw [Thread.weight, if_pos ⟨hup, by omega⟩] at hweight
    exact absurd hweight (by decide)
  exact ⟨fun ins hn => hleft _ ins (le_refl _) hn,
    fun j ins hj hins => hs i j ins (hleft j ins hj hins) hj hins⟩

/-- Each step of `Destroy` keeps the invariant. -/
theorem Draining.destroy (h : Draining P s) (hq : Quiet P s (.destroy : Action ι β))
    (hp : s.destroyer = .pausing → ∀ i, ¬(s.thread i).Waiting P.up)
    (hn : s.destroy P.frees = some t) :
    Draining P t := by
  have hfreed := h.freed
  have hdrained := h.drained
  have hpaused := h.paused
  cases hd : s.destroyer with
  | installed =>
    simp only [State.destroy, hd, Option.some.injEq] at hn
    subst hn
    rw [hd] at hfreed
    exact { h with paused := False.elim, drained := False.elim, freed := hfreed }
  | pausing =>
    simp only [State.destroy, hd, Option.some.injEq] at hn
    subst hn
    rw [hd] at hfreed
    exact { h with
      paused := fun _ => hp hd, drained := fun hf => absurd hf Bool.false_ne_true, freed := hfreed }
  | critical u drained =>
    rw [hd] at hfreed hdrained hpaused
    simp only [State.destroy, hd] at hn
    split_ifs at hn with hin hout hdr <;> cases hn
    · have hclear : (decide ¬s.entryCount > 0) = true → ∀ i, Clear P (s.thread i) := by
        intro hz
        have hz' : ¬s.entryCount > 0 := of_decide_eq_true hz
        exact clear_of_settled h (by rw [hd]; trivial) hz' (hq u drained hd hin hz')
      exact { h with paused := fun _ => hpaused trivial, drained := hclear, freed := hfreed }
    · have hnil : s.freed = [] := hfreed
      exact { h with
        paused := fun _ => hpaused trivial
        drained := fun _ => hdrained hdr
        freed := by simp [Destroyer.Freed, hnil] }
    · exact { h with paused := False.elim, drained := False.elim, freed := hfreed }
    · exact { h with paused := fun _ => hpaused trivial, drained := hdrained, freed := hfreed }
  | freeing rest =>
    rw [hd] at hfreed hdrained hpaused
    cases rest with
    | nil => simp [State.destroy, hd] at hn
    | cons b rest =>
      simp only [State.destroy, hd, Option.some.injEq] at hn
      subst hn
      refine { h with
        paused := fun _ => hpaused trivial, drained := fun _ => hdrained trivial, freed := ?_ }
      simpa [Destroyer.Freed] using hfreed

variable [DecidableEq ι]

theorem sum_update (thread : ι → Thread β) (i : ι) (t : Thread β) (up down : ℕ) :
    ∑ j, (Function.update thread i t j).weight up down =
      ∑ j, (thread j).weight up down + (t.weight up down - (thread i).weight up down) := by
  have hweights : (fun j => (Function.update thread i t j).weight up down) =
      Function.update (fun j => (thread j).weight up down) i (t.weight up down) := by
    funext j
    exact Function.apply_update (fun _ x => Thread.weight up down x) thread i t j
  rw [hweights, Finset.sum_update_of_mem (Finset.mem_univ i),
    Finset.sum_eq_add_sum_sdiff_singleton_of_mem (Finset.mem_univ i)]
  omega

theorem Draining.execute (h : Draining P s) {ins : Instruction β}
    (hn : (s.thread i).next = some ins) :
    Draining P (s.execute i ins.effect) := by
  have hcounts := P.counts _ (h.counts hn)
  refine ⟨?_, ?_, ?_, ?_, h.freed⟩
  · apply (Function.forall_update_iff s.thread
      (fun _ t => (t.program = [] ∧ t.pc = 0) ∨ P.programs t.program)).mpr
    refine ⟨.inr ?_, fun j _ => h.programs j⟩
    rw [execute_program]
    exact h.counts hn
  · have hw := execute_weight s.entryCount s.lock hcounts P.order hn
    simp only [State.execute, sum_update, ← hw, ← h.count]
    omega
  · intro hp
    apply (Function.forall_update_iff s.thread (fun _ t => ¬t.Waiting P.up)).mpr
    refine ⟨fun hw => ?_, fun j _ => h.paused hp j⟩
    exact h.paused hp i (execute_waiting s.entryCount s.lock hcounts hn hw)
  · intro hd
    apply (Function.forall_update_iff s.thread (fun _ t => Clear P t)).mpr
    refine ⟨?_, fun j _ => h.drained hd j⟩
    have hclear := h.drained hd i
    have hleft := hclear.left ins hn
    have hpc : ((s.thread i).execute s.entryCount s.lock ins.effect).2.2.pc =
        (s.thread i).pc + 1 := by
      rcases execute_pc s.entryCount s.lock hcounts hn with hpc | hpc
      · exact hpc
      · omega
    refine ⟨fun _ _ => by omega, fun j ins' hj hins => ?_⟩
    rw [execute_program] at hins
    exact hclear.ahead j ins' (by omega) hins

theorem Draining.call (h : Draining P s) {p : List (Instruction β)}
    (hooked : s.destroyer = .installed) (outside : (s.thread i).next = none)
    (program : P.programs p) :
    Draining P { s with thread := Function.update s.thread i ⟨p, 0, 0, false⟩ } := by
  have hweight : (s.thread i).weight P.up P.down = 0 := by
    apply if_neg
    rcases h.programs i with hnil | hp
    · omega
    · have hlen := (P.counts _ hp).length
      have hout : (s.thread i).program.length ≤ (s.thread i).pc :=
        List.getElem?_eq_none_iff.mp outside
      omega
  refine ⟨?_, ?_, ?_, ?_, h.freed⟩
  · apply (Function.forall_update_iff s.thread
      (fun _ t => (t.program = [] ∧ t.pc = 0) ∨ P.programs t.program)).mpr
    exact ⟨.inr program, fun j _ => h.programs j⟩
  · simp only [sum_update, hweight, h.count]
    simp [Thread.weight]
  · intro hp
    rw [hooked] at hp
    exact hp.elim
  · intro hd
    rw [hooked] at hd
    exact hd.elim

theorem Draining.step (h : Draining P s) {a : Action ι β} (hq : Quiet P s a) (hs : Step P s a t) :
    Draining P t := by
  cases hs with
  | call hooked outside program => exact h.call hooked outside program
  | execute hn => exact h.execute hn
  | destroy hp hn => exact h.destroy hq hp hn

end Invariant

end Ps4Sdk.HookDestruction
