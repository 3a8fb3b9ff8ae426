import Ps4Sdk.StepRuns
import Ps4Sdk.KernelBase
import Ps4Sdk.CheckedBlocks

/-!
# The swap and the spin lock of `atomic.s` and `atomic.c`

`ps4AtomicSwap64` loads the first operand, exchanges the loaded word with the
second operand under the bus lock, and stores the exchanged word back to the
first operand. The lock word is the first operand, so the exclusive instruction
protects the caller's own stack word. Threads interleave one instruction at a
time, and every access is sequentially consistent.
-/

namespace Ps4Sdk.AtomicSpinLocks
open StepRuns CheckedBlocks

/-- `mov (%rdi), %rax`, `lock xchg %rax, (%rsi)` and `mov %rax, (%rdi)`. -/
inductive SwapInstruction
  | load | xchg | store
  deriving DecidableEq

structure SwapOperands (w : ℕ) where
  memory : BitVec w
  swap : BitVec w
  rax : BitVec w
  deriving DecidableEq

def SwapInstruction.execute {w : ℕ} : SwapInstruction → SwapOperands w → SwapOperands w
  | .load, o => { o with rax := o.memory }
  | .xchg, o => { o with rax := o.swap, swap := o.rax }
  | .store, o => { o with memory := o.rax }

/-- The three instructions run without interruption. -/
def atomicSwap {w : ℕ} (memory swap : BitVec w) : BitVec w × BitVec w :=
  let o := SwapInstruction.store.execute
    (SwapInstruction.xchg.execute (SwapInstruction.load.execute ⟨memory, swap, 0⟩))
  (o.memory, o.swap)

def ps4AtomicSwap64 (memory swap : BitVec 64) : BitVec 64 × BitVec 64 := atomicSwap memory swap
def ps4AtomicSwap16 (memory swap : BitVec 16) : BitVec 16 × BitVec 16 := atomicSwap memory swap

/-- `ps4AtomicSpinLock64` without interruption. A word that is taken at the first
swap stays taken at every later one, so the loop never ends. -/
def ps4AtomicSpinLock64 (memory : BitVec 64) : Except Stop (BitVec 64) :=
  let r := ps4AtomicSwap64 memory 1
  if r.2 ≠ 0 then .error .spins else .ok r.1

/-- `ps4AtomicSpinUnlock64` without interruption. -/
def ps4AtomicSpinUnlock64 (memory : BitVec 64) : Code × BitVec 64 :=
  let r := ps4AtomicSwap64 memory 0
  (if r.2 ≠ 1 then ps4NotOk else ps4Ok, r.1)

@[simp] theorem ps4AtomicSpinLock64_free : ps4AtomicSpinLock64 0 = .ok 1 := rfl

theorem ps4AtomicSpinLock64_eq_ok {memory v : BitVec 64} :
    ps4AtomicSpinLock64 memory = .ok v ↔ memory = 0 ∧ v = 1 := by
  have hl : ps4AtomicSpinLock64 memory = if memory ≠ 0 then .error .spins else .ok 1 := rfl
  rw [hl]
  by_cases hz : memory = 0
  · rw [if_neg (not_not.mpr hz)]
    exact ⟨fun h => ⟨hz, (Except.ok.inj h).symm⟩, fun h => congrArg Except.ok h.2.symm⟩
  · rw [if_pos hz]
    refine ⟨fun h => ?_, fun h => absurd h.1 hz⟩
    cases h

/-- A thread that repeatedly calls `ps4AtomicSpinLock64` and then
`ps4AtomicSpinUnlock64` on one word. `lockBegin` and `unlockBegin` assign the
local word `v`, the two tests follow the swap. -/
inductive Pc
  | outside
  | lockBegin
  | lockSwap (i : SwapInstruction)
  | lockTest
  | inside
  | unlockBegin
  | unlockSwap (i : SwapInstruction)
  | unlockTest
  deriving DecidableEq

structure Thread where
  pc : Pc
  rax : BitVec 64
  v : BitVec 64
  result : Code
  deriving DecidableEq

def Thread.operands (memory : BitVec 64) (t : Thread) : SwapOperands 64 := ⟨memory, t.v, t.rax⟩

def Thread.put (t : Thread) (o : SwapOperands 64) (pc : Pc) : Thread :=
  { t with pc := pc, rax := o.rax, v := o.swap }

/-- The next instruction of a thread, on the shared word. -/
def Thread.next (memory : BitVec 64) (t : Thread) : BitVec 64 × Thread :=
  match t.pc with
  | .outside => (memory, { t with pc := .lockBegin })
  | .lockBegin => (memory, { t with pc := .lockSwap .load, v := 1 })
  | .lockSwap i =>
    let o := i.execute (t.operands memory)
    (o.memory, t.put o (match i with
      | .load => .lockSwap .xchg | .xchg => .lockSwap .store | .store => .lockTest))
  | .lockTest =>
    if t.v ≠ 0 then (memory, { t with pc := .lockBegin })
    else (memory, { t with pc := .inside, result := ps4Ok })
  | .inside => (memory, { t with pc := .unlockBegin })
  | .unlockBegin => (memory, { t with pc := .unlockSwap .load, v := 0 })
  | .unlockSwap i =>
    let o := i.execute (t.operands memory)
    (o.memory, t.put o (match i with
      | .load => .unlockSwap .xchg | .xchg => .unlockSwap .store | .store => .unlockTest))
  | .unlockTest =>
    (memory, { t with pc := .outside, result := if t.v ≠ 1 then ps4NotOk else ps4Ok })

variable {ι : Type} [DecidableEq ι]

structure State (ι : Type) where
  memory : BitVec 64
  thread : ι → Thread

/-- One instruction of thread `i`. -/
def State.move (s : State ι) (i : ι) : State ι where
  memory := ((s.thread i).next s.memory).1
  thread := Function.update s.thread i ((s.thread i).next s.memory).2

def Step (s : State ι) (i : ι) (t : State ι) : Prop := t = s.move i

structure Initial (s : State ι) : Prop where
  memory : s.memory = 0
  outside : ∀ i, (s.thread i).pc = .outside

/-- No two threads are both between the return of the lock and the call of the unlock. -/
def MutualExclusion (s : State ι) : Prop :=
  ∀ i j, (s.thread i).pc = .inside → (s.thread j).pc = .inside → i = j

def Thread.Pending (t : Thread) : Prop :=
  (t.pc = .lockSwap .xchg ∧ t.rax = 0) ∨ (t.pc = .lockSwap .store ∧ t.v = 0)

def Thread.Settled (t : Thread) : Prop :=
  (t.pc = .lockTest ∧ t.v = 0) ∨ t.pc = .inside ∨ t.pc = .unlockBegin ∨ ∃ i, t.pc = .unlockSwap i

/-- The thread may take its next instruction: it does not read a free word in
its locking swap while another thread still has to store over the same word. -/
def LoadsAlone (s : State ι) (i : ι) : Prop :=
  (s.thread i).pc = .lockSwap .load → s.memory = 0 → ∀ j, j ≠ i → ¬(s.thread j).Pending

def Thread.Operands (t : Thread) : Prop :=
  match t.pc with
  | .lockSwap .load | .lockSwap .xchg => t.v = 1
  | .lockSwap .store => t.rax = 1
  | .unlockSwap .load | .unlockSwap .xchg => t.v = 0
  | .unlockSwap .store => t.rax = 0
  | _ => True

def Thread.Claims (t : Thread) : Prop := t.Pending ∨ t.Settled

structure Owned (s : State ι) : Prop where
  operands : ∀ i, (s.thread i).Operands
  unique : ∀ i j, (s.thread i).Claims → (s.thread j).Claims → i = j
  held : ∀ i, (s.thread i).Settled → s.memory = 1

theorem Thread.next_operands (m : BitVec 64) (t : Thread) (h : t.Operands) :
    (t.next m).2.Operands := by
  rcases t with ⟨pc, rax, v, result⟩
  rcases pc with _ | _ | i | _ | _ | _ | i | _
  case lockTest =>
    by_cases hv : v = 0#64 <;> simp [next, Operands, hv]
  case lockSwap =>
    cases i <;> simp_all [next, Operands, put, operands, SwapInstruction.execute]
  case unlockSwap =>
    cases i <;> simp_all [next, Operands, put, operands, SwapInstruction.execute]
  all_goals simp [next, Operands]

/-- Everything one instruction can do to the shared word and to the claim of
its own thread on it. -/
theorem Thread.next_effect (m : BitVec 64) (t : Thread) (h : t.Operands) :
    (t.pc = .lockSwap .load ∧ m = 0 ∧ (t.next m).1 = m ∧ ¬(t.next m).2.Settled) ∨
    (¬(t.next m).2.Claims ∧ ((t.next m).1 = m ∨ (t.next m).1 = 1)) ∨
    (t.Claims ∧ (t.next m).1 = m ∧ ¬(t.next m).2.Settled) ∨
    (t.Claims ∧ (t.next m).1 = 1) ∨
    (t.Settled ∧ (t.next m).1 = m) ∨
    (t.Settled ∧ ¬(t.next m).2.Claims) := by
  rcases t with ⟨pc, rax, v, result⟩
  rcases pc with _ | _ | i | _ | _ | _ | i | _
  case lockTest =>
    by_cases hv : v = 0#64 <;> simp [next, Claims, Pending, Settled, hv]
  case lockSwap =>
    cases i with
    | load =>
      by_cases hm : m = 0#64 <;>
        simp [next, Claims, Pending, Settled, put, operands, SwapInstruction.execute, hm]
    | xchg =>
      by_cases hr : rax = 0#64 <;>
        simp [next, Claims, Pending, Settled, put, operands, SwapInstruction.execute, hr]
    | store =>
      have hr : rax = 1#64 := h
      by_cases hv : v = 0#64 <;>
        simp [next, Claims, Pending, Settled, put, operands, SwapInstruction.execute, hr, hv]
  case unlockSwap =>
    cases i <;> simp [next, Claims, Pending, Settled, put, operands, SwapInstruction.execute]
  all_goals simp [next, Claims, Pending, Settled]

omit [DecidableEq ι] in
private theorem owned_initial {s : State ι} (h : Initial s) : Owned s := by
  have hc (i : ι) : ¬(s.thread i).Claims := by
    simp [Thread.Claims, Thread.Pending, Thread.Settled, h.outside i]
  refine ⟨fun i => ?_, fun i j hi => absurd hi (hc i), fun i hi => absurd (Or.inr hi) (hc i)⟩
  simp [Thread.Operands, h.outside i]

private theorem move_self (s : State ι) (i : ι) :
    (s.move i).thread i = ((s.thread i).next s.memory).2 := by
  simp [State.move]

private theorem move_other (s : State ι) {i j : ι} (h : j ≠ i) :
    (s.move i).thread j = s.thread j := by
  simp [State.move, h]

omit [DecidableEq ι] in
/-- A thread that claims the word after a step claimed it before, or has just
read it free while nobody else did. -/
theorem Owned.alone {s : State ι} {i : ι} (h : Owned s) (hg : LoadsAlone s i)
    (hi : ((s.thread i).next s.memory).2.Claims) {j : ι} (hj : j ≠ i) : ¬(s.thread j).Claims := by
  intro hc
  rcases (s.thread i).next_effect s.memory (h.operands i) with
    ⟨hpc, hm, _, _⟩ | ⟨hn, _⟩ | ⟨ht, _⟩ | ⟨ht, _⟩ | ⟨ht, _⟩ | ⟨_, hn⟩
  · rcases hc with hp | hset
    · exact hg hpc hm j hj hp
    · exact absurd (hm.symm.trans (h.held j hset)) (by decide)
  · exact hn hi
  · exact hj (h.unique j i hc ht)
  · exact hj (h.unique j i hc ht)
  · exact hj (h.unique j i hc (Or.inr ht))
  · exact hn hi

omit [DecidableEq ι] in
/-- The word is taken after a step that leaves its thread settled. -/
theorem Owned.held_self {s : State ι} {i : ι} (h : Owned s)
    (hi : ((s.thread i).next s.memory).2.Settled) : ((s.thread i).next s.memory).1 = 1 := by
  rcases (s.thread i).next_effect s.memory (h.operands i) with
    ⟨_, _, _, hn⟩ | ⟨hn, _⟩ | ⟨_, _, hn⟩ | ⟨_, hm⟩ | ⟨hset, hm⟩ | ⟨_, hn⟩
  · exact absurd hi hn
  · exact absurd (Or.inr hi) hn
  · exact absurd hi hn
  · exact hm
  · exact hm.trans (h.held i hset)
  · exact absurd (Or.inr hi) hn

omit [DecidableEq ι] in
/-- It stays taken when another thread than the settled one takes a step. -/
theorem Owned.held_other {s : State ι} {i k : ι} (h : Owned s)
    (hk : (s.thread k).Settled) (hki : k ≠ i) :
    ((s.thread i).next s.memory).1 = 1 := by
  have hone := h.held k hk
  rcases (s.thread i).next_effect s.memory (h.operands i) with
    ⟨_, _, hm, _⟩ | ⟨_, hm | hm⟩ | ⟨_, hm, _⟩ | ⟨_, hm⟩ | ⟨_, hm⟩ | ⟨hset, _⟩
  · exact hm.trans hone
  · exact hm.trans hone
  · exact hm
  · exact hm.trans hone
  · exact hm
  · exact hm.trans hone
  · exact absurd (h.unique k i (Or.inr hk) (Or.inr hset)) hki

theorem owned_move {s : State ι} {i : ι} (h : Owned s) (hg : LoadsAlone s i) :
    Owned (s.move i) := by
  refine ⟨?_, ?_, ?_⟩
  · intro k
    by_cases hk : k = i
    · subst k
      rw [move_self]
      exact Thread.next_operands _ _ (h.operands i)
    · rw [move_other s hk]
      exact h.operands k
  · intro j k hj hk
    by_cases hji : j = i
    · subst j
      by_contra hne
      rw [move_self] at hj
      rw [move_other s (Ne.symm hne)] at hk
      exact h.alone hg hj (Ne.symm hne) hk
    · rw [move_other s hji] at hj
      by_cases hki : k = i
      · subst k
        rw [move_self] at hk
        exact absurd hj (h.alone hg hk hji)
      · rw [move_other s hki] at hk
        exact h.unique j k hj hk
  · intro k hk
    by_cases hki : k = i
    · subst k
      rw [move_self] at hk
      exact h.held_self hk
    · rw [move_other s hki] at hk
      exact h.held_other hk hki

omit [DecidableEq ι] in
private theorem Owned.mutualExclusion {s : State ι} (h : Owned s) : MutualExclusion s := by
  intro i j hi hj
  exact h.unique i j (Or.inr (Or.inr (Or.inl hi))) (Or.inr (Or.inr (Or.inl hj)))

private theorem run_schedule (s : State ι) (as : List ι) :
    Run Step s as (as.foldl State.move s) := by
  induction as generalizing s with
  | nil => exact .nil s
  | cons i as ih => exact .cons rfl (ih (s.move i))

/-- A thread that has read a free word enters on its own, whatever the others do later. -/
theorem pending_enters (s : State ι) (i : ι) (h : (s.thread i).Pending) :
    ∃ as t, Run Step s as t ∧ (t.thread i).pc = .inside ∧ ∀ j, j ≠ i → t.thread j = s.thread j := by
  have hstore (s : State ι) (h : (s.thread i).pc = .lockSwap .store ∧ (s.thread i).v = 0#64) :
      ∃ as t, Run Step s as t ∧ (t.thread i).pc = .inside ∧ ∀ j, j ≠ i →
      t.thread j = s.thread j := by
    refine ⟨[i, i], _, run_schedule s [i, i], ?_, ?_⟩
    · simp [State.move, Thread.next, Thread.put, Thread.operands, SwapInstruction.execute, h]
    · intro j hj
      simp [State.move, hj]
  rcases h with h | h
  · obtain ⟨as, t, hr, hin, ho⟩ := hstore (s.move i) (by
      simp [State.move, Thread.next, Thread.put, Thread.operands, SwapInstruction.execute, h])
    refine ⟨i :: as, t, .cons rfl hr, hin, fun j hj => ?_⟩
    rw [ho j hj, move_other s hj]
  · exact hstore s h

theorem pending_pair_enters (s : State ι) {i j : ι} (hij : j ≠ i)
    (hi : (s.thread i).Pending) (hj : (s.thread j).Pending) :
    ∃ as t, Run Step s as t ∧ ¬MutualExclusion t := by
  obtain ⟨as, t, hr, hin, ho⟩ := pending_enters s i hi
  obtain ⟨bs, u, hr', hin', ho'⟩ := pending_enters t j (by rw [ho j hij]; exact hj)
  refine ⟨as ++ bs, u, hr.trans hr', fun hm => hij (hm j i hin' ?_)⟩
  rw [ho' i hij.symm]
  exact hin

/-- In every run in which each load of a locking swap meets `LoadsAlone`, at
most one thread is inside; and wherever a thread can load against it, the run
can be continued to two threads inside. -/
theorem mutualExclusion_of_loadsAlone (s₀ s : State ι) (as : List ι) (h₀ : Initial s₀)
    (hr : Run (Guarded LoadsAlone Step) s₀ as s) :
    MutualExclusion s ∧ ∀ i, ¬LoadsAlone s i →
      ∃ bs t, Run Step (s.move i) bs t ∧ ¬MutualExclusion t := by
  have howned : Owned s := hr.invariant (fun s i t h hst => by
    obtain ⟨hg, rfl⟩ := hst
    exact owned_move h hg) (owned_initial h₀)
  refine ⟨howned.mutualExclusion, fun i hbad => ?_⟩
  simp only [LoadsAlone, Classical.not_imp, not_forall, not_not] at hbad
  obtain ⟨hpc, hm, j, hj, hp⟩ := hbad
  apply pending_pair_enters (s.move i) hj
  · left
    simp [State.move, Thread.next, Thread.put, Thread.operands, SwapInstruction.execute, hpc, hm]
  · rw [move_other s hj]
    exact hp

def start : State (Fin 2) := ⟨0, fun _ => ⟨.outside, 0, 0, 0⟩⟩

theorem start_initial : Initial start := ⟨rfl, fun _ => rfl⟩

theorem mutualExclusion_of_loadsAlone_start :
    MutualExclusion ([0, 0, 0, 0, 0, 0].foldl State.move start) :=
  (mutualExclusion_of_loadsAlone start _ [0, 0, 0, 0, 0, 0] start_initial
    (.cons ⟨fun h => absurd h (by decide), rfl⟩ <| .cons ⟨fun h => absurd h (by decide), rfl⟩ <|
      .cons ⟨fun _ _ j hj => by
        have he : j = 1 := by omega
        subst he
        simp [start, State.move, Thread.Pending], rfl⟩ <|
      .cons ⟨fun h => absurd h (by decide), rfl⟩ <| .cons ⟨fun h => absurd h (by decide), rfl⟩ <|
      .cons ⟨fun h => absurd h (by decide), rfl⟩ (.nil _))).1

/-- Both threads load the free word before either stores. -/
theorem spinLock_admits_two_threads :
    ¬∀ (s₀ s : State (Fin 2)) (as : List (Fin 2)),
      Initial s₀ → Run Step s₀ as s → MutualExclusion s := by
  intro h
  have hm := h start _ [0, 0, 0, 1, 1, 1, 0, 0, 0, 1, 1, 1] start_initial (run_schedule _ _)
  exact absurd (hm 0 1 (by decide) (by decide)) (by decide)

end Ps4Sdk.AtomicSpinLocks
