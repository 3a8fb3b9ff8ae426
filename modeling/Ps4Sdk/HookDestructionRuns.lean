import Ps4Sdk.HookDestruction

/-!
# Runs of the destruction of a hook

No thread uses a freed block in a run in which `Destroy` finds the count at zero
only when the threads that left it are settled. Otherwise a thread that is not
settled outlives the blocks, and goes on to use one of them.
-/

namespace Ps4Sdk.HookDestruction
open StepRuns AtomicSpinLocks

variable {ι β : Type}

section Unsettled

variable [DecidableEq ι] {P : Protocol β} {s : State ι β} {i : ι}

private theorem Step.of_destroy {t : State ι β} (hp : s.destroyer ≠ .pausing)
    (h : s.destroy P.frees = some t) :
    Step P s .destroy t :=
  .destroy (fun hd => absurd hd hp) h

theorem run_freeing (rest : List β) (hd : s.destroyer = .freeing rest) :
    ∃ as t, Run (Step P) s as t ∧ t.thread = s.thread ∧ t.freed = rest.reverse ++ s.freed := by
  induction rest generalizing s with
  | nil => exact ⟨[], s, .nil s, rfl, rfl⟩
  | cons b rest ih =>
    obtain ⟨as, t, hr, ht, hf⟩ :=
      ih (s := { s with freed := b :: s.freed, destroyer := .freeing rest }) rfl
    refine ⟨.destroy :: as, t,
      .cons (.of_destroy (by simp [hd]) (by simp [State.destroy, hd])) hr, ht, ?_⟩
    simp [hf]

def unlockPath : List Pc :=
  [.outside, .unlockTest, .unlockSwap .store, .unlockSwap .xchg, .unlockSwap .load, .unlockBegin]

theorem unlockPath_next (u : AtomicSpinLocks.Thread) (l : BitVec 64) {n : ℕ}
    (h : unlockPath[n + 1]? = some u.pc) :
    unlockPath[n]? = some (u.next l).2.pc ∧ u.pc ≠ .inside ∧ u.pc ≠ .outside := by
  rcases n with _ | _ | _ | _ | _ | n
  all_goals
    simp only [unlockPath, List.getElem?_cons_succ, List.getElem?_cons_zero, List.getElem?_nil,
      Option.some.injEq, reduceCtorEq] at h
  all_goals
    simp [unlockPath, ← h, AtomicSpinLocks.Thread.next, AtomicSpinLocks.Thread.put]

theorem run_unlock (u : AtomicSpinLocks.Thread) (hd : s.destroyer = .critical u true) (n : ℕ)
    (hn : unlockPath[n]? = some u.pc) :
    ∃ as t, Run (Step P) s as t ∧ t.thread = s.thread ∧ t.freed = s.freed ∧
    t.destroyer = .freeing P.frees := by
  induction n generalizing s u with
  | zero =>
    have hpc : u.pc = .outside := by simpa [unlockPath, eq_comm] using hn
    refine ⟨[.destroy], { s with destroyer := .freeing P.frees }, .single ?_, rfl, rfl, rfl⟩
    exact .of_destroy (by simp [hd]) (by simp [State.destroy, hd, hpc])
  | succ n ih =>
    obtain ⟨hpath, hin, hout⟩ := unlockPath_next u s.lock hn
    obtain ⟨as, t, hr, ht, hf, hd'⟩ := ih (s := { s with
      lock := (u.next s.lock).1, destroyer := .critical (u.next s.lock).2 true }) _ rfl hpath
    refine ⟨.destroy :: as, t, .cons (.of_destroy (by simp [hd]) ?_) hr, ht, hf, hd'⟩
    simp [State.destroy, hd, hin, hout]

/-- A thread that has left the count runs on to any instruction ahead. -/
theorem run_ahead {j : ℕ} {ins : Instruction β} (hc : Counts P.up P.down (s.thread i).program)
    (hleft : P.down < (s.thread i).pc) (hj : (s.thread i).pc ≤ j)
    (hins : (s.thread i).program[j]? = some ins) :
    ∃ as t, Run (Step P) s as t ∧ (t.thread i).next = some ins ∧ t.freed = s.freed := by
  obtain ⟨n, hn⟩ : ∃ n, j = (s.thread i).pc + n := ⟨j - (s.thread i).pc, by omega⟩
  induction n generalizing s with
  | zero =>
    refine ⟨[], s, .nil s, ?_, rfl⟩
    rw [Thread.next, ← hins, hn, Nat.add_zero]
  | succ n ih =>
    have hlt : (s.thread i).pc < (s.thread i).program.length := by
      have hj' := (List.getElem?_eq_some_iff.mp hins).1
      omega
    have hnext : (s.thread i).next = some (s.thread i).program[(s.thread i).pc] :=
      List.getElem?_eq_getElem hlt
    have hpc := execute_pc s.entryCount s.lock hc hnext
    have hprogram := execute_program (t := s.thread i) s.entryCount s.lock
      (s.thread i).program[(s.thread i).pc].effect
    obtain ⟨as, t, hr, ht, hf⟩ := ih (s := s.execute i (s.thread i).program[(s.thread i).pc].effect)
      (by simpa [State.execute, hprogram] using hc) (by simp [State.execute]; omega)
      (by simp [State.execute]; omega) (by simpa [State.execute, hprogram] using hins)
      (by simp [State.execute]; omega)
    exact ⟨.execute i :: as, t, .cons (.execute hnext) hr, ht, hf⟩

/-- When `Destroy` finds the count at zero and a thread is not settled, the blocks are
freed and the thread then uses one of them. -/
theorem unsafe_of_not_quiet
    (h : ∀ i, ((s.thread i).program = [] ∧ (s.thread i).pc = 0) ∨ P.programs (s.thread i).program)
    (hq : ¬Quiet P s (.destroy : Action ι β)) :
    ∃ as t, Run (Step P) s as t ∧ (∀ b ∈ P.frees, b ∈ t.freed) ∧ ¬Safe t := by
  simp only [Quiet, Settled, not_forall, not_not] at hq
  obtain ⟨u, drained, hd, hin, hz, i, j, ins, hleft, hj, hins, b, hb, hfrees⟩ := hq
  have hcheck : Step P s .destroy
      { s with destroyer := .critical (u.next s.lock).2 true } :=
    .of_destroy (by simp [hd]) (by simp [State.destroy, hd, hin]; omega)
  have hpc : unlockPath[5]? = some (u.next s.lock).2.pc := by
    simp [unlockPath, AtomicSpinLocks.Thread.next, hin]
  obtain ⟨as₁, s₁, hr₁, ht₁, -, hd₁⟩ := run_unlock (P := P)
    (s := { s with destroyer := .critical (u.next s.lock).2 true }) _ rfl 5 hpc
  obtain ⟨as₂, s₂, hr₂, ht₂, hf₂⟩ := run_freeing (P := P) P.frees hd₁
  have hthread : s₂.thread = s.thread := ht₂.trans ht₁
  have hprograms : P.programs (s.thread i).program := by
    rcases h i with hnil | hp
    · omega
    · exact hp
  obtain ⟨as₃, s₃, hr₃, ht₃, hf₃⟩ := run_ahead (P := P) (s := s₂) (i := i) (j := j)
    (by rw [hthread]; exact P.counts _ hprograms) (by rw [hthread]; exact hleft)
    (by rw [hthread]; exact hj)
    (by rw [hthread]; exact hins)
  have hall : ∀ b ∈ P.frees, b ∈ s₃.freed := by
    intro b hb
    rw [hf₃, hf₂]
    simp [hb]
  exact ⟨_, s₃, .cons hcheck (hr₁.trans (hr₂.trans hr₃)), hall,
    fun hsafe => hsafe i ins ht₃ b hb (hall b hfrees)⟩

theorem safe_and_tight [Fintype ι] {s₀ : State ι β} {as : List (Action ι β)} (h₀ : Initial s₀)
    (hr : Run (Guarded (Quiet P) (Step P)) s₀ as s) :
    Safe s ∧ (¬Quiet P s (.destroy : Action ι β) →
      ∃ bs t, Run (Step P) s bs t ∧ (∀ b ∈ P.frees, b ∈ t.freed) ∧ ¬Safe t) := by
  have hinv : Draining P s :=
    hr.invariant (fun s a t h hs => h.step hs.1 hs.2) (draining_initial h₀)
  exact ⟨hinv.safe, unsafe_of_not_quiet hinv.programs⟩

/-! ### Runs of one thread -/

/-- The first instructions of a thread that runs without interruption. -/
def Thread.run : ℕ → ℤ → BitVec 64 → Thread β → Option (ℤ × BitVec 64 × Thread β)
  | 0, entryCount, lock, t => some (entryCount, lock, t)
  | n + 1, entryCount, lock, t => do
    let ins ← t.next
    let r := t.execute entryCount lock ins.effect
    Thread.run n r.1 r.2.1 r.2.2

theorem run_thread (n : ℕ) {r : ℤ × BitVec 64 × Thread β}
    (h : (s.thread i).run n s.entryCount s.lock = some r) :
    ∃ as, Run (Guarded (Quiet P) (Step P)) s as
      { s with entryCount := r.1, lock := r.2.1, thread := Function.update s.thread i r.2.2 } := by
  induction n generalizing s with
  | zero =>
    obtain rfl : (s.entryCount, s.lock, s.thread i) = r := Option.some.inj h
    refine ⟨[], ?_⟩
    simp only [Function.update_eq_self]
    exact .nil s
  | succ n ih =>
    obtain ⟨ins, hn, hrest⟩ := Option.bind_eq_some_iff.mp h
    obtain ⟨as, hr⟩ := ih (s := s.execute i ins.effect) (by simpa [State.execute] using hrest)
    refine ⟨.execute i :: as, .cons ⟨trivial, .execute hn⟩ ?_⟩
    simpa [State.execute] using hr

/-- `Destroy` comes to its test when the lock is free and no thread is uncounted. -/
theorem run_test (hd : s.destroyer = .installed) (hl : s.lock = 0)
    (hw : ∀ i, ¬(s.thread i).Waiting P.up) : ∃ as t u, Run (Step P) s as t ∧ t.thread = s.thread ∧
      t.entryCount = s.entryCount ∧ t.destroyer = .critical u false ∧ u.pc = .inside := by
  obtain ⟨c, l, freed, thread, d⟩ := s
  obtain rfl : d = .installed := hd
  obtain rfl : l = 0 := hl
  refine ⟨List.replicate 7 .destroy, ⟨c, 1, freed, thread, .critical ⟨.inside, 1, 0, ps4Ok⟩ false⟩,
    _, ?_, rfl, rfl, rfl, rfl⟩
  refine .cons (.of_destroy (by simp) rfl) (.cons (.destroy (fun _ => hw) rfl) ?_)
  exact .cons (.of_destroy (by simp) rfl) (.cons (.of_destroy (by simp) rfl)
    (.cons (.of_destroy (by simp) rfl) (.cons (.of_destroy (by simp) rfl)
      (.single (.of_destroy (by simp) rfl)))))

end Unsettled

/-! ### One caller -/

def start : State Unit β := ⟨0, 0, [], fun _ => ⟨[], 0, 0, false⟩, .installed⟩

theorem start_initial : Initial (start : State Unit β) := ⟨rfl, rfl, fun _ => ⟨rfl, rfl⟩, rfl⟩

theorem run_program (n : ℕ) {c c' : ℤ} {l l' : BitVec 64} {t t' : Thread β}
    (h : t.run n c l = some (c', l', t')) : t'.program = t.program := by
  induction n generalizing c l t with
  | zero =>
    cases h
    rfl
  | succ n ih =>
    obtain ⟨ins, -, hrest⟩ := Option.bind_eq_some_iff.mp h
    rw [ih hrest, execute_program]

/-- A thread that is suspended behind the count with a use of a block ahead of it. -/
theorem unsafe_of_suspended {P : Protocol β} {p : List (Instruction β)} (hp : P.programs p) (n : ℕ)
    {t : Thread β} (h : (⟨p, 0, 0, false⟩ : Thread β).run n 0 0 = some (0, 0, t))
    (hleft : P.down < t.pc) {j : ℕ}
    {ins : Instruction β} {b : β} (hj : t.pc ≤ j) (hins : p[j]? = some ins) (hb : b ∈ ins.uses)
    (hf : b ∈ P.frees) :
    ∃ as u, Run (Step P) start as u ∧ (∀ b ∈ P.frees, b ∈ u.freed) ∧ ¬Safe u := by
  have hprogram : t.program = p := run_program n h
  have hcall : Step P start (.call () p) { start with
    thread := Function.update start.thread () ⟨p, 0, 0, false⟩ } :=
    .call rfl rfl hp
  obtain ⟨as₁, hr₁⟩ := run_thread (P := P) (i := ())
    (s := { start with thread := Function.update start.thread () ⟨p, 0, 0, false⟩ }) n h
  obtain ⟨as₂, s, u, hr₂, hthread, hcount, hd, hin⟩ := run_test (P := P) (s := { start with
    thread := Function.update (Function.update start.thread () ⟨p, 0, 0, false⟩) () t }) rfl rfl (by
      intro _ hw
      have hle : t.pc ≤ P.up := hw.1
      have ho := P.order
      omega)
  have hs : s.thread () = t := by rw [hthread]; rfl
  obtain ⟨as₃, v, hr₃, hunsafe⟩ := unsafe_of_not_quiet (P := P) (s := s)
    (fun _ => .inr (by rw [hs, hprogram]; exact hp)) (fun hq => by
      refine hq u false hd hin (by rw [hcount]; exact Int.lt_irrefl 0) () j ins ?_ ?_ ?_ b hb hf
      · rwa [hs]
      · rwa [hs]
      · rwa [hs, hprogram])
  exact ⟨_, v, .cons hcall (hr₁.unguard.trans (hr₂.trans hr₃)), hunsafe⟩

/-- The first steps of `Destroy` without interruption. -/
def State.destroyRun (frees : List β) : ℕ → State ι β → Option (State ι β)
  | 0, s => some s
  | n + 1, s => (s.destroy frees).bind (State.destroyRun frees n)

theorem destroy_thread {frees : List β} {s t : State ι β} (h : s.destroy frees = some t) :
    t.thread = s.thread := by
  unfold State.destroy at h
  split at h
  · cases h
    rfl
  · cases h
    rfl
  · split_ifs at h <;> cases h <;> rfl
  · cases h
    rfl
  · cases h

/-- With no thread in a call `Destroy` is quiet throughout. -/
theorem run_undisturbed [DecidableEq ι] {P : Protocol β} (n : ℕ) {s t : State ι β}
    (hi : ∀ i, (s.thread i).program.length ≤ (s.thread i).pc)
    (h : s.destroyRun P.frees n = some t) :
    Run (Guarded (Quiet P) (Step P)) s (List.replicate n .destroy) t := by
  induction n generalizing s with
  | zero =>
    cases h
    exact .nil _
  | succ n ih =>
    obtain ⟨s', hs, hrest⟩ := Option.bind_eq_some_iff.mp h
    refine .cons ⟨fun _ _ _ _ _ i j ins _ hj hins => ?_, .destroy (fun _ i hw => ?_) hs⟩
      (ih (by rw [destroy_thread hs]; exact hi) hrest)
    · have hlt := (List.getElem?_eq_some_iff.mp hins).1
      have hle := hi i
      omega
    · exact absurd hw.2 (Nat.not_lt.mpr (hi i))

/-- A call from its begin to its end, and then `Destroy`. -/
theorem run_call_destroy {P : Protocol β} {p : List (Instruction β)} (hp : P.programs p) (n m : ℕ)
    {t : Thread β} {u : State Unit β} (h : (⟨p, 0, 0, false⟩ : Thread β).run n 0 0 = some (0, 0, t))
    (hend : p.length ≤ t.pc)
    (hd : State.destroyRun P.frees m (⟨0, 0, [], fun _ => t, .installed⟩ : State Unit β) = some u) :
    ∃ as, Run (Guarded (Quiet P) (Step P)) start as u := by
  have hcall : Step P start (.call () p) { start with
    thread := Function.update start.thread () ⟨p, 0, 0, false⟩ } :=
    .call rfl rfl hp
  obtain ⟨as, hr⟩ := run_thread (P := P) (i := ())
    (s := { start with thread := Function.update start.thread () ⟨p, 0, 0, false⟩ }) n h
  have hthread : Function.update (Function.update start.thread () ⟨p, 0, 0, false⟩)
      () t = fun _ => t := by
    funext i
    rfl
  simp only [hthread] at hr
  refine ⟨.call () p :: _, .cons ⟨trivial, hcall⟩ (hr.trans (run_undisturbed m (fun _ => ?_) hd))⟩
  rw [run_program n h]
  exact hend

end Ps4Sdk.HookDestruction
