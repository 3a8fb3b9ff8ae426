import Ps4Sdk.HookDestructionRuns

/-!
# Destroying a system call hook

The prologue of a hooked system call leaves the count and releases the spin lock by
itself, so that its last instructions lie in a block that may be freed by then. The
handler runs on a clone of the handle and calls the original directly.
-/

namespace Ps4Sdk.SystemCallHookDestruction
open StepRuns HookDestruction

/-- The blocks that `ps4KernelSystemCallHookDestroy` frees. -/
inductive SystemCallHookBlock
  | handle | prologue | hook | hookType
  deriving DecidableEq

def frees : List SystemCallHookBlock := [.hook, .hookType, .prologue, .handle]

def inPrologue : Instruction SystemCallHookBlock := ⟨some .prologue, [], .plain⟩

def inPrologueOnHandle : Instruction SystemCallHookBlock := ⟨some .prologue, [.handle], .plain⟩

/-- `movabs $0, %r11` and `lock incq 24(%r11)`. -/
def prologueEntry : List (Instruction SystemCallHookBlock) :=
  [inPrologue, ⟨some .prologue, [.handle], .countUp⟩]

/-- The statements of `ps4PayloadSystemCallHookArgumentClone`: an allocation and a copy
of the handle, of its hooks and of their types, two assignments to the clone, and the
return. -/
def argumentClone : List (Instruction SystemCallHookBlock) :=
  [⟨none, [.handle], .plain⟩, ⟨none, [.handle], .plain⟩, ⟨none, [.handle], .plain⟩,
    ⟨none, [.handle, .hook], .plain⟩, ⟨none, [.handle], .plain⟩,
    ⟨none, [.handle, .hookType], .plain⟩,
    outside, outside, outside]

/-- `movq %rsi, %rdx`, `movq %r11, %rsi`, `pushq %r11` and `call *0(%r11)`, then
`popq %r11`, `movq 16(%rax), %rdi`, `movq %rax, %rsi` and `lock incq 32(%r11)`. -/
def prologueClone : List (Instruction SystemCallHookBlock) :=
  [inPrologue, inPrologue, inPrologue, inPrologueOnHandle] ++ argumentClone ++
    [inPrologue, inPrologue, inPrologue, inPrologueOnHandle]

def counted : List (Instruction SystemCallHookBlock) :=
  prologueEntry ++ spinLock .prologue .handle ++ prologueClone ++
    spinUnlock (some .prologue) .handle

/-- A call with `jmpq *8(%rax)` and so many instructions of the handler, the hooks and
the original. -/
def program (handled : ℕ) : List (Instruction SystemCallHookBlock) :=
  counted ++ (inPrologue :: List.replicate handled outside)

theorem counted_counts : Counts 1 26 counted := counts_of_zipIdx (by decide) (by decide)

theorem program_counts (handled : ℕ) : Counts 1 26 (program handled) := by
  apply counted_counts.append (by decide)
  intro ins hins
  rcases List.mem_cons.mp hins with rfl | hins
  · rfl
  · rw [List.eq_of_mem_replicate hins]
    rfl

def protocol : Protocol SystemCallHookBlock where
  programs p := ∃ handled, p = program handled
  up := 1
  down := 26
  frees := frees
  order := by decide
  counts := by
    rintro p ⟨handled, rfl⟩
    exact program_counts handled

/-- Destroying a system call hook is safe for any number of threads and any interleaving
when, at the moment at which `Destroy` finds the entry count at zero, every thread that
left the count has left the prologue; and it is not safe otherwise. -/
theorem systemCallHook_destroy_safe {ι : Type} [Fintype ι] [DecidableEq ι]
    (s₀ s : State ι SystemCallHookBlock) (as : List (Action ι SystemCallHookBlock))
    (h₀ : Initial s₀)
    (hr : Run (Guarded (Quiet protocol) (Step protocol)) s₀ as s) :
    Safe s ∧ (¬Quiet protocol s (.destroy : Action ι SystemCallHookBlock) →
      ∃ bs t, Run (Step protocol) s bs t ∧ (∀ b ∈ frees, b ∈ t.freed) ∧ ¬Safe t) :=
  safe_and_tight h₀ hr

theorem systemCallHook_destroy_safe_after_call :
    ∃ as u, Run (Guarded (Quiet protocol) (Step protocol)) start as u ∧
      u.freed = frees.reverse ∧ Safe u := by
  obtain ⟨as, hr⟩ := run_call_destroy (P := protocol) (p := program 1)
    ⟨1, rfl⟩ 32 18 rfl (by decide) rfl
  exact ⟨as, _, hr, rfl, (systemCallHook_destroy_safe start _ as start_initial hr).1⟩

/-- A thread that is suspended right after it has released the spin lock goes on in the
freed prologue. -/
theorem unlocked_thread_runs_freed_prologue :
    ∃ as u, Run (Step protocol) start as u ∧ (∀ b ∈ frees, b ∈ u.freed) ∧ ¬Safe u :=
  unsafe_of_suspended (P := protocol) (p := program 1) ⟨1, rfl⟩ 29 rfl (by decide)
    (j := 29) (b := .prologue)
    (by decide) rfl (by decide) (by decide)

end Ps4Sdk.SystemCallHookDestruction
