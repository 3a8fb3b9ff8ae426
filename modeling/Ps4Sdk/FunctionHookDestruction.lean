import Ps4Sdk.HookDestructionRuns
import Ps4Sdk.FunctionHookDispatch

/-!
# Destroying a function hook

A call of a hooked function runs through the prologue, which makes a clone of the
handle, and enters the handler, which leaves the count at once. The hooks and the
bridge run after that, and the bridge belongs to the handle.
-/

namespace Ps4Sdk.FunctionHookDestruction
open StepRuns CallSequences FunctionHookHandler HookDestruction

/-- The blocks that `ps4KernelFunctionHookDestroy` frees. -/
inductive FunctionHookBlock
  | handle | prologue | bridge | hook | hookType | arguments | returns
  deriving DecidableEq

def frees : List FunctionHookBlock :=
  [.prologue, .bridge, .hook, .hookType, .arguments, .returns, .handle]

def inPrologue : Instruction FunctionHookBlock := ⟨some .prologue, [], .plain⟩

def inPrologueOnHandle : Instruction FunctionHookBlock := ⟨some .prologue, [.handle], .plain⟩

/-- `movabs $0, %r11` and `lock incq 16(%r11)`. -/
def prologueEntry : List (Instruction FunctionHookBlock) :=
  [inPrologue, ⟨some .prologue, [.handle], .countUp⟩]

def prologueSave : List (Instruction FunctionHookBlock) := List.replicate 16 inPrologue

/-- The statements of `ps4PayloadFunctionHookArgumentClone`: an allocation and a copy of
the handle, of its hooks and of their types, the allocations of the two register
blocks, and the return. -/
def argumentClone : List (Instruction FunctionHookBlock) :=
  [⟨none, [.handle], .plain⟩, ⟨none, [.handle], .plain⟩, ⟨none, [.handle], .plain⟩,
    ⟨none, [.handle, .hook], .plain⟩, ⟨none, [.handle], .plain⟩,
    ⟨none, [.handle, .hookType], .plain⟩,
    ⟨none, [.handle], .plain⟩, ⟨none, [.handle], .plain⟩, outside]

/-- `movq %r11, %rdi`, `pushq %r11` and `call *0(%r11)`, then `popq %r11`,
`lock incq 56(%r11)`, `movq %r12, 32(%rax)` and `movq %rax, %r12`. -/
def prologueClone : List (Instruction FunctionHookBlock) :=
  [inPrologue, inPrologue, inPrologueOnHandle] ++ argumentClone ++
    [inPrologue, inPrologueOnHandle, inPrologue, inPrologue]

def prologueRestore : List (Instruction FunctionHookBlock) := List.replicate 16 inPrologue

def prologueLeave : List (Instruction FunctionHookBlock) := [inPrologue, inPrologueOnHandle]

def counted : List (Instruction FunctionHookBlock) :=
  prologueEntry ++ spinLock .prologue .handle ++ prologueSave ++ prologueClone ++ prologueRestore ++
    prologueLeave ++ spinUnlock none .handle

/-- A hook runs outside the blocks of the handle. The original is called through the
bridge, with its copied instructions and the two of the jump behind them. -/
def callInstructions (copied : ℕ) : Call → List (Instruction FunctionHookBlock)
  | .called _ _ => [outside]
  | .original => outside :: List.replicate (copied + 2) ⟨some .bridge, [], .plain⟩ ++ [outside]

/-- A call whose handler makes these calls, to its return. -/
def program (copied : ℕ) (calls : List Call) : List (Instruction FunctionHookBlock) :=
  counted ++ (calls.flatMap (callInstructions copied) ++ [outside])

/-- The calls that the handler makes on some clone, with some hooks and original. -/
def Handled (calls : List Call) : Prop :=
  ∃ (W : Type) (b : Behaviour W) (c : Clone) (f f' : Frame W),
    Reaches b c (.handler, f) (.ret, f') ∧ f'.calls = f.calls ++ calls

theorem counted_counts : Counts 1 59 counted := counts_of_zipIdx (by decide) (by decide)

theorem program_counts (copied : ℕ) (calls : List Call) : Counts 1 59 (program copied calls) := by
  apply counted_counts.append (by decide)
  intro ins hins
  simp only [List.mem_append, List.mem_flatMap, List.mem_singleton] at hins
  rcases hins with ⟨call, -, hcall⟩ | rfl
  · cases call with
    | called k control =>
      obtain rfl := List.mem_singleton.mp hcall
      rfl
    | original =>
      simp only [callInstructions, List.cons_append, List.mem_cons, List.mem_append,
        List.mem_replicate, List.not_mem_nil, or_false] at hcall
      rcases hcall with rfl | ⟨-, rfl⟩ | rfl <;> rfl
  · rfl

/-- The calls of a hooked function with so many instructions in its bridge. -/
def protocol (copied : ℕ) : Protocol FunctionHookBlock where
  programs p := ∃ calls, Handled calls ∧ p = program copied calls
  up := 1
  down := 59
  frees := frees
  order := by decide
  counts := by
    rintro p ⟨calls, -, rfl⟩
    exact program_counts copied calls

/-- Destroying a function hook is safe for any number of threads and any interleaving
when, at the moment at which `Destroy` finds the entry count at zero, no thread that
left the count has still to access the handle or to run through the bridge; and it is
not safe otherwise. -/
theorem functionHook_destroy_safe {ι : Type} [Fintype ι] [DecidableEq ι] (copied : ℕ)
    (s₀ s : State ι FunctionHookBlock) (as : List (Action ι FunctionHookBlock)) (h₀ : Initial s₀)
    (hr : Run (Guarded (Quiet (protocol copied)) (Step (protocol copied))) s₀ as s) :
    Safe s ∧ (¬Quiet (protocol copied) s (.destroy : Action ι FunctionHookBlock) →
      ∃ bs t, Run (Step (protocol copied)) s bs t ∧ (∀ b ∈ frees, b ∈ t.freed) ∧ ¬Safe t) :=
  safe_and_tight h₀ hr

theorem handled_original : Handled [.original] := by
  have h := holds_smallClone [] (by simp)
  obtain ⟨calls, f', hr, hcalls, -, hq, hd⟩ := handler_run quiet _ entered h.length h.zero_mem
  refine ⟨Unit, quiet, smallClone [], entered, f', hr, hcalls.trans ?_⟩
  rw [hd.all_called (fun k control hm => returns_quiet (hq k control hm)) (by decide)]
  rfl

private theorem program_original : (protocol 3).programs (program 3 [.original]) :=
  ⟨_, handled_original, rfl⟩

theorem functionHook_destroy_safe_after_call :
    ∃ as u, Run (Guarded (Quiet (protocol 3)) (Step (protocol 3))) start as u ∧
      u.freed = frees.reverse ∧ Safe u := by
  obtain ⟨as, hr⟩ := run_call_destroy program_original 71 21 rfl (by decide) rfl
  exact ⟨as, _, hr, rfl, (functionHook_destroy_safe 3 start _ as start_initial hr).1⟩

/-- A thread that is suspended in the handler, after it has left the count, runs
through the freed bridge. -/
theorem suspended_handler_enters_freed_bridge :
    ∃ as u, Run (Step (protocol 3)) start as u ∧ (∀ b ∈ frees, b ∈ u.freed) ∧ ¬Safe u :=
  unsafe_of_suspended program_original 63 rfl (by decide) (j := 64) (b := .bridge) (by decide) rfl
    (by decide) (by decide)

end Ps4Sdk.FunctionHookDestruction
