import Ps4Sdk.FunctionHookTableRefinement
import Ps4Sdk.FunctionHookDispatch
import Ps4Sdk.InterruptedCopies

/-!
# Clones of a hook table that is being changed

The prologue of a calling thread copies the hooks and then their types, byte by
byte, under the spin lock of the handle. A removal and the growth of a table
happen under that lock as well, but `Add` stores the new pair after it has released
it, in four stores. The lock is taken to be correct here: whoever holds it is alone
in what is done under it.
-/

namespace Ps4Sdk.FunctionHookSnapshots
open CheckedBlocks AtomicSpinLocks StepRuns FunctionHookTables FunctionHookHandler InterruptedCopies

/-- The stores of `Add` behind the spin lock, in their order. -/
inductive Store
  | hook | hookType | count | terminator
  deriving DecidableEq

def Store.run (a : HookTable) (hook : Address) (type : ℤ) : Store → Except Stop HookTable
  | .hook => do
    let m ← store a.hook a.hookCount hook
    return { a with hook := m }
  | .hookType => do
    let m ← store a.hookType a.hookCount type
    return { a with hookType := m }
  | .count => return { a with hookCount := a.hookCount + 1 }
  | .terminator => do
    let m ← store a.hook a.hookCount 0#64
    return { a with hook := m }

theorem stores_eq_publish (a : HookTable) (hook : Address) (type : ℤ) :
    (do
      let a ← Store.hook.run a hook type
      let a ← Store.hookType.run a hook type
      let a ← Store.count.run a hook type
      Store.terminator.run a hook type) = publish a hook type := by
  simp only [Store.run, publish, bind_assoc, pure_bind]

inductive Stage
  | idle
  | publishing (hook : Address) (type : HookType) (next : Store)
  deriving DecidableEq

/-- What a thread in `ps4PayloadFunctionHookArgumentClone` has copied. -/
structure Copy where
  hook : List (BitVec 8)
  hookType : List (BitVec 8)
  deriving DecidableEq

structure Taken where
  clone : Clone
  calls : List HookCall
  deriving DecidableEq

/-- The call that holds the hook mutex is at a stage, and a thread that holds the spin
lock copies. The calls that have reached the table are recorded in order, and so are
the clones. -/
structure State where
  table : HookTable
  stage : Stage
  cloner : Option Copy
  clones : List Taken
  calls : List HookCall

inductive Action
  | add (hook : Address) (type : HookType) (m : Allocation)
  | store
  | remove (hook : Address)
  | enter
  | copy
  | leave (address curthread : Address)

def typeWords (types : List ℤ) : List (BitVec 64) := types.map (BitVec.ofInt 64)

/-- One byte of the copy of the hooks, or, behind it, of the types. -/
def Copy.next (a : HookTable) (p : Copy) : Option Copy :=
  if p.hook.length < (a.hookSize * 8).toNat then
    (arrayBytes a.hook)[p.hook.length]?.map (fun byte => { p with hook := p.hook ++ [byte] })
  else if p.hookType.length < (a.hookSize * 8).toNat then
    (arrayBytes (typeWords a.hookType))[p.hookType.length]?.map
      (fun byte => { p with hookType := p.hookType ++ [byte] })
  else none

def Copy.Complete (a : HookTable) (p : Copy) : Prop :=
  (a.hookSize * 8).toNat ≤ p.hook.length ∧ (a.hookSize * 8).toNat ≤ p.hookType.length

/-- The clone as the handler reads it. -/
def Copy.clone (a : HookTable) (p : Copy) (address curthread : Address) : Clone where
  address := address
  hook := wordsOf a.hookSize.toNat p.hook
  hookType := (wordsOf a.hookSize.toNat p.hookType).map BitVec.toInt
  curthread := curthread

def Stage.after (hook : Address) (type : HookType) : Store → Stage
  | .hook => .publishing hook type .hookType
  | .hookType => .publishing hook type .count
  | .count => .publishing hook type .terminator
  | .terminator => .idle

/-- What the calls and the threads do next. What is done under the spin lock is one step
that needs the lock to be free, except for the copy. -/
inductive Step : State → Action → State → Prop
  | add {s : State} {hook : Address} {type : HookType} {m : Allocation} {a : HookTable}
      (hh : hook ≠ 0#64)
      (idle : s.stage = .idle) (free : s.cloner = none) (h : reserve m s.table = .ok (ps4Ok, a)) :
      Step s (.add hook type m)
        { s with
          table := a, stage := .publishing hook type .hook, calls := s.calls ++ [.add hook type m] }
  | addFails {s : State} {hook : Address} {type : HookType} {m : Allocation} {a : HookTable}
      {code : Code}
      (hh : hook ≠ 0#64) (idle : s.stage = .idle) (free : s.cloner = none)
      (h : reserve m s.table = .ok (code, a)) (hc : code ≠ ps4Ok) :
      Step s (.add hook type m) { s with table := a }
  | store {s : State} {hook : Address} {type : HookType} {k : Store} {a : HookTable}
      (stage : s.stage = .publishing hook type k) (h : k.run s.table hook type.value = .ok a) :
      Step s .store { s with table := a, stage := .after hook type k }
  | remove {s : State} {hook : Address} {a : HookTable} {code : Code} (hh : hook ≠ 0#64)
      (idle : s.stage = .idle) (free : s.cloner = none)
      (h : ps4KernelFunctionHookRemove s.table hook = .ok (code, a)) :
      Step s (.remove hook) { s with table := a, calls := s.calls ++ [.remove hook] }
  | enter {s : State} (free : s.cloner = none) (unlocked : s.table.lock = 0) :
      Step s .enter { s with cloner := some ⟨[], []⟩ }
  | copy {s : State} {p p' : Copy} (cloner : s.cloner = some p) (h : p.next s.table = some p') :
      Step s .copy { s with cloner := some p' }
  | leave {s : State} {p : Copy} {address curthread : Address} (cloner : s.cloner = some p)
      (complete : p.Complete s.table) :
      Step s (.leave address curthread)
        { s with
          cloner := none, clones := s.clones ++ [⟨p.clone s.table address curthread, s.calls⟩] }

def initial : State := ⟨created, .idle, none, [], []⟩

/-- What the calls have made of the table, as pairs of a hook and its type. -/
def content (calls : List HookCall) : List (Address × HookType) :=
  calls.foldl (fun l call => match call with
    | .add hook type _ => l ++ [(hook, type)]
    | .remove hook => l.filter (fun p => p.1 ≠ hook)) []

/-- In both phases the handler will run the entries as those of a table with these pairs,
which are the ones that their types say, unless another follows a disabled one. -/
structure HandledAs (entries : List Entry) (pairs : List (Address × HookType)) : Prop where
  read : ∀ phase, runnable phase entries = runnable phase (readFrom 0 pairs [])
  specified : DisabledLast pairs → ∀ phase, runnable phase entries = specified phase 0 pairs

/-- The entries are run as the content after all calls that have reached the table, or
after all but the last. -/
def RunAs (calls : List HookCall) (entries : List Entry) : Prop :=
  ∃ done, done <+: calls ∧ calls.length ≤ done.length + 1 ∧ HandledAs entries (content done)

/-- The conditions on the removals and on the stores: a removal leaves the types in their
places, the slot of a new hook holds no other type, and no store falls into the word
being copied. -/
def Orderly (s : State) : Action → Prop
  | .remove hook => Aligned s.table (.remove hook)
  | .store => ∀ hook type,
      (s.stage = .publishing hook type .hook →
        (s.table.hookType[s.table.hookCount.toNat]? = some HookType.disabled.value ∨
          s.table.hookType[s.table.hookCount.toNat]? = some type.value) ∧
        ∀ p, s.cloner = some p → ¬(8 * s.table.hookCount.toNat < p.hook.length ∧
          p.hook.length < 8 * s.table.hookCount.toNat + 8)) ∧
      (s.stage = .publishing hook type .hookType →
        ∀ p, s.cloner = some p → ¬(8 * s.table.hookCount.toNat < p.hookType.length ∧
          p.hookType.length < 8 * s.table.hookCount.toNat + 8))
  | _ => True

end Ps4Sdk.FunctionHookSnapshots
