import Ps4Sdk.HeapBlocks
import Ps4Sdk.InterruptedCopies
import Ps4Sdk.KernelBase
import Ps4Sdk.StepRuns

/-!
# Clones of a system call hook that is being added to

`ps4KernelSystemCallHookAdd` works under the hook mutex and does not take the spin lock
of the handle, under which the prologue of a calling thread clones it. `Add` may
therefore free and replace the arrays, change their size and count a new pair at any
point of a clone. One call of `Add` and one clone are in progress at a time.
-/

namespace Ps4Sdk.SystemCallHookSnapshots
open HeapBlocks StepRuns InterruptedCopies ByteMemory

abbrev WordHeap := Heap Address (List (BitVec 64))

abbrev Pair := BitVec 64 × BitVec 64

/-- The fields of `Ps4KernelSystemCallHookArgument` that `Add` writes. -/
structure Table where
  hook : Address
  hookType : Address
  hookCount : ℕ
  hookSize : ℕ

/-- The writes of `Add` that replace the arrays, in their order. -/
inductive Growth
  | freeHook | freeHookType | setHook | setHookType | doubleSize
  deriving DecidableEq

/-- The writes of `Add` that add the pair, in their order. -/
inductive Store
  | hook | hookType | count
  deriving DecidableEq

/-- Where the call of `Add` that holds the hook mutex is. -/
inductive Stage
  | idle
  | growing (pair : Pair) (m m2 : Address) (next : Growth)
  | storing (pair : Pair) (next : Store)

structure ArrayCopy where
  space : ℕ
  source : Address
  limit : ℕ
  taken : List (BitVec 8)

/-- The block of the clone is allocated, the address and the size of the array are read, and
then it is copied byte by byte. -/
inductive ArrayStage
  | start
  | allocated (space : ℕ)
  | loaded (space : ℕ) (source : Address)
  | copying (c : ArrayCopy)

/-- A thread in `ps4PayloadSystemCallHookArgumentClone`: the bytes of `hookCount` it has copied
with the handle, how far it is with the arrays, and how many pairs there were when it began. -/
structure Cloner where
  count : List (BitVec 8)
  hook : ArrayStage
  hookType : ArrayStage
  entered : ℕ

structure Taken where
  count : ℕ
  hook : List (BitVec 64)
  hookType : List (BitVec 64)
  entered : ℕ
  added : List Pair

structure State where
  heap : WordHeap
  table : Table
  stage : Stage
  cloner : Option Cloner
  clones : List Taken
  added : List Pair

def Growth.run (heap : WordHeap) (a : Table) (m m2 : Address) : Growth →
    Except Fault (WordHeap × Table)
  | .freeHook => return (← free heap a.hook, a)
  | .freeHookType => return (← free heap a.hookType, a)
  | .setHook => return (heap, { a with hook := m })
  | .setHookType => return (heap, { a with hookType := m2 })
  | .doubleSize => return (heap, { a with hookSize := a.hookSize * 2 })

def Growth.after (pair : Pair) (m m2 : Address) : Growth → Stage
  | .freeHook => .growing pair m m2 .freeHookType
  | .freeHookType => .growing pair m m2 .setHook
  | .setHook => .growing pair m m2 .setHookType
  | .setHookType => .growing pair m m2 .doubleSize
  | .doubleSize => .storing pair .hook

def storeWord (heap : WordHeap) (array : Address) (i : ℕ) (word : BitVec 64) :
    Except Fault WordHeap :=
  match heap array with
  | some words => if i <
      words.length then .ok (put heap array (words.set i word)) else .error .outOfBounds
  | none => .error .notLive

def Store.run (heap : WordHeap) (a : Table) (pair : Pair) : Store → Except Fault (WordHeap × Table)
  | .hook => return (← storeWord heap a.hook a.hookCount pair.1, a)
  | .hookType => return (← storeWord heap a.hookType a.hookCount pair.2, a)
  | .count => return (heap, { a with hookCount := a.hookCount + 1 })

def Store.after (pair : Pair) : Store → Stage
  | .hook => .storing pair .hookType
  | .hookType => .storing pair .count
  | .count => .idle

def Store.counted (added : List Pair) (pair : Pair) : Store → List Pair
  | .hook | .hookType => added
  | .count => added ++ [pair]

/-- The copy of one more byte, or nothing when all are copied. -/
def ArrayCopy.next (heap : WordHeap) (c : ArrayCopy) : Except Fault (Option ArrayCopy) :=
  if c.taken.length < c.limit then
    match heap c.source with
    | none => .error .notLive
    | some words =>
      match (arrayBytes words)[c.taken.length]? with
      | some byte =>
        if c.taken.length < c.space then .ok (some { c with taken := c.taken ++ [byte] })
          else .error .outOfBounds
      | none => .error .outOfBounds
  else .ok none

/-- What the clone does next with an array of the handle. -/
def ArrayStage.next (heap : WordHeap) (array : Address) (hookSize : ℕ) :
    ArrayStage → Except Fault (Option ArrayStage)
  | .start => .ok (some (.allocated (hookSize * 8)))
  | .allocated space => .ok (some (.loaded space array))
  | .loaded space source => .ok (some (.copying ⟨space, source, hookSize * 8, []⟩))
  | .copying c => return (← c.next heap).map .copying

/-- What the clone does next: the handle, then the hooks, then their types. -/
def Cloner.next (heap : WordHeap) (a : Table) (p : Cloner) : Except Fault (Option Cloner) :=
  match (wordBytes 8 a.hookCount)[p.count.length]? with
  | some byte => .ok (some { p with count := p.count ++ [byte] })
  | none => do
    match ← p.hook.next heap a.hook a.hookSize with
    | some stage => return some { p with hook := stage }
    | none =>
      let stage ← p.hookType.next heap a.hookType a.hookSize
      return stage.map (fun stage => { p with hookType := stage })

def ArrayStage.words : ArrayStage → List (BitVec 64)
  | .copying c => wordsOf (c.space / 8) c.taken
  | _ => []

def Cloner.clone (p : Cloner) (added : List Pair) : Taken :=
  ⟨bytesValue p.count, p.hook.words, p.hookType.words, p.entered, added⟩

def copied (old new : List (BitVec 64)) (count : ℕ) : List (BitVec 64) :=
  old.take count ++ new.drop count

inductive Action
  | add (pair : Pair)
  | grow
  | store
  | enter
  | copy
  | leave

inductive Step : State → Action → State → Prop
  | add {s : State} {pair : Pair} (idle : s.stage = .idle)
      (room : s.table.hookCount < s.table.hookSize) :
      Step s (.add pair) { s with stage := .storing pair .hook }
  | addFull {s : State} {pair : Pair} {m m2 : Address} {hooks types new new2 : List (BitVec 64)}
      (idle : s.stage = .idle) (full : s.table.hookSize ≤ s.table.hookCount)
      (hooksLive : s.heap s.table.hook = some hooks)
      (typesLive : s.heap s.table.hookType = some types)
      (fresh : s.heap m = none) (fresh2 : s.heap m2 = none) (different : m ≠ m2)
      (size : new.length = 2 * s.table.hookSize) (size2 : new2.length = 2 * s.table.hookSize)
      (fits : 2 * s.table.hookSize * 8 < 2 ^ 64) :
      Step s (.add pair) { s with
        heap := put (put s.heap m (copied hooks new s.table.hookCount)) m2
          (copied types new2 s.table.hookCount)
        stage := .growing pair m m2 .freeHook }
  | grow {s : State} {pair : Pair} {m m2 : Address} {g : Growth} {heap : WordHeap} {a : Table}
      (stage : s.stage = .growing pair m m2 g) (h : g.run s.heap s.table m m2 = .ok (heap, a)) :
      Step s .grow { s with heap := heap, table := a, stage := g.after pair m m2 }
  | store {s : State} {pair : Pair} {k : Store} {heap : WordHeap} {a : Table}
      (stage : s.stage = .storing pair k) (h : k.run s.heap s.table pair = .ok (heap, a)) :
      Step s .store
        { s with heap := heap, table := a, stage := k.after pair, added := k.counted s.added pair }
  | enter {s : State} (free : s.cloner = none) :
      Step s .enter { s with cloner := some ⟨[], .start, .start, s.added.length⟩ }
  | copy {s : State} {p p' : Cloner} (cloner : s.cloner = some p)
      (h : p.next s.heap s.table = .ok (some p')) :
      Step s .copy { s with cloner := some p' }
  | leave {s : State} {p : Cloner} (cloner : s.cloner = some p)
      (h : p.next s.heap s.table = .ok none) :
      Step s .leave { s with cloner := none, clones := s.clones ++ [p.clone s.added] }

/-- A handle as `Create` makes it, with arrays of eight words. -/
def initial (heap : WordHeap) (hook hookType : Address) : State :=
  ⟨heap, ⟨hook, hookType, 0, 8⟩, .idle, none, [], []⟩

/-- The clone holds, below its count, exactly the first pairs, at least those that had been added
when it began and only ones that have been. -/
structure Taken.Correct (t : Taken) : Prop where
  least : t.entered ≤ t.count
  most : t.count ≤ t.added.length
  pairs : (t.hook.take t.count).zip (t.hookType.take t.count) = t.added.take t.count

/-- A clone in progress reads and writes only where it may, and the clones made are correct. -/
structure Safe (s : State) : Prop where
  reads : ∀ p, s.cloner = some p → ∃ p', p.next s.heap s.table = .ok p'
  live : ∀ p c, s.cloner = some p → p.hook = .copying c ∨ p.hookType = .copying c →
    c.taken.length < c.limit →
    ∃ words, s.heap c.source = some words ∧ s.table.hookSize ≤ words.length
  correct : ∀ t ∈ s.clones, t.Correct

/-- The conditions: a clone is not in progress from the first free of a growth to the change of the
size, and the count is not changed while a clone is between its first and its last byte. -/
def Orderly (s : State) : Action → Prop
  | .grow => ∀ pair m m2, s.stage = .growing pair m m2 .freeHook → s.cloner = none
  | .enter => ∀ pair m m2 g, s.stage = .growing pair m m2 g → g = .freeHook
  | .store => ∀ pair p, s.stage = .storing pair .count → s.cloner = some p →
      ¬(0 < p.count.length ∧ p.count.length < 8)
  | _ => True

end Ps4Sdk.SystemCallHookSnapshots
