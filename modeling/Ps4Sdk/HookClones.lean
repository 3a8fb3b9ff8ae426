import Ps4Sdk.AllocatedMemory
import Ps4Sdk.AssemblyRuns
import Ps4Sdk.KernelBase

/-!
# Hook handles and their clones in memory

The handles of `kernel/function.c` and `kernel/system_call.c` as structures in memory,
with the calls that change them and the clones that their payloads make. The two kinds
differ in the places of their fields, in the blocks that belong to a handle, and in that
the table of a function hook has a spin lock and keeps its last entry null. Nothing
checks an index: an entry is eight bytes at its distance from the pointer. A call that
frees what is not live, or waits for ever, does not return.
-/

namespace Ps4Sdk.HookClones
open ByteMemory AssemblyMachines AllocatedMemory

abbrev Store := Heap 64 (BitVec 8)

structure Layout where
  size : ℕ
  hook : ℕ
  hookType : ℕ
  hookCount : ℕ
  hookSize : ℕ
  lock : Option ℕ
  buffers : List (ℕ × ℕ)
  trailing : ℕ

/-- `Ps4KernelFunctionHookArgument` with its blocks `arguments` and `returns`. -/
def functionLayout : Layout where
  size := 192
  hook := 104
  hookType := 112
  hookCount := 128
  hookSize := 136
  lock := some 184
  buffers := [(64, 184), (72, 48)]
  trailing := 1

/-- `Ps4KernelSystemCallHookArgument`. -/
def systemCallLayout : Layout where
  size := 184
  hook := 112
  hookType := 120
  hookCount := 128
  hookSize := 136
  lock := none
  buffers := []
  trailing := 0

def field (m : Bytes) (uap : Address) (offset : ℕ) : Word := wordAt m (uap + BitVec.ofNat 64 offset)

def setField (m : Bytes) (uap : Address) (offset : ℕ) (v : Word) : Bytes :=
  putWord m (uap + BitVec.ofNat 64 offset) v

def slot (base index : Word) : Address := base + 8 * index

def onMemory (f : Bytes → Bytes) (h : Store) : Store := { h with memory := f h.memory }

/-! ### Add -/

/-- The outcomes of the allocations of a growing table, where zero is NULL. -/
structure Growth where
  hook : Address
  hookType : Address

def acquire (L : Layout) (uap : Address) (h : Store) : Option Store :=
  match L.lock with
  | none => some h
  | some o => if field h.memory uap o ≠ 0 then none else some (onMemory (setField · uap o 1) h)

def unlock (L : Layout) (uap : Address) (m : Bytes) : Bytes :=
  match L.lock with
  | none => m
  | some o => setField m uap o 0

def full (L : Layout) (m : Bytes) (uap : Address) : Bool :=
  BitVec.sle (field m uap L.hookSize - BitVec.ofNat 64 L.trailing) (field m uap L.hookCount)

/-- The loop that copies the entries; the index is compared as an unsigned number. -/
def copyEntries (L : Layout) (uap m m2 : Address) (t : ℕ) (memory : Bytes) : Bytes :=
  if t < (field memory uap L.hookCount).toNat then
    let index := BitVec.ofNat 64 t
    let memory := putWord memory (slot m index) (wordAt memory
      (slot (field memory uap L.hook) index))
    let memory := putWord memory (slot m2 index) (wordAt memory
      (slot (field memory uap L.hookType) index))
    copyEntries L uap m m2 (t + 1) memory
  else memory
termination_by 2 ^ 64 - t
decreasing_by
  have := (field memory uap L.hookCount).isLt
  omega

def doubled (L : Layout) (m : Bytes) (uap : Address) : ℕ := (2 * field m uap L.hookSize * 8).toNat

/-- The new blocks, with the entries copied. -/
def copied (L : Layout) (g : Growth) (uap : Address) (h : Store) : Store :=
  let h := h.allocate ⟨g.hook, doubled L h.memory uap⟩ 0
  let h := h.allocate ⟨g.hookType, doubled L h.memory uap⟩ 0
  onMemory (copyEntries L uap g.hook g.hookType 0) h

def replaced (L : Layout) (g : Growth) (uap : Address) (m : Bytes) : Bytes :=
  let m := setField m uap L.hook g.hook
  let m := setField m uap L.hookType g.hookType
  setField m uap L.hookSize (field m uap L.hookSize * 2)

def grow (L : Layout) (g : Growth) (residue : Bytes) (uap : Address) (h : Store) :
    Option (Code × Store) :=
  if g.hook = 0 then some (ps4ErrorKernelOutOfMemory, h)
  else if g.hookType = 0 then
    ((h.allocate ⟨g.hook, doubled L h.memory uap⟩ 0).free g.hook residue).map fun h =>
      (ps4ErrorKernelOutOfMemory, h)
  else
    let h := copied L g uap h
    (h.free (field h.memory uap L.hook) residue).bind fun h =>
      (h.free (field h.memory uap L.hookType) residue).map fun h =>
        (ps4Ok, onMemory (replaced L g uap) h)

def publish (L : Layout) (uap hook : Address) (type : Word) (m : Bytes) : Bytes :=
  let m := putWord m (slot (field m uap L.hook) (field m uap L.hookCount)) hook
  let m := putWord m (slot (field m uap L.hookType) (field m uap L.hookCount)) type
  let m := setField m uap L.hookCount (field m uap L.hookCount + 1)
  if L.trailing = 0 then m else putWord m (slot (field m uap L.hook) (field m uap L.hookCount)) 0

/-- Both `Add`s behind the lazy initializer and the mutex. -/
def add (L : Layout) (g : Growth) (residue : Bytes) (uap hook : Address) (type : Word) (h : Store) :
    Option (Code × Store) :=
  if uap = 0 then some (ps4ErrorArgumentPrimaryMissing, h)
  else if hook = 0 then some (ps4ErrorArgumentMissing, h)
  else
    (acquire L uap h).bind fun h =>
      (if full L h.memory uap then grow L g residue uap h else some (ps4Ok, h)).map fun r =>
        if r.1 = ps4Ok then (ps4Ok,
          onMemory (fun m => publish L uap hook type (unlock L uap m)) r.2) else r

def ps4KernelFunctionHookAdd := add functionLayout

def ps4KernelSystemCallHookAdd := add systemCallLayout

/-! ### Remove and SetUserArgument -/

/-- The compaction loop. One that finds no null in the whole memory does not end. -/
def removeLoop (uap hook : Address) (s t : ℕ) (m : Bytes) : Option (ℕ × Bytes) :=
  if s < 2 ^ 64 then
    let entry := slot (field m uap functionLayout.hook) (BitVec.ofNat 64 s)
    if wordAt m entry = 0 then some (t, m)
    else
      let t := if wordAt m entry = hook then t + 1 else t
      let source := slot (field m uap functionLayout.hook) (BitVec.ofNat 64 (s + t))
      removeLoop uap hook (s + 1) t (if t ≠ 0 then putWord m entry (wordAt m source) else m)
  else none
termination_by 2 ^ 64 - s

def ps4KernelFunctionHookRemove (uap hook : Address) (h : Store) : Option (Code × Store) :=
  if uap = 0 then some (ps4ErrorArgumentPrimaryMissing, h)
  else if hook = 0 then some (ps4ErrorArgumentMissing, h)
  else
    (acquire functionLayout uap h).bind fun h =>
      (removeLoop uap hook 0 0 h.memory).map fun r =>
        let m := setField r.2 uap functionLayout.hookCount
          (field r.2 uap functionLayout.hookCount - BitVec.ofNat 64 r.1)
        (if r.1 = 0 then ps4ErrorNotFound else ps4Ok,
          { h with memory := unlock functionLayout uap m })

def ps4KernelFunctionHookSetUserArgument (uap argument : Address) (h : Store) : Code × Store :=
  if uap = 0 then (ps4ErrorArgumentPrimaryMissing, h)
    else (ps4Ok, onMemory (setField · uap 152 argument) h)

/-! ### Clones -/

/-- What the allocator of the payload gives, which never is NULL. -/
structure CloneBlocks where
  uap : Address
  hook : Address
  hookType : Address
  buffers : List Address

def copyBytes (source target : Address) : ℕ → Bytes → Bytes
  | 0, m => m
  | n + 1, m =>
    let m := copyBytes source target n m
    write m (target + BitVec.ofNat 64 n) [m (source + BitVec.ofNat 64 n)]

def tableSize (L : Layout) (m : Bytes) (uap : Address) : ℕ := (field m uap L.hookSize * 8).toNat

def cloneTable (L : Layout) (offset : ℕ) (block uap uap2 : Address) (h : Store) : Store :=
  let h := h.allocate ⟨block, tableSize L h.memory uap⟩ 0
  let h := onMemory (setField · uap2 offset block) h
  onMemory (fun m => copyBytes (field m uap offset) (field m uap2 offset) (tableSize L m uap) m) h

def cloneBuffer (uap2 : Address) (h : Store) (p : (ℕ × ℕ) × Address) : Store :=
  onMemory (setField · uap2 p.1.1 p.2) (h.allocate ⟨p.2, p.1.2⟩ 0)

/-- Both clones; the fields set last are those of the call. -/
def clone (L : Layout) (b : CloneBlocks) (uap : Address) (fields : List (ℕ × Word))
    (h : Store) : Store :=
  let h := h.allocate ⟨b.uap, L.size⟩ 0
  let h := onMemory (copyBytes uap b.uap L.size) h
  let h := cloneTable L L.hook b.hook uap b.uap h
  let h := cloneTable L L.hookType b.hookType uap b.uap h
  let h := (L.buffers.zip b.buffers).foldl (cloneBuffer b.uap) h
  onMemory (fun m => fields.foldl (fun m f => setField m b.uap f.1 f.2) m) h

def ps4PayloadFunctionHookArgumentClone (b : CloneBlocks) (uap : Address) : Store → Store :=
  clone functionLayout b uap []

def ps4PayloadSystemCallHookArgumentClone (b : CloneBlocks) (td uap sysuap : Address) : Store →
    Store :=
  clone systemCallLayout b uap [(16, td), (56, sysuap)]

/-- The frees of a clone: the blocks of its fields, the last one first, and the clone. -/
def cleanup (L : Layout) (residue : Bytes) (uap : Address) (h : Store) : Option Store :=
  ((L.buffers.reverse.map Prod.fst ++ [L.hookType, L.hook]).foldlM
    (fun (h : Store) offset => h.free (field h.memory uap offset) residue) h).bind
      fun h => h.free uap residue

def ps4PayloadFunctionHookArgumentDestroy := cleanup functionLayout

/-- The frees at the end of `ps4PayloadSystemCallHookHandler`. -/
def ps4PayloadSystemCallHookCleanup := cleanup systemCallLayout

end Ps4Sdk.HookClones
