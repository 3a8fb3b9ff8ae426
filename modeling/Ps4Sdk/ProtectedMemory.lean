import Ps4Sdk.KernelBase
import Ps4Sdk.StepRuns
import Mathlib.Data.Multiset.Bind

/-!
# Memory with an executable and a writable view, `memory/protected.c`

Creating it takes a block for the handle, two descriptors and two mappings, and gives back what
it has so far if one of them fails. What the system functions answer is part of a call. The codes
of the two calls that open a descriptor are not looked at, and nothing initialises the variables
that they store it in: what is not zero there is taken for a descriptor and closed again.
-/

namespace Ps4Sdk.ProtectedMemory

open StepRuns

abbrev Word := BitVec 64

structure Ps4MemoryProtected where
  writable : Address
  executable : Address
  size : Word
  deriving DecidableEq

/-- What the process has of the system, and the handles that its callers have, with their
addresses. -/
structure Process where
  blocks : Multiset Address
  handles : Multiset Code
  mappings : Multiset (Address × Word)
  held : Multiset (Address × Ps4MemoryProtected)

namespace Process

def malloc (s : Process) (m : Address) : Process := { s with blocks := m ::ₘ s.blocks }

def free (s : Process) (m : Address) : Process := { s with blocks := s.blocks.erase m }

def opened (s : Process) (handle : Code) : Process := { s with handles := handle ::ₘ s.handles }

def close (s : Process) (handle : Code) : Process := { s with handles := s.handles.erase handle }

def mmap (s : Process) (address : Address) (size : Word) : Process :=
  { s with mappings := (address, size) ::ₘ s.mappings }

def munmap (s : Process) (address : Address) (size : Word) : Process :=
  { s with mappings := s.mappings.erase (address, size) }

@[simp] theorem free_malloc (s : Process) (m : Address) : (s.malloc m).free m = s := by
  simp [malloc, free]

@[simp] theorem close_opened (s : Process) (handle : Code) :
    (s.opened handle).close handle = s := by
  simp [opened, close]

@[simp] theorem munmap_mmap (s : Process) (address : Address) (size : Word) :
    (s.mmap address size).munmap address size = s := by
  simp [mmap, munmap]

theorem close_mmap (s : Process) (address : Address) (size : Word) (handle : Code) :
    (s.mmap address size).close handle = (s.close handle).mmap address size := rfl

private theorem close_close_opened_opened (s : Process) (h h' : Code) :
    (((s.opened h).opened h').close h).close h' = s := by
  change { s with handles := ((h' ::ₘ h ::ₘ s.handles).erase h).erase h' } = s
  rw [Multiset.erase_comm, Multiset.erase_cons_head, Multiset.erase_cons_head]

end Process

/-- A call that is to open a descriptor: what the variable holds behind it, and whether this is a
descriptor that it opened. -/
structure Jit where
  handle : Code
  opened : Bool
  deriving DecidableEq

def Process.jit (s : Process) (j : Jit) : Process := if j.opened then s.opened j.handle else s

def Jit.Told (j : Jit) : Prop := j.opened = true ↔ j.handle ≠ 0

/-- The pointer that `malloc` returns, the two descriptors, the addresses of the mappings, and
whether `munmap` removes the first one when there is no second. -/
structure Answers where
  malloc : Address
  sharedMemory : Jit
  aliasOfSharedMemory : Jit
  mmapExecutable : Option Address
  mmapWritable : Option Address
  munmap : Bool

def alignedSize (pageSize size : Word) : Word := (size / pageSize + 1) * pageSize

section Create

variable (x : Answers)

def e1 (s : Process) : Code × Process := (ps4ErrorOutOfMemory, s.free x.malloc)

def e2 (s : Process) : Code × Process := e1 x (s.close x.sharedMemory.handle)

def e3 (s : Process) : Code × Process := e2 x (s.close x.aliasOfSharedMemory.handle)

def e4 (executable : Address) (size : Word) (s : Process) : Code × Process :=
  e3 x (if x.munmap then s.munmap executable size else s)

def ps4MemoryProtectedCreate (pageSize : Word) (memory : Address) (s : Process) (size : Word) :
    Code × Process :=
  if memory = 0#64 then (ps4ErrorArgumentPrimaryMissing, s)
  else if size = 0#64 then (ps4ErrorArgumentSizeNull, s)
  else if x.malloc = 0#64 then (ps4ErrorOutOfMemory, s)
  else
    let mapped := alignedSize pageSize size
    let s := (s.malloc x.malloc).jit x.sharedMemory
    if x.sharedMemory.handle = 0 then e1 x s
    else
      let s := s.jit x.aliasOfSharedMemory
      if x.aliasOfSharedMemory.handle = 0 then e2 x s
      else
        match x.mmapExecutable with
        | none => e3 x s
        | some executable =>
          let s := s.mmap executable mapped
          match x.mmapWritable with
          | none => e4 x executable mapped s
          | some writable =>
            let s := ((s.mmap writable mapped).close x.sharedMemory.handle).close
              x.aliasOfSharedMemory.handle
            (ps4Ok, { s with held := (x.malloc, ⟨writable, executable, mapped⟩) ::ₘ s.held })

end Create

/-- Which of the two mappings `munmap` removes. -/
structure Unmapped where
  writable : Bool
  executable : Bool

def ps4MemoryProtectedDestroy (u : Unmapped) (s : Process) : Option (Address × Ps4MemoryProtected) →
    Code × Process
  | none => (-1, s)
  | some (address, m) =>
    let s := if u.writable then s.munmap m.writable m.size else s
    let s := if u.executable then s.munmap m.executable m.size else s
    let s := s.free address
    ((if u.writable then 0 else -1) ||| (if u.executable then 0 else -1),
      { s with held := s.held.erase (address, m) })

/-! ### What creating does -/

section

variable (x : Answers) (pageSize : Word) (memory : Address) (s : Process) (size : Word)

structure Granted (executable writable : Address) : Prop where
  memory : memory ≠ 0#64
  size : size ≠ 0#64
  malloc : x.malloc ≠ 0#64
  sharedMemory : x.sharedMemory.handle ≠ 0
  aliasOfSharedMemory : x.aliasOfSharedMemory.handle ≠ 0
  mmapExecutable : x.mmapExecutable = some executable
  mmapWritable : x.mmapWritable = some writable

/-- Both variables tell whether there is a descriptor, and what is mapped can be unmapped. -/
structure Answers.Regular : Prop where
  sharedMemory : x.sharedMemory.Told
  aliasOfSharedMemory : x.aliasOfSharedMemory.Told
  munmap : x.munmap = true

/-- The process that has the two mappings and the block of a new handle beside what it had. -/
def Process.creates (s : Process) (address : Address) (m : Ps4MemoryProtected) : Process :=
  { ((s.malloc address).mmap m.executable m.size).mmap m.writable m.size with
    held := (address, m) ::ₘ s.held }

def Process.closes (s : Process) : Process :=
  (((s.jit x.sharedMemory).jit x.aliasOfSharedMemory).close x.sharedMemory.handle).close
    x.aliasOfSharedMemory.handle

theorem Process.closes_held : (s.closes x).held = s.held := by
  unfold Process.closes Process.jit
  split_ifs <;> rfl

private theorem Process.jit_of_ne {j : Jit} (h : j.Told) (hne : j.handle ≠ 0) :
    s.jit j = s.opened j.handle :=
  if_pos (h.mpr hne)

private theorem Process.jit_of_eq {j : Jit} (h : j.Told) (hzero : j.handle = 0) : s.jit j = s :=
  if_neg fun hopened => h.mp hopened hzero

variable {x memory size} in
private theorem Process.closes_eq (hx : x.Regular) {executable writable : Address}
    (h : Granted x memory size executable writable) : s.closes x = s := by
  rw [closes, jit_of_ne _ hx.sharedMemory h.sharedMemory,
    jit_of_ne _ hx.aliasOfSharedMemory h.aliasOfSharedMemory, close_close_opened_opened]

theorem create_of_granted {executable writable : Address}
    (h : Granted x memory size executable writable) :
    ps4MemoryProtectedCreate x pageSize memory s size =
      (ps4Ok, (s.closes x).creates x.malloc ⟨writable, executable, alignedSize pageSize size⟩) := by
  rw [ps4MemoryProtectedCreate, if_neg h.memory, if_neg h.size, if_neg h.malloc]
  dsimp only
  rw [if_neg h.sharedMemory, if_neg h.aliasOfSharedMemory, h.mmapExecutable, h.mmapWritable]
  unfold Process.closes Process.jit
  split_ifs <;> rfl

/-- Creating gives a handle of the aligned size, or it leaves the process as it was. -/
theorem create_cases :
    (∃ executable writable, Granted x memory size executable writable) ∨
    (ps4MemoryProtectedCreate x pageSize memory s size).1 ≠ ps4Ok ∧
      (x.Regular → (ps4MemoryProtectedCreate x pageSize memory s size).2 = s) := by
  have hfull : ps4ErrorOutOfMemory ≠ ps4Ok := by decide
  by_cases hmemory : memory = 0#64
  · right
    rw [ps4MemoryProtectedCreate, if_pos hmemory]
    exact ⟨show ¬ps4ErrorArgumentPrimaryMissing = ps4Ok by decide, fun _ => rfl⟩
  by_cases hsize : size = 0#64
  · right
    rw [ps4MemoryProtectedCreate, if_neg hmemory, if_pos hsize]
    exact ⟨show ¬ps4ErrorArgumentSizeNull = ps4Ok by decide, fun _ => rfl⟩
  by_cases hmalloc : x.malloc = 0#64
  · right
    rw [ps4MemoryProtectedCreate, if_neg hmemory, if_neg hsize, if_pos hmalloc]
    exact ⟨hfull, fun _ => rfl⟩
  rw [ps4MemoryProtectedCreate, if_neg hmemory, if_neg hsize, if_neg hmalloc]
  dsimp only
  by_cases hshared : x.sharedMemory.handle = 0
  · right
    rw [if_pos hshared]
    refine ⟨hfull, fun hx => ?_⟩
    rw [Process.jit_of_eq _ hx.sharedMemory hshared]
    exact Process.free_malloc _ _
  by_cases halias : x.aliasOfSharedMemory.handle = 0
  · right
    rw [if_neg hshared, if_pos halias]
    refine ⟨hfull, fun hx => ?_⟩
    rw [Process.jit_of_ne _ hx.sharedMemory hshared,
      Process.jit_of_eq _ hx.aliasOfSharedMemory halias]
    simp only [e2, e1, Process.close_opened, Process.free_malloc]
  rw [if_neg hshared, if_neg halias]
  cases hme : x.mmapExecutable with
  | none =>
    refine .inr ⟨hfull, fun hx => ?_⟩
    rw [Process.jit_of_ne _ hx.sharedMemory hshared,
      Process.jit_of_ne _ hx.aliasOfSharedMemory halias]
    simp only [e3, e2, e1, Process.close_opened, Process.free_malloc]
  | some executable =>
    cases hmw : x.mmapWritable with
    | none =>
      refine .inr ⟨hfull, fun hx => ?_⟩
      rw [Process.jit_of_ne _ hx.sharedMemory hshared,
        Process.jit_of_ne _ hx.aliasOfSharedMemory halias]
      simp only [e4, e3, e2, e1, hx.munmap, if_true, Process.munmap_mmap, Process.close_opened,
        Process.free_malloc]
    | some writable =>
      exact .inl ⟨executable, writable, hmemory, hsize, hmalloc, hshared, halias, hme, hmw⟩

theorem create_eq_ok_iff :
    (ps4MemoryProtectedCreate x pageSize memory s size).1 = ps4Ok ↔
      ∃ executable writable, Granted x memory size executable writable := by
  constructor
  · intro h
    rcases create_cases x pageSize memory s size with hg | ⟨hne, -⟩
    · exact hg
    · exact absurd h hne
  · rintro ⟨executable, writable, h⟩
    rw [create_of_granted x pageSize memory s size h]

/-- Where the variables do not tell, a descriptor of others is closed, or one is lost: a call that
fails and leaves a number there, and a call that opens the descriptor zero. -/
theorem create_of_untold (hmemory : memory ≠ 0#64) (hsize : size ≠ 0#64)
    (hmalloc : x.malloc ≠ 0#64) :
    (x.sharedMemory.opened = false → x.sharedMemory.handle ≠ 0 →
      x.aliasOfSharedMemory = ⟨0, false⟩ → (ps4MemoryProtectedCreate x pageSize memory s size).2 =
        { s with handles := s.handles.erase x.sharedMemory.handle }) ∧
    (x.sharedMemory = ⟨0, true⟩ → (ps4MemoryProtectedCreate x pageSize memory s size).2 =
        { s with handles := 0 ::ₘ s.handles }) := by
  rw [ps4MemoryProtectedCreate, if_neg hmemory, if_neg hsize, if_neg hmalloc]
  dsimp only
  refine ⟨fun hopened hne halias => ?_, fun hzero => ?_⟩
  · rw [if_neg hne, halias, if_pos rfl]
    simp [e2, e1, Process.jit, hopened, Process.close, Process.malloc, Process.free]
  · rw [hzero, if_pos rfl]
    simp [e1, Process.jit, Process.opened, Process.malloc, Process.free]

end

/-! ### Runs -/

inductive Call
  | creates (x : Answers) (memory : Address) (size : Word)
  | destroys (u : Unmapped) (m : Option (Address × Ps4MemoryProtected))

def perform (pageSize : Word) (s : Process) : Call → Code × Process
  | .creates x memory size => ps4MemoryProtectedCreate x pageSize memory s size
  | .destroys u m => ps4MemoryProtectedDestroy u s m

def step (pageSize : Word) (s : Process) (c : Call) (s' : Process) : Prop :=
  (perform pageSize s c).2 = s'

/-- The calls for descriptors tell by zero whether they opened one, callers destroy handles that
they have, and mapped memory can be unmapped. -/
def Allowed (s : Process) : Call → Prop
  | .creates x _ _ => x.Regular
  | .destroys _ none => True
  | .destroys u (some m) => u.writable = true ∧ u.executable = true ∧ m ∈ s.held

def views (m : Address × Ps4MemoryProtected) : Multiset (Address × Word) :=
  {(m.2.writable, m.2.size), (m.2.executable, m.2.size)}

private theorem views_add (address : Address) (m : Ps4MemoryProtected)
    (rest : Multiset (Address × Word)) :
    views (address, m) + rest = (m.writable, m.size) ::ₘ (m.executable, m.size) ::ₘ rest := by
  simp [views, Multiset.insert_eq_cons]

/-- The process has the blocks and the mappings of its handles beside what it started with, and no
descriptor more. -/
structure Accounted (s₀ s : Process) : Prop where
  blocks : s.blocks = s.held.map Prod.fst + s₀.blocks
  handles : s.handles = s₀.handles
  mappings : s.mappings = s.held.bind views + s₀.mappings

theorem Accounted.creates {s₀ s : Process} (h : Accounted s₀ s) (address : Address)
    (m : Ps4MemoryProtected) :
    Accounted s₀ (s.creates address m) where
  blocks := by
    change address ::ₘ s.blocks = ((address, m) ::ₘ s.held).map Prod.fst + s₀.blocks
    rw [h.blocks, Multiset.map_cons, Multiset.cons_add]
  handles := h.handles
  mappings := by
    change (m.writable, m.size) ::ₘ (m.executable, m.size) ::ₘ s.mappings =
      ((address, m) ::ₘ s.held).bind views + s₀.mappings
    rw [h.mappings, Multiset.cons_bind, Multiset.add_assoc, views_add]

private theorem destroy_creates (u : Unmapped) (hw : u.writable = true) (he : u.executable = true)
    (s : Process) (address : Address) (m : Ps4MemoryProtected) :
    (ps4MemoryProtectedDestroy u (s.creates address m) (some (address, m))).2 = s := by
  simp [ps4MemoryProtectedDestroy, hw, he, Process.creates, Process.munmap, Process.mmap,
    Process.free, Process.malloc]

theorem Accounted.destroys {s₀ s : Process} (h : Accounted s₀ s) {address : Address}
    {m : Ps4MemoryProtected} (hm : (address, m) ∈ s.held) {u : Unmapped} (hw : u.writable = true)
    (he : u.executable = true) :
    Accounted s₀ (ps4MemoryProtectedDestroy u s (some (address, m))).2 := by
  obtain ⟨held, hheld⟩ := Multiset.exists_cons_of_mem hm
  obtain ⟨hblocks, hhandles, hmappings⟩ := h
  rw [hheld, Multiset.map_cons, Multiset.cons_add] at hblocks
  rw [hheld, Multiset.cons_bind, Multiset.add_assoc, views_add] at hmappings
  have hs : s = Process.creates ⟨held.map Prod.fst + s₀.blocks, s₀.handles,
    held.bind views + s₀.mappings, held⟩
      address m := by
    cases s
    simp only at hblocks hhandles hmappings hheld
    subst hblocks hhandles hmappings hheld
    rfl
  rw [hs, destroy_creates u hw he]
  exact ⟨rfl, rfl, rfl⟩

theorem accounted_step {pageSize : Word} {s₀ s s' : Process} {c : Call} (h : Accounted s₀ s)
    (hstep : Guarded Allowed (step pageSize) s c s') : Accounted s₀ s' := by
  obtain ⟨hallowed, rfl⟩ := hstep
  cases c with
  | creates x memory size =>
    change Accounted s₀ (ps4MemoryProtectedCreate x pageSize memory s size).2
    rcases create_cases x pageSize memory s size with ⟨executable, writable, hg⟩ | ⟨-, hsame⟩
    · rw [create_of_granted x pageSize memory s size hg, s.closes_eq hallowed hg]
      exact h.creates _ _
    · rw [hsame hallowed]
      exact h
  | destroys u m =>
    cases m with
    | none => exact h
    | some m => exact h.destroys hallowed.2.2 hallowed.1 hallowed.2.1

/-- Along every run of such calls the process has exactly what its handles account for; when all are
destroyed it has what it started with. -/
theorem run_accounted {pageSize : Word} {s s' : Process} {cs : List Call} (hheld : s.held = 0)
    (h : Run (Guarded Allowed (step pageSize)) s cs s') :
    Accounted s s' ∧ (s'.held = 0 → s' = s) := by
  have hs : Accounted s s := by
    refine ⟨?_, rfl, ?_⟩ <;> rw [hheld] <;> simp
  have hs' : Accounted s s' := h.invariant (fun _ _ _ hi hstep => accounted_step hi hstep) hs
  refine ⟨hs', fun hheld' => ?_⟩
  obtain ⟨hblocks, hhandles, hmappings⟩ := hs'
  rw [hheld'] at hblocks hmappings
  simp only [Multiset.map_zero, Multiset.zero_bind, Multiset.zero_add] at hblocks hmappings
  cases s
  cases s'
  simp only at hheld hheld' hblocks hhandles hmappings
  rw [hheld, hheld', hblocks, hhandles, hmappings]

def grants : Answers := ⟨0x1000, ⟨3, true⟩, ⟨4, true⟩, some 0x200000, some 0x300000, true⟩

def refuses : Answers := ⟨0x2000, ⟨5, true⟩, ⟨6, true⟩, some 0x400000, none, true⟩

theorem run_accounted_once : ∃ s', Run (Guarded Allowed (step 0x4000)) ⟨{0x8000}, {1}, 0, 0⟩
      [.creates grants 0x7000 0x100, .creates refuses 0x7000 0x100,
        .destroys ⟨true, true⟩ (some (0x1000, ⟨0x300000, 0x200000, 0x4000⟩))] s' ∧
    s' = ⟨{0x8000}, {1}, 0, 0⟩ := by
  have hrun : Run (Guarded Allowed (step 0x4000)) ⟨{0x8000}, {1}, 0, 0⟩
      [.creates grants 0x7000 0x100, .creates refuses 0x7000 0x100,
        .destroys ⟨true, true⟩ (some (0x1000, ⟨0x300000, 0x200000, 0x4000⟩))] _ :=
    .cons ⟨⟨by unfold Jit.Told; decide, by unfold Jit.Told; decide, rfl⟩, rfl⟩
      (.cons ⟨⟨by unfold Jit.Told; decide, by unfold Jit.Told; decide, rfl⟩, rfl⟩
        (.cons ⟨⟨rfl, rfl, by decide⟩, rfl⟩ (.nil _)))
  exact ⟨_, hrun, (run_accounted rfl hrun).2 (by decide)⟩

end Ps4Sdk.ProtectedMemory
