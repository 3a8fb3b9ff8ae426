import Ps4Sdk.AssemblyRuns
import Ps4Sdk.SystemCallHookHandler

/-!
# The system call hook handler in memory

The handler of `payload/system_call_hook_handler.c` with the clone as a block of
bytes: every field is read where the code reads it, so that a hook may change the
table it is called from, and freeing a block leaves arbitrary bytes in it. The
handler reads its result from the clone after it has freed it.
-/

namespace Ps4Sdk.SystemCallHookMemory
open ByteMemory AssemblyMachines CallSequences FunctionHookTables
open SystemCallHookHandler (controlContinue controlReturn Call)

def intAt (m : Bytes) (a : Address) : BitVec 32 := BitVec.ofNat 32 (bytesValue (cellsAt m a 4))
def putInt (m : Bytes) (a : Address) (v : BitVec 32) : Bytes := write m a (wordBytes 4 v.toNat)

/-! ### `Ps4KernelSystemCallHookArgument` -/

section Fields

variable (m : Bytes) (uap : Address)

def sysuap : Address := wordAt m (uap + 56)
def sysret : BitVec 32 := intAt m (uap + 64)
def return0 : BitVec 64 := wordAt m (uap + 72)
def return1 : BitVec 64 := wordAt m (uap + 80)
def originalCall : Address := wordAt m (uap + 88)
def hookAt (i : ℕ) : Address := wordAt m (wordAt m (uap + 112) + BitVec.ofNat 64 (8 * i))
def hookTypeAt (i : ℕ) : ℤ := (wordAt m (wordAt m (uap + 120) + BitVec.ofNat 64 (8 * i))).toInt
def hookCount : ℕ := (wordAt m (uap + 128)).toNat

def setHookTypeCurrent (type : ℤ) : Bytes := putWord m (uap + 144) (BitVec.ofInt 64 type)

end Fields

def argumentSize : ℕ := 184

/-- A hook or a system call at an address, with the thread and its second argument. -/
abbrev Callee := Address → Address → Address → Bytes → BitVec 32 × Bytes

structure State where
  memory : Bytes
  calls : List Call

def State.called (s : State) (callee : ℤ × Address) (out : BitVec 32 × Bytes) : BitVec 32 × State :=
  (out.1, ⟨out.2, s.calls ++ [.called callee out.1]⟩)

def callHook (call : Callee) (td uap : Address) (i : ℕ) (argument : Bytes → Address) (s : State) :
    BitVec 32 × State :=
  let hook := hookAt s.memory uap i
  s.called (i, hook) (call hook td (argument s.memory) s.memory)

def preEntry (call : Callee) (td uap : Address) (i : ℕ) (r : BitVec 32) (s : State) :
    BitVec 32 × State :=
  let type := hookTypeAt s.memory uap i
  if type = -1 then
    callHook call td uap i (sysuap · uap) { s with memory := setHookTypeCurrent s.memory uap (-1) }
  else if type = 1 ∨ type = 3 then
    callHook call td uap i (fun _ => uap) { s with memory := setHookTypeCurrent s.memory uap 1 }
  else (r, s)

def postEntry (call : Callee) (td uap : Address) (i : ℕ) (r : BitVec 32) (s : State) :
    BitVec 32 × State :=
  let type := hookTypeAt s.memory uap i
  if type = 2 ∨ type = 3 then callHook call td uap i (fun _ => uap) s else (r, s)

/-- Both loops: the index is compared with `hookCount` as an unsigned number. -/
def loop (entry : ℕ → BitVec 32 → State → BitVec 32 × State) (uap : Address) (i : ℕ)
    (r : BitVec 32) (s : State) :
    BitVec 32 × State :=
  if i < hookCount s.memory uap then
    let out := entry i r s
    if out.1 ≠ controlContinue then out else loop entry uap (i + 1) out.1 out.2
  else (r, s)
termination_by 2 ^ 64 - i
decreasing_by
  have hlt : hookCount s.memory uap < 2 ^ 64 := (wordAt s.memory (uap + 128)).isLt
  omega

/-- The original call and the second loop, which a control of `RETURN` leaves out. -/
def perform (call : Callee) (td uap : Address) (r : BitVec 32) (s : State) : State :=
  if r ≠ controlReturn then
    let out := call (originalCall s.memory uap) td (sysuap s.memory uap) s.memory
    let m := putInt out.2 (uap + 64) out.1
    let m := putWord m (uap + 72) (wordAt m (td + 0x380))
    let m := putWord m (uap + 80) (wordAt m (td + 0x388))
    let m := setHookTypeCurrent m uap 2
    (loop (postEntry call td uap) uap 0 r ⟨m, s.calls ++ [.original]⟩).2
  else s

/-- The handler up to its cleanup. -/
def beforeCleanup (call : Callee) (td uap : Address) (m : Bytes) : State :=
  let m := putInt m (uap + 64) 0
  let m := putWord m (uap + 72) 0
  let m := putWord m (uap + 80) 0
  let m := putWord m (td + 0x388) uap
  let out := loop (preEntry call td uap) uap 0 controlContinue ⟨m, []⟩
  let s := perform call td uap out.1 out.2
  let m := putWord s.memory (td + 0x380) (return0 s.memory uap)
  let m := putWord m (td + 0x388) (return1 m uap)
  { s with memory := m }

/-- What the allocator makes of the blocks that are freed: their sizes, and the
bytes that it leaves in them. -/
structure Allocator where
  size : Address → ℕ
  residue : Address → ℕ → BitVec 8

def free (allocator : Allocator) (m : Bytes) (a : Address) : Bytes :=
  write m a ((List.range (allocator.size a)).map (allocator.residue a))

/-- The three blocks of the clone, each pointer read when the block before it has been freed. -/
def cleanup (allocator : Allocator) (uap : Address) (m : Bytes) : Bytes :=
  let m := free allocator m (wordAt m (uap + 120))
  let m := free allocator m (wordAt m (uap + 112))
  free allocator m uap

def ps4PayloadSystemCallHookHandler (call : Callee) (allocator : Allocator)
    (td uap : Address) (m : Bytes) :
    BitVec 32 × State :=
  let s := beforeCleanup call td uap m
  let m := cleanup allocator uap s.memory
  (sysret m uap, { s with memory := m })

/-! ### The result -/

/-- The field `sysret` in the bytes that the allocator leaves in a clone. -/
def residueSysret (allocator : Allocator) (uap : Address) : BitVec 32 :=
  BitVec.ofNat 32 (bytesValue ((List.range 4).map fun j => allocator.residue uap (64 + j)))

theorem cellsAt_write_inside (m : Bytes) (a : Address) (bs : List (BitVec 8)) (k n : ℕ)
    (h : k + n ≤ bs.length) (hb : bs.length ≤ 2 ^ 64) :
    cellsAt (write m a bs) (a + BitVec.ofNat 64 k) n = (bs.drop k).take n := by
  apply List.ext_getElem
  · simp
    omega
  · intro i h₁ h₂
    rw [length_cellsAt] at h₁
    have he : a + BitVec.ofNat 64 k + BitVec.ofNat 64 i = a + BitVec.ofNat 64 (k + i) := by
      rw [BitVec.ofNat_add, BitVec.add_assoc]
    rw [getElem_cellsAt, he, write_add m a (by omega) hb]
    simp

theorem sysret_free (allocator : Allocator) (m : Bytes) (uap : Address)
    (hsize : allocator.size uap = argumentSize) :
    sysret (free allocator m uap) uap = residueSysret allocator uap := by
  have hcells : cellsAt (free allocator m uap) (uap + 64) 4 =
      (List.range 4).map fun j => allocator.residue uap (64 + j) := by
    rw [free, hsize]
    have h := cellsAt_write_inside m uap
      ((List.range argumentSize).map (allocator.residue uap)) 64 4
      (by simp [argumentSize]) (by simp [argumentSize])
    exact h.trans (List.ext_getElem (by simp [argumentSize]) (fun i h₁ h₂ => by simp))
  rw [sysret, intAt, hcells, residueSysret]

theorem handler_eq_residue (call : Callee) (allocator : Allocator) (td uap : Address) (m : Bytes)
    (hsize : allocator.size uap = argumentSize) :
    (ps4PayloadSystemCallHookHandler call allocator td uap m).1 = residueSysret allocator uap :=
  sysret_free allocator _ uap hsize

/-- Two runs that differ in what freed blocks hold return the same value, the last `sysret`. -/
def Independent (call : Callee) (size : Address → ℕ) (td uap : Address) (m : Bytes)
    (residue residue' : Address → ℕ → BitVec 8) : Prop :=
  (ps4PayloadSystemCallHookHandler call ⟨size, residue⟩ td uap m).1 =
      (ps4PayloadSystemCallHookHandler call ⟨size, residue'⟩ td uap m).1 ∧
    (ps4PayloadSystemCallHookHandler call ⟨size, residue⟩ td uap m).1 =
      sysret (beforeCleanup call td uap m).memory uap

/-- The result is never independent of what freeing leaves in the clone, with any table
and whatever the hooks and the system call do: two runs return the last `sysret` exactly
when freeing the clone has left that value in it in both of them. -/
theorem handler_independent_iff (call : Callee) (size : Address → ℕ) (td uap : Address) (m : Bytes)
    (hsize : size uap = argumentSize) :
    (¬∀ residue residue', Independent call size td uap m residue residue') ∧
    ∀ residue residue', Independent call size td uap m residue residue' ↔
      residueSysret ⟨size, residue⟩ uap = sysret (beforeCleanup call td uap m).memory uap ∧
        residueSysret ⟨size, residue'⟩ uap = sysret (beforeCleanup call td uap m).memory uap := by
  have hresult := fun residue => handler_eq_residue call ⟨size, residue⟩ td uap m hsize
  constructor
  · intro h
    have hsame := (h (fun _ _ => 0) (fun _ _ => 1)).1
    rw [hresult, hresult] at hsame
    simp [residueSysret, List.range_succ, bytesValue] at hsame
  · intro residue residue'
    rw [Independent, hresult, hresult]
    constructor
    · rintro ⟨hsame, hlast⟩
      exact ⟨hlast, hsame ▸ hlast⟩
    · rintro ⟨hlast, hlast'⟩
      exact ⟨hlast.trans hlast'.symm, hlast⟩

def failing : Callee := fun _ _ _ m => (1, m)

theorem handler_independent_failing :
    (fun _ => argumentSize) (0x1000 : Address) = argumentSize ∧
      ¬∀ residue residue', Independent failing (fun _ => argumentSize) 0x2000 0x1000 (fun _ => 0)
        residue residue' :=
  ⟨rfl, (handler_independent_iff failing (fun _ => argumentSize) 0x2000 0x1000 (fun _ => 0) rfl).1⟩

private theorem loop_done (entry : ℕ → BitVec 32 → State → BitVec 32 × State) (uap : Address)
    (i : ℕ) (r : BitVec 32) (s : State) (h : hookCount s.memory uap ≤ i) :
    loop entry uap i r s = (r, s) := by
  rw [loop, if_neg (by omega)]

private theorem sysret_failing :
    sysret (beforeCleanup failing 0x2000 0x1000 (fun _ => 0)).memory 0x1000 = 1 := by
  unfold beforeCleanup perform
  simp only
  rw [loop_done _ _ _ _ _ (by decide), if_pos (by decide), loop_done _ _ _ _ _ (by decide)]
  decide

/-- A failing system call succeeds when the allocator clears the clone. -/
theorem failure_lost :
    sysret (beforeCleanup failing 0x2000 0x1000 (fun _ => 0)).memory 0x1000 = 1 ∧
    (ps4PayloadSystemCallHookHandler failing ⟨fun _ => argumentSize, fun _ _ => 0⟩ 0x2000 0x1000
      (fun _ => 0)).1 = 0 ∧
    ¬Independent failing (fun _ => argumentSize) 0x2000 0x1000 (fun _ => 0) (fun _ _ => 0)
      (fun _ _ => 0xff) := by
  have hresult := fun residue => handler_eq_residue failing
    ⟨fun _ => argumentSize, residue⟩ 0x2000 0x1000
    (fun _ => 0) rfl
  refine ⟨sysret_failing, (hresult _).trans (by decide), ?_⟩
  rw [Independent, hresult, hresult]
  exact fun h => absurd h.1 (by decide)

end Ps4Sdk.SystemCallHookMemory
