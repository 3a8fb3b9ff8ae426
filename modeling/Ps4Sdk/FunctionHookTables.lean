import Ps4Sdk.AtomicSpinLocks

/-!
# The hook table of `kernel/function.c`

The table is the pair of parallel blocks `hook` and `hookType` of a handle with
its two counters and its spin lock. The calls are serialised by the hook mutex,
so each runs alone; an access outside a block stops it, and so does a spin lock
that an earlier call left taken.
-/

namespace Ps4Sdk.FunctionHookTables
open CheckedBlocks AtomicSpinLocks

/-- `Ps4KernelFunctionHookType`, stored in the table as a 64-bit integer. -/
inductive HookType
  | pre | disabled | genericPre | genericPost | genericBoth
  deriving DecidableEq, Repr

def HookType.value : HookType → ℤ
  | .pre => -1 | .disabled => 0 | .genericPre => 1 | .genericPost => 2 | .genericBoth => 3

structure HookTable where
  hook : List Address
  hookType : List ℤ
  hookCount : ℤ
  hookSize : ℤ
  lock : BitVec 64
  deriving DecidableEq

/-- The table of a new handle: space for seven hooks and the trailing null. -/
def created : HookTable where
  hook := List.replicate 8 0#64
  hookType := List.replicate 8 0
  hookCount := 0
  hookSize := 8
  lock := 0

structure Allocation where
  hook : Bool
  hookType : Bool
  deriving DecidableEq

def Allocation.succeeds : Allocation := ⟨true, true⟩

/-- Double both blocks. The new blocks are zeroed, and the entries below
`hookCount` are copied over. -/
def grow (a : HookTable) : Except Stop HookTable := do
  let m ← copyFrom a.hook a.hookCount.toNat 0 (List.replicate (2 * a.hookSize).toNat 0#64)
  let m2 ← copyFrom a.hookType a.hookCount.toNat 0 (List.replicate (2 * a.hookSize).toNat 0)
  return { a with hook := m, hookType := m2, hookSize := a.hookSize * 2 }

def publish (a : HookTable) (hook : Address) (type : ℤ) : Except Stop HookTable := do
  let m ← store a.hook a.hookCount hook
  let m2 ← store a.hookType a.hookCount type
  let m ← store m (a.hookCount + 1) 0#64
  return { a with hook := m, hookType := m2, hookCount := a.hookCount + 1 }

def ps4KernelFunctionHookAdd (m : Allocation) (a : HookTable) (hook : Address) (type : ℤ) :
    Except Stop (Code × HookTable) :=
  if hook = 0#64 then .ok (ps4ErrorArgumentMissing, a)
  else do
    let lock ← ps4AtomicSpinLock64 a.lock
    let a := { a with lock := lock }
    if a.hookCount ≥ a.hookSize - 1 then
      if m.hook = false ∨ m.hookType = false then return (ps4ErrorKernelOutOfMemory, a)
      else
        let a ← grow a
        let a ← publish { a with lock := (ps4AtomicSpinUnlock64 a.lock).2 } hook type
        return (ps4Ok, a)
    else
      let a ← publish { a with lock := (ps4AtomicSpinUnlock64 a.lock).2 } hook type
      return (ps4Ok, a)

theorem publish_eq_ok {a a' : HookTable} {hook : Address} {type : ℤ}
    (hr : publish a hook type = .ok a') :
    0 ≤ a.hookCount ∧ a.hookCount + 1 < a.hook.length ∧
      a' = { a with
        hook := (a.hook.set a.hookCount.toNat hook).set (a.hookCount + 1).toNat 0#64
        hookType := a.hookType.set a.hookCount.toNat type
        hookCount := a.hookCount + 1 } := by
  obtain ⟨l₁, hstore₁, hr⟩ := FallibleCalls.bind_eq_ok.mp hr
  obtain ⟨l₂, hstore₂, hr⟩ := FallibleCalls.bind_eq_ok.mp hr
  obtain ⟨l₃, hstore₃, hr⟩ := FallibleCalls.bind_eq_ok.mp hr
  obtain rfl := Except.ok.inj hr
  obtain ⟨hpos, _, rfl⟩ := store_eq_ok hstore₁
  obtain ⟨_, _, rfl⟩ := store_eq_ok hstore₂
  obtain ⟨_, hlt, rfl⟩ := store_eq_ok hstore₃
  rw [List.length_set] at hlt
  exact ⟨hpos, hlt, rfl⟩

/-- The part of `Add` under the spin lock. -/
def reserve (m : Allocation) (a : HookTable) : Except Stop (Code × HookTable) := do
  let lock ← ps4AtomicSpinLock64 a.lock
  let a := { a with lock := lock }
  if a.hookCount ≥ a.hookSize - 1 then
    if m.hook = false ∨ m.hookType = false then return (ps4ErrorKernelOutOfMemory, a)
    else
      let a ← grow a
      return (ps4Ok, { a with lock := (ps4AtomicSpinUnlock64 a.lock).2 })
  else return (ps4Ok, { a with lock := (ps4AtomicSpinUnlock64 a.lock).2 })

theorem add_eq_reserve (m : Allocation) (a : HookTable) (hook : Address) (type : ℤ)
    (hh : hook ≠ 0#64) :
    ps4KernelFunctionHookAdd m a hook type = (do
      let (code, a) ← reserve m a
      if code = ps4Ok then
        let a ← publish a hook type
        return (ps4Ok, a)
      else return (code, a)) := by
  rw [ps4KernelFunctionHookAdd, if_neg hh, reserve, bind_assoc]
  congr 1
  funext lock
  simp only
  split_ifs <;> simp only [bind_assoc, pure_bind] <;> rfl

/-- The compaction loop, from index `s` with running offset `t`. -/
def removeLoop (target : Address) (hook : List Address) (s t : ℕ) :
    Except Stop (List Address × ℕ) :=
  if hs : s < hook.length then
    if hook[s] = 0#64 then .ok (hook, t)
    else
      let t := if hook[s] = target then t + 1 else t
      if t ≠ 0 then
        match hook[s + t]? with
        | some x => removeLoop target (hook.set s x) (s + 1) t
        | none => .error .outOfBounds
      else removeLoop target hook (s + 1) t
  else .error .outOfBounds
termination_by hook.length - s

def ps4KernelFunctionHookRemove (a : HookTable) (hook : Address) : Except Stop (Code × HookTable) :=
  if hook = 0#64 then .ok (ps4ErrorArgumentMissing, a)
  else do
    let lock ← ps4AtomicSpinLock64 a.lock
    let (m, t) ← removeLoop hook a.hook 0 0
    let a := { a with
      hook := m, hookCount := a.hookCount - t, lock := (ps4AtomicSpinUnlock64 lock).2 }
    return (if t = 0 then ps4ErrorNotFound else ps4Ok, a)

/-- One call on the handle of a table. -/
inductive HookCall
  | add (hook : Address) (type : HookType) (m : Allocation)
  | remove (hook : Address)
  deriving DecidableEq

def HookCall.run (a : HookTable) : HookCall → Except Stop (Code × HookTable)
  | .add hook type m => ps4KernelFunctionHookAdd m a hook type.value
  | .remove hook => ps4KernelFunctionHookRemove a hook

/-- One entry of a table with its index. -/
structure Entry where
  index : ℕ
  hook : Address
  type : ℤ
  deriving DecidableEq

def entriesFrom : ℕ → List (Address × ℤ) → List Entry
  | _, [] => []
  | i, p :: l => ⟨i, p.1, p.2⟩ :: entriesFrom (i + 1) l

def Entry.callee (e : Entry) : ℤ × Address := (e.index, e.hook)

/-! ### Clean tables -/

/-- A table in which the hooks stand in front of nothing but nulls and the last
type is zero. The types behind the hooks are whatever earlier removals left. -/
structure CleanTable where
  hooks : List Address
  types : List ℤ
  free : ℕ
  nonNull : 0#64 ∉ hooks
  aligned : types.length = hooks.length + free

def CleanTable.table (c : CleanTable) : HookTable where
  hook := c.hooks ++ List.replicate (c.free + 1) 0#64
  hookType := c.types ++ [0]
  hookCount := c.hooks.length
  hookSize := c.hooks.length + c.free + 1
  lock := 0

def CleanTable.created : CleanTable := ⟨[], List.replicate 7 0, 7, by simp, by simp⟩

theorem CleanTable.created_table : CleanTable.created.table = FunctionHookTables.created := rfl

def CleanTable.pairs (c : CleanTable) : List (Address × ℤ) := c.hooks.zip c.types

def CleanTable.grown (c : CleanTable) : CleanTable where
  hooks := c.hooks
  types := c.types.take c.hooks.length ++ List.replicate (c.hooks.length + 2 * c.free + 1) 0
  free := c.hooks.length + 2 * c.free + 1
  nonNull := c.nonNull
  aligned := by have h := c.aligned; simp; omega

def CleanTable.append (c : CleanTable) (hook : Address) (type : ℤ) (hh : hook ≠ 0#64)
    (hf : 0 < c.free) :
    CleanTable where
  hooks := c.hooks ++ [hook]
  types := c.types.set c.hooks.length type
  free := c.free - 1
  nonNull := by
    rw [List.mem_append, List.mem_singleton, not_or]
    exact ⟨c.nonNull, hh.symm⟩
  aligned := by have h := c.aligned; simp; omega

theorem CleanTable.grow_table (c : CleanTable) (lock : BitVec 64) :
    grow { c.table with lock := lock } = .ok { c.grown.table with lock := lock } := by
  have hal := c.aligned
  have hsize : (2 * c.table.hookSize).toNat = 2 * (c.hooks.length + c.free + 1) := by
    simp only [table]
    omega
  have hcount : c.table.hookCount.toNat = c.hooks.length := by simp [table]
  have h₁ : copyFrom c.table.hook c.hooks.length 0
      (List.replicate (2 * (c.hooks.length + c.free + 1)) 0#64) = .ok c.grown.table.hook := by
    rw [copyFrom_start _ _ _ (by simp [table]) (by simp; omega)]
    simp only [table, grown, List.take_left', List.drop_replicate]
    congr 3
    omega
  have h₂ : copyFrom c.table.hookType c.hooks.length 0
      (List.replicate (2 * (c.hooks.length + c.free + 1)) 0) = .ok c.grown.table.hookType := by
    rw [copyFrom_start _ _ _ (by simp [table]; omega) (by simp; omega)]
    simp only [table, grown, List.drop_replicate, List.append_assoc, ← List.replicate_succ']
    rw [List.take_append_of_le_length (by omega)]
    congr 3
    omega
  simp only [grow, hcount, hsize, h₁, h₂]
  change Except.ok _ = _
  simp only [table, grown]
  congr 2
  omega

theorem CleanTable.publish_table (c : CleanTable) (hook : Address) (type : ℤ) (hh : hook ≠ 0#64)
    (hf : 0 < c.free) : publish c.table hook type = .ok (c.append hook type hh hf).table := by
  obtain ⟨hooks, types, free, hn, hal⟩ := c
  obtain ⟨f, rfl⟩ : ∃ f, free = f + 1 := ⟨free - 1, by simp at hf; omega⟩
  have h₁ : store (hooks ++ List.replicate (f + 2) 0#64) (hooks.length : ℤ) hook =
      .ok (hooks ++ hook :: List.replicate (f + 1) 0#64) := by
    rw [store_ok (by simp)]
    simp [List.replicate_succ]
  have h₂ : store (types ++ [0]) (hooks.length : ℤ) type =
      .ok (types.set hooks.length type ++ [0]) := by
    rw [store_ok (by simp; omega), List.set_append_left _ _ (by omega)]
  have h₃ : store (hooks ++ hook :: List.replicate (f + 1) 0#64) ((hooks.length : ℤ) + 1) 0#64 =
      .ok (hooks ++ hook :: List.replicate (f + 1) 0#64) := by
    rw [← Int.natCast_succ, store_ok (by simp)]
    simp [List.replicate_succ]
  simp only [publish, table, append, h₁, h₂]
  change (store _ _ _ >>= _) = _
  rw [h₃]
  change Except.ok _ = _
  simp
  omega

private theorem CleanTable.grown_free (c : CleanTable) : 0 < c.grown.free := by simp [grown]

/-- The clean table a successful addition leaves. -/
def CleanTable.add (c : CleanTable) (hook : Address) (type : ℤ) (hh : hook ≠ 0#64) : CleanTable :=
  if hf : 0 < c.free then c.append hook type hh hf else c.grown.append hook type hh c.grown_free

theorem CleanTable.append_pairs (c : CleanTable) (hook : Address) (type : ℤ) (hh : hook ≠ 0#64)
    (hf : 0 < c.free) : (c.append hook type hh hf).pairs = c.pairs ++ [(hook, type)] := by
  have hal := c.aligned
  have hlt : c.hooks.length < c.types.length := by omega
  have hs : c.types.set c.hooks.length type =
      c.types.take c.hooks.length ++ type :: c.types.drop (c.hooks.length + 1) :=
    List.set_eq_take_append_cons_drop.trans (if_pos hlt)
  simp only [append, pairs, hs]
  rw [List.zip_append (by simp; omega)]
  simp [zip_take_length]

private theorem CleanTable.grown_pairs (c : CleanTable) : c.grown.pairs = c.pairs := by
  have hal := c.aligned
  have ht : (c.types.take c.hooks.length).length = c.hooks.length := by simp; omega
  simp only [grown, pairs]
  rw [← zip_take_length, List.take_left' ht, zip_take_length]

theorem CleanTable.add_pairs (c : CleanTable) (hook : Address) (type : ℤ) (hh : hook ≠ 0#64) :
    (c.add hook type hh).pairs = c.pairs ++ [(hook, type)] := by
  unfold add
  split
  · exact c.append_pairs hook type hh _
  · rw [append_pairs, grown_pairs]

def CleanTable.reserved (c : CleanTable) : CleanTable := if 0 < c.free then c else c.grown

theorem CleanTable.reserved_free (c : CleanTable) : 0 < c.reserved.free := by
  unfold reserved
  split_ifs with h
  · exact h
  · exact c.grown_free

theorem CleanTable.reserved_pairs (c : CleanTable) : c.reserved.pairs = c.pairs := by
  unfold reserved
  split_ifs
  · rfl
  · exact c.grown_pairs

/-- A table without a free slot grows, and where it cannot the spin lock stays taken. -/
theorem CleanTable.reserve_table (c : CleanTable) (m : Allocation) : reserve m c.table =
    if c.free = 0 ∧ m ≠ .succeeds then .ok (ps4ErrorKernelOutOfMemory, { c.table with lock := 1 })
    else .ok (ps4Ok, c.reserved.table) := by
  have hl : ps4AtomicSpinLock64 c.table.lock = .ok 1 := rfl
  have hm : (m.hook = false ∨ m.hookType = false) ↔ m ≠ .succeeds := by
    rcases m with ⟨_ | _, _ | _⟩ <;> decide
  have hfull : c.table.hookCount ≥ c.table.hookSize - 1 ↔ c.free = 0 := by
    simp only [table]
    omega
  rw [reserve, hl]
  change (if c.table.hookCount ≥ c.table.hookSize - 1 then _ else _) = _
  by_cases hf : c.free = 0
  · have hgrown : c.reserved = c.grown := if_neg (by omega)
    rw [if_pos (hfull.mpr hf), hgrown]
    by_cases hs : m = .succeeds
    · rw [if_neg (fun h => hm.mp h hs), if_neg (fun h => h.2 hs), c.grow_table 1]
      rfl
    · rw [if_pos (hm.mpr hs), if_pos ⟨hf, hs⟩]
      rfl
  · have hkept : c.reserved = c := if_pos (by omega)
    rw [if_neg (fun h => hf (hfull.mp h)), if_neg (fun h => hf h.1), hkept]
    rfl

theorem CleanTable.add_table (c : CleanTable) (m : Allocation) (hook : Address) (type : ℤ)
    (hh : hook ≠ 0#64) : ps4KernelFunctionHookAdd m c.table hook type =
      if c.free = 0 ∧ m ≠ .succeeds then .ok (ps4ErrorKernelOutOfMemory, { c.table with lock := 1 })
      else .ok (ps4Ok, (c.add hook type hh).table) := by
  have hadd : c.add hook type hh = c.reserved.append hook type hh c.reserved_free := by
    by_cases hf : 0 < c.free <;> simp [add, reserved, hf]
  rw [add_eq_reserve m c.table hook type hh, c.reserve_table m, hadd]
  split_ifs
  · rfl
  · change (publish c.reserved.table hook type >>= _) = _
    rw [c.reserved.publish_table hook type hh c.reserved_free]
    rfl

end Ps4Sdk.FunctionHookTables
