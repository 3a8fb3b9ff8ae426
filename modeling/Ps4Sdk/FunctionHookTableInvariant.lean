import Ps4Sdk.FunctionHookHandler
import Ps4Sdk.FunctionHookRemoval

/-!
# The representation invariant of the hook table

`Add` uses `hookCount` for the end of the table, `Remove` a null hook, and the
handler a zero type. The three agree as long as each removal finds a null for
every entry it counts and has passed its hook when it reaches the new end.
-/

namespace Ps4Sdk.FunctionHookTables
open CheckedBlocks AtomicSpinLocks FunctionHookHandler

structure Representation (a : HookTable) : Prop where
  hookBlock : a.hook.length = a.hookSize
  typeBlock : a.hookType.length = a.hookSize
  count : 0 ≤ a.hookCount ∧ a.hookCount ≤ a.hookSize - 1
  nonNull : ∀ i : ℕ, (i : ℤ) < a.hookCount → ∃ hook ≠ 0#64, a.hook[i]? = some hook
  terminated : a.hook[a.hookCount.toNat]? = some 0#64
  lastType : a.hookType[(a.hookSize - 1).toNat]? = some 0

def ScansInside (a : HookTable) : Prop :=
  ∀ (address curthread : Address) (W : Type) (b : Behaviour W) (f : Frame W) (x : Label × Frame W),
    Reaches b ⟨address, a.hook, a.hookType, curthread⟩ (.handler, f) x →
      ∃ y, step b ⟨address, a.hook, a.hookType, curthread⟩ x.1 x.2 = .ok y

/-- The invariant holds in every state of a sequence of calls, and no call leaves
a block. A call that waits for a lock left taken does not return. -/
def Sound (a : HookTable) : List HookCall → Prop
  | [] => Representation a ∧ ScansInside a
  | call :: calls => (Representation a ∧ ScansInside a) ∧
    match call.run a with
    | .ok r => Sound r.2 calls
    | .error .spins => True
    | .error .outOfBounds => False

/-- A removal has room to read behind the hooks for each occurrence, and none of
them stands behind the new end. -/
def Compactable (a : HookTable) : HookCall → Prop
  | .add _ _ _ => True
  | .remove hook =>
    a.lock = 0 →
      let hooks := a.hook.take a.hookCount.toNat
      hooks.length + hooks.count hook ≤ a.hookSize ∧
        hook ∉ hooks.drop (hooks.length - hooks.count hook + 1)

/-- Each removal of a sequence of calls is compactable when it is called. -/
def Compacts (a : HookTable) : List HookCall → Prop
  | [] => True
  | call :: calls => Compactable a call ∧
    match call.run a with
    | .ok r => Compacts r.2 calls
    | .error _ => True

theorem CleanTable.representation (c : CleanTable) (lock : BitVec 64) :
    Representation { c.table with lock := lock } := by
  have hal := c.aligned
  refine ⟨?_, ?_, ?_, ?_, ?_, ?_⟩
  · simp [table]
    omega
  · simp [table]
    omega
  · simp only [table]
    omega
  · intro i hi
    have hi : i < c.hooks.length := by simpa [table] using hi
    refine ⟨c.hooks[i], fun h => c.nonNull (h ▸ List.getElem_mem hi), ?_⟩
    simp [table, List.getElem?_append_left hi]
  · simp [table]
  · have h : (c.table.hookSize - 1).toNat = c.types.length := by
      simp only [table]
      omega
    change c.table.hookType[(c.table.hookSize - 1).toNat]? = some 0
    rw [h]
    simp [table]

theorem Representation.scansInside {a : HookTable} (h : Representation a) : ScansInside a := by
  intro address curthread W b f x hx
  have hlen : a.hook.length = a.hookType.length := by
    have h₁ := h.hookBlock
    have h₂ := h.typeBlock
    omega
  obtain ⟨calls, f', hr, -⟩ := handler_run b ⟨address, a.hook, a.hookType, curthread⟩ f hlen
    (List.mem_of_getElem? h.lastType)
  exact hr.steps hx

/-- The entry that the loop leaves at an index is the one as many places further
as the hook occurs up to there. -/
theorem getElem?_shifted (target : Address) (vs : List Address) (t i : ℕ) (hi : i < vs.length) :
    (shifted target t vs)[i]? = some ((vs[i + t + (vs.take (i + 1)).count target]?).getD 0#64) := by
  induction vs generalizing t i with
  | nil => simp at hi
  | cons x vs ih =>
    simp only [shifted, List.take_succ_cons, List.count_cons]
    cases i with
    | zero => by_cases hx : x = target <;> simp [hx]
    | succ i =>
      rw [List.getElem?_cons_succ, ih _ i (by simpa using hi)]
      congr 2
      by_cases hx : x = target
      · simp only [hx, if_true, beq_self_eq_true]
        rw [show i + 1 + t + ((vs.take (i + 1)).count target + 1) =
          (i + (t + 1) + (vs.take (i + 1)).count target) + 1 by omega, List.getElem?_cons_succ]
      · simp only [hx, if_false, beq_iff_eq]
        rw [show i + 1 + t + ((vs.take (i + 1)).count target + 0) =
          (i + t + (vs.take (i + 1)).count target) + 1 by omega, List.getElem?_cons_succ]

private theorem count_take_le (target : Address) (vs : List Address) (i : ℕ) :
    (vs.take i).count target ≤ vs.count target :=
  (List.take_sublist i vs).count_le target

theorem shifted_below (target : Address) (vs : List Address) (i : ℕ)
    (hi : i < vs.length - vs.count target) : ∃ x ∈ vs, (shifted target 0 vs)[i]? = some x := by
  have hle := count_take_le target vs (i + 1)
  have hlt : i + 0 + (vs.take (i + 1)).count target < vs.length := by omega
  refine ⟨vs[i + 0 + (vs.take (i + 1)).count target], List.getElem_mem hlt, ?_⟩
  rw [getElem?_shifted target vs 0 i (by omega), List.getElem?_eq_getElem hlt]
  rfl

/-- At the new end stands a null exactly when the loop has counted every
occurrence there. -/
theorem shifted_end (target : Address) (vs : List Address) (hn : 0#64 ∉ vs) (hpos : target ∈ vs) :
    (shifted target 0 vs)[vs.length - vs.count target]? = some 0#64 ↔
      target ∉ vs.drop (vs.length - vs.count target + 1) := by
  have hc : 0 < vs.count target := List.count_pos_iff.mpr hpos
  have hle : vs.count target ≤ vs.length := List.count_le_length
  generalize hk : vs.length - vs.count target = k
  have hsum : (vs.take (k + 1)).count target + (vs.drop (k + 1)).count target =
      vs.count target := by
    rw [← List.count_append, List.take_append_drop]
  rw [getElem?_shifted target vs 0 k (by omega), ← List.count_eq_zero, Option.some_inj]
  constructor
  · intro h
    by_contra hne
    have hlt : k + 0 + (vs.take (k + 1)).count target < vs.length := by omega
    rw [List.getElem?_eq_getElem hlt] at h
    exact hn (h ▸ List.getElem_mem hlt)
  · intro h
    rw [List.getElem?_eq_none (by omega)]
    rfl

theorem shifted_above (target : Address) (vs : List Address)
    (h : target ∉ vs.drop (vs.length - vs.count target + 1)) (hpos : target ∈ vs) :
    (shifted target 0 vs).drop (vs.length - vs.count target) =
      List.replicate (vs.count target) 0#64 := by
  have hc : 0 < vs.count target := List.count_pos_iff.mpr hpos
  have hle : vs.count target ≤ vs.length := List.count_le_length
  apply List.ext_getElem?
  intro j
  rw [List.getElem?_drop, List.getElem?_replicate]
  by_cases hj : j < vs.count target
  · have hsum : (vs.take (vs.length - vs.count target + j + 1)).count target = vs.count target := by
      have happ : (vs.take (vs.length - vs.count target + j + 1)).count target +
          (vs.drop (vs.length - vs.count target + j + 1)).count target = vs.count target := by
        rw [← List.count_append, List.take_append_drop]
      have hrest : target ∉ vs.drop (vs.length - vs.count target + j + 1) := by
        intro hm
        apply h
        rw [show vs.length - vs.count target + j + 1 = vs.length - vs.count target + 1 + j by omega,
          ← List.drop_drop] at hm
        exact List.mem_of_mem_drop hm
      have hzero := List.count_eq_zero.mpr hrest
      omega
    rw [if_pos hj, getElem?_shifted target vs 0 _ (by omega), hsum,
      List.getElem?_eq_none (by omega)]
    rfl
  · rw [if_neg hj, List.getElem?_eq_none (by simp; omega)]

def CleanTable.compacted (c : CleanTable) (hook : Address) : CleanTable where
  hooks := (shifted hook 0 c.hooks).take (c.hooks.length - c.hooks.count hook)
  types := c.types
  free := c.free + c.hooks.count hook
  nonNull := by
    intro hm
    obtain ⟨i, hi⟩ := List.mem_iff_getElem?.mp hm
    have hlt : i < c.hooks.length - c.hooks.count hook := by
      have hlt := (List.getElem?_eq_some_iff.mp hi).1
      simp only [List.length_take, length_shifted] at hlt
      omega
    obtain ⟨x, hx, he⟩ := shifted_below hook c.hooks i hlt
    rw [List.getElem?_take_of_lt hlt, he] at hi
    exact c.nonNull (Option.some_inj.mp hi ▸ hx)
  aligned := by
    have hal := c.aligned
    have hle : c.hooks.count hook ≤ c.hooks.length := List.count_le_length
    simp only [List.length_take, length_shifted]
    omega

theorem CleanTable.compacted_table (c : CleanTable) (hook : Address) (hm : hook ∈ c.hooks)
    (h : hook ∉ c.hooks.drop (c.hooks.length - c.hooks.count hook + 1)) :
    { c.table with
      hook := shifted hook 0 c.hooks ++ List.replicate (c.free + 1) 0#64
      hookCount := c.hooks.length - c.hooks.count hook } = (c.compacted hook).table := by
  have hle : c.hooks.count hook ≤ c.hooks.length := List.count_le_length
  have hsplit : shifted hook 0 c.hooks =
      (shifted hook 0 c.hooks).take (c.hooks.length - c.hooks.count hook) ++
        List.replicate (c.hooks.count hook) 0#64 := by
    rw [← shifted_above hook c.hooks h hm, List.take_append_drop]
  simp only [table, compacted, HookTable.mk.injEq, List.length_take, length_shifted]
  refine ⟨?_, trivial, by omega, by omega, trivial⟩
  nth_rewrite 1 [hsplit]
  rw [List.append_assoc, List.replicate_append_replicate]
  congr 2
  omega

theorem CleanTable.compactable_remove (c : CleanTable) (hook : Address) :
    Compactable c.table (.remove hook) ↔ c.hooks.count hook ≤ c.free + 1 ∧
      hook ∉ c.hooks.drop (c.hooks.length - c.hooks.count hook + 1) := by
  have htake : c.table.hook.take c.table.hookCount.toNat = c.hooks := by simp [table]
  have hl : c.table.lock = 0 := rfl
  simp only [Compactable, htake, hl, true_imp_iff]
  refine and_congr ?_ Iff.rfl
  simp only [table]
  omega

/-- A removal against the condition leaves a block or the invariant. -/
theorem CleanTable.remove_breaks (c : CleanTable) (hook : Address) (hh : hook ≠ 0#64)
    (hb : ¬Compactable c.table (.remove hook)) :
    ps4KernelFunctionHookRemove c.table hook = .error .outOfBounds ∨
      ∃ code a', ps4KernelFunctionHookRemove c.table hook = .ok (code, a') ∧
      ¬Representation a' := by
  rw [compactable_remove, not_and] at hb
  rw [c.remove_table hook hh]
  by_cases hle : c.hooks.count hook ≤ c.free + 1
  · right
    rw [if_pos hle]
    refine ⟨_, _, rfl, fun hr => hb hle ?_⟩
    have hm : hook ∈ c.hooks := by
      by_contra hm
      exact hb hle (fun h => hm (List.mem_of_mem_drop h))
    have hcount : c.hooks.count hook ≤ c.hooks.length := List.count_le_length
    have hpos : 0 < c.hooks.count hook := List.count_pos_iff.mpr hm
    have hend := hr.terminated
    rw [← shifted_end hook c.hooks c.nonNull hm, ← hend]
    simp only
    rw [List.getElem?_append_left (by rw [length_shifted]; omega)]
    congr 1
    omega
  · left
    rw [if_neg hle]

/-- One call on a table that satisfies the invariant. -/
theorem CleanTable.call_sound (c : CleanTable) (call : HookCall) (h : Compactable c.table call) :
    ∃ code c' lock, call.run c.table =
      .ok (code, { (c' : CleanTable).table with lock := lock }) := by
  cases call with
  | add hook type m =>
    by_cases hh : hook = 0#64
    · exact ⟨_, c, 0, if_pos hh⟩
    · rw [HookCall.run, c.add_table m hook type.value hh]
      by_cases hf : c.free = 0 ∧ m ≠ .succeeds
      · exact ⟨_, c, 1, if_pos hf⟩
      · exact ⟨_, c.add hook type.value hh, 0, if_neg hf⟩
  | remove hook =>
    by_cases hh : hook = 0#64
    · exact ⟨_, c, 0, if_pos hh⟩
    · obtain ⟨hle, hend⟩ := (c.compactable_remove hook).mp h
      by_cases hm : hook ∈ c.hooks
      · refine ⟨ps4Ok, c.compacted hook, 0, ?_⟩
        have hne : c.hooks.count hook ≠ 0 := by
          have hpos : 0 < c.hooks.count hook := List.count_pos_iff.mpr hm
          omega
        rw [HookCall.run, c.remove_table hook hh, if_pos hle, if_neg hne,
          c.compacted_table hook hm hend]
        rfl
      · exact ⟨ps4ErrorNotFound, c, 0, c.remove_absent hook hh hm⟩

/-- With the lock taken a call returns only where it refuses its argument. -/
theorem call_locked (a : HookTable) (call : HookCall) (hl : a.lock ≠ 0) :
    call.run a = .error .spins ∨ ∃ code, call.run a = .ok (code, a) := by
  have hspin : ps4AtomicSpinLock64 a.lock = .error .spins := if_pos hl
  cases call with
  | add hook type m =>
    by_cases hh : hook = 0#64
    · exact .inr ⟨_, if_pos hh⟩
    · left
      rw [HookCall.run, ps4KernelFunctionHookAdd, if_neg hh, hspin]
      rfl
  | remove hook =>
    by_cases hh : hook = 0#64
    · exact .inr ⟨_, if_pos hh⟩
    · left
      rw [HookCall.run, ps4KernelFunctionHookRemove, if_neg hh, hspin]
      rfl

private theorem Sound.representation {a : HookTable} {calls : List HookCall} (h : Sound a calls) :
    Representation a := by
  cases calls with
  | nil => exact h.1
  | cons call calls => exact h.1.1

/-- A call against the condition is refused, leaves a block or breaks the invariant. -/
theorem CleanTable.call_unsound (c : CleanTable) (call : HookCall)
    (hb : ¬Compactable c.table call) :
    call.run c.table = .error .outOfBounds ∨
      ∃ code a', call.run c.table = .ok (code, a') ∧ ¬Representation a' := by
  cases call with
  | add hook type m => exact absurd trivial hb
  | remove hook =>
    refine c.remove_breaks hook ?_ hb
    rintro rfl
    refine hb ((c.compactable_remove _).mpr ⟨?_, fun h => c.nonNull (List.mem_of_mem_drop h)⟩)
    simp [List.count_eq_zero_of_not_mem c.nonNull]

theorem CleanTable.sound_iff (c : CleanTable) (lock : BitVec 64) (calls : List HookCall) :
    Sound { c.table with lock := lock } calls ↔ Compacts { c.table with lock := lock } calls := by
  induction calls generalizing c lock with
  | nil => exact ⟨fun _ => trivial, fun _ => ⟨c.representation lock,
      (c.representation lock).scansInside⟩⟩
  | cons call calls ih =>
    have hrep := c.representation lock
    simp only [Sound, Compacts, hrep, hrep.scansInside, true_and]
    by_cases hl : lock = 0
    · subst hl
      change (match call.run c.table with
        | .ok r => Sound r.2 calls | .error .spins => True | .error .outOfBounds => False) ↔
        Compactable c.table call ∧
          (match call.run c.table with | .ok r => Compacts r.2 calls | .error _ => True)
      by_cases hc : Compactable c.table call
      · obtain ⟨code, c', lock, hrun⟩ := c.call_sound call hc
        simp only [hrun, hc, true_and]
        exact ih c' lock
      · refine iff_of_false ?_ (fun h => hc h.1)
        rcases c.call_unsound call hc with hrun | ⟨code, a', hrun, hbroken⟩
        · simp [hrun]
        · simp only [hrun]
          exact fun h => hbroken h.representation
    · have hcompact : Compactable { c.table with lock := lock } call := by
        cases call with
        | add hook type m => trivial
        | remove hook => exact fun h => absurd h hl
      rcases call_locked { c.table with lock := lock } call hl with hrun | ⟨code, hrun⟩
      · simp [hrun, hcompact]
      · simp only [hrun, hcompact, true_and]
        exact ih c lock

/-- From a new handle on, the invariant holds in every state of a sequence of
calls, and no call and no handler leaves a block, exactly when each removal has
room behind the hooks for each occurrence of its hook and none of them stands
behind the new end. -/
theorem hookTable_sound_iff (calls : List HookCall) : Sound created calls ↔
    Compacts created calls :=
  CleanTable.created.sound_iff 0 calls

/-- Two occurrences of a hook leave one of them at the index of the count, and
seven make the loop read behind the block. -/
theorem duplicates_break_invariant :
    ¬Sound created (List.replicate 2 (.add 1 .genericPre .succeeds) ++ [.remove 1]) ∧
      ¬Sound created (List.replicate 7 (.add 1 .genericPre .succeeds) ++ [.remove 1]) := by
  have h := CleanTable.created.sound_iff 0
  constructor
  · intro hs
    obtain ⟨-, -, hc, -⟩ := (h _).mp hs
    exact (hc rfl).2 (by decide)
  · intro hs
    obtain ⟨-, -, -, -, -, -, -, hc, -⟩ := (h _).mp hs
    exact absurd (hc rfl).1 (by decide)

end Ps4Sdk.FunctionHookTables
