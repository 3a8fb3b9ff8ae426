import Ps4Sdk.FunctionHookTables

/-!
# What the compaction loop computes

At index `s` the loop reads the entries from `s` on as they were before the
call, since it has only written below. The entry it writes is therefore the one
`t` places further, where `t` counts the removed hook up to and including `s`.
-/

namespace Ps4Sdk.FunctionHookTables
open CheckedBlocks AtomicSpinLocks

def compact (target : Address) : ℕ → List Address → Except Stop (List Address × ℕ)
  | _, [] => .error .outOfBounds
  | t, x :: rest =>
    if x = 0#64 then .ok (x :: rest, t)
    else
      let t := if x = target then t + 1 else t
      match (x :: rest)[t]? with
      | some y => (compact target t rest).map (fun r => (y :: r.1, r.2))
      | none => .error .outOfBounds

theorem removeLoop_eq_compact (target : Address) (front rest : List Address) (t : ℕ) :
    removeLoop target (front ++ rest) front.length t =
      (compact target t rest).map (fun r => (front ++ r.1, r.2)) := by
  induction rest generalizing front t with
  | nil =>
    rw [removeLoop]
    simp [compact, Except.map]
  | cons x rest ih =>
    rw [removeLoop, dif_pos (by simp)]
    simp only [List.getElem_append_right (Nat.le_refl front.length), Nat.sub_self,
      List.getElem_cons_zero, compact]
    by_cases hx : x = 0#64
    · simp [hx, Except.map]
    · simp only [if_neg hx]
      generalize (if x = target then t + 1 else t) = t'
      have hread : (front ++ x :: rest)[front.length + t']? = (x :: rest)[t']? := by
        rw [List.getElem?_append_right (by omega)]
        congr 1
        omega
      rw [hread]
      by_cases ht : t' = 0
      · subst ht
        have h := ih (front ++ [x]) 0
        simp only [List.append_assoc, List.singleton_append, List.length_append,
          List.length_singleton] at h
        simp only [ne_eq, not_true_eq_false, if_false, List.getElem?_cons_zero, h]
        cases compact target 0 rest <;> simp [Except.map]
      · simp only [ne_eq, ht, not_false_eq_true, if_true]
        cases hy : (x :: rest)[t']? with
        | none => rfl
        | some y =>
          have h := ih (front ++ [y]) t'
          simp only [List.append_assoc, List.singleton_append, List.length_append,
            List.length_singleton] at h
          simp only [List.set_append_right _ _ (Nat.le_refl front.length), Nat.sub_self,
            List.set_cons_zero, h]
          cases compact target t' rest <;> simp [Except.map]

/-- The entries below the terminator after the loop, in a block that holds
nothing but nulls behind them. -/
def shifted (target : Address) : ℕ → List Address → List Address
  | _, [] => []
  | t, x :: vs =>
    let t := if x = target then t + 1 else t
    ((x :: vs)[t]?).getD 0#64 :: shifted target t vs

@[simp] theorem length_shifted (target : Address) (t : ℕ) (vs : List Address) :
    (shifted target t vs).length = vs.length := by
  induction vs generalizing t with
  | nil => rfl
  | cons x vs ih => simp [shifted, ih]

theorem getElem?_append_nulls (vs : List Address) (k j : ℕ) (h : j < vs.length + k) :
    (vs ++ List.replicate k 0#64)[j]? = some ((vs[j]?).getD 0#64) := by
  by_cases hj : j < vs.length
  · rw [List.getElem?_append_left hj]
    simp [hj]
  · rw [List.getElem?_append_right (by omega), List.getElem?_replicate, if_pos (by omega)]
    simp [List.getElem?_eq_none (by omega : vs.length ≤ j)]

/-- The loop stops inside the block exactly when the block has a null for every
removed entry. -/
theorem compact_append_nulls (target : Address) (vs : List Address) (hv : 0#64 ∉ vs)
    (t k : ℕ) (hk : 0 < k) :
    compact target t (vs ++ List.replicate k 0#64) =
      if vs = [] ∨ t + vs.count target ≤ k then
        .ok (shifted target t vs ++ List.replicate k 0#64, t + vs.count target)
      else .error .outOfBounds := by
  induction vs generalizing t with
  | nil =>
    obtain ⟨k, rfl⟩ : ∃ j, k = j + 1 := ⟨k - 1, by omega⟩
    simp [compact, shifted, List.replicate_succ]
  | cons x vs ih =>
    have hx : x ≠ 0#64 := fun h => hv (by simp [h])
    have hvs : 0#64 ∉ vs := fun h => hv (List.mem_cons_of_mem _ h)
    simp only [List.cons_append, compact, if_neg hx, shifted]
    have hc : t + (x :: vs).count target = (if x = target then t + 1 else t) + vs.count target := by
      rw [List.count_cons]
      by_cases hx : x = target <;> simp [hx]
      omega
    rw [hc]
    generalize (if x = target then t + 1 else t) = t'
    rw [ih hvs t']
    by_cases hle : t' + vs.count target ≤ k
    · have hr := getElem?_append_nulls (x :: vs) k t' (by simp; omega)
      simp only [List.cons_append] at hr
      simp [hr, hle, Except.map]
    · have hno : ¬((x :: vs) = [] ∨ t' + vs.count target ≤ k) := by simp; omega
      rw [if_neg hno]
      by_cases hnil : vs = []
      · subst hnil
        have hr : ((x :: ([] ++ List.replicate k 0#64))[t']?) = none := by
          apply List.getElem?_eq_none
          simp at hle ⊢
          omega
        rw [hr]
      · have hno' : ¬(vs = [] ∨ t' + vs.count target ≤ k) := by simp [hnil]; omega
        rw [if_neg hno']
        split <;> rfl

theorem compact_cons (target x : Address) (rest out : List Address) (t t' : ℕ) (hx : x ≠ 0#64)
    (h : compact target t (x :: rest) = .ok (out, t')) :
    ∃ out', compact target (if x = target then t + 1 else t) rest = .ok (out', t') := by
  simp only [compact, if_neg hx] at h
  split at h
  · cases hc : compact target (if x = target then t + 1 else t) rest with
    | error e => simp [hc, Except.map] at h
    | ok r =>
      simp only [hc, Except.map, Except.ok.injEq, Prod.mk.injEq] at h
      exact ⟨r.1, by rw [← h.2]⟩
  · simp at h

theorem le_of_compact (target : Address) (rest out : List Address) (t t' : ℕ)
    (h : compact target t rest = .ok (out, t')) : t ≤ t' := by
  induction rest generalizing t out with
  | nil => simp [compact] at h
  | cons x rest ih =>
    by_cases hx : x = 0#64
    · simp only [compact, if_pos hx, Except.ok.injEq, Prod.mk.injEq] at h
      omega
    · obtain ⟨out', hc⟩ := compact_cons target x rest out t t' hx h
      have hle := ih out' _ hc
      split_ifs at hle <;> omega

/-- The loop counts every occurrence in front of the first null. -/
theorem count_le_of_compact (target : Address) (vs rest out : List Address) (hv : 0#64 ∉ vs)
    (t t' : ℕ) (h : compact target t (vs ++ rest) = .ok (out, t')) : t + vs.count target ≤ t' := by
  induction vs generalizing t out with
  | nil => simpa using le_of_compact target rest out t t' h
  | cons x vs ih =>
    have hx : x ≠ 0#64 := fun e => hv (by simp [e])
    obtain ⟨out', hc⟩ := compact_cons target x (vs ++ rest) out t t' hx h
    have hle := ih out' (fun hm => hv (List.mem_cons_of_mem _ hm)) _ hc
    rw [List.count_cons]
    by_cases hxt : x = target <;> simp [hxt] at hle ⊢ <;> omega

theorem shifted_of_not_mem (target : Address) (vs : List Address) (h : target ∉ vs) :
    shifted target 0 vs = vs := by
  induction vs with
  | nil => rfl
  | cons x vs ih =>
    have hx : x ≠ target := fun e => h (by simp [e])
    simp [shifted, hx, ih (fun hm => h (List.mem_cons_of_mem _ hm))]

theorem shifted_append_of_not_mem (target : Address) (us vs : List Address) (h : target ∉ us) :
    shifted target 0 (us ++ vs) = us ++ shifted target 0 vs := by
  induction us with
  | nil => rfl
  | cons x us ih =>
    have hx : x ≠ target := fun e => h (by simp [e])
    simp [shifted, hx, ih (fun hm => h (List.mem_cons_of_mem _ hm))]

/-- With offset one every entry takes the place of its predecessor. -/
theorem shifted_one_append (target : Address) (ws vs : List Address) (h : target ∉ ws) :
    ((ws ++ vs)[0]?).getD 0#64 :: shifted target 1 (ws ++ vs) =
      ws ++ ((vs[0]?).getD 0#64 :: shifted target 1 vs) := by
  induction ws with
  | nil => rfl
  | cons w ws ih =>
    have hw : w ≠ target := fun e => h (by simp [e])
    have hi := ih (fun hm => h (List.mem_cons_of_mem _ hm))
    simpa [shifted, hw] using hi

theorem shifted_first (target : Address) (us ws vs : List Address) (hu : target ∉ us)
    (hw : target ∉ ws) :
    shifted target 0 (us ++ target :: (ws ++ vs)) =
      us ++ (ws ++ ((vs[0]?).getD 0#64 :: shifted target 1 vs)) := by
  rw [shifted_append_of_not_mem target us _ hu, ← shifted_one_append target ws vs hw]
  simp [shifted]

/-- The whole call on a clean table. It leaves the types where they are. -/
theorem CleanTable.remove_table (c : CleanTable) (hook : Address) (hh : hook ≠ 0#64) :
    ps4KernelFunctionHookRemove c.table hook =
      if c.hooks.count hook ≤ c.free + 1 then
        .ok (if c.hooks.count hook = 0 then ps4ErrorNotFound else ps4Ok,
          { c.table with
            hook := shifted hook 0 c.hooks ++ List.replicate (c.free + 1) 0#64
            hookCount := c.hooks.length - c.hooks.count hook })
      else .error .outOfBounds := by
  have hl : ps4AtomicSpinLock64 c.table.lock = .ok 1 := rfl
  have hloop : removeLoop hook c.table.hook 0 0 =
      if c.hooks.count hook ≤ c.free + 1 then
        .ok (shifted hook 0 c.hooks ++ List.replicate (c.free + 1) 0#64, c.hooks.count hook)
      else .error .outOfBounds := by
    have hnil : (c.hooks = [] ∨ 0 + c.hooks.count hook ≤ c.free + 1) ↔
        c.hooks.count hook ≤ c.free + 1 := by
      constructor
      · rintro (h | h)
        · simp [h]
        · omega
      · intro h
        right
        omega
    have h := removeLoop_eq_compact hook [] c.table.hook 0
    simp only [List.nil_append, List.length_nil] at h
    rw [h]
    simp only [table, compact_append_nulls hook c.hooks c.nonNull 0 (c.free + 1) (by omega), hnil]
    split_ifs <;> simp [Except.map]
  rw [ps4KernelFunctionHookRemove, if_neg hh, hl]
  change (removeLoop hook c.table.hook 0 0 >>= _) = _
  rw [hloop]
  by_cases hle : c.hooks.count hook ≤ c.free + 1
  · rw [if_pos hle, if_pos hle]
    rfl
  · rw [if_neg hle, if_neg hle]
    rfl

theorem CleanTable.remove_absent (c : CleanTable) (hook : Address) (hh : hook ≠ 0#64)
    (hm : hook ∉ c.hooks) :
    ps4KernelFunctionHookRemove c.table hook = .ok (ps4ErrorNotFound, c.table) := by
  rw [c.remove_table hook hh, List.count_eq_zero_of_not_mem hm, if_pos (by omega), if_pos rfl,
    shifted_of_not_mem hook c.hooks hm]
  simp [table]

end Ps4Sdk.FunctionHookTables
