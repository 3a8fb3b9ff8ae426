import Ps4Sdk.FunctionHookRemoval

/-!
# The hook table against a list of pairs

The table stands for the list of its pairs of a hook and a type. An addition
appends a pair. A removal deletes the pairs of one hook and keeps the others,
but the code moves the hooks up without their types and skips the hook that
follows an earlier removal, so the table follows the list only as long as the
hook of each removal is followed by other hooks of its own type.
-/

namespace Ps4Sdk.FunctionHookTables
open CheckedBlocks AtomicSpinLocks StepRuns

def pairCall (l : List (Address × ℤ)) : HookCall → Code × List (Address × ℤ)
  | .add hook type _ =>
    if hook = 0#64 then (ps4ErrorArgumentMissing, l) else (ps4Ok, l ++ [(hook, type.value)])
  | .remove hook =>
    if hook = 0#64 then (ps4ErrorArgumentMissing, l)
    else if hook ∈ l.map Prod.fst then (ps4Ok, l.filter (fun p => p.1 ≠ hook))
    else (ps4ErrorNotFound, l)

def pairList (calls : List HookCall) : List (Address × ℤ) :=
  calls.foldl (fun l c => (pairCall l c).2) []

/-- The pairs below `hookCount` are the list. -/
structure Refines (a : HookTable) (l : List (Address × ℤ)) : Prop where
  count : a.hookCount = l.length
  pairs : (a.hook.zip a.hookType).take l.length = l

/-- Both allocations of a growing addition succeed. -/
def HookCall.Allocates : HookCall → Prop
  | .add _ _ m => m = .succeeds
  | .remove _ => True

/-- A call that returns, with its allocations succeeding. -/
def CallStep (a : HookTable) (c : HookCall) (a' : HookTable) : Prop :=
  c.Allocates ∧ ∃ code, c.run a = .ok (code, a')

/-- The call returns the code of the list, leaves the list's pairs in the table,
and changes nothing where the hook is not found. -/
def Follows (a : HookTable) (l : List (Address × ℤ)) (c : HookCall) : Prop :=
  ∃ a', c.run a = .ok ((pairCall l c).1, a') ∧ Refines a' (pairCall l c).2 ∧
    ((pairCall l c).1 = ps4ErrorNotFound → a' = a)

/-- Behind the hook of a removal stand only other hooks of the same type. -/
def Aligned (a : HookTable) : HookCall → Prop
  | .add _ _ _ => True
  | .remove hook => ∀ xs type ys,
      (a.hook.zip a.hookType).take a.hookCount.toNat = xs ++ (hook, type) :: ys →
        ∀ p ∈ ys, p.1 ≠ hook ∧ p.2 = type

theorem CleanTable.zip_table (c : CleanTable) :
    (c.table.hook.zip c.table.hookType).take c.hooks.length = c.pairs := by
  have hal := c.aligned
  have h : (c.table.hook.zip c.table.hookType) =
      c.hooks.zip (c.types.take c.hooks.length) ++
        (List.replicate (c.free + 1) 0#64).zip (c.types.drop c.hooks.length ++ [0]) := by
    rw [← List.zip_append (by simp; omega), ← List.append_assoc, List.take_append_drop]
    rfl
  rw [h, List.take_left' (by simp; omega), zip_take_length]
  rfl

private theorem CleanTable.pairs_length (c : CleanTable) : c.pairs.length = c.hooks.length := by
  have hal := c.aligned
  simp [pairs]
  omega

private theorem CleanTable.pairs_hooks (c : CleanTable) : c.pairs.map Prod.fst = c.hooks := by
  have hal := c.aligned
  exact List.map_fst_zip (by omega)

private theorem CleanTable.refines (c : CleanTable) : Refines c.table c.pairs where
  count := by simp [table, pairs_length]
  pairs := by rw [pairs_length]; exact c.zip_table

private theorem CleanTable.aligned_remove (c : CleanTable) (hook : Address) :
    Aligned c.table (.remove hook) ↔ ∀ xs type ys, c.pairs = xs ++ (hook, type) :: ys →
      ∀ p ∈ ys, p.1 ≠ hook ∧ p.2 = type := by
  have h : c.table.hookCount.toNat = c.hooks.length := by simp [table]
  simp only [Aligned, h, zip_table]

/-- Hooks moved up by one keep their types exactly when the types are all those
of the pair they close up to. -/
theorem zip_moved_up (type : ℤ) (ys : List (Address × ℤ)) (rest : List ℤ) :
    (ys.map Prod.fst).zip (type :: (ys.map Prod.snd ++ rest)) = ys ↔ ∀ p ∈ ys, p.2 = type := by
  induction ys generalizing type with
  | nil => simp
  | cons y ys ih =>
    simp only [List.map_cons, List.cons_append, List.zip_cons_cons, List.cons.injEq, ih,
      List.forall_mem_cons]
    constructor
    · rintro ⟨hy, hys⟩
      have he : y.2 = type := (congrArg Prod.snd hy).symm
      exact ⟨he, fun p hp => (hys p hp).trans he⟩
    · rintro ⟨rfl, hys⟩
      exact ⟨rfl, hys⟩

/-- The table after a removal whose hook occurs once. -/
def CleanTable.closed (c : CleanTable) (us ws : List Address) (hook : Address)
    (h : c.hooks = us ++ hook :: ws) : CleanTable where
  hooks := us ++ ws
  types := c.types
  free := c.free + 1
  nonNull := by
    have hn := c.nonNull
    rw [h] at hn
    simp only [List.mem_append, List.mem_cons, not_or] at hn ⊢
    exact ⟨hn.1, hn.2.2⟩
  aligned := by
    have hal := c.aligned
    rw [h] at hal
    simp only [List.length_append, List.length_cons] at hal ⊢
    omega

/-- A removal whose hook occurs once closes the gap in the hooks alone. -/
theorem CleanTable.remove_once (c : CleanTable) (us ws : List Address) (hook : Address)
    (h : c.hooks = us ++ hook :: ws) (hu : hook ∉ us) (hw : hook ∉ ws) :
    ps4KernelFunctionHookRemove c.table hook = .ok (ps4Ok, (c.closed us ws hook h).table) := by
  have hh : hook ≠ 0#64 := fun e => c.nonNull (by simp [h, e])
  have hc : c.hooks.count hook = 1 := by
    rw [h, List.count_append, List.count_cons_self, List.count_eq_zero_of_not_mem hu,
      List.count_eq_zero_of_not_mem hw]
  have hs : shifted hook 0 c.hooks = us ++ (ws ++ [0#64]) := by
    have h' := shifted_first hook us ws [] hu hw
    simpa [h, shifted] using h'
  rw [c.remove_table hook hh, hc, if_pos (by omega), if_neg (by omega), hs]
  simp only [table, closed, List.append_assoc, List.singleton_append, ← List.replicate_succ]
  congr 3
  · rw [h]
    simp
    omega
  · rw [h]
    simp
    omega

theorem CleanTable.closed_pairs (c : CleanTable) (xs ys : List (Address × ℤ)) (hook : Address)
    (type : ℤ) (hp : c.pairs = xs ++ (hook, type) :: ys)
    (h : c.hooks = xs.map Prod.fst ++ hook :: ys.map Prod.fst) :
    (c.closed _ _ hook h).pairs = xs ++ ys ↔ ∀ p ∈ ys, p.2 = type := by
  have ht : c.types = xs.map Prod.snd ++ type :: (ys.map Prod.snd ++
      c.types.drop c.pairs.length) := by
    have h' : c.types.take c.pairs.length = c.pairs.map Prod.snd := by
      have hal := c.aligned
      simp only [pairs, List.length_zip, Nat.min_eq_left
        (by omega : c.hooks.length ≤ c.types.length)]
      rw [← zip_take_length, List.map_snd_zip (by rw [List.length_take]; omega)]
    calc c.types = c.types.take c.pairs.length ++ c.types.drop c.pairs.length :=
          (List.take_append_drop _ _).symm
      _ = _ := by rw [h', hp]; simp
  rw [← zip_moved_up type ys (c.types.drop c.pairs.length)]
  simp only [pairs, closed]
  nth_rewrite 1 [ht]
  rw [List.zip_append (by simp)]
  have hx : (xs.map Prod.fst).zip (xs.map Prod.snd) = xs := (List.zip_of_prod rfl rfl).symm
  rw [hx, List.append_cancel_left_eq]
  rfl

theorem filter_ne_of_not_mem (hook : Address) (xs : List (Address × ℤ))
    (h : hook ∉ xs.map Prod.fst) :
    xs.filter (fun p => p.1 ≠ hook) = xs := by
  apply List.filter_eq_self.mpr
  intro p hp
  simpa using fun e => h (List.mem_map.mpr ⟨p, hp, e⟩)

/-- A removal that meets the condition closes up to the filtered pairs. -/
theorem CleanTable.remove_aligned (c : CleanTable) (hook : Address)
    (hm : hook ∈ c.hooks) (ha : Aligned c.table (.remove hook)) :
    ∃ c' : CleanTable, ps4KernelFunctionHookRemove c.table hook = .ok (ps4Ok, c'.table) ∧
      c'.pairs = c.pairs.filter (fun p => p.1 ≠ hook) := by
  rw [aligned_remove] at ha
  obtain ⟨⟨x, type⟩, hp, rfl⟩ : ∃ p ∈ c.pairs, p.1 = hook := by
    rw [← c.pairs_hooks] at hm
    simpa using hm
  obtain ⟨xs, ys, hsplit⟩ := List.append_of_mem hp
  have hys := ha xs type ys hsplit
  have hx : x ∉ xs.map Prod.fst := by
    intro hmem
    obtain ⟨⟨y, type'⟩, hq, rfl⟩ := List.mem_map.mp hmem
    obtain ⟨zs, zs', rfl⟩ := List.append_of_mem hq
    have h' := ha zs type' (zs' ++ (y, type) :: ys) (by simp [hsplit]) (y, type) (by simp)
    exact h'.1 rfl
  have hy : x ∉ ys.map Prod.fst := by
    intro hmem
    obtain ⟨q, hq, he⟩ := List.mem_map.mp hmem
    exact (hys q hq).1 he
  have hhooks : c.hooks = xs.map Prod.fst ++ x :: ys.map Prod.fst := by
    rw [← c.pairs_hooks, hsplit]
    simp
  refine ⟨c.closed _ _ x hhooks, c.remove_once _ _ x hhooks hx hy, ?_⟩
  rw [(c.closed_pairs xs ys x type hsplit hhooks).mpr (fun p hp => (hys p hp).2), hsplit,
    List.filter_append, filter_ne_of_not_mem x xs hx, List.filter_cons_of_neg (by simp),
    filter_ne_of_not_mem x ys hy]

/-- Every call that meets the condition turns a clean table into a clean table
of the list's pairs, with the list's return code. -/
theorem CleanTable.call_aligned (c : CleanTable) (call : HookCall) (hs : call.Allocates)
    (ha : Aligned c.table call) :
    ∃ c' : CleanTable, call.run c.table = .ok ((pairCall c.pairs call).1, c'.table) ∧
      c'.pairs = (pairCall c.pairs call).2 ∧
      ((pairCall c.pairs call).1 = ps4ErrorNotFound → c' = c) := by
  cases call with
  | add hook type m =>
    cases hs
    by_cases hh : hook = 0#64
    · exact ⟨c, by simp [HookCall.run, ps4KernelFunctionHookAdd, pairCall, hh],
        by simp [pairCall, hh], fun _ => rfl⟩
    · refine ⟨c.add hook type.value hh, ?_, ?_, ?_⟩
      · simp [HookCall.run, c.add_table _ hook _ hh, pairCall, hh]
      · simp [pairCall, hh, add_pairs]
      · intro h
        simp only [pairCall, if_neg hh] at h
        exact absurd h (by decide)
  | remove hook =>
    by_cases hh : hook = 0#64
    · exact ⟨c, by simp [HookCall.run, ps4KernelFunctionHookRemove, pairCall, hh],
        by simp [pairCall, hh], fun _ => rfl⟩
    · by_cases hm : hook ∈ c.hooks
      · obtain ⟨c', hr, hp⟩ := c.remove_aligned hook hm ha
        refine ⟨c', ?_, ?_, ?_⟩
        · simpa only [HookCall.run, pairCall, if_neg hh, pairs_hooks, if_pos hm] using hr
        · simpa only [pairCall, if_neg hh, pairs_hooks, if_pos hm] using hp
        · intro h
          simp only [pairCall, if_neg hh, pairs_hooks, if_pos hm] at h
          exact absurd h (by decide)
      · refine ⟨c, ?_, ?_, fun _ => rfl⟩
        · simpa only [HookCall.run, pairCall, if_neg hh, pairs_hooks, if_neg hm] using
            c.remove_absent hook hh hm
        · simp only [pairCall, if_neg hh, pairs_hooks, if_neg hm]

theorem Refines.unique {a : HookTable} {l l' : List (Address × ℤ)} (h : Refines a l)
    (h' : Refines a l') :
    l = l' := by
  have hl : l.length = l'.length := by
    have hc := h.count.symm.trans h'.count
    omega
  rw [← h.pairs, ← h'.pairs, hl]

theorem Refines.hooks {a : HookTable} {l : List (Address × ℤ)} (h : Refines a l)
    (hlen : a.hook.length = a.hookType.length) : l.map Prod.fst = a.hook.take l.length := by
  conv_lhs => rw [← h.pairs]
  rw [List.map_take, List.map_fst_zip (by omega)]

theorem remove_result (a : HookTable) (hook : Address) (hl : a.lock = 0) (hh : hook ≠ 0#64)
    {code : Code} {a' : HookTable} (h : ps4KernelFunctionHookRemove a hook = .ok (code, a')) :
    ∃ out t, compact hook 0 a.hook = .ok (out, t) ∧
      code = (if t = 0 then ps4ErrorNotFound else ps4Ok) ∧ a'.hookCount = a.hookCount - t := by
  have hloop := removeLoop_eq_compact hook [] a.hook 0
  simp only [List.nil_append, List.length_nil] at hloop
  rw [ps4KernelFunctionHookRemove, if_neg hh, hl, ps4AtomicSpinLock64_free] at h
  change (removeLoop hook a.hook 0 0 >>= _) = _ at h
  rw [hloop] at h
  cases hc : compact hook 0 a.hook with
  | error e =>
    rw [hc] at h
    cases h
  | ok r =>
    rw [hc] at h
    cases h
    exact ⟨r.1, r.2, rfl, rfl, rfl⟩

theorem length_filter_ne (hook : Address) (l : List (Address × ℤ)) :
    (l.filter (fun p => p.1 ≠ hook)).length + (l.map Prod.fst).count hook = l.length := by
  induction l with
  | nil => rfl
  | cons p l ih =>
    by_cases hp : p.1 = hook
    · rw [List.filter_cons_of_neg (by simp [hp]), List.map_cons, hp, List.count_cons_self,
        List.length_cons]
      omega
    · rw [List.filter_cons_of_pos (by simp [hp]), List.map_cons, List.count_cons_of_ne hp,
        List.length_cons, List.length_cons]
      omega

/-- A hook left standing at the index of the count makes its own removal go wrong. -/
theorem not_follows_remove (a : HookTable) (l : List (Address × ℤ)) (hl : a.lock = 0)
    (hlen : a.hook.length = a.hookType.length) (hr : Refines a l) (x : Address)
    (rest : List Address)
    (hn : 0#64 ∉ a.hook.take l.length) (hx : x ≠ 0#64)
    (hsplit : a.hook = a.hook.take l.length ++ x :: rest) : ¬Follows a l (.remove x) := by
  rintro ⟨a', hrun, href, _⟩
  obtain ⟨out, t, hc, hcode, hcount⟩ := remove_result a x hl hx hrun
  have hge : (a.hook.take l.length ++ [x]).count x ≤ t := by
    have h := count_le_of_compact x (a.hook.take l.length ++ [x]) rest out (by
      simp only [List.mem_append, List.mem_singleton, not_or]
      exact ⟨hn, hx.symm⟩) 0 t (by rw [← hc]; congr 1; simpa using hsplit.symm)
    omega
  rw [List.count_append, List.count_singleton_self, ← hr.hooks hlen] at hge
  by_cases hm : x ∈ l.map Prod.fst
  · simp only [pairCall, if_neg hx, if_pos hm] at href
    have h₁ := href.count
    have h₂ := length_filter_ne x l
    have h₃ := hr.count
    omega
  · simp only [pairCall, if_neg hx, if_neg hm] at hcode
    rw [if_neg (by omega)] at hcode
    exact absurd hcode (by decide)

/-- So does any hook that is left in front of the first null but not counted. -/
theorem not_follows_of_uncounted (a : HookTable) (l : List (Address × ℤ)) (hl : a.lock = 0)
    (hlen : a.hook.length = a.hookType.length) (hr : Refines a l) (front rest : List Address)
    (hsplit : a.hook = front ++ rest) (hn : 0#64 ∉ front) (hook : Address) (hm : hook ∈ front)
    (hout : hook ∉ l.map Prod.fst) : ∃ x, ¬Follows a l (.remove x) := by
  have hlt : l.length < front.length := by
    by_contra hge
    apply hout
    rw [hr.hooks hlen, hsplit, List.take_append]
    exact List.mem_append_left _ (by rwa [List.take_of_length_le (by omega)])
  have htake : a.hook.take l.length = front.take l.length := by
    rw [hsplit, List.take_append_of_le_length (Nat.le_of_lt hlt)]
  refine ⟨front[l.length], not_follows_remove a l hl hlen hr _
    (front.drop (l.length + 1) ++ rest) ?_ ?_ ?_⟩
  · rw [htake]
    exact fun h => hn (List.mem_of_mem_take h)
  · exact fun h => hn (h ▸ List.getElem_mem hlt)
  · rw [htake, hsplit, ← List.cons_append, ← List.drop_eq_getElem_cons hlt, ← List.append_assoc,
      List.take_append_drop]

/-- A hook that occurs twice is left standing in the place its second occurrence moves to. -/
theorem CleanTable.remove_twice (c : CleanTable) (us ws zs : List Address) (hook : Address)
    (h : c.hooks = us ++ hook :: (ws ++ hook :: zs)) (hu : hook ∉ us) (hw : hook ∉ ws)
    (hf : Follows c.table c.pairs (.remove hook)) :
    ∃ code a' d, HookCall.run c.table (.remove hook) = .ok (code, a') ∧
      d.Allocates ∧ ¬Follows a' (pairCall c.pairs (.remove hook)).2 d := by
  have hm : hook ∈ c.hooks := by simp [h]
  have hh : hook ≠ 0#64 := fun e => c.nonNull (e ▸ hm)
  obtain ⟨a', hrun, href, _⟩ := hf
  have hlist : (pairCall c.pairs (.remove hook)).2 = c.pairs.filter (fun p => p.1 ≠ hook) := by
    simp only [pairCall, if_neg hh, pairs_hooks, if_pos hm]
  rw [hlist] at href
  have hrun' := hrun
  simp only [HookCall.run, c.remove_table hook hh] at hrun'
  by_cases hle : c.hooks.count hook ≤ c.free + 1
  swap
  · rw [if_neg hle] at hrun'
    cases hrun'
  rw [if_pos hle] at hrun'
  simp only [Except.ok.injEq, Prod.mk.injEq] at hrun'
  obtain ⟨_, hrun'⟩ := hrun'
  have hhook : a'.hook = (us ++ ws ++ [hook]) ++
      (shifted hook 1 (hook :: zs) ++ List.replicate (c.free + 1) 0#64) := by
    rw [← hrun', h, shifted_first hook us ws (hook :: zs) hu hw]
    simp
  have hlen : a'.hook.length = a'.hookType.length := by
    have hal := c.aligned
    rw [← hrun']
    simp only [table, List.length_append, length_shifted, List.length_replicate,
      List.length_singleton]
    omega
  have hlock : a'.lock = 0 := by rw [← hrun']; rfl
  have hn : 0#64 ∉ us ++ ws ++ [hook] := by
    have hn := c.nonNull
    rw [h] at hn
    simp only [List.mem_append, List.mem_cons, List.not_mem_nil, or_false, not_or] at hn ⊢
    tauto
  have hout : hook ∉ (c.pairs.filter (fun p => p.1 ≠ hook)).map Prod.fst := by
    intro hmem
    obtain ⟨p, hp, he⟩ := List.mem_map.mp hmem
    exact absurd he (by simpa using (List.mem_filter.mp hp).2)
  obtain ⟨x, hx⟩ := not_follows_of_uncounted a' _ hlock hlen href _ _ hhook hn hook (by simp) hout
  exact ⟨_, a', .remove x, hrun, trivial, by rwa [hlist]⟩

/-- A removal against the condition breaks the correspondence at once or at the
next call. -/
theorem CleanTable.call_misaligned (c : CleanTable) (call : HookCall) (hb : ¬Aligned c.table call) :
    ¬Follows c.table c.pairs call ∨ ∃ code a' d, call.run c.table = .ok (code, a') ∧
      d.Allocates ∧ ¬Follows a' (pairCall c.pairs call).2 d := by
  cases call with
  | add hook type m => exact absurd trivial hb
  | remove hook =>
    rw [aligned_remove] at hb
    push Not at hb
    obtain ⟨xs, type, ys, hsplit, p, hp, hbad⟩ := hb
    have hhooks : c.hooks = xs.map Prod.fst ++ hook :: ys.map Prod.fst := by
      rw [← c.pairs_hooks, hsplit]
      simp
    have hm : hook ∈ c.hooks := by simp [hhooks]
    have hh : hook ≠ 0#64 := fun e => c.nonNull (e ▸ hm)
    obtain ⟨us, rest, hfirst, hu⟩ := List.eq_append_cons_of_mem hm
    by_cases hr : hook ∈ rest
    · obtain ⟨ws, zs, hsecond, hw⟩ := List.eq_append_cons_of_mem hr
      by_cases hf : Follows c.table c.pairs (.remove hook)
      · right
        exact c.remove_twice us ws zs hook (by rw [hfirst, hsecond]) hu hw hf
      · left
        exact hf
    · left
      rintro ⟨a', hrun, href, _⟩
      have hone : c.hooks.count hook = 1 := by
        rw [hfirst, List.count_append, List.count_cons_self, List.count_eq_zero_of_not_mem hu,
          List.count_eq_zero_of_not_mem hr]
      rw [hhooks, List.count_append, List.count_cons_self] at hone
      have hx : hook ∉ xs.map Prod.fst := List.count_eq_zero.mp (by omega)
      have hy : hook ∉ ys.map Prod.fst := List.count_eq_zero.mp (by omega)
      have hfilter : c.pairs.filter (fun p => p.1 ≠ hook) = xs ++ ys := by
        rw [hsplit, List.filter_append, filter_ne_of_not_mem hook xs hx,
          List.filter_cons_of_neg (by simp), filter_ne_of_not_mem hook ys hy]
      simp only [HookCall.run, c.remove_once _ _ hook hhooks hx hy, Except.ok.injEq,
        Prod.mk.injEq] at hrun
      simp only [pairCall, if_neg hh, pairs_hooks, if_pos hm, hfilter, ← hrun.2] at href
      have hpairs := (c.closed _ _ hook hhooks).refines.unique href
      have hall := (c.closed_pairs xs ys hook type hsplit hhooks).mp hpairs
      exact hbad (fun e => hy (List.mem_map.mpr ⟨p, hp, e⟩)) (hall p hp)

/-- In every run of calls whose removals all meet `Aligned`, the table holds
exactly the pairs of the list, every further call that meets it follows the
list, and every further call against it departs from the list, itself or at
the next call. -/
theorem hookTable_refines_pairs (calls : List HookCall) (a : HookTable)
    (hr : Run (Guarded Aligned CallStep) created calls a) :
    Refines a (pairList calls) ∧
    (∀ c : HookCall, c.Allocates → Aligned a c → Follows a (pairList calls) c) ∧
    (∀ c : HookCall, c.Allocates → ¬Aligned a c → ¬Follows a (pairList calls) c ∨
      ∃ code a' d, c.run a = .ok (code, a') ∧ d.Allocates ∧
        ¬Follows a' (pairList (calls ++ [c])) d) := by
  have hclean : ∃ c : CleanTable, c.table = a ∧ c.pairs = pairList calls := by
    refine hr.simulation (fun a l => ∃ c : CleanTable, c.table = a ∧ c.pairs = l) ?_
      ⟨CleanTable.created, CleanTable.created_table, by simp [CleanTable.pairs, CleanTable.created]⟩
    rintro a l call a' ⟨c, rfl, rfl⟩ ⟨hg, hs, code, hrun⟩
    obtain ⟨c', hrun', hp, _⟩ := c.call_aligned call hs hg
    rw [hrun'] at hrun
    cases hrun
    exact ⟨c', rfl, hp⟩
  obtain ⟨c, rfl, hp⟩ := hclean
  have hlast (d : HookCall) : pairList (calls ++ [d]) = (pairCall (pairList calls) d).2 := by
    simp [pairList, List.foldl_append]
  refine ⟨hp ▸ c.refines, ?_, ?_⟩
  · intro call hs hg
    obtain ⟨c', hrun, hp', hsame⟩ := c.call_aligned call hs hg
    rw [hp] at hrun hp' hsame
    exact ⟨c'.table, hrun, hp' ▸ c'.refines, fun he => by rw [hsame he]⟩
  · intro call _ hb
    have h := c.call_misaligned call hb
    rw [hp] at h
    simpa only [hlast] using h

/-- The table after adding hook `1` with the first type and hook `2` with the second. -/
def twoHooks (type type' : HookType) : CleanTable :=
  (CleanTable.created.add 1 type.value (by decide)).add 2 type'.value (by decide)

private theorem twoHooks_run (type type' : HookType) : Run (Guarded Aligned CallStep) created
    [.add 1 type .succeeds, .add 2 type' .succeeds] (twoHooks type type').table :=
  .cons ⟨trivial, rfl, ps4Ok, CleanTable.created.add_table .succeeds 1 type.value (by decide)⟩ <|
    .single ⟨trivial, rfl, ps4Ok,
      (CleanTable.created.add 1 type.value (by decide)).add_table .succeeds 2
      type'.value (by decide)⟩

private theorem twoHooks_remove (type type' : HookType) :
    CallStep (twoHooks type type').table (.remove 1)
      ((twoHooks type type').closed [] [2] 1 rfl).table :=
  ⟨trivial, ps4Ok, (twoHooks type type').remove_once [] [2] 1 rfl (by simp) (by simp)⟩

theorem hookTable_refines_pairs_same_type :
    Refines ((twoHooks .pre .pre).closed [] [2] 1 rfl).table [(2, -1)] := by
  refine (hookTable_refines_pairs _ _ ((twoHooks_run .pre .pre).trans
    (.single ⟨?_, twoHooks_remove .pre .pre⟩))).1
  rw [CleanTable.aligned_remove]
  intro xs type ys h
  have hp : (twoHooks .pre .pre).pairs = [(1, -1), (2, -1)] := rfl
  rw [hp] at h
  rcases xs with _ | ⟨x, _ | ⟨y, xs⟩⟩
  · simp at h
    simp [← h.1, ← h.2]
  · simp at h
  · simp at h

/-- The remaining hook gets the type of the removed one. -/
theorem hookRemove_shifts_types :
    ¬∀ (calls : List HookCall) (a : HookTable), Run CallStep created calls a →
      Refines a (pairList calls) := by
  intro h
  have hr := h _ _ ((twoHooks_run .pre .genericPost).unguard.trans
    (.single (twoHooks_remove .pre .genericPost)))
  exact absurd hr.pairs (by decide)

end Ps4Sdk.FunctionHookTables
