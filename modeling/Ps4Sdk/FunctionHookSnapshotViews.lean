import Ps4Sdk.FunctionHookSnapshots

/-!
# What a copy sees of an addition

While a pair is being stored, a copy sees the slot of the new hook empty or filled,
and its type as it was or as it is stored. An empty slot is not run whatever its
type, and a filled one is run with its own type as long as the slot held no other
type before.
-/

namespace Ps4Sdk.FunctionHookSnapshots
open CheckedBlocks AtomicSpinLocks StepRuns FunctionHookTables FunctionHookHandler InterruptedCopies

def valuePairs (l : List (Address × HookType)) : List (Address × ℤ) :=
  l.map (fun p => (p.1, p.2.value))

/-! ### The table during an addition -/

def newHooks (c : CleanTable) (hook : Address) : List Address :=
  c.hooks ++ hook :: List.replicate c.free 0#64

def newTypes (c : CleanTable) (type : ℤ) : List ℤ := c.types.set c.hooks.length type ++ [0]

def published (c : CleanTable) (hook : Address) (type : ℤ) : Store → HookTable
  | .hook => c.table
  | .hookType => { c.table with hook := newHooks c hook }
  | .count => { c.table with hook := newHooks c hook, hookType := newTypes c type }
  | .terminator =>
    { c.table with
      hook := newHooks c hook, hookType := newTypes c type, hookCount := c.hooks.length + 1 }

section Stores

variable (c : CleanTable) (hook : Address) (type : ℤ)

theorem table_hook_eq : c.table.hook = c.hooks ++ 0#64 :: List.replicate c.free 0#64 := by
  simp [CleanTable.table, List.replicate_succ]

theorem store_hook : Store.hook.run (published c hook type .hook) hook type =
    .ok (published c hook type .hookType) := by
  have hs : store c.table.hook c.table.hookCount hook = .ok (newHooks c hook) := by
    rw [table_hook_eq, CleanTable.table, store_ok (by simp)]
    simp [newHooks]
  simp only [Store.run, published, hs]
  rfl

theorem store_hookType (hf : 0 < c.free) :
    Store.hookType.run (published c hook type .hookType) hook type =
      .ok (published c hook type .count) := by
  have hal := c.aligned
  have hs : store c.table.hookType c.table.hookCount type = .ok (newTypes c type) := by
    simp only [CleanTable.table]
    rw [store_ok (by simp; omega), List.set_append_left _ _ (by omega)]
    rfl
  simp only [Store.run, published, hs]
  rfl

/-- The last store writes a null over the null that is there. -/
theorem store_terminator (hf : 0 < c.free) :
    Store.terminator.run (published c hook type .terminator) hook type =
      .ok (published c hook type .terminator) := by
  obtain ⟨f, hfree⟩ : ∃ f, c.free = f + 1 := ⟨c.free - 1, by omega⟩
  have hs : store (newHooks c hook) ((c.hooks.length : ℤ) + 1) 0#64 = .ok (newHooks c hook) := by
    rw [← Int.natCast_succ, store_ok (by simp [newHooks, hfree])]
    simp [newHooks, hfree, List.replicate_succ]
  simp only [Store.run, published, hs]
  rfl

theorem append_table (hh : hook ≠ 0#64) (hf : 0 < c.free) :
    (c.append hook type hh hf).table = published c hook type .terminator := by
  obtain ⟨f, hfree⟩ : ∃ f, c.free = f + 1 := ⟨c.free - 1, by omega⟩
  simp [CleanTable.append, CleanTable.table, published, newHooks, newTypes, hfree]
  omega

theorem types_split (hf : 0 < c.free) : ∃ front old back, front.length = c.hooks.length ∧
    c.table.hookType = front ++ old :: back ∧ newTypes c type = front ++ type :: back := by
  have hlt : c.hooks.length < c.types.length := by
    have hal := c.aligned
    omega
  refine ⟨c.types.take c.hooks.length, c.types[c.hooks.length], c.types.drop (c.hooks.length + 1) ++
    [0], by simp; omega, ?_, ?_⟩
  · rw [← List.cons_append, ← List.drop_eq_getElem_cons hlt, ← List.append_assoc,
      List.take_append_drop]
    rfl
  · rw [newTypes, List.set_eq_take_append_cons_drop, if_pos hlt]
    simp

theorem published_lengths (k : Store) :
    (published c hook type k).hook.length = (published c hook type k).hookSize.toNat ∧
      (published c hook type k).hookType.length = (published c hook type k).hookSize.toNat := by
  have hal := c.aligned
  cases k <;> simp [published, CleanTable.table, newHooks, newTypes] <;> omega

end Stores

/-! ### What a copy of the table is run as -/

section Runs

variable {c : CleanTable} {l : List (Address × HookType)} {types : List ℤ}

private theorem zip_hooks (ht : types.length = c.hooks.length + c.free + 1)
    (hp : c.hooks.zip types = valuePairs l) :
    c.table.hook.zip types =
      valuePairs l ++ (types.drop c.hooks.length).map (fun type => (0#64, type)) := by
  have hsplit : types = types.take c.hooks.length ++ types.drop c.hooks.length :=
    (List.take_append_drop _ _).symm
  rw [hsplit, CleanTable.table, List.zip_append (by simp; omega), zip_take_length, hp, ← hsplit,
    zip_nulls _ _ (by simp; omega)]

theorem zip_newHooks {hook : Address} {type : ℤ} (ht : types.length = c.hooks.length + c.free + 1)
    (hp : c.hooks.zip types = valuePairs l) (htype : types[c.hooks.length]? = some type) :
    (newHooks c hook).zip types = valuePairs l ++ (hook, type) ::
      (types.drop (c.hooks.length + 1)).map (fun type => (0#64, type)) := by
  obtain ⟨hlt, rfl⟩ := List.getElem?_eq_some_iff.mp htype
  have hsplit : types = types.take c.hooks.length ++
      types[c.hooks.length] :: types.drop (c.hooks.length + 1) := by
    rw [← List.drop_eq_getElem_cons hlt, List.take_append_drop]
  have hzip : (newHooks c hook).zip (types.take c.hooks.length ++
      types[c.hooks.length] :: types.drop (c.hooks.length + 1)) = valuePairs l ++
        (hook, types[c.hooks.length]) ::
          (types.drop (c.hooks.length + 1)).map (fun type => (0#64, type)) := by
    rw [newHooks, List.zip_append (by simp; omega), zip_take_length, hp, List.zip_cons_cons,
      zip_nulls _ _ (by simp; omega)]
  rwa [← hsplit] at hzip

theorem runnable_readFrom (phase : Phase) (i : ℕ) (hn : ∀ p ∈ l, p.1 ≠ 0#64) (stale : List ℤ) :
    runnable phase (readFrom i l stale) = runnable phase (readFrom i l []) := by
  induction l generalizing i with
  | nil => rw [runnable_stale, runnable_stale]
  | cons p l ih =>
    have hp := hn p List.mem_cons_self
    rw [runnable_cons phase i p l stale hp, runnable_cons phase i p l [] hp,
      ih (i + 1) fun q hq => hn q (List.mem_cons_of_mem _ hq)]

theorem runnable_disabled (phase : Phase) (i : ℕ) (hook : Address) (hn : ∀ p ∈ l, p.1 ≠ 0#64)
    (stale : List ℤ) :
    runnable phase (readFrom i (l ++ [(hook, .disabled)]) stale) =
      runnable phase (readFrom i l []) := by
  induction l generalizing i with
  | nil => rfl
  | cons p l ih =>
    have hp := hn p List.mem_cons_self
    rw [List.cons_append, runnable_cons phase i p _ stale hp, runnable_cons phase i p l [] hp,
      ih (i + 1) fun q hq => hn q (List.mem_cons_of_mem _ hq)]

private theorem handledAs_of_read {entries : List Entry} (hn : ∀ p ∈ l, p.1 ≠ 0#64)
    (h : ∀ phase, runnable phase entries = runnable phase (readFrom 0 l [])) :
    HandledAs entries l where
  read := h
  specified := fun hd phase => (h phase).trans (runnable_eq_specified phase 0 l [] hn hd)

theorem handledAs_hooks (hn : ∀ p ∈ l, p.1 ≠ 0#64) (ht : types.length = c.hooks.length + c.free + 1)
    (hp : c.hooks.zip types = valuePairs l) :
    HandledAs (entriesFrom 0 (c.table.hook.zip types)) l := by
  refine handledAs_of_read hn fun phase => ?_
  rw [zip_hooks ht hp]
  exact runnable_readFrom phase 0 hn _

private theorem readFrom_newHooks {hook : Address} {type : HookType}
    (ht : types.length = c.hooks.length + c.free + 1) (hp : c.hooks.zip types = valuePairs l)
    (htype : types[c.hooks.length]? = some type.value) :
    entriesFrom 0 ((newHooks c hook).zip types) =
      readFrom 0 (l ++ [(hook, type)]) (types.drop (c.hooks.length + 1)) := by
  rw [zip_newHooks ht hp htype]
  simp [readFrom, valuePairs]

theorem nonNull_append {hook : Address} (hn : ∀ p ∈ l, p.1 ≠ 0#64) (hh : hook ≠ 0#64)
    (type : HookType) :
    ∀ p ∈ l ++ [(hook, type)], p.1 ≠ 0#64 := by
  intro p hp
  rcases List.mem_append.mp hp with hp | hp
  · exact hn p hp
  · rw [List.mem_singleton.mp hp]
    exact hh

structure Typed (c : CleanTable) (l : List (Address × HookType)) (types : List ℤ) : Prop where
  length : types.length = c.hooks.length + c.free + 1
  pairs : c.hooks.zip types = valuePairs l

theorem typed_table (hp : c.pairs = valuePairs l) : Typed c l c.table.hookType where
  length := by
    have hal := c.aligned
    simp [CleanTable.table]
    omega
  pairs := by
    have hal := c.aligned
    rw [← hp, CleanTable.pairs, CleanTable.table, ← zip_take_length,
      List.take_append_of_le_length (by omega), zip_take_length]

theorem typed_newTypes (hp : c.pairs = valuePairs l) (type : ℤ) : Typed c l (newTypes c type) where
  length := by
    have hal := c.aligned
    simp [newTypes]
    omega
  pairs := by
    have hal := c.aligned
    rw [← hp, CleanTable.pairs, newTypes, ← zip_take_length,
      List.take_append_of_le_length (by simp; omega),
      List.take_set_of_le (le_refl _), zip_take_length]

/-- Whatever a copy sees of an addition, the handler runs it as the content before or
after the addition. -/
theorem handledAs_seen {hook : Address} {type : HookType} {hooks : List Address}
    (hp : c.pairs = valuePairs l) (hf : 0 < c.free) (hh : hook ≠ 0#64) (hn : ∀ p ∈ l, p.1 ≠ 0#64)
    (hooksSeen : hooks = c.table.hook ∨ hooks = newHooks c hook ∧
      (c.types[c.hooks.length]? = some HookType.disabled.value ∨
        c.types[c.hooks.length]? = some type.value))
    (typesSeen : types = c.table.hookType ∨ types = newTypes c type.value) :
    HandledAs (entriesFrom 0 (hooks.zip types)) l ∨
      HandledAs (entriesFrom 0 (hooks.zip types)) (l ++ [(hook, type)]) := by
  have hal := c.aligned
  have htyped : Typed c l types := by
    rcases typesSeen with rfl | rfl
    · exact typed_table hp
    · exact typed_newTypes hp _
  rcases hooksSeen with rfl | ⟨rfl, hstale⟩
  · exact .inl (handledAs_hooks hn htyped.length htyped.pairs)
  · have hslot : types[c.hooks.length]? = some HookType.disabled.value ∨
        types[c.hooks.length]? = some type.value := by
      rcases typesSeen with rfl | rfl
      · rwa [CleanTable.table, List.getElem?_append_left (by omega)]
      · right
        rw [newTypes, List.getElem?_append_left (by simp; omega), List.getElem?_set_self (by omega)]
    rcases hslot with hslot | hslot
    · left
      rw [readFrom_newHooks htyped.length htyped.pairs hslot]
      exact handledAs_of_read hn fun phase => runnable_disabled phase 0 hook hn _
    · right
      have hnew := nonNull_append hn hh type
      rw [readFrom_newHooks htyped.length htyped.pairs hslot]
      exact handledAs_of_read hnew fun phase => runnable_readFrom phase 0 hnew _

end Runs

end Ps4Sdk.FunctionHookSnapshots
