import Ps4Sdk.KernelCacheMap

/-!
# Looking up symbols through a cache

`ps4KernelDlSym` searches the symbols of the kernel's ELF image by comparing the bytes
of their names. `ps4KernelSymbolLookUp` puts a cache in front of it, which is kept
under a recursive mutex. The cache and the mutex are in place here. The index into a name is
an `int`; it is a natural number here, for names of less than `2 ^ 31` bytes.
-/

namespace Ps4Sdk.SymbolLookUps
open HeapBlocks StepRuns KernelCaches

structure Symbol where
  name : ℕ
  value : Address

/-- The symbols that the search visits, and the bytes of the string table. -/
structure Elf where
  symbols : List Symbol
  strings : ℕ → BitVec 8

def compareNames (n : ℕ → BitVec 8) (j : ℕ) : List (BitVec 8) → Except Fault Bool
  | [] => .error .outOfBounds
  | c :: name =>
    if n j = c ∧ n j ≠ 0 then compareNames n (j + 1) name
    else .ok (decide (0 < j ∧ n j = 0 ∧ c = 0))

def searchSymbols (strings : ℕ → BitVec 8) (name : List (BitVec 8)) : List Symbol →
    Except Fault Address
  | [] => .ok 0#64
  | symbol :: symbols => do
    if ← compareNames (fun j => strings (symbol.name + j)) 0 name then return symbol.value
    else searchSymbols strings name symbols

def ps4KernelDlSym (elf : Elf) (name : List (BitVec 8)) : Except Fault Address :=
  searchSymbols elf.strings name elf.symbols

/-- The heap, and the recursion depth of the mutex. -/
structure Lookups where
  heap : KernelHeap
  depth : ℕ

/-- The code, what is stored through `value`, and the state on return. -/
def ps4KernelSymbolLookUp (elf : Elf) (cache : Address) (s : Lookups)
    (str value : Address) (m : Supply) :
    Except Fault (Code × Option Address × Lookups) :=
  if str = 0#64 then .ok (ps4ErrorArgumentPrimaryMissing, none, s)
  else if value = 0#64 then .ok (ps4ErrorArgumentOutMissing, none, s)
  else do
    let locked := { s with depth := s.depth + 1 }
    let (r, found) ← ps4KernelCacheGet locked.heap cache str value
    if r ≠ ps4Ok then
      let v ← ps4KernelDlSym elf (← loadString locked.heap str)
      let (_, heap) ← ps4KernelCacheSet locked.heap cache str v m
      let stored := { locked with heap := heap }
      if v = 0#64 then return (ps4ErrorKernelSymbolLookupNotFound, some v, stored)
      else return (ps4Ok, some v, { stored with depth := stored.depth - 1 })
    else return (ps4Ok, found, { locked with depth := locked.depth - 1 })

/-- The bytes from `j` on are the name and a zero byte. -/
def spells (n : ℕ → BitVec 8) (j : ℕ) : List (BitVec 8) → Bool
  | [] => n j = 0
  | c :: name => n j = c && spells n (j + 1) name

/-- The value of the first symbol with the name, or null. -/
def symbolOf (elf : Elf) (name : List (BitVec 8)) : Address :=
  ((elf.symbols.find? (fun symbol => !name.isEmpty && spells
    (fun j => elf.strings (symbol.name + j)) 0 name)).map Symbol.value).getD 0#64

theorem compareNames_later {name : List (BitVec 8)} (hz : 0 ∉ name) (rest : List (BitVec 8))
    (n : ℕ → BitVec 8) {j : ℕ} (hj : 0 < j) :
    compareNames n j (name ++ 0 :: rest) = .ok (spells n j name) := by
  induction name generalizing j with
  | nil =>
    rw [List.nil_append, compareNames, if_neg (by tauto)]
    simp [spells, hj]
  | cons c name ih =>
    have hc : c ≠ 0 := fun he => hz (he ▸ List.mem_cons_self)
    rw [List.cons_append, compareNames]
    by_cases hn : n j = c
    · rw [if_pos ⟨hn, hn ▸ hc⟩, ih (fun hm => hz (List.mem_cons_of_mem _ hm)) (Nat.succ_pos j)]
      simp [spells, hn]
    · rw [if_neg (fun h => hn h.1)]
      simpa [spells, hn] using fun _ _ => hc

theorem compareNames_name {name : List (BitVec 8)} (hz : 0 ∉ name) (rest : List (BitVec 8))
    (n : ℕ → BitVec 8) :
    compareNames n 0 (name ++ 0 :: rest) = .ok (!name.isEmpty && spells n 0 name) := by
  cases name with
  | nil =>
    rw [List.nil_append, compareNames, if_neg (by tauto)]
    simp
  | cons c name =>
    have hc : c ≠ 0 := fun he => hz (he ▸ List.mem_cons_self)
    rw [List.cons_append, compareNames]
    by_cases hn : n 0 = c
    · rw [if_pos ⟨hn, hn ▸ hc⟩, compareNames_later (fun hm => hz (List.mem_cons_of_mem _ hm))
        _ _ Nat.one_pos]
      simp [spells, hn]
    · rw [if_neg (fun h => hn h.1)]
      simp [spells, hn]

theorem ps4KernelDlSym_name (elf : Elf) {name : List (BitVec 8)} (hz : 0 ∉ name)
    (rest : List (BitVec 8)) :
    ps4KernelDlSym elf (name ++ 0 :: rest) = .ok (symbolOf elf name) := by
  obtain ⟨symbols, strings⟩ := elf
  unfold ps4KernelDlSym symbolOf
  induction symbols with
  | nil => rfl
  | cons symbol symbols ih =>
    simp only [searchSymbols, compareNames_name hz, bind, Except.bind]
    cases hs : !name.isEmpty && spells (fun j => strings (symbol.name + j)) 0 name with
    | true =>
      rw [List.find?_cons_of_pos (by simpa using hs)]
      rfl
    | false =>
      rw [List.find?_cons_of_neg (by simpa using hs)]
      exact ih

section
variable {elf : Elf} {cache : Address} {s : Lookups} {f : List (BitVec 8) → Option Address}
variable {str value : Address} {name : List (BitVec 8)} {m : Supply}

theorem lookUp_cached (hf : Holds cache s.heap f) (hc : cache ≠ 0#64)
    (hs : StringAt s.heap str name) (hstr : str ≠ 0#64) (hv : value ≠ 0#64) {v : Address}
    (hk : f (keyOf name) = some v) :
    ps4KernelSymbolLookUp elf cache s str value m = .ok (ps4Ok, some v, s) := by
  obtain ⟨base, slots, table, r, rfl⟩ := hf
  have hget := r.get hc hv hs
  rw [hk] at hget
  simp [ps4KernelSymbolLookUp, hstr, hv, hget, bind, Except.bind, pure, Except.pure]

theorem lookUp_missing (elf : Elf) (hf : Holds cache s.heap f) (hc : cache ≠ 0#64)
    (hs : StringAt s.heap str name) (hm : m.Fresh s.heap) (hstr : str ≠ 0#64) (hv : value ≠ 0#64)
    (hk : f (keyOf name) = none) :
    ∃ heap, Holds cache heap (Function.update f (keyOf name) (some (symbolOf elf name))) ∧
      ps4KernelSymbolLookUp elf cache s str value m =
        .ok (if symbolOf elf name = 0#64 then (ps4ErrorKernelSymbolLookupNotFound, some 0#64,
          ⟨heap, s.depth + 1⟩) else (ps4Ok, some (symbolOf elf name), ⟨heap, s.depth⟩)) := by
  obtain ⟨base, slots, table, r, rfl⟩ := hf
  have hget := r.get hc hv hs
  rw [hk] at hget
  obtain ⟨heap, slots', table', hset, r', hcontent⟩ := r.set hc hs hm (symbolOf elf name)
  obtain ⟨hz, rest, hstring⟩ := hs
  refine ⟨heap, ⟨base, slots', table', r', hcontent⟩, ?_⟩
  have hne : ps4ErrorNotFound ≠ ps4Ok := by decide
  simp only [ps4KernelSymbolLookUp, if_neg hstr, if_neg hv, hget, loadString, hstring,
    ps4KernelDlSym_name elf hz, hset, if_pos hne, bind, Except.bind, pure, Except.pure]
  split_ifs with h0
  · rw [h0]
  · rfl

end

/-- A call that has returned: its name, the code, what it stored, and the depth of the mutex
on entry and on return. -/
structure Return where
  name : List (BitVec 8)
  code : Code
  stored : Option Address
  entered : ℕ
  left : ℕ

inductive LookUpAction
  | lookUp (r : Return)
  | callers

inductive LookUpStep (elf : Elf) (cache : Address) : Lookups → LookUpAction → Lookups → Prop
  | lookUp {s s' : Lookups} {str value : Address} {name : List (BitVec 8)} {m : Supply}
      {code : Code}
      {stored : Option Address} (string : StringAt s.heap str name) (hstr : str ≠ 0#64)
      (hvalue : value ≠ 0#64)
      (fresh : m.Fresh s.heap) (call : ps4KernelSymbolLookUp elf cache s str value m =
        .ok (code, stored, s')) :
      LookUpStep elf cache s (.lookUp ⟨name, code, stored, s.depth, s'.depth⟩) s'
  | callers {s : Lookups} {heap : KernelHeap} (others : ∀ a, Reaches s.heap cache a →
      heap a = s.heap a) :
      LookUpStep elf cache s .callers { s with heap := heap }

/-- The call has returned what the search without a cache gives, with the mutex as before. -/
def Return.Agrees (elf : Elf) (r : Return) : Prop :=
  (∃ v, ps4KernelDlSym elf (r.name ++ [0]) = .ok v ∧
    (v = 0#64 → r.code = ps4ErrorKernelSymbolLookupNotFound) ∧
    (v ≠ 0#64 → r.code = ps4Ok ∧ r.stored = some v)) ∧ r.left = r.entered

/-- The names that are looked up, and those already in the cache, have symbols that their keys
tell apart. -/
def Resolved (elf : Elf) (f : List (BitVec 8) → Option Address)
    (actions : List LookUpAction) : Prop :=
  ∀ r, .lookUp r ∈ actions → symbolOf elf r.name ≠ 0#64 ∧
    (∀ v, f (keyOf r.name) = some v → v = symbolOf elf r.name) ∧
    ∀ r', .lookUp r' ∈ actions → keyOf r'.name = keyOf r.name →
    symbolOf elf r'.name = symbolOf elf r.name

def cachedWith (elf : Elf) (f : List (BitVec 8) → Option Address) (name : List (BitVec 8)) :
    List (BitVec 8) → Option Address :=
  Function.update f (keyOf name) (some ((f (keyOf name)).getD (symbolOf elf name)))

section
variable {elf : Elf} {cache : Address} {s s' : Lookups} {f : List (BitVec 8) → Option Address}

theorem agrees_iff {r : Return} (hz : 0 ∉ r.name) : r.Agrees elf ↔
    (symbolOf elf r.name = 0#64 → r.code = ps4ErrorKernelSymbolLookupNotFound) ∧
    (symbolOf elf r.name ≠ 0#64 → r.code = ps4Ok ∧ r.stored = some (symbolOf elf r.name)) ∧
    r.left = r.entered := by
  unfold Return.Agrees
  rw [ps4KernelDlSym_name elf hz]
  constructor
  · rintro ⟨⟨v, hv, h0, hne⟩, hd⟩
    cases hv
    exact ⟨h0, hne, hd⟩
  · rintro ⟨h0, hne, hd⟩
    exact ⟨⟨_, rfl, h0, hne⟩, hd⟩

theorem LookUpStep.spec (hf : Holds cache s.heap f) (hc : cache ≠ 0#64) {r : Return}
    (h : LookUpStep elf cache s (.lookUp r) s') :
    Holds cache s'.heap (cachedWith elf f r.name) ∧
      (r.Agrees elf ↔ symbolOf elf r.name ≠ 0#64 ∧ ∀ v, f (keyOf r.name) = some v →
        v = symbolOf elf r.name) := by
  have hok : ps4Ok ≠ ps4ErrorKernelSymbolLookupNotFound := by decide
  cases h with
  | @lookUp _ str value name m code stored string hstr hvalue fresh call =>
    rw [agrees_iff string.1]
    cases hk : f (keyOf name) with
    | some v =>
      rw [lookUp_cached hf hc string hstr hvalue hk] at call
      cases call
      refine ⟨?_, ?_⟩
      · rw [cachedWith, hk, Option.getD_some, ← hk, Function.update_eq_self]
        exact hf
      · by_cases h0 : symbolOf elf name = 0#64 <;> simp [h0, hok]
    | none =>
      obtain ⟨heap, hheap, hcall⟩ := lookUp_missing elf hf hc string fresh hstr hvalue hk
      rw [hcall] at call
      by_cases h0 : symbolOf elf name = 0#64
      · rw [if_pos h0] at call
        cases call
        refine ⟨by simpa [cachedWith, hk] using hheap, by simp [h0]⟩
      · rw [if_neg h0] at call
        cases call
        refine ⟨by simpa [cachedWith, hk] using hheap, by simp [h0]⟩

private theorem getD_symbol {name : List (BitVec 8)}
    (hf : ∀ v, f (keyOf name) = some v → v = symbolOf elf name) :
    (f (keyOf name)).getD (symbolOf elf name) = symbolOf elf name := by
  cases hk : f (keyOf name) with
  | none => rfl
  | some v => exact hf v hk

theorem resolved_cons {r : Return} {actions : List LookUpAction} :
    Resolved elf f (.lookUp r :: actions) ↔
      (symbolOf elf r.name ≠ 0#64 ∧ ∀ v, f (keyOf r.name) = some v → v = symbolOf elf r.name) ∧
        Resolved elf (cachedWith elf f r.name) actions := by
  constructor
  · intro h
    obtain ⟨hne, hcached, hsame⟩ := h r List.mem_cons_self
    have hgetD := getD_symbol hcached
    refine ⟨⟨hne, hcached⟩, ?_⟩
    intro r' hr'
    obtain ⟨hne', hcached', hsame'⟩ := h r' (List.mem_cons_of_mem _ hr')
    refine ⟨hne', ?_, fun r'' hr'' => hsame' r'' (List.mem_cons_of_mem _ hr'')⟩
    intro v hv
    rw [cachedWith, hgetD, Function.update_apply] at hv
    split_ifs at hv with hk
    · cases hv
      exact (hsame r' (List.mem_cons_of_mem _ hr') hk).symm
    · exact hcached' v hv
  · rintro ⟨⟨hne, hcached⟩, h⟩
    have hgetD := getD_symbol hcached
    have hfirst : ∀ r', .lookUp r' ∈ actions → keyOf r'.name = keyOf r.name →
        symbolOf elf r.name = symbolOf elf r'.name := by
      intro r' hr' hk
      apply (h r' hr').2.1
      rw [cachedWith, hgetD, hk, Function.update_self]
    intro r₁ hr₁
    rcases List.mem_cons.mp hr₁ with he | hr₁
    · cases he
      refine ⟨hne, hcached, ?_⟩
      intro r₂ hr₂ hk
      rcases List.mem_cons.mp hr₂ with he | hr₂
      · cases he
        rfl
      · exact (hfirst r₂ hr₂ hk).symm
    · obtain ⟨hne₁, hcached₁, hsame₁⟩ := h r₁ hr₁
      refine ⟨hne₁, ?_, ?_⟩
      · intro v hv
        by_cases hk : keyOf r₁.name = keyOf r.name
        · rw [hk] at hv
          rw [hcached v hv]
          exact hfirst r₁ hr₁ hk
        · apply hcached₁
          rw [cachedWith, Function.update_of_ne hk]
          exact hv
      · intro r₂ hr₂ hk
        rcases List.mem_cons.mp hr₂ with he | hr₂
        · cases he
          exact hfirst r₁ hr₁ hk.symm
        · exact hsame₁ r₂ hr₂ hk

theorem Holds.callers {h h' : KernelHeap} (hf : Holds cache h f)
    (hk : ∀ a, Reaches h cache a → h' a = h a) (hc : cache ≠ 0#64) : Holds cache h' f :=
      hf.step hc (.callers hk)

theorem run_agrees (hc : cache ≠ 0#64) {actions : List LookUpAction}
    (hr : Run (LookUpStep elf cache) s actions s') (hf : Holds cache s.heap f) :
    (∃ f', Holds cache s'.heap f') ∧
    ((∀ r, .lookUp r ∈ actions → r.Agrees elf) ↔ Resolved elf f actions) := by
  induction hr generalizing f with
  | nil s => exact ⟨⟨f, hf⟩, by simp [Resolved]⟩
  | @cons s t u action actions first rest ih =>
    cases action with
    | lookUp r =>
      obtain ⟨ht, hagrees⟩ := first.spec hf hc
      obtain ⟨hu, hrest⟩ := ih ht
      refine ⟨hu, ?_⟩
      rw [resolved_cons, ← hrest, ← hagrees]
      simp
    | callers =>
      cases first with
      | callers others =>
        obtain ⟨hu, hrest⟩ := ih (Holds.callers hf others hc)
        refine ⟨hu, ?_⟩
        have hskip : Resolved elf f (.callers :: actions) ↔ Resolved elf f actions := by
          simp [Resolved]
        rw [hskip, ← hrest]
        simp

end

/-- No look-up faults, and all of them agree with the search without a cache exactly when every
name has a symbol and no two names share a key but not the symbol. -/
theorem lookUps_agree_iff (elf : Elf) (h₀ : KernelHeap) (out cache : Address) (ho : out ≠ 0#64)
    (hc : cache ≠ 0#64) (fresh : h₀ cache = none) (depth : ℕ)
    (actions : List LookUpAction) (s : Lookups)
    (hr : Run (LookUpStep elf cache) ⟨(ps4KernelCacheCreate h₀ out cache).2, depth⟩ actions s) :
    (∀ name str value m, StringAt s.heap str name → Supply.Fresh m s.heap → str ≠ 0#64 →
      value ≠ 0#64 → ∃ result, ps4KernelSymbolLookUp elf cache s str value m = .ok result) ∧
    ((∀ r, .lookUp r ∈ actions → r.Agrees elf) ↔
      ∀ r, .lookUp r ∈ actions → symbolOf elf r.name ≠ 0#64 ∧
        ∀ r', .lookUp r' ∈ actions → keyOf r'.name = keyOf r.name →
          symbolOf elf r'.name = symbolOf elf r.name) := by
  rw [ps4KernelCacheCreate, if_neg ho] at hr
  obtain ⟨⟨f, hf⟩, hagree⟩ := run_agrees hc hr ⟨h₀, [], none, represents_created h₀ fresh, rfl⟩
  refine ⟨?_, ?_⟩
  · intro name str value m hs hm hstr hvalue
    cases hk : f (keyOf name) with
    | some v => exact ⟨_, lookUp_cached hf hc hs hstr hvalue hk⟩
    | none =>
      obtain ⟨heap, -, hcall⟩ := lookUp_missing elf hf hc hs hm hstr hvalue hk
      exact ⟨_, hcall⟩
  · rw [hagree]
    simp [Resolved, content]

/-- A kernel with one symbol, which is called like the strings of the callers. -/
def oneSymbol : Elf := ⟨[⟨1, 99#64⟩], fun j => if j = 1 then 1 else 0⟩

/-- The name is found in the tables first, and then in the cache. -/
theorem lookUps_agree_one_symbol : ∃ s, Run (LookUpStep oneSymbol 8#64)
      ⟨(ps4KernelCacheCreate twoStrings 4#64 8#64).2, 0⟩
      [.lookUp ⟨[1], ps4Ok, some 99#64, 0, 0⟩, .lookUp ⟨[1], ps4Ok, some 99#64, 0, 0⟩] s ∧
    Return.Agrees oneSymbol ⟨[1], ps4Ok, some 99#64, 0, 0⟩ := by
  have hs : StringAt (ps4KernelCacheCreate twoStrings 4#64 8#64).2 5#64 [1] := ⟨by decide, [], rfl⟩
  obtain ⟨heap, hcall, hs', hfresh, hcall'⟩ : ∃ heap, ps4KernelSymbolLookUp oneSymbol 8#64
      ⟨(ps4KernelCacheCreate twoStrings 4#64 8#64).2, 0⟩ 5#64 9#64
        ⟨20#64, 21#64, 22#64, 23#64, none⟩ =
        .ok (ps4Ok, some 99#64, ⟨heap, 0⟩) ∧ StringAt heap 6#64 [1] ∧
      Supply.Fresh ⟨30#64, 31#64, 32#64, 33#64, none⟩ heap ∧
      ps4KernelSymbolLookUp oneSymbol 8#64 ⟨heap, 0⟩ 6#64 9#64 ⟨30#64, 31#64, 32#64, 33#64, none⟩ =
        .ok (ps4Ok, some 99#64, ⟨heap, 0⟩) :=
    ⟨_, rfl, ⟨by decide, [], rfl⟩, .of_dead (by decide) rfl rfl rfl rfl, rfl⟩
  have hr := Run.cons (LookUpStep.lookUp hs (by decide) (by decide) fresh_supply hcall)
    (.single (LookUpStep.lookUp hs' (by decide) (by decide) hfresh hcall'))
  have hsymbol : symbolOf oneSymbol [1] = 99#64 := rfl
  refine ⟨_, hr, (lookUps_agree_iff oneSymbol twoStrings 4#64 8#64 (by decide) (by decide) rfl 0
    _ _ hr).2.mpr (fun r hm => ?_) _ List.mem_cons_self⟩
  have hreturn : ∀ r, .lookUp r ∈ [LookUpAction.lookUp ⟨[1], ps4Ok, some 99#64, 0, 0⟩,
      .lookUp ⟨[1], ps4Ok, some 99#64, 0, 0⟩] → r.name = [1] := by
    simp
  rw [hreturn r hm, hsymbol]
  refine ⟨by decide, fun r' hm' _ => ?_⟩
  rw [hreturn r' hm', hsymbol]

/-- The second look-up of a name without a symbol succeeds with null, and the first one keeps
the mutex. -/
theorem lookUp_missing_twice :
    ps4KernelDlSym ⟨[], fun _ => 0⟩ [1, 0] = .ok 0#64 ∧
    ∃ s, ps4KernelSymbolLookUp ⟨[], fun _ => 0⟩ 8#64
      ⟨(ps4KernelCacheCreate twoStrings 4#64 8#64).2, 0⟩ 5#64 9#64
        ⟨20#64, 21#64, 22#64, 23#64, none⟩ =
          .ok (ps4ErrorKernelSymbolLookupNotFound, some 0#64, s) ∧
      s.depth = 1 ∧
      ps4KernelSymbolLookUp ⟨[], fun _ => 0⟩ 8#64 s 5#64 9#64 ⟨24#64, 25#64, 26#64, 27#64, none⟩ =
        .ok (ps4Ok, some 0#64, s) :=
  ⟨rfl, _, rfl, rfl, rfl⟩

end Ps4Sdk.SymbolLookUps
