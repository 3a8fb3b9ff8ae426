import Ps4Sdk.KernelBase
import Mathlib.Data.List.Basic
import Mathlib.Tactic.Common

/-!
# Names of the system's variables, `name2oid` of `cache_global.c`

The variables are a tree, with a list of variables at every node. A name is looked up component
by component: the buffer that holds it is cut at its dots, one after the other, and the first
variable of a list that has the name of the component is taken. The numbers on the way are
stored in an array of `CTL_MAXNAME` places.
-/

namespace Ps4Sdk.SysctlNames

/-- `struct sysctl_oid`, with what `SYSCTL_CHILDREN` leads to. -/
inductive Oid
  | mk (name : List Byte) (number : BitVec 32) (kind : BitVec 32) (handler : Bool)
      (children : List Oid)

namespace Oid

def name : Oid → List Byte
  | mk name _ _ _ _ => name

def number : Oid → BitVec 32
  | mk _ number _ _ _ => number

def kind : Oid → BitVec 32
  | mk _ _ kind _ _ => kind

def handler : Oid → Bool
  | mk _ _ _ handler _ => handler

def children : Oid → List Oid
  | mk _ _ _ _ children => children

private theorem sizeOf_children (o : Oid) : sizeOf o.children < sizeOf o := by
  cases o
  simp only [children, mk.sizeOf_spec]
  omega

end Oid

def enoent : Code := 2
def ctlMaxname : ℕ := 24
def ctltype : BitVec 32 := 0xf
def ctltypeNode : BitVec 32 := 1
def dot : Byte := 0x2e

def cString (b : List Byte) (name : ℕ) : List Byte := (b.drop name).takeWhile (· ≠ 0)

def scan (b : List Byte) (name : ℕ) : ℕ :=
  name + ((b.drop name).takeWhile fun c => c ≠ 0 ∧ c ≠ dot).length

def cut (b : List Byte) (name : ℕ) : List Byte × ℕ × Byte :=
  let p := scan b name
  let i := b.getD p 0
  (if i = dot then b.set p 0 else b, p, i)

structure Result where
  code : Code
  oid : List (BitVec 32)
  oidp : Option Oid
  buffer : List Byte

/-- The loop over the variables; `*len` is the length of what is stored. -/
def walk (b : List Byte) (name p : ℕ) (i : Byte) (oid : List (BitVec 32))
    (list : List Oid) : Result :=
  match list with
  | [] => ⟨enoent, oid, none, b⟩
  | oidp :: next =>
    if oid.length < ctlMaxname then
      if cString b name ≠ oidp.name then walk b name p i oid next
      else
        let oid := oid ++ [oidp.number]
        if i = 0 then ⟨0, oid, some oidp, b⟩
        else if oidp.kind &&& ctltype ≠ ctltypeNode then ⟨enoent, oid, none, b⟩
        else if oidp.handler then ⟨enoent, oid, none, b⟩
        else
          let name := p + 1
          let (b, p, i) := cut b name
          walk b name p i oid oidp.children
    else ⟨enoent, oid, none, b⟩
termination_by sizeOf list
decreasing_by
  · rw [List.cons.sizeOf_spec]
    omega
  · have hchildren := oidp.sizeOf_children
    rw [List.cons.sizeOf_spec]
    omega

/-- `name2oid` over the variables of the system. -/
def name2oid (root : List Oid) (b : List Byte) : Result :=
  if b.getD 0 0 = 0 then ⟨enoent, [], none, b⟩
  else
    let p := (cString b 0).length - 1
    let b := if b.getD p 0 = dot then b.set p 0 else b
    let (b, p, i) := cut b 0
    walk b 0 p i [] root

/-! ### What it is for -/

def components (s : List Byte) : List (List Byte) :=
  (if s.getLast? = some dot then s.dropLast else s).splitOn dot

def Oid.opens (o : Oid) : Bool := o.kind &&& ctltype = ctltypeNode ∧ o.handler = false

/-- The variables on the way that a name describes, and whether it leads to the last of them. -/
def resolve (list : List Oid) : List (List Byte) → List Oid × Bool
  | [] => ([], false)
  | c :: cs =>
    match list.find? fun o => c = o.name with
    | none => ([], false)
    | some o =>
      if cs = [] then ([o], true)
      else if o.opens then (o :: (resolve o.children cs).1, (resolve o.children cs).2)
      else ([o], false)

/-! ### Cutting the buffer -/

/-- Some dots of the buffer are zeros instead, and nothing else is different. -/
def Cuts (b b' : List Byte) : Prop := ∀ k : ℕ, b'[k]? = b[k]? ∨ b[k]? = some dot ∧ b'[k]? = some 0

theorem Cuts.refl (b : List Byte) : Cuts b b := fun _ => Or.inl rfl

theorem Cuts.trans {b b' b'' : List Byte} (h : Cuts b b') (h' : Cuts b' b'') : Cuts b b'' := by
  intro k
  rcases h' k with hk' | ⟨hdot, hzero⟩
  · rw [hk']
    exact h k
  · rcases h k with hk | ⟨hdot', hzero'⟩
    · exact Or.inr ⟨hk ▸ hdot, hzero⟩
    · rw [hzero'] at hdot
      exact absurd (Option.some.inj hdot) (by decide)

theorem cuts_set {b : List Byte} {p : ℕ} (h : b[p]? = some dot) : Cuts b (b.set p 0) := by
  intro k
  by_cases hk : p = k
  · subst hk
    obtain ⟨hlt, -⟩ := List.getElem?_eq_some_iff.mp h
    exact Or.inr ⟨h, by rw [List.getElem?_set_self hlt]⟩
  · exact Or.inl (List.getElem?_set_ne hk)

inductive At (b : List Byte) (name p : ℕ) (i : Byte) : List (List Byte) → Prop
  | last (hi : i = 0) : At b name p i [cString b name]
  | more {t junk : List Byte} (hi : i ≠ 0) (hrest : b.drop (p + 1) = t ++ 0 :: junk)
      (ht : (0 : Byte) ∉ t) :
      At b name p i (cString b name :: t.splitOn dot)

section

variable {b t junk c : List Byte} {name : ℕ}

private theorem scan_eq {x : Byte} (h : b.drop name = c ++ x :: junk)
    (hc : ∀ y ∈ c, y ≠ 0 ∧ y ≠ dot) (hx : ¬(x ≠ 0 ∧ x ≠ dot)) : scan b name = name + c.length := by
  rw [scan, h, List.takeWhile_append_of_pos (by simpa using hc),
    List.takeWhile_cons_of_neg (by simpa using hx), List.append_nil]

private theorem cString_eq (h : b.drop name = c ++ 0 :: junk) (hc : (0 : Byte) ∉ c) :
    cString b name = c := by
  have hne : ∀ y ∈ c, decide (y ≠ 0) = true := fun y hy => decide_eq_true fun h0 => hc (h0 ▸ hy)
  rw [cString, h, List.takeWhile_append_of_pos hne,
    List.takeWhile_cons_of_neg (by decide), List.append_nil]

theorem getElem?_of_drop {x : Byte} (h : b.drop name = c ++ x :: junk) :
    b[name + c.length]? = some x := by
  rw [← List.getElem?_drop, h, List.getElem?_append_right (Nat.le_refl _), Nat.sub_self]
  rfl

theorem cut_at (h : b.drop name = t ++ 0 :: junk) (ht : (0 : Byte) ∉ t) :
    At (cut b name).1 name (cut b name).2.1 (cut b name).2.2 (t.splitOn dot) ∧
    Cuts b (cut b name).1 := by
  have hne : ∀ y ∈ t, y ≠ 0 := fun y hy h0 => ht (h0 ▸ hy)
  by_cases hdot : dot ∈ t
  · obtain ⟨c, rest, rfl, hc⟩ := List.eq_append_cons_of_mem hdot
    rw [List.append_assoc, List.cons_append] at h
    have hrest : (0 : Byte) ∉ rest :=
      fun h0 => ht (List.mem_append_right c (List.mem_cons_of_mem dot h0))
    have hc0 : (0 : Byte) ∉ c := fun h0 => ht (List.mem_append_left _ h0)
    have hscan : scan b name = name + c.length :=
      scan_eq h (fun y hy => ⟨hne y (List.mem_append_left _ hy), fun hy' => hc (hy' ▸ hy)⟩)
        (by decide)
    have hbyte := getElem?_of_drop h
    have hcut : cut b name = (b.set (name + c.length) 0, name + c.length, dot) := by
      rw [cut, hscan]
      simp only [List.getD_eq_getElem?_getD, hbyte, Option.getD_some, if_true]
    have hset : (b.set (name + c.length) 0).drop name = c ++ 0 :: (rest ++ 0 :: junk) := by
      rw [List.drop_set, if_neg (by omega), Nat.add_sub_cancel_left, h,
        List.set_append_right _ _ (Nat.le_refl _), Nat.sub_self]
      rfl
    have hnext : (b.set (name + c.length) 0).drop (name + c.length + 1) = rest ++ 0 :: junk := by
      rw [Nat.add_assoc, ← List.drop_drop, hset, List.drop_append]
      simp
    rw [hcut, List.splitOn_append_cons_self_of_not_mem hc]
    dsimp only
    have hat : At (b.set (name + c.length) 0) name (name + c.length) dot
        (cString (b.set (name + c.length) 0) name :: rest.splitOn dot) :=
          .more (by decide) hnext hrest
    rw [cString_eq hset hc0] at hat
    exact ⟨hat, cuts_set hbyte⟩
  · have hscan : scan b name = name + t.length :=
      scan_eq h (fun y hy => ⟨hne y hy, fun hy' => hdot (hy' ▸ hy)⟩) (by decide)
    have hcut : cut b name = (b, name + t.length, 0) := by
      rw [cut, hscan]
      simp only [List.getD_eq_getElem?_getD, getElem?_of_drop h, Option.getD_some]
      rw [if_neg (by decide)]
    rw [hcut, List.splitOn_eq_singleton hdot]
    dsimp only
    rw [← cString_eq h ht]
    exact ⟨.last rfl, Cuts.refl b⟩

/-! ### Walking down the tree -/

def outcome (oid : List (BitVec 32)) (path : List Oid) (found : Bool) (b : List Byte) : Result :=
  let room := ctlMaxname - oid.length
  ⟨if found ∧ path.length ≤ room then 0 else enoent, oid ++ (path.take room).map Oid.number,
    if found ∧ path.length ≤ room then path.getLast? else none, b⟩

theorem resolve_length {list : List Oid} {cs : List (List Byte)} (h : (resolve list cs).2 = true) :
    (resolve list cs).1.length = cs.length := by
  induction cs generalizing list with
  | nil => cases h
  | cons c cs ih =>
    rw [resolve] at h ⊢
    split at h
    · cases h
    · split_ifs at h ⊢ with hcs
      · simp [hcs]
      · simp [ih h]

private theorem At.exists_cons {p : ℕ} {i : Byte} {cs : List (List Byte)} (h : At b name p i cs) :
    ∃ cs', cs = cString b name :: cs' ∧ (i = 0 ↔ cs' = []) := by
  cases h with
  | last hi => exact ⟨[], rfl, fun _ => rfl, fun _ => hi⟩
  | more hi hrest ht => exact ⟨_, rfl, fun h0 => absurd h0 hi,
      fun hnil => absurd hnil (List.splitOn_ne_nil _ _)⟩

section

variable {oid : List (BitVec 32)} {o : Oid} {path : List Oid} {found : Bool} {b' : List Byte}

theorem outcome_nil (oid : List (BitVec 32)) (b : List Byte) :
    outcome oid [] false b = ⟨enoent, oid, none, b⟩ := by
  simp [outcome]

private theorem outcome_found (h : oid.length < ctlMaxname) :
    outcome oid [o] true b' = ⟨0, oid ++ [o.number], some o, b'⟩ := by
  have hroom : 1 ≤ ctlMaxname - oid.length := by omega
  have htake : List.take (ctlMaxname - oid.length) [o] = [o] := List.take_of_length_le hroom
  simp [outcome, hroom, htake]

private theorem outcome_stopped (h : oid.length < ctlMaxname) :
    outcome oid [o] false b' = ⟨enoent, oid ++ [o.number], none, b'⟩ := by
  have hroom : 1 ≤ ctlMaxname - oid.length := by omega
  have htake : List.take (ctlMaxname - oid.length) [o] = [o] := List.take_of_length_le hroom
  simp [outcome, htake]

theorem outcome_cons (h : oid.length < ctlMaxname) (hne : found = true → path ≠ []) :
    outcome (oid ++ [o.number]) path found b' = outcome oid (o :: path) found b' := by
  obtain ⟨room, hroom⟩ : ∃ room, ctlMaxname - oid.length = room + 1 :=
    ⟨ctlMaxname - oid.length - 1, by omega⟩
  have hrest : ctlMaxname - (oid ++ [o.number]).length = room := by
    rw [List.length_append, List.length_singleton]
    omega
  have hlast : found = true → (o :: path).getLast? = path.getLast? := fun hf => by
    obtain ⟨o', path', rfl⟩ := List.exists_cons_of_ne_nil (hne hf)
    rfl
  simp only [outcome, hroom, hrest, List.take_succ_cons, List.map_cons, List.append_assoc,
    List.singleton_append, List.length_cons, Nat.add_le_add_iff_right]
  split_ifs with hc
  · rw [hlast hc.1]
  · rfl

private theorem outcome_full (h : ¬oid.length < ctlMaxname) (hne : found = true → path ≠ []) :
    outcome oid path found b' = ⟨enoent, oid, none, b'⟩ := by
  have hroom : ctlMaxname - oid.length = 0 := by omega
  have hnot : ¬(found = true ∧ path.length ≤ 0) := fun ⟨hf, hle⟩ =>
    hne hf (List.eq_nil_of_length_eq_zero (Nat.le_zero.mp hle))
  simp only [outcome, hroom, if_neg hnot, List.take_zero, List.map_nil, List.append_nil]

end

theorem resolve_ne_nil {list : List Oid} {cs : List (List Byte)} (h : (resolve list cs).2 = true) :
    (resolve list cs).1 ≠ [] := by
  intro hnil
  have hlength := resolve_length h
  rw [hnil] at hlength
  rw [List.eq_nil_of_length_eq_zero hlength.symm] at h
  cases h

private theorem resolve_skip {o : Oid} {list : List Oid} {c : List Byte} (cs : List (List Byte))
    (h : c ≠ o.name) :
    resolve (o :: list) (c :: cs) = resolve list (c :: cs) := by
  rw [resolve, resolve, List.find?_cons_of_neg (by simpa using h)]

private theorem resolve_hit {o : Oid} {list : List Oid} {c : List Byte} (cs : List (List Byte))
    (h : c = o.name) :
    resolve (o :: list) (c :: cs) =
      if cs = [] then ([o], true)
      else if o.opens then (o :: (resolve o.children cs).1, (resolve o.children cs).2)
      else ([o], false) := by
  rw [resolve, List.find?_cons_of_pos (by simpa using h)]

/-- The walk goes along the variables that the components describe. -/
theorem walk_eq {p : ℕ} {i : Byte} {cs : List (List Byte)} (oid : List (BitVec 32))
    (list : List Oid) (hat : At b name p i cs) :
    ∃ b', Cuts b b' ∧ walk b name p i oid list =
      outcome oid (resolve list cs).1 (resolve list cs).2 b' := by
  fun_induction walk b name p i oid list generalizing cs with
  | case1 b name p i oid =>
    obtain ⟨cs', rfl, -⟩ := hat.exists_cons
    exact ⟨b, Cuts.refl b, (outcome_nil oid b).symm⟩
  | case2 b name p i oid o next hroom hname ih =>
    obtain ⟨cs', rfl, -⟩ := hat.exists_cons
    rw [resolve_skip cs' hname]
    exact ih hat
  | case3 b name p oid o next hroom hname =>
    obtain ⟨cs', rfl, hlast⟩ := hat.exists_cons
    rw [resolve_hit cs' (not_not.mp hname), if_pos (hlast.mp rfl)]
    exact ⟨b, Cuts.refl b, (outcome_found hroom).symm⟩
  | case4 =>
    rename_i b name p i oid o next hroom hname _ hi hkind
    obtain ⟨cs', rfl, hlast⟩ := hat.exists_cons
    rw [resolve_hit cs' (not_not.mp hname), if_neg (fun h => hi (hlast.mpr h)),
      if_neg (by simp [Oid.opens, hkind])]
    exact ⟨b, Cuts.refl b, (outcome_stopped hroom).symm⟩
  | case5 =>
    rename_i b name p i oid o next hroom hname _ hi hkind hhandler
    obtain ⟨cs', rfl, hlast⟩ := hat.exists_cons
    rw [resolve_hit cs' (not_not.mp hname), if_neg (fun h => hi (hlast.mpr h)),
      if_neg (by simp [Oid.opens, hhandler])]
    exact ⟨b, Cuts.refl b, (outcome_stopped hroom).symm⟩
  | case6 =>
    rename_i b name p i oid o next hroom hname _ hi hkind hhandler _ b₁ p₁ i₁ hcut ih
    cases hat with
    | last h0 => exact absurd h0 hi
    | more _ hrest ht =>
      obtain ⟨hat, hcuts⟩ := cut_at hrest ht
      rw [hcut] at hat hcuts
      obtain ⟨b', hcuts', hwalk⟩ := ih hat
      have hopens : o.opens = true := by simpa [Oid.opens, hhandler] using not_not.mp hkind
      refine ⟨b', hcuts.trans hcuts', hwalk.trans ?_⟩
      rw [resolve_hit _ (not_not.mp hname), if_neg (List.splitOn_ne_nil _ _), if_pos hopens]
      exact outcome_cons hroom fun hfound => resolve_ne_nil hfound
  | case7 b name p i oid o next hroom =>
    exact ⟨b, Cuts.refl b, (outcome_full hroom fun hfound => resolve_ne_nil hfound).symm⟩

end

/-- The buffer once a dot at the end of the name is gone. -/
theorem drop_last_dot {s : List Byte} (hs : (0 : Byte) ∉ s) (hne : s ≠ []) (junk : List Byte) :
    ∃ t junk', (0 : Byte) ∉ t ∧ components s = t.splitOn dot ∧
      (if (s ++ 0 :: junk).getD (s.length - 1) 0 =
        dot then (s ++ 0 :: junk).set (s.length - 1) 0 else s ++ 0 :: junk) =
        t ++ 0 :: junk' ∧ Cuts (s ++ 0 :: junk) (t ++ 0 :: junk') := by
  obtain ⟨init, x, rfl⟩ := (List.eq_nil_or_concat s).resolve_left hne
  rw [List.concat_eq_append] at hs hne ⊢
  have hinit : (0 : Byte) ∉ init := fun h0 => hs (List.mem_append_left _ h0)
  have hlength : (init ++ [x]).length - 1 = init.length := by simp
  have hbyte : (init ++ [x] ++ 0 :: junk)[init.length]? = some x := by simp
  rw [hlength, List.getD_eq_getElem?_getD, hbyte, Option.getD_some]
  by_cases hx : x = dot
  · subst hx
    have hset : (init ++ [dot] ++ 0 :: junk).set init.length 0 = init ++ 0 :: 0 :: junk := by simp
    refine ⟨init, 0 :: junk, hinit, ?_, ?_, ?_⟩
    · rw [components, List.getLast?_concat, if_pos rfl, List.dropLast_concat]
    · rw [if_pos rfl, hset]
    · rw [← hset]
      exact cuts_set hbyte
  · refine ⟨init ++ [x], junk, hs, ?_, if_neg hx, Cuts.refl _⟩
    rw [components, List.getLast?_concat, if_neg (fun h => hx (Option.some.inj h))]

theorem name2oid_eq (root : List Oid) {s : List Byte} (hs : (0 : Byte) ∉ s) (hne : s ≠ [])
    (junk : List Byte) :
    ∃ b', Cuts (s ++ 0 :: junk) b' ∧ name2oid root (s ++ 0 :: junk) =
      outcome [] (resolve root (components s)).1 (resolve root (components s)).2 b' := by
  obtain ⟨t, junk', ht, hcomponents, hbuffer, hcuts⟩ := drop_last_dot hs hne junk
  obtain ⟨hat, hcuts'⟩ := cut_at (b := t ++ 0 :: junk') List.drop_zero ht
  obtain ⟨b', hcuts'', hwalk⟩ := walk_eq [] root hat
  have hfirst : (s ++ 0 :: junk).getD 0 0 ≠ 0 := by
    obtain ⟨x, s, rfl⟩ := List.exists_cons_of_ne_nil hne
    exact fun h0 => hs (h0 ▸ List.mem_cons_self)
  refine ⟨b', (hcuts.trans hcuts').trans hcuts'', ?_⟩
  rw [name2oid, if_neg hfirst, cString_eq List.drop_zero hs]
  dsimp only
  rw [hbuffer, hwalk, ← hcomponents]

/-- A name leads to the variable that its components describe one after the other, if there are not
more of them than there is room for; otherwise there is no such variable. The numbers on the way are
stored, never more than there is room for, and of the buffer only dots are overwritten. -/
theorem name2oid_resolves (root : List Oid) {s : List Byte} (hs : (0 : Byte) ∉ s) (hne : s ≠ [])
    (junk : List Byte) :
    let r := name2oid root (s ++ 0 :: junk)
    let path := (resolve root (components s)).1
    let found := (resolve root (components s)).2 = true ∧ path.length ≤ ctlMaxname
    r.code = (if found then 0 else enoent) ∧ r.oidp = (if found then path.getLast? else none) ∧
      r.oid = (path.take ctlMaxname).map Oid.number ∧ Cuts (s ++ 0 :: junk) r.buffer := by
  obtain ⟨b', hcuts, hr⟩ := name2oid_eq root hs hne junk
  rw [hr]
  exact ⟨rfl, rfl, rfl, hcuts⟩

/-- The node `ps4` with the variable `cache` behind a variable of another name. -/
def sampleRoot : List Oid :=
  [.mk [0x6b] 1 ctltypeNode false [], .mk [0x70, 0x73, 0x34] 7 ctltypeNode false
    [.mk [0x63] 9 9 true []]]

/-- `ps4.c.` and `ps4.x`. -/
theorem name2oid_resolves_ps4 :
    (name2oid sampleRoot [0x70, 0x73, 0x34, dot, 0x63, dot, 0]).code = 0 ∧
      (name2oid sampleRoot [0x70, 0x73, 0x34, dot, 0x63, dot, 0]).oid = [7, 9] ∧
      (name2oid sampleRoot [0x70, 0x73, 0x34, dot, 0x78, 0]).code = enoent ∧
      (name2oid sampleRoot [0x70, 0x73, 0x34, dot, 0x78, 0]).oid = [7] := by
  obtain ⟨hcode, -, hoid, -⟩ :=
    name2oid_resolves sampleRoot (s := [0x70, 0x73, 0x34, dot, 0x63, dot])
      (by decide) (by decide) []
  obtain ⟨hcode', -, hoid', -⟩ :=
    name2oid_resolves sampleRoot (s := [0x70, 0x73, 0x34, dot, 0x78]) (by decide) (by decide) []
  exact ⟨hcode.trans (by decide), hoid.trans (by decide), hcode'.trans (by decide),
    hoid'.trans (by decide)⟩

end Ps4Sdk.SysctlNames
