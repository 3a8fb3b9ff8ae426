import Ps4Sdk.HashContainerChains

/-!
# The container as a map in the order of insertion

A container stands for a list of elements with their keys. The operations of `uthash.h` keep
the list, the links in both orders and the counters together, and a search in one bucket gives
what a search of the whole list gives. This holds for every hash function and through every
expansion.
-/

namespace Ps4Sdk.HashContainers
open DoublyLinkedLists

abbrev Items (P : Type) := List (P × Key)

variable {P : Type}

/-- What the container holds while there is an element. -/
structure Holds (hashFcn : Key → BitVec 32) (c : Container P) (tbl : Table P)
    (l : Items P) : Prop where
  table : c.tbl = some tbl
  head : c.head = (l.map Prod.fst).head?
  tail : (l.map Prod.fst).getLast? = some tbl.tail
  order : Links (fun p => (c.hh p).next) (fun p => (c.hh p).prev) none (l.map Prod.fst) none
  nodup : (l.map Prod.fst).Nodup
  chains : ∃ chain, Chains tbl.buckets c.hh tbl.numBuckets (l.map Prod.fst) chain
  numBuckets : 0 < tbl.numBuckets
  numItems : tbl.numItems = l.length
  filed : ∀ x ∈ l, (c.hh x.1).key = x.2 ∧ (c.hh x.1).hashv = hashFcn x.2

/-- The container stands for the list. -/
def Represents (hashFcn : Key → BitVec 32) (c : Container P) (l : Items P) : Prop :=
  (l = [] ∧ c.head = none ∧ c.tbl = none) ∨ ∃ tbl, Holds hashFcn c tbl l

variable {hashFcn : Key → BitVec 32} {rounds : ℕ} {c : Container P} {tbl : Table P} {l : Items P}
  {hh : P → Handle P}
variable {key : Key} {p : P} {before : Option P} {items : List P} {chain : ℕ → List P}

variable (hashFcn) in
theorem empty_represents (hh : P → Handle P) : Represents hashFcn ⟨none, none, hh⟩ [] :=
  .inl ⟨rfl, rfl, rfl⟩

private theorem Holds.exists_head (h : Holds hashFcn c tbl l) : ∃ first, c.head = some first := by
  rw [h.head]
  cases l with
  | nil => exact absurd h.tail (by simp)
  | cons x l => exact ⟨x.1, rfl⟩

/-- The link from the first element leads to the second one. -/
theorem Represents.second (h : Represents hashFcn c l) :
    c.head = (l.map Prod.fst).head? ∧
    (c.head.bind fun p => (c.hh p).next) = (l.map Prod.fst).tail.head? := by
  rcases h with ⟨rfl, hhead, -⟩ | ⟨tbl, h⟩
  · rw [hhead]
    exact ⟨rfl, rfl⟩
  · refine ⟨h.head, ?_⟩
    rw [h.head]
    have horder := h.order
    cases l with
    | nil => rfl
    | cons x l => simpa using horder.2.1

theorem Represents.congr {c' : Container P} (h : Represents hashFcn c l) (hhead : c'.head = c.head)
    (htbl : c'.tbl = c.tbl) (hkeep : ∀ q ∈ l.map Prod.fst, c'.hh q = c.hh q) :
    Represents hashFcn c' l := by
  rcases h with ⟨rfl, hhead', htbl'⟩ | ⟨tbl, h⟩
  · exact .inl ⟨rfl, hhead.trans hhead', htbl.trans htbl'⟩
  · obtain ⟨chain, hc⟩ := h.chains
    refine .inr ⟨tbl, htbl.trans h.table, hhead.trans h.head, h.tail, ?_, h.nodup,
      ⟨chain, hc.congr fun q hq => ?_⟩, h.numBuckets, h.numItems, fun x hx => ?_⟩
    · exact h.order.congr (fun q hq => by rw [hkeep q hq]) (fun q hq => by rw [hkeep q hq])
    · rw [hkeep q hq]
      exact ⟨rfl, rfl, rfl⟩
    · rw [hkeep x.1 (List.mem_map_of_mem hx)]
      exact h.filed x hx

/-! ### Search -/

def lookUp (l : Items P) (key : Key) : Option P := (l.find? fun x => x.2 = key).map Prod.fst

/-- The loop along a bucket is a search of its chain. -/
theorem hashFindInBkt_eq (h : Links (fun p => (hh p).hhNext) (fun p => (hh p).hhPrev) before items
    none) (hr : items.length ≤ rounds) :
    hashFindInBkt hh key rounds items.head? = some (items.find? fun p => (hh p).key = key) := by
  induction items generalizing before rounds with
  | nil => cases rounds <;> rfl
  | cons p items ih =>
    obtain ⟨rounds, rfl⟩ : ∃ r, rounds = r + 1 := ⟨rounds - 1, by simp at hr; omega⟩
    have hnext : (hh p).hhNext = items.head? := by simpa using h.2.1
    have hrest := ih h.2.2 (by simpa using hr)
    have hkey : (hh p).key = key ↔ (hh p).key.bytes = key.bytes :=
      ⟨congrArg Key.bytes, fun he => by cases hk : (hh p).key; cases key; simp_all⟩
    rw [List.head?_cons, hashFindInBkt, hnext, hrest]
    by_cases he : (hh p).key.bytes = key.bytes
    · rw [if_pos (congrArg List.length he), if_pos he,
        List.find?_cons_of_pos (by simpa using hkey.mpr he)]
    · rw [if_neg he, ite_self, List.find?_cons_of_neg (by simpa using fun hk => he (hkey.mp hk))]

/-- Two lists with the same matches find the same where only one element can match. -/
theorem find?_eq_find? {α : Type*} {q : α → Bool} {l l' : List α}
    (hm : ∀ a, q a = true → (a ∈ l ↔ a ∈ l')) (hu : ∀ a ∈ l', ∀ b ∈ l', q a = true → q b = true →
      a = b) : l.find? q = l'.find? q := by
  cases h' : l'.find? q with
  | none =>
    refine List.find?_eq_none.mpr fun a ha hq => ?_
    exact List.find?_eq_none.mp h' a ((hm a hq).mp ha) hq
  | some b =>
    have hb := List.mem_of_find?_eq_some h'
    have hqb := List.find?_some h'
    cases h : l.find? q with
    | none => exact absurd hqb (List.find?_eq_none.mp h b ((hm b hqb).mpr hb))
    | some a =>
      have hqa := List.find?_some h
      rw [hu a ((hm a hqa).mp (List.mem_of_find?_eq_some h)) b hb hqa hqb]

theorem lookUp_eq (hf : ∀ x ∈ l, (hh x.1).key = x.2) :
    lookUp l key = (l.map Prod.fst).find? fun q => (hh q).key = key := by
  induction l with
  | nil => rfl
  | cons x l ih =>
    have hrest := ih fun y hy => hf y (List.mem_cons_of_mem _ hy)
    rw [List.map_cons, List.find?_cons, ← hrest, lookUp, List.find?_cons, hf x List.mem_cons_self]
    cases decide (x.2 = key) <;> rfl

private theorem Holds.mem_snd (h : Holds hashFcn c tbl l) {x : P × Key} (hx : x ∈ l) :
    (c.hh x.1).key = x.2 := (h.filed x hx).1

/-- Where the keys differ, the search of a bucket gives what the search of the list gives. -/
theorem Represents.find (h : Represents hashFcn c l) (hk : (l.map Prod.snd).Nodup)
    (hr : l.length ≤ rounds) :
    hashFind hashFcn rounds c key = some (lookUp l key) := by
  rcases h with ⟨rfl, hhead, -⟩ | ⟨tbl, h⟩
  · rw [hashFind, hhead]
    rfl
  · obtain ⟨chain, hc⟩ := h.chains
    obtain ⟨first, hfirst⟩ := h.exists_head
    have hr' : (chain (hashToBkt (hashFcn key) tbl.numBuckets)).length ≤ rounds := by
      refine ((hc.perm _).length_eq.trans_le (List.length_filter_le ..)).trans ?_
      simpa using hr
    have hmatch : ∀ q ∈ l.map Prod.fst, (c.hh q).key = key → (q, key) ∈ l := by
      intro q hq he
      obtain ⟨x, hx, rfl⟩ := List.mem_map.mp hq
      rw [← he, h.mem_snd hx]
      exact hx
    rw [hashFind, hfirst, h.table]
    change hashFindInBkt c.hh key rounds (tbl.buckets _).hhHead = _
    rw [hc.first, hashFindInBkt_eq (hc.linked _) hr', lookUp_eq fun x hx => h.mem_snd hx]
    refine congrArg some (find?_eq_find? (fun q hq => ?_) fun q hq q' hq' he he' => ?_)
    · have hq : (c.hh q).key = key := of_decide_eq_true hq
      refine hc.mem.trans ⟨And.left, fun hm => ⟨hm, ?_⟩⟩
      rw [(h.filed _ (hmatch q hm hq)).2]
    · have hx := hmatch q hq (of_decide_eq_true he)
      have hx' := hmatch q' hq' (of_decide_eq_true he')
      exact congrArg Prod.fst (List.inj_on_of_nodup_map hk hx hx' rfl)

/-! ### Insertion -/

variable [DecidableEq P]

/-- `HASH_ADD_TO_BKT` ends, with or without an expansion. -/
theorem hashAddToBkt_chains (h : Chains tbl.buckets hh tbl.numBuckets items chain)
    (hn : 0 < tbl.numBuckets) (hi : (items ++ [p]).Nodup) (hr : items.length + 1 ≤ rounds) :
    ∃ tbl' hh' chain', hashAddToBkt rounds tbl hh (hashToBkt (hh p).hashv tbl.numBuckets) p =
      some (tbl', hh') ∧
      SameOrder hh hh' ∧ Chains tbl'.buckets hh' tbl'.numBuckets (items ++ [p]) chain' ∧
      0 < tbl'.numBuckets ∧
      tbl'.numItems = tbl.numItems ∧ tbl'.tail = tbl.tail := by
  obtain ⟨hitems, -, hdisjoint⟩ := List.nodup_append.mp hi
  have hp : p ∉ items := fun hp => hdisjoint p hp p List.mem_cons_self rfl
  let b := hashToBkt (hh p).hashv tbl.numBuckets
  let tbl₁ : Table P := { tbl with
    buckets := Function.update tbl.buckets b ⟨some p, (tbl.buckets b).count + 1,
      (tbl.buckets b).expandMult⟩ }
  have hpush : Chains tbl₁.buckets (linkFirst hh (tbl.buckets b).hhHead p) tbl₁.numBuckets
    (items ++ [p]) _ :=
    h.push hitems hp rfl _
  have hsame := linkFirst_sameOrder hh (tbl.buckets b).hhHead p
  have hr' : (items ++ [p]).length ≤ rounds := by simpa using hr
  rw [hashAddToBkt]
  dsimp only
  split_ifs
  · obtain ⟨tbl', hh', chain', he, hsame', hc, hn', hrest⟩ :=
      hashExpandBuckets_chains hpush hn hi hr'
    have hpos : 0 < tbl'.numBuckets := by
      rw [hn']
      exact Nat.mul_pos hn two_pos
    exact ⟨tbl', hh', chain', he, hsame.trans hsame', hc, hpos, hrest⟩
  · exact ⟨tbl₁, _, _, rfl, hsame, hpush, hn, rfl, rfl⟩

structure Appended (hashFcn : Key → BitVec 32) (l : Items P) (head : P) (tbl : Table P)
    (hh : P → Handle P) (key : Key) (p : P) : Prop where
  head : (l.map Prod.fst ++ [p]).head? = some head
  order : Links (fun q => (hh q).next) (fun q => (hh q).prev) none (l.map Prod.fst ++ [p]) none
  chains : ∃ chain, Chains tbl.buckets hh tbl.numBuckets (l.map Prod.fst) chain
  numBuckets : 0 < tbl.numBuckets
  numItems : tbl.numItems = l.length + 1
  tail : tbl.tail = p
  filed : ∀ x ∈ l ++ [(p, key)], (hh x.1).key = x.2 ∧ (hh x.1).hashv = hashFcn x.2

private theorem modify_next (hh : P → Handle P) (t q : P) (v : Option P) :
    modify hh t (fun h => { h with next := v }) q =
      { hh q with next := if t = q then v else (hh q).next } := by
  by_cases h : q = t
  · rw [h, modify_self, if_pos rfl]
  · rw [modify_ne h, if_neg (Ne.symm h)]

theorem Represents.append (h : Represents hashFcn c l) (key : Key) (hp : p ∉ l.map Prod.fst) :
    ∃ head tbl hh, appendItem hashFcn c key p = some (head, tbl, hh) ∧
    Appended hashFcn l head tbl hh key p := by
  rcases h with ⟨rfl, hhead, -⟩ | ⟨tbl, h⟩
  · rw [appendItem, hhead]
    refine ⟨_, _, _, rfl, rfl, ⟨?_, ?_, trivial⟩, ⟨_, chains_zero _ _⟩, Nat.succ_pos _, rfl,
      rfl, fun x hx => ?_⟩
    · simp [modify]
    · simp [modify]
    · obtain rfl : x = (p, key) := by simpa using hx
      simp [modify]
  · obtain ⟨chain, hc⟩ := h.chains
    have htail : tbl.tail ∈ l.map Prod.fst := List.mem_of_getLast? h.tail
    have hne : p ≠ tbl.tail := fun he => hp (he ▸ htail)
    obtain ⟨first, hfirst⟩ := h.exists_head
    -- an element of the list keeps its handle, except for the link of the last one
    have hkeep (q : P) (hq : q ∈ l.map Prod.fst) {f g k : Handle P → Handle P} :
        modify (modify (modify (modify c.hh p f) tbl.tail
          fun h => { h with next := some p }) p g) p k q =
          { c.hh q with next := if tbl.tail = q then some p else (c.hh q).next } := by
      have hq : q ≠ p := fun he => hp (he ▸ hq)
      rw [modify_ne hq, modify_ne hq, modify_next, modify_ne hq]
    rw [appendItem, hfirst, h.table]
    refine ⟨_, _, _, rfl, ?_, h.order.concat h.nodup ⟨?_, ?_⟩ (fun q hq => ?_) (fun q hq => ?_),
      ⟨chain, hc.congr fun q hq => ?_⟩, h.numBuckets, congrArg (· + 1) h.numItems,
      rfl, fun x hx => ?_⟩
    · rw [← hfirst, h.head]
      cases l with
      | nil => exact absurd h.tail (by simp)
      | cons x l => rfl
    · simp [modify, hne]
    · simp [modify, h.tail]
    · rw [hkeep q hq]
    · rw [hkeep q hq, h.tail]
      simp
    · rw [hkeep q hq]
      exact ⟨rfl, rfl, rfl⟩
    · rcases List.mem_append.mp hx with hx | hx
      · rw [hkeep x.1 (List.mem_map_of_mem hx)]
        exact h.filed x hx
      · obtain rfl : x = (p, key) := by simpa using hx
        simp [modify, hne]

/-- `HASH_ADD_KEYPTR` of an element that is not in the container. -/
theorem Represents.add (h : Represents hashFcn c l) (key : Key) (hp : p ∉ l.map Prod.fst)
    (hr : l.length + 1 ≤ rounds) :
    ∃ c', hashAddKeyptr hashFcn rounds c key p = some c' ∧
    Represents hashFcn c' (l ++ [(p, key)]) := by
  obtain ⟨head, tbl, hh, happend, h'⟩ := h.append key hp
  obtain ⟨chain, hc⟩ := h'.chains
  have hi : (l.map Prod.fst ++ [p]).Nodup := by
    refine List.nodup_append.mpr ⟨?_, List.nodup_singleton p, fun q hq r hr he => ?_⟩
    · rcases h with ⟨rfl, -⟩ | ⟨tbl, h⟩
      · exact List.nodup_nil
      · exact h.nodup
    · rw [List.mem_singleton] at hr
      exact hp (hr ▸ he ▸ hq)
  have hr' : (l.map Prod.fst).length + 1 ≤ rounds := by simpa using hr
  have hmap : (l ++ [(p, key)]).map Prod.fst = l.map Prod.fst ++ [p] := by simp
  obtain ⟨tbl', hh', chain', he, hsame, hc', hn, hnum, htail⟩ :=
    hashAddToBkt_chains hc h'.numBuckets hi hr'
  rw [(h'.filed (p, key) (by simp)).2] at he
  refine ⟨⟨some head, some tbl', hh'⟩, ?_,
    .inr ⟨tbl', rfl, ?_, ?_, ?_, ?_, ⟨chain', ?_⟩, hn, ?_, fun x hx => ?_⟩⟩
  · simp [hashAddKeyptr, happend, he]
  · rw [hmap, h'.head]
  · rw [hmap, htail, h'.tail, List.getLast?_concat]
  · rw [hmap]
    exact h'.order.congr (fun q _ => hsame.next q) (fun q _ => hsame.prev q)
  · rw [hmap]
    exact hi
  · rw [hmap]
    exact hc'
  · rw [hnum, h'.numItems, List.length_append, List.length_singleton]
  · rw [hsame.key, hsame.hashv]
    exact h'.filed x hx

/-! ### Deletion -/

def remove (l : Items P) (p : P) : Items P := l.filter fun x => x.1 ≠ p

theorem remove_append {l₁ l₂ : Items P} {k : Key} (h : ((l₁ ++ (p, k) :: l₂).map Prod.fst).Nodup) :
    remove (l₁ ++ (p, k) :: l₂) p = l₁ ++ l₂ := by
  rw [List.map_append, List.map_cons] at h
  obtain ⟨-, h₂, hdisjoint⟩ := List.nodup_append.mp h
  have hne₁ : l₁.filter (fun x => x.1 ≠ p) = l₁ := List.filter_eq_self.mpr fun x hx =>
    decide_eq_true fun he => hdisjoint x.1 (List.mem_map_of_mem hx) p List.mem_cons_self he
  have hne₂ : l₂.filter (fun x => x.1 ≠ p) = l₂ := List.filter_eq_self.mpr fun x hx =>
    decide_eq_true fun he => (List.nodup_cons.mp h₂).1 (List.mem_map.mpr ⟨x, hx, he⟩)
  rw [remove, List.filter_append, List.filter_cons_of_neg (by simp), hne₁, hne₂]

/-- The new end of the order is found where the last element is taken out. -/
theorem tail_of_delete {l₁ l₂ : List P} {tail : P} (hl : (l₁ ++ p :: l₂).Nodup)
    (ht : (l₁ ++ p :: l₂).getLast? = some tail) (hne : l₁ ++ l₂ ≠ []) :
    ∃ t, (if p = tail then l₁.getLast? else some tail) = some t ∧ (l₁ ++ l₂).getLast? = some t := by
  cases l₂ with
  | nil =>
    obtain rfl : p = tail := by simpa using ht
    rw [List.append_nil] at hne ⊢
    rw [if_pos rfl]
    exact ⟨l₁.getLast hne, List.getLast?_eq_some_getLast hne, List.getLast?_eq_some_getLast hne⟩
  | cons q l₂ =>
    have hlast : (q :: l₂).getLast? = some tail := by
      simpa [List.getLast?_append, List.getLast?_cons_cons] using ht
    have hp : p ≠ tail := by
      rintro rfl
      exact (List.nodup_cons.mp (List.nodup_append.mp hl).2.1).1 (List.mem_of_getLast? hlast)
    refine ⟨tail, if_neg hp, ?_⟩
    rw [List.getLast?_append, hlast]
    rfl

/-- `HASH_DELETE` of an element of the container. -/
theorem Represents.delete (h : Represents hashFcn c l) (hp : p ∈ l.map Prod.fst) :
    ∃ c', hashDelete c p = some c' ∧ Represents hashFcn c' (remove l p) := by
  rcases h with ⟨rfl, -⟩ | ⟨tbl, h⟩
  · simp at hp
  obtain ⟨⟨p, k⟩, hx, rfl⟩ := List.mem_map.mp hp
  obtain ⟨l₁, l₂, rfl⟩ := List.append_of_mem hx
  have hmap : (l₁ ++ (p, k) :: l₂).map Prod.fst = l₁.map Prod.fst ++ p :: l₂.map Prod.fst := by simp
  have hn := hmap ▸ h.nodup
  have horder := hmap ▸ h.order
  obtain ⟨hprev, hnext⟩ := horder.node
  rw [Option.or_none] at hprev hnext
  rw [remove_append h.nodup, hashDelete, h.table]
  by_cases hlast : l₁ ++ l₂ = []
  · obtain ⟨rfl, rfl⟩ := List.append_eq_nil_iff.mp hlast
    exact ⟨{ c with head := none, tbl := none }, by simp [hprev, hnext], .inl ⟨rfl, rfl, rfl⟩⟩
  have hother : ¬((c.hh p).prev = none ∧ (c.hh p).next = none) := by
    rw [hprev, hnext]
    simpa using hlast
  have hne : l₁.map Prod.fst ++ l₂.map Prod.fst ≠ [] := by simpa using hlast
  obtain ⟨tail, htail, hend⟩ := tail_of_delete hn (hmap ▸ h.tail) hne
  have hend' : ((l₁ ++ l₂).map Prod.fst).getLast? = some tail := by rw [List.map_append, hend]
  obtain ⟨-, hrest⟩ := relink_links orderLinks horder hn
  have hkey := relink_field orderLinks Handle.key (fun _ _ => rfl) (fun _ _ => rfl) c.hh p
  have hhashv := relink_field orderLinks Handle.hashv (fun _ _ => rfl) (fun _ _ => rfl) c.hh p
  have hhhNext := relink_field orderLinks Handle.hhNext (fun _ _ => rfl) (fun _ _ => rfl) c.hh p
  have hhhPrev := relink_field orderLinks Handle.hhPrev (fun _ _ => rfl) (fun _ _ => rfl) c.hh p
  obtain ⟨chain, hc⟩ := h.chains
  have hbuckets : ({ tbl with tail } : Table P).buckets = tbl.buckets := rfl
  have hc' := (hc.congr fun q _ => ⟨hhhNext q, hhhPrev q, hhashv q⟩).delete h.nodup hp hbuckets rfl
  have hsame := relink_bucket_sameOrder (relink orderLinks c.hh p) p
  have herase : ((l₁ ++ (p, k) :: l₂).map Prod.fst).erase p = (l₁ ++ l₂).map Prod.fst := by
    have hpl : p ∉ l₁.map Prod.fst :=
      fun he => (List.nodup_append.mp hn).2.2 p he p List.mem_cons_self rfl
    rw [hmap, List.erase_append_right _ hpl, List.erase_cons_head, List.map_append]
  rw [herase] at hc'
  refine ⟨unlinkItem c tbl tail p, ?_,
    .inr ⟨_, rfl, ?_, hend', ?_, ?_, ⟨_, hc'⟩, h.numBuckets, ?_, fun x hx => ?_⟩⟩
  · rw [Option.bind_some, if_neg hother, hprev, htail, Option.map_some]
  · change (if (c.hh p).prev = none then (c.hh p).next else c.head) = _
    rw [hprev, hnext, h.head, hmap, List.map_append]
    cases l₁ with
    | nil => simp
    | cons y l₁ => simp
  · exact (List.map_append ▸ hrest).congr (fun q _ => hsame.next q) (fun q _ => hsame.prev q)
  · exact List.map_append ▸ hn.sublist ((List.sublist_cons_self p _).append_left _)
  · change tbl.numItems - 1 = _
    rw [h.numItems]
    simp
  · have hx' : x ∈ l₁ ++ (p, k) :: l₂ := by
      rcases List.mem_append.mp hx with hx | hx <;> simp [hx]
    change (relink bucketLinks (relink orderLinks c.hh p) p x.1).key = _ ∧
      (relink bucketLinks (relink orderLinks c.hh p) p x.1).hashv = _
    rw [hsame.key, hsame.hashv, hkey, hhashv]
    exact h.filed x hx'

/-! ### Whole runs -/

inductive Operation (P : Type)
  | find (key : Key)
  | add (p : P) (key : Key)
  | delete (p : P)

/-- A caller adds what is new under a key that is new, and deletes what it has added. -/
def Allowed (l : Items P) : Operation P → Prop
  | .find _ => True
  | .add p key => p ∉ l.map Prod.fst ∧ key ∉ l.map Prod.snd
  | .delete p => p ∈ l.map Prod.fst

/-- What an operation does to the list. -/
def apply (l : Items P) : Operation P → Items P
  | .find _ => l
  | .add p key => l ++ [(p, key)]
  | .delete p => remove l p

def answer (l : Items P) : Operation P → Option P
  | .find key => lookUp l key
  | _ => none

def AllAllowed (l : Items P) : List (Operation P) → Prop
  | [] => True
  | op :: ops => Allowed l op ∧ AllAllowed (apply l op) ops

instance decidableAllowed (l : Items P) (op : Operation P) : Decidable (Allowed l op) := by
  cases op <;> unfold Allowed <;> infer_instance

instance decidableAllAllowed : (l : Items P) → (ops : List (Operation P)) →
    Decidable (AllAllowed l ops)
  | _, [] => .isTrue trivial
  | l, op :: ops =>
    have := decidableAllAllowed (apply l op) ops
    inferInstanceAs (Decidable (Allowed l op ∧ AllAllowed (apply l op) ops))

def answers (l : Items P) : List (Operation P) → List (Option P)
  | [] => []
  | op :: ops => answer l op :: answers (apply l op) ops

variable (hashFcn rounds) in
/-- An operation of the container with its answer. -/
def perform (c : Container P) : Operation P → Option (Option P × Container P)
  | .find key => (hashFind hashFcn rounds c key).map (·, c)
  | .add p key => (hashAddKeyptr hashFcn rounds c key p).map (none, ·)
  | .delete p => (hashDelete c p).map (none, ·)

variable (hashFcn rounds) in
def performAll (c : Container P) : List (Operation P) → Option (List (Option P) × Container P)
  | [] => some ([], c)
  | op :: ops => do
    let (a, c) ← perform hashFcn rounds c op
    let (as, c) ← performAll c ops
    return (a :: as, c)

private theorem length_apply (l : Items P) (op : Operation P) :
    (apply l op).length ≤ l.length + 1 := by
  cases op with
  | find key => exact Nat.le_succ _
  | add p key => simp [apply]
  | delete p => exact (List.length_filter_le ..).trans (Nat.le_succ _)

theorem nodup_apply {op : Operation P} (hk : (l.map Prod.snd).Nodup) (ha : Allowed l op) :
    ((apply l op).map Prod.snd).Nodup := by
  cases op with
  | find key => exact hk
  | add p key =>
    rw [apply, List.map_append, List.nodup_append]
    refine ⟨hk, List.nodup_singleton _, fun k hk' k' hk'' he => ha.2 ?_⟩
    obtain rfl : k' = key := by simpa using hk''
    exact he ▸ hk'
  | delete p => exact hk.sublist (List.filter_sublist.map _)

/-- One operation answers as the list does and leaves a container for the new list. -/
theorem Represents.perform (h : Represents hashFcn c l) (hk : (l.map Prod.snd).Nodup)
    {op : Operation P} (ha : Allowed l op) (hr : l.length + 1 ≤ rounds) :
    ∃ c', perform hashFcn rounds c op = some (answer l op, c') ∧
    Represents hashFcn c' (apply l op) := by
  cases op with
  | find key =>
    refine ⟨c, ?_, h⟩
    rw [HashContainers.perform, h.find hk (Nat.le_of_succ_le hr)]
    rfl
  | add p key =>
    obtain ⟨c', he, h'⟩ := h.add key ha.1 hr
    exact ⟨c', by rw [HashContainers.perform, he]; rfl, h'⟩
  | delete p =>
    obtain ⟨c', he, h'⟩ := h.delete ha
    exact ⟨c', by rw [HashContainers.perform, he]; rfl, h'⟩

theorem Represents.performAll (h : Represents hashFcn c l) (hk : (l.map Prod.snd).Nodup)
    {ops : List (Operation P)} (ha : AllAllowed l ops) (hr : l.length + ops.length ≤ rounds) :
    ∃ c', performAll hashFcn rounds c ops = some (answers l ops, c') ∧
    Represents hashFcn c' (ops.foldl apply l) ∧
      (ops.foldl apply l).length ≤ l.length + ops.length := by
  induction ops generalizing c l with
  | nil => exact ⟨c, rfl, h, Nat.le_refl _⟩
  | cons op ops ih =>
    rw [List.length_cons] at hr ⊢
    have hl := length_apply l op
    obtain ⟨c₁, he₁, h₁⟩ := h.perform hk ha.1 (show l.length + 1 ≤ rounds by omega)
    obtain ⟨c₂, he₂, h₂, hl₂⟩ := ih h₁ (nodup_apply hk ha.1) ha.2 (by omega)
    refine ⟨c₂, ?_, h₂, by rw [List.foldl_cons]; omega⟩
    rw [HashContainers.performAll, he₁]
    change (HashContainers.performAll hashFcn rounds c₁ ops).bind _ = _
    rw [he₂]
    rfl

/-- Whatever the hash function is, every run of searches, insertions and deletions ends and gives
the answers of the map. -/
theorem containerRun_answers (hh : P → Handle P) {ops : List (Operation P)} (ha : AllAllowed [] ops)
    (hr : ops.length ≤ rounds) :
    (performAll hashFcn rounds ⟨none, none, hh⟩ ops).map Prod.fst = some (answers [] ops) := by
  obtain ⟨c, he, -⟩ :=
    (empty_represents hashFcn hh).performAll List.nodup_nil ha (by simpa using hr)
  rw [he]
  rfl

private theorem byte_short (byte : BitVec 8) : [byte].length < 4294967296 := by
  rw [List.length_singleton]
  omega

def zeroHandle : Handle P := ⟨none, none, none, none, ⟨[], Nat.zero_lt_succ _⟩, 0⟩

/-- Eleven elements under different keys, then one of them is searched, deleted and searched
again. -/
def elevenItems : List (Operation ℕ) :=
  ((List.range 11).map fun i => .add i ⟨[BitVec.ofNat 8 i], byte_short _⟩) ++
    [.find ⟨[3], byte_short _⟩, .delete 3, .find ⟨[3], byte_short _⟩]

/-- Where all keys collide the tenth element expands the buckets, in vain. -/
theorem containerRun_answers_colliding :
    answers [] elevenItems = List.replicate 11 none ++ [some 3, none, none] ∧
      (performAll (fun _ => 0) 14 ⟨none, none, fun _ => zeroHandle⟩ elevenItems).map Prod.fst =
        some (answers [] elevenItems) :=
  ⟨by decide, containerRun_answers _ (by decide) (by decide)⟩

/-! ### `HASH_FSCK` -/

theorem fsckChain_eq (h : Links (fun p => (hh p).hhNext) (fun p => (hh p).hhPrev) before items none)
    (hr : items.length ≤ rounds) (count : ℕ) :
    fsckChain hh rounds items.head? before count = some ([], count + items.length) := by
  induction items generalizing before rounds count with
  | nil => cases rounds <;> rfl
  | cons p items ih =>
    obtain ⟨rounds, rfl⟩ : ∃ r, rounds = r + 1 := ⟨rounds - 1, by simp at hr; omega⟩
    have hnext : (hh p).hhNext = items.head? := by simpa using h.2.1
    rw [List.head?_cons, fsckChain, hnext, ih h.2.2 (by simpa using hr)]
    simp [oopsIf, show (hh p).hhPrev = before from h.1]
    omega

theorem fsckItems_eq (h : Links (fun p => (hh p).next) (fun p => (hh p).prev) before items none)
    (hr : items.length ≤ rounds) (count : ℕ) :
    fsckItems hh rounds items.head? before count = some ([], count + items.length) := by
  induction items generalizing before rounds count with
  | nil => cases rounds <;> rfl
  | cons p items ih =>
    obtain ⟨rounds, rfl⟩ : ∃ r, rounds = r + 1 := ⟨rounds - 1, by simp at hr; omega⟩
    have hnext : (hh p).next = items.head? := by simpa using h.2.1
    rw [List.head?_cons, fsckItems, hnext, ih h.2.2 (by simpa using hr)]
    simp [oopsIf, show (hh p).prev = before from h.1]
    omega

theorem fsckBuckets_eq (h : Chains tbl.buckets hh tbl.numBuckets items chain)
    (hr : ∀ b, (chain b).length ≤ rounds) (bkts : List ℕ) (count : ℕ) :
    fsckBuckets rounds tbl hh bkts count = some ([], count + (bkts.flatMap chain).length) := by
  induction bkts generalizing count with
  | nil => rfl
  | cons b bkts ih =>
    rw [fsckBuckets, h.first, fsckChain_eq (h.linked b) (hr b)]
    simp only [Option.bind_eq_bind, Option.bind_some, ih]
    simp [oopsIf, h.count]
    omega

theorem Represents.fsck (h : Represents hashFcn c l) (hr : l.length ≤ rounds) :
    hashFsck rounds c = some [] := by
  rcases h with ⟨rfl, hhead, -⟩ | ⟨tbl, h⟩
  · rw [hashFsck, hhead]
  · obtain ⟨chain, hc⟩ := h.chains
    obtain ⟨first, hfirst⟩ := h.exists_head
    have hlen : (l.map Prod.fst).length ≤ rounds := by simpa using hr
    have hr' : ∀ b, (chain b).length ≤ rounds := fun b =>
      ((hc.perm b).length_eq.trans_le (List.length_filter_le ..)).trans hlen
    have hall : ((List.range tbl.numBuckets).flatMap chain).length = l.length := by
      rw [(hc.flatMap_perm h.numBuckets).length_eq, List.length_map]
    have horder := fsckItems_eq h.order hlen 0
    rw [← h.head, hfirst] at horder
    rw [hashFsck, hfirst, h.table]
    simp [fsckBuckets_eq hc hr', horder, hall, h.numItems, oopsIf]

/-- The integrity check of the container, made after any run, finds nothing. -/
theorem containerRun_fsck (hh : P → Handle P) {ops : List (Operation P)} (ha : AllAllowed [] ops)
    (hr : ops.length ≤ rounds) :
    ∃ as c, performAll hashFcn rounds ⟨none, none, hh⟩ ops = some (as, c) ∧
    hashFsck rounds c = some [] := by
  obtain ⟨c, he, h, hl⟩ :=
    (empty_represents hashFcn hh).performAll List.nodup_nil ha (by simpa using hr)
  exact ⟨_, c, he, h.fsck (hl.trans (by simpa using hr))⟩

theorem containerRun_fsck_eleven :
    ∃ as c, performAll hashJen 14 ⟨none, none, fun _ => zeroHandle⟩ elevenItems = some (as, c) ∧
    hashFsck 14 c = some [] :=
  containerRun_fsck _ (by decide) (by decide)

/-! ### `HASH_ITER` -/

theorem iterDelete_eq (freed : P → Handle P) (h : Represents hashFcn c l)
    (hn : (l.map Prod.fst).Nodup) (hr : l.length ≤ rounds) :
    ∃ c', iterDelete freed rounds (l.map Prod.fst).head? (l.map Prod.fst).tail.head? c =
      some (l.map Prod.fst, c') ∧
      c'.head = none ∧ c'.tbl = none := by
  induction l generalizing c rounds with
  | nil =>
    rcases h with ⟨-, hhead, htbl⟩ | ⟨tbl, h⟩
    · exact ⟨c, by cases rounds <;> rfl, hhead, htbl⟩
    · exact absurd h.tail (by simp)
  | cons x l ih =>
    obtain ⟨rounds, rfl⟩ : ∃ r, rounds = r + 1 := ⟨rounds - 1, by simp at hr; omega⟩
    obtain ⟨hx, hn'⟩ := List.nodup_cons.mp (List.map_cons ▸ hn)
    have hsplit : remove ([] ++ (x.1, x.2) :: l) x.1 = [] ++ l := remove_append hn
    have hremove : remove (x :: l) x.1 = l := hsplit
    obtain ⟨c₁, he₁, h₁⟩ := h.delete (show x.1 ∈ (x :: l).map Prod.fst by simp)
    rw [hremove] at h₁
    have h₂ : Represents hashFcn { c₁ with hh := Function.update c₁.hh x.1 (freed x.1) } l :=
      h₁.congr rfl rfl fun q hq => Function.update_of_ne (fun he : q = x.1 => hx (he ▸ hq)) ..
    obtain ⟨c', he', hend⟩ := ih h₂ hn' (by simpa using hr)
    refine ⟨c', ?_, hend⟩
    obtain ⟨hfirst, hsecond⟩ := h₂.second
    rw [hfirst] at hsecond
    simp only [List.map_cons, List.head?_cons, List.tail_cons, iterDelete, he₁, hsecond, he',
      Option.bind_eq_bind, Option.bind_some, Option.pure_def]

/-- The loop that deletes and frees, started after any run, frees the elements in the order of
insertion, each of them once, and leaves neither an element nor a table. Nothing depends on what a
freed element holds. -/
theorem containerRun_iterDelete (hh freed : P → Handle P) {ops : List (Operation P)}
    (ha : AllAllowed [] ops) (hr : ops.length ≤ rounds) :
    ∃ as c c', performAll hashFcn rounds ⟨none, none, hh⟩ ops = some (as, c) ∧
      hashIterDelete rounds freed c = some ((ops.foldl apply []).map Prod.fst, c') ∧
      c'.head = none ∧ c'.tbl = none := by
  obtain ⟨c, he, h, hl⟩ :=
    (empty_represents hashFcn hh).performAll List.nodup_nil ha (by simpa using hr)
  have hn : ((ops.foldl apply []).map Prod.fst).Nodup := by
    rcases h with ⟨hnil, -⟩ | ⟨tbl, h⟩
    · rw [hnil]
      exact List.nodup_nil
    · exact h.nodup
  obtain ⟨c', he', hend⟩ := iterDelete_eq freed h hn (hl.trans (by simpa using hr))
  obtain ⟨hfirst, hsecond⟩ := h.second
  refine ⟨_, c, c', he, ?_, hend⟩
  rw [hashIterDelete, hsecond, hfirst]
  exact he'

theorem containerRun_iterDelete_eleven :
    (elevenItems.foldl apply []).map Prod.fst = [0, 1, 2, 4, 5, 6, 7, 8, 9, 10] ∧
      ∃ as c c', performAll hashJen 14 ⟨none, none, fun _ => zeroHandle⟩ elevenItems =
        some (as, c) ∧
        hashIterDelete 14 (fun _ => zeroHandle) c =
          some ((elevenItems.foldl apply []).map Prod.fst, c') ∧
        c'.head = none ∧ c'.tbl = none :=
  ⟨by decide, containerRun_iterDelete _ _ (by decide) (by decide)⟩

end Ps4Sdk.HashContainers
