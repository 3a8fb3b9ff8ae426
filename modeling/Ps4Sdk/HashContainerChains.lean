import Ps4Sdk.HashContainers
import Mathlib.Data.List.Perm.Basic
import Mathlib.Algebra.Order.Ring.Nat

/-!
# The chains of the buckets

The bucket of an element is given by its hash value and the number of buckets. Each bucket
links the elements that belong to it, in some order. A new first element, an element taken
out and an expansion keep this, whatever the hash values are.
-/

namespace Ps4Sdk.HashContainers
open DoublyLinkedLists

variable {P : Type}

/-! ### Stores to handles -/

structure SameOrder (hh hh' : P → Handle P) : Prop where
  prev : ∀ p, (hh' p).prev = (hh p).prev
  next : ∀ p, (hh' p).next = (hh p).next
  key : ∀ p, (hh' p).key = (hh p).key
  hashv : ∀ p, (hh' p).hashv = (hh p).hashv

theorem SameOrder.refl (hh : P → Handle P) : SameOrder hh hh :=
  ⟨fun _ => rfl, fun _ => rfl, fun _ => rfl, fun _ => rfl⟩

theorem SameOrder.trans {hh hh' hh'' : P → Handle P} (h : SameOrder hh hh')
    (h' : SameOrder hh' hh'') :
    SameOrder hh hh'' where
  prev p := (h'.prev p).trans (h.prev p)
  next p := (h'.next p).trans (h.next p)
  key p := (h'.key p).trans (h.key p)
  hashv p := (h'.hashv p).trans (h.hashv p)

section

variable [DecidableEq P]

theorem modify_self (hh : P → Handle P) (p : P) (f : Handle P → Handle P) :
    modify hh p f p = f (hh p) := by
  simp [modify]

theorem modify_ne {p q : P} (h : q ≠ p) (hh : P → Handle P) (f : Handle P → Handle P) :
    modify hh p f q = hh q := by
  simp [modify, h]

private theorem modifyIf_ne {p : Option P} {q : P} (h : p ≠ some q) (hh : P → Handle P)
    (f : Handle P → Handle P) :
    modifyIf hh p f q = hh q := by
  cases p with
  | none => rfl
  | some p => exact modify_ne (fun he => h (congrArg some he.symm)) hh f

private theorem modify_field {α : Type*} (g : Handle P → α) {f : Handle P → Handle P}
    (hf : ∀ h, g (f h) = g h) (hh : P → Handle P) (p q : P) : g (modify hh p f q) = g (hh q) := by
  by_cases he : q = p
  · rw [he, modify_self, hf]
  · rw [modify_ne he]

private theorem modifyIf_field {α : Type*} (g : Handle P → α) {f : Handle P → Handle P}
    (hf : ∀ h, g (f h) = g h) (hh : P → Handle P) (p : Option P) (q : P) :
    g (modifyIf hh p f q) = g (hh q) := by
  cases p with
  | none => rfl
  | some p => exact modify_field g hf hh p q

private theorem modifyIf_set {α : Type*} (g : Handle P → α) {f : Handle P → Handle P} {v : α}
    (hf : ∀ h, g (f h) = v) (hh : P → Handle P) (p : Option P) (q : P) :
    g (modifyIf hh p f q) = if p = some q then v else g (hh q) := by
  split_ifs with h
  · subst h
    rw [modifyIf, modify_self, hf]
  · rw [modifyIf_ne h]

private theorem sameOrder_modify (hh : P → Handle P) (p : Option P) {f : Handle P → Handle P}
    (hf : ∀ h, (f h).prev = h.prev ∧ (f h).next = h.next ∧ (f h).key = h.key ∧
      (f h).hashv = h.hashv) :
    SameOrder hh (modifyIf hh p f) where
  prev := modifyIf_field _ (fun h => (hf h).1) hh p
  next := modifyIf_field _ (fun h => (hf h).2.1) hh p
  key := modifyIf_field _ (fun h => (hf h).2.2.1) hh p
  hashv := modifyIf_field _ (fun h => (hf h).2.2.2) hh p

theorem linkFirst_sameOrder (hh : P → Handle P) (first : Option P) (p : P) :
    SameOrder hh (linkFirst hh first p) := by
  have h₁ : SameOrder hh (modifyIf hh (some p) fun h =>
    { h with hhPrev := none, hhNext := first }) :=
    sameOrder_modify hh (some p) fun _ => ⟨rfl, rfl, rfl, rfl⟩
  exact h₁.trans (sameOrder_modify _ first fun _ => ⟨rfl, rfl, rfl, rfl⟩)

variable {hh : P → Handle P} {first : Option P} {p q : P}

private theorem linkFirst_hhNext (hq : q ≠ p) :
    (linkFirst hh first p q).hhNext = (hh q).hhNext := by
  have hsecond := modifyIf_field Handle.hhNext
    (f := fun h => { h with hhPrev := some p }) (fun _ => rfl)
    (modify hh p fun h => { h with hhPrev := none, hhNext := first }) first q
  rw [linkFirst, hsecond, modify_ne hq]

private theorem linkFirst_hhPrev (hq : q ≠ p) :
    (linkFirst hh first p q).hhPrev = if first = some q then some p else (hh q).hhPrev := by
  have hsecond := modifyIf_set Handle.hhPrev
    (f := fun h => { h with hhPrev := some p }) (fun _ => rfl)
    (modify hh p fun h => { h with hhPrev := none, hhNext := first }) first q
  rw [linkFirst, hsecond, modify_ne hq]

private theorem linkFirst_self (hf : first ≠ some p) :
    (linkFirst hh first p p).hhNext = first ∧ (linkFirst hh first p p).hhPrev = none := by
  rw [linkFirst, modifyIf_ne hf, modify_self]
  exact ⟨rfl, rfl⟩

private theorem linkFirst_ne (hp : q ≠ p) (hq : first ≠ some q) :
    linkFirst hh first p q = hh q := by
  rw [linkFirst, modifyIf_ne hq, modify_ne hp]

end

/-! ### Buckets and their elements -/

private theorem hashToBkt_lt {num : ℕ} (h : 0 < num) (hashv : BitVec 32) :
    hashToBkt hashv num < num := by
  have := Nat.and_le_right (n := hashv.toNat) (m := num - 1)
  rw [hashToBkt]
  omega

def inBucket (hh : P → Handle P) (num : ℕ) (items : List P) (bkt : ℕ) : List P :=
  items.filter fun p => hashToBkt (hh p).hashv num = bkt

structure Chains (buckets : ℕ → Bucket P) (hh : P → Handle P) (num : ℕ) (items : List P)
    (chain : ℕ → List P) :
    Prop where
  linked : ∀ b, Links (fun p => (hh p).hhNext) (fun p => (hh p).hhPrev) none (chain b) none
  first : ∀ b, (buckets b).hhHead = (chain b).head?
  count : ∀ b, (buckets b).count = (chain b).length
  perm : ∀ b, (chain b).Perm (inBucket hh num items b)

variable {buckets : ℕ → Bucket P} {hh hh' : P → Handle P} {num : ℕ} {items items' : List P}
  {chain : ℕ → List P}
variable {p q : P} {b : ℕ}

private theorem SameOrder.inBucket (h : SameOrder hh hh') (num : ℕ) (items : List P) (b : ℕ) :
    inBucket hh' num items b = inBucket hh num items b :=
  List.filter_congr fun p _ => by rw [h.hashv]

private theorem mem_inBucket : p ∈ inBucket hh num items b ↔ p ∈ items ∧
    hashToBkt (hh p).hashv num = b := by
  simp [inBucket]

theorem Chains.mem (h : Chains buckets hh num items chain) :
    p ∈ chain b ↔ p ∈ items ∧ hashToBkt (hh p).hashv num = b :=
  (h.perm b).mem_iff.trans mem_inBucket

theorem Chains.nodup (h : Chains buckets hh num items chain) (hi : items.Nodup) (b : ℕ) :
    (chain b).Nodup :=
  (h.perm b).nodup_iff.mpr (hi.filter _)

private theorem Chains.of_perm (h : Chains buckets hh num items chain) (hp : items.Perm items') :
    Chains buckets hh num items' chain where
  linked := h.linked
  first := h.first
  count := h.count
  perm b := (h.perm b).trans (hp.filter _)

theorem Chains.congr (h : Chains buckets hh num items chain)
    (hl : ∀ p ∈ items, (hh' p).hhNext = (hh p).hhNext ∧ (hh' p).hhPrev = (hh p).hhPrev ∧
      (hh' p).hashv = (hh p).hashv) :
    Chains buckets hh' num items chain where
  linked b := (h.linked b).congr (fun p hp => (hl p (h.mem.mp hp).1).1)
    (fun p hp => (hl p (h.mem.mp hp).1).2.1)
  first := h.first
  count := h.count
  perm b := by
    have he : inBucket hh' num items b = inBucket hh num items b :=
      List.filter_congr fun p hp => by rw [(hl p hp).2.2]
    rw [he]
    exact h.perm b

theorem chains_zero (hh : P → Handle P) (num : ℕ) : Chains zeroBuckets hh num [] (fun _ => []) where
  linked _ := trivial
  first _ := rfl
  count _ := rfl
  perm _ := List.Perm.refl _

/-- The elements that belong to the buckets up to a number. -/
theorem flatMap_inBucket (hh : P → Handle P) (num : ℕ) (items : List P) (n : ℕ) :
    ((List.range n).flatMap (inBucket hh num items)).Perm
    (items.filter fun p => hashToBkt (hh p).hashv num < n) := by
  induction n with
  | zero => simp
  | succ n ih =>
    rw [List.range_succ, List.flatMap_append, List.flatMap_singleton]
    have hsplit := List.filter_append_perm (fun p => hashToBkt (hh p).hashv num < n)
      (items.filter fun p => hashToBkt (hh p).hashv num < n + 1)
    rw [List.filter_filter, List.filter_filter] at hsplit
    refine (ih.append_right _).trans (List.Perm.trans (List.Perm.of_eq ?_) hsplit)
    rw [inBucket]
    congr 1 <;> refine List.filter_congr fun p _ => ?_
    · rw [← Bool.decide_and]
      exact decide_eq_decide.mpr (by omega)
    · rw [← decide_not, ← Bool.decide_and]
      exact decide_eq_decide.mpr (by omega)

theorem Chains.flatMap_perm (h : Chains buckets hh num items chain) (hn : 0 < num) :
    ((List.range num).flatMap chain).Perm items := by
  have hall : items.filter (fun p => hashToBkt (hh p).hashv num < num) = items :=
    List.filter_eq_self.mpr fun p _ => decide_eq_true (hashToBkt_lt hn _)
  have hi := flatMap_inBucket hh num items num
  rw [hall] at hi
  exact (List.Perm.flatMap_left _ fun b _ => h.perm b).trans hi

variable [DecidableEq P]

theorem Chains.push (h : Chains buckets hh num items chain) (hi : items.Nodup) (hp : p ∉ items)
    (hb : hashToBkt (hh p).hashv num = b) (mult : ℕ) :
    Chains (Function.update buckets b ⟨some p, (buckets b).count + 1, mult⟩)
      (linkFirst hh (buckets b).hhHead p) num
      (items ++ [p]) (Function.update chain b (p :: chain b)) := by
  have hsame := linkFirst_sameOrder hh (buckets b).hhHead p
  have hne {b' : ℕ} {q : P} (hq : q ∈ chain b') : q ≠ p := fun he => hp (he ▸ (h.mem.mp hq).1)
  refine ⟨fun b' => ?_, fun b' => ?_, fun b' => ?_, fun b' => ?_⟩
  · by_cases he : b' = b
    · subst he
      rw [Function.update_self]
      have hf : (buckets b').hhHead ≠ some p :=
        fun hf => hne (List.mem_of_head? ((h.first b').symm.trans hf)) rfl
      have ⟨hnext, hprev⟩ : (linkFirst hh _ p p).hhNext = _ ∧ (linkFirst hh _ p p).hhPrev = none :=
        linkFirst_self hf
      refine (h.linked b').push (h.nodup hi b') ⟨hnext.trans (h.first b'), hprev⟩
        (fun q hq => ?_) (fun q hq => ?_)
      · exact linkFirst_hhNext (hne hq)
      · rw [linkFirst_hhPrev (hne hq), h.first]
    · rw [Function.update_of_ne he]
      have hkeep : ∀ q ∈ chain b', linkFirst hh (buckets b).hhHead p q = hh q := by
        intro q hq
        refine linkFirst_ne (hne hq) fun hf => he ?_
        have hq' : q ∈ chain b := List.mem_of_head? ((h.first b).symm.trans hf)
        exact (h.mem.mp hq).2.symm.trans (h.mem.mp hq').2
      exact (h.linked b').congr (fun q hq => by rw [hkeep q hq]) (fun q hq => by rw [hkeep q hq])
  · by_cases he : b' = b
    · subst he
      simp
    · rw [Function.update_of_ne he, Function.update_of_ne he, h.first]
  · by_cases he : b' = b
    · subst he
      simp [h.count]
    · rw [Function.update_of_ne he, Function.update_of_ne he, h.count]
  · rw [hsame.inBucket, inBucket, List.filter_append]
    by_cases he : b' = b
    · subst he
      rw [Function.update_self, List.filter_singleton, decide_eq_true hb]
      exact (List.perm_append_singleton p _).symm.trans ((h.perm b').append_right [p])
    · rw [Function.update_of_ne he, List.filter_singleton,
        decide_eq_false (fun h => he (h.symm.trans hb))]
      rw [cond_false, List.append_nil]
      exact h.perm b'

/-! ### An element taken out -/

/-- The two links of one of the orders in which a handle stands. -/
structure LinkFields (P : Type) where
  next : Handle P → Option P
  prev : Handle P → Option P
  setNext : Option P → Handle P → Handle P
  setPrev : Option P → Handle P → Handle P
  next_setNext : ∀ v h, next (setNext v h) = v
  prev_setNext : ∀ v h, prev (setNext v h) = prev h
  next_setPrev : ∀ v h, next (setPrev v h) = next h
  prev_setPrev : ∀ v h, prev (setPrev v h) = v

/-- The order of insertion. -/
def orderLinks : LinkFields P where
  next := Handle.next
  prev := Handle.prev
  setNext next h := { h with next }
  setPrev prev h := { h with prev }
  next_setNext _ _ := rfl
  prev_setNext _ _ := rfl
  next_setPrev _ _ := rfl
  prev_setPrev _ _ := rfl

/-- The order in a bucket. -/
def bucketLinks : LinkFields P where
  next := Handle.hhNext
  prev := Handle.hhPrev
  setNext hhNext h := { h with hhNext }
  setPrev hhPrev h := { h with hhPrev }
  next_setNext _ _ := rfl
  prev_setNext _ _ := rfl
  next_setPrev _ _ := rfl
  prev_setPrev _ _ := rfl

def relink (f : LinkFields P) (hh : P → Handle P) (p : P) : P → Handle P :=
  let hh₁ := modifyIf hh (f.prev (hh p)) (f.setNext (f.next (hh p)))
  modifyIf hh₁ (f.next (hh₁ p)) (f.setPrev (f.prev (hh₁ p)))

theorem relink_field {α : Type*} (f : LinkFields P) (g : Handle P → α)
    (hn : ∀ v h, g (f.setNext v h) = g h) (hp : ∀ v h, g (f.setPrev v h) = g h) (hh : P → Handle P)
    (p q : P) : g (relink f hh p q) = g (hh q) :=
  (modifyIf_field g (hp _) _ _ q).trans (modifyIf_field g (hn _) hh _ q)

section

variable (f : LinkFields P) {l₁ l₂ : List P}
  (h : Links (fun q => f.next (hh q)) (fun q => f.prev (hh q)) none (l₁ ++ p :: l₂) none)
  (hl : (l₁ ++ p :: l₂).Nodup)
include h hl

theorem relink_eq : l₁.getLast? ≠ some p ∧ l₂.head? ≠ some p ∧ relink f hh p =
    modifyIf (modifyIf hh l₁.getLast? (f.setNext l₂.head?)) l₂.head? (f.setPrev l₁.getLast?) := by
  obtain ⟨hprev, hnext⟩ := h.node
  rw [Option.or_none] at hprev hnext
  obtain ⟨-, hl₂, hdisjoint⟩ := List.nodup_append.mp hl
  have hlast : l₁.getLast? ≠ some p :=
    fun he => hdisjoint p (List.mem_of_getLast? he) p List.mem_cons_self rfl
  have hfirst : l₂.head? ≠ some p := fun he => (List.nodup_cons.mp hl₂).1 (List.mem_of_head? he)
  have hstore : modifyIf hh l₁.getLast? (f.setNext l₂.head?) p = hh p := modifyIf_ne hlast ..
  refine ⟨hlast, hfirst, ?_⟩
  simp only [relink, hprev, hnext, hstore]

theorem relink_links : relink f hh p p = hh p ∧
    Links (fun q => f.next (relink f hh p q)) (fun q => f.prev (relink f hh p q)) none
      (l₁ ++ l₂) none := by
  obtain ⟨hlast, hfirst, he⟩ := relink_eq f h hl
  rw [he]
  refine ⟨by rw [modifyIf_ne hfirst, modifyIf_ne hlast],
    h.unlink hl (fun q _ => ?_) (fun q _ => ?_)⟩
  · rw [modifyIf_field f.next (f.next_setPrev _), modifyIf_set f.next (f.next_setNext _)]
  · rw [modifyIf_set f.prev (f.prev_setPrev _), modifyIf_field f.prev (f.prev_setNext _)]

private theorem relink_other (hq : q ∉ l₁ ++ p :: l₂) : relink f hh p q = hh q := by
  obtain ⟨-, -, he⟩ := relink_eq f h hl
  have hlast : l₁.getLast? ≠ some q :=
    fun he => hq (List.mem_append_left _ (List.mem_of_getLast? he))
  have hfirst : l₂.head? ≠ some q := fun he => hq (by simp [List.mem_of_head? he])
  rw [he, modifyIf_ne hfirst, modifyIf_ne hlast]

end

theorem relink_bucket_sameOrder (hh : P → Handle P) (p : P) :
    SameOrder hh (relink bucketLinks hh p) where
  prev := relink_field bucketLinks Handle.prev (fun _ _ => rfl) (fun _ _ => rfl) hh p
  next := relink_field bucketLinks Handle.next (fun _ _ => rfl) (fun _ _ => rfl) hh p
  key := relink_field bucketLinks Handle.key (fun _ _ => rfl) (fun _ _ => rfl) hh p
  hashv := relink_field bucketLinks Handle.hashv (fun _ _ => rfl) (fun _ _ => rfl) hh p

private theorem hashDelInBkt_hh (tbl : Table P) (hh : P → Handle P) (b : ℕ) (p : P) :
    (hashDelInBkt tbl hh b p).2 = relink bucketLinks hh p := rfl

/-- `HASH_DEL_IN_BKT` takes an element out of its bucket. -/
theorem Chains.delete (h : Chains buckets hh num items chain) (hi : items.Nodup) (hp : p ∈ items)
    {tbl : Table P} (ht : tbl.buckets = buckets) (hb : hashToBkt (hh p).hashv num = b) :
    Chains (hashDelInBkt tbl hh b p).1.buckets (hashDelInBkt tbl hh b p).2 num (items.erase p)
      (Function.update chain b ((chain b).erase p)) := by
  subst ht
  have hpb : p ∈ chain b := h.mem.mpr ⟨hp, hb⟩
  obtain ⟨l₁, l₂, hs⟩ := List.append_of_mem hpb
  have hn : (l₁ ++ p :: l₂).Nodup := hs ▸ h.nodup hi b
  have hlinks : Links (fun q => (hh q).hhNext) (fun q => (hh q).hhPrev) none (l₁ ++ p :: l₂) none :=
    hs ▸ h.linked b
  have hpl : p ∉ l₁ := fun he => (List.nodup_append.mp hn).2.2 p he p List.mem_cons_self rfl
  have herase : (chain b).erase p = l₁ ++ l₂ := by
    rw [hs, List.erase_append_right _ hpl, List.erase_cons_head]
  obtain ⟨-, hrest⟩ := relink_links bucketLinks hlinks hn
  have hnext : (hh p).hhNext = l₂.head? := by simpa using hlinks.node.2
  rw [hashDelInBkt_hh]
  refine ⟨fun b' => ?_, fun b' => ?_, fun b' => ?_, fun b' => ?_⟩
  · by_cases he : b' = b
    · subst he
      rw [Function.update_self, herase]
      exact hrest
    · rw [Function.update_of_ne he]
      have hkeep : ∀ q ∈ chain b', relink bucketLinks hh p q = hh q := fun q hq =>
        relink_other bucketLinks hlinks hn fun hm => he
          ((h.mem.mp hq).2.symm.trans (h.mem.mp (hs ▸ hm)).2)
      exact (h.linked b').congr (fun q hq => by rw [hkeep q hq]) (fun q hq => by rw [hkeep q hq])
  · by_cases he : b' = b
    · subst he
      rw [Function.update_self, herase]
      simp only [hashDelInBkt, Function.update_self, h.first, hs, hnext]
      cases l₁ with
      | nil => simp
      | cons r l₁ =>
        have hne : ¬r = p := fun he => hpl (he ▸ List.mem_cons_self)
        simp [hne]
    · rw [Function.update_of_ne he]
      simp [hashDelInBkt, he, h.first]
  · by_cases he : b' = b
    · subst he
      rw [Function.update_self]
      simp [hashDelInBkt, h.count, List.length_erase_of_mem hpb]
    · rw [Function.update_of_ne he]
      simp [hashDelInBkt, he, h.count]
  · rw [(relink_bucket_sameOrder hh p).inBucket]
    have hfilter : inBucket hh num (items.erase p) b' = (inBucket hh num items b').erase p := by
      rw [inBucket, inBucket, hi.erase_eq_filter, (hi.filter _).erase_eq_filter, List.filter_filter,
        List.filter_filter]
      exact List.filter_congr fun q _ => Bool.and_comm _ _
    rw [hfilter]
    by_cases he : b' = b
    · subst he
      rw [Function.update_self]
      exact (h.perm b').erase p
    · have hnot : p ∉ inBucket hh num items b' :=
        fun hm => he ((mem_inBucket.mp hm).2.symm.trans hb)
      rw [Function.update_of_ne he, List.erase_of_not_mem hnot]
      exact h.perm b'

/-! ### Expansion -/

/-- The elements of `moved` are in the new buckets, and the other handles are as they were. -/
structure Moved (hh : P → Handle P) (newNum : ℕ) (moved : List P) (e : Expansion P) : Prop where
  chains : ∃ chain, Chains e.newBuckets e.hh newNum moved chain
  same : SameOrder hh e.hh
  rest : ∀ p ∉ moved, e.hh p = hh p

variable {newNum rounds : ℕ} {moved : List P} {e : Expansion P} {before : Option P} {l : List P}

theorem Moved.item (h : Moved hh newNum moved e) (maxlen : ℕ) (hm : moved.Nodup) (hp : p ∉ moved) :
    Moved hh newNum (moved ++ [p]) (expandItem maxlen newNum e p) := by
  obtain ⟨chain, hc⟩ := h.chains
  refine ⟨⟨_, hc.push hm hp rfl _⟩, h.same.trans (linkFirst_sameOrder ..), fun q hq => ?_⟩
  have hqm : q ∉ moved := fun h => hq (List.mem_append_left _ h)
  have hqp : q ≠ p := fun h => hq (by simp [h])
  refine (linkFirst_ne hqp fun hf => hqm ?_).trans (h.rest q hqm)
  exact (hc.mem.mp (List.mem_of_head? ((hc.first _).symm.trans hf))).1

theorem Moved.along (h : Moved hh newNum moved e) (maxlen : ℕ)
    (hl : Links (fun p => (hh p).hhNext) (fun p => (hh p).hhPrev) before l none)
    (hm : (moved ++ l).Nodup)
    (hr : l.length ≤ rounds) :
    ∃ e', expandChain maxlen newNum rounds l.head? e = some e' ∧
    Moved hh newNum (moved ++ l) e' := by
  induction l generalizing moved e before rounds with
  | nil => exact ⟨e, by cases rounds <;> rfl, by simpa using h⟩
  | cons p l ih =>
    obtain ⟨rounds, rfl⟩ : ∃ r, rounds = r + 1 := ⟨rounds - 1, by simp at hr; omega⟩
    have hp : p ∉ moved := fun hp => (List.nodup_append.mp hm).2.2 p hp p List.mem_cons_self rfl
    have hm' : (moved ++ [p] ++ l).Nodup := by simpa using hm
    obtain ⟨e', he', h'⟩ :=
      ih (h.item maxlen (List.nodup_append.mp hm).1 hp) hl.2.2 hm' (by simpa using hr)
    refine ⟨e', ?_, by simpa using h'⟩
    have hnext : (e.hh p).hhNext = l.head? := by
      rw [h.rest p hp]
      simpa using hl.2.1
    rw [List.head?_cons, expandChain, hnext]
    exact he'

theorem Moved.over (h : Moved hh newNum moved e) (maxlen : ℕ)
    (hc : Chains buckets hh num items chain) {bkts : List ℕ}
    (hm : (moved ++ bkts.flatMap chain).Nodup) (hr : ∀ b, (chain b).length ≤ rounds) :
    ∃ e', expandLoop rounds maxlen newNum buckets bkts e = some e' ∧
      Moved hh newNum (moved ++ bkts.flatMap chain) e' := by
  induction bkts generalizing moved e with
  | nil => exact ⟨e, rfl, by simpa using h⟩
  | cons b bkts ih =>
    have hm' : (moved ++ chain b ++ bkts.flatMap chain).Nodup := by simpa using hm
    obtain ⟨e₁, he₁, h₁⟩ := h.along maxlen (hc.linked b) (List.nodup_append.mp hm').1 (hr b)
    obtain ⟨e₂, he₂, h₂⟩ := ih h₁ hm'
    refine ⟨e₂, ?_, by simpa using h₂⟩
    rw [expandLoop, hc.first, he₁]
    exact he₂

/-- An expansion ends, and its buckets link the elements that belong to them. -/
theorem hashExpandBuckets_chains {tbl : Table P}
    (h : Chains tbl.buckets hh tbl.numBuckets items chain) (hn : 0 < tbl.numBuckets)
    (hi : items.Nodup) (hr : items.length ≤ rounds) :
    ∃ tbl' hh' chain', hashExpandBuckets rounds tbl hh = some (tbl', hh') ∧ SameOrder hh hh' ∧
      Chains tbl'.buckets hh' tbl'.numBuckets items chain' ∧ tbl'.numBuckets = tbl.numBuckets * 2 ∧
      tbl'.numItems = tbl.numItems ∧ tbl'.tail = tbl.tail := by
  have hall := h.flatMap_perm hn
  have hr' : ∀ b, (chain b).length ≤ rounds := fun b =>
    ((h.perm b).length_eq.trans_le (List.length_filter_le ..)).trans hr
  have hstart : Moved hh (tbl.numBuckets * 2) [] ⟨zeroBuckets, 0, hh⟩ :=
    ⟨⟨_, chains_zero hh _⟩, SameOrder.refl hh, fun _ _ => rfl⟩
  obtain ⟨e, he, hmoved⟩ := hstart.over ((tbl.numItems >>> (tbl.log2NumBuckets + 1)) +
    if tbl.numItems &&& (tbl.numBuckets * 2 - 1) ≠ 0 then 1 else 0) h (hall.nodup_iff.mpr hi) hr'
  obtain ⟨chain', hchain⟩ := hmoved.chains
  rw [hashExpandBuckets, he]
  exact ⟨_, e.hh, chain', rfl, hmoved.same, hchain.of_perm hall, rfl, rfl, rfl⟩

end Ps4Sdk.HashContainers
