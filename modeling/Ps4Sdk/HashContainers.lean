import Ps4Sdk.DoublyLinkedLists
import Mathlib.Data.Nat.Notation
import Mathlib.Logic.Function.Basic

/-!
# The intrusive container, `uthash.h`

The macros are generic in the elements, which are known by their addresses; the address of an
element and that of the handle inside of it lead to each other. A handle holds its neighbours
in the order of insertion and in its bucket, and the key, which is what the key pointer leads
to. The table exists while there is an element. A loop along the links has a bound for its
rounds; nothing is the outcome where the bound is reached or where a table that does not exist
is followed. An allocation succeeds. The counters, which are `unsigned` in the macros, are natural
numbers: they are those of the macros for less than `2 ^ 32` elements and at most `2 ^ 31` buckets.
-/

namespace Ps4Sdk.HashContainers

/-- The bytes of a key, as many as an `unsigned` can count. -/
structure Key where
  bytes : List (BitVec 8)
  short : bytes.length < 4294967296
  deriving DecidableEq

/-! ### `HASH_JEN` -/

section

/-- `HASH_JEN_MIX`. -/
def hashJenMix (a b c : BitVec 32) : BitVec 32 × BitVec 32 × BitVec 32 :=
  let a := (a - b - c) ^^^ (c >>> 13)
  let b := (b - c - a) ^^^ (a <<< 8)
  let c := (c - a - b) ^^^ (b >>> 13)
  let a := (a - b - c) ^^^ (c >>> 12)
  let b := (b - c - a) ^^^ (a <<< 16)
  let c := (c - a - b) ^^^ (b >>> 5)
  let a := (a - b - c) ^^^ (c >>> 3)
  let b := (b - c - a) ^^^ (a <<< 10)
  let c := (c - a - b) ^^^ (b >>> 15)
  (a, b, c)

/-- A byte of the rest of the key, shifted into its place; behind the rest there is nothing to
add. -/
def keyByte (key : List (BitVec 8)) (i shift : ℕ) : BitVec 32 :=
  match key[i]? with
  | some byte => byte.setWidth 32 <<< shift
  | none => 0

def keyWord (key : List (BitVec 8)) (i : ℕ) : BitVec 32 :=
  keyByte key i 0 + keyByte key (i + 1) 8 + keyByte key (i + 2) 16 + keyByte key (i + 3) 24

def hashJenLoop (keylen : BitVec 32) (i j hashv : BitVec 32) (key : List (BitVec 8)) : BitVec 32 :=
  if 12 ≤ key.length then
    let (i, j, hashv) := hashJenMix (i + keyWord key 0) (j + keyWord key 4) (hashv + keyWord key 8)
    hashJenLoop keylen i j hashv (key.drop 12)
  else
    let hashv := hashv + keylen + keyByte key 10 24 + keyByte key 9 16 + keyByte key 8 8
    (hashJenMix (i + keyWord key 0) (j + keyWord key 4) hashv).2.2
termination_by key.length
decreasing_by simp; omega

def hashJen (key : Key) : BitVec 32 :=
  hashJenLoop (BitVec.ofNat 32 key.bytes.length) 0x9e3779b9 0x9e3779b9 0xfeedbeef key.bytes

end

/-! ### Handles, buckets and the table -/

/-- `UT_hash_handle`. -/
structure Handle (P : Type) where
  prev : Option P
  next : Option P
  hhPrev : Option P
  hhNext : Option P
  key : Key
  hashv : BitVec 32

/-- `UT_hash_bucket`. -/
structure Bucket (P : Type) where
  hhHead : Option P
  count : ℕ
  expandMult : ℕ

/-- `UT_hash_table`. -/
structure Table (P : Type) where
  buckets : ℕ → Bucket P
  numBuckets : ℕ
  log2NumBuckets : ℕ
  numItems : ℕ
  tail : P
  idealChainMaxlen : ℕ
  nonidealItems : ℕ
  ineffExpands : ℕ
  noexpand : ℕ

structure Container (P : Type) where
  head : Option P
  tbl : Option (Table P)
  hh : P → Handle P

def hashInitialNumBuckets : ℕ := 32

def hashInitialNumBucketsLog2 : ℕ := 5

def hashBktCapacityThresh : ℕ := 10

/-- `HASH_TO_BKT`. -/
def hashToBkt (hashv : BitVec 32) (numBkts : ℕ) : ℕ := hashv.toNat &&& (numBkts - 1)

variable {P : Type} [DecidableEq P]

def modify (hh : P → Handle P) (p : P) (f : Handle P → Handle P) : P → Handle P :=
  Function.update hh p (f (hh p))

def modifyIf (hh : P → Handle P) (p : Option P) (f : Handle P → Handle P) : P → Handle P :=
  match p with
  | some p => modify hh p f
  | none => hh

def zeroBuckets : ℕ → Bucket P := fun _ => ⟨none, 0, 0⟩

/-- `HASH_MAKE_TABLE`. -/
def hashMakeTable (head : P) : Table P where
  buckets := zeroBuckets
  numBuckets := hashInitialNumBuckets
  log2NumBuckets := hashInitialNumBucketsLog2
  numItems := 0
  tail := head
  idealChainMaxlen := 0
  nonidealItems := 0
  ineffExpands := 0
  noexpand := 0

/-! ### `HASH_EXPAND_BUCKETS` -/

structure Expansion (P : Type) where
  newBuckets : ℕ → Bucket P
  nonidealItems : ℕ
  hh : P → Handle P

def linkFirst (hh : P → Handle P) (first : Option P) (p : P) : P → Handle P :=
  modifyIf (modify hh p fun h => { h with hhPrev := none, hhNext := first }) first
    fun h => { h with hhPrev := some p }

def expandItem (maxlen newNum : ℕ) (e : Expansion P) (thh : P) : Expansion P :=
  let bkt := hashToBkt (e.hh thh).hashv newNum
  let newbkt := e.newBuckets bkt
  let count := newbkt.count + 1
  let nonideal := maxlen < count
  { newBuckets := Function.update e.newBuckets bkt
      { hhHead := some thh, count,
        expandMult := if nonideal then count / maxlen else newbkt.expandMult }
    nonidealItems := if nonideal then e.nonidealItems + 1 else e.nonidealItems
    hh := linkFirst e.hh newbkt.hhHead thh }

def expandChain (maxlen newNum : ℕ) : ℕ → Option P → Expansion P → Option (Expansion P)
  | _, none, e => some e
  | 0, some _, _ => none
  | rounds + 1, some thh, e => expandChain maxlen newNum rounds (e.hh thh).hhNext
      (expandItem maxlen newNum e thh)

def expandLoop (rounds maxlen newNum : ℕ) (buckets : ℕ → Bucket P) : List ℕ → Expansion P →
    Option (Expansion P)
  | [], e => some e
  | bkt :: bkts, e => do
    let e ← expandChain maxlen newNum rounds (buckets bkt).hhHead e
    expandLoop rounds maxlen newNum buckets bkts e

def hashExpandBuckets (rounds : ℕ) (tbl : Table P) (hh : P → Handle P) :
    Option (Table P × (P → Handle P)) := do
  let maxlen := (tbl.numItems >>> (tbl.log2NumBuckets + 1)) +
    if tbl.numItems &&& (tbl.numBuckets * 2 - 1) ≠ 0 then 1 else 0
  let e ← expandLoop rounds maxlen (tbl.numBuckets * 2) tbl.buckets (List.range tbl.numBuckets)
    ⟨zeroBuckets, 0, hh⟩
  let ineffExpands := if tbl.numItems >>> 1 < e.nonidealItems then tbl.ineffExpands + 1 else 0
  return ({ tbl with
    buckets := e.newBuckets
    numBuckets := tbl.numBuckets * 2
    log2NumBuckets := tbl.log2NumBuckets + 1
    idealChainMaxlen := maxlen
    nonidealItems := e.nonidealItems
    ineffExpands
    noexpand := if 1 < ineffExpands then 1 else tbl.noexpand }, e.hh)

/-! ### The operations -/

/-- `HASH_ADD_TO_BKT`. -/
def hashAddToBkt (rounds : ℕ) (tbl : Table P) (hh : P → Handle P) (bkt : ℕ) (add : P) :
    Option (Table P × (P → Handle P)) :=
  let head := tbl.buckets bkt
  let hh := linkFirst hh head.hhHead add
  let head := { head with count := head.count + 1, hhHead := some add }
  let tbl := { tbl with buckets := Function.update tbl.buckets bkt head }
  if (head.expandMult + 1) * hashBktCapacityThresh ≤ head.count ∧ tbl.noexpand ≠ 1 then
    hashExpandBuckets rounds tbl hh
  else some (tbl, hh)

/-- `HASH_DEL_IN_BKT`. -/
def hashDelInBkt (tbl : Table P) (hh : P → Handle P) (bkt : ℕ) (del : P) :
    Table P × (P → Handle P) :=
  let head := tbl.buckets bkt
  let head := { head with
    count := head.count - 1
    hhHead := if head.hhHead = some del then (hh del).hhNext else head.hhHead }
  let next := (hh del).hhNext
  let hh := modifyIf hh (hh del).hhPrev fun h => { h with hhNext := next }
  let prev := (hh del).hhPrev
  let hh := modifyIf hh (hh del).hhNext fun h => { h with hhPrev := prev }
  ({ tbl with buckets := Function.update tbl.buckets bkt head }, hh)

/-- `HASH_FIND_IN_BKT`. -/
def hashFindInBkt (hh : P → Handle P) (key : Key) : ℕ → Option P → Option (Option P)
  | _, none => some none
  | 0, some _ => none
  | rounds + 1, some out =>
    if (hh out).key.bytes.length = key.bytes.length then
      if (hh out).key.bytes = key.bytes then some (some out)
      else hashFindInBkt hh key rounds (hh out).hhNext
    else hashFindInBkt hh key rounds (hh out).hhNext

variable (hashFcn : Key → BitVec 32) (rounds : ℕ)

/-- `HASH_FIND`. -/
def hashFind (c : Container P) (key : Key) : Option (Option P) :=
  match c.head with
  | none => some none
  | some _ => do
    let tbl ← c.tbl
    hashFindInBkt c.hh key rounds (tbl.buckets (hashToBkt (hashFcn key) tbl.numBuckets)).hhHead

/-- The part of `HASH_ADD_KEYPTR` in front of the bucket: the new head, the table and the
handles. -/
def appendItem (c : Container P) (key : Key) (add : P) : Option (P × Table P × (P → Handle P)) :=
  let hh := modify c.hh add fun h => { h with next := none, key }
  let file (head : P) (tbl : Table P) (hh : P → Handle P) : P × Table P × (P → Handle P) :=
    (head, { tbl with numItems := tbl.numItems + 1 },
      modify hh add fun h => { h with hashv := hashFcn key })
  match c.head with
  | none => some (file add (hashMakeTable add) (modify hh add fun h => { h with prev := none }))
  | some head => c.tbl.map fun tbl =>
    let hh := modify hh tbl.tail fun h => { h with next := some add }
    file head { tbl with tail := add } (modify hh add fun h => { h with prev := some tbl.tail })

/-- `HASH_ADD_KEYPTR`. -/
def hashAddKeyptr (c : Container P) (key : Key) (add : P) : Option (Container P) := do
  let (head, tbl, hh) ← appendItem hashFcn c key add
  let (tbl, hh) ← hashAddToBkt rounds tbl hh (hashToBkt (hashFcn key) tbl.numBuckets) add
  return ⟨some head, some tbl, hh⟩

/-- The part of `HASH_DELETE` for an element that has a neighbour; the tail has been set. -/
def unlinkItem (c : Container P) (tbl : Table P) (tail del : P) : Container P :=
  let head := if (c.hh del).prev = none then (c.hh del).next else c.head
  let next := (c.hh del).next
  let hh := modifyIf c.hh (c.hh del).prev fun h => { h with next }
  let prev := (hh del).prev
  let hh := modifyIf hh (hh del).next fun h => { h with prev }
  let (tbl, hh) := hashDelInBkt { tbl with tail } hh (hashToBkt (hh del).hashv tbl.numBuckets) del
  ⟨head, some { tbl with numItems := tbl.numItems - 1 }, hh⟩

/-- `HASH_DELETE`. -/
def hashDelete (c : Container P) (del : P) : Option (Container P) :=
  c.tbl.bind fun tbl =>
    if (c.hh del).prev = none ∧
      (c.hh del).next = none then some { c with head := none, tbl := none }
    else (if del = tbl.tail then (c.hh del).prev else some tbl.tail).map
      fun tail => unlinkItem c tbl tail del

/-- The loop of `HASH_ITER` that deletes and frees each element. What a freed element holds is
given by `freed`, and the elements are recorded in the order in which they are freed. -/
def iterDelete (freed : P → Handle P) : ℕ → Option P → Option P → Container P →
    Option (List P × Container P)
  | _, none, _, c => some ([], c)
  | 0, some _, _, _ => none
  | rounds + 1, some el, tmp, c => do
    let c ← hashDelete c el
    let c := { c with hh := Function.update c.hh el (freed el) }
    let (els, c) ← iterDelete freed rounds tmp (tmp.bind fun p => (c.hh p).next) c
    return (el :: els, c)

/-- `HASH_ITER` with the body of `ps4KernelCacheDestroy`. -/
def hashIterDelete (freed : P → Handle P) (c : Container P) : Option (List P × Container P) :=
  iterDelete freed rounds c.head (c.head.bind fun p => (c.hh p).next) c

/-! ### `HASH_FSCK` -/

inductive Oops
  | invalidHhPrev | invalidBucketCount | invalidHhItemCount | invalidPrev | invalidAppItemCount
  deriving DecidableEq

def oopsIf (b : Prop) [Decidable b] (o : Oops) : List Oops := if b then [o] else []

def fsckChain (hh : P → Handle P) : ℕ → Option P → Option P → ℕ → Option (List Oops × ℕ)
  | _, none, _, count => some ([], count)
  | 0, some _, _, _ => none
  | rounds + 1, some thh, prev, count => do
    let (oops, count) ← fsckChain hh rounds (hh thh).hhNext (some thh) (count + 1)
    return (oopsIf (prev ≠ (hh thh).hhPrev) .invalidHhPrev ++ oops, count)

def fsckBuckets (tbl : Table P) (hh : P → Handle P) : List ℕ → ℕ → Option (List Oops × ℕ)
  | [], count => some ([], count)
  | bkt :: bkts, count => do
    let (oops, bktCount) ← fsckChain hh rounds (tbl.buckets bkt).hhHead none 0
    let (rest, count) ← fsckBuckets tbl hh bkts (count + bktCount)
    return (oops ++ oopsIf ((tbl.buckets bkt).count ≠ bktCount) .invalidBucketCount ++ rest, count)

/-- The loop in the order of insertion. -/
def fsckItems (hh : P → Handle P) : ℕ → Option P → Option P → ℕ → Option (List Oops × ℕ)
  | _, none, _, count => some ([], count)
  | 0, some _, _, _ => none
  | rounds + 1, some thh, prev, count => do
    let (oops, count) ← fsckItems hh rounds (hh thh).next (some thh) (count + 1)
    return (oopsIf (prev ≠ (hh thh).prev) .invalidPrev ++ oops, count)

/-- What `HASH_FSCK` complains about. -/
def hashFsck (c : Container P) : Option (List Oops) :=
  match c.head with
  | none => some []
  | some head => do
    let tbl ← c.tbl
    let (inBuckets, count) ← fsckBuckets rounds tbl c.hh (List.range tbl.numBuckets) 0
    let (inOrder, appCount) ← fsckItems c.hh rounds (some head) none 0
    return inBuckets ++ oopsIf (count ≠ tbl.numItems) .invalidHhItemCount ++
      inOrder ++ oopsIf (appCount ≠ tbl.numItems) .invalidAppItemCount

end Ps4Sdk.HashContainers
