import Ps4Sdk.KernelBase
import Ps4Sdk.HeapBlocks
import Mathlib.Data.Nat.Notation
import Mathlib.Tactic.Common

/-!
# The kernel cache

A cache is an intrusive container of entries. An entry points to its own copy of the
name it is filed under, and the container compares the bytes and the length of the
keys through these pointers. Names are given by the address of a string that ends
with a zero byte. The container allocates a table and its buckets with the first
entry and frees both with the last one; the blocks that the allocator hands out are
arguments.
-/

namespace Ps4Sdk.KernelCaches
open HeapBlocks

inductive Block
  | string (bytes : List (BitVec 8))
  | cache (handle : List Address) (table : Option (Address × Address))
  | entry (name value key : Address) (keylen : ℕ)
  | container
  deriving DecidableEq

abbrev KernelHeap := Heap Address Block

/-- The blocks that a call of `Set` may allocate. -/
structure Supply where
  entry : Address
  name : Address
  table : Address
  buckets : Address
  expanded : Option Address
  deriving DecidableEq

def ps4LimitStringLengthMaximum : ℕ := 4096

def loadString (h : KernelHeap) (a : Address) : Except Fault (List (BitVec 8)) :=
  match h a with
  | some (.string bytes) => .ok bytes
  | _ => .error .notLive

def loadCache (h : KernelHeap) (a : Address) :
    Except Fault (List Address × Option (Address × Address)) :=
  match h a with
  | some (.cache handle table) => .ok (handle, table)
  | _ => .error .notLive

def loadEntry (h : KernelHeap) (a : Address) : Except Fault (Address × Address × Address × ℕ) :=
  match h a with
  | some (.entry name value key keylen) => .ok (name, value, key, keylen)
  | _ => .error .notLive

def strnlen : List (BitVec 8) → ℕ → Except Fault ℕ
  | _, 0 => .ok 0
  | [], _ + 1 => .error .outOfBounds
  | byte :: bytes, n + 1 => if byte = 0 then .ok 0 else return (← strnlen bytes n) + 1

/-- The bytes that `memcpy` and `memcmp` read. -/
def readBytes (bytes : List (BitVec 8)) (n : ℕ) : Except Fault (List (BitVec 8)) :=
  if n ≤ bytes.length then .ok (bytes.take n) else .error .outOfBounds

/-- `HASH_FIND`. -/
def hashFind (h : KernelHeap) (name : List (BitVec 8)) (keylen : ℕ) :
    List Address → Except Fault (Option Address)
  | [] => .ok none
  | entry :: handle => do
    let (_, _, key, n) ← loadEntry h entry
    if n = keylen then
      let bytes ← readBytes (← loadString h key) n
      let searched ← readBytes name n
      if bytes = searched then return some entry else hashFind h name keylen handle
    else hashFind h name keylen handle

/-- `HASH_ADD_KEYPTR`. -/
def hashAdd (h : KernelHeap) (cache entry key : Address) (keylen : ℕ) (m : Supply) :
    Except Fault KernelHeap := do
  let (handle, table) ← loadCache h cache
  let (name, value, _, _) ← loadEntry h entry
  let h := put h entry (.entry name value key keylen)
  if handle = [] then
    let h := put h m.table .container
    let h := put h m.buckets .container
    return put h cache (.cache [entry] (some (m.table, m.buckets)))
  else
    match table, m.expanded with
    | some (t, b), some b' =>
      let h := put h b' .container
      let h ← free h b
      return put h cache (.cache (handle ++ [entry]) (some (t, b')))
    | table, _ => return put h cache (.cache (handle ++ [entry]) table)

/-- `HASH_DELETE`. -/
def hashDelete (h : KernelHeap) (cache entry : Address) : Except Fault KernelHeap := do
  let (handle, table) ← loadCache h cache
  if handle = [entry] then
    match table with
    | some (t, b) =>
      let h ← free h b
      let h ← free h t
      return put h cache (.cache [] none)
    | none => throw .notLive
  else return put h cache (.cache (handle.erase entry) table)

/-- The block `m` is stored through the pointer `cache`. -/
def ps4KernelCacheCreate (h : KernelHeap) (cache m : Address) : Code × KernelHeap :=
  if cache = 0#64 then (ps4ErrorArgumentPrimaryMissing, h)
  else (ps4Ok, put h m (.cache [] none))

/-- The loop of `ps4KernelCacheDestroy`. -/
def destroyEntries (cache : Address) : List Address → KernelHeap → Except Fault KernelHeap
  | [], h => .ok h
  | entry :: handle, h => do
    let h ← hashDelete h cache entry
    let h ← free h entry
    destroyEntries cache handle h

def ps4KernelCacheDestroy (h : KernelHeap) (cache : Address) : Except Fault (Code × KernelHeap) :=
  if cache = 0#64 then .ok (ps4ErrorArgumentPrimaryMissing, h)
  else do
    let (handle, _) ← loadCache h cache
    let h ← destroyEntries cache handle h
    let h ← free h cache
    return (ps4Ok, h)

/-- The code, and what is stored through `value`, if anything is. -/
def ps4KernelCacheGet (h : KernelHeap) (cache name value : Address) :
    Except Fault (Code × Option Address) :=
  if cache = 0#64 then .ok (ps4ErrorArgumentPrimaryMissing, none)
  else if value = 0#64 then .ok (ps4ErrorArgumentOutMissing, none)
  else do
    let bytes ← loadString h name
    let length ← strnlen bytes ps4LimitStringLengthMaximum
    let (handle, _) ← loadCache h cache
    match ← hashFind h bytes length handle with
    | none => return (ps4ErrorNotFound, some 0#64)
    | some entry =>
      let (_, found, _, _) ← loadEntry h entry
      return (ps4Ok, some found)

def ps4KernelCacheSet (h : KernelHeap) (cache name value : Address) (m : Supply) :
    Except Fault (Code × KernelHeap) :=
  if cache = 0#64 then .ok (ps4ErrorArgumentPrimaryMissing, h)
  else do
    let bytes ← loadString h name
    let length ← strnlen bytes ps4LimitStringLengthMaximum
    let (handle, _) ← loadCache h cache
    match ← hashFind h bytes length handle with
    | some entry =>
      let (own, _, key, n) ← loadEntry h entry
      return (ps4Ok, put h entry (.entry own value key n))
    | none =>
      let h := put h m.entry (.entry m.name value 0#64 0)
      let copied ← readBytes bytes (length + 1)
      let h := put h m.name (.string copied)
      let h ← hashAdd h cache m.entry m.name length m
      return (ps4Ok, h)

def ps4KernelCacheDelete (h : KernelHeap) (cache name : Address) :
    Except Fault (Code × KernelHeap) :=
  if cache = 0#64 then .ok (ps4ErrorArgumentPrimaryMissing, h)
  else do
    let bytes ← loadString h name
    let length ← strnlen bytes ps4LimitStringLengthMaximum
    let (handle, _) ← loadCache h cache
    match ← hashFind h bytes length handle with
    | none => return (ps4ErrorNotFound, h)
    | some entry =>
      let h ← hashDelete h cache entry
      let h ← free h entry
      return (ps4Ok, h)

/-- The address holds a string that ends behind the name. -/
def StringAt (h : KernelHeap) (a : Address) (name : List (BitVec 8)) : Prop :=
  0 ∉ name ∧ ∃ rest, h a = some (.string (name ++ 0 :: rest))

def keyOf (name : List (BitVec 8)) : List (BitVec 8) := name.take ps4LimitStringLengthMaximum

def Supply.addresses (m : Supply) : List Address :=
  [m.entry, m.name, m.table, m.buckets] ++ m.expanded.toList

/-- The allocator hands out different blocks, none of which is live. -/
structure Supply.Fresh (m : Supply) (h : KernelHeap) : Prop where
  nodup : m.addresses.Nodup
  dead : ∀ a ∈ m.addresses, h a = none

theorem strnlen_name {name : List (BitVec 8)} (hn : 0 ∉ name) (rest : List (BitVec 8)) (n : ℕ) :
    strnlen (name ++ 0 :: rest) n = .ok (name.take n).length := by
  induction name generalizing n with
  | nil => cases n <;> simp [strnlen]
  | cons byte name ih =>
    cases n with
    | zero => simp [strnlen]
    | succ n =>
      have hb : byte ≠ 0 := fun he => hn (he ▸ List.mem_cons_self)
      have hr := ih (fun hm => hn (List.mem_cons_of_mem _ hm)) n
      rw [List.cons_append, strnlen, if_neg hb, hr]
      rfl

/-- The bytes of the key are the first ones of the string, and one byte follows them. -/
theorem keyOf_append (name rest : List (BitVec 8)) :
    ∃ last tail, name ++ 0 :: rest = keyOf name ++ last :: tail := by
  have hs : name = keyOf name ++ name.drop ps4LimitStringLengthMaximum :=
    (List.take_append_drop ..).symm
  cases hd : name.drop ps4LimitStringLengthMaximum with
  | nil =>
    rw [hd, List.append_nil] at hs
    exact ⟨0, rest, by rw [← hs]⟩
  | cons last tail =>
    refine ⟨last, tail ++ 0 :: rest, ?_⟩
    nth_rewrite 1 [hs]
    rw [hd]
    simp

theorem readBytes_append (key tail : List (BitVec 8)) :
    readBytes (key ++ tail) key.length = .ok key := by
  simp [readBytes]

end Ps4Sdk.KernelCaches
