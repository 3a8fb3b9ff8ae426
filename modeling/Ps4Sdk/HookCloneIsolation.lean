import Ps4Sdk.HookCloning
import Ps4Sdk.StepRuns

/-!
# Clones are isolated from their handle

A handle and a clone of it take turns: calls on the handle, and changes of the blocks of
the clone. The two have no block in common, and what is done with the blocks of one
leaves those of the other, as long as each pair that is added to a function hook has its
place in the table. A hook that stands twice in it takes `hookCount` below zero when it is
removed twice; the next pair is then written in front of the table.
-/

namespace Ps4Sdk.HookClones
open ByteMemory AssemblyMachines AllocatedMemory StepRuns

/-! ### The handle and its clone -/

inductive Kind
  | function
  | systemCall

namespace Kind

def layout : Kind → Layout
  | function => functionLayout
  | systemCall => systemCallLayout

def add : Kind → Growth → Bytes → Address → Address → Word → Store → Option (Code × Store)
  | function => ps4KernelFunctionHookAdd
  | systemCall => ps4KernelSystemCallHookAdd

def clone (b : CloneBlocks) (td uap sysuap : Address) : Kind → Store → Store
  | function => ps4PayloadFunctionHookArgumentClone b uap
  | systemCall => ps4PayloadSystemCallHookArgumentClone b td uap sysuap

def cleanup : Kind → Bytes → Address → Store → Option Store
  | function => ps4PayloadFunctionHookArgumentDestroy
  | systemCall => ps4PayloadSystemCallHookCleanup

theorem valid : ∀ k : Kind, k.layout.Valid
  | function => functionLayout_valid
  | systemCall => systemCallLayout_valid

end Kind

/-- The calls on a handle; two of them are for function hooks only. -/
inductive Operation : Kind → Type
  | add {k : Kind} (g : Growth) (residue : Bytes) (hook : Address) (type : Word) : Operation k
  | remove (hook : Address) : Operation .function
  | setUserArgument (argument : Address) : Operation .function

namespace Operation

def call (uap : Address) (s : Store) : {k : Kind} → Operation k → Option (Code × Store)
  | k, .add g residue hook type => k.add g residue uap hook type s
  | _, .remove hook => ps4KernelFunctionHookRemove uap hook s
  | _, .setUserArgument argument => some (ps4KernelFunctionHookSetUserArgument uap argument s)

/-- The allocations of the call give what they may. -/
def Allowed (uap : Address) (s : Store) : {k : Kind} → Operation k → Prop
  | k, .add g _ _ _ => g.Allowed k.layout s uap
  | _, _ => True

/-- A function hook is added where `hookCount` is the place of an entry, if not of this table, of
the doubled one. -/
def Fits (uap : Address) (s : Store) : {k : Kind} → Operation k → Prop
  | .function, .add _ _ _ _ => (field s.memory uap functionLayout.hookCount).toNat + 1 <
      2 * (field s.memory uap functionLayout.hookSize).toNat
  | _, _ => True

end Operation

inductive Action (k : Kind)
  | operate (operation : Operation k)
  | change (m : Bytes)

/-- A call on the handle, or a change of the blocks that the clone has besides itself. -/
def Step {k : Kind} (uap uap2 : Address) (s : Store) : Action k → Store → Prop
  | .operate operation, s' => operation.Allowed uap s ∧
      ∃ code, operation.call uap s = some (code, s')
  | .change m, s' => s' = { s with memory := m } ∧
      ∀ x, (∀ c ∈ (k.layout.blocks s.memory uap2).tail, ¬c.Has x) → m x = s.memory x

def Guard {k : Kind} (uap : Address) (s : Store) : Action k → Prop
  | .operate operation => operation.Fits uap s
  | .change _ => True

structure Isolated (k : Kind) (uap uap2 : Address) (allocated : List (Block 64))
    (s : Store) : Prop where
  handle : Ready k.layout s uap
  clone : Held k.layout s uap2
  blocks : k.layout.blocks s.memory uap2 = allocated
  apart : ∀ c ∈ allocated, c ∉ k.layout.blocks s.memory uap

/-- The bytes of the blocks are the same. -/
def Kept (blocks : List (Block 64)) (s s' : Store) : Prop :=
  ∀ c ∈ blocks, cellsAt s'.memory c.base c.size = cellsAt s.memory c.base c.size

section

variable {k : Kind} {uap uap2 : Address} {allocated : List (Block 64)} {s s' : Store}

theorem Ready.call (hr : Ready k.layout s uap) {operation : Operation k}
    (ha : operation.Allowed uap s) (hf : operation.Fits uap s) {r : Code × Store}
    (hc : operation.call uap s = some r) :
    Works (k.layout.owned s.memory uap) s (k.layout.owned r.2.memory uap) r.2 ∧
    Ready k.layout r.2 uap := by
  cases operation with
  | remove hook => exact hr.remove hc
  | setUserArgument argument =>
    obtain rfl := Option.some.inj hc
    exact hr.setUserArgument argument
  | add g residue hook type =>
    cases k with
    | function => exact hr.add functionLayout_valid ha hf hc
    | systemCall =>
      obtain ⟨hcount, hpos⟩ := hr.orderly.count rfl
      refine hr.add systemCallLayout_valid ha ?_ hc
      change (field s.memory uap Kind.systemCall.layout.hookCount).toNat + 0 <
        2 * (field s.memory uap Kind.systemCall.layout.hookSize).toNat
      omega

theorem Isolated.operate (hi : Isolated k uap uap2 allocated s) {operation : Operation k}
    (hf : operation.Fits uap s) (hs : Step uap uap2 s (.operate operation) s') :
    Isolated k uap uap2 allocated s' ∧ Kept allocated s s' := by
  obtain ⟨hallowed, code, hcall⟩ := hs
  obtain ⟨hworks, hready⟩ := hi.handle.call hallowed hf hcall
  have hforeign : ∀ c ∈ k.layout.blocks s.memory uap2, c ∉ k.layout.owned s.memory uap := by
    rw [hi.blocks]
    exact hi.apart
  obtain ⟨hclone, hblocks, hbytes⟩ := hi.clone.frame k.valid hworks hi.handle.held.owns hforeign
  rw [hi.blocks] at hblocks hbytes
  refine ⟨⟨hready, hclone, hblocks, fun c hc => (hbytes c hc).1⟩, fun c hc => ?_⟩
  exact cellsAt_congr (hbytes c hc).2

theorem Isolated.change (hi : Isolated k uap uap2 allocated s) {m : Bytes}
    (hs : Step uap uap2 s (.change m : Action k) s') :
    Isolated k uap uap2 allocated s' ∧
    k.layout.blocks s'.memory uap = k.layout.blocks s.memory uap ∧
      Kept (k.layout.blocks s.memory uap) s s' := by
  obtain ⟨rfl, houtside⟩ := hs
  have hwithin : Within k.layout s uap2 m := by
    refine ⟨fun x hx => houtside x fun c hc => hx c (List.mem_of_mem_tail hc), fun o ho => ?_⟩
    refine field_congr (k.valid.inside o (Layout.pointers_subset ho))
      fun x hx => houtside x fun c hc => ?_
    exact hi.clone.apart hc x hx
  obtain ⟨hworks, hclone⟩ := hi.clone.within hwithin
  have hforeign : ∀ c ∈ k.layout.blocks s.memory uap, c ∉ k.layout.owned s.memory uap2 := by
    intro c hc hclone
    exact hi.apart c (hi.blocks ▸ hclone) hc
  have hready := hi.handle.frame k.valid hworks hi.clone.owns hforeign
  obtain ⟨_, hblocks, hbytes⟩ := hi.handle.held.frame k.valid hworks hi.clone.owns hforeign
  refine ⟨⟨hready, hclone, hwithin.blocks.trans hi.blocks, fun c hc hparent => ?_⟩,
    hblocks, fun c hc => ?_⟩
  · exact hi.apart c hc (hblocks ▸ hparent)
  · exact cellsAt_congr (hbytes c hc).2

theorem Kept.refl (blocks : List (Block 64)) (s : Store) : Kept blocks s s := fun _ _ => rfl

theorem Kept.trans {blocks : List (Block 64)} {s'' : Store} (h : Kept blocks s s')
    (h' : Kept blocks s' s'') :
    Kept blocks s s'' := fun c hc => (h' c hc).trans (h c hc)

theorem Isolated.run {as : List (Action k)} (hi : Isolated k uap uap2 allocated s)
    (hrun : Run (Guarded (Guard uap) (Step uap uap2)) s as s') :
    Isolated k uap uap2 allocated s' := by
  refine hrun.invariant (fun s a s' hi hs => ?_) hi
  cases a with
  | operate operation => exact (hi.operate hs.1 hs.2).1
  | change m => exact (hi.change hs.2).1

theorem Isolated.operates {operations : List (Operation k)} (hi : Isolated k uap uap2 allocated s)
    (hrun : Run (Guarded (Guard uap) (Step uap uap2)) s (operations.map .operate) s') :
    Kept allocated s s' := by
  induction operations generalizing s with
  | nil =>
    cases hrun
    exact .refl _ _
  | cons operation operations ih =>
    cases hrun with
    | cons first rest =>
      obtain ⟨hi', hkept⟩ := hi.operate first.1 first.2
      exact hkept.trans (ih hi' rest)

theorem Isolated.changes {ms : List Bytes} (hi : Isolated k uap uap2 allocated s)
    (hrun : Run (Guarded (Guard uap) (Step uap uap2)) s
      (ms.map fun m => (.change m : Action k)) s') :
    Kept (k.layout.blocks s.memory uap) s s' := by
  induction ms generalizing s with
  | nil =>
    cases hrun
    exact .refl _ _
  | cons m ms ih =>
    cases hrun with
    | cons first rest =>
      obtain ⟨hi', hblocks, hkept⟩ := hi.change first.2
      refine hkept.trans ?_
      rw [← hblocks]
      exact ih hi' rest

theorem Kind.clone_eq (k : Kind) (b : CloneBlocks) (td uap sysuap : Address) :
    ∃ call : List (ℕ × Word), (∀ q ∈ call, 8 ∣ q.1 ∧ q.1 + 8 ≤ k.layout.size ∧
      q.1 ∉ k.layout.pointers) ∧
      k.clone b td uap sysuap = HookClones.clone k.layout b uap call := by
  cases k with
  | function => exact ⟨[], by simp, rfl⟩
  | systemCall =>
    refine ⟨[(16, td), (56, sysuap)], ?_, rfl⟩
    simp only [List.mem_cons, List.not_mem_nil, or_false, forall_eq_or_imp, forall_eq]
    decide

theorem Ready.clone {b : CloneBlocks} {h : Store} (hr : Ready k.layout h uap)
    (hb : b.Allowed k.layout h uap) (td sysuap : Address) :
    Isolated k uap b.uap (b.blocks k.layout (tableSize k.layout h.memory uap))
      (k.clone b td uap sysuap h) ∧
      ∀ c, c ∈ b.blocks k.layout (tableSize k.layout h.memory uap) ↔
        c ∈ (k.clone b td uap sysuap h).live ∧ c ∉ h.live := by
  obtain ⟨call, hcall, hclone⟩ := k.clone_eq b td uap sysuap
  rw [hclone]
  have hc := clone_cloning k.valid hr.held hb hcall
  have hblocks := hc.blocks_eq hr.held hb
  have howns := hc.works.owns hr.held.nothing
  have hready := hr.frame k.valid hc.works hr.held.nothing fun c _ hm => hm
  obtain ⟨_, hparent, hbytes⟩ := hr.held.frame k.valid hc.works hr.held.nothing fun c _ hm => hm
  have howned : Owns (HookClones.clone k.layout b uap call h)
      (k.layout.owned (HookClones.clone k.layout b uap call h).memory b.uap) := by
    rw [Layout.owned, hblocks]
    exact howns
  refine ⟨⟨hready, ⟨howned, ?_⟩, hblocks, fun c hm hc => ?_⟩, fun c => ⟨fun hm => ?_, fun hm => ?_⟩⟩
  · rw [hblocks]
    exact hb.clear.imp Block.Clear.ne
  · rw [hparent] at hc
    exact (hbytes c hc).1 hm
  · exact ⟨howns.live c hm, (hb.fresh c hm).not_live⟩
  · exact (hc.works.live hr.held.nothing hm.1).resolve_right hm.2

theorem Isolated.cleanup (hi : Isolated k uap uap2 allocated s) (residue : Bytes) :
    ∃ s', k.cleanup residue uap2 s = some s' ∧ ∀ c, c ∈ s'.live ↔ c ∈ s.live ∧ c ∉ allocated := by
  have hcleanup : k.cleanup = HookClones.cleanup k.layout := by cases k <;> rfl
  rw [hcleanup, ← hi.blocks]
  exact hi.clone.cleanup k.valid residue

end

/-! ### A hook that stands twice in the table -/

section

variable {uap hook : Address} {s t : ℕ} {m m' : Bytes}

theorem wordAt_putWord_aligned (m : Bytes) {a b : Word} (v : Word) (ha : a.toNat % 8 = 0)
    (hb : b.toNat % 8 = 0) :
    wordAt (putWord m a v) b = if b = a then v else wordAt m b := by
  have hlt := a.isLt
  have hlt' := b.isLt
  by_cases he : b = a
  · rw [if_pos he, he, wordAt_putWord]
  · rw [if_neg he]
    refine wordAt_putWord_apart fun x hx hx' => he (BitVec.eq_of_toNat_eq ?_)
    have hx := hx.toNat_bounds (by omega)
    have hx' := hx'.toNat_bounds (by omega)
    omega

private theorem removeLoop_found (hs : s < 2 ^ 64) (hne : hook ≠ 0)
    (h : wordAt m (slot (field m uap functionLayout.hook) (BitVec.ofNat 64 s)) = hook) :
    removeLoop uap hook s t m = removeLoop uap hook (s + 1) (t + 1)
      (putWord m (slot (field m uap functionLayout.hook) (BitVec.ofNat 64 s))
        (wordAt m (slot (field m uap functionLayout.hook) (BitVec.ofNat 64 (s + (t + 1)))))) := by
  rw [removeLoop_next hs (h ▸ hne) (if_pos h), if_pos (Nat.succ_ne_zero t)]

theorem remove_eq (huap : uap ≠ 0) (hhook : hook ≠ 0) (hlock : field m uap 184 = 0)
    (hloop : removeLoop uap hook 0 0 (setField m uap 184 1) = some (t, m')) (ht : t ≠ 0)
    (live : List (Block 64)) :
    ps4KernelFunctionHookRemove uap hook ⟨m, live⟩ = some (ps4Ok,
      ⟨setField (setField m' uap 128 (field m' uap 128 - BitVec.ofNat 64 t)) uap 184 0, live⟩) := by
  rw [ps4KernelFunctionHookRemove, if_neg huap, if_neg hhook, acquire_free (h := ⟨m, live⟩) hlock,
    Option.bind_some]
  dsimp only [onMemory]
  rw [hloop, Option.map_some]
  dsimp only
  rw [if_neg ht]
  rfl

theorem add_eq (huap : uap ≠ 0) (hhook : hook ≠ 0) (hlock : field m uap 184 = 0)
    (hfull : full functionLayout (setField m uap 184 1) uap = false) (g : Growth)
    (residue : Bytes) (type : Word)
    (live : List (Block 64)) :
    ps4KernelFunctionHookAdd g residue uap hook type ⟨m, live⟩ = some (ps4Ok,
      ⟨publish functionLayout uap hook type
        (setField (setField m uap 184 1) uap 184 0), live⟩) := by
  have hnot : ¬full functionLayout (onMemory (setField · uap 184 1) ⟨m, live⟩).memory uap =
      true := by
    change ¬full functionLayout (setField m uap 184 1) uap = true
    rw [hfull]
    exact Bool.false_ne_true
  rw [ps4KernelFunctionHookAdd, add, if_neg huap, if_neg hhook, acquire_free (h := ⟨m, live⟩) hlock,
    Option.bind_some, if_neg hnot]
  rfl

end

/-- The words of a handle with one hook, as often as `first` and `second` say. -/
structure Words (m : Bytes) (first second hookCount : Word) : Prop where
  hook : field m 0x10000 104 = 0x20040
  hookType : field m 0x10000 112 = 0x10300
  hookCount : field m 0x10000 128 = hookCount
  hookSize : field m 0x10000 136 = 8
  lock : field m 0x10000 184 = 0
  first : wordAt m 0x20040 = first
  second : wordAt m 0x20048 = second
  third : wordAt m 0x20050 = 0
  fourth : wordAt m 0x20058 = 0

section

variable {m : Bytes}

theorem Words.remove (hm : Words m 0xa 0xa 2) (live : List (Block 64)) :
    ∃ m', ps4KernelFunctionHookRemove 0x10000 0xa ⟨m, live⟩ = some (ps4Ok, ⟨m', live⟩) ∧
    Words m' 0xa 0 0 := by
  obtain ⟨hhook, htype, hcount, hsize, hlock, hfirst, hsecond, hthird, hfourth⟩ := hm
  have hloop : removeLoop 0x10000 0xa 0 0 (setField m 0x10000 184 1) =
      some (2, putWord (putWord (setField m 0x10000 184 1) 0x20040 0xa) 0x20048 0) := by
    rw [removeLoop_found (by decide) (by decide), removeLoop_found (by decide) (by decide),
      removeLoop_null (by decide)]
    all_goals simp_all [functionLayout, field, setField, slot, wordAt_putWord_aligned]
  refine ⟨_, remove_eq (by decide) (by decide) hlock hloop (by decide) live, ?_⟩
  constructor <;> simp_all [field, setField, wordAt_putWord_aligned]

theorem Words.remove_again (hm : Words m 0xa 0 0) (live : List (Block 64)) :
    ∃ m', ps4KernelFunctionHookRemove 0x10000 0xa ⟨m, live⟩ = some (ps4Ok, ⟨m', live⟩) ∧
    Words m' 0 0 (-1) := by
  obtain ⟨hhook, htype, hcount, hsize, hlock, hfirst, hsecond, hthird, hfourth⟩ := hm
  have hloop : removeLoop 0x10000 0xa 0 0 (setField m 0x10000 184 1) =
      some (1, putWord (setField m 0x10000 184 1) 0x20040 0) := by
    rw [removeLoop_found (by decide) (by decide), removeLoop_null (by decide)]
    all_goals simp_all [functionLayout, field, setField, slot, wordAt_putWord_aligned]
  refine ⟨_, remove_eq (by decide) (by decide) hlock hloop (by decide) live, ?_⟩
  constructor <;> simp_all [field, setField, wordAt_putWord_aligned]

theorem Words.add (hm : Words m 0 0 (-1)) (g : Growth) (residue : Bytes) (type : Word)
    (live : List (Block 64)) :
    ∃ m', ps4KernelFunctionHookAdd g residue 0x10000 0xb type ⟨m, live⟩ = some (ps4Ok, ⟨m', live⟩) ∧
      wordAt m' 0x20038 = 0xb := by
  obtain ⟨hhook, htype, hcount, hsize, hlock, hfirst, hsecond, hthird, hfourth⟩ := hm
  have hfull : full functionLayout (setField m 0x10000 184 1) 0x10000 = false := by
    simp_all [full, functionLayout, field, setField, wordAt_putWord_aligned]
  refine ⟨_, add_eq (by decide) (by decide) hlock hfull g residue type live, ?_⟩
  simp_all [publish, functionLayout, field, setField, slot, wordAt_putWord_aligned]


theorem Words.step {s : Store} (hm : Words s.memory 0xa 0xa 2) (uap2 : Address) :
    ∃ s', Guarded (Guard 0x10000) (Step 0x10000 uap2) s
      (.operate (.add ⟨0, 0⟩ (fun _ => 0) 0xb 1) : Action .function) s' := by
  obtain ⟨_, _, hcount, hsize, hlock, _, _, _, _⟩ := hm
  have hfull : full functionLayout (setField s.memory 0x10000 184 1) 0x10000 = false := by
    simp_all [full, functionLayout, field, setField, wordAt_putWord_aligned]
  have hadd := add_eq (by decide) (by decide : (0xb : Address) ≠ 0) hlock hfull ⟨0, 0⟩
    (fun _ => 0) 1 s.live
  refine ⟨_, ?_, ⟨fun hz => absurd rfl hz, fun hz => absurd rfl hz⟩, _, hadd⟩
  change (field s.memory 0x10000 128).toNat + 1 < 2 * (field s.memory 0x10000 136).toNat
  rw [hcount, hsize]
  decide

/-- The words are in the handle and in the first of its blocks. -/
theorem Words.congr {m' : Bytes} {first second hookCount : Word}
    (hm : Words m first second hookCount) (hself : ∀ x, (⟨0x10000, 192⟩ : Block 64).Has x →
      m' x = m x)
    (hhook : ∀ x, (⟨0x20040, 64⟩ : Block 64).Has x → m' x = m x) :
    Words m' first second hookCount := by
  have hfield {o : ℕ} (ho : o + 8 ≤ 192) : field m' 0x10000 o = field m 0x10000 o :=
    field_congr ho hself
  have hentry {o : ℕ} (ho : o + 8 ≤ 64) : field m' 0x20040 o = field m 0x20040 o :=
    field_congr ho hhook
  constructor
  · exact (hfield (by decide)).trans hm.hook
  · exact (hfield (by decide)).trans hm.hookType
  · exact (hfield (by decide)).trans hm.hookCount
  · exact (hfield (by decide)).trans hm.hookSize
  · exact (hfield (by decide)).trans hm.lock
  · exact (hentry (o := 0) (by decide)).trans hm.first
  · exact (hentry (o := 8) (by decide)).trans hm.second
  · exact (hentry (o := 16) (by decide)).trans hm.third
  · exact (hentry (o := 24) (by decide)).trans hm.fourth

end

/-- A handle to which one hook was added twice. -/
def repeated : Store where
  memory :=
    let m : Bytes := fun _ => 0
    let m := setField m 0x10000 64 0x10100
    let m := setField m 0x10000 72 0x10200
    let m := setField m 0x10000 104 0x20040
    let m := setField m 0x10000 112 0x10300
    let m := setField m 0x10000 128 2
    let m := setField m 0x10000 136 8
    let m := putWord m 0x20040 0xa
    putWord m 0x20048 0xa
  live := [⟨0x10000, 192⟩, ⟨0x20040, 64⟩, ⟨0x10300, 64⟩, ⟨0x10100, 184⟩, ⟨0x10200, 48⟩]

/-- The blocks of a clone, one of which ends where the table of the handle starts. -/
def adjacent : CloneBlocks := ⟨0x30000, 0x20000, 0x30100, [0x30200, 0x30300]⟩

private theorem repeated_words :
    Words repeated.memory 0xa 0xa 2 := by constructor <;> decide +kernel

private theorem repeated_blocks :
    functionLayout.blocks repeated.memory 0x10000 = repeated.live := by decide +kernel

theorem repeated_ready : Ready functionLayout repeated 0x10000 := by
  have hsound : repeated.Sound := Heap.sound_of_before (by decide) (by decide) (by decide)
  refine ⟨⟨⟨hsound, fun c hc => ?_⟩, ?_⟩, fun _ => ⟨2, ?_, ?_⟩, fun ht => absurd ht (by decide)⟩
  · change c ∈ functionLayout.blocks repeated.memory 0x10000 at hc
    rw [repeated_blocks] at hc
    exact hc
  · rw [repeated_blocks]
    exact hsound.nodup
  · decide +kernel
  · decide +kernel

private theorem adjacent_blocks :
    adjacent.blocks functionLayout (tableSize functionLayout repeated.memory 0x10000) =
      [⟨0x30000, 192⟩, ⟨0x20000, 64⟩, ⟨0x30100, 64⟩, ⟨0x30200, 184⟩,
        ⟨0x30300, 48⟩] := by decide +kernel

theorem adjacent_allowed : adjacent.Allowed functionLayout repeated 0x10000 := by
  have hfits : ∀ c ∈ [(⟨0x30000, 192⟩ : Block 64), ⟨0x20000, 64⟩, ⟨0x30100, 64⟩,
    ⟨0x30200, 184⟩, ⟨0x30300, 48⟩],
    c.Fits := by decide
  refine ⟨rfl, ?_, ?_⟩
  · rw [adjacent_blocks]
    have hbefore : ∀ c ∈
      [(⟨0x30000, 192⟩ : Block 64), ⟨0x20000, 64⟩, ⟨0x30100, 64⟩, ⟨0x30200, 184⟩, ⟨0x30300, 48⟩],
      ∀ d ∈ repeated.live, c.Before d ∨ d.Before c := by decide
    exact fun c hc => ⟨hfits c hc, fun d hd => (hfits c hc).clear
      (repeated_ready.held.owns.sound.fits d hd)
      (hbefore c hc d hd)⟩
  · rw [adjacent_blocks]
    have hpairs : [(⟨0x30000, 192⟩ : Block 64), ⟨0x20000, 64⟩, ⟨0x30100, 64⟩, ⟨0x30200, 184⟩,
      ⟨0x30300, 48⟩].Pairwise
      fun c d => c.Before d ∨ d.Before c := by decide
    exact hpairs.imp_of_mem fun hc hd h => (hfits _ hc).clear (hfits _ hd) h

theorem repeated_clone_words :
    Words (ps4PayloadFunctionHookArgumentClone adjacent 0x10000 repeated).memory 0xa 0xa 2 := by
  have hcall : ∀ q ∈ ([] : List (ℕ × Word)), 8 ∣ q.1 ∧ q.1 + 8 ≤ functionLayout.size ∧
      q.1 ∉ functionLayout.pointers := by
    simp
  have hc := clone_cloning functionLayout_valid repeated_ready.held adjacent_allowed hcall
  obtain ⟨_, _, hbytes⟩ :=
    repeated_ready.held.frame functionLayout_valid hc.works repeated_ready.held.nothing
    fun _ _ hm => hm
  rw [repeated_blocks] at hbytes
  exact repeated_words.congr (hbytes _ (by decide)).2 (hbytes _ (by decide)).2

private theorem adjacent_word :
    wordAt (ps4PayloadFunctionHookArgumentClone adjacent 0x10000 repeated).memory 0x20038 = 0 := by
  decide +kernel

/-! ### Isolation -/

/-- For every handle between its calls and every clone of it, in each state of a run in which every
function hook is added at a place of the table: calls on the handle leave the bytes of the blocks of
the clone, changes of the clone leave those of the handle, and the cleanup frees the blocks that
were allocated for the clone, none of which is one of the handle. -/
theorem clone_isolated {k : Kind} {h s : Store} {uap : Address} {b : CloneBlocks}
    {as : List (Action k)} (td sysuap : Address) (hr : Ready k.layout h uap)
    (hb : b.Allowed k.layout h uap)
    (hrun : Run (Guarded (Guard uap) (Step uap b.uap)) (k.clone b td uap sysuap h) as s) :
    (∀ (operations : List (Operation k)) (s' : Store),
        Run (Guarded (Guard uap) (Step uap b.uap)) s (operations.map .operate) s' →
          Kept (k.layout.blocks s.memory b.uap) s s') ∧
      (∀ (ms : List Bytes) (s' : Store),
        Run (Guarded (Guard uap) (Step uap b.uap)) s (ms.map fun m => (.change m : Action k)) s' →
          Kept (k.layout.blocks s.memory uap) s s') ∧
      ∀ residue : Bytes, ∃ s', k.cleanup residue b.uap s = some s' ∧
        ∀ c, (c ∈ s.live ∧ c ∉ s'.live ↔ c ∈ (k.clone b td uap sysuap h).live ∧ c ∉ h.live) ∧
          (c ∈ s'.live → c ∈ s.live) ∧ (c ∈ k.layout.blocks s.memory uap → c ∈ s'.live) := by
  obtain ⟨hstart, hallocated⟩ := hr.clone hb td sysuap
  have hi := hstart.run hrun
  refine ⟨fun operations s' hops => ?_, fun ms s' hms => hi.changes hms, fun residue => ?_⟩
  · rw [hi.blocks]
    exact hi.operates hops
  · obtain ⟨s', hcleanup, hlive⟩ := hi.cleanup residue
    refine ⟨s', hcleanup, fun c => ⟨⟨fun hc => ?_, fun hc => ?_⟩,
      fun hc => ((hlive c).mp hc).1, fun hc => ?_⟩⟩
    · refine (hallocated c).mp (by_contra fun hnot => hc.2 ?_)
      exact (hlive c).mpr ⟨hc.1, hnot⟩
    · have hm := (hallocated c).mpr hc
      refine ⟨hi.clone.owns.live c ?_, fun hc' => ((hlive c).mp hc').2 hm⟩
      change c ∈ k.layout.blocks s.memory b.uap
      rw [hi.blocks]
      exact hm
    · exact (hlive c).mpr ⟨hi.handle.held.owns.live c hc, fun hm => hi.apart c hm hc⟩

theorem clone_isolated_repeated :
    ∃ s, Run (Guarded (Guard 0x10000) (Step 0x10000 adjacent.uap))
      (Kind.function.clone adjacent 0 0x10000 0 repeated)
        [(.operate (.add ⟨0, 0⟩ (fun _ => 0) 0xb 1) : Action .function)] s ∧
      ∃ s', Kind.function.cleanup (fun _ => 0) adjacent.uap s = some s' := by
  obtain ⟨s, hstep⟩ := repeated_clone_words.step adjacent.uap
  have hrun := Run.single hstep
  obtain ⟨s', hcleanup, _⟩ :=
    (clone_isolated (k := .function) 0 0 repeated_ready adjacent_allowed hrun).2.2 fun _ => 0
  exact ⟨s, hrun, s', hcleanup⟩

/-- Behind the clone the hook is removed twice, which takes `hookCount` below zero, and the next one
is added in front of the table, where a block of the clone ends. -/
theorem clone_overwritten :
    Ready Kind.function.layout repeated 0x10000 ∧
    adjacent.Allowed Kind.function.layout repeated 0x10000 ∧
      ∃ s, Run (Step 0x10000 adjacent.uap) (Kind.function.clone adjacent 0 0x10000 0 repeated)
        ([.remove 0xa, .remove 0xa, .add ⟨0, 0⟩ (fun _ => 0) 0xb 1].map .operate : List
          (Action .function)) s ∧
        ¬Kept (Kind.function.layout.blocks (Kind.function.clone adjacent 0 0x10000 0
          repeated).memory adjacent.uap)
          (Kind.function.clone adjacent 0 0x10000 0 repeated) s := by
  have hallowed : (⟨0, 0⟩ : Growth).hook ≠ 0 → False := fun h => h rfl
  obtain ⟨m₁, hremove₁, hm₁⟩ := repeated_clone_words.remove
    (ps4PayloadFunctionHookArgumentClone adjacent 0x10000 repeated).live
  obtain ⟨m₂, hremove₂, hm₂⟩ :=
    hm₁.remove_again (ps4PayloadFunctionHookArgumentClone adjacent 0x10000 repeated).live
  obtain ⟨m₃, hadd, hword⟩ := hm₂.add ⟨0, 0⟩ (fun _ => 0) 1
    (ps4PayloadFunctionHookArgumentClone adjacent 0x10000 repeated).live
  refine ⟨repeated_ready, adjacent_allowed, _, .cons ⟨trivial, _, hremove₁⟩
    (.cons ⟨trivial, _, hremove₂⟩ (.cons ⟨⟨fun hz => (hallowed hz).elim,
      fun hz => (hallowed hz).elim⟩, _, hadd⟩ (.nil _))), fun hkept => ?_⟩
  have hblocks := (repeated_ready.clone (k := .function) adjacent_allowed 0 0).1.blocks
  have hmem : (⟨0x20000, 64⟩ : Block 64) ∈
      Kind.function.layout.blocks (Kind.function.clone adjacent 0 0x10000 0 repeated).memory
        adjacent.uap := by
    rw [hblocks]
    exact adjacent_blocks ▸ List.mem_cons_of_mem _ List.mem_cons_self
  have hbytes := hkept _ hmem
  have hsame : wordAt m₃ 0x20038 =
    wordAt (ps4PayloadFunctionHookArgumentClone adjacent 0x10000 repeated).memory 0x20038 :=
    wordAt_congr fun x hx => eq_of_cellsAt_eq hbytes
      (Inside.of_add (a := 0x20000) (i := 56) hx (by decide))
  rw [hword, adjacent_word] at hsame
  exact absurd hsame (by decide)

end Ps4Sdk.HookClones
