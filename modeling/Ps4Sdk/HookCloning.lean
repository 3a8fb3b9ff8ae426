import Ps4Sdk.HookHandleCalls

/-!
# The making of a clone

A clone starts as the copy of its handle and has the pointers of the handle. Its blocks
are allocated one by one, and a pointer is set for each. Behind the last one they lead to
the new blocks, which are what the cleanup frees.
-/

namespace Ps4Sdk.HookClones
open ByteMemory AssemblyMachines AllocatedMemory

/-! ### Copies -/

section

variable {source target : Address} {n : ℕ} {m : Bytes}

theorem copyBytes_outside {x : Address} (hx : ¬Inside target n x) :
    copyBytes source target n m x = m x := by
  induction n with
  | zero => rfl
  | succ n ih =>
    have hlast : ¬Inside (target + BitVec.ofNat 64 n) 1 x := fun h => hx (h.of_add le_rfl)
    have hfront : ¬Inside target n x := fun h => hx (h.mono (Nat.le_succ n))
    rw [copyBytes, write_outside _ hlast, ih hfront]

theorem copyBytes_inside (hn : n ≤ 2 ^ 64) (ha : Apart source n target n) {i : ℕ} (hi : i < n) :
    copyBytes source target n m (target + BitVec.ofNat 64 i) = m (source + BitVec.ofNat 64 i) := by
  induction n with
  | zero => omega
  | succ n ih =>
    rw [copyBytes]
    by_cases he : i = n
    · subst he
      have hread : copyBytes source target i m (source + BitVec.ofNat 64 i) =
        m (source + BitVec.ofNat 64 i) :=
        copyBytes_outside fun h => ha _ (inside_add source hi) (h.mono (Nat.le_succ i))
      rw [hread]
      simp [write]
    · have hlast : ¬Inside (target + BitVec.ofNat 64 n) 1 (target + BitVec.ofNat 64 i) := by
        rw [inside_offset (by omega), toNat_add_sub, Nat.mod_eq_of_lt (by omega)]
        omega
      rw [write_outside _ hlast]
      exact ih (by omega) (ha.mono (Nat.le_succ n) (Nat.le_succ n)) (by omega)

theorem field_copyBytes {o : ℕ} (hn : n ≤ 2 ^ 64) (ha : Apart source n target n) (ho : o + 8 ≤ n) :
    field (copyBytes source target n m) target o = field m source o := by
  have hcells : cellsAt (copyBytes source target n m) (target + BitVec.ofNat 64 o) 8 =
      cellsAt m (source + BitVec.ofNat 64 o) 8 := by
    refine List.map_congr_left fun i hi => ?_
    have hlt := List.mem_range.mp hi
    rw [offset_add, offset_add]
    exact copyBytes_inside hn ha (by omega)
  rw [field, wordAt, hcells, field, wordAt]

end

/-! ### The clone -/

def bufferBlock (p : (ℕ × ℕ) × Address) : Block 64 := ⟨p.2, p.1.2⟩

/-- The blocks that a clone allocates, with the size of those of its table. -/
def CloneBlocks.blocks (b : CloneBlocks) (L : Layout) (size : ℕ) : List (Block 64) :=
  ⟨b.uap, L.size⟩ :: ⟨b.hook, size⟩ :: ⟨b.hookType, size⟩ ::
    (L.buffers.zip b.buffers).map bufferBlock

/-- What the allocations of a clone may give. -/
structure CloneBlocks.Allowed (b : CloneBlocks) (L : Layout) (h : Store)
    (uap : Address) : Prop where
  length : b.buffers.length = L.buffers.length
  fresh : ∀ c ∈ b.blocks L (tableSize L h.memory uap), h.Fresh c
  clear : (b.blocks L (tableSize L h.memory uap)).Pairwise Block.Clear

/-- A clone in the making: its blocks so far, the first of which is itself, and the fields that have
their values. -/
structure Cloning (L : Layout) (h : Store) (uap2 : Address) (blocks : List (Block 64))
    (fields : List (ℕ × Word)) (s : Store) : Prop where
  works : Works ∅ h {c | c ∈ blocks} s
  self : ⟨uap2, L.size⟩ ∈ blocks
  fields : ∀ p ∈ fields, p.1 ∈ L.offsets ∧ field s.memory uap2 p.1 = p.2

section

variable {L : Layout} {h s : Store} {uap uap2 : Address} {blocks : List (Block 64)}
  {fields : List (ℕ × Word)} {c : Block 64} {o : ℕ} {v : Word}

theorem Cloning.allocate (hc : Cloning L h uap2 blocks fields s) (hv : L.Valid) (ho : Owns h ∅)
    (hf : h.Fresh c) (hclear : ∀ d ∈ blocks, c.Clear d) :
    Cloning L h uap2 (blocks ++ [c]) fields (s.allocate c 0) := by
  have hset : insert c {d | d ∈ blocks} = {d | d ∈ blocks ++ [c]} := by
    ext d
    simp [or_comm]
  have hworks := hc.works.allocate 0 (hc.works.fresh ho hf hclear)
  rw [hset] at hworks
  refine ⟨hworks, List.mem_append_left _ hc.self, fun p hp => ?_⟩
  obtain ⟨hmem, hfield⟩ := hc.fields p hp
  refine ⟨hmem, (field_congr (hv.inside _ hmem) fun x hx => ?_).trans hfield⟩
  exact Heap.allocate_outside ((hclear _ hc.self).symm.apart x hx)

theorem Cloning.store (hc : Cloning L h uap2 blocks fields s) (hv : L.Valid) (ho : Owns h ∅)
    (hm : c ∈ blocks) (hne : (⟨uap2, L.size⟩ : Block 64) ≠ c) {m : Bytes}
    (houtside : ∀ x, ¬c.Has x → m x = s.memory x) :
    Cloning L h uap2 blocks fields { s with memory := m } := by
  have howns := hc.works.owns ho
  have hclear := howns.sound.clear _ (howns.live _ hc.self) c (howns.live c hm) hne
  refine ⟨hc.works.change fun x hx => houtside x (hx c hm), hc.self, fun p hp => ?_⟩
  obtain ⟨hmem, hfield⟩ := hc.fields p hp
  exact ⟨hmem, (field_congr (hv.inside _ hmem) fun x hx => houtside x
    (hclear.apart x hx)).trans hfield⟩

theorem Cloning.setField (hc : Cloning L h uap2 blocks fields s) (hv : L.Valid) (ho : 8 ∣ o)
    (hs : o + 8 ≤ L.size) (hnew : ∀ p ∈ fields, p.1 ≠ o) :
    Cloning L h uap2 blocks fields (onMemory (setField · uap2 o v) s) := by
  have hsmall := hv.small
  refine ⟨hc.works.change fun x hx => setField_outside hs (hx _ hc.self), hc.self, fun p hp => ?_⟩
  obtain ⟨hmem, hfield⟩ := hc.fields p hp
  refine ⟨hmem, Eq.trans ?_ hfield⟩
  exact field_setField_of_ne (hv.aligned _ hmem) ho (hv.lt hmem) (by omega) (hnew p hp)

theorem Cloning.setPointer (hc : Cloning L h uap2 blocks fields s) (hv : L.Valid)
    (ho : o ∈ L.offsets) (hnew : ∀ p ∈ fields, p.1 ≠ o) :
    Cloning L h uap2 blocks (fields ++ [(o, v)]) (onMemory (HookClones.setField · uap2 o v) s) := by
  have hset : Cloning L h uap2 blocks fields (onMemory (HookClones.setField · uap2 o v) s) :=
    hc.setField hv (hv.aligned o ho) (hv.inside o ho) hnew
  refine ⟨hset.works, hset.self, fun p hp => ?_⟩
  rcases List.mem_append.mp hp with hp | hp
  · exact hset.fields p hp
  · obtain rfl := List.mem_singleton.mp hp
    exact ⟨ho, field_setField _ _ _ _⟩

theorem Cloning.buffers {l : List ((ℕ × ℕ) × Address)} (hc : Cloning L h uap2 blocks fields s)
    (hv : L.Valid) (hn : Owns h ∅) (hf : ∀ c ∈ l.map bufferBlock, h.Fresh c)
    (hclear : (blocks ++ l.map bufferBlock).Pairwise Block.Clear) (ho : ∀ p ∈ l, p.1.1 ∈ L.offsets)
    (hnew : (fields.map Prod.fst ++ l.map fun p => p.1.1).Nodup) :
    Cloning L h uap2 (blocks ++ l.map bufferBlock) (fields ++ l.map fun p => (p.1.1, p.2))
      (l.foldl (cloneBuffer uap2) s) := by
  induction l generalizing blocks fields s with
  | nil =>
    rw [List.map_nil, List.append_nil, List.map_nil, List.append_nil]
    exact hc
  | cons p l ih =>
    have hfresh : h.Fresh (bufferBlock p) := hf _ List.mem_cons_self
    have hclear' : ∀ d ∈ blocks, (bufferBlock p).Clear d := fun d hd =>
      ((List.pairwise_append.mp hclear).2.2 d hd _ List.mem_cons_self).symm
    have hnew' : ∀ q ∈ fields, q.1 ≠ p.1.1 := fun q hq =>
      (List.nodup_append.mp hnew).2.2 _ (List.mem_map_of_mem hq) _ List.mem_cons_self
    have hstep : Cloning L h uap2 (blocks ++ [bufferBlock p]) (fields ++ [(p.1.1, p.2)])
      (cloneBuffer uap2 s p) :=
      (hc.allocate hv hn hfresh hclear').setPointer hv (ho p List.mem_cons_self) hnew'
    have hrest := ih hstep (fun c hc => hf c (List.mem_cons_of_mem _ hc)) (by simpa using hclear)
      (fun q hq => ho q (List.mem_cons_of_mem p hq)) (by simpa using hnew)
    simpa using hrest

theorem Cloning.table (hc : Cloning L h uap2 blocks fields s) (hv : L.Valid) (hh : Held L h uap)
    {block : Address} (hf : h.Fresh ⟨block, tableSize L h.memory uap⟩)
    (hclear : ∀ d ∈ blocks, (⟨block, tableSize L h.memory uap⟩ : Block 64).Clear d)
    (ho : o ∈ L.offsets)
    (hnew : ∀ p ∈ fields, p.1 ≠ o) :
    Cloning L h uap2 (blocks ++ [⟨block, tableSize L h.memory uap⟩]) (fields ++ [(o, block)])
      (cloneTable L o block uap uap2 s) := by
  have hsize {owned : Set (Block 64)} {h' : Store} (hw : Works ∅ h owned h') :
      tableSize L h'.memory uap = tableSize L h.memory uap := by
    rw [tableSize, hh.field_eq hw (hv.inside _ (Layout.table_mem (by simp))), tableSize]
  have hset := (hc.allocate hv hh.nothing hf hclear).setPointer (v := block) hv ho hnew
  have hpointer := (hset.fields (o, block) (by simp)).2
  unfold cloneTable
  dsimp only
  rw [hsize hc.works]
  refine hset.store hv hh.nothing (c := ⟨block, tableSize L h.memory uap⟩) (by simp)
    (hclear _ hc.self).symm.ne
    fun x hx => ?_
  dsimp only
  rw [hpointer, hsize hset.works]
  exact copyBytes_outside hx

theorem Cloning.start (hv : L.Valid) (hh : Held L h uap) (hf : h.Fresh ⟨uap2, L.size⟩) :
    Cloning L h uap2 [⟨uap2, L.size⟩] [(L.hookSize, field h.memory uap L.hookSize)]
      (onMemory (copyBytes uap uap2 L.size) (h.allocate ⟨uap2, L.size⟩ 0)) := by
  have hsize : L.hookSize ∈ L.offsets := Layout.table_mem (by simp)
  have hsmall : L.size ≤ 2 ^ 64 := hv.small.trans (by decide)
  have hclear := hf.clear _ (hh.owns.live _ (L.self_mem h.memory uap))
  have hw : Works ∅ h (insert ⟨uap2, L.size⟩ ∅) (h.allocate ⟨uap2, L.size⟩ 0) :=
    .allocate .refl 0 hf
  have hset : insert (⟨uap2, L.size⟩ : Block 64) ∅ = {d | d ∈ [(⟨uap2, L.size⟩ : Block 64)]} := by
    ext d
    simp
  have hcopy := hw.change (m := copyBytes uap uap2 L.size (h.allocate ⟨uap2, L.size⟩ 0).memory)
      fun x hx =>
    copyBytes_outside (hx ⟨uap2, L.size⟩ (.inl rfl))
  rw [hset] at hcopy
  refine ⟨hcopy, List.mem_singleton_self _, fun p hp => ?_⟩
  obtain rfl := List.mem_singleton.mp hp
  refine ⟨hsize, ?_⟩
  exact (field_copyBytes hsmall hclear.symm.apart (hv.inside _ hsize)).trans
    (hh.field_eq hw (hv.inside _ hsize))

theorem Cloning.call {call : List (ℕ × Word)} (hc : Cloning L h uap2 blocks fields s) (hv : L.Valid)
    (hcall : ∀ q ∈ call, 8 ∣ q.1 ∧ q.1 + 8 ≤ L.size ∧ ∀ p ∈ fields, p.1 ≠ q.1) :
    Cloning L h uap2 blocks fields (onMemory (fun m => call.foldl
      (fun m f => HookClones.setField m uap2 f.1 f.2) m) s) := by
  induction call generalizing s with
  | nil => exact hc
  | cons q call ih =>
    obtain ⟨haligned, hinside, hnew⟩ := hcall q List.mem_cons_self
    exact ih (hc.setField hv haligned hinside hnew) fun p hp => hcall p (List.mem_cons_of_mem q hp)

def CloneBlocks.pointers (b : CloneBlocks) (L : Layout) (hookSize : Word) : List (ℕ × Word) :=
  (L.hookSize, hookSize) :: (L.hook, b.hook) :: (L.hookType, b.hookType) ::
    (L.buffers.zip b.buffers).map fun p => (p.1.1, p.2)

private theorem CloneBlocks.buffer_mem (b : CloneBlocks) {hookSize : Word} {p : (ℕ × ℕ) × Address}
    (hp : p ∈ L.buffers.zip b.buffers) : (p.1.1, p.2) ∈ b.pointers L hookSize := by
  have hmem := List.mem_map_of_mem (f := fun p : (ℕ × ℕ) × Address => (p.1.1, p.2)) hp
  simp only [CloneBlocks.pointers, List.mem_cons]
  exact .inr (.inr (.inr hmem))

theorem Layout.Valid.pointers_nodup (hv : L.Valid) :
    ([L.hookSize, L.hook, L.hookType] ++ L.buffers.map Prod.fst).Nodup := by
  have hd := hv.distinct
  refine List.nodup_append.mpr ⟨?_, (List.nodup_append.mp hv.nodup).2.1, fun o ho o' ho' => ?_⟩
  · simp [hd.hook_hookSize.symm, hd.hookType_hookSize.symm, hd.hook_hookType]
  · obtain ⟨q, hq, rfl⟩ := List.mem_map.mp ho'
    obtain ⟨h₁, h₂, h₃⟩ := hd.buffer q hq
    rintro rfl
    simp only [List.mem_cons, List.not_mem_nil, or_false] at ho
    tauto

theorem CloneBlocks.Allowed.offsets {b : CloneBlocks} (hb : b.Allowed L h uap) :
    ((L.buffers.zip b.buffers).map fun p => p.1.1) = L.buffers.map Prod.fst := by
  have hzip : (L.buffers.zip b.buffers).map Prod.fst = L.buffers :=
    List.map_fst_zip (by rw [hb.length])
  calc ((L.buffers.zip b.buffers).map fun p => p.1.1)
      = ((L.buffers.zip b.buffers).map Prod.fst).map Prod.fst := by rw [List.map_map]; rfl
    _ = L.buffers.map Prod.fst := by rw [hzip]

theorem CloneBlocks.Allowed.mem_pointers {b : CloneBlocks} (hb : b.Allowed L h uap)
    {hookSize : Word} {p : ℕ × Word} (hp : p ∈ b.pointers L hookSize) : p.1 ∈ L.pointers := by
  have hmem := List.mem_map_of_mem (f := Prod.fst) hp
  rw [CloneBlocks.pointers, List.map_cons, List.map_cons, List.map_cons, List.map_map] at hmem
  have hbuffers : (L.buffers.zip b.buffers).map (Prod.fst ∘ fun p => (p.1.1, p.2)) =
    L.buffers.map Prod.fst := hb.offsets
  rw [hbuffers] at hmem
  simp only [Layout.pointers, List.mem_cons, List.mem_append, List.not_mem_nil, or_false] at hmem ⊢
  tauto

/-- The clone has the blocks that it allocated, and its pointers lead to them. -/
theorem clone_cloning {b : CloneBlocks} (hv : L.Valid) (hh : Held L h uap) (hb : b.Allowed L h uap)
    {call : List (ℕ × Word)} (hcall : ∀ q ∈ call, 8 ∣ q.1 ∧ q.1 + 8 ≤ L.size ∧ q.1 ∉ L.pointers) :
    Cloning L h b.uap (b.blocks L (tableSize L h.memory uap))
      (b.pointers L (field h.memory uap L.hookSize))
      (clone L b uap call h) := by
  have hd := hv.distinct
  have hself : h.Fresh ⟨b.uap, L.size⟩ := hb.fresh _ (by simp [CloneBlocks.blocks])
  have hhook : h.Fresh ⟨b.hook, tableSize L h.memory uap⟩ :=
    hb.fresh _ (by simp [CloneBlocks.blocks])
  have htype : h.Fresh ⟨b.hookType, tableSize L h.memory uap⟩ :=
    hb.fresh _ (by simp [CloneBlocks.blocks])
  have hclear := hb.clear
  obtain ⟨hclear₁, hclear₂,
    _⟩ := by simpa only [CloneBlocks.blocks, List.pairwise_cons] using hclear
  have hc₁ := (Cloning.start hv hh hself).table hv hh hhook
    (by simpa using (hclear₁ _ List.mem_cons_self).symm)
    (Layout.table_mem (by simp) : L.hook ∈ L.offsets)
    (by simpa using hd.hook_hookSize.symm)
  have hc₂ := hc₁.table hv hh htype
    (by simpa using ⟨(hclear₁ _ (by simp)).symm, (hclear₂ _ List.mem_cons_self).symm⟩)
    (Layout.table_mem (by simp) : L.hookType ∈ L.offsets)
    (by simpa using ⟨hd.hookType_hookSize.symm, hd.hook_hookType⟩)
  have hbuffers : ∀ c ∈ (L.buffers.zip b.buffers).map bufferBlock, h.Fresh c := fun c hc =>
    hb.fresh c (List.mem_cons_of_mem _ (List.mem_cons_of_mem _ (List.mem_cons_of_mem _ hc)))
  have hoffsets : ∀ p ∈ L.buffers.zip b.buffers, p.1.1 ∈ L.offsets := fun p hp =>
    List.mem_append_right _ (hb.offsets ▸ List.mem_map_of_mem (f := fun p => p.1.1) hp)
  have hc₃ := hc₂.buffers hv hh.nothing hbuffers hclear hoffsets
    (by rw [hb.offsets]; exact hv.pointers_nodup)
  refine hc₃.call hv fun q hq => ?_
  obtain ⟨haligned, hinside, hpointer⟩ := hcall q hq
  exact ⟨haligned, hinside, fun p hp he => hpointer (he ▸ hb.mem_pointers hp)⟩

private theorem Held.tableSize_eq (hh : Held L h uap) :
    tableSize L h.memory uap = 8 * (field h.memory uap L.hookSize).toNat := by
  have hdouble := hh.double_lt
  have h8 : (8 : Word).toNat = 8 := rfl
  rw [tableSize, BitVec.toNat_mul, h8]
  omega

theorem Cloning.blocks_eq {b : CloneBlocks} (hh : Held L h uap) (hb : b.Allowed L h uap)
    (hc : Cloning L h b.uap blocks (b.pointers L (field h.memory uap L.hookSize)) s) :
    L.blocks s.memory b.uap = b.blocks L (tableSize L h.memory uap) := by
  have hfield {p : ℕ × Word} (hp : p ∈ b.pointers L (field h.memory uap L.hookSize)) :
      field s.memory b.uap p.1 = p.2 := (hc.fields p hp).2
  have hsize := hfield (p := (L.hookSize, field h.memory uap L.hookSize))
    (by simp [CloneBlocks.pointers])
  have hhook := hfield (p := (L.hook, b.hook)) (by simp [CloneBlocks.pointers])
  have htype := hfield (p := (L.hookType, b.hookType)) (by simp [CloneBlocks.pointers])
  have hzip : (L.buffers.zip b.buffers).map Prod.fst = L.buffers :=
    List.map_fst_zip (by rw [hb.length])
  have hbuffers : L.bufferBlocks s.memory b.uap = (L.buffers.zip b.buffers).map bufferBlock := by
    rw [Layout.bufferBlocks]
    nth_rewrite 1 [← hzip]
    rw [List.map_map]
    refine List.map_congr_left fun p hp => ?_
    have hpointer : field s.memory b.uap p.1.1 = p.2 := hfield (p := (p.1.1, p.2)) (b.buffer_mem hp)
    change (⟨field s.memory b.uap p.1.1, p.1.2⟩ : Block 64) = ⟨p.2, p.1.2⟩
    rw [hpointer]
  rw [Layout.blocks_eq, hookBlock, hookTypeBlock, hsize, hhook, htype, hbuffers, ← hh.tableSize_eq,
    CloneBlocks.blocks]

/-! ### The cleanup -/

/-- The blocks of some fields, freed one behind the other. -/
theorem free_fields {l : List (ℕ × Block 64)} (residue : Bytes) (hs : h.Sound)
    (hself : ⟨uap, L.size⟩ ∈ h.live) (hl : ∀ p ∈ l, p.1 + 8 ≤ L.size ∧
      field h.memory uap p.1 = p.2.base ∧ p.2 ∈ h.live ∧ p.2 ≠ ⟨uap, L.size⟩)
    (hn : (l.map Prod.snd).Nodup) :
    ∃ h', (l.map Prod.fst).foldlM (fun (h : Store) o => h.free (field h.memory uap o) residue) h =
      some h' ∧
      h'.Sound ∧ ∀ c, c ∈ h'.live ↔ c ∈ h.live ∧ c ∉ l.map Prod.snd := by
  induction l generalizing h with
  | nil => exact ⟨h, rfl, hs, fun c => by simp⟩
  | cons p l ih =>
    obtain ⟨_, hbase, hlive, hne⟩ := hl p List.mem_cons_self
    obtain ⟨hnew, hn⟩ := List.nodup_cons.mp hn
    have hclear := hs.clear _ hself p.2 hlive (Ne.symm hne)
    have hfree := hs.free_eq hlive residue
    have hrest : ∀ q ∈ l, q.1 + 8 ≤ L.size ∧
      field (h.release p.2 residue).memory uap q.1 = q.2.base ∧
        q.2 ∈ (h.release p.2 residue).live ∧ q.2 ≠ ⟨uap, L.size⟩ := by
      intro q hq
      obtain ⟨hinside, hbase', hlive', hne'⟩ := hl q (List.mem_cons_of_mem p hq)
      have hother : q.2 ≠ p.2 := fun he => hnew (he ▸ List.mem_map_of_mem hq)
      refine ⟨hinside, Eq.trans ?_ hbase', hs.mem_release.mpr ⟨hlive', hother⟩, hne'⟩
      exact field_congr hinside fun x hx => Heap.release_outside (hclear.apart x hx)
    obtain ⟨h', hrun, hs', hmem⟩ :=
      ih (hs.release p.2 residue) (hs.mem_release.mpr ⟨hself, Ne.symm hne⟩) hrest hn
    refine ⟨h', ?_, hs', fun c => ?_⟩
    · rw [List.map_cons, List.foldlM_cons, hbase, hfree]
      exact hrun
    · rw [hmem, hs.mem_release, List.map_cons, List.mem_cons, not_or, and_assoc]

/-- The fields that are freed with their blocks, in the order of the frees. -/
def Layout.freed (L : Layout) (m : Bytes) (uap : Address) : List (ℕ × Block 64) :=
  (L.buffers.reverse.map fun q => (q.1, ⟨field m uap q.1, q.2⟩)) ++
    [(L.hookType, hookTypeBlock L m uap), (L.hook, hookBlock L m uap)]

private theorem Layout.freed_offsets (L : Layout) (m : Bytes) (uap : Address) :
    (L.freed m uap).map Prod.fst = L.buffers.reverse.map Prod.fst ++ [L.hookType, L.hook] := by
  rw [Layout.freed, List.map_append, List.map_map]
  rfl

theorem Layout.freed_blocks (L : Layout) (m : Bytes) (uap : Address) :
    ((L.freed m uap).map Prod.snd).Perm (L.blocks m uap).tail := by
  have hblocks : (L.freed m uap).map Prod.snd =
      (L.bufferBlocks m uap).reverse ++ [hookTypeBlock L m uap, hookBlock L m uap] := by
    rw [Layout.freed, List.map_append, List.map_map, Layout.bufferBlocks, ← List.map_reverse]
    rfl
  rw [hblocks]
  exact List.perm_append_comm.trans ((List.Perm.swap _ _ []).append (List.reverse_perm _))

theorem Layout.freed_fields (hv : L.Valid) (m : Bytes) (uap : Address) :
    ∀ p ∈ L.freed m uap, p.1 + 8 ≤ L.size ∧ field m uap p.1 = p.2.base := by
  intro p hp
  rcases List.mem_append.mp hp with hp | hp
  · obtain ⟨q, hq, rfl⟩ := List.mem_map.mp hp
    have hmem : q.1 ∈ L.offsets :=
      List.mem_append_right _ (List.mem_map_of_mem (List.mem_reverse.mp hq))
    exact ⟨hv.inside _ hmem, rfl⟩
  · rcases List.mem_cons.mp hp with rfl | hp
    · exact ⟨hv.inside _ (Layout.table_mem (by simp)), rfl⟩
    · obtain rfl := List.mem_singleton.mp hp
      exact ⟨hv.inside _ (Layout.table_mem (by simp)), rfl⟩

/-- The cleanup frees the blocks of the handle, and nothing else. -/
theorem Held.cleanup (hv : L.Valid) (hh : Held L h uap) (residue : Bytes) :
    ∃ h', cleanup L residue uap h = some h' ∧ ∀ c, c ∈ h'.live ↔ c ∈ h.live ∧
    c ∉ L.blocks h.memory uap := by
  obtain ⟨hself, htail⟩ := List.nodup_cons.mp hh.nodup
  have hperm := L.freed_blocks h.memory uap
  have hlive := hh.owns.live _ (L.self_mem h.memory uap)
  have hfreed : ∀ p ∈ L.freed h.memory uap, p.1 + 8 ≤ L.size ∧ field h.memory uap p.1 = p.2.base ∧
    p.2 ∈ h.live ∧
      p.2 ≠ ⟨uap, L.size⟩ := by
    intro p hp
    obtain ⟨hinside, hbase⟩ := Layout.freed_fields hv h.memory uap p hp
    have hmem := hperm.mem_iff.mp (List.mem_map_of_mem hp)
    refine ⟨hinside, hbase, hh.owns.live _ (List.mem_of_mem_tail hmem), fun he => hself ?_⟩
    rw [← he]
    exact hmem
  obtain ⟨h₁, hrun, hs₁, hmem₁⟩ :=
    free_fields residue hh.owns.sound hlive hfreed (hperm.nodup_iff.mpr htail)
  have hlive₁ : ⟨uap, L.size⟩ ∈ h₁.live :=
    (hmem₁ _).mpr ⟨hlive, fun hm => hself (hperm.mem_iff.mp hm)⟩
  refine ⟨h₁.release ⟨uap, L.size⟩ residue, ?_, fun c => ?_⟩
  · rw [HookClones.cleanup, ← L.freed_offsets h.memory uap, hrun]
    exact hs₁.free_eq hlive₁ residue
  · rw [hs₁.mem_release, hmem₁, hperm.mem_iff, Layout.blocks_eq, List.mem_cons, List.tail_cons,
      not_or, and_assoc, and_comm (a := c ∉ _)]

end

end Ps4Sdk.HookClones
