import Ps4Sdk.HookHandles

/-!
# Calls on held handles

Every call on a held handle works with its blocks, and the handle is held behind it, if
the pair that is added has room in the table or in the doubled one, and the table from
which is removed has a null. A table that grows changes its blocks: the new ones are
filled while the old ones are at hand, and these are freed. Between the calls the table of
a function hook has a null, and the entries of a system call hook fit its size.
-/

namespace Ps4Sdk.HookClones
open ByteMemory AssemblyMachines AllocatedMemory

section

variable {L : Layout} {h : Store} {uap : Address} {m : Bytes} {o : ℕ} {v : Word}

/-- The entries are copied into the new blocks where these have room for them. -/
theorem copyEntries_outside {m2 a : Address} {size t : ℕ} (hv : L.Valid)
    (ha : ∀ x, (⟨uap, L.size⟩ : Block 64).Has x → ¬(⟨a, size⟩ : Block 64).Has x)
    (hm2 : ∀ x, (⟨uap, L.size⟩ : Block 64).Has x → ¬(⟨m2, size⟩ : Block 64).Has x)
    (hroom : 8 * (field m uap L.hookCount).toNat ≤ size) {x : Address}
    (hxa : ¬(⟨a, size⟩ : Block 64).Has x)
    (hxm2 : ¬(⟨m2, size⟩ : Block 64).Has x) : copyEntries L uap a m2 t m x = m x := by
  fun_induction copyEntries L uap a m2 t m with
  | case1 t m hlt index m₁ m₂ ih =>
    have hcount := hv.inside L.hookCount (Layout.table_mem (by simp))
    have hlimit := (field m uap L.hookCount).isLt
    have hindex : index.toNat = t := by
      rw [BitVec.toNat_ofNat]
      exact Nat.mod_eq_of_lt (by omega)
    have hslot : 8 * index.toNat + 8 ≤ size := by omega
    have h₁ {x : Address} (hx : ¬(⟨a, size⟩ : Block 64).Has x) : m₁ x = m x :=
      putWord_slot_outside hslot hx
    have h₂ {x : Address} (hx : ¬(⟨m2, size⟩ : Block 64).Has x) : m₂ x = m₁ x :=
      putWord_slot_outside hslot hx
    have hsame : field m₂ uap L.hookCount = field m uap L.hookCount :=
      field_congr hcount fun x hx => (h₂ (hm2 x hx)).trans (h₁ (ha x hx))
    refine (ih ?_).trans ((h₂ hxm2).trans (h₁ hxa))
    rw [hsame]
    exact hroom
  | case2 t m hge => rfl

private theorem doubled_eq (h : 16 * (field m uap L.hookSize).toNat < 2 ^ 64) :
    doubled L m uap = 16 * (field m uap L.hookSize).toNat := by
  have h2 : (2 : Word).toNat = 2 := rfl
  have h8 : (8 : Word).toNat = 8 := rfl
  rw [doubled, BitVec.toNat_mul, BitVec.toNat_mul, h2, h8]
  omega

/-- What the allocations of a growing table may give. -/
structure Growth.Allowed (g : Growth) (L : Layout) (h : Store) (uap : Address) : Prop where
  hook : g.hook ≠ 0 → h.Fresh ⟨g.hook, doubled L h.memory uap⟩
  hookType : g.hook ≠ 0 → g.hookType ≠ 0 →
    (h.allocate ⟨g.hook, doubled L h.memory uap⟩ 0).Fresh ⟨g.hookType, doubled L h.memory uap⟩

theorem Held.other (hv : L.Valid) (hh : Held L h uap) {h' : Store} (hw : Works ∅ h ∅ h') :
    Works (L.owned h.memory uap) h (L.owned h'.memory uap) h' := by
  obtain ⟨_, hblocks, _⟩ := hh.frame hv hw hh.nothing fun _ _ hm => hm
  have hext : Works (∅ ∪ L.owned h.memory uap) h (∅ ∪ L.owned h.memory uap) h' :=
    hw.extend hh.nothing fun b hb => hh.foreign hb
  rw [Set.empty_union] at hext
  rw [show L.owned h'.memory uap = L.owned h.memory uap by rw [Layout.owned, hblocks, Layout.owned]]
  exact hext

private theorem Layout.Valid.field_other (hv : L.Valid) {o' : ℕ} (ho : o ∈ L.offsets)
    (ho' : o' ∈ L.offsets) (hne : o ≠ o') :
    field (HookClones.setField m uap o' v) uap o = field m uap o :=
  field_setField_of_ne (hv.aligned o ho) (hv.aligned o' ho') (hv.lt ho) (hv.lt ho') hne

structure Layout.Distinct (L : Layout) : Prop where
  hook_hookType : L.hook ≠ L.hookType
  hook_hookSize : L.hook ≠ L.hookSize
  hookType_hookSize : L.hookType ≠ L.hookSize
  hookCount_hook : L.hookCount ≠ L.hook
  hookCount_hookType : L.hookCount ≠ L.hookType
  hookCount_hookSize : L.hookCount ≠ L.hookSize
  buffer : ∀ b ∈ L.buffers, b.1 ≠ L.hook ∧ b.1 ≠ L.hookType ∧ b.1 ≠ L.hookSize

theorem Layout.Valid.distinct (hv : L.Valid) : L.Distinct := by
  have hn := hv.nodup
  rw [Layout.offsets, List.append_assoc] at hn
  obtain ⟨hfront, _, hrest⟩ := List.nodup_append.mp hn
  have hbuffer {b : ℕ × ℕ} (hb : b ∈ L.buffers) {o : ℕ}
    (ho : o ∈ [L.hook, L.hookType, L.hookCount, L.hookSize]) :
      b.1 ≠ o :=
    (hrest o ho b.1 (List.mem_append_right _ (List.mem_map_of_mem hb))).symm
  simp only [List.nodup_cons, List.mem_cons, List.not_mem_nil, or_false, not_or] at hfront
  obtain ⟨⟨h₁, h₂, h₃⟩, ⟨h₄, h₅⟩, h₆, _⟩ := hfront
  refine ⟨h₁, h₃, h₅, Ne.symm h₂, Ne.symm h₄, h₆, fun b hb => ⟨?_, ?_, ?_⟩⟩
  · exact hbuffer hb (by simp)
  · exact hbuffer hb (by simp)
  · exact hbuffer hb (by simp)

private theorem replaced_outside (hv : L.Valid) (g : Growth) {x : Address}
    (hx : ¬(⟨uap, L.size⟩ : Block 64).Has x) :
    replaced L g uap m x = m x := by
  have hin {o : ℕ} (ho : o ∈ [L.hook, L.hookType, L.hookCount, L.hookSize]) : o + 8 ≤ L.size :=
    hv.inside o (Layout.table_mem ho)
  unfold replaced
  rw [setField_outside (hin (by simp)) hx, setField_outside (hin (by simp)) hx,
    setField_outside (hin (by simp)) hx]

theorem replaced_fields (hv : L.Valid) (g : Growth) (uap : Address) (m : Bytes) :
    field (replaced L g uap m) uap L.hook = g.hook ∧
    field (replaced L g uap m) uap L.hookType = g.hookType ∧
      field (replaced L g uap m) uap L.hookSize = field m uap L.hookSize * 2 ∧
      field (replaced L g uap m) uap L.hookCount = field m uap L.hookCount ∧
      ∀ b ∈ L.buffers, field (replaced L g uap m) uap b.1 = field m uap b.1 := by
  have hd := hv.distinct
  have hhook : L.hook ∈ L.offsets := Layout.table_mem (by simp)
  have htype : L.hookType ∈ L.offsets := Layout.table_mem (by simp)
  have hcount : L.hookCount ∈ L.offsets := Layout.table_mem (by simp)
  have hsize : L.hookSize ∈ L.offsets := Layout.table_mem (by simp)
  unfold replaced
  refine ⟨?_, ?_, ?_, ?_, fun b hb => ?_⟩
  · rw [hv.field_other hhook hsize hd.hook_hookSize, hv.field_other hhook htype hd.hook_hookType,
      field_setField]
  · rw [hv.field_other htype hsize hd.hookType_hookSize, field_setField]
  · rw [field_setField, hv.field_other hsize htype hd.hookType_hookSize.symm,
      hv.field_other hsize hhook hd.hook_hookSize.symm]
  · rw [hv.field_other hcount hsize hd.hookCount_hookSize,
      hv.field_other hcount htype hd.hookCount_hookType,
      hv.field_other hcount hhook hd.hookCount_hook]
  · obtain ⟨h₁, h₂, h₃⟩ := hd.buffer b hb
    have hbuffer : b.1 ∈ L.offsets := List.mem_append_right _ (List.mem_map_of_mem hb)
    rw [hv.field_other hbuffer hsize h₃, hv.field_other hbuffer htype h₂,
      hv.field_other hbuffer hhook h₁]

private theorem Held.doubled_allocate (hv : L.Valid) (hh : Held L h uap) {g : Growth}
    (hg : g.Allowed L h uap) (hz : g.hook ≠ 0) :
    doubled L (h.allocate ⟨g.hook, doubled L h.memory uap⟩ 0).memory uap =
      doubled L h.memory uap := by
  have hw : Works ∅ h _ (h.allocate ⟨g.hook, doubled L h.memory uap⟩ 0) :=
    .allocate .refl 0 (hg.hook hz)
  rw [doubled, hh.field_eq hw (hv.inside _ (Layout.table_mem (by simp))), ← doubled]

/-- The new blocks are filled by one who owns nothing else. -/
theorem copied_works (hv : L.Valid) (hh : Held L h uap)
    (hroom : 8 * (field h.memory uap L.hookCount).toNat ≤ doubled L h.memory uap) {g : Growth}
    (hg : g.Allowed L h uap) (hz : g.hook ≠ 0) (hz' : g.hookType ≠ 0) :
    Works ∅ h (insert ⟨g.hookType, doubled L h.memory uap⟩
      (insert ⟨g.hook, doubled L h.memory uap⟩ ∅))
      (copied L g uap h) := by
  have hself := hh.owns.live _ (L.self_mem h.memory uap)
  have hw₁ : Works ∅ h _ (h.allocate ⟨g.hook, doubled L h.memory uap⟩ 0) :=
    .allocate .refl 0 (hg.hook hz)
  have hw₂ := hw₁.allocate 0 (hg.hookType hz hz')
  have hcount := hh.field_eq hw₂ (hv.inside L.hookCount (Layout.table_mem (by simp)))
  unfold copied
  dsimp only
  rw [hh.doubled_allocate hv hg hz]
  refine hw₂.change fun x hx => copyEntries_outside hv ?_ ?_ ?_
    (hx ⟨g.hook, doubled L h.memory uap⟩ (.inr (.inl rfl)))
    (hx ⟨g.hookType, doubled L h.memory uap⟩ (.inl rfl))
  · exact ((hg.hook hz).clear _ hself).symm.apart
  · exact ((hg.hookType hz hz').clear _ (List.mem_cons_of_mem _ hself)).symm.apart
  · rw [hcount]
    exact hroom

def Layout.bufferBlocks (L : Layout) (m : Bytes) (uap : Address) : List (Block 64) :=
  L.buffers.map fun b => ⟨field m uap b.1, b.2⟩

theorem Layout.blocks_eq (L : Layout) (m : Bytes) (uap : Address) :
    L.blocks m uap = ⟨uap, L.size⟩ :: hookBlock L m uap :: hookTypeBlock L m uap ::
      L.bufferBlocks m uap := rfl

theorem Held.table_ne (hh : Held L h uap) :
    hookTypeBlock L h.memory uap ≠ hookBlock L h.memory uap := by
  obtain ⟨_, htable⟩ := List.nodup_cons.mp hh.nodup
  intro he
  refine (List.nodup_cons.mp htable).1 ?_
  change hookBlock L h.memory uap ∈ hookTypeBlock L h.memory uap :: _
  rw [he]
  exact List.mem_cons_self

/-- The old blocks of a table are freed, while the new ones are at hand. -/
theorem Held.free_table (hv : L.Valid) (hh : Held L h uap) {new : Set (Block 64)} {h' : Store}
    (hw : Works ∅ h new h') (residue : Bytes) :
    ∃ h₁ h₂, h'.free (field h'.memory uap L.hook) residue = some h₁ ∧
      h₁.free (field h₁.memory uap L.hookType) residue = some h₂ ∧
      Works (L.owned h.memory uap) h (((new ∪ L.owned h.memory uap) \ {hookBlock L h.memory uap}) \
        {hookTypeBlock L h.memory uap}) h₂ ∧
      (∀ o, o + 8 ≤ L.size → field h₂.memory uap o = field h.memory uap o) ∧
      ∀ x, ¬(hookBlock L h.memory uap).Has x → ¬(hookTypeBlock L h.memory uap).Has x →
        h₂.memory x = h'.memory x := by
  have hin {o : ℕ} (ho : o ∈ [L.hook, L.hookType, L.hookCount, L.hookSize]) : o + 8 ≤ L.size :=
    hv.inside o (Layout.table_mem ho)
  have hhook := hookBlock_mem L h.memory uap
  have htype := hookTypeBlock_mem L h.memory uap
  have hne := hh.table_ne
  have hsound := (hw.owns hh.nothing).sound
  have hlive {b : Block 64} (hb : b ∈ (L.blocks h.memory uap).tail) : b ∈ h'.live :=
    (hw.frame hh.nothing (hh.foreign (List.mem_of_mem_tail hb))).1.live
  have hfree₁ : h'.free (field h'.memory uap L.hook) residue =
      some (h'.release (hookBlock L h.memory uap) residue) := by
    rw [hh.field_eq hw (hin (by simp))]
    exact hsound.free_eq (hlive hhook) residue
  have hfield₁ {o : ℕ} (ho : o + 8 ≤ L.size) :
      field (h'.release (hookBlock L h.memory uap) residue).memory uap o = field h.memory uap o :=
    (field_congr ho fun x hx => Heap.release_outside (hh.apart hhook x hx)).trans
    (hh.field_eq hw ho)
  have hlive₁ : hookTypeBlock L h.memory uap ∈
    (h'.release (hookBlock L h.memory uap) residue).live :=
    hsound.mem_release.mpr ⟨hlive htype, hne⟩
  have hfree₂ : (h'.release (hookBlock L h.memory uap) residue).free
      (field (h'.release (hookBlock L h.memory uap) residue).memory uap L.hookType) residue =
      some ((h'.release (hookBlock L h.memory uap) residue).release
        (hookTypeBlock L h.memory uap) residue) := by
    rw [hfield₁ (hin (by simp))]
    exact (hsound.release _ _).free_eq hlive₁ residue
  refine ⟨_, _, hfree₁, hfree₂, ?_, fun o ho => ?_, fun x hx hx' => ?_⟩
  · have hext : Works (∅ ∪ L.owned h.memory uap) h (new ∪ L.owned h.memory uap) h' :=
      hw.extend hh.nothing fun b hb => hh.foreign hb
    rw [Set.empty_union] at hext
    exact (hext.release residue (.inr (List.mem_of_mem_tail hhook))).release residue
      ⟨.inr (List.mem_of_mem_tail htype), hne⟩
  · exact (field_congr ho fun x hx => Heap.release_outside (hh.apart htype x hx)).trans (hfield₁ ho)
  · exact (Heap.release_outside hx').trans (Heap.release_outside hx)

theorem replaced_blocks (hv : L.Valid) (g : Growth) {m' : Bytes}
    (hfields : ∀ o, o + 8 ≤ L.size → field m' uap o = field m uap o)
    (hsize : 16 * (field m uap L.hookSize).toNat < 2 ^ 64) :
    L.blocks (replaced L g uap m') uap =
      ⟨uap, L.size⟩ :: ⟨g.hook, doubled L m uap⟩ :: ⟨g.hookType, doubled L m uap⟩ ::
      L.bufferBlocks m uap := by
  obtain ⟨hhook, htype, hdouble, _, hbuffers⟩ := replaced_fields hv g uap m'
  have hin {o : ℕ} (ho : o ∈ L.offsets) := hfields o (hv.inside o ho)
  have htwice : 8 * (field m uap L.hookSize * 2).toNat = doubled L m uap := by
    have h2 : (2 : Word).toNat = 2 := rfl
    rw [doubled_eq hsize, BitVec.toNat_mul, h2]
    omega
  have hsame : L.bufferBlocks (replaced L g uap m') uap = L.bufferBlocks m uap := by
    refine List.map_congr_left fun b hb => ?_
    rw [hbuffers b hb, hin (List.mem_append_right _ (List.mem_map_of_mem hb))]
  rw [Layout.blocks_eq, hookBlock, hookTypeBlock, hhook, htype, hdouble,
    hin (Layout.table_mem (by simp)), htwice, hsame]

theorem Growth.Allowed.new {g : Growth} (hg : g.Allowed L h uap) (hh : Held L h uap)
    (hz : g.hook ≠ 0) (hz' : g.hookType ≠ 0) :
    (⟨g.hook, doubled L h.memory uap⟩ : Block 64) ∉ L.blocks h.memory uap ∧
      (⟨g.hookType, doubled L h.memory uap⟩ : Block 64) ∉ L.blocks h.memory uap ∧
      (⟨g.hook, doubled L h.memory uap⟩ : Block 64) ≠ ⟨g.hookType, doubled L h.memory uap⟩ := by
  have hnew := (hg.hookType hz hz').not_live
  refine ⟨fun hb => (hg.hook hz).not_live (hh.owns.live _ hb), fun hb => ?_, fun he => ?_⟩
  · exact hnew (List.mem_cons_of_mem _ (hh.owns.live _ hb))
  · exact hnew (by rw [← he]; exact List.mem_cons_self)

theorem exchanged {α : Type} {a x y x' y' : α} {l : List α} (hn : (a :: x :: y :: l).Nodup)
    (hx : x' ∉ a :: x :: y :: l) (hy : y' ∉ a :: x :: y :: l) (hne : x' ≠ y') :
    (a :: x' :: y' :: l).Nodup ∧
      ((insert y' (insert x' ∅) ∪ {b | b ∈ a :: x :: y :: l}) \ {x}) \ {y} =
      {b | b ∈ a :: x' :: y' :: l} := by
  simp only [List.nodup_cons, List.mem_cons, not_or] at hn hx hy ⊢
  obtain ⟨⟨hax, hay, hal⟩, ⟨_, hxl⟩, hyl, hl⟩ := hn
  obtain ⟨hxa, hxx, hxy, hxl'⟩ := hx
  obtain ⟨hya, hyx, hyy, hyl'⟩ := hy
  refine ⟨⟨⟨Ne.symm hxa, Ne.symm hya, hal⟩, ⟨hne, hxl'⟩, hyl', hl⟩,
    Set.ext fun b => ⟨fun hb => ?_, fun hb => ?_⟩⟩
  · obtain ⟨⟨hb, hbx⟩, hby⟩ := hb
    rcases hb with (rfl | rfl | hb) | rfl | rfl | rfl | hb
    · exact .inr (.inr (.inl rfl))
    · exact .inr (.inl rfl)
    · exact hb.elim
    · exact .inl rfl
    · exact absurd rfl hbx
    · exact absurd rfl hby
    · exact .inr (.inr (.inr hb))
  · rcases hb with rfl | rfl | rfl | hb
    · exact ⟨⟨.inr (.inl rfl), hax⟩, hay⟩
    · exact ⟨⟨.inl (.inr (.inl rfl)), hxx⟩, hxy⟩
    · exact ⟨⟨.inl (.inl rfl), hyx⟩, hyy⟩
    · refine ⟨⟨.inr (.inr (.inr (.inr hb))), ?_⟩, ?_⟩
      · rintro rfl
        exact hxl hb
      · rintro rfl
        exact hyl hb

/-- The table behind its growth is a held handle again. -/
theorem Held.replace (hv : L.Valid) (hh : Held L h uap) {g : Growth} (hg : g.Allowed L h uap)
    (hz : g.hook ≠ 0) (hz' : g.hookType ≠ 0) (hsize : 16 * (field h.memory uap L.hookSize).toNat <
      2 ^ 64) {h' : Store}
    (hfields : ∀ o, o + 8 ≤ L.size → field h'.memory uap o = field h.memory uap o)
    (hw : Works (L.owned h.memory uap) h (((insert ⟨g.hookType, doubled L h.memory uap⟩
      (insert ⟨g.hook, doubled L h.memory uap⟩ ∅) ∪ L.owned h.memory uap) \
      {hookBlock L h.memory uap}) \
        {hookTypeBlock L h.memory uap}) h') :
    Works (L.owned h.memory uap) h (L.owned (replaced L g uap h'.memory) uap)
      (onMemory (replaced L g uap) h') ∧
      Held L (onMemory (replaced L g uap) h') uap := by
  obtain ⟨hnew, hnew', hnews⟩ := hg.new hh hz hz'
  have hblocks := replaced_blocks hv g hfields hsize
  obtain ⟨hnodup, hexchanged⟩ :=
    exchanged (l := L.bufferBlocks h.memory uap) hh.nodup hnew hnew' hnews
  have hmoved : Works (L.owned h.memory uap) h (L.owned (replaced L g uap h'.memory) uap) h' := by
    change Works _ h {b | b ∈ L.blocks (replaced L g uap h'.memory) uap} h'
    rw [hblocks, ← hexchanged]
    exact hw
  have hworks := hmoved.change fun x hx => replaced_outside hv g (hx _ (L.self_mem _ _))
  refine ⟨hworks, hworks.owns hh.owns, ?_⟩
  change (L.blocks (replaced L g uap h'.memory) uap).Nodup
  rw [hblocks]
  exact hnodup

/-- The two blocks of a table leave room for zero, so that its size can be doubled. -/
theorem Held.double_lt (hh : Held L h uap) :
    16 * (field h.memory uap L.hookSize).toNat < 2 ^ 64 := by
  have hsound := hh.owns.sound
  have hhook := hh.owns.live _ (List.mem_of_mem_tail (hookBlock_mem L h.memory uap))
  have htype := hh.owns.live _ (List.mem_of_mem_tail (hookTypeBlock_mem L h.memory uap))
  have hroom := (hsound.clear _ hhook _ htype hh.table_ne.symm).room (hsound.fits _ hhook)
    (hsound.fits _ htype)
  change 8 * (field h.memory uap L.hookSize).toNat +
    8 * (field h.memory uap L.hookSize).toNat < 2 ^ 64 at hroom
  omega

/-- What holds of a table between the calls: one with a last null has some null, and the entries of
another one fit its size. -/
structure Layout.Orderly (L : Layout) (m : Bytes) (uap : Address) : Prop where
  null : L.trailing ≠ 0 → ∃ e < (field m uap L.hookSize).toNat,
    wordAt m (slot (field m uap L.hook) (BitVec.ofNat 64 e)) = 0
  count : L.trailing = 0 → (field m uap L.hookCount).toNat ≤ (field m uap L.hookSize).toNat ∧
    0 < (field m uap L.hookSize).toNat

private theorem inside_entry {base x : Address} {e n : ℕ} (he : e < n) (hn : 8 * n < 2 ^ 64)
    (hx : Inside (slot base (BitVec.ofNat 64 e)) 8 x) : (⟨base, 8 * n⟩ : Block 64).Has x := by
  rw [slot_eq, BitVec.toNat_ofNat, Nat.mod_eq_of_lt (by omega)] at hx
  exact hx.of_add (show 8 * e + 8 ≤ 8 * n by omega)

theorem Layout.Orderly.congr {m' : Bytes} (ho : L.Orderly m uap)
    (hdouble : 16 * (field m uap L.hookSize).toNat < 2 ^ 64)
    (hpointers : ∀ o ∈ L.pointers, field m' uap o = field m uap o)
    (hcount : field m' uap L.hookCount = field m uap L.hookCount)
    (hbytes : ∀ x, (hookBlock L m uap).Has x → m' x = m x) : L.Orderly m' uap := by
  have hhook := hpointers L.hook (by simp [Layout.pointers])
  have hsize := hpointers L.hookSize (by simp [Layout.pointers])
  refine ⟨fun ht => ?_, fun ht => ?_⟩
  · obtain ⟨e, he, hnull⟩ := ho.null ht
    refine ⟨e, by rw [hsize]; exact he, ?_⟩
    rw [hhook, ← hnull]
    exact wordAt_congr fun x hx => hbytes x (inside_entry he (by omega) hx)
  · rw [hcount, hsize]
    exact ho.count ht

/-- A handle between the calls. -/
structure Ready (L : Layout) (h : Store) (uap : Address) : Prop where
  held : Held L h uap
  orderly : L.Orderly h.memory uap

theorem Ready.frame {owned owned' : Set (Block 64)} {h' : Store} (hv : L.Valid) (hr : Ready L h uap)
    (hw : Works owned h owned' h') (ho : Owns h owned)
    (hf : ∀ c ∈ L.blocks h.memory uap, c ∉ owned) :
    Ready L h' uap := by
  obtain ⟨hheld, _, hbytes⟩ := hr.held.frame hv hw ho hf
  have hfield {o : ℕ} (ho : o ∈ L.offsets) : field h'.memory uap o = field h.memory uap o :=
    field_congr (hv.inside o ho) (hbytes _ (L.self_mem _ _)).2
  refine ⟨hheld, hr.orderly.congr hr.held.double_lt
    (fun o ho => hfield (Layout.pointers_subset ho)) ?_ ?_⟩
  · exact hfield (Layout.table_mem (by simp))
  · exact (hbytes _ (List.mem_of_mem_tail (hookBlock_mem L h.memory uap))).2

/-- A table that grows has its new blocks, with what was copied into them. -/
theorem Held.grow_some (hv : L.Valid) (hh : Held L h uap) {g : Growth} (hg : g.Allowed L h uap)
    (hroom : (field h.memory uap L.hookCount).toNat < 2 * (field h.memory uap L.hookSize).toNat)
    (hz : g.hook ≠ 0)
    (hz' : g.hookType ≠ 0) (residue : Bytes) :
    ∃ h₂ : Store, grow L g residue uap h = some (ps4Ok, onMemory (replaced L g uap) h₂) ∧
      Works (L.owned h.memory uap) h (L.owned (replaced L g uap h₂.memory) uap)
        (onMemory (replaced L g uap) h₂) ∧
      Held L (onMemory (replaced L g uap) h₂) uap ∧
      (∀ o, o + 8 ≤ L.size → field h₂.memory uap o = field h.memory uap o) ∧
      ∀ x, ¬(hookBlock L h.memory uap).Has x → ¬(hookTypeBlock L h.memory uap).Has x →
        h₂.memory x = (copied L g uap h).memory x := by
  have hdouble := hh.double_lt
  have hcopied := copied_works hv hh (by rw [doubled_eq hdouble]; omega) hg hz hz'
  obtain ⟨h₁, h₂, hfree₁, hfree₂, hw, hfields, hbytes⟩ := hh.free_table hv hcopied residue
  obtain ⟨hworks, hheld⟩ := hh.replace hv hg hz hz' hdouble hfields hw
  refine ⟨h₂, ?_, hworks, hheld, hfields, hbytes⟩
  unfold HookClones.grow
  rw [if_neg hz, if_neg hz']
  dsimp only
  rw [hfree₁, Option.bind_some, hfree₂]
  rfl

/-- A table grows, or runs out of memory and stays ready. -/
theorem Ready.grow (hv : L.Valid) (hr : Ready L h uap) {g : Growth} (hg : g.Allowed L h uap)
    (hroom : (field h.memory uap L.hookCount).toNat < 2 * (field h.memory uap L.hookSize).toNat)
    (residue : Bytes) :
    ∃ r, grow L g residue uap h = some r ∧
    Works (L.owned h.memory uap) h (L.owned r.2.memory uap) r.2 ∧
      (r.1 = ps4Ok → Held L r.2 uap ∧ field r.2.memory uap L.hookCount =
        field h.memory uap L.hookCount ∧
        (field r.2.memory uap L.hookSize).toNat = 2 * (field h.memory uap L.hookSize).toNat) ∧
      (r.1 ≠ ps4Ok → Ready L r.2 uap) := by
  have hh := hr.held
  have hdouble := hh.double_lt
  have hmemory : ps4ErrorKernelOutOfMemory ≠ ps4Ok := by decide
  by_cases hz : g.hook = 0
  · exact ⟨_, if_pos hz, .refl, fun he => absurd he hmemory, fun _ => hr⟩
  by_cases hz' : g.hookType = 0
  · have hfresh := hg.hook hz
    have hw : Works ∅ h _ (h.allocate ⟨g.hook, doubled L h.memory uap⟩ 0) :=
      .allocate .refl 0 hfresh
    have hfree := (hw.owns hh.nothing).sound.free_eq (b := ⟨g.hook, doubled L h.memory uap⟩)
      List.mem_cons_self residue
    have hw' := hw.release residue (.inl rfl)
    rw [insert_empty_eq, Set.sdiff_self] at hw'
    rw [HookClones.grow, if_neg hz, if_pos hz', hfree]
    refine ⟨_, rfl, hh.other hv hw', fun he => absurd he hmemory, fun _ => ?_⟩
    exact hr.frame hv hw' hh.nothing fun _ _ hm => hm
  · obtain ⟨h₂, hgrow, hworks, hheld, hfields, _⟩ := hh.grow_some hv hg hroom hz hz' residue
    obtain ⟨_, _, hsize, hcount, _⟩ := replaced_fields hv g uap h₂.memory
    have hin {o : ℕ} (ho : o ∈ [L.hook, L.hookType, L.hookCount, L.hookSize]) :=
      hfields o (hv.inside o (Layout.table_mem ho))
    have h2 : (2 : Word).toNat = 2 := rfl
    refine ⟨_, hgrow, hworks, fun _ => ⟨hheld, ?_, ?_⟩, fun hne => absurd rfl hne⟩
    · exact hcount.trans (hin (by simp))
    · change (field (replaced L g uap h₂.memory) uap L.hookSize).toNat = _
      rw [hsize, hin (by simp), BitVec.toNat_mul, h2]
      omega

theorem room_of_not_full (hdouble : 16 * (field m uap L.hookSize).toNat < 2 ^ 64)
    (hcount : (field m uap L.hookCount).toNat + L.trailing < 2 * (field m uap L.hookSize).toNat)
    (hfull : full L m uap = false) :
    (field m uap L.hookCount).toNat + L.trailing < (field m uap L.hookSize).toNat := by
  rw [full, BitVec.sle_eq_decide, decide_eq_false_iff_not, BitVec.toInt_sub] at hfull
  rw [BitVec.toInt_eq_toNat_of_lt (x := field m uap L.hookCount) (by omega),
    BitVec.toInt_eq_toNat_of_lt (x := field m uap L.hookSize) (by omega),
    BitVec.toInt_eq_toNat_of_lt (x := BitVec.ofNat 64 L.trailing)
      (by rw [BitVec.toNat_ofNat]; omega),
    BitVec.toNat_ofNat, Nat.mod_eq_of_lt (a := L.trailing) (by omega),
    Int.bmod_eq_of_le (by omega) (by omega)] at hfull
  omega

theorem Growth.Allowed.congr {g : Growth} (hg : g.Allowed L h uap) {h' : Store}
    (hlive : h'.live = h.live) (hsize : field h'.memory uap L.hookSize =
      field h.memory uap L.hookSize) : g.Allowed L h' uap := by
  have hdoubled : doubled L h'.memory uap = doubled L h.memory uap := by
    rw [doubled, hsize, doubled]
  refine ⟨fun hz => ?_, fun hz hz' => ?_⟩
  · have hf := hg.hook hz
    rw [hdoubled]
    exact ⟨hf.fits, fun c hc => hf.clear c (hlive ▸ hc)⟩
  · have hf := hg.hookType hz hz'
    rw [hdoubled]
    refine ⟨hf.fits, fun c hc => hf.clear c ?_⟩
    rw [Heap.allocate, hlive] at hc
    exact hc

/-- An unlocked table with room for a pair is ready when the pair is written. -/
theorem Held.publish (hv : L.Valid) (hh : Held L h uap) (hook : Address) (type : Word)
    (hroom : (field h.memory uap L.hookCount).toNat + L.trailing <
      (field h.memory uap L.hookSize).toNat) :
    Works (L.owned h.memory uap) h (L.owned (publish L uap hook type (unlock L uap h.memory)) uap)
        (onMemory (fun m => publish L uap hook type (unlock L uap m)) h) ∧
      Ready L (onMemory (fun m => publish L uap hook type (unlock L uap m)) h) uap := by
  obtain ⟨hunlock, hcount⟩ := (Within.refl L h uap).unlock hv
  obtain ⟨hwithin, hnext, hnull⟩ := hunlock.publish hv hh hook type (by rw [hcount]; exact hroom)
  have hhook := hwithin.pointers L.hook (by simp [Layout.pointers])
  have hsize := hwithin.pointers L.hookSize (by simp [Layout.pointers])
  obtain ⟨hworks, hheld⟩ := hh.within hwithin
  rw [hcount] at hnext hnull
  have hlt := (field h.memory uap L.hookSize).isLt
  have hsucc : (field h.memory uap L.hookCount + 1).toNat =
      (field h.memory uap L.hookCount).toNat + 1 := by
    rw [BitVec.toNat_add]
    exact Nat.mod_eq_of_lt (by simp; omega)
  refine ⟨hworks, hheld, fun ht => ⟨(field h.memory uap L.hookCount + 1).toNat,
    ?_, ?_⟩, fun _ => ?_⟩
  · rw [hsucc]
    change _ < (field (HookClones.publish L uap hook type (HookClones.unlock L uap h.memory)) uap
      L.hookSize).toNat
    rw [hsize]
    omega
  · change wordAt (HookClones.publish L uap hook type (HookClones.unlock L uap h.memory))
      (slot (field (HookClones.publish L uap hook type (HookClones.unlock L uap h.memory))
        uap L.hook) _) = 0
    rw [hhook, BitVec.ofNat_toNat, BitVec.setWidth_eq]
    exact hnull ht
  · change (field (HookClones.publish L uap hook type (HookClones.unlock L uap h.memory)) uap
      L.hookCount).toNat ≤
      (field (HookClones.publish L uap hook type (HookClones.unlock L uap h.memory)) uap
        L.hookSize).toNat ∧
      0 < (field (HookClones.publish L uap hook type (HookClones.unlock L uap h.memory)) uap
        L.hookSize).toNat
    rw [hnext, hsize, hsucc]
    omega

theorem acquire_free (hlock : field h.memory uap 184 = 0) :
    acquire functionLayout uap h = some (onMemory (setField · uap 184 1) h) := by
  change (if field h.memory uap 184 ≠ 0 then none else some (onMemory (setField · uap 184 1) h)) = _
  rw [if_neg (not_not.mpr hlock)]

theorem Ready.acquire (hv : L.Valid) (hr : Ready L h uap) {h₁ : Store}
    (ha : acquire L uap h = some h₁) :
    Works (L.owned h.memory uap) h (L.owned h₁.memory uap) h₁ ∧ Ready L h₁ uap := by
  obtain ⟨hlive, hwithin, hcount, houtside⟩ := Within.acquire hv ha
  have hheld := hr.held.within hwithin
  rw [show ({ h with memory := h₁.memory } : Store) = h₁ by rw [← hlive]] at hheld
  refine ⟨hheld.1, hheld.2, hr.orderly.congr hr.held.double_lt hwithin.pointers hcount fun x hx =>
    houtside x ?_⟩
  exact fun hself => hr.held.apart (hookBlock_mem L h.memory uap) x hself hx

/-- `Add` works with the blocks of the handle where the pair has room, or has it in a doubled
table. -/
theorem Ready.add (hv : L.Valid) (hr : Ready L h uap) {g : Growth} (hg : g.Allowed L h uap)
    (hroom : (field h.memory uap L.hookCount).toNat + L.trailing <
      2 * (field h.memory uap L.hookSize).toNat)
    {residue : Bytes} {hook : Address} {type : Word} {r : Code × Store}
    (ha : add L g residue uap hook type h = some r) :
    Works (L.owned h.memory uap) h (L.owned r.2.memory uap) r.2 ∧ Ready L r.2 uap := by
  unfold HookClones.add at ha
  by_cases hz : uap = 0
  · rw [if_pos hz] at ha
    cases ha
    exact ⟨.refl, hr⟩
  by_cases hz' : hook = 0
  · rw [if_neg hz, if_pos hz'] at ha
    cases ha
    exact ⟨.refl, hr⟩
  rw [if_neg hz, if_neg hz'] at ha
  obtain ⟨h₁, hacquire, ha⟩ := Option.bind_eq_some_iff.mp ha
  obtain ⟨hlive, hwithin, hcount, _⟩ := Within.acquire hv hacquire
  have hsize := hwithin.pointers L.hookSize (by simp [Layout.pointers])
  obtain ⟨hw₁, hr₁⟩ := hr.acquire hv hacquire
  rw [← hcount, ← hsize] at hroom
  cases hfull : full L h₁.memory uap with
  | false =>
    rw [hfull] at ha
    obtain rfl : (ps4Ok, _) = r := Option.some.inj ha
    obtain ⟨hw₂, hr₂⟩ :=
      hr₁.held.publish hv hook type (room_of_not_full hr₁.held.double_lt hroom hfull)
    exact ⟨hw₁.trans hw₂, hr₂⟩
  | true =>
    obtain ⟨r', hgrow, hw₂, hok, hfailed⟩ := hr₁.grow hv (hg.congr hlive hsize) (by omega) residue
    rw [hfull, if_pos rfl, hgrow, Option.map_some] at ha
    by_cases hcode : r'.1 = ps4Ok
    · obtain ⟨hh₂, hcount', hsize'⟩ := hok hcode
      obtain ⟨hw₃, hr₃⟩ := hh₂.publish hv hook type (by rw [hcount', hsize']; exact hroom)
      rw [if_pos hcode] at ha
      obtain rfl := Option.some.inj ha
      exact ⟨(hw₁.trans hw₂).trans hw₃, hr₃⟩
    · rw [if_neg hcode] at ha
      obtain rfl := Option.some.inj ha
      exact ⟨hw₁.trans hw₂, hfailed hcode⟩

theorem removeLoop_null {hook : Address} {s t : ℕ} (hs : s < 2 ^ 64)
    (hz : wordAt m (slot (field m uap functionLayout.hook) (BitVec.ofNat 64 s)) = 0) :
    removeLoop uap hook s t m = some (t, m) := by
  rw [removeLoop, if_pos hs]
  dsimp only
  rw [if_pos hz]

theorem removeLoop_next {hook : Address} {s t t' : ℕ} (hs : s < 2 ^ 64)
    (hz : wordAt m (slot (field m uap functionLayout.hook) (BitVec.ofNat 64 s)) ≠ 0)
    (ht : (if wordAt m (slot (field m uap functionLayout.hook) (BitVec.ofNat 64 s)) =
      hook then t + 1 else t) = t') :
    removeLoop uap hook s t m = removeLoop uap hook (s + 1) t' (if t' ≠ 0 then
      putWord m (slot (field m uap functionLayout.hook) (BitVec.ofNat 64 s))
        (wordAt m (slot (field m uap functionLayout.hook) (BitVec.ofNat 64 (s + t')))) else m) := by
  rw [removeLoop, if_pos hs]
  dsimp only
  rw [if_neg hz, ht]

private theorem slot_apart (base : Word) {s e : ℕ} (hlt : s < e) (he : 8 * e + 8 ≤ 2 ^ 64) :
    Apart (slot base (BitVec.ofNat 64 e)) 8 (slot base (BitVec.ofNat 64 s)) 8 := by
  intro x hx hx'
  rw [slot_eq, BitVec.toNat_ofNat, Nat.mod_eq_of_lt (by omega), inside_offset (by omega)] at hx hx'
  omega

/-- The loop ends at the latest where it first saw a null, and writes in front of it. -/
theorem Within.removeLoop (hook : Address) {s e t : ℕ} (hw : Within functionLayout h uap m)
    (hh : Held functionLayout h uap) (hse : s ≤ e)
    (he : e < (field h.memory uap functionLayout.hookSize).toNat)
    (hnull : wordAt m (slot (field h.memory uap functionLayout.hook) (BitVec.ofNat 64 e)) = 0) :
    ∃ r, removeLoop uap hook s t m = some r ∧ Within functionLayout h uap r.2 ∧
      wordAt r.2 (slot (field h.memory uap functionLayout.hook) (BitVec.ofNat 64 e)) = 0 := by
  have hlimit := hh.double_lt
  have hindex {i : ℕ} (hi : i ≤ e) : (BitVec.ofNat 64 i).toNat = i := by
    rw [BitVec.toNat_ofNat]
    exact Nat.mod_eq_of_lt (by omega)
  have hbase {m : Bytes} (hw : Within functionLayout h uap m) :
      field m uap functionLayout.hook = field h.memory uap functionLayout.hook :=
    hw.pointers _ (by simp [Layout.pointers])
  generalize hd : e - s = d
  induction d generalizing s t m with
  | zero =>
    obtain rfl : s = e := by omega
    rw [removeLoop_null (by omega) (by rw [hbase hw]; exact hnull)]
    exact ⟨_, rfl, hw, hnull⟩
  | succ d ih =>
    by_cases hz : wordAt m (slot (field m uap functionLayout.hook) (BitVec.ofNat 64 s)) = 0
    · rw [removeLoop_null (by omega) hz]
      exact ⟨_, rfl, hw, hnull⟩
    · rw [removeLoop_next (by omega) hz rfl, hbase hw]
      generalize (if wordAt m (slot (field h.memory uap functionLayout.hook) (BitVec.ofNat 64 s)) =
        hook then t + 1 else t) = t'
      by_cases ht : t' ≠ 0
      · rw [if_pos ht]
        obtain ⟨hw', _⟩ := hw.putSlot functionLayout_valid hh
          (hookBlock_mem functionLayout h.memory uap)
          (show 8 * (BitVec.ofNat 64 s).toNat + 8 ≤
            8 * (field h.memory uap functionLayout.hookSize).toNat by
            rw [hindex (by omega)]; omega)
          (wordAt m (slot (field h.memory uap functionLayout.hook) (BitVec.ofNat 64 (s + t'))))
        refine ih hw' (by omega) ?_ (by omega)
        rw [← hnull]
        exact wordAt_putWord_apart (slot_apart _ (by omega) (by omega))
      · rw [if_neg ht]
        exact ih hw (by omega) hnull (by omega)

theorem Held.entry_eq (hh : Held L h uap) {e : ℕ} (he : e < (field h.memory uap L.hookSize).toNat)
    {m' : Bytes} (ho : ∀ x, ¬(⟨uap, L.size⟩ : Block 64).Has x → m' x = m x) :
    wordAt m' (slot (field h.memory uap L.hook) (BitVec.ofNat 64 e)) =
      wordAt m (slot (field h.memory uap L.hook) (BitVec.ofNat 64 e)) := by
  have hlimit := hh.double_lt
  refine wordAt_congr fun x hx => ho x fun hself => ?_
  exact hh.apart (hookBlock_mem L h.memory uap) x hself (inside_entry he (by omega) hx)

theorem Held.ready (hh : Held functionLayout h uap) (hw : Within functionLayout h uap m) {e : ℕ}
    (he : e < (field h.memory uap functionLayout.hookSize).toNat)
    (hnull : wordAt m (slot (field h.memory uap functionLayout.hook) (BitVec.ofNat 64 e)) = 0) :
    Works (functionLayout.owned h.memory uap) h (functionLayout.owned m uap)
      { h with memory := m } ∧
      Ready functionLayout { h with memory := m } uap := by
  obtain ⟨hworks, hheld⟩ := hh.within hw
  have hhook := hw.pointers functionLayout.hook (by decide)
  have hsize := hw.pointers functionLayout.hookSize (by decide)
  refine ⟨hworks, hheld, fun _ => ⟨e, ?_, ?_⟩, fun ht => absurd ht (by decide)⟩
  · rw [show ({ h with memory := m } : Store).memory = m from rfl, hsize]
    exact he
  · rw [show ({ h with memory := m } : Store).memory = m from rfl, hhook]
    exact hnull

/-- `Remove` works with the blocks of the handle. -/
theorem Ready.remove (hr : Ready functionLayout h uap) {hook : Address} {r : Code × Store}
    (hrun : ps4KernelFunctionHookRemove uap hook h = some r) :
    Works (functionLayout.owned h.memory uap) h (functionLayout.owned r.2.memory uap) r.2 ∧
      Ready functionLayout r.2 uap := by
  have hv := functionLayout_valid
  have hcount : functionLayout.hookCount ∈ functionLayout.offsets := by decide
  unfold ps4KernelFunctionHookRemove at hrun
  by_cases hz : uap = 0
  · rw [if_pos hz] at hrun
    cases hrun
    exact ⟨.refl, hr⟩
  by_cases hz' : hook = 0
  · rw [if_neg hz, if_pos hz'] at hrun
    cases hrun
    exact ⟨.refl, hr⟩
  rw [if_neg hz, if_neg hz'] at hrun
  obtain ⟨h₁, hacquire, hrun⟩ := Option.bind_eq_some_iff.mp hrun
  obtain ⟨hw₁, hr₁⟩ := hr.acquire hv hacquire
  obtain ⟨e, he, hnull⟩ := hr₁.orderly.null (by decide)
  obtain ⟨r', hloop, hw, hnull'⟩ :=
    (Within.refl functionLayout h₁ uap).removeLoop hook (t := 0) hr₁.held
    (Nat.zero_le e) he hnull
  rw [hloop] at hrun
  obtain rfl := Option.some.inj hrun
  have hset := hw.setField (v := field r'.2 uap functionLayout.hookCount - BitVec.ofNat 64 r'.1) hv
    (hv.aligned _ hcount) (hv.inside _ hcount) (hookCount_not_pointer hv)
  obtain ⟨hw₂, hr₂⟩ := hr₁.held.ready (hset.unlock hv).1 he (by
    rw [hr₁.held.entry_eq he fun x hx => unlock_outside hv hx,
      hr₁.held.entry_eq he fun x hx => setField_outside (hv.inside _ hcount) hx]
    exact hnull')
  exact ⟨hw₁.trans hw₂, hr₂⟩

theorem Ready.setUserArgument (hr : Ready functionLayout h uap) (argument : Address) :
    Works (functionLayout.owned h.memory uap) h
        (functionLayout.owned (ps4KernelFunctionHookSetUserArgument uap argument h).2.memory uap)
        (ps4KernelFunctionHookSetUserArgument uap argument h).2 ∧
      Ready functionLayout (ps4KernelFunctionHookSetUserArgument uap argument h).2 uap := by
  have hset : Within functionLayout h uap (HookClones.setField h.memory uap 152 argument) :=
    (Within.refl functionLayout h uap).setField functionLayout_valid (by decide)
    (by decide) (by decide)
  obtain ⟨e, he, hnull⟩ := hr.orderly.null (by decide)
  unfold ps4KernelFunctionHookSetUserArgument
  by_cases hz : uap = 0
  · rw [if_pos hz]
    exact ⟨.refl, hr⟩
  · rw [if_neg hz]
    refine hr.held.ready hset he ((hr.held.entry_eq he fun x hx => ?_).trans hnull)
    exact setField_outside (by decide) hx

end

end Ps4Sdk.HookClones
