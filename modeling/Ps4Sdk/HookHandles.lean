import Ps4Sdk.HookClones

/-!
# Held hook handles

A handle is held while its own block, the two of its table and its buffers are live and
different. Stores to these blocks that leave the pointers of the handle leave it held, and
so does all work on other blocks.
-/

namespace Ps4Sdk.HookClones
open ByteMemory AssemblyMachines AllocatedMemory

/-! ### Fields -/

def Layout.offsets (L : Layout) : List ℕ :=
  [L.hook, L.hookType, L.hookCount, L.hookSize] ++ L.lock.toList ++ L.buffers.map Prod.fst

/-- The fields are different words of the handle. -/
structure Layout.Valid (L : Layout) : Prop where
  nodup : L.offsets.Nodup
  aligned : ∀ o ∈ L.offsets, 8 ∣ o
  inside : ∀ o ∈ L.offsets, o + 8 ≤ L.size
  small : L.size ≤ 4096

theorem functionLayout_valid : functionLayout.Valid := ⟨by decide, by decide, by decide, by decide⟩

theorem systemCallLayout_valid : systemCallLayout.Valid :=
  ⟨by decide, by decide, by decide, by decide⟩

/-- The blocks of a handle. -/
def Layout.blocks (L : Layout) (m : Bytes) (uap : Address) : List (Block 64) :=
  ⟨uap, L.size⟩ :: ⟨field m uap L.hook, 8 * (field m uap L.hookSize).toNat⟩ ::
    ⟨field m uap L.hookType, 8 * (field m uap L.hookSize).toNat⟩ ::
    L.buffers.map fun b => ⟨field m uap b.1, b.2⟩

section

variable {L : Layout} {m m' : Bytes} {uap : Address} {o o' : ℕ} {v : Word}

@[simp] theorem field_setField (m : Bytes) (uap : Address) (o : ℕ) (v : Word) :
    field (setField m uap o v) uap o = v :=
  wordAt_putWord m _ v

theorem field_setField_of_ne (ho : 8 ∣ o) (ho' : 8 ∣ o') (hl : o < 4096)
    (hl' : o' < 4096) (hne : o ≠ o') :
    field (setField m uap o' v) uap o = field m uap o := by
  refine wordAt_putWord_apart fun x hx hx' => ?_
  rw [inside_offset (by omega)] at hx hx'
  obtain ⟨k, rfl⟩ := ho
  obtain ⟨k', rfl⟩ := ho'
  omega

theorem setField_outside {x : Address} {size : ℕ} (ho : o + 8 ≤ size)
    (hx : ¬(⟨uap, size⟩ : Block 64).Has x) :
    setField m uap o v x = m x :=
  putWord_outside fun h => hx (h.of_add ho)

theorem field_congr {size : ℕ} (ho : o + 8 ≤ size)
    (h : ∀ x, (⟨uap, size⟩ : Block 64).Has x → m' x = m x) :
    field m' uap o = field m uap o :=
  wordAt_congr fun x hx => h x (hx.of_add ho)

theorem slot_eq (base index : Word) :
    slot base index = base + BitVec.ofNat 64 (8 * index.toNat) := by
  have he : 8 * index = BitVec.ofNat 64 (8 * index.toNat) := by
    apply BitVec.eq_of_toNat_eq
    simp
  rw [slot, he]

theorem putWord_slot_outside {base index : Word} {size : ℕ} {x : Address}
    (hi : 8 * index.toNat + 8 ≤ size) (hx : ¬(⟨base, size⟩ : Block 64).Has x) :
    putWord m (slot base index) v x = m x := by
  rw [slot_eq]
  exact putWord_outside fun h => hx (h.of_add hi)

end

/-! ### Held handles -/

def Layout.owned (L : Layout) (m : Bytes) (uap : Address) : Set (Block 64) :=
  {b | b ∈ L.blocks m uap}

structure Held (L : Layout) (h : Store) (uap : Address) : Prop where
  owns : Owns h (L.owned h.memory uap)
  nodup : (L.blocks h.memory uap).Nodup

def Layout.pointers (L : Layout) : List ℕ :=
  [L.hook, L.hookType, L.hookSize] ++ L.buffers.map Prod.fst

structure Within (L : Layout) (h : Store) (uap : Address) (m : Bytes) : Prop where
  outside : ∀ x, (∀ b ∈ L.blocks h.memory uap, ¬b.Has x) → m x = h.memory x
  pointers : ∀ o ∈ L.pointers, field m uap o = field h.memory uap o

section

variable {L : Layout} {h : Store} {uap : Address} {m : Bytes} {o : ℕ} {v : Word}

theorem blocks_congr {m m' : Bytes} (h : ∀ o ∈ L.pointers, field m' uap o = field m uap o) :
    L.blocks m' uap = L.blocks m uap := by
  have hhook := h L.hook (by simp [Layout.pointers])
  have htype := h L.hookType (by simp [Layout.pointers])
  have hsize := h L.hookSize (by simp [Layout.pointers])
  have hbuffers : L.buffers.map (fun b => (⟨field m' uap b.1, b.2⟩ : Block 64)) =
      L.buffers.map fun b => ⟨field m uap b.1, b.2⟩ := by
    refine List.map_congr_left fun b hb => ?_
    rw [h b.1 (List.mem_append_right _ (List.mem_map_of_mem hb))]
  rw [Layout.blocks, Layout.blocks, hhook, htype, hsize, hbuffers]

theorem Layout.self_mem (L : Layout) (m : Bytes) (uap : Address) : ⟨uap, L.size⟩ ∈ L.blocks m uap :=
  List.mem_cons_self

theorem Layout.pointers_subset {o : ℕ} (h : o ∈ L.pointers) : o ∈ L.offsets := by
  simp only [Layout.pointers, Layout.offsets, List.mem_append, List.mem_cons] at h ⊢
  tauto

theorem Layout.table_mem {o : ℕ} (h : o ∈ [L.hook, L.hookType, L.hookCount, L.hookSize]) :
    o ∈ L.offsets :=
  List.mem_append_left _ (List.mem_append_left _ h)

theorem Layout.Valid.lt (hv : L.Valid) {o : ℕ} (h : o ∈ L.offsets) : o < 4096 := by
  have hi := hv.inside o h
  have hs := hv.small
  omega

theorem Within.refl (L : Layout) (h : Store) (uap : Address) : Within L h uap h.memory :=
  ⟨fun _ _ => rfl, fun _ _ => rfl⟩

theorem Within.blocks (hw : Within L h uap m) : L.blocks m uap = L.blocks h.memory uap :=
  blocks_congr hw.pointers

theorem Within.setField (hw : Within L h uap m) (hv : L.Valid) (ho : 8 ∣ o) (hs : o + 8 ≤ L.size)
    (hp : o ∉ L.pointers) : Within L h uap (setField m uap o v) := by
  have hsmall := hv.small
  refine ⟨fun x hx => ?_, fun o' ho' => ?_⟩
  · rw [setField_outside hs (hx _ (L.self_mem _ _))]
    exact hw.outside x hx
  · have hmem := Layout.pointers_subset ho'
    have hne : o' ≠ o := fun he => hp (he ▸ ho')
    rw [field_setField_of_ne (hv.aligned o' hmem) ho (hv.lt hmem) (by omega) hne]
    exact hw.pointers o' ho'

/-- The handle itself is apart from its other blocks. -/
theorem Held.apart (hh : Held L h uap) {b : Block 64} (hb : b ∈ (L.blocks h.memory uap).tail)
    (x : Address) (hx : (⟨uap, L.size⟩ : Block 64).Has x) : ¬b.Has x := by
  have hnodup : (⟨uap, L.size⟩ :: (L.blocks h.memory uap).tail).Nodup := hh.nodup
  have hne : (⟨uap, L.size⟩ : Block 64) ≠ b := by
    rintro rfl
    exact (List.nodup_cons.mp hnodup).1 hb
  have hself := hh.owns.live ⟨uap, L.size⟩ (L.self_mem _ _)
  have hlive := hh.owns.live b (List.mem_of_mem_tail hb)
  exact (hh.owns.sound.clear _ hself _ hlive hne).apart x hx

theorem Within.putSlot (hw : Within L h uap m) (hv : L.Valid) (hh : Held L h uap) {b : Block 64}
    (hb : b ∈ (L.blocks h.memory uap).tail) {index : Word}
    (hi : 8 * index.toNat + 8 ≤ b.size) (v : Word) :
    Within L h uap (putWord m (slot b.base index) v) ∧
      ∀ o, o + 8 ≤ L.size → field (putWord m (slot b.base index) v) uap o = field m uap o := by
  have hfields (o : ℕ) (ho : o + 8 ≤ L.size) :
    field (putWord m (slot b.base index) v) uap o = field m uap o :=
    field_congr ho fun x hx => putWord_slot_outside hi (hh.apart hb x hx)
  refine ⟨⟨fun x hx => ?_, fun o ho => ?_⟩, hfields⟩
  · rw [putWord_slot_outside hi (hx b (List.mem_of_mem_tail hb))]
    exact hw.outside x hx
  · rw [hfields o (hv.inside o (Layout.pointers_subset ho))]
    exact hw.pointers o ho

/-- A handle is still held behind stores to its blocks. -/
theorem Held.within (hh : Held L h uap) (hw : Within L h uap m) :
    Works (L.owned h.memory uap) h (L.owned m uap) { h with memory := m } ∧
      Held L { h with memory := m } uap := by
  have howned : L.owned m uap = L.owned h.memory uap := by
    rw [Layout.owned, hw.blocks, Layout.owned]
  have hworks : Works (L.owned h.memory uap) h (L.owned m uap) { h with memory := m } := by
    rw [howned]
    exact .change .refl hw.outside
  refine ⟨hworks, hworks.owns hh.owns, ?_⟩
  rw [show ({ h with memory := m } : Store).memory = m from rfl, hw.blocks]
  exact hh.nodup

/-- Work on other blocks leaves a handle with its blocks. -/
theorem Held.frame {owned owned' : Set (Block 64)} {h' : Store} (hv : L.Valid) (hh : Held L h uap)
    (hw : Works owned h owned' h') (ho : Owns h owned)
    (hf : ∀ c ∈ L.blocks h.memory uap, c ∉ owned) :
    Held L h' uap ∧ L.blocks h'.memory uap = L.blocks h.memory uap ∧
      ∀ c ∈ L.blocks h.memory uap, c ∉ owned' ∧ ∀ x, c.Has x → h'.memory x = h.memory x := by
  have hframe {c : Block 64} (hc : c ∈ L.blocks h.memory uap) :=
    hw.frame ho ⟨hh.owns.live c hc, hf c hc⟩
  have hblocks : L.blocks h'.memory uap = L.blocks h.memory uap := blocks_congr fun o hp =>
    field_congr (hv.inside o (Layout.pointers_subset hp)) (hframe (L.self_mem _ _)).2
  refine ⟨⟨⟨(hw.owns ho).sound, fun c hc => ?_⟩, ?_⟩, hblocks,
    fun c hc => ⟨(hframe hc).1.not_owned, (hframe hc).2⟩⟩
  · change c ∈ L.blocks h'.memory uap at hc
    rw [hblocks] at hc
    exact (hframe hc).1.live
  · rw [hblocks]
    exact hh.nodup

theorem Held.nothing (hh : Held L h uap) : Owns h ∅ := ⟨hh.owns.sound, fun _ hb => hb.elim⟩

theorem Held.foreign (hh : Held L h uap) {b : Block 64}
    (hb : b ∈ L.blocks h.memory uap) : Foreign h ∅ b :=
  ⟨hh.owns.live b hb, fun hm => hm⟩

theorem Held.field_eq (hh : Held L h uap) {owned : Set (Block 64)} {h' : Store}
    (hw : Works ∅ h owned h') (ho : o + 8 ≤ L.size) :
    field h'.memory uap o = field h.memory uap o :=
  field_congr ho (hw.frame hh.nothing (hh.foreign (L.self_mem _ _))).2

theorem hookCount_not_pointer (hv : L.Valid) : L.hookCount ∉ L.pointers := by
  have hn := hv.nodup
  simp only [Layout.offsets, Layout.pointers, List.cons_append, List.nil_append, List.nodup_cons,
    List.mem_cons, List.mem_append, not_or] at hn ⊢
  tauto

theorem lock_not_pointer (hv : L.Valid) (hl : L.lock = some o) : o ∉ L.pointers ∧
    o ≠ L.hookCount := by
  have hn := hv.nodup
  rw [Layout.offsets, hl] at hn
  obtain ⟨hfront, _, hbuffers⟩ := List.nodup_append.mp hn
  obtain ⟨_, _, hlock⟩ := List.nodup_append.mp hfront
  have hne {o' : ℕ} (ho' : o' ∈ [L.hook, L.hookType, L.hookCount, L.hookSize]) : o' ≠ o :=
    hlock o' ho' o (List.mem_singleton_self o)
  refine ⟨fun hp => ?_, (hne (by simp)).symm⟩
  rcases List.mem_append.mp hp with hp | hp
  · have hfront : o ∈ [L.hook, L.hookType, L.hookCount, L.hookSize] := by
      simp only [List.mem_cons] at hp ⊢
      tauto
    exact hne hfront rfl
  · exact hbuffers o (List.mem_append_right _ (List.mem_singleton_self o)) o hp rfl

/-! ### Stores of the calls -/

def hookBlock (L : Layout) (m : Bytes) (uap : Address) : Block 64 :=
  ⟨field m uap L.hook, 8 * (field m uap L.hookSize).toNat⟩

def hookTypeBlock (L : Layout) (m : Bytes) (uap : Address) : Block 64 :=
  ⟨field m uap L.hookType, 8 * (field m uap L.hookSize).toNat⟩

theorem hookBlock_mem (L : Layout) (m : Bytes) (uap : Address) :
    hookBlock L m uap ∈ (L.blocks m uap).tail :=
  List.mem_cons_self

theorem hookTypeBlock_mem (L : Layout) (m : Bytes) (uap : Address) :
    hookTypeBlock L m uap ∈ (L.blocks m uap).tail :=
  List.mem_cons_of_mem _ List.mem_cons_self

theorem Within.acquire (hv : L.Valid) {h₁ : Store} (ha : acquire L uap h = some h₁) :
    h₁.live = h.live ∧ Within L h uap h₁.memory ∧
    field h₁.memory uap L.hookCount = field h.memory uap L.hookCount ∧
      ∀ x, ¬(⟨uap, L.size⟩ : Block 64).Has x → h₁.memory x = h.memory x := by
  unfold HookClones.acquire at ha
  cases hl : L.lock with
  | none =>
    rw [hl] at ha
    cases ha
    exact ⟨rfl, .refl L h uap, rfl, fun _ _ => rfl⟩
  | some o =>
    have ho : o ∈ L.offsets := by simp [Layout.offsets, hl]
    have hc : L.hookCount ∈ L.offsets := Layout.table_mem (by simp)
    obtain ⟨hp, hne⟩ := lock_not_pointer hv hl
    rw [hl] at ha
    change (if field h.memory uap o ≠ 0 then none else some
      (onMemory (HookClones.setField · uap o 1) h)) = some h₁ at ha
    by_cases hz : field h.memory uap o ≠ 0
    · rw [if_pos hz] at ha
      cases ha
    · rw [if_neg hz] at ha
      cases ha
      refine ⟨rfl, (Within.refl L h uap).setField hv (hv.aligned o ho) (hv.inside o ho) hp,
        ?_, fun x hx => ?_⟩
      · exact field_setField_of_ne (hv.aligned _ hc) (hv.aligned o ho) (hv.lt hc) (hv.lt ho)
          hne.symm
      · exact setField_outside (hv.inside o ho) hx

theorem Within.unlock (hw : Within L h uap m) (hv : L.Valid) : Within L h uap (unlock L uap m) ∧
    field (HookClones.unlock L uap m) uap L.hookCount = field m uap L.hookCount := by
  unfold HookClones.unlock
  cases hl : L.lock with
  | none => exact ⟨hw, rfl⟩
  | some o =>
    have ho : o ∈ L.offsets := by simp [Layout.offsets, hl]
    have hc : L.hookCount ∈ L.offsets := Layout.table_mem (by simp)
    obtain ⟨hp, hne⟩ := lock_not_pointer hv hl
    refine ⟨hw.setField hv (hv.aligned o ho) (hv.inside o ho) hp, ?_⟩
    exact field_setField_of_ne (hv.aligned _ hc) (hv.aligned o ho) (hv.lt hc) (hv.lt ho) hne.symm

theorem unlock_outside (hv : L.Valid) {x : Address} (hx : ¬(⟨uap, L.size⟩ : Block 64).Has x) :
    unlock L uap m x = m x := by
  unfold unlock
  cases hl : L.lock with
  | none => rfl
  | some o => exact setField_outside (hv.inside o (by simp [Layout.offsets, hl])) hx

/-- The pair is written into the blocks of the handle where the table has room for it. -/
theorem Within.publish (hw : Within L h uap m) (hv : L.Valid) (hh : Held L h uap) (hook : Address)
    (type : Word) (hroom : (field m uap L.hookCount).toNat + L.trailing <
      (field h.memory uap L.hookSize).toNat) :
    Within L h uap (publish L uap hook type m) ∧
      field (HookClones.publish L uap hook type m) uap L.hookCount = field m uap L.hookCount + 1 ∧
      (L.trailing ≠ 0 → wordAt (HookClones.publish L uap hook type m)
        (slot (field h.memory uap L.hook) (field m uap L.hookCount + 1)) = 0) := by
  have hcount : L.hookCount ∈ L.offsets := Layout.table_mem (by simp)
  have hhook : L.hook ∈ L.pointers := by simp [Layout.pointers]
  have htype : L.hookType ∈ L.pointers := by simp [Layout.pointers]
  have hpointer {o : ℕ} (ho : o ∈ L.pointers) : o + 8 ≤ L.size :=
    hv.inside o (Layout.pointers_subset ho)
  have hsize : (hookBlock L h.memory uap).size = 8 * (field h.memory uap L.hookSize).toNat := rfl
  have hsize' : (hookTypeBlock L h.memory uap).size = 8 * (field h.memory uap L.hookSize).toNat :=
    rfl
  have hlt := (field h.memory uap L.hookSize).isLt
  have hlast : (hookBlock L h.memory uap) ∈ (L.blocks h.memory uap).tail :=
    hookBlock_mem L h.memory uap
  unfold HookClones.publish
  dsimp only
  obtain ⟨hw₁, hf₁⟩ :=
    hw.putSlot hv hh hlast (show 8 * (field m uap L.hookCount).toNat + 8 ≤ _ by omega) hook
  rw [show (hookBlock L h.memory uap).base =
    field m uap L.hook from (hw.pointers _ hhook).symm] at hw₁ hf₁
  generalize putWord m (slot (field m uap L.hook) (field m uap L.hookCount)) hook = m₁ at hw₁ hf₁ ⊢
  have hc₁ : field m₁ uap L.hookCount = field m uap L.hookCount := hf₁ _ (hv.inside _ hcount)
  obtain ⟨hw₂, hf₂⟩ := hw₁.putSlot hv hh (hookTypeBlock_mem L h.memory uap)
    (show 8 * (field m₁ uap L.hookCount).toNat + 8 ≤ _ by rw [hc₁]; omega) type
  rw [show (hookTypeBlock L h.memory uap).base = field m₁ uap
    L.hookType from (hw₁.pointers _ htype).symm] at hw₂ hf₂
  generalize putWord m₁ (slot (field m₁ uap L.hookType) (field m₁ uap L.hookCount)) type =
    m₂ at hw₂ hf₂ ⊢
  have hc₂ : field m₂ uap L.hookCount = field m uap L.hookCount :=
    (hf₂ _ (hv.inside _ hcount)).trans hc₁
  have hw₃ : Within L h uap (HookClones.setField m₂ uap L.hookCount
    (field m₂ uap L.hookCount + 1)) :=
    hw₂.setField hv (hv.aligned _ hcount) (hv.inside _ hcount) (hookCount_not_pointer hv)
  have hc₃ : field (HookClones.setField m₂ uap L.hookCount
    (field m₂ uap L.hookCount + 1)) uap L.hookCount =
      field m uap L.hookCount + 1 := by
    rw [field_setField, hc₂]
  generalize HookClones.setField m₂ uap L.hookCount (field m₂ uap L.hookCount + 1) = m₃ at hw₃ hc₃ ⊢
  by_cases ht : L.trailing = 0
  · rw [if_pos ht]
    exact ⟨hw₃, hc₃, fun hne => absurd ht hne⟩
  · rw [if_neg ht, hw₃.pointers _ hhook, hc₃]
    have hnext : (field m uap L.hookCount + 1).toNat = (field m uap L.hookCount).toNat + 1 := by
      rw [BitVec.toNat_add]
      exact Nat.mod_eq_of_lt (by simp; omega)
    obtain ⟨hw₄, hf₄⟩ := hw₃.putSlot hv hh hlast (by rw [hnext]; omega) 0
    exact ⟨hw₄, (hf₄ _ (hv.inside _ hcount)).trans hc₃, fun _ => wordAt_putWord _ _ _⟩

end

end Ps4Sdk.HookClones
