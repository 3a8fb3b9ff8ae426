import Ps4Sdk.ByteMemory
import Mathlib.Data.Set.Insert

/-!
# Memories with allocated blocks

A heap is a memory with its live blocks, which share no address. A program owns some of
them: it changes bytes of its blocks only, allocates blocks that no live one meets, and
frees its own. Whatever it does, every block that it does not own stays live and keeps
its bytes.
-/

namespace Ps4Sdk.AllocatedMemory
open ByteMemory

universe u

variable {w : ℕ} {β : Type u}

structure Block (w : ℕ) where
  base : BitVec w
  size : ℕ
  deriving DecidableEq

def Block.Has (b : Block w) (x : BitVec w) : Prop := Inside b.base b.size x

instance (b : Block w) (x : BitVec w) : Decidable (b.Has x) :=
  inferInstanceAs (Decidable (Inside _ _ _))

structure Block.Clear (b c : Block w) : Prop where
  base : b.base ≠ c.base
  apart : ∀ x, b.Has x → ¬c.Has x

/-- The block is none at zero and does not go on there. -/
structure Block.Fits (b : Block w) : Prop where
  ne_zero : b.base ≠ 0
  le : b.base.toNat + b.size ≤ 2 ^ w

instance (b : Block w) : Decidable b.Fits :=
  decidable_of_iff (b.base ≠ 0 ∧ b.base.toNat + b.size ≤ 2 ^ w)
    ⟨fun h => ⟨h.1, h.2⟩, fun h => ⟨h.1, h.2⟩⟩

def Block.Before (b c : Block w) : Prop := b.base.toNat + b.size ≤ c.base.toNat ∧ b.base ≠ c.base

instance (b c : Block w) : Decidable (b.Before c) := inferInstanceAs (Decidable (_ ∧ _))

structure Heap (w : ℕ) (β : Type u) where
  memory : Memory w β
  live : List (Block w)

structure Heap.Sound (h : Heap w β) : Prop where
  nodup : h.live.Nodup
  fits : ∀ b ∈ h.live, b.Fits
  clear : ∀ b ∈ h.live, ∀ c ∈ h.live, b ≠ c → b.Clear c

/-- What an allocation may give. -/
structure Heap.Fresh (h : Heap w β) (b : Block w) : Prop where
  fits : b.Fits
  clear : ∀ c ∈ h.live, b.Clear c

def Heap.allocate (h : Heap w β) (b : Block w) (zero : β) : Heap w β where
  memory := fill h.memory b.base b.size zero
  live := b :: h.live

def Heap.release (h : Heap w β) (b : Block w) (residue : Memory w β) : Heap w β where
  memory := fun x => if b.Has x then residue x else h.memory x
  live := h.live.erase b

/-- Freeing the block at an address; there is none at zero, and elsewhere there must be one. -/
def Heap.free (h : Heap w β) (a : BitVec w) (residue : Memory w β) : Option (Heap w β) :=
  if a = 0 then some h else (h.live.find? fun b => b.base = a).map fun b => h.release b residue

section

variable {h h' : Heap w β} {b c : Block w} {zero : β} {residue : Memory w β}

theorem Block.Clear.symm (hc : b.Clear c) : c.Clear b :=
  ⟨hc.base.symm, fun x hx hb => hc.apart x hb hx⟩

theorem Block.Clear.ne (hc : b.Clear c) : b ≠ c := fun he => hc.base (congrArg Block.base he)

theorem Block.Before.clear (hb : b.Before c) (hc : c.Fits) : b.Clear c := by
  refine ⟨hb.2, fun x hx hx' => ?_⟩
  have hlt := c.base.isLt
  have hle := hb.1
  have hx := hx.toNat_bounds (by omega)
  have hx' := hx'.toNat_bounds hc.le
  omega

theorem Block.Fits.clear (hb : b.Fits) (hc : c.Fits) (h : b.Before c ∨ c.Before b) : b.Clear c :=
  h.elim (fun h => h.clear hc) fun h => (h.clear hb).symm

theorem Heap.sound_of_before (hn : h.live.Nodup) (hf : ∀ b ∈ h.live, b.Fits)
    (hb : ∀ b ∈ h.live, ∀ c ∈ h.live, b ≠ c → b.Before c ∨ c.Before b) : h.Sound :=
  ⟨hn, hf, fun b hm c hm' hne => (hf b hm).clear (hf c hm') (hb b hm c hm' hne)⟩

private theorem Block.Fits.pos (hb : b.Fits) : 0 < b.base.toNat := by
  have hzero : (0 : BitVec w).toNat = 0 := by simp
  refine Nat.pos_of_ne_zero fun hz => hb.ne_zero (BitVec.eq_of_toNat_eq ?_)
  rw [hz, hzero]

theorem Block.Clear.room_of_le (hc : b.Clear c) (hb : b.Fits) (hf : c.Fits)
    (hle : b.base ≤ c.base) :
    b.size + c.size < 2 ^ w := by
  have hpos := hb.pos
  have hb' := hb.le
  have hf' := hf.le
  have hdistance := BitVec.toNat_sub_of_le hle
  by_cases hz : c.size = 0
  · omega
  · have hbase : c.Has c.base := by
      rw [Has, Inside, BitVec.sub_self, BitVec.toNat_zero]
      omega
    have hnot : ¬(c.base - b.base).toNat < b.size := fun hlt => hc.apart c.base hlt hbase
    have hle' : b.base.toNat ≤ c.base.toNat := hle
    omega

theorem Block.Clear.room (hc : b.Clear c) (hb : b.Fits) (hf : c.Fits) :
    b.size + c.size < 2 ^ w := by
  rcases BitVec.le_total b.base c.base with hle | hle
  · exact hc.room_of_le hb hf hle
  · rw [Nat.add_comm]
    exact hc.symm.room_of_le hf hb hle

theorem Heap.Fresh.not_live (hf : h.Fresh b) : b ∉ h.live := fun hl => (hf.clear b hl).ne rfl

private theorem Heap.Sound.eq_of_base (hs : h.Sound) (hb : b ∈ h.live) (hc : c ∈ h.live)
    (he : b.base = c.base) : b = c := by
  by_contra hne
  exact (hs.clear b hb c hc hne).base he

theorem Heap.Sound.allocate (hs : h.Sound) (hf : h.Fresh b) : (h.allocate b zero).Sound where
  nodup := List.nodup_cons.mpr ⟨hf.not_live, hs.nodup⟩
  fits := by
    intro c hc
    rcases List.mem_cons.mp hc with rfl | hc
    · exact hf.fits
    · exact hs.fits c hc
  clear := by
    intro c hc d hd hne
    rcases List.mem_cons.mp hc with rfl | hc'
    · rcases List.mem_cons.mp hd with rfl | hd'
      · exact absurd rfl hne
      · exact hf.clear d hd'
    · rcases List.mem_cons.mp hd with rfl | hd'
      · exact (hf.clear c hc').symm
      · exact hs.clear c hc' d hd' hne

theorem Heap.allocate_outside {x : BitVec w} (hx : ¬b.Has x) :
    (h.allocate b zero).memory x = h.memory x :=
  write_outside h.memory (by rwa [List.length_replicate])

theorem Heap.Sound.release (hs : h.Sound) (b : Block w) (residue : Memory w β) :
    (h.release b residue).Sound where
  nodup := hs.nodup.erase b
  fits c hc := hs.fits c (List.mem_of_mem_erase hc)
  clear c hc d hd := hs.clear c (List.mem_of_mem_erase hc) d (List.mem_of_mem_erase hd)

theorem Heap.release_outside {x : BitVec w} (hx : ¬b.Has x) :
    (h.release b residue).memory x = h.memory x := if_neg hx

theorem Heap.Sound.mem_release (hs : h.Sound) : c ∈ (h.release b residue).live ↔ c ∈ h.live ∧
    c ≠ b := by
  rw [Heap.release, hs.nodup.mem_erase_iff, and_comm]

theorem Heap.Sound.free_eq (hs : h.Sound) (hb : b ∈ h.live) (residue : Memory w β) :
    h.free b.base residue = some (h.release b residue) := by
  obtain ⟨c, hc⟩ : ∃ c, h.live.find? (fun c => c.base = b.base) = some c := by
    rw [← Option.isSome_iff_exists, List.find?_isSome]
    exact ⟨b, hb, by simp⟩
  have hbase : c.base = b.base := by simpa using List.find?_some hc
  have he : c = b := hs.eq_of_base (List.mem_of_find?_eq_some hc) hb hbase
  rw [free, if_neg (hs.fits b hb).ne_zero, hc, he]
  rfl

end

/-! ### Owned blocks -/

structure Owns (h : Heap w β) (owned : Set (Block w)) : Prop where
  sound : h.Sound
  live : ∀ b ∈ owned, b ∈ h.live

inductive Works (owned : Set (Block w)) (h : Heap w β) : Set (Block w) → Heap w β → Prop
  | refl : Works owned h owned h
  | change {now : Set (Block w)} {h₁ : Heap w β} {m : Memory w β} (before : Works owned h now h₁)
      (outside : ∀ x, (∀ b ∈ now, ¬b.Has x) → m x = h₁.memory x) :
      Works owned h now { h₁ with memory := m }
  | allocate {now : Set (Block w)} {h₁ : Heap w β} {b : Block w} (before : Works owned h now h₁)
      (zero : β)
      (fresh : h₁.Fresh b) : Works owned h (insert b now) (h₁.allocate b zero)
  | release {now : Set (Block w)} {h₁ : Heap w β} {b : Block w} (before : Works owned h now h₁)
      (residue : Memory w β) (mem : b ∈ now) : Works owned h (now \ {b}) (h₁.release b residue)

structure Foreign (h : Heap w β) (owned : Set (Block w)) (c : Block w) : Prop where
  live : c ∈ h.live
  not_owned : c ∉ owned

variable {owned owned' owned'' : Set (Block w)} {h h' h'' : Heap w β} {c : Block w}

theorem Works.trans (hw : Works owned h owned' h') (hw' : Works owned' h' owned'' h'') :
    Works owned h owned'' h'' := by
  induction hw' with
  | refl => exact hw
  | change _ outside ih => exact .change ih outside
  | allocate _ zero fresh ih => exact .allocate ih zero fresh
  | release _ residue mem ih => exact .release ih residue mem

theorem Works.owns (hw : Works owned h owned' h') (ho : Owns h owned) : Owns h' owned' := by
  induction hw with
  | refl => exact ho
  | change _ _ ih => exact ⟨⟨ih.sound.nodup, ih.sound.fits, ih.sound.clear⟩, ih.live⟩
  | allocate _ _ fresh ih =>
    refine ⟨ih.sound.allocate fresh, fun b hb => ?_⟩
    rcases hb with rfl | hb
    · exact List.mem_cons_self
    · exact List.mem_cons_of_mem _ (ih.live b hb)
  | release _ _ _ ih => exact ⟨ih.sound.release _ _,
      fun b hb => ih.sound.mem_release.mpr ⟨ih.live b hb.1, hb.2⟩⟩

/-- The frame rule: the blocks of others stay live, theirs, and with their bytes. -/
theorem Works.frame (hw : Works owned h owned' h') (ho : Owns h owned) (hc : Foreign h owned c) :
    Foreign h' owned' c ∧ ∀ x, c.Has x → h'.memory x = h.memory x := by
  induction hw with
  | refl => exact ⟨hc, fun _ _ => rfl⟩
  | change before outside ih =>
    obtain ⟨hforeign, hbytes⟩ := ih
    have ho' := before.owns ho
    refine ⟨⟨hforeign.live, hforeign.not_owned⟩,
      fun x hx => (outside x fun b hb hbx => ?_).trans (hbytes x hx)⟩
    have hne : b ≠ c := fun he => hforeign.not_owned (he ▸ hb)
    exact (ho'.sound.clear b (ho'.live b hb) c hforeign.live hne).apart x hbx hx
  | allocate _ _ fresh ih =>
    obtain ⟨hforeign, hbytes⟩ := ih
    have hclear := fresh.clear c hforeign.live
    refine ⟨⟨List.mem_cons_of_mem _ hforeign.live, fun hm => ?_⟩, fun x hx => ?_⟩
    · rcases hm with he | hm
      · exact hclear.ne he.symm
      · exact hforeign.not_owned hm
    · exact (Heap.allocate_outside fun hb => hclear.apart x hb hx).trans (hbytes x hx)
  | @release _ _ b before _ mem ih =>
    obtain ⟨hforeign, hbytes⟩ := ih
    have ho' := before.owns ho
    have hne : c ≠ b := fun he => hforeign.not_owned (he ▸ mem)
    have hclear := ho'.sound.clear c hforeign.live b (ho'.live b mem) hne
    refine ⟨⟨ho'.sound.mem_release.mpr ⟨hforeign.live, hne⟩,
      fun hm => hforeign.not_owned hm.1⟩, fun x hx => ?_⟩
    exact (Heap.release_outside (hclear.apart x hx)).trans (hbytes x hx)

/-- Every live block was live before or is one that the program owns. -/
theorem Works.live (hw : Works owned h owned' h') (ho : Owns h owned) (hc : c ∈ h'.live) :
    c ∈ owned' ∨ c ∈ h.live := by
  induction hw with
  | refl => exact .inr hc
  | change _ _ ih => exact ih hc
  | allocate _ _ _ ih =>
    rcases List.mem_cons.mp hc with rfl | hc
    · exact .inl (.inl rfl)
    · exact (ih hc).imp_left .inr
  | release before _ _ ih =>
    obtain ⟨hlive, hne⟩ := (before.owns ho).sound.mem_release.mp hc
    exact (ih hlive).imp_left fun hm => ⟨hm, hne⟩

theorem Works.fresh (hw : Works owned h owned' h') (ho : Owns h owned) (hf : h.Fresh c)
    (hc : ∀ b ∈ owned', c.Clear b) : h'.Fresh c :=
  ⟨hf.fits, fun b hb => (hw.live ho hb).elim (hc b) (hf.clear b)⟩

/-- The program may do the same with more blocks at hand. -/
theorem Works.extend {more : Set (Block w)} (hw : Works owned h owned' h') (ho : Owns h owned)
    (hm : ∀ b ∈ more, Foreign h owned b) : Works (owned ∪ more) h (owned' ∪ more) h' := by
  induction hw with
  | refl => exact .refl
  | change _ outside ih => exact .change ih fun x hx => outside x fun b hb => hx b (.inl hb)
  | allocate _ zero fresh ih =>
    rw [Set.insert_union]
    exact .allocate ih zero fresh
  | @release now h₁ b before residue mem ih =>
    have hb : b ∉ more := fun hb => (before.frame ho (hm b hb)).1.not_owned mem
    have he : now \ {b} ∪ more = (now ∪ more) \ {b} := by
      rw [Set.union_sdiff_distrib, Set.sdiff_singleton_eq_self hb]
    rw [he]
    exact .release ih residue (.inl mem)

end Ps4Sdk.AllocatedMemory
