import Ps4Sdk.AlignedSizes
import Ps4Sdk.ProtectedMemory
import Ps4Sdk.SharedMemory

/-!
# Sizes in pages, `memory/protected.c` and `memory/shared.c`

`ps4MemoryProtectedCreate` and `ps4MemorySharedOpen` round a size to pages, each by its own
formula and in words that wrap. The system refuses to map nothing.
-/

namespace Ps4Sdk.PageRounding

open AlignedSizes ProtectedMemory SharedMemory

abbrev Size := BitVec 64

/-- The size computed is the least number of whole pages that has room for the request, and it is
the size of every mapping that is made; if it does not fit in a word, none is made. -/
structure Exact (pageSize request : ℕ) (computed : Size) (Maps : Size → Prop) : Prop where
  fits : ∀ n, IsLeast {k | pageSize ∣ k ∧ request ≤ k} n → n < 2 ^ 64 →
    computed.toNat = n ∧ ∀ mapped, Maps mapped → mapped = computed
  rejected : ∀ n, IsLeast {k | pageSize ∣ k ∧ request ≤ k} n → 2 ^ 64 ≤ n → ∀ mapped, ¬Maps mapped

/-- The sizes that a new handle can have in a system that does not map nothing. -/
def ProtectedMaps (pageSize size mapped : Size) : Prop :=
  ∃ (x : ProtectedMemory.Answers) (memory : Address) (s s' : Process) (m : Ps4MemoryProtected),
    (alignedSize pageSize size = 0#64 → x.mmapExecutable = none ∧ x.mmapWritable = none) ∧
    ps4MemoryProtectedCreate x pageSize memory s size = (ps4Ok, s') ∧
    s'.held = (x.malloc, m) ::ₘ s.held ∧ m.size = mapped

def objectSize (s : System) (path : Path) : Size := (s.objects.object path).elim 0 s.objects.content

/-- What must have room in the mapping: the size asked for or, if none is, the object. -/
def request (s : System) (size : Size) (path : Path) : Size :=
  if size = 0#64 then objectSize s path else size

/-- The size computed, by whether the size of the object is learnt. -/
def sharedSize (pageSize : Size) (fstat : Bool) (s : System) (size : Size) (path : Path) : Size :=
  mappedSize pageSize size (if fstat then objectSize s path else 0)

def SharedMaps (pageSize : Size) (fstat : Bool) (s : System) (size : Size) (path : Path)
    (mapped : Size) : Prop :=
  ∃ (x : SharedMemory.Answers) (memory : Bool) (s' : System) (m : Ps4MemoryShared), x.fstat =
    fstat ∧
    (sharedSize pageSize fstat s size path = 0#64 → x.mmap = none) ∧
    ps4MemorySharedOpen pageSize x memory s size path = (ps4Ok, s') ∧
    s'.handles = s.handles ++ [some m] ∧ m.size = mapped

/-! ### The formulas -/

section

variable {pageSize : Size}

private theorem toNat_alignedSize (hp : pageSize ≠ 0#64) (size : Size) :
    (alignedSize pageSize size).toNat = roundUp pageSize.toNat (size.toNat + 1) % 2 ^ 64 := by
  rw [roundUp_succ (toNat_pos hp), alignedSize, BitVec.toNat_mul, BitVec.toNat_add,
    BitVec.toNat_udiv, Nat.mod_mul_mod]
  rfl

theorem toNat_alignedSize_pred (hp : pageSize ≠ 0#64) {size : Size} (h : size ≠ 0#64) :
    (alignedSize pageSize (size - 1)).toNat = roundUp pageSize.toNat size.toNat % 2 ^ 64 := by
  have hpos := toNat_pos h
  have hpred : (size - 1).toNat + 1 = size.toNat := by
    rw [BitVec.toNat_sub_of_le (by rw [BitVec.le_def]; exact hpos)]
    exact Nat.sub_add_cancel hpos
  rw [toNat_alignedSize hp, hpred]

theorem exact_iff {request : ℕ} {computed : Size} {Maps : Size → Prop} (hp : pageSize ≠ 0#64)
    (hmaps : ∀ mapped, Maps mapped ↔ mapped = computed ∧ computed ≠ 0#64) :
    Exact pageSize.toNat request computed Maps ↔
      (roundUp pageSize.toNat request < 2 ^ 64 → computed.toNat = roundUp pageSize.toNat request) ∧
      (2 ^ 64 ≤ roundUp pageSize.toNat request → computed = 0#64) := by
  have hleast := isLeast_roundUp (toNat_pos hp) request
  constructor
  · intro h
    refine ⟨fun hlt => (h.fits _ hleast hlt).1, fun hle => ?_⟩
    by_contra hne
    exact h.rejected _ hleast hle computed ((hmaps computed).mpr ⟨rfl, hne⟩)
  · rintro ⟨hcomputed, hzero⟩
    refine ⟨fun n hn hlt => ⟨?_, fun mapped hm => ((hmaps mapped).mp hm).1⟩,
      fun n hn hle mapped hm => ?_⟩
    · rw [(isLeast_iff (toNat_pos hp)).mp hn] at hlt ⊢
      exact hcomputed hlt
    · rw [(isLeast_iff (toNat_pos hp)).mp hn] at hle
      exact ((hmaps mapped).mp hm).2 (hzero hle)

/-- A size that is rounded right but for its wrapping is exact unless it wraps to more than
nothing. -/
theorem exact_iff_of_rounded {n computed : Size} {Maps : Size → Prop} (hp : pageSize ≠ 0#64)
    (hcomputed : computed.toNat = roundUp pageSize.toNat n.toNat % 2 ^ 64)
    (hmaps : ∀ mapped, Maps mapped ↔ mapped = computed ∧ computed ≠ 0#64) :
    Exact pageSize.toNat n.toNat computed Maps ↔ roundUp pageSize.toNat n.toNat ≤ 2 ^ 64 := by
  have hzero : computed = 0#64 ↔ roundUp pageSize.toNat n.toNat % 2 ^ 64 = 0 := by
    rw [← hcomputed]
    exact BitVec.toNat_eq.trans Iff.rfl
  rw [exact_iff hp hmaps, hcomputed, hzero]
  by_cases hfits : roundUp pageSize.toNat n.toNat < 2 ^ 64
  · exact iff_of_true ⟨Nat.mod_eq_of_lt, fun h => absurd hfits h.not_gt⟩ hfits.le
  · have hle := not_lt.mp hfits
    rw [roundUp_mod_eq_zero_iff (toNat_pos hp) n.isLt pageSize.isLt hle]
    exact ⟨fun h => (h.2 hle).le, fun h => ⟨fun hlt => absurd hlt hfits,
      fun _ => le_antisymm h hle⟩⟩

/-! ### Protected memory -/

theorem protectedMaps_iff {size : Size} (hs : size ≠ 0#64) (mapped : Size) :
    ProtectedMaps pageSize size mapped ↔ mapped = alignedSize pageSize size ∧
    alignedSize pageSize size ≠ 0#64 := by
  constructor
  · rintro ⟨x, memory, s, s', m, hempty, hcreate, hheld, rfl⟩
    have hok : (ps4MemoryProtectedCreate x pageSize memory s size).1 = ps4Ok := by rw [hcreate]
    obtain ⟨executable, writable, hg⟩ := (create_eq_ok_iff x pageSize memory s size).mp hok
    rw [create_of_granted x pageSize memory s size hg] at hcreate
    obtain ⟨-, rfl⟩ := Prod.mk.inj hcreate
    refine ⟨?_, fun hzero => ?_⟩
    · change (x.malloc, _) ::ₘ (Process.closes x s).held = _ at hheld
      rw [Process.closes_held] at hheld
      have hm := (Multiset.cons_inj_left _).mp hheld
      rw [← (Prod.mk.inj hm).2]
    · have hnone := (hempty hzero).1
      rw [hg.mmapExecutable] at hnone
      cases hnone
  · rintro ⟨rfl, hne⟩
    have hg : Granted ⟨1, ⟨1, true⟩, ⟨1, true⟩, some 0, some 0, true⟩ 1 size 0 0 :=
      ⟨by decide, hs, by decide, by decide, by decide, rfl, rfl⟩
    exact ⟨_, 1, ⟨0, 0, 0, 0⟩, _, _, fun h => absurd h hne, create_of_granted _ _ _ _ _ hg, rfl,
      rfl⟩

theorem protected_exact_iff (hp : pageSize ≠ 0#64) {size : Size} (hs : size ≠ 0#64) :
    Exact pageSize.toNat size.toNat (alignedSize pageSize size) (ProtectedMaps pageSize size) ↔
      ¬pageSize.toNat ∣ size.toNat ∧ roundUp pageSize.toNat size.toNat ≤ 2 ^ 64 := by
  have hpos := toNat_pos hp
  have hcomputed := toNat_alignedSize hp size
  by_cases hdvd : pageSize.toNat ∣ size.toNat
  · rw [roundUp_succ_of_dvd hpos hdvd] at hcomputed
    refine iff_of_false (fun h => ?_) fun h => h.1 hdvd
    have hsize := size.isLt
    have hpage := pageSize.isLt
    have heq := ((exact_iff hp (protectedMaps_iff hs)).mp h).1
    rw [roundUp_of_dvd hpos hdvd, hcomputed] at heq
    have hwrong := heq hsize
    omega
  · rw [roundUp_succ_of_not_dvd hpos hdvd] at hcomputed
    rw [exact_iff_of_rounded hp hcomputed (protectedMaps_iff hs)]
    exact ⟨fun h => ⟨hdvd, h⟩, fun h => h.2⟩

/-! ### Shared memory -/

theorem sharedMaps_iff (fstat : Bool) (s : System) (size : Size) (path : Path) (mapped : Size) :
    SharedMaps pageSize fstat s size path mapped ↔
      mapped = sharedSize pageSize fstat s size path ∧
      sharedSize pageSize fstat s size path ≠ 0#64 := by
  constructor
  · rintro ⟨x, memory, s', m, rfl, hempty, hopen, hhandles, rfl⟩
    have hreach : Reaches memory x := by
      by_contra hn
      exact (open_of_not_reaches pageSize s size path hn).2 (by rw [hopen])
    rw [open_eq pageSize s size path hreach] at hopen
    split_ifs at hopen
    · exact absurd (Prod.mk.inj hopen).1 outOfMemory_ne_ok
    · cases hm : x.mmap with
      | none =>
        rw [hm] at hopen
        exact absurd (Prod.mk.inj hopen).1 outOfMemory_ne_ok
      | some address =>
        rw [hm] at hopen
        obtain ⟨-, rfl⟩ := Prod.mk.inj hopen
        have hlast := List.append_cancel_left hhandles
        refine ⟨?_, fun hzero => ?_⟩
        · rw [← Option.some.inj (List.cons.inj hlast).1]
          rfl
        · rw [hempty hzero] at hm
          cases hm
  · rintro ⟨rfl, hne⟩
    have hreach : Reaches true ⟨true, true, true, fstat, true, some 0⟩ := ⟨rfl, rfl, rfl, rfl⟩
    have hopen := open_eq pageSize s size path hreach
    rw [if_neg fun h => Bool.noConfusion h.2] at hopen
    exact ⟨_, true, _, _, rfl, fun h => absurd h hne, hopen, rfl, rfl⟩

/-- The request is rounded if it is the size asked for or if the object's size is learnt. -/
theorem toNat_sharedSize (hp : pageSize ≠ 0#64) {fstat : Bool} {s : System} {size : Size}
    {path : Path} (hr : request s size path ≠ 0#64) (h : size ≠ 0#64 ∨ fstat = true) :
    (sharedSize pageSize fstat s size path).toNat =
      roundUp pageSize.toNat (request s size path).toNat % 2 ^ 64 := by
  rw [← toNat_alignedSize_pred hp hr]
  by_cases hsize : size = 0#64
  · rcases h with h | rfl
    · exact absurd hsize h
    · have hobject : request s size path = objectSize s path := if_pos hsize
      rw [hobject] at hr ⊢
      rw [sharedSize, mappedSize, if_pos rfl, if_pos
        ⟨hsize, by rw [BitVec.lt_def]; exact toNat_pos hr⟩]
      rfl
  · rw [sharedSize, mappedSize, if_neg fun hz => hsize hz.1, if_neg hsize, request, if_neg hsize]
    rfl

private theorem roundUp_eq_page_iff (hp : pageSize ≠ 0#64) {n : Size} (hn : n ≠ 0#64) :
    roundUp pageSize.toNat n.toNat = pageSize.toNat ↔ n ≤ pageSize := by
  rw [BitVec.le_def, ← roundUp_le_iff (toNat_pos hp) (dvd_refl _)]
  refine ⟨fun h => h.le, fun h => le_antisymm h ?_⟩
  exact Nat.le_of_dvd (roundUp_pos (toNat_pos hp) (toNat_pos hn)) (dvd_roundUp _ _)

theorem shared_exact_iff (hp : pageSize ≠ 0#64) {fstat : Bool} {s : System} {size : Size}
    {path : Path} (hr : request s size path ≠ 0#64) :
    Exact pageSize.toNat (request s size path).toNat (sharedSize pageSize fstat s size path)
        (SharedMaps pageSize fstat s size path) ↔
      roundUp pageSize.toNat (request s size path).toNat ≤ 2 ^ 64 ∧
        (size = 0#64 → fstat = false → objectSize s path ≤ pageSize) := by
  by_cases h : size ≠ 0#64 ∨ fstat = true
  · rw [exact_iff_of_rounded hp (toNat_sharedSize hp hr h) (sharedMaps_iff fstat s size path)]
    refine ⟨fun hle => ⟨hle, fun hsize hfstat => ?_⟩, fun hle => hle.1⟩
    rcases h with h | h
    · exact absurd hsize h
    · rw [h] at hfstat
      cases hfstat
  · rw [not_or, not_not, Bool.not_eq_true] at h
    obtain ⟨rfl, rfl⟩ := h
    have hobject : request s 0#64 path = objectSize s path := if_pos rfl
    have hcomputed : sharedSize pageSize false s 0#64 path = pageSize := by
      rw [sharedSize, mappedSize, if_neg fun h => BitVec.lt_irrefl 0#64 h.2, if_pos rfl]
    rw [exact_iff hp (sharedMaps_iff false s 0#64 path), hcomputed, hobject]
    rw [hobject] at hr
    constructor
    · rintro ⟨heq, hzero⟩
      have hlt : roundUp pageSize.toNat (objectSize s path).toNat < 2 ^ 64 :=
        not_le.mp fun hle => hp (hzero hle)
      exact ⟨hlt.le, fun _ _ => (roundUp_eq_page_iff hp hr).mp (heq hlt).symm⟩
    · rintro ⟨-, hle⟩
      have heq := (roundUp_eq_page_iff hp hr).mpr (hle rfl rfl)
      rw [heq]
      exact ⟨fun _ => rfl, fun hge => absurd pageSize.isLt hge.not_gt⟩

end

/-- Protected memory is rounded exactly if the size is no multiple of the page and the whole pages
do not wrap to a smaller mapping; shared memory if they do not wrap and the size of an object that
is to be mapped as it is is learnt or no more than a page. -/
theorem pageRounding_exact_iff (pageSize : Size) (hp : pageSize ≠ 0#64) :
    (∀ size, size ≠ 0#64 →
      (Exact pageSize.toNat size.toNat (alignedSize pageSize size) (ProtectedMaps pageSize size) ↔
        ¬pageSize.toNat ∣ size.toNat ∧ roundUp pageSize.toNat size.toNat ≤ 2 ^ 64)) ∧
    ∀ (fstat : Bool) (s : System) (size : Size) (path : Path), request s size path ≠ 0#64 →
      (Exact pageSize.toNat (request s size path).toNat (sharedSize pageSize fstat s size path)
          (SharedMaps pageSize fstat s size path) ↔
        roundUp pageSize.toNat (request s size path).toNat ≤ 2 ^ 64 ∧
          (size = 0#64 → fstat = false → objectSize s path ≤ pageSize)) :=
  ⟨fun _ hs => protected_exact_iff hp hs, fun _ _ _ _ hr => shared_exact_iff hp hr⟩

theorem pageRounding_exact_of_pages :
    Exact 0x4000 0x4001 (alignedSize 0x4000#64 0x4001#64) (ProtectedMaps 0x4000#64 0x4001#64) ∧
    Exact 0x4000 0x8000 (sharedSize 0x4000#64 true shared 0#64 shortPath)
      (SharedMaps 0x4000#64 true shared 0#64 shortPath) := by
  obtain ⟨hprotected, hshared⟩ := pageRounding_exact_iff 0x4000#64 (by decide)
  refine ⟨(hprotected 0x4001#64 (by decide)).mpr (by decide), ?_⟩
  exact (hshared true shared 0#64 shortPath (by decide)).mpr
    ⟨by decide, fun _ h => Bool.noConfusion h⟩

/-- Protected memory of one page gets two. With pages of `0x3000` bytes, the largest size is asked
for and less than a page of shared memory is mapped. -/
theorem pageRounding_wrong :
    alignedSize 0x4000#64 0x4000#64 = 0x8000#64 ∧ ProtectedMaps 0x4000#64 0x4000#64 0x8000#64 ∧
    ¬Exact 0x4000 0x4000 (alignedSize 0x4000#64 0x4000#64) (ProtectedMaps 0x4000#64 0x4000#64) ∧
    SharedMaps 0x3000#64 true shared (BitVec.allOnes 64) shortPath 0x2000#64 ∧
    ¬Exact 0x3000 (2 ^ 64 - 1) (sharedSize 0x3000#64 true shared (BitVec.allOnes 64) shortPath)
      (SharedMaps 0x3000#64 true shared (BitVec.allOnes 64) shortPath) := by
  refine ⟨by decide, (protectedMaps_iff (by decide) _).mpr (by decide), fun h => ?_,
    (sharedMaps_iff _ _ _ _ _).mpr (by decide), fun h => ?_⟩
  · have hpage : 0x4000#64 ≠ 0#64 := by decide
    exact ((protected_exact_iff hpage hpage).mp h).1 (by decide)
  · have hpage : 0x3000#64 ≠ 0#64 := by decide
    have hrequest : request shared (BitVec.allOnes 64) shortPath ≠ 0#64 := by decide
    exact absurd ((shared_exact_iff hpage hrequest).mp h).1 (by decide)

end Ps4Sdk.PageRounding
