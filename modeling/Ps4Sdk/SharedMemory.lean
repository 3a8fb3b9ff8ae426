import Ps4Sdk.KernelBase
import Ps4Sdk.NamedObjects
import Ps4Sdk.StepRuns
import Mathlib.Data.List.TakeDrop

/-!
# Named shared memory, `memory/shared.c`

A process opens a shared object by its path and gets a handle. The handle has a copy of
the path, which is cut behind 255 bytes, and no descriptor of the object: to unlink it,
the object is looked up by the copy. What the system functions answer is part of a call.
-/

namespace Ps4Sdk.SharedMemory
open NamedObjects StepRuns

abbrev Word := BitVec 64

/-- The bytes of a string in front of its terminator. -/
structure Path where
  bytes : List (BitVec 8)
  terminated : 0#8 ∉ bytes
  deriving DecidableEq

def Path.take (n : ℕ) (p : Path) : Path :=
  ⟨p.bytes.take n, fun h => p.terminated (List.mem_of_mem_take h)⟩

def strnlen (p : Path) (n : ℕ) : ℕ := min p.bytes.length n

/-- The object that was opened is a record that nothing reads. -/
structure Ps4MemoryShared where
  address : Word
  size : Word
  path : Path
  opened : ℕ

/-- The shared objects with their sizes, and the handles in the order in which they were made. -/
structure System where
  objects : Objects Path Word
  handles : List (Option Ps4MemoryShared)

def System.handle (s : System) (h : ℕ) : Option Ps4MemoryShared := (s.handles[h]?).join

structure Answers where
  mallocMemory : Bool
  mallocPath : Bool
  shmOpen : Bool
  fstat : Bool
  ftruncate : Bool
  mmap : Option Word

def mappedSize (pageSize size fileSize : Word) : Word :=
  if size = 0#64 ∧ 0#64 < fileSize then ((fileSize - 1) / pageSize + 1) * pageSize
  else if size = 0#64 then pageSize
  else ((size - 1) / pageSize + 1) * pageSize

def ps4MemorySharedOpen (pageSize : Word) (x : Answers) (memory : Bool) (s : System)
    (size : Word) (path : Path) :
    Code × System :=
  let l := strnlen path 255
  if memory = false then (ps4ErrorArgumentPrimaryMissing, s)
  else if x.mallocMemory = false then (ps4ErrorOutOfMemory, s)
  else if x.mallocPath = false then (ps4ErrorOutOfMemory, s)
  else if x.shmOpen = false then (ps4ErrorOutOfMemory, s)
  else
    let handle := (s.objects.opened path 0).1
    let objects := (s.objects.opened path 0).2
    let fileSize := if x.fstat then objects.content handle else 0
    let mapped := mappedSize pageSize size fileSize
    if fileSize < mapped ∧ x.ftruncate = false then
      (ps4ErrorOutOfMemory, { s with objects := objects.remove (path.take l) })
    else
      let objects := if fileSize < mapped then objects.set handle mapped else objects
      match x.mmap with
      | none => (ps4ErrorOutOfMemory, { s with objects := objects.remove (path.take l) })
      | some address => (ps4Ok, ⟨objects, s.handles ++
          [some ⟨address, mapped, path.take l, handle⟩]⟩)

/-- A handle that was closed must not be used: there is no result. -/
def ps4MemorySharedClose (munmap : Bool) (s : System) : Option ℕ → Option (Code × System)
  | none => some (-1, s)
  | some h =>
    match s.handle h with
    | none => none
    | some _ => some (if munmap then 0 else -1, { s with handles := s.handles.set h none })

def shmUnlink (objects : Objects Path Word) (path : Path) : Code × Objects Path Word :=
  (if (objects.object path).isSome then 0 else -1, objects.remove path)

def ps4MemorySharedUnlink (munmap : Bool) (s : System) : Option ℕ → Option (Code × System)
  | none => some (-1, s)
  | some h =>
    match s.handle h with
    | none => none
    | some m =>
      let r := shmUnlink s.objects m.path
      (ps4MemorySharedClose munmap { s with objects := r.2 } (some h)).map
        (fun c => (r.1 ||| c.1, c.2))

/-! ### Calls -/

inductive Call
  | opens (memory : Bool) (size : Word) (path : Path) (x : Answers)
  | closes (m : Option ℕ) (munmap : Bool)
  | unlinks (m : Option ℕ) (munmap : Bool)

def perform (pageSize : Word) (s : System) : Call → Option (Code × System)
  | .opens memory size path x => some (ps4MemorySharedOpen pageSize x memory s size path)
  | .closes m munmap => ps4MemorySharedClose munmap s m
  | .unlinks m munmap => ps4MemorySharedUnlink munmap s m

def step (pageSize : Word) (s : System) (c : Call) (s' : System) : Prop :=
  ∃ code, perform pageSize s c = some (code, s')

def Shrinks (s s' : Objects Path Word) (o : ℕ) : Prop := o < s.next ∧ s'.content o < s.content o

/-- What is asked of a call: opening shrinks no object and, if it fails, removes none; unlinking
removes the object that was opened for the handle and no other. -/
def Keeps (pageSize : Word) (s : System) (c : Call) : Prop :=
  ∀ code s', perform pageSize s c = some (code, s') →
    match c with
    | .opens .. =>
      (code ≠ ps4Ok → ∀ o, ¬s.objects.Removes s'.objects o) ∧ ∀ o, ¬Shrinks s.objects s'.objects o
    | .unlinks (some h) _ => ∀ m, s.handle h = some m → ∀ o, s.objects.Removes s'.objects o ↔
        o = m.opened
    | .unlinks none _ | .closes .. => True

def seenSize (s : System) (path : Path) (x : Answers) : Word :=
  if x.fstat then (s.objects.object path).elim 0 s.objects.content else 0

/-- The system functions in front of `fstat` do not fail. -/
def Reaches (memory : Bool) (x : Answers) : Prop :=
  memory = true ∧ x.mallocMemory = true ∧ x.mallocPath = true ∧ x.shmOpen = true
  deriving Decidable

def Abandons (pageSize : Word) (s : System) (size : Word) (path : Path) (x : Answers) : Prop :=
  x.mmap = none ∨ seenSize s path x < mappedSize pageSize size (seenSize s path x) ∧
    x.ftruncate = false

/-- A call that opens and then fails must find no object by the first 255 bytes of its path; where
the size of an object is not learnt, it must not be larger than what is asked for; and the copy of
the path in a handle that is unlinked must still lead to the object that was opened. -/
def Meets (pageSize : Word) (s : System) : Call → Prop
  | .opens memory size path x =>
    Reaches memory x →
      (Abandons pageSize s size path x → s.objects.object (path.take 255) = none) ∧
      (x.fstat = false → x.ftruncate = true → 0#64 < mappedSize pageSize size 0 →
        ∀ o, s.objects.object path = some o → s.objects.content o ≤ mappedSize pageSize size 0)
  | .unlinks (some h) _ => ∀ m, s.handle h = some m → s.objects.object m.path = some m.opened
  | .unlinks none _ | .closes .. => True

private theorem take_strnlen (p : Path) : p.take (strnlen p 255) = p.take 255 := by
  have h : p.bytes.take (min p.bytes.length 255) = p.bytes.take 255 := by
    rw [List.take_eq_take_iff]
    omega
  simp only [Path.take, strnlen, h]

/-! ### Opening -/

section Opening

variable (pageSize : Word) (s : System) (size : Word) (path : Path) {x : Answers} {memory : Bool}

theorem outOfMemory_ne_ok : ps4ErrorOutOfMemory ≠ ps4Ok := by decide

def enlarged (x : Answers) : Objects Path Word :=
  if seenSize s path x < mappedSize pageSize size (seenSize s path x) ∧ x.ftruncate = true then
    (s.objects.opened path 0).2.set (s.objects.opened path 0).1
      (mappedSize pageSize size (seenSize s path x))
  else (s.objects.opened path 0).2

private theorem object_enlarged :
    (enlarged pageSize s size path x).object = (s.objects.opened path 0).2.object := by
  rw [enlarged]
  split_ifs <;> rfl

theorem open_of_not_reaches (h : ¬Reaches memory x) :
    (ps4MemorySharedOpen pageSize x memory s size path).2 = s ∧
      (ps4MemorySharedOpen pageSize x memory s size path).1 ≠ ps4Ok := by
  rw [ps4MemorySharedOpen]
  split_ifs with h₁ h₂ h₃ h₄
  · exact ⟨rfl, (by decide : ps4ErrorArgumentPrimaryMissing ≠ ps4Ok)⟩
  · exact ⟨rfl, outOfMemory_ne_ok⟩
  · exact ⟨rfl, outOfMemory_ne_ok⟩
  · exact ⟨rfl, outOfMemory_ne_ok⟩
  · exact absurd ⟨Bool.of_not_eq_false h₁, Bool.of_not_eq_false h₂, Bool.of_not_eq_false h₃,
      Bool.of_not_eq_false h₄⟩ h
  · exact absurd ⟨Bool.of_not_eq_false h₁, Bool.of_not_eq_false h₂, Bool.of_not_eq_false h₃,
      Bool.of_not_eq_false h₄⟩ h

/-- What opening does behind `shm_open`. -/
theorem open_eq (h : Reaches memory x) :
    ps4MemorySharedOpen pageSize x memory s size path =
      if seenSize s path x < mappedSize pageSize size (seenSize s path x) ∧ x.ftruncate = false then
        (ps4ErrorOutOfMemory,
          { s with objects := (enlarged pageSize s size path x).remove (path.take 255) })
      else match x.mmap with
        | none =>
          (ps4ErrorOutOfMemory,
            { s with objects := (enlarged pageSize s size path x).remove (path.take 255) })
        | some address => (ps4Ok, ⟨enlarged pageSize s size path x, s.handles ++ [some ⟨address,
            mappedSize pageSize size (seenSize s path x), path.take 255,
            (s.objects.opened path 0).1⟩]⟩) := by
  obtain ⟨h₁, h₂, h₃, h₄⟩ := h
  have hseen : (if x.fstat then (s.objects.opened path 0).2.content (s.objects.opened path 0).1
    else 0) =
      seenSize s path x := by rw [Objects.content_opened_self, seenSize]
  rw [ps4MemorySharedOpen]
  simp only [h₁, h₂, h₃, h₄, hseen, take_strnlen, enlarged, Bool.true_eq_false, if_false]
  by_cases hlt : seenSize s path x < mappedSize pageSize size (seenSize s path x)
  · cases x.ftruncate <;> simp [hlt]
  · simp [hlt]

/-- Behind `shm_open` the path is removed again, or there is a new handle. -/
theorem open_of_reaches (h : Reaches memory x) :
    (Abandons pageSize s size path x → ps4MemorySharedOpen pageSize x memory s size path =
      (ps4ErrorOutOfMemory,
        { s with objects := (enlarged pageSize s size path x).remove (path.take 255) })) ∧
    (¬Abandons pageSize s size path x → ∃ m : Ps4MemoryShared,
      m.path = path.take 255 ∧ m.opened = (s.objects.opened path 0).1 ∧
      ps4MemorySharedOpen pageSize x memory s size path =
        (ps4Ok, ⟨enlarged pageSize s size path x, s.handles ++ [some m]⟩)) := by
  rw [open_eq pageSize s size path h]
  by_cases ht : seenSize s path x < mappedSize pageSize size (seenSize s path x) ∧
    x.ftruncate = false
  · rw [if_pos ht]
    exact ⟨fun _ => rfl, fun hn => absurd (.inr ht) hn⟩
  · rw [if_neg ht]
    cases hm : x.mmap with
    | none => exact ⟨fun _ => rfl, fun hn => absurd (.inl hm) hn⟩
    | some address =>
      refine ⟨fun ha => ?_, fun _ => ⟨_, rfl, rfl, rfl⟩⟩
      rcases ha with ha | ha
      · rw [hm] at ha
        cases ha
      · exact absurd ha ht

/-- An object from before gets the size asked for if it is the one that is made larger. -/
theorem content_enlarged {o : ℕ} (ho : o < s.objects.next) :
    (enlarged pageSize s size path x).content o =
      if (seenSize s path x < mappedSize pageSize size (seenSize s path x) ∧ x.ftruncate = true) ∧
        s.objects.object path = some o then mappedSize pageSize size (seenSize s path x)
      else s.objects.content o := by
  have hself : o = (s.objects.opened path 0).1 ↔ s.objects.object path = some o := by
    constructor
    · rintro rfl
      exact Objects.opened_lt_iff.mp ho
    · intro h
      rw [Objects.opened_of_some h]
  rw [enlarged]
  by_cases hg : seenSize s path x < mappedSize pageSize size (seenSize s path x) ∧
    x.ftruncate = true
  · rw [if_pos hg]
    change Function.update _ _ _ o = _
    rw [Function.update_apply, Objects.content_opened ho]
    simp only [hself, hg, true_and]
  · rw [if_neg hg, if_neg fun h => hg h.1, Objects.content_opened ho]

theorem enlarged_shrinks_iff :
    (∀ o, ¬Shrinks s.objects (enlarged pageSize s size path x) o) ↔
      (x.fstat = false → x.ftruncate = true → 0#64 < mappedSize pageSize size 0 →
        ∀ o, s.objects.object path = some o →
        s.objects.content o ≤ mappedSize pageSize size 0) := by
  constructor
  · intro h hfstat hftruncate hpos o ho
    have hseen : seenSize s path x = 0 := by simp [seenSize, hfstat]
    have hlt := s.objects.created ho
    have hsize := content_enlarged pageSize s size path (x := x) hlt
    rw [hseen, if_pos ⟨⟨hpos, hftruncate⟩, ho⟩] at hsize
    refine BitVec.not_lt.mp fun hl => h o ⟨hlt, ?_⟩
    rwa [hsize]
  · rintro h o ⟨hlt, hsmaller⟩
    rw [content_enlarged pageSize s size path hlt] at hsmaller
    split_ifs at hsmaller with hg
    · obtain ⟨⟨hgrows, hftruncate⟩, ho⟩ := hg
      cases hfstat : x.fstat with
      | false =>
        have hseen : seenSize s path x = 0 := by simp [seenSize, hfstat]
        rw [hseen] at hgrows hsmaller
        exact absurd hsmaller (BitVec.not_lt.mpr (h hfstat hftruncate hgrows o ho))
      | true =>
        have hseen : seenSize s path x = s.objects.content o := by simp [seenSize, hfstat, ho]
        rw [hseen] at hgrows hsmaller
        exact BitVec.lt_asymm hgrows hsmaller
    · exact BitVec.lt_irrefl _ hsmaller

/-- The objects from before that an abandoned opening removes. -/
theorem abandoned_removes_iff {o : ℕ} :
    s.objects.Removes ((enlarged pageSize s size path x).remove (path.take 255)) o ↔
      s.objects.object (path.take 255) = some o := by
  have hnamed : ∀ {o}, o < s.objects.next →
      ((enlarged pageSize s size path x).Named o ↔ s.objects.Named o) := by
    intro o ho
    rw [Objects.Named, object_enlarged]
    exact Objects.named_opened_iff ho
  rw [Objects.Removes, Objects.named_remove, object_enlarged]
  constructor
  · rintro ⟨hn, hgone⟩
    by_contra hne
    exact hgone ⟨(hnamed hn.created).mpr hn, fun he => hne
      ((Objects.object_opened_iff hn.created).mp he)⟩
  · intro ho
    have hlt := s.objects.created ho
    exact ⟨⟨_, ho⟩, fun hn => hn.2 ((Objects.object_opened_iff hlt).mpr ho)⟩

theorem open_keeps_iff :
    Keeps pageSize s (.opens memory size path x) ↔
    Meets pageSize s (.opens memory size path x) := by
  have hkeeps : Keeps pageSize s (.opens memory size path x) ↔
      ((ps4MemorySharedOpen pageSize x memory s size path).1 ≠ ps4Ok →
        ∀ o, ¬s.objects.Removes (ps4MemorySharedOpen pageSize x memory s size path).2.objects o) ∧
      ∀ o, ¬Shrinks s.objects (ps4MemorySharedOpen pageSize x memory s size path).2.objects o :=
    ⟨fun h => h _ _ rfl,
      fun h code s' hr => by obtain ⟨rfl, rfl⟩ := Prod.mk.inj (Option.some.inj hr); exact h⟩
  rw [hkeeps, Meets]
  by_cases hreach : Reaches memory x
  · obtain ⟨hfails, hsucceeds⟩ := open_of_reaches pageSize s size path hreach
    rw [forall_prop_of_true hreach, ← enlarged_shrinks_iff]
    by_cases ha : Abandons pageSize s size path x
    · rw [hfails ha, forall_prop_of_true outOfMemory_ne_ok, forall_prop_of_true ha]
      refine and_congr ?_ Iff.rfl
      simp only [abandoned_removes_iff, Option.eq_none_iff_forall_ne_some, ne_eq]
    · obtain ⟨m, -, -, hopen⟩ := hsucceeds ha
      rw [hopen]
      exact and_congr (iff_of_true (fun h => absurd rfl h) fun h => absurd h ha) Iff.rfl
  · obtain ⟨hsame, -⟩ := open_of_not_reaches pageSize s size path hreach
    rw [hsame]
    refine iff_of_true ⟨fun _ o h => h.2 h.1, fun o h => BitVec.lt_irrefl _ h.2⟩
      fun h => absurd h hreach

end Opening

/-! ### Unlinking -/

private theorem unlink_eq {s : System} {h : ℕ} {m : Ps4MemoryShared} (hm : s.handle h = some m)
    (munmap : Bool) :
    ∃ code, ps4MemorySharedUnlink munmap s (some h) =
      some (code, ⟨s.objects.remove m.path, s.handles.set h none⟩) := by
  have hm' : ({ s with objects := s.objects.remove m.path } : System).handle h = some m := hm
  simp only [ps4MemorySharedUnlink, hm, shmUnlink, ps4MemorySharedClose, hm', Option.map_some]
  exact ⟨_, rfl⟩

theorem unlink_keeps_iff (pageSize : Word) (s : System) (h : ℕ) (munmap : Bool) :
    Keeps pageSize s (.unlinks (some h) munmap) ↔ Meets pageSize s (.unlinks (some h) munmap) := by
  constructor
  · intro hk m hm
    obtain ⟨code, heq⟩ := unlink_eq hm munmap
    exact Objects.removes_remove.mp ((hk _ _ heq m hm m.opened).mpr rfl)
  · intro hmeets code s' hr m hm o
    obtain ⟨code', heq⟩ := unlink_eq hm munmap
    obtain ⟨-, rfl⟩ := Prod.mk.inj (Option.some.inj (heq.symm.trans hr))
    rw [Objects.removes_remove, hmeets m hm, Option.some.injEq]
    exact eq_comm

theorem keeps_iff (pageSize : Word) (s : System) (c : Call) : Keeps pageSize s c ↔
    Meets pageSize s c := by
  cases c with
  | opens memory size path x => exact open_keeps_iff pageSize s size path
  | closes m munmap => exact iff_of_true (fun _ _ _ => trivial) trivial
  | unlinks m munmap =>
    cases m with
    | none => exact iff_of_true (fun _ _ _ => trivial) trivial
    | some h => exact unlink_keeps_iff pageSize s h munmap

/-- The runs of calls that all do what is asked of them are those whose calls all meet the
condition. -/
theorem sharedMemory_keeps_iff (pageSize : Word) (s s' : System) (cs : List Call) :
    Run (Guarded (Keeps pageSize) (step pageSize)) s cs s' ↔
      Run (Guarded (Meets pageSize) (step pageSize)) s cs s' :=
  ⟨fun h => h.reguard (fun s c _ => (keeps_iff pageSize s c).mp) (fun _ _ _ _ _ => trivial) trivial,
    fun h => h.reguard (fun s c _ => (keeps_iff pageSize s c).mpr) (fun _ _ _ _ _ => trivial)
      trivial⟩

section Examples

def shortPath : Path := ⟨[47, 97], by decide⟩

def granted : Answers := ⟨true, true, true, true, true, some 0x200000000⟩

def unmapped : Answers := { granted with mmap := none }

/-- The system with an object of two pages, opened by its first process. -/
def shared : System :=
  (ps4MemorySharedOpen 0x4000 granted true ⟨Objects.empty 0, []⟩ 0x8000 shortPath).2

/-- A second process that cannot map the object removes it. The next one gets a new object, and
unlinking the handle of the first process removes that one. -/
theorem failedOpen_removes :
    shared.objects.object shortPath = some 0 ∧ shared.objects.content 0 = 0x8000#64 ∧
    (ps4MemorySharedOpen 0x4000 unmapped true shared 0 shortPath).1 = ps4ErrorOutOfMemory ∧
    shared.objects.Removes (ps4MemorySharedOpen 0x4000 unmapped true shared 0
      shortPath).2.objects 0 ∧
    ∃ s, Run (step 0x4000) shared [.opens true 0 shortPath unmapped,
      .opens true 0 shortPath granted] s ∧
      (s.handle 0).map Ps4MemoryShared.opened = some 0 ∧ s.objects.object shortPath = some 1 ∧
      ¬Keeps 0x4000 s (.unlinks (some 0) true) := by
  have hreach : Reaches true unmapped := by decide
  obtain ⟨hfails, -⟩ := open_of_reaches 0x4000 shared 0 shortPath hreach
  have hfails := hfails (.inl rfl)
  refine ⟨rfl, by decide, by rw [hfails], ?_, _, .cons ⟨_, rfl⟩ (.cons ⟨_, rfl⟩ (.nil _)),
    rfl, rfl, ?_⟩
  · rw [hfails]
    exact abandoned_removes_iff 0x4000 shared 0 shortPath |>.mpr rfl
  · rw [keeps_iff]
    intro hmeets
    exact absurd (hmeets _ rfl) (by decide)

end Examples

/-! ### Careful processes -/

end Ps4Sdk.SharedMemory
