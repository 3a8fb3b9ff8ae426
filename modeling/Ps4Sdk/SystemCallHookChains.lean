import Ps4Sdk.KernelBase
import Mathlib.Data.Int.Notation
import Mathlib.Data.List.Nodup
import Mathlib.Tactic.Common

/-!
# Chains of system call hooks of `kernel/system_call.c`

`Create` remembers whatever call it finds installed and puts its prologue there,
`Destroy` puts back what its handle remembers. The handles of a number therefore
form a stack, and they stay one exactly as long as only the handle on top is
destroyed.
-/

namespace Ps4Sdk.SystemCallHookChains

/-- The fields of `Ps4KernelSystemCallHookArgument` that link a handle. -/
structure Handle where
  address : Address
  number : ℤ
  prologue : Address
  originalCall : Address
  deriving DecidableEq

/-- The calls of the table `sysent`, and the live handles, the last created first. -/
structure Kernel where
  sysent : ℤ → Address
  handles : List Handle

def sysMaxSyscall : ℤ := 617

/-- `Create` with the two blocks it allocates for the handle and its prologue. -/
def ps4KernelSystemCallHookCreate (k : Kernel) (number : ℤ)
    (arg prologue : Address) : Code × Kernel :=
  if number > sysMaxSyscall then (ps4ErrorKernelSystemCallNumberTooLarge, k)
  else (ps4Ok,
    { sysent := Function.update k.sysent number prologue
      handles := ⟨arg, number, prologue, k.sysent number⟩ :: k.handles })

/-- `Destroy`, which needs a live handle to read. -/
def ps4KernelSystemCallHookDestroy (k : Kernel) (hookh : Address) : Option (Code × Kernel) :=
  if hookh = 0#64 then some (ps4ErrorArgumentPrimaryMissing, k)
  else (k.handles.find? (fun h => h.address = hookh)).map fun arg => (ps4Ok,
    { sysent := Function.update k.sysent arg.number arg.originalCall
      handles := k.handles.filter (fun h => h.address ≠ hookh) })

inductive Call
  | create (number : ℤ) (arg prologue : Address)
  | destroy (hookh : Address)
  deriving DecidableEq

def Call.run (k : Kernel) : Call → Option (Code × Kernel)
  | .create number arg prologue => some (ps4KernelSystemCallHookCreate k number arg prologue)
  | .destroy hookh => ps4KernelSystemCallHookDestroy k hookh

def Kernel.after (k : Kernel) (calls : List Call) : Option Kernel :=
  calls.foldlM (fun k call => (call.run k).map Prod.snd) k

def Kernel.stack (k : Kernel) (n : ℤ) : List Handle := k.handles.filter (fun h => h.number = n)

/-- Following the prologue of a handle to the call it remembers, until a call
that is no prologue of a live handle. -/
inductive Chain (handles : List Handle) : Address → List Handle → Address → Prop
  | last {p : Address} (h : ∀ g ∈ handles, g.prologue ≠ p) : Chain handles p [] p
  | link {g : Handle} {gs : List Handle} {q : Address} (h : g ∈ handles)
      (rest : Chain handles g.originalCall gs q) : Chain handles g.prologue (g :: gs) q

/-- From the installed call of each number the chain visits its live handles, each
once, and ends in the initial call. -/
def Sound (initial : ℤ → Address) (k : Kernel) : Prop :=
  ∀ n, ∃ visited, Chain k.handles (k.sysent n) visited (initial n) ∧
    visited.Perm (k.stack n)

/-- New blocks overlap no live ones and no initial call, and only live handles
are destroyed. -/
def Admissible (initial : ℤ → Address) (k : Kernel) : Call → Prop
  | .create _ arg prologue => arg ≠ 0#64 ∧
      (∀ h ∈ k.handles, h.address ≠ arg ∧ h.prologue ≠ prologue) ∧
      ∀ n, prologue ≠ initial n
  | .destroy hookh => ∃ h ∈ k.handles, h.address = hookh

/-- A destroyed handle is the one whose prologue is installed. -/
def OnTop (k : Kernel) : Call → Prop
  | .create _ _ _ => True
  | .destroy hookh => ∀ h ∈ k.handles, h.address = hookh → k.sysent h.number = h.prologue

/-- A property of each state and call of a sequence of calls. -/
def Along (P : Kernel → Call → Prop) (k : Kernel) : List Call → Prop
  | [] => True
  | call :: calls => P k call ∧ ∀ r, call.run k = some r → Along P r.2 calls

/-- The chains are sound before and after each call. -/
def SoundAlong (initial : ℤ → Address) (k : Kernel) : List Call → Prop
  | [] => Sound initial k
  | call :: calls => Sound initial k ∧ ∀ r, call.run k = some r → SoundAlong initial r.2 calls

def Linked (p : Address) (handles : List Handle) (q : Address) : Prop :=
  match handles with
  | [] => p = q
  | h :: hs => p = h.prologue ∧ Linked h.originalCall hs q

structure Stacked (initial : ℤ → Address) (k : Kernel) : Prop where
  nonNull : ∀ h ∈ k.handles, h.address ≠ 0#64
  addresses : (k.handles.map Handle.address).Nodup
  prologues : (k.handles.map Handle.prologue).Nodup
  outside : ∀ h ∈ k.handles, ∀ n, h.prologue ≠ initial n
  linked : ∀ n, Linked (k.sysent n) (k.stack n) (initial n)

theorem Linked.chain {handles hs : List Handle} {p q : Address} (h : Linked p hs q)
    (hl : ∀ g ∈ hs, g ∈ handles) (hq : ∀ g ∈ handles, g.prologue ≠ q) : Chain handles p hs q := by
  induction hs generalizing p with
  | nil =>
    obtain rfl : p = q := h
    exact .last hq
  | cons g gs ih =>
    obtain ⟨rfl, h⟩ := h
    exact .link (hl g (by simp)) (ih h (fun g hg => hl g (List.mem_cons_of_mem _ hg)))

theorem Linked.append {us ws : List Handle} {p q : Address} (h : Linked p (us ++ ws) q) :
    ∃ m, Linked m ws q := by
  induction us generalizing p with
  | nil => exact ⟨p, h⟩
  | cons u us ih => exact ih h.2

/-- A pointer has one chain when no two live handles have the same prologue. -/
theorem Chain.unique {handles xs ys : List Handle} {p q q' : Address}
    (hn : (handles.map Handle.prologue).Nodup) (h : Chain handles p xs q)
    (h' : Chain handles p ys q') :
    xs = ys := by
  induction h generalizing ys with
  | last hp =>
    cases h' with
    | last => rfl
    | link hg => exact absurd rfl (hp _ hg)
  | @link g gs q hg rest ih =>
    generalize hp : g.prologue = p at h'
    cases h' with
    | last hp' => exact absurd hp (hp' _ hg)
    | @link g' gs' q' hg' rest' =>
      obtain rfl := List.inj_on_of_nodup_map hn hg hg' hp
      rw [ih rest']

def Kernel.destroyed (k : Kernel) (arg : Handle) : Kernel where
  sysent := Function.update k.sysent arg.number arg.originalCall
  handles := k.handles.filter (fun h => h.address ≠ arg.address)

theorem filter_address_ne (us ws : List Handle) (arg : Handle)
    (hn : ((us ++ arg :: ws).map Handle.address).Nodup) :
    (us ++ arg :: ws).filter (fun h => h.address ≠ arg.address) = us ++ ws := by
  rw [List.map_append, List.map_cons, List.nodup_middle, List.nodup_cons] at hn
  have hne : ∀ h ∈ us ++ ws, h.address ≠ arg.address := by
    intro h hh he
    apply hn.1
    rw [← List.map_append, ← he]
    exact List.mem_map_of_mem hh
  have hus : us.filter (fun h => h.address ≠ arg.address) = us :=
    List.filter_eq_self.mpr fun h hh => by simpa using hne h (List.mem_append_left _ hh)
  have hws : ws.filter (fun h => h.address ≠ arg.address) = ws :=
    List.filter_eq_self.mpr fun h hh => by simpa using hne h (List.mem_append_right _ hh)
  rw [List.filter_append, List.filter_cons_of_neg (by simp), hus, hws]

private theorem Kernel.destroyed_stack (k : Kernel) (arg : Handle) (n : ℤ) :
    (k.destroyed arg).stack n = (k.stack n).filter (fun h => h.address ≠ arg.address) := by
  simp only [stack, destroyed, List.filter_filter, Bool.and_comm]

section Steps

variable {initial : ℤ → Address} {k : Kernel} {arg : Handle}

theorem Stacked.sound (h : Stacked initial k) : Sound initial k := by
  intro n
  refine ⟨k.stack n, (h.linked n).chain (fun g hg => List.mem_of_mem_filter hg) ?_, .refl _⟩
  exact fun g hg => h.outside g hg n

theorem Stacked.destroy_run (h : Stacked initial k) (hm : arg ∈ k.handles) :
    Call.run k (.destroy arg.address) = some (ps4Ok, k.destroyed arg) := by
  have hfind : k.handles.find? (fun g => g.address = arg.address) = some arg := by
    cases hf : k.handles.find? (fun g => g.address = arg.address) with
    | none => exact absurd (List.find?_eq_none.mp hf arg hm) (by simp)
    | some g =>
      have hg := List.find?_some hf
      rw [List.inj_on_of_nodup_map h.addresses (List.mem_of_find?_eq_some hf) hm
        (by simpa using hg)]
  simp only [Call.run, ps4KernelSystemCallHookDestroy, if_neg (h.nonNull arg hm), hfind]
  rfl

private theorem Stacked.nodup_stack (h : Stacked initial k) (n : ℤ) :
    ((k.stack n).map Handle.address).Nodup :=
  h.addresses.sublist ((List.filter_sublist).map _)

/-- What stands above and below a live handle in the stack of its number. -/
theorem Stacked.split (h : Stacked initial k) (hm : arg ∈ k.handles) :
    ∃ us ws, k.stack arg.number = us ++ arg :: ws ∧
      (k.destroyed arg).stack arg.number = us ++ ws ∧
      Linked arg.originalCall ws (initial arg.number) := by
  have hs : arg ∈ k.stack arg.number := List.mem_filter.mpr ⟨hm, by simp⟩
  obtain ⟨us, ws, hsplit⟩ := List.append_of_mem hs
  have hlinked := h.linked arg.number
  rw [hsplit] at hlinked
  obtain ⟨m, hm'⟩ := hlinked.append
  refine ⟨us, ws, hsplit, ?_, hm'.2⟩
  have hn := h.nodup_stack arg.number
  rw [hsplit] at hn
  rw [k.destroyed_stack, hsplit, filter_address_ne us ws arg hn]

theorem Stacked.create (h : Stacked initial k) {number : ℤ} {a prologue : Address}
    (ha : Admissible initial k (.create number a prologue)) :
    Stacked initial (ps4KernelSystemCallHookCreate k number a prologue).2 := by
  obtain ⟨hnull, hfresh, hout⟩ := ha
  by_cases hlarge : number > sysMaxSyscall
  · rwa [ps4KernelSystemCallHookCreate, if_pos hlarge]
  rw [ps4KernelSystemCallHookCreate, if_neg hlarge]
  refine ⟨?_, ?_, ?_, ?_, ?_⟩
  · exact List.forall_mem_cons.mpr ⟨hnull, h.nonNull⟩
  · refine List.nodup_cons.mpr ⟨?_, h.addresses⟩
    simpa using fun g hg => (hfresh g hg).1
  · refine List.nodup_cons.mpr ⟨?_, h.prologues⟩
    simpa using fun g hg => (hfresh g hg).2
  · exact List.forall_mem_cons.mpr ⟨hout, h.outside⟩
  · intro n
    have hl := h.linked n
    by_cases hn : n = number
    · subst hn
      simpa [Kernel.stack, Linked] using hl
    · simpa [Kernel.stack, Function.update_of_ne hn, Ne.symm hn] using hl

theorem Stacked.destroy_top (h : Stacked initial k) (hm : arg ∈ k.handles)
    (ht : k.sysent arg.number = arg.prologue) : Stacked initial (k.destroyed arg) := by
  obtain ⟨us, ws, hsplit, hrest, hlinked⟩ := h.split hm
  have hus : us = [] := by
    cases us with
    | nil => rfl
    | cons u us =>
      have hl := h.linked arg.number
      have hu : u ∈ k.stack arg.number := by simp [hsplit]
      rw [hsplit] at hl
      have he : u = arg := List.inj_on_of_nodup_map h.prologues (List.mem_of_mem_filter hu) hm
        (hl.1.symm.trans ht)
      have hn := h.nodup_stack arg.number
      rw [hsplit, he] at hn
      simp at hn
  subst hus
  have hsub : ∀ g ∈ (k.destroyed arg).handles, g ∈ k.handles :=
    fun g hg => List.mem_of_mem_filter hg
  refine ⟨fun g hg => h.nonNull g (hsub g hg), h.addresses.sublist (List.filter_sublist.map _),
    h.prologues.sublist (List.filter_sublist.map _),
    fun g hg => h.outside g (hsub g hg), fun n => ?_⟩
  by_cases hn : n = arg.number
  · subst hn
    rw [hrest]
    simpa [Kernel.destroyed] using hlinked
  · have hsame : (k.destroyed arg).stack n = k.stack n := by
      rw [k.destroyed_stack, List.filter_eq_self]
      intro g hg
      have hgn : g.number = n := by simpa [Kernel.stack] using (List.mem_filter.mp hg).2
      simp only [decide_not, Bool.not_eq_eq_eq_not, Bool.not_true, decide_eq_false_iff_not]
      intro he
      rw [List.inj_on_of_nodup_map h.addresses (List.mem_of_mem_filter hg) hm he] at hgn
      exact hn hgn.symm
    rw [hsame]
    simpa [Kernel.destroyed, Function.update_of_ne hn] using h.linked n

/-- Without a handle from further down, those above it are no longer reached. -/
theorem Stacked.destroy_below (h : Stacked initial k) (hm : arg ∈ k.handles)
    (ht : k.sysent arg.number ≠ arg.prologue) : ¬Sound initial (k.destroyed arg) := by
  obtain ⟨us, ws, hsplit, hrest, hlinked⟩ := h.split hm
  intro hsound
  obtain ⟨visited, hchain, hperm⟩ := hsound arg.number
  have hsub : ∀ g ∈ (k.destroyed arg).handles, g ∈ k.handles :=
    fun g hg => List.mem_of_mem_filter hg
  have hstart : (k.destroyed arg).sysent arg.number = arg.originalCall := by simp [Kernel.destroyed]
  rw [hstart] at hchain
  have hws : ∀ g ∈ ws, g ∈ (k.destroyed arg).handles := by
    intro g hg
    refine List.mem_of_mem_filter (?_ : g ∈ (k.destroyed arg).stack arg.number)
    rw [hrest]
    exact List.mem_append_right _ hg
  have hvisited := hchain.unique (h.prologues.sublist (List.filter_sublist.map _))
    (hlinked.chain hws fun g hg => h.outside g (hsub g hg) _)
  have hlen := hperm.length_eq
  rw [hrest, hvisited, List.length_append] at hlen
  have hnil : us = [] := List.eq_nil_of_length_eq_zero (by omega)
  have hl := h.linked arg.number
  rw [hsplit, hnil] at hl
  exact ht hl.1

private theorem along_cons {P : Kernel → Call → Prop} {call : Call} {calls : List Call}
    {r : Code × Kernel} (h : call.run k = some r) : Along P k (call :: calls) ↔ P k call ∧
    Along P r.2 calls := by
  simp [Along, h]

private theorem soundAlong_cons {call : Call} {calls : List Call} {r : Code × Kernel}
    (h : call.run k = some r) :
    SoundAlong initial k (call :: calls) ↔ Sound initial k ∧ SoundAlong initial r.2 calls := by
  simp [SoundAlong, h]

theorem SoundAlong.sound {calls : List Call} (h : SoundAlong initial k calls) :
    Sound initial k := by
  cases calls with
  | nil => exact h
  | cons call calls => exact h.1

/-- The stacks decide about the rest of a sequence of calls. -/
theorem Stacked.soundAlong_iff (h : Stacked initial k) (calls : List Call)
    (ha : Along (Admissible initial) k calls) : SoundAlong initial k calls ↔
    Along OnTop k calls := by
  induction calls generalizing k with
  | nil => exact iff_of_true h.sound trivial
  | cons call calls ih =>
    cases call with
    | create number a prologue =>
      have hrun : Call.run k (.create number a prologue) =
          some (ps4KernelSystemCallHookCreate k number a prologue) := rfl
      rw [along_cons hrun] at ha
      rw [along_cons hrun, soundAlong_cons hrun, ih (h.create ha.1) ha.2]
      exact and_congr_left fun _ => iff_of_true h.sound trivial
    | destroy hookh =>
      obtain ⟨arg, hm, rfl⟩ := ha.1
      have hrun := h.destroy_run hm
      rw [along_cons hrun] at ha
      rw [along_cons hrun, soundAlong_cons hrun]
      by_cases ht : k.sysent arg.number = arg.prologue
      · rw [ih (h.destroy_top hm ht) ha.2]
        refine and_congr_left fun _ => iff_of_true h.sound fun g hg he => ?_
        rw [List.inj_on_of_nodup_map h.addresses hg hm he]
        exact ht
      · refine iff_of_false (fun hs => h.destroy_below hm ht hs.2.sound) (fun hs => ht ?_)
        exact hs.1 arg hm rfl

private theorem stacked_initial (initial : ℤ → Address) : Stacked initial ⟨initial, []⟩ :=
  ⟨by simp, by simp, by simp, by simp, fun n => show initial n = initial n from rfl⟩

end Steps

/-- From a kernel without hooks on, the chains of all numbers are sound before and
after each call exactly when each destroyed handle is the one whose prologue is
installed. -/
theorem chains_sound_iff (initial : ℤ → Address) (calls : List Call)
    (ha : Along (Admissible initial) ⟨initial, []⟩ calls) :
    SoundAlong initial ⟨initial, []⟩ calls ↔ Along OnTop ⟨initial, []⟩ calls :=
  (stacked_initial initial).soundAlong_iff calls ha

def twoHandles : List Call := [.create 20 0x1000 0x2000, .create 20 0x3000 0x4000]

theorem chains_sound_last_first :
    Along (Admissible fun _ => 0x100) ⟨fun _ => 0x100, []⟩
        (twoHandles ++ [.destroy 0x3000, .destroy 0x1000]) ∧
      SoundAlong (fun _ => 0x100) ⟨fun _ => 0x100, []⟩
        (twoHandles ++ [.destroy 0x3000, .destroy 0x1000]) := by
  have ha : Along (Admissible fun _ => 0x100) ⟨fun _ => 0x100, []⟩
      (twoHandles ++ [.destroy 0x3000, .destroy 0x1000]) := by
    simp [twoHandles, Along, Admissible, Call.run, ps4KernelSystemCallHookCreate,
      ps4KernelSystemCallHookDestroy, sysMaxSyscall]
    exact ⟨_, ⟨.inr rfl, by decide⟩, rfl⟩
  refine ⟨ha, (chains_sound_iff _ _ ha).mpr ?_⟩
  simp [twoHandles, Along, OnTop, Call.run, ps4KernelSystemCallHookCreate,
    ps4KernelSystemCallHookDestroy, sysMaxSyscall]

/-- Destroyed in the order of their creation, the handles leave the freed prologue
of the first one installed. -/
theorem first_first_leaves_freed_prologue :
    Along (Admissible fun _ => 0x100) ⟨fun _ => 0x100, []⟩
        (twoHandles ++ [.destroy 0x1000, .destroy 0x3000]) ∧
      ¬SoundAlong (fun _ => 0x100) ⟨fun _ => 0x100, []⟩
        (twoHandles ++ [.destroy 0x1000, .destroy 0x3000]) ∧
      ((Kernel.mk (fun _ => 0x100) []).after (twoHandles ++ [.destroy 0x1000, .destroy 0x3000])).map
        (fun k => (k.sysent 20, k.handles)) = some (0x2000, []) := by
  have ha : Along (Admissible fun _ => 0x100) ⟨fun _ => 0x100, []⟩
      (twoHandles ++ [.destroy 0x1000, .destroy 0x3000]) := by
    simp [twoHandles, Along, Admissible, Call.run, ps4KernelSystemCallHookCreate,
      ps4KernelSystemCallHookDestroy, sysMaxSyscall]
    exact ⟨_, ⟨.inl rfl, by decide⟩, rfl⟩
  refine ⟨ha, fun hs => ?_, by decide⟩
  rw [(stacked_initial _).soundAlong_iff _ ha] at hs
  simp [twoHandles, Along, OnTop, Call.run, ps4KernelSystemCallHookCreate,
    ps4KernelSystemCallHookDestroy, sysMaxSyscall] at hs

end Ps4Sdk.SystemCallHookChains
