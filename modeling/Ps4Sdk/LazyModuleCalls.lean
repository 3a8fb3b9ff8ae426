import Ps4Sdk.LazyModuleHooks

/-!
# Calls from any number of threads

Every call of the four modules keeps the discipline. So in every run in which the tests
meet their condition, no thread locks a mutex that is null or not initialised, and no null
pointer is installed in a handle.
-/

namespace Ps4Sdk.LazyModules
open InterleavedPrograms StepRuns

variable {symbols : String → Address} {i : ℕ} {k : Kernel} {m : Module} {v : Address}

/-! ### The operations on hooks -/

private theorem complete_everlasting : Everlasting symbols (Complete (symbols "Giant") m) :=
  fun _ _ _ _ hr hc => (hr.complete m hc).1

def MutexAt (symbols : String → Address) (m : Module) (v : Address) (k : Kernel) : Prop :=
  Complete (symbols "Giant") m k ∧ k.static m.mutex = v

private theorem mutexAt_everlasting : Everlasting symbols (MutexAt symbols m v) := by
  rintro j k k' hi hr ⟨hc, hv⟩
  obtain ⟨hc', hstatic⟩ := hr.complete m hc
  exact ⟨hc', (hstatic m.mutex (by cases m <;> rfl)).trans hv⟩

theorem MutexAt.usable (h : MutexAt symbols m v k) : Usable (symbols "Giant") k v := h.2 ▸ h.1.mutex

private theorem inMutex_lasting : Lasting symbols i (fun k => Free i k ∧ MutexAt symbols m v k) :=
  free_lasting.and mutexAt_everlasting.lasting

section
variable {β : Type} {Q : β → Kernel → Prop} {f : Unit → Prog β}

private theorem spec_lockMutex (h : ∀ v,
    Spec symbols i (fun k => Free i k ∧ MutexAt symbols m v k) (f ()) Q) :
    Spec symbols i (fun k => Free i k ∧ Complete (symbols "Giant") m k)
      (load m.mutex >>= fun mutex => mtxLock mutex >>= f)
      Q := by
  refine spec_load (free_lasting.and complete_everlasting.lasting) (fun v => ?_)
  refine Triple.weaken (spec_mtxLock inMutex_lasting ?_ (h v))
    (fun k _ hp => ⟨hp.1.1, hp.1.2, hp.2⟩) (fun _ _ _ hq => hq)
  exact fun k _ hp => ⟨hp.2.usable.1, hp.2.usable.2.2⟩

end

private theorem spec_loadFilled {β : Type} {Q : β → Kernel → Prop} {P : Kernel → Prop}
    {f : Address → Prog β} {x : Static} (hx : x.module = m) (hP : Lasting symbols i P)
    (hc : ∀ k, P k → Complete (symbols "Giant") m k)
    (h : ∀ v, v ≠ 0#64 → Spec symbols i P (f v) Q) : Spec symbols i P (load x >>= f) Q := by
  refine spec_load hP (fun v => Spec.known (φ := v ≠ 0#64) (fun k hp => ?_) (fun hv => ?_))
  · rw [← hp.2]
    exact (hc k hp.1).filled x hx
  · exact (h v hv).weaken (fun _ _ hp => hp.1) (fun _ _ _ hq => hq)

private theorem spec_unlockMutex {r : Returned} :
    Spec symbols i (fun k => Free i k ∧ MutexAt symbols m v k) (do
      let mutex ← load m.mutex
      mtxUnlock mutex
      pure r) (fun _ => Free i) := by
  refine spec_load_eq inMutex_lasting (fun k hp => hp.2.2)
    (spec_mtxUnlock inMutex_lasting ?_ (fun k _ hp => hp.1))
  exact fun k hp => .inl hp.2.usable.2.1

private theorem spec_finallyUnlock {r : Returned} :
    Spec symbols i (fun k => Free i k ∧ MutexAt symbols m v k) (finallyUnlock m.mutex r)
      (fun _ => Free i) := by
  refine spec_load_eq inMutex_lasting (fun k hp => hp.2.2)
    (Spec.known (fun k hp => hp.2.usable.1) (fun hv => ?_))
  rw [if_neg hv]
  exact spec_unlockMutex

section
variable {rest : Prog Returned}

private theorem spec_lockedBy (h : Spec symbols i
    (fun k => Free i k ∧ Complete (symbols "Giant") m k) rest (fun _ => Free i)) :
    Spec symbols i (fun k => Free i k ∧ Complete (symbols "Giant") m k) (lockedBy m.mutex rest)
      (fun _ => Free i) := by
  refine spec_lockMutex (fun v => ?_)
  refine Triple.bind ((h.frame mutexAt_everlasting).weaken (fun k _ hp => ⟨⟨hp.1, hp.2.1⟩, hp.2⟩)
    (fun _ _ _ hq => hq))
    (fun r => spec_finallyUnlock)

private theorem spec_hookBody {r : Returned} :
    Spec symbols i (fun k => Free i k ∧ Complete (symbols "Giant") m k)
      (lockedBy m.mutex (do
        body
        pure r)) (fun _ => Free i) :=
  spec_lockedBy (spec_body (free_lasting.and complete_everlasting.lasting) (fun _ _ hp => hp.1))

theorem spec_hookInitializing {first : Prog Returned} {Q : Returned → Kernel → Prop}
    (hm : m.testDecides = false) (hfirst : Spec symbols i (Free i) first
      (fun r k => r.code = ps4Ok ∧ Free i k ∧ Complete (symbols "Giant") m k))
    (h : Spec symbols i (fun k => Free i k ∧ Complete (symbols "Giant") m k) rest Q) :
    Spec symbols i (Free i) (initializing m first rest) Q := by
  refine spec_testAgain hm free_lasting (fun k hp => hp _) ?_ (fun v hv => ?_)
  · rw [if_pos rfl]
    exact spec_returnOnError (M := fun _ k => Free i k ∧ Complete (symbols "Giant") m k)
      hfirst (fun _ => h)
  · rw [if_neg hv]
    exact h

variable (hgiant : symbols "Giant" ≠ 0#64)
include hgiant

private theorem spec_functionHookInitializing {Q : Returned → Kernel → Prop}
    (h : Spec symbols i (fun k => Free i k ∧ Complete (symbols "Giant") .functionHook k) rest Q) :
    Spec symbols i (Free i) (functionHookInitializing rest) Q :=
  spec_hookInitializing rfl (spec_functionHookInitialize hgiant) h

private theorem spec_systemCallHookInitializing {Q : Returned → Kernel → Prop}
    (h : Spec symbols i (fun k => Free i k ∧ Complete (symbols "Giant") .systemCallHook k) rest Q) :
    Spec symbols i (Free i) (systemCallHookInitializing rest) Q :=
  spec_hookInitializing rfl (spec_systemCallHookInitialize hgiant) h

private theorem spec_functionHookNested (h : Spec symbols i (Free i) rest (fun _ => Free i)) :
    Spec symbols i (Free i) (functionHookNested rest) (fun _ => Free i) := by
  refine spec_functionHookInitializing hgiant (spec_lockMutex (m := .functionHook) (fun v => ?_))
  exact Triple.bind (h.frame mutexAt_everlasting) (fun r => spec_unlockMutex)

theorem spec_guardedLookUp {name : String} {next : Address → Prog Returned}
    (h : ∀ v, Spec symbols i (Free i) (next v) (fun _ => Free i)) :
    Spec symbols i (Free i) (ps4ExpressionReturnOnError
      (ps4KernelSymbolLookUp (some name) .variable) next)
      (fun _ => Free i) := by
  have hlookUp : Spec symbols i (Free i) (ps4KernelSymbolLookUp (some name) .variable)
    (fun _ => Free i) :=
    (spec_symbolLookUp hgiant).weaken (fun _ _ hp => hp) (fun _ _ _ hq => hq.2.1)
  refine Triple.bind hlookUp (fun r => ?_)
  by_cases hr : r.code = ps4Ok
  · rw [if_neg (fun hn => hn hr)]
    exact h r.value
  · rw [if_pos hr]
    exact Triple.bind hlookUp (fun _ _ _ hp => hp)

private theorem spec_allocatorLookUps :
    Spec symbols i (Free i) allocatorLookUps (fun _ => Free i) := by
  have hlookUp : ∀ name, Spec symbols i (Free i) (ps4KernelSymbolLookUp (some name) .variable)
    (fun _ => Free i) :=
    fun name => (spec_symbolLookUp hgiant).weaken (fun _ _ hp => hp) (fun _ _ _ hq => hq.2.1)
  refine Triple.bind (hlookUp "malloc") (fun _ => Triple.bind (hlookUp "free") (fun _ => ?_))
  exact Triple.bind (hlookUp "M_TEMP") (fun _ _ _ hp => hp)

theorem spec_functionHookCreate {function : Address} {hooked : Bool} :
    Spec symbols i (Free i) (ps4KernelFunctionHookCreate function hooked) (fun _ => Free i) := by
  have hlast : Lasting symbols i (fun k => Free i k ∧ Complete (symbols "Giant") .functionHook k) :=
    free_lasting.and complete_everlasting.lasting
  refine spec_functionHookInitializing hgiant ?_
  split_ifs with hf hh
  · exact fun k _ hp => hp.1
  · exact spec_lockedBy (m := .functionHook) (fun k _ hp => hp.1)
  · refine spec_lockedBy (m := .functionHook) (spec_body hlast ?_)
    refine spec_loadFilled rfl hlast (fun k hp => hp.2) (fun handler hhandler => ?_)
    refine spec_loadFilled rfl hlast (fun k hp => hp.2) (fun clone hclone => ?_)
    refine spec_loadFilled rfl hlast (fun k hp => hp.2) (fun epilogue hepilogue => ?_)
    refine Triple.bind ((spec_allocatorLookUps hgiant).frame complete_everlasting) (fun _ => ?_)
    exact spec_install hlast (by simp [hhandler, hclone, hepilogue]) (fun k _ hp => hp.1)

theorem spec_functionHookAdd {hookh hook : Address} :
    Spec symbols i (Free i) (ps4KernelFunctionHookAdd hookh hook) (fun _ => Free i) := by
  refine spec_functionHookInitializing hgiant ?_
  split_ifs with hh hk
  · exact fun k _ hp => hp.1
  · exact fun k _ hp => hp.1
  · exact spec_hookBody (m := .functionHook)

theorem spec_functionHookRemove {hookh hook : Address} {found : Bool} :
    Spec symbols i (Free i) (ps4KernelFunctionHookRemove hookh hook found) (fun _ => Free i) := by
  have hremove : ∀ r : Returned, Spec symbols i (Free i) (functionHookInitializing (do
      let mutex ← load .functionHookMutex
      mtxLock mutex
      body
      let mutex ← load .functionHookMutex
      mtxUnlock mutex
      pure r)) (fun _ => Free i) := by
    intro r
    refine spec_functionHookInitializing hgiant (spec_lockMutex (m := .functionHook) (fun v => ?_))
    exact spec_body inMutex_lasting spec_unlockMutex
  unfold ps4KernelFunctionHookRemove
  by_cases hh : hookh = 0#64
  · rw [if_pos hh]
    exact fun k _ hp => hp
  by_cases hk : hook = 0#64
  · rw [if_neg hh, if_pos hk]
    exact fun k _ hp => hp
  · rw [if_neg hh, if_neg hk]
    exact hremove _

private theorem spec_functionHookDestroy {hook : Address} :
    Spec symbols i (Free i) (ps4KernelFunctionHookDestroy hook) (fun _ => Free i) := by
  refine spec_functionHookInitializing hgiant ?_
  split_ifs with hh
  · exact fun k _ hp => hp.1
  · exact spec_hookBody (m := .functionHook)

private theorem spec_functionGetHook {hookh : Address} {hooked : Bool} :
    Spec symbols i (Free i) (ps4KernelFunctionGetHook hookh hooked) (fun _ => Free i) :=
  spec_functionHookNested hgiant (fun _ _ hp => hp)

theorem spec_functionHook {function hook hookh : Address} {hooked : Bool} :
    Spec symbols i (Free i) (ps4KernelFunctionHook function hook hookh hooked)
      (fun _ => Free i) := by
  have hadd : ∀ r : Returned, Spec symbols i (Free i)
      (if r.code = ps4Ok then ps4KernelFunctionHookAdd hookh hook else pure r)
      (fun _ => Free i) := by
    intro r
    split_ifs with hr
    · exact spec_functionHookAdd hgiant
    · exact fun k _ hp => hp
  refine spec_functionHookNested hgiant ?_
  cases hooked with
  | false => exact Triple.bind (spec_functionHookCreate hgiant) hadd
  | true => exact Triple.bind (spec_functionGetHook hgiant) hadd

private theorem spec_functionUnhook {hookh : Address} {hooked : Bool} :
    Spec symbols i (Free i) (ps4KernelFunctionUnhook hookh hooked) (fun _ => Free i) := by
  refine spec_functionHookNested hgiant (Triple.bind (spec_functionGetHook hgiant) (fun r => ?_))
  split_ifs with hr
  · exact fun k _ hp => hp
  · exact spec_functionHookDestroy hgiant

theorem spec_systemCallHookCreate {hookh : Address} {tooLarge : Bool} :
    Spec symbols i (Free i) (ps4KernelSystemCallHookCreate hookh tooLarge) (fun _ => Free i) := by
  refine spec_guardedLookUp hgiant (fun v => ?_)
  split_ifs with hh hl
  · exact fun k _ hp => hp
  · exact fun k _ hp => hp
  · refine spec_systemCallHookInitializing hgiant (spec_lockMutex (m := .systemCallHook)
      (fun v => ?_))
    refine spec_body inMutex_lasting ?_
    refine Triple.bind ((spec_allocatorLookUps hgiant).frame mutexAt_everlasting) (fun _ => ?_)
    refine spec_loadFilled rfl inMutex_lasting (fun k hp => hp.2.1) (fun clone hclone => ?_)
    refine spec_loadFilled rfl inMutex_lasting (fun k hp => hp.2.1) (fun handler hhandler => ?_)
    exact spec_install inMutex_lasting (by simp [hclone, hhandler]) spec_unlockMutex

theorem spec_systemCallHookAdd {hookh hook : Address} :
    Spec symbols i (Free i) (ps4KernelSystemCallHookAdd hookh hook) (fun _ => Free i) := by
  refine spec_systemCallHookInitializing hgiant ?_
  split_ifs with hh hk
  · exact fun k _ hp => hp.1
  · exact fun k _ hp => hp.1
  · exact spec_hookBody (m := .systemCallHook)

theorem spec_systemCallHookDestroy {hookh : Address} :
    Spec symbols i (Free i) (ps4KernelSystemCallHookDestroy hookh) (fun _ => Free i) := by
  refine spec_systemCallHookInitializing hgiant ?_
  split_ifs with hh
  · exact fun k _ hp => hp.1
  · have hlookUp : Spec symbols i (fun k => Free i k ∧ Complete (symbols "Giant") .systemCallHook k)
        (ps4KernelSymbolLookUp (some "sysent") .variable)
        (fun _ k => Free i k ∧ Complete (symbols "Giant") .systemCallHook k) :=
      (Spec.frame complete_everlasting (spec_symbolLookUp hgiant)).weaken (fun _ _ hp => hp)
        (fun _ _ _ hq => ⟨hq.1.2.1, hq.2⟩)
    refine Triple.bind hlookUp (fun r => ?_)
    split_ifs with hr
    · exact Triple.bind hlookUp (fun _ _ _ hp => hp.1)
    · exact spec_hookBody (m := .systemCallHook)

private theorem spec_systemCallPatchUnsafe :
    Spec symbols i (Free i) ps4KernelSystemCallPatchUnsafe (fun _ => Free i) :=
  spec_guardedLookUp hgiant (fun _ => spec_body free_lasting (fun _ _ hp => hp))

private theorem spec_privilegeUnjail :
    Spec symbols i (Free i) ps4KernelPrivilegeUnjail (fun _ => Free i) := by
  refine spec_guardedLookUp hgiant (fun _ => spec_body free_lasting ?_)
  exact spec_guardedLookUp hgiant (fun _ => spec_body free_lasting (fun _ _ hp => hp))

end

/-! ### Calls -/

inductive Call
  | symbolLookUp (str : Option String) (out : Bool)
  | cacheGlobalGet (name : Option String) (out : Bool)
  | cacheGlobalSet (name : Option String) (value : Address)
  | cacheGlobalDelete (name : Option String)
  | functionHookCreate (function : Address) (hooked : Bool)
  | functionHookAdd (hookh hook : Address)
  | functionHookRemove (hookh hook : Address) (found : Bool)
  | functionHookDestroy (hook : Address)
  | functionGetHook (hookh : Address) (hooked : Bool)
  | functionHook (function hook hookh : Address) (hooked : Bool)
  | functionUnhook (hookh : Address) (hooked : Bool)
  | systemCallHookCreate (hookh : Address) (tooLarge : Bool)
  | systemCallHookAdd (hookh hook : Address)
  | systemCallHookDestroy (hookh : Address)
  | systemCallPatchUnsafe
  | privilegeUnjail
  deriving DecidableEq

def destination (out : Bool) : Destination := if out then .variable else .null

def Call.program : Call → Prog Returned
  | .symbolLookUp str out => ps4KernelSymbolLookUp str (destination out)
  | .cacheGlobalGet name out => ps4KernelCacheGlobalGet name (destination out)
  | .cacheGlobalSet name value => ps4KernelCacheGlobalSet name value
  | .cacheGlobalDelete name => ps4KernelCacheGlobalDelete name
  | .functionHookCreate function hooked => ps4KernelFunctionHookCreate function hooked
  | .functionHookAdd hookh hook => ps4KernelFunctionHookAdd hookh hook
  | .functionHookRemove hookh hook found => ps4KernelFunctionHookRemove hookh hook found
  | .functionHookDestroy hook => ps4KernelFunctionHookDestroy hook
  | .functionGetHook hookh hooked => ps4KernelFunctionGetHook hookh hooked
  | .functionHook function hook hookh hooked => ps4KernelFunctionHook function hook hookh hooked
  | .functionUnhook hookh hooked => ps4KernelFunctionUnhook hookh hooked
  | .systemCallHookCreate hookh tooLarge => ps4KernelSystemCallHookCreate hookh tooLarge
  | .systemCallHookAdd hookh hook => ps4KernelSystemCallHookAdd hookh hook
  | .systemCallHookDestroy hookh => ps4KernelSystemCallHookDestroy hookh
  | .systemCallPatchUnsafe => ps4KernelSystemCallPatchUnsafe
  | .privilegeUnjail => ps4KernelPrivilegeUnjail

/-- The callers of the global cache leave the entries of the modules alone. -/
def Call.Proper : Call → Prop
  | .cacheGlobalSet (some name) _ | .cacheGlobalDelete (some name) => name ∉ reservedNames
  | _ => True

def callAll : List Call → Prog Unit
  | [] => pure ()
  | call :: calls => do
    let _ ← call.program
    callAll calls

theorem spec_call (hgiant : symbols "Giant" ≠ 0#64) {call : Call} (hcall : call.Proper) :
    Spec symbols i (Free i) call.program (fun _ => Free i) := by
  have hdestination : ∀ out x, destination out ≠ .static x := by
    intro out x
    cases out <;> exact fun h => by cases h
  cases call with
  | symbolLookUp str out =>
    cases str with
    | none => exact fun k _ hp => hp
    | some name =>
      cases out with
      | false => exact fun k _ hp => hp
      | true => exact (spec_symbolLookUp hgiant).weaken (fun _ _ hp => hp) (fun _ _ _ hq => hq.2.1)
  | cacheGlobalGet name out => exact spec_cacheGlobalGet hgiant (hdestination out)
  | cacheGlobalSet name value =>
    refine spec_cacheGlobalSet hgiant ?_
    rintro s rfl
    exact hcall
  | cacheGlobalDelete name =>
    refine spec_cacheGlobalDelete hgiant ?_
    rintro s rfl
    exact hcall
  | functionHookCreate function hooked => exact spec_functionHookCreate hgiant
  | functionHookAdd hookh hook => exact spec_functionHookAdd hgiant
  | functionHookRemove hookh hook found => exact spec_functionHookRemove hgiant
  | functionHookDestroy hook => exact spec_functionHookDestroy hgiant
  | functionGetHook hookh hooked => exact spec_functionGetHook hgiant
  | functionHook function hook hookh hooked => exact spec_functionHook hgiant
  | functionUnhook hookh hooked => exact spec_functionUnhook hgiant
  | systemCallHookCreate hookh tooLarge => exact spec_systemCallHookCreate hgiant
  | systemCallHookAdd hookh hook => exact spec_systemCallHookAdd hgiant
  | systemCallHookDestroy hookh => exact spec_systemCallHookDestroy hgiant
  | systemCallPatchUnsafe => exact spec_systemCallPatchUnsafe hgiant
  | privilegeUnjail => exact spec_privilegeUnjail hgiant

theorem spec_callAll (hgiant : symbols "Giant" ≠ 0#64) (calls : List Call)
    (hcalls : ∀ call ∈ calls, call.Proper) :
    Spec symbols i (Free i) (callAll calls) (fun _ => Free i) := by
  induction calls with
  | nil => exact fun k _ hp => hp
  | cons call calls ih =>
    refine Triple.bind (spec_call hgiant (hcalls call List.mem_cons_self)) (fun _ => ?_)
    exact ih (fun call hc => hcalls call (List.mem_cons_of_mem _ hc))

/-! ### Runs -/

/-- The kernel before the first calls. The sysctl leaf may be there already, from another
payload. -/
structure Initial (giant : Address) (k : Kernel) : Prop where
  untouched : ∀ x, k.static x = 0#64
  unfilled : ∀ m, k.filling m = []
  giantReady : k.initialized giant = true
  supply : k.supply.Nodup ∧ 0#64 ∉ k.supply ∧ giant ∉ k.supply
  registers : k.leaf = none → k.node ≠ .other ∧ k.adds = true
  leaf : ∀ g, k.leaf = some g → Leaf giant k g ∧ PairedIn k g

theorem Initial.invariant {giant : Address} (h : Initial giant k) : Invariant giant k := by
  have hnot : ∀ m, ¬Complete giant m k :=
    fun m hc => hc.filled m.tested (by cases m <;> rfl) (h.untouched _)
  obtain ⟨hnodup, hnull, hgiant⟩ := h.supply
  refine ⟨h.giantReady, h.registers, ⟨hnodup, hnull, hgiant, by rw [h.untouched]; exact hnull⟩,
    fun m => .inl (h.unfilled m), fun m i _ hf => ?_, fun m _ => .inl (fun x _ => h.untouched x),
    fun hs => absurd (h.untouched _) hs, fun g hg => (h.leaf g hg).1,
      fun hs => absurd hs.1 (hnot _),
    fun hs => absurd hs.1 (hnot _), fun _ hs => absurd (h.untouched _) hs,
    fun _ => ⟨fun g hg => (h.leaf g hg).2, fun hs => absurd hs.1 (hnot _)⟩⟩
  rw [h.unfilled] at hf
  cases hf

def begin (k : Kernel) (calls : ℕ → List Call) : Threads Statement.Answer Kernel Unit :=
  ⟨k, fun i => callAll (calls i)⟩

theorem begin_kept (hgiant : symbols "Giant" ≠ 0#64) (hk : Initial (symbols "Giant") k)
    {calls : ℕ → List Call} (hcalls : ∀ i, ∀ call ∈ calls i, call.Proper) :
    Kept (discipline (symbols "Giant")) (step symbols) (begin k calls) := by
  refine ⟨hk.invariant, fun i => ?_⟩
  refine (spec_callAll hgiant (calls i) (hcalls i) k hk.invariant ?_).mono
    (fun _ _ _ _ => trivial) hk.invariant
  intro m
  rw [hk.unfilled]
  exact List.not_mem_nil

/-- In every run whose tests meet their condition, no thread is about to lock a mutex that is null
or not initialised or to install a null pointer. -/
theorem lazyModules_safe (symbols : String → Address) (hgiant : symbols "Giant" ≠ 0#64) (k : Kernel)
    (hk : Initial (symbols "Giant") k) (calls : ℕ → List Call)
    (hcalls : ∀ i, ∀ call ∈ calls i, call.Proper)
    (threads : List ℕ) (c : Threads Statement.Answer Kernel Unit)
    (hrun : Run (Guarded (Allowed orderly) (Step (step symbols))) (begin k calls) threads c) :
    Safe (fun _ => safe) c :=
  ((begin_kept hgiant hk hcalls).run hrun).safe

/-- A kernel in which nothing has been called yet, with `Giant` at 1. -/
def freshKernel : Kernel where
  static := fun _ => 0#64
  content := fun _ _ => none
  initialized := fun a => a == 1#64
  owner := fun _ => none
  supply := [2#64, 3#64, 4#64]
  leaf := none
  node := .enoent
  adds := true
  filling := fun _ => []

private theorem freshKernel_initial : Initial 1#64 freshKernel :=
  ⟨fun _ => rfl, fun _ => rfl, rfl, by decide, fun _ => by decide, fun g hg => by cases hg⟩

def twoCallers (i : ℕ) : List Call := if i < 2 then [.cacheGlobalGet (some "name") true] else []

theorem twoCallers_proper (i : ℕ) : ∀ call ∈ twoCallers i, call.Proper := by
  intro call hc
  unfold twoCallers at hc
  split_ifs at hc
  · rw [List.mem_singleton.mp hc]
    trivial
  · cases hc

/-- One thread has made the global cache, both have found it, and both are about to lock its
mutex. -/
theorem lazyModules_safe_twoCallers : ∃ c next next',
    Run (Guarded (Allowed orderly) (Step (step (fun _ => 1#64)))) (begin freshKernel twoCallers)
      (List.replicate 22 0 ++ [1, 0, 1]) c ∧
    c.program 0 = .statement (.lock 4#64) next ∧ c.program 1 = .statement (.lock 4#64) next' ∧
    Safe (fun _ => safe) c := by
  have hrun : ∃ c next next', (begin freshKernel twoCallers).schedule
      (fun i a k => if orderly i a k then step (fun _ => 1#64) i a k else none)
      (List.replicate 22 0 ++ [1, 0, 1]) = some c ∧
      c.program 0 = .statement (.lock 4#64) next ∧ c.program 1 = .statement (.lock 4#64) next' :=
    ⟨_, _, _, rfl, rfl, rfl⟩
  obtain ⟨c, next, next', hrun, hlock, hlock'⟩ := hrun
  have hrun := Threads.schedule_guarded hrun
  exact ⟨c, next, next', hrun, hlock, hlock',
    lazyModules_safe _ (by decide) _ freshKernel_initial _ twoCallers_proper _ _ hrun⟩

/-- A thread finds the pointer of the global cache set while another has not stored the mutex yet,
and locks null. -/
theorem lazyModules_lock_null : ∃ c next,
    Run (Step (step (fun _ => 1#64))) (begin freshKernel twoCallers) [0, 0, 0, 0, 0, 0, 1, 1] c ∧
    c.program 1 = .statement (.lock 0#64) next ∧ ¬Safe (fun _ => safe) c := by
  have hrun : ∃ c next, (begin freshKernel twoCallers).schedule (step (fun _ => 1#64))
    [0, 0, 0, 0, 0, 0, 1, 1] = some c ∧
      c.program 1 = .statement (.lock 0#64) next := ⟨_, _, rfl, rfl⟩
  obtain ⟨c, next, hrun, hlock⟩ := hrun
  exact ⟨c, next, Threads.schedule_run hrun, hlock, fun hsafe => (hsafe 1 _ next hlock).1 rfl⟩

end Ps4Sdk.LazyModules
