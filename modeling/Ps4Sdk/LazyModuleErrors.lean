import Ps4Sdk.LazyModuleExecutions

/-!
# Errors of guarded steps

`ps4ExpressionReturnOnError` evaluates a failing step twice and returns what the second
evaluation returns. The steps that are guarded in this way are look-ups of symbols and
initialisers of modules. A trace records their executions and whether the rest of the
operation is reached.
-/

namespace Ps4Sdk.LazyModules
open InterleavedPrograms

inductive Event
  | executed (code : Code)
  | performed
  deriving DecidableEq

def noted (val : Prog Returned) : StateT (List Event) Prog Returned := do
  let r ← StateT.lift val
  modify (fun events => events ++ [.executed r.code])
  pure r

def noting (rest : Address → Prog Returned) (value : Address) : StateT (List Event) Prog Returned :=
  do
  modify (fun events => events ++ [.performed])
  StateT.lift (rest value)

/-- A guarded step and the rest of its operation, with a trace. -/
def traced (val : Prog Returned) (rest : Address → Prog Returned) : Prog (Returned × List Event) :=
  (ps4ExpressionReturnOnError (noted val) (noting rest)).run []

/-- The step is executed exactly once, its error is returned, and success means that the rest was
reached. -/
structure Sound (t : Returned × List Event) : Prop where
  once : ∃ code, t.2.filter (fun event => event ≠ .performed) = [.executed code]
  propagated : ∀ code, .executed code ∈ t.2 → code ≠ ps4Ok → t.1.code = code
  performed : t.1.code = ps4Ok → .performed ∈ t.2

section
variable {S : Type} {f : (a : Statement) → S → Option (a.Answer × S)}
variable {val : Prog Returned} {rest : Address → Prog Returned} {s s' : S}
  {t : Returned × List Event}

theorem traced_eq (val : Prog Returned) (rest : Address → Prog Returned) : traced val rest = (do
    let r ← val
    if r.code ≠ ps4Ok then do
      let again ← val
      pure (⟨again.code, 0#64⟩, [.executed r.code, .executed again.code])
    else do
      let result ← rest r.value
      pure (result, [.executed r.code, .performed])) := by
  simp only [traced, ps4ExpressionReturnOnError, noted, noting, StateT.run_bind, StateT.run_lift,
    StateT.run_modify, bind_assoc, pure_bind]
  congr 1
  funext r
  by_cases hr : r.code = ps4Ok
  · simp [hr]
  · simp [hr]

/-- Without its trace it is the step and the rest of its operation. -/
theorem traced_operation (val : Prog Returned) (rest : Address → Prog Returned) :
    (do
      let t ← traced val rest
      pure t.1) = ps4ExpressionReturnOnError val rest := by
  rw [traced_eq, ps4ExpressionReturnOnError, bind_assoc]
  congr 1
  funext r
  by_cases hr : r.code = ps4Ok
  · simp [hr]
  · simp [hr]

theorem sound_iff (h : run f (traced val rest) s = some (t, s')) :
    ∃ r s₁, run f val s = some (r, s₁) ∧ (Sound t ↔ r.code = ps4Ok) := by
  rw [traced_eq, run_bind] at h
  obtain ⟨⟨⟨code, value⟩, s₁⟩, hval, h₁⟩ := Option.bind_eq_some_iff.mp h
  refine ⟨_, s₁, hval, ?_⟩
  by_cases hc : code = ps4Ok
  · subst hc
    rw [if_neg (by simp), run_bind] at h₁
    obtain ⟨result, -, hresult⟩ := Option.bind_eq_some_iff.mp h₁
    cases hresult
    have hsound : Sound (result.1, [.executed ps4Ok, .performed]) :=
      ⟨⟨ps4Ok, by simp⟩, by simp, by simp⟩
    exact iff_of_true hsound rfl
  · rw [if_pos hc, run_bind] at h₁
    obtain ⟨result, -, hresult⟩ := Option.bind_eq_some_iff.mp h₁
    cases hresult
    refine iff_of_false ?_ hc
    rintro ⟨⟨code', honce⟩, -, -⟩
    simp at honce

end

/-- The steps that the macro guards. -/
inductive GuardedStep
  | symbolLookUp (name : String)
  | cacheGlobalInitialize
  | functionHookInitialize
  | systemCallHookInitialize
  | privilegeUnjail

def GuardedStep.program : GuardedStep → Prog Returned
  | .symbolLookUp name => ps4KernelSymbolLookUp (some name) .variable
  | .cacheGlobalInitialize => ps4KernelCacheGlobalInitialize
  | .functionHookInitialize => ps4KernelFunctionHookInitialize
  | .systemCallHookInitialize => ps4KernelSystemCallHookInitialize
  | .privilegeUnjail => ps4KernelPrivilegeUnjail

/-- The state in which the step succeeds. -/
def GuardedStep.Ready (symbols : String → Address) (k : Kernel) : GuardedStep → Prop
  | .symbolLookUp name => Known symbols k name
  | .cacheGlobalInitialize => k.leaf ≠ none ∨ k.node ≠ .other ∧ k.adds = true
  | _ => True

section
variable {symbols : String → Address} {i : ℕ} {k k' : Kernel} {r : Returned}

def EndsOk (symbols : String → Address) (i : ℕ) (p : Prog Returned) : Prop :=
  ∀ k k' r, alone symbols i p k = some (r, k') → r.code = ps4Ok

theorem EndsOk.pure (value : Address) : EndsOk symbols i (pure ⟨ps4Ok, value⟩) := by
  intro k k' r h
  cases h
  rfl

theorem EndsOk.bind {α : Type} {p : Prog α} {f : α → Prog Returned}
    (hf : ∀ a, EndsOk symbols i (f a)) :
    EndsOk symbols i (p >>= f) := by
  intro k k' r h
  obtain ⟨a, k₁, -, h₁⟩ := alone_bind_eq_some.mp h
  exact hf a k₁ k' r h₁

private theorem alone_hookInitialize {rest : Address → Prog Returned} (sane : Sane k)
    (hrest : ∀ giant, EndsOk symbols i (rest giant))
    (h : alone symbols i (ps4ExpressionReturnOnError
      (ps4KernelSymbolLookUp (some "Giant") .variable) rest) k = some (r, k')) :
      r.code = ps4Ok := by
  rcases alone_returnOnError h with ⟨value, k₁, -, hr⟩ | ⟨r₁, k₁, r₂, hfirst, hfails, hagain, rfl⟩
  · exact hrest value k₁ k' r hr
  · have hok := alone_lookUp_again hfirst sane hfails hagain
    exact hok

private theorem alone_functionHookInitialize (sane : Sane k)
    (h : alone symbols i ps4KernelFunctionHookInitialize k = some (r, k')) : r.code = ps4Ok := by
  refine alone_hookInitialize sane (fun giant => ?_) h
  exact .bind fun _ => .bind fun _ => .bind fun _ => .bind fun _ => .bind fun _ => .bind fun _ =>
      .bind fun _ =>
    .bind fun _ => .pure _

private theorem alone_systemCallHookInitialize (sane : Sane k)
    (h : alone symbols i ps4KernelSystemCallHookInitialize k = some (r, k')) : r.code = ps4Ok := by
  refine alone_hookInitialize sane (fun giant => ?_) h
  exact .bind fun _ => .bind fun _ => .bind fun _ => .bind fun _ => .bind fun _ => .bind fun _ =>
      .bind fun _ =>
    .pure _

theorem alone_privilegeUnjail (sane : Sane k)
    (h : alone symbols i ps4KernelPrivilegeUnjail k = some (r, k')) :
    r.code = ps4Ok := by
  rcases alone_returnOnError h with ⟨value, k₁, hfirst, h₁⟩ | ⟨r₁, k₁, r₂, hfirst, hfails, hagain,
    rfl⟩
  · have hc := (alone_lookUp hfirst sane).2.1
    rw [alone_body] at h₁
    rcases alone_returnOnError h₁ with ⟨_, k₂, -, h₂⟩ | ⟨r₁, k₂, r₂, hsecond, hfails, hagain, rfl⟩
    · have hok : EndsOk symbols i (do body; pure ⟨ps4Ok, 0#64⟩) := .bind fun _ => .pure _
      exact hok _ _ _ h₂
    · have hok := alone_lookUp_inPlace_again hsecond hc hfails hagain
      exact hok
  · have hok := alone_lookUp_again hfirst sane hfails hagain
    exact hok

theorem alone_cacheGlobalInitialize (sane : Sane k)
    (h : alone symbols i ps4KernelCacheGlobalInitialize k = some (r, k')) :
    r.code = ps4Ok ↔ k.leaf ≠ none ∨ k.node ≠ .other ∧ k.adds = true := by
  cases hleaf : k.leaf with
  | none => simpa using (alone_cacheGlobalInitialize_make h hleaf sane.nodup sane.nonnull).1
  | some g =>
    rw [ps4KernelCacheGlobalInitialize, alone_dlSym] at h
    obtain ⟨_, k₁, hlock, h₁⟩ := alone_bind_eq_some.mp h
    obtain ⟨owner, rfl⟩ := alone_mtxLock hlock
    simp only [alone_sysctlCache, hleaf] at h₁
    have hok : EndsOk symbols i (cacheGlobalTake (symbols "Giant") g) :=
      .bind fun _ => .bind fun _ => .bind fun _ => .bind fun _ => .bind fun _ => .pure _
    simpa using hok _ _ _ h₁

/-- Every guarded step, in whatever operation and state: it is executed once and its error is
returned exactly when it succeeds the first time. -/
theorem guardedStep_sound_iff (symbols : String → Address) (i : ℕ) (e : GuardedStep)
    (rest : Address → Prog Returned) (k k' : Kernel) (sane : Sane k) (t : Returned × List Event)
    (h : run (step symbols i) (traced e.program rest) k = some (t, k')) : Sound t ↔
    e.Ready symbols k := by
  obtain ⟨r, k₁, hrun, hsound⟩ := sound_iff h
  rw [hsound]
  cases e with
  | symbolLookUp name => exact (alone_lookUp hrun sane).1
  | cacheGlobalInitialize => exact alone_cacheGlobalInitialize sane hrun
  | functionHookInitialize => exact iff_of_true (alone_functionHookInitialize sane hrun) trivial
  | systemCallHookInitialize => exact iff_of_true (alone_systemCallHookInitialize sane hrun) trivial
  | privilegeUnjail => exact iff_of_true (alone_privilegeUnjail sane hrun) trivial

end

def cachesInPlace : Kernel where
  static x := match x with
    | .symbolCache => 1#64
    | .symbolLookUpMutex => 2#64
    | .globalCache => 3#64
    | .cacheGlobalMutex => 4#64
    | _ => 0#64
  content _ _ := none
  initialized a := a = 2#64 ∨ a = 4#64
  owner _ := none
  supply := []
  leaf := some 3#64
  node := .eisdir
  adds := true
  filling _ := []

theorem cachesInPlace_sane : Sane cachesInPlace where
  nodup := .nil
  nonnull := by simp [cachesInPlace]
  fresh := by
    rintro g hg
    cases hg
    exact ⟨by decide, by simp [cachesInPlace]⟩
  entries := by
    rintro g name v - hv
    cases hv

theorem guardedStep_sound_sysent : ∃ t k',
    run (step (fun _ => 7#64) 0)
      (traced (ps4KernelSymbolLookUp (some "sysent") .variable) (fun _ => do
      body
      pure ⟨ps4Ok, 0#64⟩)) cachesInPlace = some (t, k') ∧ Sound t := by
  obtain ⟨t, k', h⟩ : ∃ t k', run (step (fun _ => 7#64) 0)
      (traced (ps4KernelSymbolLookUp (some "sysent") .variable) (fun _ => do
        body
        pure ⟨ps4Ok, 0#64⟩)) cachesInPlace = some (t, k') := ⟨_, _, rfl⟩
  refine ⟨t, k', h, (guardedStep_sound_iff _ 0
    (.symbolLookUp "sysent") _ _ k' cachesInPlace_sane t h).mpr ?_⟩
  exact .inl (by decide)

/-- Without the symbol `sysent`, a system call is patched with success and without having been
changed. -/
theorem patchUnsafe_succeeds_without_sysent : ∃ k',
    run (step (fun _ => 0#64) 0) ps4KernelSystemCallPatchUnsafe cachesInPlace =
      some (⟨ps4Ok, 0#64⟩, k') ∧
    run (step (fun _ => 0#64) 0)
      (traced (ps4KernelSymbolLookUp (some "sysent") .variable) (fun _ => do
      body
      pure ⟨ps4Ok, 0#64⟩)) cachesInPlace =
        some ((⟨ps4Ok, 0#64⟩, [.executed ps4ErrorKernelSymbolLookupNotFound,
          .executed ps4Ok]), k') :=
  ⟨_, rfl, rfl⟩

end Ps4Sdk.LazyModules
