import Ps4Sdk.CallSequences
import Ps4Sdk.FunctionHookTables

/-!
# The handler of `payload/system_call_hook_handler.c`

Both loops of the handler share one control. The second loop starts with the
control the first one ended with and tests it at its first entry even where that
entry is not for it, so after a pre hook that breaks, the post hooks run only
when the table begins with one of them. Any control but those to go on and to return
breaks.
-/

namespace Ps4Sdk.SystemCallHookHandler
open CallSequences FunctionHookTables

/-- `Ps4KernelSystemCallHookControl`; the hooks return any 32-bit integer. -/
def controlBreak : BitVec 32 := 1#32
def controlContinue : BitVec 32 := 0#32
def controlReturn : BitVec 32 := -1#32

/-- The memory that the hooks, the system call and the handler share: fields of
the clone, the two slots `td_retval` of the thread, and the rest of the world. -/
structure Shared (W : Type) where
  sysret : BitVec 32
  return0 : BitVec 64
  return1 : BitVec 64
  hookTypeCurrent : ℤ
  threadReturn0 : BitVec 64
  threadReturn1 : BitVec 64
  world : W

/-- What the callees do. A specific hook takes the arguments of the system call,
a generic one the clone. The last field is what the field `sysret` of the clone
reads once the clone is freed. -/
structure Behaviour (W : Type) where
  specific : Address → Shared W → BitVec 32 × Shared W
  generic : Address → Shared W → BitVec 32 × Shared W
  originalCall : Shared W → BitVec 32 × Shared W
  freed : BitVec 32 → BitVec 32

abbrev Call := Event (ℤ × Address) (BitVec 32)

structure Frame (W : Type) where
  shared : Shared W
  calls : List Call

variable {W : Type}

def Frame.called (f : Frame W) (e : Entry) (out : BitVec 32 × Shared W) : BitVec 32 × Frame W :=
  (out.1, ⟨out.2, f.calls ++ [.called e.callee out.1]⟩)

def preLoop (b : Behaviour W) : List Entry → BitVec 32 → Frame W → BitVec 32 × Frame W
  | [], r, f => (r, f)
  | e :: es, r, f =>
    let (r, f) :=
      if e.type = -1 then f.called e (b.specific e.hook { f.shared with hookTypeCurrent := -1 })
      else if e.type = 1 ∨ e.type = 3 then
        f.called e (b.generic e.hook { f.shared with hookTypeCurrent := 1 })
      else (r, f)
    if r ≠ controlContinue then (r, f) else preLoop b es r f

def postLoop (b : Behaviour W) : List Entry → BitVec 32 → Frame W → BitVec 32 × Frame W
  | [], r, f => (r, f)
  | e :: es, r, f =>
    let (r, f) :=
      if e.type = 2 ∨ e.type = 3 then f.called e (b.generic e.hook f.shared) else (r, f)
    if r ≠ controlContinue then (r, f) else postLoop b es r f

/-- The call of the original and the second loop, which a control of `RETURN`
leaves out. -/
def perform (b : Behaviour W) (entries : List Entry) (r : BitVec 32) (f : Frame W) : Frame W :=
  if r ≠ controlReturn then
    let out := b.originalCall f.shared
    let s := { out.2 with sysret := out.1 }
    let s := { s with return0 := s.threadReturn0, return1 := s.threadReturn1, hookTypeCurrent := 2 }
    (postLoop b entries r ⟨s, f.calls ++ [.original]⟩).2
  else f

/-- The handler on a clone at the address `uap` with the entries below its
`hookCount`. The result is read from the clone after it was freed. -/
def ps4PayloadSystemCallHookHandler (b : Behaviour W) (uap : Address) (entries : List Entry)
    (s : Shared W) : BitVec 32 × Frame W :=
  let s := { s with sysret := 0, return0 := 0, return1 := 0, threadReturn1 := uap }
  let (r, f) := preLoop b entries controlContinue ⟨s, []⟩
  let f := perform b entries r f
  let s := { f.shared with threadReturn0 := f.shared.return0, threadReturn1 := f.shared.return1 }
  (b.freed s.sysret, { f with shared := s })

def prepared (uap : Address) (s : Shared W) : Shared W :=
  { s with sysret := 0, return0 := 0, return1 := 0, threadReturn1 := uap }

theorem handler_result (b : Behaviour W) (uap : Address) (entries : List Entry) (s : Shared W) :
    (ps4PayloadSystemCallHookHandler b uap entries s).1 =
      b.freed (ps4PayloadSystemCallHookHandler b uap entries s).2.shared.sysret := rfl

theorem handler_eq_perform (b : Behaviour W) (uap : Address) (entries : List Entry) (s : Shared W) :
    (ps4PayloadSystemCallHookHandler b uap entries s).2 =
      let p := preLoop b entries controlContinue ⟨prepared uap s, []⟩
      let f := perform b entries p.1 p.2
      { f with shared :=
        { f.shared with threadReturn0 := f.shared.return0, threadReturn1 := f.shared.return1 } } :=
          rfl

def runsPre (e : Entry) : Bool := e.type = -1 ∨ e.type = 1 ∨ e.type = 3

def runsPost (e : Entry) : Bool := e.type = 2 ∨ e.type = 3

def callees (runs : Entry → Bool) (entries : List Entry) : List (ℤ × Address) :=
  (entries.filter runs).map Entry.callee

/-- What hooks do that are called in turn before the system call, each on what the one before left:
the last control, which is to go on where no hook said anything else, and the state. -/
def Behaviour.before (b : Behaviour W) : List Entry → Shared W → BitVec 32 × Shared W
  | [], s => (controlContinue, s)
  | e :: es, s =>
    let out :=
      if e.type = -1 then b.specific e.hook { s with hookTypeCurrent := -1 }
      else b.generic e.hook { s with hookTypeCurrent := 1 }
    if out.1 = controlContinue then b.before es out.2 else out

/-- The control that the hooks before the system call end with. -/
def Behaviour.controlBefore (b : Behaviour W) (uap : Address) (entries : List Entry)
    (s : Shared W) :
    BitVec 32 :=
  (b.before (entries.filter runsPre) (prepared uap s)).1

/-- The handler calls the hooks before and after the system call, and the system
call itself, as the types of the table say. -/
def Correct (b : Behaviour W) (uap : Address) (entries : List Entry) (s : Shared W) : Prop :=
  Dispatches controlContinue (· = controlReturn) (callees runsPre entries)
    (callees runsPost entries)
    (ps4PayloadSystemCallHookHandler b uap entries s).2.calls

private theorem callees_cons_pos {runs : Entry → Bool} {e : Entry} {es : List Entry}
    (h : runs e = true) :
    callees runs (e :: es) = e.callee :: callees runs es := by
  simp [callees, h]

private theorem callees_cons_neg {runs : Entry → Bool} {e : Entry} {es : List Entry}
    (h : runs e = false) :
    callees runs (e :: es) = callees runs es := by
  simp [callees, h]

private theorem callees_eq_nil {runs : Entry → Bool} {es : List Entry} :
    callees runs es = [] ↔ ∀ e ∈ es, runs e = false := by
  simp [callees]

/-- A loop over the entries that calls those it is for and ends with the first
control that does not say to go on. -/
theorem loop_run {loop : List Entry → BitVec 32 → Frame W → BitVec 32 × Frame W}
    {runs : Entry → Bool} (nil : ∀ r f, loop [] r f = (r, f))
    (cons : ∀ e es f,
      runs e = false ∧ loop (e :: es) controlContinue f = loop es controlContinue f ∨
      ∃ out, runs e = true ∧ loop (e :: es) controlContinue f =
        if out.1 ≠ controlContinue then f.called e out else loop es out.1 (f.called e out).2)
    (es : List Entry) (f : Frame W) :
    ∃ cs, CallsUntil controlContinue (callees runs es) cs (loop es controlContinue f).1 ∧
      (loop es controlContinue f).2.calls = f.calls ++ calls cs := by
  induction es generalizing f with
  | nil =>
    rw [nil]
    exact ⟨[], .done, by simp⟩
  | cons e es ih =>
    rcases cons e es f with ⟨hr, hl⟩ | ⟨out, hr, hl⟩
    · rw [callees_cons_neg hr, hl]
      exact ih f
    · rw [callees_cons_pos hr, hl]
      by_cases hc : out.1 = controlContinue
      · obtain ⟨cs, hcs, hcalls⟩ := ih (f.called e out).2
        rw [if_neg (not_not.mpr hc), hc]
        refine ⟨_, .next hcs, ?_⟩
        rw [hcalls]
        simp [Frame.called, hc]
      · rw [if_pos hc]
        exact ⟨_, .stop hc, by simp [Frame.called]⟩

theorem preLoop_cons (b : Behaviour W) (e : Entry) (es : List Entry) (f : Frame W) :
    runsPre e = false ∧ preLoop b (e :: es) controlContinue f = preLoop b es controlContinue f ∨
      ∃ out, runsPre e = true ∧
        (∀ es, b.before (e :: es) f.shared =
          if out.1 = controlContinue then b.before es out.2 else out) ∧
        preLoop b (e :: es) controlContinue f =
          if out.1 ≠ controlContinue then f.called e out
          else preLoop b es out.1 (f.called e out).2 := by
  by_cases h₁ : e.type = -1
  · refine .inr ⟨b.specific e.hook { f.shared with hookTypeCurrent := -1 }, by simp [runsPre, h₁],
      fun es => by simp [Behaviour.before, h₁], ?_⟩
    simp [preLoop, h₁, Frame.called]
  · by_cases h₂ : e.type = 1 ∨ e.type = 3
    · refine .inr ⟨b.generic e.hook { f.shared with hookTypeCurrent := 1 }, by simp [runsPre, h₂],
        fun es => by simp [Behaviour.before, h₁], ?_⟩
      simp [preLoop, h₁, h₂, Frame.called]
    · left
      simp [runsPre, preLoop, h₁, h₂]

private theorem preLoop_run (b : Behaviour W) (es : List Entry) (f : Frame W) :
    ∃ cs, CallsUntil controlContinue (callees runsPre es) cs (preLoop b es controlContinue f).1 ∧
      (preLoop b es controlContinue f).2.calls = f.calls ++ calls cs := by
  refine loop_run (fun _ _ => rfl) (fun e es f => ?_) es f
  rcases preLoop_cons b e es f with h | ⟨out, hr, -, hl⟩
  · exact .inl h
  · exact .inr ⟨out, hr, hl⟩

/-- The first loop leaves what the hooks that it is for do in turn. -/
theorem preLoop_eq_before (b : Behaviour W) (es : List Entry) (f : Frame W) :
    ((preLoop b es controlContinue f).1, (preLoop b es controlContinue f).2.shared) =
      b.before (es.filter runsPre) f.shared := by
  induction es generalizing f with
  | nil => rfl
  | cons e es ih =>
    rcases preLoop_cons b e es f with ⟨hr, hl⟩ | ⟨out, hr, hbefore, hl⟩
    · rw [List.filter_cons_of_neg (by simp [hr]), hl]
      exact ih f
    · rw [List.filter_cons_of_pos hr, hl, hbefore]
      by_cases hc : out.1 = controlContinue
      · rw [if_neg (not_not_intro hc), if_pos hc, hc]
        exact ih (f.called e out).2
      · rw [if_pos hc, if_neg hc]
        rfl

theorem postLoop_cons (b : Behaviour W) (e : Entry) (es : List Entry) (r : BitVec 32)
    (f : Frame W) :
    runsPost e = false ∧ postLoop b (e :: es) r f =
        (if r ≠ controlContinue then (r, f) else postLoop b es r f) ∨
      ∃ out, runsPost e = true ∧ ∀ r, postLoop b (e :: es) r f =
        if out.1 ≠ controlContinue then f.called e out else postLoop b es out.1
            (f.called e out).2 := by
  by_cases h : e.type = 2 ∨ e.type = 3
  · refine .inr ⟨b.generic e.hook f.shared, by simp [runsPost, h], fun r => ?_⟩
    simp [postLoop, h, Frame.called]
  · left
    simp [runsPost, postLoop, h]

private theorem postLoop_run (b : Behaviour W) (es : List Entry) (f : Frame W) :
    ∃ ds, CallsUntil controlContinue (callees runsPost es) ds (postLoop b es controlContinue f).1 ∧
      (postLoop b es controlContinue f).2.calls = f.calls ++ calls ds := by
  refine loop_run (fun _ _ => rfl) (fun e es f => ?_) es f
  rcases postLoop_cons b e es controlContinue f with ⟨hr, hl⟩ | ⟨out, hr, hl⟩
  · exact .inl ⟨hr, by simpa using hl⟩
  · exact .inr ⟨out, hr, hl _⟩

/-- The control left by the first loop does no harm to the second. -/
def Unhindered (entries : List Entry) (r : BitVec 32) : Prop :=
  r = controlContinue ∨ (∀ e ∈ entries, runsPost e = false) ∨
    ∃ e es, entries = e :: es ∧ runsPost e = true

/-- With another control than the one to go on, the second loop needs an entry
for it in front. -/
theorem postLoop_stopped (b : Behaviour W) (es : List Entry) (r : BitVec 32) (f : Frame W)
    (hr : r ≠ controlContinue) (hh : ∀ e es', es = e :: es' → runsPost e = false) :
    postLoop b es r f = (r, f) := by
  cases es with
  | nil => rfl
  | cons e es =>
    rcases postLoop_cons b e es r f with ⟨-, hl⟩ | ⟨-, hp, -⟩
    · rw [hl, if_pos hr]
    · rw [hh e es rfl] at hp
      cases hp

theorem postLoop_unhindered (b : Behaviour W) (es : List Entry) (r : BitVec 32) (f : Frame W)
    (h : Unhindered es r) :
    ∃ ds d, CallsUntil controlContinue (callees runsPost es) ds d ∧
      (postLoop b es r f).2.calls = f.calls ++ calls ds := by
  by_cases hr : r = controlContinue
  · obtain ⟨ds, hds, hcalls⟩ := postLoop_run b es f
    exact ⟨ds, _, hds, by rw [hr, hcalls]⟩
  rcases h with h | h | ⟨e, es', rfl, hp⟩
  · exact absurd h hr
  · rw [callees_eq_nil.mpr h, postLoop_stopped b es r f hr (fun e es' he => h e (by simp [he]))]
    exact ⟨[], _, .done, by simp⟩
  · rcases postLoop_cons b e es' r f with ⟨hn, -⟩ | ⟨out, -, hl⟩
    · rw [hp] at hn
      cases hn
    · obtain ⟨ds, hds, hcalls⟩ := postLoop_run b (e :: es') f
      rw [hl controlContinue] at hcalls
      exact ⟨ds, _, hds, by rw [hl r, hcalls]⟩

private theorem perform_calls (b : Behaviour W) (entries : List Entry) (r : BitVec 32) (f : Frame W)
    (hr : r ≠ controlReturn) : ∃ g : Frame W, g.calls = f.calls ++ [.original] ∧
      (perform b entries r f).calls = (postLoop b entries r g).2.calls := by
  rw [perform, if_pos hr]
  exact ⟨_, rfl, rfl⟩

/-- The call and what follows it, behind calls that a control ended which does not return. -/
theorem perform_dispatches_iff (b : Behaviour W) (entries : List Entry) {r : BitVec 32}
    {f : Frame W} {cs : List ((ℤ × Address) × BitVec 32)} (hr : r ≠ controlReturn)
    (hcs : CallsUntil controlContinue (callees runsPre entries) cs r) (hf : f.calls = calls cs) :
    Dispatches controlContinue (· = controlReturn) (callees runsPre entries)
      (callees runsPost entries) (perform b entries r f).calls ↔ Unhindered entries r := by
  obtain ⟨g, hg, hperform⟩ := perform_calls b entries r f hr
  rw [hperform]
  by_cases h : Unhindered entries r
  · obtain ⟨ds, d, hds, hsecond⟩ := postLoop_unhindered b entries r g h
    rw [hsecond, hg, hf, List.append_assoc, List.singleton_append]
    exact iff_of_true (.performed hcs hr hds) h
  · refine iff_of_false (fun hd => h (.inr (.inl ?_))) h
    have hstopped := postLoop_stopped b entries r g (fun hc => h (.inl hc)) fun e es he =>
      Bool.eq_false_iff.mpr fun hp => h (.inr (.inr ⟨e, es, he, hp⟩))
    rw [hstopped, hg, hf] at hd
    exact callees_eq_nil.mp (Dispatches.post_eq_nil cs hd)

/-- The handler dispatches as the types of its table say exactly when the hooks before the system
call end with the control to go on or to return, there is no hook for the time after it, or the
table begins with one. -/
theorem handler_dispatches_iff (b : Behaviour W) (uap : Address)
    (entries : List Entry) (s : Shared W) :
    Correct b uap entries s ↔
      b.controlBefore uap entries s = controlContinue ∨
      b.controlBefore uap entries s = controlReturn ∨
      (∀ e ∈ entries, runsPost e = false) ∨ ∃ e es, entries = e :: es ∧ runsPost e = true := by
  obtain ⟨cs, hcs, hcalls⟩ := preLoop_run b entries ⟨prepared uap s, []⟩
  have hcontrol : b.controlBefore uap entries s =
      (preLoop b entries controlContinue ⟨prepared uap s, []⟩).1 :=
    (congrArg Prod.fst (preLoop_eq_before b entries ⟨prepared uap s, []⟩)).symm
  change Dispatches _ _ _ _ (perform b entries
    (preLoop b entries controlContinue ⟨prepared uap s, []⟩).1
    (preLoop b entries controlContinue ⟨prepared uap s, []⟩).2).calls ↔ _
  rw [hcontrol]
  generalize preLoop b entries controlContinue ⟨prepared uap s, []⟩ = p at hcs hcalls
  by_cases hr : p.1 = controlReturn
  · refine iff_of_true ?_ (.inr (.inl hr))
    rw [perform, if_neg (not_not_intro hr), hcalls]
    exact .intercepted hcs hr
  · rw [perform_dispatches_iff b entries hr hcs hcalls, Unhindered]
    simp only [hr, false_or]

/-- Pre hooks that break, and post hooks that go on. -/
def breaking : Behaviour Unit where
  specific _ s := (controlBreak, s)
  generic _ s := (if s.hookTypeCurrent = 1 then controlBreak else controlContinue, s)
  originalCall s := (0, s)
  freed v := v

def entered : Shared Unit := ⟨0, 0, 0, 0, 0, 0, ()⟩

/-- A pre hook that breaks keeps the post hook behind it from running. -/
theorem break_skips_post_hook :
    (ps4PayloadSystemCallHookHandler breaking 0x1000 [⟨0, 1, 1⟩, ⟨1, 2, 2⟩] entered).2.calls =
        [.called (0, 1) controlBreak, .original] ∧
      ¬Correct breaking 0x1000 [⟨0, 1, 1⟩, ⟨1, 2, 2⟩] entered := by
  refine ⟨by decide, fun hc => ?_⟩
  have hpost := Dispatches.post_eq_nil [((0, 1), controlBreak)] hc
  exact absurd hpost (by decide)

end Ps4Sdk.SystemCallHookHandler
