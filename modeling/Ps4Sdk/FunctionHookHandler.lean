import Ps4Sdk.CallSequences
import Ps4Sdk.FunctionHookTables
import Mathlib.Logic.Relation

/-!
# The handler of `payload/function_hook_handler.s`

The handler runs on the clone a prologue made. Its instructions are grouped by
the labels of the source; a label carries the register that is live there. A
block of instructions between two labels is one transition, with the calls of a
hook and of the bridge as opaque effects on the memory that the callees share
with the handler.
-/

namespace Ps4Sdk.FunctionHookHandler
open CheckedBlocks CallSequences FunctionHookTables

/-- `Ps4RegisterParameters`: the registers a caller passes arguments in. -/
structure RegisterParameters where
  rax : BitVec 64
  rdi : BitVec 64
  rsi : BitVec 64
  rdx : BitVec 64
  rcx : BitVec 64
  r8 : BitVec 64
  r9 : BitVec 64
  xmm0 : BitVec 128
  xmm1 : BitVec 128
  xmm2 : BitVec 128
  xmm3 : BitVec 128
  xmm4 : BitVec 128
  xmm5 : BitVec 128
  xmm6 : BitVec 128
  xmm7 : BitVec 128
  deriving DecidableEq

/-- `Ps4RegisterReturns`: the registers a callee returns values in. -/
structure RegisterReturns where
  rax : BitVec 64
  rdx : BitVec 64
  xmm0 : BitVec 128
  xmm1 : BitVec 128
  deriving DecidableEq

/-- The memory that hooks, the original and the handler share: the two register
blocks of the clone, the slot `td_retval[1]` of the running thread, and the rest
of the world. -/
structure Shared (W : Type) where
  arguments : RegisterParameters
  returns : RegisterReturns
  threadReturn : BitVec 64
  world : W

/-- The fields of a clone that stay as they are during the handler, and the
thread that runs it. -/
structure Clone where
  address : Address
  hook : List Address
  hookType : List ℤ
  curthread : Address
  deriving DecidableEq

/-- What the callees do. A specific hook takes the arguments of the hooked
function, a generic one the running thread and the clone, whose fields
`hookCurrent` and `hookTypeCurrent` either may read. A hook returns its control
in `rax`. -/
structure Behaviour (W : Type) where
  specific : Address → RegisterParameters → ℤ → ℤ → Shared W → BitVec 64 × Shared W
  generic : Address → Address → Address → ℤ → ℤ → Shared W → BitVec 64 × Shared W
  original : RegisterParameters → Shared W → RegisterReturns × Shared W

/-- The call of a hook, with the index of its entry, or of the original. -/
abbrev Call := Event (ℤ × Address) (BitVec 64)

structure Frame (W : Type) where
  hookCurrent : ℤ
  hookTypeCurrent : ℤ
  registers : RegisterParameters
  shared : Shared W
  calls : List Call
  returned : Option RegisterReturns

inductive Label
  | handler | postRun | loop | loopPostCheck (r11 : ℤ) | loopPostCheckEnd (r11 : ℤ)
  | loopSpecific | loopGeneric | loopCall (specific : Bool) | loopDone | callDone | ret
  deriving DecidableEq

variable {W : Type}

/-- The transition at a label. At `callDone` the values to return are on the stack
while the epilogue frees the clone. -/
def step (b : Behaviour W) (c : Clone) : Label → Frame W → Except Stop (Label × Frame W)
  | .handler, f =>
    .ok (.postRun, { f with shared := { f.shared with
      arguments := f.registers }, hookTypeCurrent := 0 })
  | .postRun, f => .ok (.loop, { f with hookCurrent := -1 })
  | .loop, f => do
    let f := { f with hookCurrent := f.hookCurrent + 1 }
    let f := { f with registers := { f.registers with
      rdi := BitVec.ofInt 64 f.hookTypeCurrent, r8 := BitVec.ofInt 64 f.hookCurrent } }
    let r11 ← load c.hookType f.hookCurrent
    if r11 = 0 then return (.loopDone, f)
    else if f.hookTypeCurrent ≠ 0 then return (.loopPostCheck r11, f)
    else if r11 = 0 then return (.loop, f)
    else if r11 = 2 then return (.loop, f)
    else return (.loopPostCheckEnd r11, f)
  | .loopPostCheck r11, f =>
    if r11 = 0 then .ok (.loop, f)
    else if r11 = -1 then .ok (.loop, f)
    else if r11 = 1 then .ok (.loop, f)
    else .ok (.loopPostCheckEnd r11, f)
  | .loopPostCheckEnd r11, f =>
    if r11 > 0 then .ok (.loopGeneric, f)
    else if r11 < 0 then .ok (.loopSpecific, f)
    else .ok (.loop, f)
  | .loopSpecific, f =>
    .ok (.loopCall true, { f with
      registers := f.shared.arguments
      shared := { f.shared with threadReturn := c.address } })
  | .loopGeneric, f =>
    .ok (.loopCall false, { f with registers := { f.registers with
      rdi := c.curthread, rsi := c.address } })
  | .loopCall specific, f => do
    let f := { f with registers := { f.registers with r8 := BitVec.ofInt 64 f.hookCurrent } }
    let r11 ← load c.hook f.hookCurrent
    if r11 = 0#64 then return (.loopDone, f)
    else
      let r := if specific then b.specific r11 f.registers f.hookCurrent f.hookTypeCurrent f.shared
        else b.generic r11 f.registers.rdi f.registers.rsi f.hookCurrent f.hookTypeCurrent f.shared
      let f := { f with
        registers := { f.registers with rax := r.1 }
        shared := r.2
        calls := f.calls ++ [.called (f.hookCurrent, r11) r.1] }
      if r.1 = 0#64 then return (.loop, f)
      else if 0 < r.1.toInt then return (.loopDone, f)
      else return (.callDone, f)
  | .loopDone, f =>
    let f := { f with registers := f.shared.arguments }
    let r11 : ℤ := f.hookTypeCurrent
    let f := { f with hookTypeCurrent := 1 }
    if r11 ≠ 0 then .ok (.callDone, f)
    else
      let r := b.original f.registers f.shared
      .ok (.postRun, { f with
        shared := { r.2 with returns := r.1 }, calls := f.calls ++ [.original] })
  | .callDone, f =>
    .ok (.ret, { f with returned := some f.shared.returns })
  | .ret, f => .ok (.ret, f)

/-- Finitely many transitions, none of which leaves a block of the table. -/
def Reaches (b : Behaviour W) (c : Clone) : Label × Frame W → Label × Frame W → Prop :=
  Relation.ReflTransGen (fun x y => step b c x.1 x.2 = .ok y)

inductive Phase
  | pre | post
  deriving DecidableEq

/-- The value of `hookTypeCurrent` during a phase. -/
def Phase.value : Phase → ℤ
  | .pre => 0 | .post => 1

def Phase.skips : Phase → ℤ → Bool
  | .pre, type => type = 2
  | .post, type => type = -1 ∨ type = 1

/-- The entries that the loop calls in a phase when each hook says to go on: a
zero type ends the table, and so does a null hook of a type that is not passed
over. -/
def runnable (phase : Phase) : List Entry → List Entry
  | [] => []
  | e :: es =>
    if e.type = 0 then []
    else if phase.skips e.type then runnable phase es
    else if e.hook = 0#64 then []
    else e :: runnable phase es

def Clone.entries (c : Clone) : List Entry := entriesFrom 0 (c.hook.zip c.hookType)

def exit (control : BitVec 64) : Label := if control.toInt < 0 then .callDone else .loopDone

structure Leaves (f : Frame W) (calls : List Call) (f' : Frame W) : Prop where
  calls : f'.calls = f.calls ++ calls
  phase : f'.hookTypeCurrent = f.hookTypeCurrent

/-- The controls come from the hooks. -/
def Behaviour.Returns (b : Behaviour W) (control : BitVec 64) : Prop :=
  (∃ hook arguments i phase s, (b.specific hook arguments i phase s).1 = control) ∨
    ∃ hook thread clone i phase s, (b.generic hook thread clone i phase s).1 = control

/-- What the call of the hook of an entry does. A specific hook is called on a thread whose second
return slot holds the clone. -/
def Behaviour.invoke (b : Behaviour W) (c : Clone) (phase : Phase) (e : Entry) (s : Shared W) :
    BitVec 64 × Shared W :=
  if e.type < 0 then
    b.specific e.hook { s.arguments with r8 := BitVec.ofInt 64 e.index } e.index phase.value
      { s with threadReturn := c.address }
  else b.generic e.hook c.curthread c.address e.index phase.value s

/-- What the hooks of a phase do that stand in front of the end of the table, each on what the one
before left: the control that ended the phase, zero at the end of the table, and the state. A null
hook of a negative type ends the table when the slot is written already. -/
def Behaviour.phaseRun (b : Behaviour W) (c : Clone) (phase : Phase) :
    List Entry → Shared W → BitVec 64 × Shared W
  | [], s => (0#64, s)
  | e :: es, s =>
    if e.type = 0 then (0#64, s)
    else if phase.skips e.type then b.phaseRun c phase es s
    else if e.hook = 0#64 then
      (0#64, if e.type < 0 then { s with threadReturn := c.address } else s)
    else
      let r := b.invoke c phase e s
      if r.1 = 0#64 then b.phaseRun c phase es r.2 else r

/-- The phase in front of the original, from the frame of the handler. -/
def Behaviour.preRun (b : Behaviour W) (c : Clone) (f : Frame W) : BitVec 64 × Shared W :=
  b.phaseRun c .pre c.entries { f.shared with arguments := f.registers }

def Behaviour.performed (b : Behaviour W) (s : Shared W) : Shared W :=
  { (b.original s.arguments s).2 with returns := (b.original s.arguments s).1 }

/-- The phase behind the original. -/
def Behaviour.postRun (b : Behaviour W) (c : Clone) (f : Frame W) : BitVec 64 × Shared W :=
  b.phaseRun c .post c.entries (b.performed (b.preRun c f).2)

/-- The frame when the loop has read the type of the next entry. -/
def Frame.scan (f : Frame W) : Frame W := { f with
  hookCurrent := f.hookCurrent + 1
  registers := { f.registers with
    rdi := BitVec.ofInt 64 f.hookTypeCurrent, r8 := BitVec.ofInt 64 (f.hookCurrent + 1) } }

/-- The frame at the call of a hook of this type, with the arguments in registers. -/
def Frame.enter (f : Frame W) (c : Clone) (type : ℤ) : Frame W :=
  if type < 0 then { f with
    registers := f.shared.arguments
    shared := { f.shared with threadReturn := c.address } }
  else { f with registers := { f.registers with rdi := c.curthread, rsi := c.address } }

def Frame.respond (f : Frame W) (b : Behaviour W) (specific : Bool) (hook : Address) :
    BitVec 64 × Shared W :=
  if specific then
    b.specific hook { f.registers with r8 := BitVec.ofInt 64 f.hookCurrent } f.hookCurrent
      f.hookTypeCurrent f.shared
  else b.generic hook f.registers.rdi f.registers.rsi f.hookCurrent f.hookTypeCurrent f.shared

section Loop

variable (b : Behaviour W) (c : Clone) (phase : Phase) {f : Frame W} {i : ℕ} {type : ℤ}

theorem step_loop (hi : f.hookCurrent + 1 = i) (ht : c.hookType[i]? = some type) :
    step b c .loop f = .ok (if type = 0 then .loopDone
      else if f.hookTypeCurrent ≠ 0 then .loopPostCheck type
      else if type = 2 then .loop else .loopPostCheckEnd type, f.scan) := by
  have hl : load c.hookType (f.hookCurrent + 1) = .ok type := by simp [load, hi, ht]
  simp only [step, hl]
  change (if type = 0 then _ else _) = _
  by_cases h₀ : type = 0
  · rw [if_pos h₀, if_pos h₀]
    rfl
  · simp only [if_neg h₀]
    split_ifs <;> rfl

theorem loop_end (hi : f.hookCurrent + 1 = i) (ht : c.hookType[i]? = some 0) :
    Reaches b c (.loop, f) (.loopDone, f.scan) :=
  .single (step_loop b c hi ht)

/-- An entry of a type the phase passes over is passed over. -/
theorem loop_skip (hi : f.hookCurrent + 1 = i) (ht : c.hookType[i]? = some type)
    (hp : f.hookTypeCurrent = phase.value) (h₀ : type ≠ 0) (hs : phase.skips type = true) :
    Reaches b c (.loop, f) (.loop, f.scan) := by
  have h := step_loop b c hi ht
  cases phase with
  | pre =>
    have h₂ : type = 2 := by simpa [Phase.skips] using hs
    simp only [hp, Phase.value, h₂] at h
    exact .single h
  | post =>
    have h₁ : type = -1 ∨ type = 1 := by simpa [Phase.skips] using hs
    simp only [hp, Phase.value, if_neg h₀] at h
    refine .trans (.single h) (.single ?_)
    rcases h₁ with rfl | rfl <;> rfl

theorem loop_enter (hi : f.hookCurrent + 1 = i) (ht : c.hookType[i]? = some type)
    (hp : f.hookTypeCurrent = phase.value) (h₀ : type ≠ 0) (hs : phase.skips type = false) :
    Reaches b c (.loop, f) (.loopPostCheckEnd type, f.scan) := by
  have h := step_loop b c hi ht
  cases phase with
  | pre =>
    have h₂ : type ≠ 2 := by simpa [Phase.skips] using hs
    simp only [hp, Phase.value, if_neg h₀, if_neg h₂] at h
    exact .single h
  | post =>
    have h₁ : type ≠ -1 ∧ type ≠ 1 := by simpa [Phase.skips] using hs
    simp only [hp, Phase.value, if_neg h₀] at h
    refine .trans (.single h) (.single ?_)
    simp [step, h₀, h₁]

/-- Both kinds of hooks go on to the call with their arguments in registers. -/
theorem enter_loopCall (h₀ : type ≠ 0) :
    Reaches b c (.loopPostCheckEnd type, f) (.loopCall (type < 0), f.enter c type) := by
  by_cases hl : type < 0
  · have hg : ¬type > 0 := by omega
    have hs : step b c (.loopPostCheckEnd type) f = .ok (.loopSpecific, f) := by simp [step, hg, hl]
    rw [Frame.enter, if_pos hl, decide_eq_true hl]
    exact .head hs (.single rfl)
  · have hg : type > 0 := by omega
    have hs : step b c (.loopPostCheckEnd type) f = .ok (.loopGeneric, f) := by simp [step, hg]
    rw [Frame.enter, if_neg hl, decide_eq_false hl]
    exact .head hs (.single rfl)

theorem call_null (specific : Bool) (hh : load c.hook f.hookCurrent = .ok 0#64) :
    ∃ f', Reaches b c (.loopCall specific, f) (.loopDone, f') ∧ Leaves f [] f' ∧
      f'.shared = f.shared := by
  refine ⟨{ f with registers := { f.registers with r8 := BitVec.ofInt 64 f.hookCurrent } },
    .single ?_, ⟨?_, rfl⟩, rfl⟩
  · simp only [step, hh]
    rfl
  · simp

/-- Any other hook is called, and its control decides how to go on. -/
theorem call_hook (specific : Bool) {hook : Address} (hh : load c.hook f.hookCurrent = .ok hook)
    (hn : hook ≠ 0#64) : ∃ f',
      Reaches b c (.loopCall specific, f)
        (if (f.respond b specific hook).1 =
          0#64 then .loop else exit (f.respond b specific hook).1, f') ∧
      Leaves f [.called (f.hookCurrent, hook) (f.respond b specific hook).1] f' ∧
      f'.hookCurrent = f.hookCurrent ∧ f'.shared = (f.respond b specific hook).2 := by
  generalize hr : f.respond b specific hook = r
  refine ⟨{ f with
    registers := { f.registers with r8 := BitVec.ofInt 64 f.hookCurrent, rax := r.1 }
    shared := r.2
    calls := f.calls ++ [.called (f.hookCurrent, hook) r.1] }, .single ?_, ⟨rfl, rfl⟩, rfl, rfl⟩
  simp only [step, hh]
  change (if hook = 0#64 then _ else _) = _
  rw [if_neg hn]
  change (if (f.respond b specific hook).1 = 0#64 then _
    else if 0 < (f.respond b specific hook).1.toInt then _ else _) = _
  rw [hr]
  by_cases h₀ : r.1 = 0#64
  · rw [if_pos h₀, if_pos h₀, ← hr]
    rfl
  · have hne : r.1.toInt ≠ 0 := fun h => h₀ (BitVec.eq_of_toInt_eq (by simpa using h))
    rw [if_neg h₀, if_neg h₀]
    by_cases hpos : 0 < r.1.toInt
    · have hexit : exit r.1 = .loopDone := if_neg (by omega)
      rw [if_pos hpos, hexit, ← hr]
      rfl
    · have hexit : exit r.1 = .callDone := if_pos (by omega)
      rw [if_neg hpos, hexit, ← hr]
      rfl

theorem Leaves.trans {f g h : Frame W} {cs ds : List Call} (h₁ : Leaves f cs g)
    (h₂ : Leaves g ds h) :
    Leaves f (cs ++ ds) h :=
  ⟨by rw [h₂.calls, h₁.calls, List.append_assoc], h₂.phase.trans h₁.phase⟩

theorem Leaves.scan (f : Frame W) : Leaves f [] f.scan := ⟨by simp [Frame.scan], rfl⟩

omit b phase in
theorem Leaves.enter (f : Frame W) (type : ℤ) : Leaves f [] (f.enter c type) := by
  unfold Frame.enter
  split_ifs <;> exact ⟨by simp, rfl⟩

omit b phase in
private theorem enter_hookCurrent (f : Frame W) (type : ℤ) :
    (f.enter c type).hookCurrent = f.hookCurrent := by
  unfold Frame.enter
  split_ifs <;> rfl

private theorem respond_enter (hi : f.hookCurrent + 1 = i) (hp : f.hookTypeCurrent = phase.value)
    (hook : Address) :
    (f.scan.enter c type).respond b (type < 0) hook =
      b.invoke c phase ⟨i, hook, type⟩ f.shared := by
  unfold Frame.respond Frame.enter Behaviour.invoke
  by_cases hl : type < 0 <;> simp [hl, Frame.scan, hi, hp]

/-- A null hook of a type that is not passed over ends the table. -/
theorem loop_null (hi : f.hookCurrent + 1 = i) (ht : c.hookType[i]? = some type)
    (hp : f.hookTypeCurrent = phase.value) (h₀ : type ≠ 0) (hs : phase.skips type = false)
    (hh : c.hook[i]? = some 0#64) :
    ∃ f', Reaches b c (.loop, f) (.loopDone, f') ∧ Leaves f [] f' ∧
      f'.shared = if type < 0 then { f.shared with threadReturn := c.address } else f.shared := by
  have hload : load c.hook (f.scan.enter c type).hookCurrent = .ok 0#64 := by
    simp [enter_hookCurrent, Frame.scan, hi, load, hh]
  obtain ⟨f', hf', hl, hshared⟩ := call_null b c (type < 0) hload
  refine ⟨f', (loop_enter b c phase hi ht hp h₀ hs).trans ((enter_loopCall b c h₀).trans hf'),
    (Leaves.scan f).trans ((Leaves.enter c f.scan type).trans hl), hshared.trans ?_⟩
  unfold Frame.enter
  split_ifs <;> rfl

theorem loop_hook (hi : f.hookCurrent + 1 = i) (ht : c.hookType[i]? = some type)
    (hp : f.hookTypeCurrent = phase.value) (h₀ : type ≠ 0) (hs : phase.skips type = false)
    {hook : Address} (hh : c.hook[i]? = some hook) (hn : hook ≠ 0#64)
    {r : BitVec 64 × Shared W} (hr : b.invoke c phase ⟨i, hook, type⟩ f.shared = r) :
    ∃ f', Reaches b c (.loop, f) (if r.1 = 0#64 then .loop else exit r.1, f') ∧
      Leaves f [.called (i, hook) r.1] f' ∧ f'.hookCurrent = i ∧ f'.shared = r.2 := by
  have hindex : (f.scan.enter c type).hookCurrent = i := (enter_hookCurrent c f.scan type).trans hi
  have hload : load c.hook (f.scan.enter c type).hookCurrent = .ok hook := by
    simp [hindex, load, hh]
  obtain ⟨f', hf', hl, hcur, hshared⟩ := call_hook b c (type < 0) hload hn
  rw [hindex] at hl hcur
  rw [respond_enter b c phase hi hp, hr] at hf' hl hshared
  exact ⟨f', (loop_enter b c phase hi ht hp h₀ hs).trans ((enter_loopCall b c h₀).trans hf'),
    (Leaves.scan f).trans ((Leaves.enter c f.scan type).trans hl), hcur, hshared⟩

private theorem invoke_returns (e : Entry) (s : Shared W) : b.Returns (b.invoke c phase e s).1 := by
  unfold Behaviour.invoke
  split_ifs
  · exact .inl ⟨_, _, _, _, _, rfl⟩
  · exact .inr ⟨_, _, _, _, _, _, rfl⟩

omit b c phase in
theorem drop_cons {α : Type} {l xs : List α} {x : α} {i : ℕ} (h : l.drop i = x :: xs) :
    l[i]? = some x ∧ l.drop (i + 1) = xs := by
  constructor
  · rw [← List.head?_drop, h, List.head?_cons]
  · rw [← List.tail_drop, h, List.tail_cons]

/-- What the loop does with the entries from an index on, in a table that has a
zero type there: it calls the runnable ones in turn until a control ends it. -/
theorem loop_run (hooks : List Address) (types : List ℤ) (f : Frame W) (i : ℕ)
    (hh : c.hook.drop i = hooks) (ht : c.hookType.drop i = types) (hl : hooks.length = types.length)
    (hz : 0 ∈ types) (hi : f.hookCurrent + 1 = i) (hp : f.hookTypeCurrent = phase.value) :
    ∃ cs control f', Reaches b c (.loop, f) (exit control, f') ∧
      b.phaseRun c phase (entriesFrom i (hooks.zip types)) f.shared = (control, f'.shared) ∧
      CallsUntil 0#64 ((runnable phase (entriesFrom i (hooks.zip types))).map
        Entry.callee) cs control ∧
      Leaves f (calls cs) f' ∧ ∀ p ∈ cs, b.Returns p.2 := by
  induction types generalizing hooks f i with
  | nil => simp at hz
  | cons type types ih =>
    cases hooks with
    | nil => simp at hl
    | cons hook hooks =>
      obtain ⟨htype, hts⟩ := drop_cons ht
      obtain ⟨hhook, hhs⟩ := drop_cons hh
      have htail : ∀ g : Frame W, g.hookCurrent = i →
          g.hookTypeCurrent = phase.value → 0 ∈ types → ∃ cs control f',
          Reaches b c (.loop, g) (exit control, f') ∧
          b.phaseRun c phase (entriesFrom (i + 1) (hooks.zip types)) g.shared =
            (control, f'.shared) ∧
          CallsUntil 0#64 ((runnable phase
            (entriesFrom (i + 1) (hooks.zip types))).map Entry.callee)
            cs control ∧
          Leaves g (calls cs) f' ∧ ∀ p ∈ cs, b.Returns p.2 := by
        intro g hg hgp hz
        exact ih hooks g (i + 1) hhs hts (by simpa using hl) hz (by simp [hg]) hgp
      rw [List.zip_cons_cons, entriesFrom, Behaviour.phaseRun]
      dsimp only
      by_cases h₀ : type = 0
      · subst h₀
        exact ⟨[], 0#64, f.scan, loop_end b c hi htype, by simp [Frame.scan], .done, .scan f,
          by simp⟩
      have hz' : 0 ∈ types := by simpa [Ne.symm h₀] using hz
      rw [if_neg h₀]
      cases hs : phase.skips type with
      | true =>
        obtain ⟨cs, control, f', hr, hrun, hc, hf, hb⟩ := htail f.scan hi hp hz'
        refine ⟨cs, control, f', .trans (loop_skip b c phase hi htype hp h₀ hs) hr, hrun, ?_,
          (Leaves.scan f).trans hf, hb⟩
        simpa [runnable, h₀, hs] using hc
      | false =>
        rw [if_neg Bool.false_ne_true]
        by_cases hn : hook = 0#64
        · subst hn
          obtain ⟨f', hf', hl', hshared⟩ := loop_null b c phase hi htype hp h₀ hs hhook
          refine ⟨[], 0#64, f', hf', by rw [if_pos rfl, hshared], ?_, hl', by simp⟩
          simpa [runnable, h₀, hs] using CallsUntil.done
        · obtain ⟨g, hg, hleaves, hindex, hshared⟩ :=
            loop_hook b c phase hi htype hp h₀ hs hhook hn rfl
          have hb := invoke_returns b c phase ⟨i, hook, type⟩ f.shared
          rw [if_neg hn]
          generalize b.invoke c phase ⟨i, hook, type⟩ f.shared = r at hg hleaves hshared hb
          simp only [runnable, if_neg h₀, hs, Bool.false_eq_true, if_false, if_neg hn]
          by_cases hcont : r.1 = 0#64
          · rw [if_pos hcont] at hg
            obtain ⟨cs, control', f', hr, hrun, hc, hf, hb'⟩ :=
              htail g hindex (hleaves.phase.trans hp) hz'
            rw [hshared] at hrun
            refine ⟨_, control', f', hg.trans hr, by rw [if_pos hcont, hrun], .next hc, ?_, ?_⟩
            · simpa [Entry.callee, hcont] using hleaves.trans hf
            · rintro p (_ | ⟨_, hp⟩)
              · exact hcont ▸ hb
              · exact hb' p hp
          · rw [if_neg hcont] at hg
            refine ⟨_, r.1, g, hg, by rw [if_neg hcont, hshared], .stop hcont, ?_, ?_⟩
            · simpa [Entry.callee] using hleaves
            · simpa using hb

end Loop

private theorem phase_run (b : Behaviour W) (c : Clone) (phase : Phase) (f : Frame W)
    (hl : c.hook.length = c.hookType.length) (hz : 0 ∈ c.hookType)
    (hp : f.hookTypeCurrent = phase.value) :
    ∃ cs control f', Reaches b c (.postRun, f) (exit control, f') ∧
      b.phaseRun c phase c.entries f.shared = (control, f'.shared) ∧
      CallsUntil 0#64 ((runnable phase c.entries).map Entry.callee) cs control ∧
      Leaves f (calls cs) f' ∧ ∀ p ∈ cs, b.Returns p.2 := by
  obtain ⟨cs, control, f', hr, hrun, hc, hf, hb⟩ :=
    loop_run b c phase c.hook c.hookType { f with hookCurrent := -1 } 0 rfl rfl hl hz rfl hp
  exact ⟨cs, control, f', .head rfl hr, hrun, hc, ⟨hf.calls, hf.phase⟩, hb⟩

/-- A run of the handler: the calls of the first phase, and the original and the calls of the second
one unless the first ended with a negative control. -/
structure Runs (b : Behaviour W) (c : Clone) (f f' : Frame W)
    (cs ds : List ((ℤ × Address) × BitVec 64)) : Prop where
  reaches : Reaches b c (.handler, f) (.ret, f')
  returned : f'.returned = some f'.shared.returns
  first : CallsUntil 0#64 ((runnable .pre c.entries).map Entry.callee) cs (b.preRun c f).1
  second : CallsUntil 0#64 ((runnable .post c.entries).map Entry.callee) ds (b.postRun c f).1
  events : f'.calls = f.calls ++
    if (b.preRun c f).1.toInt < 0 then calls cs else calls cs ++ .original :: calls ds
  controls : ∀ p ∈ cs ++ ds, b.Returns p.2

/-- The handler returns on every table with a zero type. -/
theorem handler_runs (b : Behaviour W) (c : Clone) (f : Frame W)
    (hl : c.hook.length = c.hookType.length) (hz : 0 ∈ c.hookType) :
    ∃ f' cs ds, Runs b c f f' cs ds := by
  let f₁ : Frame W :=
    { f with shared := { f.shared with arguments := f.registers }, hookTypeCurrent := 0 }
  obtain ⟨cs, control, f₂, hr, hrun, hc, hf, hb⟩ := phase_run b c .pre f₁ hl hz rfl
  have hpre : b.preRun c f = (control, f₂.shared) := hrun
  -- the frame behind the original, also where it is not called
  let f₃ : Frame W := { f₂ with
    registers := f₂.shared.arguments
    hookTypeCurrent := 1
    shared := b.performed f₂.shared
    calls := f₂.calls ++ [.original] }
  obtain ⟨ds, control', f₄, hr', hrun', hc', hf', hb'⟩ := phase_run b c .post f₃ hl hz rfl
  have hpost : b.postRun c f = (control', f₄.shared) := by
    rw [Behaviour.postRun, hpre]
    exact hrun'
  have hcontrols : ∀ p ∈ cs ++ ds, b.Returns p.2 := fun p hp =>
    (List.mem_append.mp hp).elim (hb p) (hb' p)
  have hstart : Reaches b c (.handler, f) (exit control, f₂) := .head rfl hr
  have hcalls : f₂.calls = f.calls ++ calls cs := hf.calls
  by_cases hneg : control.toInt < 0
  · rw [exit, if_pos hneg] at hstart
    exact ⟨_, cs, ds, hstart.tail rfl, rfl, by rwa [hpre], by rwa [hpost],
      by rw [hpre, if_pos hneg]; exact hcalls, hcontrols⟩
  · rw [exit, if_neg hneg] at hstart
    have hphase : f₂.hookTypeCurrent = 0 := hf.phase
    have horiginal : step b c .loopDone f₂ = .ok (.postRun, f₃) := by
      simp [step, hphase, f₃, Behaviour.performed]
    have hphase' : f₄.hookTypeCurrent = 1 := hf'.phase
    obtain ⟨f₅, hdone, hcalls'⟩ : ∃ f₅, Reaches b c (exit control', f₄) (.callDone, f₅) ∧
        f₅.calls = f₄.calls := by
      by_cases hneg' : control'.toInt < 0
      · rw [exit, if_pos hneg']
        exact ⟨f₄, .refl, rfl⟩
      · rw [exit, if_neg hneg']
        refine ⟨{ f₄ with registers := f₄.shared.arguments, hookTypeCurrent := 1 }, .single ?_, rfl⟩
        simp [step, hphase']
    refine ⟨_, cs, ds, ((hstart.tail horiginal).trans (hr'.trans hdone)).tail rfl,
      rfl, by rwa [hpre],
      by rwa [hpost], ?_, hcontrols⟩
    rw [hpre, if_neg hneg]
    simp [hcalls', hf'.calls, f₃, hcalls]

/-- The handler returns on every table with a zero type, having run the runnable
entries of both phases. -/
theorem handler_run (b : Behaviour W) (c : Clone) (f : Frame W)
    (hl : c.hook.length = c.hookType.length) (hz : 0 ∈ c.hookType) :
    ∃ calls f', Reaches b c (.handler, f) (.ret, f') ∧ f'.calls = f.calls ++ calls ∧
      f'.returned = some f'.shared.returns ∧
      (∀ k control, .called k control ∈ calls → b.Returns control) ∧
      Dispatches 0#64 (fun control => control.toInt < 0)
        ((runnable .pre c.entries).map Entry.callee)
        ((runnable .post c.entries).map Entry.callee) calls := by
  obtain ⟨f', cs, ds, h⟩ := handler_runs b c f hl hz
  have hevents := h.events
  by_cases hneg : (b.preRun c f).1.toInt < 0
  · rw [if_pos hneg] at hevents
    exact ⟨_, f', h.reaches, hevents, h.returned,
      fun k control hm => h.controls _ (List.mem_append_left _ (mem_calls hm)),
      .intercepted h.first hneg⟩
  · rw [if_neg hneg] at hevents
    refine ⟨_, f', h.reaches, hevents, h.returned, fun k control hm => ?_,
      .performed h.first hneg h.second⟩
    simp only [List.mem_append, List.mem_cons, reduceCtorEq, false_or] at hm
    exact h.controls _ (List.mem_append.mpr (hm.imp mem_calls mem_calls))

private theorem step_rightUnique (b : Behaviour W) (c : Clone) :
    Relator.RightUnique (fun x y : Label × Frame W => step b c x.1 x.2 = .ok y) := by
  intro x y z hy hz
  exact Except.ok.inj (hy.symm.trans hz)

theorem Reaches.of_ret {b : Behaviour W} {c : Clone} {f : Frame W} {x : Label × Frame W}
    (h : Reaches b c (.ret, f) x) : x = (.ret, f) := by
  induction h with
  | refl => rfl
  | tail _ hs ih =>
    subst ih
    simpa [step, eq_comm] using hs

theorem Reaches.ret_unique {b : Behaviour W} {c : Clone} {x : Label × Frame W} {f f' : Frame W}
    (h : Reaches b c x (.ret, f)) (h' : Reaches b c x (.ret, f')) : f = f' := by
  rcases Relation.ReflTransGen.total_of_right_unique (step_rightUnique b c) h h' with hr | hr
  · simpa using (Reaches.of_ret hr).symm
  · simpa using Reaches.of_ret hr

theorem Reaches.steps {b : Behaviour W} {c : Clone} {x y : Label × Frame W} {f : Frame W}
    (h : Reaches b c x (.ret, f)) (hy : Reaches b c x y) : ∃ z, step b c y.1 y.2 = .ok z := by
  rcases Relation.ReflTransGen.total_of_right_unique (step_rightUnique b c) h hy with hr | hr
  · rw [Reaches.of_ret hr]
    exact ⟨_, rfl⟩
  · rcases Relation.ReflTransGen.cases_head hr with rfl | ⟨z, hz, -⟩
    · exact ⟨_, rfl⟩
    · exact ⟨z, hz⟩

end Ps4Sdk.FunctionHookHandler
