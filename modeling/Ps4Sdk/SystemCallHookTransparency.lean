import Ps4Sdk.SystemCallHookHandler

/-!
# What a hooked system call returns

The handler puts the address of the clone into the second return slot of the thread,
where the hooks look for it, and the system call starts with it there. What the call
leaves in the two slots is what the thread gets.
-/

namespace Ps4Sdk.SystemCallHookHandler
open CallSequences FunctionHookTables

variable {W : Type}

/-- The error code of a system call, the return slots it writes, and what else it changes. -/
structure Outcome (W : Type) where
  error : BitVec 32
  write0 : Option (BitVec 64)
  write1 : Option (BitVec 64)
  world : W

/-- An implementation of a system call, which may read the return slots. -/
abbrev SystemCall (W : Type) := BitVec 64 → BitVec 64 → W → Outcome W

/-- The call from a state that it shares with the handler: it does not know of the clone. -/
def SystemCall.run (call : SystemCall W) (s : Shared W) : BitVec 32 × Shared W :=
  let out := call s.threadReturn0 s.threadReturn1 s.world
  (out.error, { s with threadReturn0 := out.write0.getD s.threadReturn0,
                       threadReturn1 := out.write1.getD s.threadReturn1, world := out.world })

def Passive (hook : Shared W → BitVec 32 × Shared W) : Prop :=
  ∀ s, hook s = (controlContinue, { s with world := (hook s).2.world })

def PassiveHooks (b : Behaviour W) (entries : List Entry) : Prop :=
  ∀ e ∈ entries, Passive (b.specific e.hook) ∧ Passive (b.generic e.hook)

def worldAtCall (b : Behaviour W) (uap : Address) (entries : List Entry) (s : Shared W) : W :=
  (preLoop b entries controlContinue ⟨prepared uap s, []⟩).2.shared.world

theorem preLoop_passive {b : Behaviour W} {entries : List Entry}
    (hb : PassiveHooks b entries) (f : Frame W) :
    ∃ type world calls, preLoop b entries controlContinue f =
      (controlContinue, ⟨{ f.shared with hookTypeCurrent := type, world := world }, calls⟩) := by
  induction entries generalizing f with
  | nil => exact ⟨f.shared.hookTypeCurrent, f.shared.world, f.calls, rfl⟩
  | cons e entries ih =>
    have ih := ih (fun e he => hb e (List.mem_cons_of_mem _ he))
    obtain ⟨hspecific, hgeneric⟩ := hb e List.mem_cons_self
    rw [preLoop]
    split_ifs with h₁ h₂
    · rw [hspecific]
      exact ih _
    · rw [hgeneric]
      exact ih _
    · exact ih f

theorem postLoop_passive {b : Behaviour W} {entries : List Entry}
    (hb : PassiveHooks b entries) (f : Frame W) :
    ∃ world calls, postLoop b entries controlContinue f =
      (controlContinue, ⟨{ f.shared with world := world }, calls⟩) := by
  induction entries generalizing f with
  | nil => exact ⟨f.shared.world, f.calls, rfl⟩
  | cons e entries ih =>
    have ih := ih (fun e he => hb e (List.mem_cons_of_mem _ he))
    rw [postLoop]
    split_ifs with h
    · rw [(hb e List.mem_cons_self).2]
      exact ih _
    · exact ih f

/-- The call returns the error and leaves the slots that the direct call would. -/
def Transparent (call : SystemCall W) (b : Behaviour W) (uap : Address) (entries : List Entry)
    (s : Shared W) : Prop :=
  let direct := call.run { s with world := worldAtCall b uap entries s }
  let hooked := ps4PayloadSystemCallHookHandler b uap entries s
  hooked.1 = direct.1 ∧ hooked.2.shared.threadReturn0 = direct.2.threadReturn0 ∧
    hooked.2.shared.threadReturn1 = direct.2.threadReturn1

/-- What the handler returns and leaves in the slots when the hooks are passive. -/
theorem handler_passive {call : SystemCall W} {b : Behaviour W} {entries : List Entry}
    (hcall : b.originalCall = call.run) (hb : PassiveHooks b entries) (uap : Address)
    (s : Shared W) :
    let out := call s.threadReturn0 uap (worldAtCall b uap entries s)
    (ps4PayloadSystemCallHookHandler b uap entries s).1 = b.freed out.error ∧
      (ps4PayloadSystemCallHookHandler b uap entries s).2.shared.threadReturn0 =
        out.write0.getD s.threadReturn0 ∧
      (ps4PayloadSystemCallHookHandler b uap entries s).2.shared.threadReturn1 =
        out.write1.getD uap := by
  obtain ⟨type, world, calls, hpre⟩ := preLoop_passive hb ⟨prepared uap s, []⟩
  have hworld : worldAtCall b uap entries s = world := by rw [worldAtCall, hpre]
  have hne : controlContinue ≠ controlReturn := by decide
  rw [hworld]
  unfold ps4PayloadSystemCallHookHandler
  rw [prepared] at hpre
  simp only [hpre, perform, if_pos hne, hcall, SystemCall.run]
  obtain ⟨world', calls', hpost⟩ := postLoop_passive hb ⟨_, calls ++ [.original]⟩
  rw [hpost]
  exact ⟨rfl, rfl, rfl⟩

def SystemCall.IgnoresReturn1 (call : SystemCall W) : Prop :=
  ∀ return0 return1 return1' world, call return0 return1 world = call return0 return1' world

/-- A hooked system call is transparent exactly when, started with the address of the clone in the
second slot, it gives the same error and leaves the same slots as from the thread's own value. A
call that does not read the slot must write it, unless it holds the address already. -/
theorem systemCallHook_transparent_iff (call : SystemCall W) (b : Behaviour W) (uap : Address)
    (entries : List Entry) (s : Shared W) (hcall : b.originalCall = call.run)
    (hb : PassiveHooks b entries) :
    let world := worldAtCall b uap entries s
    let own := call s.threadReturn0 s.threadReturn1 world
    let clone := call s.threadReturn0 uap world
    (Transparent call b uap entries s ↔
      b.freed clone.error = own.error ∧
      clone.write0.getD s.threadReturn0 = own.write0.getD s.threadReturn0 ∧
        clone.write1.getD uap = own.write1.getD s.threadReturn1) ∧
    (call.IgnoresReturn1 →
      (Transparent call b uap entries s ↔
        b.freed own.error = own.error ∧ (own.write1.isSome ∨ s.threadReturn1 = uap))) := by
  intro world own clone
  obtain ⟨hcode, h0, h1⟩ := handler_passive hcall hb uap s
  have hiff : Transparent call b uap entries s ↔
      b.freed clone.error = own.error ∧
      clone.write0.getD s.threadReturn0 = own.write0.getD s.threadReturn0 ∧
        clone.write1.getD uap = own.write1.getD s.threadReturn1 := by
    rw [Transparent]
    simp only [hcode, h0, h1]
    rfl
  refine ⟨hiff, ?_⟩
  intro hignores
  have hsame : clone = own := hignores _ _ _ _
  rw [hiff, hsame]
  refine and_congr_right (fun _ => ?_)
  cases own.write1 with
  | none => simp [eq_comm]
  | some v => simp

/-- Hooks that do nothing around a system call. -/
def quiet (call : SystemCall Unit) : Behaviour Unit where
  specific _ s := (controlContinue, s)
  generic _ s := (controlContinue, s)
  originalCall := call.run
  freed v := v

private theorem passiveHooks_quiet (call : SystemCall Unit) (entries : List Entry) :
    PassiveHooks (quiet call) entries :=
  fun _ _ => ⟨fun _ => rfl, fun _ => rfl⟩

theorem systemCallHook_transparent_pipe :
    Transparent (fun _ _ _ => ⟨0, some 3, some 4, ()⟩)
      (quiet fun _ _ _ => ⟨0, some 3, some 4, ()⟩) 0x1000
      [⟨0, 0x40, 1⟩] entered :=
  ((systemCallHook_transparent_iff _ _ 0x1000 [⟨0, 0x40, 1⟩] entered rfl (passiveHooks_quiet _ _)).2
    (fun _ _ _ _ => rfl)).mpr ⟨rfl, .inl rfl⟩

/-- A system call that writes the first slot only leaves the address of the clone in the second. -/
theorem systemCallHook_leaks_clone :
    (ps4PayloadSystemCallHookHandler (quiet fun _ _ _ => ⟨0, some 42, none, ()⟩) 0x1000
        [⟨0, 0x40, 1⟩] entered).2.shared.threadReturn1 = 0x1000 ∧
      (SystemCall.run (fun _ _ _ => ⟨0, some 42, none, ()⟩) entered).2.threadReturn1 = 0 ∧
      ¬Transparent (fun _ _ _ => ⟨0, some 42, none, ()⟩)
        (quiet fun _ _ _ => ⟨0, some 42, none, ()⟩) 0x1000
        [⟨0, 0x40, 1⟩] entered := by
  refine ⟨rfl, rfl, ?_⟩
  rintro ⟨-, -, h⟩
  exact absurd h (by decide)

end Ps4Sdk.SystemCallHookHandler
