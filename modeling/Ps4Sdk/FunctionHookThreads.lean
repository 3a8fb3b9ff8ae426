import Ps4Sdk.FunctionHookDispatch

/-!
# The return slots of the running thread

A hook of a negative type takes the arguments of the hooked function, so that the
handler hands it the clone in `td_retval[1]` of the running thread. The slot keeps
the address of the clone: the original runs with it, and leaves it there unless it
writes the slot. The slot `td_retval[0]` lies in the rest of the world, which the
handler does not write.
-/

namespace Ps4Sdk.FunctionHookHandler
open CheckedBlocks CallSequences FunctionHookTables

variable {W : Type}

def returnSlots (primary : W → BitVec 64) (s : Shared W) : BitVec 64 × BitVec 64 :=
  (primary s.world, s.threadReturn)

/-- The hooks say to go on and do not write the slots. -/
structure Behaviour.Quiet (primary : W → BitVec 64) (b : Behaviour W) : Prop where
  specific : ∀ hook arguments i phase s, (b.specific hook arguments i phase s).1 = 0#64 ∧
    returnSlots primary (b.specific hook arguments i phase s).2 = returnSlots primary s
  generic : ∀ hook thread clone i phase s, (b.generic hook thread clone i phase s).1 = 0#64 ∧
    returnSlots primary (b.generic hook thread clone i phase s).2 = returnSlots primary s

/-- The entries that the loop looks at in a phase when each hook says to go on: the
null hook that ends the table is one of them. -/
def reached (phase : Phase) : List Entry → List Entry
  | [] => []
  | e :: es =>
    if e.type = 0 then []
    else if phase.skips e.type then reached phase es
    else if e.hook = 0#64 then [e]
    else e :: reached phase es

/-- What the loop leaves in `td_retval[1]`. -/
def handed (c : Clone) (entries : List Entry) (slot : BitVec 64) : BitVec 64 :=
  if entries.any (fun e => e.type < 0) then c.address else slot

@[simp] theorem handed_nil (c : Clone) (slot : BitVec 64) : handed c [] slot = slot := rfl

private theorem handed_cons (c : Clone) (e : Entry) (es : List Entry) (slot : BitVec 64) :
    handed c (e :: es) slot = handed c es (handed c [e] slot) := by
  by_cases he : e.type < 0
  · simp [handed, he]
  · simp [handed, he]

structure Passes (primary : W → BitVec 64) (f : Frame W) (slot : BitVec 64)
    (f' : Frame W) : Prop where
  phase : f'.hookTypeCurrent = f.hookTypeCurrent
  slots : returnSlots primary f'.shared = (primary f.shared.world, slot)

theorem Passes.trans {primary : W → BitVec 64} {f g h : Frame W} {slot slot' : BitVec 64}
    (h₁ : Passes primary f slot g) (h₂ : Passes primary g slot' h) : Passes primary f slot' h := by
  refine ⟨h₂.phase.trans h₁.phase, h₂.slots.trans ?_⟩
  rw [show primary g.shared.world = primary f.shared.world from congrArg Prod.fst h₁.slots]

section Loop

variable (b : Behaviour W) (c : Clone) (phase : Phase) (primary : W → BitVec 64) {f : Frame W}

theorem enter_slots (e : Entry) (h₀ : e.type ≠ 0) : ∃ specific f',
    Reaches b c (.loopPostCheckEnd e.type, f) (.loopCall specific, f') ∧
      Passes primary f (handed c [e] f.shared.threadReturn) f' ∧
      f'.hookCurrent = f.hookCurrent := by
  by_cases hg : e.type > 0
  · have hs : step b c (.loopPostCheckEnd e.type) f = .ok (.loopGeneric, f) := by simp [step, hg]
    have hh : handed c [e] f.shared.threadReturn = f.shared.threadReturn := by
      simp [handed, show ¬e.type < 0 by omega]
    exact ⟨false, _, .head hs (.single rfl), ⟨rfl, by rw [hh]; rfl⟩, rfl⟩
  · have hl : e.type < 0 := by omega
    have hs : step b c (.loopPostCheckEnd e.type) f = .ok (.loopSpecific, f) := by
      simp [step, hg, hl]
    have hh : handed c [e] f.shared.threadReturn = c.address := by simp [handed, hl]
    exact ⟨true, _, .head hs (.single rfl), ⟨rfl, by rw [hh]; rfl⟩, rfl⟩

private theorem call_null_slots (specific : Bool) (hh : load c.hook f.hookCurrent = .ok 0#64) :
    ∃ f', Reaches b c (.loopCall specific, f) (.loopDone, f') ∧
    Passes primary f f.shared.threadReturn f' := by
  refine ⟨{ f with registers := { f.registers with r8 := BitVec.ofInt 64 f.hookCurrent } },
    .single ?_, ⟨rfl, rfl⟩⟩
  simp only [step, hh]
  rfl

/-- A quiet hook leaves the slots as they were handed over. -/
theorem call_slots (hb : b.Quiet primary) (specific : Bool) {hook : Address}
    (hh : load c.hook f.hookCurrent = .ok hook) (hn : hook ≠ 0#64) :
    ∃ f', Reaches b c (.loopCall specific, f) (.loop, f') ∧
    Passes primary f f.shared.threadReturn f' ∧
      f'.hookCurrent = f.hookCurrent := by
  let g : Frame W := { f with registers := { f.registers with
    r8 := BitVec.ofInt 64 f.hookCurrent } }
  let r := if specific then b.specific hook g.registers g.hookCurrent g.hookTypeCurrent g.shared
    else b.generic hook g.registers.rdi g.registers.rsi g.hookCurrent g.hookTypeCurrent g.shared
  have hr : r.1 = 0#64 ∧ returnSlots primary r.2 = returnSlots primary f.shared := by
    cases specific with
    | true => exact hb.specific _ _ _ _ _
    | false => exact hb.generic _ _ _ _ _ _
  refine ⟨{ g with
    registers := { g.registers with rax := r.1 }
    shared := r.2
    calls := g.calls ++ [.called (g.hookCurrent, hook) r.1] }, .single ?_, ⟨rfl, hr.2⟩, rfl⟩
  simp only [step, hh]
  change (if hook = 0#64 then _ else if r.1 = 0#64 then _ else _) = _
  rw [if_neg hn, if_pos hr.1]
  rfl

/-- What the loop leaves in the slots, from an index on. -/
theorem loop_slots (hb : b.Quiet primary) (hooks : List Address) (types : List ℤ) (f : Frame W)
    (i : ℕ) (hh : c.hook.drop i = hooks) (ht : c.hookType.drop i = types)
    (hl : hooks.length = types.length)
    (hz : 0 ∈ types) (hi : f.hookCurrent + 1 = i) (hp : f.hookTypeCurrent = phase.value) :
    ∃ f', Reaches b c (.loop, f) (.loopDone, f') ∧
      Passes primary f (handed c (reached phase (entriesFrom i (hooks.zip types)))
        f.shared.threadReturn) f' := by
  induction types generalizing hooks f i with
  | nil => simp at hz
  | cons type types ih =>
    cases hooks with
    | nil => simp at hl
    | cons hook hooks =>
      obtain ⟨htype, hts⟩ := drop_cons ht
      obtain ⟨hhook, hhs⟩ := drop_cons hh
      have htail : ∀ g : Frame W, g.hookCurrent = i → g.hookTypeCurrent = phase.value → 0 ∈ types →
          ∃ f', Reaches b c (.loop, g) (.loopDone, f') ∧ Passes primary g
            (handed c (reached phase (entriesFrom (i + 1) (hooks.zip types)))
              g.shared.threadReturn) f' := by
        intro g hg hgp hz
        exact ih hooks g (i + 1) hhs hts (by simpa using hl) hz (by simp [hg]) hgp
      have hscan : Passes primary f f.shared.threadReturn f.scan := ⟨rfl, rfl⟩
      rw [List.zip_cons_cons, entriesFrom]
      by_cases h₀ : type = 0
      · subst h₀
        exact ⟨f.scan, loop_end b c hi htype, hscan⟩
      have hz' : 0 ∈ types := by simpa [Ne.symm h₀] using hz
      cases hs : phase.skips type with
      | true =>
        obtain ⟨f', hr, hf⟩ := htail f.scan hi hp hz'
        refine ⟨f', .trans (loop_skip b c phase hi htype hp h₀ hs) hr, ?_⟩
        simp only [reached, if_neg h₀, hs, if_true]
        exact hscan.trans hf
      | false =>
        obtain ⟨specific, g, hg, hfg, hcur⟩ :=
          enter_slots b c primary (f := f.scan) ⟨i, hook, type⟩ h₀
        have hindex : g.hookCurrent = i := hcur.trans hi
        have hload : load c.hook g.hookCurrent = .ok hook := by
          simp [hindex, load, hhook]
        have henter := (loop_enter b c phase hi htype hp h₀ hs).trans hg
        have hslot : g.shared.threadReturn = handed c [⟨i, hook, type⟩] f.shared.threadReturn :=
          congrArg Prod.snd hfg.slots
        simp only [reached, if_neg h₀, hs, Bool.false_eq_true, if_false]
        by_cases hn : hook = 0#64
        · subst hn
          obtain ⟨f', hf', hl'⟩ := call_null_slots b c primary specific hload
          rw [if_pos rfl]
          exact ⟨f', henter.trans hf', hscan.trans (hfg.trans (hslot ▸ hl'))⟩
        · obtain ⟨g', hg', hl', hcur'⟩ := call_slots b c primary hb specific hload hn
          obtain ⟨f', hr, hf⟩ :=
            htail g' (hcur'.trans hindex) (hl'.phase.trans (hfg.phase.trans hp)) hz'
          have hslot' : g'.shared.threadReturn = handed c [⟨i, hook, type⟩] f.shared.threadReturn :=
            (congrArg Prod.snd hl'.slots).trans hslot
          rw [hslot', ← handed_cons] at hf
          rw [if_neg hn]
          exact ⟨f', henter.trans (hg'.trans hr), hscan.trans (hfg.trans (hl'.trans hf))⟩

end Loop

private theorem phase_slots (b : Behaviour W) (c : Clone) (phase : Phase) (primary : W → BitVec 64)
    (f : Frame W) (hb : b.Quiet primary) (hl : c.hook.length = c.hookType.length)
    (hz : 0 ∈ c.hookType)
    (hp : f.hookTypeCurrent = phase.value) : ∃ f', Reaches b c (.postRun, f) (.loopDone, f') ∧
      Passes primary f (handed c (reached phase c.entries) f.shared.threadReturn) f' := by
  obtain ⟨f', hr, hf⟩ :=
    loop_slots b c phase primary hb c.hook c.hookType { f with hookCurrent := -1 } 0 rfl rfl
    hl hz rfl hp
  exact ⟨f', .head rfl hr, hf.phase, hf.slots⟩

/-- The handler calls the original with these slots and leaves those of the direct
call from there, with the clone in the second slot where a later hook was handed it. -/
structure Hands (primary : W → BitVec 64) (b : Behaviour W) (c : Clone)
    (f f₂ f' : Frame W) : Prop where
  called : Reaches b c (.handler, f) (.loopDone, f₂) ∧ f₂.hookTypeCurrent = 0
  returned : Reaches b c (.loopDone, f₂) (.ret, f')
  before : returnSlots primary f₂.shared =
    (primary f.shared.world, handed c (reached .pre c.entries) f.shared.threadReturn)
  after : returnSlots primary f'.shared =
    (primary (b.original f₂.shared.arguments f₂.shared).2.world,
      handed c (reached .post c.entries) (b.original f₂.shared.arguments f₂.shared).2.threadReturn)

theorem handler_hands (primary : W → BitVec 64) (b : Behaviour W) (c : Clone) (f : Frame W)
    (hb : b.Quiet primary) (hl : c.hook.length = c.hookType.length) (hz : 0 ∈ c.hookType) :
    ∃ f₂ f', Hands primary b c f f₂ f' := by
  let f₁ : Frame W :=
    { f with shared := { f.shared with arguments := f.registers }, hookTypeCurrent := 0 }
  obtain ⟨f₂, hr, hf⟩ := phase_slots b c .pre primary f₁ hb hl hz rfl
  have hphase : f₂.hookTypeCurrent = 0 := hf.phase
  let r := b.original f₂.shared.arguments f₂.shared
  let f₃ : Frame W := { f₂ with
    registers := f₂.shared.arguments
    hookTypeCurrent := 1
    shared := { r.2 with returns := r.1 }
    calls := f₂.calls ++ [.original] }
  have horiginal : step b c .loopDone f₂ = .ok (.postRun, f₃) := by
    simp [step, hphase, f₃, r]
  obtain ⟨f₄, hr', hf'⟩ := phase_slots b c .post primary f₃ hb hl hz rfl
  have hphase' : f₄.hookTypeCurrent = 1 := hf'.phase
  have hdone : step b c .loopDone f₄ =
      .ok (.callDone, { f₄ with registers := f₄.shared.arguments, hookTypeCurrent := 1 }) := by
    simp [step, hphase']
  exact ⟨f₂, _, ⟨.head rfl hr, hphase⟩, .head horiginal (hr'.trans (.head hdone (.single rfl))),
    hf.slots, hf'.slots⟩

/-- The slots after the handler are those of a direct call of the original, made
where the handler makes it, from the slots that the thread had. -/
def LeavesSlots (primary : W → BitVec 64) (b : Behaviour W) (c : Clone) (f : Frame W) : Prop :=
  ∃ f₂ f', Reaches b c (.handler, f) (.loopDone, f₂) ∧ f₂.hookTypeCurrent = 0 ∧
    Reaches b c (.loopDone, f₂) (.ret, f') ∧ primary f₂.shared.world = primary f.shared.world ∧
    returnSlots primary f'.shared = returnSlots primary
      (b.original f₂.shared.arguments { f₂.shared with threadReturn := f.shared.threadReturn }).2

theorem handed_of_nonneg (c : Clone) {entries : List Entry} (h : ∀ e ∈ entries, 0 ≤ e.type)
    (slot : BitVec 64) :
    handed c entries slot = slot := by
  refine if_neg ?_
  rw [List.any_eq_true]
  rintro ⟨e, he, hneg⟩
  have hnonneg := h e he
  have hneg : e.type < 0 := by simpa using hneg
  omega

theorem Hands.leavesSlots {primary : W → BitVec 64} {b : Behaviour W} {c : Clone}
    {f f₂ f' : Frame W} (h : Hands primary b c f f₂ f')
    (hc : ∀ phase, ∀ e ∈ reached phase c.entries, 0 ≤ e.type) :
    LeavesSlots primary b c f := by
  have hbefore := h.before
  have hafter := h.after
  rw [handed_of_nonneg c (hc .pre)] at hbefore
  rw [handed_of_nonneg c (hc .post)] at hafter
  have hslot : f₂.shared.threadReturn = f.shared.threadReturn := congrArg Prod.snd hbefore
  have hshared : { f₂.shared with threadReturn := f.shared.threadReturn } =
    f₂.shared := by rw [← hslot]
  refine ⟨f₂, f', h.called.1, h.called.2, h.returned, congrArg Prod.fst hbefore, ?_⟩
  rw [hshared]
  exact hafter

private theorem quiet_isQuiet : quiet.Quiet (fun _ => 0#64) :=
  ⟨fun _ _ _ _ _ => ⟨rfl, rfl⟩, fun _ _ _ _ _ _ => ⟨rfl, rfl⟩⟩

def enteredWith (slot : BitVec 64) : Frame Unit :=
  { entered with shared := { entered.shared with threadReturn := slot } }

theorem handed_handed (c : Clone) (entries entries' : List Entry) (slot : BitVec 64)
    (h : ∃ e ∈ entries ++ entries', e.type < 0) :
    handed c entries' (handed c entries slot) = c.address := by
  obtain ⟨e, he, hneg⟩ := h
  rcases List.mem_append.mp he with he | he
  · have hany : entries.any (fun e => e.type < 0) = true :=
      List.any_eq_true.mpr ⟨e, he, by simpa using hneg⟩
    simp [handed, hany]
  · have hany : entries'.any (fun e => e.type < 0) = true :=
      List.any_eq_true.mpr ⟨e, he, by simpa using hneg⟩
    simp [handed, hany]

/-- With hooks and an original that do nothing the clone stays in the slot. -/
theorem not_leavesSlots (c : Clone) (hl : c.hook.length = c.hookType.length) (hz : 0 ∈ c.hookType)
    (h : ∃ e ∈ reached .pre c.entries ++ reached .post c.entries, e.type < 0) (slot : BitVec 64)
    (hslot : slot ≠ c.address) :
    ¬LeavesSlots (fun _ => 0#64) quiet c (enteredWith slot) := by
  rintro ⟨g₂, g', hg, -, hg', -, hslots⟩
  obtain ⟨f₂, f', hf⟩ :=
    handler_hands (fun _ => 0#64) quiet c (enteredWith slot) quiet_isQuiet hl hz
  obtain rfl := Reaches.ret_unique (hg.trans hg') (hf.called.1.trans hf.returned)
  have hfinal : g'.shared.threadReturn = c.address := by
    have hbefore : f₂.shared.threadReturn = handed c (reached .pre c.entries) slot :=
      congrArg Prod.snd hf.before
    have hafter : g'.shared.threadReturn =
      handed c (reached .post c.entries) f₂.shared.threadReturn :=
      congrArg Prod.snd hf.after
    rw [hafter, hbefore, handed_handed c _ _ _ h]
  have hdirect : g'.shared.threadReturn = slot := congrArg Prod.snd hslots
  exact hslot (hdirect.symm.trans hfinal)

/-- With hooks that go on and do not write the thread, the original runs with the
first slot as it was and the second one as the hooks in front of it were handed
it, and the slots it leaves stay but for the clone that a later hook is handed. So
the handler leaves the slots alone, whatever the hooks and the original do, exactly
when it reaches no entry of a negative type. -/
theorem handler_returnSlots (c : Clone) (hl : c.hook.length = c.hookType.length)
    (hz : 0 ∈ c.hookType) :
    (∀ (W : Type) (primary : W → BitVec 64) (b : Behaviour W) (f : Frame W), b.Quiet primary →
      ∃ f₂ f', Hands primary b c f f₂ f') ∧
    ((∀ (W : Type) (primary : W → BitVec 64) (b : Behaviour W) (f : Frame W), b.Quiet primary →
      LeavesSlots primary b c f) ↔ ∀ phase, ∀ e ∈ reached phase c.entries, 0 ≤ e.type) := by
  refine ⟨fun W primary b f hb => handler_hands primary b c f hb hl hz, fun h phase e he => ?_,
    fun h W primary b f hb => ?_⟩
  · by_contra hneg
    have hmem : e ∈ reached .pre c.entries ++ reached .post c.entries := by
      cases phase with
      | pre => exact List.mem_append_left _ he
      | post => exact List.mem_append_right _ he
    have hne : c.address + 1#64 ≠ c.address := by simp
    exact not_leavesSlots c hl hz ⟨e, hmem, by omega⟩ _ hne (h Unit _ quiet _ quiet_isQuiet)
  · obtain ⟨f₂, f', hf⟩ := handler_hands primary b c f hb hl hz
    exact hf.leavesSlots h

theorem handler_returnSlots_genericBoth :
    (∀ phase, ∀ e ∈ reached phase (smallClone [(1, .genericBoth)]).entries, 0 ≤ e.type) ∧
      LeavesSlots (fun _ => 0#64) quiet (smallClone [(1, .genericBoth)]) entered := by
  have h : ∀ phase, ∀ e ∈ reached phase (smallClone [(1, .genericBoth)]).entries, 0 ≤ e.type := by
    intro phase
    cases phase <;> decide
  exact ⟨h, (handler_returnSlots (smallClone [(1, .genericBoth)]) (by decide) (by decide)).2.mpr h
    _ _ _ _ quiet_isQuiet⟩

/-- Behind a hook of type `PRE` the address of the clone is in the second slot. -/
theorem pre_hook_leaves_clone :
    (∃ f', Reaches quiet (smallClone [(1, .pre)]) (.handler, entered) (.ret, f') ∧
      entered.shared.threadReturn = 0#64 ∧
      f'.shared.threadReturn = (smallClone [(1, .pre)]).address) ∧
    ¬LeavesSlots (fun _ => 0#64) quiet (smallClone [(1, .pre)]) entered := by
  refine ⟨?_, not_leavesSlots (smallClone [(1, .pre)]) (by decide) (by decide)
    (by decide) 0#64 (by decide)⟩
  obtain ⟨f₂, f', hf⟩ :=
    handler_hands (fun _ => 0#64) quiet (smallClone [(1, .pre)]) entered quiet_isQuiet
    (by decide) (by decide)
  have hbefore : f₂.shared.threadReturn = (smallClone [(1, .pre)]).address :=
    congrArg Prod.snd hf.before
  have hafter : f'.shared.threadReturn = f₂.shared.threadReturn := congrArg Prod.snd hf.after
  exact ⟨f', hf.called.1.trans hf.returned, rfl, hafter.trans hbefore⟩

end Ps4Sdk.FunctionHookHandler
