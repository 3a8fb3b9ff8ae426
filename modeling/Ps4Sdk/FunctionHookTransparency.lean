import Ps4Sdk.FunctionHookReturn

/-!
# Hooked functions as their callers see them

The handler compares the whole of `rax` with zero when a hook returns, but a hook returns
an `int` and says nothing about the upper half. With hooks that continue, a call is the
same as without hooks unless one of them leaves a negative `rax` before the original.
-/

namespace Ps4Sdk.FunctionHookAssembly
open ByteMemory AssemblyMachines

namespace HookedCall

variable {env : Environment Label} {Q : Config Label → Prop} {v : View} {m mc : Bytes}
  {h : HookedCall} {b : Blocks} {phase : Option Machine} {calls : List (Called Label)}

/-- Back at the caller, and the call was transparent as far as the hooks have let it be. -/
def Returns (h : HookedCall) (c : Config Label) : Prop :=
  c.control = .outside (wordAt h.entry.memory (h.entry.register .rsp)) ∧
    (h.Transparent c ↔ NoneNegative c)

/-! ### The calls of a run -/

private theorem hookCalls_filter {new : List (Called Label)}
    (hnew : ∀ call ∈ new, HookCall phase call) :
    new.filter (fun call => call.instruction = .callMemory 88 .r12) = [] := by
  refine List.filter_eq_nil_iff.mpr (fun call hcall => ?_)
  rw [(hnew call hcall).1]
  decide

private theorem otherCall_filter {call : Called Label} {i : ℕ}
    (hcall : call.instruction = .callMemory i .r11) :
    [call].filter (fun call => call.instruction = .callMemory 88 .r12) = [] := by
  simp [List.filter, hcall]

theorem bridgeCalls_called {c : Config Label} {first bridge last : Called Label}
    {before after : List (Called Label)} {left : Machine}
    (hcalls : c.calls = [first] ++ before ++ [bridge] ++ after ++ [last])
    (hfirst : first.instruction = .callMemory 0 .r11)
    (hbefore : ∀ call ∈ before, HookCall none call)
    (hbridge : bridge.instruction = .callMemory 88 .r12)
    (hafter : ∀ call ∈ after, HookCall (some left) call)
    (hlast : last.instruction = .callMemory 48 .r11) : bridgeCalls c = [bridge] := by
  have hone : [bridge].filter (fun call => call.instruction = .callMemory 88 .r12) = [bridge] := by
    simp [List.filter, hbridge]
  rw [bridgeCalls, hcalls, List.filter_append, List.filter_append, List.filter_append,
    List.filter_append, otherCall_filter hfirst, hookCalls_filter hbefore, hone,
    hookCalls_filter hafter, otherCall_filter hlast]
  rfl

private theorem bridgeCalls_skipped {c : Config Label} {first last : Called Label}
    {before : List (Called Label)} (hcalls : c.calls = [first] ++ before ++ [last])
    (hfirst : first.instruction = .callMemory 0 .r11)
    (hbefore : ∀ call ∈ before, HookCall none call)
    (hlast : last.instruction = .callMemory 48 .r11) :
    bridgeCalls c = [] := by
  rw [bridgeCalls, hcalls, List.filter_append, List.filter_append, otherCall_filter hfirst,
    hookCalls_filter hbefore, otherCall_filter hlast]
  rfl

theorem noneNegative_called {c : Config Label} {first bridge last : Called Label}
    {before after : List (Called Label)} {left : Machine}
    (hcalls : c.calls = [first] ++ before ++ [bridge] ++ after ++ [last])
    (hfirst : first.instruction = .callMemory 0 .r11)
    (hbefore : ∀ call ∈ before, HookCall none call ∧ 0 ≤ (call.left.register .rax).toInt)
    (hbridge : bridge.instruction = .callMemory 88 .r12)
    (hafter : ∀ call ∈ after, HookCall (some left) call)
    (hlast : last.instruction = .callMemory 48 .r11) : NoneNegative c := by
  intro call hcall hpre
  rw [hcalls] at hcall
  simp only [List.mem_append, List.mem_singleton] at hcall
  rcases hcall with (((rfl | hcall) | rfl) | hcall) | rfl
  · rw [hpre.1] at hfirst
    cases hfirst
  · exact (hbefore call hcall).2
  · rw [hpre.1] at hbridge
    cases hbridge
  · exact absurd ((hafter call hcall).2.mp hpre.2) (by simp)
  · rw [hpre.1] at hlast
    cases hlast

theorem resumed_of_yields {s left : Machine} {kept : List Range} {t : ℕ}
    (hs : Stays (h.frame (h.entry.register .r12) 208) s.toView) (hy : Yields (some left) s.toView) :
    h.ResumedAsUnhooked ⟨.outside (wordAt h.entry.memory (h.entry.register .rsp)), s, kept, t,
      calls⟩ left where
  control := rfl
  rax := View.register_of_bytes (hy left rfl (.register .rax, 0) (by decide))
  rdx := View.register_of_bytes (hy left rfl (.register .rdx, 8) (by decide))
  xmm0 := View.vector_of_bytes (hy left rfl (.vector 0, 16) (by decide))
  xmm1 := View.vector_of_bytes (hy left rfl (.vector 1, 32) (by decide))
  rsp := by
    refine (rsp_of_stays hs).trans ?_
    rw [rsp_entry]
    exact (offset_add h.low 200 8).symm
  saved r hr := by
    by_cases hr12 : r = .r12
    · rw [hr12]
      exact r12_of_stays hs
    · exact saved_of_stays hs hr hr12

/-! ### The two ways through the handler -/

section
variable (hv : h.Valid env) (ht : h.Taken env b mc)
include hv ht

/-- After the original both ways out of the rounds lead back to the caller. -/
theorem exits_after {first bridge : Called Label} {before : List (Called Label)}
    (hfirst : first.instruction = .callMemory 0 .r11)
    (hbefore : ∀ call ∈ before, HookCall none call ∧ 0 ≤ (call.left.register .rax).toInt)
    (hbridge : bridge.instruction = .callMemory 88 .r12) (hentered : h.EnteredAsUnhooked bridge) :
    h.Exits env b mc (some bridge.left) h.Returns ([first] ++ before ++ [bridge]) := by
  have hreturns : ∀ v m current new, Stays (h.frame b.clone 208) v →
    h.Handling b mc (some bridge.left) current m →
      (∀ call ∈ new, HookCall (some bridge.left) call) →
        Goes env (h.kept ++ b.ranges) ([first] ++ before ++ [bridge] ++ new) h.Returns callDone v
          (h.Owned b (some bridge.left)) m := by
    intro v m current new hs hm hnew
    refine goes_callDone hv ht hm hs (fun last s kept t hlast hs hy => ⟨rfl, iff_of_true ?_ ?_⟩)
    · exact ⟨bridge, bridgeCalls_called rfl hfirst (fun call hcall => (hbefore call hcall).1)
        hbridge hnew hlast, hentered, resumed_of_yields hs hy⟩
    · exact noneNegative_called rfl hfirst hbefore hbridge hnew hlast
  refine ⟨fun v m current new hs hm hnew => ?_, fun v m current new hs hm hnew _ => hreturns v m
    current new hs hm hnew⟩
  refine goes_loopDone hv ht hm hs (fun hnone => by cases hnone) (fun _ v hs => ?_)
  refine hreturns v _ current new hs (hm.put ht.new (by omega) (by omega)
    (fun x hx => putWord_outside hx) ?_ (wordAt_putWord _ _ _))
    (fun call hcall => (hnew call hcall).1)
  rw [wordAt_putWord_apart (apart_offsets (by omega) (by omega) (by omega)), hm.hookCurrent]

/-- The original is called, with the rounds after it to follow. -/
theorem goes_original {current : Word} (hm : h.Handling b mc none current m)
    (hs : Stays (h.frame b.clone 208) v) (hnext : ∀ call, call.instruction = .callMemory 88 .r12 →
      h.EnteredAsUnhooked call → h.Exits env b mc (some call.left) Q (calls ++ [call])) :
    Goes env (h.kept ++ b.ranges) calls Q loopDone v (h.Owned b none) m := by
  refine goes_loopDone hv ht hm hs (fun _ v hs hc => ?_) (fun hne => absurd rfl hne)
  have haddress : v.operand 88 .r12 = b.clone + BitVec.ofNat 64 88 :=
    congrArg (· + _) (r12_of_stays hs)
  refine goes_callMemory hv.quiet (w := h.bridge) ?_ ?_ (fun m' t hm' => ?_)
  · rw [haddress]
    exact owned_field (by omega)
  · rw [haddress, wordAt_putWord_apart (apart_offsets (by omega) (by omega) (by omega)),
      field_of_handling hm (by omega) (by omega)]
    exact ht.clone.bridge
  · refine leads_bridge hv ht hm hs hc hm' (fun call hcall hentered hs => ?_)
    exact goes_loopReturned hv ht hm hs (hnext call hcall hentered)

/-- Before the original one way leads to the bridge, and the other past it. -/
theorem exits_before {first : Called Label} (hfirst : first.instruction = .callMemory 0 .r11) :
    h.Exits env b mc none h.Returns [first] := by
  refine ⟨fun v m current new hs hm hnew => ?_, fun v m current new hs hm hnew hneg => ?_⟩
  · exact goes_original hv ht hm hs (fun call hcall hentered => exits_after hv ht hfirst hnew hcall
      hentered)
  · refine goes_callDone hv ht hm hs (fun last s kept t hlast hs _ => ⟨rfl, iff_of_false ?_ ?_⟩)
    · rintro ⟨call, hcall, -⟩
      rw [bridgeCalls_skipped rfl hfirst hnew hlast] at hcall
      cases hcall
    · obtain ⟨call, hcall, hlt⟩ := hneg
      intro hnone
      have hmem : call ∈ [first] ++ new ++ [last] := by simp [hcall]
      exact absurd (hnone call hmem ⟨(hnew call hcall).1, (hnew call hcall).2.mpr rfl⟩)
        (not_le.mpr hlt)

/-- A hook that leaves a negative `rax` is called. -/
theorem goes_refusedCall (hsize : 0 < b.size) (hhook : b.hookAt mc 0 ≠ 0#64)
    (hneg : ∀ t s,
      ((env.callee t (h.kept ++ b.ranges) (b.hookAt mc 0) s).1.register .rax).toInt < 0)
    (hm : h.Handling b mc none (BitVec.ofNat 64 0) m) (hs : Stays (h.frame b.clone 208) v)
    (hreturns : ∀ v m current call, Stays (h.frame b.clone 208) v → h.Handling b mc none current m →
      HookCall none call →
      Goes env (h.kept ++ b.ranges) (calls ++ [call]) Q callDone v (h.Owned b none) m) :
    Goes env (h.kept ++ b.ranges) calls Q loopCall v (h.Owned b none) m := by
  have hq := hv.quiet
  refine goes_element hv hm hs (by omega) (by omega) ht.clone.hook
    (fun x hx => static_hook hsize hx) rfl ?_
  have hs₁ := (((hs.set (by decide : Register.r11 ∉ _) b.hook).set (by decide : Register.r8 ∉ _)
    (BitVec.ofNat 64 0)).set (by decide : Register.r11 ∉ _) (b.hookAt mc 0)).compared
    (b.hookAt mc 0).toInt 0
  have hint : (b.hookAt mc 0).toInt ≠ 0 := fun hzero => hhook (BitVec.eq_of_toInt_eq hzero)
  refine goes_registers hq rfl (fun _ => rfl) rfl (goes_jumpIf hq rfl
    (fun hzero => absurd hzero hint) (fun _ => goes_call hq (fun m' t hm' => ?_)))
  refine leads_call hv ht hsize hm hs₁ hhook hm' (fun call hcall hleft hs => ?_)
  obtain ⟨t, hleft⟩ := hleft
  have hrax : (call.left.register .rax).toInt < 0 := hleft ▸ hneg t call.entered
  refine goes_registers hq rfl (fun _ => rfl) rfl (goes_jumpIf hq rfl (fun hzero => ?_) (fun _ =>
    goes_jumpIf hq rfl (fun hgreater => ?_) (fun _ => goes_jump hq ?_)))
  · exact absurd hzero hrax.ne
  · exact absurd hgreater (not_lt.mpr hrax.le)
  · rw [hv.code]
    exact hreturns _ m _ call (hs.compared _ _) hm hcall

/-- The first entry is a generic hook for the time before the original, and it leaves a negative
`rax`. -/
theorem goes_refused (hsize : 0 < b.size) (htype : b.typeAt mc 0 = 1#64)
    (hhook : b.hookAt mc 0 ≠ 0#64) (hneg : ∀ t s, ((env.callee t (h.kept ++ b.ranges)
      (b.hookAt mc 0) s).1.register .rax).toInt < 0)
    (hm : h.Handling b mc none (BitVec.ofNat 64 0 - 1) m) (hs : Stays (h.frame b.clone 208) v)
    (hreturns : ∀ v m current call, Stays (h.frame b.clone 208) v → h.Handling b mc none current m →
      HookCall none call →
      Goes env (h.kept ++ b.ranges) (calls ++ [call]) Q callDone v (h.Owned b none) m) :
    Goes env (h.kept ++ b.ranges) calls Q loop v (h.Owned b none) m := by
  have hq := hv.quiet
  have hm₁ := hm.setCurrent ht.new (BitVec.ofNat 64 0)
  refine goes_increment hv hm hs (fun v hs => ?_)
  rw [BitVec.sub_add_cancel]
  have hphase : v.operand 144 .r12 = b.clone + BitVec.ofNat 64 144 :=
    congrArg (· + _) (r12_of_stays hs)
  refine goes_load hq (w := 0#64) (by decide) ?_ ?_ ?_
  · rw [hphase]
    exact owned_field (by omega)
  · rw [hphase, hm₁.hookTypeCurrent]
    rfl
  have hs₁ := hs.set (by decide : Register.rdi ∉ _) 0#64
  refine goes_element hv hm₁ hs₁ (by omega) (by omega) ht.clone.hookType
    (fun x hx => static_hookType hsize hx) htype ?_
  have hs₂ := ((hs₁.set (by decide : Register.r11 ∉ _) b.hookType).set (by decide : Register.r8 ∉ _)
    (BitVec.ofNat 64 0)).set (by decide : Register.r11 ∉ _) 1#64
  refine goes_registers hq rfl (fun _ => rfl) rfl (goes_jumpIf hq rfl
    (fun hzero => absurd hzero (by decide : (1#64).toInt ≠ 0)) (fun _ => ?_))
  refine goes_registers hq rfl (fun _ => rfl) rfl (goes_jumpIf hq rfl
    (fun hne => absurd (rfl : (0#64).toInt = (0#64).toInt) hne) (fun _ => ?_))
  refine goes_registers hq rfl (fun _ => rfl) rfl (goes_jumpIf hq rfl
    (fun hzero => absurd hzero (by decide : (1#64).toInt ≠ (0#64).toInt)) (fun _ => ?_))
  refine goes_registers hq rfl (fun _ => rfl) rfl (goes_jumpIf hq rfl
    (fun htwo => absurd htwo (by decide : (1#64).toInt ≠ (2#64).toInt)) (fun _ => goes_jump hq ?_))
  rw [hv.code]
  refine goes_registers hq rfl (fun _ => rfl) rfl (goes_jumpIf hq rfl (fun _ => ?_)
    (fun hgreater => absurd (by decide : (0#64).toInt < (1#64).toInt) hgreater))
  rw [hv.code]
  refine goes_registers hq rfl (fun _ => rfl) rfl (goes_registers hq rfl (fun _ => rfl) rfl ?_)
  refine goes_refusedCall hv ht hsize hhook hneg hm₁ ?_ hreturns
  exact (((((((hs₂.compared _ _).compared _ _).compared _ _).compared _ _).compared _ _).set
    (by decide) _).set (by decide) _)

end

/-- A first hook that leaves a negative `rax` keeps the original from being called. -/
theorem leads_refused (hv : h.Valid env)
    (hfirst : ∀ b m call, h.ClonedBy env b m call → 0 < b.size ∧ b.typeAt m 0 = 1#64 ∧
      b.hookAt m 0 ≠ 0#64 ∧
      ∀ t s, ((env.callee t (h.kept ++ b.ranges) (b.hookAt m 0) s).1.register .rax).toInt < 0) :
    Leads env h.start (fun c => c.control = .outside
      (wordAt h.entry.memory (h.entry.register .rsp)) ∧
      ¬h.Transparent c) := by
  refine leads_start hv (fun b v mc first hcloned hat => goes_handler hv hat
    (fun v m current hs hm => ?_))
  obtain ⟨hsize, htype, hhook, hneg⟩ := hfirst b mc first hcloned
  have ht := hat.taken
  refine goes_putKnown hv.quiet (b.clone + BitVec.ofNat 64 120) (-1) rfl (fun m' _ => ?_) rfl
    (goes_refused hv ht hsize htype hhook hneg (hm.setCurrent ht.new _) hs
      (fun v m current call hs hm hcall => ?_))
  · rw [perform, View.operand, r12_of_stays hs]
  · refine goes_callDone hv ht hm hs (fun last s kept t hlast hs _ => ⟨rfl, ?_⟩)
    rintro ⟨bridge, hbridge, -⟩
    rw [bridgeCalls_skipped rfl hcloned.instruction (fun c hc => List.mem_singleton.mp hc ▸ hcall)
      hlast] at hbridge
    cases hbridge

/-- With hooks that continue and leave the memory of the call alone, every call of a hooked function
comes back to its caller, and it is transparent exactly if no hook that is called before the
original leaves a negative `rax`. -/
theorem functionHook_transparent_iff (h : HookedCall) (env : Environment Label) (hv : h.Valid env) :
    ∃ n, (env.step^[n] h.start).control = .outside (wordAt h.entry.memory (h.entry.register .rsp)) ∧
      (h.Transparent (env.step^[n] h.start) ↔ NoneNegative (env.step^[n] h.start)) := by
  have hleads : Leads env h.start h.Returns := by
    refine leads_start hv (fun b v mc first hfirst hat => ?_)
    exact goes_handler hv hat (fun v m current hs hm =>
      goes_postRun hv hat.taken hm hs (exits_before hv hat.taken hfirst.instruction))
  exact hleads

/-! ### A call with one hook -/

def Below (r r' : Range) : Prop := r.1.toNat + r.2 ≤ r'.1.toNat ∧ r'.1.toNat + r'.2 ≤ 2 ^ 64

instance (r r' : Range) : Decidable (Below r r') := inferInstanceAs (Decidable (_ ∧ _))

theorem Below.apart {r r' : Range} (hr : Below r r') : Apart r.1 r.2 r'.1 r'.2 := by
  intro x hx hx'
  have hlt := hx.toNat_bounds (by have := hr.1; have := hr.2; omega)
  have hge := hx'.toNat_bounds hr.2
  have := hr.1
  omega

def oneHookBlocks : Blocks := ⟨0x2000, 0x3000, 0x4000, 0x5000, 0x6000, 2⟩

def oneHookImage : Bytes :=
  putWord (putWord (putWord (putWord (putWord (putWord (putWord (putWord (fun _ => 0)
    0x2030 0x500) 0x2040 0x3000) 0x2048 0x4000) 0x2058 0x400) 0x2068 0x5000) 0x2070 0x6000)
      0x5000 0x300) 0x6000 1

/-- What the clone function leaves: a clone with the generic hook `0x300` before the original. -/
def oneHookCloned (m : Bytes) : Bytes := fun x =>
  if oneHookBlocks.ranges.any (fun r => decide (Inside r.1 r.2 x)) then oneHookImage x else m x

/-- No other thread runs, and the hook leaves this `rax`. -/
def oneHookEnvironment (rax : Word) : Environment Label where
  code := code
  others _ _ s := s.memory
  callee _ kept target s :=
    if target = 0x100 then
      (⟨s.toView.popped.set .rax 0x2000, oneHookCloned s.memory⟩, kept ++ oneHookBlocks.ranges)
    else if target = 0x300 then (⟨s.toView.popped.set .rax rax, s.memory⟩, kept)
    else (⟨s.toView.popped, s.memory⟩, kept)
  address _ := 0
  label a := if a = 0x200 then some .handler else none
  top := 0x8018

def oneHookCall : HookedCall where
  entry :=
    { register := fun r => if r = .rsp then 0x8000 else 0
      vector := fun _ => 0
      flags := .eq
      thread := 0x9000
      memory := putWord (putWord (fun _ => 0) 0x1000 0x100) 0x1008 0x200 }
  stackArguments := 16
  handle := 0x1000
  clone := 0x100
  handler := 0x200
  bridge := 0x400
  epilogue := 0x500

theorem oneHook_new : oneHookCall.New oneHookBlocks where
  size := by decide
  apart := by
    have hbelow : oneHookBlocks.ranges.Pairwise Below := by decide
    exact hbelow.imp Below.apart
  stack r hr := by
    have hbelow : ∀ r ∈ oneHookBlocks.ranges, Below r (oneHookCall.low, oneHookCall.stackSize) := by
      decide
    exact (hbelow r hr).apart
  handle r hr := by
    have hbelow : ∀ r ∈ oneHookBlocks.ranges, Below (oneHookCall.handle, 192) r := by decide
    exact (hbelow r hr).apart.symm
  thread r hr := by
    have hbelow : ∀ r ∈ oneHookBlocks.ranges, Below r (oneHookCall.threadReturn, 8) := by decide
    exact (hbelow r hr).apart

private theorem oneHookCloned_cloned {x : Word} (hx : Cloned oneHookBlocks x) :
    oneHookCloned m x = oneHookImage x := by
  obtain ⟨r, hr, hx⟩ := hx
  exact if_pos (List.any_eq_true.mpr ⟨r, hr, decide_eq_true hx⟩)

private theorem oneHookCloned_other {x : Word} (hx : ¬Cloned oneHookBlocks x) :
    oneHookCloned m x = m x := by
  refine if_neg (fun hany => hx ?_)
  obtain ⟨r, hr, hin⟩ := List.any_eq_true.mp hany
  exact ⟨r, hr, of_decide_eq_true hin⟩

private theorem obeys_popped (s : Machine) (m : Bytes) : Obeys s ⟨s.toView.popped, m⟩ :=
  ⟨rfl, fun r hr => View.register_set_of_ne (fun he => by subst he; revert hr; decide), rfl⟩

theorem obeys_returned (s : Machine) (w : Word) (m : Bytes) :
    Obeys s ⟨s.toView.popped.set .rax w, m⟩ := by
  refine ⟨rfl, fun r hr => ?_, rfl⟩
  have hne : r ≠ .rax := by
    rintro rfl
    revert hr
    decide
  exact (View.register_set_of_ne hne).trans ((obeys_popped s m).saved r hr)

private theorem wordAt_oneHookCloned {a : Word} (ha : ∀ x, Inside a 8 x → Cloned oneHookBlocks x) :
    wordAt (oneHookCloned m) a = wordAt oneHookImage a :=
  wordAt_congr (fun x hx => oneHookCloned_cloned (ha x hx))

private theorem oneHook_continues {rax : Word} (hrax : rax.setWidth 32 = 0#32) (t : ℕ)
    (kept : List Range) (s : Machine) :
    Continues (oneHookEnvironment rax) t kept 0x300 s where
  obeys := obeys_returned s rax s.memory
  keeps := rfl
  memory _ _ := rfl
  control := hrax

theorem oneHook_cloneOf {rax : Word} (hrax : rax.setWidth 32 = 0#32) :
    oneHookCall.CloneOf (oneHookEnvironment rax) oneHookBlocks (oneHookCloned m) := by
  have hfield : ∀ i, i + 8 ≤ 192 →
    wordAt (oneHookCloned m) (oneHookBlocks.clone + BitVec.ofNat 64 i) =
      wordAt oneHookImage (oneHookBlocks.clone + BitVec.ofNat 64 i) :=
    fun i hi => wordAt_oneHookCloned (fun x hx => cloned_field hi hx)
  have hhook : ∀ i < 2, oneHookBlocks.hookAt (oneHookCloned m) i =
    oneHookBlocks.hookAt oneHookImage i :=
    fun i hi => wordAt_oneHookCloned (fun x hx => (static_hook hi hx).cloned)
  have htype : oneHookBlocks.typeAt (oneHookCloned m) 1 = oneHookBlocks.typeAt oneHookImage 1 :=
    wordAt_oneHookCloned (fun x hx =>
      (static_hookType (by decide : 1 < oneHookBlocks.size) hx).cloned)
  refine ⟨(hfield 48 (by omega)).trans (by decide), (hfield 64 (by omega)).trans (by decide),
    (hfield 72 (by omega)).trans (by decide), (hfield 88 (by omega)).trans (by decide),
    (hfield 104 (by omega)).trans (by decide), (hfield 112 (by omega)).trans (by decide),
    ⟨1, by decide, htype.trans (by decide)⟩, fun i hi hne t s _ _ => ?_⟩
  rw [hhook i hi] at hne ⊢
  obtain rfl | rfl : i = 0 ∨ i = 1 := by
    have : i < 2 := hi
    omega
  · exact oneHook_continues hrax t _ s
  · exact absurd (by decide) hne

private theorem oneHook_serves (rax : Word) :
    oneHookCall.Serves (oneHookEnvironment rax) oneHookBlocks where
  bridges _ s _ _ := ⟨obeys_popped s s.memory, rfl, fun _ _ => rfl⟩
  cleansUp _ s _ _ := ⟨obeys_popped s s.memory, fun _ _ => rfl⟩

theorem acquires_alone (halone : ∀ t kept s, env.others t kept s = s.memory)
    (hfree : wordAt (putWord (putWord h.entry.memory (h.handle + 16)
      (wordAt h.entry.memory (h.handle + 16) + 1)) (h.entry.register .rsp - 8)
      (h.entry.register .r12)) (h.handle + 184) = 0#64) :
    ∃ k, (env.step^[k] h.start).control = .inside prologueLocked := by
  have hstep : ∀ {i : Instruction Label} {rest : Code} {s : Machine} {t : ℕ}, i.straight = true →
      env.step ⟨.inside (i :: rest), s, h.kept, t, []⟩ =
        ⟨.inside rest, perform i s.toView s.memory, h.kept, t + 1, []⟩ := by
    intro i rest s t hi
    rw [step_straight hi, halone]
  refine ⟨7, ?_⟩
  change (env.step (env.step (env.step (env.step (env.step
    (env.step (env.step ⟨.inside (.moveImmediate h.handle .r11 :: .increment 16 .r11 :: .push
      .r12 :: .moveImmediate 1 .r12 :: .exchange .r12 184 .r11 :: .test .r12 ::
    .jumpIf .nonzero .prologueLoop :: prologueLocked), h.entry, h.kept, 0, []⟩))))))).control = _
  rw [hstep rfl, hstep rfl, hstep rfl, hstep rfl, hstep rfl, hstep rfl]
  change Control.inside (if Condition.nonzero.holds
    (compare (wordAt (putWord (putWord h.entry.memory (h.handle + 16)
      (wordAt h.entry.memory (h.handle + 16) + 1)) (h.entry.register .rsp - 8)
      (h.entry.register .r12))
    (h.handle + 184)).toInt 0) then _ else _) = _
  rw [hfree]
  rfl

theorem oneHook_valid {rax : Word} (hrax : rax.setWidth 32 = 0#32) :
    oneHookCall.Valid (oneHookEnvironment rax) where
  code := rfl
  quiet _ _ _ _ _ := rfl
  top := by
    change (0x8018 : Word) = _
    decide
  size := by decide
  clonePointer := by decide
  handlerPointer := by decide
  handler := rfl
  handle := by
    have hbelow : Below (oneHookCall.handle, 192) (oneHookCall.low, oneHookCall.stackSize) := by
      decide
    exact hbelow.apart
  thread := by
    have hbelow : Below (oneHookCall.low, oneHookCall.stackSize) (oneHookCall.threadReturn, 8) := by
      decide
    exact hbelow.apart.symm
  acquires := acquires_alone (fun _ _ _ => rfl) (by decide)
  clones t s hrdi hrsp _ := by
    refine ⟨obeys_returned s _ _, fun x hx => ?_, ⟨oneHookBlocks, rfl, rfl, oneHook_new,
      oneHook_serves rax,
      oneHook_cloneOf hrax⟩⟩
    have hrsp' : (s.toView.popped.set .rax 0x2000).register .rsp =
      oneHookCall.low + BitVec.ofNat 64 8 :=
      congrArg (· + 8) hrsp
    have htop : (0x8018 : Word) = oneHookCall.low + BitVec.ofNat 64 oneHookCall.stackSize := by
      decide
    refine oneHookCloned_other (fun hcloned => ?_)
    rcases (kept_offset htop (by decide) hrsp' (by decide)).mp hx with ⟨r, hr, hin⟩ | hstack
    · rw [List.mem_singleton.mp hr] at hin
      exact oneHook_new.not_handle hcloned (hin.mono (by decide))
    · exact oneHook_new.not_stack hcloned hstack

theorem blocks_of_ranges {b b' : Blocks} (hb : b.ranges = b'.ranges) : b = b' := by
  obtain ⟨clone, arguments, returns, hook, hookType, size⟩ := b
  obtain ⟨clone', arguments', returns', hook', hookType', size'⟩ := b'
  simp only [Blocks.ranges, List.cons.injEq, Prod.mk.injEq, and_true] at hb
  obtain ⟨rfl, rfl, rfl, ⟨rfl, hsize⟩, rfl, -⟩ := hb
  rw [Nat.eq_of_mul_eq_mul_left (by decide) hsize]

theorem functionHook_transparent_iff_oneHook :
    (0#64).setWidth 32 = 0#32 ∧
      ∃ n, ((oneHookEnvironment 0).step^[n] oneHookCall.start).control =
        .outside (wordAt oneHookCall.entry.memory 0x8000) ∧
        (oneHookCall.Transparent ((oneHookEnvironment 0).step^[n] oneHookCall.start) ↔
          NoneNegative ((oneHookEnvironment 0).step^[n] oneHookCall.start)) :=
  ⟨rfl, functionHook_transparent_iff oneHookCall (oneHookEnvironment 0) (oneHook_valid rfl)⟩

/-- The hook returns `CONTINUE` as an `int`, with the upper bit of `rax` set, and the original is
not called. -/
theorem functionHook_original_skipped :
    oneHookCall.Valid (oneHookEnvironment 0x8000000000000000) ∧
      ∃ n, ((oneHookEnvironment 0x8000000000000000).step^[n] oneHookCall.start).control =
          .outside (wordAt oneHookCall.entry.memory 0x8000) ∧
        ¬oneHookCall.Transparent ((oneHookEnvironment 0x8000000000000000).step^[n]
          oneHookCall.start) := by
  refine ⟨oneHook_valid (by decide), leads_refused (oneHook_valid (by decide))
    (fun b m call hcloned => ?_)⟩
  obtain ⟨t, hresult⟩ := hcloned.result
  have hb : b = oneHookBlocks :=
    blocks_of_ranges (List.append_cancel_left (congrArg Prod.snd hresult)).symm
  subst hb
  have hmemory : ∀ x, Static oneHookBlocks x → m x = oneHookImage x := by
    intro x hx
    rw [hcloned.static x hx, ← congrArg (fun r => r.1.memory) hresult]
    exact oneHookCloned_cloned hx.cloned
  have htype : oneHookBlocks.typeAt m 0 = 1#64 :=
    (wordAt_congr (fun x hx => hmemory x (static_hookType (by decide) hx))).trans (by decide)
  have hhook : oneHookBlocks.hookAt m 0 = 0x300#64 :=
    (wordAt_congr (fun x hx => hmemory x (static_hook (by decide) hx))).trans (by decide)
  refine ⟨by decide, htype, ?_, fun t s => ?_⟩
  · rw [hhook]
    decide
  · rw [hhook]
    change (0x8000000000000000#64).toInt < 0
    decide

end HookedCall

end Ps4Sdk.FunctionHookAssembly
