import Ps4Sdk.FunctionHookEntry

/-!
# The rounds of the function hook handler

The handler goes through the tables of the clone before and after the original, from one
entry to the next, until a type is zero or a hook ends the round.
-/

namespace Ps4Sdk.FunctionHookAssembly
open ByteMemory AssemblyMachines

namespace HookedCall

variable {env : Environment Label} {Q : Config Label → Prop} {v v' : View} {m m' mc : Bytes}
  {x w : Word} {h : HookedCall} {b : Blocks} {phase : Option Machine} {calls : List (Called Label)}
  {rest : Code} {i : ℕ}

/-! ### The memory of the handler -/

/-- The field `hookTypeCurrent` in a phase: before the original, or after it with what it left. -/
def phaseWord : Option Machine → Word
  | none => 0
  | some _ => 1

structure Handling (h : HookedCall) (b : Blocks) (mc : Bytes) (phase : Option Machine)
    (current : Word) (m : Bytes) :
    Prop where
  static : ∀ x, Static b x → m x = mc x
  taken : ∀ x, Inside (b.clone + BitVec.ofNat 64 24) 16 x → m x = mc x
  arguments : Holds m b.arguments parameters h.entry.toView
  hookCurrent : wordAt m (b.clone + BitVec.ofNat 64 120) = current
  hookTypeCurrent : wordAt m (b.clone + BitVec.ofNat 64 144) = phaseWord phase
  stack : phase = none → ∀ x, h.Stack 208 x → m x = h.entry.memory x
  returned : ∀ s ∈ phase, Holds m b.returns returns s.toView

theorem cloned_arguments (hx : Inside b.arguments 184 x) : Cloned b x :=
  ⟨(b.arguments, 184), by simp [Blocks.ranges], hx⟩

theorem cloned_returns (hx : Inside b.returns 48 x) : Cloned b x :=
  ⟨(b.returns, 48), by simp [Blocks.ranges], hx⟩

/-- The memory stays so while only a field behind `hookType` is changed. -/
theorem Handling.put {current current' : Word} (hm : h.Handling b mc phase current m) (hn : h.New b)
    {j : ℕ} (hj : 120 ≤ j) (hj' : j + 8 ≤ 192) (hm' : ∀ x,
      ¬Inside (b.clone + BitVec.ofNat 64 j) 8 x → m' x = m x)
    (hcurrent : wordAt m' (b.clone + BitVec.ofNat 64 120) = current')
    (htype : wordAt m' (b.clone + BitVec.ofNat 64 144) = phaseWord phase) :
    h.Handling b mc phase current' m' where
  static x hx := (hm' x (fun hin => hn.not_static (.inr hj) hj' hin hx)).trans (hm.static x hx)
  taken x hx := by
    refine (hm' x (fun hin => ?_)).trans (hm.taken x hx)
    rw [inside_offset (by omega)] at hx hin
    omega
  arguments := hm.arguments.congr (fun x hx => hm' x (fun hin =>
    hn.clone_apart (r := (b.arguments, 184)) (by simp [Blocks.ranges]) x (hin.of_add hj')
      (atSlot_parameters.mp hx)))
  hookCurrent := hcurrent
  hookTypeCurrent := htype
  stack hp x hx := (hm' x (fun hin => hn.not_stack (cloned_field hj' hin) hx)).trans
    (hm.stack hp x hx)
  returned s hs := (hm.returned s hs).congr (fun x hx => hm' x (fun hin =>
    hn.clone_apart (r := (b.returns, 48)) (by simp [Blocks.ranges]) x (hin.of_add hj')
      (atSlot_returns.mp hx)))

theorem Handling.setCurrent {current : Word} (hm : h.Handling b mc phase current m)
    (hn : h.New b) (w : Word) :
    h.Handling b mc phase w (putWord m (b.clone + BitVec.ofNat 64 120) w) := by
  refine hm.put hn (by omega) (by omega) (fun x hx => putWord_outside hx) (wordAt_putWord _ _ _) ?_
  rw [wordAt_putWord_apart (apart_offsets (by omega) (by omega) (by omega)), hm.hookTypeCurrent]

/-! ### Reading the clone -/

theorem field_of_handling {current : Word} (hm : h.Handling b mc phase current m) {j : ℕ}
    (hj : 48 ≤ j) (hj' : j + 8 ≤ 120) :
    wordAt m (b.clone + BitVec.ofNat 64 j) = wordAt mc (b.clone + BitVec.ofNat 64 j) :=
  wordAt_congr (fun x hx => hm.static x (static_field hj hj' hx))

theorem owned_field {j n : ℕ} (hj : j + n ≤ 192) :
    Covers (h.Owned b phase) (b.clone + BitVec.ofNat 64 j) n :=
  fun _ hx => .inl (cloned_field hj hx)

private theorem element_address (a : Word) (i : ℕ) :
    a + BitVec.ofNat 64 i * 8 = a + BitVec.ofNat 64 (8 * i) := by
  rw [Nat.mul_comm, BitVec.ofNat_mul]
  rfl

section
variable (hv : h.Valid env)
include hv

theorem goes_field {current : Word} (hm : h.Handling b mc phase current m)
    (hs : Stays (h.frame b.clone 208) v) {j : ℕ} {r : Register} (hj : 48 ≤ j)
    (hj' : j + 8 ≤ 120) (hr : r ≠ .rsp)
    (hw : wordAt mc (b.clone + BitVec.ofNat 64 j) = w)
    (hnext : Goes env (h.kept ++ b.ranges) calls Q rest (v.set r w) (h.Owned b phase) m) :
    Goes env (h.kept ++ b.ranges) calls Q (.load j .r12 r :: rest) v (h.Owned b phase) m := by
  have haddress : v.operand j .r12 = b.clone + BitVec.ofNat 64 j :=
    congrArg (· + _) (r12_of_stays hs)
  refine goes_load hv.quiet hr ?_ ?_ hnext
  · rw [haddress]
    exact owned_field (by omega)
  · rw [haddress, field_of_handling hm hj hj', hw]

/-- An entry of a table, at the place that the clone holds. -/
theorem goes_element (hm : h.Handling b mc phase (BitVec.ofNat 64 i) m)
    (hs : Stays (h.frame b.clone 208) v) {j : ℕ} {a : Word} (hj : 48 ≤ j) (hj' : j + 8 ≤ 120)
    (ha : wordAt mc (b.clone + BitVec.ofNat 64 j) = a)
    (hstatic : ∀ x, Inside (a + BitVec.ofNat 64 (8 * i)) 8 x → Static b x)
    (hw : wordAt mc (a + BitVec.ofNat 64 (8 * i)) = w)
    (hnext : Goes env (h.kept ++ b.ranges) calls Q rest
      (((v.set .r11 a).set .r8 (BitVec.ofNat 64 i)).set .r11 w) (h.Owned b phase) m) :
    Goes env (h.kept ++ b.ranges) calls Q
      (.load j .r12 .r11 :: .load 120 .r12 .r8 :: .loadElement .r11 .r8 .r11 :: rest) v
      (h.Owned b phase) m := by
  have hs₁ := hs.set (by decide : Register.r11 ∉ _) a
  have haddress : (v.set .r11 a).operand 120 .r12 = b.clone + BitVec.ofNat 64 120 :=
    congrArg (· + _) (r12_of_stays hs₁)
  have helement : ((v.set .r11 a).set .r8 (BitVec.ofNat 64 i)).register .r11 +
      ((v.set .r11 a).set .r8 (BitVec.ofNat 64 i)).register .r8 * 8 = a + BitVec.ofNat 64 (8 * i) :=
        element_address a i
  refine goes_field hv hm hs hj hj' (by decide) ha ?_
  refine goes_load hv.quiet (w := BitVec.ofNat 64 i) (by decide) ?_ ?_ ?_
  · rw [haddress]
    exact owned_field (by omega)
  · rw [haddress, hm.hookCurrent]
  refine goes_loadElement hv.quiet (by decide) ?_ ?_ hnext
  · rw [helement]
    exact fun x hx => .inl (hstatic x hx).cloned
  · rw [helement, wordAt_congr (fun x hx => hm.static x (hstatic x hx)), hw]

end

/-! ### The call of a hook -/

def HookCall (phase : Option Machine) (call : Called Label) : Prop :=
  call.instruction = .call .r11 ∧
    (wordAt call.entered.memory (call.entered.register .r12 + BitVec.ofNat 64 144) = 0#64 ↔
      phase = none)

/-- The two ways out of a round: to the end of the tables or by a hook that has not left a negative
`rax`, and by one that has. -/
structure Exits (h : HookedCall) (env : Environment Label) (b : Blocks) (mc : Bytes)
    (phase : Option Machine) (Q : Config Label → Prop) (calls : List (Called Label)) : Prop where
  done : ∀ v m current new, Stays (h.frame b.clone 208) v → h.Handling b mc phase current m →
    (∀ call ∈ new, HookCall phase call ∧ 0 ≤ (call.left.register .rax).toInt) →
      Goes env (h.kept ++ b.ranges) (calls ++ new) Q loopDone v (h.Owned b phase) m
  returns : ∀ v m current new, Stays (h.frame b.clone 208) v → h.Handling b mc phase current m →
    (∀ call ∈ new, HookCall phase call) → (∃ call ∈ new, (call.left.register .rax).toInt < 0) →
      Goes env (h.kept ++ b.ranges) (calls ++ new) Q callDone v (h.Owned b phase) m

theorem Exits.next (he : h.Exits env b mc phase Q calls) {call : Called Label}
    (hcall : HookCall phase call) (hrax : 0 ≤ (call.left.register .rax).toInt) :
    h.Exits env b mc phase Q (calls ++ [call]) where
  done v m current new hs hm hnew := by
    rw [List.append_assoc]
    refine he.done v m current _ hs hm (fun c hc => ?_)
    rcases List.mem_cons.mp hc with rfl | hc
    · exact ⟨hcall, hrax⟩
    · exact hnew c hc
  returns v m current new hs hm hnew hneg := by
    rw [List.append_assoc]
    refine he.returns v m current _ hs hm (fun c hc => ?_) ?_
    · rcases List.mem_cons.mp hc with rfl | hc
      · exact hcall
      · exact hnew c hc
    · obtain ⟨c, hc, hlt⟩ := hneg
      exact ⟨c, List.mem_cons_of_mem _ hc, hlt⟩

structure Round (h : HookedCall) (env : Environment Label) (b : Blocks) (mc : Bytes)
    (phase : Option Machine) (Q : Config Label → Prop) (i : ℕ) (m : Bytes) : Prop where
  place : i < b.size
  memory : h.Handling b mc phase (BitVec.ofNat 64 i) m
  loop : ∀ v calls, h.Exits env b mc phase Q calls → Stays (h.frame b.clone 208) v →
    Goes env (h.kept ++ b.ranges) calls Q loop v (h.Owned b phase) m

theorem New.not_owned (hn : h.New b) (hx : h.Stack 0 x) (hlt : (x - h.low).toNat < 208) :
    ¬h.Owned b phase x := by
  rintro (hc | ⟨-, hs⟩)
  · exact hn.not_stack hc hx
  · have hle := hs.1
    omega

section
variable (hv : h.Valid env)
include hv

theorem kept_of_owned (hs : Stays (h.frame b.clone 208) v) :
    ∀ x, h.Owned b phase x → Kept env.top (h.kept ++ b.ranges) v x := by
  rintro x (⟨r, hr, hx⟩ | ⟨-, hx⟩)
  · exact (kept_iff hv (rsp_of_stays hs) (by omega)).mpr (.inl ⟨r, List.mem_append_right _ hr, hx⟩)
  · exact (kept_iff hv (rsp_of_stays hs) (by omega)).mpr (.inr hx)

theorem agrees_entered (hn : h.New b) (hs : Stays (h.frame b.clone 208) v)
    (hm : Agrees (h.Owned b phase) mc m) :
    Agrees (h.Owned b phase) mc (putWord m (v.pushed.register .rsp) w) := by
  refine hm.put_elsewhere (fun x hx => ?_)
  rw [rsp_of_stays (stays_pushed hs (by omega))] at hx
  have hstack := stack_of_inside hv (by omega) hx
  rw [inside_offset (by omega)] at hx
  exact hn.not_owned (hstack.mono (by omega)) (by omega)

/-- What a hook leaves decides how the round goes on. -/
theorem goes_control {call : Called Label} (hr : h.Round env b mc phase Q i m)
    (hs : Stays (h.frame b.clone 208) v) (he : h.Exits env b mc phase Q calls)
    (hcall : HookCall phase call)
    (hrax : call.left.register .rax = v.register .rax) :
    Goes env (h.kept ++ b.ranges) (calls ++ [call]) Q
      (.compare 0 .rax :: .jumpIf .zero .loop :: .jumpIf .greater .loopDone ::
        .jump .callDone :: loopDone) v
      (h.Owned b phase) m := by
  have hq := hv.quiet
  have hs' : Stays (h.frame b.clone 208) (v.compared (v.register .rax).toInt (0#64).toInt) :=
    hs.compared _ _
  have hone : ∀ c ∈ [call], HookCall phase c := fun c hc => List.mem_singleton.mp hc ▸ hcall
  refine goes_registers hq rfl (fun _ => rfl) rfl (goes_jumpIf hq rfl (fun hzero => ?_)
      (fun hzero =>
    goes_jumpIf hq rfl (fun hgreater => ?_) (fun hgreater => goes_jump hq ?_)))
  · rw [hv.code]
    exact hr.loop _ _ (he.next hcall (by rw [hrax]; exact hzero.ge)) hs'
  · rw [hv.code]
    refine he.done _ _ _ _ hs' hr.memory (fun c hc => ⟨hone c hc, ?_⟩)
    rw [List.mem_singleton.mp hc, hrax]
    exact Int.le_of_lt hgreater
  · rw [hv.code]
    refine he.returns _ _ _ _ hs' hr.memory hone ⟨call, List.mem_singleton_self _, ?_⟩
    rw [hrax]
    exact lt_of_le_of_ne (Int.not_lt.mp hgreater) hzero

variable (ht : h.Taken env b mc)
include ht

theorem leads_call {control : Control Label} {s : Machine} {t : ℕ} {current : Word}
    (hi : i < b.size) (hm : h.Handling b mc phase current m) (hs : Stays (h.frame b.clone 208) v)
    (hhook : b.hookAt mc i ≠ 0#64)
    (hm' : Agrees (h.Owned b phase) m m')
    (hnext : ∀ call, HookCall phase call →
      (∃ t, call.left = (env.callee t (h.kept ++ b.ranges) (b.hookAt mc i) call.entered).1) →
      Stays (h.frame b.clone 208) call.left.toView →
      Goes env (h.kept ++ b.ranges) (calls ++ [call]) Q rest call.left.toView (h.Owned b phase) m) :
    Leads env (env.enter ⟨control, s, h.kept ++ b.ranges, t, calls⟩ (.call .r11) rest
      (b.hookAt mc i) v m') Q := by
  have hpushed := stays_pushed hs (by omega)
  have hentered := agrees_entered hv ht.new hs hm' (w := env.address rest)
  generalize he : (⟨v.pushed, putWord m' (v.pushed.register .rsp) (env.address rest)⟩ : Machine) =
    entered
  have hview : entered.toView = v.pushed := he ▸ rfl
  have hr12 : entered.register .r12 = b.clone := hview ▸ r12_of_stays hpushed
  have hrsp : entered.register .rsp = h.entry.register .rsp :=
    hview ▸ (rsp_of_stays hpushed).trans (rsp_entry h).symm
  have hmemory : Agrees (h.Owned b phase) m entered.memory := he ▸ hentered
  have hcontinues := ht.clone.continues i hi hhook t entered hr12 hrsp
  have hs' := hs.trans (hcontinues.obeys.stays hview)
  refine leads_enter he.symm hcontinues.keeps (kept_of_owned hv hs') (fun x hx => ?_)
    (hnext ⟨_, _, entered, _⟩ ⟨rfl, ?_⟩ ⟨t, rfl⟩ hs')
  · rw [hcontinues.memory x (kept_of_owned hv hs' x hx)]
    exact hmemory x hx
  · change wordAt entered.memory (entered.register .r12 + BitVec.ofNat 64 144) = 0#64 ↔ _
    rw [hr12, hmemory.word (owned_field (by omega)), hm.hookTypeCurrent]
    cases phase <;> simp [phaseWord]

/-- The hook of an entry is called, unless it is null. -/
theorem goes_loopCall (hr : h.Round env b mc phase Q i m) (hs : Stays (h.frame b.clone 208) v)
    (he : h.Exits env b mc phase Q calls) :
    Goes env (h.kept ++ b.ranges) calls Q loopCall v (h.Owned b phase) m := by
  have hq := hv.quiet
  refine goes_element hv hr.memory hs (by omega) (by omega) ht.clone.hook
    (fun x hx => static_hook hr.place hx) rfl ?_
  have hs₁ := ((hs.set (by decide : Register.r11 ∉ _) b.hook).set (by decide : Register.r8 ∉ _)
    (BitVec.ofNat 64 i)).set (by decide : Register.r11 ∉ _) (b.hookAt mc i)
  have hs₂ := hs₁.compared (b.hookAt mc i).toInt 0
  refine goes_registers hq rfl (fun _ => rfl) rfl (goes_jumpIf hq rfl (fun _ => ?_) (fun hne => ?_))
  · rw [hv.code]
    have hdone := he.done _ _ _ [] hs₂ hr.memory (fun c hc => by cases hc)
    rwa [List.append_nil] at hdone
  refine goes_call hq (fun m' t hm' => ?_)
  refine leads_call hv ht hr.place hr.memory hs₂
    (fun hzero => hne (congrArg BitVec.toInt hzero)) hm'
    (fun call hcall _ hs => ?_)
  exact goes_control hv hr hs he hcall rfl

private theorem goes_loopGeneric (hr : h.Round env b mc phase Q i m)
    (hs : Stays (h.frame b.clone 208) v) (he : h.Exits env b mc phase Q calls) :
    Goes env (h.kept ++ b.ranges) calls Q loopGeneric v (h.Owned b phase) m := by
  refine goes_registers hv.quiet rfl (fun _ => rfl) rfl
    (goes_registers hv.quiet rfl (fun _ => rfl) rfl ?_)
  exact goes_loopCall hv ht hr ((hs.set (by decide) _).set (by decide) _) he

theorem goes_arguments {current : Word} (hm : h.Handling b mc phase current m)
    (hs : Stays (h.frame b.clone 208) v) (hnext : ∀ v, Stays (h.frame b.clone 208) v → h.Carries v →
      Goes env (h.kept ++ b.ranges) calls Q rest v (h.Owned b phase) m) :
    Goes env (h.kept ++ b.ranges) calls Q (.load 64 .r12 .r11 :: (loadParameters .r11 ++ rest)) v
      (h.Owned b phase) m := by
  refine goes_field hv hm hs (by omega) (by omega) (by decide) ht.clone.arguments ?_
  rw [loadParameters_eq]
  refine goes_loads hv.quiet (fun x hx => ?_) (by decide) (by decide) (hnext _ ?_ (fun p hp => ?_))
  · exact .inl (cloned_arguments (atSlot_parameters.mp hx))
  · exact (hs.set (by decide : Register.r11 ∉ _) b.arguments).loadAll (by decide)
  · exact loadAll_of_holds hm.arguments (by decide) (List.mem_map_of_mem hp)

theorem goes_loopSpecific (hr : h.Round env b mc phase Q i m) (hs : Stays (h.frame b.clone 208) v)
    (he : h.Exits env b mc phase Q calls) :
    Goes env (h.kept ++ b.ranges) calls Q loopSpecific v (h.Owned b phase) m := by
  have hq := hv.quiet
  have hs₁ := hs.set (by decide : Register.rdi ∉ _) v.thread
  have haddress : (v.set .rdi v.thread).operand 0x388 .rdi = h.threadReturn :=
    congrArg (· + _) hs.thread
  refine goes_registers hq rfl (fun _ => rfl) rfl
    (goes_shared hq 0x388 .rdi rfl (fun m' => ⟨_, rfl⟩) (fun _ => rfl)
      (fun x hx => ?_) (fun m' => ?_))
  · rw [haddress] at hx
    rintro (hc | ⟨-, hstack⟩)
    · exact ht.new.not_thread hc hx
    · exact hv.thread x hx hstack.2
  · refine goes_arguments hv ht hr.memory hs₁ (fun v hs _ => goes_jump hq ?_)
    rw [hv.code]
    exact goes_loopCall hv ht hr hs he

/-- The type of an entry decides how its hook is called. -/
theorem goes_loopPostCheckEnd (hr : h.Round env b mc phase Q i m)
    (hs : Stays (h.frame b.clone 208) v) (he : h.Exits env b mc phase Q calls) :
    Goes env (h.kept ++ b.ranges) calls Q loopPostCheckEnd v (h.Owned b phase) m := by
  have hq := hv.quiet
  have hs' := hs.compared (v.register .r11).toInt (0#64).toInt
  refine goes_registers hq rfl (fun _ => rfl) rfl (goes_jumpIf hq rfl (fun _ => ?_) (fun _ =>
    goes_jumpIf hq rfl (fun _ => ?_) (fun _ => goes_jump hq ?_)))
  · rw [hv.code]
    exact goes_loopGeneric hv ht hr hs' he
  · rw [hv.code]
    exact goes_loopSpecific hv ht hr hs' he
  · rw [hv.code]
    exact hr.loop _ _ he hs'

omit ht in
theorem goes_skip (hr : h.Round env b mc phase Q i m) (hs : Stays (h.frame b.clone 208) v)
    (he : h.Exits env b mc phase Q calls)
    (hnext : ∀ v, Stays (h.frame b.clone 208) v → Goes env (h.kept ++ b.ranges) calls Q rest v
      (h.Owned b phase) m) :
    Goes env (h.kept ++ b.ranges) calls Q (.compare w .r11 :: .jumpIf .zero .loop :: rest) v
      (h.Owned b phase) m := by
  have hq := hv.quiet
  have hs' := hs.compared (v.register .r11).toInt w.toInt
  refine goes_registers hq rfl (fun _ => rfl) rfl (goes_jumpIf hq rfl (fun _ => ?_)
    (fun _ => hnext _ hs'))
  rw [hv.code]
  exact hr.loop _ _ he hs'

private theorem goes_loopPostCheck (hr : h.Round env b mc phase Q i m)
    (hs : Stays (h.frame b.clone 208) v) (he : h.Exits env b mc phase Q calls) :
    Goes env (h.kept ++ b.ranges) calls Q loopPostCheck v (h.Owned b phase) m := by
  refine goes_skip hv hr hs he (fun v hs => goes_skip hv hr hs he
    (fun v hs => goes_skip hv hr hs he (fun v hs => ?_)))
  exact goes_loopPostCheckEnd hv ht hr hs he

theorem goes_typed (hm : h.Handling b mc phase (BitVec.ofNat 64 i) m)
    (hs : Stays (h.frame b.clone 208) v) (he : h.Exits env b mc phase Q calls)
    (hr : v.register .r11 ≠ 0#64 → h.Round env b mc phase Q i m) :
    Goes env (h.kept ++ b.ranges) calls Q
      ([.test .r11, .jumpIf .zero .loopDone, .compare 0 .rdi, .jumpIf .nonzero .loopPostCheck,
        .compare 0 .r11, .jumpIf .zero .loop, .compare 2 .r11, .jumpIf .zero .loop,
        .jump .loopPostCheckEnd] ++ loopPostCheck) v
      (h.Owned b phase) m := by
  have hq := hv.quiet
  have hs₁ := hs.compared (v.register .r11).toInt 0
  refine goes_registers hq rfl (fun _ => rfl) rfl (goes_jumpIf hq rfl (fun _ => ?_) (fun hne => ?_))
  · rw [hv.code]
    have hdone := he.done _ _ _ [] hs₁ hm (fun c hc => by cases hc)
    rwa [List.append_nil] at hdone
  have hround := hr (fun hzero => hne (congrArg BitVec.toInt hzero))
  have hs₂ := hs₁.compared (v.register .rdi).toInt (0#64).toInt
  refine goes_registers hq rfl (fun _ => rfl) rfl (goes_jumpIf hq rfl (fun _ => ?_) (fun _ => ?_))
  · rw [hv.code]
    exact goes_loopPostCheck hv ht hround hs₂ he
  · refine goes_skip hv hround hs₂ he (fun v hs => goes_skip hv hround hs he
      (fun v hs => goes_jump hq ?_))
    rw [hv.code]
    exact goes_loopPostCheckEnd hv ht hround hs he

omit ht in
theorem goes_increment {current : Word} (hm : h.Handling b mc phase current m)
    (hs : Stays (h.frame b.clone 208) v) (hnext : ∀ v, Stays (h.frame b.clone 208) v →
      Goes env (h.kept ++ b.ranges) calls Q rest v (h.Owned b phase)
        (putWord m (b.clone + BitVec.ofNat 64 120) (current + 1))) :
    Goes env (h.kept ++ b.ranges) calls Q (.increment 120 .r12 :: rest) v (h.Owned b phase) m := by
  have haddress : v.operand 120 .r12 = b.clone + BitVec.ofNat 64 120 :=
    congrArg (· + _) (r12_of_stays hs)
  refine goes_perform hv.quiet rfl (fun hkept m' hm' => ⟨h.Owned b phase,
    putWord m (b.clone + BitVec.ofNat 64 120) (current + 1),
    fun x hx => (hkept x hx).congr rfl, ?_, ?_⟩)
  · have hw : wordAt m' (b.clone + BitVec.ofNat 64 120) = current := by
      rw [hm'.word (owned_field (by omega)), hm.hookCurrent]
    rw [perform, haddress, hw]
    exact hm'.put_more.mono (fun _ hx => .inl hx)
  · exact hnext _ (hs.compared _ _)

/-- The rounds from an entry on, up to the one whose type is zero. -/
theorem goes_loop {e : ℕ} (hsize : e < b.size) (hzero : b.typeAt mc e = 0#64) (hle : i ≤ e)
    (hm : h.Handling b mc phase (BitVec.ofNat 64 i - 1) m) (hs : Stays (h.frame b.clone 208) v)
    (he : h.Exits env b mc phase Q calls) :
    Goes env (h.kept ++ b.ranges) calls Q loop v (h.Owned b phase) m := by
  obtain ⟨n, hn⟩ : ∃ n, e - i = n := ⟨_, rfl⟩
  induction n using Nat.strong_induction_on generalizing i v m calls with
  | _ n ih =>
    have hplace : i < b.size := Nat.lt_of_le_of_lt hle hsize
    refine goes_increment hv hm hs (fun v hs => ?_)
    rw [BitVec.sub_add_cancel]
    have hm₁ := hm.setCurrent ht.new (BitVec.ofNat 64 i)
    have hphase : v.operand 144 .r12 = b.clone + BitVec.ofNat 64 144 :=
      congrArg (· + _) (r12_of_stays hs)
    refine goes_load hv.quiet (w := phaseWord phase) (by decide) ?_ ?_ ?_
    · rw [hphase]
      exact owned_field (by omega)
    · rw [hphase, hm₁.hookTypeCurrent]
    have hs₁ := hs.set (by decide : Register.rdi ∉ _) (phaseWord phase)
    refine goes_element hv hm₁ hs₁ (by omega) (by omega) ht.clone.hookType
      (fun x hx => static_hookType hplace hx) rfl ?_
    refine goes_typed hv ht hm₁ (((hs₁.set (by decide) _).set (by decide) _).set (by decide) _)
      he (fun hne => ?_)
    have hlt : i < e := by
      refine lt_of_le_of_ne hle (fun heq => hne ?_)
      rw [heq]
      exact hzero
    refine ⟨hplace, hm₁, fun v calls he hs => ih (e - (i + 1)) (by omega) (by omega) ?_ hs he rfl⟩
    rw [BitVec.ofNat_add]
    exact (BitVec.add_sub_cancel _ _).symm ▸ hm₁

end

end HookedCall

end Ps4Sdk.FunctionHookAssembly
