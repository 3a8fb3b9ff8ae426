import Ps4Sdk.FunctionHookRounds

/-!
# The function hook handler around its rounds

The handler releases the spin lock and saves the parameters in the block of the clone; it
calls the original through the bridge between two passes of rounds; and it gives the
returned values, the return address and `r12` back while the epilogue frees the clone.
-/

namespace Ps4Sdk.FunctionHookAssembly
open ByteMemory AssemblyMachines

namespace HookedCall

variable {env : Environment Label} {Q : Config Label → Prop} {v v' : View} {m m' mc : Bytes}
  {x w : Word} {h : HookedCall} {b : Blocks} {phase : Option Machine} {calls : List (Called Label)}
  {rest : Code} {current : Word}

/-! ### The entry of the handler -/

def OwnedPushed (h : HookedCall) (b : Blocks) (x : Word) : Prop := h.Owned b none x ∨
    Inside (h.low + BitVec.ofNat 64 200) 8 x

/-- The parameters are in the block of the clone, and the rounds before the original begin. -/
theorem handling_saved (hn : h.New b) (hc : h.Carries v)
    (hstack : ∀ x, h.Stack 208 x → mc x = h.entry.memory x) :
    ∃ current, h.Handling b mc none current
      (putWord (saveAll v b.arguments parameters.reverse mc)
        (b.clone + BitVec.ofNat 64 144) 0) := by
  have hapart : Apart b.clone 192 b.arguments 184 :=
    hn.clone_apart (r := (b.arguments, 184)) (by simp [Blocks.ranges])
  have hother : ∀ x, ¬Inside b.arguments 184 x → ¬Inside (b.clone + BitVec.ofNat 64 144) 8 x →
      putWord (saveAll v b.arguments parameters.reverse mc) (b.clone + BitVec.ofNat 64 144) 0 x =
        mc x := by
    intro x hx hx'
    rw [putWord_outside hx', saveAll_outside (fun hslot => hx
      (atSlot_parameters.mp (atSlot_reverse.mp hslot)))]
  refine ⟨_, ⟨fun x hx => ?_, fun x hx => ?_, ?_, rfl, wordAt_putWord _ _ _,
    fun _ x hx => ?_, fun s hs => ?_⟩⟩
  · exact hother x (fun hin => hn.block_not_static (r := (b.arguments, 184)) (by simp) hin hx)
      (fun hin => hn.not_static (by omega) (by omega) hin hx)
  · refine hother x (hapart x (hx.of_add (by omega))) (fun hin => ?_)
    rw [inside_offset (by omega)] at hx hin
    omega
  · refine (((holds_saveAll separate_parameters).perm (fun p hp => List.mem_reverse.mpr hp)).congr
      (fun x hx => putWord_outside (fun hin => ?_))).view (fun p hp => (hc p hp).symm)
    exact hapart x (hin.of_add (by omega)) (atSlot_parameters.mp hx)
  · rw [hother x (fun hin => hn.not_stack (cloned_arguments hin) hx)
      (fun hin => hn.not_stack (cloned_field (by omega) hin) hx)]
    exact hstack x hx
  · cases hs

section
variable (hv : h.Valid env)
include hv

theorem kept_of_pushed (hs : Stays (h.frame w 200) v) :
    ∀ x, h.OwnedPushed b x → Kept env.top (h.kept ++ b.ranges) v x := by
  intro x hx
  rw [kept_iff hv (rsp_of_stays hs) (by omega)]
  rcases hx with (⟨r, hr, hx⟩ | ⟨-, hx⟩) | hx
  · exact .inl ⟨r, List.mem_append_right _ hr, hx⟩
  · exact .inr (hx.mono (by omega))
  · exact .inr (stack_of_inside hv (by omega) hx)

private theorem not_pushed_of_handle (hn : h.New b) {j : ℕ} (hj : j ≤ 184)
    (hx : Inside (h.handle + BitVec.ofNat 64 j) 8 x) :
    ¬h.OwnedPushed b x := by
  rintro ((hc | ⟨-, hs⟩) | hs)
  · exact hn.not_handle hc (hx.of_add (by omega))
  · exact not_stack_of_handle hv hj hx hs
  · exact not_stack_of_handle hv hj hx (stack_of_inside hv (by omega) hs)

private theorem goes_handle {i : Instruction Label} (hn : h.New b) {j : ℕ} (hj : j ≤ 184)
    (hr11 : v.register .r11 = h.handle) (hi : i.straight = true)
    (hp : ∀ m, ∃ w, (perform i v m).memory = putWord m (v.operand j .r11) w)
    (hrsp : ∀ m, (perform i v m).register .rsp = v.register .rsp)
    (hnext : ∀ m', Goes env (h.kept ++ b.ranges) calls Q rest (perform i v m').toView
      (h.OwnedPushed b) m) :
    Goes env (h.kept ++ b.ranges) calls Q (i :: rest) v (h.OwnedPushed b) m := by
  have haddress : v.operand j .r11 = h.handle + BitVec.ofNat 64 j := congrArg (· + _) hr11
  refine goes_shared hv.quiet j .r11 hi hp hrsp (fun x hx => ?_) hnext
  rw [haddress] at hx
  exact not_pushed_of_handle hv hn hj hx

theorem goes_popClone (hn : h.New b) (hs : Stays (h.frame w 200) v)
    (hnext : Goes env (h.kept ++ b.ranges) calls Q rest (v.popped.set .r12 b.clone)
      (h.Owned b none) m) :
    Goes env (h.kept ++ b.ranges) calls Q (.pop .r12 :: rest) v (h.OwnedPushed b)
      (putWord m (h.low + BitVec.ofNat 64 200) b.clone) := by
  have hs' : Stays (h.frame b.clone 208) (v.popped.set .r12 b.clone) :=
    stays_setR12 (stays_popped hs) _
  refine goes_restack hv.quiet (v.popped.set .r12 b.clone) (h.Owned b none) rfl (fun m' hm' => ?_)
    (fun _ hx => .inl hx) (fun _ => kept_of_owned hv hs') (hnext.memory (fun x hx => ?_))
  · have hw : wordAt m' (v.register .rsp) = b.clone := by
      rw [rsp_of_stays hs, hm'.word (fun x hx => .inr hx), wordAt_putWord]
    rw [perform, hw]
  · refine (putWord_outside (fun hin => ?_)).symm
    have hstack := stack_of_inside hv (by omega) hin
    rw [inside_offset (by omega)] at hin
    exact hn.not_owned (hstack.mono (by omega)) (by omega) hx

private theorem goes_unlock (hn : h.New b) (hr11 : v.register .r11 = h.handle)
    (hs : Stays (h.frame w 200) v) (hc : h.Carries v)
    (hnext : ∀ v, Stays (h.frame b.clone 208) v → h.Carries v →
      Goes env (h.kept ++ b.ranges) calls Q rest v (h.Owned b none) m) :
    Goes env (h.kept ++ b.ranges) calls Q (.exchange .r12 184 .r11 :: .pop .r12 :: rest) v
      (h.OwnedPushed b)
      (putWord m (h.low + BitVec.ofNat 64 200) b.clone) := by
  refine goes_handle hv hn (j := 184) (by omega) hr11 rfl (fun _ => ⟨_, rfl⟩)
    (fun _ => rfl) (fun m' => ?_)
  have hs' := stays_setR12 hs (wordAt m' (v.operand 184 .r11))
  exact goes_popClone hv hn hs' (hnext _ (stays_setR12 (stays_popped hs') _)
    (((hc.set (by decide) _).set (by decide) _).set (by decide) _))

/-- The entry is counted off and the lock is released. -/
theorem goes_release (hn : h.New b) (hr11 : v.register .r11 = h.handle)
    (hs : Stays (h.frame b.clone 208) v) (hc : h.Carries v)
    (hnext : ∀ v, Stays (h.frame b.clone 208) v → h.Carries v →
      Goes env (h.kept ++ b.ranges) calls Q rest v (h.Owned b none) m) :
    Goes env (h.kept ++ b.ranges) calls Q
      (.push .r12 :: .decrement 16 .r11 :: .moveImmediate 0 .r12 :: .exchange .r12 184 .r11 ::
        .pop .r12 :: rest) v
      (h.Owned b none) m := by
  have hq := hv.quiet
  have hpushed := stays_pushed hs (by omega)
  refine goes_put hq (h.low + BitVec.ofNat 64 200) b.clone (h.OwnedPushed b) rfl
    (fun m' _ => ?_) (fun _ hx => hx)
    (fun _ => kept_of_pushed hv hpushed) ?_
  · rw [perform, rsp_of_stays hpushed, r12_of_stays hs]
  refine goes_handle hv hn (j := 16) (by omega) hr11 rfl (fun _ => ⟨_, rfl⟩)
    (fun _ => rfl) (fun m₁ => ?_)
  have hs₁ : Stays (h.frame b.clone 200)
    (perform (.decrement 16 .r11 : Instruction Label) v.pushed m₁).toView :=
    hpushed.compared _ _
  refine goes_registers hq rfl (fun _ => rfl) rfl ?_
  exact goes_unlock hv hn hr11 (stays_setR12 hs₁ 0)
    (((hc.set (by decide) _).compared _ _).set (by decide) _) hnext

theorem goes_handler (hat : h.AtHandler env b v mc)
    (hnext : ∀ v m current, Stays (h.frame b.clone 208) v → h.Handling b mc none current m →
      Goes env (h.kept ++ b.ranges) calls Q postRun v (h.Owned b none) m) :
    Goes env (h.kept ++ b.ranges) calls Q ps4PayloadFunctionHookHandler v (h.Owned b none) mc := by
  have hq := hv.quiet
  have hn := hat.taken.new
  refine goes_release hv hn hat.r11 hat.registers hat.parameters (fun v hs hc => ?_)
  have haddress : v.operand 64 .r12 = b.clone + BitVec.ofNat 64 64 :=
    congrArg (· + _) (r12_of_stays hs)
  refine goes_load hq (w := b.arguments) (by decide) ?_ ?_ ?_
  · rw [haddress]
    exact owned_field (by omega)
  · rw [haddress]
    exact hat.taken.clone.arguments
  have hs₁ := hs.set (by decide : Register.r11 ∉ _) b.arguments
  obtain ⟨current, hm⟩ :=
    handling_saved hn (hc.set (by decide : Slot.register .r11 ∉ _) b.arguments) hat.stack
  have hstore : Goes env (h.kept ++ b.ranges) calls Q (.storeImmediate 0 144 .r12 :: postRun)
    (v.set .r11 b.arguments)
      (h.Owned b none) (saveAll (v.set .r11 b.arguments) b.arguments parameters.reverse mc) := by
    refine goes_putKnown hq (b.clone + BitVec.ofNat 64 144) 0 rfl (fun m' _ => ?_) rfl
      (hnext _ _ _ hs₁ hm)
    rw [perform, View.operand, r12_of_stays hs₁]
  change Goes env _ _ _ (saveParameters .r11 ++ (.storeImmediate 0 144 .r12 :: postRun)) _ _ _
  rw [saveParameters_eq]
  refine goes_saves hq (fun x hx => ?_) (hstore.mono (fun x hx => .inl hx))
  have howned : h.Owned b none x :=
    .inl (cloned_arguments (atSlot_parameters.mp (atSlot_reverse.mp hx)))
  exact kept_of_owned hv hs₁ x howned

section
variable (ht : h.Taken env b mc)
include ht

theorem goes_postRun (hm : h.Handling b mc phase current m) (hs : Stays (h.frame b.clone 208) v)
    (he : h.Exits env b mc phase Q calls) :
    Goes env (h.kept ++ b.ranges) calls Q postRun v (h.Owned b phase) m := by
  obtain ⟨e, hsize, hzero⟩ := ht.clone.terminated
  refine goes_putKnown hv.quiet (b.clone + BitVec.ofNat 64 120) (-1) rfl (fun m' _ => ?_) rfl
    (goes_loop hv ht hsize hzero (Nat.zero_le e) (hm.setCurrent ht.new _) hs he)
  rw [perform, View.operand, r12_of_stays hs]

/-- The parameters are loaded and the phase is exchanged. -/
theorem goes_loopDone (hm : h.Handling b mc phase current m) (hs : Stays (h.frame b.clone 208) v)
    (hbefore : phase = none → ∀ v, Stays (h.frame b.clone 208) v → h.Carries v →
      Goes env (h.kept ++ b.ranges) calls Q (.callMemory 88 .r12 :: loopReturned) v
        (h.Owned b phase)
        (putWord m (b.clone + BitVec.ofNat 64 144) 1))
    (hafter : phase ≠ none → ∀ v, Stays (h.frame b.clone 208) v →
      Goes env (h.kept ++ b.ranges) calls Q callDone v (h.Owned b phase)
        (putWord m (b.clone + BitVec.ofNat 64 144) 1)) :
    Goes env (h.kept ++ b.ranges) calls Q loopDone v (h.Owned b phase) m := by
  have hq := hv.quiet
  refine goes_arguments hv ht hm hs (fun v hs hc => ?_)
  have hs₁ := hs.set (by decide : Register.r11 ∉ _) 1
  have hs₂ := (hs₁.set (by decide : Register.r11 ∉ _) (phaseWord phase)).compared
    (phaseWord phase).toInt 0
  have haddress : (v.set .r11 1).operand 144 .r12 = b.clone + BitVec.ofNat 64 144 :=
    congrArg (· + _) (r12_of_stays hs₁)
  have hexchange : ∀ m', Agrees (h.Owned b phase) m m' →
      perform (.exchange .r11 144 .r12 : Instruction Label) (v.set .r11 1) m' =
        ⟨(v.set .r11 1).set .r11 (phaseWord phase),
          putWord m' (b.clone + BitVec.ofNat 64 144) 1⟩ := by
    intro m' hm'
    rw [perform, haddress, hm'.word (owned_field (by omega)), hm.hookTypeCurrent]
    rfl
  refine goes_registers hq rfl (fun _ => rfl) rfl (goes_putKnown hq _ _ rfl hexchange rfl
    (goes_registers hq rfl (fun _ => rfl) rfl (goes_jumpIf hq rfl (fun hone => ?_)
      (fun hzero => ?_))))
  · rw [hv.code]
    refine hafter (fun hphase => hone ?_) _ hs₂
    rw [hphase]
    rfl
  · refine hbefore ?_ _ hs₂ (((hc.set (by decide) _).set (by decide) _).compared _ _)
    cases phase with
    | none => rfl
    | some s => exact absurd (by decide : (1#64).toInt ≠ 0) hzero

end

end

/-! ### The call of the original -/

/-- The returned values are in their block, and the rounds after the original begin. -/
theorem handling_returned (hn : h.New b) (hm : h.Handling b mc none current m) (left : Machine)
    (hv : ∀ p ∈ returns, v.bytes p.1 = left.bytes p.1) :
    h.Handling b mc (some left) current
      (saveAll v b.returns returns (putWord m (b.clone + BitVec.ofNat 64 144) 1)) := by
  have hapart : Apart b.clone 192 b.returns 48 :=
    hn.clone_apart (r := (b.returns, 48)) (by simp [Blocks.ranges])
  have hblock : ∀ x, ¬Inside b.returns 48 x →
    saveAll v b.returns returns (putWord m (b.clone + BitVec.ofNat 64 144) 1) x =
      putWord m (b.clone + BitVec.ofNat 64 144) 1 x :=
    fun x hx => saveAll_outside (fun hslot => hx (atSlot_returns.mp hslot))
  have hother : ∀ x, ¬Inside b.returns 48 x → ¬Inside (b.clone + BitVec.ofNat 64 144) 8 x →
      saveAll v b.returns returns (putWord m (b.clone + BitVec.ofNat 64 144) 1) x = m x :=
    fun x hx hx' => (hblock x hx).trans (putWord_outside hx')
  refine ⟨fun x hx => ?_, fun x hx => ?_, ?_, ?_, ?_, fun hp => ?_, fun s hs => ?_⟩
  · rw [hother x (fun hin => hn.block_not_static (r := (b.returns, 48)) (by simp) hin hx)
      (fun hin => hn.not_static (by omega) (by omega) hin hx)]
    exact hm.static x hx
  · rw [hother x (hapart x (hx.of_add (by omega))) (fun hin => ?_)]
    · exact hm.taken x hx
    · rw [inside_offset (by omega)] at hx hin
      omega
  · refine hm.arguments.congr (fun x hx => hother x (hn.arguments_apart x (atSlot_parameters.mp hx))
      (fun hin => ?_))
    exact hn.clone_apart (r := (b.arguments, 184)) (by simp [Blocks.ranges]) x
      (hin.of_add (by omega))
      (atSlot_parameters.mp hx)
  · refine (wordAt_congr (fun x hx => hother x (hapart x (hx.of_add (by omega)))
      (fun hin => ?_))).trans hm.hookCurrent
    rw [inside_offset (by omega)] at hx hin
    omega
  · exact (wordAt_congr (fun x hx => hblock x (hapart x (hx.of_add (by omega))))).trans
      (wordAt_putWord _ _ _)
  · cases hp
  · cases hs
    exact (holds_saveAll (by decide)).view (fun p hp => (hv p hp).symm)

theorem stack_arguments (hsize : h.stackSize < 2 ^ 64)
    (hx : Inside (h.entry.register .rsp + 8) h.stackArguments x) :
    h.Stack 208 x := by
  have haddress : h.entry.register .rsp + 8 = h.low + BitVec.ofNat 64 208 :=
    (congrArg (· + 8) (rsp_entry h)).trans (offset_add _ _ _)
  unfold stackSize at hsize
  rw [haddress, inside_offset (by omega)] at hx
  exact hx

section
variable (hv : h.Valid env) (ht : h.Taken env b mc)
include hv ht

theorem leads_bridge {control : Control Label} {s : Machine} {t : ℕ}
    (hm : h.Handling b mc none current m) (hs : Stays (h.frame b.clone 208) v) (hc : h.Carries v)
    (hm' : Agrees (h.Owned b none) (putWord m (b.clone + BitVec.ofNat 64 144) 1) m')
    (hnext : ∀ call, call.instruction = .callMemory 88 .r12 → h.EnteredAsUnhooked call →
      Stays (h.frame b.clone 208) call.left.toView →
      Goes env (h.kept ++ b.ranges) (calls ++ [call]) Q loopReturned call.left.toView
        (h.Owned b (some call.left))
        (putWord m (b.clone + BitVec.ofNat 64 144) 1)) :
    Leads env (env.enter ⟨control, s, h.kept ++ b.ranges, t, calls⟩ (.callMemory 88 .r12)
      loopReturned h.bridge v m')
      Q := by
  have hpushed := stays_pushed hs (by omega)
  have hcarries : h.Carries v.pushed := hc.set (by decide) _
  have hentered := agrees_entered hv ht.new hs hm' (w := env.address loopReturned)
  generalize he : (⟨v.pushed, putWord m' (v.pushed.register .rsp) (env.address loopReturned)⟩ :
    Machine) = entered
  have hview : entered.toView = v.pushed := he ▸ rfl
  have hmemory : Agrees (h.Owned b none) (putWord m (b.clone + BitVec.ofNat 64 144) 1)
    entered.memory := he ▸ hentered
  have hr12 : entered.register .r12 = b.clone := hview ▸ r12_of_stays hpushed
  have hrsp : entered.register .rsp = h.entry.register .rsp :=
    hview ▸ (rsp_of_stays hpushed).trans (rsp_entry h).symm
  have hbridges := ht.serves.bridges t entered hr12 hrsp
  have hs' := hs.trans (hbridges.obeys.stays hview)
  refine leads_enter he.symm hbridges.keeps (kept_of_owned hv hs') (fun x hx => ?_)
    (hnext ⟨_, _, entered, _⟩ rfl ⟨rfl, fun r hr => ?_, ?_, hrsp, fun x hx => ?_⟩ hs')
  · obtain ⟨r, hr, hin⟩ := hx.resolve_right (fun hstack => by cases hstack.1)
    rw [hbridges.memory x ⟨r, List.mem_append_right _ hr, hin⟩]
    exact hmemory x (.inl ⟨r, hr, hin⟩)
  · have hslots : ∀ r ∈ [Register.rax, .rdi, .rsi, .rdx, .rcx, .r8, .r9],
      .register r ∈ slots parameters := by decide
    change entered.register r = _
    rw [hview]
    exact hcarries.register (hslots r hr)
  · change entered.vector = _
    rw [hview]
    exact hcarries.vector
  · have hstack := stack_arguments hv.size hx
    change entered.memory x = _
    rw [hmemory x (.inr ⟨rfl, hstack⟩), putWord_outside
      (fun hin => ht.new.not_stack (cloned_field (by omega) hin) hstack)]
    exact hm.stack rfl x hstack

/-- What the original has left is saved, and the rounds after it begin. -/
theorem goes_loopReturned {left : Machine} (hm : h.Handling b mc none current m)
    (hs : Stays (h.frame b.clone 208) left.toView) (he : h.Exits env b mc (some left) Q calls) :
    Goes env (h.kept ++ b.ranges) calls Q loopReturned left.toView (h.Owned b (some left))
      (putWord m (b.clone + BitVec.ofNat 64 144) 1) := by
  have hq := hv.quiet
  have haddress : left.operand 72 .r12 = b.clone + BitVec.ofNat 64 72 :=
    congrArg (· + _) (r12_of_stays hs)
  have hs₁ := hs.set (by decide : Register.r11 ∉ _) b.returns
  have hm₁ := handling_returned (v := left.set .r11 b.returns) ht.new hm left (fun p hp =>
    View.bytes_set_of_ne (fun hslot => by
      have hmem : Slot.register .r11 ∈ slots returns := hslot ▸ List.mem_map_of_mem hp
      revert hmem
      decide))
  refine goes_load hq (w := b.returns) (by decide) ?_ ?_ ?_
  · rw [haddress]
    exact owned_field (by omega)
  · rw [haddress, wordAt_putWord_apart (apart_offsets (by omega) (by omega) (by omega)),
      field_of_handling hm (by omega) (by omega)]
    exact ht.clone.returns
  have hjump : Goes env (h.kept ++ b.ranges) calls Q (.jump .postRun :: callDone)
    (left.set .r11 b.returns)
      (h.Owned b (some left)) (saveAll (left.set .r11 b.returns) b.returns returns
        (putWord m (b.clone + BitVec.ofNat 64 144) 1)) := by
    refine goes_jump hq ?_
    rw [hv.code]
    exact goes_postRun hv ht hm₁ hs₁ he
  change Goes env _ _ _ (returns.map (Slot.storeTo .r11) ++ (.jump .postRun :: callDone)) _ _ _
  refine goes_saves hq (fun x hx => ?_) (hjump.mono (fun x hx => .inl hx))
  have howned : h.Owned b none x := .inl (cloned_returns (atSlot_returns.mp hx))
  exact kept_of_owned hv hs₁ x howned

end

/-! ### The return -/

def Yields (phase : Option Machine) (v : View) : Prop :=
  ∀ s ∈ phase, ∀ p ∈ returns, v.bytes p.1 = s.bytes p.1

theorem Yields.set (hy : Yields phase v) {r : Register}
    (hr : .register r ∉ slots returns) (w : Word) :
    Yields phase (v.set r w) :=
  fun s hs p hp => (View.bytes_set_of_ne (fun he => hr (he ▸ List.mem_map_of_mem hp))).trans
    (hy s hs p hp)

theorem Yields.compared (hy : Yields phase v) (i j : ℤ) : Yields phase (v.compared i j) := by
  intro s hs p hp
  rw [← hy s hs p hp]
  cases p.1 <;> rfl

def Saves (h : HookedCall) (x : Word) : Prop := Inside (h.low + BitVec.ofNat 64 152) 56 x

section
variable (hv : h.Valid env)
include hv

private theorem kept_of_saves {kept : List Range} (hs : Stays (h.frame w 152) v) : ∀ x, h.Saves x →
    Kept env.top kept v x :=
  fun _ hx => (kept_iff hv (rsp_of_stays hs) (by omega)).mpr
    (.inr (stack_of_inside hv (by omega) hx))

/-- The saved values are loaded and the execution goes back to the caller. -/
theorem goes_return {kept : List Range} {u : View}
    (hs : Stays (h.frame (h.entry.register .r12) 152) v)
    (hsaved : Holds m (h.low + BitVec.ofNat 64 152) returns u) (hy : Yields phase u)
    (hret : wordAt m (h.low + BitVec.ofNat 64 200) = wordAt h.entry.memory (h.entry.register .rsp))
    (hQ : ∀ s t, Stays (h.frame (h.entry.register .r12) 208) s.toView → Yields phase s.toView →
      Q ⟨.outside (wordAt h.entry.memory (h.entry.register .rsp)), s, kept, t, calls⟩) :
    Goes env kept calls Q (returns.map (Slot.loadFrom .rsp) ++
      [.add 48 .rsp, .ret]) v h.Saves m := by
  have hq := hv.quiet
  refine goes_loads hq (fun x hx => ?_) (by decide) (by decide) ?_
  · rw [rsp_of_stays hs] at hx
    exact (atSlot_returns.mp hx).mono (by omega)
  rw [rsp_of_stays hs]
  generalize hload : loadAll m (h.low + BitVec.ofNat 64 152) returns v = v₁
  have hs₁ : Stays (h.frame (h.entry.register .r12) 152) v₁ := hload ▸ hs.loadAll (by decide)
  have hy₁ : Yields phase v₁ := fun s hphase p hp =>
    hload ▸ (loadAll_of_holds hsaved (by decide) (List.mem_map_of_mem hp)).trans (hy s hphase p hp)
  have hs₂ := (stays_add hs₁ 48).compared ((v₁.register .rsp).toInt + (48 : ℕ)) 0
  have hy₂ := (hy₁.set (by decide : Slot.register .rsp ∉ _)
    (v₁.register .rsp + BitVec.ofNat 64 48)).compared
    ((v₁.register .rsp).toInt + (48 : ℕ)) 0
  refine goes_restack hq _ (fun x => Inside (h.low + BitVec.ofNat 64 200) 8 x) rfl
    (fun _ _ => rfl) (fun x hx => ?_)
    (fun _ x hx => ?_) (goes_ret hq (fun x hx => ?_) (fun m' t _ => ?_))
  · rw [inside_offset (by omega)] at hx
    refine (inside_offset (by omega)).mpr ?_
    omega
  · exact (kept_iff hv (rsp_of_stays hs₂) (by omega)).mpr (.inr (stack_of_inside hv (by omega) hx))
  · rw [rsp_of_stays hs₂] at hx
    exact hx
  · rw [rsp_of_stays hs₂, hret]
    exact hQ _ t (stays_popped hs₂) (hy₂.set (by decide) _)

theorem kept_of_givenBack {k : ℕ} (hs : Stays (h.frame w k) v) (hk : k ≤ 200) :
    ∀ x, Cloned b x ∨ Inside (h.low + BitVec.ofNat 64 200) 8 x →
    Kept env.top (h.kept ++ b.ranges) v x := by
  intro x hx
  rw [kept_iff hv (rsp_of_stays hs) (by omega)]
  rcases hx with ⟨r, hr, hx⟩ | hx
  · exact .inl ⟨r, List.mem_append_right _ hr, hx⟩
  · exact .inr ((stack_of_inside hv (by omega) hx).mono hk)

variable (ht : h.Taken env b mc)
include ht

theorem leads_epilogue {control : Control Label} {s : Machine} {t : ℕ} {u : View}
    (hs : Stays (h.frame (h.entry.register .r12) 152) v) (hrdi : v.register .rdi = b.clone)
    (hm : Agrees h.Saves m m') (hsaved : Holds m (h.low + BitVec.ofNat 64 152) returns u)
    (hy : Yields phase u)
    (hret : wordAt m (h.low + BitVec.ofNat 64 200) = wordAt h.entry.memory (h.entry.register .rsp))
    (hQ : ∀ call s kept t, call.instruction = .callMemory 48 .r11 →
      Stays (h.frame (h.entry.register .r12) 208) s.toView → Yields phase s.toView →
      Q ⟨.outside (wordAt h.entry.memory (h.entry.register .rsp)), s, kept, t, calls ++ [call]⟩) :
    Leads env (env.enter ⟨control, s, h.kept ++ b.ranges, t, calls⟩ (.callMemory 48 .r11)
      (returns.map (Slot.loadFrom .rsp) ++ [.add 48 .rsp, .ret]) h.epilogue v m') Q := by
  have hpushed := stays_pushed hs (by omega)
  generalize he : (⟨v.pushed, putWord m' (v.pushed.register .rsp)
    (env.address (returns.map (Slot.loadFrom .rsp) ++ [.add 48 .rsp, .ret]))⟩ : Machine) = entered
  have hview : entered.toView = v.pushed := he ▸ rfl
  have hmemory : Agrees h.Saves m entered.memory := by
    rw [← he]
    refine hm.put_elsewhere (fun x hx hin => ?_)
    rw [rsp_of_stays hpushed, inside_offset (by omega)] at hx
    unfold Saves at hin
    rw [inside_offset (by omega)] at hin
    omega
  have hrdi' : entered.register .rdi = b.clone := hview ▸ hrdi
  have hrsp : entered.register .rsp = h.entry.register .rsp - 56 := by
    rw [hview, rsp_of_stays hpushed, rsp_entry]
    exact (offset_sub h.low (by omega : 56 ≤ 200)).symm
  have hcleans := ht.serves.cleansUp t entered hrdi' hrsp
  have hs' := hs.trans (hcleans.obeys.stays hview)
  refine leads_enter he.symm rfl (kept_of_saves hv hs') (fun x hx => ?_)
    (goes_return hv hs' hsaved hy hret (fun s t => hQ _ s _ t rfl))
  have hkept : Kept env.top [] (env.callee t (h.kept ++ b.ranges) h.epilogue entered).1.toView x :=
    kept_of_saves hv hs' x hx
  rw [hcleans.memory x (hkept.resolve_left (by simp))]
  exact hmemory x hx

/-- The values are saved on the stack and the epilogue is called with the clone. -/
theorem goes_epilogue (hr11 : v.register .r11 = b.clone)
    (hs : Stays (h.frame (h.entry.register .r12) 152) v) (hy : Yields phase v)
    (hepilogue : wordAt m (b.clone + BitVec.ofNat 64 48) = h.epilogue)
    (hret : wordAt m (h.low + BitVec.ofNat 64 200) = wordAt h.entry.memory (h.entry.register .rsp))
    (hQ : ∀ call s kept t, call.instruction = .callMemory 48 .r11 →
      Stays (h.frame (h.entry.register .r12) 208) s.toView → Yields phase s.toView →
      Q ⟨.outside (wordAt h.entry.memory (h.entry.register .rsp)), s, kept, t, calls ++ [call]⟩) :
    Goes env (h.kept ++ b.ranges) calls Q (returns.reverse.map (Slot.storeTo .rsp) ++
      (.move .r11 .rdi :: .callMemory 48 .r11 :: (returns.map (Slot.loadFrom .rsp) ++
        [.add 48 .rsp, .ret]))) v
      (fun x => Cloned b x ∨ Inside (h.low + BitVec.ofNat 64 200) 8 x) m := by
  have hq := hv.quiet
  have hrsp := rsp_of_stays hs
  have hslots : ∀ x, AtSlot (v.register .rsp) returns.reverse x ↔
      Inside (h.low + BitVec.ofNat 64 152) 48 x := by
    intro x
    rw [hrsp, atSlot_reverse, atSlot_returns]
  have hcloned : ∀ x, Cloned b x → ¬AtSlot (v.register .rsp) returns.reverse x := by
    intro x hx hslot
    exact ht.new.not_stack hx (stack_of_inside hv (by omega) ((hslots x).mp hslot))
  have hsaved : Holds (saveAll v (v.register .rsp) returns.reverse m)
    (h.low + BitVec.ofNat 64 152) returns v :=
    hrsp ▸ (holds_saveAll separate_returns).perm (fun p hp => List.mem_reverse.mpr hp)
  refine goes_saves hq (fun x hx => ?_) (goes_registers hq rfl (fun _ => rfl) rfl
    (goes_callMemory hq (w := h.epilogue) (fun x hx => ?_) ?_ (fun m' t hm' => ?_)))
  · rw [kept_iff hv hrsp (by omega)]
    exact .inr (stack_of_inside hv (by omega) ((hslots x).mp hx))
  · have haddress : (v.set .rdi (v.register .r11)).operand 48 .r11 = b.clone + BitVec.ofNat 64 48 :=
      congrArg (· + _) hr11
    rw [haddress] at hx
    exact .inl (.inl (cloned_field (by omega) hx))
  · have haddress : (v.set .rdi (v.register .r11)).operand 48 .r11 = b.clone + BitVec.ofNat 64 48 :=
      congrArg (· + _) hr11
    rw [haddress, wordAt_congr (fun x hx => saveAll_outside
      (hcloned x (cloned_field (by omega) hx))), hepilogue]
  · refine leads_epilogue hv ht (hs.set (by decide) _) hr11 (hm'.mono (fun x hx => ?_)) hsaved hy ?_
      hQ
    · unfold Saves at hx
      rw [inside_offset (by omega)] at hx
      by_cases hge : 200 ≤ (x - h.low).toNat
      · exact .inl (.inr ((inside_offset (by omega)).mpr ⟨hge, hx.2⟩))
      · exact .inr ((hslots x).mpr ((inside_offset (by omega)).mpr ⟨hx.1, by omega⟩))
    · refine (wordAt_congr (fun x hx => saveAll_outside (fun hslot => ?_))).trans hret
      have hin := (hslots x).mp hslot
      rw [inside_offset (by omega)] at hx hin
      omega

/-- The return address and `r12` come back from the clone. -/
theorem goes_giveBack (hm : h.Handling b mc phase current m) (hs : Stays (h.frame b.clone 208) v)
    (hy : Yields phase v) (hQ : ∀ call s kept t, call.instruction = .callMemory 48 .r11 →
      Stays (h.frame (h.entry.register .r12) 208) s.toView → Yields phase s.toView →
      Q ⟨.outside (wordAt h.entry.memory (h.entry.register .rsp)), s, kept, t, calls ++ [call]⟩) :
    Goes env (h.kept ++ b.ranges) calls Q
      (.pushMemory 24 .r12 :: .load 32 .r12 .r11 :: .exchangeRegisters .r11 .r12 :: .subtract 48
        .rsp :: (returns.reverse.map (Slot.storeTo .rsp) ++
          (.move .r11 .rdi :: .callMemory 48 .r11 ::
            (returns.map (Slot.loadFrom .rsp) ++ [.add 48 .rsp, .ret])))) v
            (h.Owned b phase) m := by
  have hq := hv.quiet
  have hpushed := stays_pushed hs (by omega)
  have htaken : ∀ j, 24 ≤ j → j + 8 ≤ 40 →
      wordAt m (b.clone + BitVec.ofNat 64 j) = wordAt mc (b.clone + BitVec.ofNat 64 j) := by
    refine fun j hj hj' => wordAt_congr (fun x hx => hm.taken x ?_)
    rw [inside_offset (by omega)] at hx
    refine (inside_offset (by omega)).mpr ?_
    omega
  have hfield : ∀ j, j + 8 ≤ 192 →
      wordAt (putWord m (h.low + BitVec.ofNat 64 200)
        (wordAt h.entry.memory (h.entry.register .rsp)))
        (b.clone + BitVec.ofNat 64 j) = wordAt m (b.clone + BitVec.ofNat 64 j) := fun j hj =>
    wordAt_putWord_apart (fun x hx hin =>
      ht.new.not_stack (cloned_field hj hx) (stack_of_inside hv (by omega) hin))
  have hpush : ∀ m', Agrees (h.Owned b phase) m m' →
    perform (.pushMemory 24 .r12 : Instruction Label) v m' =
      ⟨v.pushed, putWord m' (h.low + BitVec.ofNat 64 200)
        (wordAt h.entry.memory (h.entry.register .rsp))⟩ := by
    intro m' hm'
    rw [perform, View.operand, r12_of_stays hs, rsp_of_stays hpushed,
      hm'.word (owned_field (by omega)), htaken 24 (by omega) (by omega), ht.returnTo]
  refine goes_put hq (h.low + BitVec.ofNat 64 200) (wordAt h.entry.memory (h.entry.register .rsp))
    (fun x => Cloned b x ∨ Inside (h.low + BitVec.ofNat 64 200) 8 x) rfl hpush (fun x hx => ?_)
    (fun _ x hx => ?_) ?_
  · rcases hx with hx | hx
    · exact .inl (.inl hx)
    · exact .inr hx
  · exact kept_of_givenBack hv hpushed (by omega) x hx
  have haddress : v.pushed.operand 32 .r12 = b.clone + BitVec.ofNat 64 32 :=
    congrArg (· + _) (r12_of_stays hpushed)
  refine goes_load hq (w := h.entry.register .r12) (by decide) (fun x hx => ?_) ?_ ?_
  · rw [haddress] at hx
    exact .inl (cloned_field (by omega) hx)
  · rw [haddress, hfield 32 (by omega), htaken 32 (by omega) (by omega), ht.r12]
  have hs₁ := stays_setR12 ((hpushed.set (by decide : Register.r11 ∉ _) (h.entry.register .r12)).set
    (by decide : Register.r11 ∉ _) (v.register .r12)) (h.entry.register .r12)
  have hy₁ := (((hy.set (by decide : Slot.register .rsp ∉ _) (v.register .rsp - 8)).set
    (by decide : Slot.register .r11 ∉ _) (h.entry.register .r12)).set
    (by decide : Slot.register .r11 ∉ _) (v.register .r12)).set (by decide : Slot.register .r12 ∉ _)
    (h.entry.register .r12)
  refine goes_registers hq rfl (fun _ => rfl) rfl ?_
  have hs₂ := stays_subtract hs₁ (by omega : 48 ≤ 200)
  refine goes_restack hq _ (fun x => Cloned b x ∨ Inside (h.low + BitVec.ofNat 64 200) 8 x)
    rfl (fun _ _ => rfl)
    (fun _ hx => hx) (fun _ x hx => ?_) ?_
  · exact kept_of_givenBack hv (hs₂.compared _ _) (by omega) x hx
  refine goes_epilogue hv ht (r12_of_stays hs) (hs₂.compared _ _)
    ((hy₁.set (by decide) _).compared _ _) ?_
    (wordAt_putWord _ _ _) hQ
  rw [hfield 48 (by omega), field_of_handling hm (by omega) (by omega)]
  exact ht.clone.epilogue

theorem goes_callDone (hm : h.Handling b mc phase current m) (hs : Stays (h.frame b.clone 208) v)
    (hQ : ∀ call s kept t, call.instruction = .callMemory 48 .r11 →
      Stays (h.frame (h.entry.register .r12) 208) s.toView → Yields phase s.toView →
      Q ⟨.outside (wordAt h.entry.memory (h.entry.register .rsp)), s, kept, t, calls ++ [call]⟩) :
    Goes env (h.kept ++ b.ranges) calls Q callDone v (h.Owned b phase) m := by
  have hs₁ := hs.set (by decide : Register.r11 ∉ _) b.returns
  refine goes_field hv hm hs (by omega) (by omega) (by decide) ht.clone.returns ?_
  refine goes_loads hv.quiet (l := returns) (fun x hx => .inl
    (cloned_returns (atSlot_returns.mp hx))) (by decide)
    (by decide) ?_
  refine goes_giveBack hv ht hm (hs₁.loadAll (by decide)) (fun s hs p hp => ?_) hQ
  exact loadAll_of_holds (hm.returned s hs) (by decide) (List.mem_map_of_mem hp)

end

end HookedCall

end Ps4Sdk.FunctionHookAssembly
