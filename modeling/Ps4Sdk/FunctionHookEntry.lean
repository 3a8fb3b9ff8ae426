import Ps4Sdk.FunctionHookFrames

/-!
# The prologue of a hooked function

From the entry to the handler: the prologue takes the spin lock, keeps the registers of
the parameters on the stack while the handle is cloned, and moves the return address and
`r12` into the clone.
-/

namespace Ps4Sdk.FunctionHookAssembly
open ByteMemory AssemblyMachines

namespace HookedCall

variable {env : Environment Label} {Q : Config Label → Prop} {v v' : View} {m m' m₀ : Bytes}
  {x : Word} {h : HookedCall} {b : Blocks}

/-! ### The spin lock -/

/-- The registers in the prologue, apart from `r12`. -/
structure Entering (h : HookedCall) (k : ℕ) (v : View) : Prop where
  rsp : v.register .rsp = h.low + BitVec.ofNat 64 k
  r11 : v.register .r11 = h.handle
  registers : ∀ r, r ∉ [Register.rsp, .r11, .r12] → v.register r = h.entry.register r
  vector : v.vector = h.entry.vector
  thread : v.thread = h.entry.thread

theorem Entering.register_set {k : ℕ} (hv : h.Entering k v) {q r : Register}
    (hq : q ∈ [Register.rsp, .r11, .r12]) (hr : r ∉ [Register.rsp, .r11, .r12]) (w : Word) :
    (v.set q w).register r = h.entry.register r := by
  have hne : r ≠ q := by
    rintro rfl
    exact hr hq
  rw [View.register_set_of_ne hne]
  exact hv.registers r hr

private theorem Entering.setR12 {k : ℕ} (hv : h.Entering k v) (w : Word) :
    h.Entering k (v.set .r12 w) where
  rsp := hv.rsp
  r11 := hv.r11
  registers _ hr := hv.register_set (by decide) hr w
  vector := hv.vector
  thread := hv.thread

private theorem Entering.restack {j k : ℕ} (hv : h.Entering k v) {a : Word}
    (ha : a = h.low + BitVec.ofNat 64 j) :
    h.Entering j (v.set .rsp a) where
  rsp := ha
  r11 := hv.r11
  registers _ hr := hv.register_set (by decide) hr a
  vector := hv.vector
  thread := hv.thread

theorem Entering.compared {k : ℕ} (hv : h.Entering k v) (a b : ℤ) : h.Entering k (v.compared a b) :=
  ⟨hv.rsp, hv.r11, hv.registers, hv.vector, hv.thread⟩

/-- What the thread knows in the prologue: the two pointers of the handle and its stack from an
offset on. -/
def Known (h : HookedCall) (k : ℕ) (x : Word) : Prop := Inside h.handle 16 x ∨ h.Stack k x

/-- The memory with `r12` pushed. -/
def spinning (h : HookedCall) : Bytes :=
  putWord h.entry.memory (h.low + BitVec.ofNat 64 192) (h.entry.register .r12)

def Spins (h : HookedCall) (is : Code) (c : Config Label) : Prop :=
  ∃ v m t, c = ⟨.inside is, ⟨v, m⟩, h.kept, t, []⟩ ∧ h.Entering 192 v ∧
    Agrees (h.Known 192) h.spinning m

private theorem control_ne_locked {is : Code} (h : is.length ≠ prologueLocked.length) :
    Control.inside is ≠ .inside prologueLocked :=
  fun he => h (congrArg List.length (Control.inside.inj he))

section
variable (hv : h.Valid env)
include hv

private theorem kept_of_known {k : ℕ}
    (hrsp : v.register .rsp = h.low + BitVec.ofNat 64 k) (hk : k ≤ 208) :
    ∀ x, h.Known k x → Kept env.top h.kept v x := by
  rintro x (hx | hx)
  · exact (kept_iff hv hrsp hk).mpr (.inl ⟨_, List.mem_singleton_self _, hx⟩)
  · exact (kept_iff hv hrsp hk).mpr (.inr hx)

theorem not_known_of_handle {i k : ℕ} (hi : 16 ≤ i) (hi' : i ≤ 184)
    (hx : Inside (h.handle + BitVec.ofNat 64 i) 8 x) : ¬h.Known k x := by
  rintro (hh | hs)
  · rw [inside_offset (by omega)] at hx
    unfold Inside at hh
    omega
  · exact not_stack_of_handle hv hi' hx hs

private theorem spins_straight {i : Instruction Label} {rest : Code} (hi : i.straight = true)
    (hview : ∀ v m, h.Entering 192 v → h.Entering 192 (perform i v m).toView)
    (hmemory : ∀ v m, h.Entering 192 v → Agrees (h.Known 192) h.spinning m →
      Agrees (h.Known 192) h.spinning (perform i v m).memory)
    {c : Config Label} (hc : h.Spins (i :: rest) c) : h.Spins rest (env.step c) := by
  obtain ⟨v, m, t, rfl, hentering, hm⟩ := hc
  have hm' := agrees_others hv.quiet (kept_of_known hv hentering.rsp (by omega)) hm (t := t)
  exact ⟨_, _, t + 1, step_straight hi, hview _ _ hentering, hmemory _ _ hentering hm'⟩

private theorem spins_set {c : Config Label} (hc : h.Spins prologueLoop c) :
    h.Spins (prologueLoop.drop 1) (env.step c) :=
  spins_straight hv (i := .moveImmediate 1 .r12) rfl (fun _ _ hentering => hentering.setR12 1)
    (fun _ _ _ hm => hm) hc

theorem spins_exchange {c : Config Label} (hc : h.Spins (prologueLoop.drop 1) c) :
    h.Spins (prologueLoop.drop 2) (env.step c) := by
  refine spins_straight hv (i := .exchange .r12 184 .r11) rfl
    (fun _ _ hentering => hentering.setR12 _)
    (fun v m hentering hm => ?_) hc
  refine hm.put_elsewhere (fun x hx => ?_)
  rw [View.operand, hentering.r11] at hx
  exact not_known_of_handle hv (by omega) (by omega) hx

private theorem spins_test {c : Config Label} (hc : h.Spins (prologueLoop.drop 2) c) :
    h.Spins (prologueLoop.drop 3) (env.step c) :=
  spins_straight hv (i := .test .r12) rfl (fun _ _ hentering => hentering.compared _ _)
    (fun _ _ _ hm => hm) hc

theorem spins_jump {c : Config Label} (hc : h.Spins (prologueLoop.drop 3) c) :
    h.Spins prologueLoop (env.step c) ∨ h.Spins prologueLocked (env.step c) := by
  obtain ⟨v, m, t, rfl, hentering, hm⟩ := hc
  have hm' := agrees_others hv.quiet (kept_of_known hv hentering.rsp (by omega)) hm (t := t)
  have hstep : env.step ⟨.inside (prologueLoop.drop 3), ⟨v, m⟩, h.kept, t, []⟩ =
      ⟨.inside (if Condition.nonzero.holds v.flags then env.code .prologueLoop else prologueLocked),
        ⟨v, env.others t h.kept ⟨v, m⟩⟩, h.kept, t + 1, []⟩ := rfl
  rw [hstep, hv.code]
  by_cases hlocked : Condition.nonzero.holds v.flags
  · rw [if_pos hlocked]
    exact .inl ⟨v, _, t + 1, rfl, hentering, hm'⟩
  · rw [if_neg hlocked]
    exact .inr ⟨v, _, t + 1, rfl, hentering, hm'⟩

/-- The handle is in `r11` and the entry is counted. -/
theorem counted_start :
    ∃ v m, env.step^[2] h.start = ⟨.inside (.push .r12 :: prologueLoop), ⟨v, m⟩, h.kept, 2, []⟩ ∧
    h.Entering 200 v ∧ v.register .r12 = h.entry.register .r12 ∧
    Agrees (h.Known 200) h.entry.memory m := by
  have hentering : h.Entering 200 (h.entry.toView.set .r11 h.handle) := by
    refine ⟨rsp_entry h, rfl, fun r hr => ?_, rfl, rfl⟩
    have hne : r ≠ .r11 := by
      rintro rfl
      simp at hr
    rw [View.register_set_of_ne hne]
  have hm₀ : Agrees (h.Known 200) h.entry.memory (env.others 0 h.kept h.entry) :=
    agrees_others hv.quiet (kept_of_known hv (rsp_entry h) (by omega)) (fun _ _ => rfl)
  have hm₁ := agrees_others hv.quiet (kept_of_known hv hentering.rsp (by omega)) hm₀ (t := 1)
  have hfirst : env.step h.start = ⟨.inside (.increment 16 .r11 :: .push .r12 :: prologueLoop),
      ⟨h.entry.toView.set .r11 h.handle, env.others 0 h.kept h.entry⟩, h.kept, 1, []⟩ := rfl
  rw [Function.iterate_succ_apply', Function.iterate_one, hfirst, step_straight rfl]
  exact ⟨_, _, rfl, hentering.compared _ _, rfl, hm₁.put_elsewhere (fun x hx =>
    not_known_of_handle hv (by omega) (by omega) hx)⟩

theorem spins_start : h.Spins prologueLoop (env.step^[3] h.start) := by
  obtain ⟨v, m, hc, hentering, hr12, hm⟩ := counted_start hv
  have hm' := agrees_others hv.quiet (kept_of_known hv hentering.rsp (by omega)) hm (t := 2)
  have hrsp : v.register .rsp - 8 = h.low + BitVec.ofNat 64 192 :=
    (congrArg (· - 8) hentering.rsp).trans (offset_sub h.low (by omega : 8 ≤ 200))
  rw [Function.iterate_succ_apply', hc, step_straight rfl]
  refine ⟨_, _, _, rfl, hentering.restack hrsp, ?_⟩
  change Agrees _ _ (putWord _ (v.register .rsp - 8) (v.register .r12))
  rw [hrsp, hr12]
  refine hm'.put_more.mono (fun x hx => ?_)
  rcases hx with hx | hx
  · exact .inl (.inl hx)
  · by_cases hge : 200 ≤ (x - h.low).toNat
    · exact .inl (.inr ⟨hge, hx.2⟩)
    · exact .inr ((inside_offset (by omega)).mpr ⟨hx.1, by omega⟩)

theorem leads_of_spins (hlocked : ∀ c, h.Spins prologueLocked c → Leads env c Q) {c : Config Label}
    (hc : h.Spins prologueLoop c) {n : ℕ} (hn : (env.step^[n] c).control = .inside prologueLocked) :
    Leads env c Q := by
  refine leads_of_left (P := h.Spins prologueLoop)
    (D := fun c => c.control = .inside prologueLocked)
    (fun c hc => ?_) hc hn
  have hc₁ := spins_set hv hc
  have hc₂ := spins_exchange hv hc₁
  have hc₃ := spins_test hv hc₂
  rcases spins_jump hv hc₃ with hc₄ | hc₄
  · refine .inr ⟨4, by omega, fun j hj => ?_, hc₄⟩
    have hlength : ∀ {is : Code} {c : Config Label}, h.Spins is c →
      is.length ≠ prologueLocked.length →
        c.control ≠ .inside prologueLocked := by
      rintro is c ⟨v, m, t, rfl, -, -⟩ hne
      exact control_ne_locked hne
    obtain rfl | rfl | rfl | rfl : j = 0 ∨ j = 1 ∨ j = 2 ∨ j = 3 := by omega
    · exact hlength hc (by decide)
    · exact hlength hc₁ (by decide)
    · exact hlength hc₂ (by decide)
    · exact hlength hc₃ (by decide)
  · exact .inl (Leads.steps (k := 4) (hlocked _ hc₄))

end

/-! ### The clone -/

structure Saved (h : HookedCall) (m : Bytes) : Prop where
  clone : wordAt m h.handle = h.clone
  handler : wordAt m (h.handle + BitVec.ofNat 64 8) = h.handler
  handle : wordAt m (h.low + BitVec.ofNat 64 8) = h.handle
  parameters : Holds m (h.low + BitVec.ofNat 64 16) parameters h.entry.toView
  stack : ∀ x, h.Stack 200 x → m x = h.entry.memory x

theorem Entering.stays {k : ℕ} (hentering : h.Entering k v) :
    Stays (h.frame (v.register .r12) k) v := by
  refine ⟨fun r hr => ?_, hentering.thread⟩
  by_cases hrsp : r = .rsp
  · subst hrsp
    exact hentering.rsp
  by_cases hr12 : r = .r12
  · subst hr12
    rfl
  have hr11 : r ≠ .r11 := by
    rintro rfl
    revert hr
    decide
  rw [frame, View.register_set_of_ne hrsp, View.register_set_of_ne hr12]
  exact hentering.registers r (by simp [hrsp, hr12, hr11])

theorem Known.mono {k j : ℕ} (hx : h.Known k x) (hj : j ≤ k) : h.Known j x :=
  hx.imp_right (fun hs => hs.mono hj)

private theorem known_mono {j k : ℕ} (hj : j ≤ k) : ∀ x, h.Known k x ∨ Cloned b x → h.Known j x ∨
    Cloned b x :=
  fun _ hx => hx.imp_left (fun hk => hk.mono hj)

theorem Entering.bytes {k : ℕ} (hentering : h.Entering k v) :
    ∀ p ∈ parameters, h.entry.bytes p.1 = v.bytes p.1 := by
  have hother : ∀ r ∈ [Register.rsp, .r11, .r12], Slot.register r ∉ slots parameters := by decide
  rintro ⟨s, i⟩ hp
  have hs : s ∈ slots parameters := List.mem_map_of_mem hp
  cases s with
  | register r =>
    have hr := hentering.registers r (fun hr => hother r hr hs)
    simp only [View.bytes, hr]
  | vector i => simp only [View.bytes, hentering.vector]

/-- A clone that has taken over the return address and `r12`. -/
structure Taken (h : HookedCall) (env : Environment Label) (b : Blocks) (m : Bytes) : Prop where
  new : h.New b
  serves : h.Serves env b
  clone : h.CloneOf env b m
  returnTo : wordAt m (b.clone + BitVec.ofNat 64 24) = wordAt h.entry.memory (h.entry.register .rsp)
  r12 : wordAt m (b.clone + BitVec.ofNat 64 32) = h.entry.register .r12

structure AtHandler (h : HookedCall) (env : Environment Label) (b : Blocks) (v : View)
    (m : Bytes) : Prop where
  taken : h.Taken env b m
  r11 : v.register .r11 = h.handle
  registers : Stays (h.frame b.clone 208) v
  parameters : h.Carries v
  stack : ∀ x, h.Stack 208 x → m x = h.entry.memory x

structure ClonedBy (h : HookedCall) (env : Environment Label) (b : Blocks) (m : Bytes)
    (call : Called Label) : Prop where
  instruction : call.instruction = .callMemory 0 .r11
  result : ∃ t, env.callee t h.kept h.clone call.entered = (call.left, h.kept ++ b.ranges)
  static : ∀ x, Static b x → m x = call.left.memory x

section
variable (hv : h.Valid env)
include hv

theorem stack_of_inside {k n : ℕ} (hn : k + n ≤ 208) (hx : Inside (h.low + BitVec.ofNat 64 k) n x) :
    h.Stack k x := by
  have hsize := hv.size
  rw [inside_offset (by omega)] at hx
  exact ⟨hx.1, Nat.lt_of_lt_of_le hx.2 (hn.trans (Nat.le_add_right _ _))⟩

theorem Saved.congr (hs : h.Saved m) (hm : ∀ x, h.Known 8 x → m' x = m x) : h.Saved m' where
  clone := (wordAt_congr (fun x hx => hm x (.inl (hx.mono (by omega))))).trans hs.clone
  handler := (wordAt_congr (fun x hx => hm x (.inl (hx.of_add (by omega))))).trans hs.handler
  handle := (wordAt_congr (fun x hx => hm x
    (.inr (stack_of_inside hv (by omega) hx)))).trans hs.handle
  parameters := hs.parameters.congr (fun x hx =>
    hm x (.inr ((stack_of_inside hv (by omega) (atSlot_parameters.mp hx)).mono (by omega))))
  stack x hx := (hm x (.inr (hx.mono (by omega)))).trans (hs.stack x hx)

theorem saved_pushed (hentering : h.Entering 16 v) :
    h.Saved (putWord (saveAll v (h.low + BitVec.ofNat 64 16) parameters.reverse h.entry.memory)
      (h.low + BitVec.ofNat 64 8) h.handle) := by
  have hreverse : ∀ {x}, AtSlot (h.low + BitVec.ofNat 64 16) parameters.reverse x →
      AtSlot (h.low + BitVec.ofNat 64 16) parameters x :=
        fun ⟨p, hp, hx⟩ => ⟨p, List.mem_reverse.mp hp, hx⟩
  have hother : ∀ x, ¬(8 ≤ (x - h.low).toNat ∧ (x - h.low).toNat < 200) →
      putWord (saveAll v (h.low + BitVec.ofNat 64 16) parameters.reverse h.entry.memory)
        (h.low + BitVec.ofNat 64 8) h.handle x = h.entry.memory x := by
    intro x hx
    rw [putWord_outside, saveAll_outside]
    · intro hs
      have hin := atSlot_parameters.mp (hreverse hs)
      rw [inside_offset (by omega)] at hin
      omega
    · rw [inside_offset (by omega)]
      omega
  have hhandle : ∀ x, Inside h.handle 16 x →
      ¬(8 ≤ (x - h.low).toNat ∧ (x - h.low).toNat < 200) := by
    intro x hx hs
    have hsize : 208 ≤ h.stackSize := Nat.le_add_right _ _
    exact hv.handle x (hx.mono (by omega)) (Nat.lt_of_lt_of_le hs.2 (by omega))
  refine ⟨?_, ?_, wordAt_putWord _ _ _, ?_, ?_⟩
  · exact (wordAt_congr (fun x hx => hother x
      (hhandle x (hx.mono (by omega))))).trans hv.clonePointer
  · exact (wordAt_congr (fun x hx => hother x (hhandle x (hx.of_add (by omega))))).trans
      hv.handlerPointer
  · refine (((holds_saveAll separate_parameters).perm (fun p hp => List.mem_reverse.mpr hp)).congr
      (fun x hx => putWord_outside (fun hin => ?_))).view hentering.bytes
    have hslot := atSlot_parameters.mp hx
    rw [inside_offset (by omega)] at hslot hin
    omega
  · exact fun x hx => hother x (fun hin => by have := hx.1; omega)

private theorem kept_of_cloned {k : ℕ}
    (hrsp : v.register .rsp = h.low + BitVec.ofNat 64 k) (hk : k ≤ 208) :
    ∀ x, h.Known k x ∨ Cloned b x → Kept env.top (h.kept ++ b.ranges) v x := by
  rintro x ((hx | hx) | ⟨r, hr, hx⟩)
  · exact (kept_iff hv hrsp hk).mpr (.inl ⟨_, List.mem_append_left _ (List.mem_singleton_self _),
      hx⟩)
  · exact (kept_iff hv hrsp hk).mpr (.inr hx)
  · exact (kept_iff hv hrsp hk).mpr (.inl ⟨r, List.mem_append_right _ hr, hx⟩)

theorem goes_restored {calls : List (Called Label)} (hnew : h.New b) (hserves : h.Serves env b)
    (hclone : h.CloneOf env b m) (hsaved : h.Saved m)
    (hr12 : wordAt m (b.clone + BitVec.ofNat 64 32) = h.entry.register .r12)
    (hr11 : v.register .r11 = h.handle) (hstays : Stays (h.frame b.clone 16) v)
    (hnext : ∀ v m', h.AtHandler env b v m' → (∀ x, Static b x → m' x = m x) →
      Goes env (h.kept ++ b.ranges) calls Q ps4PayloadFunctionHookHandler v (h.Owned b none) m') :
    Goes env (h.kept ++ b.ranges) calls Q
      (loadParameters .rsp ++ [.add 184 .rsp, .popMemory 24 .r12, .jumpMemory 8 .r11]) v
      (fun x => h.Known 16 x ∨ Cloned b x) m := by
  have hq := hv.quiet
  have hrsp := rsp_of_stays hstays
  rw [loadParameters_eq]
  refine goes_loads hq (fun x hx => ?_) (by decide) (by decide) ?_
  · rw [hrsp] at hx
    exact .inl (.inr (stack_of_inside hv (by omega) (atSlot_parameters.mp hx)))
  rw [hrsp]
  generalize hload : loadAll m (h.low + BitVec.ofNat 64 16) parameters v = v₁
  have hcarries : h.Carries v₁ := fun p hp =>
    hload ▸ loadAll_of_holds hsaved.parameters (by decide) (List.mem_map_of_mem hp)
  have hr11₁ : v₁.register .r11 = h.handle := hload ▸ (loadAll_register (by decide)).trans hr11
  have hs₁ : Stays (h.frame b.clone 16) v₁ := hload ▸ hstays.loadAll (by decide)
  have hs₂ : Stays (h.frame b.clone 200) ((v₁.set .rsp
      (v₁.register .rsp + BitVec.ofNat 64 184)).compared
      ((v₁.register .rsp).toInt + (184 : ℕ)) 0) :=
    (stays_add hs₁ 184).compared _ _
  have hs₃ := stays_popped hs₂
  refine goes_restack hq _ (fun x => h.Known 200 x ∨ Cloned b x) rfl (fun _ _ => rfl)
    (known_mono (by omega))
    (fun _ => kept_of_cloned hv (rsp_of_stays hs₂) (by omega)) ?_
  have hret : wordAt m (h.low + BitVec.ofNat 64 200) =
      wordAt h.entry.memory (h.entry.register .rsp) := by
    rw [rsp_entry]
    exact wordAt_congr (fun x hx => hsaved.stack x (stack_of_inside hv (by omega) hx))
  have hother : ∀ {x}, ¬Inside (b.clone + BitVec.ofNat 64 24) 8 x →
      putWord m (b.clone + BitVec.ofNat 64 24) (wordAt h.entry.memory (h.entry.register .rsp)) x =
        m x :=
    fun hx => putWord_outside hx
  refine goes_put hq (b.clone + BitVec.ofNat 64 24) (wordAt h.entry.memory (h.entry.register .rsp))
    (fun x => h.Known 208 x ∨ Cloned b x) rfl (fun m' hm' => ?_)
    (fun x hx => .inl (known_mono (by omega) x hx))
    (fun _ => kept_of_cloned hv (rsp_of_stays hs₃) (by omega)) ?_
  · rw [perform, View.operand, r12_of_stays hs₃, rsp_of_stays hs₂,
      hm'.word (fun x hx => .inl (.inr (stack_of_inside hv (by omega) hx))), hret]
  have hr11₃ : ((v₁.set .rsp (v₁.register .rsp + BitVec.ofNat 64 184)).compared
      ((v₁.register .rsp).toInt + (184 : ℕ)) 0).popped.operand 8 .r11 =
        h.handle + BitVec.ofNat 64 8 :=
    congrArg (· + _) hr11₁
  refine goes_jumpMemory hq (l := .handler) ?_ ?_ ?_
  · rw [hr11₃]
    exact fun x hx => .inl (.inl (hx.of_add (by omega)))
  · rw [hr11₃, wordAt_congr (fun x hx => hother (fun hc =>
      hnew.not_handle (cloned_field (by omega) hc) (hx.of_add (by omega)))), hsaved.handler]
    exact hv.handler
  rw [hv.code]
  have hstatic : ∀ x, Static b x →
      putWord m (b.clone + BitVec.ofNat 64 24) (wordAt h.entry.memory (h.entry.register .rsp)) x =
        m x :=
    fun x hx => hother (fun hc => hnew.not_static (by omega) (by omega) hc hx)
  refine (hnext _ _ ⟨⟨hnew, hserves, hclone.congr hstatic, wordAt_putWord _ _ _, ?_⟩, ?_, hs₃, ?_,
    ?_⟩ hstatic).mono
    (fun x hx => ?_)
  · rw [wordAt_putWord_apart (apart_offsets (by omega) (by omega) (by omega)), hr12]
  · exact hr11₁
  · exact ((hcarries.set (by decide) _).compared _ _).set (by decide) _
  · intro x hx
    rw [hother (fun hc => hnew.not_stack (cloned_field (by omega) hc) hx)]
    exact hsaved.stack x (hx.mono (by omega))
  · rcases hx with hx | hx
    · exact .inr hx
    · exact .inl (.inr hx.2)

/-- From the return of the clone function to the handler. -/
theorem goes_cloned {calls : List (Called Label)} (hnew : h.New b) (hserves : h.Serves env b)
    (hclone : h.CloneOf env b m) (hsaved : h.Saved m) (hrax : v.register .rax = b.clone)
    (hstays : Stays (h.frame (h.entry.register .r12) 8) v)
    (hnext : ∀ v m', h.AtHandler env b v m' → (∀ x, Static b x → m' x = m x) →
      Goes env (h.kept ++ b.ranges) calls Q ps4PayloadFunctionHookHandler v (h.Owned b none) m') :
    Goes env (h.kept ++ b.ranges) calls Q prologueCloned v
      (fun x => h.Known 8 x ∨ Cloned b x) m := by
  have hq := hv.quiet
  have hs₁ : Stays (h.frame (h.entry.register .r12) 16) (v.popped.set .r11 h.handle) :=
    (stays_popped hstays).set (by decide) _
  refine goes_restack hq (v.popped.set .r11 h.handle) (fun x => h.Known 16 x ∨ Cloned b x) rfl
    (fun m' hm' => ?_)
    (known_mono (by omega)) (fun _ => kept_of_cloned hv (rsp_of_stays hs₁) (by omega)) ?_
  · have hw : wordAt m' (v.register .rsp) = h.handle := by
      rw [rsp_of_stays hstays, hm'.word (fun x hx => .inl
        (.inr (stack_of_inside hv (by omega) hx))), hsaved.handle]
    rw [perform, hw]
  refine goes_shared hq 56 .r11 rfl (fun m' => ⟨_, rfl⟩) (fun _ => rfl)
    (fun x hx => ?_) (fun m' => ?_)
  · rintro (hk | hc)
    · exact not_known_of_handle hv (by omega) (by omega) hx hk
    · exact hnew.not_handle hc (hx.of_add (by omega))
  have hs₂ : Stays (h.frame (h.entry.register .r12) 16)
      (perform (.increment 56 .r11 : Instruction Label) (v.popped.set .r11 h.handle) m').toView :=
        hs₁.compared _ _
  refine goes_putKnown hq (b.clone + BitVec.ofNat 64 32) (h.entry.register .r12) rfl
    (fun m'' _ => ?_) rfl ?_
  · rw [perform, r12_of_stays hs₂]
    exact congrArg (fun a => Machine.mk _ (putWord m'' (a + _) _)) hrax
  have hother : ∀ {x}, ¬Cloned b x →
    putWord m (b.clone + BitVec.ofNat 64 32) (h.entry.register .r12) x = m x :=
    fun hx => putWord_outside (fun hin => hx (cloned_field (by omega) hin))
  refine goes_registers hq rfl (fun _ => rfl) rfl ?_
  have hstatic : ∀ x, Static b x →
    putWord m (b.clone + BitVec.ofNat 64 32) (h.entry.register .r12) x = m x :=
    fun x hx => putWord_outside (fun hin => hnew.not_static (by omega) (by omega) hin hx)
  refine goes_restored hv hnew hserves (hclone.congr hstatic) (hsaved.congr hv (fun x hx => ?_))
    (wordAt_putWord _ _ _) rfl ?_ (fun v m' hat hm' => hnext v m' hat
      (fun x hx => (hm' x hx).trans (hstatic x hx)))
  · refine hother (fun hc => ?_)
    rcases hx with hx | hx
    · exact hnew.not_handle hc (hx.mono (by omega))
    · exact hnew.not_stack hc hx
  · have hrax₂ : (perform (.increment 56 .r11 : Instruction Label) (v.popped.set .r11 h.handle)
      m').register .rax =
        b.clone := hrax
    rw [hrax₂]
    exact stays_setR12 hs₂ _

theorem leads_clone {t : ℕ} (hsaved : h.Saved m₀) (hm : Agrees (h.Known 8) m₀ m)
    (hrdi : v.register .rdi = h.handle) (hstays : Stays (h.frame (h.entry.register .r12) 8) v)
    (hnext : ∀ b v m call, h.ClonedBy env b m call → h.AtHandler env b v m →
      Goes env (h.kept ++ b.ranges) [call] Q ps4PayloadFunctionHookHandler v (h.Owned b none) m) :
    Leads env (env.enter ⟨.inside prologueCloned, ⟨v, m⟩, h.kept, t, []⟩ (.callMemory 0 .r11)
      prologueCloned h.clone v m)
      Q := by
  have hpushed := stays_pushed hstays (by omega)
  generalize he : (⟨v.pushed, putWord m (v.pushed.register .rsp) (env.address prologueCloned)⟩ :
    Machine) = entered
  have hrsp : entered.register .rsp = h.low := by
    rw [← he]
    exact (rsp_of_stays hpushed).trans (BitVec.add_zero _)
  have hclones := hv.clones t entered (he ▸ hrdi) hrsp (he ▸ hpushed.thread)
  obtain ⟨b, hrax, hkept', hnew, hserves, hclone⟩ := hclones.blocks
  have hstays' : Stays (h.frame (h.entry.register .r12) 8)
    (env.callee t h.kept h.clone entered).1.toView :=
    hstays.trans (hclones.obeys.stays (he ▸ rfl))
  have hmemory : ∀ x, h.Known 8 x → (env.callee t h.kept h.clone entered).1.memory x = m₀ x := by
    intro x hx
    rw [hclones.memory x (kept_of_known hv (rsp_of_stays hstays') (by omega) x hx), ← hm x hx, ← he]
    refine putWord_outside (fun hin => ?_)
    rw [rsp_of_stays hpushed] at hin
    rcases hx with hx | hx
    · exact hv.handle x (hx.mono (by omega)) (stack_of_inside hv (by omega) hin).2
    · rw [inside_offset (by omega)] at hin
      have hle := hx.1
      omega
  refine leads_enter (S := fun x => h.Known 8 x ∨ Cloned b x) he.symm hkept'
    (kept_of_cloned hv (rsp_of_stays hstays') (by omega)) (fun _ _ => rfl) ?_
  exact goes_cloned hv hnew hserves hclone (hsaved.congr hv hmemory) hrax hstays'
    (fun v m' hat hm' => hnext b v m' _ ⟨rfl, ⟨t, Prod.ext rfl hkept'⟩, hm'⟩ hat)

theorem goes_saving (hentering : h.Entering 16 v) (hr12 : v.register .r12 = h.entry.register .r12)
    (hnext : ∀ b v m call, h.ClonedBy env b m call → h.AtHandler env b v m →
      Goes env (h.kept ++ b.ranges) [call] Q ps4PayloadFunctionHookHandler v (h.Owned b none) m) :
    Goes env h.kept [] Q
      (saveParameters .rsp ++ [.move .r11 .rdi, .push .r11, .callMemory 0 .r11] ++ prologueCloned) v
      (h.Known 200)
      h.entry.memory := by
  have hq := hv.quiet
  have hslots : ∀ x, AtSlot (v.register .rsp) parameters.reverse x ↔
      16 ≤ (x - h.low).toNat ∧ (x - h.low).toNat < 200 := by
    intro x
    rw [hentering.rsp, atSlot_reverse, atSlot_parameters]
    exact inside_offset (by omega)
  have hstays : Stays (h.frame (h.entry.register .r12) 16) v := hr12 ▸ hentering.stays
  have hpushed := stays_pushed
    (hstays.set (by decide : Register.rdi ∉ _) (v.register .r11)) (by omega)
  have hcall : Goes env h.kept [] Q (.move .r11 .rdi :: .push .r11 :: .callMemory 0 .r11 ::
    prologueCloned) v (h.Known 16)
      (saveAll v (h.low + BitVec.ofNat 64 16) parameters.reverse h.entry.memory) := by
    refine goes_registers hq rfl (fun _ => rfl) rfl ?_
    refine goes_put hq (h.low + BitVec.ofNat 64 8) h.handle (h.Known 8) rfl
      (fun m' _ => ?_) (fun x hx => ?_)
      (fun _ => kept_of_known hv (rsp_of_stays hpushed) (by omega)) ?_
    · rw [perform, rsp_of_stays hpushed]
      exact congrArg (fun w => Machine.mk _ (putWord m' _ w)) hentering.r11
    · rcases hx with hx | hx
      · exact .inl (.inl hx)
      · by_cases hge : 16 ≤ (x - h.low).toNat
        · exact .inl (.inr ⟨hge, hx.2⟩)
        · exact .inr ((inside_offset (by omega)).mpr ⟨hx.1, by omega⟩)
    · have hoperand : (v.set .rdi (v.register .r11)).pushed.operand 0 .r11 = h.handle :=
        (congrArg (· + _) hentering.r11).trans (BitVec.add_zero _)
      refine goes_callMemory hq (w := h.clone) (fun x hx => ?_) ?_ (fun m t hm => ?_)
      · rw [hoperand] at hx
        exact .inl (hx.mono (by omega))
      · rw [hoperand]
        exact (saved_pushed hv hentering).clone
      · exact leads_clone hv (saved_pushed hv hentering) hm hentering.r11 hpushed hnext
  rw [saveParameters_eq, List.append_assoc]
  refine goes_saves hq (fun x hx => ?_) ((hentering.rsp.symm ▸ hcall).mono (fun x hx => ?_))
  · rw [hslots] at hx
    exact kept_of_known hv hentering.rsp (by omega) x
      (.inr ⟨hx.1, Nat.lt_of_lt_of_le hx.2 (by simp [stackSize]; omega)⟩)
  · rcases hx with hx | hx
    · exact .inl (.inl hx)
    · by_cases hge : 200 ≤ (x - h.low).toNat
      · exact .inl (.inr ⟨hge, hx.2⟩)
      · exact .inr ((hslots x).mpr ⟨hx.1, by omega⟩)

theorem goes_locked (hentering : h.Entering 192 v)
    (hnext : ∀ b v m call, h.ClonedBy env b m call → h.AtHandler env b v m →
      Goes env (h.kept ++ b.ranges) [call] Q ps4PayloadFunctionHookHandler v (h.Owned b none) m) :
    Goes env h.kept [] Q prologueLocked v (h.Known 192) h.spinning := by
  have hq := hv.quiet
  have hunchanged : ∀ x, h.Known 200 x → h.entry.memory x = h.spinning x := by
    intro x hx
    refine (putWord_outside (fun hin => ?_)).symm
    rcases hx with hx | hx
    · exact hv.handle x (hx.mono (by omega)) (stack_of_inside hv (by omega) hin).2
    · rw [inside_offset (by omega)] at hin
      have hle := hx.1
      omega
  have hv₁ : h.Entering 200 (v.popped.set .r12 (h.entry.register .r12)) :=
    (hentering.restack ((congrArg (· + 8) hentering.rsp).trans (offset_add _ _ _))).setR12 _
  have hv₂ : h.Entering 16 (perform (.subtract 184 .rsp : Instruction Label)
      (v.popped.set .r12 (h.entry.register .r12)) h.entry.memory).toView :=
    (hv₁.restack ((congrArg (· - _) hv₁.rsp).trans
      (offset_sub _ (by omega : 184 ≤ 200)))).compared _ _
  refine goes_restack hq (v.popped.set .r12 (h.entry.register .r12)) (h.Known 200) rfl
    (fun m' hm' => ?_)
    (fun x hx => hx.mono (by omega)) (fun _ => kept_of_known hv hv₁.rsp (by omega)) ?_
  · have hw : wordAt m' (v.register .rsp) = h.entry.register .r12 := by
      rw [hentering.rsp, hm'.word (fun x hx => .inr (stack_of_inside hv (by omega) hx))]
      exact wordAt_putWord _ _ _
    rw [perform, hw]
  refine Goes.memory ?_ hunchanged
  refine goes_restack hq _ (h.Known 200) rfl (fun _ _ => rfl) (fun _ hx => hx)
    (fun _ x hx => kept_of_known hv hv₂.rsp (by omega) x (hx.mono (by omega))) ?_
  exact goes_saving hv hv₂ rfl hnext

theorem leads_start (hnext : ∀ b v m call, h.ClonedBy env b m call → h.AtHandler env b v m →
      Goes env (h.kept ++ b.ranges) [call] Q ps4PayloadFunctionHookHandler v (h.Owned b none) m) :
    Leads env h.start Q := by
  obtain ⟨n, hn⟩ := hv.acquires
  have hbefore : ∀ j < 3, (env.step^[j] h.start).control ≠ .inside prologueLocked := by
    intro j hj
    obtain rfl | rfl | rfl : j = 0 ∨ j = 1 ∨ j = 2 := by omega
    · have hlength : (ps4PayloadTemplateFunctionHookPrologue h.handle).length =
        prologueLoop.length + 3 := rfl
      refine control_ne_locked ?_
      rw [hlength]
      decide
    · have hlength : (.increment 16 .r11 :: .push .r12 :: prologueLoop : Code).length ≠
          prologueLocked.length := by
        decide
      exact control_ne_locked hlength
    · obtain ⟨v, m, hc, -, -, -⟩ := counted_start hv
      rw [hc]
      exact control_ne_locked (by decide)
  obtain ⟨-, hlocked⟩ := after_steps (D := fun c => c.control = .inside prologueLocked) hbefore hn
  refine Leads.steps (k := 3) (leads_of_spins hv (fun c hc => ?_) (spins_start hv) hlocked)
  obtain ⟨v, m, t, rfl, hentering, hm⟩ := hc
  exact goes_locked hv hentering hnext (kept_of_known hv hentering.rsp (by omega)) m t hm

end

end HookedCall

end Ps4Sdk.FunctionHookAssembly
