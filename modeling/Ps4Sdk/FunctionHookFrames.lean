import Ps4Sdk.FunctionHookAssembly

/-!
# The memory of a hooked call

The places of the parameters and of the returned values in their blocks, the stack of the
call and the blocks of a clone, and what a called function leaves as it was.
-/

namespace Ps4Sdk.FunctionHookAssembly
open ByteMemory AssemblyMachines

variable {env : Environment Label} {Q : Config Label → Prop} {v v' : View}
  {m m' m₀ : Bytes} {x : Word}

theorem saveParameters_eq (base : Register) :
    saveParameters base = parameters.reverse.map (Slot.storeTo base) := rfl

theorem loadParameters_eq (base : Register) :
    loadParameters base = parameters.map (Slot.loadFrom base) := rfl

theorem separate_parameters : Separate parameters.reverse := by decide

theorem separate_returns : Separate returns.reverse := by decide

private theorem parameters_dense {d : ℕ} (hd : d < 184) : ∃ p ∈ parameters, p.2 ≤ d ∧
    d < p.2 + p.1.size := by
  revert d
  decide +kernel

private theorem parameters_within : ∀ p ∈ parameters, p.2 + p.1.size ≤ 184 := by decide

theorem atSlot_parameters {a : Word} : AtSlot a parameters x ↔ Inside a 184 x := by
  constructor
  · rintro ⟨p, hp, hx⟩
    exact hx.of_add (parameters_within p hp)
  · intro hx
    obtain ⟨p, hp, hle, hlt⟩ := parameters_dense hx
    have hwithin := parameters_within p hp
    exact ⟨p, hp, (inside_offset (by omega)).mpr ⟨hle, hlt⟩⟩

private theorem returns_dense {d : ℕ} (hd : d < 48) : ∃ p ∈ returns, p.2 ≤ d ∧
    d < p.2 + p.1.size := by
  revert d
  decide

private theorem returns_within : ∀ p ∈ returns, p.2 + p.1.size ≤ 48 := by decide

theorem atSlot_returns {a : Word} : AtSlot a returns x ↔ Inside a 48 x := by
  constructor
  · rintro ⟨p, hp, hx⟩
    exact hx.of_add (returns_within p hp)
  · intro hx
    obtain ⟨p, hp, hle, hlt⟩ := returns_dense hx
    have hwithin := returns_within p hp
    exact ⟨p, hp, (inside_offset (by omega)).mpr ⟨hle, hlt⟩⟩

theorem atSlot_reverse {a : Word} {l : List (Slot × ℕ)} : AtSlot a l.reverse x ↔ AtSlot a l x := by
  simp [AtSlot]

/-! ### What a called function leaves -/

structure Stays (v v' : View) : Prop where
  registers : ∀ r ∈ Register.rsp :: calleeSaved, v'.register r = v.register r
  thread : v'.thread = v.thread

namespace Stays

theorem refl (v : View) : Stays v v := ⟨fun _ _ => rfl, rfl⟩

theorem trans {v'' : View} (h : Stays v v') (h' : Stays v' v'') : Stays v v'' :=
  ⟨fun r hr => (h'.registers r hr).trans (h.registers r hr), h'.thread.trans h.thread⟩

theorem set (h : Stays v v') {r : Register} (hr : r ∉ Register.rsp :: calleeSaved) (w : Word) :
    Stays v (v'.set r w) := by
  refine ⟨fun r' hr' => ?_, h.thread⟩
  have hne : r' ≠ r := fun he => hr (he ▸ hr')
  rw [View.register_set_of_ne hne]
  exact h.registers r' hr'

theorem compared (h : Stays v v') (a b : ℤ) : Stays v (v'.compared a b) := ⟨h.registers, h.thread⟩

theorem loadAll (h : Stays v v') {a : Word} {l : List (Slot × ℕ)}
    (hl : ∀ r ∈ Register.rsp :: calleeSaved, .register r ∉ slots l) : Stays v (loadAll m a l v') :=
  ⟨fun r hr => (loadAll_register (hl r hr)).trans (h.registers r hr),
    loadAll_flags.2.trans h.thread⟩

end Stays

theorem Obeys.stays {s s' : Machine} (h : Obeys s s') (hs : s.toView = v.pushed) :
    Stays v s'.toView := by
  refine ⟨fun r hr => ?_, h.thread.trans (by rw [hs]; rfl)⟩
  rcases List.mem_cons.mp hr with rfl | hr
  · rw [h.rsp, hs]
    exact BitVec.sub_add_cancel _ _
  · rw [h.saved r hr, hs]
    refine View.register_set_of_ne ?_
    rintro rfl
    revert hr
    decide

namespace HookedCall

variable {h : HookedCall} {b : Blocks}

/-! ### The stack -/

theorem rsp_entry (h : HookedCall) : h.entry.register .rsp = h.low + BitVec.ofNat 64 200 :=
  (BitVec.sub_add_cancel _ _).symm

/-- The registers that the code keeps, with `r12` and the stack pointer as it has set them. -/
def frame (h : HookedCall) (r12 : Word) (k : ℕ) : View :=
  (h.entry.toView.set .r12 r12).set .rsp (h.low + BitVec.ofNat 64 k)

section
variable {w : Word} {k : ℕ} (hs : Stays (h.frame w k) v)
include hs

theorem rsp_of_stays : v.register .rsp = h.low + BitVec.ofNat 64 k := hs.registers .rsp (by decide)

theorem r12_of_stays : v.register .r12 = w := hs.registers .r12 (by decide)

theorem saved_of_stays {r : Register} (hr : r ∈ calleeSaved) (hne : r ≠ .r12) :
    v.register r = h.entry.register r := by
  have hrsp : r ≠ .rsp := by
    rintro rfl
    revert hr
    decide
  rw [hs.registers r (List.mem_cons_of_mem _ hr), frame, View.register_set_of_ne hrsp,
    View.register_set_of_ne hne]

theorem stays_restack {j : ℕ} {a : Word} (ha : a = h.low + BitVec.ofNat 64 j) :
    Stays (h.frame w j) (v.set .rsp a) := by
  refine ⟨fun r hr => ?_, hs.thread⟩
  by_cases hrsp : r = .rsp
  · subst hrsp
    exact ha
  · rw [View.register_set_of_ne hrsp, hs.registers r hr, frame, frame, View.register_set_of_ne hrsp,
      View.register_set_of_ne hrsp]

theorem stays_setR12 (w' : Word) : Stays (h.frame w' k) (v.set .r12 w') := by
  refine ⟨fun r hr => ?_, hs.thread⟩
  by_cases hr12 : r = .r12
  · subst hr12
    rfl
  · rw [View.register_set_of_ne hr12, hs.registers r hr, frame, frame]
    by_cases hrsp : r = .rsp
    · rw [hrsp, View.register_set, View.register_set]
    · simp only [View.register_set_of_ne hrsp, View.register_set_of_ne hr12]

theorem stays_subtract {n : ℕ} (hn : n ≤ k) :
    Stays (h.frame w (k - n)) (v.set .rsp (v.register .rsp - BitVec.ofNat 64 n)) :=
  stays_restack hs ((congrArg (· - _) (rsp_of_stays hs)).trans (offset_sub _ hn))

theorem stays_add (n : ℕ) :
    Stays (h.frame w (k + n)) (v.set .rsp (v.register .rsp + BitVec.ofNat 64 n)) :=
  stays_restack hs ((congrArg (· + _) (rsp_of_stays hs)).trans (offset_add _ _ _))

theorem stays_pushed (hk : 8 ≤ k) : Stays (h.frame w (k - 8)) v.pushed := stays_subtract hs hk

theorem stays_popped : Stays (h.frame w (k + 8)) v.popped := stays_add hs 8

end

def Carries (h : HookedCall) (v : View) : Prop := ∀ p ∈ parameters, v.bytes p.1 = h.entry.bytes p.1

theorem Carries.set (hc : h.Carries v) {r : Register}
    (hr : .register r ∉ slots parameters) (w : Word) :
    h.Carries (v.set r w) :=
  fun p hp => (View.bytes_set_of_ne (fun he => hr (he ▸ List.mem_map_of_mem hp))).trans (hc p hp)

theorem Carries.compared (hc : h.Carries v) (i j : ℤ) : h.Carries (v.compared i j) := by
  intro p hp
  rw [← hc p hp]
  cases p.1 <;> rfl

theorem Carries.register (hc : h.Carries v) {r : Register} (hr : .register r ∈ slots parameters) :
    v.register r = h.entry.register r := by
  obtain ⟨p, hp, he⟩ := List.mem_map.mp hr
  exact View.register_of_bytes (he ▸ hc p hp)

theorem Carries.vector (hc : h.Carries v) : v.vector = h.entry.vector := by
  have hslots : ∀ i : Fin 8, Slot.vector i ∈ slots parameters := by decide
  funext i
  obtain ⟨p, hp, he⟩ := List.mem_map.mp (hslots i)
  exact View.vector_of_bytes (he ▸ hc p hp)

def Stack (h : HookedCall) (k : ℕ) (x : Word) : Prop := k ≤ (x - h.low).toNat ∧
    (x - h.low).toNat < h.stackSize

def Cloned (b : Blocks) (x : Word) : Prop := ∃ r ∈ b.ranges, Inside r.1 r.2 x

theorem Stack.mono {k j : ℕ} (hx : h.Stack k x) (hj : j ≤ k) : h.Stack j x := ⟨hj.trans hx.1, hx.2⟩

section
variable (hv : h.Valid env)
include hv

theorem kept_iff {kept : List Range} {k : ℕ}
    (hrsp : v.register .rsp = h.low + BitVec.ofNat 64 k) (hk : k ≤ 208) :
    Kept env.top kept v x ↔ (∃ r ∈ kept, Inside r.1 r.2 x) ∨ h.Stack k x :=
  kept_offset hv.top hv.size hrsp (hk.trans (Nat.le_add_right _ _))

theorem not_stack_of_handle {i : ℕ} (hi : i ≤ 184) {k : ℕ}
    (hx : Inside (h.handle + BitVec.ofNat 64 i) 8 x) :
    ¬h.Stack k x := fun hs => hv.handle x (hx.of_add (by omega)) hs.2

end

/-! ### The blocks -/

/-- What neither the prologue nor the handler changes in a clone: its fields from `epilogue` to
`hookType` and the two tables. -/
def Static (b : Blocks) (x : Word) : Prop :=
  Inside (b.clone + BitVec.ofNat 64 48) 72 x ∨ Inside b.hook (8 * b.size) x ∨
    Inside b.hookType (8 * b.size) x

theorem Static.cloned (hx : Static b x) : Cloned b x := by
  rcases hx with hx | hx | hx
  · exact ⟨(b.clone, 192), by simp [Blocks.ranges], hx.of_add (by omega)⟩
  · exact ⟨(b.hook, 8 * b.size), by simp [Blocks.ranges], hx⟩
  · exact ⟨(b.hookType, 8 * b.size), by simp [Blocks.ranges], hx⟩

theorem cloned_field {i n : ℕ} (hi : i + n ≤ 192) (hx : Inside (b.clone + BitVec.ofNat 64 i) n x) :
    Cloned b x :=
  ⟨(b.clone, 192), List.mem_cons_self, hx.of_add hi⟩

theorem static_field {i : ℕ} (hi : 48 ≤ i) (hi' : i + 8 ≤ 120)
    (hx : Inside (b.clone + BitVec.ofNat 64 i) 8 x) :
    Static b x := by
  rw [inside_offset (by omega)] at hx
  refine .inl ((inside_offset (by omega)).mpr ?_)
  omega

theorem static_hook {i : ℕ} (hi : i < b.size) (hx : Inside (b.hook + BitVec.ofNat 64 (8 * i)) 8 x) :
    Static b x :=
  .inr (.inl (hx.of_add (by omega)))

theorem static_hookType {i : ℕ} (hi : i < b.size)
    (hx : Inside (b.hookType + BitVec.ofNat 64 (8 * i)) 8 x) :
    Static b x :=
  .inr (.inr (hx.of_add (by omega)))

theorem New.clone_apart (hn : h.New b) {r : Range} (hr : r ∈ b.ranges.tail) :
    Apart b.clone 192 r.1 r.2 :=
  (List.pairwise_cons.mp hn.apart).1 r hr

theorem New.not_static (hn : h.New b) {i n : ℕ} (hi : i + n ≤ 48 ∨ 120 ≤ i) (hi' : i + n ≤ 192)
    (hx : Inside (b.clone + BitVec.ofNat 64 i) n x) : ¬Static b x := by
  have hclone : Inside b.clone 192 x := hx.of_add hi'
  rintro (hs | hs | hs)
  · rw [inside_offset (by omega)] at hx hs
    omega
  · exact hn.clone_apart (r := (b.hook, 8 * b.size)) (by simp [Blocks.ranges]) x hclone hs
  · exact hn.clone_apart (r := (b.hookType, 8 * b.size)) (by simp [Blocks.ranges]) x hclone hs

/-- The blocks of the parameters and of the returned values are neither. -/
theorem New.block_not_static (hn : h.New b) {r : Range}
    (hr : r ∈ [(b.arguments, 184), (b.returns, 48)]) (hx : Inside r.1 r.2 x) : ¬Static b x := by
  have hclone : r ∈ b.ranges.tail := by
    simp only [List.mem_cons, List.not_mem_nil, or_false] at hr
    rcases hr with rfl | rfl <;> simp [Blocks.ranges]
  have hrest := (List.pairwise_cons.mp hn.apart).2
  have htables : Apart r.1 r.2 b.hook (8 * b.size) ∧ Apart r.1 r.2 b.hookType (8 * b.size) := by
    simp only [List.mem_cons, List.not_mem_nil, or_false] at hr
    rcases hr with rfl | rfl
    · have harguments := (List.pairwise_cons.mp hrest).1
      exact ⟨harguments (b.hook, 8 * b.size) (by simp),
        harguments (b.hookType, 8 * b.size) (by simp)⟩
    · have hreturns := (List.pairwise_cons.mp (List.pairwise_cons.mp hrest).2).1
      exact ⟨hreturns (b.hook, 8 * b.size) (by simp), hreturns (b.hookType, 8 * b.size) (by simp)⟩
  rintro (hs | hs | hs)
  · exact hn.clone_apart hclone x (hs.of_add (by omega)) hx
  · exact htables.1 x hx hs
  · exact htables.2 x hx hs

theorem New.arguments_apart (hn : h.New b) : Apart b.arguments 184 b.returns 48 :=
  (List.pairwise_cons.mp (List.pairwise_cons.mp hn.apart).2).1 (b.returns, 48) (by simp)

theorem New.not_stack (hn : h.New b) {k : ℕ} (hx : Cloned b x) : ¬h.Stack k x := by
  obtain ⟨r, hr, hx⟩ := hx
  exact fun hs => hn.stack r hr x hx hs.2

theorem New.not_handle (hn : h.New b) (hx : Cloned b x) : ¬Inside h.handle 192 x := by
  obtain ⟨r, hr, hx⟩ := hx
  exact hn.handle r hr x hx

theorem New.not_thread (hn : h.New b) (hx : Cloned b x) : ¬Inside h.threadReturn 8 x := by
  obtain ⟨r, hr, hx⟩ := hx
  exact hn.thread r hr x hx

/-- What the thread knows in the handler: the blocks of the clone and, until the original has been
called, the arguments on the stack. -/
def Owned (h : HookedCall) (b : Blocks) (phase : Option Machine) (x : Word) : Prop :=
  Cloned b x ∨ phase = none ∧ h.Stack 208 x

theorem CloneOf.congr (hc : h.CloneOf env b m) (hm : ∀ x, Static b x → m' x = m x) :
    h.CloneOf env b m' := by
  have hfield : ∀ i, 48 ≤ i → i + 8 ≤ 120 →
      wordAt m' (b.clone + BitVec.ofNat 64 i) = wordAt m (b.clone + BitVec.ofNat 64 i) :=
        fun i hi hi' =>
    wordAt_congr (fun x hx => hm x (static_field hi hi' hx))
  have hhook : ∀ i < b.size, b.hookAt m' i = b.hookAt m i := fun i hi =>
    wordAt_congr (fun x hx => hm x (static_hook hi hx))
  have htype : ∀ i < b.size, b.typeAt m' i = b.typeAt m i := fun i hi =>
    wordAt_congr (fun x hx => hm x (static_hookType hi hx))
  refine ⟨(hfield 48 (by omega) (by omega)).trans hc.epilogue,
    (hfield 64 (by omega) (by omega)).trans hc.arguments,
    (hfield 72 (by omega) (by omega)).trans hc.returns,
    (hfield 88 (by omega) (by omega)).trans hc.bridge,
    (hfield 104 (by omega) (by omega)).trans hc.hook,
    (hfield 112 (by omega) (by omega)).trans hc.hookType, ?_, ?_⟩
  · obtain ⟨i, hi, hzero⟩ := hc.terminated
    exact ⟨i, hi, (htype i hi).trans hzero⟩
  · intro i hi
    rw [hhook i hi]
    exact hc.continues i hi

end HookedCall

end Ps4Sdk.FunctionHookAssembly
