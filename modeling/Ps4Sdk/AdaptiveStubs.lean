import Ps4Sdk.RegisterParameters
import Ps4Sdk.KernelBase

/-!
# Adaptive function stubs, `stub.h` and `stub_resolve`

A stub serves the kernel and user space. It has a slot with the address of the function
for each of them, chooses one by its stack pointer, and jumps to the address in it. An
empty slot is first filled by the resolver, which looks at its own stack pointer. The
variables of the stub are no part of the stack.
-/

namespace Ps4Sdk.AdaptiveStubs
open ByteMemory AssemblyMachines RegisterParameters

/-- What a stub refers to, and the addresses behind its calls. -/
structure Symbols where
  function : Word
  moduleName : Word
  functionName : Word
  moduleHandle : Word
  userFunctionAddress : Word
  kernelFunctionAddress : Word
  afterPush : Word
  afterResolve : Word
  afterPop : Word
  present : ∀ a ∈ [function, moduleName, functionName, moduleHandle, userFunctionAddress,
    kernelFunctionAddress],
    a ≠ 0#64
  distinct : userFunctionAddress ≠ kernelFunctionAddress

/-- The variables of stubs and resolvers. What the resolvers found is a record that nothing
reads. -/
structure Variables where
  word : Word → Word
  int : Word → BitVec 32
  loadStartModule : Word
  fromKernel : List Word
  fromUser : List Word

/-- What the kernel and the loaded modules answer. A system call for a symbol that fails stores
nothing. -/
structure Answers where
  ps4KernelDlSym : Word → Word
  libkernel : BitVec 32
  loadSymbol : BitVec 32 → Option Word
  loadModule : Word → Word → BitVec 32
  symbol : BitVec 32 → Word → Option Word

/-! ### The resolvers -/

def ps4KernelStubResolve (q : Answers) (g : Variables) (stub functionName kernelAddress : Word) :
    Code × Variables :=
  if stub = 0#64 ∨ functionName = 0#64 ∨ kernelAddress = 0#64 then (-1, g)
  else
    let g := { g with
      word := Function.update g.word kernelAddress (q.ps4KernelDlSym functionName)
      fromKernel := q.ps4KernelDlSym functionName :: g.fromKernel }
    if g.word kernelAddress = 0#64 then (-1, g) else (0, g)

/-- The static variable of `ps4StubResolve`, which is set when it is first used. -/
def loadFunction (q : Answers) (g : Variables) : Option Variables :=
  if g.loadStartModule ≠ 0#64 then some g
  else if q.libkernel.toInt ≤ 0 then none
  else (q.loadSymbol q.libkernel).map (fun a => { g with loadStartModule := a })

def startModule (q : Answers) (g : Variables) (moduleName moduleHandle : Word) : Bool × Variables :=
  if (g.int moduleHandle).toInt ≤ 0 then
    match loadFunction q g with
    | none => (false, g)
    | some g =>
      let handle := q.loadModule g.loadStartModule moduleName
      (0 < handle.toInt, { g with int := Function.update g.int moduleHandle handle })
  else (true, g)

def ps4StubResolve (q : Answers) (g : Variables)
    (stub moduleName functionName moduleHandle userAddress : Word) :
    Code × Variables :=
  if stub = 0#64 ∨ moduleName = 0#64 ∨ functionName = 0#64 ∨ moduleHandle = 0#64 ∨
    userAddress = 0#64 then (-1, g)
  else
    match startModule q g moduleName moduleHandle with
    | (false, g) => (-1, g)
    | (true, g) =>
      match q.symbol (g.int moduleHandle) functionName with
      | none => (-1, g)
      | some a =>
        (0, { g with word := Function.update g.word userAddress a, fromUser := a :: g.fromUser })

def ps4AdaptiveStubResolve (q : Answers) (sp : Word) (g : Variables)
    (stub moduleName functionName moduleHandle userAddress kernelAddress : Word) :
    Code × Variables :=
  if sp >>> 48 > 0#64 then ps4KernelStubResolve q g stub functionName kernelAddress
  else ps4StubResolve q g stub moduleName functionName moduleHandle userAddress

/-! ### The stub -/

/-- What surrounds one pass through a stub: the answers, how far below the return address of the
resolver its stack pointer is when it reads it, the upper half of the register with its result, and
what it leaves in the other registers and in the stack, which is as the calling convention says. -/
structure Surroundings where
  answers : Answers
  frame : ℕ
  upper : BitVec 32
  leaves : Machine → Machine
  frame_le : frame ≤ 0x1000 - 200
  rsp : ∀ s, (leaves s).register .rsp = s.register .rsp + 8
  stack : ∀ s x, Inside (s.register .rsp + 8) 200 x → (leaves s).memory x = s.memory x

def selected (y : Symbols) (g : Variables) (v : View) : View :=
  let v := v.compared ((v.register .rax).setWidth 8 &&& 2).toInt 0
  let v := v.set .r11 (v.register .rax)
  let v := v.set .rax (v.register .rsp)
  let v := v.set .rax (v.register .rax >>> 48)
  let v := v.compared (v.register .rax).toInt 0
  let v := v.set .rax (g.word (if Condition.nonzero.holds v.flags then y.kernelFunctionAddress
    else y.userFunctionAddress))
  let v := (v.set .rax (v.register .r11)).set .r11 (v.register .rax)
  v.compared (v.register .r11).toInt 0

def loaded (y : Symbols) (v : View) : View :=
  let v := v.set .rdi y.function
  let v := v.set .rsi y.moduleName
  let v := v.set .rdx y.functionName
  let v := v.set .rcx y.moduleHandle
  let v := v.set .r8 y.userFunctionAddress
  let v := v.set .r9 y.kernelFunctionAddress
  v.set .rax (v.register .rax ^^^ v.register .rax)

/-- How a pass through the stub ends: with the jump to the address in the slot, with the return to
the caller, elsewhere because a called function did not return behind its call, or at the start of
the stub again. -/
inductive Exit
  | jumped (target : Word) (s : Machine)
  | returned (target : Word) (s : Machine)
  | strayed (target : Word) (s : Machine)
  | again (s : Machine)

def resolve (y : Symbols) (e : Surroundings) (g : Variables) (s : Machine) : Machine × Variables :=
  let s := called y.afterResolve ⟨loaded y s.toView, s.memory⟩
  let r := ps4AdaptiveStubResolve e.answers (s.register .rsp - BitVec.ofNat 64 e.frame) g
    (s.register .rdi)
    (s.register .rsi) (s.register .rdx) (s.register .rcx) (s.register .r8) (s.register .r9)
  (⟨(e.leaves s).set .rax (e.upper ++ r.1), (e.leaves s).memory⟩, r.2)

def finish (s : Machine) : Exit :=
  let v := s.compared (s.register .r11).toInt 0
  if Condition.nonzero.holds v.flags then
    .returned (wordAt s.memory (v.register .rsp)) ⟨v.popped, s.memory⟩
  else .again ⟨v, s.memory⟩

def attempt (y : Symbols) (e : Surroundings) (g : Variables) (s : Machine) : Exit × Variables :=
  let v := selected y g s.toView
  if Condition.zero.holds v.flags then
    let p := ps4AssemblerRegisterParameterPush (called y.afterPush ⟨v, s.memory⟩)
    if p.1 ≠ y.afterPush then (.strayed p.1 p.2, g)
    else
      let r := resolve y e g p.2
      let p := ps4AssemblerRegisterParameterPop
        (called y.afterPop ⟨r.1.set .r11 (r.1.register .rax), r.1.memory⟩)
      if p.1 ≠ y.afterPop then (.strayed p.1 p.2, r.2) else (finish p.2, r.2)
  else (.jumped (v.register .r11) ⟨v, s.memory⟩, g)

/-- A call of the stub, with as many passes as there are surroundings. -/
def call (y : Symbols) : List Surroundings → Variables → Machine → Exit × Variables
  | [], g, s => (.again s, g)
  | e :: es, g, s =>
    match attempt y e g s with
    | (.again s, g) => call y es g s
    | r => r

/-! ### Spaces -/

inductive Space
  | kernel
  | user
  deriving DecidableEq

/-- Canonical stack pointers, those of user space at least a page above zero. -/
def Space.OnStack : Space → Word → Prop
  | .kernel, rsp => 0xffff800000000000 ≤ rsp.toNat
  | .user, rsp => 0x1000 ≤ rsp.toNat ∧ rsp.toNat < 0x800000000000

def Symbols.slot (y : Symbols) : Space → Word
  | .kernel => y.kernelFunctionAddress
  | .user => y.userFunctionAddress

/-- The addresses that the resolver of a space has found. -/
def Variables.found (g : Variables) : Space → List Word
  | .kernel => g.fromKernel
  | .user => g.fromUser

/-- Each slot is empty or holds an address that its resolver found. -/
def Sound (y : Symbols) (g : Variables) : Prop :=
  ∀ space, g.word (y.slot space) = 0#64 ∨ g.word (y.slot space) ∈ g.found space

def resolution (y : Symbols) (e : Surroundings) (g : Variables) : Space → Code × Variables
  | .kernel => ps4KernelStubResolve e.answers g y.function y.functionName y.kernelFunctionAddress
  | .user =>
    ps4StubResolve e.answers g y.function y.moduleName y.functionName y.moduleHandle
      y.userFunctionAddress

/-- The caller's arguments, the stack pointer and the return address at it are as they were. -/
structure Same (s s' : Machine) : Prop where
  rsp : s'.register .rsp = s.register .rsp
  rax : s'.register .rax = s.register .rax
  parameters : ∀ slot ∈ slots places, s'.bytes slot = s.bytes slot
  stack : ∀ x, Inside (s.register .rsp) 8 x → s'.memory x = s.memory x

theorem Same.refl (s : Machine) : Same s s := ⟨rfl, rfl, fun _ _ => rfl, fun _ _ => rfl⟩

theorem Same.trans {s s' s'' : Machine} (h : Same s s') (h' : Same s' s'') : Same s s'' where
  rsp := h'.rsp.trans h.rsp
  rax := h'.rax.trans h.rax
  parameters slot hs := (h'.parameters slot hs).trans (h.parameters slot hs)
  stack x hx := (h'.stack x (by rwa [h.rsp])).trans (h.stack x hx)

theorem Same.word {s s' : Machine} (h : Same s s') :
    wordAt s'.memory (s'.register .rsp) = wordAt s.memory (s.register .rsp) := by
  rw [h.rsp, wordAt_congr h.stack]

/-! ### One pass -/

private theorem shift_eq_zero_iff (w : Word) : w >>> 48 = 0#64 ↔ w.toNat < 2 ^ 48 := by
  have hw := w.isLt
  rw [← BitVec.toNat_inj, BitVec.toNat_ushiftRight, Nat.shiftRight_eq_div_pow]
  change w.toNat / 2 ^ 48 = 0 ↔ _
  omega

/-- A stack pointer that is at most a page lower is one of the same space. -/
theorem Space.OnStack.shift {space : Space} {rsp : Word} (h : space.OnStack rsp) {d : ℕ}
    (hd : d ≤ 0x1000) :
    (rsp - BitVec.ofNat 64 d) >>> 48 = 0#64 ↔ space = .user := by
  have hrsp := rsp.isLt
  rw [shift_eq_zero_iff]
  cases space with
  | kernel =>
    have hk : 0xffff800000000000 ≤ rsp.toNat := h
    refine iff_of_false ?_ (by decide)
    rw [BitVec.toNat_sub, BitVec.toNat_ofNat]
    omega
  | user =>
    obtain ⟨hlow, hhigh⟩ := h
    refine iff_of_true ?_ rfl
    rw [BitVec.toNat_sub, BitVec.toNat_ofNat]
    omega

theorem nonzero_holds (w : Word) : Condition.nonzero.holds (compare w.toInt 0) = true ↔
    w ≠ 0#64 := by
  rw [holds_compare]
  refine not_congr ⟨fun h => BitVec.eq_of_toInt_eq (h.trans (by decide)), fun h => ?_⟩
  rw [h]
  rfl

/-- The test chooses the slot of the space, and all the registers of the caller are as they were. -/
theorem selected_spec {space : Space} (y : Symbols) (g : Variables) {v : View}
    (h : space.OnStack (v.register .rsp)) :
    (selected y g v).register .r11 = g.word (y.slot space) ∧
      (selected y g v).flags = compare (g.word (y.slot space)).toInt 0 ∧
      (∀ r, r ≠ .r11 → (selected y g v).register r = v.register r) ∧
      (selected y g v).vector = v.vector := by
  have hshift := h.shift (Nat.zero_le _)
  rw [BitVec.sub_zero] at hshift
  have hslot : (if Condition.nonzero.holds (compare (v.register .rsp >>> 48).toInt 0) then
      y.kernelFunctionAddress else y.userFunctionAddress) = y.slot space := by
    cases space with
    | kernel => exact if_pos ((nonzero_holds _).mpr fun h₀ => absurd (hshift.mp h₀) (by decide))
    | user => exact if_neg fun h₀ => (nonzero_holds _).mp h₀ (hshift.mpr rfl)
  have hregister : (selected y g v).register =
      Function.update v.register .r11 (g.word (y.slot space)) := by
    rw [← hslot]
    funext r
    cases r <;> simp [selected, View.compared, View.set, Function.update]
  have hflags : (selected y g v).flags = compare ((selected y g v).register .r11).toInt 0 := rfl
  have hr11 : (selected y g v).register .r11 = g.word (y.slot space) := by
    rw [hregister, Function.update_self]
  refine ⟨hr11, by rw [hflags, hr11], fun r hr => ?_, rfl⟩
  rw [hregister, Function.update_of_ne hr]

section Passes

variable {space : Space} (y : Symbols) (e : Surroundings) (g : Variables)
  {s s' : Machine} {a : Word}

/-- The resolver tests a stack pointer of the same space. -/
theorem resolver_eq (h : space.OnStack (a + BitVec.ofNat 64 200)) :
    ps4AdaptiveStubResolve e.answers
      (a - BitVec.ofNat 64 e.frame) g y.function y.moduleName y.functionName
      y.moduleHandle y.userFunctionAddress y.kernelFunctionAddress = resolution y e g space := by
  have hframe := e.frame_le
  have hlow : a - BitVec.ofNat 64 e.frame =
      a + BitVec.ofNat 64 200 - BitVec.ofNat 64 (200 + e.frame) := by
    rw [BitVec.ofNat_add]
    bv_omega
  have hshift := h.shift (d := 200 + e.frame) (by omega)
  have hpos : ∀ w : Word, w > 0#64 ↔ w ≠ 0#64 := by
    intro w
    bv_omega
  rw [ps4AdaptiveStubResolve, hlow]
  cases space with
  | kernel => exact if_pos ((hpos _).mpr fun h₀ => absurd (hshift.mp h₀) (by decide))
  | user => exact if_neg fun h₀ => (hpos _).mp h₀ (hshift.mpr rfl)

theorem resolve_spec (hrsp : s.register .rsp = a + BitVec.ofNat 64 8)
    (h : space.OnStack (a + BitVec.ofNat 64 200)) :
    (resolve y e g s).2 = (resolution y e g space).2 ∧
      (resolve y e g s).1.register .rax = e.upper ++ (resolution y e g space).1 ∧
      (resolve y e g s).1.register .rsp = a + BitVec.ofNat 64 8 ∧
      ∀ x, 8 ≤ (x - a).toNat → (x - a).toNat < 208 → (resolve y e g s).1.memory x = s.memory x := by
  have hloaded : (loaded y s.toView).register .rsp = a + BitVec.ofNat 64 8 := by
    rw [← hrsp]
    simp [loaded, View.set]
  have hlow : (called y.afterResolve ⟨loaded y s.toView, s.memory⟩).register .rsp = a := by
    change ((loaded y s.toView).set .rsp _).register .rsp = _
    rw [View.register_set, hloaded]
    exact BitVec.add_sub_cancel _ _
  have hcall : ps4AdaptiveStubResolve e.answers
      ((called y.afterResolve ⟨loaded y s.toView, s.memory⟩).register
        .rsp - BitVec.ofNat 64 e.frame) g
      ((called y.afterResolve ⟨loaded y s.toView, s.memory⟩).register .rdi)
      ((called y.afterResolve ⟨loaded y s.toView, s.memory⟩).register .rsi)
      ((called y.afterResolve ⟨loaded y s.toView, s.memory⟩).register .rdx)
      ((called y.afterResolve ⟨loaded y s.toView, s.memory⟩).register .rcx)
      ((called y.afterResolve ⟨loaded y s.toView, s.memory⟩).register .r8)
      ((called y.afterResolve ⟨loaded y s.toView, s.memory⟩).register .r9) =
        resolution y e g space := by
    rw [hlow, ← resolver_eq y e g h]
    simp [called, loaded, View.pushed, View.set]
  refine ⟨congrArg Prod.snd hcall, ?_, ?_, fun x hx hx' => ?_⟩
  · exact View.register_set.trans (congrArg (fun r : Code × Variables => e.upper ++ r.1) hcall)
  · refine (View.register_set_of_ne (by decide)).trans ?_
    rw [e.rsp, hlow]
    rfl
  · refine (e.stack _ x ?_).trans (putWord_outside ?_)
    · rw [hlow]
      exact (inside_offset (i := 8) (by omega)).mpr ⟨hx, hx'⟩
    · intro hin
      change Inside ((called y.afterResolve ⟨loaded y s.toView, s.memory⟩).register .rsp) 8 x at hin
      rw [hlow] at hin
      unfold Inside at hin
      omega

private theorem same_selected (h : space.OnStack (s.register .rsp)) :
    Same s ⟨selected y g s.toView, s.memory⟩ := by
  obtain ⟨-, -, hregister, hvector⟩ := selected_spec y g h
  have hagree : Agree 8 s ⟨selected y g s.toView, s.memory⟩ := agree_of_registers hregister hvector
  exact ⟨hagree.rsp, hagree.rax, hagree.parameters, hagree.stack⟩

theorem attempt_filled (h : space.OnStack (s.register .rsp))
    (hslot : g.word (y.slot space) ≠ 0#64) :
    ∃ s', Same s s' ∧ attempt y e g s = (.jumped (g.word (y.slot space)) s', g) := by
  obtain ⟨hr11, hflags, -, -⟩ := selected_spec y g h
  have hzero : ¬Condition.zero.holds (selected y g s.toView).flags = true := by
    rw [hflags, holds_compare]
    exact fun h₀ => hslot (BitVec.eq_of_toInt_eq (h₀.trans (by decide)))
  refine ⟨_, same_selected y g h, ?_⟩
  rw [attempt]
  simp only [hzero, if_false, hr11, Bool.false_eq_true]

/-- The end of the pass: the result of the resolver is in `%r11`. -/
theorem finish_eq {w : Word} (hs : Same s s') (hr : s'.register .r11 = w) :
    ∃ s'', Same s s'' ∧ finish s' =
      if w = 0#64 then .again s'' else .returned (wordAt s.memory (s.register .rsp))
          ⟨s''.popped, s''.memory⟩ := by
  refine ⟨⟨s'.compared w.toInt 0, s'.memory⟩, ⟨hs.rsp, hs.rax, fun slot hslot => ?_, hs.stack⟩, ?_⟩
  · rw [← hs.parameters slot hslot]
    cases slot <;> rfl
  · by_cases hw : w = 0#64
    · have hno : ¬Condition.nonzero.holds (compare w.toInt 0) = true :=
        fun hc => (nonzero_holds w).mp hc hw
      simp only [finish, hr, View.compared, hno, if_pos hw, if_false, Bool.false_eq_true]
    · have hyes := (nonzero_holds w).mpr hw
      rw [← hs.word]
      simp only [finish, hr, View.compared, hyes, if_neg hw, if_true]

theorem popped_same {s s₀ r : Machine} {p : Word × Machine} {after : Word}
    (ha : s.register .rsp = a + BitVec.ofNat 64 200) (hsame : Same s s₀)
    (hpush : Pushed a after s₀ p)
    (hrsp : r.register .rsp = a + BitVec.ofNat 64 8)
    (hmemory : ∀ x, 8 ≤ (x - a).toNat → (x - a).toNat < 208 → r.memory x = p.2.memory x)
    (after' : Word) :
    (ps4AssemblerRegisterParameterPop (called after' ⟨r.set .r11 (r.register .rax), r.memory⟩)).1 =
      after' ∧
      Same s (ps4AssemblerRegisterParameterPop (called after'
        ⟨r.set .r11 (r.register .rax), r.memory⟩)).2 ∧
      (ps4AssemblerRegisterParameterPop
        (called after' ⟨r.set .r11 (r.register .rax), r.memory⟩)).2.register .r11 =
          r.register .rax := by
  have hrsp' : (r.set .r11 (r.register .rax)).register .rsp = a + BitVec.ofNat 64 8 :=
    (View.register_set_of_ne (by decide)).trans hrsp
  obtain ⟨htarget, hback, hr11⟩ :=
    pop_agree (n := 8) (by omega) (r := ⟨r.set .r11 (r.register .rax), r.memory⟩)
    (hsame.rsp.trans ha) hpush hrsp' hmemory after'
  exact ⟨htarget, hsame.trans ⟨hback.rsp, hback.rax, hback.parameters, hback.stack⟩,
    hr11.trans View.register_set⟩

/-- With an empty slot the resolver is asked; the stub then returns to its caller or begins
again. -/
theorem attempt_empty (h : space.OnStack (s.register .rsp)) (hslot : g.word (y.slot space) = 0#64) :
    ∃ s', Same s s' ∧ attempt y e g s =
      (if e.upper ++ (resolution y e g space).1 = 0#64 then .again s'
        else .returned (wordAt s.memory (s.register .rsp)) ⟨s'.popped, s'.memory⟩,
        (resolution y e g space).2) := by
  obtain ⟨a, ha⟩ : ∃ a : Word, s.register .rsp = a + BitVec.ofNat 64 200 :=
    ⟨s.register .rsp - BitVec.ofNat 64 200, (BitVec.sub_add_cancel _ _).symm⟩
  obtain ⟨-, hflags, -, -⟩ := selected_spec y g h
  have hzero : Condition.zero.holds (selected y g s.toView).flags = true := by
    rw [hflags, holds_compare, hslot]
    rfl
  have hsame := same_selected y g h
  have hpush := push_called y.afterPush (hsame.rsp.trans ha)
  have hres := resolve_spec y e g hpush.rsp (ha ▸ h)
  rw [attempt]
  simp only [hzero, if_true]
  rw [if_neg (not_not.mpr hpush.target)]
  revert hpush hres
  generalize ps4AssemblerRegisterParameterPush (called y.afterPush
    ⟨selected y g s.toView, s.memory⟩) = p
  intro hpush
  generalize resolve y e g p.2 = r
  rintro ⟨hvariables, hrax, hrsp, hmemory⟩
  have hpopped := popped_same ha hsame hpush hrsp hmemory y.afterPop
  revert hpopped
  generalize ps4AssemblerRegisterParameterPop
    (called y.afterPop ⟨r.1.set .r11 (r.1.register .rax), r.1.memory⟩) = p'
  rintro ⟨htarget, hback, hr11⟩
  rw [if_neg (not_not.mpr htarget)]
  rw [hrax] at hr11
  obtain ⟨s', hs', hfinish⟩ := finish_eq hback hr11
  exact ⟨s', hs', by rw [hfinish, hvariables]⟩

end Passes

/-! ### The slots -/

/-- In some pass of a call the slot is empty, and the resolver fails. -/
def Fails (y : Symbols) : List Surroundings → Variables → Machine → Prop
  | [], _, _ => False
  | e :: es, g, s =>
    (selected y g s.toView).register .r11 = 0#64 ∧
      ((ps4AdaptiveStubResolve e.answers (s.register .rsp - BitVec.ofNat 64 200 - BitVec.ofNat 64
          e.frame) g y.function y.moduleName y.functionName y.moduleHandle y.userFunctionAddress
            y.kernelFunctionAddress).1 ≠ 0 ∨
        ∃ s' g', attempt y e g s = (.again s', g') ∧ Fails y es g' s')

/-- A call on a stack of one of the spaces. Other stubs may have set the handle of the module and
the variable of the resolver since the last one. -/
structure Call where
  space : Space
  machine : Machine
  surroundings : List Surroundings
  int : Word → BitVec 32
  loadStartModule : Word
  onStack : space.OnStack (machine.register .rsp)

/-- The variables that a call finds. -/
def Call.entry (c : Call) (g : Variables) : Variables :=
  { g with int := c.int, loadStartModule := c.loadStartModule }

def Call.run (y : Symbols) (g : Variables) (c : Call) : Exit × Variables :=
  call y c.surroundings (c.entry g) c.machine

def initial : Variables := ⟨fun _ => 0, fun _ => 0, 0, [], []⟩

theorem Sound.entry {y : Symbols} {g : Variables} (hs : Sound y g) (c : Call) :
    Sound y (c.entry g) := by
  intro space
  cases space with
  | kernel => exact hs .kernel
  | user => exact hs .user

/-- A stub for a symbol that nothing has. -/
def missing : Symbols where
  function := 0x400000
  moduleName := 0x401000
  functionName := 0x401010
  moduleHandle := 0x402000
  userFunctionAddress := 0x402008
  kernelFunctionAddress := 0x402010
  afterPush := 0x400030
  afterResolve := 0x400080
  afterPop := 0x400088
  present := by simp
  distinct := by decide

def silent : Surroundings where
  answers := ⟨fun _ => 0, 0, fun _ => none, fun _ _ => 0, fun _ _ => none⟩
  frame := 8
  upper := 0
  leaves s := ⟨s.popped, s.memory⟩
  frame_le := by omega
  rsp _ := View.register_set
  stack _ _ _ := rfl

end Ps4Sdk.AdaptiveStubs
