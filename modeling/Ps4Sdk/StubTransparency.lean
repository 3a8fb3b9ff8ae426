import Ps4Sdk.AdaptiveStubs

/-!
# The slow path of a stub, `stub.h`

The function stub, the kernel function stub and the adaptive stub differ in how they choose
their slot and in the arguments of the resolver. A resolver is any function that obeys the
calling convention: it returns an `int`, so that nothing is said about the upper half of
`%rax`, and it leaves the stack above its return address alone.
-/

namespace Ps4Sdk.StubTransparency
open ByteMemory AssemblyMachines RegisterParameters AdaptiveStubs

/-- The mark that the stub tests, how it chooses a slot, which uses `%rax` only, the arguments of
its resolver, and the addresses behind its calls. -/
structure Stub where
  marker : BitVec 8
  choose : View → View × Word
  arguments : List (Register × Word)
  afterPush : Word
  afterResolve : Word
  afterPop : Word
  choose_register : ∀ v r, r ≠ .rax → (choose v).1.register r = v.register r
  choose_vector : ∀ v, (choose v).1.vector = v.vector
  choose_slot : ∀ v w : View, v.register .rsp = w.register .rsp → (choose v).2 = (choose w).2
  arguments_rsp : ∀ p ∈ arguments, p.1 ≠ .rsp

def Stub.single (marker : BitVec 8) (arguments : List (Register × Word))
    (slot afterPush afterResolve afterPop : Word) (h : ∀ p ∈ arguments, p.1 ≠ .rsp) : Stub where
  marker := marker
  choose v := (v, slot)
  arguments := arguments
  afterPush := afterPush
  afterResolve := afterResolve
  afterPop := afterPop
  choose_register _ _ _ := rfl
  choose_vector _ := rfl
  choose_slot _ _ _ := rfl
  arguments_rsp := h

def ps4StubFunctionStub (function moduleName functionName moduleHandle functionAddress : Word)
    (afterPush afterResolve afterPop : Word) : Stub :=
  .single 0 [(.rdi, function), (.rsi, moduleName), (.rdx, functionName), (.rcx, moduleHandle),
    (.r8, functionAddress)]
    functionAddress afterPush afterResolve afterPop (by simp)

def ps4StubKernFunctionStub (function functionName functionAddress : Word)
    (afterPush afterResolve afterPop : Word) : Stub :=
  .single 1 [(.rdi, function), (.rsi, functionName), (.rdx, functionAddress)] functionAddress
    afterPush afterResolve
    afterPop (by simp)

def chooseBySpace (userFunctionAddress kernelFunctionAddress : Word) (v : View) : View × Word :=
  let v := v.set .rax (v.register .rsp)
  let v := v.set .rax (v.register .rax >>> 48)
  let v := v.compared (v.register .rax).toInt 0
  (v, if Condition.nonzero.holds v.flags then kernelFunctionAddress else userFunctionAddress)

def ps4StubAdaptiveFunctionStub (y : Symbols) : Stub where
  marker := 2
  choose := chooseBySpace y.userFunctionAddress y.kernelFunctionAddress
  arguments := [(.rdi, y.function), (.rsi, y.moduleName), (.rdx, y.functionName),
    (.rcx, y.moduleHandle), (.r8, y.userFunctionAddress), (.r9, y.kernelFunctionAddress)]
  afterPush := y.afterPush
  afterResolve := y.afterResolve
  afterPop := y.afterPop
  choose_register v r
    hr := by simp [chooseBySpace, View.set, View.compared, Function.update_of_ne hr]
  choose_vector _ := rfl
  choose_slot v w h := by simp [chooseBySpace, View.set, View.compared, h]
  arguments_rsp := by simp

/-- What a resolver returns and does to the variables, the upper half of the register with its
result, and what it leaves in the other registers and in memory: it returns, and the bytes above its
return address are as they were. -/
structure Resolver (n : ℕ) where
  result : Variables → Machine → Code × Variables
  upper : BitVec 32
  leaves : Machine → Machine
  rsp : ∀ s, (leaves s).register .rsp = s.register .rsp + 8
  stack : ∀ s x, Inside (s.register .rsp + 8) (192 + n) x → (leaves s).memory x = s.memory x

namespace Stub

variable (k : Stub)

def selected (g : Variables) (v : View) : View :=
  let v := v.compared ((v.register .rax).setWidth 8 &&& k.marker).toInt 0
  let v := v.set .r11 (v.register .rax)
  let c := k.choose v
  let v := c.1.set .rax (g.word c.2)
  let v := (v.set .rax (v.register .r11)).set .r11 (v.register .rax)
  v.compared (v.register .r11).toInt 0

def loaded (v : View) : View :=
  let v := k.arguments.foldl (fun v p => v.set p.1 p.2) v
  v.set .rax (v.register .rax ^^^ v.register .rax)

def entry (s : Machine) : Machine := called k.afterResolve ⟨k.loaded s.toView, s.memory⟩

variable {n : ℕ} (e : Resolver n)

def resolve (g : Variables) (s : Machine) : Machine × Variables :=
  (⟨(e.leaves (k.entry s)).set .rax (e.upper ++ (e.result g (k.entry s)).1),
    (e.leaves (k.entry s)).memory⟩, (e.result g (k.entry s)).2)

def attempt (g : Variables) (s : Machine) : Exit × Variables :=
  let v := k.selected g s.toView
  if Condition.zero.holds v.flags then
    let p := ps4AssemblerRegisterParameterPush (called k.afterPush ⟨v, s.memory⟩)
    if p.1 ≠ k.afterPush then (.strayed p.1 p.2, g)
    else
      let r := k.resolve e g p.2
      let p := ps4AssemblerRegisterParameterPop
        (called k.afterPop ⟨r.1.set .r11 (r.1.register .rax), r.1.memory⟩)
      if p.1 ≠ k.afterPop then (.strayed p.1 p.2, r.2) else (finish p.2, r.2)
  else (.jumped (v.register .r11) ⟨v, s.memory⟩, g)

/-- A call of the stub, with a number of passes at most. -/
def call : ℕ → Variables → Machine → Exit × Variables
  | 0, g, s => (.again s, g)
  | passes + 1, g, s =>
    match k.attempt e g s with
    | (.again s, g) => call passes g s
    | r => r

def slot (s : Machine) : Word := (k.choose s.toView).2

def resolverEntry (g : Variables) (s : Machine) : Machine :=
  k.entry (ps4AssemblerRegisterParameterPush (called k.afterPush
    ⟨k.selected g s.toView, s.memory⟩)).2

end Stub

def adaptiveResolver (e : Surroundings) : Resolver 8 where
  result g s := ps4AdaptiveStubResolve e.answers (s.register .rsp - BitVec.ofNat 64 e.frame) g
    (s.register .rdi)
    (s.register .rsi) (s.register .rdx) (s.register .rcx) (s.register .r8) (s.register .r9)
  upper := e.upper
  leaves := e.leaves
  rsp := e.rsp
  stack := e.stack

section

variable (k : Stub) {n : ℕ} (e : Resolver n) (g : Variables) {s t : Machine} {a : Word}

private theorem slot_of_agree (h : Agree n s t) : k.slot t = k.slot s := k.choose_slot _ _ h.rsp

/-- The test reads the slot into `%r11`, and all the other registers are as they were. -/
theorem selected_spec (s : Machine) :
    (k.selected g s.toView).register .r11 = g.word (k.slot s) ∧
      (k.selected g s.toView).flags = compare (g.word (k.slot s)).toInt 0 ∧
      Agree n s ⟨k.selected g s.toView, s.memory⟩ := by
  obtain ⟨v, hv⟩ : ∃ v, v =
    (s.toView.compared ((s.register .rax).setWidth 8 &&& k.marker).toInt 0).set .r11
      (s.register .rax) := ⟨_, rfl⟩
  have hother : ∀ r, r ≠ .r11 → v.register r = s.register r := fun r hr => by
    rw [hv, View.register_set_of_ne hr]
    rfl
  have hr11 : v.register .r11 = s.register .rax := by rw [hv, View.register_set]
  have hslot : (k.choose v).2 = k.slot s := k.choose_slot _ _ (hother .rsp (by decide))
  have hchosen : ((k.choose v).1.set .rax (g.word (k.slot s))).register .r11 = s.register .rax := by
    rw [View.register_set_of_ne (by decide), k.choose_register _ _ (by decide), hr11]
  have heq : k.selected g s.toView =
      ((((k.choose v).1.set .rax (g.word (k.slot s))).set .rax (s.register .rax)).set .r11
        (g.word (k.slot s))).compared (g.word (k.slot s)).toInt 0 := by
    rw [← hslot] at hchosen ⊢
    rw [← hchosen, hv]
    simp only [Stub.selected, View.register_set]
    rfl
  rw [heq]
  refine ⟨?_, rfl, agree_of_registers (fun r hr => ?_) ?_⟩
  · change ((((k.choose v).1.set .rax (g.word (k.slot s))).set .rax (s.register .rax)).set .r11
      (g.word (k.slot s))).register .r11 = _
    rw [View.register_set]
  · change View.register (View.set _ .r11 _) r = _
    rw [View.register_set_of_ne hr]
    by_cases hrax : r = .rax
    · rw [hrax, View.register_set]
    · rw [View.register_set_of_ne hrax, View.register_set_of_ne hrax, k.choose_register _ _ hrax,
        hother r hr]
  · change (k.choose v).1.vector = _
    rw [k.choose_vector, hv]
    rfl

theorem attempt_filled (hslot : g.word (k.slot s) ≠ 0#64) :
    ∃ s', Agree n s s' ∧ k.attempt e g s = (.jumped (g.word (k.slot s)) s', g) := by
  obtain ⟨hr11, hflags, hsame⟩ := selected_spec k (n := n) g s
  have hzero : ¬Condition.zero.holds (k.selected g s.toView).flags = true := by
    rw [hflags, holds_compare]
    exact fun h₀ => hslot (BitVec.eq_of_toInt_eq (h₀.trans (by decide)))
  refine ⟨_, hsame, ?_⟩
  rw [Stub.attempt]
  simp only [hzero, if_false, hr11, Bool.false_eq_true]

theorem loaded_rsp (v : View) : (k.loaded v).register .rsp = v.register .rsp := by
  have hfold : ∀ (l : List (Register × Word)) (v : View), (∀ p ∈ l, p.1 ≠ .rsp) →
      (l.foldl (fun v p => v.set p.1 p.2) v).register .rsp = v.register .rsp := by
    intro l
    induction l with
    | nil => exact fun _ _ => rfl
    | cons p l ih =>
      intro v hl
      rw [List.foldl_cons, ih _ fun q hq => hl q (List.mem_cons_of_mem _ hq),
        View.register_set_of_ne (hl p List.mem_cons_self).symm]
  rw [Stub.loaded, View.register_set_of_ne (by decide)]
  exact hfold k.arguments v k.arguments_rsp

theorem resolve_spec (hn : 200 + n ≤ 2 ^ 64) (hrsp : s.register .rsp = a + BitVec.ofNat 64 8) :
    (k.resolve e g s).1.register .rax = e.upper ++ (e.result g (k.entry s)).1 ∧
      (k.resolve e g s).1.register .rsp = a + BitVec.ofNat 64 8 ∧
      ∀ x, 8 ≤ (x - a).toNat → (x - a).toNat < 200 + n →
      (k.resolve e g s).1.memory x = s.memory x := by
  have hlow : (k.entry s).register .rsp = a := by
    change ((k.loaded s.toView).set .rsp _).register .rsp = _
    rw [View.register_set, loaded_rsp, hrsp]
    exact BitVec.add_sub_cancel _ _
  refine ⟨View.register_set, ?_, fun x hx hx' => ?_⟩
  · refine (View.register_set_of_ne (by decide)).trans ?_
    rw [e.rsp, hlow]
    rfl
  · refine (e.stack _ x ?_).trans (putWord_outside ?_)
    · rw [hlow]
      exact (inside_offset (i := 8) (by omega)).mpr ⟨hx, by omega⟩
    · intro hin
      change Inside ((k.entry s).register .rsp) 8 x at hin
      rw [hlow] at hin
      unfold Inside at hin
      omega

/-- The end of the pass: the result of the resolver is in `%r11`. -/
theorem finish_agree (s : Machine) : ∃ s', Agree n s s' ∧ finish s =
    if s.register .r11 = 0#64 then .again s'
    else .returned (wordAt s'.memory (s'.register .rsp)) ⟨s'.popped, s'.memory⟩ := by
  refine ⟨⟨s.compared (s.register .r11).toInt 0, s.memory⟩,
    agree_of_registers (fun _ _ => rfl) rfl, ?_⟩
  by_cases hw : s.register .r11 = 0#64
  · have hno : ¬Condition.nonzero.holds (compare (s.register .r11).toInt 0) = true := fun hc =>
      (nonzero_holds _).mp hc hw
    rw [if_pos hw]
    exact if_neg hno
  · rw [if_neg hw]
    exact if_pos ((nonzero_holds _).mpr hw)

/-- With an empty slot the resolver is asked; the stub then returns to its caller or begins
again. -/
theorem attempt_empty (hn : 200 + n ≤ 2 ^ 64) (hslot : g.word (k.slot s) = 0#64) :
    ∃ s', Agree n s s' ∧ k.attempt e g s =
      (if e.upper ++ (e.result g (k.resolverEntry g s)).1 = 0#64 then .again s'
        else .returned (wordAt s'.memory (s'.register .rsp)) ⟨s'.popped, s'.memory⟩,
        (e.result g (k.resolverEntry g s)).2) := by
  obtain ⟨a, ha⟩ : ∃ a : Word, s.register .rsp = a + BitVec.ofNat 64 200 :=
    ⟨s.register .rsp - BitVec.ofNat 64 200, (BitVec.sub_add_cancel _ _).symm⟩
  obtain ⟨-, hflags, hsame⟩ := selected_spec k (n := n) g s
  have hzero : Condition.zero.holds (k.selected g s.toView).flags = true := by
    rw [hflags, holds_compare, hslot]
    rfl
  have ha' : (k.selected g s.toView).register .rsp = a + BitVec.ofNat 64 200 := hsame.rsp.trans ha
  have hpush := push_called k.afterPush (s := ⟨k.selected g s.toView, s.memory⟩) ha'
  have hres := resolve_spec k e g hn hpush.rsp
  rw [Stub.attempt, Stub.resolverEntry]
  simp only [hzero, if_true]
  rw [if_neg (not_not.mpr hpush.target)]
  revert hpush hres
  generalize ps4AssemblerRegisterParameterPush (called k.afterPush
    ⟨k.selected g s.toView, s.memory⟩) = p
  rintro hpush ⟨hrax, hrsp, hmemory⟩
  have hrsp' : ((k.resolve e g p.2).1.set .r11
    ((k.resolve e g p.2).1.register .rax)).register .rsp =
      a + BitVec.ofNat 64 8 := (View.register_set_of_ne (by decide)).trans hrsp
  have hpopped := pop_agree hn (r := ⟨(k.resolve e g p.2).1.set .r11
    ((k.resolve e g p.2).1.register .rax), (k.resolve e g p.2).1.memory⟩) ha' hpush hrsp'
      hmemory k.afterPop
  revert hpopped
  generalize ps4AssemblerRegisterParameterPop (called k.afterPop _) = p'
  rintro ⟨htarget, hback, hr11⟩
  obtain ⟨s', hs', hfinish⟩ := finish_agree (n := n) p'.2
  have hresult : p'.2.register .r11 = e.upper ++ (e.result g (k.entry p.2)).1 :=
    (hr11.trans View.register_set).trans hrax
  rw [if_neg (not_not.mpr htarget), hfinish, hresult]
  exact ⟨s', (hsame.trans hback).trans hs', rfl⟩

end

/-- A first call enters the function with the registers, the stack pointer and the stack that a
later call with the same ones enters it with. -/
def Transparent (k : Stub) {n : ℕ} (e : Resolver n) (g : Variables) (s : Machine) : Prop :=
  ∃ passes a s₁ g', k.call e passes g s = (.jumped a s₁, g') ∧ Agree n s s₁ ∧
    ∀ t, Agree n s t → ∃ s₂, k.attempt e g' t = (.jumped a s₂, g') ∧ Agree n s₁ s₂

/-- The resolver returns zero, and the slot of the call is filled. -/
structure Succeeds (k : Stub) {n : ℕ} (e : Resolver n) (g : Variables) (s : Machine) : Prop where
  code : (e.result g (k.resolverEntry g s)).1 = 0
  stored : (e.result g (k.resolverEntry g s)).2.word (k.slot s) ≠ 0#64

section

variable {k : Stub} {n : ℕ} {e : Resolver n} {g : Variables} {s : Machine}

private theorem append_zero_iff (upper : BitVec 32) : upper ++ (0 : Code) = 0#64 ↔ upper = 0 := by
  rw [← BitVec.toNat_inj, ← BitVec.toNat_inj, BitVec.toNat_append, Nat.shiftLeft_eq]
  change upper.toNat * 2 ^ 32 ||| 0 = 0 ↔ upper.toNat = 0
  rw [Nat.or_zero]
  omega

/-- A resolver that succeeds and leaves zero in the whole register lets the second pass enter the
function. -/
theorem Succeeds.transparent (h : Succeeds k e g s) (hn : 200 + n ≤ 2 ^ 64)
    (hslot : g.word (k.slot s) = 0#64) (hupper : e.upper = 0) : Transparent k e g s := by
  obtain ⟨s', hsame, hattempt⟩ := attempt_empty k e g hn hslot
  rw [h.code, if_pos ((append_zero_iff _).mpr hupper)] at hattempt
  have hfilled : ∀ t, Agree n s t → ∃ s₂, Agree n t s₂ ∧
    k.attempt e (e.result g (k.resolverEntry g s)).2 t =
      (.jumped ((e.result g (k.resolverEntry g s)).2.word (k.slot s)) s₂,
        (e.result g (k.resolverEntry g s)).2) := by
    intro t ht
    have hstored := h.stored
    rw [← slot_of_agree k ht] at hstored ⊢
    exact attempt_filled k e _ hstored
  obtain ⟨s₁, hs₁, hjump⟩ := hfilled s' hsame
  refine ⟨2, (e.result g (k.resolverEntry g s)).2.word (k.slot s), s₁,
    (e.result g (k.resolverEntry g s)).2, ?_, hsame.trans hs₁, fun t ht => ?_⟩
  · rw [Stub.call, hattempt]
    change Stub.call k e 1 _ s' = _
    rw [Stub.call, hjump]
  · obtain ⟨s₂, hs₂, hlater⟩ := hfilled t ht
    exact ⟨s₂, hlater, ((hsame.trans hs₁).symm.trans ht).trans hs₂⟩

/-- With anything in the upper half the stub returns to its caller, and no function is entered. -/
theorem Succeeds.not_transparent (h : Succeeds k e g s) (hn : 200 + n ≤ 2 ^ 64)
    (hslot : g.word (k.slot s) = 0#64) (hupper : e.upper ≠ 0) : ¬Transparent k e g s := by
  obtain ⟨s', hsame, hattempt⟩ := attempt_empty k e g hn hslot
  rw [h.code, if_neg fun h₀ => hupper ((append_zero_iff _).mp h₀)] at hattempt
  rintro ⟨passes, a, s₁, g', hcall, _⟩
  cases passes with
  | zero => cases hcall
  | succ passes =>
    rw [Stub.call, hattempt] at hcall
    cases hcall

end

/-- If the resolver succeeds, a first call is like a later one exactly if the upper half of the
result is zero as well: the stub tests all of `%rax`. -/
theorem stub_transparent_iff (k : Stub) {n : ℕ} (hn : 200 + n ≤ 2 ^ 64) (e : Resolver n)
    (g : Variables) (s : Machine) (hslot : g.word (k.slot s) = 0#64) (h : Succeeds k e g s) :
    Transparent k e g s ↔ e.upper = 0 := by
  refine ⟨fun ht => ?_, h.transparent hn hslot⟩
  by_contra hupper
  exact h.not_transparent hn hslot hupper ht

private theorem popped_rsp (s : Machine) :
    (⟨s.popped, s.memory⟩ : Machine).register .rsp = s.register .rsp + 8 :=
  View.register_set

/-- A resolver that returns at once. -/
def returning (n : ℕ) (upper : BitVec 32) (result : Variables → Machine → Code × Variables) :
    Resolver n where
  result := result
  upper := upper
  leaves s := ⟨s.popped, s.memory⟩
  rsp := popped_rsp
  stack _ _ _ := rfl

def userResolver (n : ℕ) (upper : BitVec 32) (q : Answers) : Resolver n :=
  returning n upper fun g s =>
    ps4StubResolve q g (s.register .rdi) (s.register .rsi) (s.register .rdx)
      (s.register .rcx) (s.register .r8)

def kernelResolver (n : ℕ) (upper : BitVec 32) (q : Answers) : Resolver n :=
  returning n upper fun g s => ps4KernelStubResolve q g (s.register .rdi) (s.register .rsi)
    (s.register .rdx)

def known : Answers :=
  ⟨fun _ => 0x800000, 1, fun _ => some 0x700000, fun _ _ => 1, fun _ _ => some 0x800000⟩

def functionStub : Stub :=
  ps4StubFunctionStub 0x400000 0x401000 0x401010 0x402000 0x402008 0x400030 0x400080 0x400088

def kernFunctionStub : Stub :=
  ps4StubKernFunctionStub 0x400000 0x401010 0x402010 0x400030 0x400080 0x400088

def adaptiveFunctionStub : Stub := ps4StubAdaptiveFunctionStub missing

def machine : Machine := ⟨⟨fun _ => 0xffffff8000001000, fun _ => 0, .eq, 0⟩, fun _ => 0⟩

theorem stub_transparent_iff_kernel :
    Transparent kernFunctionStub (kernelResolver 64 0 known) initial machine :=
  (stub_transparent_iff kernFunctionStub (by omega) (kernelResolver 64 0 known) initial machine rfl
    ⟨rfl, show (0x800000 : Word) ≠ 0#64 by decide⟩).mpr rfl

/-- The resolvers find the address, store it and return zero, but with one in the upper half of the
register: no first call enters the function. -/
theorem stub_enters_nothing :
    Succeeds functionStub (userResolver 64 1 known) initial machine ∧
      ¬Transparent functionStub (userResolver 64 1 known) initial machine ∧
      Succeeds kernFunctionStub (kernelResolver 64 1 known) initial machine ∧
      ¬Transparent kernFunctionStub (kernelResolver 64 1 known) initial machine ∧
      Succeeds adaptiveFunctionStub (adaptiveResolver { silent with answers := known, upper := 1 })
        initial machine ∧
      ¬Transparent adaptiveFunctionStub (adaptiveResolver
        { silent with answers := known, upper := 1 }) initial
        machine := by
  have hfunction : Succeeds functionStub (userResolver 64 1 known) initial machine :=
    ⟨rfl, show (0x800000 : Word) ≠ 0#64 by decide⟩
  have hkern : Succeeds kernFunctionStub (kernelResolver 64 1 known) initial machine :=
    ⟨rfl, show (0x800000 : Word) ≠ 0#64 by decide⟩
  have hadaptive : Succeeds adaptiveFunctionStub (adaptiveResolver
    { silent with answers := known, upper := 1 }) initial
      machine := ⟨rfl, show (0x800000 : Word) ≠ 0#64 by decide⟩
  have hone : (1 : BitVec 32) ≠ 0 := by decide
  exact ⟨hfunction, hfunction.not_transparent (by omega) rfl hone, hkern,
    hkern.not_transparent (by omega) rfl hone, hadaptive,
    hadaptive.not_transparent (by omega) rfl hone⟩

end Ps4Sdk.StubTransparency
