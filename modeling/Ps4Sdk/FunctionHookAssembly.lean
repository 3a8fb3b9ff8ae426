import Ps4Sdk.AssemblyRuns

/-!
# The prologue and the handler of function hooks, instruction by instruction

The code of `payload/template/function_hook_prologue.s`, with the handle fixed in its
first instruction, and of `payload/function_hook_handler.s`. Offsets into the handle and
its clone are those of `Ps4KernelFunctionHookArgument`.
-/

namespace Ps4Sdk.FunctionHookAssembly
open ByteMemory AssemblyMachines

inductive Label
  | prologueLoop
  | handler | postRun | loop | loopPostCheck | loopPostCheckEnd
  | loopSpecific | loopGeneric | loopCall | loopDone | callDone
  deriving DecidableEq

abbrev Code := List (Instruction Label)

/-- `Ps4RegisterParameters`. -/
def parameters : List (Slot × ℕ) :=
  [(.register .rax, 0), (.register .rdi, 8), (.register .rsi, 16), (.register .rdx, 24),
    (.register .rcx, 32), (.register .r8, 40), (.register .r9, 48), (.vector 0, 56),
    (.vector 1, 72), (.vector 2, 88), (.vector 3, 104),
    (.vector 4, 120), (.vector 5, 136), (.vector 6, 152), (.vector 7, 168)]

/-- `Ps4RegisterReturns`. -/
def returns : List (Slot × ℕ) :=
  [(.register .rax, 0), (.register .rdx, 8), (.vector 0, 16), (.vector 1, 32)]

def saveParameters (base : Register) : Code :=
  [.storeVector 7 168 base, .storeVector 6 152 base, .storeVector 5 136 base,
    .storeVector 4 120 base, .storeVector 3 104 base, .storeVector 2 88 base,
    .storeVector 1 72 base, .storeVector 0 56 base, .store .r9 48 base,
    .store .r8 40 base, .store .rcx 32 base, .store .rdx 24 base, .store .rsi 16 base,
    .store .rdi 8 base,
    .store .rax 0 base]

def loadParameters (base : Register) : Code :=
  [.load 0 base .rax, .load 8 base .rdi, .load 16 base .rsi, .load 24 base .rdx, .load 32 base .rcx,
    .load 40 base .r8, .load 48 base .r9, .loadVector 56 base 0, .loadVector 72 base 1,
    .loadVector 88 base 2, .loadVector 104 base 3,
    .loadVector 120 base 4, .loadVector 136 base 5, .loadVector 152 base 6, .loadVector 168 base 7]

/-! ### The prologue -/

def prologueCloned : Code :=
  [.pop .r11, .increment 56 .r11, .store .r12 32 .rax, .move .rax .r12] ++ loadParameters .rsp ++
  [.add 184 .rsp, .popMemory 24 .r12, .jumpMemory 8 .r11]

def prologueLocked : Code :=
  [.pop .r12, .subtract 184 .rsp] ++ saveParameters .rsp ++
    [.move .r11 .rdi, .push .r11, .callMemory 0 .r11] ++
  prologueCloned

def prologueLoop : Code :=
  [.moveImmediate 1 .r12, .exchange .r12 184 .r11, .test .r12, .jumpIf .nonzero .prologueLoop] ++
    prologueLocked

def ps4PayloadTemplateFunctionHookPrologue (handle : Word) : Code :=
  [.moveImmediate handle .r11, .increment 16 .r11, .push .r12] ++ prologueLoop

/-! ### The handler -/

def callDone : Code :=
  [.load 72 .r12 .r11, .load 0 .r11 .rax, .load 8 .r11 .rdx, .loadVector 16 .r11 0,
    .loadVector 32 .r11 1, .pushMemory 24 .r12, .load 32 .r12 .r11, .exchangeRegisters .r11 .r12,
    .subtract 48 .rsp, .storeVector 1 32 .rsp, .storeVector 0 16 .rsp, .store .rdx 8 .rsp,
    .store .rax 0 .rsp,
    .move .r11 .rdi, .callMemory 48 .r11,
    .load 0 .rsp .rax, .load 8 .rsp .rdx, .loadVector 16 .rsp 0, .loadVector 32 .rsp 1,
    .add 48 .rsp, .ret]

def loopReturned : Code :=
  [.load 72 .r12 .r11, .store .rax 0 .r11, .store .rdx 8 .r11, .storeVector 0 16 .r11,
    .storeVector 1 32 .r11, .jump .postRun] ++ callDone

def loopDone : Code :=
  [.load 64 .r12 .r11] ++ loadParameters .r11 ++
  [.moveImmediate 1 .r11, .exchange .r11 144 .r12, .test .r11, .jumpIf .nonzero .callDone,
    .callMemory 88 .r12] ++
  loopReturned

def loopCall : Code :=
  [.load 104 .r12 .r11, .load 120 .r12 .r8, .loadElement .r11 .r8 .r11, .test .r11,
    .jumpIf .zero .loopDone, .call .r11,
    .compare 0 .rax, .jumpIf .zero .loop, .jumpIf .greater .loopDone, .jump .callDone] ++ loopDone

def loopGeneric : Code := [.loadThread .rdi, .move .r12 .rsi] ++ loopCall

def loopSpecific : Code :=
  [.loadThread .rdi, .store .r12 0x388 .rdi, .load 64 .r12 .r11] ++ loadParameters .r11 ++
    [.jump .loopCall] ++
  loopGeneric

def loopPostCheckEnd : Code :=
  [.compare 0 .r11, .jumpIf .greater .loopGeneric, .jumpIf .less .loopSpecific, .jump .loop] ++
    loopSpecific

def loopPostCheck : Code :=
  [.compare 0 .r11, .jumpIf .zero .loop, .compare (-1) .r11, .jumpIf .zero .loop, .compare 1 .r11,
    .jumpIf .zero .loop] ++ loopPostCheckEnd

def loop : Code :=
  [.increment 120 .r12, .load 144 .r12 .rdi, .load 112 .r12 .r11, .load 120 .r12 .r8,
    .loadElement .r11 .r8 .r11, .test .r11, .jumpIf .zero .loopDone,
    .compare 0 .rdi, .jumpIf .nonzero .loopPostCheck,
    .compare 0 .r11, .jumpIf .zero .loop, .compare 2 .r11, .jumpIf .zero .loop,
    .jump .loopPostCheckEnd] ++
  loopPostCheck

def postRun : Code := [.storeImmediate (-1) 120 .r12] ++ loop

def ps4PayloadFunctionHookHandler : Code :=
  [.push .r12, .decrement 16 .r11, .moveImmediate 0 .r12, .exchange .r12 184 .r11, .pop .r12,
    .load 64 .r12 .r11] ++
  saveParameters .r11 ++ [.storeImmediate 0 144 .r12] ++ postRun

def code : Label → Code
  | .prologueLoop => prologueLoop
  | .handler => ps4PayloadFunctionHookHandler
  | .postRun => postRun
  | .loop => loop
  | .loopPostCheck => loopPostCheck
  | .loopPostCheckEnd => loopPostCheckEnd
  | .loopSpecific => loopSpecific
  | .loopGeneric => loopGeneric
  | .loopCall => loopCall
  | .loopDone => loopDone
  | .callDone => callDone

/-! ### The functions that are called -/

def calleeSaved : List Register := [.rbx, .rbp, .r12, .r13, .r14, .r15]

structure Obeys (s s' : Machine) : Prop where
  rsp : s'.register .rsp = s.register .rsp + 8
  saved : ∀ r ∈ calleeSaved, s'.register r = s.register r
  thread : s'.thread = s.thread

/-- A hook has returned `CONTINUE` in the lower half of `rax` and has left the memory alone that the
thread keeps: the clone with its blocks and the stack of its caller. -/
structure Continues (env : Environment Label) (t : ℕ) (kept : List Range) (target : Word)
    (s : Machine) : Prop where
  obeys : Obeys s (env.callee t kept target s).1
  keeps : (env.callee t kept target s).2 = kept
  memory : ∀ x, Kept env.top kept (env.callee t kept target s).1.toView x →
    (env.callee t kept target s).1.memory x = s.memory x
  control : ((env.callee t kept target s).1.register .rax).setWidth 32 = 0#32

structure Bridges (env : Environment Label) (t : ℕ) (kept : List Range) (target : Word)
    (s : Machine) : Prop where
  obeys : Obeys s (env.callee t kept target s).1
  keeps : (env.callee t kept target s).2 = kept
  memory : ∀ x, (∃ r ∈ kept, Inside r.1 r.2 x) →
  (env.callee t kept target s).1.memory x = s.memory x

structure CleansUp (env : Environment Label) (t : ℕ) (kept : List Range) (target : Word)
    (s : Machine) : Prop where
  obeys : Obeys s (env.callee t kept target s).1
  memory : ∀ x, Inside ((env.callee t kept target s).1.register .rsp)
      (env.top - (env.callee t kept target s).1.register .rsp).toNat x →
    (env.callee t kept target s).1.memory x = s.memory x

/-- The addresses of a clone and its blocks, and the number of entries of its tables. -/
structure Blocks where
  clone : Word
  arguments : Word
  returns : Word
  hook : Word
  hookType : Word
  size : ℕ

def Blocks.ranges (b : Blocks) : List Range :=
  [(b.clone, 192), (b.arguments, 184), (b.returns, 48), (b.hook, 8 * b.size),
    (b.hookType, 8 * b.size)]

def Blocks.hookAt (b : Blocks) (m : Bytes) (i : ℕ) : Word :=
  wordAt m (b.hook + BitVec.ofNat 64 (8 * i))

def Blocks.typeAt (b : Blocks) (m : Bytes) (i : ℕ) : Word :=
  wordAt m (b.hookType + BitVec.ofNat 64 (8 * i))

/-- A call of a hooked function: the machine at its entry, with the return address at the stack
pointer and so many bytes of arguments behind it, and the handle of the hooks with its functions. -/
structure HookedCall where
  entry : Machine
  stackArguments : ℕ
  handle : Word
  clone : Word
  handler : Word
  bridge : Word
  epilogue : Word

namespace HookedCall

def low (h : HookedCall) : Word := h.entry.register .rsp - 200

def stackSize (h : HookedCall) : ℕ := 208 + h.stackArguments

def threadReturn (h : HookedCall) : Word := h.entry.thread + 0x388

def kept (h : HookedCall) : List Range := [(h.handle, 16)]

structure New (h : HookedCall) (b : Blocks) : Prop where
  size : 8 * b.size ≤ 2 ^ 64
  apart : b.ranges.Pairwise (fun r r' => Apart r.1 r.2 r'.1 r'.2)
  stack : ∀ r ∈ b.ranges, Apart r.1 r.2 h.low h.stackSize
  handle : ∀ r ∈ b.ranges, Apart r.1 r.2 h.handle 192
  thread : ∀ r ∈ b.ranges, Apart r.1 r.2 h.threadReturn 8

/-- The fields of a clone and its tables, which end with a type that is zero. Every hook in them
goes on. -/
structure CloneOf (h : HookedCall) (env : Environment Label) (b : Blocks) (m : Bytes) : Prop where
  epilogue : wordAt m (b.clone + 48) = h.epilogue
  arguments : wordAt m (b.clone + 64) = b.arguments
  returns : wordAt m (b.clone + 72) = b.returns
  bridge : wordAt m (b.clone + 88) = h.bridge
  hook : wordAt m (b.clone + 104) = b.hook
  hookType : wordAt m (b.clone + 112) = b.hookType
  terminated : ∃ i < b.size, b.typeAt m i = 0#64
  continues : ∀ i < b.size, b.hookAt m i ≠ 0#64 → ∀ t s, s.register .r12 = b.clone →
    s.register .rsp = h.entry.register .rsp → Continues env t (h.kept ++ b.ranges) (b.hookAt m i) s

structure Serves (h : HookedCall) (env : Environment Label) (b : Blocks) : Prop where
  bridges : ∀ t s, s.register .r12 = b.clone → s.register .rsp = h.entry.register .rsp →
    Bridges env t (h.kept ++ b.ranges) h.bridge s
  cleansUp : ∀ t s, s.register .rdi = b.clone → s.register .rsp = h.entry.register .rsp - 56 →
    CleansUp env t (h.kept ++ b.ranges) h.epilogue s

/-- `ps4PayloadFunctionHookArgumentClone` has returned a clone. -/
structure Clones (h : HookedCall) (env : Environment Label) (t : ℕ) (s : Machine) : Prop where
  obeys : Obeys s (env.callee t h.kept h.clone s).1
  memory : ∀ x, Kept env.top h.kept (env.callee t h.kept h.clone s).1.toView x →
    (env.callee t h.kept h.clone s).1.memory x = s.memory x
  blocks : ∃ b : Blocks, (env.callee t h.kept h.clone s).1.register .rax = b.clone ∧
    (env.callee t h.kept h.clone s).2 = h.kept ++ b.ranges ∧ h.New b ∧ h.Serves env b ∧
    h.CloneOf env b (env.callee t h.kept h.clone s).1.memory

def start (h : HookedCall) : Config Label :=
  ⟨.inside (ps4PayloadTemplateFunctionHookPrologue h.handle), h.entry, h.kept, 0, []⟩

/-- The assumptions about a call: other threads leave the thread's memory alone and let it have the
spin lock, and the functions that are called do what they are for. -/
structure Valid (h : HookedCall) (env : Environment Label) : Prop where
  code : env.code = FunctionHookAssembly.code
  quiet : env.Quiet
  top : env.top = h.low + BitVec.ofNat 64 h.stackSize
  size : h.stackSize < 2 ^ 64
  clonePointer : wordAt h.entry.memory h.handle = h.clone
  handlerPointer : wordAt h.entry.memory (h.handle + 8) = h.handler
  handler : env.label h.handler = some .handler
  handle : Apart h.handle 192 h.low h.stackSize
  thread : Apart h.threadReturn 8 h.low h.stackSize
  acquires : ∃ k, (env.step^[k] h.start).control = .inside prologueLocked
  clones : ∀ t s, s.register .rdi = h.handle → s.register .rsp = h.low → s.thread = h.entry.thread →
    h.Clones env t s

def bridgeCalls (c : Config Label) : List (Called Label) :=
  c.calls.filter (fun call => call.instruction = .callMemory 88 .r12)

def BeforeOriginal (call : Called Label) : Prop :=
  call.instruction = .call .r11 ∧
    wordAt call.entered.memory (call.entered.register .r12 + 144) = 0#64

structure EnteredAsUnhooked (h : HookedCall) (call : Called Label) : Prop where
  target : call.target = h.bridge
  registers : ∀ r ∈ [Register.rax, .rdi, .rsi, .rdx, .rcx, .r8, .r9], call.entered.register r =
    h.entry.register r
  vectors : call.entered.vector = h.entry.vector
  rsp : call.entered.register .rsp = h.entry.register .rsp
  stack : ∀ x, Inside (h.entry.register .rsp + 8) h.stackArguments x →
    call.entered.memory x = h.entry.memory x

structure ResumedAsUnhooked (h : HookedCall) (c : Config Label) (left : Machine) : Prop where
  control : c.control = .outside (wordAt h.entry.memory (h.entry.register .rsp))
  rax : c.machine.register .rax = left.register .rax
  rdx : c.machine.register .rdx = left.register .rdx
  xmm0 : c.machine.vector 0 = left.vector 0
  xmm1 : c.machine.vector 1 = left.vector 1
  rsp : c.machine.register .rsp = h.entry.register .rsp + 8
  saved : ∀ r ∈ calleeSaved, c.machine.register r = h.entry.register r

/-- The bridge has been called exactly once, and as if the function were not hooked. -/
def Transparent (h : HookedCall) (c : Config Label) : Prop :=
  ∃ call, bridgeCalls c = [call] ∧ h.EnteredAsUnhooked call ∧ h.ResumedAsUnhooked c call.left

/-- The condition on the hooks: none that is called before the original leaves a negative `rax`. -/
def NoneNegative (c : Config Label) : Prop :=
  ∀ call ∈ c.calls, BeforeOriginal call → 0 ≤ (call.left.register .rax).toInt

end HookedCall

end Ps4Sdk.FunctionHookAssembly
