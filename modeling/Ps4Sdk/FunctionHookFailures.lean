import Ps4Sdk.FallibleCalls
import Ps4Sdk.FunctionHookCreation

/-!
# Failures of the function hook calls, `kernel/function.c`

Every allocation may yield NULL, and each call leaves its body in one of three ways:
at once, through the last part that unlocks the hook mutex, or through the clean-up
that frees what the partly filled handle points to and then the last part. The blocks
allocated and freed are recorded in the order of the calls; a null pointer is no
block. The initializer is given by the codes of its two evaluations. Two things are
assumed of it: an evaluation that gives `PS4_OK` has set the mutex, so that `Giant` was
found by the first look-up for it or not at all (a second look-up succeeds with a null
pointer); and the blocks that it allocates go to the global cache, and are not counted.
-/

namespace Ps4Sdk.FunctionHookFailures
open CheckedBlocks ByteMemory PayloadTemplates FallibleCalls
open FunctionHookInstallation
    (Blocks Disassembler Residue blockSize bridgeCopiedSize install allocate_outside
  free_outside ps4KernelFunctionIsHooked ps4KernelMemoryAllocate ps4KernelMemoryFree)

inductive Field
  | arguments | returns | hook | hookType | prologue | bridge
  deriving DecidableEq

/-- The kernel with the pointers of its handles, the hook mutex (null until it is
initialized, and how often it is locked), and the blocks allocated and freed. -/
structure Kernel extends FunctionHookInstallation.Kernel where
  pointer : Address → Field → Address
  initialized : Bool
  depth : ℕ
  allocated : List Address
  freed : List Address

/-- The outcomes of the allocations of `Create`, where zero is NULL; the value that
its local variable `t` has before it is assigned; and what freed memory holds. -/
structure Memory where
  arg : Address
  field : Field → Address
  uninitialized : Address
  residue : Residue

def Memory.blocks (memory : Memory) : Blocks :=
  ⟨memory.arg, memory.field .prologue, memory.field .bridge, memory.uninitialized⟩

/-- The kernel with the local variable `arg` of a call and the word `hookh` points to. -/
structure Frame where
  kernel : Kernel
  arg : Address
  hookh : Address

def Kernel.lock (k : Kernel) : Kernel := { k with depth := k.depth + 1 }

def Kernel.unlock (k : Kernel) : Kernel := { k with depth := k.depth - 1 }

def Frame.lock (fr : Frame) : Frame := { fr with kernel := fr.kernel.lock }

/-- The blocks recorded as allocated and freed between the kernels are the same. -/
def Kernel.Balanced (k k' : Kernel) : Prop :=
  ∃ allocated freed, k'.allocated = k.allocated ++ allocated ∧ k'.freed = k.freed ++ freed ∧
    freed.Perm allocated

theorem Kernel.Balanced.of_eq {k k' : Kernel} (ha : k'.allocated = k.allocated)
    (hf : k'.freed = k.freed) :
    k.Balanced k' :=
  ⟨[], [], by simp [ha], by simp [hf], .refl _⟩

/-! ### The lazy initializer -/

/-- `if(ps4KernelFunctionHookMutex == NULL) ps4ExpressionReturnOnError(...)`: the kernel
that goes on, or the code returned. -/
def Kernel.ensure (k : Kernel) (initializer : Evaluations Code) : Except (Code × Kernel) Kernel :=
  if k.initialized then .ok k
  else if initializer.first ≠ ps4Ok then
    .error (initializer.second, { k with initialized := decide (initializer.second = ps4Ok) })
  else .ok { k with initialized := true }

/-- The kernel has no mutex, and the initializer fails. -/
def Kernel.Refuses (k : Kernel) (initializer : Evaluations Code) : Prop :=
  k.initialized = false ∧ initializer.first ≠ ps4Ok

instance (k : Kernel) (initializer : Evaluations Code) : Decidable (k.Refuses initializer) :=
  inferInstanceAs (Decidable (_ ∧ _))

def Kernel.ready (k : Kernel) : Kernel := { k with initialized := true }

theorem Kernel.ensure_refused {k : Kernel} {initializer : Evaluations Code}
    (h : k.Refuses initializer) :
    k.ensure initializer =
      .error (initializer.second,
        { k with initialized := decide (initializer.second = ps4Ok) }) := by
  simp [ensure, h.1, h.2]

theorem Kernel.ensure_ready {k : Kernel} {initializer : Evaluations Code}
    (h : ¬k.Refuses initializer) :
    k.ensure initializer = .ok k.ready := by
  unfold Refuses at h
  unfold ensure ready
  by_cases hi : k.initialized = true
  · rw [if_pos hi, ← hi]
  · have hi' : k.initialized = false := by simpa using hi
    have hf : ¬initializer.first ≠ ps4Ok := fun hf => h ⟨hi', hf⟩
    rw [if_neg hi, if_neg hf]

def initializing (initializer : Evaluations Code) : Body Stop Frame Code Unit := fun fr =>
  match fr.kernel.ensure initializer with
  | .ok k => .ok (.ok (), { fr with kernel := k })
  | .error (code, k) => .ok (.error (.leave code), { fr with kernel := k })

def Frame.ready (fr : Frame) : Frame := { fr with kernel := fr.kernel.ready }

section

variable {initializer : Evaluations Code} {fr : Frame} {catching finalizing : Frame → Frame}
  {rest : Unit → Body Stop Frame Code Empty}

theorem handled_refused (h : fr.kernel.Refuses initializer) :
    handled catching finalizing (initializing initializer >>= rest) fr = .ok (initializer.second,
      { fr with kernel := { fr.kernel with
        initialized := decide (initializer.second = ps4Ok) } }) := by
  have hi : initializing initializer fr = .ok (.error (.leave initializer.second),
      { fr with kernel := { fr.kernel with
        initialized := decide (initializer.second = ps4Ok) } }) := by
    rw [initializing, Kernel.ensure_refused h]
  exact handled_exit (bind_exit hi)

theorem handled_ready (h : ¬fr.kernel.Refuses initializer) :
    handled catching finalizing (initializing initializer >>= rest) fr =
      handled catching finalizing (rest ()) fr.ready := by
  have hi : initializing initializer fr = .ok (.ok (), fr.ready) := by
    rw [initializing, Kernel.ensure_ready h]
    rfl
  exact handled_congr (bind_ok hi)

end

/-! ### The exception handler -/

def Field.cleanup : List Field := [.prologue, .bridge, .hook, .hookType, .arguments, .returns]

def Field.executable (f : Field) : Bool := f = .prologue ∨ f = .bridge

/-- `ps4FunctionCallIfNotNull(ps4KernelMemoryFree, ...)` on a pointer of the handle. -/
def Frame.freeField (residue : Residue) (fr : Frame) (f : Field) : Frame :=
  if fr.kernel.pointer fr.arg f = 0#64 then fr
  else
    { fr with kernel :=
      { fr.kernel with
        memory := if f.executable then
            ps4KernelMemoryFree fr.kernel.memory (fr.kernel.pointer fr.arg f) residue.memory
          else fr.kernel.memory
        freed := fr.kernel.freed ++ [fr.kernel.pointer fr.arg f] } }

def Frame.freeArg (residue : Residue) (fr : Frame) : Frame :=
  { fr with kernel :=
    { fr.kernel with
      handle := Function.update fr.kernel.handle fr.arg residue.handle
      freed := fr.kernel.freed ++ [fr.arg] } }

/-- `Ps4ExceptionCatch(ps4KernelFunctionHookExceptionHandler)`. -/
def Frame.catching (residue : Residue) (fr : Frame) : Frame :=
  if fr.arg = 0#64 then fr else (Field.cleanup.foldl (Frame.freeField residue) fr).freeArg residue

/-- `Ps4ExceptionFinally(ps4KernelFunctionHookExceptionHandler)`. -/
def Frame.finalizing (fr : Frame) : Frame :=
  if fr.kernel.initialized then { fr with kernel := fr.kernel.unlock } else fr

/-- Looking at the pointers of a list frees those that are not null, in their order. -/
theorem freeFields_eq (residue : Residue) (l : List Field) (fr : Frame) :
    ∃ m, l.foldl (Frame.freeField residue) fr = { fr with kernel :=
        { fr.kernel with
          memory := m
          freed := fr.kernel.freed ++ (l.map (fr.kernel.pointer fr.arg)).filter (fun p => p ≠ 0#64)
            } } ∧
      ∀ x, (∀ f ∈ l, f.executable → fr.kernel.pointer fr.arg f ≠ 0#64 →
        ¬Inside (fr.kernel.pointer fr.arg f) blockSize x) → m x = fr.kernel.memory x := by
  induction l generalizing fr with
  | nil => exact ⟨fr.kernel.memory, by simp, fun x _ => rfl⟩
  | cons f l ih =>
    obtain ⟨m, he, hm⟩ := ih (fr.freeField residue f)
    by_cases hp : fr.kernel.pointer fr.arg f = 0#64
    · have hsame : fr.freeField residue f = fr := if_pos hp
      rw [hsame] at he hm
      refine ⟨m, ?_, fun x hx => hm x fun g hg => hx g (List.mem_cons_of_mem _ hg)⟩
      rw [List.foldl_cons, hsame, he]
      simp [hp]
    · refine ⟨m, ?_, ?_⟩
      · rw [List.foldl_cons, he]
        simp [Frame.freeField, hp]
      · intro x hx
        have hrest : m x = (fr.freeField residue f).kernel.memory x := by
          refine hm x fun g hg => ?_
          simpa [Frame.freeField, hp] using hx g (List.mem_cons_of_mem _ hg)
        rw [hrest]
        simp only [Frame.freeField, hp, if_false]
        by_cases hex : f.executable = true
        · rw [if_pos hex]
          exact free_outside (hx f (by simp) hex hp)
        · rw [if_neg hex]

/-! ### Create -/

def blockAt (pointer : Address) : List Address := if pointer = 0#64 then [] else [pointer]

@[simp] theorem blockAt_zero : blockAt 0#64 = [] := rfl

private theorem blockAt_of_ne {pointer : Address} (h : pointer ≠ 0#64) :
    blockAt pointer = [pointer] := if_neg h

def Kernel.record (k : Kernel) (block : Address) : Kernel :=
  { k with allocated := k.allocated ++ blockAt block }

def Frame.allocateArg (block : Address) (fr : Frame) : Frame :=
  { fr with arg := block, kernel := fr.kernel.record block }

def Frame.clearArg (fr : Frame) : Frame :=
  { fr with kernel := { fr.kernel with
    pointer := Function.update fr.kernel.pointer fr.arg fun _ => 0#64 } }

/-- A pointer of the handle set by its allocation, which clears an executable block. The
bridge is cleared where it is filled, by `install`. -/
def Frame.allocateField (memory : Memory) (f : Field) (fr : Frame) : Frame :=
  let k : Kernel :=
    { fr.kernel with
      memory := if f = Field.prologue ∧ memory.field f ≠ 0#64 then
          ps4KernelMemoryAllocate fr.kernel.memory (memory.field f)
            ps4PayloadFunctionHookPrologueDeterminePatchSize
        else fr.kernel.memory
      pointer := Function.update fr.kernel.pointer fr.arg
        (Function.update (fr.kernel.pointer fr.arg) f (memory.field f)) }
  { fr with kernel := k.record (memory.field f) }

def allocateField (memory : Memory) (f : Field) : Body Stop Frame Code Unit := do
  modify (Frame.allocateField memory f)
  exitIf (.throw ps4ErrorKernelOutOfMemory) fun fr => fr.kernel.pointer fr.arg f = 0#64

/-- The rest of `Create` behind its allocations; `stores` says that `hookh` is not null. -/
def Frame.complete (ud : Disassembler) (memory : Memory) (stores : Bool) (function : Address)
    (fr : Frame) : Frame :=
  let size := bridgeCopiedSize ud fr.kernel.memory function memory.blocks
  { fr with
    hookh := if stores then fr.arg else fr.hookh
    kernel :=
      { fr.kernel with
        memory := install fr.kernel.memory function memory.blocks size
        handle := Function.update fr.kernel.handle fr.arg
          ⟨function, memory.field .prologue, memory.field .bridge, size, 0,
            FunctionHookTables.created⟩
        live := fr.arg :: fr.kernel.live } }

/-- `Create` behind the lazy initializer. -/
def createBody (ud : Disassembler) (memory : Memory) (stores : Bool) (function : Address) :
    Body Stop Frame Code Empty := do
  exitIf (.leave ps4ErrorArgumentMissing) fun _ => function = 0#64
  modify Frame.lock
  exitIf (.finish ps4ErrorNotAcceptable) fun fr => ps4KernelFunctionIsHooked
    fr.kernel.memory function = ps4Ok
  modify (Frame.allocateArg memory.arg)
  exitIf (.finish ps4ErrorKernelOutOfMemory) fun fr => fr.arg = 0#64
  modify Frame.clearArg
  allocateField memory .arguments
  allocateField memory .returns
  allocateField memory .hook
  allocateField memory .hookType
  allocateField memory .prologue
  allocateField memory .bridge
  modify (Frame.complete ud memory stores function)
  exit (.finish ps4Ok)

def ps4KernelFunctionHookCreate (ud : Disassembler) (initializer : Evaluations Code)
    (memory : Memory) (stores : Bool) (function : Address) (fr : Frame) :
    Except Stop (Code × Frame) :=
  handled (Frame.catching memory.residue) Frame.finalizing
    (initializing initializer >>= fun _ => createBody ud memory stores function)
    { fr with arg := 0#64 }

def Memory.Succeeds (memory : Memory) : Prop := memory.arg ≠ 0#64 ∧ ∀ f, memory.field f ≠ 0#64

def Memory.Owns (memory : Memory) (x : Address) : Prop :=
  memory.field .prologue ≠ 0#64 ∧ Inside (memory.field .prologue) blockSize x

/-- What a call leaves as it was: the bytes outside its blocks, the blocks, the word
`hookh` points to, the mutex and the handles. -/
structure Untouched (memory : Memory) (fr fr' : Frame) : Prop where
  bytes : ∀ x, ¬memory.Owns x → fr'.kernel.memory x = fr.kernel.memory x
  blocks : fr.kernel.Balanced fr'.kernel
  hookh : fr'.hookh = fr.hookh
  depth : fr'.kernel.depth = fr.kernel.depth
  live : fr'.kernel.live = fr.kernel.live
  handles : ∀ h, h ≠ memory.arg → fr'.kernel.handle h = fr.kernel.handle h

/-- The state of `Create` once it has allocated the handle and these fields of it. -/
def Frame.made (memory : Memory) (done : List Field) (fr : Frame) : Frame where
  arg := memory.arg
  hookh := fr.hookh
  kernel :=
    { fr.kernel with
      memory := if .prologue ∈ done then
          ps4KernelMemoryAllocate fr.kernel.memory (memory.field .prologue)
            ps4PayloadFunctionHookPrologueDeterminePatchSize
        else fr.kernel.memory
      depth := fr.kernel.depth + 1
      pointer := Function.update fr.kernel.pointer memory.arg fun f => if f ∈ done then
        memory.field f else 0#64
      allocated := fr.kernel.allocated ++ memory.arg :: done.map memory.field }

section

variable {memory : Memory} {fr : Frame} {done : List Field} {f : Field}

theorem made_bytes (hd : ∀ f ∈ done, memory.field f ≠ 0#64) {x : Address} (hx : ¬memory.Owns x) :
    (fr.made memory done).kernel.memory x = fr.kernel.memory x := by
  by_cases hp : .prologue ∈ done
  · have hout : ¬Inside (memory.field .prologue) blockSize x := fun h => hx ⟨hd _ hp, h⟩
    have hsize : ps4PayloadFunctionHookPrologueDeterminePatchSize ≤ 0x4000 := by
      rw [ps4PayloadFunctionHookPrologueDeterminePatchSize_eq]
      decide
    simp only [Frame.made, hp, if_true]
    exact allocate_outside hsize hout
  · simp only [Frame.made, hp, if_false]

/-- The pointers that the handler finds are those that were allocated. -/
theorem made_pointers_perm (hd : ∀ f ∈ done, memory.field f ≠ 0#64) (hn : done.Nodup) :
    ((Field.cleanup.map ((fr.made memory done).kernel.pointer memory.arg)).filter
      fun p => p ≠ 0#64).Perm
      (done.map memory.field) := by
  have hp : (fr.made memory done).kernel.pointer memory.arg =
      fun f => if f ∈ done then memory.field f else 0#64 := by
    simp [Frame.made]
  have hfilter : Field.cleanup.filter
      ((fun p => decide (p ≠ 0#64)) ∘ fun f => if f ∈ done then memory.field f else 0#64) =
      Field.cleanup.filter fun f => f ∈ done := by
    refine List.filter_congr fun f _ => ?_
    by_cases hf : f ∈ done
    · simp [hf, hd f hf]
    · simp [hf]
  have hmap : (Field.cleanup.filter fun f => f ∈ done).map
    (fun f => if f ∈ done then memory.field f else 0#64) =
      (Field.cleanup.filter fun f => f ∈ done).map memory.field := by
    refine List.map_congr_left fun f hf => ?_
    rw [List.mem_filter, decide_eq_true_iff] at hf
    exact if_pos hf.2
  have hsame : (Field.cleanup.filter fun f => f ∈ done).Perm done := by
    rw [List.perm_ext_iff_of_nodup (List.Nodup.sublist List.filter_sublist (by decide)) hn]
    intro f
    have hall : f ∈ Field.cleanup := by cases f <;> decide
    simp [List.mem_filter, hall]
  rw [hp, List.filter_map, hfilter, hmap]
  exact hsame.map _

/-- The handler undoes what `Create` has done so far. -/
theorem made_caught (hi : fr.kernel.initialized = true) (ha : memory.arg ≠ 0#64)
    (hd : ∀ f ∈ done, memory.field f ≠ 0#64) (hn : done.Nodup) (hb : .bridge ∉ done) :
    Untouched memory fr ((fr.made memory done).catching memory.residue).finalizing := by
  obtain ⟨m, he, hm⟩ := freeFields_eq memory.residue Field.cleanup (fr.made memory done)
  have hcatch : (fr.made memory done).catching memory.residue =
      (Field.cleanup.foldl (Frame.freeField memory.residue) (fr.made memory done)).freeArg
        memory.residue := if_neg ha
  have hpointer (f : Field) : (fr.made memory done).kernel.pointer memory.arg f =
      if f ∈ done then memory.field f else 0#64 := by simp [Frame.made]
  rw [hcatch, he, Frame.finalizing, if_pos (by exact hi)]
  refine ⟨?_, ?_, rfl, ?_, rfl, ?_⟩
  · intro x hx
    refine (hm x fun f _ hex hne => ?_).trans (made_bytes hd hx)
    have hf : f ∈ done := by
      by_contra hf
      exact hne ((hpointer f).trans (if_neg hf))
    have hpro : f = .prologue := by
      cases f <;> simp_all [Field.executable]
    subst hpro
    rw [show (fr.made memory done).arg = memory.arg from rfl, hpointer, if_pos hf]
    exact fun h => hx ⟨hd _ hf, h⟩
  · refine ⟨memory.arg :: done.map memory.field, _ ++ [memory.arg], rfl, List.append_assoc _ _ _,
      ?_⟩
    exact (List.perm_append_singleton _ _).trans ((made_pointers_perm hd hn).cons _)
  · exact Nat.add_sub_cancel _ 1
  · intro h hh
    exact Function.update_of_ne hh _ _

theorem allocateField_made (hf : f ∉ done) (hne : memory.field f ≠ 0#64) :
    (fr.made memory done).allocateField memory f = fr.made memory (done ++ [f]) := by
  have hpointer : (Function.update (fun g => if g ∈ done then memory.field g else 0#64) f
    (memory.field f)) =
      fun g => if g ∈ done ++ [f] then memory.field g else 0#64 := by
    funext g
    by_cases hg : g = f
    · subst hg
      simp
    · simp [hg]
  have hbytes : (fr.made memory (done ++ [f])).kernel.memory = if f = Field.prologue ∧
    memory.field f ≠ 0#64 then
      ps4KernelMemoryAllocate (fr.made memory done).kernel.memory (memory.field f)
        ps4PayloadFunctionHookPrologueDeterminePatchSize
      else (fr.made memory done).kernel.memory := by
    by_cases hp : f = .prologue
    · subst hp
      simp [Frame.made, hf, hne]
    · have hp' : .prologue ≠ f := fun h => hp h.symm
      simp [Frame.made, hp, hp']
  simp only [Frame.allocateField, Kernel.record, blockAt_of_ne hne, ← hbytes]
  simp [Frame.made, hpointer]

private theorem allocateField_null (hf : f ∉ done) (hz : memory.field f = 0#64) :
    (fr.made memory done).allocateField memory f = fr.made memory done := by
  have hpointer : (Function.update (fun g => if g ∈ done then memory.field g else 0#64) f 0#64) =
      fun g => if g ∈ done then memory.field g else 0#64 := by
    rw [Function.update_eq_self_iff, if_neg hf]
  simp [Frame.allocateField, Kernel.record, hz, Frame.made, hpointer]

end

/-- The state in which a successful `Create` returns. -/
def Frame.created (ud : Disassembler) (memory : Memory) (stores : Bool) (function : Address)
    (fr : Frame) : Frame :=
  ((fr.made memory [.arguments, .returns, .hook, .hookType, .prologue, .bridge]).complete ud memory
    stores function).finalizing

/-- How `Create` returns behind the lazy initializer. -/
inductive CreateOutcome (ud : Disassembler) (memory : Memory) (stores : Bool)
    (function : Address) (fr : Frame) :
    Code → Frame → Prop
  | created (hf : function ≠ 0#64) (hh : ps4KernelFunctionIsHooked fr.kernel.memory function ≠
      ps4Ok)
      (hm : memory.Succeeds) :
      CreateOutcome ud memory stores function fr ps4Ok (fr.created ud memory stores function)
  | failed {code : Code} {fr' : Frame} (hc : code ≠ ps4Ok) (hu : Untouched memory fr fr')
      (hwhy : function = 0#64 ∨ ps4KernelFunctionIsHooked fr.kernel.memory function = ps4Ok ∨
        ¬memory.Succeeds) :
      CreateOutcome ud memory stores function fr code fr'

section

variable {ud : Disassembler} {memory : Memory} {stores : Bool} {function : Address} {fr : Frame}

def Made (memory : Memory) (fr : Frame) (done : List Field) (fr' : Frame) : Prop :=
  fr' = fr.made memory done ∧ ∀ f ∈ done, memory.field f ≠ 0#64

/-- What holds where the body of `Create` is left. -/
def CreateExit (ud : Disassembler) (memory : Memory) (stores : Bool) (function : Address)
    (fr : Frame) (e : Exit Code) (fr' : Frame) : Prop :=
  CreateOutcome ud memory stores function fr (e.outcome (Frame.catching memory.residue)
    Frame.finalizing fr').1
    (e.outcome (Frame.catching memory.residue) Frame.finalizing fr').2

theorem allocateField_triple (hi : fr.kernel.initialized = true) (ha : memory.arg ≠ 0#64)
    {done : List Field} {f : Field} (hn : (done ++ [f]).Nodup) (hb : .bridge ∉ done) :
    Triple (Made memory fr done) (allocateField memory f) (fun _ => Made memory fr (done ++ [f]))
      (CreateExit ud memory stores function fr) := by
  have hf : f ∉ done := fun h => (List.nodup_append.mp hn).2.2 f h f (List.mem_singleton_self f) rfl
  have hc : ps4ErrorKernelOutOfMemory ≠ ps4Ok := by decide
  have hdone : done.Nodup := hn.sublist (List.sublist_append_left done [f])
  refine Triple.bind (Triple.modify (Q := fun _ fr' => fr' =
    (fr.made memory done).allocateField memory f ∧
    ∀ f ∈ done, memory.field f ≠ 0#64) ?_) fun _ => Triple.exitIf ?_ ?_
  · rintro _ ⟨rfl, hd⟩
    exact ⟨rfl, hd⟩
  · rintro _ ⟨rfl, hd⟩ hz
    have hnull : memory.field f = 0#64 := by
      by_contra hne
      rw [allocateField_made hf hne] at hz
      simp [Frame.made, hne] at hz
    rw [allocateField_null hf hnull]
    exact .failed hc (made_caught hi ha hd hdone hb) (.inr (.inr fun h => h.2 f hnull))
  · rintro _ ⟨rfl, hd⟩ hnz
    have hne : memory.field f ≠ 0#64 := by
      intro hz
      rw [allocateField_null hf hz] at hnz
      simp [Frame.made, hf] at hnz
    refine ⟨allocateField_made hf hne, fun g hg => ?_⟩
    rcases List.mem_append.mp hg with hg | hg
    · exact hd g hg
    · rw [List.mem_singleton.mp hg]
      exact hne

theorem locked_finalizing (hi : fr.kernel.initialized = true) : fr.lock.finalizing = fr := by
  rw [Frame.finalizing, if_pos (by exact hi)]
  rfl

theorem Untouched.of_eq {fr' : Frame} (h : fr' = fr) : Untouched memory fr fr' := by
  subst h
  exact ⟨fun _ _ => rfl, .of_eq rfl rfl, rfl, rfl, rfl, fun _ _ => rfl⟩

theorem createBody_triple (hi : fr.kernel.initialized = true) (harg : fr.arg = 0#64) :
    Triple (fun fr' => fr' = fr) (createBody ud memory stores function) (fun _ _ => False)
      (CreateExit ud memory stores function fr) := by
  have hmissing : ps4ErrorArgumentMissing ≠ ps4Ok := by decide
  have hnot : ps4ErrorNotAcceptable ≠ ps4Ok := by decide
  have hoom : ps4ErrorKernelOutOfMemory ≠ ps4Ok := by decide
  refine Triple.bind (Triple.exitIf (Q := fun _ fr' => fr' = fr ∧ function ≠ 0#64) ?_ ?_) fun _ =>
    Triple.given fun hf => ?_
  · intro fr' he hf
    subst he
    exact .failed hmissing (.of_eq rfl) (.inl (of_decide_eq_true hf))
  · intro fr' he hf
    exact ⟨he, of_decide_eq_false hf⟩
  refine Triple.bind (Triple.modify (Q := fun _ fr' => fr' = fr.lock) ?_) fun _ => ?_
  · intro fr' he
    subst he
    rfl
  refine Triple.bind (Triple.exitIf (Q := fun _ fr' => fr' = fr.lock ∧
    ps4KernelFunctionIsHooked fr.kernel.memory function ≠ ps4Ok) ?_ ?_)
      fun _ => Triple.given fun hh => ?_
  · intro fr' he hh
    subst he
    exact .failed hnot (.of_eq (locked_finalizing hi)) (.inr (.inl (of_decide_eq_true hh)))
  · intro fr' he hh
    subst he
    exact ⟨rfl, of_decide_eq_false hh⟩
  refine Triple.bind (Triple.modify
    (Q := fun _ fr' => fr' =
      { fr with arg := memory.arg, kernel := fr.kernel.lock.record memory.arg }) ?_) fun _ => ?_
  · intro fr' he
    subst he
    rfl
  refine Triple.bind (Triple.exitIf (Q := fun _ fr' =>
    fr' = { fr with arg := memory.arg, kernel := fr.kernel.lock.record memory.arg } ∧
      memory.arg ≠ 0#64) ?_ ?_)
    fun _ => Triple.given fun ha => ?_
  · intro fr' he ha
    subst he
    have hz : memory.arg = 0#64 := of_decide_eq_true ha
    have hback :
        Frame.finalizing { fr with arg := memory.arg, kernel := fr.kernel.lock.record memory.arg } =
          fr := by
      rw [Kernel.record, hz, blockAt_zero, List.append_nil, ← harg]
      exact locked_finalizing hi
    exact .failed hoom (.of_eq hback) (.inr (.inr fun h => h.1 hz))
  · intro fr' he ha
    subst he
    exact ⟨rfl, of_decide_eq_false ha⟩
  refine Triple.bind (Triple.modify (Q := fun _ => Made memory fr []) ?_) fun _ => ?_
  · intro fr' he
    subst he
    refine ⟨?_, by simp⟩
    simp [Frame.clearArg, Kernel.record, blockAt_of_ne ha, Frame.made, Kernel.lock]
  refine Triple.bind (allocateField_triple hi ha (by decide) (by decide)) fun _ => ?_
  refine Triple.bind (allocateField_triple hi ha (by decide) (by decide)) fun _ => ?_
  refine Triple.bind (allocateField_triple hi ha (by decide) (by decide)) fun _ => ?_
  refine Triple.bind (allocateField_triple hi ha (by decide) (by decide)) fun _ => ?_
  refine Triple.bind (allocateField_triple hi ha (by decide) (by decide)) fun _ => ?_
  refine Triple.bind (allocateField_triple hi ha (by decide) (by decide)) fun _ => ?_
  refine Triple.bind (Triple.modify (Q := fun _ fr' => CreateExit ud memory stores function fr
    (.finish ps4Ok) fr') ?_)
    fun _ => Triple.exit fun _ he => he
  intro fr' hmade
  obtain ⟨rfl, hd⟩ := hmade
  exact .created hf hh ⟨ha, fun f => hd f (by cases f <;> decide)⟩

def Frame.started (fr : Frame) : Frame := ⟨fr.kernel.ready, 0#64, fr.hookh⟩

theorem create_outcome (ud : Disassembler) {initializer : Evaluations Code} (memory : Memory)
    (stores : Bool) (function : Address) (fr : Frame) (hr : ¬fr.kernel.Refuses initializer) :
    ∃ code fr', ps4KernelFunctionHookCreate ud initializer memory stores function fr =
      .ok (code, fr') ∧
      CreateOutcome ud memory stores function fr.started code fr' := by
  have hstart : ¬({ fr with arg := 0#64 } : Frame).kernel.Refuses initializer := hr
  have htriple : Triple (fun fr' => fr' = fr.started) (createBody ud memory stores function)
    (fun _ _ => False)
      (CreateExit ud memory stores function fr.started) := createBody_triple rfl rfl
  obtain ⟨code, fr', hrun, hout⟩ := Triple.handled htriple rfl
  exact ⟨code, fr', (handled_ready hstart).trans hrun, hout⟩

/-- `Create` returns, and where it returns an error it leaves no trace: the bytes outside
the block given to the prologue, the word `hookh` points to, the depth of the mutex and the
handles are as before, and the blocks it freed are those it allocated. -/
theorem create_failure_untouched (ud : Disassembler) (initializer : Evaluations Code)
    (memory : Memory) (stores : Bool) (function : Address) (fr : Frame) :
    ∃ code fr', ps4KernelFunctionHookCreate ud initializer memory stores function fr =
      .ok (code, fr') ∧
      (code ≠ ps4Ok → Untouched memory fr fr') := by
  by_cases hr : fr.kernel.Refuses initializer
  · have hstart : ({ fr with arg := 0#64 } : Frame).kernel.Refuses initializer := hr
    refine ⟨_, _, handled_refused hstart, fun _ => ?_⟩
    exact ⟨fun _ _ => rfl, .of_eq rfl rfl, rfl, rfl, rfl, fun _ _ => rfl⟩
  · obtain ⟨code, fr', hrun, hout⟩ := create_outcome ud memory stores function fr hr
    refine ⟨code, fr', hrun, fun hc => ?_⟩
    cases hout with
    | created hf hh hm => exact absurd rfl hc
    | failed _ hu _ => exact ⟨hu.bytes, hu.blocks, hu.hookh, hu.depth, hu.live, hu.handles⟩

/-- A kernel without handles, whose mutex is free. -/
def plainKernel : Kernel :=
  { FunctionHookInstallation.plainKernel with
    pointer := fun _ _ => 0#64
    initialized := true
    depth := 0
    allocated := []
    freed := [] }

def plainMemory : Memory where
  arg := 0xffff800000040000
  field := fun f => match f with
    | .arguments => 0xffff800000050000
    | .returns => 0xffff800000060000
    | .hook => 0xffff800000070000
    | .hookType => 0xffff800000080000
    | .prologue => 0xffff800000010000
    | .bridge => 0xffff800000020000
  uninitialized := 0
  residue := ⟨fun _ => 0xcc, ⟨0, 0, 0, 0, 0, FunctionHookTables.created⟩⟩

/-- The outcomes in which the allocation of this field fails. -/
def Memory.without (memory : Memory) (f : Field) : Memory :=
  { memory with field := Function.update memory.field f 0#64 }

/-- Without memory for the bridge `Create` fails, with the function as it was. -/
theorem create_failure_untouched_bridge :
    ∃ fr', ps4KernelFunctionHookCreate FunctionHookInstallation.singleBytes ⟨ps4Ok, ps4Ok⟩
        (plainMemory.without .bridge) true FunctionHookInstallation.plainFunction
          ⟨plainKernel, 0#64, 0#64⟩ =
          .ok (ps4ErrorKernelOutOfMemory, fr') ∧
      Untouched (plainMemory.without .bridge) ⟨plainKernel, 0#64, 0#64⟩ fr' := by
  have hcode : ∃ fr', ps4KernelFunctionHookCreate
    FunctionHookInstallation.singleBytes ⟨ps4Ok, ps4Ok⟩
      (plainMemory.without .bridge) true FunctionHookInstallation.plainFunction
        ⟨plainKernel, 0#64, 0#64⟩ =
        .ok (ps4ErrorKernelOutOfMemory, fr') := ⟨_, rfl⟩
  obtain ⟨code, fr', hrun, hu⟩ :=
    create_failure_untouched FunctionHookInstallation.singleBytes ⟨ps4Ok, ps4Ok⟩
    (plainMemory.without .bridge) true FunctionHookInstallation.plainFunction
      ⟨plainKernel, 0#64, 0#64⟩
  obtain ⟨fr₁, hrun₁⟩ := hcode
  have hsame := Except.ok.inj (hrun₁.symm.trans hrun)
  obtain ⟨hcode, rfl⟩ := Prod.mk.inj hsame
  exact ⟨fr₁, hrun₁, hu (hcode ▸ by decide)⟩

theorem created_toKernel (ud : Disassembler) (memory : Memory) (stores : Bool)
    (hi : fr.kernel.initialized = true) (hf : function ≠ 0#64)
    (hh : ps4KernelFunctionIsHooked fr.kernel.memory function ≠ ps4Ok) :
    FunctionHookInstallation.ps4KernelFunctionHookCreate ud fr.kernel.toKernel
      function memory.blocks =
      (ps4Ok, (fr.created ud memory stores function).kernel.toKernel) := by
  rw [FunctionHookInstallation.ps4KernelFunctionHookCreate, if_neg hf, if_neg hh]
  simp [Frame.created, Frame.finalizing, Kernel.unlock, Frame.complete, Frame.made,
    Memory.blocks, hi]

/-- Where every allocation succeeds, `Create` hooks what it hooks in the installation model. -/
theorem create_installs (ud : Disassembler) (stores : Bool) {initializer : Evaluations Code}
    (hr : ¬fr.kernel.Refuses initializer) (hf : function ≠ 0#64)
    (hh : ps4KernelFunctionIsHooked fr.kernel.memory function ≠ ps4Ok) (hm : memory.Succeeds) :
    ps4KernelFunctionHookCreate ud initializer memory stores function fr =
      .ok (ps4Ok, fr.started.created ud memory stores function) := by
  obtain ⟨code, fr', hrun, hout⟩ := create_outcome ud memory stores function fr hr
  cases hout with
  | failed _ _ hwhy =>
    rcases hwhy with hz | hz | hz
    · exact absurd hz hf
    · exact absurd hz hh
    · exact absurd hm hz
  | created _ _ _ => exact hrun

end

end Ps4Sdk.FunctionHookFailures
