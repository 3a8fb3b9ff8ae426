import Ps4Sdk.InterleavedPrograms
import Ps4Sdk.KernelBase
import Mathlib.Tactic.Common

/-!
# Modules that initialise themselves

The symbol look-up, the global cache and the two kinds of hooks fill their static pointers
on the first call. Each call is a program of statements here: loads and stores of the static
pointers, locks, allocations, and the look-ups and insertions in the caches. `malloc` is
called with `M_WAITOK`, so that it waits when there is no memory and never returns null.
-/

namespace Ps4Sdk.LazyModules
open InterleavedPrograms

inductive Module
  | symbol | global | functionHook | systemCallHook
  deriving DecidableEq

inductive Static
  | symbolCache | symbolLookUpMutex
  | globalCache | cacheGlobalMutex
  | functionHookMutex | functionHookHandler
  | functionHookArgumentClone | functionHookArgumentDestroy
  | systemCallHookMutex | systemCallHookHandler | systemCallHookArgumentClone
  deriving DecidableEq

/-- The pointer that is tested without a lock to see whether the module is initialised. -/
def Module.tested : Module → Static
  | .symbol => .symbolCache
  | .global => .globalCache
  | .functionHook => .functionHookMutex
  | .systemCallHook => .systemCallHookMutex

/-- The pointer is not tested again under `Giant`, so that the test decides. -/
def Module.testDecides : Module → Bool
  | .symbol | .global => true
  | .functionHook | .systemCallHook => false

/-- What `kernel_sysctlbyname` returns for the node `ps4`. -/
inductive NodeAnswer
  | enoent | eisdir | other
  deriving DecidableEq

/-- A call's result code, and what it has stored through a pointer to a variable. -/
structure Returned where
  code : Code
  value : Address
  deriving DecidableEq

/-- The static pointers, the contents of the caches, the mutexes that are initialised and who holds
them how often again, the memory that `malloc` will hand out, the sysctl leaf `ps4.cache`, what the
sysctl interface answers, and the threads that are filling the pointers of a module. -/
structure Kernel where
  static : Static → Address
  content : Address → String → Option Address
  initialized : Address → Bool
  owner : Address → Option (ℕ × ℕ)
  supply : List Address
  leaf : Option Address
  node : NodeAnswer
  adds : Bool
  filling : Module → List ℕ

inductive Statement
  | test (m : Module)
  | load (x : Static)
  | store (x : Static) (a : Address)
  | dlSym (name : String)
  | lock (mutex : Address)
  | unlock (mutex : Address)
  | allocate
  | free (a : Address)
  | mtxInit (mutex : Address)
  | clear (cache : Address)
  | find (cache : Address) (name : String)
  | insert (cache : Address) (name : String) (value : Address)
  | remove (cache : Address) (name : String)
  | sysctlCache
  | sysctlNode
  | sysctlAddOid (cache : Address)
  | enter (m : Module)
  | leave (m : Module)
  | install (pointers : List Address)
  | body

abbrev Statement.Answer : Statement → Type
  | .test _ | .load _ | .dlSym _ | .allocate => Address
  | .find _ _ | .sysctlCache => Option Address
  | .sysctlNode => NodeAnswer
  | .sysctlAddOid _ => Bool
  | _ => Unit

section
variable (symbols : String → Address) (i : ℕ)

/-- A recursive mutex is locked. -/
def lockMutex (k : Kernel) (mutex : Address) : Option Kernel :=
  if mutex = 0#64 ∨ k.initialized mutex = false then none
  else match k.owner mutex with
    | none => some { k with owner := Function.update k.owner mutex (some (i, 0)) }
    | some (j, n) =>
      if j = i then some { k with owner := Function.update k.owner mutex (some (i, n + 1)) }
        else none

def unlockMutex (k : Kernel) (mutex : Address) : Option Kernel :=
  match k.owner mutex with
  | none => none
  | some (j, n) =>
    if j = i then some
      { k with owner := Function.update k.owner mutex (if n = 0 then none else some (i, n - 1)) }
    else none

/-- A thread performs a statement, unless it has to wait or the kernel panics. `enter` and `leave`
mark where the pointers of a module are filled. -/
def step : (a : Statement) → Kernel → Option (a.Answer × Kernel)
  | .test m, k => some (k.static m.tested,
      if k.static m.tested = 0#64 ∧ m.testDecides then
        { k with filling := Function.update k.filling m (i :: k.filling m) } else k)
  | .load x, k => some (k.static x, k)
  | .store x a, k => some ((), { k with static := Function.update k.static x a })
  | .dlSym name, k => some (symbols name, k)
  | .lock mutex, k => (lockMutex i k mutex).map (fun k => ((), k))
  | .unlock mutex, k => (unlockMutex i k mutex).map (fun k => ((), k))
  | .allocate, k =>
    match k.supply with
    | [] => none
    | a :: rest => some (a, { k with supply := rest })
  | .free a, k => some ((), { k with initialized := Function.update k.initialized a false })
  | .mtxInit mutex, k =>
    if mutex = 0#64 then none else some ((), { k with
      initialized := Function.update k.initialized mutex true })
  | .clear cache,
      k => some ((), { k with content := Function.update k.content cache (fun _ => none) })
  | .find cache name, k => some (k.content cache name, k)
  | .insert cache name value, k => some ((), { k with
      content := Function.update k.content cache
        (Function.update (k.content cache) name (some value)) })
  | .remove cache name, k => some ((), { k with
      content := Function.update k.content cache (Function.update (k.content cache) name none) })
  | .sysctlCache, k => some (k.leaf, k)
  | .sysctlNode, k => some (k.node, k)
  | .sysctlAddOid cache, k => some (k.adds, if k.adds then { k with leaf := some cache } else k)
  | .enter m, k => some ((), { k with filling := Function.update k.filling m (i :: k.filling m) })
  | .leave m, k => some
      ((), { k with filling := Function.update k.filling m ((k.filling m).erase i) })
  | .install _, k => some ((), k)
  | .body, k => some ((), k)

end

theorem lockMutex_owner {i : ℕ} {k k' : Kernel} {mutex : Address}
    (h : lockMutex i k mutex = some k') :
    (∃ n, k' = { k with owner := Function.update k.owner mutex (some (i, n)) }) ∧
      ∀ j n, k.owner mutex = some (j, n) → j = i := by
  unfold lockMutex at h
  split_ifs at h with hm
  cases ho : k.owner mutex with
  | none =>
    rw [ho] at h
    cases h
    exact ⟨⟨0, rfl⟩, by simp⟩
  | some p =>
    obtain ⟨j, n⟩ := p
    simp only [ho] at h
    split_ifs at h with hj
    cases h
    refine ⟨⟨n + 1, rfl⟩, ?_⟩
    rintro j' n' ⟨⟩
    exact hj

theorem unlockMutex_owner {i : ℕ} {k k' : Kernel} {mutex : Address}
    (h : unlockMutex i k mutex = some k') :
    (∃ o, k' = { k with owner := Function.update k.owner mutex o }) ∧
    ∀ j n, k.owner mutex = some (j, n) → j = i := by
  unfold unlockMutex at h
  cases ho : k.owner mutex with
  | none =>
    rw [ho] at h
    cases h
  | some p =>
    obtain ⟨j, n⟩ := p
    simp only [ho] at h
    split_ifs at h with hj hn
    · cases h
      refine ⟨⟨_, rfl⟩, ?_⟩
      rintro j' n' ⟨⟩
      exact hj
    · cases h
      refine ⟨⟨_, rfl⟩, ?_⟩
      rintro j' n' ⟨⟩
      exact hj

abbrev Prog := Program Statement.Answer

def test (m : Module) : Prog Address := perform (Statement.test m)
def load (x : Static) : Prog Address := perform (Statement.load x)
def store (x : Static) (a : Address) : Prog Unit := perform (Statement.store x a)
def ps4KernelDlSym (name : String) : Prog Address := perform (Statement.dlSym name)
def mtxLock (mutex : Address) : Prog Unit := perform (Statement.lock mutex)
def mtxUnlock (mutex : Address) : Prog Unit := perform (Statement.unlock mutex)
def mtxInit (mutex : Address) : Prog Unit := perform (Statement.mtxInit mutex)
def malloc : Prog Address := perform Statement.allocate
def ps4KernelMemoryFree (a : Address) : Prog Unit := perform (Statement.free a)
def clear (cache : Address) : Prog Unit := perform (Statement.clear cache)
def hashFind (cache : Address) (name : String) : Prog (Option Address) :=
  perform (Statement.find cache name)
def hashAdd (cache : Address) (name : String) (value : Address) : Prog Unit :=
  perform (Statement.insert cache name value)
def hashDelete (cache : Address) (name : String) : Prog Unit :=
  perform (Statement.remove cache name)
def sysctlCache : Prog (Option Address) := perform Statement.sysctlCache
def sysctlNode : Prog NodeAnswer := perform Statement.sysctlNode
def sysctlAddOid (cache : Address) : Prog Bool := perform (Statement.sysctlAddOid cache)
def enter (m : Module) : Prog Unit := perform (Statement.enter m)
def leave (m : Module) : Prog Unit := perform (Statement.leave m)
def install (pointers : List Address) : Prog Unit := perform (Statement.install pointers)
def body : Prog Unit := perform Statement.body

/-- `if(val) { return val; }`, which evaluates `val` again to return it. -/
def ps4ExpressionReturnOnError {m : Type → Type} [Monad m] (val : m Returned)
    (rest : Address → m Returned) :
    m Returned := do
  let r ← val
  if r.code ≠ ps4Ok then
    let again ← val
    pure ⟨again.code, 0#64⟩
  else rest r.value

/-! ### Memory and caches -/

inductive Destination
  | null
  | static (x : Static)
  | variable
  deriving DecidableEq

def write (destination : Destination) (a : Address) : Prog Unit :=
  match destination with
  | .static x => store x a
  | _ => pure ()

def ps4KernelMemoryAllocate (x : Static) : Prog Unit := do
  let m ← malloc
  store x m

def ps4KernelCacheCreate (x : Static) : Prog Code := do
  ps4KernelMemoryAllocate x
  let cache ← load x
  clear cache
  pure ps4Ok

def ps4KernelCacheDestroy (cache : Address) : Prog Unit := do
  clear cache
  ps4KernelMemoryFree cache

def ps4KernelCacheGet (cache : Address) (name : String) (value : Destination) : Prog Returned :=
  if cache = 0#64 then pure ⟨ps4ErrorArgumentPrimaryMissing, 0#64⟩
  else if value = .null then pure ⟨ps4ErrorArgumentOutMissing, 0#64⟩
  else do
    write value 0#64
    match ← hashFind cache name with
    | none => pure ⟨ps4ErrorNotFound, 0#64⟩
    | some v =>
      write value v
      pure ⟨ps4Ok, v⟩

def ps4KernelCacheSet (cache : Address) (name : String) (value : Address) : Prog Returned :=
  if cache = 0#64 then pure ⟨ps4ErrorArgumentPrimaryMissing, 0#64⟩
  else do
    hashAdd cache name value
    pure ⟨ps4Ok, 0#64⟩

def ps4KernelCacheDelete (cache : Address) (name : String) : Prog Returned :=
  if cache = 0#64 then pure ⟨ps4ErrorArgumentPrimaryMissing, 0#64⟩
  else do
    match ← hashFind cache name with
    | none => pure ⟨ps4ErrorNotFound, 0#64⟩
    | some _ =>
      hashDelete cache name
      pure ⟨ps4Ok, 0#64⟩

/-! ### The global cache -/

def ps4KernelCacheGlobalMutexName : String := "ps4.kernel.cache.global.mutex"

def cacheGlobalTake (giant cache : Address) : Prog Returned := do
  store .globalCache cache
  let cache ← load .globalCache
  let _ ← ps4KernelCacheGet cache ps4KernelCacheGlobalMutexName (.static .cacheGlobalMutex)
  leave .global
  mtxUnlock giant
  pure ⟨ps4Ok, 0#64⟩

def cacheGlobalRegister (giant c cache : Address) : Prog Returned := do
  match ← sysctlNode with
  | .other =>
    let mutex ← load .cacheGlobalMutex
    ps4KernelMemoryFree mutex
    ps4KernelMemoryFree c
    let cache ← load .globalCache
    ps4KernelCacheDestroy cache
    leave .global
    mtxUnlock giant
    pure ⟨ps4ErrorInternalError, 0#64⟩
  | _ =>
    let added ← sysctlAddOid cache
    leave .global
    mtxUnlock giant
    pure ⟨if added then ps4Ok else ps4NotOk, 0#64⟩

def cacheGlobalMake (giant : Address) : Prog Returned := do
  let r ← ps4KernelCacheCreate .globalCache
  if r ≠ ps4Ok then
    leave .global
    mtxUnlock giant
    pure ⟨r, 0#64⟩
  else
    let c ← malloc
    let cache ← load .globalCache
    if c = 0#64 then
      ps4KernelCacheDestroy cache
      leave .global
      mtxUnlock giant
      pure ⟨ps4ErrorKernelOutOfMemory, 0#64⟩
    else
      ps4KernelMemoryAllocate .cacheGlobalMutex
      let mutex ← load .cacheGlobalMutex
      if mutex = 0#64 then
        ps4KernelMemoryFree c
        let current ← load .globalCache
        ps4KernelCacheDestroy current
        leave .global
        mtxUnlock giant
        pure ⟨ps4ErrorKernelOutOfMemory, 0#64⟩
      else
        let mutex ← load .cacheGlobalMutex
        mtxInit mutex
        let current ← load .globalCache
        let mutex ← load .cacheGlobalMutex
        let _ ← ps4KernelCacheSet current ps4KernelCacheGlobalMutexName mutex
        cacheGlobalRegister giant c cache

def ps4KernelCacheGlobalInitialize : Prog Returned := do
  let giant ← ps4KernelDlSym "Giant"
  mtxLock giant
  match ← sysctlCache with
  | some cache => cacheGlobalTake giant cache
  | none => cacheGlobalMake giant

/-- The test in front of an operation: `if(pointer == NULL) ps4ExpressionReturnOnError(first);`. -/
def initializing (m : Module) (first rest : Prog Returned) : Prog Returned := do
  let pointer ← test m
  if pointer = 0#64 then ps4ExpressionReturnOnError first (fun _ => rest) else rest

def cacheGlobalLocked (use : Address → Prog Returned) : Prog Returned := do
  let mutex ← load .cacheGlobalMutex
  mtxLock mutex
  let cache ← load .globalCache
  let r ← use cache
  let mutex ← load .cacheGlobalMutex
  mtxUnlock mutex
  pure r

def ps4KernelCacheGlobalGet (name : Option String) (value : Destination) : Prog Returned :=
  initializing .global ps4KernelCacheGlobalInitialize <|
    match name with
    | none => pure ⟨ps4ErrorArgumentPrimaryMissing, 0#64⟩
    | some name =>
      if value = .null then pure ⟨ps4ErrorArgumentOutMissing, 0#64⟩
      else cacheGlobalLocked (fun cache => ps4KernelCacheGet cache name value)

def ps4KernelCacheGlobalSet (name : Option String) (value : Address) : Prog Returned :=
  initializing .global ps4KernelCacheGlobalInitialize <|
    match name with
    | none => pure ⟨ps4ErrorArgumentPrimaryMissing, 0#64⟩
    | some name =>
      if value = 0#64 then pure ⟨ps4ErrorArgumentMissing, 0#64⟩
      else cacheGlobalLocked (fun cache => ps4KernelCacheSet cache name value)

def ps4KernelCacheGlobalDelete (name : Option String) : Prog Returned :=
  initializing .global ps4KernelCacheGlobalInitialize <|
    match name with
    | none => pure ⟨ps4ErrorArgumentPrimaryMissing, 0#64⟩
    | some name => cacheGlobalLocked (fun cache => ps4KernelCacheDelete cache name)

/-! ### The symbol look-up -/

def ps4KernelCacheSymbolLookupCache : String := "ps4.kernel.symbol.lookup.cache"
def ps4KernelCacheSymbolLookupMutex : String := "ps4.kernel.symbol.lookup.mutex"

def symbolMake (giant : Address) : Prog Code := do
  let r ← ps4KernelCacheCreate .symbolCache
  if r ≠ ps4Ok then
    leave .symbol
    mtxUnlock giant
    pure r
  else
    let cache ← load .symbolCache
    let _ ← ps4KernelCacheGlobalSet (some ps4KernelCacheSymbolLookupCache) cache
    ps4KernelMemoryAllocate .symbolLookUpMutex
    let mutex ← load .symbolLookUpMutex
    if mutex = 0#64 then
      let cache ← load .symbolCache
      ps4KernelCacheDestroy cache
      leave .symbol
      mtxUnlock giant
      pure ps4ErrorKernelOutOfMemory
    else
      let mutex ← load .symbolLookUpMutex
      mtxInit mutex
      let mutex ← load .symbolLookUpMutex
      let _ ← ps4KernelCacheGlobalSet (some ps4KernelCacheSymbolLookupMutex) mutex
      leave .symbol
      mtxUnlock giant
      pure ps4Ok

/-- The block of `ps4KernelSymbolLookUp` that initialises the module. -/
def symbolInitialize : Prog Code := do
  let giant ← ps4KernelDlSym "Giant"
  mtxLock giant
  let r ← ps4KernelCacheGlobalGet (some ps4KernelCacheSymbolLookupCache) (.static .symbolCache)
  if r.code ≠ ps4Ok then symbolMake giant
  else
    let _ ← ps4KernelCacheGlobalGet (some ps4KernelCacheSymbolLookupMutex)
      (.static .symbolLookUpMutex)
    leave .symbol
    mtxUnlock giant
    pure ps4Ok

/-- The rest of `ps4KernelSymbolLookUp`, which keeps the mutex when there is no symbol. -/
def symbolFind (name : String) (value : Destination) : Prog Returned := do
  let mutex ← load .symbolLookUpMutex
  mtxLock mutex
  let cache ← load .symbolCache
  let r ← ps4KernelCacheGet cache name value
  if r.code ≠ ps4Ok then
    let v ← ps4KernelDlSym name
    let cache ← load .symbolCache
    let _ ← ps4KernelCacheSet cache name v
    write value v
    if v = 0#64 then pure ⟨ps4ErrorKernelSymbolLookupNotFound, v⟩
    else
      let mutex ← load .symbolLookUpMutex
      mtxUnlock mutex
      pure ⟨ps4Ok, v⟩
  else
    let mutex ← load .symbolLookUpMutex
    mtxUnlock mutex
    pure ⟨ps4Ok, r.value⟩

def ps4KernelSymbolLookUp (str : Option String) (value : Destination) : Prog Returned :=
  match str with
  | none => pure ⟨ps4ErrorArgumentPrimaryMissing, 0#64⟩
  | some name =>
    if value = .null then pure ⟨ps4ErrorArgumentOutMissing, 0#64⟩
    else do
      let pointer ← test .symbol
      if pointer = 0#64 then
        let r ← symbolInitialize
        if r ≠ ps4Ok then pure ⟨r, 0#64⟩ else symbolFind name value
      else symbolFind name value

/-! ### The hooks -/

def fillStatic (x : Static) (name : String) (prepare : Address → Prog Unit) : Prog Unit := do
  let pointer ← load x
  if pointer = 0#64 then
    let r ← ps4KernelCacheGlobalGet (some name) (.static x)
    if r.code ≠ ps4Ok then
      ps4KernelMemoryAllocate x
      let m ← load x
      prepare m
      let m ← load x
      let _ ← ps4KernelCacheGlobalSet (some name) m
      pure ()
    else pure ()
  else pure ()

/-- The payload code is copied into the block. -/
def ps4KernelMemoryCopy (_to : Address) : Prog Unit := body

def ps4KernelFunctionHookInitialize : Prog Returned :=
  ps4ExpressionReturnOnError (ps4KernelSymbolLookUp (some "Giant") .variable) fun giant => do
    mtxLock giant
    enter .functionHook
    fillStatic .functionHookMutex "ps4.kernel.function.hook.mutex" mtxInit
    fillStatic .functionHookHandler "ps4.kernel.function.hook.handler" ps4KernelMemoryCopy
    fillStatic .functionHookArgumentClone "ps4.kernel.function.hook.clone" ps4KernelMemoryCopy
    fillStatic .functionHookArgumentDestroy "ps4.kernel.function.hook.destroy" ps4KernelMemoryCopy
    leave .functionHook
    mtxUnlock giant
    pure ⟨ps4Ok, 0#64⟩

def ps4KernelSystemCallHookInitialize : Prog Returned :=
  ps4ExpressionReturnOnError (ps4KernelSymbolLookUp (some "Giant") .variable) fun giant => do
    mtxLock giant
    enter .systemCallHook
    fillStatic .systemCallHookMutex "ps4.kernel.system_call.hook.mutex" mtxInit
    fillStatic .systemCallHookHandler "ps4.kernel.system_call.hook.handler" ps4KernelMemoryCopy
    fillStatic .systemCallHookArgumentClone "ps4.kernel.system_call.hook.clone" ps4KernelMemoryCopy
    leave .systemCallHook
    mtxUnlock giant
    pure ⟨ps4Ok, 0#64⟩

/-- `ps4FunctionCallIfNotNull(mtx_unlock, mutex)`, which the operations on hooks end with. -/
def finallyUnlock (x : Static) (r : Returned) : Prog Returned := do
  let mutex ← load x
  if mutex = 0#64 then pure r
  else
    let mutex ← load x
    mtxUnlock mutex
    pure r

def lockedBy (x : Static) (rest : Prog Returned) : Prog Returned := do
  let mutex ← load x
  mtxLock mutex
  let r ← rest
  finallyUnlock x r

/-- The look-ups with which `Create` stores the allocator in the handle. -/
def allocatorLookUps : Prog Unit := do
  let _ ← ps4KernelSymbolLookUp (some "malloc") .variable
  let _ ← ps4KernelSymbolLookUp (some "free") .variable
  let _ ← ps4KernelSymbolLookUp (some "M_TEMP") .variable
  pure ()

def functionHookInitializing (rest : Prog Returned) : Prog Returned :=
  initializing .functionHook ps4KernelFunctionHookInitialize rest

def systemCallHookInitializing (rest : Prog Returned) : Prog Returned :=
  initializing .systemCallHook ps4KernelSystemCallHookInitialize rest

/-- The handle and its tables are allocated and filled by `body`. -/
def ps4KernelFunctionHookCreate (function : Address) (hooked : Bool) : Prog Returned :=
  functionHookInitializing <|
    if function = 0#64 then pure ⟨ps4ErrorArgumentMissing, 0#64⟩
    else lockedBy .functionHookMutex <|
      if hooked then pure ⟨ps4ErrorNotAcceptable, 0#64⟩
      else do
        body
        let handler ← load .functionHookHandler
        let clone ← load .functionHookArgumentClone
        let epilogue ← load .functionHookArgumentDestroy
        allocatorLookUps
        install [handler, clone, epilogue]
        pure ⟨ps4Ok, 0#64⟩

def ps4KernelFunctionHookAdd (hookh hook : Address) : Prog Returned :=
  functionHookInitializing <|
    if hookh = 0#64 then pure ⟨ps4ErrorArgumentPrimaryMissing, 0#64⟩
    else if hook = 0#64 then pure ⟨ps4ErrorArgumentMissing, 0#64⟩
    else lockedBy .functionHookMutex <| do
      body
      pure ⟨ps4Ok, 0#64⟩

def ps4KernelFunctionHookRemove (hookh hook : Address) (found : Bool) : Prog Returned :=
  if hookh = 0#64 then pure ⟨ps4ErrorArgumentPrimaryMissing, 0#64⟩
  else if hook = 0#64 then pure ⟨ps4ErrorArgumentMissing, 0#64⟩
  else functionHookInitializing <| do
    let mutex ← load .functionHookMutex
    mtxLock mutex
    body
    let mutex ← load .functionHookMutex
    mtxUnlock mutex
    pure ⟨if found then ps4Ok else ps4ErrorNotFound, 0#64⟩

def ps4KernelFunctionHookDestroy (hook : Address) : Prog Returned :=
  functionHookInitializing <|
    if hook = 0#64 then pure ⟨ps4ErrorArgumentPrimaryMissing, 0#64⟩
    else lockedBy .functionHookMutex <| do
      body
      pure ⟨ps4Ok, 0#64⟩

def functionHookNested (rest : Prog Returned) : Prog Returned :=
  functionHookInitializing <| do
    let mutex ← load .functionHookMutex
    mtxLock mutex
    let r ← rest
    let mutex ← load .functionHookMutex
    mtxUnlock mutex
    pure r

/-- The handle is extracted from the code of the function, if it is hooked. -/
def ps4KernelFunctionGetHook (hookh : Address) (hooked : Bool) : Prog Returned :=
  functionHookNested (pure (if hooked then ⟨ps4Ok, hookh⟩
    else ⟨ps4ErrorArgumentExpectationFailed, 0#64⟩))

def ps4KernelFunctionHook (function hook hookh : Address) (hooked : Bool) : Prog Returned :=
  functionHookNested <| do
    let r ← if hooked then ps4KernelFunctionGetHook hookh true
      else ps4KernelFunctionHookCreate function false
    if r.code = ps4Ok then ps4KernelFunctionHookAdd hookh hook else pure r

def ps4KernelFunctionUnhook (hookh : Address) (hooked : Bool) : Prog Returned :=
  functionHookNested <| do
    let r ← ps4KernelFunctionGetHook hookh hooked
    if r.code ≠ ps4Ok then pure ⟨ps4ErrorExpectationFailed, 0#64⟩
      else ps4KernelFunctionHookDestroy r.value

def ps4KernelSystemCallHookCreate (hookh : Address) (tooLarge : Bool) : Prog Returned :=
  ps4ExpressionReturnOnError (ps4KernelSymbolLookUp (some "sysent") .variable) fun _ =>
    if hookh = 0#64 then pure ⟨ps4ErrorArgumentPrimaryMissing, 0#64⟩
    else if tooLarge then pure ⟨ps4ErrorKernelSystemCallNumberTooLarge, 0#64⟩
    else systemCallHookInitializing <| do
      let mutex ← load .systemCallHookMutex
      mtxLock mutex
      body
      allocatorLookUps
      let clone ← load .systemCallHookArgumentClone
      let handler ← load .systemCallHookHandler
      install [clone, handler]
      let mutex ← load .systemCallHookMutex
      mtxUnlock mutex
      pure ⟨ps4Ok, 0#64⟩

def ps4KernelSystemCallHookAdd (hookh hook : Address) : Prog Returned :=
  systemCallHookInitializing <|
    if hookh = 0#64 then pure ⟨ps4ErrorArgumentPrimaryMissing, 0#64⟩
    else if hook = 0#64 then pure ⟨ps4ErrorArgumentMissing, 0#64⟩
    else lockedBy .systemCallHookMutex <| do
      body
      pure ⟨ps4Ok, 0#64⟩

def ps4KernelSystemCallHookDestroy (hookh : Address) : Prog Returned :=
  systemCallHookInitializing <|
    if hookh = 0#64 then pure ⟨ps4ErrorArgumentPrimaryMissing, 0#64⟩
    else ps4ExpressionReturnOnError (ps4KernelSymbolLookUp (some "sysent") .variable) fun _ =>
      lockedBy .systemCallHookMutex <| do
        body
        pure ⟨ps4Ok, 0#64⟩

/-! ### The other users of the look-up -/

def ps4KernelSystemCallPatchUnsafe : Prog Returned :=
  ps4ExpressionReturnOnError (ps4KernelSymbolLookUp (some "sysent") .variable) fun _ => do
    body
    pure ⟨ps4Ok, 0#64⟩

def ps4KernelPrivilegeUnjail : Prog Returned :=
  ps4ExpressionReturnOnError (ps4KernelSymbolLookUp (some "prison0") .variable) fun _ => do
    body
    ps4ExpressionReturnOnError (ps4KernelSymbolLookUp (some "rootvnode") .variable) fun _ => do
      body
      pure ⟨ps4Ok, 0#64⟩

end Ps4Sdk.LazyModules
