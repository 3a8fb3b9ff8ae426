import Ps4Sdk.FunctionHookTableRefinement
import Ps4Sdk.FunctionHookTableInvariant
import Ps4Sdk.FunctionHookDispatch
import Ps4Sdk.SystemCallHookHandler
import Ps4Sdk.SystemCallHookChains
import Ps4Sdk.FunctionHookInstallation
import Ps4Sdk.FunctionHookReversibility
import Ps4Sdk.FunctionHookDestruction
import Ps4Sdk.SystemCallHookDestruction
import Ps4Sdk.FunctionHookSnapshotRuns
import Ps4Sdk.KernelCacheLifetimes
import Ps4Sdk.SymbolLookUps
import Ps4Sdk.SystemCallHookTransparency
import Ps4Sdk.FunctionHookBridges
import Ps4Sdk.SystemCallHookSnapshotRuns
import Ps4Sdk.LazyModuleErrors
import Ps4Sdk.CacheRefinement
import Ps4Sdk.LazyModuleCalls
import Ps4Sdk.FunctionHookTransparency
import Ps4Sdk.PayloadExecution
import Ps4Sdk.FunctionHookCreation
import Ps4Sdk.KernelExecution
import Ps4Sdk.AdaptiveStubs
import Ps4Sdk.SharedMemory
import Ps4Sdk.ExecutableMemory
import Ps4Sdk.MemoryPrimitives
import Ps4Sdk.ElfSymbols
import Ps4Sdk.FunctionHookControls
import Ps4Sdk.FunctionHookThreads
import Ps4Sdk.SystemCallHookMemory
import Ps4Sdk.SystemCallHookRefinement
import Ps4Sdk.LazyModuleFailures
import Ps4Sdk.SystemCallTables
import Ps4Sdk.FunctionHookAtomicity
import Ps4Sdk.HookCloneIsolation
import Ps4Sdk.InstructionSeeking
import Ps4Sdk.HexDumps
import Ps4Sdk.SocketLines
import Ps4Sdk.SocketAccept
import Ps4Sdk.StubTransparency
import Ps4Sdk.PageRounding
import Ps4Sdk.DescriptorReading
import Ps4Sdk.AlignedFiles
import Ps4Sdk.FormatArguments
import Ps4Sdk.KernelCacheBuckets
import Ps4Sdk.HiddenInformation
import Ps4Sdk.SocketSessions
import Ps4Sdk.SysctlNames
