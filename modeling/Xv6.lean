import Xv6.BufferCacheRing
import Xv6.LogSpaceReservation
import Xv6.KillTargets
import Xv6.KilledSleepers
import Xv6.ShellGrammar
import Xv6.TornWrites
import Xv6.SharedFileOffsets
import Xv6.MkfsImages
import Xv6.SleepLocks
import Xv6.FileReads
import Xv6.VirtioCompletions
import Xv6.TracedCalls
import Xv6.PrimesPipeline
import Xv6.SystemInfo
import Xv6.ForkedMemory
import Xv6.PipeReads
import Xv6.DescriptorCalls
import Xv6.MemoryIsolation
import Xv6.SbrkCalls
import Xv6.MallocRequests
import Xv6.MemoryMoves
import Xv6.GrepLines
import Xv6.XargsLines
import Xv6.KernelPrintf
import Xv6.UserPrintf
import Xv6.ShellStrings
import Xv6.FindTrees
import Xv6.InterruptNesting
import Xv6.LogHistories
import Xv6.UartTransmit
