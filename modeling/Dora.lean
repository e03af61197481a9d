import Dora.Asm.Arm64Labels
import Dora.Asm.X64Lockstep
import Dora.Bytecode.Jumps
import Dora.Boots.Transmission
import Dora.Boots.Iterator
import Dora.Boots.Agreement
import Dora.Boots.Generation
import Dora.Gc.CopyGraph
import Dora.Gc.Budget
import Dora.Gc.LargeSweep
import Dora.Gc.ParallelMinorSafety
import Dora.Gc.ParallelMarkingSafety
import Dora.Sync.MutexSafety
import Dora.Sync.ConditionSafety
import Dora.Sync.SafepointSafety
import Dora.Sync.MovingObjects
import Dora.Boots.EdgesSpec
import Dora.Stdlib.StringRoundTrip
import Dora.Stdlib.StringSearch
import Dora.Stdlib.Random
import Dora.Stdlib.Queue
import Dora.Stdlib.HashMapRuns
import Dora.Language.MatchingSpec
import Dora.Language.AccessSpec
import Dora.Language.IntLiterals
import Dora.Language.Specialize
import Dora.Masm.Arithmetic
