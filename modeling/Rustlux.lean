import Rustlux.BitWeight
import Rustlux.Bore
import Rustlux.BoreAverage
import Rustlux.BoreC
import Rustlux.BoreCache
import Rustlux.BoreFfi
import Rustlux.BoreFork
import Rustlux.BoreHistory
import Rustlux.BoreInherit
import Rustlux.BorePenalty
import Rustlux.BoreRace
import Rustlux.BoreReweight
import Rustlux.BoreRun
import Rustlux.BoreSteady
import Rustlux.BoreSystem
import Rustlux.BoreTicks
import Rustlux.BoreTree
import Rustlux.BoreWeights
import Rustlux.BoreYield
import Rustlux.ByteMem
import Rustlux.Capabilities
import Rustlux.DeviceSidechannel
import Rustlux.DisplayId
import Rustlux.LinearCode
import Rustlux.Lts
import Rustlux.MemSentinel
import Rustlux.Noninterference
import Rustlux.PageCache
import Rustlux.PerfHook
import Rustlux.Prim
import Rustlux.RoAfterInit
import Rustlux.Scrub
import Rustlux.ScrubNormal
import Rustlux.ScrubRace
import Rustlux.ScrubRecovery
import Rustlux.ScrubReseal
import Rustlux.SentinelCopies
import Rustlux.SentinelRace
import Rustlux.SentinelRecord
import Rustlux.SentinelReorder
import Rustlux.SentinelTuning
import Rustlux.SentinelWindow
import Rustlux.SlabCanary
import Rustlux.SoftEcc
import Rustlux.SoftEccBoot
import Rustlux.SoftEccCode
import Rustlux.SpliceGuard
import Rustlux.TiocstiHook
import Rustlux.Typestate
import Rustlux.Walk
