import Fibers.Lib.Run
import Fibers.GroupInvariant
import Fibers.CallEffects
import Fibers.Locality
import Fibers.Invariant
import Fibers.Execution
import Fibers.FiniteMaps
import Fibers.Settled
import Fibers.MutualExclusion
import Fibers.RegisterFile
import Fibers.FailedCalls
import Fibers.ActivationStatistics
import Fibers.FirstActivation
import Fibers.AllocationFailure
import Fibers.Device
import Fibers.Library
import Fibers.DeviceErrors
import Fibers.FiberStack
import Fibers.Isolation
import Fibers.Storage
import Fibers.SlotAllocator
import Fibers.Lib.Descriptions
import Fibers.Lifetime
import Fibers.WholeCalls
import Fibers.SwitchOutcome
import Fibers.RunningTime
import Fibers.Report
import Fibers.ProcDirectory
import Fibers.Hooks
import Fibers.Lib.Calendar
import Fibers.Lib.Partial
import Fibers.Testbed.Calqueue
import Fibers.Testbed.CalqueueInvariant
import Fibers.Testbed.CalqueueElements
import Fibers.Testbed.CalqueueOrder
import Fibers.Testbed.CalqueueWidth
import Fibers.Testbed.CellBookkeeping
import Fibers.Cleanup
import Fibers.Testbed.UltFibers
import Fibers.Testbed.MainLoop
import Fibers.Testbed.Numerical
import Fibers.Testbed.CalqueueSize
import Fibers.Testbed.Threads
import Fibers.Testbed.ProgramRuns
import Fibers.Serializability
