import Lfos.ServiceRouting
import Lfos.TableAccesses
import Lfos.MessageWaits
import Lfos.CondvarProtocol
import Lfos.MessageSizes
import Lfos.InterruptQueues
import Lfos.KernelLog
import Lfos.UserHeap
import Lfos.KernelBlocks
import Lfos.InterfaceNumbers
import Lfos.RegisterAllocation
import Lfos.TinyMapRefinement
import Lfos.SharedPointers
import Lfos.SizedAllocator
import Lfos.ScratchpadRuns
import Lfos.HandoverFits
import Lfos.FatGeometry
import Lfos.Slabs
import Lfos.PageSearch
import Lfos.PortBitmaps
import Lfos.ReturnValues
import Lfos.ConsoleWriter
import Lfos.Directories
import Lfos.SystemClock
import Lfos.Sleepers
import Lfos.ThinArrayNext
import Lfos.Polling
import Lfos.KernelNames
import Lfos.Numerals
