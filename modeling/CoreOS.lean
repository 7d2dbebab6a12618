import CoreOS.Uthreads.Safety
import CoreOS.Uthreads.RoundRobin
import CoreOS.Uthreads.Sleep
import CoreOS.Uthreads.Accounting
import CoreOS.Uthreads.SignalMask
import CoreOS.Uthreads.Quantum
import CoreOS.Uthreads.Abstraction
import CoreOS.Uthreads.Transparency
import CoreOS.Uthreads.InitialMask
import CoreOS.Uthreads.IntCounters
import CoreOS.MapReduce.BarrierReuse
import CoreOS.MapReduce.NoPairs
import CoreOS.MapReduce.Packing
import CoreOS.MapReduce.ShuffleRuns
import CoreOS.MapReduce.Handle
import CoreOS.MapReduce.Races
import CoreOS.MapReduce.Reports
import CoreOS.MapReduce.Refinement
import CoreOS.VirtualMemory.Residency
import CoreOS.VirtualMemory.Shortage
import CoreOS.Sockets.Transfer
import CoreOS.Sockets.Fragmentation
import CoreOS.Sockets.Service
import CoreOS.Osm.Measure
import CoreOS.Container.Reuse
