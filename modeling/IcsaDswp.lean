import IcsaDswp.SingleExit
import IcsaDswp.PhiControl
import IcsaDswp.PassManager
import IcsaDswp.DirectedGraph
import IcsaDswp.Lib.Topsort
import IcsaDswp.Topsort
import IcsaDswp.SourceToPSGPrinter
import IcsaDswp.IterSource
import IcsaDswp.Lib.Trace
import IcsaDswp.PcQueue
import IcsaDswp.SelfDependence
import IcsaDswp.PacketQueue
import IcsaDswp.ParallelSum
import IcsaDswp.Lbm
import IcsaDswp.DependenceTraits
import IcsaDswp.DecoupleSourceSplitPrinter
import IcsaDswp.DecoupleLoopsPrinter
import IcsaDswp.NthPrime
import IcsaDswp.Lib.Ranking
import IcsaDswp.PointerOrder
import IcsaDswp.LbmGrid
import IcsaDswp.LbmMain
import IcsaDswp.LbmMass
import IcsaDswp.LbmMemory
import IcsaDswp.Execution
import IcsaDswp.LoopOrder
import IcsaDswp.NthPrimeSieve
import IcsaDswp.LbmOutput
import IcsaDswp.DotPrinters
import IcsaDswp.EvenFibonacci
import IcsaDswp.Lib.Memory
import IcsaDswp.Payloads
import IcsaDswp.SumListList
import IcsaDswp.CommandLine
import IcsaDswp.PrimePipeline
