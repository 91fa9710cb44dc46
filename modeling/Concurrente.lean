import Concurrente.Transition
import Concurrente.Team
import Concurrente.Sweep
import Concurrente.OmpMpi.Errors
import Concurrente.OmpMpi.Protocol
import Concurrente.OmpMpi.Invariant
import Concurrente.OmpMpi.Preservation
import Concurrente.OmpMpi.Termination
import Concurrente.OmpMpi.Results
import Concurrente.OmpMpi.Failures
import Concurrente.OmpMpi.Ownership.Program
import Concurrente.OmpMpi.Ownership.Results
import Concurrente.Heat.Scheme
import Concurrente.Heat.Stability
import Concurrente.Heat.Rows
import Concurrente.Heat.PlateMatrix
import Concurrente.Heat.RowMatrix
import Concurrente.Iteration
import Concurrente.Heat.Serial
import Concurrente.Heat.Pthread
import Concurrente.Heat.Agreement
import Concurrente.Barrier
import Concurrente.Heat.OmpPlate
import Concurrente.Heat.Convergence
import Concurrente.Heat.Memory.Program
import Concurrente.Heat.Memory.Accesses
import Concurrente.Heat.Memory.Results
import Concurrente.Bytes
import Concurrente.Heat.Memory.Files
import Concurrente.Heat.Optimized.Team
import Concurrente.Heat.Optimized.Invariant
import Concurrente.Heat.Optimized.Preservation
import Concurrente.Heat.Optimized.Results
import Concurrente.Heat.Optimized.CreateThreads
import Concurrente.Heat.Optimized.Termination
import Concurrente.Heat.SmallPlates
import Concurrente.Heat.Optimized.RowBlocks
import Concurrente.Threads
import Concurrente.Checked
import Concurrente.CString
import Concurrente.OmpMpi.Paths
import Concurrente.OmpMpi.FileNames
import Concurrente.Calendar
import Concurrente.OmpMpi.ReportTime
import Concurrente.ProdConsUnbound.Program
import Concurrente.ProdConsUnbound.Results
import Concurrente.NodeHeap
import Concurrente.Slice
import Concurrente.Scanf
import Concurrente.OmpMpi.SetJob
import Concurrente.OmpMpi.JobFiles
import Concurrente.FileTasks
import Concurrente.OmpMpi.PlateOrder
import Concurrente.OmpMergesort.Program
import Concurrente.OmpMergesort.Results
import Concurrente.ProdConsUnbound.LinkedQueue
import Concurrente.ProdConsBound.Program
import Concurrente.ProdConsBound.Results
import Concurrente.BuildH2o.Program
import Concurrente.BuildH2o.Invariant
import Concurrente.BuildH2o.Results
import Concurrente.Prodcons.Queue
import Concurrente.Prodcons.Accounting
import Concurrente.Prodcons.Refinement
import Concurrente.Prodcons.Potential
import Concurrente.Prodcons.Message
import Concurrente.Prodcons.Consumer
import Concurrente.SimulBound.Program
import Concurrente.SimulBound.Targets
import Concurrente.SimulBound.Invariant
import Concurrente.SimulBound.Stages
import Concurrente.SimulBound.Reachable
import Concurrente.SimulBound.Progress
import Concurrente.SimulBound.Results
import Concurrente.PacketLossFix.Program
import Concurrente.PacketLossFix.Phases
import Concurrente.PacketLossFix.Routing
import Concurrente.PacketLossFix.Progress
import Concurrente.PacketLossFix.Results
import Concurrente.PacketLoss.Program
import Concurrente.PacketLoss.Phases
import Concurrente.PacketLoss.Progress
import Concurrente.PacketLoss.Results
import Concurrente.Integers
import Concurrente.HybridDistr.Ranges
import Concurrente.HybridDistr.ThreadRanges
import Concurrente.Loops
import Concurrente.Util.Split
import Concurrente.Util.DecodeURI
import Concurrente.Doubles
import Concurrente.OmpStats.Stats
import Concurrente.OmpStats.Extrema
import Concurrente.OmpStats.Exact
import Concurrente.HelloOrder.Greet
import Concurrente.Fairness
import Concurrente.HelloOrder.BusyWait
import Concurrente.SemBarrierReusable.Program
import Concurrente.SemBarrierReusable.Results
import Concurrente.Monitor
import Concurrente.MistCondVar.Mistery
import Concurrente.MistCondVar.Results
import Concurrente.BirthdayPinata.Program
import Concurrente.BirthdayPinata.Results
import Concurrente.DishStack.Program
import Concurrente.DishStack.Results
import Concurrente.Ethread.CreateThreads
import Concurrente.CreateThreadTeam.Program
import Concurrente.CreateThreadTeam.Results
import Concurrente.Semaphores
import Concurrente.Semaphores.Progress
import Concurrente.DiningPhilosophers.Program
import Concurrente.DiningPhilosophers.Results
import Concurrente.BuildingTasks
import Concurrente.TaskcPatterns
import Concurrente.TaskcPatterns.ForCount
import Concurrente.TaskcPatterns.SemBarrier
import Concurrente.DancingPairs
import Concurrente.ReadersWriters.Design
import Concurrente.ReadersWriters.RwLock
import Concurrente.OmpMpi.Distributed
import Concurrente.Messages
import Concurrente.Mpi.Greetings
import Concurrente.Mpi.Intermediary
import Concurrente.Mpi.RelayRace
import Concurrente.Mpi.PingPong
import Concurrente.HybridDistr.Stdin
import Concurrente.PositionRace
