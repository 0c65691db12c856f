import PackedCsr.Deletion
import PackedCsr.Sizing
import PackedCsr.InsertPlans
import PackedCsr.RemovalPlans
import PackedCsr.Runs
import PackedCsr.LockOrder
import PackedCsr.LockDiscipline
import PackedCsr.Partitions
import PackedCsr.Queues
import PackedCsr.Pools
import PackedCsr.Batches
import PackedCsr.Options
import PackedCsr.ReadTasks
import PackedCsr.Versions
import PackedCsr.ArrayPartitions
import PackedCsr.Pagerank
import PackedCsr.Construction
import PackedCsr.Growth
import PackedCsr.Products
import PackedCsr.Diagnostics
import PackedCsr.Races
import PackedCsr.Spacing
import PackedCsr.Dispatch
import PackedCsr.Bfs
import PackedCsr.Quiescence
import PackedCsr.Registration
import PackedCsr.Density
import PackedCsr.Interference
