import DynBandwidth.Lib.Serial
import DynBandwidth.Lib.RbTree
import DynBandwidth.Lib.RbBalance
import DynBandwidth.Lib.RbMap
import DynBandwidth.Lib.RbHeap
import DynBandwidth.Lib.RbHeapInsert
import DynBandwidth.Lib.RbHeapErase
import DynBandwidth.Lib.Runs
import DynBandwidth.Lib.Buckets
import DynBandwidth.Lib.BucketOps
import DynBandwidth.Lib.BucketMap
import DynBandwidth.Lib.Resequence
import DynBandwidth.Lib.Ledger
import DynBandwidth.Lib.Bytes
import DynBandwidth.Lib.Attributes
import DynBandwidth.Lib.Signed
import DynBandwidth.Lib.TokenBucket
import DynBandwidth.Lib.TimeQueue
import DynBandwidth.Reorder.Header
import DynBandwidth.Reorder.SeqTree
import DynBandwidth.Reorder.Flows
import DynBandwidth.Reorder.Counter
import DynBandwidth.Reorder.CounterBooks
import DynBandwidth.Reorder.Segments
import DynBandwidth.Reorder.CounterStream
import DynBandwidth.Reorder.CounterWindow
import DynBandwidth.Reorder.CounterForward
import DynBandwidth.Reorder.TcpCounter
import DynBandwidth.Reorder.IpIds
import DynBandwidth.Reorder.Interleave
import DynBandwidth.Reorder.Datagram
import DynBandwidth.Netfilter.Stage
import DynBandwidth.Netfilter.Queue
import DynBandwidth.Netfilter.QueueStream
import DynBandwidth.Netfilter.Window
import DynBandwidth.Netfilter.Verdicts
import DynBandwidth.Netfilter.Table
import DynBandwidth.Netfilter.Drops
import DynBandwidth.Netfilter.Timeout
import DynBandwidth.Netfilter.Main
import DynBandwidth.Netfilter.Nodes
import DynBandwidth.Netfilter.Memory
import DynBandwidth.Connections
import DynBandwidth.Trees
import DynBandwidth.SortedTrees
import DynBandwidth.Overflow
import DynBandwidth.Netfilter.Duplicates
import DynBandwidth.Tbf.Schedule
import DynBandwidth.Tbf.Uapi
import DynBandwidth.Tbf.Libnetlink
import DynBandwidth.Tbf.TcCore
import DynBandwidth.Tbf.Kernel
import DynBandwidth.Tbf.Talk
import DynBandwidth.Tbf.Modify
import DynBandwidth.Tbf.TbfNetem
import DynBandwidth.Tbf.Requests
import DynBandwidth.Tbf.Rounds
import DynBandwidth.Sched.Rates
import DynBandwidth.Sched.Parms
import DynBandwidth.Sched.Qdisc
import DynBandwidth.Sched.Tbf
import DynBandwidth.Sched.TbfShape
import DynBandwidth.Sched.TbfWake
import DynBandwidth.Sched.TbfBooks
import DynBandwidth.Sched.Netem
import DynBandwidth.Sched.NetemQueue
import DynBandwidth.Sched.NetemRuns
import DynBandwidth.Sched.NetemSafe
import DynBandwidth.Sched.NetemBooks
import DynBandwidth.Sched.NetemRate
import DynBandwidth.Sched.Child
import DynBandwidth.Sched.Link
import DynBandwidth.Sched.Device
import DynBandwidth.Sched.Driven
import DynBandwidth.Path
