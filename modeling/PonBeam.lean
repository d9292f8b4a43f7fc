import PonBeam.Lib.System
import PonBeam.Lib.MachineInt
import PonBeam.Lib.Ring
import PonBeam.Lib.Seg
import PonBeam.Lib.TriColor
import PonBeam.Lib.Tally
import PonBeam.Lib.Grouped
import PonBeam.Lib.LinearHash
import PonBeam.Lib.KeyOrder
import PonBeam.Lib.TreeZipper
import PonBeam.Lib.Avl
import PonBeam.Lib.Comparison
import PonBeam.Gc.Model
import PonBeam.Gc.Heap
import PonBeam.Gc.Mark
import PonBeam.Gc.Sweep
import PonBeam.Gc.Ops
import PonBeam.Gc.Refs
import PonBeam.Gc.Index
import PonBeam.Gc.Collect
import PonBeam.Gc.Graph
import PonBeam.Gc.Safety
import PonBeam.Gc.Accounting
import PonBeam.Gc.Bifs
import PonBeam.Gc.Registration
import PonBeam.Gc.Reports
import PonBeam.Receive.Runtime
import PonBeam.Receive.Loss
import PonBeam.Receive.Compiler
import PonBeam.Receive.Semantics
import PonBeam.Receive.Rewrite
import PonBeam.Receive.Premises
import PonBeam.Receive.After
import PonBeam.Receive.Scoping
import PonBeam.Receive.WellFormed
import PonBeam.Condition.Model
import PonBeam.Condition.WakeUp
import PonBeam.Condition.Delivery
import PonBeam.Condition.Sequential
import PonBeam.EtsWatcher.Model
import PonBeam.EtsWatcher.Registry
import PonBeam.EtsWatcher.Refine
import PonBeam.EtsHash.Model
import PonBeam.EtsHash.Ops
import PonBeam.EtsHash.Layout
import PonBeam.EtsHash.Resize
import PonBeam.EtsHash.Buckets
import PonBeam.EtsHash.Contents
import PonBeam.EtsHash.Refine
import PonBeam.EtsHash.Traverse
import PonBeam.EtsHash.Slots
import PonBeam.EtsHash.SafeTraversal
import PonBeam.EtsTree.Model
import PonBeam.EtsTree.Term
import PonBeam.EtsTree.Ops
import PonBeam.EtsTree.Linked
import PonBeam.EtsTree.Balance
import PonBeam.EtsTree.Unlink
import PonBeam.EtsTree.OrderedMap
import PonBeam.EtsTree.Contents
import PonBeam.EtsTree.Refine
import PonBeam.EtsTree.Navigate
import PonBeam.EtsTree.Cursor
import PonBeam.EtsTree.Queries
import PonBeam.EtsTree.Select
import PonBeam.EtsTree.Traversal
import PonBeam.EtsTree.SelectDelete
import PonBeam.EtsTree.PatternStart
import PonBeam.EtsTree.SelectRuns
import PonBeam.EtsTree.Visit
import PonBeam.EtsTree.SelectChunk
import PonBeam.EtsTree.ChunkCalls
import PonBeam.EtsTree.ChunkRuns
import PonBeam.EtsTree.SamePatterns
import PonBeam.EtsTree.AnalyzePattern
import PonBeam.EtsTree.KeyRange
import PonBeam.EtsTree.LeastMost
import PonBeam.EtsTree.SelectAll
import PonBeam.EtsTree.SelectChunks
import PonBeam.Timerfd.Model
import PonBeam.Timerfd.LifeCycle
import PonBeam.Timerfd.Process
import PonBeam.Timerfd.Runs
import PonBeam.SigQueue.Model
import PonBeam.SigQueue.Queue
import PonBeam.SigQueue.Order
import PonBeam.SigQueue.Runs
import PonBeam.SigQueue.Select
import PonBeam.SigQueue.Length
import PonBeam.SigQueue.Concat
import PonBeam.SigQueue.Frame
import PonBeam.SigQueue.Prepare
import PonBeam.SigBuffers.Model
import PonBeam.SigBuffers.Invariant
import PonBeam.SigBuffers.Senders
import PonBeam.SigBuffers.Holder
import PonBeam.SigBuffers.Fetch
import PonBeam.SigBuffers.History
import PonBeam.SigBuffers.Runs
import PonBeam.SigBuffers.Interference
import PonBeam.SigBuffers.Restarts
import PonBeam.SigBuffers.Memory
import PonBeam.SigBuffers.Pointers
import PonBeam.SigBuffers.Follow
import PonBeam.TimerWheel.Model
import PonBeam.TimerWheel.Bump
import PonBeam.TimerWheel.Scan
import PonBeam.TimerWheel.Book
import PonBeam.TimerWheel.Invariant
import PonBeam.TimerWheel.Ops
import PonBeam.TimerWheel.NextTimeout
import PonBeam.TimerWheel.Passes
import PonBeam.TimerWheel.Trace
import PonBeam.TimerWheel.Steps
import PonBeam.TimerWheel.BumpSteps
import PonBeam.TimerWheel.Shelves
import PonBeam.TimerWheel.Firing
import PonBeam.TimerWheel.Budget
import PonBeam.TimerWheel.Course
import PonBeam.TimerWheel.Resume
import PonBeam.TimerWheel.Yield
import PonBeam.TimerWheel.NextWakeUp
import PonBeam.TimerWheel.Links
import PonBeam.TimerWheel.Representation
import PonBeam.TimerWheel.Canary
import PonBeam.Premise.Term
import PonBeam.Premise.DefaultMatch
import PonBeam.Premise.Register
import PonBeam.Packet.Model
import PonBeam.Packet.Header
import PonBeam.Packet.Asn1
import PonBeam.Packet.Lines
import PonBeam.Packet.Framing
