import DwBpf.Basic
import DwBpf.Foundation.SearchTree
import DwBpf.Foundation.Heap
import DwBpf.Foundation.Run
import DwBpf.Dso.Data
import DwBpf.Dso.Cache
import DwBpf.Dso.Transparency
import DwBpf.Dso.Ownership
import DwBpf.Machine.Store
import DwBpf.Machine.Findnew
import DwBpf.Machine.Plain
import DwBpf.Machine.Sharing
import DwBpf.Machine.Simulation
import DwBpf.Machine.Refinement
import DwBpf.Foundation.Scan
import DwBpf.Machine.Maps
import DwBpf.Event.Interface
import DwBpf.Event.Steady
import DwBpf.Event.Runs
import DwBpf.Event.Visit
import DwBpf.Event.Assertions
import DwBpf.Foundation.Groups
import DwBpf.Machine.Regrouping
import DwBpf.Event.Isolation
import DwBpf.Event.Lookup
import DwBpf.Event.Record
import DwBpf.Event.Accounting
import DwBpf.Event.Conservation
import DwBpf.Event.Callbacks
import DwBpf.Bpf.Probe
import DwBpf.Bpf.Snapshot
import DwBpf.Foundation.Print
import DwBpf.Event.ProcMaps
import DwBpf.Event.Ranges
import DwBpf.Event.Exact
import DwBpf.Bpf.Scratchmap
import DwBpf.Machine.Refcount
import DwBpf.Event.Naming
import DwBpf.Unwind.Walk
import DwBpf.Event.Callchain
import DwBpf.Event.Memory
import DwBpf.Unwind.EhFrameHdr
import DwBpf.Event.Disk
import DwBpf.Event.Table
import DwBpf.Foundation.Links
import DwBpf.Foundation.RefLedger
import DwBpf.Machine.Teardown
import DwBpf.Machine.Releasing
import DwBpf.Event.Purging
import DwBpf.Event.Deletion
import DwBpf.Event.Progress
import DwBpf.Event.Lifetime
import DwBpf.Ndebug.Machine
import DwBpf.Ndebug.Teardown
import DwBpf.Ndebug.Interface
import DwBpf.Ndebug.Counting
import DwBpf.Ndebug.Runs
import DwBpf.Event.Retaining
import DwBpf.Event.Enumeration
import DwBpf.Event.Interning
import DwBpf.Event.MapsText
import DwBpf.Event.Overlong
import DwBpf.Unwind.Framing
import DwBpf.Event.Buffering
import DwBpf.Event.Image
import DwBpf.Dso.Copies
import DwBpf.Foundation.RedBlack
import DwBpf.Rbtree.Memory
import DwBpf.Rbtree.Shape
import DwBpf.Rbtree.Insert
import DwBpf.Rbtree.EraseColor
import DwBpf.Rbtree.Erase
import DwBpf.Rbtree.Walk
import DwBpf.Rbtree.Dictionary
import DwBpf.Event.OneProcess
import DwBpf.Dso.Chunks
import DwBpf.Event.Balance
import DwBpf.Rbtree.Embedding
import DwBpf.Foundation.Schedule
import DwBpf.Task.Queue
import DwBpf.Task.Moves
import DwBpf.Task.Delivery
import DwBpf.Task.Waking
import DwBpf.Task.Draining
import DwBpf.Task.Shutdown
import DwBpf.Task.Workers
import DwBpf.Atlas.Answers
import DwBpf.Atlas.Lookup
import DwBpf.Atlas.Recording
import DwBpf.Atlas.Resolving
import DwBpf.Foundation.Beside
import DwBpf.Atlas.Runs
import DwBpf.Atlas.Processes
