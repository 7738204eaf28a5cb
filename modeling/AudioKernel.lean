import AudioKernel.Heap.DoubleFree
import AudioKernel.Heap.Realloc
import AudioKernel.Heap.Placement
import AudioKernel.Heap.UserHeap
import AudioKernel.Threads.Preemption
import AudioKernel.Sync.Rounds
import AudioKernel.Sync.InterruptSafeLock
import AudioKernel.Sync.Future
import AudioKernel.Sync.Fifo
import AudioKernel.Sync.Barrier
import AudioKernel.Shared.Lifetimes
import AudioKernel.Shared.Ownership
import AudioKernel.Sys.SharedOffset
import AudioKernel.Sys.Failure
import AudioKernel.Sys.Validation
import AudioKernel.Sys.Bindings
import AudioKernel.Sys.ChildSlots
import AudioKernel.Sys.Reading
import AudioKernel.Sys.References
import AudioKernel.Vm.ForkCopies
import AudioKernel.Vm.Teardown
import AudioKernel.Vm.Frames
import AudioKernel.Vm.Isolation
import AudioKernel.Exec.Clearing
import AudioKernel.Exec.Elf
import AudioKernel.Exec.Model
import AudioKernel.Exec.Arguments
import AudioKernel.Exec.Lookup
import AudioKernel.Ext2.INode
import AudioKernel.Ext2.BlockMap
import AudioKernel.Ext2.BlockTree
import AudioKernel.Ext2.Directory
import AudioKernel.Ext2.Names
import AudioKernel.Ext2.Find
import AudioKernel.Ext2.Symlink
import AudioKernel.Ext2.Mount
import AudioKernel.Ext2.Corrupt
import AudioKernel.BlockCount
import AudioKernel.Boot.ConfigInit
import AudioKernel.Audio.Rirb
import AudioKernel.Audio.Output
import AudioKernel.Audio.BringUp
import AudioKernel.Random
import AudioKernel.Queue
import AudioKernel.Bus
import AudioKernel.Pci
import AudioKernel.Audio.Discovery
import AudioKernel.Boot.EntryWalk
import AudioKernel.Boot.StartupRuns
import AudioKernel.Lib.Ia32
import AudioKernel.Memcpy
import AudioKernel.Print.Spelling
import AudioKernel.Print.Console
import AudioKernel.Ide
import AudioKernel.Threads.ContextRuns
import AudioKernel.Threads.Tss
import AudioKernel.Sync.BufferProgress
import AudioKernel.Sys.Calls
import AudioKernel.Sys.Family
import AudioKernel.Sys.Copy
