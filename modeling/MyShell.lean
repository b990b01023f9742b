import MyShell.Backing.Commands
import MyShell.Backing.Confined
import MyShell.Backing.Conserved
import MyShell.Backing.Cursor
import MyShell.Backing.Exec
import MyShell.Backing.Footprint
import MyShell.Backing.Frames
import MyShell.Backing.InTurn
import MyShell.Backing.Interpreter
import MyShell.Backing.Kernel
import MyShell.Backing.Loading
import MyShell.Backing.PageTable
import MyShell.Backing.Reached
import MyShell.Backing.ReadyQueue
import MyShell.Backing.Sorting
import MyShell.Backing.Store
import MyShell.Backing.Victims
import MyShell.Backing.Waiting
import MyShell.Basic.Branches
import MyShell.Basic.Interpreter
import MyShell.Fs.Append
import MyShell.Fs.Atomic
import MyShell.Fs.Balance
import MyShell.Fs.Bitmap
import MyShell.Fs.BitmapWords
import MyShell.Fs.Cache
import MyShell.Fs.Commands
import MyShell.Fs.CopyIn
import MyShell.Fs.CopySize
import MyShell.Fs.DataSectors
import MyShell.Fs.Deallocate
import MyShell.Fs.Defragment
import MyShell.Fs.Directory
import MyShell.Fs.DirectoryMap
import MyShell.Fs.Entries
import MyShell.Fs.Eviction
import MyShell.Fs.FailedCreate
import MyShell.Fs.File
import MyShell.Fs.FileInfos
import MyShell.Fs.Filesys
import MyShell.Fs.FirstFit
import MyShell.Fs.Folder
import MyShell.Fs.Footprint
import MyShell.Fs.Format
import MyShell.Fs.FreeMap
import MyShell.Fs.Fsutil
import MyShell.Fs.Growth
import MyShell.Fs.Ide
import MyShell.Fs.Inode
import MyShell.Fs.InodeData
import MyShell.Fs.Layout
import MyShell.Fs.ListCalls
import MyShell.Fs.ListOps
import MyShell.Fs.ListRun
import MyShell.Fs.ListSort
import MyShell.Fs.Listing
import MyShell.Fs.Mounted
import MyShell.Fs.OpenFile
import MyShell.Fs.Ownership
import MyShell.Fs.Partition
import MyShell.Fs.Paths
import MyShell.Fs.Recover
import MyShell.Fs.Remount
import MyShell.Fs.Reserve
import MyShell.Fs.Restart
import MyShell.Fs.Root
import MyShell.Fs.SamePath
import MyShell.Fs.Search
import MyShell.Fs.Sector
import MyShell.Fs.Session
import MyShell.Fs.ShellCommands
import MyShell.Fs.ShellRun
import MyShell.Fs.Space
import MyShell.Fs.State
import MyShell.Fs.Steady
import MyShell.Fs.Taken
import MyShell.Fs.Unfragmented
import MyShell.Fs.Unsaved
import MyShell.Fs.Volume
import MyShell.Lib.BitArray
import MyShell.Lib.BlockTree
import MyShell.Lib.BubblePass
import MyShell.Lib.Clock
import MyShell.Lib.Command
import MyShell.Lib.DemandPaging
import MyShell.Lib.DoublyLinked
import MyShell.Lib.Growable
import MyShell.Lib.Heap
import MyShell.Lib.Linked
import MyShell.Lib.NaturalMerge
import MyShell.Lib.Preorder
import MyShell.Lib.Recency
import MyShell.Lib.ReservedKey
import MyShell.Lib.Sentinel
import MyShell.Lib.Silent
import MyShell.Lib.SlotMap
import MyShell.Lib.Storage
import MyShell.Lib.Triple
import MyShell.Lib.Turns
import MyShell.Paging.BackingNames
import MyShell.Paging.Batch
import MyShell.Paging.Commands
import MyShell.Paging.Counting
import MyShell.Paging.Depth
import MyShell.Paging.Execution
import MyShell.Paging.Fifo
import MyShell.Paging.Frames
import MyShell.Paging.Interpreter
import MyShell.Paging.LinkedList
import MyShell.Paging.Nested
import MyShell.Paging.OneLiner
import MyShell.Paging.PageFault
import MyShell.Paging.Pcb
import MyShell.Paging.Process
import MyShell.Paging.Quit
import MyShell.Paging.Reachable
import MyShell.Paging.Reading
import MyShell.Paging.RoundRobin
import MyShell.Paging.Scheduler
import MyShell.Paging.Simulation
import MyShell.Paging.Text
import MyShell.Paging.VariableMap
import MyShell.Paging.Variables
