import ZeldaOS.Task.Models
import ZeldaOS.Malloc.Contents
import ZeldaOS.Malloc.Twice
import ZeldaOS.Paging.FrameRuns
import ZeldaOS.Paging.Contiguous
import ZeldaOS.Paging.BaseRuns
import ZeldaOS.Heap.Run
import ZeldaOS.Timer.Run
import ZeldaOS.Terminal.Wait
import ZeldaOS.Trap.Registers
import ZeldaOS.Trap.Exit
import ZeldaOS.Virtio.Conserve
import ZeldaOS.Packet
import ZeldaOS.Exec.Execve
import ZeldaOS.Exec.Confined
import ZeldaOS.Vma.Heap
import ZeldaOS.Vma.Exact
import ZeldaOS.Vfs.Calls
import ZeldaOS.Malloc.Mapped
import ZeldaOS.Tmpfs.Delete
import ZeldaOS.Tmpfs.Holes
import ZeldaOS.Zeldafs.Read
import ZeldaOS.Vfs.SameFile
import ZeldaOS.Vfs.Resolve
import ZeldaOS.Vfs.CreateExisting
import ZeldaOS.Vfs.MountedFiles
import ZeldaOS.HashTable
import ZeldaOS.ListRun
import ZeldaOS.Ring
import ZeldaOS.Shell
