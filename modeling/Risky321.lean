import Risky321.Lib.Ring
import Risky321.Kernel.Tty
import Risky321.Kernel.TtyTheorems
import Risky321.Lib.ByteMem
import Risky321.User.Umalloc
import Risky321.Lib.Run
import Risky321.Lib.Tiling
import Risky321.User.UmallocHeap
import Risky321.User.UmallocMerge
import Risky321.User.UmallocTheorems
import Risky321.User.UmallocTiling
import Risky321.User.UmallocGrowth
import Risky321.Kernel.Kvmem
import Risky321.Lib.Bits
import Risky321.Lib.Chain
import Risky321.Kernel.KvmemTheorems
import Risky321.Kernel.Filesystem
import Risky321.Kernel.Kproc
import Risky321.Kernel.PageLoadTheorems
import Risky321.Kernel.SegmentTheorems
import Risky321.Kernel.StackTheorems
import Risky321.Kernel.ImageTheorems
import Risky321.Kernel.ProcInvariant
import Risky321.Kernel.ArgumentTheorems
import Risky321.Kernel.KprocTheorems
import Risky321.Kernel.CopyTheorems
import Risky321.Kernel.VirtioTheorems
import Risky321.Kernel.FilesystemInitTheorems
import Risky321.Kernel.UnpackTheorems
import Risky321.Kernel.DiskTheorems
import Risky321.Kernel.LookupTheorems
import Risky321.Kernel.Virtio
import Risky321.Kernel.ForkTheorems
import Risky321.Kernel.BootTheorems
import Risky321.Kernel.System
import Risky321.Kernel.AccessTheorems
import Risky321.Kernel.FileTheorems
import Risky321.Kernel.SystemTheorems
import Risky321.Kernel.RunTheorems
import Risky321.Kernel.DescriptorTheorems
import Risky321.Kernel.ExecTheorems
import Risky321.Kernel.SyscallTheorems
import Risky321.Kernel.HeapTheorems
import Risky321.Kernel.PageTheorems
import Risky321.Kernel.KmemTheorems
import Risky321.Kernel.KillTheorems
import Risky321.Kernel.Kernelvec
import Risky321.User.ShellTheorems
import Risky321.Kernel.Scheduler
import Risky321.Kernel.Sv32Theorems
import Risky321.User.UmallocFree
import Risky321.Kernel.LoaderTheorems
import Risky321.Kernel.ElfTheorems
import Risky321.Kernel.Klibc
import Risky321.User.Ulibc
import Risky321.Lib.Numeral
import Risky321.Kernel.Kprintf
import Risky321.User.Uprintf
import Risky321.Lib.PageStack
import Risky321.Kernel.VirtqTheorems
import Risky321.Kernel.OverflowTheorems
import Risky321.Kernel.SpaceTheorems
import Risky321.Kernel.DuplicateTheorems
import Risky321.Kernel.StreamTheorems
import Risky321.Kernel.Processes
import Risky321.Kernel.ViewTheorems
import Risky321.Kernel.CallTheorems
import Risky321.Kernel.LifeTheorems
import Risky321.Kernel.RefinementTheorems
import Risky321.Lib.Hart
import Risky321.Kernel.Uservec
import Risky321.Kernel.UserMode
import Risky321.Kernel.UservecTheorems
import Risky321.Kernel.TrapTheorems
import Risky321.Kernel.UserModeTheorems
import Risky321.Kernel.SlotTheorems
import Risky321.Kernel.KernelTable
import Risky321.Kernel.ProgramTheorems
import Risky321.Kernel.Swtch
import Risky321.Kernel.RefusalTheorems
