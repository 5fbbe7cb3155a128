import Mcincos.Pmm.Ownership
import Mcincos.Pmm.Calls
import Mcincos.Pmm.Placement
import Mcincos.Pmm.MarkedBytes
import Mcincos.Vmm.PageMap
import Mcincos.Vmm.Isolation
import Mcincos.Vmm.Accounting
import Mcincos.Vmm.KernelHalf
import Mcincos.Vmm.Permissions
import Mcincos.Vmm.Agreement
import Mcincos.Vmm.MmioRanges
import Mcincos.Vmm.MmioWrites
import Mcincos.Vmm.MmioOptions
import Mcincos.Vmm.Coherence
import Mcincos.Sched.Contexts
import Mcincos.Sched.Slices
import Mcincos.Sched.Deadlines
import Mcincos.Sched.Quantum
import Mcincos.Sched.RoundRobin
import Mcincos.Sched.Registration
import Mcincos.Sched.ThreadStates
import Mcincos.Sched.TimerQueue
import Mcincos.Sched.CatchUp
import Mcincos.Timer.Durations
import Mcincos.Timer.Conversions
import Mcincos.Timer.Calibration
import Mcincos.Timer.PitCount
import Mcincos.Timer.Alarms
import Mcincos.Sched.Preemption
import Mcincos.Syscall.Syscalls
import Mcincos.Syscall.WholeBuffer
import Mcincos.Core.UserPages
import Mcincos.Core.HelloUser
import Mcincos.Core.PrintBuffer
import Mcincos.Core.HexPrinters
import Mcincos.Core.BootLines
import Mcincos.Core.Arguments
import Mcincos.Core.Memmove
import Mcincos.Core.Memcpy
import Mcincos.Cpu.Descriptors
import Mcincos.Cpu.Interrupts
import Mcincos.Cpu.InterruptFrames
import Mcincos.Cpu.Segments
