import RtThread.Kernel.ReadyQueue
import RtThread.Ipc.SemCount
import RtThread.Ipc.MutexDepth
import RtThread.Ipc.Preemption
import RtThread.Ipc.MailboxWakeup
import RtThread.Ipc.MessageQueueRuns
import RtThread.Ipc.PrioLists
import RtThread.Timer.Soft
import RtThread.Timer.Check
import RtThread.Memory.MempoolRuns
import RtThread.Memory.Sizes
import RtThread.Ipc.Timeouts
import RtThread.Dfs.Normalize
import RtThread.Dfs.Mount
import RtThread.Dfs.DescriptorTable
import RtThread.Drivers.BlockDevices
import RtThread.Drivers.RingBuffer
import RtThread.Drivers.DmaReceive
import RtThread.Drivers.DmaTransmit
import RtThread.Pthreads.ClockTime
import RtThread.Pthreads.Rwlock
import RtThread.Kservice.Digits
import RtThread.Kservice.Memory
import RtThread.Kservice.Truncation
import RtThread.Ymodem.Session
import RtThread.Shell.Auth
import RtThread.Shell.Split
import RtThread.Shell.Commands
import RtThread.Finsh.Increments
import RtThread.Finsh.CodeSize
import RtThread.Finsh.StaleStack
import RtThread.Finsh.Escapes
