import AgentOS.Agent.Tool.Handlers
import AgentOS.Mm.Machine
import AgentOS.Agent.ContextArea
import AgentOS.Agent.ContextPath
import AgentOS.Agent.EventBus
import AgentOS.Agent.FileBenchmark
import AgentOS.Agent.FileIndex
import AgentOS.Agent.PathEntries
import AgentOS.Agent.PathEviction
import AgentOS.Agent.PathRun
import AgentOS.Agent.Tool.Registry
import AgentOS.Agent.ToolResultRing
import AgentOS.Lib.Scheduler
import AgentOS.Syscall.Agent
import AgentOS.Syscall.Files
import AgentOS.Syscall.Process
import AgentOS.Task.Views
import AgentOS.Trap
import AgentOS.Fs.Accounting
import AgentOS.Fs.Bitmap
import AgentOS.Fs.Content
import AgentOS.Fs.DataBlocks
import AgentOS.Fs.Devices
import AgentOS.Fs.DirectoryLaw
import AgentOS.Fs.DiskLayout
import AgentOS.Fs.EmptyWrites
import AgentOS.Lib.Pulse
import AgentOS.Lib.Tree
import AgentOS.Mm.BufferWalk
import AgentOS.Mm.PageMap
import AgentOS.Proto.RoundTrip
import AgentOS.Run.Agents
import AgentOS.Run.ContextAreas
import AgentOS.Run.Deadlines
import AgentOS.Run.Delivery
import AgentOS.Run.FileAttributes
import AgentOS.Run.Heartbeats
import AgentOS.Run.KernelStacks
import AgentOS.Run.Subscriptions
import AgentOS.Run.ToolFailures
import AgentOS.Run.ToolResults
import AgentOS.Run.PathQueries
import AgentOS.Run.Queues
import AgentOS.Run.Wakeups
import AgentOS.Fs.OpenFile
import AgentOS.Fs.Packing
import AgentOS.Lib.Utf8
import AgentOS.Mm.PageCuts
import AgentOS.Syscall.DescriptorRuns
import AgentOS.Syscall.SharedReads
import AgentOS.Lib.Riscv
import AgentOS.Trap.Context
import AgentOS.Task.Switch
import AgentOS.Trap.ContextPages
