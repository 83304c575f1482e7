import PcieDriver.Base.Bytes
import PcieDriver.Base.Fifo
import PcieDriver.Base.Machine
import PcieDriver.Base.Table
import PcieDriver.Base.Cells
import PcieDriver.Base.Bounded
import PcieDriver.Base.CInt
import PcieDriver.Base.Ledger
import PcieDriver.Base.Pool
import PcieDriver.Base.Binding
import PcieDriver.Base.Codec
import PcieDriver.Base.Ioc
import PcieDriver.Edu.Layout
import PcieDriver.Edu.Driver
import PcieDriver.Edu.Ring
import PcieDriver.Edu.Probe
import PcieDriver.Edu.History
import PcieDriver.Edu.Occupancy
import PcieDriver.Edu.Queue
import PcieDriver.Edu.Reader
import PcieDriver.Edu.Commands
import PcieDriver.Edu.Lost
import PcieDriver.Edu.Refusal
import PcieDriver.Edu.Integrity
import PcieDriver.Edu.Order
import PcieDriver.Edu.Userspace
import PcieDriver.Edu.ZeroCopy
import PcieDriver.Edu.Depth
import PcieDriver.Edu.Clients
import PcieDriver.Edu.Board
import PcieDriver.Edu.DmaTest
import PcieDriver.Edu.Jobs
import PcieDriver.Edu.Caller
import PcieDriver.Edu.LegacyResult
import PcieDriver.Edu.Alone
import PcieDriver.Edu.Attribution
import PcieDriver.Edu.Handler
import PcieDriver.Edu.Coalesced
import PcieDriver.Edu.CleanSlate
import PcieDriver.Edu.Slab
import PcieDriver.Edu.Eventfd
import PcieDriver.Edu.Lifecycle
import PcieDriver.Edu.Python
import PcieDriver.Edu.Journal
import PcieDriver.Edu.Faults
import PcieDriver.Edu.StateReport
import PcieDriver.Edu.WaitCompletion
import PcieDriver.Edu.Errand
import PcieDriver.Edu.RoundTrips
import PcieDriver.Edu.Benchmark
import PcieDriver.Edu.Serving
import PcieDriver.Edu.Blocking
import PcieDriver.Edu.Owed
import PcieDriver.Edu.Waits
import PcieDriver.Edu.Trips
import PcieDriver.Edu.Session
import PcieDriver.Edu.LegacyPrograms
import PcieDriver.Edu.Demo
import PcieDriver.Edu.Abi
import PcieDriver.Ring.Device
import PcieDriver.Ring.Probe
import PcieDriver.Ring.Image
import PcieDriver.Ring.History
import PcieDriver.Ring.Completions
import PcieDriver.Ring.CommandRing
import PcieDriver.Ring.Batching
import PcieDriver.Ring.Reset
import PcieDriver.Ring.EndToEnd
import PcieDriver.Ring.Status
import PcieDriver.Ring.Bounds
import PcieDriver.Sim.Device
import PcieDriver.Sim.Probe
import PcieDriver.Sim.Agree
import PcieDriver.Sim.Residue
import PcieDriver.Basic.Device
import PcieDriver.Qemu.Device
import PcieDriver.Qemu.Bus
import PcieDriver.Qemu.Cancel
import PcieDriver.Hw.Path
import PcieDriver.Hw.DmaSize
import PcieDriver.Hw.System
import PcieDriver.Hw.Done
import PcieDriver.Hw.Settle
import PcieDriver.Hw.InFlight
import PcieDriver.Hw.Line
import PcieDriver.Wire.Header
import PcieDriver.Wire.Ioctl
import PcieDriver.Wire.Client
import PcieDriver.Wire.Hardware
