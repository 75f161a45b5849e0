import LindWasm.Marshal.Flat
import LindWasm.MarshalGen.Accept
import LindWasm.Memory.Fork
import LindWasm.Dylink.Replay
import LindWasm.Grate.Errno
import LindWasm.Signal.NoLost
import LindWasm.Signal.Dispositions
import LindWasm.Signal.Deliver
import LindWasm.FdTables.Select
import LindWasm.FdTables.PollRight
import LindWasm.FdTables.Epoll
import LindWasm.Threei.Teardown
import LindWasm.Threei.Inflight
import LindWasm.Marshal.Reentry
import LindWasm.FdTables.Alike
import LindWasm.Process.CloneSlot
import LindWasm.Vmmap.Walk
import LindWasm.Vmmap.Pages
import LindWasm.Memory.Placed
import LindWasm.Memory.BreakRuns
import LindWasm.Memory.RoundTrip
import LindWasm.Shm.Machine
import LindWasm.Threei.Copy
import LindWasm.Marshal.FailClosed
import LindWasm.Dylink.Portal
import LindWasm.Dylink.Resolve
import LindWasm.Marshal.Handles
import LindWasm.Remote.Panics
import LindWasm.Process.Status
import LindWasm.Threei.Installed
import LindWasm.Grate.Conserved
import LindWasm.Signal.Timer
import LindWasm.Signal.MainRole
import LindWasm.Marshal.Words
import LindWasm.Process.Shebang
