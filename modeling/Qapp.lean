import Qapp.Ring.Faults
import Qapp.Ring.Wakeup
import Qapp.Ring.Losses
import Qapp.Ring.Transfers
import Qapp.Ring.Alone
import Qapp.Fw.Accept
import Qapp.Fw.Track
import Qapp.Fw.Uploads
import Qapp.Fw.Reject
import Qapp.Fw.Bounds
import Qapp.Fw.SetEnd
import Qapp.Fw.Start
import Qapp.Fw.Descent
import Qapp.Fw.Rank
import Qapp.Fw.Termination
import Qapp.Fw.Entries
import Qapp.Ring.Fidelity
import Qapp.Ring.Progress
import Qapp.Ring.Eager
import Qapp.Spi.Neighbours
import Qapp.Spi.Atomic
import Qapp.Ring.Validation
import Qapp.Pm.Lock
import Qapp.Pm.Sleep
import Qapp.Patch.Status
import Qapp.Fw.Feeding
import Qapp.Fw.Filed
import Qapp.Fw.PowerLoss
import Qapp.Fw.Leaks
import Qapp.Demo.Hex
import Qapp.Demo.Deadline
import Qapp.Pm.Tasks
import Qapp.Pm.TimerList
import Qapp.Bmps.Whitelist
import Qapp.Spi.ChipSelect
import Qapp.Shell.Editing
import Qapp.Shell.Bounds
import Qapp.Shell.KeyHex
import Qapp.Overlay.RoundTrip
import Qapp.Demo.Burst
import Qapp.Fw.Current
import Qapp.Fw.Running
import Qapp.Fw.Found
import Qapp.Fw.Uploaded
import Qapp.Fw.Duplicate
