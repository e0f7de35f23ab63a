import Xv6.Proc.Selection
import Xv6.Proc.Queues
import Xv6.Proc.Rotation
import Xv6.Proc.Quantum
import Xv6.Proc.Aging
import Xv6.Proc.Arrival
import Xv6.Proc.Counters
import Xv6.Proc.AgingRace
import Xv6.Proc.Reuse
import Xv6.Lock.Recursive
import Xv6.Lock.Sleep
import Xv6.Lock.Spin
import Xv6.Pipe.Wakeup
import Xv6.Fs.MoveStops
import Xv6.Fs.Accounting
import Xv6.Console.Output
import Xv6.Console.Delivery
import Xv6.Console.Display
import Xv6.Console.Listing
import Xv6.Console.Pattern
import Xv6.Console.Pasting
import Xv6.Log.Reserve
import Xv6.Log.History
import Xv6.Vm.Descriptors
import Xv6.Vm.Args
import Xv6.Mkfs.WellFormed
import Xv6.Shell.Redirect
import Xv6.Disk.Logged
import Xv6.Dir.Nodes
import Xv6.Fs.Components
import Xv6.Paging.Replace
import Xv6.Lock.Cli
import Xv6.Proc.Palindrome
import Xv6.User.Cipher
import Xv6.User.Grep
import Xv6.User.Sizes
import Xv6.User.Memmove
