import Xv6.Log.Crash
import Xv6.Log.Admission
import Xv6.Log.Grouping
import Xv6.Log.Transparent
import Xv6.Proc.Wait
import Xv6.User.Broadcast
import Xv6.User.Unicast
import Xv6.Sched.Interrupts
import Xv6.Sched.Wakeup
import Xv6.Virtio.Completion
import Xv6.Mkfs.Boot
import Xv6.Vm.Mapping
import Xv6.Sys.Report
import Xv6.Pid.Unique
import Xv6.Pid.Readers
import Xv6.Console.Editor
import Xv6.Shell.Run
import Xv6.Umalloc.Usable
import Xv6.Vm.PipeRead
import Xv6.Grep.Lines
import Xv6.Vm.Fork
import Xv6.Vm.Sbrk
import Xv6.Vm.Loading
import Xv6.Sys.Reading
import Xv6.Sys.Execute
import Xv6.Fs.Resolve
import Xv6.Sys.Runs
