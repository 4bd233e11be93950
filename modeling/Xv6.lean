import Xv6.Log.Reservation
import Xv6.Syscall.Args
import Xv6.Pipe.Sleepers
import Xv6.Proc.Table
import Xv6.Bio.Room
import Xv6.Fs.Realloc
import Xv6.Proc.Kill
import Xv6.Proc.Freed
import Xv6.Spin.Handover
import Xv6.Exec.Exhausted
import Xv6.Ide.Linear
import Xv6.Fs.Array
import Xv6.Console.Line
import Xv6.Ide.Faults
import Xv6.Umalloc.Sound
import Xv6.Vm.Copy
import Xv6.Exec.Outcome
import Xv6.Fs.Shared
import Xv6.Lib.Memmove
import Xv6.Grep.Loop
import Xv6.Spin.Halt
import Xv6.Fs.Path
import Xv6.Fs.DirMap
import Xv6.Proc.Sleeplock
import Xv6.Sh.Run
