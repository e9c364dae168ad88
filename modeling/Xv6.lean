import Xv6.Log.Space
import Xv6.Log.Refine
import Xv6.Fs.Iput
import Xv6.Fs.Deadlock
import Xv6.Pipe.Proofs
import Xv6.Proc.History
import Xv6.Proc.Kill
import Xv6.Proc.Pids
import Xv6.Sleep.Proofs
import Xv6.Sched.Exclusive
import Xv6.File.Proofs
import Xv6.Log.Buffers
import Xv6.Fs.Path
import Xv6.Console.Proofs
import Xv6.Ide.Proofs
import Xv6.Malloc.Sbrk
import Xv6.Exec.Proofs
import Xv6.Copyout.Built
import Xv6.Grep.Match
import Xv6.Grep.Lines
import Xv6.Args
import Xv6.Ide.Errors
import Xv6.Mp
import Xv6.Vm.Flat
import Xv6.Blocks.Content
import Xv6.Crc.Proofs
import Xv6.Memmove
import Xv6.Spinlock
import Xv6.Shell.Run
