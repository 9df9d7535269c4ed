import Xv6.Proc.Lemmas.Prio
import Xv6.Proc.Lemmas.Trap
import Xv6.Proc.Lemmas.Fifo
import Xv6.Proc.Lemmas.Phmem
import Xv6.Proc.Lemmas.Sleeplock
import Xv6.Log.Lemmas.Reserve
import Xv6.Pipe.Lemmas.Sleep
import Xv6.File.Lemmas.Calls
import Xv6.File.Lemmas.Shared
import Xv6.Bio.Lemmas.Coherence
import Xv6.Fs.Lemmas.Readback
import Xv6.Icache.Lemmas.Coherence
import Xv6.Dir.Lemmas.Fill
import Xv6.Console.Lemmas.Editor
import Xv6.Ide.Lemmas.Refine
import Xv6.Mp.Lemmas.Mp
import Xv6.Sysfile.Lemmas.Path
import Xv6.Vm.Lemmas.Overrun
import Xv6.Vm.Lemmas.Dealloc
import Xv6.Vm.Lemmas.Program
import Xv6.Vm.Lemmas.Lazy
import Xv6.Sh.Lemmas.Parsecmd
import Xv6.Umalloc.Lemmas.Enough
import Xv6.Grep.Lemmas.Match
import Xv6.Grep.Lemmas.Grep
