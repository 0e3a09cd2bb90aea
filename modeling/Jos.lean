import Jos.Fs.Bitmap
import Jos.Fs.Names
import Jos.Fs.Journaling
import Jos.Fs.Accounts
import Jos.Fs.Writes
import Jos.Fs.Loop
import Jos.Fs.Recovery
import Jos.Kern.Frames
import Jos.Kern.Ipc
import Jos.Kern.Memory
import Jos.Kern.Upcall
import Jos.Kern.Sched
import Jos.Lib.Pipe
import Jos.Lib.PipeClosed
import Jos.Lib.Sfork
import Jos.Lib.ForkHeap
import Jos.Net.Receive
import Jos.Net.Mbox
import Jos.Lib.RequestPages
import Jos.Lib.Printfmt
import Jos.Lib.Memmove
import Jos.User.Httpd
