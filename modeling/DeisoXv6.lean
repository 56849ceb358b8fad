import DeisoXv6.Log.Recovery
import DeisoXv6.Log.Reservation
import DeisoXv6.Proc.Scheduling
import DeisoXv6.Fs.LockedCopy
import DeisoXv6.Proc.TickWait
import DeisoXv6.Proc.Family
import DeisoXv6.Virtio.Runs
import DeisoXv6.Device.Console
import DeisoXv6.Proc.Kill
import DeisoXv6.User.Malloc.Runs
import DeisoXv6.Proc.ForkFailure
import DeisoXv6.Proc.ForkSuccess
import DeisoXv6.Vm.Allocrange
import DeisoXv6.Vm.HeapList
import DeisoXv6.Vm.Sbrk
import DeisoXv6.Vm.UserString
import DeisoXv6.Proc.Shares
import DeisoXv6.Proc.TickCharge
import DeisoXv6.Fs.PipeRead
import DeisoXv6.User.Shell.Words
import DeisoXv6.Fs.ShortWrite
import DeisoXv6.Memory.Memmove
import DeisoXv6.Proc.Random
import DeisoXv6.User.Grep.Lines
