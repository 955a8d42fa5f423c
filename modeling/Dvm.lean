import Dvm.Link.Preserve
import Dvm.Link.Incremental
import Dvm.Vm.Shadow
import Dvm.Vm.Flags
import Dvm.Vm.Entry
import Dvm.Vm.Handles
import Dvm.File.RoundTrip
import Dvm.Asm.Framing
import Dvm.Asm.Symbols
import Dvm.Asm.Undefined
import Dvm.Asm.Places
import Dvm.Asm.Exports
import Dvm.Asm.Room
import Dvm.Asm.Numbers
import Dvm.Asm.Comments
import Dvm.Cfi
import Dvm.LinkLoad
import Dvm.LinkFrame
import Dvm.LinkBind
import Dvm.Jit.Stubs
import Dvm.Jit.Pages
import Dvm.Jit.Reach
import Dvm.Jit.Calls
import Dvm.Vm.Arith
import Dvm.Vm.Sized
import Dvm.Vm.Frames
import Dvm.Link.EntryPoint
import Dvm.Vm.Syscall
import Dvm.LoadFile
import Dvm.Vm.Reclaim
import Dvm.Vm.Registry
import Dvm.Jit.Log
import Dvm.Jit.Tramps
import Dvm.Jit.SelfContained
import Dvm.Jit.Convention
import Dvm.Asm.Strings
import Dvm.Asm.Exits
import Dvm.Prog.Linked
import Dvm.Prog.Counter
import Dvm.Vm.Apart
import Dvm.Tool.Build
import Dvm.Base.Until
import Dvm.Prog.Contract
import Dvm.Prog.Fib
import Dvm.Prog.Separate
