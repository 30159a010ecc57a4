import Illinix.Theory.Bytes
import Illinix.Theory.Run
import Illinix.Theory.Chain
import Illinix.Theory.Linked
import Illinix.Theory.Strings
import Illinix.Theory.Numerals
import Illinix.Console.Putc
import Illinix.Console.Frame
import Illinix.Console.Bounds
import Illinix.Console.Sim
import Illinix.Memory.Kmalloc
import Illinix.Memory.Paging
import Illinix.Memory.Arena
import Illinix.Memory.Assembly
import Illinix.Memory.FreeList
import Illinix.FileSys.Write
import Illinix.FileSys.Append
import Illinix.FileSys.Directory
import Illinix.Kernel.Inodes
import Illinix.Kernel.Persistence
import Illinix.Kernel.Isolation
import Illinix.Kernel.RoundTrip
import Illinix.Kernel.Coherence
import Illinix.Kernel.Window
import Illinix.Kernel.VideoMap
import Illinix.Kernel.Rtc
import Illinix.Kernel.Service
import Illinix.Kernel.System
import Illinix.Kernel.Restart
import Illinix.Kernel.Dangling
import Illinix.Kernel.RtcFlag
import Illinix.Kernel.Descriptors
import Illinix.Kernel.Failures
import Illinix.Kernel.Sequential
import Illinix.Kernel.DirReads
import Illinix.Kernel.Lines
import Illinix.Kernel.LineBounds
import Illinix.Kernel.LineReads
import Illinix.Kernel.ExitStatus
import Illinix.Kernel.Screens
import Illinix.Kernel.VideoPresence
import Illinix.Kernel.AddressSpace
import Illinix.FileSys.Slices
import Illinix.Kernel.Names
import Illinix.Kernel.Capacity
import Illinix.FileSys.Space
import Illinix.FileSys.Mount
import Illinix.Kernel.Removal
import Illinix.Kernel.Release
import Illinix.FileSys.Lookup
import Illinix.Kernel.Listings
import Illinix.Kernel.Command
import Illinix.Kernel.Arguments
import Illinix.Kernel.Executables
import Illinix.Console.Layout
import Illinix.FileSys.Drive
import Illinix.Kernel.Modifiers
import Illinix.Console.Entries
import Illinix.Console.Printf
import Illinix.Kernel.Editing
import Illinix.Kernel.Messages
import Illinix.Kernel.Images
import Illinix.Interrupt.Lost
import Illinix.Linkage.Projection
