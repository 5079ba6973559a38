import Kumo.Lib.Bitmap
import Kumo.Lib.Transition
import Kumo.Lib.Memory
import Kumo.Lib.Bytes
import Kumo.Lib.Wrapped
import Kumo.Lib.Access
import Kumo.Lib.Orbit
import Kumo.Lib.Content
import Kumo.Lib.Tiling
import Kumo.Lib.Raster
import Kumo.Lib.Strings
import Kumo.Lib.LinkedList
import Kumo.Lib.LinkedRing
import Kumo.Lib.WordTable
import Kumo.Mm.Multiboot
import Kumo.Mm.MultibootWalk
import Kumo.Mm.MemoryMap
import Kumo.Mm.Pmm
import Kumo.Mm.PmmRuns
import Kumo.Mm.PmmInit
import Kumo.Mm.FirstFit
import Kumo.Mm.KernelZone
import Kumo.Mm.Kheap
import Kumo.Mm.KheapFields
import Kumo.Mm.KheapInvariant
import Kumo.Mm.KheapOps
import Kumo.Mm.KheapRuns
import Kumo.Mm.KheapOwners
import Kumo.Mm.KheapObjects
import Kumo.Arch.Paging
import Kumo.Sched.Task
import Kumo.Sched.TableCopies
import Kumo.Sched.Exhaustion
import Kumo.Arch.AddressSpace
import Kumo.Arch.TaskDirectory
import Kumo.Arch.KernelDirectory
import Kumo.Arch.Translation
import Kumo.Arch.RangeMapping
import Kumo.Sched.KernelMemory
import Kumo.Sched.TaskCreate
import Kumo.Sched.Boot
import Kumo.Sched.TaskRuns
import Kumo.Sched.ControlBlock
import Kumo.Sched.BlockFields
import Kumo.Sched.Creation
import Kumo.Sched.RingRuns
import Kumo.Sched.Waiting
import Kumo.Sched.Launching
import Kumo.Arch.UserCopy
import Kumo.Arch.UserMarking
import Kumo.Sched.UserPointers
import Kumo.Sched.Agreement
import Kumo.Lib.Int32
import Kumo.Gfx.Framebuffer
import Kumo.Wm.Window
import Kumo.Wm.WindowList
import Kumo.Wm.WindowDraw
import Kumo.Wm.WindowOpaque
import Kumo.App.Calc
import Kumo.App.CalcEval
import Kumo.App.CalcRuns
import Kumo.App.Itoa
import Kumo.User.Shell
import Kumo.User.ShellLine
import Kumo.User.ShellPath
import Kumo.User.ShellRuns
import Kumo.Drivers.Mouse
import Kumo.Drivers.MouseStream
import Kumo.Gfx.Paint
import Kumo.Drivers.Cursor
import Kumo.Drivers.CursorLaw
import Kumo.Kernel.Desktop
import Kumo.Kernel.Clicks
import Kumo.Kernel.WindowRuns
import Kumo.Kernel.CalcRouting
import Kumo.Kernel.Sessions
import Kumo.Kernel.LeftPress
import Kumo.Kernel.DragPointer
import Kumo.Kernel.ClickDrawing
import Kumo.Kernel.CursorRuns
import Kumo.Kernel.FullRedraw
import Kumo.Lib.IntBox
import Kumo.Kernel.Damage
import Kumo.Kernel.DamageRuns
import Kumo.Kernel.PartialRepaint
import Kumo.Gfx.Font
import Kumo.Gfx.Primitives
import Kumo.Gfx.LineLoop
import Kumo.Gfx.Bresenham
import Kumo.Gfx.Outline
import Kumo.Gfx.VideoMemory
import Kumo.Gfx.PixelStore
import Kumo.Fs.Ramfs
import Kumo.Fs.Vfs
import Kumo.Fs.ElfStack
import Kumo.Fs.Elf
import Kumo.Fs.ElfPasses
import Kumo.Fs.ElfImage
import Kumo.Fs.ElfLoading
import Kumo.Fs.ElfConfined
import Kumo.Fs.Objects
import Kumo.Fs.Directory
import Kumo.Fs.Contents
import Kumo.Fs.Paths
import Kumo.Fs.Refusal
import Kumo.Fs.FileStore
import Kumo.Fs.Descriptors
import Kumo.Fs.FileRuns
import Kumo.Fs.FileIdentity
import Kumo.Lib.IndexScan
import Kumo.Fs.Listing
import Kumo.Fs.ReadExact
import Kumo.Fs.WriteExact
import Kumo.Mm.KheapCapacity
import Kumo.Mm.KheapLocality
import Kumo.Mm.KheapFree
import Kumo.Mm.KheapTermination
import Kumo.Mm.KheapMerging
import Kumo.Mm.KheapDoubleFree
import Kumo.Mm.KheapRefusal
import Kumo.Kernel.FileSyscalls
import Kumo.Kernel.ReaddirLeak
import Kumo.Kernel.ReadWrite
import Kumo.Kernel.Exec
import Kumo.Kernel.ExecPages
import Kumo.Fs.OpenClose
import Kumo.Arch.Cpu
import Kumo.Sched.Switching
import Kumo.Sched.SwitchRuns
import Kumo.Sched.SwitchSegments
import Kumo.Sched.BootedContexts
import Kumo.Kernel.ExecReading
import Kumo.Arch.Descriptors
import Kumo.Arch.InterruptEntry
import Kumo.Lib.Simulation
import Kumo.Kernel.RunRegistry
import Kumo.User.ShellDialogue
import Kumo.User.ShellJobs
import Kumo.User.ShellRefinement
import Kumo.User.ShellWorld
import Kumo.User.ShellSessions
import Kumo.Gfx.Text
import Kumo.App.CalcDisplay
import Kumo.Kernel.Typing
import Kumo.Kernel.TypingRuns
