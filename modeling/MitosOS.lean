import MitosOS.Lib.Bits
import MitosOS.Lib.ByteMemory
import MitosOS.Lib.Lists
import MitosOS.Lib.PathGraph
import MitosOS.Lib.EventSystem
import MitosOS.Lib.Refinement
import MitosOS.Lib.Ring
import MitosOS.Lib.Reads
import MitosOS.Lib.FixedTable
import MitosOS.Lib.Action
import MitosOS.Lib.Checked
import MitosOS.Lib.PositionalRead
import MitosOS.Lib.Text
import MitosOS.Lib.Assembly
import MitosOS.Lib.TrapMachine
import MitosOS.Memory.Bitmap
import MitosOS.Memory.FrameSet
import MitosOS.Memory.Frames
import MitosOS.Memory.Boot
import MitosOS.Memory.Heap
import MitosOS.Memory.HeapRuns
import MitosOS.Memory.HeapReuse
import MitosOS.Memory.ByteBlocks
import MitosOS.Paging.Entry
import MitosOS.Paging.Tables
import MitosOS.Paging.Operations
import MitosOS.Paging.LiveTables
import MitosOS.Paging.PageMap
import MitosOS.Paging.UserAccess
import MitosOS.Paging.AddressSpace
import MitosOS.Paging.Teardown
import MitosOS.Paging.KernelMap
import MitosOS.Paging.IdentityMap
import MitosOS.Tasks.Scheduler
import MitosOS.Tasks.Resume
import MitosOS.Tasks.AddressSpaces
import MitosOS.Elf.Loader
import MitosOS.Elf.SharedTables
import MitosOS.Elf.Totality
import MitosOS.Kernel.Processes
import MitosOS.Kernel.Ownership
import MitosOS.Drivers.Ahci
import MitosOS.Drivers.AhciCompletion
import MitosOS.Drivers.AhciPending
import MitosOS.Drivers.AhciTransfer
import MitosOS.Drivers.Prdt
import MitosOS.Drivers.KernelHal
import MitosOS.Drivers.DmaAddresses
import MitosOS.Drivers.Font
import MitosOS.Drivers.Console
import MitosOS.Drivers.Uart
import MitosOS.Drivers.AhciDma
import MitosOS.Kernel.Conservation
import MitosOS.Kernel.FailedSpawn
import MitosOS.Paging.Translation
import MitosOS.Paging.Descent
import MitosOS.Paging.PageFault
import MitosOS.Paging.UnresolvedFaults
import MitosOS.Kernel.Faults
import MitosOS.Paging.Dereference
import MitosOS.Paging.UserPages
import MitosOS.Paging.Rights
import MitosOS.Paging.LargeLeaves
import MitosOS.Paging.Validation
import MitosOS.Paging.UserBytes
import MitosOS.Elf.Image
import MitosOS.Kernel.Munmap
import MitosOS.Kernel.Locking
import MitosOS.Kernel.InputRing
import MitosOS.Kernel.Spinlock
import MitosOS.Kernel.FileDescriptors
import MitosOS.Kernel.BootInfo
import MitosOS.Kernel.ExceptionBodies
import MitosOS.Kernel.InterruptStubs
import MitosOS.Kernel.Platform
import MitosOS.Kernel.TaskMachine
import MitosOS.Kernel.ContextSwitch
import MitosOS.Kernel.SystemCalls
import MitosOS.Kernel.Shell
import MitosOS.Kernel.UserBuffers
import MitosOS.Kernel.Isolation
import MitosOS.Kernel.Confidentiality
import MitosOS.Hal.Smp
import MitosOS.Hal.ApIdentities
import MitosOS.Hal.Madt
import MitosOS.Hal.Acpi
import MitosOS.Hal.AcpiTables
import MitosOS.Tasks.Mailbox
import MitosOS.Tasks.Events
import MitosOS.Tasks.Messages
import MitosOS.Tasks.Dispatch
import MitosOS.Tasks.WellFormed
import MitosOS.Tasks.ActiveRoot
import MitosOS.Tasks.Fairness
import MitosOS.Fs.Vfs
import MitosOS.Fs.Block
import MitosOS.Fs.Volume
import MitosOS.Fs.Fat32
import MitosOS.Fs.Fat32Safety
import MitosOS.Fs.Fat32Chains
import MitosOS.Fs.Fat32Files
import MitosOS.Fs.Fat32Directory
import MitosOS.Fs.Ramdisk
import MitosOS.Fs.TarWalk
import MitosOS.Fs.TarNames
import MitosOS.Fs.FileNodes
import MitosOS.Fs.Ata
import MitosOS.Fs.SelfTest
import MitosOS.Fs.Fat32Links
