import X64OS.Framework.Runs
import X64OS.Framework.Refinement
import X64OS.Framework.Span
import X64OS.Framework.ByteMemory
import X64OS.Memory.Pmm
import X64OS.Memory.PmmRuns
import X64OS.Memory.Libc
import X64OS.Memory.Mmap
import X64OS.Memory.MmapOps
import X64OS.Memory.MmapPages
import X64OS.Memory.MmapOwners
import X64OS.Memory.MmapFaults
import X64OS.Memory.MmapRuns
import X64OS.Memory.PageTables
import X64OS.Memory.PageTableOps
import X64OS.Memory.Pagemaps
import X64OS.Memory.Ram
import X64OS.Memory.Slab
import X64OS.Memory.SlabPage
import X64OS.Memory.SlabInvariant
import X64OS.Memory.SlabOps
import X64OS.Memory.SlabRuns
import X64OS.Memory.SlabSpecs
import X64OS.Memory.Vmm
import X64OS.Memory.VmmSpecs
import X64OS.Memory.VmmRuns
import X64OS.Memory.MmapFrees
import X64OS.Framework.Overlay
import X64OS.Fs.HashMap
import X64OS.Fs.Tmpfs
import X64OS.Fs.Descriptors
import X64OS.Fs.Lookup
import X64OS.Fs.Vfs
import X64OS.Fs.VfsMounts
import X64OS.Fs.VfsNames
import X64OS.Fs.VfsSound
import X64OS.Drivers.NvmeCache
import X64OS.Drivers.NvmeQueue
import X64OS.Drivers.NvmeRuns
import X64OS.Framework.Linked
import X64OS.Framework.Rotation
import X64OS.Sched.RoundRobin
import X64OS.Fs.Initrd
import X64OS.Fs.InitrdUnpack
import X64OS.Memory.MmapRange
import X64OS.Prg.Elf
import X64OS.Prg.ElfBytes
import X64OS.Drivers.Partitions
import X64OS.Framework.X86
import X64OS.Fs.RefCounts
import X64OS.Krnl.Syscalls
import X64OS.Sched.Marks
import X64OS.Drivers.E1000
import X64OS.Drivers.Pci
import X64OS.Framework.Locks
import X64OS.Fs.LockDiscipline
import X64OS.Fs.LockErasure
import X64OS.Sched.EventRuns
import X64OS.Sched.Triggers
import X64OS.Fs.PathSpec
import X64OS.Krnl.LinuxMmap
import X64OS.Krnl.UserBuffers
import X64OS.Memory.MunmapFrame
import X64OS.Memory.PmmInit
import X64OS.Memory.PmmSearch
import X64OS.Memory.SlabContents
import X64OS.Memory.SlabUsage
import X64OS.Framework.Moves
import X64OS.Fs.CreateFails
import X64OS.Fs.CreateNames
import X64OS.Fs.FdTable
import X64OS.Fs.Openat
import X64OS.Fs.OpenatFails
import X64OS.Fs.OpenatStart
import X64OS.Fs.ReadBounds
import X64OS.Fs.TmpfsBlocks
import X64OS.Drivers.NvmeBounds
import X64OS.Framework.Checked
import X64OS.Fs.Ext2
import X64OS.Fs.Ext2Blocks
import X64OS.Fs.Ext2Dir
import X64OS.Fs.Ext2Mount
import X64OS.Fs.Ext2Populate
import X64OS.Memory.TmpfsMmap
import X64OS.Arch.Madt
import X64OS.Drivers.Ecam
import X64OS.Drivers.PciBars
import X64OS.Drivers.PciEnds
import X64OS.Framework.WordStack
import X64OS.Fs.InitrdRounds
import X64OS.Sched.InitialStack
import X64OS.Sched.Listeners
import X64OS.Sched.Removal
import X64OS.Prg.ElfStores
import X64OS.Framework.Lagged
import X64OS.Krnl.Rng
import X64OS.Krnl.Writev
import X64OS.Arch.IoApic
import X64OS.Framework.X86Return
import X64OS.Arch.Interrupts
import X64OS.Arch.Preemption
import X64OS.Krnl.SyscallReturn
