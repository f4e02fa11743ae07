import Studix.Base.Loop
import Studix.Base.Bounded
import Studix.Base.Memory
import Studix.Base.Tiling
import Studix.Base.Bump
import Studix.Base.Word
import Studix.Base.Ia32
import Studix.Base.Descriptor
import Studix.Base.I8259
import Studix.Base.Arbiter
import Studix.Misc.Panic
import Studix.Misc.OrderedArray
import Studix.Misc.OrderedArrayBounds
import Studix.Misc.OrderedArrayInsert
import Studix.Mem.Frame
import Studix.Mem.FrameOwnership
import Studix.Mem.FrameSearch
import Studix.Mem.Page
import Studix.Mem.Heap
import Studix.Mem.Alloc
import Studix.Mem.HeapInvariant
import Studix.Mem.HeapAlloc
import Studix.Mem.HeapFree
import Studix.Mem.InitPaging
import Studix.Mem.FrameStorage
import Studix.Mem.Placement
import Studix.Mem.HeapSafety
import Studix.Mem.HeapCarve
import Studix.Mem.HeapGrow
import Studix.Mem.HeapBounds
import Studix.Mem.HeapRetry
import Studix.Mem.HeapPages
import Studix.Mem.HeapRelease
import Studix.Mem.HeapEffect
import Studix.Mem.HeapContract
import Studix.Mem.HeapCoalesce
import Studix.Mem.HeapProbes
import Studix.Mem.HeapSearch
import Studix.Mem.HeapAligned
import Studix.Mem.HeapBlockSize
import Studix.Mem.HeapCalls
import Studix.Mem.HeapResize
import Studix.Mem.HeapOrder
import Studix.Mem.HeapBestFit
import Studix.Mem.HeapSecrecy
import Studix.Lib.CString
import Studix.Lib.StringOrder
import Studix.Lib.StringCopy
import Studix.Term.Vga
import Studix.Term.Decimal
import Studix.Term.Printf
import Studix.Term.Hexadecimal
import Studix.Term.Screen
import Studix.Term.PrintfItems
import Studix.Mem.PageFault
import Studix.Fs.Ext2
import Studix.Fs.Ext2Read
import Studix.Fs.Ext2Driver
import Studix.Fs.Ext2Inode
import Studix.Fs.Ext2Mount
import Studix.Fs.Ext2Lookup
import Studix.Fs.Ext2Dir
import Studix.Fs.Ext2Malformed
import Studix.Fs.Ext2Find
import Studix.Fs.Ext2Walk
import Studix.Fs.Vfs
import Studix.Fs.Ext2Vfs
import Studix.Fs.Ext2Open
import Studix.Fs.Ext2VfsRead
import Studix.Fs.Ext2Volume
import Studix.Fs.Ext2Init
import Studix.Fs.Initrd
import Studix.Fs.InitrdDir
import Studix.Fs.InitrdCount
import Studix.Fs.InitrdAgree
import Studix.Tools.MakeInitrd
import Studix.Tools.InitrdLimits
import Studix.Fs.InitrdRoundTrip
import Studix.Fs.InitrdRead
import Studix.Devices.Ps2
import Studix.Devices.Pata
import Studix.Devices.PataProbe
import Studix.CpuSetup.Isrs
import Studix.CpuSetup.Interrupt
import Studix.CpuSetup.DescriptorTables
import Studix.CpuSetup.Requests
