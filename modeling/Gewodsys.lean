import Gewodsys.Machine.Word
import Gewodsys.Machine.Mem
import Gewodsys.Machine.Bitmap
import Gewodsys.Machine.Run
import Gewodsys.Machine.TableTree
import Gewodsys.Machine.Lap
import Gewodsys.Machine.Tiling
import Gewodsys.Lib.Memory
import Gewodsys.Lib.Array
import Gewodsys.Lib.List
import Gewodsys.Lib.ListRuns
import Gewodsys.Mem.Pmm
import Gewodsys.Mem.PmmRuns
import Gewodsys.Mem.PmmBoot
import Gewodsys.Mem.Vmm
import Gewodsys.Mem.VmmTree
import Gewodsys.Mem.PmmSource
import Gewodsys.Mem.VmmRuns
import Gewodsys.Mem.VmmHw
import Gewodsys.Mem.VmmPerm
import Gewodsys.Mem.VmmRights
import Gewodsys.Mem.Heap
import Gewodsys.Mem.HeapChunks
import Gewodsys.Mem.HeapCarve
import Gewodsys.Mem.HeapMerge
import Gewodsys.Mem.HeapGrow
import Gewodsys.Mem.HeapKept
import Gewodsys.Mem.HeapInv
import Gewodsys.Mem.HeapRuns
import Gewodsys.Mem.HeapSource
import Gewodsys.Mem.HeapTags
import Gewodsys.Mem.HeapOrder
import Gewodsys.Mem.HeapGrowth
import Gewodsys.Mem.HeapExtent
import Gewodsys.Mem.HeapAligned
import Gewodsys.Mem.HeapAlignedGrow
import Gewodsys.Mem.HeapRetry
import Gewodsys.Mem.HeapCapacity
import Gewodsys.Mem.HeapAccess
import Gewodsys.Mem.HeapContract
import Gewodsys.Cpu.Apic
import Gewodsys.Cpu.ApicRanges
import Gewodsys.Cpu.IrqHandler
import Gewodsys.Cpu.IrqRuns
import Gewodsys.Cpu.Acpi
import Gewodsys.Cpu.Madt
import Gewodsys.Cpu.ApicMasks
import Gewodsys.Cpu.ApicInit
import Gewodsys.Dev.XhciRing
import Gewodsys.Dev.XhciRuns
import Gewodsys.Dev.Pci
import Gewodsys.Dev.PciBar
import Gewodsys.Dev.PciScan
import Gewodsys.Dev.PciMap
import Gewodsys.Dev.XhciCaps
import Gewodsys.Dev.XhciSlots
import Gewodsys.Dev.Xhci
import Gewodsys.Dev.XhciInterrupters
import Gewodsys.Dev.XhciMsix
import Gewodsys.Dev.XhciMmio
import Gewodsys.Cpu.AcpiPci
import Gewodsys.Cpu.AcpiMap
import Gewodsys.Cpu.AcpiScan
import Gewodsys.Tsk.Sched
import Gewodsys.Utl.Decimal
import Gewodsys.Utl.Serial
import Gewodsys.Machine.X86
import Gewodsys.Machine.Pic
import Gewodsys.Machine.Interleave
import Gewodsys.Cpu.Intel
import Gewodsys.Cpu.InterruptEntry
import Gewodsys.Lai.Sync
import Gewodsys.Machine.Fuel
import Gewodsys.Lai.Code
import Gewodsys.Lai.Exec
import Gewodsys.Lai.Aml
import Gewodsys.Lai.ExecParse
import Gewodsys.Lai.ExecItems
import Gewodsys.Lai.ExecFollows
import Gewodsys.Lai.AmlRules
import Gewodsys.Lai.ExecCorrect
import Gewodsys.Machine.Slots
import Gewodsys.Lai.Hash
import Gewodsys.Lai.HashRuns
import Gewodsys.Lai.Ns
import Gewodsys.Lai.NsRuns
import Gewodsys.Lai.NsPaths
import Gewodsys.Lai.FieldValues
import Gewodsys.Lai.BufferFields
