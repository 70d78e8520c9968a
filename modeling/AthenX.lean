import AthenX.KHeap.BadPointers
import AthenX.KHeap.InitRegion
import AthenX.Cmd.FreeCommand
import AthenX.Files.Shutdown
import AthenX.Files.Leaks
import AthenX.Console.Stdin
import AthenX.Cmd.Tokens
import AthenX.Cmd.TextEditor
import AthenX.Storage.Prdt
import AthenX.Storage.Iso
import AthenX.Net.Options
import AthenX.Net.Stale
import AthenX.Net.Polling
import AthenX.Multiboot.PageStarts
import AthenX.Multiboot.KernelMap
import AthenX.Paging.Exhausted
import AthenX.Paging.Tlb
import AthenX.Paging.AllocPages
import AthenX.Paging.Undo
import AthenX.Paging.VirtualMemory
import AthenX.Elf.Programs
import AthenX.Debug.Unwind
import AthenX.Scheduler.Terminated
import AthenX.Scheduler.Fairness
import AthenX.Scheduler.Handler
import AthenX.Dwarf.DebugInfo
import AthenX.Net.Discover
import AthenX.Console.Ansi
import AthenX.Console.Printf
import AthenX.Files.Rename
import AthenX.Debug.Decode
import AthenX.Debug.Parameters
import AthenX.Devices.Random
import AthenX.Devices.Pci
import AthenX.Files.Listing
import AthenX.Strings.Memmove
import AthenX.Strings.Itoa
import AthenX.Console.FillBuffer
