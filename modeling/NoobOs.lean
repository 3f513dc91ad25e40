import NoobOs.Lib.DyadicTiling
import NoobOs.Lib.Runs
import NoobOs.Mem.Buddy
import NoobOs.Mem.FreeLists
import NoobOs.Mem.Layout
import NoobOs.Mem.Operations
import NoobOs.Mem.HeapRuns
import NoobOs.Mem.HeapResults
import NoobOs.KLib.Lists
import NoobOs.Crypt.Murmur
import NoobOs.Fs.Inode
import NoobOs.Fs.InodeInvariant
import NoobOs.Fs.InodeRuns
import NoobOs.Fs.Path
import NoobOs.Fs.PathBalance
import NoobOs.Crypt.Login
import NoobOs.Fs.FileTable
import NoobOs.Crypt.LoginResults
import NoobOs.Crypt.Privilege
import NoobOs.Ext2.Disk
import NoobOs.Ext2.ReadIno
import NoobOs.Ext2.Lread
import NoobOs.Ext2.FileContents
import NoobOs.Driver.Tty
import NoobOs.Driver.LineDiscipline
import NoobOs.Driver.Terminal
import NoobOs.Fs.CounterWrap
import NoobOs.Proc.Sched
import NoobOs.Fs.Canonical
import NoobOs.Fs.PathReference
import NoobOs.Fs.ParentLookup
import NoobOs.Fs.WorkingDirectory
import NoobOs.Fs.FileCalls
import NoobOs.Fs.DescriptorBounds
import NoobOs.Fs.IndirectCalls
import NoobOs.Driver.Console
import NoobOs.Driver.EscapeSequences
import NoobOs.Driver.Keyboard
import NoobOs.Fs.DeviceTree
import NoobOs.Proc.Stacks
import NoobOs.Ext2.Directory
import NoobOs.Fs.Getdents
import NoobOs.Ext2.SuperLifetime
import NoobOs.Proc.ShellCommands
import NoobOs.Fs.PathLaws
import NoobOs.Fs.Dup
import NoobOs.Ext2.DirectoryBounds
import NoobOs.Ext2.DirectoryScans
import NoobOs.Ext2.ReadCalls
import NoobOs.Driver.Pci
import NoobOs.Ext2.Geometry
import NoobOs.Lib.Areas
import NoobOs.KLib.StringBuffers
import NoobOs.Fs.PathBuffers
import NoobOs.Driver.RawDisk
import NoobOs.Driver.TerminalLaws
import NoobOs.Mem.InitRegion
import NoobOs.Mem.Accounting
import NoobOs.Mem.Malloc
import NoobOs.Mem.StaleFrees
import NoobOs.Crypt.HashResults
import NoobOs.Driver.PciWrites
import NoobOs.Syscall.Dispatch
import NoobOs.Driver.LineInput
import NoobOs.Proc.BrainfuckReader
import NoobOs.Lib.Brackets
import NoobOs.Proc.Brainfuck
import NoobOs.Proc.BrainfuckResults
import NoobOs.Proc.ShellDispatch
import NoobOs.KLib.FieldBuffers
import NoobOs.Crypt.CredentialBuffers
import NoobOs.Crypt.CredentialCalls
import NoobOs.Crypt.ShadowCheck
import NoobOs.Crypt.PasswdFields
import NoobOs.KLib.Comparing
import NoobOs.KLib.Numerals
import NoobOs.KLib.Tokenizing
import NoobOs.KLib.ListRefinement
import NoobOs.Driver.BaudRates
import NoobOs.Driver.Uptime
import NoobOs.Driver.Madt
import NoobOs.Mem.Smbios
import NoobOs.Mem.Paging
import NoobOs.Lib.StackMachine
import NoobOs.Cpu.Entry
import NoobOs.Cpu.SystemCalls
import NoobOs.Cpu.TaskSwitch
import NoobOs.KLib.Printf
import NoobOs.KLib.PrintfBuffers
import NoobOs.Cpu.Interrupts
import NoobOs.Lib.Blake2
import NoobOs.Crypt.Blake2s
import NoobOs.Crypt.RandomPool
import NoobOs.Driver.Echo
import NoobOs.Driver.VgaText
import NoobOs.Cpu.Spinlock
import NoobOs.Lib.PioDrive
import NoobOs.Driver.Ata
