import MicroOS.Ac97
import MicroOS.Ahci
import MicroOS.Am79C973
import MicroOS.Arguments
import MicroOS.Arp
import MicroOS.BindTables
import MicroOS.Bresenham
import MicroOS.CalcRuns
import MicroOS.Calendar
import MicroOS.Checksum
import MicroOS.CommandLines
import MicroOS.Configuration
import MicroOS.ConstantFolding
import MicroOS.ContextLifetime
import MicroOS.CyclicSearch
import MicroOS.DesktopRuns
import MicroOS.Dhcp
import MicroOS.DirEntries
import MicroOS.DnsBounds
import MicroOS.DnsNames
import MicroOS.DnsRuns
import MicroOS.DotDot
import MicroOS.Edit
import MicroOS.EditRuns
import MicroOS.Environment
import MicroOS.Escapes
import MicroOS.EventQueue
import MicroOS.ExitCodes
import MicroOS.Expansion
import MicroOS.FatMounts
import MicroOS.FatRecognition
import MicroOS.Flvm
import MicroOS.FlvmRuns
import MicroOS.FormattedText
import MicroOS.GdbPackets
import MicroOS.GdbTransfers
import MicroOS.GptAllocation
import MicroOS.GrowingArrays
import MicroOS.HeapCapacity
import MicroOS.HeapKernel
import MicroOS.HeapRealloc
import MicroOS.HeapRuns
import MicroOS.Highlighting
import MicroOS.Http
import MicroOS.Ints
import MicroOS.IpcRuns
import MicroOS.JsonBounds
import MicroOS.JsonWalks
import MicroOS.KernelSymbols
import MicroOS.Lines
import MicroOS.LinkerLoad
import MicroOS.LinkerSymbols
import MicroOS.Loader
import MicroOS.LocalInitializers
import MicroOS.Mailbox
import MicroOS.MessageQueues
import MicroOS.ModuleSymbols
import MicroOS.NetBounds
import MicroOS.ObjectFiles
import MicroOS.ObjectLoading
import MicroOS.OptionLists
import MicroOS.Outcomes
import MicroOS.PacketOrder
import MicroOS.PagingContexts
import MicroOS.PagingRuns
import MicroOS.Partitions
import MicroOS.PathBuffers
import MicroOS.Pieces
import MicroOS.Pipes
import MicroOS.PmmAccounting
import MicroOS.PrintedNumbers
import MicroOS.Quoting
import MicroOS.RamfsNames
import MicroOS.Resampling
import MicroOS.Resolving
import MicroOS.Rings
import MicroOS.Rtl8139
import MicroOS.SafRoundTrip
import MicroOS.Scanner
import MicroOS.Scheduler
import MicroOS.ScreenAccess
import MicroOS.Segments
import MicroOS.Sending
import MicroOS.ServiceRuns
import MicroOS.StdioStreams
import MicroOS.Streams
import MicroOS.Strings
import MicroOS.Strtol
import MicroOS.Substitution
import MicroOS.Syscalls
import MicroOS.TcpReliability
import MicroOS.TcpWiring
import MicroOS.TeardownRuns
import MicroOS.Terminals
import MicroOS.TimedWaits
import MicroOS.Uhci
import MicroOS.UnixTime
import MicroOS.UsbDescriptors
import MicroOS.UsbKeyboard
import MicroOS.UsbStorage
import MicroOS.UserGrowth
import MicroOS.UserHeap
import MicroOS.UserRuns
import MicroOS.UserSpecs
import MicroOS.VlanCards
import MicroOS.Wav
import MicroOS.WindowDrag
import MicroOS.X86
