import Retrobsd.AssemblerRuns
import Retrobsd.BufferProcesses
import Retrobsd.BufferSessions
import Retrobsd.CalloutRuns
import Retrobsd.CharacterConcatenation
import Retrobsd.DirectoryRuns
import Retrobsd.DiskOpens
import Retrobsd.FileContents
import Retrobsd.FileTableRuns
import Retrobsd.InodeScans
import Retrobsd.MessageLog
import Retrobsd.PipeOrder
import Retrobsd.PipeRuns
import Retrobsd.ProcessRuns
import Retrobsd.RdiskOwnership
import Retrobsd.ResourceMapSequence
import Retrobsd.SignalRuns
import Retrobsd.SleepQueueRuns
import Retrobsd.StackSizes
import Retrobsd.SwapOwnership
import Retrobsd.SwapRuns
import Retrobsd.TimeOfDay
import Retrobsd.TracingHandshake
import Retrobsd.SymbolLookups
import Retrobsd.FsckTraversal
import Retrobsd.FsckAnswers
import Retrobsd.FsutilSwap
import Retrobsd.NameCache
import Retrobsd.InodeReads
import Retrobsd.MallocRuns
import Retrobsd.SymlinkExpansion
import Retrobsd.FileSizes
import Retrobsd.SmuxRuns
import Retrobsd.BlockMemory
import Retrobsd.RenameFlags
import Retrobsd.SignalWaits
import Retrobsd.WaitSelection
import Retrobsd.ExecStacks
import Retrobsd.NameiBalance
import Retrobsd.ProcessPriorities
import Retrobsd.RelocationTargets
import Retrobsd.SwapContents
import Retrobsd.DiskAccounts
import Retrobsd.TerminalEditing
import Retrobsd.PseudoTerminals
import Retrobsd.TraceRequests
import Retrobsd.ProcessListing
import Retrobsd.Credentials
import Retrobsd.IntervalTimers
import Retrobsd.LoadAverages
