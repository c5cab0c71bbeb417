import SystemProgramming.Library.Runs
import SystemProgramming.MyShell.Quoting
import SystemProgramming.Phase2.Survival
import SystemProgramming.Phase2.Agreement
import SystemProgramming.MyShell.ExecFailure
import SystemProgramming.MyShell.LaunchFailure
import SystemProgramming.MyShell.Wakeup
import SystemProgramming.MyShell.Wiring
import SystemProgramming.MyShell.Groups
import SystemProgramming.MyShell.Leaks
import SystemProgramming.MyShell.Representation
import SystemProgramming.MyShell.Accounting
import SystemProgramming.MyShell.Attribution
import SystemProgramming.MyShell.StoppedState
import SystemProgramming.MyShell.Foreground
import SystemProgramming.MyShell.Signals
import SystemProgramming.Testlib.BitmapArray
import SystemProgramming.Testlib.SpliceCommand
import SystemProgramming.Testlib.UniqueCommand
import SystemProgramming.Testlib.HashTable
import SystemProgramming.Testlib.HashIteration
import SystemProgramming.Testlib.HashInterpreter
import SystemProgramming.Testlib.StableSort
import SystemProgramming.Testlib.UniqueBlocks
import SystemProgramming.Testlib.ListExchange
import SystemProgramming.Testlib.ListShuffle
import SystemProgramming.Testlib.BitmapQueries
import SystemProgramming.Testlib.BitmapDump
import SystemProgramming.Testlib.BitmapBounds
import SystemProgramming.Testlib.ListExtremes
import SystemProgramming.Testlib.DumpLayout
import SystemProgramming.Testlib.Ledger
import SystemProgramming.Phase2.Bounds
import SystemProgramming.MyShell.JobIds
import SystemProgramming.MyShell.Keyboard
import SystemProgramming.MyShell.Listing
import SystemProgramming.MyShell.Resume
import SystemProgramming.MyShell.Rest
import SystemProgramming.MyShell.Arguments
import SystemProgramming.MyShell.JobText
import SystemProgramming.MyShell.Ampersand
import SystemProgramming.MyShell.QuotedBars
import SystemProgramming.MyShell.SegmentBounds
import SystemProgramming.MyShell.Input
import SystemProgramming.Phase2.Programs
import SystemProgramming.Phase2.PipeFailure
import SystemProgramming.Phase2.Sessions
import SystemProgramming.Library.Refinement
import SystemProgramming.Testlib.Isolation
import SystemProgramming.Testlib.Replay
