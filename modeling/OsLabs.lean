import OsLabs.Posix.Memory
import OsLabs.Posix.BlockStore
import OsLabs.Posix.Ledger
import OsLabs.Posix.Traced
import OsLabs.Posix.FdTable
import OsLabs.Posix.PointerArray
import OsLabs.Posix.StringCopy
import OsLabs.Posix.Strtok
import OsLabs.Posix.MaximalRuns
import OsLabs.Posix.Integers
import OsLabs.Posix.Decimal
import OsLabs.Posix.FileTree
import OsLabs.Posix.Processes
import OsLabs.Posix.Simulation
import OsLabs.Posix.Filters
import OsLabs.Posix.ProcessTree
import OsLabs.Iwish.ParserTokens
import OsLabs.Iwish.Parser
import OsLabs.Iwish.Grammar
import OsLabs.Iwish.ParserSpec
import OsLabs.Iwish.PipelineSpec
import OsLabs.Iwish.ParserFaults
import OsLabs.Iwish.ParserTrace
import OsLabs.Iwish.Backtracking
import OsLabs.Iwish.ParseTree
import OsLabs.Iwish.ParserOutcome
import OsLabs.Iwish.ParserCorrect
import OsLabs.Iwish.Ownership
import OsLabs.Iwish.DynamicByteArray
import OsLabs.Iwish.ArrayGrowth
import OsLabs.Iwish.ArrayOperations
import OsLabs.Iwish.SizeArithmetic
import OsLabs.Iwish.Interpreter
import OsLabs.Iwish.Arguments
import OsLabs.Iwish.ArgumentArray
import OsLabs.Iwish.Redirections
import OsLabs.Iwish.SpawnLoop
import OsLabs.Iwish.PipelineWiring
import OsLabs.Iwish.PipelineStages
import OsLabs.Iwish.PipelineJob
import OsLabs.Iwish.Reader
import OsLabs.Iwish.TokenRuns
import OsLabs.Iwish.LogicalLine
import OsLabs.Iwish.LineReading
import OsLabs.Iwish.FrontEnd
import OsLabs.Iwish.JobHandler
import OsLabs.Iwish.SafelyFork
import OsLabs.Iwish.Cleanup
import OsLabs.Iwish.Shell
import OsLabs.Iwish.Sessions
import OsLabs.Iwish.Requests
import OsLabs.Iwish.Progress
import OsLabs.Iwish.Script
import OsLabs.Iwish.Refusals
import OsLabs.Iwish.PipelineFlow
import OsLabs.Lab1.DynamicArray
import OsLabs.Lab1.FileNames
import OsLabs.Lab1.CompareFiles
import OsLabs.Lab1.DuplicatePairs
import OsLabs.Lab1.TreeWalk
import OsLabs.Lab1.Duplicates
import OsLabs.Lab1.DuplicatesBackup
import OsLabs.Lab1.Execute
import OsLabs.Lab1.Ring
import OsLabs.Lab1.RingShutdown
import OsLabs.Lab1.RingArguments
import OsLabs.Lab1.RingPipes
import OsLabs.Lab1.RingSetup
import OsLabs.Lab1.RingProgram
import OsLabs.Lab2.DynamicArray
import OsLabs.Lab2.PingPong
import OsLabs.Lab3.BootParameters
import OsLabs.Lab3.UtcTime
import OsLabs.Lab3.ProcessManager
