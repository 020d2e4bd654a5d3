import EbbrtContrib.Runs
import EbbrtContrib.Argv
import EbbrtContrib.Tokenizer
import EbbrtContrib.ArgvQuotes
import EbbrtContrib.ArgvTokens
import EbbrtContrib.ArgvResult
import EbbrtContrib.ArgvQuoting
import EbbrtContrib.ArgvMachine
import EbbrtContrib.ArgvSafety
import EbbrtContrib.ArgvStrings
import EbbrtContrib.ArgvBalance
import EbbrtContrib.ArgvSeparators
import EbbrtContrib.ArgBlobs
import EbbrtContrib.BlobRoundTrip
import EbbrtContrib.EnvironBounds
import EbbrtContrib.Buffers
import EbbrtContrib.BlobViews
import EbbrtContrib.CommandLine
import EbbrtContrib.CommandLineChecks
import EbbrtContrib.FourPrograms
import EbbrtContrib.CheckedInt
import EbbrtContrib.CounterTests
import EbbrtContrib.CounterChecks
import EbbrtContrib.Chain
import EbbrtContrib.LittleEndian
import EbbrtContrib.StreamMessages
import EbbrtContrib.EarlyExit
import EbbrtContrib.MultiCounter
import EbbrtContrib.RepresentativeScan
import EbbrtContrib.CyclicBarrier
import EbbrtContrib.MPTest
import EbbrtContrib.MPTestCall
import EbbrtContrib.MPTestFrame
import EbbrtContrib.MPTestResults
import EbbrtContrib.MPTestProgress
import EbbrtContrib.MPTestOverlap
import EbbrtContrib.MPTestWork
import EbbrtContrib.MPCounterTests
import EbbrtContrib.SpawnTests
import EbbrtContrib.OwnedHeap
import EbbrtContrib.HoardThreadTest
import EbbrtContrib.HoardBalance
import EbbrtContrib.CpuBarriers
import EbbrtContrib.CpuProgress
import EbbrtContrib.CpuCount
import EbbrtContrib.CpuExit
import EbbrtContrib.CpuExitOnce
import EbbrtContrib.CmdServer
import EbbrtContrib.CmdServerBytes
import EbbrtContrib.CmdServerBounds
import EbbrtContrib.CmdServerClients
import EbbrtContrib.OutConnection
import EbbrtContrib.OutConnectionProtocol
import EbbrtContrib.OutConnectionLifetime
import EbbrtContrib.Windows
import EbbrtContrib.WindowedSend
import EbbrtContrib.CmdServerSends
import EbbrtContrib.CmdServerChunks
import EbbrtContrib.CmdServerRelay
import EbbrtContrib.LocalPorts
import EbbrtContrib.InputStream
import EbbrtContrib.StreamOwners
import EbbrtContrib.StreamNodes
import EbbrtContrib.StreamProgress
import EbbrtContrib.StreamTurns
import EbbrtContrib.StreamSessions
import EbbrtContrib.NodeSessions
import EbbrtContrib.StreamMembers
import EbbrtContrib.FileStream
import EbbrtContrib.InputTests
import EbbrtContrib.InputTestsCopy
import EbbrtContrib.RemoteStream
import EbbrtContrib.RemoteStreamCopy
import EbbrtContrib.FileReads
import EbbrtContrib.OpenStream
import EbbrtContrib.OpenStreamHandshake
import EbbrtContrib.StreamReplies
import EbbrtContrib.FsMessages
import EbbrtContrib.MessageDecoders
import EbbrtContrib.RemoteFiles
import EbbrtContrib.RemoteFilesOwn
import EbbrtContrib.RemoteFilesEnd
import EbbrtContrib.FaultHandling
import EbbrtContrib.OneRepresentative
import EbbrtContrib.FaultFailure
import EbbrtContrib.ObjectFault
import EbbrtContrib.OneObject
import EbbrtContrib.PrinterNetwork
import EbbrtContrib.PrinterConsole
import EbbrtContrib.ParallelFor
import EbbrtContrib.StackRegistrations
