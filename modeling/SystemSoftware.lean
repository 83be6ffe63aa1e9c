import SystemSoftware.ByteMemory
import SystemSoftware.Transitions
import SystemSoftware.NextFitHeap
import SystemSoftware.BoundaryTags
import SystemSoftware.NextFitBlocks
import SystemSoftware.NextFitCoalesce
import SystemSoftware.NextFitSearch
import SystemSoftware.NextFitAllocate
import SystemSoftware.NextFitRuns
import SystemSoftware.NextFitCircular
import SystemSoftware.NextFitTrace
import SystemSoftware.NextFitRealloc
import SystemSoftware.NextFitLimits
import SystemSoftware.BuddyPages
import SystemSoftware.BinaryBlocks
import SystemSoftware.BuddyBitmap
import SystemSoftware.BuddyLists
import SystemSoftware.BuddyPieces
import SystemSoftware.BuddyMerge
import SystemSoftware.BuddyShape
import SystemSoftware.BuddyCalls
import SystemSoftware.BuddyRuns
import SystemSoftware.BuddyAllocation
import SystemSoftware.BuddyCoalescing
import SystemSoftware.BuddyAsserts
import SystemSoftware.BuddyAgreement
import SystemSoftware.BuddyBounds
import SystemSoftware.BuddyCounter
import SystemSoftware.BuddyRealloc
import SystemSoftware.DecimalText
import SystemSoftware.StockTree
import SystemSoftware.StockFile
import SystemSoftware.StockRuns
import SystemSoftware.RequestParser
import SystemSoftware.RequestTokens
import SystemSoftware.RequestDecoding
import SystemSoftware.RequestAcceptance
import SystemSoftware.RequestIndependence
import SystemSoftware.RioBuffer
import SystemSoftware.RioLines
import SystemSoftware.ConnectionPool
import SystemSoftware.PoolRuns
import SystemSoftware.PoolAccounts
import SystemSoftware.StockThreads
import SystemSoftware.ThreadTally
import SystemSoftware.WorkerThreads
import SystemSoftware.WorkerProgress
import SystemSoftware.SessionService
import SystemSoftware.SessionFraming
import SystemSoftware.StockMap
import SystemSoftware.TradeDirection
import SystemSoftware.StockRoundTrip
import SystemSoftware.StockLedger
import SystemSoftware.StockRecords
import SystemSoftware.ReplySizes
import SystemSoftware.ConnectionQueue
import SystemSoftware.QueueRuns
import SystemSoftware.QueueIndices
import SystemSoftware.NetworkWorkers
import SystemSoftware.FinalSave
import SystemSoftware.ServedSave
import SystemSoftware.DescriptorTable
import SystemSoftware.PipelineWiring
import SystemSoftware.JobTable
import SystemSoftware.JobRuns
import SystemSoftware.BinarySearch
import SystemSoftware.ShellCommands
import SystemSoftware.CommandScan
import SystemSoftware.ShellParser
import SystemSoftware.PipelineText
import SystemSoftware.PipelineCommands
import SystemSoftware.ArgumentScan
import SystemSoftware.LineStream
import SystemSoftware.PoolScan
import SystemSoftware.ArgumentRuns
import SystemSoftware.ParserRounds
import SystemSoftware.ParserTermination
import SystemSoftware.CommandWords
import SystemSoftware.ArgumentVectors
import SystemSoftware.QuotedText
import SystemSoftware.SeparatorBlanks
import SystemSoftware.JobDesignators
import SystemSoftware.BuddyUnlinking
import SystemSoftware.Calculator64
import SystemSoftware.PipelineTables
import SystemSoftware.EarlyExit
import SystemSoftware.Intervals
import SystemSoftware.TraceDriver
import SystemSoftware.TracePayloads
import SystemSoftware.TraceDemand
import SystemSoftware.TraceContract
import SystemSoftware.NextFitDriven
import SystemSoftware.NextFitLayout
import SystemSoftware.NextFitRefinement
import SystemSoftware.NextFitRepeats
import SystemSoftware.RioBlocks
import SystemSoftware.Conversation
import SystemSoftware.ConversationTurns
import SystemSoftware.ConversationProgress
import SystemSoftware.ClientLines
import SystemSoftware.FileScan
import SystemSoftware.TraceFile
import SystemSoftware.ServedReplies
import SystemSoftware.AtomicObject
import SystemSoftware.WorkerReplies
import SystemSoftware.PipelineExecution
import SystemSoftware.CommandMemory
import SystemSoftware.EventService
