import MatchingEngine.Allocation
import MatchingEngine.BatchLog
import MatchingEngine.BestExecution
import MatchingEngine.BookInvariant
import MatchingEngine.BookRefinement
import MatchingEngine.BookRuns
import MatchingEngine.BoundedFifo
import MatchingEngine.CancelHistory
import MatchingEngine.CommandStream
import MatchingEngine.CurrentFeed
import MatchingEngine.DatabaseEngine
import MatchingEngine.DatabaseJournal
import MatchingEngine.DurableLog
import MatchingEngine.EngineInvariant
import MatchingEngine.EngineMachine
import MatchingEngine.EngineMoves
import MatchingEngine.EngineSettles
import MatchingEngine.EngineTypes
import MatchingEngine.FillsExtend
import MatchingEngine.FlushCheckpoint
import MatchingEngine.IdReuse
import MatchingEngine.InMemoryRefinement
import MatchingEngine.Isolation
import MatchingEngine.Journal
import MatchingEngine.JournalMonitor
import MatchingEngine.LadderRuns
import MatchingEngine.MarketKeys
import MatchingEngine.MarketSystem
import MatchingEngine.MatchingPass
import MatchingEngine.MatchingSafety
import MatchingEngine.MirrorImage
import MatchingEngine.Monitor
import MatchingEngine.MonitorWakeups
import MatchingEngine.NearestEven
import MatchingEngine.NeverTraded
import MatchingEngine.ObjectPool
import MatchingEngine.Observable
import MatchingEngine.OrderBook
import MatchingEngine.OrderSplitting
import MatchingEngine.OrderedMap
import MatchingEngine.Orders
import MatchingEngine.PriceTimeAllocation
import MatchingEngine.PriceTimeBook
import MatchingEngine.PriceTimePriority
import MatchingEngine.PublishedText
import MatchingEngine.PublisherMonitor
import MatchingEngine.QueueMonitor
import MatchingEngine.ReachableBooks
import MatchingEngine.Recovery
import MatchingEngine.RecoveryAtomicity
import MatchingEngine.RedisMarketData
import MatchingEngine.RedisPublisher
import MatchingEngine.Relabelling
import MatchingEngine.ReleaseAcquire
import MatchingEngine.RingOrdering
import MatchingEngine.ShareConservation
import MatchingEngine.SpscRing
import MatchingEngine.StridedLoop
import MatchingEngine.SweepComparison
import MatchingEngine.TopOfBook
import MatchingEngine.TradesProjection
import MatchingEngine.Transitions
import MatchingEngine.UncrossedBook
import MatchingEngine.UnitByUnit
import MatchingEngine.UntradedRuns
import MatchingEngine.Vwap
import MatchingEngine.WriterAccounting
