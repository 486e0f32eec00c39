import OsborneX.OrderbookModel
import OsborneX.CrossingProofs
import OsborneX.MatchingRefinementProofs
import OsborneX.OrderbookCallProofs
import OsborneX.RepresentationProofs
import OsborneX.SweepProofs
import OsborneX.ReachableProofs
import OsborneX.ArrivalProofs
import OsborneX.PriceTimeProofs
import OsborneX.LevelTallyProofs
import OsborneX.LevelDataProofs
import OsborneX.FillOrKillProofs
import OsborneX.ExecutionPriceProofs
import OsborneX.ConservationProofs
import OsborneX.RingBufferModel
import OsborneX.RingSlotProofs
import OsborneX.LosslessProofs
import OsborneX.LossyProofs
import OsborneX.OrderEntryModel
import OsborneX.OutcomeProofs
import OsborneX.UnreachableProofs
import OsborneX.MirrorProofs
import OsborneX.LockstepProofs
import OsborneX.PriceLimitProofs
import OsborneX.LossAccountingProofs
import OsborneX.MarketDataProofs
import OsborneX.SweepUniqueProofs
import OsborneX.ZeroQuantityProofs
import OsborneX.SymmetricRunProofs
import OsborneX.TracelessProofs
import OsborneX.OrderEntryLoopModel
import OsborneX.OrderEntryLoopProofs
import OsborneX.MpscQueueModel
import OsborneX.ServerLifecycleModel
import OsborneX.ServerLifecycleProofs
import OsborneX.SimulationModel
import OsborneX.SimulationProofs
import OsborneX.ShardSymbolProofs
import OsborneX.ShardingProofs
import OsborneX.RingCallProofs
import OsborneX.MarketFeedModel
import OsborneX.MarketFeedProofs
import OsborneX.SubscriberProofs
import OsborneX.MpscRunProofs
import OsborneX.ListenerProofs
import OsborneX.PositionProofs
import OsborneX.StrategyProofs
import OsborneX.DepthProofs
import OsborneX.TopChangesProofs
import OsborneX.MarketWireProofs
import OsborneX.SendFailureProofs
import OsborneX.RemainderProofs
import OsborneX.FillAndKillProofs
import OsborneX.ModifyOrderProofs
import OsborneX.ServerRunModel
import OsborneX.ServerStagesProofs
import OsborneX.ServerTurnProofs
import OsborneX.ServerRunProofs
import OsborneX.FillSplitProofs
import OsborneX.ReportModel
import OsborneX.TradeStatisticsProofs
import OsborneX.DrawdownProofs
import OsborneX.ReturnsProofs
import OsborneX.FullFillProofs
import OsborneX.IterationProofs
import OsborneX.MatchTerminationProofs
import OsborneX.PublisherModel
import OsborneX.PublisherProofs
import OsborneX.DuplicateProofs
import OsborneX.ParticipantModel
import OsborneX.ParticipantProofs
import OsborneX.StreamReaderProofs
import OsborneX.BroadcastProofs
import OsborneX.ShutdownProofs
import OsborneX.MarketViewModel
import OsborneX.MarketViewProofs
import OsborneX.ServerWireModel
import OsborneX.ServerWireProofs
import OsborneX.LinearizationProofs
import OsborneX.InboundQueueProofs
import OsborneX.DebugBuildModel
import OsborneX.DebugBuildProofs
import OsborneX.CancelledOrderProofs
import OsborneX.ClientStreamProofs
import OsborneX.CancelRoutingProofs
import OsborneX.TotalProofs
import OsborneX.FillBudgetProofs
import OsborneX.OwnFillsProofs
import OsborneX.OwnershipProofs
import OsborneX.SocketModel
import OsborneX.SocketProofs
import OsborneX.SocketServerProofs
