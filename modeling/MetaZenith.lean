import MetaZenith.TurboQuantCausality
import MetaZenith.TurboQuantRoundTrip
import MetaZenith.SplitKvDecode
import MetaZenith.GreedyLossless
import MetaZenith.RandomLossless
import MetaZenith.BlockHashChain
import MetaZenith.GdnStateColumns
import MetaZenith.MambaAlignHandoff
import MetaZenith.Detokenizer
import MetaZenith.KvEvents
import MetaZenith.InputBatchRuns
import MetaZenith.StructuredOutputRuns
import MetaZenith.EncoderRuns
import MetaZenith.EncoderAccounting
import MetaZenith.DeferredFrees
import MetaZenith.ParserDelivery
import MetaZenith.ToolCallBrackets
import MetaZenith.DeltaContent
import MetaZenith.BatchReorder
import MetaZenith.MambaChunkSplit
import MetaZenith.PriorityOrder
import MetaZenith.AsyncInputIds
import MetaZenith.CudagraphDispatcher
import MetaZenith.RunningLoop
import MetaZenith.SessionSlots
import MetaZenith.RequestProgress
import MetaZenith.SlidingWindowLookup
import MetaZenith.TurboQuantBucketize
import MetaZenith.SlotMapping
import MetaZenith.NgramProposer
