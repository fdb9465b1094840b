import Paro.L3Protocol.LockExclusion
import Paro.L3Protocol.ReadSetCoverage
import Paro.L3Protocol.Serializability
import Paro.L3Protocol.ConflictHistory
import Paro.L3Protocol.CommitOrder
import Paro.L3Protocol.QueueClose
import Paro.L3Protocol.CrashRecovery
import Paro.L3Protocol.PublicationOrder
import Paro.L3Protocol.ArtMultimap
import Paro.L3Protocol.VersionedIndex
import Paro.L1Encoding.ChecksumDetection
import Paro.L3Protocol.TimestampExhaustion
import Paro.L3Protocol.SegmentReplay
import Paro.L1Encoding.SortKeyDecode
import Paro.L3Protocol.ActiveWatermarks
import Paro.L3Protocol.CommitSizeBound
import Paro.L3Protocol.StaleCompaction
import Paro.L3Protocol.RssidBijection
import Paro.L3Protocol.DeleteHistory
import Paro.L3Protocol.LatestView
import Paro.L3Protocol.RleSchedule
import Paro.L3Protocol.PrefixSeek
import Paro.L3Protocol.BitShuffleReads
import Paro.L3Protocol.FrameRoundTrip
import Paro.L3Protocol.DictColumn
import Paro.L3Protocol.HashMarkJoin
import Paro.L3Protocol.MarkLowering
import Paro.L3Protocol.EmptyPullup
import Paro.L1Encoding.DatePart
import Paro.L1Encoding.QuotedText
