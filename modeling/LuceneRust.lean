import LuceneRust.Codecs.Lz4.DictionaryRoundTrip
import LuceneRust.Codecs.Lz4Hc.LazySearch
import LuceneRust.Codecs.DirectMonotonicSpec
import LuceneRust.Util.SparseFixedBitSetRuns
import LuceneRust.Util.FixedBitSetRanges
import LuceneRust.Util.BytesRefHashRuns
import LuceneRust.Store.FsCoreRuns
import LuceneRust.Store.CursorSpec
import LuceneRust.Index.SnapshotRuns
import LuceneRust.Index.Writer.SegmentNames
import LuceneRust.Index.Writer.EmptyStream
import LuceneRust.Index.Writer.CarriedDeletes
import LuceneRust.Codecs.PforSpec
import LuceneRust.Codecs.DisiCursorRuns
import LuceneRust.Codecs.FixedWidthReader
import LuceneRust.Codecs.BlockPackedSpec
import LuceneRust.Util.Automata.TopoSortSpec
import LuceneRust.Util.Automata.TotalSpec
import LuceneRust.Util.Automata.FiniteStringsSpec
import LuceneRust.Util.Automata.RunAutomatonExact
import LuceneRust.Util.Automata.DecimalIntervalExact
import LuceneRust.Util.Automata.BinaryIntervalExact
import LuceneRust.Index.FlushPolicySpec
import LuceneRust.Index.DeleteQuerySpec
import LuceneRust.Index.MergeSelectionSpec
import LuceneRust.Util.Sorter.SorterSpec
import LuceneRust.Util.Packed.PackedLongValuesSpec
import LuceneRust.Codecs.PackedStreamSpec
import LuceneRust.Util.TernaryLongHeapRuns
import LuceneRust.Codecs.LowercaseAsciiSpec
import LuceneRust.Store.NrtCachingDirectorySpec
