import HpccPlatform.BitSet.BitVector
import HpccPlatform.Csv.RoundTrip
import HpccPlatform.Csv.StreamSplit
import HpccPlatform.Csv.Utf8Field
import HpccPlatform.Escape.JsonRoundTrip
import HpccPlatform.Escape.NameRoundTrips
import HpccPlatform.Escape.XmlRoundTrip
import HpccPlatform.Index.BlobRoundTrip
import HpccPlatform.Index.BloomBuilder
import HpccPlatform.Index.BloomMask
import HpccPlatform.Index.BuilderOrder
import HpccPlatform.Index.CrcGroups
import HpccPlatform.Index.CursorBuilt
import HpccPlatform.Index.FileCrc
import HpccPlatform.Index.MRURuns
import HpccPlatform.Index.NodeCache
import HpccPlatform.JSort.BinarySearch
import HpccPlatform.JSort.StableQuickSort
import HpccPlatform.KeyFilter.FieldSteps
import HpccPlatform.KeyFilter.FilterSerial
import HpccPlatform.KeyedSearch.Search
import HpccPlatform.Merge.MergeRowStreams
import HpccPlatform.Nbcd.Modulus
import HpccPlatform.Nbcd.PackedOrder
import HpccPlatform.Nbcd.Text
import HpccPlatform.QString.SubstringRange
import HpccPlatform.Queue.RowQueue
import HpccPlatform.RowCompress.RowDiff
import HpccPlatform.RowCompress.RunLength
import HpccPlatform.StoredInt.KeyedInt
import HpccPlatform.StoredInt.Packed
import HpccPlatform.Strand.BlockQueueShutdown
import HpccPlatform.StringSet.NumValues
import HpccPlatform.StringSet.SetAlgebra
import HpccPlatform.Task.StackInvariant
import HpccPlatform.Udp.AcceptedPermit
import HpccPlatform.Udp.BufferRuns
import HpccPlatform.Udp.Collator
import HpccPlatform.Udp.DataPermit
import HpccPlatform.Udp.FlowOrder
import HpccPlatform.Udp.OverCommit
import HpccPlatform.Udp.ResendRuns
import HpccPlatform.Udp.SimpleQueue
import HpccPlatform.Udp.TrackerRuns
import HpccPlatform.Udp.Transmit
import HpccPlatform.ValueSet.Exclude
import HpccPlatform.ValueSet.RangeLookup
import HpccPlatform.ValueSet.SubString
import HpccPlatform.ValueSet.TextRoundTrip
