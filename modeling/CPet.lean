import CPet.SegmentProofs
import CPet.RunProofs
import CPet.IntArrayProofs
import CPet.QuicksortProofs
import CPet.QuicksortPartitionProofs
import CPet.QuicksortSortProofs
import CPet.QuicksortCopiesProofs
import CPet.QuicksortCostProofs
import CPet.QuicksortTerminationProofs
import CPet.QuicksortBoundsProofs
import CPet.PrintArrayProofs
import CPet.QuicksortTraceProofs
import CPet.TerminalProofs
import CPet.PrintPivotsProofs
import CPet.SumProofs
import CPet.TopTwoProofs
import CPet.TwoLargestProofs
import CPet.OrderStatisticProofs
import CPet.ArrayQueriesProofs
import CPet.IdentityProofs
import CPet.HandProofs
import CPet.InputProofs
import CPet.VectorProofs
import CPet.MemoryProofs
import CPet.OwnershipProofs
import CPet.ObjectPoolProofs
import CPet.PositionalProofs
import CPet.BinaryProofs
import CPet.DecimalProofs
import CPet.CStringProofs
import CPet.ChunkedReadProofs
import CPet.StrconcatProofs
import CPet.StringHeaderProofs
import CPet.FormatProofs
import CPet.AssertsProofs
import CPet.StringBuilderProofs
import CPet.TableProofs
import CPet.MatrixProofs
import CPet.MatrixHeapProofs
import CPet.DelimitedProofs
import CPet.ToStringProofs
import CPet.ToStringFailureProofs
import CPet.RoundingProofs
import CPet.DoubleProofs
import CPet.DoubleFormatProofs
import CPet.PointProofs
import CPet.IeeeProofs
import CPet.ErrorBoundProofs
import CPet.VectorErrorProofs
import CPet.LogarithmProofs
import CPet.CharNumProofs
import CPet.AssertsDoubleProofs
import CPet.VectorTestProofs
import CPet.TestRunProofs
import CPet.MatrixTextProofs
import CPet.TilingProofs
import CPet.BlockPlanProofs
import CPet.SubmissionProofs
import CPet.SetupProofs
import CPet.RequestProofs
import CPet.IovecProofs
import CPet.RingProofs
import CPet.CompletionProofs
import CPet.VectoredReadProofs
import CPet.HeapBalanceProofs
import CPet.LinearizationProofs
import CPet.ReadersAgreeProofs
import CPet.FilesMainProofs
import CPet.RingAccessProofs
import CPet.WriterProofs
import CPet.FileLogProofs
