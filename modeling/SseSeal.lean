import SseSeal.Bytes
import SseSeal.BinaryArchive
import SseSeal.Objects
import SseSeal.ObjectArchive
import SseSeal.StateExcept
import SseSeal.PathTree
import SseSeal.ListPicking
import SseSeal.KeyedMultiset
import SseSeal.OramReadPathEviction
import SseSeal.OramEviction
import SseSeal.OramAccess
import SseSeal.OramBlocks
import SseSeal.OramCalls
import SseSeal.OramMemory
import SseSeal.CallTrace
import SseSeal.TapeCounting
import SseSeal.OramTrace
import SseSeal.OramOblivious
import SseSeal.OramFailure
import SseSeal.SortedMap
import SseSeal.Padding
import SseSeal.Feistel
import SseSeal.Sm4
import SseSeal.Base64
import SseSeal.StringCipher
import SseSeal.AvlTree
import SseSeal.OramAccessController
import SseSeal.ClientCache
import SseSeal.OdictClient
import SseSeal.ClientSession
import SseSeal.ClientTree
import SseSeal.Dictionary
import SseSeal.PositionTags
import SseSeal.SortedBlocks
import SseSeal.SubArrays
import SseSeal.SubOrams
import SseSeal.PaddedMemory
import SseSeal.IndexStrings
import SseSeal.KeywordIndex
import SseSeal.RangeTree
import SseSeal.RangeIndex
import SseSeal.TableLoading
import SseSeal.RangeSearch
import SseSeal.OramInvariant
import SseSeal.OramMaximal
import SseSeal.BalancedDictionary
import SseSeal.SearchLeakage
import SseSeal.KeywordColumns
import SseSeal.TableReloading
import SseSeal.BucketArchive
import SseSeal.SealService
import SseSeal.Acknowledgement
import SseSeal.ControllerIsolation
import SseSeal.SharedService
import SseSeal.ServiceIsolation
import SseSeal.FaultyRuns
import SseSeal.StorageFaults
import SseSeal.InterruptedSession
import SseSeal.StoppedSession
import SseSeal.LinkedSearch
import SseSeal.StoredLinks
import SseSeal.BatchFailure
import SseSeal.Shuffle
import SseSeal.RandomPermutation
import SseSeal.Placement
import SseSeal.RangeCover
import SseSeal.CountTable
import SseSeal.DummyIds
import SseSeal.FindPadding
import SseSeal.CachedAccess
import SseSeal.NodeRemoval
import SseSeal.RemovalRuns
import SseSeal.SessionInvariants
import SseSeal.AddressTrace
import SseSeal.SessionAddresses
import SseSeal.SubOramAddresses
import SseSeal.IndexAddresses
import SseSeal.TableAddresses
import SseSeal.DyadicSplit
import SseSeal.RangeTightness
import SseSeal.Sm4Standard
import SseSeal.DecryptionBounds
import SseSeal.LruHistory
import SseSeal.CacheRecency
import SseSeal.BlockLeaves
import SseSeal.Rebalancing
import SseSeal.RangeDomains
import SseSeal.BatchFind
import SseSeal.BucketAddresses
import SseSeal.PathOverflow
import SseSeal.StashUsage
import SseSeal.QueryRuns
import SseSeal.CipherBlocks
import SseSeal.CsvReader
import SseSeal.CsvGrammar
import SseSeal.CsvRoundTrip
import SseSeal.CsvLoading
import SseSeal.SearchPattern
import SseSeal.FormatReading
import SseSeal.ArchiveReading
import SseSeal.SubOramPattern
import SseSeal.MessageFormat
import SseSeal.MessageRecords
import SseSeal.WireFormat
import SseSeal.SealMessages
import SseSeal.Connector
import SseSeal.Base64Variants
import SseSeal.TestCases
