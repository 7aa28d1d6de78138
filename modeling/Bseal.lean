import Bseal.App.Authenticity
import Bseal.App.EncryptHeader
import Bseal.Archive.ArchiveGrammar
import Bseal.Archive.CommitLinks
import Bseal.Archive.DeferredMetadata
import Bseal.Archive.EntryPaths
import Bseal.Archive.ExtractionInvariant
import Bseal.Archive.Fragmentation
import Bseal.Archive.LexicalPaths
import Bseal.Archive.BackendCalls
import Bseal.Archive.DescriptorContainment
import Bseal.Archive.PortableContainment
import Bseal.Archive.OutputContainment
import Bseal.Archive.PlannedSize
import Bseal.Archive.ReaderLifetime
import Bseal.Archive.RecordCodec
import Bseal.Common.CheckedArithmetic
import Bseal.Common.SizeParser
import Bseal.Crypto.Keyfiles
import Bseal.Gui.CommandSummary
import Bseal.Io.CanonicalHeaders
import Bseal.Io.ChunkFrame
import Bseal.Io.HeaderCounts
import Bseal.Io.ShardHeader
import Bseal.Io.TornWrite
import Bseal.Pipeline.ChunkAssembly
import Bseal.Pipeline.Deadlock
import Bseal.Pipeline.Nonces
import Bseal.Pipeline.StepBounds
import Bseal.Pipeline.StreamExactness
import Bseal.Pipeline.WorkQueue
