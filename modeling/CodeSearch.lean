import CodeSearch.Lib.Table
import CodeSearch.Lib.Transaction
import CodeSearch.Lib.Run
import CodeSearch.Text
import CodeSearch.Tokens
import CodeSearch.Parser
import CodeSearch.Chunker
import CodeSearch.Db
import CodeSearch.Storage
import CodeSearch.Schema
import CodeSearch.Incremental
import CodeSearch.Lib.Invariant
import CodeSearch.Index
import CodeSearch.Reprocess
import CodeSearch.Coherence
import CodeSearch.Diff
import CodeSearch.Lib.Progress
import CodeSearch.Success
import CodeSearch.Rebuild
import CodeSearch.RepoId
import CodeSearch.Lib.Crash
import CodeSearch.Lib.Returns
import CodeSearch.Atomicity
import CodeSearch.Migration
import CodeSearch.Statements
import CodeSearch.Concurrency
import CodeSearch.Pieces
import CodeSearch.Lexical
import CodeSearch.Watch
import CodeSearch.Server
import CodeSearch.EmbedderMeta
import CodeSearch.Dominance
import CodeSearch.Boost
import CodeSearch.Caps
import CodeSearch.Partition
import CodeSearch.Places
import CodeSearch.SearchShape
import CodeSearch.Hits
import CodeSearch.Lib.FullText
import CodeSearch.Recall
import CodeSearch.Agreement
import CodeSearch.Lib.Reads
import CodeSearch.SearchReads
import CodeSearch.Lib.Interference
import CodeSearch.Converge
import CodeSearch.SearchVectors
import CodeSearch.EmbedderChoice
import CodeSearch.Embeddings
import CodeSearch.RegistryRuns
import CodeSearch.SelfTrigger
import CodeSearch.ExtractorPaths
import CodeSearch.Lib.Binary
import CodeSearch.OverlapArithmetic
import CodeSearch.Lib.Chop
import CodeSearch.TokenPieces
import CodeSearch.Spellings
import CodeSearch.ContentDedup
import CodeSearch.FusionArithmetic
import CodeSearch.Lib.Faults
import CodeSearch.Cleanup
import CodeSearch.Catalog
import CodeSearch.Downgrade
import CodeSearch.Lib.Utf8
import CodeSearch.Walk
import CodeSearch.Unchanged
import CodeSearch.Lib.Windows
import CodeSearch.Windows
import CodeSearch.Lib.TreeNodes
import CodeSearch.Lib.Trim
import CodeSearch.LostSymbols
import CodeSearch.Imports
import CodeSearch.Exports
import CodeSearch.Lib.Nested
import CodeSearch.Rows
import CodeSearch.StructuralRows
import CodeSearch.Signatures
import CodeSearch.SourceTree
import CodeSearch.SourceChunks
import CodeSearch.Provenance
import CodeSearch.Answers
import CodeSearch.Freshness
