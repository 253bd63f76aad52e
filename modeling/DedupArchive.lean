import DedupArchive.Blobs.Basic
import DedupArchive.Blobs.Directory
import DedupArchive.Blobs.Faulty
import DedupArchive.Blobs.Memory
import DedupArchive.Bytes
import DedupArchive.Catalog.Cell
import DedupArchive.Catalog.Edit
import DedupArchive.Catalog.Error
import DedupArchive.Catalog.Extended
import DedupArchive.Catalog.Query
import DedupArchive.Catalog.Real
import DedupArchive.Catalog.Tables
import DedupArchive.Catalog.Transaction
import DedupArchive.Chunking.Chunk
import DedupArchive.Chunking.Chunker
import DedupArchive.Chunking.Cut
import DedupArchive.Chunking.Detector
import DedupArchive.Chunking.Error
import DedupArchive.Chunking.Fingerprint
import DedupArchive.Digest.Basic
import DedupArchive.Digest.Blake3
import DedupArchive.Digest.Hex
import DedupArchive.Files.Path
import DedupArchive.Files.Tree
import DedupArchive.IoError
import DedupArchive.Json.Token
import DedupArchive.Json.Value
import DedupArchive.Params.Basic
import DedupArchive.Params.Json
import DedupArchive.Reading.ChunkReader
import DedupArchive.Reading.ChunkStream
import DedupArchive.Reading.ReadAhead
import DedupArchive.Reading.Reader
import DedupArchive.Reading.Script
import DedupArchive.Sink
import DedupArchive.Store.Audit
import DedupArchive.Store.Basic
import DedupArchive.Store.CatalogFile
import DedupArchive.Store.Descriptor
import DedupArchive.Store.Error
import DedupArchive.Store.Home
import DedupArchive.Text.Blank
import DedupArchive.Text.Quoted
import DedupArchive.Text.Unprintable
import DedupArchive.Proofs.Chunking.Rolling
import DedupArchive.Proofs.Chunking.Window
import DedupArchive.Proofs.Chunking.Pieces
import DedupArchive.Proofs.Chunking.Buffers
import DedupArchive.Proofs.Chunking.Stream
import DedupArchive.Proofs.Chunking.Prefix
import DedupArchive.Proofs.Chunking.Sessions
import DedupArchive.Proofs.Chunking.Resuming
import DedupArchive.Proofs.Ascending
import DedupArchive.Proofs.Catalog.Answers
import DedupArchive.Proofs.Catalog.Cells
import DedupArchive.Proofs.Catalog.Rules
import DedupArchive.Proofs.Catalog.Edits
import DedupArchive.Proofs.Catalog.Reading
import DedupArchive.Proofs.Catalog.Questions
import DedupArchive.Proofs.Catalog.Reachable
import DedupArchive.Proofs.Digest.Written
import DedupArchive.Proofs.Json.Spelling
import DedupArchive.Proofs.Params.Written
import DedupArchive.Proofs.Files.Walking
import DedupArchive.Proofs.Files.Places
import DedupArchive.Proofs.Blobs.Faithful
import DedupArchive.Proofs.Blobs.Directory
import DedupArchive.Proofs.Blobs.Requests
import DedupArchive.Proofs.Blobs.Listed
import DedupArchive.Proofs.Store.Tiling
import DedupArchive.Proofs.Store.Loading
import DedupArchive.Proofs.Store.Findings
import DedupArchive.Proofs.Store.Reporting
import DedupArchive.Proofs.Store.Agreement
import DedupArchive.Proofs.Reading.Delivered
import DedupArchive.Proofs.Reading.Iteration
import DedupArchive.Proofs.Reading.ReadingAhead
import DedupArchive.Proofs.Reading.Polling
import DedupArchive.Proofs.Catalog.Growth
import DedupArchive.Proofs.Catalog.Removal
import DedupArchive.Proofs.Catalog.Entries
import DedupArchive.Proofs.Store.Saving
import DedupArchive.Proofs.Store.Deleting
import DedupArchive.Proofs.Store.Health
import DedupArchive.Proofs.Store.Preservation
import DedupArchive.Proofs.Store.Runs
import DedupArchive.Proofs.Store.Repairing
import DedupArchive.Proofs.Store.Members
import DedupArchive.Proofs.Store.Commuting
import DedupArchive.Proofs.Store.Readback
import DedupArchive.Proofs.Store.Damage
import DedupArchive.Proofs.Store.Faults
import DedupArchive.Proofs.Store.Access
import DedupArchive.Proofs.Store.Parts
import DedupArchive.Proofs.Blobs.Interchange
import DedupArchive.Proofs.Store.Layout
import DedupArchive.Proofs.Store.Reopening
import DedupArchive.Proofs.Catalog.Transactions
import DedupArchive.Proofs.Store.Summary
import DedupArchive.Proofs.Blobs.Separate
import DedupArchive.Proofs.Store.Coverage
import DedupArchive.Proofs.Store.Failing
import DedupArchive.Proofs.Store.Releasing
import DedupArchive.Proofs.Store.Orphans
import DedupArchive.Proofs.Chunking.Sizes
import DedupArchive.Proofs.Files.Making
import DedupArchive.Proofs.Store.Refusing
import DedupArchive.Proofs.Store.Founding
import DedupArchive.Proofs.Catalog.Numbers
import DedupArchive.Proofs.Catalog.Ordering
import DedupArchive.Proofs.Store.Ordering
import DedupArchive.Proofs.Chunking.Rehashing
import DedupArchive.Proofs.Reading.Served
import DedupArchive.Proofs.Chunking.Restarting
import DedupArchive.Proofs.Catalog.Liveness
import DedupArchive.Proofs.Digest.Encoding
import DedupArchive.Proofs.Store.Persisting
