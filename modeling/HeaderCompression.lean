import HeaderCompression.Block.Reader
import HeaderCompression.Block.Writer
import HeaderCompression.Connection
import HeaderCompression.Decoder
import HeaderCompression.Decoder.Budget
import HeaderCompression.Decoder.Stage
import HeaderCompression.DecodingError
import HeaderCompression.Encoder
import HeaderCompression.Field
import HeaderCompression.Huffman.CodeTree
import HeaderCompression.Huffman.Codebook
import HeaderCompression.Huffman.Coding
import HeaderCompression.Octets
import HeaderCompression.Octets.Bits
import HeaderCompression.Octets.Queue
import HeaderCompression.Octets.Reading
import HeaderCompression.Octets.Text
import HeaderCompression.Proofs.Block.Announcement
import HeaderCompression.Proofs.Block.Buffering
import HeaderCompression.Proofs.Block.Coalescing
import HeaderCompression.Proofs.Block.ExactTruncation
import HeaderCompression.Proofs.Block.FreshStart
import HeaderCompression.Proofs.Block.Histories
import HeaderCompression.Proofs.Block.TableInvariant
import HeaderCompression.Proofs.Checked.CodeTrie
import HeaderCompression.Proofs.Checked.Counting
import HeaderCompression.Proofs.Checked.Decoding
import HeaderCompression.Proofs.Checked.DynamicTable
import HeaderCompression.Proofs.Checked.Histories
import HeaderCompression.Proofs.Checked.HuffmanCoding
import HeaderCompression.Proofs.Checked.HuffmanDecoding
import HeaderCompression.Proofs.Checked.IntegerCoding
import HeaderCompression.Proofs.Checked.LiteralCoding
import HeaderCompression.Proofs.Checked.Operations
import HeaderCompression.Proofs.Checked.Queue
import HeaderCompression.Proofs.Checked.RingBuffer
import HeaderCompression.Proofs.Checked.Rules
import HeaderCompression.Proofs.Connection.Delivery
import HeaderCompression.Proofs.Connection.Renegotiation
import HeaderCompression.Proofs.Connection.SensitiveHeaders
import HeaderCompression.Proofs.Connection.SmallerWriter
import HeaderCompression.Proofs.Connection.Synchronisation
import HeaderCompression.Proofs.Decoder.Budgets
import HeaderCompression.Proofs.Decoder.Conformance
import HeaderCompression.Proofs.Decoder.Coverage
import HeaderCompression.Proofs.Decoder.FailedRepresentation
import HeaderCompression.Proofs.Decoder.LeastLengths
import HeaderCompression.Proofs.Decoder.ListDecoder
import HeaderCompression.Proofs.Decoder.LongestPart
import HeaderCompression.Proofs.Decoder.Mirroring
import HeaderCompression.Proofs.Decoder.Moves
import HeaderCompression.Proofs.Decoder.Progress
import HeaderCompression.Proofs.Decoder.Registers
import HeaderCompression.Proofs.Decoder.Resumption
import HeaderCompression.Proofs.Decoder.Runs
import HeaderCompression.Proofs.Decoder.SizeUpdates
import HeaderCompression.Proofs.Decoder.Steps
import HeaderCompression.Proofs.Decoder.Truncation
import HeaderCompression.Proofs.Decoder.Validity
import HeaderCompression.Proofs.Decoder.Waiting
import HeaderCompression.Proofs.Encoder.Redundancy
import HeaderCompression.Proofs.Encoder.Representations
import HeaderCompression.Proofs.Encoder.RoundTrip
import HeaderCompression.Proofs.Encoder.Validity
import HeaderCompression.Proofs.Huffman.Classification
import HeaderCompression.Proofs.Huffman.CodeTree
import HeaderCompression.Proofs.Huffman.Coding
import HeaderCompression.Proofs.Huffman.Decoding
import HeaderCompression.Proofs.Huffman.Exactness
import HeaderCompression.Proofs.LongestWithin
import HeaderCompression.Proofs.Octets.Arrival
import HeaderCompression.Proofs.Octets.Bits
import HeaderCompression.Proofs.Octets.Queue
import HeaderCompression.Proofs.Octets.Reading
import HeaderCompression.Proofs.Octets.Window
import HeaderCompression.Proofs.Table.Batches
import HeaderCompression.Proofs.Table.Eviction
import HeaderCompression.Proofs.Table.History
import HeaderCompression.Proofs.Table.IndexSpace
import HeaderCompression.Proofs.Table.LatestInsertions
import HeaderCompression.Proofs.Table.Likeness
import HeaderCompression.Proofs.Table.ListTable
import HeaderCompression.Proofs.Table.Lookups
import HeaderCompression.Proofs.Table.NameIndex
import HeaderCompression.Proofs.Table.NestedTable
import HeaderCompression.Proofs.Table.Refinement
import HeaderCompression.Proofs.Table.Retention
import HeaderCompression.Proofs.Table.RingBuffer
import HeaderCompression.Proofs.Wire.Continuations
import HeaderCompression.Proofs.Wire.Grammar
import HeaderCompression.Proofs.Wire.PrefixedInteger
import HeaderCompression.Proofs.Wire.ShortestForm
import HeaderCompression.Proofs.Wire.ShortestLiteral
import HeaderCompression.Proofs.Wire.StringLiteral
import HeaderCompression.Settings
import HeaderCompression.Settings.Document
import HeaderCompression.Size
import HeaderCompression.Table.DynamicTable
import HeaderCompression.Table.EvictionPolicy
import HeaderCompression.Table.IndexSpace
import HeaderCompression.Table.RingBuffer
import HeaderCompression.Table.StaticTable
import HeaderCompression.Wire.HeaderRepresentation
import HeaderCompression.Wire.PrefixedInteger
import HeaderCompression.Wire.StringLiteral
