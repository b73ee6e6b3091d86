import Lexicon.Build
import Lexicon.Command.Arguments
import Lexicon.Command.Run
import Lexicon.Main
import Lexicon.Report
import Lexicon.Proofs.Bits
import Lexicon.Proofs.Compression.Lowercase
import Lexicon.Proofs.Compression.Lz4
import Lexicon.Proofs.Block.Records
import Lexicon.Proofs.Block.Stats
import Lexicon.Proofs.Compression.Suffixes
import Lexicon.Proofs.Term.History
import Lexicon.Proofs.Term.Longs
import Lexicon.Proofs.Block.RoundTrip
import Lexicon.Proofs.Block.Location
import Lexicon.Proofs.Transducer.Keys
import Lexicon.Proofs.Transducer.Building
import Lexicon.Proofs.Block.Plan
import Lexicon.Proofs.Block.Run
import Lexicon.Proofs.Block.Index
import Lexicon.Proofs.Block.Tree
import Lexicon.Proofs.Block.Emission
import Lexicon.Proofs.Block.Frontier
import Lexicon.Proofs.Block.Trie
import Lexicon.Proofs.Monotonic
import Lexicon.Proofs.Monotonic.Calls
import Lexicon.Proofs.Field.Directory
import Lexicon.Proofs.Field.Acceptance
import Lexicon.Proofs.Segment.Lookup
import Lexicon.Proofs.Stream.Frame
import Lexicon.Proofs.Transducer.Format
import Lexicon.Proofs.Segment.Writing
import Lexicon.Proofs.Segment.Fields
import Lexicon.Proofs.Segment.Ends
import Lexicon.Proofs.Segment.Bounds
import Lexicon.Proofs.Segment.Opening
import Lexicon.Proofs.Segment.RoundTrip
import Lexicon.Proofs.Pairing
import Lexicon.Proofs.Segment.Shape
import Lexicon.Proofs.Transducer.Calls
import Lexicon.Proofs.Segment.Pending
import Lexicon.Proofs.Block.Decoding
import Lexicon.Proofs.Segment.Walks
import Lexicon.Proofs.Segment.Reached
import Lexicon.Proofs.Segment.Session
import Lexicon.Proofs.Segment.Failures
import Lexicon.Proofs.Block.Extents
import Lexicon.Proofs.Segment.Coverage
import Lexicon.Proofs.Files
import Lexicon.Proofs.Listing.Lists
import Lexicon.Proofs.Listing.Lookup
import Lexicon.Proofs.Segment.Lengths
import Lexicon.Proofs.Listing.Lengths
import Lexicon.Proofs.Listing.Acceptance
import Lexicon.Proofs.Block.Partition
import Lexicon.Proofs.Segment.Blocks
import Lexicon.Proofs.Segment.Tallies
import Lexicon.Proofs.Segment.Accounts
import Lexicon.Proofs.Segment.Copies
import Lexicon.Proofs.Segment.Replay
import Lexicon.Proofs.Segment.Summaries
import Lexicon.Proofs.Segment.Identity
import Lexicon.Proofs.Block.Union
import Lexicon.Proofs.Transducer.Minimal
import Lexicon.Proofs.Transducer.Storage
import Lexicon.Proofs.Stream.Item
import Lexicon.Proofs.Varint
import Lexicon.Proofs.Bits.Pieces
import Lexicon.Proofs.Transducer.Lookups
