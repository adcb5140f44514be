import TokenTree.Config.Document
import TokenTree.Pattern.Trace
import TokenTree.Segment.Lookahead
import TokenTree.Stream.Drive
import TokenTree.Token.Debug
import TokenTree.Token.Walk
import TokenTree.Proofs.Prefix
import TokenTree.Proofs.Search
import TokenTree.Proofs.Segment
import TokenTree.Proofs.Stability
import TokenTree.Proofs.Detach
import TokenTree.Proofs.Nesting
import TokenTree.Proofs.Session
import TokenTree.Proofs.Matching
import TokenTree.Proofs.Tiling
import TokenTree.Proofs.Walk
import TokenTree.Proofs.WellNested
import TokenTree.Proofs.Accounting
import TokenTree.Proofs.Quoted
import TokenTree.Proofs.Bytes
import TokenTree.Proofs.Checked
import TokenTree.Proofs.CheckedStep
import TokenTree.Proofs.Readable
import TokenTree.Proofs.Safety
import TokenTree.Proofs.Saturation
import TokenTree.Proofs.Promptness
import TokenTree.Proofs.Decoding
import TokenTree.Proofs.Streaming
import TokenTree.Proofs.Folding
import TokenTree.Proofs.Composites
import TokenTree.Proofs.Encoding
import TokenTree.Proofs.Tracing
import TokenTree.Proofs.Stopping
import TokenTree.Proofs.Restart
import TokenTree.Proofs.Lifecycle
import TokenTree.Proofs.Places
import TokenTree.Proofs.Munch
import TokenTree.Proofs.Strings
import TokenTree.Proofs.Comments
import TokenTree.Proofs.Shortcut
import TokenTree.Proofs.Segmentation
import TokenTree.Proofs.Lookahead
import TokenTree.Proofs.Buffers
import TokenTree.Proofs.Sharing
import TokenTree.Proofs.Placement
import TokenTree.Proofs.Consistent
import TokenTree.Proofs.Operators
import TokenTree.Proofs.Faults
import TokenTree.Proofs.Ranking
import TokenTree.Proofs.Documents
import TokenTree.Proofs.Validation
import TokenTree.Proofs.Canonical
import TokenTree.Proofs.Shelf
import TokenTree.Proofs.Candidates
import TokenTree.Proofs.Cancellation
import TokenTree.Proofs.Resuming
import TokenTree.Proofs.Progress
