import Bilevel.Bitmap.Gray
import Bilevel.Document.Decode
import Bilevel.Encoder
import Bilevel.Proofs.Bitmap.Representation
import Bilevel.Proofs.Bits.Calls
import Bilevel.Proofs.Bits.Movable
import Bilevel.Proofs.Bits.Reads
import Bilevel.Proofs.Document.Checked
import Bilevel.Proofs.Document.FirstFailure
import Bilevel.Proofs.Document.Height
import Bilevel.Proofs.Document.Intermediate
import Bilevel.Proofs.Document.Isolation
import Bilevel.Proofs.Document.Lifecycle
import Bilevel.Proofs.Document.PageNumbers
import Bilevel.Proofs.Document.PixelLimit
import Bilevel.Proofs.Document.References
import Bilevel.Proofs.Document.Refinings
import Bilevel.Proofs.Document.Relaxed
import Bilevel.Proofs.Document.Shared
import Bilevel.Proofs.Encoder.Mirror
import Bilevel.Proofs.Encoder.Refusal
import Bilevel.Proofs.Encoder.Rejection
import Bilevel.Proofs.Encoder.RoundTrip
import Bilevel.Proofs.Huffman.Canonical
import Bilevel.Proofs.Huffman.Sequence
import Bilevel.Proofs.Huffman.Storage
import Bilevel.Proofs.Mq.Calls
import Bilevel.Proofs.Mq.Decisions
import Bilevel.Proofs.Mq.EncoderRegisters
import Bilevel.Proofs.Region.OpenLength
import Bilevel.Proofs.Region.RoundTrip
import Bilevel.Proofs.Segment.Organization
import Bilevel.Proofs.Segment.Tiling
import Bilevel.Proofs.Symbol.RoundTrip
import Bilevel.Proofs.Symbol.Runs
import Bilevel.Proofs.Text.Coordinates
import Bilevel.Proofs.Text.RoundTrip
import Bilevel.Proofs.Text.SymbolIds
