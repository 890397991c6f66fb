import TypedJson.Monero.Daemon
import TypedJson.Monero.Publication
import TypedJson.Proofs.Schema.Refinement
import TypedJson.Proofs.Grammar.Integer
import TypedJson.Proofs.Grammar.Quoted
import TypedJson.Proofs.Reader.Unambiguous
import TypedJson.Proofs.Writer.Placement
import TypedJson.Proofs.Binary64.Shortest
import TypedJson.Proofs.Grammar.Value
import TypedJson.Proofs.Schema.Membership
import TypedJson.Proofs.Schema.Mismatch
import TypedJson.Proofs.Schema.RoundTrip
import TypedJson.Proofs.Schema.Truncation
import TypedJson.Schema.Field
import TypedJson.Proofs.Schema.Normalization
import TypedJson.Proofs.Monero.Framing
import TypedJson.Proofs.Cursor.Guarded
import TypedJson.Proofs.Cursor.Tracking
import TypedJson.Proofs.Cursor.Token
import TypedJson.Proofs.Cursor.Container
import TypedJson.Proofs.Cursor.Run
import TypedJson.Proofs.Cursor.Scratch
import TypedJson.Proofs.Schema.Composition
import TypedJson.Proofs.Schema.Listing
import TypedJson.Proofs.Schema.Precedence
import TypedJson.Proofs.Reader.Range
import TypedJson.Proofs.Schema.Trailing
import TypedJson.Proofs.Writer.Refusal
import TypedJson.Proofs.Writer.Segments
import TypedJson.Proofs.Schema.Overwriting
import TypedJson.Proofs.Reader.Boundary
import TypedJson.Proofs.Cursor.Violation
import TypedJson.Proofs.Monero.Order
import TypedJson.Proofs.Cursor.Numeral
import TypedJson.Proofs.Reader.Activation
import TypedJson.Proofs.Reader.Termination
