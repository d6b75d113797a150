import NestedComment.Abstention
import NestedComment.Check
import NestedComment.Cursor.Basic
import NestedComment.Cursor.Cached
import NestedComment.Cursor.Lexemes
import NestedComment.Cursor.Progress
import NestedComment.Cursor.Walk
import NestedComment.Decimal.Binary64
import NestedComment.Decimal.Shortest
import NestedComment.Event
import NestedComment.Foreign.Entry
import NestedComment.Foreign.Host
import NestedComment.Foreign.Session
import NestedComment.Foreign.Tape
import NestedComment.Host.Basic
import NestedComment.Host.Recorded
import NestedComment.Json.Document
import NestedComment.Json.Fault
import NestedComment.Json.Number
import NestedComment.Json.Reader
import NestedComment.Json.Text
import NestedComment.Json.Value
import NestedComment.Mutation
import NestedComment.Options.Basic
import NestedComment.Options.Document
import NestedComment.Options.Value
import NestedComment.Proofs.Abstention
import NestedComment.Proofs.Balance
import NestedComment.Proofs.Check
import NestedComment.Proofs.Closers
import NestedComment.Proofs.Cursor.Abreast
import NestedComment.Proofs.Cursor.Cached
import NestedComment.Proofs.Cursor.Comment
import NestedComment.Proofs.Cursor.Lexemes
import NestedComment.Proofs.Cursor.Moves
import NestedComment.Proofs.Cursor.Scan
import NestedComment.Proofs.Cursor.Text
import NestedComment.Proofs.Cursor.Token
import NestedComment.Proofs.Cursor.Traversal
import NestedComment.Proofs.Decimal.Range
import NestedComment.Proofs.Delimiters
import NestedComment.Proofs.Enclosing
import NestedComment.Proofs.Foreign.Cut
import NestedComment.Proofs.Foreign.Refinement
import NestedComment.Proofs.Generation
import NestedComment.Proofs.Json.Leaf
import NestedComment.Proofs.Json.Number
import NestedComment.Proofs.Json.Tokens
import NestedComment.Proofs.Leading
import NestedComment.Proofs.Limit
import NestedComment.Proofs.Locality
import NestedComment.Proofs.Message
import NestedComment.Proofs.Mutation
import NestedComment.Proofs.Octets
import NestedComment.Proofs.Options.Document
import NestedComment.Proofs.Options.Members
import NestedComment.Proofs.Options.RoundTrip
import NestedComment.Proofs.Outcome
import NestedComment.Proofs.Plain
import NestedComment.Proofs.Scan.Calls
import NestedComment.Proofs.Scan.Cost
import NestedComment.Proofs.Scan.Depth
import NestedComment.Proofs.Scan.Ending
import NestedComment.Proofs.Scan.Failure
import NestedComment.Proofs.Scan.Nesting
import NestedComment.Proofs.Scan.Reach
import NestedComment.Proofs.Scan.Reading
import NestedComment.Proofs.Scan.Round
import NestedComment.Proofs.Scan.Simulation
import NestedComment.Proofs.Scan.Termination
import NestedComment.Proofs.Sequence
import NestedComment.Proofs.Text.Quoted
import NestedComment.Proofs.Tree
import NestedComment.Proofs.Utf8.Decode
import NestedComment.Proofs.Utf8.Encode
import NestedComment.Proofs.Utf8.Lead
import NestedComment.Proofs.Utf8.Starts
import NestedComment.Scan.Basic
import NestedComment.Scan.Body
import NestedComment.Scan.Plain
import NestedComment.Scan.Reaction
import NestedComment.Scan.Run
import NestedComment.Scanner
import NestedComment.Session
import NestedComment.Symbol
import NestedComment.Symbol.Document
import NestedComment.Text.Quoted
import NestedComment.Text.Unprintable
import NestedComment.Tree.Basic
import NestedComment.Tree.Generate
import NestedComment.Utf8
import NestedComment.Whitespace
