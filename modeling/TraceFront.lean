import TraceFront.Cli.Directory
import TraceFront.Session
import TraceFront.Tree.Shape
import TraceFront.Main
import TraceFront.Proofs.Core.Runs
import TraceFront.Proofs.Datum.Reading
import TraceFront.Proofs.Expr.Recognition
import TraceFront.Proofs.Expr.Subterms
import TraceFront.Proofs.Source.Identifiers
import TraceFront.Proofs.Core.Free
import TraceFront.Proofs.Core.Resolution
import TraceFront.Proofs.Tree.Conforming
import TraceFront.Proofs.Tree.Lowering
import TraceFront.Proofs.Tree.Encoding
import TraceFront.Proofs.Expr.Frames
import TraceFront.Proofs.Tree.Positions
import TraceFront.Proofs.Expr.Alike
import TraceFront.Proofs.Core.Agreement
import TraceFront.Proofs.Session.Interning
import TraceFront.Proofs.Named.Names
import TraceFront.Proofs.Named.Transcription
import TraceFront.Proofs.Named.Reader
import TraceFront.Proofs.Named.OfDatum
import TraceFront.Proofs.Named.OfExpr
import TraceFront.Proofs.Session.ScopeTable
import TraceFront.Proofs.Session.Transcription
import TraceFront.Proofs.Session.History
import TraceFront.Proofs.Datum.Grammar
import TraceFront.Proofs.Tree.Walk
import TraceFront.Proofs.Tree.Rejection
import TraceFront.Proofs.Expr.Places
import TraceFront.Proofs.Number.Integer
import TraceFront.Proofs.Token.Printing
import TraceFront.Proofs.Datum.Printing
import TraceFront.Proofs.Source.Printing
import TraceFront.Proofs.Tree.AddressText
import TraceFront.Proofs.Source.Length
import TraceFront.Proofs.Source.Addresses
import TraceFront.Proofs.Token.Grammar
import TraceFront.Proofs.Token.Tiling
import TraceFront.Proofs.Source.Shifting
import TraceFront.Proofs.Datum.Slices
import TraceFront.Proofs.Compile.Places
import TraceFront.Proofs.Session.Concatenation
import TraceFront.Proofs.Pattern.Naming
import TraceFront.Proofs.Pattern.Projections
import TraceFront.Proofs.Compile.Procedures
import TraceFront.Proofs.Session.Scopes
import TraceFront.Proofs.Core.Warnings
import TraceFront.Proofs.Source.Hygiene
import TraceFront.Proofs.Source.Escapes
import TraceFront.Proofs.Datum.Faults
import TraceFront.Proofs.Source.Blame
import TraceFront.Proofs.Expr.Refusals
import TraceFront.Proofs.Source.Quotation
import TraceFront.Proofs.Core.Layers
import TraceFront.Proofs.Core.Groups
import TraceFront.Proofs.Tree.Rows
import TraceFront.Proofs.Token.Numerals
import TraceFront.Proofs.Diagnostic.Underline
import TraceFront.Proofs.Diagnostic.Location
import TraceFront.Proofs.Session.InternerRuns
import TraceFront.Proofs.Source.Dumps
