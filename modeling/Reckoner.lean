import Reckoner.Token.Scan
import Reckoner.Diagnostic.Report
import Reckoner.Source.Slice
import Reckoner.Expr.Basic
import Reckoner.Expr.Printer
import Reckoner.Expr.Reader
import Reckoner.Evaluation
import Reckoner.Session
import Reckoner.Store
import Reckoner.World
import Reckoner.Walk
import Reckoner.Expr.Walk
import Reckoner.Token.Walk
import Reckoner.Expr.Rules
import Reckoner.Proofs.Token.Scanning
import Reckoner.Proofs.Grammar.Derivation
import Reckoner.Proofs.Grammar.Reading
import Reckoner.Proofs.Grammar.Nesting
import Reckoner.Proofs.Grammar.Height
import Reckoner.Proofs.Grammar.Failure
import Reckoner.Proofs.Grammar.Frontier
import Reckoner.Proofs.Number.Double
import Reckoner.Proofs.Number.Closure
import Reckoner.Proofs.Evaluation.Trace
import Reckoner.Proofs.Session.Journal
import Reckoner.Proofs.Evaluation.Exact
import Reckoner.Proofs.Number.Integers
import Reckoner.Proofs.Token.Lexeme
import Reckoner.Proofs.Token.Split
import Reckoner.Proofs.Grammar.Unplaced
import Reckoner.Proofs.Token.Spelling
import Reckoner.Proofs.Grammar.RoundTrip
import Reckoner.Proofs.Evaluation.Alike
import Reckoner.Proofs.Evaluation.Names
import Reckoner.Proofs.Evaluation.Blame
import Reckoner.Proofs.Session.Layout
import Reckoner.Proofs.Session.Repetition
import Reckoner.Proofs.Store.Flat
import Reckoner.Proofs.Store.Independent
import Reckoner.Proofs.Store.Forest
import Reckoner.Proofs.World.History
import Reckoner.Proofs.Grammar.Expected
import Reckoner.Proofs.Grammar.Placement
import Reckoner.Proofs.Token.Order
import Reckoner.Proofs.Grammar.Deepest
import Reckoner.Proofs.Source.Rows
import Reckoner.Proofs.Token.Unreadable
import Reckoner.Proofs.Session.Marks
import Reckoner.Proofs.Token.Blanks
import Reckoner.Proofs.Source.Carets
import Reckoner.Proofs.Session.Summary
import Reckoner.Proofs.Grammar.Ending
import Reckoner.Proofs.Grammar.Relocation
import Reckoner.Proofs.Grammar.Cutting
import Reckoner.Proofs.Number.Overflow
import Reckoner.Proofs.Session.Numerals
import Reckoner.Proofs.Evaluation.Integrality
import Reckoner.Proofs.Session.Origins
import Reckoner.Proofs.Grammar.Folding
import Reckoner.Proofs.Grammar.Cursor
import Reckoner.Proofs.Source.Positions
import Reckoner.Proofs.Token.Walking
