import Reckoner.Text.Blank
import Reckoner.Text.Word
import Reckoner.Text.Lines
import Reckoner.Decimal.Layout
import Reckoner.Position
import Reckoner.Token.Lexeme
import Reckoner.Event
import Reckoner.Token.Lex
import Reckoner.Expr.Printer
import Reckoner.Expr.Reader
import Reckoner.Program
import Reckoner.Expr.Eval
import Reckoner.Folder
import Reckoner.Session
import Reckoner.Main
import Reckoner.Proofs.Grammar
import Reckoner.Proofs.Reading
import Reckoner.Proofs.Acceptance
import Reckoner.Proofs.Depth
import Reckoner.Proofs.Segments
import Reckoner.Proofs.Cutting
import Reckoner.Proofs.Coverage
import Reckoner.Proofs.Respelling
import Reckoner.Proofs.FreshSpellings
import Reckoner.Proofs.Blame
import Reckoner.Proofs.Places
import Reckoner.Proofs.ValidPrefix
import Reckoner.Proofs.Lookahead
import Reckoner.Proofs.Spacing
import Reckoner.Proofs.Numerals
import Reckoner.Proofs.Doubles
import Reckoner.Proofs.ReadBack
import Reckoner.Proofs.RoundTrip
import Reckoner.Proofs.Parentheses
import Reckoner.Proofs.Mismatch
import Reckoner.Proofs.Likeness
import Reckoner.Proofs.Relabelling
import Reckoner.Proofs.Layout
import Reckoner.Proofs.Echoes
import Reckoner.Proofs.Rewording
import Reckoner.Proofs.KeywordFiles
import Reckoner.Proofs.Drivers
import Reckoner.Proofs.Sessions
import Reckoner.Proofs.LineEnds
import Reckoner.Proofs.OneByOne
import Reckoner.Proofs.Cursor
import Reckoner.Proofs.CursorSafety
import Reckoner.Proofs.Threshold
import Reckoner.Proofs.Printing
import Reckoner.Proofs.Visits
import Reckoner.Proofs.Scanning
import Reckoner.Proofs.Escapes
import Reckoner.Proofs.Strings
import Reckoner.Proofs.Comments
import Reckoner.Proofs.Rounding
import Reckoner.Proofs.NumberTokens
import Reckoner.Proofs.FloatEquality
import Reckoner.Proofs.SameShape
import Reckoner.Proofs.Conversions
import Reckoner.Proofs.BitTrees
