import DeskCalc.Grammar
import DeskCalc.Panel.Act
import DeskCalc.Panel.Drawing
import DeskCalc.Proofs.Yard
import DeskCalc.Proofs.Alternation
import DeskCalc.Proofs.Finite
import DeskCalc.Proofs.Stack
import DeskCalc.Proofs.Below
import DeskCalc.Proofs.Lexeme
import DeskCalc.Proofs.Pipeline
import DeskCalc.Proofs.Acceptance
import DeskCalc.Proofs.Numeral
import DeskCalc.Proofs.Surface
import DeskCalc.Proofs.OneStack
import DeskCalc.Proofs.Spacing
import DeskCalc.Proofs.Layout
import DeskCalc.Proofs.Evaluation
import DeskCalc.Proofs.Overflow
import DeskCalc.Proofs.Rounding
import DeskCalc.Proofs.Shortest
import DeskCalc.Proofs.Word
import DeskCalc.Proofs.Spelling
import DeskCalc.Proofs.Result
import DeskCalc.Proofs.Context
import DeskCalc.Proofs.Display
import DeskCalc.Proofs.Drawing
import DeskCalc.Proofs.Stage
import DeskCalc.Proofs.History
import DeskCalc.Proofs.Replay
import DeskCalc.Proofs.Blanks
import DeskCalc.Proofs.Focus
import DeskCalc.Proofs.Keying
import DeskCalc.Proofs.Erasing
import DeskCalc.Proofs.Respacing
import DeskCalc.Proofs.Precedence
import DeskCalc.Proofs.Exact
import DeskCalc.Proofs.Value
import DeskCalc.Proofs.Integer
import DeskCalc.Proofs.Postorder
import DeskCalc.Proofs.FirstFault
import DeskCalc.Proofs.Munch
import DeskCalc.Proofs.Seam
import DeskCalc.Proofs.Cursor
import DeskCalc.Proofs.Interval
import DeskCalc.Proofs.Nearest
import DeskCalc.Proofs.Fewest
import DeskCalc.Proofs.Denotation
import DeskCalc.Proofs.Written
import DeskCalc.Proofs.LiteralEntry
import DeskCalc.Proofs.Agreement
