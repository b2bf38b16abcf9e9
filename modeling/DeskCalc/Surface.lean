import DeskCalc.Fault
import DeskCalc.Text.Trim

/-!
# DeskCalc.Surface — what is refused before an entry is cut into tokens

* The check sees the entry without the blanks at its ends: its two end characters, the number of its parentheses,
  and a few patterns that no expression contains.
* It does not look at nesting nor at foreign characters.
* The first of `looks` that finds a fault decides.
-/

namespace DeskCalc.Surface

/-- Nothing is left of the entry. -/
def emptyFault? (cs : List Char) : Option Fault := if cs = [] then some .emptyEntry else none

/-- The entry starts with an operator other than `-`. -/
def leadingFault? (cs : List Char) : Option Fault :=
  match cs.head?.bind Operator.ofChar? with
  | none | some .sub => none
  | some o => some (.leadingOperator o)

/-- The entry ends with an operator. -/
def trailingFault? (cs : List Char) : Option Fault :=
  (cs.getLast?.bind Operator.ofChar?).map .trailingOperator

/-- The number of parentheses of both sorts. -/
def parenCount (cs : List Char) : Nat := cs.countP fun c => c == '(' || c == ')'

/-- The number of parentheses is odd. -/
def parenFault? (cs : List Char) : Option Fault :=
  if parenCount cs % 2 = 0 then none else some (.oddParens (parenCount cs))

/-- The patterns that no expression contains, in the order in which they are looked for. -/
def barredPatterns : List String := [",", "++", "--", "**", "//", ".."]

/-- Whether a pattern occurs in a text. -/
def occurs (pattern : List Char) : List Char → Bool
  | [] => pattern.isEmpty
  | c :: cs => pattern.isPrefixOf (c :: cs) || occurs pattern cs

/-- The entry contains a barred pattern. -/
def patternFault? (cs : List Char) : Option Fault :=
  (barredPatterns.find? fun p => occurs p.toList cs).map .barredPattern

/-- What is looked for, in order. -/
def looks : List (List Char → Option Fault) :=
  [emptyFault?, leadingFault?, trailingFault?, parenFault?, patternFault?]

/-- The check of an entry. -/
def check (s : String) : Except Fault Unit :=
  match looks.findSome? fun look => look (Text.trim s.toList) with
  | some f => .error f
  | none => .ok ()

/-- Whether an entry passes the check. -/
def passes (s : String) : Bool := (check s).isOk

/-- A pattern occurs in a text if it is a contiguous part of it. -/
theorem occurs_iff {pattern cs : List Char} : occurs pattern cs = true ↔ pattern <:+: cs := by
  induction cs with
  | nil => simp [occurs]
  | cons c cs ih => simp [occurs, List.infix_cons_iff, ih]

end DeskCalc.Surface
