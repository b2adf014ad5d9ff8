import KernelTyping.Expr.Traversal
import KernelTyping.Double.Text

/-!
# KernelTyping.Expr.Text — how expressions are written

Operators are written between their operands, always in parentheses; a literal with a size tag
looks like a conversion to that type; the name of a call that is not yet an entry of the table ends
in a question mark.  `Expr.render` lays out one node over the texts of its children.
-/

namespace KernelTyping

/-- Doubles from a ten-thousandth up to ten to the sixteenth are written positionally. -/
def Constant.layout : Layout := ⟨-3, 16, "NaN", "inf"⟩

/-- The number, without a sign if it is not negative. -/
def Constant.plain (x : Double) : String := layout.write "" x

/-- The number with its sign. -/
def Constant.signed (x : Double) : String := layout.write "+" x

def Constant.text : Constant → String
  | .int value none => toString value
  | .int value (some s) => s!"{s}({value})"
  | .float value none => plain value
  | .float value (some s) => s!"{s}({plain value})"
  | .complex re im none => s!"({plain re}{signed im}j)"
  | .complex re im (some s) => s!"{s}({plain re}{signed im}j)"

instance : ToString Constant := ⟨Constant.text⟩

def HardwareIndex.text : HardwareIndex → String
  | .group axis => s!"gid({axis})"
  | .inGroup axis => s!"lid({axis})"

def CompareOp.symbol : CompareOp → String
  | .eq => "=="
  | .ne => "!="
  | .lt => "<"
  | .le => "<="
  | .gt => ">"
  | .ge => ">="

def BinaryOp.symbol : BinaryOp → String
  | .quotient => "/"
  | .floorDiv => "//"
  | .remainder => "%"
  | .power => "**"
  | .shiftLeft => "<<"
  | .shiftRight => ">>"
  | .compare op => op.symbol

/-- Comma-separated texts. -/
def commaList (texts : List String) : String := ", ".intercalate texts

/-- Comma-separated texts in parentheses. -/
def tupled (texts : List String) : String := s!"({commaList texts})"

/-- A name applied to texts. -/
def applied (name : String) (texts : List String) : String := name ++ tupled texts

/-- Texts in parentheses with a symbol between them. -/
def joined (symbol : String) (texts : List String) : String :=
  "(" ++ s!" {symbol} ".intercalate texts ++ ")"

/-- An n-ary operation over the texts of its operands. -/
def NaryOp.render : NaryOp → List String → String
  | .sum => joined "+"
  | .product => joined "*"
  | .bitAnd => joined "&"
  | .bitOr => joined "|"
  | .bitXor => joined "^"
  | .and => joined "&&"
  | .or => joined "||"
  | .min => applied "min"
  | .max => applied "max"

def Callee.text : Callee → String
  | .entry name => name
  | .bare name => s!"{name}?"

/-- A reduction over the text of what it folds. -/
def ReductionOp.render (op : ReductionOp) (inames : List String) (body : String) : String :=
  s!"{op}([{commaList inames}], {body})"

namespace Expr

/-- The text of one node over the texts of its children, in their order. -/
def render : Expr → List String → String
  | constant c, _ => c.text
  | var name, _ => name
  | hardware index, _ => index.text
  | nary op _, ts => op.render ts
  | binary op _ _, ts => joined op.symbol ts
  | not _, ts => s!"!{commaList ts}"
  | ite _ _ _, ts => applied "if" ts
  | subscript _ _, ts => s!"{commaList (ts.take 1)}[{commaList (ts.drop 1)}]"
  | linearSubscript _ _, ts => s!"{commaList (ts.take 1)}[[{commaList (ts.drop 1)}]]"
  | lookup _ field, ts => s!"{commaList ts}.{field}"
  | cast type _, ts => applied type.text ts
  | call callee args keywords, ts =>
    let named := (keywords.map (·.1)).zipWith (fun k t => s!"{k}={t}") (ts.drop args.length)
    applied callee.text (ts.take args.length ++ named)
  | reduction op inames _, ts => op.render inames (commaList ts)
  | tupleReduction op inames _, ts => op.render inames (tupled ts)
  | view inames _, ts => s!"[{commaList inames}]: {commaList ts}"

/-- The text of an expression. -/
def text (e : Expr) : String :=
  e.render (e.children.attach.map fun ⟨c, _⟩ => text c)
termination_by e.size
decreasing_by exact size_lt_of_mem_children ‹_›

theorem text_eq (e : Expr) : e.text = e.render (e.children.map text) := by
  rw [text]
  simp

instance : ToString Expr := ⟨text⟩

end Expr

end KernelTyping
