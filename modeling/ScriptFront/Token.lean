import ScriptFront.Number.Literal
import ScriptFront.Number.Shortest
import ScriptFront.Operator
import ScriptFront.Text.Literal
import ScriptFront.Types.Id

/-! Tokens: what a source line is split into, and how they are written. -/
namespace ScriptFront

inductive Keyword
  | blockBegin | blockEnd
  | function | global | constant | define | declare
  | return_ | call | jump | break_ | continue_
  | if_ | else_ | while_ | for_ | addressOf
  deriving DecidableEq, Repr

namespace Keyword

def all : List Keyword :=
  [blockBegin, blockEnd, function, global, constant, define, declare, return_, call, jump,
   break_, continue_, if_, else_, while_, for_, addressOf]

def spelling : Keyword → String
  | blockBegin => "\x7b"
  | blockEnd => "\x7d"
  | function => "function"
  | global => "global"
  | constant => "constant"
  | define => "define"
  | declare => "declare"
  | return_ => "return"
  | call => "call"
  | jump => "jump"
  | break_ => "break"
  | continue_ => "continue"
  | if_ => "if"
  | else_ => "else"
  | while_ => "while"
  | for_ => "for"
  | addressOf => "addressof"

def ofWord? : String → Option Keyword
  | "function" => some function
  | "global" => some global
  | "constant" => some constant
  | "define" => some define
  | "declare" => some declare
  | "return" => some return_
  | "call" => some call
  | "jump" => some jump
  | "break" => some break_
  | "continue" => some continue_
  | "if" => some if_
  | "else" => some else_
  | "while" => some while_
  | "for" => some for_
  | "addressof" => some addressOf
  | _ => none

end Keyword

/-- Words that may not be names, because they are kept for later use. -/
def reservedWords : List String :=
  ["local", "auto", "switch", "case", "select", "choose", "do", "const", "fixed", "static",
   "virtual", "override", "enum", "struct", "class", "foreach", "in", "out", "ref", "typeof"]

inductive Token
  | keyword (word : Keyword)
  | typeName (id : TypeId)
  | operator (op : Operator)
  /-- The name of a label without its `@`. -/
  | label (name : String)
  /-- The text of a `//#` comment. -/
  | pragma (text : String)
  | constant (value : Number)
  | stringLiteral (text : String)
  | identifier (name : String)
  deriving DecidableEq, Repr

inductive TokenKind
  | keyword | typeName | operator | label | pragma | constant | stringLiteral | identifier
  deriving DecidableEq, Repr

def TokenKind.name : TokenKind → String
  | keyword => "Keyword"
  | typeName => "VarType"
  | operator => "Operator"
  | label => "Label"
  | pragma => "Pragma"
  | constant => "Constant"
  | stringLiteral => "StringLiteral"
  | identifier => "Identifier"

/-- A number as it can be read back, up to the digits of a floating literal. -/
def Number.display : Number → String
  | integer value => toString value.toNat
  | float bits => BinaryFormat.single.text bits.toNat ++ "f"
  | double bits => BinaryFormat.double.text bits.toNat

/-- A token was asked for the value of another kind. -/
structure WrongKind where
  expected : TokenKind
  found : TokenKind
  deriving DecidableEq, Repr

def WrongKind.message (e : WrongKind) : String :=
  s!"wrong token variant: expected {e.expected.name}, found {e.found.name}"

namespace Token

def kind : Token → TokenKind
  | keyword _ => .keyword
  | typeName _ => .typeName
  | operator _ => .operator
  | label _ => .label
  | pragma _ => .pragma
  | constant _ => .constant
  | stringLiteral _ => .stringLiteral
  | identifier _ => .identifier

def display : Token → String
  | keyword word => word.spelling
  | typeName id => id.display
  | operator op => op.spelling
  | label name => "@" ++ name
  | pragma text => "//# " ++ text
  | constant value => value.display
  | stringLiteral text => quoted text
  | identifier name => name

/-- Tokens as one line of text, with a blank between any two. -/
def displayLine (tokens : List Token) : String := " ".intercalate (tokens.map display)

def asKeyword : Token → Except WrongKind Keyword
  | keyword word => .ok word
  | t => .error ⟨.keyword, t.kind⟩

def asTypeName : Token → Except WrongKind TypeId
  | typeName id => .ok id
  | t => .error ⟨.typeName, t.kind⟩

def asOperator : Token → Except WrongKind Operator
  | operator op => .ok op
  | t => .error ⟨.operator, t.kind⟩

def asLabel : Token → Except WrongKind String
  | label name => .ok name
  | t => .error ⟨.label, t.kind⟩

def asPragma : Token → Except WrongKind String
  | pragma text => .ok text
  | t => .error ⟨.pragma, t.kind⟩

def asConstant : Token → Except WrongKind Number
  | constant value => .ok value
  | t => .error ⟨.constant, t.kind⟩

def asStringLiteral : Token → Except WrongKind String
  | stringLiteral text => .ok text
  | t => .error ⟨.stringLiteral, t.kind⟩

def asIdentifier : Token → Except WrongKind String
  | identifier name => .ok name
  | t => .error ⟨.identifier, t.kind⟩

def isKeyword (word : Keyword) (t : Token) : Bool := t == keyword word

def isOperator (op : Operator) (t : Token) : Bool := t == operator op

end Token
end ScriptFront
