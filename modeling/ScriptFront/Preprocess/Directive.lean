import ScriptFront.Text.Class
import ScriptFront.Text.Comment

/-! Directive lines: those whose first character past spaces and tabs is `#`. -/
namespace ScriptFront

inductive Directive
  | if_ (condition : List Char)
  | else_
  | endif
  | define (body : List Char)
  | includeFile
  | unknown (name : String)
  deriving DecidableEq, Repr

namespace Directive

/-- The line from its `#` on, if it is a directive line. -/
def start? (line : Line) : Option (List Char) :=
  match line.dropWhile Text.isIndent with
  | '#' :: s => some ('#' :: s)
  | _ => none

/-- The directive of a text without comments that begins with `#`. -/
def ofStatement (s : List Char) : Directive :=
  let body := (s.drop 1).dropWhile Text.isIndent
  let rest := Text.trim (body.dropWhile CharClass.isIdentifier)
  match String.ofList (body.takeWhile CharClass.isIdentifier) with
  | "if" => if_ rest
  | "else" => else_
  | "endif" => endif
  | "define" => define rest
  | "include" => includeFile
  | name => unknown name

/-- The name and the value that a definition gives, both as they are written. The name begins with
no digit. -/
def definition? (body : List Char) : Option (String × List Char) :=
  match body.takeWhile CharClass.isIdentifier with
  | [] => none
  | c :: name =>
    if CharClass.isDigit c then none
    else some (String.ofList (c :: name), Text.trim (body.dropWhile CharClass.isIdentifier))

end Directive
end ScriptFront
