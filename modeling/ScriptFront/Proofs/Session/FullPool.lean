import ScriptFront.Proofs.Comment.Gap
import ScriptFront.Proofs.Session.KeptTokens

/-! A pool that a script has filled. The tokens of the line that did not fit are never given up, so
after a line with more tokens than a pool has places for, no script with a token is loaded. -/
namespace ScriptFront

open Pool (maxLive)

variable {hash : NameHash}

namespace Script

/-- A script of one line of code, in which there is nothing to follow and nothing to erase. -/
structure IsPlain (tree : FileTree) (path : Path) (line : Line) : Prop where
  text : ∃ place text, tree.locate path = .ok place ∧ tree.readText place = .ok text ∧
    Text.lines text.toList = [line]
  isCode : FilePass.IsCode line
  erased : (Text.Comment.erase line).text = line
  no_include : Include.ofLine? line = none

variable {tree : FileTree} {path : Path} {line : Line}

theorem IsPlain.processLine (h : IsPlain tree path line) (symbols : Symbols hash) :
    FilePass.start.processLine symbols 0 line = (line, .start, symbols) := by
  rw [FilePass.processLine_of_isCode rfl h.isCode, h.erased]
  rfl

theorem IsPlain.evaluated? (h : IsPlain tree path line) :
    FilePass.start.evaluated? line = none := by
  simp only [FilePass.evaluated?, FilePass.start, h.isCode.1, Option.bind_none]

/-- The line is the text, and no expression is evaluated. -/
theorem IsPlain.read (h : IsPlain tree path line) (symbols : Symbols hash) (limit : Nat) :
    let s : Script hash := .start symbols limit
    (s.read tree path).symbols = symbols ∧ (s.read tree path).lines = #[line] ∧
      (stepsOfScript tree path s).flatMap ReadStep.offered = [] := by
  obtain ⟨place, text, hplace, htext, hlines⟩ := h.text
  intro s
  rw [Script.read, stepsOfScript, show maxIncludeDepth = 49 + 1 from rfl, load, steps]
  simp only [hplace, htext, hlines, readFile, readLines, stepsOfLines]
  rw [(readLine_of_text _ (fun _ _ _ => []) _ (h.processLine _) h.no_include).1,
    (readLine_of_text (fun _ _ => id) _ _ (h.processLine _) h.no_include).2]
  refine ⟨rfl, rfl, ?_⟩
  show (FilePass.start.evaluated? line).toList.flatMap textsOf ++ [] = []
  rw [h.evaluated?]
  rfl

end Script

namespace TokenLines

end TokenLines

open TokenLines (fitting)

namespace Session

variable {s : Session hash} {m : Multiset Handle} {lines : List (List Token)} {tree : FileTree}
  {path : Path} {line : Line}

end Session
end ScriptFront
