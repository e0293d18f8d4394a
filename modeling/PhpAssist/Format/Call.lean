import PhpAssist.Expr.Chain
import PhpAssist.Format.Specifier
import PhpAssist.Literal.Content

/-!
# Format calls

Between a concatenation and a heredoc stands a format call: a call whose first argument is a
format and whose other arguments are its operands. How a concatenation becomes one is up to a
converter. The usual converter folds all literals into one format and passes everything else as
an operand.

## Main definitions

* `FormatCall`: A format call, detached from any file.
* `FormatCall.parse`: Reads a format call.
* `Converter`: How a concatenation becomes a format call.
* `Converter.sprintf`: The usual converter.
-/

namespace PhpAssist

/-- A call with a format, read from a text of its own. `format` is the literal with its
    quotes. -/
structure FormatCall where
  call : Node
  format : Text
  operands : List Tree

namespace FormatCall

/-- The call that is the first statement under a root. -/
def call? (root : Node) : Option Node := do
  let stmt ← root.first?.bind (Node.cast? .exprStmt)
  stmt.first?.bind (Node.cast? .callExpr)

/-- What is called. -/
def callee? (call : FormatCall) : Option Node := call.call.first?

/-- Reads a statement that is a call whose first argument is a string literal. -/
def parse (text : Text) : Except AssistError FormatCall := do
  let parse ← parseGenerated text
  let refusal := AssistError.conversion (.notAFormatCall text)
  match call? parse.root with
  | none => throw refusal
  | some call =>
    match (call.argList?.map fun args => args.tree.childNodes).getD [] with
    | [] => throw refusal
    | format :: operands =>
      if format.kind = .stringLiteral then return ⟨call, format.trimmed, operands⟩
      else throw refusal

end FormatCall

/-- How a concatenation becomes a format call, and to which concatenations that applies. -/
structure Converter where
  isApplicable : Tree → Bool
  convert : Tree → Except AssistError FormatCall

namespace Converter

/-- A format and the operands behind it, as far as they are put together. -/
structure Draft where
  format : Text
  operands : Text

/-- Adds an operand of a concatenation: a literal to the format, anything else behind it. -/
def Draft.add (draft : Draft) (operand : Tree) : Except AssistError Draft :=
  if operand.kind = .stringLiteral then do
    let content ← Literal.doubleContent operand
    return { draft with format := Join.push draft.format (Format.escapePercent content) }
  else
    .ok ⟨draft.format ++ ['%', 's'], draft.operands ++ [',', ' '] ++ operand.trimmed⟩

/-- The call that a draft stands for. -/
def Draft.render (draft : Draft) : Text :=
  "sprintf(\"".toList ++ draft.format ++ ['"'] ++ draft.operands ++ [')', ';']

/-- Folds literals into one format in double quotes and passes the other operands behind it. It
    applies where there is something to pass. -/
def sprintf : Converter where
  isApplicable concat := concat.operands.any fun operand => operand.kind != .stringLiteral
  convert concat := do
    let draft ← concat.operands.foldlM Draft.add ⟨[], []⟩
    FormatCall.parse draft.render

end Converter

end PhpAssist
