import PhpAssist.Expr.Class
import PhpAssist.Parse

/-!
# Why an assist fails

An assist that cannot be carried out says why. The causes are grouped by what is at fault: the
code around the cursor, a literal in it, the conversion into a format, or the code that was
produced.

## Main definitions

* `Conditional`: Places whose code may not run, or may run more than once.
* `Mismatch`, `Malformed`, `ConversionFailure`: The causes.
* `AssistError`: A cause with what is at fault.
* `AssistError.message`: What is said about it.
-/

namespace PhpAssist

/-- A text in backquotes, for a message. -/
def Text.quoted (text : Text) : String := "`" ++ String.ofList text ++ "`"

/-- Places in a statement whose code may not run exactly once. -/
inductive Conditional where
  | ternaryBranch
  | shortCircuitOperand
  | coalesceOperand
  | elseifClause
  | elseClause
  | loop
  | bracelessBody
  | parameterDefault
  deriving DecidableEq

/-- A position as it is named in a message. -/
def Conditional.describe : Conditional → String
  | .ternaryBranch => "a ternary branch"
  | .shortCircuitOperand => "a short-circuit operand"
  | .coalesceOperand => "a `??=` operand"
  | .elseifClause => "an `elseif` clause"
  | .elseClause => "an `else` clause"
  | .loop => "a loop"
  | .bracelessBody => "a braceless body"
  | .parameterDefault => "a parameter default"

/-- The code around the cursor does not have the shape that an assist asks for. -/
inductive Mismatch where
  | missingBranch
  | ternaryOutsideStatement
  | notAssigned
  | incompleteAssignment
  | targetHasEffects
  | conditionalAssignment
  | chainOutsideStatement
  | notInterpolatable (kind : ExprClass)
  | hoistOutOf (place : Conditional)
  | overlappingEdits
  deriving DecidableEq

/-- What is said about code that does not have the form that an assist needs. -/
def Mismatch.message : Mismatch → String
  | .missingBranch => "ternary is missing a branch"
  | .ternaryOutsideStatement => "ternary is not inside a statement"
  | .notAssigned => "ternary is not the right-hand side of an assignment statement"
  | .incompleteAssignment => "assignment is incomplete"
  | .targetHasEffects => "assignment target would be evaluated after the condition"
  | .conditionalAssignment => "`??=` evaluates the ternary conditionally"
  | .chainOutsideStatement => "concatenation is not inside a statement"
  | .notInterpolatable kind => kind.label ++ " operand cannot be interpolated"
  | .hoistOutOf place => "cannot hoist out of " ++ place.describe
  | .overlappingEdits => "edits overlap"

/-- The word that closes the heredocs that an assist writes. -/
def heredocDelimiter : Text := "HEREDOC_DELIMITER".toList

/-- A literal, or what is to become one, is not well formed. -/
inductive Malformed where
  | literal (text : Text)
  | unmatchedQuotes (text : Text)
  | closesHeredoc
  deriving DecidableEq

/-- What is said about a literal that cannot be read, and about a content that cannot be wrapped. -/
def Malformed.message : Malformed → String
  | .literal text => "malformed string literal " ++ text.quoted
  | .unmatchedQuotes text => text.quoted ++ " is not enclosed in matching quotes"
  | .closesHeredoc => "content has a line starting with " ++ heredocDelimiter.quoted

/-- A concatenation could not be turned into a format with operands. -/
inductive ConversionFailure where
  | notAFormatCall (text : Text)
  | placeholderCount (placeholders operands : Nat)
  | tooFewOperands
  | tooManyOperands
  | unsupportedSpecifier (specifier : Text)
  | refused (reason : String)
  deriving DecidableEq

/-- What is said when a chain cannot be made a format, or a format cannot be filled in. -/
def ConversionFailure.message : ConversionFailure → String
  | .notAFormatCall text => text.quoted ++ " is not a call with a format string"
  | .placeholderCount placeholders operands =>
    toString placeholders ++ " placeholders for " ++ toString operands ++ " operands"
  | .tooFewOperands => "more placeholders than operands"
  | .tooManyOperands => "more operands than placeholders"
  | .unsupportedSpecifier specifier => "unsupported format specifier " ++ specifier.quoted
  | .refused reason => reason

/-- Why an assist fails. -/
inductive AssistError where
  | notApplicable
  | mismatch (cause : Mismatch)
  | malformed (cause : Malformed)
  | noResolution (kind : ExprClass)
  | conversion (cause : ConversionFailure)
  | invalidCode (diagnostics : List Diagnostic)
  deriving DecidableEq

/-- What is said about an assist that failed. -/
def AssistError.message : AssistError → String
  | .notApplicable => "assist is not applicable here"
  | .mismatch cause => cause.message
  | .malformed cause => cause.message
  | .noResolution kind => "no resolution for " ++ kind.label ++ " operands"
  | .conversion cause => "format conversion failed: " ++ cause.message
  | .invalidCode diagnostics =>
    "rewrite produced invalid code: " ++ Parse.fragmentMessage diagnostics

/-- Reads generated code, which has to be free of errors. -/
def parseGenerated (text : Text) : Except AssistError Parse :=
  (Parse.fragment text).mapError .invalidCode

end PhpAssist
