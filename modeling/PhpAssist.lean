import PhpAssist.Assist
import PhpAssist.Assist.Concat
import PhpAssist.Assist.Context
import PhpAssist.Assist.Error
import PhpAssist.Assist.Names
import PhpAssist.Assist.Operands
import PhpAssist.Assist.Ternary
import PhpAssist.Bisect
import PhpAssist.Cli
import PhpAssist.Cli.Arguments
import PhpAssist.Diagnostic
import PhpAssist.Edit
import PhpAssist.Expr.Chain
import PhpAssist.Expr.Class
import PhpAssist.Format.Call
import PhpAssist.Format.Specifier
import PhpAssist.Grammar.Expr
import PhpAssist.Grammar.Param
import PhpAssist.Grammar.Repeat
import PhpAssist.Grammar.State
import PhpAssist.Grammar.Stmt
import PhpAssist.Kind
import PhpAssist.Kind.Set
import PhpAssist.Literal.Content
import PhpAssist.Literal.Escape
import PhpAssist.Literal.Join
import PhpAssist.Main
import PhpAssist.Parse
import PhpAssist.Proofs.Accounting
import PhpAssist.Proofs.Arrangements
import PhpAssist.Proofs.Atoms
import PhpAssist.Proofs.Bodies
import PhpAssist.Proofs.BracketOrder
import PhpAssist.Proofs.Bytes
import PhpAssist.Proofs.Calls
import PhpAssist.Proofs.ChainFormats
import PhpAssist.Proofs.Choice
import PhpAssist.Proofs.CleanRewrites
import PhpAssist.Proofs.CleanTexts
import PhpAssist.Proofs.CodeSegments
import PhpAssist.Proofs.Completeness
import PhpAssist.Proofs.ConcatPlan
import PhpAssist.Proofs.Delimiters
import PhpAssist.Proofs.Derivation
import PhpAssist.Proofs.DocBodies
import PhpAssist.Proofs.Drafts
import PhpAssist.Proofs.Edits
import PhpAssist.Proofs.Evaluation
import PhpAssist.Proofs.Excerpts
import PhpAssist.Proofs.Following
import PhpAssist.Proofs.FormatCalls
import PhpAssist.Proofs.FormatOperands
import PhpAssist.Proofs.Formats
import PhpAssist.Proofs.ForwardLinks
import PhpAssist.Proofs.Frames
import PhpAssist.Proofs.FreshNames
import PhpAssist.Proofs.Grammatical
import PhpAssist.Proofs.HeredocContent
import PhpAssist.Proofs.HeredocEnds
import PhpAssist.Proofs.HeredocQuotes
import PhpAssist.Proofs.HeredocSeams
import PhpAssist.Proofs.Histories
import PhpAssist.Proofs.HistoryLogs
import PhpAssist.Proofs.HistoryTrees
import PhpAssist.Proofs.HoistOrder
import PhpAssist.Proofs.HoistPlaces
import PhpAssist.Proofs.HoistStatements
import PhpAssist.Proofs.Hoists
import PhpAssist.Proofs.KeptStatements
import PhpAssist.Proofs.Leaves
import PhpAssist.Proofs.Lexes
import PhpAssist.Proofs.LineComments
import PhpAssist.Proofs.Literals
import PhpAssist.Proofs.Lossless
import PhpAssist.Proofs.NameSeries
import PhpAssist.Proofs.NamedParts
import PhpAssist.Proofs.NewNames
import PhpAssist.Proofs.NodeNumbers
import PhpAssist.Proofs.NodeTexts
import PhpAssist.Proofs.OfferedTargets
import PhpAssist.Proofs.OpenQuotes
import PhpAssist.Proofs.OperandOutcomes
import PhpAssist.Proofs.Pace
import PhpAssist.Proofs.Parts
import PhpAssist.Proofs.Placeholders
import PhpAssist.Proofs.Places
import PhpAssist.Proofs.Precedence
import PhpAssist.Proofs.Productions
import PhpAssist.Proofs.Progress
import PhpAssist.Proofs.QuietExpressions
import PhpAssist.Proofs.Reading
import PhpAssist.Proofs.Regroupings
import PhpAssist.Proofs.Replacing
import PhpAssist.Proofs.Replay
import PhpAssist.Proofs.Reread
import PhpAssist.Proofs.Resolutions
import PhpAssist.Proofs.RunOrder
import PhpAssist.Proofs.Seams
import PhpAssist.Proofs.Sessions
import PhpAssist.Proofs.Settled
import PhpAssist.Proofs.Shape
import PhpAssist.Proofs.Silence
import PhpAssist.Proofs.SingleStatements
import PhpAssist.Proofs.SingleTokens
import PhpAssist.Proofs.Sketches
import PhpAssist.Proofs.Soundness
import PhpAssist.Proofs.Specifiers
import PhpAssist.Proofs.Splicing
import PhpAssist.Proofs.SplitDeclarations
import PhpAssist.Proofs.Stalls
import PhpAssist.Proofs.Standalone
import PhpAssist.Proofs.StmtCompleteness
import PhpAssist.Proofs.StmtSoundness
import PhpAssist.Proofs.Stretches
import PhpAssist.Proofs.TableTrees
import PhpAssist.Proofs.Tables
import PhpAssist.Proofs.TargetReads
import PhpAssist.Proofs.TernaryParts
import PhpAssist.Proofs.TernaryRewrite
import PhpAssist.Proofs.TextEnds
import PhpAssist.Proofs.Tiling
import PhpAssist.Proofs.TokenEnds
import PhpAssist.Proofs.TokenRow
import PhpAssist.Proofs.Tokens
import PhpAssist.Proofs.TokensAt
import PhpAssist.Proofs.Walks
import PhpAssist.Proofs.WholeOperands
import PhpAssist.Proofs.WordSeams
import PhpAssist.Report.Json
import PhpAssist.Report.Row
import PhpAssist.Report.Snippet
import PhpAssist.Report.Window
import PhpAssist.Session
import PhpAssist.StableSort
import PhpAssist.Text
import PhpAssist.Text.Column
import PhpAssist.Text.Position
import PhpAssist.Text.Printable
import PhpAssist.Token
import PhpAssist.Token.Cut
import PhpAssist.Token.Heredoc
import PhpAssist.Token.Lexer
import PhpAssist.Token.Number
import PhpAssist.Token.Quoted
import PhpAssist.Token.Trivia
import PhpAssist.Tree
import PhpAssist.Tree.AtOffset
import PhpAssist.Tree.Builder
import PhpAssist.Tree.Forest
import PhpAssist.Tree.Log
import PhpAssist.Tree.Node
import PhpAssist.Tree.Outline
import PhpAssist.Tree.Table
import PhpAssist.Tree.View
import PhpAssist.Tree.Walk
