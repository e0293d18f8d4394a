/-!
# Kinds

The kind of every piece of a tree: tokens, trivia and nodes share one enumeration, because a
tree is built by steps that name a kind before anything is known about what it will hold.

The order of the enumeration is part of the format: a kind is reported by its number and its
members are listed in this order.

## Main definitions

* `Kind`: The enumeration.
* `Kind.all`: Every kind, in order.
* `Kind.label`: The name under which a kind is reported.
* `Kind.isTrivia`, `Kind.isString`, `Kind.isKeyword`, `Kind.isStatement`, `Kind.isExpr`: The
  classes the parser and the assists ask about.
* `Kind.ofKeyword?`: The kind of a reserved word.
* `Kind.describe`: How messages name a missing token.
-/

namespace PhpAssist

/-- The kind of a token, of a piece of trivia or of a node. -/
inductive Kind where
  -- Punctuation and operators. `operator` covers every operator that is not an assignment;
  -- its spelling decides what it means.
  | leftParen | rightParen | leftBracket | rightBracket | leftBrace | rightBrace | semicolon
  | comma | question | colon | doubleColon | arrow | fatArrow | dot | equals | assignOp
  | operator
  -- Names, variables and literals.
  | openTag | variableName | name | intNumber | floatNumber | singleQuotedString
  | doubleQuotedString | heredocString | nowdocString
  -- Keywords.
  | ifKw | elseKw | elseifKw | whileKw | doKw | forKw | foreachKw | asKw | functionKw | returnKw
  | echoKw | newKw | breakKw | continueKw
  -- Trivia: text that never changes how the rest is read.
  | whitespace | newline | lineComment | blockComment
  -- A character that starts no token, and the end of the text.
  | unknown | endOfFile
  -- Files, statements and their parts.
  | sourceFile | block | exprStmt | echoStmt | returnStmt | ifStmt | elseifClause | elseClause
  | whileStmt | doWhileStmt | forStmt | foreachStmt | functionDef | paramList | param | typeRef
  | breakStmt | continueStmt | emptyStmt
  -- Expressions and their parts.
  | literal | stringLiteral | variable | nameRef | callExpr | argList | memberExpr | staticExpr
  | indexExpr | assignExpr | ternaryExpr | concatExpr | binaryExpr | prefixExpr | postfixExpr
  | parenExpr | arrayExpr | arrayItem | newExpr
  -- Text that fits nowhere, and a placeholder that no parse contains.
  | error | tombstone
  deriving DecidableEq, Inhabited

namespace Kind

/-- Every kind, in the order of the enumeration. -/
def all : List Kind :=
  [.leftParen, .rightParen, .leftBracket, .rightBracket, .leftBrace, .rightBrace, .semicolon,
   .comma, .question, .colon, .doubleColon, .arrow, .fatArrow, .dot, .equals, .assignOp,
   .operator, .openTag, .variableName, .name, .intNumber, .floatNumber, .singleQuotedString,
   .doubleQuotedString, .heredocString, .nowdocString, .ifKw, .elseKw, .elseifKw, .whileKw,
   .doKw, .forKw, .foreachKw, .asKw, .functionKw, .returnKw, .echoKw, .newKw, .breakKw,
   .continueKw, .whitespace, .newline, .lineComment, .blockComment, .unknown, .endOfFile,
   .sourceFile, .block, .exprStmt, .echoStmt, .returnStmt, .ifStmt, .elseifClause, .elseClause,
   .whileStmt, .doWhileStmt, .forStmt, .foreachStmt, .functionDef, .paramList, .param, .typeRef,
   .breakStmt, .continueStmt, .emptyStmt, .literal, .stringLiteral, .variable, .nameRef,
   .callExpr, .argList, .memberExpr, .staticExpr, .indexExpr, .assignExpr, .ternaryExpr,
   .concatExpr, .binaryExpr, .prefixExpr, .postfixExpr, .parenExpr, .arrayExpr, .arrayItem,
   .newExpr, .error, .tombstone]

/-- The position of a kind in the enumeration. -/
def number (kind : Kind) : Nat := kind.ctorIdx

/-- The name under which a kind is reported. -/
def label : Kind → String
  | .leftParen => "LEFT_PAREN"
  | .rightParen => "RIGHT_PAREN"
  | .leftBracket => "LEFT_BRACKET"
  | .rightBracket => "RIGHT_BRACKET"
  | .leftBrace => "LEFT_BRACE"
  | .rightBrace => "RIGHT_BRACE"
  | .semicolon => "SEMICOLON"
  | .comma => "COMMA"
  | .question => "QUESTION"
  | .colon => "COLON"
  | .doubleColon => "DOUBLE_COLON"
  | .arrow => "ARROW"
  | .fatArrow => "FAT_ARROW"
  | .dot => "DOT"
  | .equals => "EQ"
  | .assignOp => "ASSIGN_OP"
  | .operator => "OPERATOR"
  | .openTag => "OPEN_TAG"
  | .variableName => "VARIABLE_NAME"
  | .name => "NAME"
  | .intNumber => "INT_NUMBER"
  | .floatNumber => "FLOAT_NUMBER"
  | .singleQuotedString => "SINGLE_QUOTED_STRING"
  | .doubleQuotedString => "DOUBLE_QUOTED_STRING"
  | .heredocString => "HEREDOC_STRING"
  | .nowdocString => "NOWDOC_STRING"
  | .ifKw => "IF_KW"
  | .elseKw => "ELSE_KW"
  | .elseifKw => "ELSEIF_KW"
  | .whileKw => "WHILE_KW"
  | .doKw => "DO_KW"
  | .forKw => "FOR_KW"
  | .foreachKw => "FOREACH_KW"
  | .asKw => "AS_KW"
  | .functionKw => "FUNCTION_KW"
  | .returnKw => "RETURN_KW"
  | .echoKw => "ECHO_KW"
  | .newKw => "NEW_KW"
  | .breakKw => "BREAK_KW"
  | .continueKw => "CONTINUE_KW"
  | .whitespace => "WHITESPACE"
  | .newline => "NEWLINE"
  | .lineComment => "LINE_COMMENT"
  | .blockComment => "BLOCK_COMMENT"
  | .unknown => "UNKNOWN"
  | .endOfFile => "EOF"
  | .sourceFile => "SOURCE_FILE"
  | .block => "BLOCK"
  | .exprStmt => "EXPR_STMT"
  | .echoStmt => "ECHO_STMT"
  | .returnStmt => "RETURN_STMT"
  | .ifStmt => "IF_STMT"
  | .elseifClause => "ELSEIF_CLAUSE"
  | .elseClause => "ELSE_CLAUSE"
  | .whileStmt => "WHILE_STMT"
  | .doWhileStmt => "DO_WHILE_STMT"
  | .forStmt => "FOR_STMT"
  | .foreachStmt => "FOREACH_STMT"
  | .functionDef => "FUNCTION_DEF"
  | .paramList => "PARAM_LIST"
  | .param => "PARAM"
  | .typeRef => "TYPE_REF"
  | .breakStmt => "BREAK_STMT"
  | .continueStmt => "CONTINUE_STMT"
  | .emptyStmt => "EMPTY_STMT"
  | .literal => "LITERAL"
  | .stringLiteral => "STRING_LITERAL"
  | .variable => "VARIABLE"
  | .nameRef => "NAME_REF"
  | .callExpr => "CALL_EXPR"
  | .argList => "ARG_LIST"
  | .memberExpr => "MEMBER_EXPR"
  | .staticExpr => "STATIC_EXPR"
  | .indexExpr => "INDEX_EXPR"
  | .assignExpr => "ASSIGN_EXPR"
  | .ternaryExpr => "TERNARY_EXPR"
  | .concatExpr => "CONCAT_EXPR"
  | .binaryExpr => "BINARY_EXPR"
  | .prefixExpr => "PREFIX_EXPR"
  | .postfixExpr => "POSTFIX_EXPR"
  | .parenExpr => "PAREN_EXPR"
  | .arrayExpr => "ARRAY_EXPR"
  | .arrayItem => "ARRAY_ITEM"
  | .newExpr => "NEW_EXPR"
  | .error => "ERROR"
  | .tombstone => "TOMBSTONE"

/-- The kind reported under a name. -/
def ofLabel? (name : String) : Option Kind :=
  all.find? (·.label == name)

/-- Blanks, line ends and comments: attached to tokens, never children of a node. -/
def isTrivia : Kind → Bool
  | .whitespace | .newline | .lineComment | .blockComment => true
  | _ => false

/-- The four spellings of a string literal. -/
def isString : Kind → Bool
  | .singleQuotedString | .doubleQuotedString | .heredocString | .nowdocString => true
  | _ => false

/-- Reserved words. `and`, `or` and `xor` are operators and not counted here. -/
def isKeyword : Kind → Bool
  | .ifKw | .elseKw | .elseifKw | .whileKw | .doKw | .forKw | .foreachKw | .asKw | .functionKw
  | .returnKw | .echoKw | .newKw | .breakKw | .continueKw => true
  | _ => false

/-- Kinds that may stand as an item of a block. -/
def isStatement : Kind → Bool
  | .block | .exprStmt | .echoStmt | .returnStmt | .ifStmt | .whileStmt | .doWhileStmt
  | .forStmt | .foreachStmt | .functionDef | .breakStmt | .continueStmt | .emptyStmt => true
  | _ => false

/-- Kinds that stand for a value. Argument lists and array items are parts, not values. -/
def isExpr : Kind → Bool
  | .literal | .stringLiteral | .variable | .nameRef | .callExpr | .memberExpr | .staticExpr
  | .indexExpr | .assignExpr | .ternaryExpr | .concatExpr | .binaryExpr | .prefixExpr
  | .postfixExpr | .parenExpr | .arrayExpr | .newExpr => true
  | _ => false

/-- Whether new statements can be put in front of a child of a node of this kind. -/
def holdsStatements : Kind → Bool
  | .block | .sourceFile => true
  | _ => false

/-- The reserved words, lower case, with the kind each one gets. -/
def keywords : List (String × Kind) :=
  [("if", .ifKw), ("else", .elseKw), ("elseif", .elseifKw), ("while", .whileKw), ("do", .doKw),
   ("for", .forKw), ("foreach", .foreachKw), ("as", .asKw), ("function", .functionKw),
   ("return", .returnKw), ("echo", .echoKw), ("new", .newKw), ("break", .breakKw),
   ("continue", .continueKw), ("and", .operator), ("or", .operator), ("xor", .operator)]

/-- The kind of a reserved word, in any mixture of ASCII case. -/
def ofKeyword? (word : List Char) : Option Kind :=
  let lower := word.map Char.toLower
  (keywords.find? fun entry => entry.1.toList == lower).map (·.2)

/-- How a message names a token that is missing. -/
def describe : Kind → String
  | .leftParen => "`(`"
  | .rightParen => "`)`"
  | .leftBracket => "`[`"
  | .rightBracket => "`]`"
  | .leftBrace => "`\x7b`"
  | .rightBrace => "`\x7d`"
  | .semicolon => "`;`"
  | .comma => "`,`"
  | .question => "`?`"
  | .colon => "`:`"
  | .doubleColon => "`::`"
  | .arrow => "`->`"
  | .fatArrow => "`=>`"
  | .dot => "`.`"
  | .equals => "`=`"
  | .asKw => "`as`"
  | .whileKw => "`while`"
  | .variableName => "variable"
  | .name => "identifier"
  | .endOfFile => "end of file"
  | _ => "token"

end Kind

end PhpAssist
