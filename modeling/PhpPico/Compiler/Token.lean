import PhpPico.Proto

/-!
# Tokens

The tokens that the lexer hands to the parser. A token keeps its bytes: where the parser made its text itself, `start`
counts in that text.
-/

namespace PhpPico.Compiler

/-- `pc_token_type`. -/
inductive TokenType where
  | tEof | tError | tInlineHtml | tOpenTag | tOpenTagEcho | tCloseTag | tIdentifier | tVariable
  | tInteger | tFloat | tSingleQuoted | tDoubleQuoted | tHeredoc | tNowdoc | tInterpStart | tInterpPart
  | tInterpExprStart | tInterpExprEnd | tInterpEnd | tLparen | tRparen | tLbrace | tRbrace | tLbracket
  | tRbracket | tSemicolon | tColon | tComma | tDot | tQuestion | tPlus | tMinus | tStar | tSlash
  | tPercent | tAmp | tPipe | tCaret | tTilde | tBang | tEqual | tLt | tGt | tPlusPlus | tMinusMinus
  | tPow | tEqualEqual | tNotEqual | tIdentical | tNotIdentical | tLtEqual | tGtEqual | tSpaceship
  | tBoolAnd | tBoolOr | tCoalesce | tNullsafeArrow | tArrow | tDoubleArrow | tScope | tShiftLeft
  | tShiftRight | tPlusEqual | tMinusEqual | tStarEqual | tSlashEqual | tDotEqual | tPercentEqual
  | tPowEqual | tAmpEqual | tPipeEqual | tCaretEqual | tShiftLeftEqual | tShiftRightEqual
  | tCoalesceEqual | tEllipsis | tAbstract | tAnd | tArray | tAs | tBreak | tCallable | tCase | tCatch
  | tClass | tClone | tConst | tContinue | tDeclare | tDefault | tDo | tEcho | tElse | tElseif | tEmpty
  | tEnddeclare | tEndfor | tEndforeach | tEndif | tEndswitch | tEndwhile | tEnum | tExtends | tFinal
  | tFinally | tFn | tFor | tForeach | tFunction | tGlobal | tGoto | tIf | tImplements | tInclude
  | tIncludeOnce | tInstanceof | tInsteadof | tInterface | tIsset | tList | tMatch | tNamespace | tNew
  | tOr | tPrint | tPrivate | tProtected | tPublic | tReadonly | tRequire | tRequireOnce | tReturn
  | tStatic | tSwitch | tThrow | tTrait | tTry | tUnset | tUse | tVar | tWhile | tXor | tYield | tTrue
  | tFalse | tNull | tIntType | tFloatType | tStringType | tBoolType | tVoid | tMixed | tNever | tSelf
  | tParent
deriving DecidableEq, Repr

/-- `pc_token`. -/
structure Token where
  type : TokenType
  start : Nat
  text : List UInt8
  line : Nat
  column : Nat
deriving DecidableEq, Repr

namespace Token

/-- `length` of a token. -/
def length (token : Token) : Nat := token.text.length

/-- A token that `memset` cleared. -/
def zero : Token := ⟨.tEof, 0, [], 0, 0⟩

end Token

/-- The table of `pc_token_name`. -/
def tokenNames : List String :=
  [
    "EOF", "ERROR", "INLINE_HTML", "OPEN_TAG", "OPEN_TAG_ECHO", "CLOSE_TAG", "IDENTIFIER", "VARIABLE",
    "INTEGER", "FLOAT", "SINGLE_QUOTED", "DOUBLE_QUOTED", "HEREDOC", "NOWDOC", "INTERP_START",
    "INTERP_PART", "INTERP_EXPR_START", "INTERP_EXPR_END", "INTERP_END", "LPAREN", "RPAREN", "LBRACE",
    "RBRACE", "LBRACKET", "RBRACKET", "SEMICOLON", "COLON", "COMMA", "DOT", "QUESTION", "PLUS", "MINUS",
    "STAR", "SLASH", "PERCENT", "AMP", "PIPE", "CARET", "TILDE", "BANG", "EQUAL", "LT", "GT",
    "PLUS_PLUS", "MINUS_MINUS", "POW", "EQUAL_EQUAL", "NOT_EQUAL", "IDENTICAL", "NOT_IDENTICAL",
    "LT_EQUAL", "GT_EQUAL", "SPACESHIP", "BOOL_AND", "BOOL_OR", "COALESCE", "NULLSAFE_ARROW", "ARROW",
    "DOUBLE_ARROW", "SCOPE", "SHIFT_LEFT", "SHIFT_RIGHT", "PLUS_EQUAL", "MINUS_EQUAL", "STAR_EQUAL",
    "SLASH_EQUAL", "DOT_EQUAL", "PERCENT_EQUAL", "POW_EQUAL", "AMP_EQUAL", "PIPE_EQUAL", "CARET_EQUAL",
    "SHIFT_LEFT_EQUAL", "SHIFT_RIGHT_EQUAL", "COALESCE_EQUAL", "ELLIPSIS", "ABSTRACT", "AND", "ARRAY",
    "AS", "BREAK", "CALLABLE", "CASE", "CATCH", "CLASS", "CLONE", "CONST", "CONTINUE", "DECLARE",
    "DEFAULT", "DO", "ECHO", "ELSE", "ELSEIF", "EMPTY", "ENDDECLARE", "ENDFOR", "ENDFOREACH", "ENDIF",
    "ENDSWITCH", "ENDWHILE", "ENUM", "EXTENDS", "FINAL", "FINALLY", "FN", "FOR", "FOREACH", "FUNCTION",
    "GLOBAL", "GOTO", "IF", "IMPLEMENTS", "INCLUDE", "INCLUDE_ONCE", "INSTANCEOF", "INSTEADOF",
    "INTERFACE", "ISSET", "LIST", "MATCH", "NAMESPACE", "NEW", "OR", "PRINT", "PRIVATE", "PROTECTED",
    "PUBLIC", "READONLY", "REQUIRE", "REQUIRE_ONCE", "RETURN", "STATIC", "SWITCH", "THROW", "TRAIT",
    "TRY", "UNSET", "USE", "VAR", "WHILE", "XOR", "YIELD", "TRUE", "FALSE", "NULL", "INT_TYPE",
    "FLOAT_TYPE", "STRING_TYPE", "BOOL_TYPE", "VOID", "MIXED", "NEVER", "SELF", "PARENT"
  ]

/-- `pc_token_name`. -/
def pcTokenName (type : TokenType) : List UInt8 := ascii (tokenNames.getD type.ctorIdx "UNKNOWN")

/-- `keywords`. -/
def keywords : List (List UInt8 × TokenType) :=
  [
    (ascii "abstract", .tAbstract), (ascii "and", .tAnd), (ascii "array", .tArray), (ascii "as", .tAs),
    (ascii "break", .tBreak), (ascii "bool", .tBoolType), (ascii "callable", .tCallable),
    (ascii "case", .tCase), (ascii "catch", .tCatch), (ascii "class", .tClass),
    (ascii "clone", .tClone), (ascii "const", .tConst), (ascii "continue", .tContinue),
    (ascii "declare", .tDeclare), (ascii "default", .tDefault), (ascii "do", .tDo),
    (ascii "echo", .tEcho), (ascii "else", .tElse), (ascii "elseif", .tElseif),
    (ascii "empty", .tEmpty), (ascii "enddeclare", .tEnddeclare), (ascii "endfor", .tEndfor),
    (ascii "endforeach", .tEndforeach), (ascii "endif", .tEndif), (ascii "endswitch", .tEndswitch),
    (ascii "endwhile", .tEndwhile), (ascii "enum", .tEnum), (ascii "extends", .tExtends),
    (ascii "false", .tFalse), (ascii "final", .tFinal), (ascii "finally", .tFinally),
    (ascii "float", .tFloatType), (ascii "fn", .tFn), (ascii "for", .tFor),
    (ascii "foreach", .tForeach), (ascii "function", .tFunction), (ascii "global", .tGlobal),
    (ascii "goto", .tGoto), (ascii "if", .tIf), (ascii "implements", .tImplements),
    (ascii "include", .tInclude), (ascii "include_once", .tIncludeOnce),
    (ascii "instanceof", .tInstanceof), (ascii "insteadof", .tInsteadof), (ascii "int", .tIntType),
    (ascii "interface", .tInterface), (ascii "isset", .tIsset), (ascii "list", .tList),
    (ascii "match", .tMatch), (ascii "mixed", .tMixed), (ascii "namespace", .tNamespace),
    (ascii "never", .tNever), (ascii "new", .tNew), (ascii "null", .tNull), (ascii "or", .tOr),
    (ascii "parent", .tParent), (ascii "print", .tPrint), (ascii "private", .tPrivate),
    (ascii "protected", .tProtected), (ascii "public", .tPublic), (ascii "readonly", .tReadonly),
    (ascii "require", .tRequire), (ascii "require_once", .tRequireOnce), (ascii "return", .tReturn),
    (ascii "self", .tSelf), (ascii "static", .tStatic), (ascii "string", .tStringType),
    (ascii "switch", .tSwitch), (ascii "throw", .tThrow), (ascii "trait", .tTrait),
    (ascii "true", .tTrue), (ascii "try", .tTry), (ascii "unset", .tUnset), (ascii "use", .tUse),
    (ascii "var", .tVar), (ascii "void", .tVoid), (ascii "while", .tWhile), (ascii "xor", .tXor),
    (ascii "yield", .tYield)
  ]

/-- `is_identifier_start`. -/
def isIdentifierStart (value : UInt8) : Bool :=
  value = 95 || (97 ≤ value && value ≤ 122) || (65 ≤ value && value ≤ 90) || 128 ≤ value

/-- `is_identifier_part`. -/
def isIdentifierPart (value : UInt8) : Bool := isIdentifierStart value || (48 ≤ value && value ≤ 57)

/-- `ascii_equal_ci`: only the left text is lowered. -/
def asciiEqualCi (left right : List UInt8) : Bool := left.map lowerByte == right

/-- `identifier_type`. -/
def identifierType (text : List UInt8) : TokenType :=
  match keywords.find? fun keyword => asciiEqualCi text keyword.1 with
  | some keyword => keyword.2
  | none => .tIdentifier

example : identifierType (ascii "InstanceOf") = .tInstanceof := by decide +kernel

end PhpPico.Compiler
