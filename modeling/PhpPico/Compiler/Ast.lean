import Mathlib.Data.List.Basic
import Mathlib.Logic.Function.Basic
import PhpPico.Compiler.Token

/-!
# Syntax trees

The nodes that the parser makes. A pointer to one node is an `Option`, a chain linked by `next` a list; nodes keep no
more of the union than their kind uses.
-/

namespace PhpPico.Compiler

/-- The kinds of nodes that hold just a token. -/
inductive LiteralKind where
  | bool | int | float | string | variable | identifier
deriving DecidableEq, Repr

/-- `pc_ast`. -/
inductive Ast where
  | program (line : Nat) (items : List Ast) (count : Nat)
  | block (line : Nat) (items : List Ast) (count : Nat)
  | null (line : Nat)
  | literal (kind : LiteralKind) (line : Nat) (token : Token)
  | unary (line : Nat) (op : TokenType) (operand : Option Ast) (isPostfix : Bool)
  | binary (line : Nat) (op : TokenType) (left right : Option Ast)
  | assign (line : Nat) (op : TokenType) (left right : Option Ast)
  | ternary (line : Nat) (condition thenExpr elseExpr : Option Ast)
  | matchExpr (line : Nat) (subject : Option Ast) (arms : List Ast)
  | matchArm (line : Nat) (conditions : List Ast) (result : Option Ast)
  | call (line : Nat) (callee : Option Ast) (arguments : List Ast) (count : Nat)
  | index (line : Nat) (base key : Option Ast)
  | member (line : Nat) (base dynamicName : Option Ast) (name : Token) (op : TokenType)
  | array (line : Nat) (items : List Ast) (count : Nat)
  | arrayItem (line : Nat) (key value : Option Ast) (spread : Bool)
  | exprStmt (line : Nat) (expression : Option Ast)
  | echo (line : Nat) (items : List Ast) (count : Nat)
  | ifStmt (line : Nat) (condition : Option Ast) (thenBranch elseBranch : List Ast)
  | whileLoop (line : Nat) (condition : Option Ast) (body : List Ast)
  | doWhile (line : Nat) (condition : Option Ast) (body : List Ast)
  | forStmt (line : Nat) (initializers conditions increments body : List Ast)
  | foreachStmt (line : Nat) (iterable key value : Option Ast) (body : List Ast)
  | switchStmt (line : Nat) (subject : Option Ast) (cases : List Ast)
  | caseStmt (line : Nat) (condition body : Option Ast)
  | breakStmt (line level : Nat)
  | continueStmt (line level : Nat)
  | returnStmt (line : Nat) (expression : Option Ast)
  | throwExpr (line : Nat) (expression : Option Ast)
  | global (line : Nat) (items : List Ast) (count : Nat)
  | staticBinding (line : Nat) (name : Token) (value : Option Ast)
  | constBinding (line : Nat) (name : Token) (value : Option Ast)
  | function (line : Nat) (name : Token) (parameters : List Ast) (parameterCount : Nat) (flags : UInt8)
      (declarationOnly : Bool) (returnType : List Ast) (body : Option Ast)
  | closure (line : Nat) (parameters captures : List Ast) (parameterCount : Nat) (isArrow isStatic : Bool)
      (returnType : List Ast) (body : Option Ast)
  | param (line : Nat) (name : Token) (variadic : Bool) (flags : UInt8) (type : List Ast)
      (defaultValue : Option Ast)
  | includeStmt (line : Nat) (mode : TokenType) (path : Option Ast)
  | unset (line : Nat) (operand : Option Ast)
  | isset (line : Nat) (operand : Option Ast)
  | empty (line : Nat) (operand : Option Ast)
  | classDecl (line : Nat) (name parent : Token) (interfaces members : List Ast) (flags : UInt8)
  | property (line : Nat) (name : Token) (flags : UInt8) (type : List Ast) (defaultValue : Option Ast)
  | newExpr (line : Nat) (className : Option Ast) (arguments : List Ast) (count : Nat)
  | tryStmt (line : Nat) (tryBlock : Option Ast) (catches : List Ast) (finallyBlock : Option Ast)
  | catchStmt (line : Nat) (types : List Ast) («variable» : Token) (body : Option Ast)
  | typeDecl (line : Nat) (name : Token)

end PhpPico.Compiler
