import PhpPico.Call.Binding

/-!
# What closures capture

`collect_captures` gathers the variables that the body of a closure refers to; those of a nested closure count where
it captures them. The walk visits everything but the class of a `new`.
-/

namespace PhpPico.Closure

open Compiler Call

/-- A name without the dollar sign. -/
abbrev Name := List UInt8

/-- The parameters of a callable. -/
def parametersOf (nodes : List Ast) : List Parameter :=
  nodes.filterMap fun
    | .param line name variadic flags type defaultValue => some ⟨line, name, variadic, flags, type, defaultValue⟩
    | _ => none

/-- The variables that a closure lists. -/
def usesOf (nodes : List Ast) : List Name :=
  nodes.filterMap fun
    | .literal _ _ token => some (variableName token)
    | _ => none

/-! ## `collect_captures` -/

/-- The variables of a nested closure: `found` are those of its body. -/
def nestedCaptures (parameters : List Parameter) (uses : List Name) (isArrow isStatic : Bool)
    (found : Option (List Name)) : Option (List Name) :=
  if isArrow then found
  else
    (captureAll parameters [] uses).bind fun nested =>
      if isStatic then some nested
      else found.bind fun referenced =>
        if referenced.contains thisName then captureAdd parameters nested thisName else some nested

mutual

/-- `collect_captures`; `none` when there are too many. -/
def collectCaptures (parameters : List Parameter) (set : List Name) : Ast → Option (List Name)
  | .literal .variable _ token => captureAdd parameters set (variableName token)
  | .program _ items _ | .block _ items _ | .array _ items _ | .echo _ items _ =>
    collectCaptureList parameters set items
  | .unary _ _ operand _ | .unset _ operand | .isset _ operand | .empty _ operand =>
    collectOperand parameters set operand
  | .binary _ _ left right | .assign _ _ left right =>
    (collectOperand parameters set left).bind fun set => collectOperand parameters set right
  | .ternary _ condition thenExpr elseExpr =>
    (collectOperand parameters set condition).bind fun set =>
      (collectOperand parameters set thenExpr).bind fun set => collectOperand parameters set elseExpr
  | .matchExpr _ subject arms =>
    (collectOperand parameters set subject).bind fun set => collectCaptureList parameters set arms
  | .matchArm _ conditions result =>
    (collectCaptureList parameters set conditions).bind fun set => collectOperand parameters set result
  | .call _ callee arguments _ =>
    (collectOperand parameters set callee).bind fun set => collectCaptureList parameters set arguments
  | .index _ base key => (collectOperand parameters set base).bind fun set => collectOperand parameters set key
  | .member _ base dynamicName _ _ =>
    (collectOperand parameters set base).bind fun set => collectOperand parameters set dynamicName
  | .arrayItem _ key value _ =>
    (collectOperand parameters set key).bind fun set => collectOperand parameters set value
  | .exprStmt _ expression | .returnStmt _ expression | .throwExpr _ expression =>
    collectOperand parameters set expression
  | .ifStmt _ condition thenBranch elseBranch =>
    (collectOperand parameters set condition).bind fun set =>
      (collectFirst parameters set thenBranch).bind fun set => collectFirst parameters set elseBranch
  | .whileLoop _ condition body | .doWhile _ condition body =>
    (collectOperand parameters set condition).bind fun set => collectFirst parameters set body
  | .forStmt _ initializers conditions increments body =>
    (collectCaptureList parameters set initializers).bind fun set =>
      (collectCaptureList parameters set conditions).bind fun set =>
        (collectCaptureList parameters set increments).bind fun set => collectFirst parameters set body
  | .foreachStmt _ iterable key value body =>
    (collectOperand parameters set iterable).bind fun set =>
      (collectOperand parameters set key).bind fun set =>
        (collectOperand parameters set value).bind fun set => collectFirst parameters set body
  | .switchStmt _ subject cases =>
    (collectOperand parameters set subject).bind fun set => collectCaptureList parameters set cases
  | .caseStmt _ condition body =>
    (collectOperand parameters set condition).bind fun set => collectOperand parameters set body
  | .staticBinding _ _ value | .constBinding _ _ value => collectOperand parameters set value
  | .includeStmt _ _ path => collectOperand parameters set path
  | .newExpr _ _ arguments _ => collectCaptureList parameters set arguments
  | .tryStmt _ tryBlock catches finallyBlock =>
    (collectOperand parameters set tryBlock).bind fun set =>
      (collectCaptureList parameters set catches).bind fun set => collectOperand parameters set finallyBlock
  | .catchStmt _ _ _ body => collectOperand parameters set body
  | .closure _ own uses _ isArrow isStatic _ body =>
    (nestedCaptures (parametersOf own) (usesOf uses) isArrow isStatic
      (collectOperand (parametersOf own) [] body)).bind (captureAll parameters set)
  | _ => some set

/-- `collect_captures` on a pointer. -/
def collectOperand (parameters : List Parameter) (set : List Name) : Option Ast → Option (List Name)
  | none => some set
  | some node => collectCaptures parameters set node

/-- `collect_captures` on a pointer to the first node of a chain. -/
def collectFirst (parameters : List Parameter) (set : List Name) : List Ast → Option (List Name)
  | [] => some set
  | node :: _ => collectCaptures parameters set node

/-- `collect_capture_list`. -/
def collectCaptureList (parameters : List Parameter) (set : List Name) : List Ast → Option (List Name)
  | [] => some set
  | node :: rest => (collectCaptures parameters set node).bind fun set => collectCaptureList parameters set rest

end

/-- The captured variables of a closure, as `compile_closure_expression` finds them. -/
def captureNames (parameters : List Parameter) (uses : List Name) (isArrow isStatic : Bool) (body : Option Ast) :
    Except (List UInt8) (List Name) :=
  if isArrow then
    match collectOperand parameters [] body with
    | none => .error (ascii "too many variables captured by arrow function")
    | some captures =>
      if isStatic && captures.contains thisName then .error (ascii "static arrow function cannot use $this")
      else .ok captures
  else
    match captureUses parameters [] uses with
    | .error failure => .error failure
    | .ok captures =>
      match collectOperand parameters [] body with
      | none => .error (ascii "too many variables referenced by closure")
      | some referenced =>
        if !referenced.contains thisName then .ok captures
        else if isStatic then .error (ascii "static closure cannot use $this")
        else
          match captureAdd parameters captures thisName with
          | some captures => .ok captures
          | none => .error (ascii "too many closure captures")

/-! ## The variables of a tree -/

/-- The names that are no parameters. -/
def free (parameters : List Parameter) (names : List Name) : List Name :=
  names.filter fun name => !parameters.any fun p => p.variable == name

mutual

/-- The variables that a tree refers to, those that are the class of a `new` left out. Of a closure they are the
variables it captures. -/
def references : Ast → List Name
  | .literal .variable _ token => [variableName token]
  | .program _ items _ | .block _ items _ | .array _ items _ | .echo _ items _ => referencesOfList items
  | .unary _ _ operand _ | .unset _ operand | .isset _ operand | .empty _ operand => referencesOf operand
  | .binary _ _ left right | .assign _ _ left right => referencesOf left ++ referencesOf right
  | .ternary _ condition thenExpr elseExpr =>
    referencesOf condition ++ referencesOf thenExpr ++ referencesOf elseExpr
  | .matchExpr _ subject arms => referencesOf subject ++ referencesOfList arms
  | .matchArm _ conditions result => referencesOfList conditions ++ referencesOf result
  | .call _ callee arguments _ => referencesOf callee ++ referencesOfList arguments
  | .index _ base key => referencesOf base ++ referencesOf key
  | .member _ base dynamicName _ _ => referencesOf base ++ referencesOf dynamicName
  | .arrayItem _ key value _ => referencesOf key ++ referencesOf value
  | .exprStmt _ expression | .returnStmt _ expression | .throwExpr _ expression => referencesOf expression
  | .ifStmt _ condition thenBranch elseBranch =>
    referencesOf condition ++ referencesOfFirst thenBranch ++ referencesOfFirst elseBranch
  | .whileLoop _ condition body | .doWhile _ condition body => referencesOf condition ++ referencesOfFirst body
  | .forStmt _ initializers conditions increments body =>
    referencesOfList initializers ++ referencesOfList conditions ++ referencesOfList increments ++
      referencesOfFirst body
  | .foreachStmt _ iterable key value body =>
    referencesOf iterable ++ referencesOf key ++ referencesOf value ++ referencesOfFirst body
  | .switchStmt _ subject cases => referencesOf subject ++ referencesOfList cases
  | .caseStmt _ condition body => referencesOf condition ++ referencesOf body
  | .staticBinding _ _ value | .constBinding _ _ value => referencesOf value
  | .includeStmt _ _ path => referencesOf path
  | .newExpr _ _ arguments _ => referencesOfList arguments
  | .tryStmt _ tryBlock catches finallyBlock =>
    referencesOf tryBlock ++ referencesOfList catches ++ referencesOf finallyBlock
  | .catchStmt _ _ _ body => referencesOf body
  | .closure _ own uses _ isArrow isStatic _ body =>
    free (parametersOf own) (if isArrow then referencesOf body
      else usesOf uses ++ if isStatic then [] else (referencesOf body).filter (· == thisName))
  | _ => []

/-- The variables of a pointer. -/
def referencesOf : Option Ast → List Name
  | none => []
  | some node => references node

/-- The variables of the first node of a chain. -/
def referencesOfFirst : List Ast → List Name
  | [] => []
  | node :: _ => references node

/-- The variables of a chain. -/
def referencesOfList : List Ast → List Name
  | [] => []
  | node :: rest => references node ++ referencesOfList rest

end

/-- The variable that is the class of a `new`. -/
def classVariable : Option Ast → List Name
  | some (.literal .variable _ token) => [variableName token]
  | _ => []

mutual

/-- The variables of an expression that are the class of a `new`, outside closures. -/
def newClasses : Ast → List Name
  | .array _ items _ => newClassesOfList items
  | .unary _ _ operand _ | .unset _ operand | .isset _ operand | .empty _ operand => newClassesOf operand
  | .binary _ _ left right | .assign _ _ left right => newClassesOf left ++ newClassesOf right
  | .ternary _ condition thenExpr elseExpr =>
    newClassesOf condition ++ newClassesOf thenExpr ++ newClassesOf elseExpr
  | .matchExpr _ subject arms => newClassesOf subject ++ newClassesOfList arms
  | .matchArm _ conditions result => newClassesOfList conditions ++ newClassesOf result
  | .call _ callee arguments _ => newClassesOf callee ++ newClassesOfList arguments
  | .index _ base key => newClassesOf base ++ newClassesOf key
  -- the name behind `::` is a token
  | .member _ base dynamicName _ op => newClassesOf base ++ if op = .tScope then [] else newClassesOf dynamicName
  -- an item that is spread has no key
  | .arrayItem _ key value spread => (if spread then [] else newClassesOf key) ++ newClassesOf value
  | .throwExpr _ expression => newClassesOf expression
  | .newExpr _ className arguments _ => classVariable className ++ newClassesOfList arguments
  | _ => []

/-- The same of a pointer. -/
def newClassesOf : Option Ast → List Name
  | none => []
  | some node => newClasses node

/-- The same of a chain. -/
def newClassesOfList : List Ast → List Name
  | [] => []
  | node :: rest => newClasses node ++ newClassesOfList rest

end

end PhpPico.Closure
