import PhpPico.Compiler.Generator

/-!
# `compile_expression`

The code of every expression. Functions that have expressions inside take what these emit as arguments, so that one
recursion over the tree calls them all. A chain of accesses hands on the jumps of its nullsafe accesses; they end
behind the chain.
-/

namespace PhpPico.Compiler

open Call Closure

/-! ## Assignments -/

/-- `compile_index_assignment`, where `target` prepares the target with or without a quiet root. -/
def compileIndexAssignment (op : TokenType) (target : Bool → Gen IndexLvalue) (right : Gen Unit) : Gen Unit := do
  let lvalue ← target (op = .tEqual || op = .tCoalesceEqual)
  let value ← temporarySlot
  if op ≠ .tEqual ∧ lvalue.isAppend then failWith (ascii "an empty array index only supports assignment")
  else if op = .tCoalesceEqual then
    lvalue.emitParent lvalue.leaf
    lvalue.emitKey lvalue.leaf
    emit (.plain .idxGetQuiet)
    let complete ← emitJump .jmpNotnullKeep
    right
    emit (.storeTemporary value)
    lvalue.storeValue value
    patchJump complete
    lvalue.clear
    clearTemporarySlot value
  else if op ≠ .tEqual then
    lvalue.emitCurrent
    right
    emitCompound op
    emit (.storeTemporary value)
    lvalue.storeValue value
    lvalue.clear
    clearTemporarySlot value
  else
    right
    emit (.storeTemporary value)
    lvalue.storeValue value
    lvalue.clear
    clearTemporarySlot value

/-- A property that is read and written: one of a class, or one of an object that a temporary slot keeps. -/
inductive Property where
  | ofClass (className name : Name)
  | ofObject (object : Nat) (dynamicName : Option Nat) (name : Name)

namespace Property

/-- Reads the property. -/
def emitGet : Property → Gen Unit
  | ofClass className name => emit (.pair .spropGet className name)
  | ofObject object (some dynamicName) _ => do
    emit (.loadTemporary object)
    emit (.loadTemporary dynamicName)
    emit (.plain .propGetDynamic)
  | ofObject object none name => do
    emit (.loadTemporary object)
    emit (.word .propGet name)

/-- Writes the property from a temporary slot. -/
def emitSet (value : Nat) : Property → Gen Unit
  | ofClass className name => do
    emit (.loadTemporary value)
    emit (.pair .spropSet className name)
  | ofObject object (some dynamicName) _ => do
    emit (.loadTemporary object)
    emit (.loadTemporary dynamicName)
    emit (.loadTemporary value)
    emit (.plain .propSetDynamic)
  | ofObject object none name => do
    emit (.loadTemporary object)
    emit (.loadTemporary value)
    emit (.word .propSet name)

/-- Clears the slots of the object and the name. -/
def emitClear : Property → Gen Unit
  | ofClass .. => return ()
  | ofObject object (some dynamicName) _ => do
    clearTemporarySlot object
    clearTemporarySlot dynamicName
  | ofObject object none _ => clearTemporarySlot object

end Property

/-- What `compile_member_assignment` and `compile_increment` find out of a property, once its operator is `->` or
`::`: the object and the name are compiled once. -/
def prepareProperty (texts : String × String) (base dynamicName : Option Ast) (compileBase compileName : Gen Unit)
    (name : Token) (op : TokenType) : Gen Property :=
  if op = .tScope then
    match base, dynamicName with
    | some (.literal .identifier _ className), none => return .ofClass className.text (variableName name)
    | some (.literal .identifier _ _), some _ => failWith (ascii texts.2)
    | _, _ => failWith (ascii texts.1)
  else do
    let object ← temporarySlot
    compileBase
    emit (.storeTemporary object)
    match dynamicName with
    | none => return .ofObject object none name.text
    | some _ =>
      let slot ← temporarySlot
      compileName
      emit (.storeTemporary slot)
      return .ofObject object (some slot) []

/-- `compile_member_assignment`. -/
def compileMemberAssignment (op : TokenType) (base dynamicName : Option Ast) (compileBase compileName : Gen Unit)
    (name : Token) (access : TokenType) (right : Gen Unit) : Gen Unit :=
  if access = .tNullsafeArrow then failWith (ascii "nullsafe property access is not assignable")
  else if access ≠ .tScope ∧ access ≠ .tArrow then failWith (ascii "invalid property assignment target")
  else do
    let value ← temporarySlot
    let property ← prepareProperty ("invalid static property target", "dynamic static property target is invalid")
      base dynamicName compileBase compileName name access
    if op = .tCoalesceEqual then
      property.emitGet
      let complete ← emitJump .jmpNotnullKeep
      right
      emit (.storeTemporary value)
      property.emitSet value
      patchJump complete
    else if op ≠ .tEqual then
      property.emitGet
      right
      emitCompound op
      emit (.storeTemporary value)
      property.emitSet value
    else
      right
      emit (.storeTemporary value)
      property.emitSet value
    property.emitClear
    clearTemporarySlot value

/-- `compile_assignment` to a variable. -/
def compileVariableAssignment (op : TokenType) (name : Name) (right : Gen Unit) : Gen Unit :=
  if op = .tCoalesceEqual then do
    emit (.loadLocal true name)
    let complete ← emitJump .jmpNotnullKeep
    right
    emit (.plain .dup)
    emit (.storeLocal name)
    patchJump complete
  else if op ≠ .tEqual then do
    emit (.loadLocal false name)
    right
    emitCompound op
    emit (.plain .dup)
    emit (.storeLocal name)
  else do
    right
    emit (.plain .dup)
    emit (.storeLocal name)

/-! ## Increments -/

/-- The slot in which a postfix operator keeps the old value. -/
def oldSlot (isPostfix : Bool) : Gen (Option Nat) :=
  if isPostfix then do
    let slot ← temporarySlot
    return some slot
  else return none

/-- Keeps the old value. -/
def emitKeepOld : Option Nat → Gen Unit
  | none => return ()
  | some slot => do
    emit (.plain .dup)
    emit (.storeTemporary slot)

/-- Gives the old value instead of the new one. -/
def emitOld : Option Nat → Gen Unit
  | none => return ()
  | some slot => do
    emit (.plain .pop)
    emit (.loadTemporary slot)

/-- Clears the slot of the old value. -/
def emitClearOld : Option Nat → Gen Unit
  | none => return ()
  | some slot => clearTemporarySlot slot

/-- Adds or takes away one. -/
def emitStep (op : TokenType) : Gen Unit := do
  emit (.byte .loadI8 1)
  emit (.plain (if op = .tPlusPlus then .add else .sub))

/-- `compile_increment` on an index. -/
def compileIndexIncrement (op : TokenType) (isPostfix : Bool) (target : Gen IndexLvalue) : Gen Unit := do
  let lvalue ← target
  if lvalue.isAppend then failWith (ascii "cannot increment an empty array index")
  else
    let value ← temporarySlot
    let old ← oldSlot isPostfix
    lvalue.emitCurrent
    emitKeepOld old
    emitStep op
    emit (.storeTemporary value)
    lvalue.storeValue value
    emitOld old
    lvalue.clear
    clearTemporarySlot value
    emitClearOld old

/-- `compile_increment` on a property. -/
def compileMemberIncrement (op : TokenType) (isPostfix : Bool) (base dynamicName : Option Ast)
    (compileBase compileName : Gen Unit) (name : Token) (access : TokenType) : Gen Unit :=
  if access ≠ .tScope ∧ access ≠ .tArrow then failWith (ascii "invalid property increment")
  else do
    let value ← temporarySlot
    let old ← oldSlot isPostfix
    let property ← prepareProperty ("invalid property increment", "invalid property increment")
      base dynamicName compileBase compileName name access
    property.emitGet
    emitKeepOld old
    emitStep op
    emit (.storeTemporary value)
    property.emitSet value
    emitOld old
    property.emitClear
    clearTemporarySlot value
    emitClearOld old

/-- `compile_increment` on a variable. -/
def compileVariableIncrement (op : TokenType) (isPostfix : Bool) (name : Name) : Gen Unit := do
  emit (.loadLocal false name)
  if isPostfix then
    emit (.plain .dup)
    emitStep op
  else
    emitStep op
    emit (.plain .dup)
  emit (.storeLocal name)

/-! ## Operators -/

/-- `compile_short_circuit`. -/
def compileShortCircuit (op : TokenType) (left quietLeft right : Gen Unit) : Gen Unit := do
  if op = .tCoalesce then quietLeft else left
  let jump ← emitJump (if op = .tCoalesce then .jmpNotnullKeep
    else if op = .tBoolOr ∨ op = .tOr then .jmpIfKeep else .jmpUnlessKeep)
  right
  patchJump jump

/-- Whether a binary operator may leave its right side out. -/
def isShortCircuit (op : TokenType) : Bool :=
  op = .tBoolAnd || op = .tBoolOr || op = .tAnd || op = .tOr || op = .tCoalesce

/-- The case of `AST_BINARY`. -/
def compileBinary (op : TokenType) (rightNode : Option Ast) (left quietLeft right : Gen Unit) : Gen Unit :=
  if isShortCircuit op then compileShortCircuit op left quietLeft right
  else if op = .tXor then do
    left
    emit (.plain .not)
    emit (.plain .not)
    right
    emit (.plain .not)
    emit (.plain .not)
    emit (.plain .bxor)
  else if op = .tInstanceof then do
    left
    match rightNode with
    | some (.literal .identifier _ className) => emit (.word .instanceof className.text)
    | _ =>
      right
      emit (.plain .instanceofDynamic)
  else
    match binaryOpcode op with
    | none => failWith (ascii "unsupported binary operator " ++ pcTokenName op)
    | some opcode => do
      left
      right
      emit (.plain opcode)

/-- Whether minus is in front of the magnitude of the least integer. -/
def isLeastInteger (cfg : Config) (op : TokenType) : Option Ast → Bool
  | some (.literal .int _ token) => op = .tMinus && parseIntegerToken token = (intMaximum cfg + 1, false)
  | _ => false

/-- The case of `AST_UNARY` that is no increment. -/
def compileUnary (cfg : Config) (op : TokenType) (operandNode : Option Ast) (operand : Gen Unit) : Gen Unit :=
  if !cfg.enableFloat && op = .tFloatType then failWith (ascii "float support disabled")
  else if isLeastInteger cfg op operandNode then emit (.loadConst (.int (-(intMaximum cfg + 1 : Int))))
  else do
    operand
    emitUnary op

/-- The case of `AST_TERNARY`. -/
def compileTernary (isShort : Bool) (condition thenExpr elseExpr : Gen Unit) : Gen Unit :=
  if isShort then do
    condition
    let last ← emitJump .jmpIfKeep
    elseExpr
    patchJump last
  else do
    condition
    let otherwise ← emitJump .jmpUnless
    thenExpr
    let last ← emitJump .jmp
    patchJump otherwise
    elseExpr
    patchJump last

/-- What stands behind the arms of a `match`: the jump for no match goes to the default arm, or to a throw. -/
def finishMatch (noMatch : Nat) (defaultTarget : Option Nat) (ends : List Nat) : Gen Unit := do
  match defaultTarget with
  | some target => patchTo noMatch target
  | none =>
    patchJump noMatch
    emit (.plain .pop)
    emit (.named .newObj (ascii "UnhandledMatchError") 0)
    emit (.plain .throw)
  patchJumps ends

/-! ## Calls -/

/-- `argument_list_has_spread`. -/
def hasSpread (arguments : List Ast) : Bool :=
  arguments.any fun
    | .unary _ op _ _ => op = .tEllipsis
    | _ => false

/-- The names of `token_is_array_mutator`. -/
def arrayMutators : List (List UInt8) :=
  ["array_pop", "array_push", "array_shift", "array_unshift", "arsort", "asort", "krsort", "ksort", "rsort", "sort",
    "uasort", "uksort", "usort"].map ascii

/-- `token_is_array_mutator`. -/
def isArrayMutator (token : Token) : Bool := arrayMutators.any fun name => asciiEqualCi token.text name

/-- The first argument of an array mutator: the array is separated where it is kept. -/
def compileMutated (argument : Ast) (compileBase : Gen Unit) : Gen Unit :=
  match argument with
  | .literal .variable _ token => do
    emit (.loadLocal false (variableName token))
    emit (.plain .arrSeparate)
    emit (.plain .dup)
    emit (.storeLocal (variableName token))
  | .member _ (some (.literal .identifier _ className)) none name .tScope => do
    let array ← temporarySlot
    emit (.pair .spropGet className.text (variableName name))
    emit (.plain .arrSeparate)
    emit (.storeTemporary array)
    emit (.loadTemporary array)
    emit (.pair .spropSet className.text (variableName name))
    emit (.plain .pop)
    emit (.loadTemporary array)
    clearTemporarySlot array
  | .member _ _ none name .tArrow =>
    if name.type = .tVariable then failWith (ascii "dynamic property mutation is not supported")
    else do
      let array ← temporarySlot
      let object ← temporarySlot
      compileBase
      emit (.storeTemporary object)
      emit (.loadTemporary object)
      emit (.word .propGet name.text)
      emit (.plain .arrSeparate)
      emit (.storeTemporary array)
      emit (.loadTemporary object)
      emit (.loadTemporary array)
      emit (.word .propSet name.text)
      emit (.plain .pop)
      emit (.loadTemporary array)
      clearTemporarySlot array
      clearTemporarySlot object
  | _ => failWith (ascii "array mutation target must be a variable or property")

/-- The arguments, as values or as an array, and the instruction that takes them. -/
def compileCall (arguments : List Ast) (values array : Gen Unit) (call callArray : Code) : Gen Unit :=
  if hasSpread arguments then do
    array
    emit callArray
  else do
    values
    emit call

/-! ## Chains of accesses -/

/-- Whether an operator accesses an object. -/
def isAccess (op : TokenType) : Bool := op = .tArrow || op = .tNullsafeArrow

mutual

/-- `access_chain_contains_nullsafe`. -/
def containsNullsafe : Ast → Bool
  | .member _ base _ _ op => isAccess op && (op = .tNullsafeArrow || operandContainsNullsafe base)
  | .index _ base _ => operandContainsNullsafe base
  | .call _ (some (.member _ base _ _ op)) _ _ =>
    isAccess op && (op = .tNullsafeArrow || operandContainsNullsafe base)
  | _ => false

/-- `access_chain_contains_nullsafe` on a pointer. -/
def operandContainsNullsafe : Option Ast → Bool
  | none => false
  | some node => containsNullsafe node

end

/-- `access_base_can_inherit_quiet`. -/
def canInheritQuiet (base : Option Ast) (op : TokenType) : Bool :=
  operandContainsNullsafe base ||
    match base with
    | some (.literal .variable ..) => op = .tNullsafeArrow
    | _ => false

/-- `add_access_chain_jump` for a nullsafe access. -/
def addChainJump (op : TokenType) (jumps : List Nat) : Gen (List Nat) :=
  if op = .tNullsafeArrow then do
    let jump ← emitJump .jmpIfnullKeep
    return jumps ++ [jump]
  else return jumps

/-- `compile_access_chain` around a part; inside a chain the jumps are handed on. -/
def closeChain (chain : Option Bool) (part : Gen (List Nat)) : Gen (List Nat) :=
  match chain with
  | some _ => part
  | none => do
    let jumps ← part
    patchJumps jumps
    return []

/-- The part of a method call. -/
def methodCallPart (dynamicName : Option Ast) (op : TokenType) (name : Token) (arguments : List Ast) (count : Nat)
    (base : Gen (List Nat)) (compileName values array : Gen Unit) : Gen (List Nat) := do
  let jumps ← base
  let jumps ← addChainJump op jumps
  match dynamicName with
  | some _ =>
    compileName
    compileCall arguments values array (.byte .mcallDynamic count) (.plain .mcallDynamicArray)
  | none => compileCall arguments values array (.named .mcall name.text count) (.word .mcallArray name.text)
  return jumps

/-- The part of a property. -/
def memberPart (dynamicName : Option Ast) (op : TokenType) (name : Token) (quiet : Bool) (base : Gen (List Nat))
    (compileName : Gen Unit) : Gen (List Nat) := do
  let jumps ← base
  let jumps ← addChainJump op jumps
  match dynamicName with
  | some _ =>
    compileName
    emit (.plain (if quiet then .propGetDynamicQuiet else .propGetDynamic))
  | none => emit (.word (if quiet then .propGetQuiet else .propGet) name.text)
  return jumps

/-- The part of an index. -/
def indexPart (key : Option Ast) (quiet : Bool) (base : Gen (List Nat)) (compileKey : Gen Unit) : Gen (List Nat) :=
  match key with
  | none => failWith (ascii "cannot read from an empty array index")
  | some _ => do
    let jumps ← base
    compileKey
    emit (.plain (if quiet then .idxGetQuiet else .idxGet))
    return jumps

/-- One index of `prepare_index_lvalue`, behind those before it. -/
def prepareKey (lvalue : IndexLvalue) (key : Option Ast) (isLeaf : Bool) (compileKey : Gen Unit) :
    Gen IndexLvalue := do
  let slot ← match key with
    | none => if isLeaf then pure none else failWith (ascii "only the final array index may be empty")
    | some _ => do
      let slot ← temporarySlot
      compileKey
      emit (.storeTemporary slot)
      pure (some slot)
  let keyed := { lvalue with keys := lvalue.keys ++ [slot] }
  if isLeaf then return keyed
  else
    keyed.emitParent lvalue.keys.length
    keyed.emitKey lvalue.keys.length
    emit (.plain .idxGetQuiet)
    let parent ← temporarySlot
    emit (.storeTemporary parent)
    return { keyed with parents := keyed.parents ++ [parent] }

/-- The property at the root of `prepare_index_lvalue`. -/
def prepareRoot (base dynamicName : Option Ast) (compileBase compileName : Gen Unit) (name : Token) (op : TokenType) :
    Gen IndexLvalue :=
  if op = .tScope then
    match base, dynamicName with
    | some (.literal .identifier _ className), none => do
      let slot ← temporarySlot
      emit (.pair .spropGet className.text (variableName name))
      emit (.storeTemporary slot)
      return ⟨.staticProperty slot className.text (variableName name), [], []⟩
    | some (.literal .identifier _ _), some _ => failWith (ascii "dynamic static property is invalid")
    | _, _ => failWith (ascii "array assignment must ultimately target a variable or property")
  else if op = .tArrow then do
    let slot ← temporarySlot
    let object ← temporarySlot
    compileBase
    emit (.storeTemporary object)
    emit (.loadTemporary object)
    let nameSlot ← match dynamicName with
      | some _ => do
        let nameSlot ← temporarySlot
        compileName
        emit (.storeTemporary nameSlot)
        emit (.loadTemporary nameSlot)
        emit (.plain .propGetDynamic)
        pure (some nameSlot)
      | none => do
        emit (.word .propGet name.text)
        pure none
    emit (.storeTemporary slot)
    return ⟨.property slot object nameSlot name.text, [], []⟩
  else failWith (ascii "array assignment must ultimately target a variable or property")

/-! ## Nodes -/

/-- `compile_assignment`, with what its sides emit: the target as an index, and as a property its object and name. -/
def compileAssignment (op : TokenType) (left : Option Ast) (target : Bool → Gen IndexLvalue)
    (compileBase compileName right : Gen Unit) : Gen Unit :=
  match left with
  | some (.index ..) => compileIndexAssignment op target right
  | some (.member _ base dynamicName name access) =>
    compileMemberAssignment op base dynamicName compileBase compileName name access right
  | some (.literal .variable _ token) => compileVariableAssignment op (variableName token) right
  | _ => failWith (ascii "assignment target is not executable")

/-- `compile_increment`, with what its operand emits. -/
def compileIncrement (op : TokenType) (isPostfix : Bool) (operand : Option Ast) (target : Gen IndexLvalue)
    (compileBase compileName : Gen Unit) : Gen Unit :=
  match operand with
  | some (.index ..) => compileIndexIncrement op isPostfix target
  | some (.member _ base dynamicName name access) =>
    compileMemberIncrement op isPostfix base dynamicName compileBase compileName name access
  | some (.literal .variable _ token) => compileVariableIncrement op isPostfix (variableName token)
  | _ => failWith (ascii "increment target is not assignable")

/-- The case of `AST_UNSET`. -/
def compileUnset (operand : Option Ast) (target : Gen IndexLvalue) : Gen Unit :=
  match operand with
  | some (.literal .variable _ token) => do
    emit (.unsetLocal (variableName token))
    emit (.plain .loadNull)
  | some (.index ..) => do
    let lvalue ← target
    lvalue.unsetValue
  | _ => failWith (ascii "unset target is not supported")

/-- The case of `AST_CALL`: `baseIn` is the object of a method. -/
def compileCallNode (chain : Option Bool) (callee : Option Ast) (arguments : List Ast) (count : Nat)
    (baseIn : Bool → Gen (List Nat)) (compileName compileCallee values array mutation : Gen Unit) :
    Gen (List Nat) :=
  if 31 < count then failWith (ascii "a call may have at most 31 arguments")
  else
    match callee with
    | some (.member _ base dynamicName name op) =>
      if isAccess op then
        closeChain chain (methodCallPart dynamicName op name arguments count
          (baseIn (chain.getD false && canInheritQuiet base op)) compileName values array)
      else if op = .tScope then
        match base with
        | some (.literal .identifier _ className) => do
          compileCall arguments values array (.scall className.text (variableName name) count)
            (.pair .scallArray className.text (variableName name))
          return []
        | _ => failWith (ascii "invalid static method target")
      else failWith (ascii "invalid member access")
    | some (.literal .identifier _ token) => do
      if !hasSpread arguments && !arguments.isEmpty && isArrayMutator token then
        mutation
        emit (.named .call token.text count)
      else
        compileCall arguments values array (.named .call token.text count) (.word .callArray token.text)
      return []
    | _ => do
      compileCallee
      compileCall arguments values array (.byte .callValue count) (.plain .callValueArray)
      return []

/-- The case of `AST_MEMBER`. -/
def compileMember (chain : Option Bool) (base dynamicName : Option Ast) (name : Token) (op : TokenType)
    (baseIn : Bool → Gen (List Nat)) (compileName : Gen Unit) : Gen (List Nat) :=
  if op = .tScope then
    match base with
    | some (.literal .identifier _ className) => do
      emit (.pair (if name.type = .tVariable then .spropGet else .clsconst) className.text (variableName name))
      return []
    | _ => failWith (ascii "invalid static member target")
  else if isAccess op then
    let quiet := chain.getD false
    closeChain chain (memberPart dynamicName op name quiet
      (baseIn (quiet && (op ≠ .tNullsafeArrow || canInheritQuiet base op))) compileName)
  else failWith (ascii "invalid member access")

/-- The case of `AST_NEW`. -/
def compileNew (className : Option Ast) (arguments : List Ast) (count : Nat) (values array : Gen Unit) : Gen Unit :=
  if 31 < count then failWith (ascii "invalid class construction")
  else
    match className with
    | some (.literal .identifier _ name) =>
      compileCall arguments values array (.named .newObj name.text count) (.word .newObjArray name.text)
    | some (.literal .variable _ token) => do
      emit (.loadLocal false (variableName token))
      compileCall arguments values array (.byte .newObjDynamic count) (.plain .newObjDynamicArray)
    | _ => failWith (ascii "invalid class construction")

/-- The case of `AST_CLOSURE`. -/
def compileClosureNode (node : Ast) : Gen Unit :=
  match node with
  | .closure _ parameters captures _ isArrow isStatic _ body =>
    match captureNames (parametersOf parameters) (usesOf captures) isArrow isStatic body with
    | .error failure => failWith failure
    | .ok names => emit (.closure node names)
  | _ => failWith []

/-- One argument of `compile_argument_array`. -/
def compileSpread (argument : Ast) (operand value : Gen Unit) : Gen Unit :=
  match argument with
  | .unary _ .tEllipsis _ _ => do
    operand
    emit (.plain .arrExtend)
  | _ => do
    value
    emit (.plain .arrPush)

/-- One item of an array. -/
def compileItem (hasKey spread : Bool) (key value : Gen Unit) : Gen Unit :=
  if spread then do
    value
    emit (.plain .arrExtend)
  else if hasKey then do
    key
    value
    emit (.plain .arrSet)
  else do
    value
    emit (.plain .arrPush)

/-- Leaves out the jumps of a chain. -/
def asUnit (part : Gen (List Nat)) : Gen Unit := do
  let _ ← part
  return ()

/-- Gives no jumps. -/
def noJumps (code : Gen Unit) : Gen (List Nat) := do
  code
  return []

/-! ## The recursion -/

/-- What `pc_ast_kind_name` calls the kinds without code. -/
def kindName : Ast → String
  | .program .. => "PROGRAM"
  | .block .. => "BLOCK"
  | .matchArm .. => "MATCH_ARM"
  | .arrayItem .. => "ARRAY_ITEM"
  | .exprStmt .. => "EXPR_STMT"
  | .echo .. => "ECHO"
  | .ifStmt .. => "IF"
  | .whileLoop .. => "WHILE"
  | .doWhile .. => "DO_WHILE"
  | .forStmt .. => "FOR"
  | .foreachStmt .. => "FOREACH"
  | .switchStmt .. => "SWITCH"
  | .caseStmt .. => "CASE"
  | .breakStmt .. => "BREAK"
  | .continueStmt .. => "CONTINUE"
  | .returnStmt .. => "RETURN"
  | .global .. => "GLOBAL"
  | .staticBinding .. => "STATIC"
  | .constBinding .. => "CONST"
  | .function .. => "FUNCTION"
  | .param .. => "PARAM"
  | .includeStmt .. => "INCLUDE"
  | .classDecl .. => "CLASS"
  | .property .. => "PROPERTY"
  | .tryStmt .. => "TRY"
  | .catchStmt .. => "CATCH"
  | .typeDecl .. => "TYPE"
  | _ => "UNKNOWN"

section
variable (cfg : Config)

mutual

/-- `compile_expression` where `chain` is none, and else `compile_access_chain_part` of a chain that is quiet or
not. -/
def compileIn (chain : Option Bool) : Ast → Gen (List Nat)
  | .null _ => noJumps (emit (.plain .loadNull))
  | .literal kind _ token => noJumps (emitLiteral cfg (chain = some true) kind token)
  | .assign _ op left right =>
    noJumps (compileAssignment op left (fun quiet => prepareIndexLvalue quiet true left)
      (asUnit (compileBaseIn none left)) (compileNameOf left) (compileOperand right))
  | .binary _ op left right =>
    noJumps (compileBinary op right (compileOperand left) (compileQuiet left) (compileOperand right))
  | .unary _ op operand isPostfix =>
    noJumps (if op = .tPlusPlus ∨ op = .tMinusMinus then
        compileIncrement op isPostfix operand (prepareIndexLvalue false true operand)
          (asUnit (compileBaseIn none operand)) (compileNameOf operand)
      else compileUnary cfg op operand (compileOperand operand))
  | .ternary _ condition thenExpr elseExpr =>
    noJumps (compileTernary thenExpr.isNone (compileOperand condition) (compileOperand thenExpr)
      (compileOperand elseExpr))
  | .closure line parameters captures parameterCount isArrow isStatic returnType body =>
    noJumps (compileClosureNode
      (.closure line parameters captures parameterCount isArrow isStatic returnType body))
  | .matchExpr _ subject arms => noJumps do
    compileOperand subject
    let conditions ← compileConditions arms
    let noMatch ← emitJump .jmp
    let results ← compileResults arms conditions
    finishMatch noMatch results.1 results.2
  | .call _ callee arguments count =>
    compileCallNode chain callee arguments count (fun quiet => compileBaseIn (some quiet) callee)
      (compileNameOf callee) (compileOperand callee) (compileArguments arguments)
      (do emit (.newArray count); compileSpreads arguments) (compileMutation arguments)
  | .member _ base dynamicName name op =>
    compileMember chain base dynamicName name op (fun quiet => compileOperandIn (some quiet) base)
      (compileOperand dynamicName)
  | .newExpr _ className arguments count =>
    noJumps (compileNew className arguments count (compileArguments arguments)
      (do emit (.newArray count); compileSpreads arguments))
  | .array _ items count => noJumps do
    emit (.newArray count)
    compileItems items
  | .index _ base key =>
    closeChain chain
      (indexPart key (chain.getD false) (compileOperandIn (some (chain.getD false)) base) (compileOperand key))
  | .isset _ operand => noJumps do
    compileQuiet operand
    emit (.plain .loadNull)
    emit (.plain .nident)
  | .empty _ operand => noJumps do
    compileQuiet operand
    emit (.plain .not)
  | .unset _ operand => noJumps (compileUnset operand (prepareIndexLvalue true true operand))
  | .throwExpr _ expression => noJumps do
    compileOperand expression
    emit (.plain .throw)
  | node => failWith (ascii "AST node " ++ ascii (kindName node) ++ ascii " is not executable yet")

/-- The same on a pointer. -/
def compileOperandIn (chain : Option Bool) : Option Ast → Gen (List Nat)
  | none => return []
  | some node => compileIn chain node

/-- `compile_expression` on a pointer. -/
def compileOperand : Option Ast → Gen Unit
  | none => return ()
  | some node => asUnit (compileIn none node)

/-- `compile_quiet_expression`. -/
def compileQuiet : Option Ast → Gen Unit
  | none => return ()
  | some node => do
    let jumps ← compileIn (some true) node
    patchJumps jumps

/-- The object of a member. -/
def compileBaseIn (chain : Option Bool) : Option Ast → Gen (List Nat)
  | some node => compileMemberBaseIn chain node
  | none => return []

/-- The object of a member. -/
def compileMemberBaseIn (chain : Option Bool) : Ast → Gen (List Nat)
  | .member _ base _ _ _ => compileOperandIn chain base
  | _ => return []

/-- The dynamic name of a member. -/
def compileNameOf : Option Ast → Gen Unit
  | some node => compileMemberName node
  | none => return ()

/-- The dynamic name of a member. -/
def compileMemberName : Ast → Gen Unit
  | .member _ _ dynamicName _ _ => compileOperand dynamicName
  | _ => return ()

/-- `prepare_index_lvalue`, up to an index that is the last one or not. -/
def prepareIndexLvalue (quiet isLeaf : Bool) : Option Ast → Gen IndexLvalue
  | none => failWith (ascii "array assignment must ultimately target a variable")
  | some node => prepareIndex quiet isLeaf node

/-- `prepare_index_lvalue` on a node. -/
def prepareIndex (quiet isLeaf : Bool) : Ast → Gen IndexLvalue
  | .index _ base key => do
    let lvalue ← prepareIndexLvalue quiet false base
    prepareKey lvalue key isLeaf (compileOperand key)
  | .literal .variable _ token => return ⟨.named (variableName token) quiet, [], []⟩
  | .member _ base dynamicName name op =>
    prepareRoot base dynamicName (compileOperand base) (compileOperand dynamicName) name op
  | _ => failWith (ascii "array assignment must ultimately target a variable or property")

/-- The arguments of a call, one value each. -/
def compileArguments : List Ast → Gen Unit
  | [] => return ()
  | argument :: rest => do
    asUnit (compileIn none argument)
    compileArguments rest

/-- The loop of `compile_argument_array`. -/
def compileSpreads : List Ast → Gen Unit
  | [] => return ()
  | argument :: rest => do
    compileSpread argument (compileSpreadOperand argument) (asUnit (compileIn none argument))
    compileSpreads rest

/-- What is spread. -/
def compileSpreadOperand : Ast → Gen Unit
  | .unary _ _ operand _ => compileOperand operand
  | _ => return ()

/-- The arguments of an array mutator. -/
def compileMutation : List Ast → Gen Unit
  | [] => return ()
  | argument :: rest => do
    compileMutated argument (asUnit (compileMemberBaseIn none argument))
    compileArguments rest

/-- The items of an array. -/
def compileItems : List Ast → Gen Unit
  | [] => return ()
  | .arrayItem _ key value spread :: rest => do
    compileItem key.isSome spread (compileOperand key) (compileOperand value)
    compileItems rest
  | _ :: _ => failWith (ascii "AST node ARRAY_ITEM is expected")

/-- The conditions of the arms of a `match`: the jumps of each arm. -/
def compileConditions : List Ast → Gen (List (List Nat))
  | [] => return []
  | .matchArm _ conditions _ :: rest => do
    let jumps ← compileArmConditions conditions
    let others ← compileConditions rest
    return jumps :: others
  | _ :: _ => failWith (ascii "AST node MATCH_ARM is expected")

/-- The conditions of one arm. -/
def compileArmConditions : List Ast → Gen (List Nat)
  | [] => return []
  | condition :: rest => do
    emit (.plain .dup)
    asUnit (compileIn none condition)
    emit (.plain .ident)
    let jump ← emitJump .jmpIf
    let others ← compileArmConditions rest
    return jump :: others

/-- The results of the arms of a `match`: where the default arm is, and the jumps behind the results. -/
def compileResults : List Ast → List (List Nat) → Gen (Option Nat × List Nat)
  | [], _ => return (none, [])
  | .matchArm _ _ result :: rest, jumps => do
    let handler ← codeLength
    patchJumps (jumps.headD [])
    emit (.plain .pop)
    compileOperand result
    let jump ← emitJump .jmp
    let others ← compileResults rest jumps.tail
    return (others.1.or (if (jumps.headD []).isEmpty then some handler else none), jump :: others.2)
  | _ :: _, _ => failWith (ascii "AST node MATCH_ARM is expected")

end

/-- The code of an expression in a function of its own. The functions of the closures inside have code of their own,
which is made the same way. -/
def compileExpression (node : Option Ast) : Except (List UInt8) (List Code) :=
  match (compileOperand cfg node).run ⟨[], 0⟩ with
  | .error failure => .error failure
  | .ok (_, s) => .ok s.code

end

end PhpPico.Compiler
