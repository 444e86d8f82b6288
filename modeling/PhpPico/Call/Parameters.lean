import Mathlib.Data.List.Nodup
import PhpPico.Compiler.Ast

/-!
# Parameters

How `compile_function`, `compile_method` and `compile_closure_expression` lay out slots: `$this`, the parameters, the
captured variables, and whatever the body uses, each as `pproto_add_local` finds or adds it. The checks of types are
left out: they only refuse more.
-/

namespace PhpPico.Call
open List

open Compiler (Ast Token TokenType LiteralKind)

/-- `as.parameter` of a node. -/
structure Parameter where
  line : Nat
  name : Token
  variadic : Bool
  flags : UInt8
  type : List Ast
  defaultValue : Option Ast

/-- The name of a variable, without the dollar sign. -/
def variableName (token : Token) : List UInt8 :=
  match token.text with
  | 36 :: name => name
  | text => text

/-- The name of a parameter, without the dollar sign. -/
def Parameter.variable (p : Parameter) : List UInt8 := variableName p.name

/-- A parameter that every call has to supply. -/
def Parameter.isRequired (p : Parameter) : Bool := p.defaultValue.isNone && !p.variadic

/-! ## Constant expressions -/

/-- Whether `binary_opcode` has an operation for a token. -/
def hasBinaryOpcode (type : TokenType) : Bool :=
  [TokenType.tPlus, .tMinus, .tStar, .tSlash, .tPercent, .tPow, .tDot, .tAmp, .tPipe, .tCaret, .tShiftLeft,
    .tShiftRight, .tEqualEqual, .tNotEqual, .tIdentical, .tNotIdentical, .tLt, .tLtEqual, .tGt, .tGtEqual,
    .tSpaceship].contains type

mutual

/-- `is_constant_default`. -/
def isConstantDefault : Ast → Bool
  | .null _ => true
  | .literal kind _ _ => kind != .variable
  | .unary _ op operand _ => op != .tEllipsis && op != .tClone && isConstantOperand operand
  | .binary _ op left right => hasBinaryOpcode op && isConstantOperand left && isConstantOperand right
  | .ternary _ condition thenExpr elseExpr =>
    isConstantOperand condition && (thenExpr.isNone || isConstantOperand thenExpr) && isConstantOperand elseExpr
  | .array _ items _ => areConstantItems items
  | _ => false

/-- `is_constant_default` on a pointer. -/
def isConstantOperand : Option Ast → Bool
  | none => false
  | some node => isConstantDefault node

/-- The loop of `is_constant_default` over the items of an array. -/
def areConstantItems : List Ast → Bool
  | [] => true
  | .arrayItem _ key value spread :: rest =>
    !spread && (key.isNone || isConstantOperand key) && isConstantOperand value && areConstantItems rest
  | _ :: _ => false

end

/-! ## Slots -/

/-- `pproto_find_local`. -/
def findLocal (locals : List (List UInt8)) (name : List UInt8) : Option Nat := locals.idxOf? name

/-- `pproto_add_local`: the slots, and the one of the name. -/
def addLocal (locals : List (List UInt8)) (name : List UInt8) : Option (List (List UInt8) × Nat) :=
  match findLocal locals name with
  | some slot => some (locals, slot)
  | none => if locals.length = 255 ∨ 65535 < name.length then none else some (locals ++ [name], locals.length)

/-- `pproto_add_local` for several names, or the error a caller has for it. -/
def addLocals (failure : List UInt8) : List (List UInt8) → List (List UInt8) → Except (List UInt8) (List (List UInt8))
  | locals, [] => .ok locals
  | locals, name :: rest =>
    match addLocal locals name with
    | some (added, _) => addLocals failure added rest
    | none => .error failure

/-! ## The loop over the parameters -/

/-- What the loop over the parameters of a callable has gathered. -/
structure ParameterPass where
  locals : List (List UInt8)
  nParams : Nat
  nRequired : Nat
  variadic : Bool
  sawDefault : Bool

/-- The texts in which the loops differ. -/
structure ParameterTexts where
  tooMany : String
  atMost : String
  required : String

/-- One round of the loop. `promotion` is what the flags of a promoted property are checked for. -/
def compileParameter (texts : ParameterTexts) (promotion : Parameter → Option String) (p : Parameter) (hasNext : Bool)
    (pass : ParameterPass) : Except (List UInt8) ParameterPass :=
  match promotion p with
  | some failure => .error (ascii failure)
  | none =>
    match addLocal pass.locals p.variable with
    | none => .error (ascii texts.tooMany)
    | some (locals, _) =>
      if 31 < pass.nParams + 1 then .error (ascii texts.atMost)
      else if p.variadic && hasNext then .error (ascii "variadic parameter must be last")
      else if p.variadic && p.defaultValue.isSome then .error (ascii "variadic parameter cannot have a default value")
      else if p.isRequired && pass.sawDefault then .error (ascii texts.required)
      else .ok ⟨locals, pass.nParams + 1, pass.nRequired + if p.isRequired then 1 else 0, p.variadic,
        pass.sawDefault || !p.isRequired⟩

/-- The loop. -/
def compileParameters (texts : ParameterTexts) (promotion : Parameter → Option String) :
    List Parameter → ParameterPass → Except (List UInt8) ParameterPass
  | [], pass => .ok pass
  | p :: rest, pass =>
    match compileParameter texts promotion p (!rest.isEmpty) pass with
    | .error failure => .error failure
    | .ok next => compileParameters texts promotion rest next

/-! ## Defaults -/

/-- The code of a default: where more than `index` arguments are given it is jumped over, otherwise its value is
stored in the slot. -/
structure DefaultCode where
  index : Nat
  slot : Nat
  value : Ast

/-- `compile_parameter_defaults`. -/
def compileParameterDefaults : Nat → List (List UInt8) → List Parameter →
    Except (List UInt8) (List (List UInt8) × List DefaultCode)
  | _, locals, [] => .ok (locals, [])
  | index, locals, p :: rest =>
    match p.defaultValue with
    | none => compileParameterDefaults (index + 1) locals rest
    | some value =>
      if !isConstantDefault value then .error (ascii "parameter default must be a constant expression")
      else
        match addLocal locals p.variable with
        | none => .error (ascii "too many local variables or out of memory")
        | some (added, slot) =>
          match compileParameterDefaults (index + 1) added rest with
          | .error failure => .error failure
          | .ok (locals, codes) => .ok (locals, ⟨index, slot, value⟩ :: codes)

/-! ## Callables -/

/-- What calls need of a `pproto`: its slots, its parameters, and the code in front of its body. -/
structure Callable where
  locals : List (List UInt8)
  nParams : Nat
  nRequired : Nat
  variadic : Bool
  isMethod : Bool
  parameterTypes : List (List Ast)
  defaults : List DefaultCode
  promotions : List (Nat × List UInt8)

/-- The slots of the promoted parameters with their properties. -/
def compilePromotions (locals : List (List UInt8)) (parameters : List Parameter) : List (Nat × List UInt8) :=
  (parameters.filter fun p => p.flags != 0).filterMap fun p =>
    (findLocal locals p.variable).map fun slot => (slot, p.variable)

/-- What the three functions have in common: the parameters behind the slots `start`, the captured variables, the
defaults, the promoted properties, and `names`, the variables of the body in the order of its code. -/
def compileCallable (texts : ParameterTexts) (promotion : Parameter → Option String) (start : List (List UInt8))
    (promotes : Bool) (parameters : List Parameter) (captures names : List (List UInt8)) :
    Except (List UInt8) Callable :=
  match compileParameters texts promotion parameters ⟨start, 0, 0, false, false⟩ with
  | .error failure => .error failure
  | .ok pass =>
    match addLocals (ascii "too many closure captures") pass.locals captures with
    | .error failure => .error failure
    | .ok captured =>
      match compileParameterDefaults 0 captured parameters with
      | .error failure => .error failure
      | .ok (compiled, defaults) =>
        match addLocals (ascii "too many local variables or out of memory") compiled names with
        | .error failure => .error failure
        | .ok locals =>
          .ok ⟨locals, pass.nParams, pass.nRequired, pass.variadic, !start.isEmpty, parameters.map (·.type), defaults,
            if promotes then compilePromotions compiled parameters else []⟩

/-- `compile_function`, from the parameters on. -/
def compileFunction (parameters : List Parameter) (names : List (List UInt8)) : Except (List UInt8) Callable :=
  compileCallable
    ⟨"too many function parameters", "a function may have at most 31 parameters",
      "required parameter follows optional parameter"⟩
    (fun p => if p.flags ≠ 0 then some "property promotion is only valid in a constructor" else none)
    [] false parameters [] names

/-- What `compile_method` asks of the class and the method. -/
structure MethodContext where
  isStatic : Bool
  isConstructor : Bool
  isInterface : Bool
  isAbstract : Bool
  declarationOnly : Bool
  readonlyClass : Bool

/-- The checks of `compile_method` on a promoted property. `PC_MOD_READONLY` is 64. -/
def promotionFailure (context : MethodContext) (p : Parameter) : Option String :=
  if p.flags = 0 then none
  else if !context.isConstructor then some "property promotion is only valid in a constructor"
  else if context.isInterface || context.isAbstract || context.declarationOnly || context.isStatic then
    some "property promotion requires a concrete instance constructor"
  else if p.variadic then some "a promoted property cannot be variadic"
  else if (p.flags &&& 64 ≠ 0 ∨ context.readonlyClass) ∧ p.type = [] then
    some "a readonly property must have a type"
  else none

/-- The name of the slot of `$this`. -/
def thisName : List UInt8 := ascii "this"

/-- `compile_method`, from the slot of `$this` on. -/
def compileMethod (context : MethodContext) (parameters : List Parameter) (names : List (List UInt8)) :
    Except (List UInt8) Callable :=
  compileCallable
    ⟨"too many method parameters", "a method may have at most 31 parameters",
      "required parameter follows optional parameter"⟩
    (promotionFailure context) (if context.isStatic then [] else [thisName]) context.isConstructor parameters [] names

/-! ## Captured variables -/

/-- `capture_add`. -/
def captureAdd (parameters : List Parameter) (captures : List (List UInt8)) (name : List UInt8) :
    Option (List (List UInt8)) :=
  if parameters.any fun p => p.variable == name then some captures
  else if captures.contains name then some captures
  else if captures.length = 64 then none
  else some (captures ++ [name])

/-- `capture_add` for several variables. -/
def captureAll (parameters : List Parameter) : List (List UInt8) → List (List UInt8) → Option (List (List UInt8))
  | captures, [] => some captures
  | captures, name :: rest => (captureAdd parameters captures name).bind fun added => captureAll parameters added rest

/-- The loop over the variables that a closure lists. -/
def captureUses (parameters : List Parameter) :
    List (List UInt8) → List (List UInt8) → Except (List UInt8) (List (List UInt8))
  | captures, [] => .ok captures
  | captures, name :: rest =>
    if parameters.any fun p => p.variable == name then
      .error (ascii "closure cannot capture a parameter with the same name")
    else
      match captureAdd parameters captures name with
      | none => .error (ascii "too many closure captures")
      | some added => captureUses parameters added rest

/-- The captured variables of a closure: those it lists, and `$this` where the body refers to it. -/
def closureCaptures (parameters : List Parameter) (uses referenced : List (List UInt8)) (isStatic : Bool) :
    Except (List UInt8) (List (List UInt8)) :=
  match captureUses parameters [] uses with
  | .error failure => .error failure
  | .ok captures =>
    match captureAll parameters [] referenced with
    | none => .error (ascii "too many variables referenced by closure")
    | some found =>
      if !found.contains thisName then .ok captures
      else if isStatic then .error (ascii "static closure cannot use $this")
      else
        match captureAdd parameters captures thisName with
        | some captures => .ok captures
        | none => .error (ascii "too many closure captures")

/-- The captured variables of an arrow function: those its body refers to. -/
def arrowCaptures (parameters : List Parameter) (referenced : List (List UInt8)) (isStatic : Bool) :
    Except (List UInt8) (List (List UInt8)) :=
  match captureAll parameters [] referenced with
  | none => .error (ascii "too many variables captured by arrow function")
  | some captures =>
    if isStatic && captures.contains thisName then .error (ascii "static arrow function cannot use $this")
    else .ok captures

/-- `compile_closure_expression`, with the variables that `collect_captures` finds in the body. -/
def compileClosure (parameters : List Parameter) (isArrow isStatic : Bool) (uses referenced names : List (List UInt8)) :
    Except (List UInt8) (Callable × List (List UInt8)) :=
  match if isArrow then arrowCaptures parameters referenced isStatic
    else closureCaptures parameters uses referenced isStatic with
  | .error failure => .error failure
  | .ok captures =>
    match compileCallable
      ⟨"too many closure parameters", "a closure may have at most 31 parameters",
        "required closure parameter follows optional parameter"⟩
      (fun _ => none) [] false parameters captures names with
    | .error failure => .error failure
    | .ok callable => .ok (callable, captures)

/-! ## Slots that are kept -/

/-- The slots of some locals stay what they are while locals are added. -/
structure Grows (locals added : List (List UInt8)) : Prop where
  kept : locals <+: added
  nodup : locals.Nodup → added.Nodup
  bound : locals.length ≤ 255 → added.length ≤ 255

theorem Grows.refl (locals : List (List UInt8)) : Grows locals locals := ⟨prefix_refl _, id, id⟩

theorem Grows.trans {a b c : List (List UInt8)} (first : Grows a b) (second : Grows b c) : Grows a c :=
  ⟨first.kept.trans second.kept, second.nodup ∘ first.nodup, second.bound ∘ first.bound⟩

variable {locals added names captures : List (List UInt8)} {name : List UInt8} {slot : Nat}
  {texts : ParameterTexts} {promotion : Parameter → Option String} {parameters : List Parameter}

theorem findLocal_eq_none : findLocal locals name = none ↔ name ∉ locals := by
  simp [findLocal]

/-- A name that stands once is found where it stands. -/
theorem findLocal_getElem (nodup : locals.Nodup)
    (get : locals[slot]? = some name) : findLocal locals name = some slot := by
  obtain ⟨bound, rfl⟩ := List.getElem?_eq_some_iff.mp get
  refine idxOf?_eq_some_iff.mpr ⟨bound, rfl, fun j before same => ?_⟩
  have : j = slot := (nodup.getElem_inj_iff).mp same
  omega

theorem findLocal_kept (kept : locals <+: added)
    (found : findLocal locals name = some slot) : findLocal added name = some slot := by
  obtain ⟨bound, here, before⟩ := idxOf?_eq_some_iff.mp found
  obtain ⟨new, rfl⟩ := kept
  refine idxOf?_eq_some_iff.mpr ⟨by rw [length_append]; omega, ?_, fun j below => ?_⟩
  · rw [getElem_append_left bound, here]
  · rw [getElem_append_left (by omega)]
    exact before j below

theorem findLocal_isSome (mem : name ∈ locals) : ∃ slot, findLocal locals name = some slot :=
  Option.isSome_iff_exists.mp (isSome_idxOf?.mpr mem)

theorem addLocal_grows (new : addLocal locals name = some (added, slot)) : Grows locals added := by
  unfold addLocal at new
  split at new
  · cases new
    exact .refl _
  · rename_i missing
    split at new
    · cases new
    · rename_i room
      cases new
      refine ⟨prefix_append _ _, fun nodup => ?_, fun bound => by simp; omega⟩
      have absent := findLocal_eq_none.mp missing
      have apart (other : List UInt8) (mem : other ∈ locals) : ¬ other = name := fun same => absent (same ▸ mem)
      simpa [nodup_append, nodup] using apart

theorem addLocal_mem (new : addLocal locals name = some (added, slot)) : name ∈ added := by
  unfold addLocal at new
  split at new
  · rename_i found
    cases new
    by_contra absent
    rw [findLocal_eq_none.mpr absent] at found
    cases found
  · split at new
    · cases new
    · cases new
      simp

theorem addLocal_new (absent : name ∉ locals)
    (new : addLocal locals name = some (added, slot)) : added = locals ++ [name] := by
  rw [addLocal, findLocal_eq_none.mpr absent] at new
  dsimp only at new
  split at new
  · cases new
  · cases new
    rfl

theorem addLocal_found (found : findLocal locals name = some slot) : addLocal locals name = some (locals, slot) := by
  rw [addLocal, found]

theorem addLocals_grows {failure : List UInt8}
    (new : addLocals failure locals names = .ok added) : Grows locals added := by
  induction names generalizing locals with
  | nil =>
    cases new
    exact .refl _
  | cons name rest ih =>
    unfold addLocals at new
    split at new
    · rename_i one slot first
      exact (addLocal_grows first).trans (ih new)
    · cases new

theorem addLocals_new {failure : List UInt8} (distinct : (locals ++ names).Nodup)
    (new : addLocals failure locals names = .ok added) : added = locals ++ names := by
  induction names generalizing locals with
  | nil =>
    cases new
    simp
  | cons name rest ih =>
    unfold addLocals at new
    split at new
    · rename_i one slot first
      have absent : name ∉ locals := fun mem => (nodup_append.mp distinct).2.2 name mem name (by simp) rfl
      rw [addLocal_new absent first] at new
      rw [ih (by simpa using distinct) new]
      simp
    · cases new

/-! ## The loop, round by round -/

/-- What a round of the loop over the parameters does. -/
structure Round (p : Parameter) (hasNext : Bool) (pass next : ParameterPass) : Prop where
  added : ∃ slot, addLocal pass.locals p.variable = some (next.locals, slot)
  nParams : next.nParams = pass.nParams + 1
  bound : next.nParams ≤ 31
  nRequired : next.nRequired = pass.nRequired + if p.isRequired then 1 else 0
  variadic : next.variadic = p.variadic
  sawDefault : next.sawDefault = (pass.sawDefault || !p.isRequired)
  last : p.variadic = true → hasNext = false ∧ p.defaultValue = none
  order : p.isRequired = true → pass.sawDefault = false

theorem compileParameter_round {p : Parameter} {hasNext : Bool} {pass next : ParameterPass}
    (compiled : compileParameter texts promotion p hasNext pass = .ok next) : Round p hasNext pass next := by
  unfold compileParameter at compiled
  split at compiled
  · cases compiled
  · split at compiled
    · cases compiled
    · rename_i locals slot added
      split at compiled
      · cases compiled
      rename_i few
      split at compiled
      · cases compiled
      rename_i notLast
      split at compiled
      · cases compiled
      rename_i noDefault
      split at compiled
      · cases compiled
      rename_i order
      cases compiled
      refine ⟨⟨slot, added⟩, rfl, not_lt.mp few, rfl, rfl, rfl, fun variadic => ?_, fun required => ?_⟩
      · simpa [variadic] using And.intro notLast noDefault
      · simpa [required] using order

theorem compileParameters_cons {p : Parameter} {rest : List Parameter} {pass result : ParameterPass}
    (compiled : compileParameters texts promotion (p :: rest) pass = .ok result) :
    ∃ next, Round p (!rest.isEmpty) pass next ∧ compileParameters texts promotion rest next = .ok result := by
  unfold compileParameters at compiled
  split at compiled
  · cases compiled
  · rename_i next round
    exact ⟨next, compileParameter_round round, compiled⟩

section Loop
variable {texts : ParameterTexts} {promotion : Parameter → Option String} {parameters : List Parameter}
  {pass result : ParameterPass}

theorem compileParameters_grows (compiled : compileParameters texts promotion parameters pass = .ok result) :
    Grows pass.locals result.locals := by
  induction parameters generalizing pass with
  | nil =>
    cases compiled
    exact .refl _
  | cons p rest ih =>
    obtain ⟨next, round, following⟩ := compileParameters_cons compiled
    obtain ⟨slot, added⟩ := round.added
    exact (addLocal_grows added).trans (ih following)

theorem compileParameters_count (compiled : compileParameters texts promotion parameters pass = .ok result) :
    result.nParams = pass.nParams + parameters.length := by
  induction parameters generalizing pass with
  | nil =>
    cases compiled
    rfl
  | cons p rest ih =>
    obtain ⟨next, round, following⟩ := compileParameters_cons compiled
    rw [ih following, round.nParams, length_cons]
    omega

theorem compileParameters_bound (compiled : compileParameters texts promotion parameters pass = .ok result)
    (start : pass.nParams ≤ 31) : result.nParams ≤ 31 := by
  induction parameters generalizing pass with
  | nil =>
    cases compiled
    exact start
  | cons p rest ih =>
    obtain ⟨next, round, following⟩ := compileParameters_cons compiled
    exact ih following round.bound

theorem compileParameters_required (compiled : compileParameters texts promotion parameters pass = .ok result) :
    result.nRequired = pass.nRequired + (parameters.filter Parameter.isRequired).length := by
  induction parameters generalizing pass with
  | nil =>
    cases compiled
    rfl
  | cons p rest ih =>
    obtain ⟨next, round, following⟩ := compileParameters_cons compiled
    rw [ih following, round.nRequired, filter_cons]
    split
    · simp
      omega
    · simp

variable {p : Parameter}

theorem compileParameters_mem (compiled : compileParameters texts promotion parameters pass = .ok result)
    (mem : p ∈ parameters) : p.variable ∈ result.locals := by
  induction parameters generalizing pass with
  | nil => cases mem
  | cons first rest ih =>
    obtain ⟨next, round, following⟩ := compileParameters_cons compiled
    obtain ⟨slot, added⟩ := round.added
    cases mem with
    | head => exact (compileParameters_grows following).kept.subset (addLocal_mem added)
    | tail _ mem => exact ih following mem

/-- Parameters of different names get slots of their own, one behind the other. -/
theorem compileParameters_locals (compiled : compileParameters texts promotion parameters pass = .ok result)
    (distinct : (pass.locals ++ parameters.map Parameter.variable).Nodup) :
    result.locals = pass.locals ++ parameters.map Parameter.variable := by
  induction parameters generalizing pass with
  | nil =>
    cases compiled
    simp
  | cons p rest ih =>
    obtain ⟨next, round, following⟩ := compileParameters_cons compiled
    obtain ⟨slot, added⟩ := round.added
    have absent : p.variable ∉ pass.locals := fun mem =>
      (nodup_append.mp distinct).2.2 p.variable mem p.variable (by simp) rfl
    have grown := addLocal_new absent added
    rw [ih following (by simpa [grown] using distinct), grown]
    simp

theorem compileParameters_variadic (compiled : compileParameters texts promotion parameters pass = .ok result)
    {i : Nat} (get : parameters[i]? = some p) (variadic : p.variadic = true) :
    i + 1 = parameters.length ∧ p.defaultValue = none := by
  induction parameters generalizing pass i with
  | nil => simp at get
  | cons first rest ih =>
    obtain ⟨next, round, following⟩ := compileParameters_cons compiled
    cases i with
    | zero =>
      cases get
      obtain ⟨last, default⟩ := round.last variadic
      refine ⟨?_, default⟩
      simpa using last
    | succ i =>
      obtain ⟨last, default⟩ := ih following (by simpa using get)
      exact ⟨by simpa using last, default⟩

theorem compileParameters_last (compiled : compileParameters texts promotion parameters pass = .ok result) :
    result.variadic = (parameters.getLast?.map Parameter.variadic).getD pass.variadic := by
  induction parameters generalizing pass with
  | nil =>
    cases compiled
    rfl
  | cons p rest ih =>
    obtain ⟨next, round, following⟩ := compileParameters_cons compiled
    rw [ih following, round.variadic, getLast?_cons]
    cases rest.getLast? <;> rfl

theorem compileParameters_optional (compiled : compileParameters texts promotion parameters pass = .ok result)
    (start : pass.sawDefault = false → pass.nRequired = pass.nParams) {i : Nat} (get : parameters[i]? = some p)
    (fixed : p.variadic = false) (behind : result.nRequired ≤ pass.nParams + i) : p.defaultValue.isSome = true := by
  induction parameters generalizing pass i with
  | nil => simp at get
  | cons first rest ih =>
    obtain ⟨next, round, following⟩ := compileParameters_cons compiled
    cases i with
    | zero =>
      cases get
      by_contra none
      have required : p.isRequired = true := by
        simpa [Parameter.isRequired, fixed] using none
      have counted := start (round.order required)
      have total := compileParameters_required following
      rw [round.nRequired, required, if_pos rfl] at total
      omega
    | succ i =>
      refine ih following (fun open' => ?_) (by simpa using get) (by rw [round.nParams]; omega)
      rw [round.sawDefault, Bool.or_eq_false_iff] at open'
      have required : first.isRequired = true := by simpa using open'.2
      rw [round.nRequired, round.nParams, start open'.1, required, if_pos rfl]

end Loop

/-! ## Layout -/

/-- The code of the defaults where parameter `index` has slot `offset + index`. -/
def defaultCodes (offset : Nat) : Nat → List Parameter → List DefaultCode
  | _, [] => []
  | index, p :: rest =>
    match p.defaultValue with
    | none => defaultCodes offset (index + 1) rest
    | some value => ⟨index, offset + index, value⟩ :: defaultCodes offset (index + 1) rest

theorem compileParameterDefaults_codes {offset index : Nat} {compiled : List (List UInt8)} {codes : List DefaultCode}
    (slots : ∀ i p, parameters[i]? = some p → findLocal locals p.variable = some (offset + (index + i)))
    (ok : compileParameterDefaults index locals parameters = .ok (compiled, codes)) :
    compiled = locals ∧ codes = defaultCodes offset index parameters := by
  induction parameters generalizing index codes with
  | nil =>
    cases ok
    exact ⟨rfl, rfl⟩
  | cons p rest ih =>
    have following (i : Nat) (q : Parameter) (get : rest[i]? = some q) :
        findLocal locals q.variable = some (offset + (index + 1 + i)) := by
      have slot := slots (i + 1) q (by simpa using get)
      rwa [show index + (i + 1) = index + 1 + i by omega] at slot
    have own := slots 0 p rfl
    rw [add_zero] at own
    unfold compileParameterDefaults at ok
    unfold defaultCodes
    cases default : p.defaultValue with
    | none =>
      rw [default] at ok
      exact ih following ok
    | some value =>
      rw [default] at ok
      dsimp only at ok ⊢
      split at ok
      · cases ok
      · rw [addLocal_found own] at ok
        dsimp only at ok
        split at ok
        · cases ok
        · rename_i others rests done
          cases ok
          obtain ⟨same, codes⟩ := ih following done
          exact ⟨same, by rw [codes]⟩

theorem compileParameterDefaults_grows {index : Nat} {compiled : List (List UInt8)} {codes : List DefaultCode}
    (ok : compileParameterDefaults index locals parameters = .ok (compiled, codes)) : Grows locals compiled := by
  induction parameters generalizing index locals codes with
  | nil =>
    cases ok
    exact .refl _
  | cons p rest ih =>
    unfold compileParameterDefaults at ok
    split at ok
    · exact ih ok
    · split at ok
      · cases ok
      split at ok
      · cases ok
      rename_i added slot first
      split at ok
      · cases ok
      rename_i others codes following
      cases ok
      exact (addLocal_grows first).trans (ih following)

theorem compilePromotions_slots {final : List (List UInt8)} (slots : ∀ p ∈ parameters, ∃ slot,
      findLocal locals p.variable = some slot ∧ findLocal final p.variable = some slot) :
    compilePromotions locals parameters =
      (parameters.filter fun p => p.flags != 0).map fun p => ((findLocal final p.variable).getD 0, p.variable) := by
  rw [compilePromotions, ← filterMap_eq_map]
  refine filterMap_congr fun p mem => ?_
  obtain ⟨slot, found, kept⟩ := slots p (mem_of_mem_filter mem)
  simp [found, kept]

/-- The slots of a callable. -/
structure Layout (c : Callable) (start : List (List UInt8)) (promotes : Bool) (parameters : List Parameter)
    (captures : List (List UInt8)) : Prop where
  kept : start ++ parameters.map Parameter.variable ++ captures <+: c.locals
  nodup : c.locals.Nodup
  defaults : c.defaults = defaultCodes start.length 0 parameters
  promotions : c.promotions = if promotes then
    (parameters.filter fun p => p.flags != 0).map fun p => ((findLocal c.locals p.variable).getD 0, p.variable) else []

/-- What holds of the parameters of a callable whatever their names are. -/
structure Counted (c : Callable) (start : List (List UInt8)) (parameters : List Parameter) : Prop where
  nParams : c.nParams = parameters.length
  bound : parameters.length ≤ 31
  locals : c.locals.length ≤ 255
  nRequired : c.nRequired = (parameters.filter Parameter.isRequired).length
  variadic : c.variadic = (parameters.getLast?.map Parameter.variadic).getD false
  isMethod : c.isMethod = !start.isEmpty
  types : c.parameterTypes = parameters.map (·.type)
  last : ∀ i p, parameters[i]? = some p → p.variadic = true → i + 1 = parameters.length ∧ p.defaultValue = none
  optional : ∀ i p, parameters[i]? = some p → p.variadic = false → c.nRequired ≤ i → p.defaultValue.isSome = true

theorem compileCallable_counted {start : List (List UInt8)} {promotes : Bool} {c : Callable}
    (compiled : compileCallable texts promotion start promotes parameters captures names = .ok c)
    (few : start.length ≤ 255) : Counted c start parameters := by
  unfold compileCallable at compiled
  split at compiled
  · cases compiled
  rename_i pass loop
  split at compiled
  · cases compiled
  rename_i captured capturing
  split at compiled
  · cases compiled
  rename_i after defaults defaulting
  split at compiled
  · cases compiled
  rename_i locals naming
  cases compiled
  have count := compileParameters_count loop
  have bound := compileParameters_bound loop (by simp)
  rw [zero_add] at count
  have grows := (compileParameters_grows loop).trans (addLocals_grows capturing)
  refine ⟨count, by omega, ?_, ?_, compileParameters_last loop, rfl, rfl,
    fun i p => compileParameters_variadic loop, ?_⟩
  · exact ((grows.trans (compileParameterDefaults_grows defaulting)).trans (addLocals_grows naming)).bound few
  · simpa using compileParameters_required loop
  · intro i p get fixed behind
    exact compileParameters_optional loop (fun _ => rfl) get fixed (by simpa using behind)

theorem compileCallable_layout {start : List (List UInt8)} {promotes : Bool} {c : Callable}
    (compiled : compileCallable texts promotion start promotes parameters captures names = .ok c)
    (distinct : (start ++ parameters.map Parameter.variable ++ captures).Nodup) :
    Layout c start promotes parameters captures := by
  unfold compileCallable at compiled
  split at compiled
  · cases compiled
  rename_i pass loop
  split at compiled
  · cases compiled
  rename_i captured capturing
  split at compiled
  · cases compiled
  rename_i after defaults defaulting
  split at compiled
  · cases compiled
  rename_i locals naming
  cases compiled
  have own : pass.locals = start ++ parameters.map Parameter.variable :=
    compileParameters_locals loop (nodup_append.mp distinct).1
  rw [own] at capturing
  have all := addLocals_new distinct capturing
  have slots (i : Nat) (p : Parameter) (get : parameters[i]? = some p) :
      findLocal captured p.variable = some (start.length + (0 + i)) := by
    refine findLocal_getElem (all ▸ distinct) ?_
    have bound : i < parameters.length := (List.getElem?_eq_some_iff.mp get).1
    rw [all, append_assoc, getElem?_append_right (by omega), getElem?_append_left (by simp; omega)]
    simp [get]
  obtain ⟨same, codes⟩ := compileParameterDefaults_codes slots defaulting
  have grows := addLocals_grows naming
  rw [same, all] at grows
  refine ⟨grows.kept, grows.nodup distinct, codes, ?_⟩
  cases promotes with
  | false => rfl
  | true =>
    refine compilePromotions_slots fun p mem => ?_
    obtain ⟨i, get⟩ := mem_iff_getElem?.mp mem
    exact ⟨_, same ▸ slots i p get, findLocal_kept grows.kept (all ▸ slots i p get)⟩

/-! ## What is captured -/

/-- Captured variables are different ones, and none is a parameter. -/
structure Captured (parameters : List Parameter) (captures : List (List UInt8)) : Prop where
  nodup : captures.Nodup
  apart : ∀ p ∈ parameters, p.variable ∉ captures

theorem Captured.nil (parameters : List Parameter) : Captured parameters [] := ⟨nodup_nil, by simp⟩

theorem Captured.add (captured : Captured parameters captures)
    (new : captureAdd parameters captures name = some added) : Captured parameters added := by
  unfold captureAdd at new
  split at new
  · cases new
    exact captured
  rename_i noParameter
  split at new
  · cases new
    exact captured
  rename_i absent
  split at new
  · cases new
  cases new
  have fresh : name ∉ captures := by simpa using absent
  have other (p : Parameter) (mem : p ∈ parameters) : p.variable ≠ name := by
    intro same
    exact noParameter (List.any_eq_true.mpr ⟨p, mem, by simp [same]⟩)
  constructor
  · have apart (one : List UInt8) (mem : one ∈ captures) : ¬ one = name := fun same => fresh (same ▸ mem)
    simpa [nodup_append, captured.nodup] using apart
  · intro p mem
    simpa using And.intro (captured.apart p mem) (other p mem)

theorem Captured.all (captured : Captured parameters captures)
    (new : captureAll parameters captures names = some added) : Captured parameters added := by
  induction names generalizing captures with
  | nil =>
    cases new
    exact captured
  | cons name rest ih =>
    obtain ⟨one, first, following⟩ := Option.bind_eq_some_iff.mp new
    exact ih (captured.add first) following

theorem Captured.uses (captured : Captured parameters captures)
    (new : captureUses parameters captures names = .ok added) : Captured parameters added := by
  induction names generalizing captures with
  | nil =>
    cases new
    exact captured
  | cons name rest ih =>
    unfold captureUses at new
    split at new
    · cases new
    split at new
    · cases new
    rename_i one first
    exact ih (captured.add first) new

theorem closureCaptures_captured {uses referenced : List (List UInt8)} {isStatic : Bool}
    (found : closureCaptures parameters uses referenced isStatic = .ok captures) : Captured parameters captures := by
  unfold closureCaptures at found
  split at found
  · cases found
  rename_i listed using'
  have captured := (Captured.nil parameters).uses using'
  split at found
  · cases found
  split at found
  · cases found
    exact captured
  split at found
  · cases found
  split at found
  · rename_i all this
    cases found
    exact captured.add this
  · cases found

theorem arrowCaptures_captured {referenced : List (List UInt8)} {isStatic : Bool}
    (found : arrowCaptures parameters referenced isStatic = .ok captures) : Captured parameters captures := by
  unfold arrowCaptures at found
  split at found
  · cases found
  rename_i all capturing
  split at found
  · cases found
  · cases found
    exact (Captured.nil parameters).all capturing

end PhpPico.Call
