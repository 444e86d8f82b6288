import PhpPico.Compiler.Expression
import PhpPico.Closure.Collected

/-!
# The variables that code reads

The code of an expression reads no variable but its references and the classes of its `new` expressions, and it does
read the latter: what each step of the generator does to the variables read so far.
-/

namespace PhpPico.Closure
open List

open Compiler Call

/-- A step after which the code reads, besides what it read before, only variables of a set. -/
def Within {α : Type} (names : Name → Prop) (g : Gen α) : Prop :=
  ∀ s a s', g.run s = .ok (a, s') → ∀ x ∈ readIn s', x ∈ readIn s ∨ names x

/-- A step after which the code reads a variable. -/
def Adds {α : Type} (x : Name) (g : Gen α) : Prop := ∀ s a s', g.run s = .ok (a, s') → x ∈ readIn s'

/-! ## Steps -/

section Steps
variable {α β : Type} {names : Name → Prop} {x : Name}

variable {g : Gen α} {f : α → Gen β}

theorem bind_ok {s s' : Generated} {b : β} (ran : (g >>= f).run s = .ok (b, s')) :
    ∃ a between, g.run s = .ok (a, between) ∧ (f a).run between = .ok (b, s') := by
  change (g.andThen f).run s = .ok (b, s') at ran
  unfold Gen.andThen at ran
  cases first : g.run s with
  | error failure =>
    simp only [first, reduceCtorEq] at ran
  | ok result =>
    simp only [first] at ran
    exact ⟨result.1, result.2, rfl, ran⟩

theorem within_of_same (same : ∀ s a s', g.run s = .ok (a, s') → readIn s' = readIn s) : Within names g := by
  intro s a s' ran
  rw [same s a s' ran]
  exact fun _ => .inl

theorem within_pure (a : α) : Within names (pure a : Gen α) := by
  refine within_of_same fun s b s' ran => ?_
  cases ran
  rfl

theorem within_fail (text : List UInt8) : Within names (failWith text : Gen α) := by
  intro s a s' ran
  cases ran

theorem Within.bind (first : Within names g) (next : ∀ a, Within names (f a)) : Within names (g >>= f) := by
  intro s b s' ran x mem
  obtain ⟨a, between, one, two⟩ := bind_ok ran
  obtain old | new := next a between b s' two x mem
  · exact first s a between one x old
  · exact .inr new

theorem within_emit {i : Code} (within : ∀ y ∈ i.reads, names y) : Within names (emit i) := by
  intro s a s' ran y mem
  cases ran
  rw [readIn_emit] at mem
  obtain old | new := mem_append.mp mem
  · exact .inl old
  · exact .inr (within y new)

theorem within_emit_none {i : Code} (none : i.reads = []) : Within names (emit i) :=
  within_emit fun y mem => by
    rw [none] at mem
    cases mem

theorem within_load {quiet : Bool} {name : Name} (mem : names name) : Within names (emit (.loadLocal quiet name)) :=
  within_emit fun y same => by
    cases mem_singleton.mp same
    exact mem

theorem within_patchTo (position target : Nat) : Within names (patchTo position target) := by
  refine within_of_same fun s a s' ran => ?_
  cases ran
  exact readIn_modify _ _ _

theorem within_codeLength : Within names codeLength := by
  refine within_of_same fun s a s' ran => ?_
  cases ran
  rfl

theorem within_emitJump (op : JumpOp) : Within names (emitJump op) :=
  within_codeLength.bind fun _ => (within_emit_none rfl).bind fun _ => within_pure _

theorem within_patchJump (position : Nat) : Within names (patchJump position) :=
  within_codeLength.bind fun _ => within_patchTo _ _

theorem within_patchJumps (positions : List Nat) : Within names (patchJumps positions) := by
  induction positions with
  | nil => exact within_pure ()
  | cons position rest ih => exact (within_patchJump position).bind fun _ => ih

theorem within_temporarySlot : Within names temporarySlot := by
  refine within_of_same fun s a s' ran => ?_
  cases ran
  rfl

theorem within_clearTemporarySlot (slot : Nat) : Within names (clearTemporarySlot slot) :=
  (within_emit_none rfl).bind fun _ => within_emit_none rfl

/-- What a step gives has a property. -/
def Gives (P : α → Prop) (g : Gen α) : Prop := ∀ s a s', g.run s = .ok (a, s') → P a

theorem gives_pure {P : α → Prop} {a : α} (holds : P a) : Gives P (pure a : Gen α) := by
  intro s b s' ran
  cases ran
  exact holds

theorem gives_fail {P : α → Prop} (text : List UInt8) : Gives P (failWith text : Gen α) := by
  intro s a s' ran
  cases ran

theorem Gives.bind {P : β → Prop} (next : ∀ a, Gives P (f a)) : Gives P (g >>= f) := by
  intro s b s' ran
  obtain ⟨a, between, -, two⟩ := bind_ok ran
  exact next a between b s' two

theorem adds_fail (text : List UInt8) : Adds x (failWith text : Gen α) := by
  intro s a s' ran
  cases ran

theorem Adds.left (first : Adds x g) : Adds x (g >>= f) := by
  intro s b s' ran
  obtain ⟨a, between, one, two⟩ := bind_ok ran
  exact (f a).keeps between b s' two x (first s a between one)

theorem Adds.right (next : ∀ a, Adds x (f a)) : Adds x (g >>= f) := by
  intro s b s' ran
  obtain ⟨a, between, -, two⟩ := bind_ok ran
  exact next a between b s' two

theorem adds_load (quiet : Bool) (name : Name) : Adds name (emit (.loadLocal quiet name)) := by
  intro s a s' ran
  cases ran
  rw [readIn_emit]
  exact mem_append_right _ (mem_singleton.mpr rfl)

end Steps

/-! ## The functions of the generator -/

section Functions
variable {names : Name → Prop}

theorem within_emitInteger (cfg : Config) (token : Token) : Within names (emitInteger cfg token) := by
  unfold emitInteger
  repeat' first
    | with_reducible first
      | exact within_fail _
    | split
    | exact within_emit_none rfl

theorem within_emitLiteral {cfg : Config} {quiet : Bool} {kind : LiteralKind} {token : Token}
    (mem : kind = .variable → names (variableName token)) : Within names (emitLiteral cfg quiet kind token) := by
  cases kind with
  | «variable» => exact within_load (mem rfl)
  | int => exact within_emitInteger cfg token
  | float =>
    unfold emitLiteral
    dsimp only
    split
    · exact within_emit_none rfl
    · exact within_fail _
  | bool | string | identifier => exact within_emit_none rfl

theorem within_emitCompound (op : TokenType) : Within names (emitCompound op) := by
  unfold emitCompound
  split
  · exact within_emit_none rfl
  · exact within_fail _

theorem within_emitUnary (op : TokenType) : Within names (emitUnary op) := by
  unfold emitUnary
  repeat' first
    | with_reducible first
      | exact within_fail _ | refine .bind ?_ fun _ => ?_
    | split
    | exact within_emit_none rfl

/-- The variable that an index starts from is one of the set. -/
def Rooted (names : Name → Prop) (lvalue : IndexLvalue) : Prop :=
  ∀ name quiet, lvalue.root = .named name quiet → names name

section Lvalue
variable {lvalue : IndexLvalue}

theorem Rooted.emitParent (rooted : Rooted names lvalue) (index : Nat) : Within names (lvalue.emitParent index) := by
  cases index with
  | succ before => exact within_emit_none rfl
  | zero =>
    unfold IndexLvalue.emitParent Root.emitLoad
    dsimp only
    split
    · rename_i name quiet root
      exact within_load (rooted name quiet root)
    · exact within_emit_none rfl
    · exact within_emit_none rfl

theorem within_emitKey (index : Nat) : Within names (lvalue.emitKey index) := within_emit_none rfl

theorem Rooted.emitCurrent (rooted : Rooted names lvalue) : Within names lvalue.emitCurrent :=
  (rooted.emitParent _).bind fun _ => (within_emitKey _).bind fun _ => within_emit_none rfl

theorem within_storeRoot : Within names lvalue.storeRoot := by
  unfold IndexLvalue.storeRoot
  repeat' first
    | with_reducible first
      | refine .bind ?_ fun _ => ?_
    | split
    | exact within_emit_none rfl

theorem Rooted.propagateFrom (rooted : Rooted names lvalue) (update index : Nat) :
    Within names (lvalue.propagateFrom update index) := by
  induction index with
  | zero => exact within_pure ()
  | succ index ih =>
    cases index with
    | zero => exact within_pure ()
    | succ index =>
      unfold IndexLvalue.propagateFrom
      refine (within_emit_none rfl).bind fun _ => (rooted.emitParent _).bind fun _ =>
        (within_emitKey _).bind fun _ => ?_
      refine (within_emit_none rfl).bind fun _ => (within_emit_none rfl).bind fun _ => ?_
      exact (within_emit_none rfl).bind fun _ => ih

theorem Rooted.propagateUpdate (rooted : Rooted names lvalue) : Within names lvalue.propagateUpdate :=
  within_temporarySlot.bind fun update => (rooted.propagateFrom update _).bind fun _ => within_storeRoot.bind fun _ =>
    within_clearTemporarySlot update

theorem Rooted.storeValue (rooted : Rooted names lvalue) (value : Nat) : Within names (lvalue.storeValue value) := by
  unfold IndexLvalue.storeValue
  repeat' first
    | with_reducible first
      | exact rooted.emitParent _ | exact within_emitKey _ | exact rooted.propagateUpdate | exact within_pure _
      | refine .bind ?_ fun _ => ?_
    | split
    | exact within_emit_none rfl

theorem within_clearSlots (keys : List (Option Nat)) (parents : List Nat) :
    Within names (IndexLvalue.clearSlots keys parents) := by
  induction keys generalizing parents with
  | nil => exact within_pure ()
  | cons key keys ih =>
    unfold IndexLvalue.clearSlots
    repeat' first
      | with_reducible first
        | exact ih _ | exact within_clearTemporarySlot _ | exact within_pure _ | refine .bind ?_ fun _ => ?_
      | split

theorem within_clear : Within names lvalue.clear := by
  unfold IndexLvalue.clear
  repeat' first
    | with_reducible first
      | exact within_clearSlots _ _ | exact within_clearTemporarySlot _ | exact within_pure _
      | refine .bind ?_ fun _ => ?_
    | split

theorem Rooted.unsetValue (rooted : Rooted names lvalue) : Within names lvalue.unsetValue := by
  unfold IndexLvalue.unsetValue
  repeat' first
    | with_reducible first
      | exact rooted.emitParent _ | exact within_emitKey _ | exact rooted.propagateUpdate | exact within_clear
      | exact within_fail _ | refine .bind ?_ fun _ => ?_
    | split
    | exact within_emit_none rfl

end Lvalue

/-- A target whose root is a variable of the set. -/
def Prepares (names : Name → Prop) (g : Gen IndexLvalue) : Prop :=
  Within names g ∧ Gives (Rooted names) g

/-- What follows a target may use that its root is one of the set. -/
theorem Prepares.bind {β : Type} {g : Gen IndexLvalue} {f : IndexLvalue → Gen β} (first : Prepares names g)
    (next : ∀ lvalue, Rooted names lvalue → Within names (f lvalue)) : Within names (g >>= f) := by
  intro s b s' ran x mem
  obtain ⟨lvalue, between, one, two⟩ := bind_ok ran
  obtain old | new := next lvalue (first.2 s lvalue between one) between b s' two x mem
  · exact first.1 s lvalue between one x old
  · exact .inr new

theorem Prepares.then {g : Gen IndexLvalue} {f : IndexLvalue → Gen IndexLvalue} (first : Prepares names g)
    (next : ∀ lvalue, Rooted names lvalue → Prepares names (f lvalue)) : Prepares names (g >>= f) := by
  refine ⟨first.bind fun lvalue rooted => (next lvalue rooted).1, fun s result s' ran => ?_⟩
  obtain ⟨lvalue, between, one, two⟩ := bind_ok ran
  exact (next lvalue (first.2 s lvalue between one)).2 between result s' two

section Assignments
variable {op : TokenType} {right : Gen Unit} {target : Bool → Gen IndexLvalue}

theorem within_compileIndexAssignment (prepares : ∀ quiet, Prepares names (target quiet))
    (within : Within names right) : Within names (compileIndexAssignment op target right) := by
  refine (prepares _).bind fun lvalue rooted => ?_
  repeat' first
    | with_reducible first
      | exact within | exact rooted.emitParent _ | exact within_emitKey _ | exact rooted.emitCurrent
      | exact rooted.storeValue _ | exact within_clear | exact within_emitJump _ | exact within_patchJump _
      | exact within_emitCompound _ | exact within_temporarySlot | exact within_clearTemporarySlot _
      | exact within_fail _
      | refine .bind ?_ fun _ => ?_
    | split
    | exact within_emit_none rfl

theorem within_emitGet (property : Property) : Within names property.emitGet := by
  unfold Property.emitGet
  repeat' first
    | with_reducible first
      | refine .bind ?_ fun _ => ?_
    | split
    | exact within_emit_none rfl

theorem within_emitSet (value : Nat) (property : Property) : Within names (property.emitSet value) := by
  unfold Property.emitSet
  repeat' first
    | with_reducible first
      | refine .bind ?_ fun _ => ?_
    | split
    | exact within_emit_none rfl

theorem within_emitClear (property : Property) : Within names property.emitClear := by
  unfold Property.emitClear
  repeat' first
    | with_reducible first
      | exact within_clearTemporarySlot _ | exact within_pure _ | refine .bind ?_ fun _ => ?_
    | split

variable {base dynamicName : Option Ast} {compileBase compileName : Gen Unit} {name : Token} {access : TokenType}

theorem within_prepareProperty {texts : String × String} (object : Within names compileBase)
    (member : access ≠ .tScope → Within names compileName) :
    Within names (prepareProperty texts base dynamicName compileBase compileName name access) := by
  unfold prepareProperty
  split
  · split
    · exact within_pure _
    · exact within_fail _
    · exact within_fail _
  · rename_i access'
    have member := member access'
    repeat' first
      | with_reducible first
        | exact object | exact member | exact within_temporarySlot | exact within_pure _ | refine .bind ?_ fun _ => ?_
      | split
      | exact within_emit_none rfl

theorem within_compileMemberAssignment (object : Within names compileBase)
    (member : access ≠ .tScope → Within names compileName) (within : Within names right) :
    Within names (compileMemberAssignment op base dynamicName compileBase compileName name access right) := by
  unfold compileMemberAssignment
  repeat' first
    | with_reducible first
      | exact within | exact within_prepareProperty object member | exact within_emitGet _ | exact within_emitSet _ _
      | exact within_emitClear _ | exact within_emitJump _ | exact within_patchJump _ | exact within_emitCompound _
      | exact within_temporarySlot | exact within_clearTemporarySlot _ | exact within_fail _
      | refine .bind ?_ fun _ => ?_
    | split
    | exact within_emit_none rfl

theorem within_compileVariableAssignment {name : Name} (mem : names name) (within : Within names right) :
    Within names (compileVariableAssignment op name right) := by
  unfold compileVariableAssignment
  repeat' first
    | with_reducible first
      | exact within | exact within_load mem | exact within_emitJump _ | exact within_patchJump _
      | exact within_emitCompound _
      | refine .bind ?_ fun _ => ?_
    | split
    | exact within_emit_none rfl

theorem within_oldSlot (isPostfix : Bool) : Within names (oldSlot isPostfix) := by
  unfold oldSlot
  repeat' first
    | with_reducible first
      | exact within_temporarySlot | exact within_pure _ | refine .bind ?_ fun _ => ?_
    | split

theorem within_emitKeepOld (old : Option Nat) : Within names (emitKeepOld old) := by
  cases old with
  | none => exact within_pure ()
  | some slot => exact (within_emit_none rfl).bind fun _ => within_emit_none rfl

theorem within_emitOld (old : Option Nat) : Within names (emitOld old) := by
  cases old with
  | none => exact within_pure ()
  | some slot => exact (within_emit_none rfl).bind fun _ => within_emit_none rfl

theorem within_emitClearOld (old : Option Nat) : Within names (emitClearOld old) := by
  cases old with
  | none => exact within_pure ()
  | some slot => exact within_clearTemporarySlot slot

theorem within_emitStep (op : TokenType) : Within names (emitStep op) :=
  (within_emit_none rfl).bind fun _ => within_emit_none rfl

variable {isPostfix : Bool}

theorem within_compileIndexIncrement {target : Gen IndexLvalue} (prepares : Prepares names target) :
    Within names (compileIndexIncrement op isPostfix target) := by
  refine prepares.bind fun lvalue rooted => ?_
  repeat' first
    | with_reducible first
      | exact rooted.emitCurrent | exact rooted.storeValue _ | exact within_oldSlot _ | exact within_emitKeepOld _
      | exact within_emitOld _ | exact within_emitClearOld _ | exact within_emitStep _ | exact within_clear
      | exact within_temporarySlot | exact within_clearTemporarySlot _ | exact within_fail _
      | refine .bind ?_ fun _ => ?_
    | split
    | exact within_emit_none rfl

theorem within_compileMemberIncrement (object : Within names compileBase)
    (member : access ≠ .tScope → Within names compileName) :
    Within names (compileMemberIncrement op isPostfix base dynamicName compileBase compileName name access) := by
  unfold compileMemberIncrement
  repeat' first
    | with_reducible first
      | exact within_prepareProperty object member | exact within_emitGet _ | exact within_emitSet _ _
      | exact within_emitClear _ | exact within_oldSlot _ | exact within_emitKeepOld _ | exact within_emitOld _
      | exact within_emitClearOld _ | exact within_emitStep _ | exact within_temporarySlot
      | exact within_clearTemporarySlot _ | exact within_fail _ | refine .bind ?_ fun _ => ?_
    | split
    | exact within_emit_none rfl

theorem within_compileVariableIncrement {name : Name} (mem : names name) :
    Within names (compileVariableIncrement op isPostfix name) := by
  unfold compileVariableIncrement
  repeat' first
    | with_reducible first
      | exact within_load mem | exact within_emitStep _ | refine .bind ?_ fun _ => ?_
    | split
    | exact within_emit_none rfl

end Assignments

section Operators
variable {op : TokenType} {left quietLeft right : Gen Unit}

theorem within_compileBinary {rightNode : Option Ast} (first : Within names left) (quiet : Within names quietLeft)
    (second : Within names right) : Within names (compileBinary op rightNode left quietLeft right) := by
  unfold compileBinary compileShortCircuit
  repeat' first
    | with_reducible first
      | exact first | exact quiet | exact second | exact within_emitJump _ | exact within_patchJump _
      | exact within_fail _
      | refine .bind ?_ fun _ => ?_
    | split
    | exact within_emit_none rfl

theorem within_compileUnary {cfg : Config} {operandNode : Option Ast} (first : Within names left) :
    Within names (compileUnary cfg op operandNode left) := by
  unfold compileUnary
  repeat' first
    | with_reducible first
      | exact first | exact within_emitUnary _ | exact within_fail _ | refine .bind ?_ fun _ => ?_
    | split
    | exact within_emit_none rfl

theorem within_compileTernary {isShort : Bool} {condition thenExpr elseExpr : Gen Unit} (first : Within names condition)
    (second : Within names thenExpr) (third : Within names elseExpr) :
    Within names (compileTernary isShort condition thenExpr elseExpr) := by
  unfold compileTernary
  repeat' first
    | with_reducible first
      | exact first | exact second | exact third | exact within_emitJump _ | exact within_patchJump _
      | refine .bind ?_ fun _ => ?_
    | split

theorem within_finishMatch (noMatch : Nat) (defaultTarget : Option Nat) (ends : List Nat) :
    Within names (finishMatch noMatch defaultTarget ends) := by
  unfold finishMatch
  repeat' first
    | with_reducible first
      | exact within_patchTo _ _ | exact within_patchJump _ | exact within_patchJumps _ | refine .bind ?_ fun _ => ?_
    | split
    | exact within_emit_none rfl

end Operators

/-- Whether a node is a member behind `::`. -/
def isScoped : Ast → Bool
  | .member _ _ _ _ op => op = .tScope
  | _ => false

/-- The name of a member, if that is not behind `::`, is compiled to code of the set. -/
def NameWithin (names : Name → Prop) (node : Option Ast) (compileName : Gen Unit) : Prop :=
  ∀ member, node = some member → isScoped member = false → Within names compileName

section Calls
variable {op : TokenType} {base dynamicName : Option Ast} {name : Token} {arguments : List Ast} {count : Nat}
  {compileName values array : Gen Unit}

theorem within_compileMutated {argument : Ast} {compileBase : Gen Unit}
    (mem : ∀ line token, argument = .literal .variable line token → names (variableName token))
    (object : Within names compileBase) : Within names (compileMutated argument compileBase) := by
  unfold compileMutated
  split
  · refine (within_load (mem _ _ rfl)).bind fun _ => (within_emit_none rfl).bind fun _ => ?_
    exact (within_emit_none rfl).bind fun _ => within_emit_none rfl
  all_goals
    repeat' first
      | with_reducible first
        | exact object | exact within_temporarySlot | exact within_clearTemporarySlot _ | exact within_fail _
        | refine .bind ?_ fun _ => ?_
      | split
      | exact within_emit_none rfl

theorem within_compileCall {call callArray : Code} (one : Within names values) (all : Within names array)
    (plain : call.reads = []) (spread : callArray.reads = []) :
    Within names (compileCall arguments values array call callArray) := by
  unfold compileCall
  split
  · exact all.bind fun _ => within_emit_none spread
  · exact one.bind fun _ => within_emit_none plain

theorem within_addChainJump (op : TokenType) (jumps : List Nat) : Within names (addChainJump op jumps) := by
  unfold addChainJump
  split
  · exact (within_emitJump _).bind fun _ => within_pure _
  · exact within_pure _

theorem isAccess_ne {op : TokenType} (access : isAccess op = true) : op ≠ .tScope := by
  rintro rfl
  cases access

variable {chain : Option Bool}

theorem within_closeChain {part : Gen (List Nat)} (within : Within names part) :
    Within names (closeChain chain part) := by
  cases chain with
  | some quiet => exact within
  | none => exact within.bind fun jumps => (within_patchJumps jumps).bind fun _ => within_pure _

variable {object : Gen (List Nat)}

theorem within_methodCallPart (first : Within names object) (member : Within names compileName)
    (one : Within names values) (all : Within names array) :
    Within names (methodCallPart dynamicName op name arguments count object compileName values array) := by
  refine first.bind fun _ => (within_addChainJump _ _).bind fun _ => ?_
  repeat' first
    | with_reducible first
      | exact member | exact within_compileCall one all rfl rfl | exact within_pure _ | refine .bind ?_ fun _ => ?_
    | split

theorem within_memberPart {quiet : Bool} (first : Within names object) (member : Within names compileName) :
    Within names (memberPart dynamicName op name quiet object compileName) := by
  refine first.bind fun _ => (within_addChainJump _ _).bind fun _ => ?_
  repeat' first
    | with_reducible first
      | exact member | exact within_pure _ | refine .bind ?_ fun _ => ?_
    | split
    | exact within_emit_none rfl

theorem within_indexPart {key : Option Ast} {quiet : Bool} {compileKey : Gen Unit} (first : Within names object)
    (second : Within names compileKey) : Within names (indexPart key quiet object compileKey) := by
  cases key with
  | none => exact within_fail _
  | some key => exact first.bind fun _ => second.bind fun _ => (within_emit_none rfl).bind fun _ => within_pure _

theorem within_compileCallNode {callee : Option Ast} {baseIn : Bool → Gen (List Nat)}
    {compileCallee mutation : Gen Unit} (first : ∀ quiet, Within names (baseIn quiet))
    (member : NameWithin names callee compileName) (function : Within names compileCallee)
    (one : Within names values) (all : Within names array) (mutating : Within names mutation) :
    Within names (compileCallNode chain callee arguments count baseIn compileName compileCallee values array
      mutation) := by
  unfold compileCallNode
  split
  · exact within_fail _
  split
  · split
    · rename_i access
      have method := member _ rfl (decide_eq_false (isAccess_ne access))
      exact within_closeChain (within_methodCallPart (first _) method one all)
    · repeat' first
        | with_reducible first | exact within_pure _ | exact within_fail _ | refine .bind ?_ fun _ => ?_
        | exact within_compileCall one all rfl rfl
        | split
  · dsimp only
    split
    · exact mutating.bind fun _ => (within_emit_none rfl).bind fun _ => within_pure _
    · exact (within_compileCall one all rfl rfl).bind fun _ => within_pure _
  · exact function.bind fun _ => (within_compileCall one all rfl rfl).bind fun _ => within_pure _

theorem within_compileMember {baseIn : Bool → Gen (List Nat)} (first : ∀ quiet, Within names (baseIn quiet))
    (member : op ≠ .tScope → Within names compileName) :
    Within names (compileMember chain base dynamicName name op baseIn compileName) := by
  unfold compileMember
  split
  · split
    · exact (within_emit_none rfl).bind fun _ => within_pure _
    · exact within_fail _
  · rename_i access
    split
    · exact within_closeChain (within_memberPart (first _) (member access))
    · exact within_fail _

theorem within_compileNew {className : Option Ast}
    (mem : ∀ line token, className = some (.literal .variable line token) → names (variableName token))
    (one : Within names values) (all : Within names array) :
    Within names (compileNew className arguments count values array) := by
  unfold compileNew
  split
  · exact within_fail _
  split
  · exact within_compileCall one all rfl rfl
  · exact (within_load (mem _ _ rfl)).bind fun _ => within_compileCall one all rfl rfl
  · exact within_fail _

theorem within_compileSpread {argument : Ast} {operand value : Gen Unit} (first : Within names operand)
    (second : Within names value) : Within names (compileSpread argument operand value) := by
  unfold compileSpread
  split
  · exact first.bind fun _ => within_emit_none rfl
  · exact second.bind fun _ => within_emit_none rfl

theorem within_compileItem {hasKey spread : Bool} {key value : Gen Unit} (first : spread = false → Within names key)
    (second : Within names value) : Within names (compileItem hasKey spread key value) := by
  unfold compileItem
  split
  · exact second.bind fun _ => within_emit_none rfl
  rename_i alone
  split
  · exact (first (Bool.eq_false_of_not_eq_true alone)).bind fun _ => second.bind fun _ => within_emit_none rfl
  · exact second.bind fun _ => within_emit_none rfl

theorem prepares_prepareKey {lvalue : IndexLvalue} {key : Option Ast} {isLeaf : Bool} {compileKey : Gen Unit}
    (rooted : Rooted names lvalue) (within : Within names compileKey) :
    Prepares names (prepareKey lvalue key isLeaf compileKey) := by
  constructor
  · unfold prepareKey
    have keyed (slot : Option Nat) : Rooted names { lvalue with keys := lvalue.keys ++ [slot] } := rooted
    repeat' first
      | with_reducible first
        | exact within | exact (keyed _).emitParent _ | exact within_emitKey _ | exact within_temporarySlot
        | exact within_pure _ | exact within_fail _ | refine .bind ?_ fun _ => ?_
      | split
      | exact within_emit_none rfl
  · unfold prepareKey
    repeat' first
      | with_reducible first
        | exact gives_fail _
      | split
      | refine .bind fun _ => ?_
      | exact gives_pure rooted

theorem prepares_prepareRoot {compileBase : Gen Unit} (object : Within names compileBase)
    (member : op ≠ .tScope → Within names compileName) :
    Prepares names (prepareRoot base dynamicName compileBase compileName name op) := by
  constructor
  · unfold prepareRoot
    split
    · repeat' first
        | with_reducible first
          | exact within_temporarySlot | exact within_pure _ | exact within_fail _ | refine .bind ?_ fun _ => ?_
        | split
        | exact within_emit_none rfl
    · rename_i access
      have member := member access
      repeat' first
        | with_reducible first
          | exact object | exact member | exact within_temporarySlot | exact within_pure _ | exact within_fail _
          | refine .bind ?_ fun _ => ?_
        | split
        | exact within_emit_none rfl
  · unfold prepareRoot
    have apart (root : Root) (noVariable : ∀ name quiet, root ≠ .named name quiet) : Rooted names ⟨root, [], []⟩ :=
      fun name quiet same => absurd same (noVariable name quiet)
    repeat' first
      | with_reducible exact gives_fail _
      | split
      | refine .bind fun _ => ?_
      | exact gives_pure (apart _ fun _ _ => Root.noConfusion)

end Calls

/-! ## Nodes with several kinds of operands -/

section Nodes
variable {op : TokenType} {left : Option Ast} {compileBase compileName : Gen Unit}

theorem within_compileAssignment {target : Bool → Gen IndexLvalue} {right : Gen Unit}
    (mem : ∀ line token, left = some (.literal .variable line token) → names (variableName token))
    (prepares : ∀ quiet, Prepares names (target quiet)) (object : Within names compileBase)
    (member : NameWithin names left compileName) (within : Within names right) :
    Within names (compileAssignment op left target compileBase compileName right) := by
  unfold compileAssignment
  split
  · exact within_compileIndexAssignment prepares within
  · exact within_compileMemberAssignment object (fun access => member _ rfl (decide_eq_false access)) within
  · exact within_compileVariableAssignment (mem _ _ rfl) within
  · exact within_fail _

theorem within_compileIncrement {isPostfix : Bool} {target : Gen IndexLvalue}
    (mem : ∀ line token, left = some (.literal .variable line token) → names (variableName token))
    (prepares : Prepares names target) (object : Within names compileBase)
    (member : NameWithin names left compileName) :
    Within names (compileIncrement op isPostfix left target compileBase compileName) := by
  unfold compileIncrement
  split
  · exact within_compileIndexIncrement prepares
  · exact within_compileMemberIncrement object fun access => member _ rfl (decide_eq_false access)
  · exact within_compileVariableIncrement (mem _ _ rfl)
  · exact within_fail _

theorem within_compileUnset {target : Gen IndexLvalue} (prepares : Prepares names target) :
    Within names (compileUnset left target) := by
  unfold compileUnset
  split
  · exact (within_emit_none rfl).bind fun _ => within_emit_none rfl
  · exact prepares.bind fun lvalue rooted => rooted.unsetValue
  · exact within_fail _

end Nodes

end Functions

/-! ## Trees -/

theorem captureNames_references {line parameterCount : Nat} {parameters uses returnType : List Ast}
    {isArrow isStatic : Bool} {body : Option Ast} {found : List Name}
    (captured : captureNames (parametersOf parameters) (usesOf uses) isArrow isStatic body = .ok found) {x : Name}
    (mem : x ∈ found) :
    x ∈ references (.closure line parameters uses parameterCount isArrow isStatic returnType body) := by
  have walk := collectOperand_collects (parametersOf parameters) body []
  have code : references (.closure line parameters uses parameterCount isArrow isStatic returnType body) =
      free (parametersOf parameters) (if isArrow then referencesOf body
        else usesOf uses ++ if isStatic then [] else (referencesOf body).filter (· == thisName)) := rfl
  rw [code]
  unfold captureNames at captured
  cases isArrow with
  | true =>
    simp only [if_true] at captured ⊢
    split at captured
    · cases captured
    rename_i names collected
    split at captured
    · cases captured
    · cases captured
      simpa using (walk found collected x).mp mem
  | false =>
    simp only [Bool.false_eq_true, if_false] at captured ⊢
    rw [free_append, mem_append]
    split at captured
    · cases captured
    rename_i listed using'
    have uses := mem_captureUses (x := x) using'
    split at captured
    · cases captured
    rename_i names collected
    split at captured
    · cases captured
      exact .inl (by simpa using uses mem)
    rename_i contains
    split at captured
    · cases captured
    rename_i object
    split at captured
    · rename_i all added
      cases captured
      obtain old | new := (mem_captureAdd added x).mp mem
      · exact .inl (by simpa using uses old)
      · obtain ⟨same, apart⟩ := mem_free.mp new
        obtain rfl := mem_singleton.mp same
        have referenced : thisName ∈ names := by simpa using contains
        obtain absurd | inBody := (walk names collected _).mp referenced
        · cases absurd
        · refine .inr (mem_free.mpr ⟨?_, apart⟩)
          rw [if_neg object, mem_filter]
          exact ⟨(mem_free.mp inBody).1, beq_iff_eq.mpr rfl⟩
    · cases captured

/-- A set with the references of a tree and the classes of its `new` expressions. -/
def Covers (names : Name → Prop) (references newClasses : List Name) : Prop :=
  ∀ x, x ∈ references ∨ x ∈ newClasses → names x

theorem Covers.left {names : Name → Prop} {a b c d : List Name} (covers : Covers names (a ++ b) (c ++ d)) :
    Covers names a c :=
  fun x mem => covers x (mem.imp (mem_append_left b) (mem_append_left d))

theorem Covers.right {names : Name → Prop} {a b c d : List Name} (covers : Covers names (a ++ b) (c ++ d)) :
    Covers names b d :=
  fun x mem => covers x (mem.imp (mem_append_right a) (mem_append_right c))

section Trees
variable {cfg : Config} {names : Name → Prop}

theorem within_noJumps {code : Gen Unit} (within : Within names code) : Within names (noJumps code) :=
  within.bind fun _ => within_pure _

theorem within_asUnit {part : Gen (List Nat)} (within : Within names part) : Within names (asUnit part) :=
  within.bind fun _ => within_pure _

theorem newClasses_member (line : Nat) (base dynamicName : Option Ast) (name : Token) (op : TokenType) :
    newClasses (.member line base dynamicName name op) =
      newClassesOf base ++ if op = .tScope then [] else newClassesOf dynamicName := rfl

theorem Covers.literal {node : Option Ast} (covers : Covers names (referencesOf node) (newClassesOf node)) (line : Nat)
    (token : Token) (same : node = some (.literal .variable line token)) : names (variableName token) := by
  subst same
  exact covers _ (.inl (mem_singleton.mpr rfl))

theorem within_compileClosureNode {line parameterCount : Nat} {parameters uses returnType : List Ast}
    {isArrow isStatic : Bool} {body : Option Ast}
    (mem : ∀ x ∈ references (.closure line parameters uses parameterCount isArrow isStatic returnType body), names x) :
    Within names (compileClosureNode
      (.closure line parameters uses parameterCount isArrow isStatic returnType body)) := by
  unfold compileClosureNode
  dsimp only
  split
  · exact within_fail _
  · rename_i found captured
    exact within_emit fun x here => mem x (captureNames_references captured here)

mutual

theorem within_compileIn (chain : Option Bool) :
    ∀ node, Covers names (references node) (newClasses node) → Within names (compileIn cfg chain node)
  | .null _, _ => within_noJumps (within_emit_none rfl)
  | .literal kind _ token, covers =>
    within_noJumps (within_emitLiteral fun same => by
      subst same
      exact covers _ (.inl (mem_singleton.mpr rfl)))
  | .assign _ op left right, covers =>
    within_noJumps (within_compileAssignment covers.left.literal
      (fun quiet => prepares_prepareIndexLvalue quiet true left covers.left)
      (within_asUnit (within_compileBaseIn none left covers.left)) (within_compileNameOf left covers.left)
      (within_compileOperand right covers.right))
  | .binary _ op left right, covers =>
    within_noJumps (within_compileBinary (within_compileOperand left covers.left) (within_compileQuiet left covers.left)
      (within_compileOperand right covers.right))
  | .unary _ op operand isPostfix, covers => by
    refine within_noJumps ?_
    split
    · exact within_compileIncrement covers.literal (prepares_prepareIndexLvalue false true operand covers)
        (within_asUnit (within_compileBaseIn none operand covers)) (within_compileNameOf operand covers)
    · exact within_compileUnary (within_compileOperand operand covers)
  | .ternary _ condition thenExpr elseExpr, covers =>
    within_noJumps (within_compileTernary (within_compileOperand condition covers.left.left)
      (within_compileOperand thenExpr covers.left.right) (within_compileOperand elseExpr covers.right))
  | .closure line parameters uses parameterCount isArrow isStatic returnType body, covers =>
    within_noJumps (within_compileClosureNode fun x mem => covers x (.inl mem))
  | .matchExpr _ subject arms, covers =>
    within_noJumps ((within_compileOperand subject covers.left).bind fun _ =>
      (within_compileConditions arms covers.right).bind fun conditions => (within_emitJump _).bind fun _ =>
        (within_compileResults arms conditions covers.right).bind fun _ => within_finishMatch _ _ _)
  | .call _ callee arguments count, covers =>
    within_compileCallNode (fun quiet => within_compileBaseIn (some quiet) callee covers.left)
      (within_compileNameOf callee covers.left) (within_compileOperand callee covers.left)
      (within_compileArguments arguments covers.right)
      ((within_emit_none rfl).bind fun _ => within_compileSpreads arguments covers.right)
      (within_compileMutation arguments covers.right)
  | .member line base dynamicName name op, covers => by
    have object : Covers names (referencesOf base) (newClassesOf base) := covers.left
    refine within_compileMember (fun quiet => within_compileOperandIn (some quiet) base object) fun access => ?_
    rw [newClasses_member, if_neg access] at covers
    exact within_compileOperand dynamicName covers.right
  | .newExpr _ className arguments count, covers => by
    have inner : Covers names (referencesOfList arguments) (newClassesOfList arguments) :=
      fun x mem => covers x (mem.imp id (mem_append_right _))
    refine within_noJumps (within_compileNew (fun line token same => ?_) (within_compileArguments arguments inner)
      ((within_emit_none rfl).bind fun _ => within_compileSpreads arguments inner))
    subst same
    exact covers _ (.inr (mem_append_left _ (mem_singleton.mpr rfl)))
  | .array _ items count, covers =>
    within_noJumps ((within_emit_none rfl).bind fun _ => within_compileItems items covers)
  | .index _ base key, covers =>
    within_closeChain
      (within_indexPart (within_compileOperandIn _ base covers.left) (within_compileOperand key covers.right))
  | .isset _ operand, covers =>
    within_noJumps ((within_compileQuiet operand covers).bind fun _ => (within_emit_none rfl).bind fun _ =>
      within_emit_none rfl)
  | .empty _ operand, covers =>
    within_noJumps ((within_compileQuiet operand covers).bind fun _ => within_emit_none rfl)
  | .unset _ operand, covers =>
    within_noJumps (within_compileUnset (prepares_prepareIndexLvalue true true operand covers))
  | .throwExpr _ expression, covers =>
    within_noJumps ((within_compileOperand expression covers).bind fun _ => within_emit_none rfl)
  | .program .., _ | .block .., _ | .matchArm .., _ | .arrayItem .., _ | .exprStmt .., _ | .echo .., _
  | .ifStmt .., _ | .whileLoop .., _ | .doWhile .., _ | .forStmt .., _ | .foreachStmt .., _ | .switchStmt .., _
  | .caseStmt .., _ | .breakStmt .., _ | .continueStmt .., _ | .returnStmt .., _ | .global .., _
  | .staticBinding .., _ | .constBinding .., _ | .function .., _ | .param .., _ | .includeStmt .., _
  | .classDecl .., _ | .property .., _ | .tryStmt .., _ | .catchStmt .., _ | .typeDecl .., _ => within_fail _

theorem within_compileOperandIn (chain : Option Bool) :
    ∀ node, Covers names (referencesOf node) (newClassesOf node) → Within names (compileOperandIn cfg chain node)
  | none, _ => within_pure _
  | some node, covers => within_compileIn chain node covers

theorem within_compileOperand :
    ∀ node, Covers names (referencesOf node) (newClassesOf node) → Within names (compileOperand cfg node)
  | none, _ => within_pure _
  | some node, covers => within_asUnit (within_compileIn none node covers)

theorem within_compileQuiet :
    ∀ node, Covers names (referencesOf node) (newClassesOf node) → Within names (compileQuiet cfg node)
  | none, _ => within_pure _
  | some node, covers => (within_compileIn (some true) node covers).bind fun jumps => within_patchJumps jumps

theorem within_compileBaseIn (chain : Option Bool) :
    ∀ node, Covers names (referencesOf node) (newClassesOf node) → Within names (compileBaseIn cfg chain node)
  | none, _ => within_pure _
  | some node, covers => within_compileMemberBaseIn chain node covers

theorem within_compileMemberBaseIn (chain : Option Bool) :
    ∀ node, Covers names (references node) (newClasses node) → Within names (compileMemberBaseIn cfg chain node) := by
  intro node covers
  cases node with
  | member line base dynamicName name op => exact within_compileOperandIn chain base covers.left
  | _ => exact within_pure _

theorem within_compileNameOf :
    ∀ node, Covers names (referencesOf node) (newClassesOf node) → NameWithin names node (compileNameOf cfg node)
  | none, _ => by
    intro member same
    cases same
  | some node, covers => by
    intro member same access
    rw [← Option.some.inj same] at access
    exact within_compileMemberName node covers access

theorem within_compileMemberName : ∀ node, Covers names (references node) (newClasses node) → isScoped node = false →
      Within names (compileMemberName cfg node) := by
  intro node covers access
  cases node with
  | member line base dynamicName name op =>
    rw [newClasses_member, if_neg (of_decide_eq_false access)] at covers
    exact within_compileOperand dynamicName covers.right
  | _ => exact within_pure _

theorem prepares_prepareIndexLvalue (quiet isLeaf : Bool) :
    ∀ node, Covers names (referencesOf node) (newClassesOf node) →
      Prepares names (prepareIndexLvalue cfg quiet isLeaf node)
  | none, _ => ⟨within_fail _, gives_fail _⟩
  | some node, covers => prepares_prepareIndex quiet isLeaf node covers

theorem prepares_prepareIndex (quiet isLeaf : Bool) : ∀ node, Covers names (references node) (newClasses node) →
      Prepares names (prepareIndex cfg quiet isLeaf node) := by
  intro node covers
  cases node with
  | index line base key =>
    exact (prepares_prepareIndexLvalue quiet false base covers.left).then fun lvalue rooted =>
      prepares_prepareKey rooted (within_compileOperand key covers.right)
  | literal kind line token =>
    cases kind with
    | «variable» =>
      have mem : names (variableName token) := covers _ (.inl (mem_singleton.mpr rfl))
      refine ⟨within_pure _, gives_pure fun name quiet same => ?_⟩
      cases same
      exact mem
    | _ => exact ⟨within_fail _, gives_fail _⟩
  | member line base dynamicName name op =>
    rw [newClasses_member] at covers
    refine prepares_prepareRoot (within_compileOperand base covers.left) fun access => ?_
    rw [if_neg access] at covers
    exact within_compileOperand dynamicName covers.right
  | _ => exact ⟨within_fail _, gives_fail _⟩

theorem within_compileArguments :
    ∀ nodes, Covers names (referencesOfList nodes) (newClassesOfList nodes) → Within names (compileArguments cfg nodes)
  | [], _ => within_pure _
  | argument :: rest, covers =>
    (within_asUnit (within_compileIn none argument covers.left)).bind fun _ => within_compileArguments rest covers.right

theorem within_compileSpreads :
    ∀ nodes, Covers names (referencesOfList nodes) (newClassesOfList nodes) → Within names (compileSpreads cfg nodes)
  | [], _ => within_pure _
  | argument :: rest, covers =>
    (within_compileSpread (within_compileSpreadOperand argument covers.left)
      (within_asUnit (within_compileIn none argument covers.left))).bind fun _ =>
        within_compileSpreads rest covers.right

theorem within_compileSpreadOperand :
    ∀ node, Covers names (references node) (newClasses node) → Within names (compileSpreadOperand cfg node) := by
  intro node covers
  cases node with
  | unary line op operand isPostfix => exact within_compileOperand operand covers
  | _ => exact within_pure _

theorem within_compileMutation :
    ∀ nodes, Covers names (referencesOfList nodes) (newClassesOfList nodes) → Within names (compileMutation cfg nodes)
  | [], _ => within_pure _
  | argument :: rest, covers =>
    (within_compileMutated (fun line token same => by
        subst same
        exact covers.left _ (.inl (mem_singleton.mpr rfl)))
      (within_asUnit (within_compileMemberBaseIn none argument covers.left))).bind fun _ =>
        within_compileArguments rest covers.right

theorem within_compileItems :
    ∀ nodes, Covers names (referencesOfList nodes) (newClassesOfList nodes) → Within names (compileItems cfg nodes)
  | [], _ => within_pure _
  | item :: rest, covers => by
    have behind := within_compileItems rest covers.right
    cases item with
    | arrayItem line key value spread =>
      have own : Covers names (referencesOf key ++ referencesOf value)
        ((if spread then [] else newClassesOf key) ++ newClassesOf value) := covers.left
      refine (within_compileItem (fun alone => ?_) (within_compileOperand value own.right)).bind fun _ => behind
      subst alone
      exact within_compileOperand key own.left
    | _ => exact within_fail _

theorem within_compileConditions :
    ∀ nodes, Covers names (referencesOfList nodes) (newClassesOfList nodes) → Within names (compileConditions cfg nodes)
  | [], _ => within_pure _
  | arm :: rest, covers => by
    have behind := within_compileConditions rest covers.right
    cases arm with
    | matchArm line conditions result =>
      have own : Covers names (referencesOfList conditions ++ referencesOf result)
        (newClassesOfList conditions ++ newClassesOf result) := covers.left
      exact (within_compileArmConditions conditions own.left).bind fun _ => behind.bind fun _ => within_pure _
    | _ => exact within_fail _

theorem within_compileArmConditions :
    ∀ nodes, Covers names (referencesOfList nodes) (newClassesOfList nodes) →
      Within names (compileArmConditions cfg nodes)
  | [], _ => within_pure _
  | condition :: rest, covers =>
    (within_emit_none rfl).bind fun _ => (within_asUnit (within_compileIn none condition covers.left)).bind fun _ =>
      (within_emit_none rfl).bind fun _ => (within_emitJump _).bind fun _ =>
        (within_compileArmConditions rest covers.right).bind fun _ => within_pure _

theorem within_compileResults :
    ∀ nodes jumps, Covers names (referencesOfList nodes) (newClassesOfList nodes) →
      Within names (compileResults cfg nodes jumps)
  | [], _, _ => within_pure _
  | arm :: rest, jumps, covers => by
    have behind := within_compileResults rest jumps.tail covers.right
    cases arm with
    | matchArm line conditions result =>
      have own : Covers names (referencesOfList conditions ++ referencesOf result)
        (newClassesOfList conditions ++ newClassesOf result) := covers.left
      exact within_codeLength.bind fun _ => (within_patchJumps _).bind fun _ => (within_emit_none rfl).bind fun _ =>
        (within_compileOperand result own.right).bind fun _ => (within_emitJump _).bind fun _ => behind.bind fun _ =>
          within_pure _
    | _ => exact within_fail _

end

end Trees

end PhpPico.Closure
