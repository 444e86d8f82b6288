import PhpPico.Closure.Variables

/-!
# The class of a `new` is read

Where a variable is the class of a `new`, the code of every expression around it reads the variable, whichever way it
is compiled.
-/

namespace PhpPico.Closure
open List

open Compiler Call

variable {x : Name}

/-! ## The functions of the generator -/

section Assignments
variable {op : TokenType} {right : Gen Unit} {base dynamicName : Option Ast} {compileBase compileName : Gen Unit}
  {name : Token} {access : TokenType}

theorem adds_compileIndexAssignment {target : Bool → Gen IndexLvalue}
    (adds : (∀ quiet, Adds x (target quiet)) ∨ Adds x right) : Adds x (compileIndexAssignment op target right) := by
  obtain adds | adds := adds
  · exact (adds _).left
  · refine .right fun lvalue => .right fun value => ?_
    repeat' first
      | with_reducible first | exact adds.left | exact adds_fail _ | refine .right fun _ => ?_
      | split

/-- A variable that is the class of a `new` in the object or the name of a member, and so read by their code. -/
structure InMember (x : Name) (base dynamicName : Option Ast) (access : TokenType)
    (compileBase compileName : Gen Unit) : Prop where
  mem : x ∈ newClassesOf base ∨ access ≠ .tScope ∧ x ∈ newClassesOf dynamicName
  object : x ∈ newClassesOf base → Adds x compileBase
  name : access ≠ .tScope → x ∈ newClassesOf dynamicName → Adds x compileName

theorem exists_of_mem {node : Option Ast} (mem : x ∈ newClassesOf node) : ∃ n, node = some n := by
  cases node with
  | none => cases mem
  | some n => exact ⟨n, rfl⟩

theorem isSome_of_mem {node : Option Ast} (mem : x ∈ newClassesOf node) : node.isSome := by
  obtain ⟨n, rfl⟩ := exists_of_mem mem
  rfl

theorem adds_prepareProperty {texts : String × String}
    (inside : InMember x base dynamicName access compileBase compileName) :
    Adds x (prepareProperty texts base dynamicName compileBase compileName name access) := by
  unfold prepareProperty
  split
  · rename_i scope
    obtain mem | ⟨object, -⟩ := inside.mem
    · split
      · cases mem
      · exact adds_fail _
      · exact adds_fail _
    · exact absurd scope object
  · rename_i access'
    refine .right fun _ => ?_
    obtain mem | ⟨-, mem⟩ := inside.mem
    · exact (inside.object mem).left
    · obtain ⟨node, rfl⟩ := exists_of_mem mem
      exact .right fun _ => .right fun _ => .right fun _ => (inside.name access' mem).left

theorem adds_compileMemberAssignment
    (adds : InMember x base dynamicName access compileBase compileName ∨ Adds x right) :
    Adds x (compileMemberAssignment op base dynamicName compileBase compileName name access right) := by
  unfold compileMemberAssignment
  split
  · exact adds_fail _
  split
  · exact adds_fail _
  refine .right fun _ => ?_
  obtain inside | adds := adds
  · exact (adds_prepareProperty inside).left
  · refine .right fun _ => ?_
    repeat' first
      | with_reducible first | exact adds.left | refine .right fun _ => ?_
      | split

theorem adds_compileVariableAssignment {name : Name} (adds : Adds x right) :
    Adds x (compileVariableAssignment op name right) := by
  unfold compileVariableAssignment
  repeat' first
    | with_reducible first | exact adds.left | refine .right fun _ => ?_
    | split

theorem adds_compileIndexIncrement {isPostfix : Bool} {target : Gen IndexLvalue} (adds : Adds x target) :
    Adds x (compileIndexIncrement op isPostfix target) := adds.left

theorem adds_compileMemberIncrement {isPostfix : Bool}
    (inside : InMember x base dynamicName access compileBase compileName) :
    Adds x (compileMemberIncrement op isPostfix base dynamicName compileBase compileName name access) := by
  unfold compileMemberIncrement
  split
  · exact adds_fail _
  · exact .right fun _ => .right fun _ => (adds_prepareProperty inside).left

end Assignments

section Operators
variable {op : TokenType} {left quietLeft right : Gen Unit}

theorem adds_compileBinary {rightNode : Option Ast}
    (adds : Adds x left ∧ Adds x quietLeft ∨ (∀ line token, rightNode ≠ some (.literal .identifier line token)) ∧
      Adds x right) : Adds x (compileBinary op rightNode left quietLeft right) := by
  unfold compileBinary compileShortCircuit
  obtain ⟨adds, quiet⟩ | ⟨other, adds⟩ := adds
  · repeat' first
      | with_reducible first | exact adds.left | exact quiet.left | exact adds_fail _
      | split
  · split
    · repeat' first
        | with_reducible first | exact adds.left | refine .right fun _ => ?_
        | split
    split
    · exact .right fun _ => .right fun _ => .right fun _ => adds.left
    split
    · refine .right fun _ => ?_
      split
      · exact absurd rfl (other _ _)
      · exact adds.left
    · split
      · exact adds_fail _
      · exact .right fun _ => adds.left

theorem adds_compileUnary {cfg : Config} {operandNode : Option Ast}
    (other : ∀ line token, operandNode ≠ some (.literal .int line token)) (adds : Adds x left) :
    Adds x (compileUnary cfg op operandNode left) := by
  unfold compileUnary
  split
  · exact adds_fail _
  split
  · rename_i least
    unfold isLeastInteger at least
    split at least
    · exact absurd rfl (other _ _)
    · cases least
  · exact adds.left

theorem adds_compileTernary {isShort : Bool} {condition thenExpr elseExpr : Gen Unit}
    (adds : Adds x condition ∨ isShort = false ∧ Adds x thenExpr ∨ Adds x elseExpr) :
    Adds x (compileTernary isShort condition thenExpr elseExpr) := by
  unfold compileTernary
  obtain adds | ⟨rfl, adds⟩ | adds := adds
  · split
    · exact adds.left
    · exact adds.left
  · exact .right fun _ => .right fun _ => adds.left
  · split
    · exact .right fun _ => .right fun _ => adds.left
    · exact .right fun _ => .right fun _ => .right fun _ => .right fun _ => .right fun _ => adds.left

end Operators

section Calls
variable {op : TokenType} {base dynamicName : Option Ast} {name : Token} {arguments : List Ast} {count : Nat}
  {compileName values array : Gen Unit} {object : Gen (List Nat)}

theorem adds_compileMutated {argument : Ast} {compileBase : Gen Unit} (mem : x ∈ newClasses argument)
    (object : ∀ line base dynamicName name op, argument = .member line base dynamicName name op →
      x ∈ newClassesOf base → Adds x compileBase) : Adds x (compileMutated argument compileBase) := by
  unfold compileMutated
  split
  · cases mem
  · cases mem
  · split
    · exact adds_fail _
    · rename_i base name other
      have inside : x ∈ newClassesOf base := by simpa [newClasses, newClassesOf] using mem
      exact .right fun _ => .right fun _ => (object _ _ _ _ _ rfl inside).left
  · exact adds_fail _

theorem adds_compileCall {call callArray : Code} (one : Adds x values) (all : Adds x array) :
    Adds x (compileCall arguments values array call callArray) := by
  unfold compileCall
  split
  · exact all.left
  · exact one.left

theorem adds_closeChain {chain : Option Bool} {part : Gen (List Nat)} (adds : Adds x part) :
    Adds x (closeChain chain part) := by
  cases chain with
  | some quiet => exact adds
  | none => exact adds.left

theorem adds_methodCallPart
    (adds : Adds x object ∨ dynamicName.isSome ∧ Adds x compileName ∨ Adds x values ∧ Adds x array) :
    Adds x (methodCallPart dynamicName op name arguments count object compileName values array) := by
  obtain adds | ⟨dynamic, adds⟩ | ⟨one, all⟩ := adds
  · exact adds.left
  · obtain ⟨node, rfl⟩ := Option.isSome_iff_exists.mp dynamic
    exact .right fun _ => .right fun _ => adds.left
  · refine .right fun _ => .right fun _ => ?_
    cases dynamicName with
    | none => exact (adds_compileCall one all).left
    | some node => exact .right fun _ => (adds_compileCall one all).left

theorem adds_memberPart {quiet : Bool} (adds : Adds x object ∨ dynamicName.isSome ∧ Adds x compileName) :
    Adds x (memberPart dynamicName op name quiet object compileName) := by
  obtain adds | ⟨dynamic, adds⟩ := adds
  · exact adds.left
  · obtain ⟨node, rfl⟩ := Option.isSome_iff_exists.mp dynamic
    exact .right fun _ => .right fun _ => adds.left

theorem adds_indexPart {key : Option Ast} {quiet : Bool} {compileKey : Gen Unit}
    (adds : Adds x object ∨ Adds x compileKey) : Adds x (indexPart key quiet object compileKey) := by
  cases key with
  | none => exact adds_fail _
  | some key =>
    obtain adds | adds := adds
    · exact adds.left
    · exact .right fun _ => adds.left

theorem adds_compileMember {chain : Option Bool} {baseIn : Bool → Gen (List Nat)}
    (mem : x ∈ newClassesOf base ∨ op ≠ .tScope ∧ x ∈ newClassesOf dynamicName)
    (object : x ∈ newClassesOf base → ∀ quiet, Adds x (baseIn quiet))
    (member : x ∈ newClassesOf dynamicName → Adds x compileName) :
    Adds x (compileMember chain base dynamicName name op baseIn compileName) := by
  unfold compileMember
  split
  · rename_i scope
    obtain mem | ⟨access, -⟩ := mem
    · split
      · cases mem
      · exact adds_fail _
    · exact absurd scope access
  · split
    · refine adds_closeChain (adds_memberPart ?_)
      obtain mem | ⟨-, mem⟩ := mem
      · exact .inl (object mem _)
      · obtain ⟨node, rfl⟩ := exists_of_mem mem
        exact .inr ⟨rfl, member mem⟩
    · exact adds_fail _

/-- The variables of the object of a member. -/
def objectClasses : Option Ast → List Name
  | some (.member _ base _ _ _) => newClassesOf base
  | _ => []

/-- The variables of the name of a member, if that is not behind `::`. -/
def nameClasses : Option Ast → List Name
  | some (.member _ _ dynamicName _ op) => if op = .tScope then [] else newClassesOf dynamicName
  | _ => []

theorem mem_nameClasses (line : Nat) (base dynamicName : Option Ast) (name : Token) (op : TokenType) :
    x ∈ nameClasses (some (.member line base dynamicName name op)) ↔ op ≠ .tScope ∧ x ∈ newClassesOf dynamicName := by
  unfold nameClasses
  split <;> simp_all

theorem adds_compileCallNode {chain : Option Bool} {callee : Option Ast} {baseIn : Bool → Gen (List Nat)}
    {compileCallee mutation : Gen Unit} (object : x ∈ objectClasses callee → ∀ quiet, Adds x (baseIn quiet))
    (member : x ∈ nameClasses callee → Adds x compileName) (function : x ∈ newClassesOf callee → Adds x compileCallee)
    (one : x ∈ newClassesOfList arguments → Adds x values) (all : x ∈ newClassesOfList arguments → Adds x array)
    (mutating : x ∈ newClassesOfList arguments → Adds x mutation)
    (mem : x ∈ newClassesOf callee ∨ x ∈ newClassesOfList arguments) :
    Adds x (compileCallNode chain callee arguments count baseIn compileName compileCallee values array mutation) := by
  unfold compileCallNode
  split
  · exact adds_fail _
  split
  · rename_i line base dynamicName name op
    have parts : x ∈ newClassesOf base ∨ op ≠ .tScope ∧ x ∈ newClassesOf dynamicName ∨
        x ∈ newClassesOfList arguments := by
      obtain inCallee | inArguments := mem
      · obtain inBase | inName := mem_append.mp inCallee
        · exact .inl inBase
        · exact .inr (.inl ((mem_nameClasses line base dynamicName name op).mp inName))
      · exact .inr (.inr inArguments)
    split
    · refine adds_closeChain (adds_methodCallPart ?_)
      obtain inBase | ⟨access, inName⟩ | inArguments := parts
      · exact .inl (object inBase _)
      · obtain ⟨node, rfl⟩ := exists_of_mem inName
        exact .inr (.inl ⟨rfl, member ((mem_nameClasses _ _ _ _ _).mpr ⟨access, inName⟩)⟩)
      · exact .inr (.inr ⟨one inArguments, all inArguments⟩)
    split
    · rename_i scope
      split
      · obtain none | ⟨access, -⟩ | inArguments := parts
        · cases none
        · exact absurd scope access
        · exact (adds_compileCall (one inArguments) (all inArguments)).left
      · exact adds_fail _
    · exact adds_fail _
  · obtain none | inArguments := mem
    · cases none
    · dsimp only
      split
      · exact (mutating inArguments).left
      · exact (adds_compileCall (one inArguments) (all inArguments)).left
  · obtain inCallee | inArguments := mem
    · exact (function inCallee).left
    · exact .right fun _ => (adds_compileCall (one inArguments) (all inArguments)).left

theorem adds_compileNew {className : Option Ast} (adds : x ∈ classVariable className ∨ Adds x values ∧ Adds x array) :
    Adds x (compileNew className arguments count values array) := by
  unfold compileNew
  split
  · exact adds_fail _
  split
  · obtain none | ⟨one, all⟩ := adds
    · cases none
    · exact adds_compileCall one all
  · obtain own | ⟨one, all⟩ := adds
    · cases mem_singleton.mp own
      exact (adds_load _ _).left
    · exact .right fun _ => adds_compileCall one all
  · exact adds_fail _

theorem adds_compileItem {hasKey spread : Bool} {key value : Gen Unit}
    (adds : Adds x value ∨ hasKey = true ∧ spread = false ∧ Adds x key) :
    Adds x (compileItem hasKey spread key value) := by
  unfold compileItem
  obtain adds | ⟨rfl, rfl, adds⟩ := adds
  · repeat' first
      | with_reducible first | exact adds.left | refine .right fun _ => ?_
      | split
  · exact adds.left

theorem adds_prepareKey {lvalue : IndexLvalue} {key : Option Ast} {isLeaf : Bool} {compileKey : Gen Unit}
    (some : key.isSome) (adds : Adds x compileKey) : Adds x (prepareKey lvalue key isLeaf compileKey) := by
  obtain ⟨node, rfl⟩ := Option.isSome_iff_exists.mp some
  exact .right fun _ => adds.left

theorem adds_prepareRoot {compileBase : Gen Unit} (inside : InMember x base dynamicName op compileBase compileName) :
    Adds x (prepareRoot base dynamicName compileBase compileName name op) := by
  unfold prepareRoot
  split
  · rename_i scope
    obtain mem | ⟨object, -⟩ := inside.mem
    · split
      · cases mem
      · exact adds_fail _
      · exact adds_fail _
    · exact absurd scope object
  · rename_i access
    split
    · refine .right fun _ => .right fun _ => ?_
      obtain mem | ⟨-, mem⟩ := inside.mem
      · exact (inside.object mem).left
      · obtain ⟨node, rfl⟩ := exists_of_mem mem
        exact .right fun _ => .right fun _ => .right fun _ => .right fun _ => (inside.name access mem).left
    · exact adds_fail _

end Calls

section Nodes
variable {op : TokenType} {left : Option Ast} {compileBase compileName : Gen Unit}

theorem inMember {line : Nat} {base dynamicName : Option Ast} {name : Token} {access : TokenType}
    (mem : x ∈ newClassesOf (some (.member line base dynamicName name access)))
    (object : x ∈ objectClasses (some (.member line base dynamicName name access)) → Adds x compileBase)
    (member : x ∈ nameClasses (some (.member line base dynamicName name access)) → Adds x compileName) :
    InMember x base dynamicName access compileBase compileName where
  mem := (mem_append.mp mem).imp_right (mem_nameClasses line base dynamicName name _).mp
  object := object
  name access' inName := member ((mem_nameClasses _ _ _ _ _).mpr ⟨access', inName⟩)

theorem adds_compileAssignment {target : Bool → Gen IndexLvalue} {right : Gen Unit}
    (prepares : x ∈ newClassesOf left → ∀ quiet, Adds x (target quiet))
    (object : x ∈ objectClasses left → Adds x compileBase) (member : x ∈ nameClasses left → Adds x compileName)
    (adds : x ∈ newClassesOf left ∨ Adds x right) :
    Adds x (compileAssignment op left target compileBase compileName right) := by
  unfold compileAssignment
  split
  · exact adds_compileIndexAssignment (adds.imp_left prepares)
  · exact adds_compileMemberAssignment (adds.imp_left fun mem => inMember mem object member)
  · obtain none | adds := adds
    · cases none
    · exact adds_compileVariableAssignment adds
  · exact adds_fail _

theorem adds_compileIncrement {isPostfix : Bool} {target : Gen IndexLvalue}
    (prepares : Adds x target) (object : x ∈ objectClasses left → Adds x compileBase)
    (member : x ∈ nameClasses left → Adds x compileName) (mem : x ∈ newClassesOf left) :
    Adds x (compileIncrement op isPostfix left target compileBase compileName) := by
  unfold compileIncrement
  split
  · exact adds_compileIndexIncrement prepares
  · exact adds_compileMemberIncrement (inMember mem object member)
  · cases mem
  · exact adds_fail _

theorem adds_compileUnset {target : Gen IndexLvalue} (prepares : Adds x target) (mem : x ∈ newClassesOf left) :
    Adds x (compileUnset left target) := by
  unfold compileUnset
  split
  · cases mem
  · exact prepares.left
  · exact adds_fail _

end Nodes

/-! ## Trees -/

/-- The classes in what an argument spreads. -/
def spreadClasses : Ast → List Name
  | .unary _ _ operand _ => newClassesOf operand
  | _ => []

/-- The classes in the conditions of the arms of a `match`. -/
def conditionClasses : List Ast → List Name
  | [] => []
  | .matchArm _ conditions _ :: rest => newClassesOfList conditions ++ conditionClasses rest
  | node :: rest => newClasses node ++ conditionClasses rest

/-- The classes in their results. -/
def resultClasses : List Ast → List Name
  | [] => []
  | .matchArm _ _ result :: rest => newClassesOf result ++ resultClasses rest
  | _ :: rest => resultClasses rest

theorem newClasses_arms (arms : List Ast) (mem : x ∈ newClassesOfList arms) :
    x ∈ conditionClasses arms ++ resultClasses arms := by
  induction arms with
  | nil => cases mem
  | cons arm rest ih =>
    have behind : x ∈ newClassesOfList rest → x ∈ conditionClasses rest ∨ x ∈ resultClasses rest := fun mem =>
      mem_append.mp (ih mem)
    cases arm with
    | matchArm line conditions result =>
      obtain own | mem := mem_append.mp mem
      · obtain inConditions | inResult := mem_append.mp own
        · exact mem_append_left _ (mem_append_left _ inConditions)
        · exact mem_append_right _ (mem_append_left _ inResult)
      · obtain inConditions | inResults := behind mem
        · exact mem_append_left _ (mem_append_right _ inConditions)
        · exact mem_append_right _ (mem_append_right _ inResults)
    | _ =>
      obtain own | mem := mem_append.mp mem
      · exact mem_append_left _ (mem_append_left _ own)
      · obtain inConditions | inResults := behind mem
        · exact mem_append_left _ (mem_append_right _ inConditions)
        · exact mem_append_right _ inResults

section Trees
variable {cfg : Config}

theorem adds_noJumps {code : Gen Unit} (adds : Adds x code) : Adds x (noJumps code) := adds.left

theorem adds_asUnit {part : Gen (List Nat)} (adds : Adds x part) : Adds x (asUnit part) := adds.left

mutual

/-- **The code of an expression reads the class of each `new` in it.** -/
theorem adds_compileIn (chain : Option Bool) : ∀ node, x ∈ newClasses node → Adds x (compileIn cfg chain node) := by
  intro node mem
  cases node with
  | assign line op left right =>
    refine adds_noJumps (adds_compileAssignment (fun mem quiet => adds_prepareIndexLvalue quiet true left mem)
      (fun mem => adds_asUnit (adds_compileBaseIn none left mem)) (fun mem => adds_compileNameOf left mem) ?_)
    exact (mem_append.mp mem).imp_right fun mem => adds_compileOperand right mem
  | binary line op left right =>
    refine adds_noJumps (adds_compileBinary ?_)
    obtain mem | mem := mem_append.mp mem
    · exact .inl ⟨adds_compileOperand left mem, adds_compileQuiet left mem⟩
    · refine .inr ⟨fun line token same => ?_, adds_compileOperand right mem⟩
      subst same
      cases mem
  | unary line op operand isPostfix =>
    refine adds_noJumps ?_
    split
    · exact adds_compileIncrement (adds_prepareIndexLvalue false true operand mem)
        (fun mem => adds_asUnit (adds_compileBaseIn none operand mem)) (fun mem => adds_compileNameOf operand mem) mem
    · refine adds_compileUnary (fun line token same => ?_) (adds_compileOperand operand mem)
      subst same
      cases mem
  | ternary line condition thenExpr elseExpr =>
    refine adds_noJumps (adds_compileTernary ?_)
    obtain mem | mem := mem_append.mp mem
    · obtain mem | mem := mem_append.mp mem
      · exact .inl (adds_compileOperand condition mem)
      · refine .inr (.inl ⟨?_, adds_compileOperand thenExpr mem⟩)
        obtain ⟨node, rfl⟩ := exists_of_mem mem
        rfl
    · exact .inr (.inr (adds_compileOperand elseExpr mem))
  | matchExpr line subject arms =>
    refine adds_noJumps ?_
    obtain mem | mem := mem_append.mp mem
    · exact (adds_compileOperand subject mem).left
    · refine .right fun _ => ?_
      obtain mem | mem := mem_append.mp (newClasses_arms arms mem)
      · exact (adds_compileConditions arms mem).left
      · exact .right fun conditions => .right fun _ => (adds_compileResults arms conditions mem).left
  | call line callee arguments count =>
    refine adds_compileCallNode (fun mem quiet => adds_compileBaseIn (some quiet) callee mem)
      (fun mem => adds_compileNameOf callee mem) (fun mem => adds_compileOperand callee mem)
      (fun mem => adds_compileArguments arguments mem) (fun mem => .right fun _ => adds_compileSpreads arguments mem)
      (fun mem => adds_compileMutation arguments mem) (mem_append.mp mem)
  | member line base dynamicName name op =>
    refine adds_compileMember ?_ (fun mem quiet => adds_compileOperandIn (some quiet) base mem)
      (fun mem => adds_compileOperand dynamicName mem)
    exact (mem_append.mp mem).imp_right (mem_nameClasses line base dynamicName name _).mp
  | newExpr line className arguments count =>
    refine adds_noJumps (adds_compileNew ?_)
    obtain mem | mem := mem_append.mp mem
    · exact .inl mem
    · exact .inr ⟨adds_compileArguments arguments mem, .right fun _ => adds_compileSpreads arguments mem⟩
  | array line items count => exact adds_noJumps (.right fun _ => adds_compileItems items mem)
  | index line base key =>
    refine adds_closeChain (adds_indexPart ?_)
    exact (mem_append.mp mem).imp (fun mem => adds_compileOperandIn _ base mem)
      fun mem => adds_compileOperand key mem
  | isset line operand => exact adds_noJumps (adds_compileQuiet operand mem).left
  | empty line operand => exact adds_noJumps (adds_compileQuiet operand mem).left
  | unset line operand =>
    exact adds_noJumps (adds_compileUnset (adds_prepareIndexLvalue true true operand mem) mem)
  | throwExpr line expression => exact adds_noJumps (adds_compileOperand expression mem).left
  | matchArm | arrayItem => exact adds_fail _
  | _ => cases mem

theorem adds_compileOperandIn (chain : Option Bool) :
    ∀ node, x ∈ newClassesOf node → Adds x (compileOperandIn cfg chain node)
  | some node, mem => adds_compileIn chain node mem

theorem adds_compileOperand : ∀ node, x ∈ newClassesOf node → Adds x (compileOperand cfg node)
  | some node, mem => adds_asUnit (adds_compileIn none node mem)

theorem adds_compileQuiet : ∀ node, x ∈ newClassesOf node → Adds x (compileQuiet cfg node)
  | some node, mem => (adds_compileIn (some true) node mem).left

theorem adds_compileBaseIn (chain : Option Bool) :
    ∀ node, x ∈ objectClasses node → Adds x (compileBaseIn cfg chain node)
  | some node, mem => adds_compileMemberBaseIn chain node mem

theorem adds_compileMemberBaseIn (chain : Option Bool) :
    ∀ node, x ∈ objectClasses (some node) → Adds x (compileMemberBaseIn cfg chain node) := by
  intro node mem
  cases node with
  | member line base dynamicName name op => exact adds_compileOperandIn chain base mem
  | _ => cases mem

theorem adds_compileNameOf : ∀ node, x ∈ nameClasses node → Adds x (compileNameOf cfg node)
  | some node, mem => adds_compileMemberName node mem

theorem adds_compileMemberName : ∀ node, x ∈ nameClasses (some node) → Adds x (compileMemberName cfg node) := by
  intro node mem
  cases node with
  | member line base dynamicName name op => exact adds_compileOperand dynamicName ((mem_nameClasses _ _ _ _ _).mp mem).2
  | _ => cases mem

theorem adds_prepareIndexLvalue (quiet isLeaf : Bool) :
    ∀ node, x ∈ newClassesOf node → Adds x (prepareIndexLvalue cfg quiet isLeaf node)
  | some node, mem => adds_prepareIndex quiet isLeaf node mem

theorem adds_prepareIndex (quiet isLeaf : Bool) :
    ∀ node, x ∈ newClasses node → Adds x (prepareIndex cfg quiet isLeaf node) := by
  intro node mem
  cases node with
  | index line base key =>
    obtain mem | mem := mem_append.mp mem
    · exact (adds_prepareIndexLvalue quiet false base mem).left
    · refine .right fun lvalue => adds_prepareKey ?_ (adds_compileOperand key mem)
      obtain ⟨node, rfl⟩ := exists_of_mem mem
      rfl
  | member line base dynamicName name op =>
    have member : x ∈ nameClasses (some (.member line base dynamicName name op)) →
        Adds x (compileOperand cfg dynamicName) := fun mem =>
      adds_compileOperand dynamicName ((mem_nameClasses line base dynamicName name op).mp mem).2
    exact adds_prepareRoot (inMember mem (fun mem => adds_compileOperand base mem) member)
  | literal kind line token => cases mem
  | _ => exact adds_fail _

theorem adds_compileArguments : ∀ nodes, x ∈ newClassesOfList nodes → Adds x (compileArguments cfg nodes)
  | argument :: rest, mem => by
    obtain mem | mem := mem_append.mp mem
    · exact (adds_asUnit (adds_compileIn none argument mem)).left
    · exact .right fun _ => adds_compileArguments rest mem

theorem adds_compileSpreads : ∀ nodes, x ∈ newClassesOfList nodes → Adds x (compileSpreads cfg nodes)
  | argument :: rest, mem => by
    obtain mem | mem := mem_append.mp mem
    · refine Adds.left ?_
      have value := adds_compileIn none argument mem
      have operand := adds_compileSpreadOperand argument
      unfold compileSpread
      split
      · exact (operand mem).left
      · exact (adds_asUnit value).left
    · exact .right fun _ => adds_compileSpreads rest mem

theorem adds_compileSpreadOperand : ∀ node, x ∈ spreadClasses node → Adds x (compileSpreadOperand cfg node) := by
  intro node mem
  cases node with
  | unary line op operand isPostfix => exact adds_compileOperand operand mem
  | _ => cases mem

theorem adds_compileMutation : ∀ nodes, x ∈ newClassesOfList nodes → Adds x (compileMutation cfg nodes)
  | argument :: rest, mem => by
    obtain mem | mem := mem_append.mp mem
    · refine Adds.left (adds_compileMutated mem fun line base dynamicName name op same inside => ?_)
      refine adds_asUnit (adds_compileMemberBaseIn none argument ?_)
      rw [same]
      exact inside
    · exact .right fun _ => adds_compileArguments rest mem

theorem adds_compileItems : ∀ nodes, x ∈ newClassesOfList nodes → Adds x (compileItems cfg nodes)
  | item :: rest, mem => by
    have behind : x ∈ newClassesOfList rest → Adds x (compileItems cfg rest) := adds_compileItems rest
    cases item with
    | arrayItem line key value spread =>
      obtain mem | mem := mem_append.mp mem
      · refine Adds.left (adds_compileItem ?_)
        obtain mem | mem := mem_append.mp mem
        · split at mem
          · cases mem
          · rename_i alone
            exact .inr ⟨isSome_of_mem mem, Bool.eq_false_of_not_eq_true alone, adds_compileOperand key mem⟩
        · exact .inl (adds_compileOperand value mem)
      · exact .right fun _ => behind mem
    | _ => exact adds_fail _

theorem adds_compileConditions : ∀ arms, x ∈ conditionClasses arms → Adds x (compileConditions cfg arms)
  | arm :: rest, mem => by
    have behind : x ∈ conditionClasses rest → Adds x (compileConditions cfg rest) := adds_compileConditions rest
    cases arm with
    | matchArm line conditions result =>
      obtain mem | mem := mem_append.mp mem
      · exact (adds_compileArmConditions conditions mem).left
      · exact .right fun _ => (behind mem).left
    | _ => exact adds_fail _

theorem adds_compileArmConditions : ∀ nodes, x ∈ newClassesOfList nodes → Adds x (compileArmConditions cfg nodes)
  | condition :: rest, mem => by
    obtain mem | mem := mem_append.mp mem
    · exact .right fun _ => (adds_asUnit (adds_compileIn none condition mem)).left
    · exact .right fun _ => .right fun _ => .right fun _ => .right fun _ => (adds_compileArmConditions rest mem).left

theorem adds_compileResults : ∀ arms jumps, x ∈ resultClasses arms → Adds x (compileResults cfg arms jumps)
  | arm :: rest, jumps, mem => by
    have behind : ∀ jumps, x ∈ resultClasses rest → Adds x (compileResults cfg rest jumps) := fun jumps mem =>
      adds_compileResults rest jumps mem
    cases arm with
    | matchArm line conditions result =>
      refine .right fun _ => .right fun _ => .right fun _ => ?_
      obtain mem | mem := mem_append.mp mem
      · exact (adds_compileOperand result mem).left
      · exact .right fun _ => .right fun _ => (behind _ mem).left
    | _ => exact adds_fail _

end

end Trees

end PhpPico.Closure
