import PhpPico.Closure.Captures

/-!
# What the walk finds

`collect_captures` finds exactly the references of a tree that are no parameters, unless there are too many.
-/

namespace PhpPico.Closure
open List

open Compiler Call

/-! ## Free names -/

theorem mem_free {parameters : List Parameter} {names : List Name} {x : Name} :
    x ∈ free parameters names ↔ x ∈ names ∧ ∀ p ∈ parameters, p.variable ≠ x := by
  simp [free]

theorem free_append (parameters : List Parameter) (l r : List Name) :
    free parameters (l ++ r) = free parameters l ++ free parameters r := filter_append ..

theorem mem_captureAdd {parameters : List Parameter} {set result : List Name} {name : Name}
    (added : captureAdd parameters set name = some result) (x : Name) :
    x ∈ result ↔ x ∈ set ∨ x ∈ free parameters [name] := by
  unfold captureAdd at added
  split at added
  · rename_i parameter
    cases added
    have none : x ∉ free parameters [name] := by
      intro mem
      obtain ⟨same, apart⟩ := mem_free.mp mem
      obtain ⟨p, here, equal⟩ := List.any_eq_true.mp parameter
      exact apart p here ((beq_iff_eq.mp equal).trans (mem_singleton.mp same).symm)
    simp [none]
  rename_i parameter
  have own : x ∈ free parameters [name] ↔ x = name := by
    rw [mem_free, mem_singleton]
    refine ⟨And.left, fun same => ⟨same, fun p mem equal => parameter ?_⟩⟩
    exact List.any_eq_true.mpr ⟨p, mem, beq_iff_eq.mpr (equal.trans same)⟩
  split at added
  · rename_i found
    cases added
    rw [own]
    refine ⟨.inl, ?_⟩
    rintro (mem | rfl)
    · exact mem
    · exact contains_iff_mem.mp found
  split at added
  · cases added
  · cases added
    rw [own, mem_append, mem_singleton]

/-! ## Walks -/

/-- A walk that adds the free names of a list. -/
def Collects (parameters : List Parameter) (walk : List Name → Option (List Name)) (names : List Name) : Prop :=
  ∀ set result, walk set = some result → ∀ x, x ∈ result ↔ x ∈ set ∨ x ∈ free parameters names

section Walks
variable {parameters : List Parameter} {walk next : List Name → Option (List Name)} {names others : List Name}

theorem collects_nothing : Collects parameters some [] := by
  intro set result found x
  cases found
  simp [free]

theorem collects_add (name : Name) : Collects parameters (captureAdd parameters · name) [name] :=
  fun _ _ added => mem_captureAdd added

theorem Collects.bind (first : Collects parameters walk names) (second : Collects parameters next others) :
    Collects parameters (fun set => (walk set).bind next) (names ++ others) := by
  intro set result found x
  obtain ⟨between, one, two⟩ := Option.bind_eq_some_iff.mp found
  rw [second _ _ two, first _ _ one, free_append, mem_append, or_assoc]

theorem collects_all (names : List Name) : Collects parameters (captureAll parameters · names) names := by
  induction names with
  | nil => exact collects_nothing
  | cons name rest ih => exact (collects_add name).bind ih

theorem mem_captureUses {captures names added : List Name}
    (new : captureUses parameters captures names = .ok added) {x : Name} (mem : x ∈ added) :
    x ∈ captures ∨ x ∈ free parameters names := by
  induction names generalizing captures with
  | nil =>
    cases new
    exact .inl mem
  | cons name rest ih =>
    unfold captureUses at new
    split at new
    · cases new
    split at new
    · cases new
    rename_i one first
    have behind : free parameters (name :: rest) = free parameters [name] ++ free parameters rest :=
      free_append parameters [name] rest
    rw [behind, mem_append, ← or_assoc]
    exact (ih new).imp_left (mem_captureAdd first x).mp

theorem mem_nestedCaptures {uses referenced : List Name} {isArrow isStatic : Bool} {found : Option (List Name)}
    {nested : List Name} (body : ∀ result, found = some result → ∀ x, x ∈ result ↔ x ∈ free parameters referenced)
    (captured : nestedCaptures parameters uses isArrow isStatic found = some nested) (x : Name) :
    x ∈ nested ↔ x ∈ free parameters
      (if isArrow then referenced else uses ++ if isStatic then [] else referenced.filter (· == thisName)) := by
  unfold nestedCaptures at captured
  cases isArrow with
  | true => exact body nested captured x
  | false =>
    simp only [Bool.false_eq_true, if_false] at captured ⊢
    obtain ⟨listed, all, this⟩ := Option.bind_eq_some_iff.mp captured
    have uses := collects_all uses [] listed all
    simp only [not_mem_nil, false_or] at uses
    cases isStatic with
    | true =>
      cases this
      simpa using uses x
    | false =>
      simp only [Bool.false_eq_true, if_false] at this ⊢
      obtain ⟨names, ran, adding⟩ := Option.bind_eq_some_iff.mp this
      have inner := body names ran
      have onlyThis : x ∈ free parameters (referenced.filter (· == thisName)) ↔ x = thisName ∧ thisName ∈ names := by
        rw [mem_free, mem_filter, beq_iff_eq, inner, mem_free]
        constructor
        · rintro ⟨⟨mem, rfl⟩, apart⟩
          exact ⟨rfl, mem, apart⟩
        · rintro ⟨rfl, mem, apart⟩
          exact ⟨⟨mem, rfl⟩, apart⟩
      rw [free_append, mem_append, onlyThis, ← uses]
      split at adding
      · rename_i contains
        have mem := contains_iff_mem.mp contains
        rw [mem_captureAdd adding, mem_free, mem_singleton]
        constructor
        · rintro (old | ⟨new, -⟩)
          · exact .inl old
          · exact .inr ⟨new, mem⟩
        · rintro (old | ⟨new, -⟩)
          · exact .inl old
          · exact .inr ⟨new, new ▸ (mem_free.mp ((inner thisName).mp mem)).2⟩
      · rename_i absent
        cases adding
        have none : thisName ∉ names := fun mem => absent (contains_iff_mem.mpr mem)
        simp [none]

end Walks

/-! ## The walk over a tree -/

mutual

/-- **`collect_captures` adds the references of a tree.** -/
theorem collectCaptures_collects (parameters : List Parameter) :
    ∀ node, Collects parameters (collectCaptures parameters · node) (references node)
  | .literal .variable _ token => collects_add (variableName token)
  | .program _ items _ | .block _ items _ | .array _ items _ | .echo _ items _ =>
    collectCaptureList_collects parameters items
  | .unary _ _ operand _ | .unset _ operand | .isset _ operand | .empty _ operand =>
    collectOperand_collects parameters operand
  | .binary _ _ left right | .assign _ _ left right =>
    (collectOperand_collects parameters left).bind (collectOperand_collects parameters right)
  | .ternary _ condition thenExpr elseExpr => by
    have code := (collectOperand_collects parameters condition).bind
      ((collectOperand_collects parameters thenExpr).bind (collectOperand_collects parameters elseExpr))
    rw [← append_assoc] at code
    exact code
  | .matchExpr _ subject arms =>
    (collectOperand_collects parameters subject).bind (collectCaptureList_collects parameters arms)
  | .matchArm _ conditions result =>
    (collectCaptureList_collects parameters conditions).bind (collectOperand_collects parameters result)
  | .call _ callee arguments _ =>
    (collectOperand_collects parameters callee).bind (collectCaptureList_collects parameters arguments)
  | .index _ base key => (collectOperand_collects parameters base).bind (collectOperand_collects parameters key)
  | .member _ base dynamicName _ _ =>
    (collectOperand_collects parameters base).bind (collectOperand_collects parameters dynamicName)
  | .arrayItem _ key value _ =>
    (collectOperand_collects parameters key).bind (collectOperand_collects parameters value)
  | .exprStmt _ expression | .returnStmt _ expression | .throwExpr _ expression =>
    collectOperand_collects parameters expression
  | .ifStmt _ condition thenBranch elseBranch => by
    have code := (collectOperand_collects parameters condition).bind
      ((collectFirst_collects parameters thenBranch).bind (collectFirst_collects parameters elseBranch))
    rw [← append_assoc] at code
    exact code
  | .whileLoop _ condition body | .doWhile _ condition body =>
    (collectOperand_collects parameters condition).bind (collectFirst_collects parameters body)
  | .forStmt _ initializers conditions increments body => by
    have code := (collectCaptureList_collects parameters initializers).bind
      ((collectCaptureList_collects parameters conditions).bind
        ((collectCaptureList_collects parameters increments).bind (collectFirst_collects parameters body)))
    rw [← append_assoc, ← append_assoc] at code
    exact code
  | .foreachStmt _ iterable key value body => by
    have code := (collectOperand_collects parameters iterable).bind
      ((collectOperand_collects parameters key).bind
        ((collectOperand_collects parameters value).bind (collectFirst_collects parameters body)))
    rw [← append_assoc, ← append_assoc] at code
    exact code
  | .switchStmt _ subject cases =>
    (collectOperand_collects parameters subject).bind (collectCaptureList_collects parameters cases)
  | .caseStmt _ condition body =>
    (collectOperand_collects parameters condition).bind (collectOperand_collects parameters body)
  | .staticBinding _ _ value | .constBinding _ _ value => collectOperand_collects parameters value
  | .includeStmt _ _ path => collectOperand_collects parameters path
  | .newExpr _ _ arguments _ => collectCaptureList_collects parameters arguments
  | .tryStmt _ tryBlock catches finallyBlock => by
    have code := (collectOperand_collects parameters tryBlock).bind
      ((collectCaptureList_collects parameters catches).bind (collectOperand_collects parameters finallyBlock))
    rw [← append_assoc] at code
    exact code
  | .catchStmt _ _ _ body => collectOperand_collects parameters body
  | .closure _ own uses _ isArrow isStatic _ body => by
    intro set result found x
    obtain ⟨nested, captured, adding⟩ := Option.bind_eq_some_iff.mp found
    rw [collects_all nested set result adding x, mem_free, mem_free]
    refine or_congr_right (and_congr_left fun _ => mem_nestedCaptures ?_ captured x)
    intro inner ran x
    rw [collectOperand_collects (parametersOf own) body [] inner ran x]
    simp
  | .null _ | .literal .bool .. | .literal .int .. | .literal .float .. | .literal .string ..
  | .literal .identifier .. | .breakStmt .. | .continueStmt .. | .global .. | .function .. | .param ..
  | .classDecl .. | .property .. | .typeDecl .. => collects_nothing

theorem collectOperand_collects (parameters : List Parameter) :
    ∀ operand, Collects parameters (collectOperand parameters · operand) (referencesOf operand)
  | none => collects_nothing
  | some node => collectCaptures_collects parameters node

theorem collectFirst_collects (parameters : List Parameter) :
    ∀ nodes, Collects parameters (collectFirst parameters · nodes) (referencesOfFirst nodes)
  | [] => collects_nothing
  | node :: _ => collectCaptures_collects parameters node

theorem collectCaptureList_collects (parameters : List Parameter) :
    ∀ nodes, Collects parameters (collectCaptureList parameters · nodes) (referencesOfList nodes)
  | [] => collects_nothing
  | node :: rest => (collectCaptures_collects parameters node).bind (collectCaptureList_collects parameters rest)

end

end PhpPico.Closure
