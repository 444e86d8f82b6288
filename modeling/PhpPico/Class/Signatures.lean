import PhpPico.Class.Members

/-!
# Signatures

A method may stand for another one if it does not ask for more arguments, its parameters take what those of the other
take, and its result is what the other promises. A type with a class that is not registered leaves the question open.
-/

namespace PhpPico.Members
open List

/-! ## The code -/

/-- `ptype_member`. -/
inductive TypeMember where
  | int | float | string | bool | array | callable | mixed | void | null
  | self | static | parent
  | named (name : List UInt8)
deriving DecidableEq, Repr

/-- `ptype_spec`; no members are no type. -/
abbrev TypeSpec := List TypeMember

/-- The kind is before `PTYPE_SELF`. -/
def TypeMember.isBuiltin : TypeMember → Bool
  | .self | .static | .parent | .named _ => false
  | _ => true

/-- `METHOD_INCOMPATIBLE`, `METHOD_COMPATIBLE` and `METHOD_PENDING`. -/
inductive Relation where
  | incompatible
  | compatible
  | pending
deriving DecidableEq, Repr

/-- One more relation that must not be incompatible. -/
def Relation.and : Relation → Relation → Relation
  | .incompatible, _ => .incompatible
  | _, .incompatible => .incompatible
  | .compatible, .compatible => .compatible
  | _, _ => .pending

/-- A method with its declared types. The parser and the loader admit `void` and `static` as types of results
only. -/
structure TypedMethod where
  method : PMethod
  parameterTypes : List TypeSpec
  returnType : TypeSpec
  counts : ∀ s, method.signature = some s → parameterTypes.length = s.nParams
  required : ∀ s, method.signature = some s → s.nRequired ≤ s.nParams
  rest : ∀ s, method.signature = some s → s.variadic = true → 0 < s.nParams
  resultOnly : ∀ spec ∈ parameterTypes, TypeMember.static ∉ spec ∧ TypeMember.void ∉ spec

section Code

-- A class under construction is among the classes, and not found by its name before it is registered.
variable (registered classes : Classes)

/-- The parent of a class. -/
def parentOf (a : Nat) : Option Nat := (classAt classes a).bind PClass.parent

def nameOf (a : Nat) : Option (List UInt8) := (classAt classes a).map PClass.name

/-- `declared_member_class`. -/
def declaredMemberClass (owner : Nat) : TypeMember → Option Nat
  | .self | .static => some owner
  | .parent => parentOf classes owner
  | .named name =>
    if (nameOf classes owner).any fun own => bytesEqualCi own name then some owner else findClass registered name
  | _ => none

/-- `declared_member_name`. -/
def declaredMemberName (owner : Nat) : TypeMember → Option (List UInt8)
  | .self | .static => nameOf classes owner
  | .parent => (parentOf classes owner).bind (nameOf classes)
  | .named name => some name
  | _ => none

/-- Both are there and related. -/
def both {α : Type} (related : α → α → Bool) : Option α → Option α → Bool
  | some a, some b => related a b
  | _, _ => false

/-- `declared_member_subtype`. -/
def declaredMemberSubtype (sub : TypeMember) (subOwner : Nat) (super : TypeMember) (superOwner : Nat) : Relation :=
  if super = .mixed then .compatible
  else if sub = .mixed then .incompatible
  else if super = .static ∧ sub ≠ .static then .incompatible
  else if sub.isBuiltin ∧ super.isBuiltin then if sub = super then .compatible else .incompatible
  else
    let subName := declaredMemberName classes subOwner sub
    let superName := declaredMemberName classes superOwner super
    let subClass := declaredMemberClass registered classes subOwner sub
    let superClass := declaredMemberClass registered classes superOwner super
    if both bytesEqualCi subName superName then .compatible
    else if subClass.isSome ∧ superClass.isSome then
      if both (isA classes) subClass superClass then .compatible else .incompatible
    else if subName.isSome ∧ superName.isSome then .pending
    else .incompatible

/-- The inner loop of `declared_spec_subtype`. -/
def memberCovered (sub : TypeMember) (subOwner superOwner : Nat) : TypeSpec → Bool → Relation
  | [], memberPending => if memberPending then .pending else .incompatible
  | super :: rest, memberPending =>
    match declaredMemberSubtype registered classes sub subOwner super superOwner with
    | .compatible => .compatible
    | .pending => memberCovered sub subOwner superOwner rest true
    | .incompatible => memberCovered sub subOwner superOwner rest memberPending

/-- `declared_spec_subtype`. -/
def declaredSpecSubtype (sub : TypeSpec) (subOwner : Nat) (super : TypeSpec) (superOwner : Nat) : Relation :=
  if super = [] ∨ super = [.mixed] then .compatible
  else if sub = [] then .incompatible
  else sub.foldl (fun (relation : Relation) m =>
    relation.and (memberCovered registered classes m subOwner superOwner super false)) .compatible

/-- The types in `method_signature_compatible`. -/
def typesCompatible (implementation requirement : TypedMethod) (actual required : Signature) : Relation :=
  let parameters : Relation := (List.range required.nParams).foldl
    (fun (relation : Relation) i => relation.and
      (declaredSpecSubtype registered classes (requirement.parameterTypes.getD i []) requirement.method.owner
        (implementation.parameterTypes.getD (if i < actual.nParams then i else actual.nParams - 1) [])
        implementation.method.owner)) .compatible
  parameters.and
    (declaredSpecSubtype registered classes implementation.returnType implementation.method.owner requirement.returnType
      requirement.method.owner)

/-- `method_signature_compatible`. -/
def methodSignatureCompatible (implementation requirement : TypedMethod) : Relation :=
  if signatureCompatible (fun _ _ => true) implementation.method requirement.method then
    match implementation.method.signature, requirement.method.signature with
    | some actual, some required => typesCompatible registered classes implementation requirement actual required
    | _, _ => .compatible
  else .incompatible

end Code

/-! ## What the types mean -/

/-- What a type sees of a value. -/
inductive ValueType where
  | null | bool | int | float | string | array
  | object (classEntry : Nat)
  | other
deriving DecidableEq, Repr

section Meaning
variable (classes : Classes) {V : Type} (typeOf : V → ValueType) (callable : V → Prop) (called : Nat)

/-- `type_scope_class`, in a method of the owner that is called on the class `called`. -/
def typeScopeClass (owner : Nat) : TypeMember → Option Nat
  | .self => some owner
  | .parent => parentOf classes owner
  | .static => some called
  | .named name => findClass classes name
  | _ => none

/-- `type_member_accepts`; which values can be called is a parameter. -/
def typeMemberAccepts (owner : Nat) (m : TypeMember) (v : V) : Prop :=
  match m with
  | .int => typeOf v = .int
  | .float => typeOf v = .float
  | .string => typeOf v = .string
  | .bool => typeOf v = .bool
  | .array => typeOf v = .array
  | .callable => callable v
  | .mixed => True
  | .void | .null => typeOf v = .null
  | m => ∃ expected entry, typeScopeClass classes called owner m = some expected ∧ typeOf v = .object entry ∧
      isA classes entry expected = true

/-- `type_spec_accepts`. -/
def typeSpecAccepts (owner : Nat) (spec : TypeSpec) (v : V) : Prop :=
  spec = [] ∨ ∃ m ∈ spec, typeMemberAccepts classes typeOf callable called owner m v

/-- The type an argument is checked against: those that the rest parameter takes have its type. -/
def TypedMethod.typeAt (m : TypedMethod) (s : Signature) (i : Nat) : TypeSpec :=
  m.parameterTypes.getD (if s.variadic = true ∧ s.nParams - 1 ≤ i then s.nParams - 1 else i) []

/-- The arguments are as many as the signature asks for, and each is of the declared type. -/
structure Admissible (m : TypedMethod) (s : Signature) (args : List V) : Prop where
  enough : s.nRequired ≤ args.length
  notTooMany : s.variadic = true ∨ args.length ≤ s.nParams
  types : ∀ i v, args[i]? = some v → typeSpecAccepts classes typeOf callable called m.method.owner (m.typeAt s i) v

/-- **The part of the parameters that is not compared**: the required method takes any number of arguments, and the
implementing one has more parameters than it, one of which does not take all that the other's rest parameter takes.
Where a parameter takes no value at all, there is no such call. -/
def RestGap (implementation requirement : TypedMethod) (actual required : Signature) : Prop :=
  required.variadic = true ∧
  (∀ i < required.nParams - 1, ∃ v, typeSpecAccepts classes typeOf callable called requirement.method.owner
    (requirement.typeAt required i) v) ∧
  ∃ j v, required.nParams ≤ j ∧ j < actual.nParams ∧
    typeSpecAccepts classes typeOf callable called requirement.method.owner (requirement.typeAt required j) v ∧
    ¬ typeSpecAccepts classes typeOf callable called implementation.method.owner (implementation.typeAt actual j) v

end Meaning

/-- A type as the parser and the loader admit them in a class: `mixed` and `void` stand alone, and `parent` only
where there is a parent. -/
structure ProperSpec (classes : Classes) (owner : Nat) (spec : TypeSpec) : Prop where
  alone : ∀ m ∈ spec, m = .mixed ∨ m = .void → spec = [m]
  parent : TypeMember.parent ∈ spec → (parentOf classes owner).isSome = true

/-! ## Relations -/

theorem Relation.and_eq_compatible {r r' : Relation} : r.and r' = .compatible ↔ r = .compatible ∧ r' = .compatible := by
  cases r <;> cases r' <;> decide

/-- Nothing is refused, and nothing left open. -/
theorem foldl_and_eq_compatible {α : Type} {f : α → Relation} {l : List α} {r : Relation} :
    l.foldl (fun (relation : Relation) a => relation.and (f a)) r = .compatible ↔
      r = .compatible ∧ ∀ a ∈ l, f a = .compatible := by
  induction l generalizing r with
  | nil => simp
  | cons a rest ih =>
    rw [foldl_cons, ih, Relation.and_eq_compatible, forall_mem_cons, and_assoc]

section Subtypes
variable {typesAllow : PMethod → PMethod → Bool} {registered classes older : Classes} {a b e owner : Nat} {c : PClass}

variable {sub m super m' : TypeMember} {subOwner superOwner o o' o'' : Nat} {name : List UInt8}
  {c' c'' : PClass} {s : TypeSpec}

theorem memberCovered_eq_compatible {spec : TypeSpec} {open_question : Bool} :
    memberCovered registered classes sub subOwner superOwner spec open_question = .compatible ↔
      ∃ m ∈ spec, declaredMemberSubtype registered classes sub subOwner m superOwner = .compatible := by
  induction spec generalizing open_question with
  | nil => cases open_question <;> simp [memberCovered]
  | cons m rest ih =>
    rw [memberCovered, exists_mem_cons_iff]
    cases declaredMemberSubtype registered classes sub subOwner m superOwner with
    | compatible => simp
    | pending => exact ih.trans (by simp)
    | incompatible => exact ih.trans (by simp)

/-- **A type is a subtype** if each of its members is one of a member of the other. -/
theorem declaredSpecSubtype_eq_compatible {sub super : TypeSpec} :
    declaredSpecSubtype registered classes sub subOwner super superOwner = .compatible ↔
      (super = [] ∨ super = [.mixed]) ∨ sub ≠ [] ∧ ∀ m ∈ sub, ∃ m' ∈ super,
        declaredMemberSubtype registered classes m subOwner m' superOwner = .compatible := by
  unfold declaredSpecSubtype
  by_cases trivially : super = [] ∨ super = [.mixed]
  · rw [if_pos trivially]
    exact iff_of_true rfl (.inl trivially)
  · rw [if_neg trivially]
    by_cases none : sub = []
    · rw [if_pos none]
      simp [trivially, none]
    · rw [if_neg none, foldl_and_eq_compatible]
      simp only [memberCovered_eq_compatible, trivially, none, ne_eq, not_false_eq_true, true_and, false_or]

/-! ## Class tables -/

/-- Classes are found by names without regard to case. -/
theorem findClass_congr {x y : List UInt8} (same : bytesEqualCi x y = true) (l : Classes) :
    findClass l x = findClass l y := by
  induction l with
  | nil => rfl
  | cons e rest ih => rw [findClass, findClass, bytesEqualCi_left same, ih]

theorem findClass_registered (h : findClass classes name = some a) : ∃ c, classAt classes a = some c := by
  induction classes with
  | nil => cases h
  | cons newest older ih =>
    rw [findClass] at h
    split at h
    · cases h
      exact ⟨newest, classAt_newest⟩
    · obtain ⟨c, found⟩ := ih h
      exact ⟨c, by rw [classAt_older (classAt_lt found), found]⟩

theorem declare_fresh {d : ClassDeclaration} {classes' : Classes} (h : declare typesAllow classes d = some classes') :
    ∃ newest, classes' = newest :: classes ∧ findClass classes newest.name = none ∧
      ∀ p, newest.parent = some p → ∃ e, classAt classes p = some e := by
  unfold declare at h
  obtain ⟨parent, found, h⟩ := Option.bind_eq_some_iff.mp h
  obtain ⟨started, new, h⟩ := Option.bind_eq_some_iff.mp h
  obtain ⟨newest, body, h⟩ := Option.bind_eq_some_iff.mp h
  split at h
  · rename_i accepted
    cases h
    obtain ⟨rfl, -⟩ := addProperties_spec new
    refine ⟨newest, rfl, accepted.2, fun p is_parent => ?_⟩
    have same : newest.parent = parent := (defineMembers_adds body).parent
    rw [same] at is_parent
    subst is_parent
    unfold declaredParent at found
    split at found
    · cases found
    · obtain ⟨q, allowed, same_parent⟩ := Option.map_eq_some_iff.mp found
      cases same_parent
      exact findClass_registered (Option.filter_eq_some_iff.mp allowed).1
  · cases h

theorem parent_registered (declared : Declared typesAllow classes) (h : classAt classes a = some c)
    (parent : c.parent = some b) : ∃ e, classAt classes b = some e := by
  induction declared generalizing a c with
  | nil => cases h
  | declare before declared ih =>
    obtain ⟨newest, rfl, -, parents⟩ := declare_fresh declared
    obtain ⟨e, found⟩ : ∃ e, classAt _ b = some e := by
      rw [classAt] at h
      split at h
      · cases h
        exact parents b parent
      · exact ih h parent
    exact ⟨e, by rw [classAt_older (classAt_lt found), found]⟩

/-- Classes that are found stay found under their names. -/
theorem findClass_of_registered (declared : Declared typesAllow classes) (before : registered <:+ classes)
    (h : findClass registered name = some a) : findClass classes name = some a := by
  induction declared with
  | nil => rwa [suffix_nil.mp before] at h
  | declare earlier declared ih =>
    obtain ⟨newest, rfl, fresh, -⟩ := declare_fresh declared
    rcases suffix_cons_iff.mp before with rfl | before
    · exact h
    · have found := ih before
      rw [findClass, if_neg, found]
      intro same
      rw [findClass_congr same, found] at fresh
      cases fresh

theorem findClass_of_classAt (declared : Declared typesAllow classes) (h : classAt classes a = some c) :
    findClass classes c.name = some a := by
  induction declared generalizing a c with
  | nil => cases h
  | declare before declared ih =>
    rename_i classes classes' d
    obtain ⟨newest, rfl, fresh, -⟩ := declare_fresh declared
    rw [findClass]
    by_cases self : a = classes.length
    · subst self
      rw [classAt_newest] at h
      cases h
      rw [if_pos (bytesEqualCi_refl _)]
    · rw [classAt, if_neg self] at h
      have found := ih h
      rw [if_neg, found]
      intro same
      rw [findClass_congr same, found] at fresh
      cases fresh

theorem isA_lt (h : isA classes a b = true) : a < classes.length ∧ b < classes.length := by
  induction classes generalizing a with
  | nil => cases h
  | cons c older ih =>
    rw [isA] at h
    rw [length_cons]
    split at h
    · rename_i newest
      rw [Bool.or_eq_true, Bool.or_eq_true] at h
      rcases h with (h | h) | h
      · have := eq_of_beq h
        omega
      · obtain ⟨i, -, h⟩ := List.any_eq_true.mp h
        have := ih h
        omega
      · obtain ⟨p, -, h⟩ := (Option.any_eq_true _ _).mp h
        have := ih h
        omega
    · have := ih h
      omega

/-- **What a class is, its subclasses are.** -/
theorem isA_trans (h : isA classes a b = true) (h' : isA classes b e = true) : isA classes a e = true := by
  induction classes generalizing a with
  | nil => cases h
  | cons c older ih =>
    by_cases self : b = older.length
    · -- a class registered before does not know of it
      rw [isA] at h
      split at h
      · rename_i newest
        rw [newest, ← self]
        exact h'
      · have := (isA_lt h).2
        omega
    · have later := h'
      rw [isA, if_neg self] at h'
      rw [isA] at h ⊢
      split at h
      · rename_i newest
        rw [if_pos newest]
        rw [Bool.or_eq_true, Bool.or_eq_true] at h ⊢
        rcases h with (h | h) | h
        · exact absurd ((eq_of_beq h).symm.trans newest) self
        · obtain ⟨i, inside, h⟩ := List.any_eq_true.mp h
          exact .inl (.inr (List.any_eq_true.mpr ⟨i, inside, ih h h'⟩))
        · obtain ⟨p, inside, h⟩ := (Option.any_eq_true _ _).mp h
          exact .inr ((Option.any_eq_true _ _).mpr ⟨p, inside, ih h h'⟩)
      · rename_i old
        rw [if_neg old]
        exact ih h h'

/-! ## Members of types -/

theorem class_of_name (declared : Declared typesAllow classes) (owned : classAt classes owner = some c)
    (named : declaredMemberName classes owner m = some name) :
    declaredMemberClass classes classes owner m = findClass classes name := by
  have own : nameOf classes owner = some c.name := by
    rw [nameOf, owned]
    rfl
  cases m with
  | self | static =>
    have same : name = c.name := Option.some.inj (named.symm.trans own)
    rw [same, findClass_of_classAt declared owned]
    rfl
  | parent =>
    obtain ⟨p, parent, named⟩ := Option.bind_eq_some_iff.mp named
    obtain ⟨e, at_p, rfl⟩ := Option.map_eq_some_iff.mp named
    rw [findClass_of_classAt declared at_p]
    exact parent
  | named other =>
    cases named
    rw [declaredMemberClass, own, Option.any_some]
    split
    · rename_i same
      rw [← findClass_congr same, findClass_of_classAt declared owned]
    · rfl
  | int | float | string | bool | array | callable | mixed | void | null => cases named

/-- Equal names, or a class that is one of the other. -/
def ClassRelated (registered classes : Classes) (sub : TypeMember) (subOwner : Nat) (super : TypeMember)
    (superOwner : Nat) : Prop :=
  (∃ n n', declaredMemberName classes subOwner sub = some n ∧ declaredMemberName classes superOwner super = some n' ∧
    bytesEqualCi n n' = true) ∨
  ∃ k k', declaredMemberClass registered classes subOwner sub = some k ∧
    declaredMemberClass registered classes superOwner super = some k' ∧ isA classes k k' = true

theorem both_eq_true {α : Type} {related : α → α → Bool} {o o' : Option α} :
    both related o o' = true ↔ ∃ x y, o = some x ∧ o' = some y ∧ related x y = true := by
  cases o <;> cases o' <;> simp [both]

/-- **When one member of a type is a subtype of another.** -/
theorem declaredMemberSubtype_eq_compatible :
    declaredMemberSubtype registered classes sub subOwner super superOwner = .compatible ↔
      super = .mixed ∨ sub ≠ .mixed ∧ (super = .static → sub = .static) ∧
        if sub.isBuiltin = true ∧ super.isBuiltin = true then sub = super
        else ClassRelated registered classes sub subOwner super superOwner := by
  unfold declaredMemberSubtype
  by_cases top : super = .mixed
  · rw [if_pos top]
    exact iff_of_true rfl (.inl top)
  rw [if_neg top]
  by_cases sub_top : sub = .mixed
  · rw [if_pos sub_top]
    simp [top, sub_top]
  rw [if_neg sub_top]
  by_cases late : super = .static ∧ sub ≠ .static
  · rw [if_pos late]
    simp [late.1, late.2]
  rw [if_neg late]
  have late' : super = .static → sub = .static := fun h => by_contra fun h' => late ⟨h, h'⟩
  rw [or_iff_right top, and_iff_right sub_top, and_iff_right late']
  by_cases builtin : sub.isBuiltin = true ∧ super.isBuiltin = true
  · rw [if_pos builtin, if_pos builtin]
    by_cases same : sub = super <;> simp [same]
  rw [if_neg builtin, if_neg builtin, ClassRelated, ← both_eq_true, ← both_eq_true]
  by_cases names : both bytesEqualCi (declaredMemberName classes subOwner sub)
      (declaredMemberName classes superOwner super) = true
  · rw [if_pos names]
    exact iff_of_true rfl (.inl names)
  rw [if_neg names]
  by_cases is_a : both (isA classes) (declaredMemberClass registered classes subOwner sub)
      (declaredMemberClass registered classes superOwner super) = true
  · obtain ⟨k, k', sub_class, super_class, -⟩ := both_eq_true.mp is_a
    rw [if_pos ⟨by rw [sub_class]; rfl, by rw [super_class]; rfl⟩, if_pos is_a]
    exact iff_of_true rfl (.inr is_a)
  · refine iff_of_false ?_ fun h => h.elim names is_a
    rw [if_neg is_a]
    split
    · exact fun h => (by cases h)
    · split <;> exact fun h => (by cases h)

/-! Types of classes have names and classes, the others have none. -/

theorem declaredMemberName_builtin (builtin : m.isBuiltin = true) : declaredMemberName classes owner m = none := by
  cases m <;> first | rfl | cases builtin

theorem declaredMemberClass_builtin (builtin : m.isBuiltin = true) :
    declaredMemberClass registered classes owner m = none := by
  cases m <;> first | rfl | cases builtin

theorem ClassRelated.not_builtin (h : ClassRelated registered classes sub subOwner super superOwner) :
    sub.isBuiltin = false ∧ super.isBuiltin = false := by
  rcases h with ⟨n, n', name, name', -⟩ | ⟨k, k', cls, cls', -⟩
  · refine ⟨Bool.eq_false_iff.mpr fun builtin => ?_, Bool.eq_false_iff.mpr fun builtin => ?_⟩
    · rw [declaredMemberName_builtin builtin] at name
      cases name
    · rw [declaredMemberName_builtin builtin] at name'
      cases name'
  · refine ⟨Bool.eq_false_iff.mpr fun builtin => ?_, Bool.eq_false_iff.mpr fun builtin => ?_⟩
    · rw [declaredMemberClass_builtin builtin] at cls
      cases cls
    · rw [declaredMemberClass_builtin builtin] at cls'
      cases cls'

theorem ClassRelated.lift {k : Nat} (declared : Declared typesAllow classes)
    (owned : classAt classes subOwner = some c) (owned' : classAt classes superOwner = some c')
    (h : ClassRelated classes classes sub subOwner super superOwner)
    (cls : declaredMemberClass classes classes subOwner sub = some k) :
    ∃ k', declaredMemberClass classes classes superOwner super = some k' ∧ (k = k' ∨ isA classes k k' = true) := by
  rcases h with ⟨n, n', name, name', same⟩ | ⟨l, k', cls', super_class, is⟩
  · rw [class_of_name declared owned name, findClass_congr same] at cls
    rw [class_of_name declared owned' name']
    exact ⟨k, cls, .inl rfl⟩
  · rw [cls] at cls'
    cases cls'
    exact ⟨k', super_class, .inr is⟩

theorem ClassRelated.trans {m'' : TypeMember} (declared : Declared typesAllow classes)
    (owned : classAt classes o = some c) (owned' : classAt classes o' = some c')
    (owned'' : classAt classes o'' = some c'') (h : ClassRelated classes classes m o m' o')
    (h' : ClassRelated classes classes m' o' m'' o'') : ClassRelated classes classes m o m'' o'' := by
  rcases h with ⟨n, n', name, name', same⟩ | ⟨k, k', cls, cls', is⟩
  · rcases h' with ⟨x, n'', name_x, name'', same'⟩ | ⟨k', k'', cls', cls'', is⟩
    · rw [name'] at name_x
      cases name_x
      exact .inl ⟨n, n'', name, name'', bytesEqualCi_trans same same'⟩
    · refine .inr ⟨k', k'', ?_, cls'', is⟩
      rw [class_of_name declared owned name, findClass_congr same, ← class_of_name declared owned' name']
      exact cls'
  · obtain ⟨k'', cls'', later⟩ := h'.lift declared owned' owned'' cls'
    refine .inr ⟨k, k'', cls, cls'', ?_⟩
    rcases later with rfl | later
    · exact is
    · exact isA_trans is later

/-- **Members of types: the subtypes of a subtype.** -/
theorem declaredMemberSubtype_trans {m'' : TypeMember} (declared : Declared typesAllow classes)
    (owned : classAt classes o = some c) (owned' : classAt classes o' = some c')
    (owned'' : classAt classes o'' = some c'') (h : declaredMemberSubtype classes classes m o m' o' = .compatible)
    (h' : declaredMemberSubtype classes classes m' o' m'' o'' = .compatible) :
    declaredMemberSubtype classes classes m o m'' o'' = .compatible := by
  rw [declaredMemberSubtype_eq_compatible] at h h' ⊢
  rcases h' with top | ⟨not_top, late', related'⟩
  · exact .inl top
  obtain ⟨not_top', late, related⟩ := h.resolve_left not_top
  refine .inr ⟨not_top', fun is_static => late (late' is_static), ?_⟩
  split at related
  · rename_i builtin
    subst related
    split at related'
    · rename_i builtin'
      rw [if_pos builtin']
      exact related'
    · rw [related'.not_builtin.1] at builtin
      cases builtin.1
  · rename_i builtin
    split at related'
    · rename_i builtin'
      rw [related.not_builtin.2] at builtin'
      cases builtin'.1
    · rw [if_neg fun both_builtin => by rw [related.not_builtin.1] at both_builtin; cases both_builtin.1]
      exact related.trans declared owned owned' owned'' related'

theorem declaredMemberSubtype_refl (declared : Declared typesAllow classes)
    (owned : classAt classes owner = some c) (parent : m = .parent → (parentOf classes owner).isSome = true) :
    declaredMemberSubtype classes classes m owner m owner = .compatible := by
  rw [declaredMemberSubtype_eq_compatible]
  by_cases top : m = .mixed
  · exact .inl top
  refine .inr ⟨top, id, ?_⟩
  split
  · rfl
  · rename_i named
    have own : nameOf classes owner = some c.name := by
      rw [nameOf, owned]
      rfl
    have name : ∃ n, declaredMemberName classes owner m = some n := by
      cases m with
      | self | static => exact ⟨c.name, own⟩
      | named n => exact ⟨n, rfl⟩
      | parent =>
        obtain ⟨p, has_parent⟩ := Option.isSome_iff_exists.mp (parent rfl)
        obtain ⟨d, at_owner, d_parent⟩ := Option.bind_eq_some_iff.mp has_parent
        obtain ⟨e, at_p⟩ := parent_registered declared at_owner d_parent
        refine ⟨e.name, ?_⟩
        rw [declaredMemberName, has_parent, Option.bind_some, nameOf, at_p]
        rfl
      | int | float | string | bool | array | callable | mixed | void | null => exact absurd ⟨rfl, rfl⟩ named
    obtain ⟨n, name⟩ := name
    exact .inl ⟨n, n, name, name, bytesEqualCi_refl n⟩

/-! ## Types -/

/-- **Subtyping is transitive** on the types there can be in classes. -/
theorem declaredSpecSubtype_trans {s' s'' : TypeSpec} (declared : Declared typesAllow classes)
    (owned : classAt classes o = some c) (owned' : classAt classes o' = some c')
    (owned'' : classAt classes o'' = some c'') (proper : ProperSpec classes o'' s'')
    (h : declaredSpecSubtype classes classes s o s' o' = .compatible)
    (h' : declaredSpecSubtype classes classes s' o' s'' o'' = .compatible) :
    declaredSpecSubtype classes classes s o s'' o'' = .compatible := by
  rw [declaredSpecSubtype_eq_compatible] at h h' ⊢
  rcases h' with top | ⟨nonempty', covered'⟩
  · exact .inl top
  rcases h with (untyped | top) | ⟨nonempty, covered⟩
  · exact absurd untyped nonempty'
  · -- only `mixed` is above `mixed`, and it stands alone
    obtain ⟨m, inside, related⟩ := covered' .mixed (top ▸ mem_singleton_self _)
    rw [declaredMemberSubtype_eq_compatible] at related
    have is_mixed : m = .mixed := related.resolve_right fun h => h.1 rfl
    subst is_mixed
    exact .inl (.inr (proper.alone _ inside (.inl rfl)))
  · refine .inr ⟨nonempty, fun m inside => ?_⟩
    obtain ⟨m', inside', related⟩ := covered m inside
    obtain ⟨m'', inside'', related'⟩ := covered' m' inside'
    exact ⟨m'', inside'', declaredMemberSubtype_trans declared owned owned' owned'' related related'⟩

/-- **Subtyping is reflexive.** -/
theorem declaredSpecSubtype_refl (declared : Declared typesAllow classes)
    (owned : classAt classes owner = some c) (proper : ProperSpec classes owner s) :
    declaredSpecSubtype classes classes s owner s owner = .compatible := by
  rw [declaredSpecSubtype_eq_compatible]
  by_cases untyped : s = []
  · exact .inl (.inl untyped)
  · refine .inr ⟨untyped, fun m inside => ⟨m, inside, declaredMemberSubtype_refl declared owned fun is_parent => ?_⟩⟩
    exact proper.parent (is_parent ▸ inside)

/-! What is compatible stays so when more classes are found by their names. -/

theorem declaredMemberClass_of_registered {k : Nat} (declared : Declared typesAllow classes)
    (before : registered <:+ classes) (h : declaredMemberClass registered classes owner m = some k) :
    declaredMemberClass classes classes owner m = some k := by
  cases m with
  | named name =>
    rw [declaredMemberClass] at h ⊢
    split
    · rename_i own
      rwa [if_pos own] at h
    · rename_i other
      rw [if_neg other] at h
      exact findClass_of_registered declared before h
  | _ => exact h

theorem declaredMemberSubtype_of_registered (declared : Declared typesAllow classes)
    (before : registered <:+ classes) (h : declaredMemberSubtype registered classes m o m' o' = .compatible) :
    declaredMemberSubtype classes classes m o m' o' = .compatible := by
  rw [declaredMemberSubtype_eq_compatible] at h ⊢
  rcases h with top | ⟨not_top, late, related⟩
  · exact .inl top
  refine .inr ⟨not_top, late, ?_⟩
  split at related
  · rename_i builtin
    rwa [if_pos builtin]
  · rename_i named
    rw [if_neg named]
    rcases related with names | ⟨k, k', cls, cls', is⟩
    · exact .inl names
    · exact .inr ⟨k, k', declaredMemberClass_of_registered declared before cls,
        declaredMemberClass_of_registered declared before cls', is⟩

theorem declaredSpecSubtype_of_registered {s' : TypeSpec} (declared : Declared typesAllow classes)
    (before : registered <:+ classes) (h : declaredSpecSubtype registered classes s o s' o' = .compatible) :
    declaredSpecSubtype classes classes s o s' o' = .compatible := by
  rw [declaredSpecSubtype_eq_compatible] at h ⊢
  rcases h with trivially | ⟨nonempty, covered⟩
  · exact .inl trivially
  · refine .inr ⟨nonempty, fun m inside => ?_⟩
    obtain ⟨m', inside', related⟩ := covered m inside
    exact ⟨m', inside', declaredMemberSubtype_of_registered declared before related⟩

end Subtypes

/-! ## Values -/

section Values
variable {typesAllow : PMethod → PMethod → Bool} {classes : Classes} {V : Type} {typeOf : V → ValueType}
  {callable : V → Prop} {called o o' : Nat} {c c' : PClass} {v : V}

variable {m : TypeMember}

/-- The types without classes take the same values in every class. -/
theorem typeMemberAccepts_builtin (builtin : m.isBuiltin = true)
    (h : typeMemberAccepts classes typeOf callable called o m v) :
    typeMemberAccepts classes typeOf callable called o' m v := by
  cases m <;> first | exact h | cases builtin

theorem typeMemberAccepts_class (named : m.isBuiltin = false) :
    typeMemberAccepts classes typeOf callable called o m v ↔ ∃ expected entry,
      typeScopeClass classes called o m = some expected ∧ typeOf v = .object entry ∧
        isA classes entry expected = true := by
  cases m <;> first | exact Iff.rfl | cases named

theorem typeScopeClass_eq (declared : Declared typesAllow classes) (owned : classAt classes o = some c)
    (not_static : m ≠ .static) : typeScopeClass classes called o m = declaredMemberClass classes classes o m := by
  cases m with
  | static => exact absurd rfl not_static
  | named name =>
    rw [class_of_name declared owned rfl]
    rfl
  | _ => rfl

/-- **A subtype takes fewer values.** -/
theorem typeMemberAccepts_of_subtype {m' : TypeMember} (declared : Declared typesAllow classes)
    (owned : classAt classes o = some c) (owned' : classAt classes o' = some c')
    (below : m = .static → isA classes called o = true)
    (h : declaredMemberSubtype classes classes m o m' o' = .compatible)
    (accepts : typeMemberAccepts classes typeOf callable called o m v) :
    typeMemberAccepts classes typeOf callable called o' m' v := by
  rw [declaredMemberSubtype_eq_compatible] at h
  rcases h with rfl | ⟨-, late, related⟩
  · trivial
  split at related
  · rename_i builtin
    subst related
    exact typeMemberAccepts_builtin builtin.1 accepts
  by_cases is_static : m' = .static
  · rw [late is_static] at accepts
    rw [is_static]
    exact accepts
  rw [typeMemberAccepts_class related.not_builtin.1] at accepts
  rw [typeMemberAccepts_class related.not_builtin.2, typeScopeClass_eq declared owned' is_static]
  obtain ⟨expected, entry, scope, is_object, is⟩ := accepts
  -- the declared class of the member
  obtain ⟨k, cls, is⟩ : ∃ k, declaredMemberClass classes classes o m = some k ∧ isA classes entry k = true := by
    by_cases late_m : m = .static
    · subst late_m
      cases scope
      exact ⟨o, rfl, isA_trans is (below rfl)⟩
    · exact ⟨expected, (typeScopeClass_eq declared owned late_m).symm.trans scope, is⟩
  obtain ⟨k', cls', later⟩ := related.lift declared owned owned' cls
  refine ⟨k', entry, cls', is_object, ?_⟩
  rcases later with rfl | later
  · exact is
  · exact isA_trans is later

theorem typeSpecAccepts_of_subtype {s s' : TypeSpec} (declared : Declared typesAllow classes)
    (owned : classAt classes o = some c) (owned' : classAt classes o' = some c')
    (below : .static ∈ s → isA classes called o = true)
    (h : declaredSpecSubtype classes classes s o s' o' = .compatible)
    (accepts : typeSpecAccepts classes typeOf callable called o s v) :
    typeSpecAccepts classes typeOf callable called o' s' v := by
  rw [declaredSpecSubtype_eq_compatible] at h
  rcases h with (untyped | top) | ⟨nonempty, covered⟩
  · exact .inl untyped
  · exact .inr ⟨.mixed, top ▸ mem_singleton_self _, trivial⟩
  · obtain ⟨m, inside, accepts⟩ := accepts.resolve_left nonempty
    obtain ⟨m', inside', related⟩ := covered m inside
    exact .inr ⟨m', inside', typeMemberAccepts_of_subtype declared owned owned'
      (fun is_static => below (is_static ▸ inside)) related accepts⟩

end Values

/-! ## Calls -/

section Calls
variable {typesAllow : PMethod → PMethod → Bool} {registered classes : Classes} {V : Type} {typeOf : V → ValueType}
  {callable : V → Prop} {called : Nat} {implementation requirement : TypedMethod} {actual required : Signature}
  {c c' : PClass}

/-- What `method_signature_compatible` compares. -/
structure Fits (registered classes : Classes) (implementation requirement : TypedMethod)
    (actual required : Signature) : Prop where
  fewer : actual.nRequired ≤ required.nRequired
  variadic : required.variadic = true → actual.variadic = true
  more : actual.variadic = true ∨ required.nParams ≤ actual.nParams
  parameters : ∀ i < required.nParams,
    declaredSpecSubtype registered classes (requirement.parameterTypes.getD i []) requirement.method.owner
      (implementation.parameterTypes.getD (if i < actual.nParams then i else actual.nParams - 1) [])
      implementation.method.owner = .compatible
  result : declaredSpecSubtype registered classes implementation.returnType implementation.method.owner
    requirement.returnType requirement.method.owner = .compatible

theorem methodSignatureCompatible_fits (is_actual : implementation.method.signature = some actual)
    (is_required : requirement.method.signature = some required)
    (accepted : methodSignatureCompatible registered classes implementation requirement = .compatible) :
    Fits registered classes implementation requirement actual required := by
  unfold methodSignatureCompatible at accepted
  split at accepted
  · rename_i counts
    simp only [signatureCompatible, is_actual, is_required, Bool.and_eq_true, decide_eq_true_eq, Bool.not_eq_true',
      Bool.and_eq_false_iff, Bool.not_eq_false', decide_eq_false_iff_not, not_lt, and_true] at counts
    obtain ⟨-, ⟨fewer, variadic⟩, more⟩ := counts
    rw [is_actual, is_required] at accepted
    obtain ⟨parameters, result⟩ := Relation.and_eq_compatible.mp accepted
    refine ⟨fewer, fun h => variadic.resolve_left (by rw [h]; exact Bool.noConfusion), more, fun i inside => ?_, result⟩
    exact (foldl_and_eq_compatible.mp parameters).2 i (mem_range.mpr inside)
  · cases accepted

variable {i : Nat}

theorem TypedMethod.typeAt_parameter (m : TypedMethod) {s : Signature} (inside : i < s.nParams) :
    m.typeAt s i = m.parameterTypes.getD i [] := by
  unfold TypedMethod.typeAt
  split
  · have last : s.nParams - 1 = i := by omega
    rw [last]
  · rfl

theorem TypedMethod.typeAt_rest (m : TypedMethod) {s : Signature} (variadic : s.variadic = true)
    (behind : s.nParams - 1 ≤ i) : m.typeAt s i = m.parameterTypes.getD (s.nParams - 1) [] := by
  rw [TypedMethod.typeAt, if_pos ⟨variadic, behind⟩]

theorem Fits.typeAt (fits : Fits registered classes implementation requirement actual required)
    (inside : i < required.nParams) :
    declaredSpecSubtype registered classes (requirement.typeAt required i) requirement.method.owner
      (implementation.typeAt actual i) implementation.method.owner = .compatible := by
  have compared := fits.parameters i inside
  rw [requirement.typeAt_parameter inside]
  by_cases own : i < actual.nParams
  · rw [if_pos own] at compared
    rw [implementation.typeAt_parameter own]
    exact compared
  · rw [if_neg own] at compared
    have variadic : actual.variadic = true := fits.more.resolve_right (by omega)
    rw [implementation.typeAt_rest variadic (by omega)]
    exact compared

/-- The types of parameters are not those of results only. -/
theorem TypedMethod.typeAt_static (m : TypedMethod) (s : Signature) (i : Nat) : TypeMember.static ∉ m.typeAt s i := by
  intro h
  unfold TypedMethod.typeAt at h
  generalize (if s.variadic = true ∧ s.nParams - 1 ≤ i then s.nParams - 1 else i) = k at h
  rw [getD_eq_getElem?_getD] at h
  cases at_k : m.parameterTypes[k]? with
  | none =>
    rw [at_k] at h
    cases h
  | some spec =>
    rw [at_k] at h
    exact (m.resultOnly spec (mem_of_getElem? at_k)).1 h

theorem Fits.accepts (declared : Declared typesAllow classes)
    (owned : classAt classes implementation.method.owner = some c)
    (owned' : classAt classes requirement.method.owner = some c') (before : registered <:+ classes)
    (fits : Fits registered classes implementation requirement actual required) {i : Nat}
    (inside : i < required.nParams) {v : V}
    (accepts : typeSpecAccepts classes typeOf callable called requirement.method.owner
      (requirement.typeAt required i) v) :
    typeSpecAccepts classes typeOf callable called implementation.method.owner (implementation.typeAt actual i) v :=
  typeSpecAccepts_of_subtype declared owned' owned (fun h => absurd h (requirement.typeAt_static required i))
    (declaredSpecSubtype_of_registered declared before (fits.typeAt inside)) accepts

/-- **Calls carry over** where the rest parameter leaves no gap. -/
theorem Fits.admissible (declared : Declared typesAllow classes)
    (owned : classAt classes implementation.method.owner = some c)
    (owned' : classAt classes requirement.method.owner = some c') (before : registered <:+ classes)
    (is_required : requirement.method.signature = some required)
    (fits : Fits registered classes implementation requirement actual required)
    (closed : ¬ RestGap classes typeOf callable called implementation requirement actual required) {args : List V}
    (h : Admissible classes typeOf callable called requirement required args) :
    Admissible classes typeOf callable called implementation actual args := by
  refine ⟨fits.fewer.trans h.enough, ?_, fun i v at_i => ?_⟩
  · rcases fits.more with variadic | more
    · exact .inl variadic
    · exact h.notTooMany.imp fits.variadic fun few => few.trans more
  have lt : i < args.length := (List.getElem?_eq_some_iff.mp at_i).1
  have accepts := h.types i v at_i
  by_cases inside : i < required.nParams
  · exact fits.accepts declared owned owned' before inside accepts
  have rest : required.variadic = true := h.notTooMany.resolve_right (by omega)
  have rest' := fits.variadic rest
  have some_parameter := requirement.rest required is_required rest
  rw [requirement.typeAt_rest rest (by omega)] at accepts
  by_cases fewer : actual.nParams ≤ required.nParams
  · -- both rest parameters are among those that are compared
    have last : required.nParams - 1 < required.nParams := by omega
    rw [← requirement.typeAt_rest rest (le_refl _)] at accepts
    have taken := fits.accepts declared owned owned' before last accepts
    rw [implementation.typeAt_rest rest' (by omega)] at taken ⊢
    exact taken
  · have same : implementation.typeAt actual i = implementation.typeAt actual (min i (actual.nParams - 1)) := by
      by_cases own : i < actual.nParams
      · rw [Nat.min_eq_left (by omega)]
      · rw [implementation.typeAt_rest rest' (by omega), implementation.typeAt_rest rest' (by omega)]
    rw [same]
    refine by_contra fun refused => closed ⟨rest, fun k before_rest => ?_, min i (actual.nParams - 1), v, by omega,
      by omega, ?_, refused⟩
    · have there : k < args.length := by omega
      exact ⟨args.get ⟨k, there⟩, h.types k _ (getElem?_eq_getElem there)⟩
    · rw [requirement.typeAt_rest rest (by omega)]
      exact accepts

theorem RestGap.call (is_required : requirement.method.signature = some required)
    (gap : RestGap classes typeOf callable called implementation requirement actual required) :
    ∃ args : List V, Admissible classes typeOf callable called requirement required args ∧
      ¬ Admissible classes typeOf callable called implementation actual args := by
  obtain ⟨rest, inhabited, j, v, behind, -, accepts, refused⟩ := gap
  choose first taken using inhabited
  have some_required := requirement.required required is_required
  let argument : Nat → V := fun i => if before_rest : i < required.nParams - 1 then first i before_rest else v
  refine ⟨(List.range (j + 1)).map argument, ⟨?_, .inl rest, fun i w at_i => ?_⟩, fun h => ?_⟩
  · rw [length_map, length_range]
    omega
  · rw [getElem?_map, Option.map_eq_some_iff] at at_i
    obtain ⟨k, at_k, rfl⟩ := at_i
    obtain ⟨_, same⟩ := List.getElem?_eq_some_iff.mp at_k
    rw [getElem_range] at same
    subst same
    by_cases before_rest : i < required.nParams - 1
    · have value : argument i = first i before_rest := dif_pos before_rest
      rw [value]
      exact taken i before_rest
    · have value : argument i = v := dif_neg before_rest
      rw [value, requirement.typeAt_rest rest (by omega)]
      rwa [requirement.typeAt_rest rest (by omega)] at accepts
  · refine refused (h.types j v ?_)
    have value : argument j = v := dif_neg (by omega)
    rw [getElem?_map, getElem?_range (by omega), Option.map_some, value]

end Calls

/-! A class with a method that takes any number of integers, and a class below it. -/

/-- `f` with optional parameters of these types, and the last one the rest of the arguments. -/
def restMethod (owner : Nat) (types : List TypeSpec) (nonempty : 0 < types.length)
    (resultOnly : ∀ spec ∈ types, TypeMember.static ∉ spec ∧ TypeMember.void ∉ spec) : TypedMethod where
  method := ⟨ascii "f", .isPublic, false, false, false, some ⟨0, types.length, true⟩, owner⟩
  parameterTypes := types
  returnType := []
  counts := fun _ h => by cases h; rfl
  required := fun _ h => by cases h; exact Nat.zero_le _
  rest := fun _ h _ => by cases h; exact nonempty
  resultOnly := resultOnly

/-- `f(int ...$x)` -/
def integers (owner : Nat) : TypedMethod := restMethod owner [[.int]] (by decide) (by decide)

/-- `f(int $a = 0, string $b = "", string ...$x)` -/
def texts : TypedMethod := restMethod 1 [[.int], [.string], [.string]] (by decide) (by decide)

/-- `class P` with `f(int ...$x)`. -/
def restParent : Classes :=
  [⟨ascii "P", false, false, false, false, none, [], [], [], [(integers 0).method]⟩]

/-- `class C extends P` with another `f`. -/
def restClasses (child : TypedMethod) : Classes :=
  ⟨ascii "C", false, false, false, false, some 0, [], [], [], [child.method]⟩ :: restParent

theorem restParent_declared : Declared (fun _ _ => true) restParent :=
  .declare (d := ⟨ascii "P", false, false, false, false, none,
    [.method (ascii "f") .isPublic false false false (integers 0).method.signature]⟩) .nil (by decide +kernel)

theorem restClasses_declared {child : TypedMethod}
    (declared : declare (fun _ _ => true) restParent ⟨ascii "C", false, false, false, false, some (ascii "P"),
      [.method (ascii "f") .isPublic false false false child.method.signature]⟩ = some (restClasses child)) :
    Declared (fun _ _ => true) (restClasses child) := .declare restParent_declared declared

end PhpPico.Members
