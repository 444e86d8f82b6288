import PhpPico.Proto

/-!
# Classes

The registered classes, the newest first: a class is known by the number of classes before it. A class keeps copies of
the properties it inherits; methods and static properties are found through its parent. Constants, values and
allocation failures are left out.
-/

namespace PhpPico.Members
open List

/-- `PC_PUBLIC`, `PC_PROTECTED` and `PC_PRIVATE`; the compiler and the loader admit exactly one. -/
inductive Visibility where
  | isPublic
  | isProtected
  | isPrivate
deriving DecidableEq, Repr

/-- An instance or static property. -/
structure PProperty where
  name : List UInt8
  visibility : Visibility
  owner : Nat
deriving DecidableEq, Repr

/-- What the signature of a method takes from its proto. -/
structure Signature where
  nRequired : Nat
  nParams : Nat
  variadic : Bool
deriving DecidableEq, Repr

/-- A method; a native one has no signature. -/
structure PMethod where
  name : List UInt8
  visibility : Visibility
  isStatic : Bool
  isAbstract : Bool
  isFinal : Bool
  signature : Option Signature
  owner : Nat
deriving DecidableEq, Repr

/-- A class or interface; `parent` and `interfaces` are registered before it. -/
structure PClass where
  name : List UInt8
  isAbstract : Bool
  isFinal : Bool
  isReadonly : Bool
  isInterface : Bool
  parent : Option Nat
  interfaces : List Nat
  properties : List PProperty
  staticProperties : List PProperty
  methods : List PMethod
deriving DecidableEq, Repr

/-- The registered classes, the newest first. -/
abbrev Classes := List PClass

/-! ## Lookup -/

def classAt : Classes → Nat → Option PClass
  | [], _ => none
  | c :: older, a => if a = older.length then some c else classAt older a

/-- `pphp_find_class`. -/
def findClass : Classes → List UInt8 → Option Nat
  | [], _ => none
  | c :: older, name => if bytesEqualCi c.name name then some older.length else findClass older name

/-- A class and its ancestors. -/
def lineage : Classes → Nat → List Nat
  | [], _ => []
  | c :: older, a => if a = older.length then a :: c.parent.elim [] (lineage older) else lineage older a

/-- `pclass_find_method`. -/
def findMethod : Classes → Nat → List UInt8 → Option PMethod
  | [], _, _ => none
  | c :: older, a, name =>
    if a = older.length then
      (c.methods.find? fun m => bytesEqualCi m.name name).or (c.parent.bind fun p => findMethod older p name)
    else findMethod older a name

/-- `pclass_find_static_property`. -/
def findStaticProperty : Classes → Nat → List UInt8 → Option PProperty
  | [], _, _ => none
  | c :: older, a, name =>
    if a = older.length then
      (c.staticProperties.find? fun p => p.name = name).or (c.parent.bind fun p => findStaticProperty older p name)
    else findStaticProperty older a name

/-- `pclass_find_property`. -/
def findProperty (classes : Classes) (a : Nat) (name : List UInt8) : Option PProperty :=
  (classAt classes a).bind fun c => c.properties.find? fun p => p.name = name

/-- `pclass_is_a`. -/
def isA : Classes → Nat → Nat → Bool
  | [], _, _ => false
  | c :: older, a, expected =>
    if a = older.length then
      a == expected || c.interfaces.any (fun i => isA older i expected) || c.parent.any (fun p => isA older p expected)
    else isA older a expected

/-- `pclass_member_visible`, in a build that checks visibility. -/
def memberVisible (classes : Classes) (visibility : Visibility) (owner : Nat) (scope : Option Nat) : Bool :=
  match visibility with
  | .isPrivate => scope == some owner
  | .isProtected => scope.any fun s => isA classes s owner || isA classes owner s
  | .isPublic => true

/-! ## Declarations -/

/-- The method a class under construction has. -/
def PClass.findMethod (c : PClass) (classes : Classes) (name : List UInt8) : Option PMethod :=
  (c.methods.find? fun m => bytesEqualCi m.name name).or (c.parent.bind fun p => Members.findMethod classes p name)

/-- `pclass_add_property`: inherited properties cannot be declared again. -/
def PClass.addProperty (c : PClass) (property : PProperty) : Option PClass :=
  if 255 ≤ c.properties.length ∨ (c.properties.any fun p => p.name = property.name) then none
  else some { c with properties := c.properties ++ [property] }

/-- `pclass_add_static_property`. -/
def PClass.addStaticProperty (c : PClass) (property : PProperty) : Option PClass :=
  if c.staticProperties.any fun p => p.name = property.name then none
  else some { c with staticProperties := c.staticProperties ++ [property] }

/-- `pclass_add_method`. -/
def PClass.addMethod (c : PClass) (classes : Classes) (method : PMethod) : Option PClass :=
  if (c.parent.bind fun p => Members.findMethod classes p method.name).any PMethod.isFinal then none
  else if c.methods.any fun m => bytesEqualCi m.name method.name then none
  else some { c with methods := c.methods ++ [method] }

/-- `pclass_add_interface`. -/
def PClass.addInterface (c : PClass) (classes : Classes) (i : Nat) : Option PClass :=
  if (classAt classes i).any PClass.isInterface ∧ i ∉ c.interfaces then
    some { c with interfaces := c.interfaces ++ [i] }
  else none

/-- `pclass_new`. -/
def pclassNew (classes : Classes) (name : List UInt8) (parent : Option Nat)
    (isAbstract isFinal isReadonly isInterface : Bool) : Option PClass :=
  ((parent.bind (classAt classes)).elim [] PClass.properties).foldlM PClass.addProperty
    ⟨name, isAbstract, isFinal, isReadonly, isInterface, parent, [], [], [], []⟩

/-- `method_visibility_compatible`. -/
def visibilityCompatible : Visibility → Visibility → Bool
  | implementation, .isPublic => implementation == .isPublic
  | implementation, .isProtected => implementation != .isPrivate
  | _, .isPrivate => true

section Completeness

-- Whether the declared types let the first method stand for the second; in a build without type
-- checks they always do.
variable (typesAllow : PMethod → PMethod → Bool)

/-- `method_signature_compatible` does not refuse. -/
def signatureCompatible (implementation requirement : PMethod) : Bool :=
  requirement.isStatic == implementation.isStatic &&
    visibilityCompatible implementation.visibility requirement.visibility &&
    match implementation.signature, requirement.signature with
    | some actual, some required =>
      decide (actual.nRequired ≤ required.nRequired) && !(required.variadic && !actual.variadic) &&
        !(!actual.variadic && decide (actual.nParams < required.nParams)) && typesAllow implementation requirement
    | _, _ => true

/-- `method_implements`. -/
def methodImplements (classes : Classes) (c : PClass) (requirement : PMethod) (requireConcrete : Bool) : Bool :=
  match c.findMethod classes requirement.name with
  | none => false
  | some m => !(requireConcrete && m.isAbstract) && signatureCompatible typesAllow m requirement

/-- `interfaces_complete`. -/
def interfacesComplete (classes : Classes) (c : PClass) (requireConcrete : Bool) : Classes → Nat → Bool
  | [], _ => true
  | i :: older, a =>
    if a = older.length then
      (i.methods.all fun m => !(requireConcrete || (c.findMethod classes m.name).isSome) ||
        methodImplements typesAllow classes c m requireConcrete) &&
      i.interfaces.all fun j => interfacesComplete classes c requireConcrete older j
    else interfacesComplete classes c requireConcrete older a

/-- The name of constructors. -/
def constructorName : List UInt8 := ascii "__construct"

/-- A method does not break what the parent class has under its name. -/
def keepsInherited (classes : Classes) (c : PClass) (m : PMethod) : Bool :=
  (c.parent.bind fun p => findMethod classes p m.name).all fun requirement =>
    requirement.visibility == .isPrivate || bytesEqualCi requirement.name constructorName ||
      signatureCompatible typesAllow m requirement

/-- `pclass_is_complete` does not refuse. -/
def isComplete (classes : Classes) (c : PClass) : Bool :=
  let requireConcrete := !(c.isAbstract || c.isInterface)
  c.methods.all (keepsInherited typesAllow classes c) &&
    (c :: (c.parent.elim [] (lineage classes)).filterMap (classAt classes)).all fun cursor =>
      (cursor.methods.all fun m =>
        !(requireConcrete && m.isAbstract) || methodImplements typesAllow classes c m true) &&
      cursor.interfaces.all (interfacesComplete typesAllow classes c requireConcrete classes)

/-- One declaration in the body of a class, or an interface it implements. -/
inductive MemberDeclaration where
  | interface (name : List UInt8)
  | property (name : List UInt8) (visibility : Visibility) (isStatic : Bool)
  | method (name : List UInt8) (visibility : Visibility) (isStatic isAbstract isFinal : Bool)
      (signature : Option Signature)
deriving DecidableEq, Repr

/-- A class as it is declared. -/
structure ClassDeclaration where
  name : List UInt8
  isAbstract : Bool
  isFinal : Bool
  isReadonly : Bool
  isInterface : Bool
  parent : Option (List UInt8)
  members : List MemberDeclaration
deriving DecidableEq, Repr

/-- `OP_DEF_INTERFACE`, `OP_DEF_PROP` and `OP_DEF_METHOD`. -/
def defineMember (classes : Classes) (c : PClass) : MemberDeclaration → Option PClass
  | .interface name => (findClass classes name).bind (c.addInterface classes)
  | .property name visibility true => c.addStaticProperty ⟨name, visibility, classes.length⟩
  | .property name visibility false => c.addProperty ⟨name, visibility, classes.length⟩
  | .method name visibility isStatic isAbstract isFinal signature =>
    c.addMethod classes ⟨name, visibility, isStatic, isAbstract, isFinal, signature, classes.length⟩

/-- `OP_DEF_CLASS` checks the parent. -/
def parentAllows (classes : Classes) (d : ClassDeclaration) (parent : Nat) : Bool :=
  (classAt classes parent).any fun p => !p.isFinal && p.isReadonly == d.isReadonly

/-- `OP_DEF_CLASS` finds the parent, if one is named. -/
def declaredParent (classes : Classes) (d : ClassDeclaration) : Option (Option Nat) :=
  match d.parent with
  | none => some none
  | some name => ((findClass classes name).filter (parentAllows classes d)).map some

/-- A declaration, from `OP_DEF_CLASS` to `OP_DEF_END`. -/
def declare (classes : Classes) (d : ClassDeclaration) : Option Classes := do
  let parent ← declaredParent classes d
  let c ← pclassNew classes d.name parent d.isAbstract d.isFinal d.isReadonly d.isInterface
  let c ← d.members.foldlM (defineMember classes) c
  if isComplete typesAllow classes c ∧ findClass classes c.name = none then some (c :: classes) else none

/-- The classes there can be: those of the runtime are declared first. -/
inductive Declared : Classes → Prop
  | nil : Declared []
  | declare {classes classes' : Classes} {d : ClassDeclaration} (before : Declared classes)
      (declared : declare typesAllow classes d = some classes') : Declared classes'

end Completeness

/-! ## What holds of every class -/

/-- No two methods have one name. -/
def DistinctMethods (methods : List PMethod) : Prop := methods.Pairwise fun m m' => bytesEqualCi m.name m'.name = false

/-- A class that has been registered behind the others. -/
structure ClassOk (typesAllow : PMethod → PMethod → Bool) (older : Classes) (c : PClass) : Prop where
  inherited : ∀ p entry, c.parent = some p → classAt older p = some entry → entry.properties <+: c.properties
  distinct : (c.properties.map PProperty.name).Nodup
  owners : ∀ q ∈ c.properties, q.owner = older.length ∨
    ∃ p entry, c.parent = some p ∧ classAt older p = some entry ∧ q ∈ entry.properties
  statics : ∀ q ∈ c.staticProperties, q.owner = older.length
  distinctStatics : (c.staticProperties.map PProperty.name).Nodup
  methods : ∀ m ∈ c.methods, m.owner = older.length
  distinctMethods : DistinctMethods c.methods
  keeps : ∀ m ∈ c.methods, keepsInherited typesAllow older c m = true

section Building
variable {classes : Classes} {c c' : PClass} {typesAllow : PMethod → PMethod → Bool}

theorem addProperty_spec {q : PProperty} (h : c.addProperty q = some c') :
    q.name ∉ c.properties.map PProperty.name ∧ c' = { c with properties := c.properties ++ [q] } := by
  unfold PClass.addProperty at h
  split at h
  · cases h
  · rename_i fresh
    refine ⟨fun mem => fresh (.inr ?_), (Option.some.inj h).symm⟩
    obtain ⟨p, hp, name⟩ := List.mem_map.mp mem
    exact List.any_eq_true.mpr ⟨p, hp, decide_eq_true name⟩

/-- What the declarations in the body of a class leave as it is. -/
structure Adds (classes : Classes) (c c' : PClass) : Prop where
  parent : c'.parent = c.parent
  properties : ∃ own, c'.properties = c.properties ++ own ∧ ∀ q ∈ own, q.owner = classes.length
  distinct : (c.properties.map PProperty.name).Nodup → (c'.properties.map PProperty.name).Nodup
  statics : (∀ q ∈ c.staticProperties, q.owner = classes.length) → ∀ q ∈ c'.staticProperties, q.owner = classes.length
  distinctStatics : (c.staticProperties.map PProperty.name).Nodup → (c'.staticProperties.map PProperty.name).Nodup
  methods : (∀ m ∈ c.methods, m.owner = classes.length) → ∀ m ∈ c'.methods, m.owner = classes.length
  distinctMethods : DistinctMethods c.methods → DistinctMethods c'.methods

theorem Adds.refl (c : PClass) : Adds classes c c :=
  ⟨rfl, ⟨[], (append_nil _).symm, fun _ hq => (nomatch hq)⟩, id, id, id, id, id⟩

theorem Adds.trans {c'' : PClass} (h : Adds classes c c') (h' : Adds classes c' c'') : Adds classes c c'' := by
  obtain ⟨own, eq, owned⟩ := h.properties
  obtain ⟨own', eq', owned'⟩ := h'.properties
  refine ⟨h'.parent.trans h.parent, ⟨own ++ own', ?_, ?_⟩, h'.distinct ∘ h.distinct, h'.statics ∘ h.statics,
    h'.distinctStatics ∘ h.distinctStatics, h'.methods ∘ h.methods, h'.distinctMethods ∘ h.distinctMethods⟩
  · rw [eq', eq, append_assoc]
  · intro q hq
    rcases mem_append.mp hq with hq | hq
    · exact owned q hq
    · exact owned' q hq

theorem nodup_append_name {q : PProperty} {l : List PProperty} (fresh : q.name ∉ l.map PProperty.name)
    (distinct : (l.map PProperty.name).Nodup) : ((l ++ [q]).map PProperty.name).Nodup := by
  rw [map_append, map_singleton, nodup_append]
  refine ⟨distinct, pairwise_singleton _ _, fun a ha b hb => ?_⟩
  rw [mem_singleton.mp hb]
  exact ne_of_mem_of_not_mem ha fresh

theorem defineMember_adds {d : MemberDeclaration} (h : defineMember classes c d = some c') : Adds classes c c' := by
  cases d with
  | interface name =>
    obtain ⟨i, -, added⟩ := Option.bind_eq_some_iff.mp h
    unfold PClass.addInterface at added
    split at added
    · cases added
      exact ⟨rfl, ⟨[], (append_nil _).symm, fun _ hq => (nomatch hq)⟩, id, id, id, id, id⟩
    · cases added
  | property name visibility isStatic =>
    cases isStatic with
    | true =>
      change c.addStaticProperty _ = some c' at h
      unfold PClass.addStaticProperty at h
      split at h
      · cases h
      · rename_i fresh
        cases h
        refine ⟨rfl, ⟨[], (append_nil _).symm, fun _ hq => (nomatch hq)⟩, id, fun owned q hq => ?_,
          nodup_append_name fun mem => fresh ?_, id, id⟩
        · rcases mem_append.mp hq with hq | hq
          · exact owned q hq
          · rw [mem_singleton.mp hq]
        · obtain ⟨p, hp, name⟩ := List.mem_map.mp mem
          exact List.any_eq_true.mpr ⟨p, hp, decide_eq_true name⟩
    | false =>
      obtain ⟨fresh, rfl⟩ := addProperty_spec h
      refine ⟨rfl, ⟨[_], rfl, fun q hq => ?_⟩, nodup_append_name fresh, id, id, id, id⟩
      rw [mem_singleton.mp hq]
  | method name visibility isStatic isAbstract isFinal signature =>
    change c.addMethod classes _ = some c' at h
    unfold PClass.addMethod at h
    split at h
    · cases h
    · split at h
      · cases h
      · rename_i fresh
        cases h
        refine ⟨rfl, ⟨[], (append_nil _).symm, fun _ hq => (nomatch hq)⟩, id, id, id, fun owned m hm => ?_,
          fun distinct => ?_⟩
        · rcases mem_append.mp hm with hm | hm
          · exact owned m hm
          · rw [mem_singleton.mp hm]
        · refine pairwise_append.mpr ⟨distinct, pairwise_singleton _ _, fun m hm m' hm' => ?_⟩
          rw [mem_singleton.mp hm']
          exact Bool.eq_false_iff.mpr fun same => fresh (List.any_eq_true.mpr ⟨m, hm, same⟩)

theorem defineMembers_adds {members : List MemberDeclaration}
    (h : members.foldlM (defineMember classes) c = some c') : Adds classes c c' := by
  induction members generalizing c with
  | nil =>
    cases h
    exact .refl _
  | cons d rest ih =>
    rw [foldlM_cons] at h
    obtain ⟨c₁, first, later⟩ := Option.bind_eq_some_iff.mp h
    exact (defineMember_adds first).trans (ih later)

theorem addProperties_spec {l : List PProperty} (h : l.foldlM PClass.addProperty c = some c') :
    c' = { c with properties := c.properties ++ l } ∧
      ((c.properties.map PProperty.name).Nodup → (c'.properties.map PProperty.name).Nodup) := by
  induction l generalizing c with
  | nil =>
    cases h
    exact ⟨by rw [append_nil], id⟩
  | cons q rest ih =>
    rw [foldlM_cons] at h
    obtain ⟨c₁, first, later⟩ := Option.bind_eq_some_iff.mp h
    obtain ⟨fresh, rfl⟩ := addProperty_spec first
    obtain ⟨rfl, distinct⟩ := ih later
    exact ⟨by rw [append_assoc, singleton_append], fun nodup => distinct (nodup_append_name fresh nodup)⟩

/-- **A declaration registers a class** of this form, or none. -/
theorem declare_ok {d : ClassDeclaration} {classes' : Classes} (h : declare typesAllow classes d = some classes') :
    ∃ c, classes' = c :: classes ∧ ClassOk typesAllow classes c := by
  unfold declare at h
  obtain ⟨parent, -, h⟩ := Option.bind_eq_some_iff.mp h
  obtain ⟨c₀, new, h⟩ := Option.bind_eq_some_iff.mp h
  obtain ⟨c, body, h⟩ := Option.bind_eq_some_iff.mp h
  split at h
  · rename_i accepted
    cases h
    obtain ⟨rfl, distinct⟩ := addProperties_spec new
    have adds := defineMembers_adds body
    obtain ⟨own, eq, owned⟩ := adds.properties
    refine ⟨c, rfl, ?_⟩
    have same : c.parent = parent := adds.parent
    constructor
    · intro p entry is_parent here
      rw [same] at is_parent
      rw [eq, is_parent, Option.bind_some, here]
      exact prefix_append _ _
    · exact adds.distinct (distinct nodup_nil)
    · intro q hq
      rw [eq] at hq
      rcases mem_append.mp hq with hq | hq
      · right
        cases parent with
        | none => simp at hq
        | some p =>
          rw [Option.bind_some] at hq
          cases entry : classAt classes p with
          | none =>
            rw [entry] at hq
            simp at hq
          | some e =>
            rw [entry] at hq
            exact ⟨p, e, same, entry, hq⟩
      · exact .inl (owned q hq)
    · exact adds.statics fun _ hq => (nomatch hq)
    · exact adds.distinctStatics nodup_nil
    · exact adds.methods fun _ hm => (nomatch hm)
    · exact adds.distinctMethods Pairwise.nil
    · have complete := accepted.1
      unfold isComplete at complete
      exact List.all_eq_true.mp (Bool.and_eq_true_iff.mp complete).1
  · cases h

end Building

end PhpPico.Members
