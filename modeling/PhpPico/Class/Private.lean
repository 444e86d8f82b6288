import PhpPico.Class.Members

/-!
# Private members

An access starts from the class of the object, or a named one, goes up by names and checks the visibility of what it
has found. The scope is only looked at in that check.
-/

namespace PhpPico.Members
open List Option

/-- What an access arrives at. -/
inductive Member where
  | method (m : PMethod)
  | property (p : PProperty)
deriving DecidableEq, Repr

def Member.visibility : Member → Visibility
  | .method m => m.visibility
  | .property p => p.visibility

def Member.owner : Member → Nat
  | .method m => m.owner
  | .property p => p.owner

/-- An access: to a property of an object, to a method of an object (`OP_MCALL` or an array that
holds the object and the name), to a static member, or to the constructor. -/
inductive Access where
  | read (name : List UInt8)
  | write (name : List UInt8)
  | call (name : List UInt8) (argumentCount : Nat)
  | callable (name : List UInt8)
  | staticCall (name : List UInt8)
  | staticProperty (name : List UInt8)
  | construct
deriving DecidableEq, Repr

/-- How an access ends. -/
inductive Resolution where
  | member (m : Member)
  | noConstructor
  | refused
deriving DecidableEq, Repr

/-- The field of a throwable object that `invoke_named_method` returns for a call without arguments. -/
def exceptionField (name : List UInt8) : Option (List UInt8) :=
  if name = ascii "getMessage" then some (ascii "message")
  else if name = ascii "getCode" then some (ascii "code")
  else if name = ascii "getFile" then some (ascii "file")
  else if name = ascii "getLine" then some (ascii "line")
  else if name = ascii "getTraceAsString" then some (ascii "trace")
  else none

section Resolve
variable (classes : Classes)

/-- `pphp_object_is_throwable`. -/
def isThrowable (a : Nat) : Bool := (findClass classes (ascii "Throwable")).any fun t => isA classes a t

/-- The property a call reads instead of finding a method. -/
def throwableField (a : Nat) (name : List UInt8) : Option PProperty :=
  if isThrowable classes a then (exceptionField name).bind (findProperty classes a) else none

/-- What is found is used where it is visible. -/
def seen (scope : Option Nat) (m : Member) : Resolution :=
  if memberVisible classes m.visibility m.owner scope then .member m else .refused

def seenMethod (scope : Option Nat) : Option PMethod → Resolution
  | none => .refused
  | some m => seen classes scope (.method m)

/-- `invoke_magic`: the method is called as an array callable, by code of no class. -/
def magicMethod (a : Nat) (name : List UInt8) : Resolution :=
  match findMethod classes a name with
  | none => .refused
  | some m => if m.isStatic then .refused else seen classes none (.method m)

/-- An access to a property, with the magic method for properties there are not. -/
def seenProperty (scope : Option Nat) (a : Nat) (name magic : List UInt8) : Resolution :=
  match findProperty classes a name with
  | some p => seen classes scope (.property p)
  | none => magicMethod classes a magic

/-- Where an access by code of a class ends, for an object of the class `a` or for that class: what
is found and whether it is visible, not what the call does then. -/
def resolve (scope : Option Nat) (a : Nat) : Access → Resolution
  | .read name => seenProperty classes scope a name (ascii "__get")
  | .write name => seenProperty classes scope a name (ascii "__set")
  | .call name argumentCount =>
    match if argumentCount = 0 then throwableField classes a name else none with
    | some p => .member (.property p)
    | none => seenMethod classes scope (findMethod classes a name)
  | .callable name => seenMethod classes scope (findMethod classes a name)
  | .staticCall name => seenMethod classes scope (findMethod classes a name)
  | .staticProperty name =>
    match findStaticProperty classes a name with
    | none => .refused
    | some p => seen classes scope (.property p)
  | .construct =>
    match findMethod classes a constructorName with
    | none => .noConstructor
    | some m => seen classes scope (.method m)

/-- What a class itself declares under the name. -/
def PClass.ownMember (c : PClass) (a : Nat) : Access → Option Member
  | .read name | .write name => (c.properties.find? fun p => p.name = name ∧ p.owner = a).map .property
  | .call name _ | .callable name | .staticCall name =>
    (c.methods.find? fun m => bytesEqualCi m.name name).map .method
  | .staticProperty name => (c.staticProperties.find? fun p => p.name = name).map .property
  | .construct => (c.methods.find? fun m => bytesEqualCi m.name constructorName).map .method

def ownMember (a : Nat) (access : Access) : Option Member := (classAt classes a).bind fun c => c.ownMember a access

/-! ## Two descriptions -/

/-- **Private members belong to their class.** -/
structure PrivatesKept : Prop where
  /-- Code of a class arrives at the private member of the class, whatever class below the object has. -/
  own : ∀ a b access m, b ∈ lineage classes a → ownMember classes b access = some m →
    m.visibility = .isPrivate → resolve classes (some b) a access = .member m
  /-- An access by code of a class that works on its own objects works on those of every class below. -/
  works : ∀ a b access, b ∈ lineage classes a → resolve classes (some b) b access ≠ .refused →
    resolve classes (some b) a access ≠ .refused
  /-- Other code does not arrive at a private member. -/
  closed : ∀ scope a access m, resolve classes scope a access = .member m → m.visibility = .isPrivate →
    scope = some m.owner

/-- The class answers for properties there are not. -/
def Answers (a : Nat) (magic : List UInt8) : Prop :=
  ∃ m, findMethod classes a magic = some m ∧ m.isStatic = false ∧ m.visibility = .isPublic

/-- Nothing is declared that gets in the way of a private member. -/
structure NoClash : Prop where
  /-- No method has the name of a private method of a class above. -/
  methods : ∀ a b c d m m', Under classes a b → classAt classes a = some c → classAt classes b = some d →
    m ∈ c.methods → m' ∈ d.methods → bytesEqualCi m.name m'.name = true → m'.visibility ≠ .isPrivate
  /-- Where a static property is declared again, neither is private. -/
  statics : ∀ a b c d p p', Under classes a b → classAt classes a = some c → classAt classes b = some d →
    p ∈ c.staticProperties → p' ∈ d.staticProperties → p.name = p'.name →
    p.visibility ≠ .isPrivate ∧ p'.visibility ≠ .isPrivate
  /-- Only a class without a parent has a private constructor. -/
  constructors : ∀ a b c m, Under classes a b → classAt classes a = some c → m ∈ c.methods →
    bytesEqualCi m.name constructorName = true → m.visibility ≠ .isPrivate
  /-- Below a class that answers for properties there are not, none is private. -/
  magic : ∀ a b c p, Under classes a b → Answers classes b (ascii "__get") ∨ Answers classes b (ascii "__set") →
    classAt classes a = some c → p ∈ c.properties → p.owner = a → p.visibility ≠ .isPrivate
  /-- No private method has the name of an accessor a throwable object answers by itself, and the
  property it reads is not private. -/
  throwables : ∀ a name p, throwableField classes a name = some p → p.visibility ≠ .isPrivate ∧
    ∀ b c m, b ∈ lineage classes a → classAt classes b = some c → m ∈ c.methods →
      bytesEqualCi m.name name = true → m.visibility ≠ .isPrivate

end Resolve

section Facts
variable {typesAllow : PMethod → PMethod → Bool} {classes : Classes} {a b : Nat} {scope : Option Nat} {m : Member}

theorem seen_member {x : Member} (h : seen classes scope m = .member x) :
    x = m ∧ memberVisible classes m.visibility m.owner scope = true := by
  unfold seen at h
  split at h
  · rename_i visible
    cases h
    exact ⟨rfl, visible⟩
  · cases h

theorem seen_ne_refused : seen classes scope m ≠ .refused ↔
    memberVisible classes m.visibility m.owner scope = true := by
  unfold seen
  split
  · rename_i visible
    exact ⟨fun _ => visible, fun _ => nofun⟩
  · rename_i hidden
    exact ⟨fun no => absurd rfl no, fun visible => absurd visible hidden⟩

theorem seen_own (own : m.owner = b) (hidden : m.visibility = .isPrivate) : seen classes (some b) m = .member m := by
  rw [seen, hidden, own, memberVisible, beq_self_eq_true, if_pos rfl]

theorem scope_of_seen (hidden : m.visibility = .isPrivate)
    (visible : memberVisible classes m.visibility m.owner scope = true) : scope = some m.owner := by
  rw [hidden, memberVisible] at visible
  exact eq_of_beq visible

theorem seen_related (open' : m.visibility ≠ .isPrivate)
    (related : m.owner ∈ lineage classes b ∨ b ∈ lineage classes m.owner) :
    memberVisible classes m.visibility m.owner (some b) = true := by
  cases visibility : m.visibility with
  | isPublic => rfl
  | isPrivate => exact absurd visibility open'
  | isProtected =>
    rw [memberVisible, any_some, Bool.or_eq_true]
    exact related.imp isA_of_lineage isA_of_lineage

theorem visible_none : memberVisible classes m.visibility m.owner none = true ↔ m.visibility = .isPublic := by
  cases m.visibility with
  | isPublic => exact ⟨fun _ => rfl, fun _ => rfl⟩
  | isProtected => exact ⟨nofun, nofun⟩
  | isPrivate => exact ⟨nofun, nofun⟩

theorem magicMethod_ne_refused (magic : List UInt8) :
    magicMethod classes a magic ≠ .refused ↔ Answers classes a magic := by
  unfold magicMethod Answers
  cases findMethod classes a magic with
  | none => exact ⟨fun no => absurd rfl no, fun ⟨_, h, _⟩ => nomatch h⟩
  | some m =>
    simp only
    split
    · rename_i static
      refine ⟨fun no => absurd rfl no, fun ⟨m', eq, dynamic, _⟩ => ?_⟩
      cases eq
      rw [static] at dynamic
      cases dynamic
    · rename_i dynamic
      rw [seen_ne_refused]
      constructor
      · intro visible
        exact ⟨m, rfl, by simpa using dynamic, (visible_none (m := .method m)).mp visible⟩
      · rintro ⟨m', eq, -, isPublic⟩
        cases eq
        exact (visible_none (m := .method m)).mpr isPublic

theorem magicMethod_member {magic : List UInt8} {x : Member} (h : magicMethod classes a magic = .member x) :
    x.visibility = .isPublic := by
  unfold magicMethod at h
  cases found : findMethod classes a magic with
  | none =>
    rw [found] at h
    cases h
  | some m =>
    rw [found] at h
    simp only at h
    split at h
    · cases h
    · obtain ⟨rfl, visible⟩ := seen_member h
      exact visible_none.mp visible

end Facts

/-! ## The descriptions agree -/

section Agreement
variable {typesAllow : PMethod → PMethod → Bool} {classes : Classes} {a b : Nat} {c d : PClass}

theorem findMethod_between (h : b ∈ lineage classes a) (name : List UInt8) :
    findMethod classes a name = findMethod classes b name ∨ ∃ e entry m, Under classes e b ∧
      classAt classes e = some entry ∧ m ∈ entry.methods ∧ bytesEqualCi m.name name = true ∧
      findMethod classes a name = some m := by
  rw [findMethod_eq, findMethod_eq]
  refine (firstIn_below _ h).imp_right ?_
  rintro ⟨e, entry, m, -, under, here, own, found⟩
  exact ⟨e, entry, m, under, here, mem_of_find?_eq_some own, by simpa using find?_some own, found⟩

theorem findStaticProperty_between (h : b ∈ lineage classes a) (name : List UInt8) :
    findStaticProperty classes a name = findStaticProperty classes b name ∨ ∃ e entry p, Under classes e b ∧
      classAt classes e = some entry ∧ p ∈ entry.staticProperties ∧ p.name = name ∧
      findStaticProperty classes a name = some p := by
  rw [findStaticProperty_eq, findStaticProperty_eq]
  refine (firstIn_below _ h).imp_right ?_
  rintro ⟨e, entry, p, -, under, here, own, found⟩
  exact ⟨e, entry, p, under, here, mem_of_find?_eq_some own, by simpa using find?_some own, found⟩

theorem findStaticProperty_some {name : List UInt8} {p : PProperty}
    (found : findStaticProperty classes a name = some p) : ∃ e entry, e ∈ lineage classes a ∧
      classAt classes e = some entry ∧ p ∈ entry.staticProperties ∧ p.name = name := by
  rw [findStaticProperty_eq] at found
  obtain ⟨e, entry, mem, here, own⟩ := firstIn_some found
  exact ⟨e, entry, mem, here, mem_of_find?_eq_some own, by simpa using find?_some own⟩

theorem throwableField_below (ok : ClassesOk typesAllow classes) (h : b ∈ lineage classes a) {name : List UInt8}
    {p : PProperty} (field : throwableField classes b name = some p) : throwableField classes a name = some p := by
  unfold throwableField at field ⊢
  split at field
  · rename_i throws
    have still : isThrowable classes a = true := by
      unfold isThrowable at throws ⊢
      obtain ⟨t, found, is⟩ := (Option.any_eq_true ..).mp throws
      rw [found, any_some]
      exact isA_below h is
    rw [if_pos still]
    obtain ⟨f, is_field, found⟩ := bind_eq_some_iff.mp field
    obtain ⟨c, here, own⟩ := bind_eq_some_iff.mp found
    have named : p.name = f := by simpa using find?_some own
    rw [is_field, bind_some, ← named]
    exact findProperty_below ok h here (mem_of_find?_eq_some own)
  · cases field

namespace NoClash

theorem finds_own (clear : NoClash classes) (h : b ∈ lineage classes a) (here : classAt classes b = some c)
    {name : List UInt8} {m : PMethod} (own : (c.methods.find? fun m => bytesEqualCi m.name name) = some m)
    (hidden : m.visibility = .isPrivate) : findMethod classes a name = some m := by
  have named : bytesEqualCi m.name name = true := by simpa using find?_some own
  rcases findMethod_between h name with same | ⟨e, entry, m', under, at_e, mem, named', -⟩
  · rw [same, findMethod_eq]
    exact firstIn_self here own
  · exact absurd hidden (clear.methods e b entry c m' m under at_e here mem (mem_of_find?_eq_some own)
      (bytesEqualCi_trans named' (bytesEqualCi_symm named)))

theorem own_method (clear : NoClash classes) (ok : ClassesOk typesAllow classes) (h : b ∈ lineage classes a)
    {name : List UInt8} {m : Member} (declared : ((classAt classes b).bind fun c =>
      (c.methods.find? fun m => bytesEqualCi m.name name).map Member.method) = some m)
    (hidden : m.visibility = .isPrivate) :
    ∃ m', m = .method m' ∧ findMethod classes a name = some m' ∧ seen classes (some b) m = .member m ∧
      ∃ c, classAt classes b = some c ∧ m' ∈ c.methods ∧ bytesEqualCi m'.name name = true := by
  obtain ⟨c, here, mapped⟩ := bind_eq_some_iff.mp declared
  obtain ⟨m', own, rfl⟩ := map_eq_some_iff.mp mapped
  have mem := mem_of_find?_eq_some own
  refine ⟨m', rfl, clear.finds_own h here own hidden, seen_own (method_owner ok here mem) hidden, c, here, mem, ?_⟩
  simpa using find?_some own

theorem own (clear : NoClash classes) (ok : ClassesOk typesAllow classes) (h : b ∈ lineage classes a)
    {access : Access} {m : Member} (declared : ownMember classes b access = some m)
    (hidden : m.visibility = .isPrivate) : resolve classes (some b) a access = .member m := by
  have property {name magic : List UInt8}
      (declared : ((classAt classes b).bind fun c =>
        (c.properties.find? fun p => p.name = name ∧ p.owner = b).map Member.property) = some m) :
      seenProperty classes (some b) a name magic = .member m := by
    obtain ⟨c, here, mapped⟩ := bind_eq_some_iff.mp declared
    obtain ⟨p, own, rfl⟩ := map_eq_some_iff.mp mapped
    have named : p.name = name ∧ p.owner = b := by simpa using find?_some own
    have found := findProperty_below ok h here (mem_of_find?_eq_some own)
    rw [named.1] at found
    rw [seenProperty, found]
    exact seen_own named.2 hidden
  cases access with
  | read name => exact property declared
  | write name => exact property declared
  | call name argumentCount =>
    obtain ⟨m', rfl, found, sees, c, here, mem, named⟩ := clear.own_method ok h declared hidden
    have method : (if argumentCount = 0 then throwableField classes a name else none) = none := by
      split
      · cases field : throwableField classes a name with
        | none => rfl
        | some p => exact absurd hidden ((clear.throwables a name p field).2 b c m' h here mem named)
      · rfl
    rw [resolve, method, found]
    exact sees
  | callable name =>
    obtain ⟨m', rfl, found, sees, -⟩ := clear.own_method ok h declared hidden
    rw [resolve, found]
    exact sees
  | staticCall name =>
    obtain ⟨m', rfl, found, sees, -⟩ := clear.own_method ok h declared hidden
    rw [resolve, found]
    exact sees
  | staticProperty name =>
    obtain ⟨c, here, mapped⟩ := bind_eq_some_iff.mp declared
    obtain ⟨p, own, rfl⟩ := map_eq_some_iff.mp mapped
    have mem := mem_of_find?_eq_some own
    have named : p.name = name := by simpa using find?_some own
    have found : findStaticProperty classes a name = some p := by
      rcases findStaticProperty_between h name with same | ⟨e, entry, p', under, at_e, mem', named', -⟩
      · rw [same, findStaticProperty_eq]
        exact firstIn_self here own
      · exact absurd hidden (clear.statics e b entry c p' p under at_e here mem' mem (named'.trans named.symm)).2
    rw [resolve, found]
    exact seen_own (static_owner ok here mem) hidden
  | construct =>
    obtain ⟨m', rfl, found, sees, -⟩ := clear.own_method ok h declared hidden
    rw [resolve, found]
    exact sees

/-- What a class finds that code of an ancestor can call stays so in every class below. -/
theorem method_works (clear : NoClash classes) (ok : ClassesOk typesAllow classes) (h : b ∈ lineage classes a)
    {name : List UInt8} (works : seenMethod classes (some b) (findMethod classes b name) ≠ .refused) :
    seenMethod classes (some b) (findMethod classes a name) ≠ .refused := by
  rcases findMethod_between h name with same | ⟨e, entry, m', under, at_e, mem, named, found⟩
  · rwa [same]
  · cases at_b : findMethod classes b name with
    | none =>
      rw [at_b] at works
      exact absurd rfl works
    | some m =>
      obtain ⟨f, entry', inside, at_f, mem', named'⟩ := findMethod_some at_b
      have open_above : m.visibility ≠ .isPrivate :=
        clear.methods e f entry entry' m' m (under.trans_lineage inside) at_e at_f mem mem'
          (bytesEqualCi_trans named (bytesEqualCi_symm named'))
      have open_here : m'.visibility ≠ .isPrivate := by
        cases ctor : bytesEqualCi name constructorName with
        | true => exact clear.constructors e b entry m' under at_e mem (bytesEqualCi_trans named ctor)
        | false =>
          obtain ⟨m'', found', allows, -⟩ := findMethod_below ok h at_b open_above ctor
          cases found.symm.trans found'
          exact ne_private_of_compatible allows open_above
      rw [found, seenMethod, seen_ne_refused]
      refine seen_related open_here (.inr ?_)
      rw [Member.owner, method_owner ok at_e mem]
      exact under.1

/-- A property that code of an ancestor can use stays so, and magic methods go on to answer. -/
theorem property_works (clear : NoClash classes) (ok : ClassesOk typesAllow classes) (h : b ∈ lineage classes a)
    {name magic : List UInt8} (is_magic : magic = ascii "__get" ∨ magic = ascii "__set")
    (works : seenProperty classes (some b) b name magic ≠ .refused) :
    seenProperty classes (some b) a name magic ≠ .refused := by
  obtain ⟨⟨c, at_b⟩, d, at_a⟩ := exists_class h
  unfold seenProperty at works ⊢
  cases found : findProperty classes b name with
  | some p =>
    rw [found] at works
    rw [findProperty, at_b, bind_some] at found
    have named : p.name = name := by simpa using find?_some found
    have inherited := findProperty_below ok h at_b (mem_of_find?_eq_some found)
    rw [named] at inherited
    rw [inherited]
    exact works
  | none =>
    rw [found] at works
    have answers := (magicMethod_ne_refused magic).mp works
    cases found' : findProperty classes a name with
    | none =>
      simp only
      rw [magicMethod_ne_refused]
      obtain ⟨r, at_b, dynamic, isPublic⟩ := answers
      have method : bytesEqualCi magic constructorName = false := by
        rcases is_magic with rfl | rfl <;> decide +kernel
      obtain ⟨m, at_a, allows, static⟩ := findMethod_below ok h at_b (by rw [isPublic]; decide) method
      rw [isPublic] at allows
      exact ⟨m, at_a, static.trans dynamic, eq_of_beq allows⟩
    | some p =>
      simp only
      rw [seen_ne_refused]
      rw [findProperty, at_a, bind_some] at found'
      have mem := mem_of_find?_eq_some found'
      have named : p.name = name := by simpa using find?_some found'
      obtain ⟨entry, inside, at_owner, mem'⟩ := property_owner ok at_a mem
      obtain ⟨below, eq, under⟩ := lineage_split h
      rw [eq] at inside
      rcases mem_append.mp inside with inside | inside
      · have below_b := (under _ inside).2
        have open' : p.visibility ≠ .isPrivate := by
          refine clear.magic p.owner b entry p below_b ?_ at_owner mem' rfl
          rcases is_magic with rfl | rfl
          · exact .inl answers
          · exact .inr answers
        exact seen_related open' (.inr below_b.1)
      · have here := findProperty_below ok inside at_owner mem'
        rw [named, found] at here
        cases here

theorem works (clear : NoClash classes) (ok : ClassesOk typesAllow classes) (h : b ∈ lineage classes a)
    {access : Access} (works : resolve classes (some b) b access ≠ .refused) :
    resolve classes (some b) a access ≠ .refused := by
  cases access with
  | read name => exact clear.property_works ok h (.inl rfl) works
  | write name => exact clear.property_works ok h (.inr rfl) works
  | call name argumentCount =>
    rw [resolve] at works ⊢
    cases at_a : if argumentCount = 0 then throwableField classes a name else none with
    | some p =>
      intro refused
      cases refused
    | none =>
      have at_b : (if argumentCount = 0 then throwableField classes b name else none) = none := by
        split
        · rename_i no_arguments
          rw [if_pos no_arguments] at at_a
          cases field : throwableField classes b name with
          | none => rfl
          | some p =>
            rw [throwableField_below ok h field] at at_a
            cases at_a
        · rfl
      rw [at_b] at works
      exact clear.method_works ok h works
  | callable name => exact clear.method_works ok h works
  | staticCall name => exact clear.method_works ok h works
  | staticProperty name =>
    rw [resolve] at works ⊢
    rcases findStaticProperty_between h name with same | ⟨e, entry, p', under, at_e, mem, named, found⟩
    · rwa [same]
    · cases at_b : findStaticProperty classes b name with
      | none =>
        rw [at_b] at works
        exact absurd rfl works
      | some p =>
        obtain ⟨f, entry', inside, at_f, mem', named'⟩ := findStaticProperty_some at_b
        rw [found]
        simp only
        rw [seen_ne_refused]
        refine seen_related (clear.statics e f entry entry' p' p (under.trans_lineage inside) at_e at_f mem mem'
          (named.trans named'.symm)).1 (.inr ?_)
        rw [Member.owner, static_owner ok at_e mem]
        exact under.1
  | construct =>
    rw [resolve] at works ⊢
    rcases findMethod_between h constructorName with same | ⟨e, entry, m, under, at_e, mem, named, found⟩
    · rwa [same]
    · rw [found]
      simp only
      rw [seen_ne_refused]
      refine seen_related (clear.constructors e b entry m under at_e mem named) (.inr ?_)
      rw [Member.owner, method_owner ok at_e mem]
      exact under.1

theorem closed (clear : NoClash classes) {scope : Option Nat} {access : Access} {m : Member}
    (arrives : resolve classes scope a access = .member m) (hidden : m.visibility = .isPrivate) :
    scope = some m.owner := by
  have through {x : Member} (sees : seen classes scope x = .member m) : scope = some m.owner := by
    obtain ⟨rfl, visible⟩ := seen_member sees
    exact scope_of_seen hidden visible
  have method {found : Option PMethod} (sees : seenMethod classes scope found = .member m) :
      scope = some m.owner := by
    cases found with
    | none => cases sees
    | some x => exact through sees
  have property {name magic : List UInt8} (sees : seenProperty classes scope a name magic = .member m) :
      scope = some m.owner := by
    unfold seenProperty at sees
    split at sees
    · exact through sees
    · rw [magicMethod_member sees] at hidden
      cases hidden
  cases access with
  | read name => exact property arrives
  | write name => exact property arrives
  | call name argumentCount =>
    rw [resolve] at arrives
    cases field : if argumentCount = 0 then throwableField classes a name else none with
    | some p =>
      rw [field] at arrives
      cases arrives
      split at field
      · exact absurd hidden (clear.throwables a name p field).1
      · cases field
    | none =>
      rw [field] at arrives
      exact method arrives
  | callable name => exact method arrives
  | staticCall name => exact method arrives
  | staticProperty name =>
    rw [resolve] at arrives
    split at arrives
    · cases arrives
    · exact through arrives
  | construct =>
    rw [resolve] at arrives
    split at arrives
    · cases arrives
    · exact through arrives

end NoClash

namespace PrivatesKept

theorem resolves_own (ok : ClassesOk typesAllow classes) (here : classAt classes a = some c) {m : PMethod}
    (mem : m ∈ c.methods) : findMethod classes a m.name = some m ∧
      ownMember classes a (.callable m.name) = some (.method m) := by
  obtain ⟨older, cok, -, -⟩ := ok.at here
  have own := find_method_of_distinct cok.distinctMethods mem
  refine ⟨?_, ?_⟩
  · rw [findMethod_eq]
    exact firstIn_self here own
  · rw [ownMember, here, bind_some, PClass.ownMember, own, map_some]

theorem methods (kept : PrivatesKept classes) (ok : ClassesOk typesAllow classes) (under : Under classes a b)
    (at_a : classAt classes a = some c) (at_b : classAt classes b = some d) {m m' : PMethod} (mem : m ∈ c.methods)
    (mem' : m' ∈ d.methods) (same : bytesEqualCi m.name m'.name = true) : m'.visibility ≠ .isPrivate := by
  intro hidden
  obtain ⟨found, -⟩ := resolves_own ok at_a mem
  obtain ⟨-, own⟩ := resolves_own ok at_b mem'
  have arrives := kept.own a b _ _ under.1 own hidden
  rw [resolve, ← findMethod_congr same, found] at arrives
  obtain ⟨eq, -⟩ := seen_member arrives
  cases eq
  exact under.2 ((method_owner ok at_a mem).symm.trans (method_owner ok at_b mem'))

theorem finds_static (ok : ClassesOk typesAllow classes) (here : classAt classes a = some c) {p : PProperty}
    (mem : p ∈ c.staticProperties) : findStaticProperty classes a p.name = some p ∧
      ownMember classes a (.staticProperty p.name) = some (.property p) := by
  obtain ⟨older, cok, -, -⟩ := ok.at here
  have own := find_of_distinct cok.distinctStatics mem
  refine ⟨?_, ?_⟩
  · rw [findStaticProperty_eq]
    exact firstIn_self here own
  · rw [ownMember, here, bind_some, PClass.ownMember, own, map_some]

theorem statics (kept : PrivatesKept classes) (ok : ClassesOk typesAllow classes) (under : Under classes a b)
    (at_a : classAt classes a = some c) (at_b : classAt classes b = some d) {p p' : PProperty}
    (mem : p ∈ c.staticProperties) (mem' : p' ∈ d.staticProperties) (same : p.name = p'.name) :
    p.visibility ≠ .isPrivate ∧ p'.visibility ≠ .isPrivate := by
  obtain ⟨found, -⟩ := finds_static ok at_a mem
  obtain ⟨found', own⟩ := finds_static ok at_b mem'
  have open_above : p'.visibility ≠ .isPrivate := by
    intro hidden
    have arrives := kept.own a b _ _ under.1 own hidden
    rw [resolve, ← same, found] at arrives
    obtain ⟨eq, -⟩ := seen_member arrives
    cases eq
    exact under.2 ((static_owner ok at_a mem).symm.trans (static_owner ok at_b mem'))
  refine ⟨fun hidden => ?_, open_above⟩
  have works : resolve classes (some b) b (.staticProperty p.name) ≠ .refused := by
    rw [resolve, same, found']
    simp only
    rw [seen_ne_refused]
    refine seen_related open_above (.inl ?_)
    rw [Member.owner, static_owner ok at_b mem']
    exact mem_lineage_self at_b
  have still := kept.works a b _ under.1 works
  rw [resolve, found] at still
  simp only at still
  have eq := scope_of_seen (m := .property p) hidden (seen_ne_refused.mp still)
  rw [Member.owner, static_owner ok at_a mem] at eq
  exact under.2 (some.inj eq).symm

theorem constructors (kept : PrivatesKept classes) (ok : ClassesOk typesAllow classes) (under : Under classes a b)
    (at_a : classAt classes a = some c) {m : PMethod} (mem : m ∈ c.methods)
    (ctor : bytesEqualCi m.name constructorName = true) : m.visibility ≠ .isPrivate := by
  intro hidden
  obtain ⟨found, -⟩ := resolves_own ok at_a mem
  rw [findMethod_congr ctor] at found
  have works : resolve classes (some b) b .construct ≠ .refused := by
    rw [resolve]
    cases at_b : findMethod classes b constructorName with
    | none =>
      intro refused
      cases refused
    | some r =>
      obtain ⟨f, entry, inside, at_f, mem', named⟩ := findMethod_some at_b
      simp only
      rw [seen_ne_refused]
      refine seen_related (m := .method r) ?_ (.inl ?_)
      · exact kept.methods ok (under.trans_lineage inside) at_a at_f mem mem'
          (bytesEqualCi_trans ctor (bytesEqualCi_symm named))
      · rw [Member.owner, method_owner ok at_f mem']
        exact inside
  have still := kept.works a b _ under.1 works
  rw [resolve, found] at still
  simp only at still
  have eq := scope_of_seen (m := .method m) hidden (seen_ne_refused.mp still)
  rw [Member.owner, method_owner ok at_a mem] at eq
  exact under.2 (some.inj eq).symm

theorem property_open (kept : PrivatesKept classes) (ok : ClassesOk typesAllow classes) (under : Under classes a b)
    (at_a : classAt classes a = some c) {p : PProperty} (mem : p ∈ c.properties) (own : p.owner = a)
    {magic : List UInt8} (answers : Answers classes b magic) (access : Access)
    (is_access : ∀ s e, resolve classes s e access = seenProperty classes s e p.name magic) :
    p.visibility ≠ .isPrivate := by
  intro hidden
  obtain ⟨d, at_b⟩ := (exists_class under.1).1
  have above : findProperty classes b p.name = none := by
    cases found : findProperty classes b p.name with
    | none => rfl
    | some q =>
      rw [findProperty, at_b, bind_some] at found
      have named : q.name = p.name := by simpa using find?_some found
      have in_b := mem_of_find?_eq_some found
      have at_q := findProperty_below ok under.1 at_b in_b
      rw [named, findProperty_below ok (mem_lineage_self at_a) at_a mem] at at_q
      cases at_q
      obtain ⟨-, inside, -⟩ := property_owner ok at_b in_b
      rw [own] at inside
      have le := lineage_le inside
      have ge := lineage_le under.1
      exact absurd (le_antisymm le ge) under.2
  have works : resolve classes (some b) b access ≠ .refused := by
    rw [is_access, seenProperty, above]
    exact (magicMethod_ne_refused magic).mpr answers
  have still := kept.works a b _ under.1 works
  rw [is_access, seenProperty, findProperty_below ok (mem_lineage_self at_a) at_a mem] at still
  have eq := scope_of_seen (m := .property p) hidden (seen_ne_refused.mp still)
  rw [Member.owner, own] at eq
  exact under.2 (some.inj eq).symm

theorem noClash (kept : PrivatesKept classes) (ok : ClassesOk typesAllow classes) : NoClash classes where
  methods _ _ _ _ _ _ under at_a at_b mem mem' same := kept.methods ok under at_a at_b mem mem' same
  statics _ _ _ _ _ _ under at_a at_b mem mem' same := kept.statics ok under at_a at_b mem mem' same
  constructors _ _ _ _ under at_a mem ctor := kept.constructors ok under at_a mem ctor
  magic a b c p under answers at_a mem own := by
    rcases answers with answers | answers
    · exact kept.property_open ok under at_a mem own answers (.read p.name) fun _ _ => rfl
    · exact kept.property_open ok under at_a mem own answers (.write p.name) fun _ _ => rfl
  throwables a name p field := by
    have arrives (scope : Option Nat) : resolve classes scope a (.call name 0) = .member (.property p) := by
      rw [resolve, if_pos rfl, field]
    constructor
    · intro hidden
      cases kept.closed none a _ _ (arrives none) hidden
    intro b c m inside here mem named hidden
    obtain ⟨older, cok, -, -⟩ := ok.at here
    have own : ownMember classes b (.call name 0) = some (.method m) := by
      rw [ownMember, here, bind_some, PClass.ownMember]
      rw [← bytesEqualCi_find named, find_method_of_distinct cok.distinctMethods mem, map_some]
    have eq := kept.own a b _ _ inside own hidden
    rw [arrives] at eq
    cases eq

end PrivatesKept

end Agreement

/-! ## A private method that is taken over -/

/-- A class without members of its own but one method. -/
def withMethod (name : List UInt8) (parent : Option (List UInt8)) (method : List UInt8)
    (visibility : Visibility) : ClassDeclaration :=
  ⟨name, false, false, false, false, parent, [.method method visibility false false false (some ⟨0, 0, false⟩)]⟩

/-- A method of the class at the address, without parameters. -/
def plainMethod (name : List UInt8) (visibility : Visibility) (owner : Nat) : PMethod :=
  ⟨name, visibility, false, false, false, some ⟨0, 0, false⟩, owner⟩

/-- A class has a private method, and its subclass one of the same name. -/
def takenOver : Classes :=
  [⟨ascii "Child", false, false, false, false, some 0, [], [], [], [plainMethod (ascii "step") .isPublic 1]⟩,
    ⟨ascii "Base", false, false, false, false, none, [], [], [], [plainMethod (ascii "step") .isPrivate 0]⟩]

theorem takenOver_declared : Declared (fun _ _ => true) takenOver := by
  have base : declare (fun _ _ => true) [] (withMethod (ascii "Base") none (ascii "step") .isPrivate) =
      some takenOver.tail := by decide +kernel
  have child : declare (fun _ _ => true) takenOver.tail
      (withMethod (ascii "Child") (some (ascii "Base")) (ascii "step") .isPublic) = some takenOver := by decide +kernel
  exact .declare (.declare .nil base) child

end PhpPico.Members
