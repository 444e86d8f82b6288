import PhpPico.Class.Hierarchy

/-!
# Members along a lineage

Methods and static properties are found in the nearest class of the lineage that declares them, properties in the
class of the object, which has those of all its ancestors.
-/

namespace PhpPico.Members
open List Option

/-- A class below another. -/
def Under (classes : Classes) (d c : Nat) : Prop := c ∈ lineage classes d ∧ d ≠ c

/-- All classes have the form a declaration gives them. -/
def ClassesOk (typesAllow : PMethod → PMethod → Bool) : Classes → Prop
  | [] => True
  | c :: older => ClassOk typesAllow older c ∧ ClassesOk typesAllow older

/-- The first class of a lineage that has something of the kind. -/
def firstIn {β : Type} (f : PClass → Option β) (classes : Classes) (a : Nat) : Option β :=
  (lineage classes a).findSome? fun b => (classAt classes b).bind f

section Lineage
variable {typesAllow : PMethod → PMethod → Bool} {classes older : Classes} {c d : PClass} {a b : Nat}

theorem Declared.ok (h : Declared typesAllow classes) : ClassesOk typesAllow classes := by
  induction h with
  | nil => trivial
  | declare before declared ih =>
    obtain ⟨c, rfl, ok⟩ := declare_ok declared
    exact ⟨ok, ih⟩

theorem classAt_lt (h : classAt classes a = some c) : a < classes.length := by
  induction classes with
  | nil => cases h
  | cons e older ih =>
    rw [classAt] at h
    rw [length_cons]
    split at h
    · omega
    · have := ih h
      omega

theorem lineage_lt (h : b ∈ lineage classes a) : b < classes.length := by
  induction classes generalizing a with
  | nil => exact absurd h not_mem_nil
  | cons e older ih =>
    rw [lineage] at h
    rw [length_cons]
    split at h
    · rcases mem_cons.mp h with rfl | h
      · omega
      · cases parent : e.parent with
        | none =>
          rw [parent] at h
          simp at h
        | some p =>
          rw [parent] at h
          have := ih h
          omega
    · have := ih h
      omega

/-! What is registered later changes nothing for the classes before. -/

theorem classAt_older (lt : a < older.length) : classAt (c :: older) a = classAt older a :=
  if_neg (ne_of_lt lt)

theorem lineage_older (lt : a < older.length) : lineage (c :: older) a = lineage older a :=
  if_neg (ne_of_lt lt)

theorem classAt_newest : classAt (c :: older) older.length = some c := if_pos rfl

theorem lineage_newest : lineage (c :: older) older.length = older.length :: c.parent.elim [] (lineage older) :=
  if_pos rfl

/-- The lineage of a newest class behind the class itself. -/
theorem mem_parent_lineage (h : b ∈ c.parent.elim [] (lineage older)) :
    ∃ p, c.parent = some p ∧ b ∈ lineage older p := by
  cases parent : c.parent with
  | none =>
    rw [parent] at h
    simp at h
  | some p =>
    rw [parent] at h
    exact ⟨p, rfl, h⟩

theorem mem_lineage_self (h : classAt classes a = some c) : a ∈ lineage classes a := by
  induction classes with
  | nil => cases h
  | cons e older ih =>
    rw [classAt] at h
    rw [lineage]
    split at h
    · rename_i newest
      rw [if_pos newest]
      exact .head _
    · rename_i old
      rw [if_neg old]
      exact ih h

theorem exists_class (h : b ∈ lineage classes a) :
    (∃ c, classAt classes b = some c) ∧ ∃ c, classAt classes a = some c := by
  induction classes generalizing a with
  | nil => exact absurd h not_mem_nil
  | cons e older ih =>
    by_cases newest : a = older.length
    · subst newest
      refine ⟨?_, e, classAt_newest⟩
      rw [lineage_newest] at h
      rcases mem_cons.mp h with rfl | h
      · exact ⟨e, classAt_newest⟩
      · obtain ⟨p, -, h⟩ := mem_parent_lineage h
        rw [classAt_older (lineage_lt h)]
        exact (ih h).1
    · rw [lineage, if_neg newest] at h
      rw [classAt_older (lineage_lt h), classAt, if_neg newest]
      exact ih h

/-- **A lineage goes on with the lineage** of each class in it. -/
theorem lineage_split (h : b ∈ lineage classes a) : ∃ below, lineage classes a = below ++ lineage classes b ∧
      ∀ e ∈ below, e ∈ lineage classes a ∧ Under classes e b := by
  induction classes generalizing a with
  | nil => exact absurd h not_mem_nil
  | cons c older ih =>
    by_cases newest : a = older.length
    · subst newest
      by_cases self : b = older.length
      · subst self
        exact ⟨[], rfl, fun _ he => (nomatch he)⟩
      · have here := h
        rw [lineage_newest] at h
        rcases mem_cons.mp h with rfl | h
        · exact absurd rfl self
        · obtain ⟨p, parent, h⟩ := mem_parent_lineage h
          have lt := lineage_lt h
          obtain ⟨below, eq, under⟩ := ih h
          refine ⟨older.length :: below, ?_, fun e he => ?_⟩
          · rw [lineage_newest, lineage_older lt, parent, elim_some, eq, cons_append]
          · rcases mem_cons.mp he with rfl | he
            · refine ⟨?_, here, fun eq => self eq.symm⟩
              rw [lineage_newest]
              exact .head _
            · obtain ⟨inside, mem, ne⟩ := under e he
              refine ⟨?_, ?_, ne⟩
              · rw [lineage_newest, parent]
                exact .tail _ inside
              · rw [lineage_older (lineage_lt inside)]
                exact mem
    · rw [lineage, if_neg newest] at h ⊢
      have lt := lineage_lt h
      obtain ⟨below, eq, under⟩ := ih h
      refine ⟨below, by rw [lineage_older lt, eq], fun e he => ?_⟩
      obtain ⟨inside, mem, ne⟩ := under e he
      refine ⟨inside, ?_, ne⟩
      rw [lineage_older (lineage_lt inside)]
      exact mem

theorem lineage_trans {e : Nat} (h : b ∈ lineage classes a) (h' : e ∈ lineage classes b) : e ∈ lineage classes a := by
  obtain ⟨below, eq, -⟩ := lineage_split h
  rw [eq]
  exact mem_append_right _ h'

/-- Ancestors are registered before. -/
theorem lineage_le (h : b ∈ lineage classes a) : b ≤ a := by
  induction classes generalizing a with
  | nil => exact absurd h not_mem_nil
  | cons c older ih =>
    by_cases newest : a = older.length
    · subst newest
      rw [lineage_newest] at h
      rcases mem_cons.mp h with rfl | h
      · exact le_rfl
      · obtain ⟨p, -, h⟩ := mem_parent_lineage h
        exact le_of_lt (lineage_lt h)
    · rw [lineage, if_neg newest] at h
      exact ih h

theorem Under.trans_lineage {e : Nat} (h : Under classes a b) (h' : e ∈ lineage classes b) : Under classes a e := by
  refine ⟨lineage_trans h.1 h', fun eq => h.2 ?_⟩
  have le := lineage_le h.1
  have le' := lineage_le h'
  omega

theorem isA_of_lineage (h : b ∈ lineage classes a) : isA classes a b = true := by
  induction classes generalizing a with
  | nil => exact absurd h not_mem_nil
  | cons c older ih =>
    rw [isA]
    rw [lineage] at h
    split at h
    · rename_i newest
      rw [if_pos newest]
      rcases mem_cons.mp h with rfl | h
      · rw [beq_self_eq_true, Bool.true_or, Bool.true_or]
      · obtain ⟨p, parent, h⟩ := mem_parent_lineage h
        rw [parent, any_some, ih h, Bool.or_true]
    · rename_i old
      rw [if_neg old]
      exact ih h

/-! ## Lookup along the lineage -/

variable {β : Type}

theorem findSome_congr {f g : Nat → Option β} {l : List Nat} (same : ∀ b ∈ l, f b = g b) :
    l.findSome? f = l.findSome? g := by
  induction l with
  | nil => rfl
  | cons b rest ih =>
    rw [findSome?_cons, findSome?_cons, same b mem_cons_self, ih fun x hx => same x (mem_cons_of_mem _ hx)]

theorem firstIn_newest (f : PClass → Option β) :
    firstIn f (c :: older) older.length = (f c).or (c.parent.bind fun p => firstIn f older p) := by
  have rest : ((c.parent.elim [] (lineage older)).findSome? fun b => (classAt (c :: older) b).bind f) =
      c.parent.bind fun p => firstIn f older p := by
    cases parent : c.parent with
    | none => rfl
    | some p =>
      rw [elim_some, bind_some, firstIn]
      apply findSome_congr
      intro b hb
      rw [classAt_older (lineage_lt hb)]
  rw [firstIn, lineage_newest, findSome?_cons, classAt_newest, bind_some, rest]
  cases f c <;> rfl

theorem firstIn_older (f : PClass → Option β) (ne : a ≠ older.length) :
    firstIn f (c :: older) a = firstIn f older a := by
  rw [firstIn, firstIn, lineage, if_neg ne]
  apply findSome_congr
  intro b hb
  rw [classAt_older (lineage_lt hb)]

theorem findMethod_eq (name : List UInt8) : findMethod classes a name =
    firstIn (fun c => c.methods.find? fun m => bytesEqualCi m.name name) classes a := by
  induction classes generalizing a with
  | nil => rfl
  | cons c older ih =>
    rw [findMethod]
    split
    · rename_i newest
      subst newest
      rw [firstIn_newest]
      congr 1
      cases c.parent with
      | none => rfl
      | some p => exact ih
    · rename_i old
      rw [firstIn_older _ old, ih]

theorem findStaticProperty_eq (name : List UInt8) : findStaticProperty classes a name =
    firstIn (fun c => c.staticProperties.find? fun p => p.name = name) classes a := by
  induction classes generalizing a with
  | nil => rfl
  | cons c older ih =>
    rw [findStaticProperty]
    split
    · rename_i newest
      subst newest
      rw [firstIn_newest]
      congr 1
      cases c.parent with
      | none => rfl
      | some p => exact ih
    · rename_i old
      rw [firstIn_older _ old, ih]

theorem firstIn_some {f : PClass → Option β} {x : β} (h : firstIn f classes a = some x) :
    ∃ e entry, e ∈ lineage classes a ∧ classAt classes e = some entry ∧ f entry = some x := by
  obtain ⟨e, mem, found⟩ := exists_of_findSome?_eq_some h
  obtain ⟨entry, here, fx⟩ := bind_eq_some_iff.mp found
  exact ⟨e, entry, mem, here, fx⟩

theorem firstIn_below (f : PClass → Option β) (h : b ∈ lineage classes a) :
    firstIn f classes a = firstIn f classes b ∨ ∃ e entry x, e ∈ lineage classes a ∧ Under classes e b ∧
      classAt classes e = some entry ∧ f entry = some x ∧ firstIn f classes a = some x := by
  obtain ⟨below, eq, under⟩ := lineage_split h
  rw [firstIn, firstIn, eq, findSome?_append]
  cases found : below.findSome? fun b => (classAt classes b).bind f with
  | none => exact .inl rfl
  | some x =>
    obtain ⟨e, mem, at_e⟩ := exists_of_findSome?_eq_some found
    obtain ⟨entry, here, fx⟩ := bind_eq_some_iff.mp at_e
    rw [some_or]
    exact .inr ⟨e, entry, x, eq ▸ (under e mem).1, (under e mem).2, here, fx, rfl⟩

/-- A class that has something of the kind finds its own. -/
theorem firstIn_self {f : PClass → Option β} {x : β} (here : classAt classes a = some c)
    (fx : f c = some x) : firstIn f classes a = some x := by
  induction classes with
  | nil => cases here
  | cons e older ih =>
    by_cases newest : a = older.length
    · subst newest
      rw [classAt_newest] at here
      cases here
      rw [firstIn_newest, fx, some_or]
    · rw [classAt, if_neg newest] at here
      rw [firstIn_older _ newest]
      exact ih here

end Lineage

section Members
variable {typesAllow : PMethod → PMethod → Bool} {classes : Classes} {c d : PClass} {a b : Nat}

theorem ClassesOk.at (ok : ClassesOk typesAllow classes) (here : classAt classes a = some c) :
    ∃ older, ClassOk typesAllow older c ∧ a = older.length ∧ older <:+ classes := by
  induction classes with
  | nil => cases here
  | cons e older ih =>
    rw [classAt] at here
    split at here
    · rename_i newest
      cases here
      exact ⟨older, ok.1, newest, suffix_cons _ _⟩
    · obtain ⟨before, cok, eq, suffix⟩ := ih ok.2 here
      exact ⟨before, cok, eq, suffix.trans (suffix_cons _ _)⟩

variable {m : PMethod} {p : PProperty} {x y : List UInt8}

theorem method_owner (ok : ClassesOk typesAllow classes) (here : classAt classes a = some c)
    (mem : m ∈ c.methods) : m.owner = a := by
  obtain ⟨older, cok, rfl, -⟩ := ok.at here
  exact cok.methods m mem

theorem static_owner (ok : ClassesOk typesAllow classes) (here : classAt classes a = some c)
    (mem : p ∈ c.staticProperties) : p.owner = a := by
  obtain ⟨older, cok, rfl, -⟩ := ok.at here
  exact cok.statics p mem

/-- **Properties are inherited**: a class has those of its ancestors. -/
theorem properties_below (ok : ClassesOk typesAllow classes) (h : b ∈ lineage classes a)
    (at_b : classAt classes b = some c) (at_a : classAt classes a = some d) : c.properties <+: d.properties := by
  induction classes generalizing a d with
  | nil => cases at_b
  | cons e older ih =>
    by_cases newest : a = older.length
    · subst newest
      rw [classAt_newest] at at_a
      cases at_a
      rw [lineage_newest] at h
      rcases mem_cons.mp h with rfl | h
      · rw [classAt_newest] at at_b
        cases at_b
        exact prefix_refl _
      · obtain ⟨p, parent, h⟩ := mem_parent_lineage h
        rw [classAt_older (lineage_lt h)] at at_b
        obtain ⟨-, entry, at_p⟩ := exists_class h
        exact (ih ok.2 h at_b at_p).trans (ok.1.inherited p entry parent at_p)
    · rw [lineage, if_neg newest] at h
      rw [classAt, if_neg newest] at at_a
      rw [classAt_older (lineage_lt h)] at at_b
      exact ih ok.2 h at_b at_a

theorem property_owner (ok : ClassesOk typesAllow classes) (here : classAt classes a = some c)
    (mem : p ∈ c.properties) : ∃ entry, p.owner ∈ lineage classes a ∧ classAt classes p.owner = some entry ∧
      p ∈ entry.properties := by
  induction classes generalizing a c with
  | nil => cases here
  | cons e older ih =>
    by_cases newest : a = older.length
    · subst newest
      have self := mem_lineage_self here
      rw [classAt_newest] at here
      cases here
      rcases ok.1.owners p mem with own | ⟨q, entry, parent, at_q, mem⟩
      · rw [own]
        exact ⟨e, self, classAt_newest, mem⟩
      · obtain ⟨entry', inside, at_owner, mem'⟩ := ih ok.2 at_q mem
        refine ⟨entry', ?_, ?_, mem'⟩
        · rw [lineage_newest, parent]
          exact .tail _ inside
        · rw [classAt_older (lineage_lt inside)]
          exact at_owner
    · rw [classAt, if_neg newest] at here
      obtain ⟨entry, inside, at_owner, mem'⟩ := ih ok.2 here mem
      refine ⟨entry, ?_, ?_, mem'⟩
      · rw [lineage, if_neg newest]
        exact inside
      · rw [classAt_older (lineage_lt inside)]
        exact at_owner

/-- Subclasses are what their ancestors are. -/
theorem isA_below {e : Nat} (h : b ∈ lineage classes a) (is : isA classes b e = true) : isA classes a e = true := by
  induction classes generalizing a with
  | nil => exact absurd h not_mem_nil
  | cons c older ih =>
    by_cases newest : a = older.length
    · subst newest
      rw [lineage_newest] at h
      rcases mem_cons.mp h with rfl | h
      · exact is
      · obtain ⟨p, parent, h⟩ := mem_parent_lineage h
        rw [isA, if_neg (ne_of_lt (lineage_lt h))] at is
        rw [isA, if_pos rfl, parent, any_some, ih h is, Bool.or_true]
    · rw [lineage, if_neg newest] at h
      rw [isA, if_neg (ne_of_lt (lineage_lt h))] at is
      rw [isA, if_neg newest]
      exact ih h is

theorem find_of_distinct {l : List PProperty} (distinct : (l.map PProperty.name).Nodup)
    (mem : p ∈ l) : (l.find? fun q => q.name = p.name) = some p := by
  induction l with
  | nil => simp at mem
  | cons q rest ih =>
    rw [map_cons, nodup_cons] at distinct
    rcases mem_cons.mp mem with rfl | mem
    · exact find?_cons_of_pos (by simp)
    · have ne : q.name ≠ p.name := fun eq => distinct.1 (eq ▸ List.mem_map_of_mem mem)
      rw [find?_cons_of_neg (by simpa using ne)]
      exact ih distinct.2 mem

theorem find_method_of_distinct {l : List PMethod} (distinct : DistinctMethods l) (mem : m ∈ l) :
    (l.find? fun m' => bytesEqualCi m'.name m.name) = some m := by
  induction l with
  | nil => simp at mem
  | cons m' rest ih =>
    rw [DistinctMethods, pairwise_cons] at distinct
    rcases mem_cons.mp mem with rfl | mem
    · exact find?_cons_of_pos (bytesEqualCi_refl _)
    · rw [find?_cons_of_neg (by rw [distinct.1 m mem]; nofun)]
      exact ih distinct.2 mem

theorem findProperty_below (ok : ClassesOk typesAllow classes) (h : b ∈ lineage classes a)
    (at_b : classAt classes b = some c) (mem : p ∈ c.properties) : findProperty classes a p.name = some p := by
  obtain ⟨-, d, at_a⟩ := exists_class h
  obtain ⟨older, dok, -, -⟩ := ok.at at_a
  rw [findProperty, at_a, bind_some]
  exact find_of_distinct dok.distinct ((properties_below ok h at_b at_a).subset mem)

theorem bytesEqualCi_left (same : bytesEqualCi x y = true) (z : List UInt8) : bytesEqualCi z x = bytesEqualCi z y := by
  rw [bytesEqualCi, bytesEqualCi, bytesEqualCi_iff.mp same]

theorem bytesEqualCi_right (same : bytesEqualCi x y = true) (z : List UInt8) : bytesEqualCi x z = bytesEqualCi y z := by
  rw [bytesEqualCi, bytesEqualCi, bytesEqualCi_iff.mp same]

theorem findMethod_some {name : List UInt8} (found : findMethod classes a name = some m) :
    ∃ e entry, e ∈ lineage classes a ∧ classAt classes e = some entry ∧ m ∈ entry.methods ∧
      bytesEqualCi m.name name = true := by
  rw [findMethod_eq] at found
  obtain ⟨e, entry, mem, here, own⟩ := firstIn_some found
  exact ⟨e, entry, mem, here, mem_of_find?_eq_some own, by simpa using find?_some own⟩

theorem bytesEqualCi_find (same : bytesEqualCi x y = true) (l : List PMethod) :
    (l.find? fun m => bytesEqualCi m.name x) = l.find? fun m => bytesEqualCi m.name y := by
  simp only [bytesEqualCi_left same]

/-- Methods are found by names without regard to case. -/
theorem findMethod_congr (same : bytesEqualCi x y = true) (a : Nat) :
    findMethod classes a x = findMethod classes a y := by
  rw [findMethod_eq, findMethod_eq]
  simp only [bytesEqualCi_left same]

theorem visibilityCompatible_trans {x y z : Visibility} (h : visibilityCompatible x y = true)
    (h' : visibilityCompatible y z = true) (ne : z ≠ .isPrivate) : visibilityCompatible x z = true := by
  cases x <;> cases y <;> cases z <;> simp_all [visibilityCompatible]

theorem visibilityCompatible_self (x : Visibility) : visibilityCompatible x x = true := by cases x <;> rfl

theorem ne_private_of_compatible {x y : Visibility} (h : visibilityCompatible x y = true) (ne : y ≠ .isPrivate) :
    x ≠ .isPrivate := by
  cases x <;> cases y <;> simp_all [visibilityCompatible]

/-- **A class below finds a method** that allows at least as much, when the ancestor finds one that
is not private. -/
theorem findMethod_below (ok : ClassesOk typesAllow classes) (h : b ∈ lineage classes a) {name : List UInt8}
    {r : PMethod} (found : findMethod classes b name = some r) (ne : r.visibility ≠ .isPrivate)
    (method : bytesEqualCi name constructorName = false) :
    ∃ m, findMethod classes a name = some m ∧ visibilityCompatible m.visibility r.visibility = true ∧
      m.isStatic = r.isStatic := by
  induction classes generalizing a with
  | nil => exact absurd h not_mem_nil
  | cons c older ih =>
    by_cases newest : a = older.length
    · subst newest
      rw [lineage_newest] at h
      rcases mem_cons.mp h with rfl | h
      · exact ⟨r, found, visibilityCompatible_self _, rfl⟩
      · obtain ⟨p, parent, h⟩ := mem_parent_lineage h
        rw [findMethod, if_neg (ne_of_lt (lineage_lt h))] at found
        obtain ⟨r', at_p, allows, static⟩ := ih ok.2 h found
        rw [findMethod, if_pos rfl, parent, bind_some, at_p]
        cases own : c.methods.find? fun m => bytesEqualCi m.name name with
        | none => exact ⟨r', rfl, allows, static⟩
        | some m =>
          have named : bytesEqualCi m.name name = true := by simpa using find?_some own
          have keeps := ok.1.keeps m (mem_of_find?_eq_some own)
          rw [keepsInherited, parent, bind_some, findMethod_congr named, at_p, all_some] at keeps
          have other : bytesEqualCi r'.name constructorName = false := by
            obtain ⟨-, -, -, -, -, named'⟩ := findMethod_some at_p
            rw [bytesEqualCi_right named', method]
          rw [other, Bool.or_false, Bool.or_eq_true] at keeps
          rcases keeps with hidden | compatible
          · exact absurd (eq_of_beq hidden) (ne_private_of_compatible allows ne)
          · simp only [signatureCompatible, Bool.and_eq_true] at compatible
            obtain ⟨⟨same, visible⟩, -⟩ := compatible
            exact ⟨m, rfl, visibilityCompatible_trans visible allows ne, (eq_of_beq same).symm.trans static⟩
    · rw [lineage, if_neg newest] at h
      rw [findMethod, if_neg (ne_of_lt (lineage_lt h))] at found
      rw [findMethod, if_neg newest]
      exact ih ok.2 h found

end Members

end PhpPico.Members
