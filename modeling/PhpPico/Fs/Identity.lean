import PhpPico.Fs.Buffer

/-!
# When the canonical path is the file's

Paths below `/home` and relative ones are canonicalised right, other absolute paths where every step up leaves at
least four bytes and nothing of theirs is taken for `/home` or `/lib`.
-/

namespace PhpPico.Fs
open List Option

/-! ## Roots -/

theorem hasRoot_iff {root path : List UInt8} :
    hasRoot root path = true ↔ ∃ tail, path = root ++ tail ∧ ∀ next ∈ tail.head?, next = slash := by
  rw [hasRoot, Bool.and_eq_true, decide_eq_true_eq]
  constructor
  · rintro ⟨⟨tail, rfl⟩, next⟩
    rw [drop_left] at next
    refine ⟨tail, rfl, fun x mem => ?_⟩
    rw [mem_def.mp mem] at next
    exact beq_iff_eq.mp next
  · rintro ⟨tail, rfl, next⟩
    refine ⟨prefix_append _ _, ?_⟩
    rw [drop_left]
    cases first : tail.head? with
    | none => rfl
    | some x => exact beq_iff_eq.mpr (next x first)

theorem takeWhile_name {c tail : List UInt8} (plain : slash ∉ c) (next : ∀ x ∈ tail.head?, x = slash) :
    (c ++ tail).takeWhile (· != slash) = c := by
  have all : ∀ x ∈ c, (x != slash) = true := fun x mem => bne_iff_ne.mpr fun same => plain (same ▸ mem)
  rw [takeWhile_append_of_pos all]
  cases tail with
  | nil => rw [takeWhile_nil, append_nil]
  | cons x rest => rw [next x rfl, takeWhile_cons, if_neg (by simp), append_nil]

theorem Shape.hasRoot {name resolved : List UInt8} (name_ok : name ≠ [] ∧ slash ∉ name) {cs : List (List UInt8)}
    (shape : Shape resolved cs) : hasRoot (text [name]) resolved = true ↔ cs.head? = some name := by
  obtain ⟨behind, rfl, slashes⟩ : ∃ behind, resolved = text cs ++ behind ∧ ∀ x ∈ behind, x = slash := by
    rcases shape.2 with e | ⟨e, -⟩
    · exact ⟨[], by rw [e, append_nil], fun _ mem => absurd mem not_mem_nil⟩
    · exact ⟨[slash], e, fun x mem => mem_singleton.mp mem⟩
  have next (cs : List (List UInt8)) : ∀ x ∈ (text cs ++ behind).head?, x = slash := fun x mem => by
    cases cs with
    | nil => exact slashes x (mem_of_mem_head? mem)
    | cons => exact (some.inj mem).symm
  rw [hasRoot_iff]
  cases cs with
  | nil =>
    refine ⟨?_, fun first => by cases first⟩
    rintro ⟨tail, same, -⟩
    obtain ⟨x, rest, rfl⟩ := exists_cons_of_ne_nil name_ok.1
    have mem : x ∈ behind := by
      rw [text_nil, nil_append] at same
      rw [same]
      simp
    exact absurd (slashes x mem ▸ (.head _)) name_ok.2
  | cons c rest =>
    constructor
    · rintro ⟨tail, same, next'⟩
      rw [text_cons, text_cons, text_nil, append_nil, cons_append, cons_append, append_assoc] at same
      have name_eq := takeWhile_name name_ok.2 next'
      rw [← (cons.inj same).2, takeWhile_name (shape.1 c mem_cons_self).2 (next rest)] at name_eq
      rw [name_eq, head?_cons]
    · intro first
      cases first
      exact ⟨text rest ++ behind, by simp, next rest⟩

theorem hasRoot_text {name : List UInt8} (name_ok : name ≠ [] ∧ slash ∉ name) {cs : List (List UInt8)}
    (valid : Valid cs) : hasRoot (text [name]) (text cs) = true ↔ cs.head? = some name :=
  Shape.hasRoot name_ok ⟨valid, .inl rfl⟩

theorem components_of_root {name path : List UInt8} (valid : name ≠ [] ∧ slash ∉ name ∧ name ≠ dot)
    (rooted : hasRoot (text [name]) path = true) :
    components path = name :: components (path.drop (name.length + 1)) := by
  obtain ⟨tail, rfl, next⟩ := hasRoot_iff.mp rooted
  have length : (text [name]).length = name.length + 1 := by simp
  rw [← length, drop_left]
  have split : (text [name] ++ tail).splitOn slash = [] :: (name ++ tail).splitOn slash := by
    rw [text_cons, text_nil, append_nil, cons_append, splitOn_cons_eq_if_modifyHead, if_pos (by simp)]
  cases tail with
  | nil =>
    rw [components, split, append_nil, splitOn_eq_singleton valid.2.1]
    simp [components, valid.1, valid.2.2]
  | cons x rest =>
    cases next x rfl
    rw [components, split, splitOn_append_cons_self_of_not_mem valid.2.1, components,
      splitOn_cons_eq_if_modifyHead, if_pos (by simp)]
    simp [valid.1, valid.2.2]

/-! ## Files -/

theorem file_of_home {path : List UInt8} (rooted : hasRoot home path = true) :
    file path = some (names (path.drop 5)) := by
  obtain ⟨tail, rfl, next⟩ := hasRoot_iff.mp rooted
  have drop : (home ++ tail).drop 5 = tail := rfl
  have nonempty : home ++ tail ≠ [] := append_ne_nil_of_left_ne_nil (by decide) _
  rw [file, lfsPath, if_neg nonempty, drop]
  cases tail with
  | nil => rfl
  | cons x rest =>
    cases next x rfl
    by_cases bare : rest = []
    · rw [bare]
      rfl
    · rw [if_neg, if_pos, map_some]
      · exact ⟨rest, by simp⟩
      · rintro (c | c)
        · exact absurd (congrArg List.length c) (by simp)
        · exact bare (cons.inj (append_cancel_left c)).2

theorem lfsPath_of_not_home {path : List UInt8} (foreign : hasRoot home path = false) (nonempty : path ≠ []) :
    lfsPath path = if hasRoot (ascii "/lib") path then none else some path := by
  have other {tail : List UInt8} (next : ∀ x ∈ tail.head?, x = slash) : path ≠ home ++ tail := fun same => by
    rw [hasRoot_iff.mpr ⟨tail, same, next⟩] at foreign
    cases foreign
  have slashed {rest : List UInt8} : ∀ x ∈ (slash :: rest).head?, x = slash := fun x mem => (some.inj mem).symm
  rw [lfsPath, if_neg nonempty, if_neg, if_neg]
  · rintro ⟨rest, rfl⟩
    exact other slashed (append_assoc _ _ _)
  · rintro (same | same)
    · have none : ∀ x ∈ ([] : List UInt8).head?, x = slash := fun x mem => absurd mem (not_mem_none x)
      exact other none (by rw [same, append_nil])
    · exact other slashed same

/-! ## The condition -/

/-- What the loop makes of the components of an absolute path, from the first name on. -/
def faithfulFrom : List (List UInt8) → Bool
  | [] => false
  | c :: rest => if homeName <+: c then returns [c] rest || c != homeName else c != libName && keeps [c] false rest

/-- **The canonical path is right** for a path below `/home` or a relative one that is not empty; below
`/lib`, where no names come to nothing; and for other absolute paths as `faithfulFrom` says. -/
def faithful (path : List UInt8) : Bool :=
  if hasRoot home path || path.head? != some slash then path != []
  else if hasRoot (text [libName]) path then
    (components (path.drop 4)).all (· == dotDot) || names (path.drop 4) != []
  else faithfulFrom ((components path).dropWhile (· == dotDot))

/-- The canonical path is one below `/home`. -/
def fromHome (path : List UInt8) : Bool :=
  if hasRoot home path || path.head? != some slash then true
  else
    match (components path).dropWhile (· == dotDot) with
    | [] => false
    | c :: rest => homeName <+: c && returns [c] rest

/-- Of two paths: if they name one file, both canonical paths are below `/home` or none is, and if both name none,
what they have below `/lib` differs. -/
def Comparable (p q : List UInt8) : Prop :=
  (∀ f, file p = some f → file q = some f → fromHome p = fromHome q) ∧
    (file p = none → file q = none → names (p.drop 4) ≠ names (q.drop 4))

/-- The canonical paths `cp` and `cq` of `p` and `q` decide whether they name one file: equal if and only if they do,
each the name of the same file, canonical, and within the capacity. -/
structure DecidesIdentity (capacity : Nat) (p q cp cq : List UInt8) : Prop where
  decides : cp = cq ↔ ∃ f, file p = some f ∧ file q = some f
  same : file cp = file p ∧ file cq = file q
  idempotent : canonicalize capacity cp = some cp ∧ canonicalize capacity cq = some cq
  fits : cp.length + 1 ≤ capacity ∧ cq.length + 1 ≤ capacity

/-! ## Names -/

theorem areNames_foldl {S es : List (List UInt8)} (areNames : AreNames S) (leads : ∀ e ∈ es, e ≠ [] ∧ slash ∉ e ∧ e ≠ dot) :
    AreNames (es.foldl visit S) := by
  induction es generalizing S with
  | nil => exact areNames
  | cons e rest ih =>
    obtain ⟨lead, leads'⟩ := forall_mem_cons.mp leads
    refine ih ?_ leads'
    by_cases up : e = dotDot
    · rw [up, visit_dotDot]
      exact fun c mem => areNames c ((dropLast_sublist S).subset mem)
    · rw [visit_name _ up]
      intro c mem
      rcases mem_append.mp mem with mem | mem
      · exact areNames c mem
      · rw [mem_singleton.mp mem]
        exact ⟨lead.1, lead.2.1, lead.2.2, up⟩

theorem leads_of_mem_components {path : List UInt8} : ∀ e ∈ components path, e ≠ [] ∧ slash ∉ e ∧ e ≠ dot :=
  fun e mem => ⟨(valid_components path e mem).1, (valid_components path e mem).2,
    (of_decide_eq_true (mem_filter.mp mem).2).2⟩

theorem areNames_names (path : List UInt8) : AreNames (names path) :=
  areNames_foldl (fun _ mem => absurd mem not_mem_nil) leads_of_mem_components

theorem foldl_visit_names (S : List (List UInt8)) {es : List (List UInt8)} (areNames : AreNames es) :
    es.foldl visit S = S ++ es := by
  induction es generalizing S with
  | nil => exact (append_nil S).symm
  | cons e rest ih =>
    obtain ⟨name, rest_names⟩ := forall_mem_cons.mp areNames
    rw [foldl_cons, visit_name _ name.2.2.2, ih _ rest_names, append_assoc, singleton_append]

theorem names_text {cs : List (List UInt8)} (areNames : AreNames cs) : names (text cs) = cs := by
  rw [names, components_text areNames, foldl_visit_names [] areNames, nil_append]

theorem foldlM_names {capacity : Nat} {cs es : List (List UInt8)} (valid : Valid cs) (areNames : AreNames es)
    (fits : (text (cs ++ es)).length + 1 ≤ capacity) :
    es.foldlM (addComponent capacity) (text cs) = some (text (cs ++ es)) := by
  induction es generalizing cs with
  | nil => rw [append_nil]; rfl
  | cons e rest ih =>
    obtain ⟨name, rest_names⟩ := forall_mem_cons.mp areNames
    have shape : Shape (text cs) cs := ⟨valid, .inl rfl⟩
    have room : ¬ capacity < (text cs).length + e.length + 2 := by
      rw [text_append, text_cons, length_append, length_cons, length_append] at fits
      omega
    have added : addComponent capacity (text cs) e = some (text (cs ++ [e])) := by
      rw [addComponent, if_neg (fun c => c.elim name.1 name.2.2.1), if_neg name.2.2.2, if_neg room, shape.goDown]
    have regroup : cs ++ e :: rest = cs ++ [e] ++ rest := by simp
    rw [regroup] at fits ⊢
    rw [foldlM_cons, added]
    exact ih (valid.append (.single ⟨name.1, name.2.1⟩)) rest_names fits

/-- **Canonical paths made of names are canonical.** -/
theorem canonicalize_text {capacity : Nat} (six : ¬ capacity < 6) {cs : List (List UInt8)} (areNames : AreNames cs)
    (nonempty : cs ≠ []) (fits : (text cs).length + 1 ≤ capacity) : canonicalize capacity (text cs) = some (text cs) := by
  obtain ⟨c, rest, rfl⟩ := exists_cons_of_ne_nil nonempty
  obtain ⟨name, rest_names⟩ := forall_mem_cons.mp areNames
  have first : (text (c :: rest)).head? = some slash := rfl
  have skip (cs : List (List UInt8)) (r : List UInt8) :
      ([] :: cs).foldlM (addComponent capacity) r = cs.foldlM (addComponent capacity) r := rfl
  rw [canonicalize, if_neg six, start]
  cases rooted : hasRoot home (text (c :: rest)) with
  | true =>
    have same := (hasRoot_text (show homeName ≠ [] ∧ slash ∉ homeName by decide) areNames.valid).mp rooted
    cases same
    have drop : (text (homeName :: rest)).drop 5 = text rest := rfl
    rw [if_pos rfl, drop, splitOn_text (AreNames.valid rest_names).slashes, skip]
    exact foldlM_names (Valid.single (show homeName ≠ [] ∧ slash ∉ homeName by decide)) rest_names fits
  | false =>
    rw [if_neg Bool.false_ne_true, if_pos first, splitOn_text areNames.valid.slashes, skip]
    have none : Valid [] := fun _ mem => absurd mem not_mem_nil
    exact foldlM_names none areNames fits

/-! ## Faithful paths -/

/-- What the canonical path of a faithful path is: below `/home` the names of the file, elsewhere too, where
they are not those of `/home` or `/lib`, and below `/lib` the names there. -/
inductive Form (path : List UInt8) : Prop where
  | home (f : List (List UInt8)) (file : file path = some f) (canon : canon path = text (homeName :: f))
      (areNames : AreNames f) (kind : fromHome path = true)
  | elsewhere (f : List (List UInt8)) (file : file path = some f) (canon : canon path = text f) (areNames : AreNames f)
      (nonempty : f ≠ []) (notHome : f.head? ≠ some homeName) (notLib : f.head? ≠ some libName)
      (kind : fromHome path = false)
  | lib (file : file path = none) (canon : canon path = text (libName :: names (path.drop 4)))
      (kind : fromHome path = false)

theorem AreNames.home {cs : List (List UInt8)} (areNames : AreNames cs) : AreNames (homeName :: cs) :=
  forall_mem_cons.mpr ⟨by decide, areNames⟩

theorem AreNames.lib {cs : List (List UInt8)} (areNames : AreNames cs) : AreNames (libName :: cs) :=
  forall_mem_cons.mpr ⟨by decide, areNames⟩

theorem isName_home : homeName ≠ [] ∧ slash ∉ homeName := by decide

theorem isName_lib : libName ≠ [] ∧ slash ∉ libName := by decide

theorem Form.names {path : List UInt8} (form : Form path) : ∃ cs, AreNames cs ∧ cs ≠ [] ∧ canon path = text cs := by
  cases form with
  | home f _ canon areNames => exact ⟨_, areNames.home, cons_ne_nil _ _, canon⟩
  | elsewhere f _ canon areNames nonempty => exact ⟨f, areNames, nonempty, canon⟩
  | lib _ canon => exact ⟨_, (areNames_names _).lib, cons_ne_nil _ _, canon⟩

theorem file_text_home {f : List (List UInt8)} (areNames : AreNames f) : file (text (homeName :: f)) = some f := by
  have rooted := (hasRoot_text isName_home (areNames.home).valid).mpr rfl
  rw [file_of_home rooted, show (text (homeName :: f)).drop 5 = text f from rfl, names_text areNames]

theorem text_ne_nil {cs : List (List UInt8)} (nonempty : cs ≠ []) : text cs ≠ [] := by
  cases cs with
  | nil => exact absurd rfl nonempty
  | cons => exact cons_ne_nil _ _

theorem not_hasRoot_text {name : List UInt8} (plain : name ≠ [] ∧ slash ∉ name) {cs : List (List UInt8)} (valid : Valid cs)
    (other : cs.head? ≠ some name) : hasRoot (text [name]) (text cs) = false := by
  rw [← Bool.not_eq_true, hasRoot_text plain valid]
  exact other

theorem file_text_elsewhere {f : List (List UInt8)} (areNames : AreNames f) (nonempty : f ≠ [])
    (notHome : f.head? ≠ some homeName) (notLib : f.head? ≠ some libName) : file (text f) = some f := by
  have foreign := not_hasRoot_text isName_home areNames.valid notHome
  have unlib := not_hasRoot_text isName_lib areNames.valid notLib
  rw [file, lfsPath_of_not_home foreign (text_ne_nil nonempty), show ascii "/lib" = text [libName] from rfl,
    unlib, if_neg Bool.false_ne_true, map_some, names_text areNames]

theorem file_text_lib {cs : List (List UInt8)} (areNames : AreNames cs) : file (text (libName :: cs)) = none := by
  have valid := (areNames.lib).valid
  have other : (libName :: cs).head? ≠ some homeName := fun same => absurd (some.inj same) (by decide)
  have foreign := not_hasRoot_text isName_home valid other
  rw [file, lfsPath_of_not_home foreign (cons_ne_nil _ _), show ascii "/lib" = text [libName] from rfl,
    (hasRoot_text isName_lib valid).mpr rfl, if_pos rfl, map_none]

theorem Form.same {path : List UInt8} (form : Form path) : file (canon path) = file path := by
  cases form with
  | home f file canon areNames => rw [canon, file, file_text_home areNames]
  | elsewhere f file canon areNames nonempty notHome notLib =>
    rw [canon, file, file_text_elsewhere areNames nonempty notHome notLib]
  | lib file canon => rw [canon, file, file_text_lib (areNames_names _)]

/-! ## The three kinds of paths -/

section Kinds
variable {path : List UInt8}

theorem valid_nil : Valid [] := fun _ mem => absurd mem not_mem_nil

theorem form_of_home (fromHere : (hasRoot home path || path.head? != some slash) = true) (nonempty : path ≠ []) :
    Form path := by
  have kind : fromHome path = true := by rw [fromHome, if_pos fromHere]
  cases rooted : hasRoot home path with
  | true =>
    refine .home _ (file_of_home rooted) ?_ (areNames_names _) kind
    rw [canon, start, if_pos rooted]
    exact foldl_advance_home valid_nil (valid_components _)
  | false =>
    have relative : path.head? ≠ some slash := by
      rw [rooted, Bool.false_or] at fromHere
      exact bne_iff_ne.mp fromHere
    have unlib : hasRoot (ascii "/lib") path = false := by
      rw [← Bool.not_eq_true, hasRoot_iff]
      rintro ⟨tail, rfl, -⟩
      exact relative rfl
    refine .home (names path) ?_ ?_ (areNames_names _) kind
    · rw [file, lfsPath_of_not_home rooted nonempty, unlib, if_neg Bool.false_ne_true, map_some]
    · rw [canon, start, if_neg (by rw [rooted]; exact Bool.false_ne_true), if_neg relative]
      exact foldl_advance_home valid_nil (valid_components _)

variable (absolute : (hasRoot home path || path.head? != some slash) = false)
include absolute

theorem start_absolute : start path = ([], path) := by
  rw [Bool.or_eq_false_iff, bne_eq_false_iff_eq] at absolute
  rw [start, if_neg (by rw [absolute.1]; exact Bool.false_ne_true), if_pos absolute.2]

theorem file_absolute : file path = if hasRoot (text [libName]) path then none else some (names path) := by
  rw [Bool.or_eq_false_iff, bne_eq_false_iff_eq] at absolute
  have nonempty : path ≠ [] := fun none => by
    rw [none] at absolute
    exact absurd absolute.2 (by decide)
  rw [file, lfsPath_of_not_home absolute.1 nonempty, show ascii "/lib" = text [libName] from rfl]
  split <;> rfl

theorem canon_lib (rooted : hasRoot (text [libName]) path = true) :
    canon path = libBuffer (names (path.drop 4)) ((components (path.drop 4)).any (· != dotDot)) := by
  have parts := components_of_root (show libName ≠ [] ∧ slash ∉ libName ∧ libName ≠ dot by decide) rooted
  have begun : advance [] libName = libBuffer [] false := by decide
  have loop := foldl_advance_lib valid_nil (valid_components (path.drop 4)) (fun none => absurd rfl none : [] ≠ [] → false = true)
  rw [Bool.false_or] at loop
  rw [canon, start_absolute absolute, parts, foldl_cons, begun]
  exact loop

theorem fromHome_lib (rooted : hasRoot (text [libName]) path = true) : fromHome path = false := by
  have parts := components_of_root (show libName ≠ [] ∧ slash ∉ libName ∧ libName ≠ dot by decide) rooted
  have first : (libName == dotDot) = false := by decide
  have other : decide (homeName <+: libName) = false := by decide
  rw [fromHome, absolute, if_neg Bool.false_ne_true, parts, dropWhile_cons, first, if_neg Bool.false_ne_true]
  simp only [other, Bool.false_and]

/-- A path below `/lib`, where the names there come to nothing and left a slash, or not. -/
theorem form_of_lib (rooted : hasRoot (text [libName]) path = true)
    (right : ((components (path.drop 4)).all (· == dotDot) || names (path.drop 4) != []) = true) : Form path := by
  refine .lib ?_ ?_ (fromHome_lib absolute rooted)
  · rw [file_absolute absolute, if_pos rooted]
  · rw [canon_lib absolute rooted, libBuffer, if_neg]
    rintro ⟨empty, touched⟩
    rw [empty, bne_self_eq_false, Bool.or_false, List.all_eq_true] at right
    obtain ⟨e, mem, name⟩ := List.any_eq_true.mp touched
    exact bne_iff_ne.mp name (beq_iff_eq.mp (right e mem))

theorem not_canonical_lib (rooted : hasRoot (text [libName]) path = true)
    (wrong : ((components (path.drop 4)).all (· == dotDot) || names (path.drop 4) != []) = false) :
    canon (canon path) ≠ canon path := by
  rw [Bool.or_eq_false_iff, bne_eq_false_iff_eq] at wrong
  have touched : (components (path.drop 4)).any (· != dotDot) = true := by
    rw [← Bool.not_eq_true, List.all_eq_true] at wrong
    by_contra none
    refine wrong.1 fun e mem => beq_iff_eq.mpr (by_contra fun name => none ?_)
    exact List.any_eq_true.mpr ⟨e, mem, bne_iff_ne.mpr name⟩
  rw [canon_lib absolute rooted, wrong.2, touched]
  decide

end Kinds

/-! ## Other absolute paths -/

theorem foldl_dropWhile {α : Type} {step : α → List UInt8 → α} {start : α} (stays : step start dotDot = start)
    (es : List (List UInt8)) : (es.dropWhile (· == dotDot)).foldl step start = es.foldl step start := by
  induction es with
  | nil => rfl
  | cons e rest ih =>
    rw [dropWhile_cons]
    split
    · next up => rw [ih, foldl_cons, beq_iff_eq.mp up, stays]
    · rfl

section Elsewhere
variable {path : List UInt8} (absolute : (hasRoot home path || path.head? != some slash) = false)
  (unrooted : ¬ hasRoot (text [libName]) path = true)
include absolute

theorem canon_absolute : canon path = ((components path).dropWhile (· == dotDot)).foldl advance [] := by
  rw [canon, start_absolute absolute, foldl_dropWhile (by decide)]

theorem canon_root (none : (components path).dropWhile (· == dotDot) = []) : canon (canon path) ≠ canon path := by
  rw [canon_absolute absolute, none]
  decide

variable {c : List UInt8} {rest : List (List UInt8)}
  (first : (components path).dropWhile (· == dotDot) = c :: rest)
include first

omit absolute in
theorem first_leads : c ≠ [] ∧ slash ∉ c ∧ c ≠ dot ∧ c ≠ dotDot := by
  have mem : c ∈ components path := (dropWhile_sublist _).subset (first ▸ mem_cons_self)
  have lead := leads_of_mem_components c mem
  refine ⟨lead.1, lead.2.1, lead.2.2, fun up => ?_⟩
  have some_left : (components path).dropWhile (· == dotDot) ≠ [] := by rw [first]; exact cons_ne_nil _ _
  have head := head_dropWhile_not (· == dotDot) some_left
  simp only [first, head_cons, up, beq_self_eq_true] at head
  cases head

omit absolute in
theorem rest_valid : Valid rest := fun e mem =>
  valid_components path e ((dropWhile_sublist _).subset (first ▸ mem_cons_of_mem _ mem))

omit absolute in
theorem names_first : names path = rest.foldl visit [c] := by
  rw [names, ← foldl_dropWhile (by decide), first, foldl_cons, visit_name _ (first_leads first).2.2.2, nil_append]

theorem canon_first : canon path = rest.foldl advance (buffer [c] false) := by
  have lead := first_leads first
  have shape : Shape [] [] := ⟨valid_nil, .inl rfl⟩
  rw [canon_absolute absolute, first, foldl_cons, advance_name lead.2.2.2, shape.goDown]
  rfl

theorem fromHome_first : fromHome path = (decide (homeName <+: c) && returns [c] rest) := by
  rw [fromHome, absolute, if_neg Bool.false_ne_true, first]

/-- Where all steps up are right the buffer has the names of the file. -/
theorem canon_of_keeps (right : keeps [c] false rest = true) :
    canon path = text (names path) ∧ (names path).head? = some c := by
  have lead := first_leads first
  have loop := foldl_advance_of_keeps (Valid.single ⟨lead.1, lead.2.1⟩) (cons_ne_nil _ _)
    (fun c => (by cases c)) (rest_valid first) right
  rw [canon_first absolute first, names_first first]
  exact loop

include unrooted

theorem form_elsewhere (right : faithfulFrom (c :: rest) = true) : Form path := by
  have lead := first_leads first
  have named := areNames_names path
  have file := file_absolute absolute
  have kind := fromHome_first absolute first
  rw [if_neg unrooted] at file
  rw [faithfulFrom] at right
  by_cases of_home : homeName <+: c
  · rw [decide_eq_true of_home, Bool.true_and] at kind
    rw [if_pos of_home, Bool.or_eq_true] at right
    cases back : returns [c] rest with
    | true =>
      have loop := foldl_advance_of_returns of_home (Valid.single ⟨lead.1, lead.2.1⟩) (rest_valid first) back
      rw [back] at kind
      refine .home _ file ?_ named kind
      rw [canon_first absolute first, names_first first]
      exact loop
    | false =>
      rw [back] at right kind
      have other : c ≠ homeName := bne_iff_ne.mp (right.resolve_left Bool.false_ne_true)
      obtain ⟨canon, head⟩ := canon_of_keeps absolute first (keeps_of_not_returns of_home back).1
      refine .elsewhere _ file canon named (fun none => ?_) (fun same => ?_) (fun same => ?_) kind
      · rw [none] at head
        cases head
      · exact other (some.inj (head.symm.trans same))
      · rw [some.inj (head.symm.trans same)] at of_home
        exact absurd of_home (by decide)
  · rw [decide_eq_false of_home, Bool.false_and] at kind
    rw [if_neg of_home, Bool.and_eq_true] at right
    obtain ⟨canon, head⟩ := canon_of_keeps absolute first right.2
    refine .elsewhere _ file canon named (fun none => ?_) (fun same => ?_) (fun same => ?_) kind
    · rw [none] at head
      cases head
    · exact of_home (some.inj (head.symm.trans same) ▸ prefix_rfl)
    · exact bne_iff_ne.mp right.1 (some.inj (head.symm.trans same))

end Elsewhere

theorem Shape.components {resolved : List UInt8} {cs : List (List UInt8)} (shape : Shape resolved cs) :
    components resolved = cs.filter (· ≠ dot) := by
  have leads (c : List UInt8) (mem : c ∈ cs) : decide (c ≠ [] ∧ c ≠ dot) = decide (c ≠ dot) := by
    rw [decide_eq_decide]
    exact and_iff_right (shape.1 c mem).1
  rw [Fs.components]
  rcases shape.2 with e | ⟨e, -⟩
  · rw [e, splitOn_text shape.1.slashes, filter_cons, if_neg (by simp), filter_congr leads]
  · rw [e, splitOn_append_cons_self, splitOn_text shape.1.slashes, splitOn_nil, filter_append,
      filter_cons, if_neg (by simp), filter_congr leads]
    simp

theorem Shape.head? {resolved : List UInt8} {cs : List (List UInt8)} (shape : Shape resolved cs) (nonempty : cs ≠ []) :
    resolved.head? = some slash := by
  obtain ⟨c, rest, rfl⟩ := exists_cons_of_ne_nil nonempty
  rcases shape.2 with e | ⟨e, -⟩ <;> rw [e] <;> rfl

/-- A buffer that does not begin with `/home` is canonicalised like other absolute paths. -/
theorem Shape.canon {resolved : List UInt8} {cs : List (List UInt8)} (shape : Shape resolved cs) (nonempty : cs ≠ [])
    (foreign : cs.head? ≠ some homeName) : (Fs.hasRoot home resolved || resolved.head? != some slash) = false ∧
      Fs.canon resolved = (cs.filter (· ≠ dot)).foldl advance [] := by
  have unrooted : Fs.hasRoot home resolved = false := by
    rw [← Bool.not_eq_true, home_eq, shape.hasRoot isName_home]
    exact foreign
  have absolute : (Fs.hasRoot home resolved || resolved.head? != some slash) = false := by
    rw [unrooted, shape.head? nonempty, bne_self_eq_false, Bool.or_false]
  refine ⟨absolute, ?_⟩
  rw [Fs.canon, start_absolute absolute, shape.components]

theorem canon_slashed {cs : List (List UInt8)} (areNames : AreNames cs) (four : (text cs).length = 4) :
    canon (text cs ++ [slash]) ≠ text cs ++ [slash] := by
  have shape : Shape (text cs ++ [slash]) cs := ⟨areNames.valid, .inr ⟨rfl, four⟩⟩
  have bare : Shape (text cs) cs := ⟨areNames.valid, .inl rfl⟩
  have nonempty : cs ≠ [] := ne_nil_of_text (four.symm.le)
  have foreign : cs.head? ≠ some homeName := by
    intro first
    cases cs with
    | nil => cases first
    | cons c rest =>
      cases first
      have long := length_text_of_home prefix_rfl rest
      omega
  have fixed : canon (text cs) = text cs :=
    ((canonicalize_eq_some (canonicalize_text (show ¬ (text cs).length + 6 < 6 by omega) areNames nonempty
      (by omega))).1).symm
  rw [(shape.canon nonempty foreign).2, ← (bare.canon nonempty foreign).2, fixed]
  exact fun same => absurd (congrArg List.length same) (by simp)

/-- With too many components, the buffer is not canonical or names another file. -/
theorem Shape.names_ne {resolved : List UInt8} {cs T : List (List UInt8)} (shape : Shape resolved cs)
    (more : T.length < cs.length) (foreign : cs.head? ≠ some homeName) (same : file resolved = some T) :
    Fs.canon resolved ≠ resolved := by
  intro fixed
  have nonempty : cs ≠ [] := length_pos_iff.mp (by omega)
  obtain ⟨absolute, canon⟩ := shape.canon nonempty foreign
  have valid : Valid (cs.filter (· ≠ dot)) := fun c mem => shape.1 c (mem_filter.mp mem).1
  obtain ⟨cs', shape', count⟩ := Shape.count ⟨valid_nil, .inl rfl⟩ valid
  rw [text_nil, ← canon, fixed] at shape'
  rw [shape'.unique shape] at count
  have le := length_filter_le (· ≠ dot) cs
  have le' := length_filter_le (· ≠ dotDot) (cs.filter (· ≠ dot))
  have length : ((cs.filter (· ≠ dot)).filter (· ≠ dotDot)).length = (cs.filter (· ≠ dot)).length := by
    rw [length_nil] at count
    omega
  have areNames : AreNames (cs.filter (· ≠ dot)) := fun c mem =>
    ⟨(valid c mem).1, (valid c mem).2, of_decide_eq_true (mem_filter.mp mem).2,
      of_decide_eq_true (length_filter_eq_length_iff.mp length c mem)⟩
  rw [file_absolute absolute] at same
  split at same
  · cases same
  · have named := some.inj same
    rw [names, shape.components, foldl_visit_names [] areNames, nil_append] at named
    rw [length_nil] at count
    rw [← named] at more
    omega

section Elsewhere
variable {path : List UInt8} (absolute : (hasRoot home path || path.head? != some slash) = false)
  (unrooted : ¬ hasRoot (text [libName]) path = true) {c : List UInt8} {rest : List (List UInt8)}
  (first : (components path).dropWhile (· == dotDot) = c :: rest)
include absolute unrooted first

theorem not_right (wrong : faithfulFrom (c :: rest) = false) (same : file (canon path) = file path) :
    canon (canon path) ≠ canon path := by
  have lead := first_leads first
  have named := areNames_names path
  have file := file_absolute absolute
  rw [if_neg unrooted] at file
  rw [file] at same
  rw [faithfulFrom] at wrong
  by_cases of_home : homeName <+: c
  · rw [if_pos of_home, Bool.or_eq_false_iff, bne_eq_false_iff_eq] at wrong
    obtain ⟨canon, head⟩ := canon_of_keeps absolute first (keeps_of_not_returns of_home wrong.1).1
    rw [wrong.2] at head
    obtain ⟨R, parts⟩ := head?_eq_some_iff.mp head
    rw [canon, parts, file_text_home fun d mem => named d (parts ▸ mem_cons_of_mem _ mem)] at same
    exact absurd (congrArg List.length (some.inj same)) (by simp)
  · rw [if_neg of_home] at wrong
    cases right : keeps [c] false rest with
    | true =>
      rw [right, Bool.and_true, bne_eq_false_iff_eq] at wrong
      obtain ⟨canon, head⟩ := canon_of_keeps absolute first right
      rw [wrong] at head
      obtain ⟨R, parts⟩ := head?_eq_some_iff.mp head
      rw [canon, parts, file_text_lib fun d mem => named d (parts ▸ mem_cons_of_mem _ mem)] at same
      cases same
    | false =>
      have loop := foldl_advance_of_not_keeps (Valid.single ⟨lead.1, lead.2.1⟩) (cons_ne_nil _ _)
        (fun c => (by cases c)) (rest_valid first) right
      rw [← canon_first absolute first, ← names_first first] at loop
      rcases loop with ⟨slashed, four⟩ | ⟨cs, shape, more, heads⟩
      · rw [slashed]
        exact canon_slashed named four
      · refine shape.names_ne more (fun same => ?_) same
        obtain ⟨d, mem, le⟩ := heads homeName same
        rw [head?_cons] at mem
        exact of_home (some.inj mem ▸ le)

end Elsewhere

/-! ## Two paths -/

theorem form_of_faithful {path : List UInt8} (right : faithful path = true) : Form path := by
  unfold faithful at right
  split at right
  · next fromHere => exact form_of_home fromHere (bne_iff_ne.mp right)
  · next elsewhere =>
    have absolute := Bool.not_eq_true _ ▸ elsewhere
    split at right
    · next rooted => exact form_of_lib absolute rooted right
    · next unrooted =>
      cases first : (components path).dropWhile (· == dotDot) with
      | nil => rw [first] at right; cases right
      | cons c rest => exact form_elsewhere absolute unrooted first (first ▸ right)

theorem not_canonical {path : List UInt8} (wrong : faithful path = false) (same : file (canon path) = file path) :
    canon (canon path) ≠ canon path := by
  unfold faithful at wrong
  split at wrong
  · rw [bne_eq_false_iff_eq.mp wrong] at same
    exact absurd same (by decide)
  · next elsewhere =>
    have absolute := Bool.not_eq_true _ ▸ elsewhere
    split at wrong
    · next rooted => exact not_canonical_lib absolute rooted wrong
    · next unrooted =>
      cases first : (components path).dropWhile (· == dotDot) with
      | nil => exact canon_root absolute first
      | cons c rest => exact not_right absolute unrooted first (first ▸ wrong) same

theorem text_eq_iff {cs cs' : List (List UInt8)} (areNames : AreNames cs) (areNames' : AreNames cs') :
    text cs = text cs' ↔ cs = cs' :=
  ⟨text_injective areNames.valid.slashes areNames'.valid.slashes, congrArg text⟩

theorem homeName_ne_libName : homeName ≠ libName := by decide

theorem Form.decides {p q : List UInt8} (form : Form p) (form' : Form q) :
    (canon p = canon q ↔ ∃ f, file p = some f ∧ file q = some f) ↔ Comparable p q := by
  cases form with
  | home f file canon areNames kind =>
    cases form' with
    | home g file' canon' areNames' kind' =>
      rw [canon, canon', text_eq_iff areNames.home areNames'.home]
      simp only [List.cons.injEq, true_and, file, file', Comparable, kind, kind', some.injEq]
      simp [eq_comm]
    | elsewhere g file' canon' areNames' nonempty notHome notLib kind' =>
      have differ : homeName :: f ≠ g := fun same => notHome (same ▸ rfl)
      rw [canon, canon', text_eq_iff areNames.home areNames']
      simp [file, file', Comparable, kind, kind', differ]
    | lib file' canon' kind' =>
      rw [canon, canon', text_eq_iff areNames.home (areNames_names _).lib]
      simp [file', Comparable, kind, kind', file, homeName_ne_libName]
  | elsewhere f file canon areNames nonempty notHome notLib kind =>
    cases form' with
    | home g file' canon' areNames' kind' =>
      have differ : f ≠ homeName :: g := fun same => notHome (same ▸ rfl)
      rw [canon, canon', text_eq_iff areNames areNames'.home]
      simp [file, file', Comparable, kind, kind', differ]
    | elsewhere g file' canon' areNames' nonempty' notHome' notLib' kind' =>
      rw [canon, canon', text_eq_iff areNames areNames']
      simp only [file, file', Comparable, kind, kind', some.injEq]
      simp [eq_comm]
    | lib file' canon' kind' =>
      have differ : f ≠ libName :: Fs.names (q.drop 4) := fun same => notLib (same ▸ rfl)
      rw [canon, canon', text_eq_iff areNames (areNames_names _).lib]
      simp [file', Comparable, kind, kind', file, differ]
  | lib file canon kind =>
    cases form' with
    | home g file' canon' areNames' kind' =>
      rw [canon, canon', text_eq_iff (areNames_names _).lib areNames'.home]
      simp [file, file', Comparable, kind, kind', homeName_ne_libName.symm]
    | elsewhere g file' canon' areNames' nonempty' notHome' notLib' kind' =>
      have differ : libName :: Fs.names (p.drop 4) ≠ g := fun same => notLib' (same ▸ rfl)
      rw [canon, canon', text_eq_iff (areNames_names _).lib areNames']
      simp [file, file', Comparable, kind, kind', differ]
    | lib file' canon' kind' =>
      rw [canon, canon', text_eq_iff (areNames_names _).lib (areNames_names _).lib]
      simp [file, file', Comparable, kind, kind']

theorem Form.right {capacity : Nat} {path result : List UInt8} (form : Form path)
    (accepted : canonicalize capacity path = some result) :
    file result = file path ∧ canonicalize capacity result = some result := by
  obtain ⟨same, fits⟩ := canonicalize_eq_some accepted
  obtain ⟨cs, areNames, nonempty, parts⟩ := form.names
  have six : ¬ capacity < 6 := fun small => by
    rw [canonicalize, if_pos small] at accepted
    cases accepted
  rw [same] at fits ⊢
  refine ⟨form.same, ?_⟩
  rw [parts] at fits ⊢
  exact canonicalize_text six areNames nonempty fits

/-- **Canonical paths decide whether two paths name one file** exactly for faithful paths that are comparable. -/
theorem decidesIdentity_iff {capacity : Nat} {p q cp cq : List UInt8} (accepted : canonicalize capacity p = some cp)
    (accepted' : canonicalize capacity q = some cq) :
    DecidesIdentity capacity p q cp cq ↔ faithful p = true ∧ faithful q = true ∧ Comparable p q := by
  obtain ⟨same, fits⟩ := canonicalize_eq_some accepted
  obtain ⟨same', fits'⟩ := canonicalize_eq_some accepted'
  constructor
  · intro right
    have faithful_of {path result : List UInt8} (made : result = canon path) (file_eq : file result = file path)
        (fixed : canonicalize capacity result = some result) : faithful path = true := by
      by_contra wrong
      rw [made] at file_eq fixed
      exact not_canonical (Bool.not_eq_true _ ▸ wrong) file_eq (canonicalize_eq_some fixed).1.symm
    have good := faithful_of same right.same.1 right.idempotent.1
    have good' := faithful_of same' right.same.2 right.idempotent.2
    have decides := right.decides
    rw [same, same'] at decides
    exact ⟨good, good', ((form_of_faithful good).decides (form_of_faithful good')).mp decides⟩
  · rintro ⟨good, good', comparable⟩
    have form := form_of_faithful good
    have form' := form_of_faithful good'
    have right := form.right accepted
    have right' := form'.right accepted'
    refine ⟨?_, ⟨right.1, right'.1⟩, ⟨right.2, right'.2⟩, fits, fits'⟩
    rw [same, same']
    exact (form.decides form').mpr comparable

/-- A relative path and one below `/home` for the same file. -/
theorem decidesIdentity_relative :
    DecidesIdentity 512 (ascii "a/../b/./c") (ascii "/home//b/c") (ascii "/home/b/c") (ascii "/home/b/c") := by
  refine (decidesIdentity_iff (by decide +kernel) (by decide +kernel)).mpr ⟨by decide +kernel, by decide +kernel, ?_, ?_⟩
  · exact fun _ _ _ => by decide +kernel
  · exact fun none _ => absurd none (by decide +kernel)

/-- One step up and down again at the root: the canonical path names another file. -/
theorem up_from_root_stays : canonicalize 512 (ascii "/a/../b") = some (ascii "/a/b") ∧
    ¬ DecidesIdentity 512 (ascii "/a/../b") (ascii "/b") (ascii "/a/b") (ascii "/b") := by
  refine ⟨by decide +kernel, fun right => ?_⟩
  exact absurd right.same.1 (by decide +kernel)

end PhpPico.Fs
