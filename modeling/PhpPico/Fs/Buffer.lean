import PhpPico.Fs.Canonicalize

/-!
# The buffer of the canonical path

The buffer holds components with a slash before each, perhaps with one behind that makes it five bytes. Going up is
right where the path so far is empty or has at least four bytes left; after a wrong step up there are too many
components for good, unless they begin with `/home`.
-/

namespace PhpPico.Fs
open List

def homeName : List UInt8 := ascii "home"
def libName : List UInt8 := ascii "lib"

theorem home_eq : home = text [homeName] := rfl

/-! ## The buffer -/

/-- The components in the buffer. -/
def Shape (resolved : List UInt8) (cs : List (List UInt8)) : Prop :=
  Valid cs ∧ (resolved = text cs ∨ resolved = text cs ++ [slash] ∧ (text cs).length = 4)

variable {cs es S R : List (List UInt8)} {c resolved : List UInt8} {behind : Bool}

theorem Valid.append {cs' : List (List UInt8)} (valid : Valid cs) (valid' : Valid cs') : Valid (cs ++ cs') :=
  fun c mem => (mem_append.mp mem).elim (valid c) (valid' c)

theorem Valid.slashes (valid : Valid cs) : ∀ c ∈ cs, slash ∉ c := fun c mem => (valid c mem).2

theorem Valid.single (valid : c ≠ [] ∧ slash ∉ c) : Valid [c] :=
  fun _ mem => (mem_singleton.mp mem) ▸ valid

theorem AreNames.valid (areNames : AreNames cs) : Valid cs :=
  fun c mem => ⟨(areNames c mem).1, (areNames c mem).2.1⟩

theorem text_concat (cs : List (List UInt8)) (c : List UInt8) : text (cs ++ [c]) = text cs ++ slash :: c := by
  rw [text_append, text_cons, text_nil, append_nil]

theorem getLast?_text (valid : Valid cs) : (text cs).getLast? ≠ some slash := by
  rcases eq_nil_or_concat cs with rfl | ⟨init, c, rfl⟩
  · exact fun c => by cases c
  · obtain ⟨nonempty, plain⟩ := valid c (by simp)
    rw [concat_eq_append, text_concat, getLast?_append_cons, getLast?_cons]
    cases last : c.getLast? with
    | none => exact absurd (getLast?_eq_none_iff.mp last) nonempty
    | some x =>
      intro same
      rw [Option.getD_some] at same
      exact plain (mem_of_getLast? (last.trans same))

theorem Shape.goDown {resolved : List UInt8} {cs : List (List UInt8)} (shape : Shape resolved cs) (c : List UInt8) :
    goDown resolved c = text (cs ++ [c]) := by
  unfold Fs.goDown
  rcases shape.2 with rfl | ⟨rfl, -⟩
  · rw [if_neg (getLast?_text shape.1), text_concat, append_assoc, singleton_append]
  · rw [if_pos (by rw [getLast?_append, getLast?_singleton, Option.some_or]), text_concat, append_assoc,
      singleton_append]

theorem backToSlash_eq {before : List UInt8} (plain : slash ∉ c) {n : Nat} (five : 5 ≤ n)
    (behind : before.length + 1 ≤ n) (inside : n ≤ before.length + 1 + c.length) :
    backToSlash (before ++ slash :: c) n = max (before.length + 1) 5 := by
  induction n with
  | zero => omega
  | succ n ih =>
    unfold backToSlash
    by_cases at_slash : n = before.length
    · rw [if_neg (by simp [at_slash])]
      omega
    · have other : (before ++ slash :: c)[n]? ≠ some slash := by
        rw [getElem?_append_right (by omega), getElem?_cons, if_neg (by omega)]
        exact fun at_n => plain (mem_of_getElem? at_n)
      by_cases more : 5 < n + 1
      · rw [if_pos ⟨more, other⟩]
        exact ih (by omega) (by omega) (by omega)
      · rw [if_neg fun c => more c.1]
        omega

/-- Going up takes the last component, if that leaves five bytes; otherwise five bytes are left. -/
theorem goUp_text (plain : slash ∉ c) : goUp (text (cs ++ [c])) =
      if 5 ≤ (text cs).length then text cs else text cs ++ slash :: c.take (4 - (text cs).length) := by
  rw [text_concat]
  generalize text cs = before
  have length : (before ++ slash :: c).length = before.length + 1 + c.length := by
    rw [length_append, length_cons]; omega
  unfold goUp
  by_cases long : 5 < (before ++ slash :: c).length
  · dsimp only
    rw [if_pos long, backToSlash_eq plain (by omega) (by omega) (by omega)]
    by_cases parent : 5 ≤ before.length
    · rw [if_pos parent, if_pos (by omega), show max (before.length + 1) 5 - 1 = before.length by omega, take_left]
    · rw [if_neg parent, if_neg (by omega), show max (before.length + 1) 5 = before.length + (4 - before.length + 1) by omega,
        take_length_add_append, take_succ_cons]
  · rw [if_neg long, if_neg (by omega), take_of_length_le (by omega)]

theorem goUp_short (short : resolved.length ≤ 5) : goUp resolved = resolved :=
  if_neg (by omega)

theorem length_text_pos (valid : Valid cs) (nonempty : cs ≠ []) : 2 ≤ (text cs).length := by
  cases cs with
  | nil => exact absurd rfl nonempty
  | cons c rest =>
    have pos := length_pos_iff.mpr (valid c (.head _)).1
    rw [text_cons, length_cons, length_append]
    omega

theorem Valid.take (valid : c ≠ [] ∧ slash ∉ c) {n : Nat} (pos : n ≠ 0) : c.take n ≠ [] ∧ slash ∉ c.take n :=
  ⟨fun none => (take_eq_nil_iff.mp none).elim pos valid.1, fun mem => valid.2 (mem_of_mem_take mem)⟩

/-- What going up leaves: as many components, or one less if some are left. -/
theorem Shape.goUp {resolved : List UInt8} {cs : List (List UInt8)} (shape : Shape resolved cs) :
    ∃ cs', Shape (goUp resolved) cs' ∧ cs'.length ≤ cs.length ∧ cs.length ≤ cs'.length + 1 ∧ (cs ≠ [] → cs' ≠ []) ∧
      ∀ c ∈ cs'.head?, ∃ d ∈ cs.head?, c <+: d := by
  by_cases short : resolved.length ≤ 5
  · rw [goUp_short short]
    exact ⟨cs, shape, le_rfl, Nat.le_succ _, id, fun c mem => ⟨c, mem, prefix_rfl⟩⟩
  · obtain ⟨valid, rfl | ⟨rfl, four⟩⟩ := shape
    · rcases eq_nil_or_concat cs with rfl | ⟨init, c, rfl⟩
      · exact absurd (Nat.zero_le 5) short
      · rw [concat_eq_append] at *
        have plain := valid c (by simp)
        have valid' : Valid init := fun d mem => valid d (mem_append_left _ mem)
        have heads (d : List UInt8) (mem : d ∈ init.head?) : ∃ d' ∈ (init ++ [c]).head?, d <+: d' :=
          ⟨d, by rw [head?_append, Option.mem_def.mp mem]; rfl, prefix_rfl⟩
        rw [goUp_text plain.2]
        by_cases parent : 5 ≤ (text init).length
        · rw [if_pos parent]
          refine ⟨init, ⟨valid', .inl rfl⟩, by simp, by simp, fun _ none => ?_, heads⟩
          rw [none, text_nil] at parent
          exact absurd parent (by decide)
        · rw [if_neg parent]
          by_cases four : (text init).length = 4
          · rw [four, Nat.sub_self, take_zero]
            refine ⟨init, ⟨valid', .inr ⟨rfl, four⟩⟩, by simp, by simp, fun _ none => ?_, heads⟩
            rw [none, text_nil] at four
            exact absurd four (by decide)
          · have cut := Valid.take plain (show 4 - (text init).length ≠ 0 by omega)
            refine ⟨init ++ [c.take (4 - (text init).length)], ⟨valid'.append (.single cut), .inl (text_concat _ _).symm⟩,
              by simp, by simp, fun _ => by simp, fun d mem => ?_⟩
            rw [head?_append] at mem ⊢
            cases first : init.head? with
            | none =>
              rw [first] at mem
              exact ⟨c, rfl, Option.some.inj mem ▸ take_prefix _ _⟩
            | some e =>
              rw [first] at mem
              exact ⟨d, mem, prefix_rfl⟩
    · rw [length_append, length_singleton] at short
      omega

/-- The components in the buffer are told by it. -/
theorem Shape.unique {cs' : List (List UInt8)} (shape : Shape resolved cs)
    (shape' : Shape resolved cs') : cs = cs' := by
  have parts {ds : List (List UInt8)} (s : Shape resolved ds) : (resolved.splitOn slash).filter (· ≠ []) = ds := by
    have all : ds.filter (· ≠ []) = ds := filter_eq_self.mpr fun c mem => decide_eq_true (s.1 c mem).1
    rcases s.2 with e | ⟨e, -⟩
    · rw [e, splitOn_text s.1.slashes, filter_cons, if_neg (by simp), all]
    · rw [e, splitOn_append_cons_self, splitOn_text s.1.slashes, splitOn_nil, filter_append,
        filter_cons, if_neg (by simp), all]
      simp
  rw [← parts shape, parts shape']

/-! ## Steps up that go wrong -/

theorem advance_dotDot (resolved : List UInt8) : advance resolved dotDot = goUp resolved := if_pos rfl

theorem advance_name (name : c ≠ dotDot) : advance resolved c = goDown resolved c := if_neg name

theorem visit_dotDot (S : List (List UInt8)) : visit S dotDot = S.dropLast := if_pos rfl

theorem visit_name (S : List (List UInt8)) (name : c ≠ dotDot) : visit S c = S ++ [c] := if_neg name

/-- Only names make the components more. -/
theorem Shape.count (shape : Shape resolved cs) (valid : Valid es) :
    ∃ cs', Shape (es.foldl advance resolved) cs' ∧ cs'.length ≤ cs.length + (es.filter (· ≠ dotDot)).length := by
  induction es generalizing resolved cs with
  | nil => exact ⟨cs, shape, Nat.le_add_right _ _⟩
  | cons e rest ih =>
    obtain ⟨valid_e, valid_rest⟩ := forall_mem_cons.mp valid
    rw [foldl_cons, filter_cons]
    by_cases up : e = dotDot
    · rw [up, advance_dotDot, if_neg (by simp)]
      obtain ⟨cs', shape', le, -⟩ := shape.goUp
      obtain ⟨cs'', shape'', le'⟩ := ih shape' valid_rest
      exact ⟨cs'', shape'', by omega⟩
    · rw [advance_name up, shape.goDown, if_pos (decide_eq_true up)]
      obtain ⟨cs', shape', le⟩ := ih ⟨shape.1.append (.single valid_e), .inl rfl⟩ valid_rest
      rw [length_append, length_singleton] at le
      exact ⟨cs', shape', by rw [length_cons]; omega⟩

theorem Shape.too_many (shape : Shape resolved cs) (valid : Valid es) (more : S.length < cs.length) :
    ∃ cs', Shape (es.foldl advance resolved) cs' ∧ (es.foldl visit S).length < cs'.length ∧
      ∀ c ∈ cs'.head?, ∃ d ∈ cs.head?, c <+: d := by
  induction es generalizing resolved cs S with
  | nil => exact ⟨cs, shape, more, fun c mem => ⟨c, mem, prefix_rfl⟩⟩
  | cons e rest ih =>
    obtain ⟨valid_e, valid_rest⟩ := forall_mem_cons.mp valid
    rw [foldl_cons, foldl_cons]
    by_cases up : e = dotDot
    · rw [up, advance_dotDot, visit_dotDot]
      obtain ⟨cs', shape', -, le, nonempty, heads⟩ := shape.goUp
      have pos : cs'.length ≠ 0 := fun none => nonempty (length_pos_iff.mp (by omega)) (length_eq_zero_iff.mp none)
      have less : S.dropLast.length < cs'.length := by
        rw [length_dropLast]
        omega
      obtain ⟨cs'', shape'', more', heads'⟩ := ih shape' valid_rest less
      refine ⟨cs'', shape'', more', fun c mem => ?_⟩
      obtain ⟨d, mem', le⟩ := heads' c mem
      obtain ⟨d', mem'', le'⟩ := heads d mem'
      exact ⟨d', mem'', le.trans le'⟩
    · rw [advance_name up, visit_name _ up, shape.goDown]
      have shape' : Shape (text (cs ++ [e])) (cs ++ [e]) := ⟨shape.1.append (.single valid_e), .inl rfl⟩
      have more' : (S ++ [e]).length < (cs ++ [e]).length := by simpa using more
      obtain ⟨cs'', shape'', more'', heads'⟩ := ih shape' valid_rest more'
      refine ⟨cs'', shape'', more'', fun c mem => ?_⟩
      obtain ⟨d, mem', le⟩ := heads' c mem
      rw [head?_append_of_ne_nil _ (length_pos_iff.mp (lt_of_le_of_lt (Nat.zero_le _) more))] at mem'
      exact ⟨d, mem', le⟩

/-- Every step up leaves at least four bytes, and no slash is left behind the last name; `behind` tells
whether there is one now. -/
def keeps (S : List (List UInt8)) (behind : Bool) : List (List UInt8) → Bool
  | [] => !behind
  | e :: rest =>
    if e = dotDot then
      decide (4 ≤ (text S.dropLast).length) && keeps S.dropLast ((text S.dropLast).length == 4) rest
    else keeps (S ++ [e]) false rest

/-- The buffer of names, with or without a slash behind. -/
def buffer (S : List (List UInt8)) (behind : Bool) : List UInt8 := if behind then text S ++ [slash] else text S

theorem shape_buffer (valid : Valid S) (four : behind = true → (text S).length = 4) : Shape (buffer S behind) S := by
  cases behind with
  | false => exact ⟨valid, .inl rfl⟩
  | true => exact ⟨valid, .inr ⟨rfl, four rfl⟩⟩

theorem goUp_buffer (valid : Valid S) (nonempty : S ≠ []) (four : behind = true → (text S).length = 4)
    (enough : 4 ≤ (text S.dropLast).length) :
    goUp (buffer S behind) = buffer S.dropLast ((text S.dropLast).length == 4) := by
  obtain ⟨init, c, rfl⟩ := (eq_nil_or_concat S).resolve_left nonempty
  rw [concat_eq_append, dropLast_concat] at *
  have plain := valid c (by simp)
  cases behind with
  | true =>
    have length := four rfl
    rw [text_concat, length_append, length_cons] at length
    omega
  | false =>
    rw [buffer, if_neg Bool.false_ne_true, goUp_text plain.2, buffer]
    by_cases parent : 5 ≤ (text init).length
    · rw [if_pos parent, if_neg (by rw [beq_iff_eq]; omega)]
    · have length : (text init).length = 4 := by omega
      rw [if_neg parent, length, Nat.sub_self, take_zero]
      rfl

theorem goUp_buffer_wrong (valid : Valid S) (nonempty : S ≠ []) (four : behind = true → (text S).length = 4)
    (less : ¬ 4 ≤ (text S.dropLast).length) : ∃ cs, Shape (goUp (buffer S behind)) cs ∧ S.dropLast.length < cs.length ∧
      ∀ c ∈ cs.head?, ∃ d ∈ S.head?, c <+: d := by
  obtain ⟨init, c, rfl⟩ := (eq_nil_or_concat S).resolve_left nonempty
  rw [concat_eq_append, dropLast_concat] at *
  have plain := valid c (by simp)
  cases behind with
  | true =>
    have length : (buffer (init ++ [c]) true).length ≤ 5 := by
      rw [buffer, if_pos rfl, length_append, four rfl]
      rfl
    rw [goUp_short length]
    exact ⟨_, shape_buffer valid four, by simp, fun d mem => ⟨d, mem, prefix_rfl⟩⟩
  | false =>
    have cut := Valid.take plain (show 4 - (text init).length ≠ 0 by omega)
    have valid' : Valid init := fun d mem => valid d (mem_append_left _ mem)
    rw [buffer, if_neg Bool.false_ne_true, goUp_text plain.2, if_neg (by omega), ← text_concat]
    refine ⟨_, ⟨valid'.append (.single cut), .inl rfl⟩, by simp, fun d mem => ?_⟩
    rw [head?_append] at mem ⊢
    cases first : init.head? with
    | none =>
      rw [first] at mem
      exact ⟨c, rfl, Option.some.inj mem ▸ take_prefix _ _⟩
    | some e =>
      rw [first] at mem
      exact ⟨d, mem, prefix_rfl⟩

theorem Valid.dropLast (valid : Valid S) : Valid S.dropLast :=
  fun c mem => valid c ((dropLast_sublist S).subset mem)

theorem head?_dropLast (more : S.dropLast ≠ []) : S.dropLast.head? = S.head? := by
  cases S with
  | nil => rfl
  | cons first others =>
    cases others with
    | nil => exact absurd rfl more
    | cons => rfl

theorem ne_nil_of_text (enough : 4 ≤ (text S).length) : S ≠ [] := fun none => by
  rw [none] at enough
  exact absurd enough (by decide)

/-- **Where all steps up are right** the buffer has the names of the file, and the first name stays. -/
theorem foldl_advance_of_keeps (valid : Valid S) (nonempty : S ≠ [])
    (four : behind = true → (text S).length = 4) (valid_es : Valid es) (right : keeps S behind es = true) :
    es.foldl advance (buffer S behind) = text (es.foldl visit S) ∧ (es.foldl visit S).head? = S.head? := by
  induction es generalizing S behind with
  | nil =>
    cases behind with
    | false => exact ⟨rfl, rfl⟩
    | true => cases right
  | cons e rest ih =>
    obtain ⟨valid_e, valid_rest⟩ := forall_mem_cons.mp valid_es
    rw [foldl_cons, foldl_cons]
    by_cases up : e = dotDot
    · rw [keeps, if_pos up, Bool.and_eq_true, decide_eq_true_eq] at right
      have more := ne_nil_of_text right.1
      rw [up, advance_dotDot, visit_dotDot, goUp_buffer valid nonempty four right.1, ← head?_dropLast more]
      exact ih valid.dropLast more (fun c => beq_iff_eq.mp c) valid_rest right.2
    · rw [keeps, if_neg up] at right
      have head : S.head? = (S ++ [e]).head? := (head?_append_of_ne_nil S nonempty).symm
      rw [advance_name up, visit_name _ up, (shape_buffer valid four).goDown, head]
      have next := ih (valid.append (.single valid_e)) (by simp) (fun c => by cases c) valid_rest right
      exact next

theorem foldl_advance_of_not_keeps (valid : Valid S) (nonempty : S ≠ [])
    (four : behind = true → (text S).length = 4) (valid_es : Valid es) (wrong : keeps S behind es = false) :
    es.foldl advance (buffer S behind) = text (es.foldl visit S) ++ [slash] ∧ (text (es.foldl visit S)).length = 4 ∨
      ∃ cs, Shape (es.foldl advance (buffer S behind)) cs ∧ (es.foldl visit S).length < cs.length ∧
        ∀ c ∈ cs.head?, ∃ d ∈ S.head?, c <+: d := by
  induction es generalizing S behind with
  | nil =>
    cases behind with
    | false => cases wrong
    | true => exact .inl ⟨rfl, four rfl⟩
  | cons e rest ih =>
    obtain ⟨valid_e, valid_rest⟩ := forall_mem_cons.mp valid_es
    rw [foldl_cons, foldl_cons]
    by_cases up : e = dotDot
    · rw [keeps, if_pos up] at wrong
      rw [up, advance_dotDot, visit_dotDot]
      by_cases enough : 4 ≤ (text S.dropLast).length
      · rw [decide_eq_true enough, Bool.true_and] at wrong
        rw [goUp_buffer valid nonempty four enough]
        rw [← head?_dropLast (ne_nil_of_text enough)]
        exact ih valid.dropLast (ne_nil_of_text enough) (fun c => beq_iff_eq.mp c) valid_rest wrong
      · obtain ⟨cs, shape, more, heads⟩ := goUp_buffer_wrong valid nonempty four enough
        obtain ⟨cs', shape', more', heads'⟩ := shape.too_many valid_rest more
        refine .inr ⟨cs', shape', more', fun c mem => ?_⟩
        obtain ⟨d, mem', le⟩ := heads' c mem
        obtain ⟨d', mem'', le'⟩ := heads d mem'
        exact ⟨d', mem'', le.trans le'⟩
    · rw [keeps, if_neg up] at wrong
      rw [advance_name up, visit_name _ up, (shape_buffer valid four).goDown]
      have head_same : (S ++ [e]).head? = S.head? := head?_append_of_ne_nil _ nonempty
      have next := ih (valid.append (.single valid_e)) (by simp) (fun c => by cases c) valid_rest wrong
      rw [head_same] at next
      exact next

/-! ## Steps up that reach the root -/

/-- The names have been empty on the way. -/
def returns (S : List (List UInt8)) : List (List UInt8) → Bool
  | [] => S.isEmpty
  | e :: rest => S.isEmpty || returns (visit S e) rest

theorem foldl_advance_home (valid : Valid R) (valid_es : Valid es) :
    es.foldl advance (text (homeName :: R)) = text (homeName :: es.foldl visit R) := by
  induction es generalizing R with
  | nil => rfl
  | cons e rest ih =>
    obtain ⟨valid_e, valid_rest⟩ := forall_mem_cons.mp valid_es
    have named : Valid [homeName] := .single (by decide)
    rw [foldl_cons, foldl_cons]
    by_cases up : e = dotDot
    · rw [up, advance_dotDot, visit_dotDot, ← ih valid.dropLast valid_rest]
      rcases eq_nil_or_concat R with rfl | ⟨init, c, rfl⟩
      · rfl
      · rw [concat_eq_append, dropLast_concat, ← cons_append, goUp_text (valid c (by simp)).2, if_pos]
        have length : (text [homeName]).length = 5 := rfl
        rw [← singleton_append, text_append, length_append]
        omega
    · have shape : Shape (text (homeName :: R)) (homeName :: R) := ⟨named.append valid, .inl rfl⟩
      rw [advance_name up, visit_name _ up, shape.goDown]
      exact ih (valid.append (.single valid_e)) valid_rest

theorem length_text_of_home (of_home : homeName <+: c) (R : List (List UInt8)) : 5 ≤ (text (c :: R)).length := by
  have le := of_home.length_le
  have four : homeName.length = 4 := rfl
  rw [text_cons, length_cons, length_append]
  omega

/-- A first name that begins with `home` and is left for the root is `/home` from then on. -/
theorem foldl_advance_of_returns (of_home : homeName <+: c) (valid : Valid (c :: R)) (valid_es : Valid es)
    (back : returns (c :: R) es = true) :
    es.foldl advance (text (c :: R)) = text (homeName :: es.foldl visit (c :: R)) := by
  induction es generalizing R with
  | nil => cases back
  | cons e rest ih =>
    obtain ⟨valid_e, valid_rest⟩ := forall_mem_cons.mp valid_es
    rw [returns, isEmpty_cons, Bool.false_or] at back
    rw [foldl_cons, foldl_cons]
    by_cases up : e = dotDot
    · rw [up, advance_dotDot, visit_dotDot]
      rw [up, visit_dotDot] at back
      rcases eq_nil_or_concat R with rfl | ⟨init, d, rfl⟩
      · have cut : goUp (text [c]) = text [homeName] := by
          rw [show [c] = [] ++ [c] from rfl, goUp_text (valid c mem_cons_self).2, if_neg (by decide)]
          rw [show c.take (4 - (text []).length) = homeName from (prefix_iff_eq_take.mp of_home).symm]
          rfl
        rw [cut, dropLast_singleton]
        exact foldl_advance_home (fun _ mem => absurd mem not_mem_nil) valid_rest
      · have last : (c :: init.concat d).dropLast = c :: init := by
          rw [concat_eq_append, ← cons_append, dropLast_concat]
        have valid' := valid.dropLast
        rw [last] at back valid' ⊢
        rw [concat_eq_append, ← cons_append, goUp_text (valid d (by simp)).2, if_pos (length_text_of_home of_home init)]
        exact ih valid' valid_rest back
    · have shape : Shape (text (c :: R)) (c :: R) := ⟨valid, .inl rfl⟩
      rw [visit_name _ up] at back ⊢
      rw [advance_name up, shape.goDown]
      exact ih (valid.append (.single valid_e)) valid_rest back

/-- Where it is never left for the root, every step up leaves it. -/
theorem keeps_of_not_returns (of_home : homeName <+: c)
    (stays : returns (c :: R) es = false) : keeps (c :: R) false es = true ∧ ∃ R', es.foldl visit (c :: R) = c :: R' := by
  induction es generalizing R with
  | nil => exact ⟨rfl, R, rfl⟩
  | cons e rest ih =>
    rw [returns, isEmpty_cons, Bool.false_or] at stays
    rw [foldl_cons, keeps]
    by_cases up : e = dotDot
    · rw [up, visit_dotDot] at stays ⊢
      rcases eq_nil_or_concat R with rfl | ⟨init, d, rfl⟩
      · cases rest <;> cases stays
      · have last : (c :: init.concat d).dropLast = c :: init := by
          rw [concat_eq_append, ← cons_append, dropLast_concat]
        have long := length_text_of_home of_home init
        rw [last] at stays ⊢
        have not_four : ((text (c :: init)).length == 4) = false := by
          rw [beq_eq_false_iff_ne]
          omega
        rw [if_pos rfl, not_four, decide_eq_true (by omega), Bool.true_and]
        exact ih stays
    · rw [visit_name _ up] at stays ⊢
      rw [if_neg up]
      exact ih stays

/-! ## Below `/lib` -/

/-- The buffer below `/lib`: a slash stays behind it where a name has been gone down and up again. -/
def libBuffer (R : List (List UInt8)) (touched : Bool) : List UInt8 :=
  if R = [] ∧ touched = true then text [libName] ++ [slash] else text (libName :: R)

theorem foldl_advance_lib {touched : Bool} (valid : Valid R) (valid_es : Valid es) (touch : R ≠ [] → touched = true) :
    es.foldl advance (libBuffer R touched) = libBuffer (es.foldl visit R) (touched || es.any (· != dotDot)) := by
  have named : Valid [libName] := .single (by decide)
  induction es generalizing R touched with
  | nil => rw [foldl_nil, foldl_nil, any_nil, Bool.or_false]
  | cons e rest ih =>
    obtain ⟨valid_e, valid_rest⟩ := forall_mem_cons.mp valid_es
    rw [foldl_cons, foldl_cons, any_cons, ← Bool.or_assoc]
    by_cases up : e = dotDot
    · have same : (touched || e != dotDot) = touched := by rw [up, bne_self_eq_false, Bool.or_false]
      rw [same, up, advance_dotDot, visit_dotDot]
      rcases eq_nil_or_concat R with rfl | ⟨init, c, rfl⟩
      · have stuck : goUp (libBuffer [] touched) = libBuffer [] touched := by cases touched <;> rfl
        rw [stuck]
        exact ih valid valid_rest touch
      · have touched' := touch (by simp)
        have valid' : Valid init := fun d mem => valid d (by rw [concat_eq_append]; exact mem_append_left _ mem)
        have up_one : goUp (libBuffer (init.concat c) touched) = libBuffer init touched := by
          rw [libBuffer, if_neg (by simp), concat_eq_append, ← cons_append, goUp_text (valid c (by simp)).2]
          cases init with
          | nil =>
            rw [touched']
            rfl
          | cons d others =>
            have pos := length_text_pos valid' (by simp)
            rw [if_pos, libBuffer, if_neg (by simp)]
            rw [← singleton_append, text_append, length_append, show (text [libName]).length = 4 from rfl]
            omega
        rw [up_one, concat_eq_append, dropLast_concat]
        exact ih valid' valid_rest fun _ => touched'
    · have shape : Shape (libBuffer R touched) (libName :: R) := by
        unfold libBuffer
        split
        · next empty =>
          rw [empty.1]
          exact ⟨named, .inr ⟨rfl, rfl⟩⟩
        · exact ⟨named.append valid, .inl rfl⟩
      have next := ih (valid.append (.single valid_e)) valid_rest fun _ => (rfl : true = true)
      have touched' : (touched || e != dotDot) = true := by rw [bne_iff_ne.mpr up, Bool.or_true]
      rw [touched', advance_name up, visit_name _ up, shape.goDown]
      rw [libBuffer, if_neg (by simp)] at next
      exact next

end PhpPico.Fs
