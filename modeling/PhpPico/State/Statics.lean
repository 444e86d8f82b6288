import PhpPico.Proto
import PhpPico.Lib.KeyedStore

/-!
# Static variables

All states share one array of static variables. `static_slot_key` names an entry by the name of its proto and its own;
a proto is named after its function or method, and a closure after its index in the module.
-/

namespace PhpPico
open List

/-! ## Names -/

/-- `is_identifier_start`. -/
def isIdentifierStart (b : UInt8) : Bool :=
  b == 95 || (97 ≤ b && b ≤ 122) || (65 ≤ b && b ≤ 90) || 128 ≤ b

/-- `is_identifier_part`. -/
def isIdentifierPart (b : UInt8) : Bool := isIdentifierStart b || (48 ≤ b && b ≤ 57)

/-- A name the lexer scans; of a variable, less its dollar sign. -/
structure Identifier where
  first : UInt8
  rest : List UInt8
  first_ok : isIdentifierStart first = true
  rest_ok : rest.all isIdentifierPart = true
deriving DecidableEq

def Identifier.bytes (name : Identifier) : List UInt8 := name.first :: name.rest

/-- What a proto is compiled from: `pc_codegen_program`, `compile_function`, `compile_method` or
`compile_closure_expression`. -/
inductive ProtoSource where
  | main
  | function (name : Identifier)
  | method (className name : Identifier)
  | closure
deriving DecidableEq

/-- The name of the proto at an index of its module. -/
def ProtoSource.name (index : Nat) : ProtoSource → List UInt8
  | .main => ascii "\x7bmain\x7d"
  | .function name => name.bytes
  | .method className name => className.bytes ++ ascii "::" ++ name.bytes
  | .closure => ascii "\x7bclosure#" ++ printUnsigned index ++ ascii "\x7d"

/-- `static_slot_key`. -/
def staticSlotKey (functionName localName : List UInt8) : List UInt8 := functionName ++ ascii "::" ++ localName

/-! ## Declarations -/

/-- A proto with its static variables and their initial values. `declaration` tells which function,
method or closure of the program's text it is: a closure in a `finally` body is compiled more than
once. -/
structure StaticProto where
  source : ProtoSource
  declaration : Nat
  statics : List (Identifier × Int)

/-- A static variable of a module. -/
structure StaticPlace where
  module : Nat
  index : Nat
  source : ProtoSource
  declaration : Nat
  name : Identifier
  initial : Int

/-- The static variables of the modules a state has executed, in this run or an earlier one. -/
def StaticPlace.In (modules : List (List StaticProto)) (x : StaticPlace) : Prop :=
  ∃ m, modules[x.module]? = some m ∧ ∃ p, m[x.index]? = some p ∧
    p.source = x.source ∧ p.declaration = x.declaration ∧ (x.name, x.initial) ∈ p.statics

/-- The key of a static variable in `state->statics`. -/
def StaticPlace.key (x : StaticPlace) : List UInt8 := staticSlotKey (x.source.name x.index) x.name.bytes

/-- Whose variable it is. -/
def StaticPlace.owner (x : StaticPlace) : Nat × Identifier := (x.declaration, x.name)

/-- Their protos have one name: both are of top-level code, of functions or methods with one name, or of
closures at one index. -/
def StaticPlace.SameName (x y : StaticPlace) : Prop :=
  match x.source, y.source with
  | .main, .main => True
  | .function name, .function name' => name = name'
  | .method className name, .method className' name' => className = className' ∧ name = name'
  | .closure, .closure => x.index = y.index
  | _, _ => False

/-! ## Keys -/

theorem no_colon_of_part {b : UInt8} (part : isIdentifierPart b = true) : b ≠ 58 := by
  rintro rfl
  cases part

theorem no_brace_of_start {b : UInt8} (start : isIdentifierStart b = true) : b ≠ 123 := by
  rintro rfl
  cases start

theorem Identifier.no_colon (name : Identifier) : 58 ∉ name.bytes := by
  intro colon
  rcases mem_cons.mp colon with first | rest
  · have part : isIdentifierPart name.first = true := by
      rw [isIdentifierPart, name.first_ok, Bool.true_or]
    exact no_colon_of_part part first.symm
  · exact no_colon_of_part (List.all_eq_true.mp name.rest_ok 58 rest) rfl

theorem Identifier.bytes_injective {x y : Identifier} (same : x.bytes = y.bytes) : x = y := by
  obtain ⟨first', rest', _, _⟩ := y
  obtain ⟨rfl, rfl⟩ := cons.inj same
  rfl

/-- What stands behind the last colon is determined. -/
theorem split_at_colon {left left' right right' : List UInt8} (free : 58 ∉ right) (free' : 58 ∉ right')
    (same : left ++ ascii "::" ++ right = left' ++ ascii "::" ++ right') : left = left' ∧ right = right' := by
  have behind : ∀ {l r : List UInt8}, 58 ∉ r → (l ++ ascii "::" ++ r).reverse.takeWhile (· ≠ 58) = r.reverse := by
    intro l r free
    have colons : (ascii "::").reverse = [58, 58] := by decide
    have before : ∀ b ∈ r.reverse, decide (b ≠ 58) = true := by
      intro b hb
      apply decide_eq_true
      rintro rfl
      exact free (mem_reverse.mp hb)
    rw [reverse_append, reverse_append, colons, takeWhile_append_of_pos before, cons_append,
      takeWhile_cons_of_neg (by decide), append_nil]
  have tails : right.reverse = right'.reverse := by
    rw [← behind free, ← behind free', same]
  have rights := reverse_injective tails
  subst rights
  exact ⟨append_cancel_right (append_cancel_right same), rfl⟩

theorem printUnsigned_injective {m n : Nat} (same : printUnsigned m = printUnsigned n) : m = n := by
  have back : ∀ n, (printUnsigned n).map (fun b => Char.ofNat b.toNat) = Nat.toDigits 10 n := by
    intro n
    rw [printUnsigned, List.map_map]
    refine (map_congr_left fun digit listed => ?_).trans (List.map_id _)
    have digit_range := Char.isDigit_iff_toNat.mp (Nat.isDigit_of_mem_toDigits (by decide) (by decide) listed)
    have small : digit.toNat < 256 := digit_range.2.trans_lt (by decide)
    simp only [Function.comp_apply, UInt8.toNat_ofNat', Nat.mod_eq_of_lt small, Char.ofNat_toNat, id_eq]
  have digits : Nat.toDigits 10 m = Nat.toDigits 10 n := by
    rw [← back, ← back, same]
  rw [← Nat.ofDigitChars_toDigits (by decide : 1 < 10) (by decide) (n := m), digits,
    Nat.ofDigitChars_toDigits (by decide) (by decide)]

/-- The compiler has made up the name. -/
def ProtoSource.isMadeUp : ProtoSource → Bool
  | .main | .closure => true
  | .function _ | .method _ _ => false

theorem head_identifier (name : Identifier) (behind : List UInt8) : (name.bytes ++ behind).head? ≠ some 123 := by
  intro brace
  exact no_brace_of_start name.first_ok (Option.some.inj brace)

/-- Names that the compiler makes up start with a brace. -/
theorem ProtoSource.head_name (source : ProtoSource) (index : Nat) :
    (source.name index).head? = some 123 ↔ source.isMadeUp = true := by
  cases source with
  | main =>
    have head : (ascii "\x7bmain\x7d").head? = some 123 := by decide
    exact iff_of_true head rfl
  | function name =>
    refine iff_of_false ?_ nofun
    rw [ProtoSource.name, ← append_nil name.bytes]
    exact head_identifier name []
  | method className name =>
    refine iff_of_false ?_ nofun
    rw [ProtoSource.name, append_assoc]
    exact head_identifier className _
  | closure =>
    refine iff_of_true ?_ rfl
    have opening : ascii "\x7bclosure#" = 123 :: ascii "closure#" := by decide
    rw [ProtoSource.name, opening]
    rfl

theorem madeUp_congr {source source' : ProtoSource} {index index' : Nat}
    (same : source.name index = source'.name index') : source.isMadeUp = source'.isMadeUp := by
  rw [Bool.eq_iff_iff, ← source.head_name index, ← source'.head_name index', same]

/-- Top-level code is not named like a closure. -/
theorem main_ne_closure (index index' : Nat) : ProtoSource.main.name index ≠ ProtoSource.closure.name index' := by
  have main : ascii "\x7bmain\x7d" = 123 :: 109 :: ascii "ain\x7d" := by decide
  have opening : ascii "\x7bclosure#" = 123 :: 99 :: ascii "losure#" := by decide
  rw [ProtoSource.name, ProtoSource.name, main, opening]
  exact nofun

/-- A function is not named like a method. -/
theorem Identifier.ne_qualified (name className methodName : Identifier) :
    name.bytes ≠ className.bytes ++ ascii "::" ++ methodName.bytes := by
  intro same
  apply name.no_colon
  rw [same]
  simp [ascii]

/-- Protos have one name exactly when `SameName` says so. -/
theorem name_eq_iff {x y : StaticPlace} : x.source.name x.index = y.source.name y.index ↔ x.SameName y := by
  unfold StaticPlace.SameName
  cases x.source with
  | main =>
    cases y.source with
    | main => exact iff_of_true rfl trivial
    | closure => exact iff_of_false (main_ne_closure _ _) id
    | function name => exact iff_of_false (fun same => nomatch madeUp_congr same) id
    | method className name => exact iff_of_false (fun same => nomatch madeUp_congr same) id
  | function name =>
    cases y.source with
    | function name' =>
      refine ⟨Identifier.bytes_injective, fun same => ?_⟩
      rw [same]
      rfl
    | method className name' => exact iff_of_false (name.ne_qualified className name') id
    | main => exact iff_of_false (fun same => nomatch madeUp_congr same) id
    | closure => exact iff_of_false (fun same => nomatch madeUp_congr same) id
  | method className name =>
    cases y.source with
    | function name' => exact iff_of_false (name'.ne_qualified className name).symm id
    | method className' name' =>
      constructor
      · intro same
        obtain ⟨classes, names⟩ := split_at_colon name.no_colon name'.no_colon same
        exact ⟨Identifier.bytes_injective classes, Identifier.bytes_injective names⟩
      · rintro ⟨rfl, rfl⟩
        rfl
    | main => exact iff_of_false (fun same => nomatch madeUp_congr same) id
    | closure => exact iff_of_false (fun same => nomatch madeUp_congr same) id
  | closure =>
    cases y.source with
    | main => exact iff_of_false (main_ne_closure _ _).symm id
    | closure =>
      constructor
      · intro same
        exact printUnsigned_injective (append_cancel_left (append_cancel_right same))
      · intro same
        simp only at same
        rw [ProtoSource.name, ProtoSource.name, same]
    | function name => exact iff_of_false (fun same => nomatch madeUp_congr same) id
    | method className name => exact iff_of_false (fun same => nomatch madeUp_congr same) id

/-- Keys are equal for variables of one name in protos of one name. -/
theorem StaticPlace.key_eq_iff {x y : StaticPlace} : x.key = y.key ↔ x.SameName y ∧ x.name = y.name := by
  unfold StaticPlace.key staticSlotKey
  constructor
  · intro same
    obtain ⟨names, locals⟩ := split_at_colon x.name.no_colon y.name.no_colon same
    exact ⟨name_eq_iff.mp names, Identifier.bytes_injective locals⟩
  · rintro ⟨names, locals⟩
    rw [name_eq_iff.mpr names, locals]

/-! ## Runs -/

/-- **Static variables are isolated** exactly if names tell declarations apart: in all runs, each execution of a
declaration finds what the previous one has left, if and only if variables of one name are in protos of one name
exactly when they are of one declaration. -/
theorem statics_isolated_iff (modules : List (List StaticProto)) :
    (∀ events : List (KeyedStore.Event StaticPlace Int), (∀ e ∈ events, e.place.In modules) →
      KeyedStore.run StaticPlace.key StaticPlace.initial (fun _ => none) events =
        KeyedStore.run StaticPlace.owner StaticPlace.initial (fun _ => none) events) ↔
      ∀ x y : StaticPlace, x.In modules → y.In modules → x.name = y.name →
        (x.SameName y ↔ x.declaration = y.declaration) := by
  rw [KeyedStore.run_agree_iff]
  refine forall₄_congr fun x y _ _ => ?_
  rw [StaticPlace.key_eq_iff, StaticPlace.owner, StaticPlace.owner, Prod.mk.injEq]
  exact and_congr_left_iff

/-- Two files with a closure each, both the first proto behind the top-level code: the second closure
goes on where the first one has left off. -/
theorem closures_of_two_files_share : ¬ ∀ (modules : List (List StaticProto))
    (events : List (KeyedStore.Event StaticPlace Int)), (∀ e ∈ events, e.place.In modules) →
      KeyedStore.run StaticPlace.key StaticPlace.initial (fun _ => none) events =
        KeyedStore.run StaticPlace.owner StaticPlace.initial (fun _ => none) events := by
  intro claimed
  let n : Identifier := ⟨110, [], by decide, by decide⟩
  let here : StaticPlace := ⟨0, 1, .closure, 0, n, 0⟩
  let there : StaticPlace := ⟨1, 1, .closure, 1, n, 10⟩
  let modules : List (List StaticProto) :=
    [[⟨.main, 2, []⟩, ⟨.closure, 0, [(n, 0)]⟩], [⟨.main, 3, []⟩, ⟨.closure, 1, [(n, 10)]⟩]]
  have here_in : here.In modules := ⟨_, rfl, _, rfl, rfl, rfl, mem_singleton_self _⟩
  have there_in : there.In modules := ⟨_, rfl, _, rfl, rfl, rfl, mem_singleton_self _⟩
  have seen := claimed modules [.enter here, .write here 1, .enter there] (by
    intro e he
    rcases mem_cons.mp he with rfl | he
    · exact here_in
    rcases mem_cons.mp he with rfl | he
    · exact here_in
    · rw [mem_singleton.mp he]
      exact there_in)
  have shared : here.key = there.key := rfl
  have apart : here.owner ≠ there.owner := by decide
  rw [KeyedStore.enter_write_enter, KeyedStore.enter_write_enter, if_pos shared, if_neg apart] at seen
  cases seen

end PhpPico
