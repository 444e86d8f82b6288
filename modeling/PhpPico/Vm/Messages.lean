import PhpPico.Vm.Errors

/-!
# The messages of internal errors

A failing operation writes a message that may include names of the program, and `convert_runtime_error` finds the
class of the exception by phrases in it. The formats below are those of `pphp_runtime_error`,
`raise_declared_type_error` and `pphp_raise` that print a name or a string; all others are fixed.
-/

namespace PhpPico
open List

/-! ## Formats -/

/-- A piece of a format: fixed text, or a `%.*s` or `%s` for a name or string of the program. -/
inductive Piece where
  | text (bytes : List UInt8)
  | name
deriving DecidableEq, Repr

/-- The formatted text; `names` are the strings for the places from the `n`-th on. -/
def formatted (names : Nat → List UInt8) : Nat → List Piece → List UInt8
  | _, [] => []
  | n, .text bytes :: rest => bytes ++ formatted names n rest
  | n, .name :: rest => printed (names n) ++ formatted names (n + 1) rest

/-- The text before the first name. -/
def leading : List Piece → List UInt8
  | .text bytes :: rest => bytes ++ leading rest
  | _ => []

/-- A format with a place for a name. -/
def hasName (pieces : List Piece) : Bool := pieces.contains .name

theorem formatted_eq_of_not_hasName {pieces : List Piece} (fixed : hasName pieces = false)
    (names names' : Nat → List UInt8) (n : Nat) : formatted names n pieces = formatted names' n pieces := by
  induction pieces with
  | nil => rfl
  | cons piece rest ih =>
    cases piece with
    | text bytes =>
      have later : hasName rest = false := by simpa [hasName] using fixed
      rw [formatted, formatted, ih later]
    | name => simp [hasName] at fixed

theorem formatted_of_hasName {pieces : List Piece} (has_name : hasName pieces = true) (names : Nat → List UInt8)
    (n : Nat) : ∃ rest, formatted names n pieces = leading pieces ++ (printed (names n) ++ rest) := by
  induction pieces with
  | nil => simp [hasName] at has_name
  | cons piece rest ih =>
    cases piece with
    | text bytes =>
      have later : hasName rest = true := by simpa [hasName] using has_name
      obtain ⟨behind, eq⟩ := ih later
      exact ⟨behind, by rw [formatted, leading, eq, append_assoc]⟩
    | name => exact ⟨formatted names (n + 1) rest, rfl⟩

/-! ## Phrases -/

theorem psContainsCstr_iff (text phrase : List UInt8) : psContainsCstr text phrase = true ↔ phrase <:+: text := by
  induction text with
  | nil => simp [psContainsCstr]
  | cons byte rest ih =>
    rw [psContainsCstr, Bool.or_eq_true, ih, isPrefixOf_iff_prefix, infix_cons_iff]

theorem infix_of_append_replicate {phrase text : List UInt8} {byte : UInt8} {n : Nat} (free : byte ∉ phrase)
    (found : phrase <:+: text ++ replicate n byte) : phrase <:+: text := by
  obtain ⟨before, after, eq⟩ := found
  rcases append_eq_append_iff.mp eq with ⟨gap, here, -⟩ | ⟨over', ends, repeated⟩
  · exact ⟨before, gap, here.symm⟩
  · by_cases none_over : over' = []
    · rw [none_over, append_nil] at ends
      exact ⟨before, [], by rw [append_nil, ends]⟩
    · by_cases empty : phrase = []
      · rw [empty]
        exact nil_infix
      · -- The last byte of the phrase would be one of the repetitions.
        have last : phrase.getLast empty = over'.getLast none_over := by
          have both := congrArg List.getLast? ends
          rw [getLast?_append_of_ne_nil _ empty, getLast?_append_of_ne_nil _ none_over,
            getLast?_eq_getLast_of_ne_nil empty, getLast?_eq_getLast_of_ne_nil none_over] at both
          exact Option.some.inj both
        have is_byte : over'.getLast none_over = byte := by
          apply eq_of_mem_replicate (n := n)
          rw [repeated]
          exact mem_append_left _ (getLast_mem none_over)
        exact absurd (is_byte ▸ last ▸ getLast_mem empty) free

/-- The text makes the exception one for a division by zero. -/
def divides (text : List UInt8) : Bool :=
  psContainsCstr text (ascii "Division by zero") || psContainsCstr text (ascii "Modulo by zero")

theorem divides_iff (text : List UInt8) : divides text = true ↔
    ascii "Division by zero" <:+: text ∨ ascii "Modulo by zero" <:+: text := by
  rw [divides, Bool.or_eq_true, psContainsCstr_iff, psContainsCstr_iff]

theorem divides_of_infix {text longer : List UInt8} (found : divides text = true) (part : text <:+: longer) :
    divides longer = true := by
  rw [divides_iff] at found ⊢
  exact found.imp (·.trans part) (·.trans part)

theorem classForError_division (text : List UInt8) :
    classForError [] text = ascii "DivisionByZeroError" ↔ divides text = true := by
  unfold classForError divides
  rw [if_neg (not_not_intro rfl)]
  constructor
  · intro eq
    by_contra no
    rw [if_neg no] at eq
    split at eq
    · exact absurd eq (by decide +kernel)
    · split at eq
      · exact absurd eq (by decide +kernel)
      · split at eq
        · exact absurd eq (by decide +kernel)
        · exact absurd eq (by decide +kernel)
  · intro yes
    rw [if_pos yes]

/-! ## Errors -/

/-- What the parser or the code generator has found, a text in a buffer of 192 bytes. -/
abbrev Reason := { text : List UInt8 // text.length < 192 }

/-- The internal errors. -/
inductive InternalError where
  /-- `pphp_runtime_error` with a text that names nothing of the program. -/
  | plain (text : List UInt8)
  /-- `pphp_raise`. -/
  | raised (className text : List UInt8)
  /-- What a nested execution leaves: class, message and file of an exception. -/
  | uncaught (line : Nat)
  | undefinedFunction
  | tooFewFunctionArguments (required given : Nat)
  | undefinedMethod
  | nonPublicMethod
  | tooFewMethodArguments (required given : Nat)
  | tooFewStaticMethodArguments
  | classNotFound
  | undefinedStaticMethod
  | cannotInstantiate
  | noConstructor
  | mustImplement
  | undefinedConstant
  | functionDefined
  | cannotRegisterFunction
  | cannotImplement
  | constantDefined
  | undefinedProperty
  | nonPublicProperty
  | readonlyProperty
  | uninitializedProperty
  | undefinedStaticProperty
  | nonPublicStaticProperty
  | readonlyStaticProperty
  | uninitializedStaticProperty
  | undefinedClassConstant
  | requiredFile
  | notValidPbc
  | parseError (reason : Reason)
  | compileError (reason : Reason)
  | compilerDisabled
  | readingFile
  | assignedType (given : List UInt8)
  | argumentType (position : Nat) (given : List UInt8)
  | returnType (given : List UInt8)
deriving DecidableEq, Repr

namespace InternalError

/-- The format of the message. -/
def format : InternalError → List Piece
  | plain text => [.text text]
  | raised _ text => [.text text]
  | uncaught line => [.text (ascii "PHP Fatal error: Uncaught "), .name, .text (ascii ": "), .name,
      .text (ascii " in "), .name, .text (ascii ":" ++ printUnsigned line)]
  | undefinedFunction => [.text (ascii "Call to undefined function "), .name, .text (ascii "()")]
  | tooFewFunctionArguments required given => [.text (ascii "Too few arguments to function "), .name,
      .text (ascii "(), " ++ printUnsigned required ++ ascii " required, " ++ printUnsigned given ++ ascii " given")]
  | undefinedMethod => [.text (ascii "undefined method "), .name, .text (ascii "()")]
  | nonPublicMethod => [.text (ascii "cannot access non-public method "), .name, .text (ascii "()")]
  | tooFewMethodArguments required given => [.text (ascii "Too few arguments to method "), .name,
      .text (ascii "(), " ++ printUnsigned required ++ ascii " required, " ++ printUnsigned given ++ ascii " given")]
  | tooFewStaticMethodArguments => [.text (ascii "Too few arguments to static method "), .name, .text (ascii "()")]
  | classNotFound => [.text (ascii "Class "), .name, .text (ascii " not found")]
  | undefinedStaticMethod => [.text (ascii "undefined static method "), .name, .text (ascii "()")]
  | cannotInstantiate => [.text (ascii "cannot instantiate class "), .name]
  | noConstructor => [.text (ascii "Class "), .name, .text (ascii " has no constructor")]
  | mustImplement => [.text (ascii "class "), .name, .text (ascii " must implement method "), .name, .text (ascii "()")]
  | undefinedConstant => [.text (ascii "undefined constant "), .name]
  | functionDefined => [.text (ascii "function "), .name, .text (ascii " is already defined")]
  | cannotRegisterFunction => [.text (ascii "cannot register function "), .name]
  | cannotImplement => [.text (ascii "cannot implement interface "), .name]
  | constantDefined => [.text (ascii "constant "), .name, .text (ascii " is already defined")]
  | undefinedProperty => [.text (ascii "undefined property "), .name]
  | nonPublicProperty => [.text (ascii "cannot access non-public property "), .name]
  | readonlyProperty => [.text (ascii "cannot modify readonly property "), .name]
  | uninitializedProperty => [.text (ascii "Typed property "), .name, .text (ascii "::$"), .name,
      .text (ascii " must not be accessed before initialization")]
  | undefinedStaticProperty => [.text (ascii "undefined static property "), .name]
  | nonPublicStaticProperty => [.text (ascii "cannot access non-public static property "), .name]
  | readonlyStaticProperty => [.text (ascii "cannot modify readonly static property "), .name]
  | uninitializedStaticProperty => [.text (ascii "Typed static property "), .name, .text (ascii "::$"), .name,
      .text (ascii " must not be accessed before initialization")]
  | undefinedClassConstant => [.text (ascii "undefined class constant "), .name]
  | requiredFile => [.text (ascii "required file "), .name, .text (ascii " could not be opened")]
  | notValidPbc => [.text (ascii "included file "), .name, .text (ascii " is not valid PBC")]
  | parseError reason => [.text (ascii "Parse error: " ++ reason ++ ascii " in "), .name]
  | compileError reason => [.text (ascii "Compile error: " ++ reason ++ ascii " in "), .name]
  | compilerDisabled => [.text (ascii "source compiler is disabled; include requires PBC: "), .name]
  | readingFile => [.text (ascii "out of memory reading file "), .name]
  | assignedType given => [.text (ascii "Cannot assign " ++ given ++ ascii " to property "), .name,
      .text (ascii "::$"), .name, .text (ascii " of type "), .name]
  | argumentType position given => [.name, .text (ascii "(): Argument #" ++ printUnsigned position ++ ascii " ($"),
      .name, .text (ascii ") must be of type "), .name, .text (ascii ", " ++ given ++ ascii " given")]
  | returnType given => [.name, .text (ascii "(): Return value must be of type "), .name,
      .text (ascii ", " ++ given ++ ascii " returned")]

/-- The `raised_class` the operation leaves, in a buffer of 48 bytes. -/
def raisedClass : InternalError → List UInt8
  | raised className _ => clip 48 (printed className)
  | assignedType _ | argumentType _ _ | returnType _ => ascii "TypeError"
  | _ => []

/-- The text in the `error` buffer. -/
def message (error : InternalError) (names : Nat → List UInt8) : List UInt8 :=
  runtimeError [] (formatted names 0 error.format)

/-- The class `convert_runtime_error` gives to the error. -/
def exceptionClass (error : InternalError) (names : Nat → List UInt8) : List UInt8 :=
  classForError error.raisedClass (error.message names)

variable {error : InternalError}

theorem exceptionClass_of_class (set : error.raisedClass ≠ [])
    (names : Nat → List UInt8) : error.exceptionClass names = error.raisedClass := by
  rw [exceptionClass, classForError, if_pos set]

theorem exceptionClass_of_fixed (fixed : hasName error.format = false)
    (names names' : Nat → List UInt8) : error.exceptionClass names = error.exceptionClass names' := by
  rw [exceptionClass, exceptionClass, message, message, formatted_eq_of_not_hasName fixed names names']

theorem typeError_ne_nil : ascii "TypeError" ≠ [] := by decide +kernel

/-- An operation that leaves no class puts the first name where there is room for a phrase. -/
theorem leading_length (no_class : error.raisedClass = [])
    (has_name : hasName error.format = true) : (leading error.format).length ≤ 210 := by
  cases error with
  | plain _ => exact absurd has_name Bool.false_ne_true
  | raised _ _ => exact absurd has_name Bool.false_ne_true
  | parseError reason =>
    have lt := reason.2
    simp only [format, leading, append_nil, length_append]
    have head : (ascii "Parse error: ").length = 13 := by decide +kernel
    have tail : (ascii " in ").length = 4 := by decide +kernel
    omega
  | compileError reason =>
    simp only [format, leading, append_nil, length_append]
    have head : (ascii "Compile error: ").length = 15 := by decide +kernel
    have tail : (ascii " in ").length = 4 := by decide +kernel
    omega
  | assignedType _ => exact absurd no_class typeError_ne_nil
  | argumentType _ _ => exact absurd no_class typeError_ne_nil
  | returnType _ => exact absurd no_class typeError_ne_nil
  | _ => simp only [format, leading, append_nil]; decide +kernel

theorem starts_with_leading (no_class : error.raisedClass = []) (has_name : hasName error.format = true)
    (names : Nat → List UInt8) : leading error.format <+: error.message names := by
  have short := leading_length no_class has_name
  obtain ⟨rest, eq⟩ := formatted_of_hasName has_name names 0
  rw [message, runtimeError, if_neg (not_not_intro rfl), clip, prefix_take_iff, eq]
  exact ⟨prefix_append _ _, by omega⟩

theorem division_leading (no_class : error.raisedClass = []) (has_name : hasName error.format = true)
    (phrase : divides (leading error.format) = true)
    (names : Nat → List UInt8) : error.exceptionClass names = ascii "DivisionByZeroError" := by
  rw [exceptionClass, no_class, classForError_division]
  exact divides_of_infix phrase (starts_with_leading no_class has_name names).isInfix

theorem division_name (no_class : error.raisedClass = []) (has_name : hasName error.format = true) :
    error.exceptionClass (fun _ => ascii "Division by zero") = ascii "DivisionByZeroError" := by
  have short := leading_length no_class has_name
  obtain ⟨rest, eq⟩ := formatted_of_hasName has_name (fun _ => ascii "Division by zero") 0
  have same : printed (ascii "Division by zero") = ascii "Division by zero" := by decide +kernel
  have length : (ascii "Division by zero").length = 16 := by decide +kernel
  have kept : leading error.format ++ ascii "Division by zero" <+: error.message fun _ => ascii "Division by zero" := by
    rw [message, runtimeError, if_neg (not_not_intro rfl), clip, prefix_take_iff, eq, same, ← append_assoc]
    refine ⟨prefix_append _ _, ?_⟩
    rw [length_append, length]
    omega
  rw [exceptionClass, no_class, classForError_division, divides_iff]
  exact .inl ((suffix_append _ _).isInfix.trans kept.isInfix)

/-- A name that fills the buffer with underscores. -/
def underscores : List UInt8 := replicate 255 95

theorem underscores_name (no_class : error.raisedClass = []) (has_name : hasName error.format = true) :
    error.exceptionClass (fun _ => underscores) = ascii "DivisionByZeroError" →
      divides (leading error.format) = true := by
  have short := leading_length no_class has_name
  obtain ⟨rest, eq⟩ := formatted_of_hasName has_name (fun _ => underscores) 0
  have same : printed underscores = underscores := by decide +kernel
  have length : underscores.length = 255 := length_replicate
  have text : (error.message fun _ => underscores) =
      leading error.format ++ replicate (255 - (leading error.format).length) 95 := by
    rw [message, runtimeError, if_neg (not_not_intro rfl), clip, eq, same, take_append,
      take_of_length_le (by omega), take_append_of_le_length (by rw [length]; omega), underscores,
      take_replicate, Nat.min_eq_left (by omega)]
  rw [exceptionClass, no_class, classForError_division, text, divides_iff, divides_iff]
  exact Or.imp (infix_of_append_replicate (by decide +kernel)) (infix_of_append_replicate (by decide +kernel))

/-- **The class of an internal error depends on names** whenever its message includes one: the class is the same for
all names if and only if the operation sets it, the message includes none, or what stands before the first makes it a
division by zero. -/
theorem exceptionClass_independent_iff (error : InternalError) :
    (∀ names names', error.exceptionClass names = error.exceptionClass names') ↔
      error.raisedClass ≠ [] ∨ hasName error.format = false ∨ divides (leading error.format) = true := by
  constructor
  · intro independent
    by_contra no
    simp only [not_or, not_not, Bool.not_eq_false] at no
    obtain ⟨no_class, has_name, no_phrase⟩ := no
    apply no_phrase
    apply underscores_name no_class has_name
    rw [independent _ fun _ => ascii "Division by zero"]
    exact division_name no_class has_name
  · rintro (set | fixed | phrase) names names'
    · rw [exceptionClass_of_class set, exceptionClass_of_class set]
    · exact exceptionClass_of_fixed fixed names names'
    · by_cases no_class : error.raisedClass = []
      · cases has_name : hasName error.format with
        | false => exact exceptionClass_of_fixed has_name names names'
        | true => rw [division_leading no_class has_name phrase names, division_leading no_class has_name phrase names']
      · rw [exceptionClass_of_class no_class, exceptionClass_of_class no_class]

/-- A call of a function whose name contains `expects` ends with another exception than a call of one
whose name does not. -/
theorem renamed_function_changes_class : ¬ ∀ (error : InternalError) (names names' : Nat → List UInt8),
    error.exceptionClass names = error.exceptionClass names' := by
  intro claimed
  have same := claimed undefinedFunction (fun _ => ascii "expectsReply") fun _ => ascii "awaitsReply"
  have first : undefinedFunction.exceptionClass (fun _ => ascii "expectsReply") = ascii "TypeError" := by
    decide +kernel
  have second : undefinedFunction.exceptionClass (fun _ => ascii "awaitsReply") = ascii "Error" := by decide +kernel
  rw [first, second] at same
  exact absurd same (by decide +kernel)

end InternalError

end PhpPico
