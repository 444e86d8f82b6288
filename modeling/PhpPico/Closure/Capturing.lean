import PhpPico.Closure.Arrow

/-!
# What arrow functions capture

The captured variables of an arrow function are the references of its body, and its code reads these and the classes
of `new` expressions. Parameters of one name shift the captured values away from their slots.
-/

namespace PhpPico.Closure
open List

open Compiler Call

/-! ## The variables of an arrow function -/

section Variables
variable {cfg : Config} {arrow : ArrowFunction} (compiled : CompiledArrow cfg arrow)

theorem not_isParameter {x : Name} : ¬ arrow.IsParameter x ↔ ∀ p ∈ parametersOf arrow.parameters, p.variable ≠ x := by
  simp [ArrowFunction.IsParameter]

namespace CompiledArrow

theorem generator : ∃ s, (compileOperand cfg arrow.body).run ⟨[], 0⟩ = .ok ((), s) ∧ s.code = compiled.code := by
  have generated := compiled.generated
  unfold compileExpression at generated
  split at generated
  · cases generated
  · rename_i s ran
    exact ⟨s, ran, Except.ok.inj generated⟩

variable {x : Name}

/-- **The code reads the references and the classes of `new` expressions only.** -/
theorem reads (mem : x ∈ variablesRead compiled.code) : x ∈ referencesOf arrow.body ∨ x ∈ newClassesOf arrow.body := by
  obtain ⟨s, ran, code⟩ := compiled.generator
  rw [← code] at mem
  have within : Within (fun x => x ∈ referencesOf arrow.body ∨ x ∈ newClassesOf arrow.body)
    (compileOperand cfg arrow.body) := within_compileOperand arrow.body fun x mem => mem
  obtain none | inside := within _ _ _ ran x mem
  · cases none
  · exact inside

theorem reads_newClasses (mem : x ∈ newClassesOf arrow.body) : x ∈ variablesRead compiled.code := by
  obtain ⟨s, ran, code⟩ := compiled.generator
  rw [← code]
  exact adds_compileOperand arrow.body mem _ _ _ ran

theorem mem_captures : x ∈ compiled.captures ↔ x ∈ referencesOf arrow.body ∧ ¬ arrow.IsParameter x := by
  have found : x ∈ compiled.found ↔ x ∈ referencesOf arrow.body ∧ ¬ arrow.IsParameter x := by
    have collected := compiled.collected
    unfold captureNames at collected
    rw [if_pos rfl] at collected
    split at collected
    · cases collected
    rename_i captures walk
    split at collected
    · cases collected
    cases collected
    rw [collectOperand_collects _ arrow.body [] _ walk x, mem_free, not_isParameter]
    simp
  have accepted : compileClosure (parametersOf arrow.parameters) true arrow.isStatic [] compiled.found compiled.names =
    .ok (compiled.callable, compiled.captures) := compiled.accepted
  unfold compileClosure arrowCaptures at accepted
  rw [if_pos rfl] at accepted
  split at accepted
  · cases accepted
  rename_i captures capturing
  split at accepted
  · cases accepted
  cases accepted
  split at capturing
  · cases capturing
  rename_i all adding
  split at capturing
  · cases capturing
  cases capturing
  rw [collects_all _ _ _ adding x, mem_free, found, not_isParameter]
  simp only [not_mem_nil, false_or]
  exact ⟨fun mem => mem.1, fun mem => ⟨mem, mem.2⟩⟩

/-- **The variables read are listed exactly when those that are the class of a `new` occur elsewhere too.** -/
theorem listed_iff :
    (∀ x ∈ variablesRead compiled.code, arrow.IsParameter x ∨ x ∈ compiled.captures) ↔ compiled.ClassesOccur := by
  constructor
  · intro listed x mem
    obtain parameter | captured := listed x (compiled.reads_newClasses mem)
    · exact .inl parameter
    · exact .inr (compiled.mem_captures.mp captured).1
  · intro occur x mem
    by_cases parameter : arrow.IsParameter x
    · exact .inl parameter
    refine .inr (compiled.mem_captures.mpr ⟨?_, parameter⟩)
    obtain inBody | isClass := compiled.reads mem
    · exact inBody
    · exact (occur x isClass).resolve_left parameter

end CompiledArrow

end Variables

/-! ## Slots -/

variable {locals : List Name} {x : Name} {c : Callable}

theorem addLocals_mem {failure : List UInt8} {names added : List Name}
    (new : addLocals failure locals names = .ok added) (mem : x ∈ names) : x ∈ added := by
  induction names generalizing locals with
  | nil => cases mem
  | cons name rest ih =>
    unfold addLocals at new
    split at new
    · rename_i one slot first
      cases mem with
      | head => exact (addLocals_grows new).kept.subset (addLocal_mem first)
      | tail _ mem => exact ih new mem
    · cases new

theorem addLocal_cases {added : List Name} {name : Name} {slot : Nat}
    (new : addLocal locals name = some (added, slot)) :
    name ∈ locals ∧ added = locals ∨ name ∉ locals ∧ added = locals ++ [name] := by
  by_cases old : name ∈ locals
  · obtain ⟨slot', found⟩ := findLocal_isSome old
    rw [addLocal_found found] at new
    exact .inl ⟨old, (congrArg Prod.fst (Option.some.inj new)).symm⟩
  · exact .inr ⟨old, Call.addLocal_new old new⟩

section Loop
variable {texts : ParameterTexts} {promotion : Parameter → Option String} {parameters : List Parameter}
  {pass result : ParameterPass}

theorem compileParameters_subset (compiled : compileParameters texts promotion parameters pass = .ok result) {x : Name}
    (mem : x ∈ result.locals) : x ∈ pass.locals ∨ x ∈ parameters.map Parameter.variable := by
  induction parameters generalizing pass with
  | nil =>
    cases compiled
    exact .inl mem
  | cons p rest ih =>
    obtain ⟨next, round, following⟩ := compileParameters_cons compiled
    obtain ⟨slot, added⟩ := round.added
    obtain early | late := ih following
    · obtain ⟨-, same⟩ | ⟨-, grown⟩ := addLocal_cases added
      · exact .inl (same ▸ early)
      · rw [grown] at early
        exact (mem_append.mp early).imp_right fun same => mem_cons.mpr (.inl (mem_singleton.mp same))
    · exact .inr (.tail _ late)

theorem compileParameters_length (compiled : compileParameters texts promotion parameters pass = .ok result) :
    result.locals.length ≤ pass.locals.length + parameters.length := by
  induction parameters generalizing pass with
  | nil =>
    cases compiled
    exact le_rfl
  | cons p rest ih =>
    obtain ⟨next, round, following⟩ := compileParameters_cons compiled
    obtain ⟨slot, added⟩ := round.added
    have one : next.locals.length ≤ pass.locals.length + 1 := by
      obtain ⟨-, same⟩ | ⟨-, grown⟩ := addLocal_cases added
      · simp [same]
      · simp [grown]
    have all := ih following
    rw [length_cons]
    omega

/-- Parameters of one name get fewer slots. -/
theorem compileParameters_short (compiled : compileParameters texts promotion parameters pass = .ok result)
    (start : pass.locals.Nodup) (clash : ¬ (pass.locals ++ parameters.map Parameter.variable).Nodup) :
    result.locals.length < pass.locals.length + parameters.length := by
  induction parameters generalizing pass with
  | nil => exact absurd (by simpa using start) clash
  | cons p rest ih =>
    obtain ⟨next, round, following⟩ := compileParameters_cons compiled
    obtain ⟨slot, added⟩ := round.added
    rw [length_cons]
    obtain ⟨-, same⟩ | ⟨-, grown⟩ := addLocal_cases added
    · have all := compileParameters_length following
      rw [same] at all
      omega
    · have all := ih following ((addLocal_grows added).nodup start) (by simpa [grown] using clash)
      rw [grown, length_append, length_singleton] at all
      omega

end Loop

theorem compileParameterDefaults_index {index : Nat} {compiled : List Name} {parameters : List Parameter}
    {codes : List DefaultCode} (ok : compileParameterDefaults index locals parameters = .ok (compiled, codes)) :
    ∀ code ∈ codes, code.index < index + parameters.length := by
  induction parameters generalizing index locals codes with
  | nil =>
    cases ok
    intro code mem
    cases mem
  | cons p rest ih =>
    have later {index' : Nat} (same : index' = index + 1) {codes : List DefaultCode} {locals : List Name}
        (ok : compileParameterDefaults index' locals rest = .ok (compiled, codes)) (code : DefaultCode)
        (mem : code ∈ codes) : code.index < index + (p :: rest).length := by
      have bound := ih ok code mem
      rw [length_cons]
      omega
    unfold compileParameterDefaults at ok
    split at ok
    · exact later rfl ok
    split at ok
    · cases ok
    split at ok
    · cases ok
    split at ok
    · cases ok
    rename_i more following
    cases ok
    intro code mem
    cases mem with
    | head => exact Nat.lt_add_of_pos_right (Nat.succ_pos _)
    | tail _ mem => exact later rfl following code mem

/-- The slots of a closure: its parameters', the captured variables', and others, each of one name. -/
structure Slots (c : Callable) (parameters : List Parameter) (captures names : List Name) (own : List Name) : Prop where
  kept : own ++ captures <+: c.locals
  defaults : ∀ code ∈ c.defaults, code.index < parameters.length
  promotions : c.promotions = []
  nodup : c.locals.Nodup
  declared : ∀ p ∈ parameters, p.variable ∈ own
  named : ∀ x ∈ names, x ∈ c.locals
  short : ¬ (parameters.map Parameter.variable).Nodup → own.length < parameters.length

theorem compileCallable_slots {texts : ParameterTexts} {promotion : Parameter → Option String}
    {captures names : List Name} {parameters : List Parameter}
    (compiled : compileCallable texts promotion [] false parameters captures names = .ok c)
    (captured : Captured parameters captures) : ∃ own, Slots c parameters captures names own := by
  unfold compileCallable at compiled
  split at compiled
  · cases compiled
  rename_i pass loop
  split at compiled
  · cases compiled
  rename_i locals capturing
  split at compiled
  · cases compiled
  rename_i after defaults defaulting
  split at compiled
  · cases compiled
  rename_i all naming
  cases compiled
  have own : pass.locals.Nodup := (compileParameters_grows loop).nodup nodup_nil
  have distinct : (pass.locals ++ captures).Nodup := by
    refine nodup_append.mpr ⟨own, captured.nodup, fun x mem y captive => ?_⟩
    rintro rfl
    obtain none | parameter := compileParameters_subset loop mem
    · cases none
    · obtain ⟨p, declared, rfl⟩ := List.mem_map.mp parameter
      exact captured.apart p declared captive
  have placed := addLocals_new distinct capturing
  have grows := (compileParameterDefaults_grows defaulting).trans (addLocals_grows naming)
  rw [placed] at grows
  refine ⟨pass.locals, grows.kept, fun code mem => ?_, rfl, grows.nodup distinct,
    fun p mem => compileParameters_mem loop mem, fun x mem => addLocals_mem naming mem, fun clash => ?_⟩
  · have bound := compileParameterDefaults_index defaulting code mem
    omega
  have few := compileParameters_short loop nodup_nil (by simpa using clash)
  simpa using few

theorem slot_of_getElem (nodup : c.locals.Nodup) {i : Nat} (get : c.locals[i]? = some x) : c.slot x = i := by
  rw [Callable.slot, findLocal_getElem nodup get, Option.getD_some]

theorem slot_injective (nodup : c.locals.Nodup) {y : Name} (mem : x ∈ c.locals) (other : y ∈ c.locals)
    (same : c.slot x = c.slot y) : x = y := by
  obtain ⟨i, first⟩ := mem_iff_getElem?.mp mem
  obtain ⟨j, second⟩ := mem_iff_getElem?.mp other
  rw [slot_of_getElem nodup first, slot_of_getElem nodup second] at same
  subst same
  exact Option.some.inj (first.symm.trans second)

/-! ## Evaluation -/

section Evaluation
variable {cfg : Config} {arrow : ArrowFunction} {σ : Type} {meaning : Meaning σ} {scope : Name → Call.Slot} {base : Nat}
  {before m : Machine}

theorem Meaning.fetch_fetch (v : Call.Slot) : meaning.fetch (meaning.fetch v) = meaning.fetch v := by
  cases v <;> rfl

namespace CompiledArrow
variable (compiled : CompiledArrow cfg arrow)

theorem slots : ∃ own,
    Slots compiled.callable (parametersOf arrow.parameters) compiled.captures compiled.names own := by
  have accepted : compileClosure (parametersOf arrow.parameters) true arrow.isStatic [] compiled.found compiled.names =
    .ok (compiled.callable, compiled.captures) := compiled.accepted
  have captured : Captured (parametersOf arrow.parameters) compiled.captures := by
    obtain ⟨texts, promotion, names, -, captured, -⟩ := compiled.declaration.compile_callable compiled.accepted
    exact captured
  unfold compileClosure at accepted
  split at accepted
  · cases accepted
  split at accepted
  · cases accepted
  rename_i callable made
  obtain ⟨same, listed⟩ := Prod.mk.inj (Except.ok.inj accepted)
  rw [← same]
  exact compileCallable_slots (listed ▸ made) captured

theorem has_slot {x : Name} (mem : x ∈ variablesRead compiled.code ∨ x ∈ variablesWritten compiled.code) :
    x ∈ compiled.callable.locals := by
  obtain ⟨own, slots⟩ := compiled.slots
  exact slots.named x (compiled.named x (mem_append.mpr mem))

/-- **Where its variables are makes no difference to the body**, if they hold the same. -/
theorem evaluates (held : ∀ x ∈ variablesRead compiled.code, ¬ arrow.IsParameter x →
      m.stack (compiled.place base x) = meaning.fetch (scope x))
    (below : ∀ i < base, m.stack i = before.stack i) : compiled.Evaluates meaning scope base before m := by
  obtain ⟨own, slots⟩ := compiled.slots
  refine ⟨held, fun world => ?_, fun world i low => ?_⟩
  · have reads : ∀ x ∈ meaning.language.readBy compiled.code, x ∈ variablesRead compiled.code := fun x mem => mem
    have same : meaning.language.Same (· ∈ variablesRead compiled.code) (compiled.place base) m.stack id
        (compiled.around base m scope) := by
      intro x mem
      change meaning.fetch (m.stack (compiled.place base x)) = meaning.fetch (compiled.around base m scope x)
      unfold around
      split
      · rfl
      · rename_i inScope
        rw [held x mem inScope, Meaning.fetch_fetch]
    have apart (x w : Name) (mem : x ∈ variablesRead compiled.code) (write : w ∈ variablesWritten compiled.code)
        (clash : compiled.place base x = compiled.place base w) : x = w :=
      slot_injective slots.nodup (compiled.has_slot (.inl mem)) (compiled.has_slot (.inr write))
        (Nat.add_left_cancel clash)
    exact Placed.Language.run_same reads apart (fun x w _ _ same => same) same 0 [] world
  · refine (Placed.Language.run_elsewhere (fun w mem same => ?_) 0 [] world).trans (below i low)
    change base + compiled.callable.slot w = i at same
    omega

end CompiledArrow

end Evaluation

/-! ## Calls -/

section Calls
variable {cfg : Config} {arrow : ArrowFunction} {σ : Type} {meaning : Meaning σ} {scope : Name → Call.Slot}
  {call : Invocation}

variable {program : Program} {c : Callable} {base argumentCount : Nat} {m : Machine}

/-- The code in front of a body writes nothing below its frame. -/
theorem runPrologue_below {after : Machine} {promoted : List (List UInt8 × Call.Slot)}
    (run : runPrologue program c base argumentCount m = .started after promoted) {i : Nat}
    (below : i < base) : after.stack i = m.stack i := by
  unfold runPrologue at run
  split at run
  · cases run
  rename_i defaulted defaults
  split at run
  · cases run
    rw [(runPromotions_kept base c.promotions defaulted).1]
    exact runDefaults_elsewhere defaults fun code _ _ => by omega
  · cases run

/-- Why the code in front of a body raises. -/
theorem runPrologue_defaultRaised (run : runPrologue program c base argumentCount m = .defaultRaised) :
    ∃ slots value, program.evaluate slots value = none := by
  unfold runPrologue at run
  split at run
  · rename_i raised
    obtain ⟨code, -, -, slots, none⟩ := runDefaults_raised raised
    exact ⟨slots, code.value, none⟩
  · split at run <;> cases run

theorem runPrologue_typeRaised
    (run : runPrologue program c base argumentCount m = .typeRaised) : ∃ type v, program.accepts type v = false := by
  unfold runPrologue at run
  split at run
  · cases run
  · split at run
    · cases run
    · exact checkArgumentTypes_refused ‹_›

namespace CompiledArrow
variable (compiled : CompiledArrow cfg arrow)

theorem counted : Call.Counted compiled.callable [] (parametersOf arrow.parameters) :=
  compiled.declaration.counted compiled.accepted

theorem answers_of_entered {m : Machine} (entered : call.enter compiled.declaration compiled.callable = .entered m)
    (below : ∀ i < call.base compiled.declaration, m.stack i = call.machine.stack i)
    (held : ∀ after promoted, runPrologue call.program compiled.callable (call.base compiled.declaration)
      call.argumentCount m = .started after promoted → ∀ x ∈ variablesRead compiled.code, ¬ arrow.IsParameter x →
        after.stack (compiled.place (call.base compiled.declaration) x) = meaning.fetch (scope x)) :
    compiled.Answers meaning scope call := by
  unfold Answers
  rw [entered]
  dsimp only
  cases run : runPrologue call.program compiled.callable (call.base compiled.declaration) call.argumentCount m with
  | started after promoted =>
    exact compiled.evaluates (held after promoted run) fun i low => (runPrologue_below run low).trans (below i low)
  | defaultRaised => exact runPrologue_defaultRaised run
  | typeRaised => exact runPrologue_typeRaised run

/-- A call finds room when the slots are enough, and leaves what is below its frame alone. -/
theorem enter_room
    (room : (parametersOf arrow.parameters).length + compiled.captures.length ≤ compiled.callable.locals.length)
    (fits : call.Fits compiled.declaration compiled.captures) :
    match call.enter compiled.declaration compiled.callable with
    | .raised _ _ => Refused call compiled.declaration compiled.callable
    | .entered m => Entered call.memory call.machine compiled.callable (call.entry compiled.declaration) m := by
  have counted := compiled.counted
  have enough : 0 + (parametersOf arrow.parameters).length + compiled.captures.length ≤
      compiled.callable.locals.length := by omega
  have entry := Invocation.entry_fits_of_room fits counted enough
  obtain ⟨full, tooFew, overflow, code, scarce⟩ := Invocation.enter_eq (c := compiled.callable) fits
  have spec := enter_spec call.memory entry full tooFew overflow
  rw [code]
  generalize enter call.memory call.machine compiled.callable (call.entry compiled.declaration) full tooFew overflow =
    outcome at spec
  cases outcome with
  | raised text m =>
    obtain ⟨-, few | noRoom | none⟩ := spec
    · rw [counted.nRequired] at few
      exact .tooFew few
    · obtain noFrame | crowded := scarce noRoom
      · exact .frames noFrame
      · have enough := entry.room
        omega
    · exact .scarce none
  | entered m => exact spec.2

/-- Parameters of different names: each captured value is in the slot of its variable. -/
theorem answers_of_distinct (occur : compiled.ClassesOccur) (distinct : compiled.declaration.Distinct)
    (fits : call.Fits compiled.declaration compiled.captures)
    (created : call.captured = compiled.create meaning scope) : compiled.Answers meaning scope call := by
  have right : Right compiled.declaration compiled.callable compiled.captures call :=
    right_of_distinct compiled.accepted distinct call fits
  have layout := compiled.declaration.layout compiled.accepted distinct
  have kept : ([] ++ (parametersOf arrow.parameters).map Parameter.variable ++ compiled.captures) <+:
      compiled.callable.locals := layout.kept
  have entering := compiled.enter_room (by simpa using kept.length_le) fits
  unfold Right at right
  cases outcome : call.enter compiled.declaration compiled.callable with
  | raised text m =>
    unfold Answers
    rw [outcome] at entering ⊢
    exact entering
  | entered m =>
    rw [outcome] at entering right
    refine compiled.answers_of_entered outcome (fun i low => entering.below i (Nat.lt_add_right _ low)) ?_
    intro after promoted run x mem inScope
    have starts := right.2
    rw [run] at starts
    have captured := (compiled.listed_iff.mpr occur x mem).resolve_left inScope
    obtain ⟨j, get⟩ := mem_iff_getElem?.mp captured
    refine starts.captured j x _ get ?_
    rw [created, create, getElem?_map, get]
    rfl

/-- A body that reads only its parameters needs nothing captured. -/
theorem answers_of_spares (spares : compiled.Spares) (fits : call.Fits compiled.declaration compiled.captures) :
    compiled.Answers meaning scope call := by
  have entering := compiled.enter_room spares.room fits
  cases outcome : call.enter compiled.declaration compiled.callable with
  | raised text m =>
    unfold Answers
    rw [outcome] at entering ⊢
    exact entering
  | entered m =>
    rw [outcome] at entering
    refine compiled.answers_of_entered outcome (fun i low => entering.below i (Nat.lt_add_right _ low)) ?_
    exact fun after promoted run x mem inScope => absurd (spares.parameters x mem) inScope

end CompiledArrow

end Calls

/-! ## Parameters of one name -/

/-- A meaning without a world, for which zero is null. -/
def zeroIsNull : Meaning Unit := ⟨0, fun _ => true, fun _ _ operands world => .ok (operands, world)⟩

/-- A scope that holds an object in one variable only. -/
def onlyIn (x : Name) : Name → Call.Slot := fun y => if y = x then .heap 1000 else .undefined

namespace CompiledArrow
variable {cfg : Config} {arrow : ArrowFunction} (compiled : CompiledArrow cfg arrow)

/-- A call with room for everything and an argument for each parameter. -/
def trial (x : Name) : Invocation :=
  { compiled.declaration.trial compiled.captures with captured := compiled.create zeroIsNull (onlyIn x) }

theorem trial_fits (x : Name) : (compiled.trial x).Fits compiled.declaration compiled.captures := by
  have fits : (compiled.declaration.trial compiled.captures).Fits compiled.declaration compiled.captures :=
    Call.trial_fits compiled.counted
  exact ⟨fits.count, fits.stack, length_map ..⟩

theorem trial_base (x : Name) : (compiled.trial x).base compiled.declaration = 0 :=
  Call.trial_base compiled.declaration compiled.captures

theorem trial_not_refused (x : Name) : ¬ Refused (compiled.trial x) compiled.declaration compiled.callable := by
  intro refused
  have locals := compiled.counted.locals
  have base := compiled.trial_base x
  obtain few | full | slots | ⟨-, none⟩ | ⟨-, i, -, none⟩ := refused
  · have most : compiled.declaration.required ≤ compiled.declaration.parameters.length := length_filter_le _ _
    have : compiled.declaration.parameters.length < compiled.declaration.required := few
    omega
  · have : frameMax ≤ 0 := full
    simp [frameMax] at this
  · rw [base] at slots
    simp only [stackSlots] at slots
    omega
  · cases none
  · cases none

theorem enter_full (memory : Call.Memory) (m : Machine) (c : Callable) (e : Entry) (tooFew overflow : List UInt8) :
    ∃ text after, enter memory m c e true tooFew overflow = .raised text after := by
  unfold enter
  split
  · exact ⟨_, _, rfl⟩
  · exact ⟨_, _, if_pos rfl⟩

variable {x : Name}

theorem room_of_answers (answers : compiled.Answers zeroIsNull (onlyIn x) (compiled.trial x)) :
    (parametersOf arrow.parameters).length + compiled.captures.length ≤ compiled.callable.locals.length := by
  by_contra short
  have full : ((compiled.trial x).machine.noFrame || decide (compiled.callable.locals.length <
      compiled.callable.nParams + (compiled.create zeroIsNull (onlyIn x)).length)) = true := by
    rw [Bool.or_eq_true, decide_eq_true_eq, compiled.counted.nParams, create, length_map]
    exact .inr (by omega)
  have raised : ∃ text m, (compiled.trial x).enter compiled.declaration compiled.callable = .raised text m := by
    change ∃ text m, callValue (compiled.trial x).memory (compiled.trial x).machine compiled.callable
      (compiled.create zeroIsNull (onlyIn x)) (compiled.trial x).argumentCount = .raised text m
    unfold callValue
    rw [full]
    exact enter_full ..
  obtain ⟨text, m, raised⟩ := raised
  unfold Answers at answers
  rw [raised] at answers
  exact compiled.trial_not_refused x answers

/-- The code in front of the body keeps the frame of a trial, whose arguments are all given. -/
theorem trial_prologue (x : Name) (m : Machine) :
    runPrologue (compiled.trial x).program compiled.callable 0 (compiled.trial x).argumentCount m = .started m [] := by
  obtain ⟨own, slots⟩ := compiled.slots
  have defaults : runDefaults (compiled.trial x).program compiled.callable 0 (compiled.trial x).argumentCount
      compiled.callable.defaults m = some m := by
    have given := slots.defaults
    revert given
    generalize compiled.callable.defaults = codes
    intro given
    induction codes with
    | nil => rfl
    | cons code rest ih =>
      unfold runDefaults
      have argument : code.index < (compiled.trial x).argumentCount := given code (.head _)
      rw [if_pos argument]
      exact ih fun other mem => given other (.tail _ mem)
  have types : checkArgumentTypes (compiled.trial x).program compiled.callable 0 m = true := by
    have all : (compiled.trial x).program.accepts = fun _ _ => true := rfl
    unfold checkArgumentTypes
    rw [all, Bool.or_eq_true, Bool.and_eq_true, Bool.or_eq_true]
    refine .inr ⟨List.all_eq_true.mpr fun _ _ => rfl, .inr ?_⟩
    split
    · exact List.all_eq_true.mpr fun _ _ => rfl
    · rfl
  unfold runPrologue
  rw [defaults]
  dsimp only
  rw [if_pos types, slots.promotions]
  rfl

/-- With parameters of one name, a captured variable is not where its value is put. -/
theorem slot_of_clash (clash : ¬ compiled.declaration.Distinct) (captured : x ∈ compiled.captures) :
    compiled.callable.slot x < (parametersOf arrow.parameters).length ∨
      ∃ j y, compiled.callable.slot x = (parametersOf arrow.parameters).length + j ∧
        compiled.captures[j]? = some y ∧ y ≠ x := by
  obtain ⟨own, slots⟩ := compiled.slots
  obtain ⟨j, get⟩ := mem_iff_getElem?.mp captured
  have bound := (List.getElem?_eq_some_iff.mp get).1
  have short := slots.short clash
  have nodup : (own ++ compiled.captures).Nodup := slots.kept.sublist.nodup slots.nodup
  obtain ⟨others, all⟩ := slots.kept
  have here : compiled.callable.locals[own.length + j]? = some x := by
    rw [← all, getElem?_append_left (by simpa using bound), getElem?_append_right (Nat.le_add_right _ _),
      Nat.add_sub_cancel_left, get]
  rw [slot_of_getElem slots.nodup here]
  by_cases early : own.length + j < (parametersOf arrow.parameters).length
  · exact .inl early
  obtain ⟨i, place⟩ := Nat.exists_eq_add_of_le (Nat.le_of_not_lt early)
  refine .inr ⟨i, compiled.captures[i], place, getElem?_eq_getElem (by omega), fun same => ?_⟩
  have twice : compiled.captures[i] = compiled.captures[j] := by
    rw [same, (List.getElem?_eq_some_iff.mp get).2]
  have : i = j := (nodup_append.mp nodup).2.1.getElem_inj_iff.mp twice
  omega

/-- What a trial's frame holds: no argument, list or other variable is the object that `x` held. -/
theorem trial_holds {m : Machine}
    (entered : Entered (compiled.trial x).memory (compiled.trial x).machine compiled.callable
      ((compiled.trial x).entry compiled.declaration) m) (clash : ¬ compiled.declaration.Distinct)
    (captured : x ∈ compiled.captures) : m.stack (compiled.callable.slot x) ≠ .heap 1000 := by
  have counted := compiled.counted
  have base : ((compiled.trial x).entry compiled.declaration).targetBase = 0 := compiled.trial_base x
  have offset : ((compiled.trial x).entry compiled.declaration).localOffset = 0 := rfl
  obtain early | ⟨j, y, place, get, other⟩ := compiled.slot_of_clash clash captured
  · by_cases fixed : compiled.callable.slot x < compiled.callable.fixedCount
    · have supplied := entered.supplied (compiled.callable.slot x) early fixed
      rw [base, offset, Nat.zero_add] at supplied
      rw [supplied]
      change (if _ = 0 then Call.Slot.heap 7 else .scalar _) ≠ _
      split <;> simp
    · have list : compiled.callable.variadic = true := by
        by_contra none
        rw [fixedCount_of_not (Bool.eq_false_of_not_eq_true none), counted.nParams] at fixed
        exact fixed early
      have last := fixedCount_of_variadic list (by rw [counted.nParams]; omega)
      rw [counted.nParams] at last
      have here : compiled.callable.slot x = compiled.callable.fixedCount := by omega
      obtain ⟨address, memory, holds, -⟩ := entered.rest list
      rw [base, offset, Nat.zero_add, ← here] at holds
      cases memory
      rw [holds]
      simp
  · have value : ((compiled.trial x).entry compiled.declaration).captured[j]? = some (.scalar 0) := by
      change (compiled.create zeroIsNull (onlyIn x))[j]? = _
      rw [create, getElem?_map, get]
      simp [onlyIn, other, Meaning.fetch, zeroIsNull]
    have held := entered.captured j _ value
    rw [base, Nat.zero_add, counted.nParams, ← place] at held
    rw [held]
    simp

/-- **With parameters of one name, a variable that is read does not hold what was captured.** -/
theorem not_answers_of_clash (clash : ¬ compiled.declaration.Distinct) (captured : x ∈ compiled.captures)
    (mem : x ∈ variablesRead compiled.code) (inScope : ¬ arrow.IsParameter x) :
    ¬ compiled.Answers zeroIsNull (onlyIn x) (compiled.trial x) := by
  intro answers
  have entering := compiled.enter_room (compiled.room_of_answers answers) (compiled.trial_fits x)
  unfold Answers at answers
  cases outcome : (compiled.trial x).enter compiled.declaration compiled.callable with
  | raised text m =>
    rw [outcome] at answers
    exact compiled.trial_not_refused x answers
  | entered m =>
    rw [outcome, compiled.trial_base] at answers
    rw [outcome] at entering
    dsimp only at answers
    rw [compiled.trial_prologue] at answers
    have held := answers.held x mem inScope
    rw [place, zero_add] at held
    refine compiled.trial_holds entering clash captured (held.trans ?_)
    simp [onlyIn, Meaning.fetch]

/-! ## Every arrow function -/

/-- **An arrow function captures every variable exactly when each class of a `new` that is a variable occurs elsewhere
too, and its parameters have different names** or do without the slots of the captured variables. -/
theorem capturesAll_iff :
    compiled.CapturesAll ↔ compiled.ClassesOccur ∧ (compiled.declaration.Distinct ∨ compiled.Spares) := by
  constructor
  · intro all
    refine ⟨compiled.listed_iff.mp all.listed, or_iff_not_imp_left.mpr fun clash => ⟨fun x mem => ?_, ?_⟩⟩
    · by_contra inScope
      have captured := (all.listed x mem).resolve_left inScope
      exact compiled.not_answers_of_clash clash captured mem inScope
        (all.answers Unit zeroIsNull (onlyIn x) _ (compiled.trial_fits x) rfl)
    · exact compiled.room_of_answers (all.answers Unit zeroIsNull (onlyIn []) _ (compiled.trial_fits []) rfl)
  · rintro ⟨occur, distinct | spares⟩
    · exact ⟨compiled.listed_iff.mpr occur, fun σ meaning scope call fits created =>
        compiled.answers_of_distinct occur distinct fits created⟩
    · exact ⟨compiled.listed_iff.mpr occur, fun σ meaning scope call fits created =>
        compiled.answers_of_spares spares fits⟩

end CompiledArrow

/-! ## Two arrow functions -/

/-- A build with all options. -/
def fullBuild : Config := ⟨true, true, true, true, true⟩

/-- The token of a variable. -/
def variableToken (text : String) : Token := ⟨.tVariable, 0, ascii text, 1, 1⟩

/-- `fn($a) => $a + $b` -/
def addsOther : ArrowFunction where
  parameters := [.param 1 (variableToken "$a") false 0 [] none]
  isStatic := false
  body := some (.binary 1 .tPlus (some (.literal .variable 1 (variableToken "$a")))
    (some (.literal .variable 1 (variableToken "$b"))))

/-- It captures `$b`. -/
def compiledAddsOther : CompiledArrow fullBuild addsOther where
  found := [ascii "b"]
  code := [.loadLocal false (ascii "a"), .loadLocal false (ascii "b"), .plain .add]
  names := [ascii "a", ascii "b"]
  callable := ⟨[ascii "a", ascii "b"], 1, 1, false, false, [[]], [], []⟩
  captures := [ascii "b"]
  collected := rfl
  generated := rfl
  named := by decide
  accepted := rfl

/-- What it reads is captured, or a parameter. -/
theorem addsOther_captures_all : compiledAddsOther.CapturesAll := by
  refine compiledAddsOther.capturesAll_iff.mpr ⟨fun x mem => ?_, .inl (by decide)⟩
  cases mem

/-- `fn() => new $class()` -/
def makesObject : ArrowFunction where
  parameters := []
  isStatic := false
  body := some (.newExpr 1 (some (.literal .variable 1 (variableToken "$class"))) [] 0)

/-- It captures nothing. -/
def compiledMakesObject : CompiledArrow fullBuild makesObject where
  found := []
  code := [.loadLocal false (ascii "class"), .byte .newObjDynamic 0]
  names := [ascii "class"]
  callable := ⟨[ascii "class"], 0, 0, false, false, [], [], []⟩
  captures := []
  collected := rfl
  generated := rfl
  named := by decide
  accepted := rfl

/-- `$class` is read in a frame that does not hold it. -/
theorem makesObject_not_captures_all : ¬ compiledMakesObject.CapturesAll := by
  intro all
  obtain parameter | captured := all.listed (ascii "class") (.head _)
  · cases parameter
  · cases captured

end PhpPico.Closure
