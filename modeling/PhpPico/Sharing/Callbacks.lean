import PhpPico.Sharing.Iterate
import PhpPico.Sharing.Readonly

/-!
# `array_map`, `array_filter` and `array_reduce`

**The calls each native makes, in order, and what it returns are those of a map, a filter and a reduction** over what
the array was when it was passed, and the first callback that fails is the last one called, as long as no callback
gives an array that the native holds to a native that writes its argument.
-/

namespace PhpPico.Sharing
open CopyOnWrite OrderedMap CallbackFold

/-! ## What is read -/

section Reading
variable {cfg : Config} {other : Nat → Bool} {n : Nat} {heap heap' : Heap Content}

theorem entries_set (c : Content) (key : Key) (v : PValue) :
    (c.set cfg key v).entries = OrderedMap.set c.entries key v := by
  have code : (c.set cfg key v).entries = (c.dict.set cfg key v).entries := rfl
  rw [code]
  unfold Dict.set
  split <;> rfl

theorem keys_readEntries (entries : List (Key × PValue)) : keys (readEntries n heap entries) = keys entries := by
  rw [keys, keys, readEntries, List.map_map]
  rfl

theorem readEntries_set (entries : List (Key × PValue)) (key : Key) (v : PValue) :
    readEntries n heap (OrderedMap.set entries key v) =
      OrderedMap.set (readEntries n heap entries) key (look Content.entries n heap v) := by
  unfold OrderedMap.set
  rw [keys_readEntries]
  split
  · rw [readEntries, readEntries, List.map_map, List.map_map]
    refine List.map_congr_left fun e _ => ?_
    dsimp only [Function.comp]
    split
    · rfl
    · rfl
  · rw [readEntries, readEntries, List.map_append]
    rfl

theorem readEntries_agree {c : Content} (agree : ∀ w ∈ values Content.entries c, Agree Content.entries heap heap' w) :
    readEntries n heap' c.entries = readEntries n heap c.entries := by
  refine List.map_congr_left fun e mem => ?_
  rw [(agree e.2 (List.mem_map_of_mem mem)).look n]

/-- `pv_is_truthy`, of what is read. -/
def readTruthy (other : Nat → Bool) : Read → Bool
  | .data d => dataTruthy other d
  | .array entries => !entries.isEmpty
  | .cut => false

theorem readTruthy_look (v : PValue) :
    readTruthy other (look Content.entries (n + 1) heap v) = pvIsTruthy other heap v := by
  cases v with
  | data d => rfl
  | array a =>
    rw [look, pvIsTruthy]
    cases cellAt heap a with
    | none => rfl
    | some cell =>
      have empty : (cell.content.entries.map fun e => (e.1, look Content.entries n heap e.2)).isEmpty =
          cell.content.entries.isEmpty := List.isEmpty_map
      exact congrArg (!·) empty

end Reading

/-! ## The three natives -/

section Does
variable (cfg : Config) (other : Nat → Bool) (n : Nat)

theorem map_does : (mapNative cfg).Does (fun heap c => readEntries n heap c.entries) n mapStep where
  kept := fun _ _ _ agree => readEntries_agree agree
  pass := fun _ _ _ _ _ visit => by cases visit
  call := by
    intro heap output key value given answered visit
    cases visit
    refine ⟨⟨_, rfl, fun heap' result same _ => ?_⟩, fun w listed => .inl (List.mem_singleton.mp listed), ?_⟩
    · dsimp only at same ⊢
      rw [entries_set, readEntries_set, same]
    · intro heap' result x
      have once : count x (values Content.entries (output.set cfg key result)) + count x (output.old key) =
          count x (values Content.entries output) + count x [result] := count_set
      have new : count x ((mapNative cfg).operand (output.set cfg key result)).values =
          count x (values Content.entries (output.set cfg key result)) := rfl
      have old : count x ((mapNative cfg).operand output).values = count x (values Content.entries output) := rfl
      dsimp only
      rw [count_append]
      omega

/-- The arguments of the callback of a filter, of what is read. -/
def readArguments (mode : Nat) (key : Key) (value : Read) : List Read :=
  let key := look Content.entries 0 [] (keyValue key)
  if mode = 1 then [value, key] else if mode = 2 then [key] else [value]

theorem look_keyValue (heap heap' : Heap Content) (key : Key) (n m : Nat) :
    look Content.entries n heap (keyValue key) = look Content.entries m heap' (keyValue key) := by
  cases key with
  | int i => cases n <;> cases m <;> rfl
  | string s => cases n <;> cases m <;> rfl

theorem count_kept (output : Content) (key : Key) (value : PValue) (x : Nat) :
    count x (Operand.values (.literal (output.set cfg key value))) + count x (output.old key) =
      count x (Operand.values (.literal output)) + count x [value] := count_set

theorem filter_does (mode : Option Nat) :
    (filterNative cfg other mode).Does (fun heap c => readEntries (n + 1) heap c.entries) (n + 1)
      (filterStep (mode.map readArguments) (readTruthy other)) where
  kept := fun _ _ _ agree => readEntries_agree agree
  pass := by
    intro heap output key value update visit
    cases mode with
    | some mode => cases visit
    | none =>
      cases visit
      cases truthy : pvIsTruthy other heap value with
      | true =>
        refine ⟨?_, fun x => le_of_eq (count_kept cfg output key value x)⟩
        rw [Option.map_none, filterStep, readTruthy_look, truthy, if_pos rfl, if_pos rfl, entries_set, readEntries_set]
      | false =>
        refine ⟨?_, fun x => le_rfl⟩
        rw [Option.map_none, filterStep, readTruthy_look, truthy, if_neg Bool.false_ne_true, if_neg Bool.false_ne_true]
  call := by
    intro heap output key value given answered visit
    cases mode with
    | none => cases visit
    | some mode =>
      cases visit
      refine ⟨⟨_, congrArg (Turn.call · _) ?_, fun heap' result same value_same => ?_⟩, fun w listed => ?_,
        fun heap' result x => ?_⟩
      · have read : look Content.entries 0 [] (keyValue key) = look Content.entries (n + 1) heap (keyValue key) :=
          look_keyValue _ _ key _ _
        unfold readArguments filterArguments
        rw [read]
        split
        · rfl
        · split
          · rfl
          · rfl
      · dsimp only at same ⊢
        rw [readTruthy_look]
        cases pvIsTruthy other heap' result with
        | true => rw [if_pos rfl, if_pos rfl, entries_set, readEntries_set, same, value_same]
        | false => rw [if_neg Bool.false_ne_true, if_neg Bool.false_ne_true, same]
      · have data : ∃ d, keyValue key = .data d := by
          cases key with
          | int i => exact ⟨_, rfl⟩
          | string s => exact ⟨_, rfl⟩
        unfold filterArguments at listed
        split at listed
        · rcases List.mem_cons.mp listed with rfl | listed
          · exact .inl rfl
          · obtain rfl := List.mem_singleton.mp listed
            exact .inr (.inr data)
        · split at listed
          · obtain rfl := List.mem_singleton.mp listed
            exact .inr (.inr data)
          · exact .inl (List.mem_singleton.mp listed)
      · dsimp only
        cases pvIsTruthy other heap' result with
        | true =>
          have once := count_kept cfg output key value x
          rw [if_pos rfl, count_append]
          have new : count x ((filterNative cfg other (some mode)).operand (output.set cfg key value)).values =
              count x (Operand.values (.literal (output.set cfg key value))) := rfl
          have old : count x ((filterNative cfg other (some mode)).operand output).values =
              count x (Operand.values (.literal output)) := rfl
          dsimp only
          omega
        | false =>
          rw [if_neg Bool.false_ne_true, count_cons x result [value]]
          dsimp only
          omega

theorem reduce_does : reduceNative.Does (fun heap carry => look Content.entries n heap carry) n reduceStep where
  kept := fun _ _ _ agree => (agree _ (List.mem_singleton_self _)).look n
  pass := fun _ _ _ _ _ visit => by cases visit
  call := by
    intro heap carry key value given answered visit
    cases visit
    refine ⟨⟨_, rfl, fun heap' result _ _ => rfl⟩, fun w listed => ?_, fun heap' result x => ?_⟩
    · rcases List.mem_cons.mp listed with rfl | listed
      · exact .inr (.inl (List.mem_singleton_self _))
      · exact .inl (List.mem_singleton.mp listed)
    · have new : count x (reduceNative.operand result).values = count x [result] := rfl
      have old : count x (reduceNative.operand carry).values = count x [carry] := rfl
      dsimp only
      rw [count_cons x value [carry]]
      omega

end Does

/-! ## Calls -/

/-- What a native has taken from its arguments. -/
structure Given (A : Type) where
  native : Native A
  callable : PValue
  source : Nat
  start : A

section Natives
variable (cfg : Config) (other : Nat → Bool)

/-- `call_array_map` -/
def callArrayMap : List PValue → Option (Given Content)
  | [callable, .array source] => some ⟨mapNative cfg, callable, source, .empty⟩
  | _ => none

/-- The mode of a filter, where there is a callback. -/
def filterMode (callable : PValue) (mode : Nat) : Option Nat := if callable = pvNull then none else some mode

/-- The arguments of `call_array_filter`: the callback, the array and the mode. -/
def filterGiven : List PValue → Option (PValue × Nat × Option Nat)
  | [.array source] => some (pvNull, source, none)
  | [.array source, callable] => some (callable, source, filterMode callable 0)
  | [.array source, callable, .data (.int mode)] =>
    if 0 ≤ mode ∧ mode ≤ 2 then some (callable, source, filterMode callable mode.toNat) else none
  | _ => none

/-- `call_array_filter` -/
def callArrayFilter (arguments : List PValue) : Option (Given Content) :=
  (filterGiven arguments).map fun given => ⟨filterNative cfg other given.2.2, given.1, given.2.1, .empty⟩

/-- `call_array_reduce` -/
def callArrayReduce : List PValue → Option (Given PValue)
  | [.array source, callable] => some ⟨reduceNative, callable, source, pvNull⟩
  | [.array source, callable, initial] => some ⟨reduceNative, callable, source, initial⟩
  | _ => none

end Natives

/-- A native has the topmost operands as its arguments. -/
def State.native (s : State) (arguments : List PValue) (rest : List Operand) : State :=
  { s with frame := ⟨none, [], arguments.map .value⟩, callers := { s.frame with operands := rest } :: s.callers }

/-- The native has what it begins with. -/
def State.begun (s : State) (operand : Operand) : State :=
  (s.retainedAll operand.values).operands (operand :: s.frame.operands)

/-- `fail_arguments` -/
def failArguments (name : String) : Text := ascii name ++ ascii "() received invalid arguments"

/-- A call of a native: the invocations, and what comes of it. -/
inductive Calls (callee : Callee) (name : String) {A : Type} (given : Option (Given A)) (arguments : List PValue)
    (h : Host) : List Invocation → Except Text A → Host → Prop where
  | refused (refuses : given = none) : Calls callee name given arguments h [] (.error (failArguments name)) h
  | looped {g : Given A} {log : List Invocation} {outcome : Except Text A} {h' : Host} (accepts : given = some g)
      (loop : Loop callee g.native g.callable g.source arguments 0 g.start
        ⟨h.state.begun (g.native.operand g.start), h.storage⟩ log outcome h') :
      Calls callee name given arguments h log outcome h'

/-- What is in an array. -/
def State.entriesOf (s : State) (a : Nat) : List (Key × PValue) :=
  (cellAt s.heap a).elim [] fun cell => cell.content.entries

/-- **A native iterates**: its calls end if the callbacks do, and each is a fold over the entries of its array as they
are at the beginning. -/
structure Iterates {A B : Type} (callee : Callee) (name : String) (given : Option (Given A)) (arguments : List PValue)
    (h : Host) (n : Nat) (view : Heap Content → A → B) (step : B → Key → Read → Turn B Read) (start : B)
    (source : Nat) : Prop where
  ends : callee.Total → ∃ log outcome h', Calls callee name given arguments h log outcome h'
  folds : ∀ log outcome h', Calls callee name given arguments h log outcome h' →
    Folds step start (readEntries n h.state.heap (h.state.entriesOf source)) (log.map (Invocation.read n))
      (outcome.map (view h'.state.heap))

section Calls
variable {prog : Program} {A B : Type} {callee : Callee} {name : String} {g : Given A} {arguments : List PValue}
  {h : Host} {n : Nat} {view : Heap Content → A → B} {step : B → Key → Read → Turn B Read}

theorem between_begun (sound : h.state.Sound []) (fits : h.Fits)
    (operands : h.state.frame.operands = arguments.map .value)
    (start : ∀ w ∈ (g.native.operand g.start).values, w ∈ arguments ∨ ∃ d, w = .data d) :
    Between g.native g.source arguments h g.start ⟨h.state.begun (g.native.operand g.start), h.storage⟩ := by
  have live : ∀ w ∈ (g.native.operand g.start).values, Live h.state.heap w := by
    intro w listed
    rcases start w listed with argument | ⟨d, rfl⟩
    · refine sound.live_place (held_places ?_)
      rw [Frame.held, operands, flatMap_values]
      exact argument
    · exact live_data _ d
  have retained := sound.retainedAll live
  refine ⟨retained.operands fun x => ?_, fits.of_contents (retainAll_contents _), ?_,
    agree_of_contents (retainAll_contents _), rfl⟩
  · have frame : (h.state.retainedAll (g.native.operand g.start).values).frame = h.state.frame := rfl
    rw [List.flatMap_cons, count_append, count_append, frame, count_nil]
    omega
  · have begun : (h.state.begun (g.native.operand g.start)).frame.operands =
        g.native.operand g.start :: h.state.frame.operands := rfl
    rw [begun, operands]

/-- **What a native accepts it goes through.** -/
theorem iterates (within : callee.Within prog Harmless) (does : g.native.Does view n step)
    (sound : h.state.Sound []) (fits : h.Fits) (operands : h.state.frame.operands = arguments.map .value)
    (mem : .array g.source ∈ arguments) (called : g.callable ∈ arguments ∨ ∃ d, g.callable = .data d)
    (start : ∀ w ∈ (g.native.operand g.start).values, w ∈ arguments ∨ ∃ d, w = .data d) :
    Iterates callee name (some g) arguments h n view step (view h.state.heap g.start) g.source := by
  have b := between_begun sound fits operands start
  constructor
  · intro total
    have few : (live (((h.storage g.source).entries.drop 0).map PEntry.cell)).length ≤
        (live (((h.storage g.source).entries.drop 0).map PEntry.cell)).length := le_rfl
    obtain ⟨log, outcome, h', loop⟩ := Loop.ends within total does mem called _ b few
    exact ⟨log, outcome, h', .looped rfl loop⟩
  · intro log outcome h' calls
    cases calls with
    | refused refuses => cases refuses
    | looped accepts loop =>
      cases accepts
      have folds := loop.folds within does mem called b
      have begun : view (h.state.begun (g.native.operand g.start)).heap g.start = view h.state.heap g.start :=
        does.kept _ _ _ fun w _ => agree_of_contents (retainAll_contents _)
      obtain ⟨cell, found⟩ := sound.live_place (held_places (s := h.state) (by
        rw [Frame.held, operands, flatMap_values]
        exact mem)) g.source rfl
      have entries : h.state.entriesOf g.source = live ((h.storage g.source).entries.map PEntry.cell) := by
        have stored := congrArg Dict.entries (fits g.source cell found)
        rw [State.entriesOf, found]
        exact stored.symm
      rw [entries, ← begun]
      exact folds

end Calls

/-- What a native returns that builds an array. -/
def contents (n : Nat) (heap : Heap Content) (c : Content) : List (Key × Read) := readEntries n heap c.entries

section Results
variable {callee : Callee} {name : String} {given : Option (Given Content)} {arguments : List PValue} {h h' : Host}
  {n : Nat} {source : Nat} {log : List Invocation} {c : Content}

theorem entriesOf_distinct (s : State) (a n : Nat) : (keys ([] ++ readEntries n s.heap (s.entriesOf a))).Nodup := by
  rw [List.nil_append, keys_readEntries, State.entriesOf]
  cases cellAt s.heap a with
  | none => exact List.nodup_nil
  | some cell => exact cell.content.distinct

/-- **A filter that returns** has called back once for each entry, and has those for which the answer is true. -/
theorem Iterates.filtered {mode : Key → Read → List Read} {truthy : Read → Bool}
    (iterates : Iterates callee name given arguments h n (contents n) (filterStep (some mode) truthy) [] source)
    (calls : Calls callee name given arguments h log (.ok c) h') :
    ∃ answers, answers.length = (h.state.entriesOf source).length ∧
      log.map (Invocation.read n) = (readEntries n h.state.heap (h.state.entriesOf source)).zipWith
        (fun e answer => ⟨mode e.1 e.2, .ok answer⟩) answers ∧
      contents n h'.state.heap c = (((readEntries n h.state.heap (h.state.entriesOf source)).zip answers).filter
        fun p => truthy p.2).map Prod.fst := by
  obtain ⟨answers, lengths, called, out⟩ := (iterates.folds _ _ _ calls).filter_ok (entriesOf_distinct _ _ n)
  exact ⟨answers, lengths.trans (List.length_map _), called, out⟩

end Results

/-! ## An array of arrays -/

/-- `[[1]]` and `'array_pop'`. -/
def nesting : List Op :=
  [.newArray, .newArray, .pushData (.int 1), .arrPush, .built, .arrPush, .built,
    .pushData (.string (ascii "array_pop"))]

def nested : State := (runOps readonlyProgram nesting (.start 0)).get (by decide +kernel)

def packedArray (v : PValue) : PArray PValue := ⟨true, 1, 1, 1, [⟨some (.int 0, v), 0⟩], []⟩

/-- The arrays are packed. -/
def nestedStorage (a : Nat) : PArray PValue :=
  if a = 0 then packedArray (.data (.int 1)) else packedArray (.array 0)

def arrayPop : PValue := .data (.string (ascii "array_pop"))

/-- `array_filter($rows, 'array_pop')` -/
def popped : List PValue := [.array 1, arrayPop]

theorem nested_reached : Run readonlyProgram (fun _ _ => True) (.start 0) nested :=
  run_of_ops (fun _ _ _ => trivial) nesting (.refl (.start 0)) (by decide) (Option.some_get _).symm

theorem nested_operands : nested.frame.operands = (popped.map Operand.value).reverse ++ [] := by
  rfl

theorem fits_of_two {s : State} {storage : Nat → PArray PValue} {first second : Cell Content}
    (heap : s.heap = [some first, some second]) (fits₀ : (storage 0).dict = first.content.dict)
    (fits₁ : (storage 1).dict = second.content.dict) : Host.Fits ⟨s, storage⟩ := by
  intro a cell found
  rw [heap] at found
  cases a with
  | zero =>
    cases found
    exact fits₀
  | succ a =>
    cases a with
    | zero =>
      cases found
      exact fits₁
    | succ a => cases found

theorem nested_fits : Host.Fits ⟨nested, nestedStorage⟩ := fits_of_two rfl rfl rfl

/-- All that programs can do when they are called back. -/
def calleeOf (prog : Program) (condition : List PValue → Op → State → Prop) : Callee :=
  ⟨Invokes prog condition Text, Settles prog condition⟩

theorem calleeOf_within (prog : Program) (condition : List PValue → Op → State → Prop) :
    (calleeOf prog condition).Within prog condition := ⟨id, id⟩

/-! ## Iterators -/

/-- A native is called, with its arguments on top of the operands. -/
def Host.native (s : State) (storage : Nat → PArray PValue) (arguments : List PValue) (rest : List Operand) : Host :=
  ⟨s.native arguments rest, storage⟩

section Iterators
variable {prog : Program} {cfg : Config} {other : Nat → Bool} {s : State} {storage : Nat → PArray PValue}
  {arguments : List PValue} {rest : List Operand} {callee : Callee}

theorem sound_native (sound : s.Sound [])
    (operands : s.frame.operands = (arguments.map Operand.value).reverse ++ rest) :
    (s.native arguments rest).Sound [] := by
  refine sound.moved rfl fun x => ?_
  rw [count_places, count_places, operands]
  have reversed : count x ((arguments.map Operand.value).reverse.flatMap Operand.values) = count x arguments := by
    rw [← List.map_reverse, flatMap_values, count, List.countP_reverse]
    rfl
  simp only [State.native, List.flatMap_cons, List.flatMap_nil, List.flatMap_append, count_append, Frame.values,
    flatMap_values, reversed, count_nil]
  omega

theorem filterGiven_mem {callable : PValue} {source : Nat} {mode : Option Nat}
    (accepts : filterGiven arguments = some (callable, source, mode)) :
    .array source ∈ arguments ∧ (callable ∈ arguments ∨ ∃ d, callable = .data d) := by
  unfold filterGiven at accepts
  split at accepts
  · cases accepts
    exact ⟨.head _, .inr ⟨_, rfl⟩⟩
  · cases accepts
    exact ⟨.head _, .inl (.tail _ (.head _))⟩
  · split at accepts
    · cases accepts
      exact ⟨.head _, .inl (.tail _ (.head _))⟩
    · cases accepts
  · cases accepts

end Iterators

/-! ## A callback that writes its argument -/

/-- What the arrays are stored as when the inner one has been popped. -/
def poppedStorage (a : Nat) : PArray PValue := if a = 0 then ⟨true, 0, 0, 0, [], []⟩ else packedArray (.array 0)

/-- The filter, called with the rows. -/
def filtering : Host := Host.native nested nestedStorage popped []

/-- Its loop has the first row. -/
def rowEntered : Host :=
  ⟨(filtering.state.begun (.literal .empty)).entered (.array 0), nestedStorage⟩

/-- `array_pop` has the row as its argument. -/
def rowGiven : State := rowEntered.state.invoked arrayPop [.array 0]

/-- It has replaced what is in it. -/
def rowReplaced : State := (exec readonlyProgram (.mutateReplace 0 .empty) rowGiven).get (by rfl)

/-- And returns what was the last value. -/
def rowPopped : State := rowReplaced.push (.data (.int 1))

theorem pop_runs : Runs readonlyProgram (fun _ _ _ => True) rowEntered.state arrayPop [.array 0]
    ⟨rowGiven, nestedStorage⟩ ⟨rowPopped, poppedStorage⟩ := by
  have replaced : Runs readonlyProgram (fun _ _ _ => True) rowEntered.state arrayPop [.array 0]
      ⟨rowGiven, nestedStorage⟩ ⟨rowReplaced, poppedStorage⟩ := by
    have next : exec readonlyProgram (.mutateReplace 0 .empty) rowGiven = some rowReplaced := (Option.some_get _).symm
    refine .step (.refl _) ?_ ⟨⟨[rowGiven.frame], rfl⟩, trivial⟩ next (fits_of_two rfl rfl rfl) fun a => ?_
    · exact fun v listed => absurd listed List.not_mem_nil
    · cases a with
      | zero => exact .inr (.inr rfl)
      | succ a => exact .inl rfl
  have next : exec readonlyProgram (.pushData (.int 1)) rowReplaced = some rowPopped := rfl
  have allowed : Allowed rowReplaced (.pushData (.int 1)) := trivial
  exact .step replaced allowed ⟨⟨[rowReplaced.frame], rfl⟩, trivial⟩ next (fits_of_two rfl rfl rfl) fun a => .inl rfl

/-- **`array_filter($rows, 'array_pop')` keeps the row as `array_pop` has left it.** -/
theorem filter_keeps_popped : ∃ log c h', Calls (calleeOf readonlyProgram fun _ _ _ => True) "array_filter"
      (callArrayFilter readonlyProgram.cfg (fun _ => true) popped) popped filtering log (.ok c) h' ∧
    contents 2 h'.state.heap c = [(.int 0, .array [])] := by
  have invoked : Invokes readonlyProgram (fun _ _ _ => True) Text rowEntered arrayPop [.array 0]
      (.ok (.data (.int 1))) _ := .returned pop_runs rfl rfl
  exact ⟨_, _, _, .looped rfl (.call rfl rfl invoked ⟨.refl _, rfl, rfl⟩ (.finished rfl)), rfl⟩

end PhpPico.Sharing
