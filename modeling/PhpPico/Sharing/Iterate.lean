import PhpPico.Sharing.Invoke
import PhpPico.Lib.CallbackFold

/-!
# Natives that go through an array

`array_map`, `array_filter` and `array_reduce` read one entry after the other while callbacks run in between. **They
are the folds their names say over the array as it was passed**, unless a callback gives an array of theirs to a
native that writes it in place.
-/

namespace PhpPico.Sharing
open CopyOnWrite OrderedMap CallbackFold

/-! ## Natives -/

/-- What becomes of what a native has built, and what it releases. -/
structure Update (A : Type) where
  next : A
  left : List PValue

/-- What a native does with an entry. -/
inductive Visit (A : Type) where
  | pass (update : Update A)
  | call (arguments : List PValue) (answered : Heap Content → PValue → Update A)

/-- The body of a native's loop: what it has built is one of its operands. -/
structure Native (A : Type) where
  operand : A → Operand
  visit : Heap Content → A → Key → PValue → Visit A

/-- A key that is an argument. -/
def keyValue : Key → PValue
  | .int i => .data (.int i)
  | .string s => .data (.string s.bytes)

/-- `pv_is_truthy` for what is no array; `other` tells it for the values that have a header of another kind. -/
def dataTruthy (other : Nat → Bool) : Data → Bool
  | .null => false
  | .bool b => b
  | .int i => i != 0
  | .string bytes => bytes != [] && bytes != [48]
  | .object _ => true
  | .other header => other header

/-- `pv_is_truthy` -/
def pvIsTruthy (other : Nat → Bool) (heap : Heap Content) : PValue → Bool
  | .data d => dataTruthy other d
  | .array a => (cellAt heap a).elim false fun cell => !cell.content.entries.isEmpty

section Natives
variable (cfg : Config) (other : Nat → Bool)

/-- The loop of `call_array_map`. -/
def mapNative : Native Content where
  operand := .literal
  visit _ output key value := .call [value] fun _ mapped => ⟨output.set cfg key mapped, output.old key ++ [value]⟩

/-- The arguments of the callback in the three modes of `array_filter`. -/
def filterArguments (mode : Nat) (key value : PValue) : List PValue :=
  if mode = 1 then [value, key] else if mode = 2 then [key] else [value]

/-- The loop of `call_array_filter`, with the mode where there is a callback. -/
def filterNative (mode : Option Nat) : Native Content where
  operand := .literal
  visit heap output key value :=
    match mode with
    | none =>
      .pass (if pvIsTruthy other heap value then ⟨output.set cfg key value, output.old key⟩ else ⟨output, [value]⟩)
    | some mode =>
      .call (filterArguments mode (keyValue key) value) fun heap result =>
        if pvIsTruthy other heap result then ⟨output.set cfg key value, output.old key ++ [result]⟩
        else ⟨output, [result, value]⟩

/-- The loop of `call_array_reduce`. -/
def reduceNative : Native PValue where
  operand := .value
  visit _ carry _ value := .call [carry, value] fun _ next => ⟨next, [value, carry]⟩

end Natives

/-! ## Loops -/

/-- The text of an error. -/
abbrev Text := List UInt8

/-- What `invoke_callback` leaves when the invocation has left nothing. -/
def callbackError (text : Text) : Text := if text = [] then ascii "array callback invocation failed" else text

/-- An invocation: the heap at its beginning and its end, the arguments and what came of it. -/
structure Invocation where
  before : Heap Content
  arguments : List PValue
  outcome : Except Text PValue
  after : Heap Content

/-- `pa_entry_at` has retained the value. -/
def State.entered (s : State) (value : PValue) : State := (s.retained value).push value

/-- The operands of a native between two entries. -/
def State.updated (s : State) (operand : Operand) (arguments left : List PValue) : State :=
  (s.operands (operand :: arguments.map .value)).releasedAll left

/-- What the callbacks of a native do, and what is done when values are released. -/
structure Callee where
  invoke : Host → PValue → List PValue → Except Text PValue → Host → Prop
  settle : Host → Host → Prop

/-- All that happens are runs of a program whose steps meet a condition. -/
structure Callee.Within (callee : Callee) (prog : Program) (condition : List PValue → Op → State → Prop) : Prop where
  invokes : ∀ {h callable arguments outcome h'}, callee.invoke h callable arguments outcome h' →
    Invokes prog condition Text h callable arguments outcome h'
  settles : ∀ {h h'}, callee.settle h h' → Settles prog condition h h'

/-- Each invocation comes to an end. -/
structure Callee.Total (callee : Callee) : Prop where
  invokes : ∀ h callable arguments, ∃ outcome h', callee.invoke h callable arguments outcome h'
  settles : ∀ h, ∃ h', callee.settle h h'

section Loops
variable (callee : Callee) {A : Type} (native : Native A) (callable : PValue) (source : Nat) (arguments : List PValue)

/-- The loop from a position on. -/
inductive Loop : Nat → A → Host → List Invocation → Except Text A → Host → Prop where
  | finished {position : Nat} {a : A} {h : Host} (nothing : (h.storage source).paEntryAt position = none) :
      Loop position a h [] (.ok a) h
  | pass {position next : Nat} {a : A} {h h₁ h' : Host} {key : Key} {value : PValue} {update : Update A}
      {log : List Invocation} {outcome : Except Text A}
      (found : (h.storage source).paEntryAt position = some (key, value, next))
      (visit : native.visit h.state.heap a key value = .pass update)
      (settles : callee.settle
        ⟨(h.state.entered value).updated (native.operand update.next) arguments update.left, h.storage⟩ h₁)
      (later : Loop next update.next h₁ log outcome h') : Loop position a h log outcome h'
  | call {position next : Nat} {a : A} {h h₁ h₂ h' : Host} {key : Key} {value result : PValue} {given : List PValue}
      {answered : Heap Content → PValue → Update A} {log : List Invocation} {outcome : Except Text A}
      (found : (h.storage source).paEntryAt position = some (key, value, next))
      (visit : native.visit h.state.heap a key value = .call given answered)
      (invokes : callee.invoke ⟨h.state.entered value, h.storage⟩ callable given (.ok result) h₁)
      (settles : callee.settle
        ⟨h₁.state.updated (native.operand (answered h₁.state.heap result).next) arguments
          (answered h₁.state.heap result).left, h₁.storage⟩ h₂)
      (later : Loop next (answered h₁.state.heap result).next h₂ log outcome h') :
      Loop position a h (⟨(h.state.entered value).heap, given, .ok result, h₁.state.heap⟩ :: log) outcome h'
  | failed {position next : Nat} {a : A} {h h₁ : Host} {key : Key} {value : PValue} {given : List PValue}
      {answered : Heap Content → PValue → Update A} {text : Text}
      (found : (h.storage source).paEntryAt position = some (key, value, next))
      (visit : native.visit h.state.heap a key value = .call given answered)
      (invokes : callee.invoke ⟨h.state.entered value, h.storage⟩ callable given (.error text) h₁) :
      Loop position a h [⟨(h.state.entered value).heap, given, .error (callbackError text), h₁.state.heap⟩]
        (.error (callbackError text)) h₁

end Loops

/-! ## Reading -/

abbrev Read := Tree Key Data

/-- What an invocation is, read at a depth. -/
def Invocation.read (n : Nat) (i : Invocation) : Call Read Text :=
  ⟨i.arguments.map (look Content.entries n i.before), i.outcome.map (look Content.entries n i.after)⟩

/-- The entries of a content, read at a depth. -/
def readEntries (n : Nat) (heap : Heap Content) (entries : List (Key × PValue)) : List (Key × Read) :=
  entries.map fun e => (e.1, look Content.entries n heap e.2)

/-- A native does what the step of a fold does to what is read. -/
structure Native.Does {A B : Type} (native : Native A) (view : Heap Content → A → B) (n : Nat)
    (step : B → Key → Read → Turn B Read) : Prop where
  kept : ∀ heap heap' a, (∀ w ∈ (native.operand a).values, Agree Content.entries heap heap' w) →
    view heap' a = view heap a
  pass : ∀ heap a key value update, native.visit heap a key value = .pass update →
    step (view heap a) key (look Content.entries n heap value) = .pass (view heap update.next) ∧
      ∀ x, count x (native.operand update.next).values + count x update.left ≤
        count x (native.operand a).values + count x [value]
  call : ∀ heap a key value given answered, native.visit heap a key value = .call given answered →
    (∃ answered', step (view heap a) key (look Content.entries n heap value) =
        .call (given.map (look Content.entries n heap)) answered' ∧
      ∀ heap' result, view heap' a = view heap a →
        look Content.entries n heap' value = look Content.entries n heap value →
        answered' (look Content.entries n heap' result) = view heap' (answered heap' result).next) ∧
      (∀ w ∈ given, w = value ∨ w ∈ (native.operand a).values ∨ ∃ d, w = .data d) ∧
      ∀ heap' result x, count x (native.operand (answered heap' result).next).values +
          count x (answered heap' result).left ≤
        count x (native.operand a).values + count x [value] + count x [result]

section Folding
variable {prog : Program} {A B : Type} {native : Native A} {view : Heap Content → A → B} {n : Nat}
  {step : B → Key → Read → Turn B Read} {callable : PValue} {source : Nat} {arguments : List PValue}
  {callee : Callee}

variable {position next : Nat} {key : Key} {value : PValue} {passed h : Host} {a : A}

theorem paEntryAt_some {array : PArray PValue} (found : array.paEntryAt position = some (key, value, next)) :
    live ((array.entries.drop position).map PEntry.cell) =
      (key, value) :: live ((array.entries.drop next).map PEntry.cell) := by
  have first := PArray.firstLive_eq (array.entries.drop position) position
  have code : array.paEntryAt position = PArray.firstLive (array.entries.drop position) position := rfl
  rw [← code, found] at first
  obtain ⟨d, -, following, split⟩ := first
  rw [split, List.drop_drop, following, add_assoc]

theorem paEntryAt_none {array : PArray PValue} (nothing : array.paEntryAt position = none) :
    live ((array.entries.drop position).map PEntry.cell) = [] := by
  have first := PArray.firstLive_eq (array.entries.drop position) position
  have code : array.paEntryAt position = PArray.firstLive (array.entries.drop position) position := rfl
  rwa [← code, nothing] at first

theorem live_drop {V : Type} (entries : List (PEntry V)) (position : Nat) :
    live ((entries.drop position).map PEntry.cell) ⊆ live (entries.map PEntry.cell) := by
  intro e mem
  have whole : live (entries.map PEntry.cell) = live ((entries.take position).map PEntry.cell) ++
      live ((entries.drop position).map PEntry.cell) := by
    rw [live, live, live, ← List.reduceOption_append, ← List.map_append, List.take_append_drop]
  rw [whole]
  exact List.mem_append_right _ mem

/-- Where the loop is: its frame, its array as it was passed, and what it is stored as. -/
structure Between (native : Native A) (source : Nat) (arguments : List PValue) (passed : Host) (a : A) (h : Host) :
    Prop where
  sound : h.state.Sound []
  fits : h.Fits
  operands : h.state.frame.operands = native.operand a :: arguments.map .value
  agree : Agree Content.entries passed.state.heap h.state.heap (.array source)
  storage : h.storage source = passed.storage source

theorem Between.held (b : Between native source arguments passed a h) :
    h.state.frame.held = (native.operand a).values ++ arguments := by
  rw [Frame.held, b.operands, List.flatMap_cons, flatMap_values]

theorem held_places {s : State} {w : PValue} (mem : w ∈ s.frame.held) : w ∈ s.places :=
  held_mem ⟨[], rfl⟩ mem

/-- **An entry that is found** lives, and reads as it did when the array was passed. -/
theorem Between.entry {passed h : Host} {a : A} (b : Between native source arguments passed a h)
    (mem : .array source ∈ arguments) {position next : Nat} {key : Key} {value : PValue}
    (found : (h.storage source).paEntryAt position = some (key, value, next)) :
    Live h.state.heap value ∧ Agree Content.entries passed.state.heap h.state.heap value := by
  have place : Value.array source ∈ h.state.frame.held := by
    rw [b.held]
    exact List.mem_append_right _ mem
  obtain ⟨cell, at_source⟩ := b.sound.live_place (held_places place) source rfl
  have entry : (key, value) ∈ cell.content.entries := by
    have fits := b.fits source cell at_source
    have entries : live ((h.storage source).entries.map PEntry.cell) = cell.content.entries :=
      congrArg Dict.entries fits
    rw [← entries]
    apply live_drop _ position
    rw [paEntryAt_some found]
    exact .head _
  obtain ⟨cell', at_source', same⟩ := found_of_contents (b.agree source (.here source)).symm at_source
  rw [← same] at entry
  refine ⟨b.sound.live_entry at_source (mem_values.mpr ⟨key, ?_⟩), b.agree.entry at_source' entry⟩
  rw [← same]
  exact entry

theorem Between.entered (b : Between native source arguments passed a h) (live : Live h.state.heap value) :
    Kept h.state.frame.held h ⟨h.state.entered value, h.storage⟩ ∧
      (h.state.entered value).frame.held = value :: h.state.frame.held :=
  ⟨.of_contents b.fits (b.sound.retained live).push (retain_contents value), rfl⟩

/-- **An invocation for an entry** keeps the entry, and what is held besides. -/
theorem Between.invoked (does : native.Does view n step) (mem : .array source ∈ arguments)
    (called : callable ∈ arguments ∨ ∃ d, callable = .data d) {passed h h₁ : Host} {a : A} {position next : Nat}
    {key : Key} {value : PValue} {given : List PValue} {answered : Heap Content → PValue → Update A}
    {outcome : Except Text PValue} (b : Between native source arguments passed a h)
    (found : (h.storage source).paEntryAt position = some (key, value, next))
    (visit : native.visit h.state.heap a key value = .call given answered)
    (invokes : Invokes prog Harmless Text ⟨h.state.entered value, h.storage⟩ callable given outcome h₁) :
    Kept (value :: h.state.frame.held) ⟨h.state.entered value, h.storage⟩ h₁ := by
  obtain ⟨live, -⟩ := b.entry mem found
  obtain ⟨kept, held⟩ := b.entered live
  have live_held : ∀ v ∈ h.state.frame.held, Live (h.state.entered value).heap v := fun v own =>
    (b.sound.live_place (held_places own)).of_contents (retain_contents value)
  have live_called : ∀ v ∈ callable :: given, Live (h.state.entered value).heap v := by
    intro v listed
    rcases List.mem_cons.mp listed with rfl | listed
    · rcases called with argument | ⟨d, rfl⟩
      · refine live_held _ ?_
        rw [b.held]
        exact List.mem_append_right _ argument
      · exact live_data _ d
    · rcases (does.call _ _ _ _ _ _ visit).2.1 v listed with rfl | own | ⟨d, rfl⟩
      · exact live.of_contents (retain_contents v)
      · refine live_held _ ?_
        rw [b.held]
        exact List.mem_append_left _ own
      · exact live_data _ d
  have invoked := invokes.kept kept.sound kept.fits live_called
  refine invoked.of_subset fun w own => List.mem_append_right _ ?_
  rw [← held] at own
  exact own

/-- **Behind an update** the loop is where it was, with what was built, once what is released is gone. -/
theorem Between.settled {g : Host} {next : A} {left : List PValue} (sound : g.state.Sound []) (fits : g.Fits)
    (agree : Agree Content.entries passed.state.heap g.state.heap (.array source))
    (storage : g.storage source = passed.storage source) (mem : .array source ∈ arguments)
    (balance : ∀ x, count x (native.operand next).values + count x left + count x arguments ≤
      count x g.state.frame.held)
    (settles : Settles prog Harmless ⟨g.state.updated (native.operand next) arguments left, g.storage⟩ h) :
    Between native source arguments passed next h ∧
      ∀ w ∈ (native.operand next).values, Agree Content.entries g.state.heap h.state.heap w := by
  have updated : (g.state.updated (native.operand next) arguments left).Sound [] := by
    refine State.Sound.releasedAll (sound.operands fun x => ?_)
    have enough := balance x
    rw [List.flatMap_cons, flatMap_values, count_append, List.append_nil, count_nil]
    unfold Frame.held at enough
    omega
  have kept := settles.kept updated fits
  have held : (g.state.updated (native.operand next) arguments left).frame.held =
      (native.operand next).values ++ arguments := by
    have operands : (g.state.updated (native.operand next) arguments left).frame.operands =
        native.operand next :: arguments.map .value := rfl
    rw [Frame.held, operands, List.flatMap_cons, flatMap_values]
  rw [held] at kept
  have source_held := List.mem_append_right (native.operand next).values mem
  refine ⟨⟨kept.sound, kept.fits, ?_, agree.trans (kept.agree _ source_held),
    (kept.storage source source_held).trans storage⟩, fun w own => kept.agree w (List.mem_append_left _ own)⟩
  rw [settles.frame]
  rfl

theorem Between.pass (does : native.Does view n step) (mem : .array source ∈ arguments) {h₁ : Host}
    {update : Update A} (b : Between native source arguments passed a h)
    (found : (h.storage source).paEntryAt position = some (key, value, next))
    (visit : native.visit h.state.heap a key value = .pass update) (settles : Settles prog Harmless
      ⟨(h.state.entered value).updated (native.operand update.next) arguments update.left, h.storage⟩ h₁) :
    Between native source arguments passed update.next h₁ ∧ view h₁.state.heap update.next =
      view h.state.heap update.next := by
  obtain ⟨live, -⟩ := b.entry mem found
  obtain ⟨kept, held⟩ := b.entered live
  have source_held : Value.array source ∈ h.state.frame.held := by
    rw [b.held]
    exact List.mem_append_right _ mem
  have balance := (does.pass _ _ _ _ _ visit).2
  obtain ⟨b', same⟩ := Between.settled kept.sound kept.fits (b.agree.trans (kept.agree _ source_held))
    ((kept.storage _ source_held).trans b.storage) mem (fun x => by
      have enough := balance x
      rw [held, b.held, count_cons, count_append]
      omega) settles
  refine ⟨b', (does.kept _ _ _ same).trans ?_⟩
  exact does.kept _ _ _ fun w _ => agree_of_contents (retain_contents value)

theorem Between.call (does : native.Does view n step) (mem : .array source ∈ arguments)
    (called : callable ∈ arguments ∨ ∃ d, callable = .data d) {h₁ h₂ : Host} {result : PValue}
    {given : List PValue} {answered : Heap Content → PValue → Update A} (b : Between native source arguments passed a h)
    (found : (h.storage source).paEntryAt position = some (key, value, next))
    (visit : native.visit h.state.heap a key value = .call given answered)
    (invokes : Invokes prog Harmless Text ⟨h.state.entered value, h.storage⟩ callable given (.ok result) h₁)
    (settles : Settles prog Harmless ⟨h₁.state.updated (native.operand (answered h₁.state.heap result).next) arguments
        (answered h₁.state.heap result).left, h₁.storage⟩ h₂) :
    Between native source arguments passed (answered h₁.state.heap result).next h₂ ∧
      view h₁.state.heap a = view h.state.heap a ∧ view h₂.state.heap (answered h₁.state.heap result).next =
        view h₁.state.heap (answered h₁.state.heap result).next := by
  obtain ⟨live, -⟩ := b.entry mem found
  obtain ⟨kept, -⟩ := b.entered live
  have invoked := b.invoked does mem called found visit invokes
  have after : Kept h.state.frame.held h h₁ := kept.trans (invoked.of_subset (List.subset_cons_self _ _))
  have source_held : Value.array source ∈ h.state.frame.held := by
    rw [b.held]
    exact List.mem_append_right _ mem
  have balance := (does.call _ _ _ _ _ _ visit).2.2 h₁.state.heap result
  have top : h₁.state.frame.held = result :: value :: h.state.frame.held := by
    rw [invokes.frame.2]
    rfl
  obtain ⟨b', same⟩ := Between.settled after.sound after.fits (b.agree.trans (after.agree _ source_held))
    ((after.storage _ source_held).trans b.storage) mem (fun x => by
      have enough := balance x
      rw [top, count_cons, count_cons x value, b.held, count_append]
      omega) settles
  refine ⟨b', does.kept _ _ _ fun w own => after.agree w ?_, does.kept _ _ _ same⟩
  rw [b.held]
  exact List.mem_append_left _ own

/-- **A native's loop is the fold** over the entries from its position on, as they were passed. -/
theorem Loop.folds (within : callee.Within prog Harmless) (does : native.Does view n step)
    (mem : .array source ∈ arguments) (called : callable ∈ arguments ∨ ∃ d, callable = .data d) {h' : Host}
    {log : List Invocation} {outcome : Except Text A}
    (loop : Loop callee native callable source arguments position a h log outcome h')
    (b : Between native source arguments passed a h) : Folds step (view h.state.heap a)
      (readEntries n passed.state.heap (live (((passed.storage source).entries.drop position).map PEntry.cell)))
      (log.map (Invocation.read n)) (outcome.map (view h'.state.heap)) := by
  induction loop with
  | finished nothing =>
    rw [← b.storage, paEntryAt_none nothing]
    exact .nil _
  | @pass position next a h h₁ h' key value update log outcome found visit settles later ih =>
    obtain ⟨-, agree⟩ := b.entry mem found
    obtain ⟨goes_on, -⟩ := does.pass _ _ _ _ _ visit
    obtain ⟨b', same⟩ := b.pass does mem found visit (within.settles settles)
    rw [← b.storage, paEntryAt_some found, b.storage]
    refine .pass ?_ (ih b')
    rw [← agree.look n, goes_on, same]
  | @call position next a h h₁ h₂ h' key value result given answered log outcome found visit invokes settles later ih =>
    obtain ⟨-, agree⟩ := b.entry mem found
    obtain ⟨⟨answered', asks, goes_on⟩, -⟩ := does.call _ _ _ _ _ _ visit
    have invoked := b.invoked does mem called found visit (within.invokes invokes)
    obtain ⟨b', before, behind⟩ := b.call does mem called found visit (within.invokes invokes) (within.settles settles)
    rw [← b.storage, paEntryAt_some found, b.storage]
    -- the callback is asked about what the entry was
    have contents (w : PValue) : look Content.entries n (h.state.entered value).heap w =
        look Content.entries n h.state.heap w := (agree_of_contents (retain_contents value)).look n
    have reads : given.map (look Content.entries n (h.state.entered value).heap) =
        given.map (look Content.entries n h.state.heap) := List.map_congr_left fun w _ => contents w
    have value_same : look Content.entries n h₁.state.heap value = look Content.entries n h.state.heap value :=
      ((invoked.agree value (.head _)).look n).trans (contents value)
    have later := ih b'
    rw [behind, ← goes_on _ _ before value_same] at later
    have fold := Folds.call (E := Text) (look Content.entries n h₁.state.heap result) asks later
    rw [agree.look n] at fold
    rw [List.map_cons, Invocation.read]
    rw [reads]
    exact fold
  | @failed position next a h h₁ key value given answered text found visit invokes =>
    obtain ⟨-, agree⟩ := b.entry mem found
    obtain ⟨⟨answered', asks, -⟩, -⟩ := does.call _ _ _ _ _ _ visit
    have reads : given.map (look Content.entries n (h.state.entered value).heap) =
        given.map (look Content.entries n h.state.heap) :=
      List.map_congr_left fun w _ => (agree_of_contents (retain_contents value)).look n
    rw [← b.storage, paEntryAt_some found, b.storage, List.map_cons, Invocation.read]
    rw [reads]
    rw [agree.look n] at asks
    exact .failed _ asks

/-- **The loop ends**, whatever the callbacks answer. -/
theorem Loop.ends (within : callee.Within prog Harmless) (total : callee.Total) (does : native.Does view n step)
    (mem : .array source ∈ arguments) (called : callable ∈ arguments ∨ ∃ d, callable = .data d) (left : Nat)
    (b : Between native source arguments passed a h)
    (few : (live (((passed.storage source).entries.drop position).map PEntry.cell)).length ≤ left) :
    ∃ log outcome h', Loop callee native callable source arguments position a h log outcome h' := by
  induction left generalizing position a h with
  | zero =>
    cases found : (h.storage source).paEntryAt position with
    | none => exact ⟨_, _, _, .finished found⟩
    | some entry =>
      obtain ⟨key, value, next⟩ := entry
      rw [← b.storage, paEntryAt_some found, List.length_cons] at few
      exact absurd few (Nat.not_succ_le_zero _)
  | succ left ih =>
    cases found : (h.storage source).paEntryAt position with
    | none => exact ⟨_, _, _, .finished found⟩
    | some entry =>
      obtain ⟨key, value, next⟩ := entry
      rw [← b.storage, paEntryAt_some found, List.length_cons, b.storage] at few
      cases visit : native.visit h.state.heap a key value with
      | pass update =>
        obtain ⟨h₁, settles⟩ := total.settles
          ⟨(h.state.entered value).updated (native.operand update.next) arguments update.left, h.storage⟩
        obtain ⟨b', -⟩ := b.pass does mem found visit (within.settles settles)
        obtain ⟨log, outcome, h', later⟩ := ih b' (Nat.le_of_succ_le_succ few)
        exact ⟨log, outcome, h', .pass found visit settles later⟩
      | call given answered =>
        obtain ⟨outcome, h₁, invokes⟩ := total.invokes ⟨h.state.entered value, h.storage⟩ callable given
        cases outcome with
        | error text => exact ⟨_, _, _, .failed found visit invokes⟩
        | ok result =>
          obtain ⟨h₂, settles⟩ := total.settles ⟨h₁.state.updated (native.operand (answered h₁.state.heap result).next)
            arguments (answered h₁.state.heap result).left, h₁.storage⟩
          obtain ⟨b', -⟩ := b.call does mem called found visit (within.invokes invokes) (within.settles settles)
          obtain ⟨log, outcome, h', later⟩ := ih b' (Nat.le_of_succ_le_succ few)
          exact ⟨_, _, _, .call found visit invokes settles later⟩

end Folding
end PhpPico.Sharing
