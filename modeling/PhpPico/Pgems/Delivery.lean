import Mathlib.Data.List.Nodup
import PhpPico.Pgems.Poll

/-!
# Delivery of events

A loop has its event delivered to all objects before its place, and has the others still ahead. Clean steps keep this
for every loop in progress, however deep.
-/

namespace PhpPico.Poll
open List Option RingBuffer

theorem Event.type_of_concerns {event : Event} {o : PObject} (concerns : event.concerns o) : event.type = 1 := by
  unfold Event.concerns at concerns
  exact (of_decide_eq_true concerns).1

/-! ## The list of objects -/

theorem behind_cons (o : PObject) (rest : List PObject) (id : Nat) :
    behind (o :: rest) id = if o.id = id then rest else behind rest id := by
  unfold behind fromObject
  by_cases here : o.id = id
  · rw [dropWhile_cons_of_neg (by simp [here]), if_pos here, tail_cons]
  · rw [dropWhile_cons_of_pos (by simp [here]), if_neg here]

theorem behind_suffix (objects : List PObject) (id : Nat) : behind objects id <:+ objects :=
  (tail_suffix _).trans (dropWhile_suffix _)

theorem behind_append {before rest : List PObject} {o : PObject} (first : o.id ∉ before.map PObject.id) :
    behind (before ++ o :: rest) o.id = rest := by
  induction before with
  | nil => rw [nil_append, behind_cons, if_pos rfl]
  | cons a before ih =>
    simp only [map_cons, mem_cons, not_or] at first
    rw [cons_append, behind_cons, if_neg (Ne.symm first.1)]
    exact ih first.2

theorem behind_filter {objects : List PObject} {id y : Nat} (ne : y ≠ id) :
    behind (objects.filter fun o => o.id ≠ id) y = (behind objects y).filter fun o => o.id ≠ id := by
  induction objects with
  | nil => rfl
  | cons o rest ih =>
    rw [behind_cons]
    by_cases here : o.id = y
    · have kept : o.id ≠ id := here ▸ ne
      rw [if_pos here, filter_cons_of_pos (by simpa using kept), behind_cons, if_pos here]
    · rw [if_neg here]
      by_cases gone : o.id = id
      · rw [filter_cons_of_neg (by simpa using gone)]
        exact ih
      · rw [filter_cons_of_pos (by simpa using gone), behind_cons, if_neg here]
        exact ih

theorem behind_map {objects : List PObject} {f : PObject → PObject} (same : ∀ o, (f o).id = o.id) (y : Nat) :
    behind (objects.map f) y = (behind objects y).map f := by
  induction objects with
  | nil => rfl
  | cons o rest ih =>
    rw [map_cons, behind_cons, behind_cons, same]
    split
    · rfl
    · exact ih

/-! ## The invariant -/

namespace States

/-- An event that was popped has not been delivered to one of its objects. -/
def Undelivered (s : States) (i x : Nat) : Prop := x ∈ s.targets i ∧ (i, x) ∉ s.deliveries

/-- What holds of the record and the objects. -/
structure Recorded (s : States) : Prop where
  ids : (s.objects.map PObject.id).Nodup
  made : ∀ o ∈ s.objects, o.id < s.made
  fifo : s.popped.map Popped.event ++ s.queue.contents = s.accepted
  known : ∀ d ∈ s.deliveries, d.1 < s.popped.length
  nodup : s.deliveries.Nodup
  inOrder : s.due.Pairwise fun d d' => d.1 ≤ d'.1
  alone : ∀ i j x y, s.Undelivered i x → s.Undelivered j y → i = j
  last : ∀ i x, s.Undelivered i x → ∀ d ∈ s.due, d.1 ≤ i
  reported : s.lost = []
  safe : s.readFreed = false

/-- A loop that delivers an event has these objects ahead: none of them has got the event, and all that are
to get it are among them. -/
structure Ahead (s : States) (i : Nat) (objects : List PObject) : Prop where
  fresh : ∀ x, (i, x) ∈ s.deliveries → x ∉ objects.map PObject.id
  found : ∀ x, s.Undelivered i x → ∃ o ∈ objects, o.id = x ∧ o.className = ascii "GPIO" ∧
    ∀ p, s.popped[i]? = some p → p.event.concerns o

/-- The loop of an execution that is at an object. -/
def Loop (s : States) (phase : Phase) : Prop :=
  match phase with
  | .delivering i y => i < s.popped.length ∧ Alive s.objects y ∧ s.Ahead i (behind s.objects y)
  | _ => True

structure Inv (s : States) : Prop extends s.Recorded where
  loops : ∀ e ∈ s.executions, s.Loop e.phase
  distinct : s.inProgress.Nodup
  left : ∀ i x, s.Undelivered i x → i ∈ s.inProgress

/-- The execution on top walks the objects for an event, and has these ahead. -/
structure Walking (s : States) (below : List Execution) (i : Nat) (p : Popped) (objects : List PObject)
    (starved : List Nat) : Prop extends s.Recorded where
  popped : s.popped[i]? = some p
  suffix : objects <:+ s.objects
  ahead : s.Ahead i objects
  fed : ∀ x, s.Undelivered i x → x ∉ starved
  loops : ∀ e ∈ below, s.Loop e.phase
  distinct : (i :: below.filterMap fun e => e.phase.event).Nodup
  left : ∀ j x, s.Undelivered j x → j = i ∨ j ∈ below.filterMap fun e => e.phase.event

variable {s : States}

variable {i : Nat} {s' : States} {objects : List PObject} {below : List Execution} {p : Popped}
  {starved : List Nat}

theorem mem_waiting {x : Nat} : (i, x) ∈ s.waiting ↔ i ∈ s.inProgress ∧ s.Undelivered i x := by
  simp [waiting, Undelivered]

theorem Inv.mem_waiting (inv : s.Inv) {x : Nat} : (i, x) ∈ s.waiting ↔ s.Undelivered i x := by
  rw [States.mem_waiting]
  exact ⟨fun both => both.2, fun undelivered => ⟨inv.left i x undelivered, undelivered⟩⟩

theorem Inv.progress_lt (inv : s.Inv) (mem : i ∈ s.inProgress) : i < s.popped.length := by
  obtain ⟨e, running, event⟩ := mem_filterMap.mp mem
  have loop := inv.loops e running
  cases phase : e.phase with
  | idle => simp [phase, Phase.event] at event
  | popping => simp [phase, Phase.event] at event
  | delivering j y =>
    simp only [phase, Phase.event, some.injEq] at event
    rw [phase] at loop
    exact event ▸ loop.1

/-! ## Steps of PHP code -/

theorem Recorded.of_same (recorded : s.Recorded) (objects : s'.objects = s.objects) (made : s'.made = s.made)
    (fifo : s'.popped.map Popped.event ++ s'.queue.contents = s'.accepted) (popped : s'.popped = s.popped)
    (deliveries : s'.deliveries = s.deliveries) (reported : s'.lost = [])
    (safe : s'.readFreed = false) : s'.Recorded := by
  have targets : s'.targets = s.targets := by
    unfold targets
    rw [popped]
  have due : s'.due = s.due := by
    unfold due
    rw [deliveries, targets]
  have undelivered : s'.Undelivered = s.Undelivered := by
    unfold Undelivered
    rw [deliveries, targets]
  refine ⟨?_, ?_, fifo, ?_, ?_, ?_, ?_, ?_, reported, safe⟩
  · rw [objects]
    exact recorded.ids
  · rw [objects, made]
    exact recorded.made
  · rw [deliveries, popped]
    exact recorded.known
  · rw [deliveries]
    exact recorded.nodup
  · rw [due]
    exact recorded.inOrder
  · rw [undelivered]
    exact recorded.alone
  · rw [undelivered, due]
    exact recorded.last

theorem Loop.of_same {phase : Phase} (loop : s.Loop phase) (objects : s'.objects = s.objects)
    (popped : s'.popped = s.popped) (deliveries : s'.deliveries = s.deliveries) : s'.Loop phase := by
  have undelivered : s'.Undelivered = s.Undelivered := by
    unfold Undelivered targets
    rw [deliveries, popped]
  cases phase with
  | idle => trivial
  | popping => trivial
  | delivering i y =>
    obtain ⟨known, alive, fresh, found⟩ := loop
    refine ⟨popped ▸ known, objects ▸ alive, ?_, ?_⟩
    · rw [deliveries, objects]
      exact fresh
    · rw [undelivered, objects, popped]
      exact found

theorem Inv.of_executions (inv : s.Inv) (objects : s'.objects = s.objects) (made : s'.made = s.made)
    (fifo : s'.popped.map Popped.event ++ s'.queue.contents = s'.accepted) (popped : s'.popped = s.popped)
    (deliveries : s'.deliveries = s.deliveries) (reported : s'.lost = []) (safe : s'.readFreed = false)
    (phases : ∀ e ∈ s'.executions, e.phase.event.isSome → ∃ e' ∈ s.executions, e'.phase = e.phase)
    (progress : s'.inProgress = s.inProgress) : s'.Inv := by
  have undelivered : s'.Undelivered = s.Undelivered := by
    unfold Undelivered targets
    rw [deliveries, popped]
  refine ⟨inv.toRecorded.of_same objects made fifo popped deliveries reported safe, ?_, ?_, ?_⟩
  · intro e mem
    cases phase : e.phase with
    | idle => trivial
    | popping => trivial
    | delivering i y =>
      obtain ⟨e', mem', same⟩ := phases e mem (by rw [phase]; rfl)
      rw [← phase, ← same]
      exact (inv.loops e' mem').of_same objects popped deliveries
  · rw [progress]
    exact inv.distinct
  · rw [undelivered, progress]
    exact inv.left

/-- What changes the objects, but none that a loop stands at or is still to come to. -/
theorem Inv.of_objects (inv : s.Inv) {made : Nat} (ids : (objects.map PObject.id).Nodup)
    (fewer : ∀ o ∈ objects, o.id < made)
    (alive : ∀ e ∈ s.executions, ∀ i y, e.phase = .delivering i y → Alive objects y)
    (fresh : ∀ e ∈ s.executions, ∀ i y, e.phase = .delivering i y → Alive s.objects y →
      ∀ x ∈ (behind objects y).map PObject.id, x ∈ (behind s.objects y).map PObject.id)
    (found : ∀ e ∈ s.executions, ∀ i y, e.phase = .delivering i y → Alive s.objects y →
      ∀ o ∈ behind s.objects y, s.Undelivered i o.id → o.className = ascii "GPIO" →
        ∃ o' ∈ behind objects y, o'.id = o.id ∧ o'.className = ascii "GPIO" ∧
          ∀ p, s.popped[i]? = some p → p.event.concerns o → p.event.concerns o') :
    Inv { s with objects := objects, made := made } := by
  refine ⟨{ inv.toRecorded with ids := ids, made := fewer }, ?_, inv.distinct, inv.left⟩
  intro e mem
  have loop := inv.loops e mem
  cases phase : e.phase with
  | idle => trivial
  | popping => trivial
  | delivering i y =>
    rw [phase] at loop
    obtain ⟨known, alive', ahead⟩ := loop
    refine ⟨known, alive e mem i y phase, ?_, ?_⟩
    · intro x delivered mem'
      exact ahead.fresh x delivered (fresh e mem i y phase alive' x mem')
    · intro x undelivered
      obtain ⟨o, mem', rfl, gpio, concerns⟩ := ahead.found x undelivered
      obtain ⟨o', mem'', same, gpio', concerns'⟩ := found e mem i y phase alive' o mem' undelivered gpio
      exact ⟨o', mem'', same, gpio', fun p popped => concerns' p popped (concerns p popped)⟩

theorem Inv.push (inv : s.Inv) {event : Event} (taken : s.step (.push event) = some s') : s'.Inv := by
  cases pushed : s.queue.push event with
  | none =>
    simp only [step, pushed, some.injEq] at taken
    exact taken ▸ inv
  | some queue =>
    simp only [step, pushed, some.injEq] at taken
    subst taken
    refine inv.of_executions rfl rfl ?_ rfl rfl inv.reported inv.safe (fun e mem _ => ⟨e, mem, rfl⟩) rfl
    rw [Ring.push_contents pushed, ← append_assoc, inv.fifo]

theorem Inv.create (inv : s.Inv) {className : List UInt8} {data : Option GpioData}
    (taken : s.step (.create className data) = some s') : s'.Inv := by
  have new : ∀ o ∈ s.objects, s.made ≠ o.id := fun o mem => ne_of_gt (inv.made o mem)
  have other : ∀ y, Alive s.objects y → behind (⟨s.made, className, data⟩ :: s.objects) y = behind s.objects y := by
    intro y alive
    obtain ⟨o, mem, rfl⟩ := List.mem_map.mp alive
    rw [behind_cons, if_neg (new o mem)]
  have made : s' = { s with objects := ⟨s.made, className, data⟩ :: s.objects, made := s.made + 1 } := by
    simp only [step] at taken
    split at taken
    · split at taken
      · exact (some.inj taken).symm
      · cases taken
    · cases taken
  subst made
  apply inv.of_objects
  · rw [map_cons, nodup_cons]
    refine ⟨?_, inv.ids⟩
    intro mem
    obtain ⟨o, mem, same⟩ := List.mem_map.mp mem
    exact new o mem same.symm
  · intro o mem
    rcases mem_cons.mp mem with rfl | mem
    · exact Nat.lt_succ_self _
    · exact Nat.lt_succ_of_lt (inv.made o mem)
  · intro e mem i y phase
    have loop := inv.loops e mem
    rw [phase] at loop
    exact .tail _ loop.2.1
  · intro e mem i y phase alive x mem'
    rwa [other y alive] at mem'
  · intro e mem i y phase alive o mem' undelivered gpio
    rw [other y alive]
    exact ⟨o, mem', rfl, gpio, fun p popped concerns => concerns⟩

theorem Inv.destroy (inv : s.Inv) {id : Nat} (clean : s.clean (.destroy id))
    (taken : s.step (.destroy id) = some s') : s'.Inv := by
  simp only [States.clean, Bool.decide_and, Bool.and_eq_true, decide_eq_true_eq, List.all_eq_true] at clean
  obtain ⟨waits, stands⟩ := clean
  have away : ∀ e ∈ s.executions, ∀ i y, e.phase = .delivering i y → y ≠ id := by
    intro e mem i y phase
    have stand := stands e mem
    rw [phase] at stand
    simpa using stand
  have destroyed : s' = { s with objects := s.objects.filter fun o => o.id ≠ id, made := s.made } := by
    simp only [step] at taken
    split at taken
    · split at taken
      · exact (some.inj taken).symm
      · cases taken
    · cases taken
  subst destroyed
  apply inv.of_objects
  · exact (List.filter_sublist.map _).nodup inv.ids
  · intro o mem
    exact inv.made o (mem_of_mem_filter mem)
  · intro e mem i y phase
    have loop := inv.loops e mem
    rw [phase] at loop
    obtain ⟨o, mem', rfl⟩ := List.mem_map.mp loop.2.1
    apply List.mem_map.mpr
    exact ⟨o, mem_filter.mpr ⟨mem', by simpa using away e mem i _ phase⟩, rfl⟩
  · intro e mem i y phase alive x mem'
    rw [behind_filter (away e mem i y phase)] at mem'
    exact (List.filter_sublist.map _).subset mem'
  · intro e mem i y phase alive o mem' undelivered gpio
    rw [behind_filter (away e mem i y phase)]
    refine ⟨o, mem_filter.mpr ⟨mem', ?_⟩, rfl, gpio, fun p popped concerns => concerns⟩
    have kept : o.id ≠ id := by
      rintro rfl
      exact waits (List.mem_map.mpr ⟨(i, o.id), inv.mem_waiting.mpr undelivered, rfl⟩)
    simpa using kept

theorem Inv.change (inv : s.Inv) {id : Nat} {data : GpioData} (clean : s.clean (.change id data))
    (taken : s.step (.change id data) = some s') : s'.Inv := by
  simp only [States.clean, List.all_eq_true, decide_eq_true_eq] at clean
  let f : PObject → PObject := fun o => if o.id = id then { o with data := some data } else o
  have same : ∀ o, (f o).id = o.id := by
    intro o
    simp only [f]
    split <;> rfl
  have sameClass : ∀ o, (f o).className = o.className := by
    intro o
    simp only [f]
    split <;> rfl
  have ids : (s.objects.map f).map PObject.id = s.objects.map PObject.id := by
    rw [List.map_map]
    exact map_congr_left fun o _ => same o
  have changed : s' = { s with objects := s.objects.map f, made := s.made } := by
    simp only [step] at taken
    split at taken
    · split at taken
      · exact (some.inj taken).symm
      · cases taken
    · cases taken
  subst changed
  apply inv.of_objects
  · rw [ids]
    exact inv.ids
  · intro o mem
    obtain ⟨a, there, rfl⟩ := List.mem_map.mp mem
    rw [same]
    exact inv.made a there
  · intro e mem i y phase
    have loop := inv.loops e mem
    rw [phase] at loop
    unfold Alive
    rw [ids]
    exact loop.2.1
  · intro e mem i y phase alive x mem'
    rw [behind_map same, List.map_map] at mem'
    obtain ⟨o, there, rfl⟩ := List.mem_map.mp mem'
    exact List.mem_map.mpr ⟨o, there, (same o).symm⟩
  · intro e mem i y phase alive o mem' undelivered gpio
    rw [behind_map same]
    refine ⟨f o, List.mem_map_of_mem mem', same o, (sameClass o).trans gpio, ?_⟩
    intro p popped concerns
    by_cases this : o.id = id
    · have kept := clean (i, o.id) (inv.mem_waiting.mpr undelivered) this
      rw [popped] at kept
      simp only [Event.concerns, decide_eq_true_eq] at concerns ⊢
      simp only [f, if_pos this]
      simp at kept
      simp [concerns.1, kept]
    · simp only [f, if_neg this]
      exact concerns

/-! ## Executions -/

theorem Inv.enter (inv : s.Inv) {startedBy : StartedBy} (taken : s.step (.enter startedBy) = some s') : s'.Inv := by
  cases executions : s.executions with
  | nil => simp only [step, executions, reduceCtorEq] at taken
  | cons e below =>
    simp only [step, executions, ite_none_right_eq_some, some.injEq] at taken
    obtain ⟨-, rfl⟩ := taken
    refine inv.of_executions rfl rfl inv.fifo rfl rfl inv.reported inv.safe ?_ ?_
    · intro e' mem event
      rcases mem_cons.mp mem with rfl | mem
      · cases event
      · exact ⟨e', executions ▸ mem, rfl⟩
    · rw [inProgress, inProgress, executions, filterMap_cons]
      rfl

theorem Inv.leave (inv : s.Inv) {error : Option (List UInt8)} (clean : s.clean (.leave error))
    (taken : s.step (.leave error) = some s') : s'.Inv := by
  cases executions : s.executions with
  | nil => simp only [step, executions, reduceCtorEq] at taken
  | cons e rest =>
    cases rest with
    | nil => simp only [step, executions, reduceCtorEq] at taken
    | cons around below =>
      simp only [step, executions, ite_none_right_eq_some, some.injEq] at taken
      obtain ⟨⟨idle, -⟩, rfl⟩ := taken
      simp only [States.clean, executions] at clean
      have taken : ∃ around', around'.phase = around.phase ∧
          s.take e around below error = { s with executions := around' :: below, lost := [] } := by
        unfold take
        cases startedBy : e.startedBy with
        | destructor =>
          simp only [startedBy, decide_eq_true_eq] at clean
          refine ⟨around, rfl, ?_⟩
          simp [clean, inv.reported]
        | _ =>
          simp only [startedBy, decide_eq_true_eq] at clean
          cases error with
          | none => exact ⟨around, rfl, by simp [inv.reported]⟩
          | some text =>
            refine ⟨{ around with error := some text }, rfl, ?_⟩
            have none_pending : around.error = none := by simpa using clean
            simp [none_pending, inv.reported]
      obtain ⟨around', phase, taken⟩ := taken
      rw [taken]
      refine inv.of_executions rfl rfl inv.fifo rfl rfl rfl inv.safe ?_ ?_
      · intro e' mem event
        rcases mem_cons.mp mem with rfl | mem
        · exact ⟨around, by simp [executions], phase.symm⟩
        · exact ⟨e', by simp [executions, mem], rfl⟩
      · simp only [inProgress, executions, filterMap_cons, idle, phase]
        rfl

theorem Inv.report (inv : s.Inv) (taken : s.step .report = some s') : s'.Inv := by
  simp only [step] at taken
  split at taken
  · next e executions =>
    simp only [ite_none_right_eq_some, some.injEq] at taken
    obtain ⟨idle, rfl⟩ := taken
    refine inv.of_executions rfl rfl inv.fifo rfl rfl inv.reported inv.safe ?_ ?_
    · intro e' mem event
      rw [mem_singleton.mp mem] at event ⊢
      exact ⟨e, by simp [executions], rfl⟩
    · simp only [inProgress, executions, filterMap_cons]
  · cases taken

theorem Inv.poll (inv : s.Inv) (taken : s.step .poll = some s') : s'.Inv := by
  simp only [step] at taken
  split at taken
  · next e below executions =>
    simp only [ite_none_right_eq_some, some.injEq] at taken
    obtain ⟨⟨idle, -⟩, rfl⟩ := taken
    refine inv.of_executions rfl rfl inv.fifo rfl rfl inv.reported inv.safe ?_ ?_
    · intro e' mem event
      rcases mem_cons.mp mem with rfl | mem
      · cases event
      · exact ⟨e', by simp [executions, mem], rfl⟩
    · simp only [inProgress, executions, filterMap_cons, idle]
      rfl
  · cases taken

/-! ## The loop -/

theorem Walking.none_left (walking : s.Walking below i p objects starved)
    (none_found : ∀ o ∈ objects, ¬ (o.className = ascii "GPIO" ∧ p.event.concerns o ∧ o.id ∉ starved))
    (x : Nat) : ¬ s.Undelivered i x := by
  intro undelivered
  obtain ⟨o, mem, rfl, gpio, concerns⟩ := walking.ahead.found x undelivered
  exact none_found o mem ⟨gpio, concerns p walking.popped, walking.fed _ undelivered⟩

theorem Walking.ends (walking : s.Walking below i p objects starved) (e : Execution)
    (none_found : ∀ o ∈ objects, ¬ (o.className = ascii "GPIO" ∧ p.event.concerns o ∧ o.id ∉ starved)) :
    Inv { s with executions := { e with phase := .popping } :: below } := by
  refine ⟨walking.toRecorded.of_same rfl rfl walking.fifo rfl rfl walking.reported walking.safe, ?_, ?_, ?_⟩
  · intro e' mem
    rcases mem_cons.mp mem with rfl | mem
    · trivial
    · exact Loop.of_same (walking.loops e' mem) rfl rfl rfl
  · exact (nodup_cons.mp walking.distinct).2
  · intro j x undelivered
    rcases walking.left j x undelivered with rfl | left
    · exact absurd undelivered (walking.none_left none_found x)
    · exact left

theorem Walking.calls {before rest : List PObject} {o : PObject}
    (walking : s.Walking below i p (before ++ o :: rest) starved) (e : Execution)
    (passed : ∀ a ∈ before, ¬ (a.className = ascii "GPIO" ∧ p.event.concerns a ∧ a.id ∉ starved))
    {callback : Execution} (starts : callback.phase = .idle) :
    Inv { s with
      executions := callback :: { e with phase := .delivering i o.id } :: below
      deliveries := s.deliveries ++ [(i, o.id)] } := by
  let s' : States := { s with
    executions := callback :: { e with phase := .delivering i o.id } :: below
    deliveries := s.deliveries ++ [(i, o.id)] }
  change s'.Inv
  obtain ⟨earlier, split_objects⟩ := walking.suffix
  rw [← append_assoc] at split_objects
  have ids : ((earlier ++ before ++ o :: rest).map PObject.id).Nodup := split_objects ▸ walking.ids
  have ids' := ids
  simp only [map_append, map_cons, nodup_append, nodup_cons] at ids'
  obtain ⟨-, ⟨o_not_rest, -⟩, apart⟩ := ids'
  have here : o.id ∉ (earlier ++ before).map PObject.id := by
    intro mem
    rw [map_append] at mem
    rcases mem_append.mp mem with mem | mem
    · exact apart _ (mem_append_left _ mem) _ (.head _) rfl
    · exact apart _ (mem_append_right _ mem) _ (.head _) rfl
  have behind_o : behind s.objects o.id = rest := by
    rw [← split_objects]
    exact behind_append here
  have new : (i, o.id) ∉ s.deliveries := by
    intro delivered
    apply walking.ahead.fresh o.id delivered
    exact List.mem_map_of_mem (mem_append_right _ (.head _))
  have less : i < s.popped.length := (List.getElem?_eq_some_iff.mp walking.popped).1
  -- what is still to be delivered was so before
  have before_step : ∀ {j x}, s'.Undelivered j x → s.Undelivered j x ∧ (j, x) ≠ (i, o.id) := by
    rintro j x ⟨target, undelivered⟩
    have parts : (j, x) ∉ s.deliveries ∧ (j, x) ≠ (i, o.id) := by
      simpa [s'] using undelivered
    exact ⟨⟨target, parts.1⟩, parts.2⟩
  have due : ∀ d ∈ s'.due, d ∈ s.due ∨ d = (i, o.id) ∧ s.Undelivered i o.id := by
    intro d mem
    obtain ⟨delivered, target⟩ := mem_filter.mp mem
    rcases mem_append.mp delivered with old | this
    · exact .inl (mem_filter.mpr ⟨old, target⟩)
    · have this : d = (i, o.id) := mem_singleton.mp this
      subst this
      exact .inr ⟨rfl, of_decide_eq_true target, new⟩
  refine ⟨⟨walking.ids, walking.made, walking.fifo, ?_, ?_, ?_, ?_, ?_, walking.reported, walking.safe⟩, ?_, ?_, ?_⟩
  · intro d delivered
    rcases mem_append.mp delivered with old | this
    · exact walking.known d old
    · rw [mem_singleton.mp this]
      exact less
  · apply nodup_append'.mpr
    refine ⟨walking.nodup, nodup_singleton _, ?_⟩
    intro d old this
    rw [mem_singleton.mp this] at old
    exact new old
  · change (List.filter (fun d => d.2 ∈ s.targets d.1) (s.deliveries ++ [(i, o.id)])).Pairwise _
    rw [filter_append]
    apply pairwise_append.mpr
    refine ⟨walking.inOrder, ?_, ?_⟩
    · exact (pairwise_singleton _ (i, o.id)).filter _
    · intro d old d' this
      obtain ⟨this, target⟩ := mem_filter.mp this
      rw [mem_singleton.mp this] at target ⊢
      exact walking.last i o.id ⟨of_decide_eq_true target, new⟩ d old
  · intro j k x y undelivered undelivered'
    exact walking.alone j k x y (before_step undelivered).1 (before_step undelivered').1
  · intro j x undelivered d mem
    rcases due d mem with old | ⟨rfl, here⟩
    · exact walking.last j x (before_step undelivered).1 d old
    · exact le_of_eq (walking.alone i j o.id x here (before_step undelivered).1)
  · intro e' running
    rcases mem_cons.mp running with rfl | running
    · rw [starts]
      trivial
    rcases mem_cons.mp running with rfl | around
    · -- the loop that calls
      refine ⟨less, ?_, ?_, ?_⟩
      · apply List.mem_map_of_mem
        rw [← split_objects]
        exact mem_append_right _ (.head _)
      · intro x delivered
        rw [behind_o]
        rcases mem_append.mp delivered with old | this
        · intro mem'
          apply walking.ahead.fresh x old
          rw [map_append, map_cons]
          exact mem_append_right _ (.tail _ mem')
        · obtain ⟨-, rfl⟩ := Prod.mk.inj (mem_singleton.mp this)
          exact o_not_rest
      · intro x undelivered
        rw [behind_o]
        obtain ⟨undelivered, ne⟩ := before_step undelivered
        obtain ⟨a, mem', rfl, gpio, concerns⟩ := walking.ahead.found x undelivered
        refine ⟨a, ?_, rfl, gpio, concerns⟩
        rcases mem_append.mp mem' with skipped | mem'
        · exact absurd ⟨gpio, concerns p walking.popped, walking.fed _ undelivered⟩ (passed a skipped)
        · rcases mem_cons.mp mem' with rfl | mem'
          · exact absurd rfl ne
          · exact mem'
    · -- the loops around
      have loop := walking.loops e' around
      cases phase : e'.phase with
      | idle => trivial
      | popping => trivial
      | delivering j y =>
        rw [phase] at loop
        obtain ⟨known, alive, fresh, found⟩ := loop
        have ne : j ≠ i := by
          rintro rfl
          apply (nodup_cons.mp walking.distinct).1
          exact mem_filterMap.mpr ⟨e', around, by rw [phase]; rfl⟩
        refine ⟨known, alive, ?_, ?_⟩
        · intro x delivered
          rcases mem_append.mp delivered with old | this
          · exact fresh x old
          · exact absurd (congrArg Prod.fst (mem_singleton.mp this)) ne
        · intro x undelivered
          exact found x (before_step undelivered).1
  · change (List.filterMap _ (callback :: _ :: below)).Nodup
    rw [filterMap_cons, starts]
    exact walking.distinct
  · intro j x undelivered
    change j ∈ List.filterMap _ (callback :: _ :: below)
    rw [filterMap_cons, starts]
    rcases walking.left j x (before_step undelivered).1 with rfl | left
    · exact .head _
    · exact .tail _ left

theorem Walking.walk (walking : s.Walking below i p objects starved) (e : Execution) :
    (s.walk e below i p.event objects starved).Inv := by
  unfold States.walk
  split
  · next none_found =>
    apply walking.ends e
    simpa using none_found
  · next o found =>
    obtain ⟨-, before, rest, rfl, passed⟩ := find?_eq_some_iff_append.mp found
    refine walking.calls e ?_ rfl
    intro a mem matching
    have passes := passed a mem
    simp [matching] at passes

theorem Inv.advance (inv : s.Inv) (clean : s.clean (.advance starved))
    (taken : s.step (.advance starved) = some s') : s'.Inv := by
  simp only [step] at taken
  split at taken
  · next startedBy gcObjects i y error below executions =>
    have loop := inv.loops ⟨startedBy, gcObjects, .delivering i y, error⟩ (by simp [executions])
    obtain ⟨-, alive, ahead⟩ := loop
    have progress : s.inProgress = i :: below.filterMap fun e => e.phase.event := by
      rw [inProgress, executions]
      rfl
    simp only [States.clean, executions, List.all_eq_true, Phase.event] at clean
    cases popped : s.popped[i]? with
    | none => simp only [popped, reduceCtorEq] at taken
    | some p =>
      simp only [popped, if_pos alive, some.injEq] at taken
      subst taken
      apply Walking.walk
      refine ⟨inv.toRecorded, popped, behind_suffix s.objects y, ahead, ?_, ?_, ?_, ?_⟩
      · intro x undelivered
        exact of_decide_eq_true (clean (i, x) (inv.mem_waiting.mpr undelivered)) rfl
      · intro e mem
        exact inv.loops e (executions ▸ mem_cons_of_mem _ mem)
      · exact progress ▸ inv.distinct
      · intro j x undelivered
        have left := inv.left j x undelivered
        rw [progress] at left
        exact mem_cons.mp left
  · cases taken

section Pop

variable {event : Event} {queue : Ring Event 16}

theorem targets_popEvent_old {i : Nat} (less : i < s.popped.length) : (s.popEvent event queue).targets i = s.targets i := by
  simp only [targets, popEvent, getElem?_append_left less]

theorem Undelivered.popEvent {i x : Nat} (undelivered : (s.popEvent event queue).Undelivered i x) :
    s.Undelivered i x ∨ i = s.popped.length ∧ ∃ o ∈ s.objects, o.id = x ∧ event.concerns o := by
  obtain ⟨target, waits⟩ := undelivered
  rcases lt_trichotomy i s.popped.length with less | rfl | greater
  · rw [targets_popEvent_old less] at target
    exact .inl ⟨target, waits⟩
  · right
    refine ⟨rfl, ?_⟩
    simp only [targets, States.popEvent, getElem?_concat_length, map_some, getD_some,
      List.mem_map, mem_filter] at target
    obtain ⟨o, ⟨mem, concerns⟩, same⟩ := target
    exact ⟨o, mem, same, concerns⟩
  · have beyond : (s.popped ++ [⟨event, (s.objects.filter event.concerns).map PObject.id⟩])[i]? = none := by
      apply getElem?_eq_none
      simp only [length_append, length_singleton]
      omega
    simp only [targets, States.popEvent, beyond, map_none, getD_none, not_mem_nil] at target

theorem Inv.popEvent_due (inv : s.Inv) : (s.popEvent event queue).due = s.due := by
  apply filter_congr
  intro d mem
  rw [targets_popEvent_old (inv.known d mem)]

theorem Inv.popEvent_recorded (inv : s.Inv) (popped : s.queue.pop = some (event, queue))
    (free : ∀ o ∈ s.objects, event.concerns o → s.waiting = []) : (s.popEvent event queue).Recorded := by
  have none_waits : ∀ o ∈ s.objects, event.concerns o → ∀ i x, ¬ s.Undelivered i x := by
    intro o mem concerns i x undelivered
    have waits := inv.mem_waiting.mpr undelivered
    rw [free o mem concerns] at waits
    exact not_mem_nil waits
  refine ⟨inv.ids, inv.made, ?_, ?_, inv.nodup, ?_, ?_, ?_, inv.reported, inv.safe⟩
  · have fifo := inv.fifo
    rw [Ring.pop_contents popped] at fifo
    simpa [popEvent] using fifo
  · intro d mem
    simp only [popEvent, length_append, length_singleton]
    exact Nat.lt_succ_of_lt (inv.known d mem)
  · rw [inv.popEvent_due]
    exact inv.inOrder
  · intro i j x y undelivered undelivered'
    rcases undelivered.popEvent with old | ⟨new, o, mem, -, concerns⟩
    · rcases undelivered'.popEvent with old' | ⟨-, o, mem, -, concerns⟩
      · exact inv.alone i j x y old old'
      · exact absurd old (none_waits o mem concerns i x)
    · rcases undelivered'.popEvent with old' | ⟨new', -⟩
      · exact absurd old' (none_waits o mem concerns j y)
      · exact new.trans new'.symm
  · intro i x undelivered d mem
    rw [inv.popEvent_due] at mem
    rcases undelivered.popEvent with old | ⟨rfl, -⟩
    · exact inv.last i x old d mem
    · exact le_of_lt (inv.known d (mem_of_mem_filter mem))

theorem Loop.popEvent {phase : Phase} (loop : s.Loop phase) : (s.popEvent event queue).Loop phase := by
  cases phase with
  | idle => trivial
  | popping => trivial
  | delivering i y =>
    obtain ⟨known, alive, fresh, found⟩ := loop
    refine ⟨?_, alive, fresh, ?_⟩
    · simp only [States.popEvent, length_append, length_singleton]
      exact Nat.lt_succ_of_lt known
    · intro x undelivered
      rcases undelivered.popEvent with old | ⟨rfl, -⟩
      · simp only [States.popEvent, getElem?_append_left known]
        exact found x old
      · exact absurd known (lt_irrefl _)

end Pop

theorem Inv.pop (inv : s.Inv) (clean : s.clean (.pop starved)) (taken : s.step (.pop starved) = some s') : s'.Inv := by
  cases executions : s.executions with
  | nil => simp only [step, executions, reduceCtorEq] at taken
  | cons e below =>
    simp only [step, executions, ite_none_right_eq_some] at taken
    obtain ⟨popping, taken⟩ := taken
    have progress : s.inProgress = below.filterMap fun e => e.phase.event := by
      rw [inProgress, executions, filterMap_cons, popping]
      rfl
    cases popped : s.queue.pop with
    | none =>
      simp only [popped, some.injEq] at taken
      subst taken
      refine inv.of_executions rfl rfl inv.fifo rfl rfl inv.reported inv.safe ?_ ?_
      · intro e' mem event
        rcases mem_cons.mp mem with rfl | mem
        · cases event
        · exact ⟨e', by simp [executions, mem], rfl⟩
      · rw [progress]
        rfl
    | some taken_event =>
      obtain ⟨event, queue⟩ := taken_event
      simp only [States.clean, executions, popped, decide_eq_true_eq] at clean
      have recorded := inv.popEvent_recorded popped fun o mem concerns =>
        ((clean (Event.type_of_concerns concerns)).2 o mem concerns).1
      have loops : ∀ e ∈ s.executions, (s.popEvent event queue).Loop e.phase := fun e mem => (inv.loops e mem).popEvent
      -- an event without objects is left at once
      have passed : (∀ o ∈ s.objects, ¬ event.concerns o) → (s.popEvent event queue).Inv := by
        intro none_concerned
        refine ⟨recorded, loops, inv.distinct, ?_⟩
        intro i x undelivered
        rcases undelivered.popEvent with old | ⟨-, o, mem, -, concerns⟩
        · exact inv.left i x old
        · exact absurd concerns (none_concerned o mem)
      simp only [popped] at taken
      split at taken
      · next other =>
        rw [← some.inj taken]
        apply passed
        intro o mem concerns
        exact other (Event.type_of_concerns concerns)
      · next gpio =>
        have gpio : event.type = 1 := not_not.mp gpio
        obtain ⟨alive, finds⟩ := clean gpio
        split at taken
        · next none_first =>
          rw [← some.inj taken]
          apply passed
          intro o mem concerns
          have found := (finds o mem concerns).2
          change s.firstObject e = none at none_first
          simp [States.finds, none_first] at found
        · next first is_first =>
          change s.firstObject e = some first at is_first
          rw [is_first, all_some] at alive
          have alive : Alive (s.popEvent event queue).objects first := of_decide_eq_true alive
          rw [if_pos alive, some.injEq] at taken
          subst taken
          have at_end : (s.popEvent event queue).popped[s.popped.length]? =
              some ⟨event, (s.objects.filter event.concerns).map PObject.id⟩ := getElem?_concat_length
          have newest : (s.popEvent event queue).popped.length - 1 = s.popped.length := by
            simp only [States.popEvent, length_append, length_singleton, Nat.add_sub_cancel]
          have found : ∀ o ∈ s.objects, event.concerns o →
              o ∈ fromObject s.objects first ∧ o.className = ascii "GPIO" ∧ o.id ∉ starved := by
            intro o mem concerns
            have found := (finds o mem concerns).2
            simpa [States.finds, is_first] using found
          have new : ∀ x, (s.popEvent event queue).Undelivered s.popped.length x →
              ∃ o ∈ s.objects, o.id = x ∧ event.concerns o := by
            intro x undelivered
            rcases undelivered.popEvent with old | ⟨-, here⟩
            · exact absurd (inv.progress_lt (inv.left _ x old)) (lt_irrefl _)
            · exact here
          rw [newest]
          have walking : (s.popEvent event queue).Walking below s.popped.length
              ⟨event, (s.objects.filter event.concerns).map PObject.id⟩ (fromObject s.objects first) starved := by
            refine ⟨recorded, at_end, dropWhile_suffix _, ⟨?_, ?_⟩, ?_, ?_, ?_, ?_⟩
            · intro x delivered
              exact absurd (inv.known _ delivered) (lt_irrefl _)
            · intro x undelivered
              obtain ⟨o, mem, same, concerns⟩ := new x undelivered
              obtain ⟨there, className, -⟩ := found o mem concerns
              refine ⟨o, there, same, className, ?_⟩
              intro p this
              rw [at_end] at this
              exact some.inj this ▸ concerns
            · intro x undelivered
              obtain ⟨o, mem, rfl, concerns⟩ := new x undelivered
              exact (found o mem concerns).2.2
            · intro e' mem
              exact loops e' (executions ▸ mem_cons_of_mem _ mem)
            · rw [nodup_cons, ← progress]
              exact ⟨fun mem => lt_irrefl _ (inv.progress_lt mem), inv.distinct⟩
            · intro j x undelivered
              rcases undelivered.popEvent with old | ⟨rfl, -⟩
              · exact .inr (progress ▸ inv.left j x old)
              · exact .inl rfl
          exact walking.walk e


/-! ## Runs -/

/-- **One step** keeps the invariant. -/
theorem Inv.step (inv : s.Inv) {a : Action} (clean : s.clean a) (taken : s.step a = some s') : s'.Inv := by
  cases a with
  | push event => exact inv.push taken
  | create className data => exact inv.create taken
  | destroy id => exact inv.destroy clean taken
  | change id data => exact inv.change clean taken
  | enter startedBy => exact inv.enter taken
  | leave error => exact inv.leave clean taken
  | report => exact inv.report taken
  | poll => exact inv.poll taken
  | pop starved => exact inv.pop clean taken
  | advance starved => exact inv.advance clean taken

theorem Inv.run (inv : s.Inv) {actions : List Action} (clean : s.cleanRun actions) {s' : States}
    (run : actions.foldlM States.step s = some s') : s'.Inv := by
  induction actions generalizing s with
  | nil => exact some.inj run ▸ inv
  | cons a rest ih =>
    rw [cleanRun, Bool.and_eq_true] at clean
    cases taken : s.step a with
    | none =>
      rw [foldlM_cons, taken] at run
      cases run
    | some next =>
      rw [foldlM_cons, taken] at run
      rw [taken, all_some] at clean
      exact ih (inv.step clean.1 taken) clean.2 run

theorem inv_opened : opened.Inv where
  ids := .nil
  made := fun o mem => absurd mem not_mem_nil
  fifo := rfl
  known := fun d mem => absurd mem not_mem_nil
  nodup := .nil
  inOrder := .nil
  alone := fun i j x y undelivered => absurd undelivered.1 not_mem_nil
  last := fun i x undelivered => absurd undelivered.1 not_mem_nil
  reported := rfl
  safe := rfl
  loops := fun e mem => by
    rw [mem_singleton.mp mem]
    trivial
  distinct := .nil
  left := fun i x undelivered => absurd undelivered.1 not_mem_nil

/-- The invariant gives what is to be shown. -/
theorem Inv.delivers (inv : s.Inv) : s.Delivers where
  fifo := inv.fifo
  once := by
    intro i left x target
    apply count_eq_one_of_mem inv.nodup
    by_contra undelivered
    exact left (inv.left i x ⟨target, undelivered⟩)
  atMostOnce := inv.nodup
  inOrder := inv.inOrder
  reported := inv.reported
  safe := inv.safe

/-- **Events are delivered** in every state of a run whose steps leave the loops alone: in the order they were
accepted, once to each object that had a callback when they were popped, with every error reported. -/
theorem clean_run_delivers {actions : List Action} (clean : opened.cleanRun actions) {s : States}
    (run : actions.foldlM States.step opened = some s) : s.Delivers :=
  (inv_opened.run clean run).delivers

end States

/-! ## Two runs -/

/-- Two objects with a callback for pin 6, and two events for them. -/
def twoObjects : List Action :=
  [.create (ascii "GPIO") (some ⟨6, some 0⟩), .create (ascii "GPIO") (some ⟨6, some 1⟩), .push ⟨1, 6, 3⟩, .push ⟨1, 6, 1⟩,
    .poll, .pop []]

/-- The callbacks create an object and raise an error; then the second event is delivered to all three. -/
def deliveredRun : List Action :=
  twoObjects ++ ([.create (ascii "GPIO") (some ⟨6, some 2⟩), .leave none, .advance [], .leave (some (ascii "failed")),
      .advance [], .pop [], .leave none, .advance [], .leave none, .advance [], .leave none, .advance [], .pop [],
      .report] : List Action)

theorem deliveredRun_delivers : ∃ s, deliveredRun.foldlM States.step States.opened = some s ∧
    s.deliveries = [(0, 1), (0, 0), (1, 2), (1, 1), (1, 0)] ∧ s.Delivers := by
  have ran : (deliveredRun.foldlM States.step States.opened).map States.deliveries =
      some [(0, 1), (0, 0), (1, 2), (1, 1), (1, 0)] := by decide +kernel
  obtain ⟨s, run, deliveries⟩ := map_eq_some_iff.mp ran
  exact ⟨s, run, deliveries, States.clean_run_delivers (by decide +kernel) run⟩

/-- The callback of the first object destroys that object, from which the loop goes on. -/
def destroyedRun : List Action := twoObjects ++ [Action.destroy 1, Action.leave none, Action.advance []]

theorem destroyed_object_read : ∃ s, destroyedRun.foldlM States.step States.opened = some s ∧
    s.readFreed = true ∧ ¬ s.Delivers := by
  have ran : (destroyedRun.foldlM States.step States.opened).map States.readFreed = some true := by decide +kernel
  obtain ⟨s, run, freed⟩ := map_eq_some_iff.mp ran
  refine ⟨s, run, freed, ?_⟩
  intro delivers
  rw [delivers.safe] at freed
  cases freed

end PhpPico.Poll
