import PhpPico.Exit.Machine

/-!
# When exit is final

`exit` ends the run of the program exactly when each interpreter that waits is in an instruction that calls no more
code behind the present callback.
-/

namespace PhpPico.Exit
open List

/-- The task calls no more code when its callback has ended because of `exit`; `failed` says that the
callback leaves an error, too. -/
def Task.stops (failed : Bool) : Task → Bool
  | .entries left => failed || left = 0
  | .sort i _ used => failed || used ≤ i + 1
  | .echo _ => true
  | .concatLeft right => right ≠ .object
  | .concatRight _ => true
  | .magic => true
  | .includeFile => true
  | .poll left failed' => left = 0 && (failed' || failed)

/-- The interpreter that waits is left with an error. A string is missing where `__toString` has
called `exit`, and for an error in a handler of events there is no catch. -/
def Frame.fails (failed : Bool) (frame : Frame) : Bool :=
  match frame.task with
  | .echo _ | .concatLeft _ | .concatRight _ => !frame.handled
  | .poll _ _ => true
  | _ => failed && !frame.handled

/-- No interpreter that waits calls more code. -/
def Settled (failed : Bool) : List Frame → Bool
  | [] => true
  | frame :: rest => frame.task.stops failed && Settled (frame.fails failed) rest

theorem Task.stops_mono {task : Task} (h : task.stops false = true) (failed : Bool) : task.stops failed = true := by
  cases failed with
  | false => exact h
  | true => cases task <;> simp_all [Task.stops]

theorem Frame.fails_mono {frame : Frame} (failed : Bool) (h : frame.fails false = true) :
    frame.fails failed = true := by
  cases failed with
  | false => exact h
  | true =>
    unfold Frame.fails at h ⊢
    split at h <;> simp_all

theorem Settled.mono {below : List Frame} {failed failed' : Bool} (h : Settled failed below = true)
    (more : failed = true → failed' = true) : Settled failed' below = true := by
  induction below generalizing failed failed' with
  | nil => rfl
  | cons frame rest ih =>
    rw [Settled, Bool.and_eq_true] at h ⊢
    cases failed with
    | true =>
      rw [more rfl]
      exact h
    | false => exact ⟨Task.stops_mono h.1 failed', ih h.2 (Frame.fails_mono failed')⟩

/-- A task that calls no more code ends its instruction, without output. -/
theorem after_of_stops {frame : Frame} {failed : Bool} (stops : frame.task.stops failed = true) :
    (frame.task.after failed .null = .polled true ∧ frame.fails failed = true) ∨
      ∃ raises, frame.task.after failed .null = .done raises [] ∧ frame.fails failed = (raises && !frame.handled) := by
  obtain ⟨exit, task, handled⟩ := frame
  cases task with
  | entries left =>
    right
    cases failed with
    | true => exact ⟨true, rfl, rfl⟩
    | false =>
      obtain rfl : left = 0 := by simpa [Task.stops] using stops
      exact ⟨false, rfl, rfl⟩
  | sort i insert used =>
    right
    cases failed with
    | true => exact ⟨true, rfl, rfl⟩
    | false =>
      have last : used ≤ i + 1 := by simpa [Task.stops] using stops
      have next : sortFrom (i + 1) used = .done false [] := if_neg (not_lt.mpr last)
      exact ⟨false, next, rfl⟩
  | echo rest => exact .inr ⟨true, by cases failed <;> rfl, rfl⟩
  | concatLeft right =>
    cases right with
    | text bytes => exact .inr ⟨true, by cases failed <;> rfl, rfl⟩
    | object => cases stops
    | other => exact .inr ⟨true, rfl, rfl⟩
  | concatRight leftOk => exact .inr ⟨true, by cases leftOk <;> cases failed <;> rfl, rfl⟩
  | magic => exact .inr ⟨failed, rfl, rfl⟩
  | includeFile => exact .inr ⟨failed, rfl, rfl⟩
  | poll left failed' =>
    left
    simp only [Task.stops, Bool.and_eq_true, decide_eq_true_eq] at stops
    obtain ⟨rfl, bad⟩ := stops
    exact ⟨congrArg Next.polled bad, rfl⟩

/-- Any other task calls code, or lets the instruction be executed in front of which it is. -/
theorem after_of_not_stops {task : Task} {failed : Bool} (more : task.stops failed = false) :
    task.after failed .null = .polled false ∨ ∃ next, task.after failed .null = .call next [] := by
  cases task with
  | entries left =>
    simp only [Task.stops, Bool.or_eq_false_iff, decide_eq_false_iff_not] at more
    obtain ⟨rfl, ne⟩ := more
    obtain ⟨left, rfl⟩ := Nat.exists_eq_succ_of_ne_zero ne
    exact .inr ⟨_, rfl⟩
  | sort i insert used =>
    simp only [Task.stops, Bool.or_eq_false_iff, decide_eq_false_iff_not, not_le] at more
    obtain ⟨rfl, lt⟩ := more
    have next : sortFrom (i + 1) used = .call (.sort (i + 1) (i + 1) used) [] := if_pos lt
    exact .inr ⟨_, next⟩
  | concatLeft right =>
    cases right with
    | object => exact .inr ⟨_, rfl⟩
    | _ => cases more
  | poll left failed' =>
    cases left with
    | zero => exact .inl (congrArg Next.polled more)
    | succ left => exact .inr ⟨_, rfl⟩
  | _ => cases more

namespace State
variable {s s' : State} {frame : Frame} {rest : List Frame}

/-- `exit` has been called in the interpreter that runs, or in one that has ended. -/
structure Exiting (s : State) : Prop where
  exit : s.exit = true
  unpolled : s.polled = false

/-- Where the task calls no more code, the interpreter that has waited ends, too. -/
theorem resume_stops (exiting : s.Exiting) (rest : List Frame) {failed : Bool}
    (stops : frame.task.stops failed = true) :
    (s.resume frame rest failed .null).Exiting ∧ (s.resume frame rest failed .null).below = rest ∧
      (s.resume frame rest failed .null).error = frame.fails failed ∧
      (s.resume frame rest failed .null).events = s.events := by
  have exit : (frame.exit || s.exit) = true := by rw [exiting.exit, Bool.or_true]
  rcases after_of_stops stops with ⟨polled, fails⟩ | ⟨raises, done, fails⟩
  · rw [resume, polled, fails]
    exact ⟨⟨exit, rfl⟩, rfl, rfl, rfl⟩
  · rw [resume, done, fails]
    exact ⟨⟨exit, rfl⟩, rfl, rfl, append_nil _⟩

/-- Where it does, an instruction follows. -/
theorem resume_goes_on (s : State) (rest : List Frame) {failed : Bool} (more : frame.task.stops failed = false) :
    (s.resume frame rest failed .null).fetches = true ∧ (s.resume frame rest failed .null).events = s.events := by
  rcases after_of_not_stops more with polled | ⟨next, call⟩
  · rw [resume, polled]
    exact ⟨rfl, rfl⟩
  · rw [resume, call]
    exact ⟨rfl, append_nil _⟩

theorem Exiting.loops (exiting : s.Exiting) : s.loops = false := by
  rw [State.loops, exiting.exit, Bool.not_true, Bool.and_false]

theorem Exiting.fetches (exiting : s.Exiting) : s.fetches = false := by
  rw [State.fetches, exiting.unpolled, exiting.loops, Bool.or_false]

/-- While all that waits is settled, the only step is that another interpreter ends. -/
theorem Exiting.step (exiting : s.Exiting) (settled : Settled s.error s.below = true) {action : Action}
    (h : s.step action = some s') : s'.Exiting ∧ Settled s'.error s'.below = true ∧ s'.events = s.events := by
  cases action with
  | plain out raises handled => simp only [State.step, exiting.fetches, Bool.false_eq_true, if_false, reduceCtorEq] at h
  | exit message => simp only [State.step, exiting.fetches, Bool.false_eq_true, if_false, reduceCtorEq] at h
  | start op handled => simp only [State.step, exiting.fetches, Bool.false_eq_true, if_false, reduceCtorEq] at h
  | poll left =>
    simp only [State.step, exiting.loops, Bool.and_false, Bool.false_eq_true, if_false, reduceCtorEq] at h
  | interrupt =>
    simp only [State.step, exiting.loops, Bool.and_false, Bool.false_eq_true, if_false, reduceCtorEq] at h
  | halt r invalid =>
    simp only [State.step, exiting.fetches, Bool.false_eq_true, if_false] at h
    split at h <;> cases h
  | stop invalid =>
    simp only [State.step, exiting.unpolled, exiting.loops, Bool.not_false, Bool.and_self, if_true] at h
    split at h
    · cases h
    · next frame rest below =>
      rw [below, Settled, Bool.and_eq_true] at settled
      cases h
      have more : s.error = true → (s.error || invalid && frame.task.validates) = true := by
        intro error
        rw [error, Bool.true_or]
      have both : Settled (s.error || invalid && frame.task.validates) (frame :: rest) = true :=
        Settled.mono (Bool.and_eq_true .. ▸ settled) more
      rw [Settled, Bool.and_eq_true] at both
      obtain ⟨exiting', below', error', events'⟩ := resume_stops exiting rest both.1
      exact ⟨exiting', by rw [below', error']; exact both.2, events'⟩

theorem Exiting.run (exiting : s.Exiting) (settled : Settled s.error s.below = true) {actions : List Action}
    (ran : s.run actions = some s') : s'.events = s.events := by
  induction actions generalizing s with
  | nil =>
    cases ran
    rfl
  | cons action actions ih =>
    rw [State.run, foldlM_cons] at ran
    obtain ⟨s₁, step, ran⟩ := Option.bind_eq_some_iff.mp ran
    obtain ⟨exiting₁, settled₁, events₁⟩ := exiting.step settled step
    exact (ih exiting₁ settled₁ ran).trans events₁

/-- Where an interpreter that waits is not settled, the program can go on. -/
theorem Exiting.goes_on (exiting : s.Exiting) (unsettled : Settled s.error s.below = false) :
    ∃ actions s', s.run actions = some s' ∧ s'.events ≠ s.events := by
  obtain ⟨below, h⟩ : ∃ below, s.below = below := ⟨_, rfl⟩
  induction below generalizing s with
  | nil =>
    rw [h] at unsettled
    cases unsettled
  | cons frame rest ih =>
    have stop : s.step (.stop false) = some (s.resume frame rest s.error .null) := by
      simp only [State.step, exiting.unpolled, exiting.loops, Bool.not_false, Bool.and_self, if_true, h,
        Bool.false_and, Bool.or_false]
    rw [h, Settled, Bool.and_eq_false_iff] at unsettled
    by_cases stops : frame.task.stops s.error = true
    · obtain ⟨exiting', below', error', events'⟩ := resume_stops exiting rest stops
      have unsettled' := unsettled.resolve_left (by rw [stops]; decide)
      obtain ⟨actions, s', ran, more⟩ := ih exiting' (by rw [below', error']; exact unsettled') below'
      refine ⟨.stop false :: actions, s', ?_, fun same => more (same.trans events'.symm)⟩
      rw [State.run, foldlM_cons, stop]
      exact ran
    · obtain ⟨fetches, events'⟩ := resume_goes_on s rest ((Bool.not_eq_true _).mp stops)
      refine ⟨[.stop false, .plain [] false false],
        { s.resume frame rest s.error .null with
          error := false, polled := false, events := (s.resume frame rest s.error .null).events ++ [Event.instruction] }, ?_, ?_⟩
      · rw [State.run, foldlM_cons, stop]
        simp only [Option.bind_eq_bind, Option.bind_some, foldlM_cons, foldlM_nil, State.step, fetches, if_true]
        rfl
      · intro same
        have longer := congrArg List.length (same.trans events'.symm)
        simp at longer

/-- Behind the handlers of events there is no error. -/
def Sane (s : State) : Prop := s.polled = true → s.error = false

theorem sane_proceed (s : State) (handled : Bool) (next : Next) : (s.proceed handled next).Sane := by
  cases next with
  | call task out => exact fun h => nomatch h
  | done raises out => exact fun h => nomatch h
  | polled failed => exact fun h => (Bool.not_eq_true' _).mp h

theorem sane_step {action : Action} (h : s.step action = some s') : s'.Sane := by
  cases action with
  | plain out raises handled =>
    obtain ⟨-, h⟩ := Option.ite_none_right_eq_some.mp h
    cases h
    exact fun h => nomatch h
  | exit message =>
    obtain ⟨-, h⟩ := Option.ite_none_right_eq_some.mp h
    cases h
    exact fun h => nomatch h
  | start op handled =>
    obtain ⟨-, h⟩ := Option.ite_none_right_eq_some.mp h
    cases h
    exact sane_proceed _ _ _
  | poll left =>
    obtain ⟨-, h⟩ := Option.ite_none_right_eq_some.mp h
    cases h
    exact sane_proceed _ _ _
  | interrupt =>
    obtain ⟨calm, h⟩ := Option.ite_none_right_eq_some.mp h
    cases h
    rw [Bool.and_eq_true, Bool.not_eq_true'] at calm
    exact fun polled => absurd (calm.1.symm.trans polled) Bool.false_ne_true
  | halt r invalid =>
    simp only [State.step] at h
    split at h
    · cases h
    · obtain ⟨-, h⟩ := Option.ite_none_right_eq_some.mp h
      cases h
      exact sane_proceed _ _ _
  | stop invalid =>
    simp only [State.step] at h
    split at h
    · cases h
    · obtain ⟨-, h⟩ := Option.ite_none_right_eq_some.mp h
      cases h
      exact sane_proceed _ _ _

theorem sane_run {actions : List Action} (sane : s.Sane) (ran : s.run actions = some s') : s'.Sane := by
  induction actions generalizing s with
  | nil =>
    cases ran
    exact sane
  | cons action actions ih =>
    rw [State.run, foldlM_cons] at ran
    obtain ⟨s₁, step, ran⟩ := Option.bind_eq_some_iff.mp ran
    exact ih (sane_step step) ran

end State

end PhpPico.Exit
