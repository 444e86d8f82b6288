import PhpPico.Class.Definition

/-!
# Definitions are all or nothing

The interpreter does what the abstract machine does in every clean run: an error that is caught leaves no class under
construction, a class begins and ends where none is, and an execution begins and goes on with the table there is.
-/

namespace PhpPico.Members.Definition
open List Option Function

/-! ## Agreement -/

/-- An execution shows what the abstract one has. Where it has a draft and no error, the class under
construction is what the draft makes. -/
structure Shows (built : Built) (e : Execution) (m : AtomicExecution) : Prop where
  startedBy : e.startedBy = m.startedBy
  frames : e.frames = m.frames.map Option.isSome
  error : e.error = m.error
  phase : e.phase = m.phase
  drafts : ∀ d, some d ∈ m.frames → m.error = false →
    ∃ a c, e.building = some a ∧ built a = some c ∧ assemble e.classes d = some c

/-- The executions correspond, the one that runs sees the table, and all its classes are complete. No class
under construction is used that has been freed, and each is that of a frame which declares it. -/
structure Agrees (b : Setting) (s : Interpreter) (i : Atomic) : Prop where
  executions : Forall₂ (Shows s.built) s.executions i.executions
  sees : ∀ e ∈ s.executions.head?, e.classes = i.classes
  complete : allComplete b.typesAllow i.classes = true
  live : ∀ e ∈ s.executions, ∀ a, e.building = some a → s.built a ≠ none
  declared : ∀ a, s.built a ≠ none → ∃ e ∈ s.executions, true ∈ e.frames ∧ e.building = some a

/-- From these states on, a run of the interpreter is one of the abstract machine. -/
def StaysAtomic (b : Setting) (s : Interpreter) (i : Atomic) : List Action → Prop
  | [] => Agrees b s i
  | a :: rest => Agrees b s i ∧ Option.Rel (fun s' i' => StaysAtomic b s' i' rest) (s.step b a) (i.step b a)

variable {b : Setting} {s : Interpreter} {i : Atomic} {a : Nat} {e : Execution} {below : List Execution}

/-- No class is left under construction where no frame declares one. -/
theorem Agrees.nothing_left (agrees : Agrees b s i) (idle : ∀ e ∈ s.executions, true ∉ e.frames) :
    (∀ e ∈ s.executions, e.building = none) ∧ ∀ a, s.built a = none := by
  have free (a : Nat) : s.built a = none := by
    by_contra used
    obtain ⟨e, mem, body, -⟩ := agrees.declared a used
    exact idle e mem body
  refine ⟨fun e mem => ?_, free⟩
  cases building : e.building with
  | none => rfl
  | some a => exact absurd (free a) (agrees.live e mem a building)

/-! ## What the abstract machine does -/

namespace Atomic
variable {b : Setting} {i i' : Atomic} {m : AtomicExecution} {around : List AtomicExecution}

/-- **A declaration that ends** registers its class, complete and with all classes complete, or fails
and registers nothing. -/
theorem defEnd_cases {memory : Bool} {d : ClassDeclaration} {frames : List (Option ClassDeclaration)}
    (executions : i.executions = m :: around) (declares : m.frames = some d :: frames)
    (taken : i.step b (.defEnd memory) = some i') :
    (∃ c, assemble i.classes d = some c ∧ isComplete (b.typesAllow i.classes) i.classes c = true ∧
      findClass i.classes c.name = none ∧ allComplete b.typesAllow (c :: i.classes) = true ∧
      i' = ⟨m.setDraft none :: around, c :: i.classes⟩) ∨
    i' = { i with executions := m.fail :: around } := by
  simp only [step, executions, declares, head?_cons, join_some, map_some] at taken
  split at taken
  · cases taken
    unfold defEnd
    split
    · rename_i classes declared
      left
      obtain ⟨declared, allowed⟩ := filter_eq_some_iff.mp declared
      rw [declare_eq] at declared
      obtain ⟨c, made, accepted⟩ := bind_eq_some_iff.mp declared
      split at accepted
      · rename_i complete
        cases accepted
        exact ⟨c, made, complete.1, complete.2, (Bool.and_eq_true_iff.mp allowed).2, rfl⟩
      · cases accepted
    · exact .inr rfl
  · cases taken

/-- **A declaration that failed is forgotten** where its error is caught, with the drafts of other frames that have
ended. -/
theorem caught_forgets {depth : Nat} {frames : List (Option ClassDeclaration)}
    (executions : i.executions = m :: around) (same : frames.drop (depth + 1) = m.frames.drop (depth + 1))
    (length : frames.length = m.frames.length) :
    ({ i with executions := { m with frames := frames } :: around } : Atomic).step b (.caught depth) =
      i.step b (.caught depth) := by
  simp only [step, executions]
  congr 1
  have tails : (frames.drop depth).tail = (m.frames.drop depth).tail := by simpa [tail_drop] using same
  have lengths : (frames.drop depth).length = (m.frames.drop depth).length := by simp [length]
  cases first : frames.drop depth with
  | nil =>
    rw [first, length_nil] at lengths
    rw [eq_nil_of_length_eq_zero lengths.symm]
  | cons f fs =>
    cases second : m.frames.drop depth with
    | nil =>
      rw [first, second] at lengths
      cases lengths
    | cons g gs =>
      rw [first, second] at tails
      cases tails
      rfl

end Atomic

/-! ## Clean steps -/

/-- A class is begun where none is under construction, and ends where all classes stay complete. An error is not
caught outside a declaration that has left its class, no execution stops with a class that it would leave, or with
another's that it would destroy, and what starts from the root or goes on finds the table there. -/
def Interpreter.clean (b : Setting) (s : Interpreter) (action : Action) : Bool :=
  match s.executions with
  | [] => true
  | e :: below =>
    match action with
    | .defClass _ _ => e.building.isNone
    | .defEnd memory =>
      (e.building.bind s.built).all fun c =>
        !Interpreter.registers b e.classes c memory || allComplete b.typesAllow (c :: e.classes)
    | .caught depth => e.building.isNone || decide (true ∉ e.frames.take (depth + 1))
    | .enter startedBy =>
      startedBy == .invoke || (Interpreter.root s.executions).all fun r => decide (r.classes = e.classes)
    | .stop => if e.fails b then e.building.isNone || decide (true ∈ e.frames) else decide (true ∉ e.frames)
    | .finish => below.head?.all fun r => r.startedBy == none || decide (r.classes = e.left)
    | _ => true

/-- Every step of a run is clean. -/
def Interpreter.cleanRun (b : Setting) (s : Interpreter) : List Action → Bool
  | [] => true
  | a :: rest => s.clean b a && (s.step b a).all fun s' => s'.cleanRun b rest

/-! ## The invariant -/

/-- The class under construction that an execution has begun itself. -/
def Execution.owns (e : Execution) : Option Nat := if true ∈ e.frames then e.building else none

def owned (executions : List Execution) : List Nat := executions.filterMap Execution.owns

/-- An execution and the abstract one. A failed property may have destroyed the class; no two frames
declare one. -/
structure Matches (built : Built) (e : Execution) (m : AtomicExecution) : Prop where
  startedBy : e.startedBy = m.startedBy
  frames : e.frames = m.frames.map Option.isSome
  error : e.error = m.error
  phase : e.phase = m.phase
  checkpoint : e.checkpoint = m.before.length
  drafts : ∀ d, some d ∈ m.frames → (e.building = none ∧ m.error = true ∧ m.frames.head? = some (some d)) ∨
    ∃ a c, e.building = some a ∧ built a = some c ∧ assemble e.classes d = some c
  one : e.frames.count true ≤ 1
  idle : e.phase ≠ .running → e.frames = []

/-- A pointer that an execution did not make itself is that of one further out. -/
def Held : List Execution → Prop
  | [] => True
  | e :: below => (true ∉ e.frames → ∀ a, e.building = some a → a ∈ owned below) ∧ Held below

/-- Under a root that has a class under construction, all executions have its pointer and its table. -/
def Rooted (e r : Execution) : Prop :=
  e.startedBy ≠ none ∧ (r.startedBy = none → ∀ a, r.building = some a →
    e.building = some a ∧ e.classes = r.classes ∧ e.checkpoint = r.classes.length)

/-- The later table has the earlier one behind it. -/
def Grown (later earlier : Classes) : Prop := earlier <:+ later

/-- What holds of the executions, and of the tables there were. -/
structure Kept (b : Setting) (s : Interpreter) (i : Atomic) : Prop where
  matching : Forall₂ (Matches s.built) s.executions i.executions
  befores : (i.classes :: i.executions.map AtomicExecution.before).Pairwise Grown
  complete : ∀ cs ∈ i.classes :: i.executions.map AtomicExecution.before, allComplete b.typesAllow cs = true
  distinct : (owned s.executions).Nodup
  fresh : ∀ a ∈ owned s.executions, a < s.made
  live : ∀ a, s.built a ≠ none → a ∈ owned s.executions
  held : Held s.executions
  rooted : s.executions.Pairwise Rooted

/-- And the execution that runs sees the table there is. -/
structure Inv (b : Setting) (s : Interpreter) (i : Atomic) : Prop extends Kept b s i where
  view : ∀ e ∈ s.executions.head?, e.classes = i.classes

section Level
variable {built built' : Built} {e : Execution} {m : AtomicExecution} {a : Nat}

theorem Matches.runs (h : Matches built e m) : e.Runs ↔ m.Runs := by
  rw [Execution.Runs, AtomicExecution.Runs, h.phase, h.error]

theorem Matches.head (h : Matches built e m) : e.frames.head? = m.frames.head?.map Option.isSome := by
  rw [h.frames, head?_map]

theorem Matches.declares (h : Matches built e m) : true ∈ e.frames ↔ ∃ d, some d ∈ m.frames := by
  simp [h.frames, isSome_iff_exists]

theorem owns_eq_some : e.owns = some a ↔ true ∈ e.frames ∧ e.building = some a := by
  unfold Execution.owns
  split <;> simp_all

theorem Matches.owns_live (h : Matches built e m) (owns : e.owns = some a) : built a ≠ none := by
  obtain ⟨body, building⟩ := owns_eq_some.mp owns
  obtain ⟨d, mem⟩ := h.declares.mp body
  rcases h.drafts d mem with ⟨gone, -⟩ | ⟨a', c, building', made, -⟩
  · rw [gone] at building
    cases building
  · rw [building] at building'
    cases building'
    rw [made]
    exact some_ne_none c

theorem Matches.of_built (h : Matches built e m) (same : ∀ a, e.owns = some a → built' a = built a) :
    Matches built' e m := by
  refine { h with drafts := fun d mem => ?_ }
  rcases h.drafts d mem with gone | ⟨a, c, building, made, assembled⟩
  · exact .inl gone
  · have owns := owns_eq_some.mpr ⟨h.declares.mpr ⟨d, mem⟩, building⟩
    exact .inr ⟨a, c, building, (same a owns).trans made, assembled⟩

/-- Where no error is pending, the class under construction is what the draft makes. -/
theorem Matches.shows (h : Matches built e m) : Shows built e m where
  startedBy := h.startedBy
  frames := h.frames
  error := h.error
  phase := h.phase
  drafts d mem fine := by
    rcases h.drafts d mem with ⟨-, failed, -⟩ | made
    · rw [fine] at failed
      cases failed
    · exact made

theorem Matches.only (h : Matches built e m) {d : ClassDeclaration} {frames : List (Option ClassDeclaration)}
    (eq : m.frames = some d :: frames) (d' : ClassDeclaration) : some d' ∉ frames := by
  intro mem
  have one := h.one
  rw [h.frames, eq, map_cons, isSome_some, count_cons_self] at one
  have : 0 < (frames.map Option.isSome).count true := count_pos_iff.mpr (List.mem_map.mpr ⟨some d', mem, rfl⟩)
  omega

end Level

theorem mem_owned {executions : List Execution} :
    a ∈ owned executions ↔ ∃ e ∈ executions, true ∈ e.frames ∧ e.building = some a := by
  simp [owned, mem_filterMap, owns_eq_some]

theorem Held.mem {executions : List Execution} (held : Held executions) {e : Execution} (mem : e ∈ executions)
    {a : Nat} (building : e.building = some a) : a ∈ owned executions := by
  induction executions with
  | nil => simp at mem
  | cons x below ih =>
    rcases mem_cons.mp mem with rfl | mem
    · by_cases body : true ∈ e.frames
      · exact mem_owned.mpr ⟨e, .head _, body, building⟩
      · obtain ⟨r, inside, owns⟩ := mem_owned.mp (held.1 body a building)
        exact mem_owned.mpr ⟨r, .tail _ inside, owns⟩
    · obtain ⟨r, inside, owns⟩ := mem_owned.mp (ih held.2 mem)
      exact mem_owned.mpr ⟨r, .tail _ inside, owns⟩

theorem owned_cons_of_owns (owns : e.owns = some a) : owned (e :: below) = a :: owned below := filterMap_cons_some owns

theorem owned_cons_of_none (owns : e.owns = none) : owned (e :: below) = owned below := filterMap_cons_none owns

theorem mem_owned_cons : a ∈ owned (e :: below) ↔ e.owns = some a ∨ a ∈ owned below := by
  cases owns : e.owns with
  | none => simp [owned_cons_of_none owns]
  | some x => simp [owned_cons_of_owns owns, eq_comm]

/-- Memory that none of the executions owns matters to none. -/
theorem matching_of_built {built built' : Built} {executions : List Execution} {ms : List AtomicExecution}
    (h : Forall₂ (Matches built) executions ms) (same : ∀ a ∈ owned executions, built' a = built a) :
    Forall₂ (Matches built') executions ms := by
  induction h with
  | nil => exact .nil
  | cons first _ ih =>
    refine .cons (first.of_built fun a owns => ?_) (ih fun a mem => ?_)
    · exact same a (mem_owned_cons.mpr (.inl owns))
    · exact same a (mem_owned_cons.mpr (.inr mem))

theorem exists_matching {α β : Type} {R : α → β → Prop} {l₁ : List α} {l₂ : List β} (h : Forall₂ R l₁ l₂)
    {x : α} (mem : x ∈ l₁) : ∃ y, R x y := by
  induction h with
  | nil => simp at mem
  | cons first _ ih =>
    rcases mem_cons.mp mem with rfl | mem
    · exact ⟨_, first⟩
    · exact ih mem

theorem Inv.agrees (inv : Inv b s i) : Agrees b s i where
  executions := inv.matching.imp fun _ _ h => h.shows
  sees := inv.view
  complete := inv.complete _ (.head _)
  live e mem a building := by
    obtain ⟨r, inside, body, owns⟩ := mem_owned.mp (inv.held.mem mem building)
    obtain ⟨m, h⟩ := exists_matching inv.matching inside
    exact h.owns_live (owns_eq_some.mpr ⟨body, owns⟩)
  declared a used := mem_owned.mp (inv.live a used)

/-! ## One step -/

section Step
variable {b : Setting} {e e' : Execution} {below : List Execution} {m m' : AtomicExecution}
  {around : List AtomicExecution} {built built' : Built} {made made' : Nat} {classes classes' : Classes}

variable {a : Nat} {r : Execution}

theorem Inv.alone (inv : Inv b ⟨e :: below, built, made⟩ ⟨m :: around, classes⟩) (owns : e.owns = some a) :
    a ∉ owned below := by
  have distinct : (owned (e :: below)).Nodup := inv.distinct
  rw [owned_cons_of_owns owns] at distinct
  exact (nodup_cons.mp distinct).1

theorem Held.tail (held : Held (e :: below)) : Held below := held.2

theorem Inv.root_idle (inv : Inv b ⟨e :: below, built, made⟩ ⟨m :: around, classes⟩)
    (own : e.building = none ∨ true ∈ e.frames) (mem : r ∈ below) (root : r.startedBy = none) (a : Nat) :
    r.building ≠ some a := by
  intro building
  obtain ⟨-, under⟩ := rel_of_pairwise_cons inv.rooted mem
  have copied := (under root a building).1
  rcases own with gone | body
  · rw [gone] at copied
    cases copied
  · exact inv.alone (owns_eq_some.mpr ⟨body, copied⟩) (inv.held.tail.mem mem building)

/-- The innermost execution changes, and with it the memory of its own class, and the table grows. -/
theorem Inv.replace (inv : Inv b ⟨e :: below, built, made⟩ ⟨m :: around, classes⟩) (top : Matches built' e' m')
    (same : ∀ a ∈ owned below, built' a = built a) (view : e'.classes = classes') (grown : Grown classes' classes)
    (complete : allComplete b.typesAllow classes' = true) (before : m'.before = m.before)
    (startedBy : e'.startedBy = e.startedBy) (grows : made ≤ made')
    (own : ∀ a, e'.owns = some a → a ∉ owned below ∧ a < made')
    (live : ∀ a, built' a ≠ none → e'.owns = some a ∨ a ∈ owned below)
    (held : true ∉ e'.frames → ∀ a, e'.building = some a → a ∈ owned below)
    (rooted : ∀ r ∈ below, r.startedBy = none → ∀ a, r.building = some a →
      e'.building = e.building ∧ e'.classes = e.classes ∧ e'.checkpoint = e.checkpoint) :
    Inv b ⟨e' :: below, built', made'⟩ ⟨m' :: around, classes'⟩ := by
  obtain ⟨⟨matching, befores, completes, distinct, fresh, -, held₀, rooted₀⟩, -⟩ := inv
  have sublist : (owned below).Sublist (owned (e :: below)) := (sublist_cons_self e below).filterMap _
  have below_distinct : (owned below).Nodup := distinct.sublist sublist
  have below_fresh : ∀ a ∈ owned below, a < made' := fun a mem => lt_of_lt_of_le (fresh a (sublist.subset mem)) grows
  obtain ⟨befores_newest, befores⟩ := pairwise_cons.mp befores
  obtain ⟨rooted_newest, rooted₀⟩ := pairwise_cons.mp rooted₀
  have later : (m' :: around).map AtomicExecution.before = (m :: around).map AtomicExecution.before := by
    rw [map_cons, map_cons, before]
  refine ⟨⟨?_, ?_, ?_, ?_, ?_, ?_, ⟨held, held₀.2⟩, ?_⟩, ?_⟩
  · cases matching with
    | cons _ others => exact .cons top (matching_of_built others same)
  · rw [later]
    exact pairwise_cons.mpr ⟨fun x hx => (befores_newest x hx).trans grown, befores⟩
  · rw [later]
    intro cs mem
    rcases mem_cons.mp mem with rfl | mem
    · exact complete
    · exact completes cs (.tail _ mem)
  · cases owns : e'.owns with
    | none =>
      rw [owned_cons_of_none owns]
      exact below_distinct
    | some a =>
      rw [owned_cons_of_owns owns]
      exact nodup_cons.mpr ⟨(own a owns).1, below_distinct⟩
  · intro a mem
    rcases mem_owned_cons.mp mem with owns | mem
    · exact (own a owns).2
    · exact below_fresh a mem
  · exact fun a used => mem_owned_cons.mpr (live a used)
  · refine pairwise_cons.mpr ⟨fun r mem => ?_, rooted₀⟩
    obtain ⟨nested, under⟩ := rooted_newest r mem
    refine ⟨startedBy ▸ nested, fun root a building => ?_⟩
    obtain ⟨same_building, same_classes, same_checkpoint⟩ := rooted r mem root a building
    rw [same_building, same_classes, same_checkpoint]
    exact under root a building
  · intro x hx
    cases hx
    exact view

/-- The innermost execution changes, but not what it has under construction. -/
theorem Inv.top (inv : Inv b ⟨e :: below, built, made⟩ ⟨m :: around, classes⟩) (top : Matches built e' m')
    (building : e'.building = e.building) (view : e'.classes = e.classes) (checkpoint : e'.checkpoint = e.checkpoint)
    (startedBy : e'.startedBy = e.startedBy) (before : m'.before = m.before)
    (declares : e.building = none ∨ (true ∈ e'.frames ↔ true ∈ e.frames)) :
    Inv b ⟨e' :: below, built, made⟩ ⟨m' :: around, classes⟩ := by
  have owns : e'.owns = e.owns := by
    unfold Execution.owns
    rcases declares with gone | same
    · rw [building, gone, ite_self, ite_self]
    · simp only [building, same]
  refine inv.replace top (fun _ _ => rfl) (view.trans (inv.view e rfl)) (suffix_refl _)
    (inv.complete _ (.head _)) before startedBy le_rfl (fun a owned => ?_) (fun a used => ?_)
    (fun idle a some => ?_) fun _ _ _ _ _ => ⟨building, view, checkpoint⟩
  · rw [owns] at owned
    exact ⟨inv.alone owned, inv.fresh a (mem_owned_cons.mpr (.inl owned))⟩
  · rw [owns]
    exact mem_owned_cons.mp (inv.live a used)
  · rw [building] at some
    rcases declares with gone | same
    · rw [gone] at some
      cases some
    · exact inv.held.1 (fun body => idle (same.mpr body)) a some

/-- The step of the interpreter and that of the abstract machine lead to states that correspond. -/
def Follows (b : Setting) (s : Interpreter) (i : Atomic) (action : Action) : Prop :=
  Option.Rel (Inv b) (s.step b action) (i.step b action)

theorem rel_ite {α β : Type} {R : α → β → Prop} {p q : Prop} [Decidable p] [Decidable q] {x : Option α}
    {y : Option β} (same : p ↔ q) (h : p → Option.Rel R x y) :
    Option.Rel R (if p then x else none) (if q then y else none) := by
  by_cases hp : p
  · rw [if_pos hp, if_pos (same.mp hp)]
    exact h hp
  · rw [if_neg hp, if_neg fun hq => hp (same.mpr hq)]
    exact .none

theorem Inv.first (inv : Inv b ⟨e :: below, built, made⟩ ⟨m :: around, classes⟩) : Matches built e m := by
  cases inv.matching with
  | cons first _ => exact first

theorem Inv.fail (inv : Inv b ⟨e :: below, built, made⟩ ⟨m :: around, classes⟩) :
    Inv b ⟨e.fail :: below, built, made⟩ ⟨m.fail :: around, classes⟩ := by
  have h := inv.first
  refine inv.top { h with error := rfl, drafts := fun d mem => ?_ } rfl rfl rfl rfl rfl (.inr Iff.rfl)
  rcases h.drafts d mem with ⟨gone, -, innermost⟩ | kept
  · exact .inl ⟨gone, rfl, innermost⟩
  · exact .inr kept

theorem Inv.raise (inv : Inv b ⟨e :: below, built, made⟩ ⟨m :: around, classes⟩) :
    Follows b ⟨e :: below, built, made⟩ ⟨m :: around, classes⟩ .raise :=
  rel_ite inv.first.runs fun _ => .some inv.fail

theorem Inv.below_root (inv : Inv b ⟨e :: below, built, made⟩ ⟨m :: around, classes⟩) (root : e.startedBy = none) :
    below = [] := by
  apply eq_nil_iff_forall_not_mem.mpr
  intro r mem
  exact (rel_of_pairwise_cons inv.rooted mem).1 root

theorem Inv.call (inv : Inv b ⟨e :: below, built, made⟩ ⟨m :: around, classes⟩) :
    Follows b ⟨e :: below, built, made⟩ ⟨m :: around, classes⟩ .call := by
  refine rel_ite inv.first.runs fun runs => .some ?_
  have h := inv.first
  refine inv.top { h with frames := ?_, drafts := fun d mem => ?_, one := ?_, idle := ?_ } rfl rfl rfl rfl rfl
    (.inr (by simp))
  · rw [map_cons, h.frames, isSome_none]
  · rcases mem_cons.mp mem with new | mem
    · cases new
    · exact .inr (h.shows.drafts d mem (h.error.symm.trans runs.2))
  · rw [count_cons_of_ne (by decide)]
    exact h.one
  · exact fun stopped => absurd runs.1 stopped

theorem Matches.outside (h : Matches built e m) :
    e.Runs ∧ e.frames.head? = some false ↔ m.Runs ∧ m.frames.head? = some none := by
  rw [h.runs, h.head]
  rcases m.frames with _ | ⟨_ | d, frames⟩ <;> simp

theorem Inv.in_body {x : Option Interpreter} {f : ClassDeclaration → Atomic}
    (inv : Inv b ⟨e :: below, built, made⟩ ⟨m :: around, classes⟩)
    (h : ∀ d frames a c, e.Runs → m.frames = some d :: frames → e.building = some a → built a = some c →
      assemble e.classes d = some c → Option.Rel (Inv b) x (some (f d))) :
    Option.Rel (Inv b) (if e.Runs ∧ e.frames.head? = some true then x else none)
      (if m.Runs then m.frames.head?.join.map f else none) := by
  have first := inv.first
  by_cases runs : e.Runs
  · rw [if_pos (first.runs.mp runs)]
    rcases frames : m.frames with _ | ⟨_ | d, frames'⟩
    · rw [if_neg (by simp [first.head, frames])]
      exact .none
    · rw [if_neg (by simp [first.head, frames])]
      exact .none
    · rw [if_pos ⟨runs, by simp [first.head, frames]⟩]
      have mem : some d ∈ m.frames := frames ▸ (.head _)
      obtain ⟨a, c, building, here, assembled⟩ := first.shows.drafts d mem (first.error.symm.trans runs.2)
      exact h d frames' a c runs frames building here assembled
  · rw [if_neg fun body => runs body.1, if_neg fun runs' => runs (first.runs.mpr runs')]
    exact .none

theorem Inv.leave (inv : Inv b ⟨e :: below, built, made⟩ ⟨m :: around, classes⟩) :
    Follows b ⟨e :: below, built, made⟩ ⟨m :: around, classes⟩ .leave := by
  have h := inv.first
  refine rel_ite h.outside fun runs => .some ?_
  obtain ⟨fs, frames⟩ : ∃ fs, e.frames = false :: fs := by
    obtain ⟨-, first⟩ := runs
    cases frames : e.frames with
    | nil => rw [frames] at first; cases first
    | cons f fs =>
      rw [frames] at first
      cases first
      exact ⟨fs, rfl⟩
  refine inv.top { h with frames := ?_, drafts := fun d mem => ?_, one := ?_, idle := ?_ } rfl rfl rfl rfl rfl ?_
  · rw [h.frames, map_tail]
  · exact .inr (h.shows.drafts d (mem_of_mem_tail mem) (h.error.symm.trans runs.1.2))
  · have one := h.one
    rw [frames, count_cons_of_ne (by decide)] at one
    rw [frames]
    exact one
  · exact fun stopped => absurd runs.1.1 stopped
  · right
    rw [frames]
    simp

/-- A root by itself that declares nothing. -/
theorem inv_single (h : Matches built e m) (idle : true ∉ e.frames) (building : e.building = none)
    (free : ∀ a, built a = none) (view : e.classes = classes) (grown : Grown classes m.before)
    (complete : allComplete b.typesAllow classes = true) (complete_before : allComplete b.typesAllow m.before = true) :
    Inv b ⟨[e], built, made⟩ ⟨[m], classes⟩ := by
  have nothing : owned [e] = [] := owned_cons_of_none (if_neg idle)
  refine ⟨⟨.cons h .nil, pairwise_pair.mpr grown, ?_, ?_, ?_, fun a used => absurd (free a) used, ⟨?_, trivial⟩,
    pairwise_singleton _ _⟩, ?_⟩
  · intro cs mem
    rcases mem_cons.mp mem with rfl | mem
    · exact complete
    · rw [mem_singleton.mp mem]
      exact complete_before
  · rw [nothing]
    exact nodup_nil
  · rw [nothing]
    exact fun a mem => absurd mem not_mem_nil
  · intro _ a some
    rw [building] at some
    cases some
  · intro x hx
    cases hx
    exact view

/-- A root by itself that does not run has nothing under construction. -/
theorem Inv.stopped_root (inv : Inv b ⟨[e], built, made⟩ ⟨[m], classes⟩) (stopped : e.phase ≠ .running) :
    true ∉ e.frames ∧ e.building = none ∧ ∀ a, built a = none := by
  have idle : true ∉ e.frames := by
    rw [inv.first.idle stopped]
    exact not_mem_nil
  have nothing : owned [e] = [] := owned_cons_of_none (if_neg idle)
  refine ⟨idle, ?_, fun a => ?_⟩
  · cases building : e.building with
    | none => rfl
    | some a => exact absurd (inv.held.1 idle a building) not_mem_nil
  · by_contra used
    have mem : a ∈ owned [e] := inv.live a used
    rw [nothing] at mem
    exact not_mem_nil mem

theorem Inv.start (inv : Inv b ⟨e :: below, built, made⟩ ⟨m :: around, classes⟩) :
    Follows b ⟨e :: below, built, made⟩ ⟨m :: around, classes⟩ .start := by
  have h := inv.first
  refine rel_ite (by rw [h.startedBy, h.phase]) fun ready => .some ?_
  obtain rfl := inv.below_root ready.1
  obtain rfl : around = [] := by
    cases inv.matching with
    | cons _ others => exact forall₂_nil_left_iff.mp others
  obtain ⟨-, building, free⟩ := inv.stopped_root (by rw [ready.2]; decide)
  have view : e.classes = classes := inv.view e rfl
  have complete : allComplete b.typesAllow classes = true := inv.complete _ (.head _)
  refine inv_single { h with
    frames := rfl, error := rfl, phase := rfl, checkpoint := ?_, drafts := ?_, one := ?_, idle := ?_ } ?_ building free
    view (suffix_refl _) complete complete
  · rw [view]
  · intro d mem
    cases mem_singleton.mp mem
  · simp
  · exact fun stopped => absurd rfl stopped
  · simp

theorem Inv.defClass {d : ClassDeclaration} {memory : Bool}
    (inv : Inv b ⟨e :: below, built, made⟩ ⟨m :: around, classes⟩) (clean : e.building = none) :
    Follows b ⟨e :: below, built, made⟩ ⟨m :: around, classes⟩ (.defClass d memory) := by
  have h := inv.first
  refine rel_ite h.outside fun runs => .some ?_
  have view : e.classes = classes := inv.view e rfl
  have idle : ∀ d, some d ∉ m.frames := by
    intro d mem
    rcases h.drafts d mem with ⟨-, failed, -⟩ | ⟨a, c, building, -⟩
    · rw [← h.error, runs.1.2] at failed
      cases failed
    · rw [clean] at building
      cases building
  unfold Interpreter.defClass Atomic.defClass
  rw [if_neg fun ne => ne clean, view]
  cases begun : (openClass classes d).filter fun _ => memory with
  | none =>
    rw [if_neg]
    · exact inv.fail
    · rintro ⟨opens, enough⟩
      obtain ⟨c, opened⟩ := isSome_iff_exists.mp opens
      rw [opened, filter_some_pos (p := fun _ => memory) enough] at begun
      cases begun
  | some c =>
    obtain ⟨opened, enough⟩ := filter_eq_some_iff.mp begun
    rw [if_pos ⟨by rw [opened]; rfl, enough⟩]
    have unused : made ∉ owned below := by
      intro mem
      have less : made < made := inv.fresh made (mem_owned_cons.mpr (.inr mem))
      omega
    have one : (true :: e.frames.tail).count true ≤ 1 := by
      rw [count_cons_self, h.frames, ← map_tail, count_eq_zero_of_not_mem]
      intro mem
      obtain ⟨f, inside, is⟩ := List.mem_map.mp mem
      obtain ⟨d', rfl⟩ := isSome_iff_exists.mp is
      exact idle d' (mem_of_mem_tail inside)
    have declares : ∃ a c', some made = some a ∧ update built made (some c) a = some c' ∧
        assemble e.classes (header d) = some c' :=
      ⟨made, c, rfl, update_self .., by rw [assemble_header, view, opened]⟩
    refine inv.replace ⟨h.startedBy, ?_, h.error, h.phase, h.checkpoint, fun d' mem => .inr ?_, one, ?_⟩
      (fun a mem => ?_) view (suffix_refl _) (inv.complete _ (.head _)) rfl rfl (Nat.le_succ _)
      (fun a owns => ?_) (fun a used => ?_) (fun idle => absurd (.head _) idle)
      fun r mem root a building => absurd building (inv.root_idle (.inl clean) mem root a)
    · rw [Execution.inBody, AtomicExecution.setDraft, h.frames, map_cons, map_tail, isSome_some]
    · rcases mem_cons.mp mem with new | old
      · cases new
        exact declares
      · exact absurd (mem_of_mem_tail old) (idle d')
    · exact fun stopped => absurd runs.1.1 stopped
    · exact update_of_ne (ne_of_mem_of_not_mem mem unused) _ _
    · obtain ⟨-, is⟩ := owns_eq_some.mp owns
      cases is
      exact ⟨unused, Nat.lt_succ_self made⟩
    · by_cases new : a = made
      · left
        rw [new]
        exact owns_eq_some.mpr ⟨.head _, rfl⟩
      · right
        have used' : built a ≠ none := by rwa [update_of_ne new] at used
        rcases mem_owned_cons.mp (inv.live a used') with owns | mem
        · rw [(owns_eq_some.mp owns).2] at clean
          cases clean
        · exact mem

theorem Inv.defineConstant {accepted : Bool} (inv : Inv b ⟨e :: below, built, made⟩ ⟨m :: around, classes⟩) :
    Follows b ⟨e :: below, built, made⟩ ⟨m :: around, classes⟩ (.defineConstant accepted) := by
  refine inv.in_body fun d frames a c runs eq building here assembled => ?_
  simp only [Interpreter.onClass, building, here, map_some]
  refine .some ?_
  split
  · exact inv
  · exact inv.fail

/-- A class that has been destroyed or registered is no longer under construction. -/
theorem Inv.destroy_live (inv : Inv b ⟨e :: below, built, made⟩ ⟨m :: around, classes⟩) (owns : e.owns = some a)
    (x : Nat) (used : built.destroy (some a) x ≠ none) : x ∈ owned below := by
  change update built a none x ≠ none at used
  by_cases same : x = a
  · rw [same, update_self] at used
    exact absurd rfl used
  · rw [update_of_ne same] at used
    rcases mem_owned_cons.mp (inv.live x used) with owns' | mem
    · rw [owns] at owns'
      exact absurd (some.inj owns').symm same
    · exact mem

theorem Inv.destroy_same (inv : Inv b ⟨e :: below, built, made⟩ ⟨m :: around, classes⟩) (owns : e.owns = some a)
    (v : Option PClass) (x : Nat) (mem : x ∈ owned below) : update built a v x = built x :=
  update_of_ne (ne_of_mem_of_not_mem mem (inv.alone owns)) _ _

/-- A class goes on, or an instruction in its body fails. -/
theorem Inv.define {member : MemberDeclaration} {accepted : Bool}
    (inv : Inv b ⟨e :: below, built, made⟩ ⟨m :: around, classes⟩) :
    Follows b ⟨e :: below, built, made⟩ ⟨m :: around, classes⟩ (.define member accepted) := by
  have h := inv.first
  refine inv.in_body fun d frames a c runs eq building here assembled => ?_
  have view : e.classes = classes := inv.view e rfl
  have body : true ∈ e.frames := h.declares.mpr ⟨d, eq ▸ (.head _)⟩
  have owns : e.owns = some a := owns_eq_some.mpr ⟨body, building⟩
  have assembles : assemble classes (adding d member) = defineMember classes c member := by
    rw [assemble_adding, ← view, assembled, bind_some]
  simp only [Interpreter.onClass, building, here, map_some]
  refine .some ?_
  cases added : (defineMember e.classes c member).filter fun _ => accepted with
  | some c' =>
    obtain ⟨defined, ok⟩ := filter_eq_some_iff.mp added
    rw [view] at defined
    have goes_on : Atomic.define ⟨m :: around, classes⟩ m around d member accepted =
        ⟨m.setDraft (some (adding d member)) :: around, classes⟩ :=
      if_pos ⟨by rw [assembles, defined]; rfl, ok⟩
    simp only [Interpreter.define, added, goes_on]
    refine inv.replace { h with frames := ?_, drafts := fun d' mem => .inr ?_ } (inv.destroy_same owns _) view
      (suffix_refl _) (inv.complete _ (.head _)) rfl rfl le_rfl (fun x owned => ?_)
      (fun x used => ?_) inv.held.1 fun _ _ _ _ _ => ⟨rfl, rfl, rfl⟩
    · rw [h.frames, eq]
      simp [AtomicExecution.setDraft, eq]
    · rcases mem_cons.mp mem with new | old
      · cases new
        exact ⟨a, c', building, update_self .., by rw [view, assembles, defined]⟩
      · rw [eq] at old
        exact absurd old (h.only eq d')
    · exact ⟨inv.alone owned, inv.fresh x (mem_owned_cons.mpr (.inl owned))⟩
    · by_cases same : x = a
      · exact .inl (same ▸ owns)
      · rw [update_of_ne same] at used
        exact mem_owned_cons.mp (inv.live x used)
  | none =>
    have fails : Atomic.define ⟨m :: around, classes⟩ m around d member accepted = ⟨m.fail :: around, classes⟩ := by
      refine if_neg ?_
      rintro ⟨defines, ok⟩
      obtain ⟨c', defined⟩ := isSome_iff_exists.mp defines
      rw [view, ← assembles, defined, filter_some_pos (p := fun _ => accepted) ok] at added
      cases added
    simp only [Interpreter.define, added, fails]
    split
    · have failing : ∀ d', some d' ∈ m.frames → m.frames.head? = some (some d') := by
        intro d' mem
        rw [eq] at mem ⊢
        rcases mem_cons.mp mem with new | old
        · rw [new]
          rfl
        · exact absurd old (h.only eq d')
      refine inv.replace { h with error := rfl, drafts := fun d' mem => .inl ⟨rfl, rfl, failing d' mem⟩ } (inv.destroy_same owns _) view
        (suffix_refl _) (inv.complete _ (.head _)) rfl rfl le_rfl (fun x owned => ?_)
        (fun x used => .inr (inv.destroy_live owns x used)) (fun idle => absurd body idle)
        fun r mem root x some => absurd some (inv.root_idle (.inr body) mem root x)
      rw [show Execution.owns { e.fail with building := none } = none from ite_self _] at owned
      cases owned
    · exact inv.fail

theorem Inv.defEnd {memory : Bool} (inv : Inv b ⟨e :: below, built, made⟩ ⟨m :: around, classes⟩)
    (clean : ∀ a c, e.building = some a → built a = some c →
      Interpreter.registers b e.classes c memory = true → allComplete b.typesAllow (c :: e.classes) = true) :
    Follows b ⟨e :: below, built, made⟩ ⟨m :: around, classes⟩ (.defEnd memory) := by
  have h := inv.first
  refine inv.in_body fun d frames a c runs eq building here assembled => ?_
  have view : e.classes = classes := inv.view e rfl
  have body : true ∈ e.frames := h.declares.mpr ⟨d, eq ▸ (.head _)⟩
  have owns : e.owns = some a := owns_eq_some.mpr ⟨body, building⟩
  have all := clean a c building here
  rw [view] at assembled all
  simp only [Interpreter.onClass, building, here, map_some]
  refine .some ?_
  by_cases registers : Interpreter.registers b classes c memory = true
  · have complete := all registers
    have ends : Atomic.defEnd ⟨m :: around, classes⟩ m around b d memory = ⟨m.setDraft none :: around, c :: classes⟩ := by
      simp only [Interpreter.registers, Bool.and_eq_true, isNone_iff_eq_none] at registers
      simp only [Atomic.defEnd, declare_eq, assembled, bind_some, if_pos registers.1,
        filter_some, registers.2, complete, Bool.and_self, if_true]
    simp only [Interpreter.defEnd, view, if_pos registers, ends, complete, Bool.not_true]
    have none_left : ∀ d', some d' ∉ (m.setDraft none).frames := by
      intro d' mem
      rcases mem_cons.mp mem with new | old
      · cases new
      · rw [eq] at old
        exact h.only eq d' old
    refine inv.replace ⟨h.startedBy, ?_, ?_, h.phase, h.checkpoint, fun d' mem => absurd mem (none_left d'), ?_, ?_⟩
      (inv.destroy_same owns _) rfl (suffix_cons _ _) complete rfl rfl le_rfl (fun x owned => ?_)
      (fun x used => .inr (inv.destroy_live owns x used)) (fun _ x some => ?_)
      fun r mem root x some => absurd some (inv.root_idle (.inr body) mem root x)
    · rw [Execution.inBody, AtomicExecution.setDraft, h.frames, map_cons, map_tail, isSome_none]
    · exact runs.2.symm.trans h.error
    · refine le_trans ?_ h.one
      rw [Execution.inBody, count_cons_of_ne (by decide)]
      exact (tail_sublist _).count_le _
    · exact fun stopped => absurd runs.1 stopped
    · cases (owns_eq_some.mp owned).2
    · cases some
  · have fails : Atomic.defEnd ⟨m :: around, classes⟩ m around b d memory = ⟨m.fail :: around, classes⟩ := by
      have refused : ((declare (b.typesAllow classes) classes d).filter
          fun cs => memory && allComplete b.typesAllow cs) = none := by
        rw [declare_eq, assembled, bind_some]
        split
        · rename_i accepted
          have starved : memory = false := by
            cases memory with
            | false => rfl
            | true =>
              exact absurd (by simp [Interpreter.registers, accepted.1, accepted.2]) registers
          rw [starved]
          rfl
        · rfl
      simp only [Atomic.defEnd, refused]
    simp only [Interpreter.defEnd, view, if_neg registers, fails]
    exact inv.fail

theorem Inv.caught {depth : Nat} (inv : Inv b ⟨e :: below, built, made⟩ ⟨m :: around, classes⟩)
    (clean : e.building = none ∨ true ∉ e.frames.take (depth + 1)) :
    Follows b ⟨e :: below, built, made⟩ ⟨m :: around, classes⟩ (.caught depth) := by
  have h := inv.first
  refine rel_ite (by rw [h.phase, h.error]) fun failed => ?_
  cases outer : m.frames.drop depth with
  | nil =>
    rw [show e.frames.drop depth = [] by rw [h.frames, ← map_drop, outer, map_nil]]
    exact .none
  | cons f frames =>
    have flags : e.frames.drop depth = f.isSome :: frames.map Option.isSome := by
      rw [h.frames, ← map_drop, outer, map_cons]
    rw [flags]
    refine .some ?_
    have rest : frames.map Option.isSome = e.frames.drop (depth + 1) := by
      rw [← tail_drop, flags, tail_cons]
    have kept : e.building = none ∨ (true ∈ false :: frames.map Option.isSome ↔ true ∈ e.frames) := by
      refine clean.imp id fun none_first => ?_
      rw [rest, mem_cons, ← take_append_drop (depth + 1) e.frames, mem_append, take_append_drop]
      simp [none_first]
    refine inv.top { h with frames := rfl, error := rfl, drafts := fun d mem => .inr ?_, one := ?_, idle := ?_ }
      rfl rfl rfl rfl rfl kept
    · have old : some d ∈ frames := by
        rcases mem_cons.mp mem with new | old
        · cases new
        · exact old
      have mem' : some d ∈ m.frames := mem_of_mem_drop (outer ▸ mem_cons_of_mem _ old)
      rcases h.drafts d mem' with ⟨-, -, innermost⟩ | made
      · -- the frame that failed has left its class, and was the only one to declare one
        cases first : m.frames with
        | nil =>
          rw [first] at mem'
          cases mem'
        | cons g gs =>
          rw [first] at innermost
          cases innermost
          have inside : some d ∈ gs := by
            rw [first] at outer
            have tail : gs.drop depth = frames := by rw [← drop_succ_cons (a := some d), ← tail_drop, outer, tail_cons]
            exact mem_of_mem_drop (tail ▸ old)
          exact absurd inside (h.only first d)
      · exact made
    · refine le_trans ?_ h.one
      rw [rest, count_cons_of_ne (by decide)]
      exact (drop_sublist _ _).count_le _
    · exact fun stopped => absurd failed.1 stopped

/-! ## Nested executions -/

theorem root_unique {executions : List Execution} (rooted : executions.Pairwise Rooted) {x y : Execution}
    (mem : x ∈ executions) (mem' : y ∈ executions) (root : x.startedBy = none) (root' : y.startedBy = none) : x = y := by
  induction executions with
  | nil => simp at mem
  | cons z below ih =>
    obtain ⟨first, rest⟩ := pairwise_cons.mp rooted
    rcases mem_cons.mp mem with rfl | later <;> rcases mem_cons.mp mem' with rfl | later'
    · rfl
    · exact absurd root (first y later').1
    · exact absurd root' (first x later).1
    · exact ih rest later later'

theorem root_isSome {executions : List Execution} {ms : List AtomicExecution}
    (h : Forall₂ (Matches built) executions ms) :
    (Interpreter.root executions).isSome = ms.any fun r => r.startedBy = none := by
  induction h with
  | nil => rfl
  | cons first _ ih =>
    rw [Interpreter.root, find?_cons, any_cons, first.startedBy]
    split <;> simp_all [Interpreter.root]

/-- A nested execution begins with the table there is. -/
theorem Inv.child (inv : Inv b ⟨e :: below, built, made⟩ ⟨m :: around, classes⟩) {startedBy : StartedBy}
    {copied : Execution} (mem : copied ∈ e :: below) (view : copied.classes = classes)
    (which : copied = e ∨ copied.startedBy = none) : Inv b ⟨copied.child startedBy :: e :: below, built, made⟩
      ⟨⟨some startedBy, [none], classes, false, .running⟩ :: m :: around, classes⟩ := by
  refine ⟨⟨.cons ⟨rfl, rfl, rfl, rfl, ?_, ?_, ?_, ?_⟩ inv.matching, ?_, ?_, inv.distinct, inv.fresh, inv.live,
    ⟨fun _ a building => inv.held.mem mem building, inv.held⟩, ?_⟩, ?_⟩
  · exact congrArg List.length view
  · intro d mem
    cases mem_singleton.mp mem
  · simp [Execution.child]
  · exact fun stopped => absurd rfl stopped
  · refine pairwise_cons.mpr ⟨fun x hx => ?_, inv.befores⟩
    rcases mem_cons.mp hx with rfl | hx
    · exact suffix_refl _
    · exact (pairwise_cons.mp inv.befores).1 x hx
  · intro cs mem
    rcases mem_cons.mp mem with rfl | mem
    · exact inv.complete _ (.head _)
    · exact inv.complete cs mem
  · refine pairwise_cons.mpr ⟨fun r inside => ⟨some_ne_none _, fun root a building => ?_⟩, inv.rooted⟩
    have same : copied.building = some a ∧ copied.classes = r.classes := by
      rcases which with rfl | copied_root
      · rcases mem_cons.mp inside with rfl | inside
        · exact ⟨building, rfl⟩
        · have under := (rel_of_pairwise_cons inv.rooted inside).2 root a building
          exact ⟨under.1, under.2.1⟩
      · obtain rfl := root_unique inv.rooted mem inside copied_root root
        exact ⟨building, rfl⟩
    exact ⟨same.1, same.2, congrArg List.length same.2⟩
  · intro x hx
    cases hx
    exact view

theorem Inv.enter {startedBy : StartedBy} (inv : Inv b ⟨e :: below, built, made⟩ ⟨m :: around, classes⟩)
    (clean : startedBy = .invoke ∨ ∀ r, Interpreter.root (e :: below) = some r → r.classes = e.classes) :
    Follows b ⟨e :: below, built, made⟩ ⟨m :: around, classes⟩ (.enter startedBy) := by
  have view : e.classes = classes := inv.view e rfl
  by_cases invoked : startedBy = .invoke
  · rw [invoked]
    exact .some (inv.child (.head _) view (.inl rfl))
  have same : (Interpreter.root (e :: below)).isSome = (m :: around).any fun r => r.startedBy = none :=
    root_isSome inv.matching
  simp only [Follows, Interpreter.step, Atomic.step, invoked, if_false, false_or, ← same]
  cases found : Interpreter.root (e :: below) with
  | none => exact .none
  | some r =>
    have root : r.startedBy = none := by simpa using find?_some found
    have mem : r ∈ e :: below := mem_of_find?_eq_some found
    exact .some (inv.child mem ((clean.resolve_left invoked r found).trans view) (.inr root))

theorem Matches.fails_eq (h : Matches built e m) (view : e.classes = classes) : e.fails b = m.fails b classes := by
  rw [Execution.fails, AtomicExecution.fails, h.error, h.startedBy, view]

theorem Inv.live_first (inv : Inv b ⟨e :: below, built, made⟩ ⟨m :: around, classes⟩) :
    Interpreter.live ⟨e :: below, built, made⟩ e = true := by
  unfold Interpreter.live
  cases building : e.building with
  | none => rfl
  | some a => exact isSome_iff_ne_none.mpr (inv.agrees.live e (.head _) a building)

/-- An execution stops, and leaves no class of its own under construction. -/
theorem Inv.stop (inv : Inv b ⟨e :: below, built, made⟩ ⟨m :: around, classes⟩)
    (clean : if e.fails b then e.building = none ∨ true ∈ e.frames else true ∉ e.frames) :
    Follows b ⟨e :: below, built, made⟩ ⟨m :: around, classes⟩ .stop := by
  have h := inv.first
  have view : e.classes = classes := inv.view e rfl
  refine rel_ite ⟨fun running => h.phase ▸ running.1, fun running => ⟨h.phase.trans running, fun _ => inv.live_first⟩⟩
    fun _ => .some ?_
  have top {built' : Built} : Matches built' (e.ended b) { m with
      frames := [], error := m.fails b classes, phase := .stopped } :=
    ⟨h.startedBy, rfl, h.fails_eq view, rfl, h.checkpoint, fun d mem => absurd mem not_mem_nil,
      Nat.zero_le _, fun _ => rfl⟩
  by_cases fails : e.fails b = true
  · rw [if_pos fails] at clean
    have gone : (e.ended b).building = none := if_pos fails
    have kept : (e.building.filter fun _ => e.fails b) = e.building := by
      cases e.building with
      | none => rfl
      | some a => exact filter_some_pos (p := fun _ => e.fails b) fails
    simp only [kept]
    refine inv.replace top (fun x mem => ?_) view (suffix_refl _) (inv.complete _ (.head _)) rfl rfl
      le_rfl (fun x owns => ?_) (fun x used => .inr ?_) (fun _ x some => ?_)
      fun r mem root x some => absurd some (inv.root_idle clean mem root x)
    · cases building : e.building with
      | none => rfl
      | some a =>
        rw [building] at clean
        have body := clean.resolve_left (some_ne_none a)
        exact inv.destroy_same (owns_eq_some.mpr ⟨body, building⟩) none x mem
    · cases not_mem_nil (owns_eq_some.mp owns).1
    · cases building : e.building with
      | none =>
        rw [building] at used
        rcases mem_owned_cons.mp (inv.live x used) with owns | mem
        · rw [(owns_eq_some.mp owns).2] at building
          cases building
        · exact mem
      | some a =>
        rw [building] at clean used
        have body := clean.resolve_left (some_ne_none a)
        exact inv.destroy_live (owns_eq_some.mpr ⟨body, building⟩) x used
    · rw [gone] at some
      cases some
  · rw [if_neg fails] at clean
    have kept : (e.building.filter fun _ => e.fails b) = none := by
      cases e.building with
      | none => rfl
      | some a => exact filter_some_neg (p := fun _ => e.fails b) (Bool.eq_false_iff.mpr fails)
    simp only [kept]
    refine inv.top top (if_neg fails) rfl rfl rfl rfl (.inr ?_)
    exact ⟨fun mem => absurd mem not_mem_nil, fun body => absurd body clean⟩

/-! ## The table goes back to the root -/

section Settle
variable {executions : List Execution} {ms : List AtomicExecution} {table : Classes}

variable {r : Execution}

theorem settle_of_root (root : r.startedBy = none) : r.settle table = { r with classes := table } :=
  if_pos root

theorem settle_of_nested (nested : r.startedBy ≠ none) : r.settle table = r := if_neg nested

theorem owns_settle (r : Execution) : (r.settle table).owns = r.owns := by
  unfold Execution.settle
  split <;> rfl

theorem owned_settle (executions : List Execution) : owned (executions.map (Execution.settle table)) = owned executions := by
  rw [owned, owned, filterMap_map]
  congr 1
  funext r
  exact owns_settle r

theorem held_settle (held : Held executions) : Held (executions.map (Execution.settle table)) := by
  induction executions with
  | nil => trivial
  | cons r below ih =>
    refine ⟨?_, ih held.2⟩
    rw [owned_settle]
    intro idle a building
    unfold Execution.settle at idle building
    split at building
    · rename_i root
      rw [if_pos root] at idle
      exact held.1 idle a building
    · rename_i nested
      rw [if_neg nested] at idle
      exact held.1 idle a building

/-- A root with a class under construction has this table already. -/
def Agreed (table : Classes) (r : Execution) : Prop :=
  r.startedBy = none → ∀ a, r.building = some a → r.classes = table

theorem Matches.settle (h : Matches built r m) (agreed : Agreed table r) : Matches built (r.settle table) m := by
  by_cases root : r.startedBy = none
  · rw [settle_of_root root]
    refine { h with drafts := fun d mem => ?_ }
    rcases h.drafts d mem with gone | ⟨a, c, building, here, assembled⟩
    · exact .inl gone
    · exact .inr ⟨a, c, building, here, agreed root a building ▸ assembled⟩
  · rw [settle_of_nested root]
    exact h

theorem rooted_settle (rooted : executions.Pairwise Rooted) (agreed : ∀ r ∈ executions, Agreed table r) :
    (executions.map (Execution.settle table)).Pairwise Rooted := by
  rw [pairwise_map]
  refine rooted.imp_of_mem fun {x y} _ mem related => ?_
  obtain ⟨nested, under⟩ := related
  rw [settle_of_nested nested]
  by_cases root : y.startedBy = none
  · rw [settle_of_root root]
    refine ⟨nested, fun _ a building => ?_⟩
    have same : y.classes = table := agreed y mem root a building
    exact same ▸ under root a building
  · rw [settle_of_nested root]
    exact ⟨nested, fun root' => absurd root' root⟩

theorem matching_settle (h : Forall₂ (Matches built) executions ms) (agreed : ∀ r ∈ executions, Agreed table r) :
    Forall₂ (Matches built) (executions.map (Execution.settle table)) ms := by
  induction h with
  | nil => exact .nil
  | cons first _ ih =>
    rw [forall_mem_cons] at agreed
    exact .cons (first.settle agreed.1) (ih agreed.2)

theorem Kept.settle (kept : Kept b ⟨executions, built, made⟩ ⟨ms, classes⟩) (agreed : ∀ r ∈ executions, Agreed table r) :
    Kept b ⟨executions.map (Execution.settle table), built, made⟩ ⟨ms, classes⟩ where
  matching := matching_settle kept.matching agreed
  befores := kept.befores
  complete := kept.complete
  distinct := by
    rw [owned_settle]
    exact kept.distinct
  fresh := by
    rw [owned_settle]
    exact kept.fresh
  live := by
    rw [owned_settle]
    exact kept.live
  held := held_settle kept.held
  rooted := rooted_settle kept.rooted agreed

end Settle

theorem Inv.merge (inv : Inv b ⟨e :: below, built, made⟩ ⟨m :: around, classes⟩) :
    Follows b ⟨e :: below, built, made⟩ ⟨m :: around, classes⟩ .merge := by
  have h := inv.first
  refine rel_ite (by rw [h.startedBy, h.phase]) fun included => .some ?_
  have nested : e.startedBy ≠ none := by
    rw [included.1]
    exact some_ne_none _
  have agreed : ∀ r ∈ e :: below, Agreed e.classes r := by
    intro r mem root a building
    rcases mem_cons.mp mem with rfl | inside
    · rfl
    · exact ((rel_of_pairwise_cons inv.rooted inside).2 root a building).2.1.symm
  have kept := inv.toKept.settle agreed
  rw [map_cons, settle_of_nested nested] at kept
  refine ⟨kept, fun x hx => ?_⟩
  cases hx
  exact inv.view e rfl

/-- What an execution leaves is what the abstract one does. -/
theorem Inv.left_eq (inv : Inv b ⟨e :: below, built, made⟩ ⟨m :: around, classes⟩) : e.left = m.left classes := by
  have h := inv.first
  have grown : Grown classes m.before := rel_of_pairwise_cons inv.befores (.head _)
  rw [Execution.left, AtomicExecution.left, h.startedBy, h.error, h.checkpoint, show e.classes = classes from inv.view e rfl,
    rollback_of_suffix grown]

theorem left_cases : m.left classes = m.before ∨ m.left classes = classes := by
  unfold AtomicExecution.left
  split
  · exact .inl rfl
  · exact .inr rfl

theorem Inv.pop (inv : Inv b ⟨e :: below, built, made⟩ ⟨m :: around, classes⟩) (idle : true ∉ e.frames) :
    Kept b ⟨below, built, made⟩ ⟨around, m.left classes⟩ := by
  have owned_eq : owned (e :: below) = owned below := owned_cons_of_none (if_neg idle)
  obtain ⟨newest, befores⟩ := pairwise_cons.mp inv.befores
  have left : m.left classes = m.before ∨ m.left classes = classes := left_cases
  refine ⟨?_, ?_, fun cs mem => ?_, ?_, ?_, ?_, inv.held.tail, (pairwise_cons.mp inv.rooted).2⟩
  · cases inv.matching with
    | cons _ others => exact others
  · rcases left with eq | eq
    · rw [eq]
      exact befores
    · rw [eq]
      refine pairwise_cons.mpr ⟨fun x mem => ?_, (pairwise_cons.mp befores).2⟩
      exact newest x (.tail _ mem)
  · rcases mem_cons.mp mem with rfl | mem
    · rcases left with eq | eq
      · rw [eq]
        exact inv.complete _ (.tail _ (.head _))
      · rw [eq]
        exact inv.complete _ (.head _)
    · exact inv.complete cs (.tail _ (.tail _ mem))
  · exact owned_eq ▸ inv.distinct
  · exact owned_eq ▸ inv.fresh
  · exact owned_eq ▸ inv.live

/-- The execution that goes on may have an error now. -/
theorem Kept.take {rest : List Execution} {outer : AtomicExecution} {ms : List AtomicExecution}
    (kept : Kept b ⟨r :: rest, built, made⟩ ⟨outer :: ms, classes⟩) (h : Matches built e m) :
    Kept b ⟨r.take e :: rest, built, made⟩ ⟨outer.take m :: ms, classes⟩ := by
  have matching : Forall₂ (Matches built) (r.take e :: rest) (outer.take m :: ms) := by
    cases kept.matching with
    | cons first others =>
      refine .cons { first with error := ?_, drafts := fun d mem => ?_ } others
      · rw [Execution.take, AtomicExecution.take, first.error, h.startedBy, h.error]
      · rcases first.drafts d mem with ⟨gone, failed, innermost⟩ | made
        · exact .inl ⟨gone, by rw [AtomicExecution.take, failed, Bool.true_or], innermost⟩
        · exact .inr made
  refine ⟨matching, kept.befores, kept.complete, kept.distinct, kept.fresh, kept.live, kept.held, ?_⟩
  refine pairwise_cons.mpr ⟨fun x mem => ?_, (pairwise_cons.mp kept.rooted).2⟩
  exact rel_of_pairwise_cons kept.rooted mem

theorem Rooted.left_eq (rooted : Rooted e r) : Agreed e.left r := by
  intro root a building
  obtain ⟨-, view, checkpoint⟩ := rooted.2 root a building
  have whole : rollback e.classes e.checkpoint = e.classes := by rw [checkpoint, ← view, rollback, Nat.sub_self, drop_zero]
  rw [Execution.left, whole, ite_self, view]

theorem Inv.finish (inv : Inv b ⟨e :: below, built, made⟩ ⟨m :: around, classes⟩)
    (clean : ∀ r ∈ below.head?, r.startedBy = none ∨ r.classes = e.left) :
    Follows b ⟨e :: below, built, made⟩ ⟨m :: around, classes⟩ .finish := by
  have h := inv.first
  have grown : Grown classes m.before := rel_of_pairwise_cons inv.befores (.head _)
  refine rel_ite (by rw [h.phase]) fun stopped => ?_
  have not_running : e.phase ≠ .running := by
    rw [stopped]
    decide
  have idle : true ∉ e.frames := by
    rw [h.idle not_running]
    exact not_mem_nil
  cases inv.matching with
  | cons _ others =>
    cases others with
    | nil =>
      obtain ⟨-, building, free⟩ := inv.stopped_root not_running
      have before := inv.complete _ (.tail _ (.head _))
      have before_grown : Grown (m.left classes) m.before := by
        rcases left_cases with eq | eq
        · rw [eq]
          exact suffix_refl _
        · rw [eq]
          exact grown
      have complete : allComplete b.typesAllow (m.left classes) = true := by
        rcases left_cases with eq | eq
        · rw [eq]
          exact before
        · rw [eq]
          exact inv.complete _ (.head _)
      rw [if_pos (.inr inv.live_first), building]
      refine .some (inv_single { h with phase := rfl, drafts := ?_, idle := fun _ => h.idle not_running } idle ?_ free
        inv.left_eq before_grown complete before)
      · exact fun d mem => absurd (h.declares.mpr ⟨d, mem⟩) idle
      · rw [Execution.closed, building, ite_self]
    | @cons r outer rest ms first others =>
      have kept := (inv.pop idle).take h
      have agreed : ∀ x ∈ r.take e :: rest, Agreed e.left x := by
        intro x mem
        rcases mem_cons.mp mem with rfl | inside
        · have related : Rooted e r := rel_of_pairwise_cons inv.rooted (.head _)
          exact related.left_eq
        · exact (rel_of_pairwise_cons inv.rooted (.tail _ inside)).left_eq
      refine .some ⟨kept.settle agreed, fun x hx => ?_⟩
      cases hx
      rw [← inv.left_eq]
      by_cases root : r.startedBy = none
      · rw [settle_of_root (r := r.take e) root]
      · rw [settle_of_nested (r := r.take e) root]
        exact (clean r rfl).resolve_left root

end Step

/-! ## Runs -/

/-- **One step**: a clean one leads both machines to states that correspond. -/
theorem Inv.step (inv : Inv b s i) {action : Action} (clean : s.clean b action = true) : Follows b s i action := by
  obtain ⟨executions, built, made⟩ := s
  obtain ⟨ms, classes⟩ := i
  cases executions with
  | nil =>
    obtain rfl : ms = [] := forall₂_nil_left_iff.mp inv.matching
    exact .none
  | cons e below =>
    cases ms with
    | nil => cases inv.matching
    | cons m around =>
      cases action with
      | start => exact inv.start
      | call => exact inv.call
      | leave => exact inv.leave
      | raise => exact inv.raise
      | merge => exact inv.merge
      | define member accepted => exact inv.define
      | defineConstant accepted => exact inv.defineConstant
      | defClass d memory => exact inv.defClass (isNone_iff_eq_none.mp clean)
      | defEnd memory =>
        refine inv.defEnd fun a c building here registers => ?_
        simpa [Interpreter.clean, building, here, registers] using clean
      | caught depth => exact inv.caught (by simpa [Interpreter.clean] using clean)
      | enter startedBy =>
        refine inv.enter ?_
        rw [Interpreter.clean, Bool.or_eq_true, beq_iff_eq] at clean
        refine clean.imp id fun same r found => ?_
        simpa [found] using same
      | stop =>
        refine inv.stop ?_
        simp only [Interpreter.clean] at clean
        split at clean
        · rename_i fails
          rw [if_pos fails]
          simpa using clean
        · rename_i fails
          rw [if_neg fails]
          simpa using clean
      | finish =>
        refine inv.finish fun r first => ?_
        rw [mem_def] at first
        simpa [Interpreter.clean, first] using clean

theorem Inv.stays {actions : List Action} (inv : Inv b s i)
    (clean : s.cleanRun b actions = true) : StaysAtomic b s i actions := by
  induction actions generalizing s i with
  | nil => exact inv.agrees
  | cons a rest ih =>
    rw [Interpreter.cleanRun, Bool.and_eq_true] at clean
    have follows : Option.Rel (Inv b) (s.step b a) (i.step b a) := inv.step clean.1
    refine ⟨inv.agrees, ?_⟩
    have rest_clean := clean.2
    revert follows rest_clean
    generalize s.step b a = x
    generalize i.step b a = y
    intro follows rest_clean
    cases follows with
    | none => exact .none
    | some inv' => exact .some (ih inv' rest_clean)

theorem inv_opened {runtime : Classes} (complete : allComplete b.typesAllow runtime = true) :
    Inv b (.opened runtime) (.opened runtime) := by
  refine inv_single ⟨rfl, rfl, rfl, rfl, rfl, fun d mem => ?_, Nat.zero_le _, fun _ => rfl⟩ not_mem_nil rfl
    (fun _ => rfl) rfl (nil_suffix) complete rfl
  simp at mem

/-- **Class definitions are all or nothing** in every clean run: what executions do is what they do when
each frame has a draft of its own, which is declared at its end or dropped with its frame. -/
theorem clean_run_atomic {b : Setting} {runtime : Classes} (complete : allComplete b.typesAllow runtime = true)
    {actions : List Action} (clean : (Interpreter.opened runtime).cleanRun b actions = true) :
    StaysAtomic b (.opened runtime) (.opened runtime) actions :=
  (inv_opened complete).stays clean

/-- A build with type checks, where the types of all methods are compatible. -/
def untyped : Setting := ⟨true, false, fun _ _ _ => true, fun _ _ _ => true⟩

/-- A class without modifiers. -/
def plainClass (name : List UInt8) : ClassDeclaration := ⟨name, false, false, false, false, none, []⟩

/-- A class whose default calls a function, one with a default of the wrong type whose error is caught,
and one that a callback declares. -/
def caughtRun : List Action :=
  [.start, .defClass (plainClass (ascii "A")) true, .call, .leave,
    .define (.property (ascii "x") .isPublic false) true, .defEnd true,
    .defClass (plainClass (ascii "B")) true, .define (.property (ascii "y") .isPublic false) false, .caught 0,
    .enter .invoke, .defClass (plainClass (ascii "B")) true, .defEnd true, .stop, .finish, .stop, .finish]

theorem caughtRun_atomic : StaysAtomic untyped (.opened []) (.opened []) caughtRun ∧
    (caughtRun.foldlM (Interpreter.step untyped) (.opened [])).isSome = true :=
  ⟨clean_run_atomic rfl (by decide +kernel), by decide +kernel⟩

theorem StaysAtomic.run {actions : List Action} {s' : Interpreter} (h : StaysAtomic b s i actions)
    (code : actions.foldlM (Interpreter.step b) s = some s') : ∃ i', Agrees b s' i' := by
  induction actions generalizing s i with
  | nil =>
    cases code
    exact ⟨i, h⟩
  | cons a rest ih =>
    obtain ⟨s₁, taken, further⟩ := bind_eq_some_iff.mp code
    have related := h.2
    rw [taken] at related
    generalize i.step b a = other at related
    cases related with
    | some stays => exact ih stays further

/-- **Classes are in the table or gone**: wherever a clean run has left all bodies of classes, no class is under
construction, none is kept in memory, and all that the running code sees are complete. -/
theorem definitions_settled {b : Setting} {runtime : Classes} (complete : allComplete b.typesAllow runtime = true)
    {actions : List Action} (clean : (Interpreter.opened runtime).cleanRun b actions = true) {s : Interpreter}
    (ran : actions.foldlM (Interpreter.step b) (.opened runtime) = some s)
    (outside : ∀ e ∈ s.executions, true ∉ e.frames) :
    (∀ e ∈ s.executions, e.building = none) ∧ (∀ a, s.built a = none) ∧
      ∀ e ∈ s.executions.head?, allComplete b.typesAllow e.classes = true := by
  obtain ⟨i, agrees⟩ := ((inv_opened complete).stays clean).run ran
  obtain ⟨idle, free⟩ := agrees.nothing_left outside
  refine ⟨idle, free, fun e running => ?_⟩
  rw [agrees.sees e running]
  exact agrees.complete

theorem definitions_settled_caught : ∃ s, caughtRun.foldlM (Interpreter.step untyped) (.opened []) = some s ∧
    (∀ e ∈ s.executions, e.building = none) ∧ (∀ a, s.built a = none) ∧
      ∀ e ∈ s.executions.head?, allComplete untyped.typesAllow e.classes = true := by
  have ended : (caughtRun.foldlM (Interpreter.step untyped) (.opened [])).any
      (fun s => s.executions.all fun e => !e.frames.contains true) = true := by decide +kernel
  obtain ⟨s, ran, left⟩ := (any_eq_true _ _).mp ended
  exact ⟨s, ran, definitions_settled rfl (by decide +kernel) ran (by simpa using left)⟩

theorem StaysAtomic.after {actions : List Action} {s' : Interpreter} {i' : Atomic}
    (h : StaysAtomic b s i actions) (code : actions.foldlM (Interpreter.step b) s = some s')
    (drafts : actions.foldlM (Atomic.step b) i = some i') : Agrees b s' i' := by
  induction actions generalizing s i with
  | nil =>
    cases code
    cases drafts
    exact h
  | cons a rest ih =>
    rw [foldlM_cons] at code drafts
    obtain ⟨s₁, first, code⟩ := bind_eq_some_iff.mp code
    obtain ⟨i₁, first', drafts⟩ := bind_eq_some_iff.mp drafts
    have related := h.2
    rw [first, first'] at related
    cases related with
    | some stays => exact ih stays code drafts

theorem Agrees.errors (agrees : Agrees b s i) :
    s.executions.map Execution.error = i.executions.map AtomicExecution.error := by
  have executions := agrees.executions
  revert executions
  generalize s.executions = es
  generalize i.executions = ms
  intro executions
  induction executions with
  | nil => rfl
  | cons first _ ih => rw [map_cons, map_cons, first.error, ih]

/-- A class cannot implement an interface, the error is caught, and another class is declared. -/
def missingInterface : List Action :=
  [.start, .defClass (plainClass (ascii "A")) true, .define (.interface (ascii "Missing")) true, .caught 0,
    .defClass (plainClass (ascii "B")) true]

/-- The class that failed is still under construction, and the other one cannot be declared. -/
theorem failed_class_blocks : ¬ StaysAtomic untyped (.opened []) (.opened []) missingInterface := by
  intro stays
  have code : (missingInterface.foldlM (Interpreter.step untyped) (.opened [])).map
      (fun s => s.executions.map Execution.error) = some [true] := by decide +kernel
  have drafts : (missingInterface.foldlM (Atomic.step untyped) (.opened [])).map
      (fun i => i.executions.map AtomicExecution.error) = some [false] := by decide +kernel
  obtain ⟨s, ran, errors⟩ := map_eq_some_iff.mp code
  obtain ⟨i, ran', errors'⟩ := map_eq_some_iff.mp drafts
  have same := (stays.after ran ran').errors
  rw [errors, errors'] at same
  cases same

end PhpPico.Members.Definition
