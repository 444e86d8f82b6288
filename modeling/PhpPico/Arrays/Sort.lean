import PhpPico.Arrays.Mutators
import PhpPico.Lib.InsertionSort

/-!
# Sorting

The functions that sort copy the entries into a buffer, with references of their own, sort it by insertion, and build
a new array. A comparison that fails in the middle of a shift leaves the entry being inserted out of the buffer and
another one in it twice, and the references are given back so.
-/

namespace PhpPico.Arrays
open List OrderedMap PArray InsertionSort

/-- The names `call_array_sort` knows. -/
inductive SortFunction where
  | sort | rsort | usort | asort | arsort | uasort | ksort | krsort | uksort
  deriving DecidableEq

namespace SortFunction

def name : SortFunction → String
  | .sort => "sort"
  | .rsort => "rsort"
  | .usort => "usort"
  | .asort => "asort"
  | .arsort => "arsort"
  | .uasort => "uasort"
  | .ksort => "ksort"
  | .krsort => "krsort"
  | .uksort => "uksort"

def user (f : SortFunction) : Bool := f == .usort || f == .uasort || f == .uksort

def keys (f : SortFunction) : Bool := f == .ksort || f == .krsort || f == .uksort

def preserve (f : SortFunction) : Bool := f.keys || f == .asort || f == .arsort || f == .uasort

def descending (f : SortFunction) : Bool := f == .rsort || f == .arsort || f == .krsort

end SortFunction

/-- What is compared. -/
inductive Compared (V : Type) where
  | key (k : Key)
  | value (v : V)

/-- The comparisons there are: the user's function, which may answer differently every time and fails with a text, or
without one where its result is no number; and `pv_compare`. -/
structure Comparer (V : Type) where
  callback : Nat → Compared V → Compared V → Except String Int
  builtin : Compared V → Compared V → Except (Option String) Int

section Sorting
variable {cfg : Config} {V : Type} (truncate : BitVec cfg.floatWidth → Option Int)

/-- `compare_sortable`, for the comparison that comes behind `calls` others. -/
def compareSortable (c : Comparer V) (f : SortFunction) : Comparison (Key × V) String := fun calls left right =>
  let pick (e : Key × V) := if f.keys then .key e.1 else .value e.2
  let answer : Except String Int :=
    if f.user then
      (c.callback calls (pick left) (pick right)).mapError fun text =>
        if text = "" then "sort callback must return a number" else text
    else (c.builtin (pick left) (pick right)).mapError fun text => text.getD "array comparison failed"
  answer.map fun compared => if f.descending then -compared else compared

/-! ## The loops -/

/-- The buffer, the comparisons made, the free place, and the error of a comparison that failed. -/
structure Shifted (E F : Type) where
  entries : List E
  calls : Nat
  insert : Nat
  failure : Option F

/-- The inner loop of `call_array_sort`: shift greater entries into the place at `insert`. -/
def shiftLoop {E F : Type} (compare : Comparison E F) (current : E) : Nat → Nat → List E → Shifted E F
  | 0, calls, entries => ⟨entries, calls, 0, none⟩
  | insert + 1, calls, entries =>
    match entries[insert]? with
    | none => ⟨entries, calls, insert + 1, none⟩
    | some left =>
      match compare calls left current with
      | .error failure => ⟨entries, calls, insert + 1, some failure⟩
      | .ok compared =>
        if compared ≤ 0 then ⟨entries, calls + 1, insert + 1, none⟩
        else shiftLoop compare current insert (calls + 1) (entries.set (insert + 1) left)

/-- The outer loop, from the entry `i` on: the buffer, and the error of a comparison that failed. -/
def sortLoop {E F : Type} (compare : Comparison E F) : Nat → Nat → Nat → List E → Option F × List E
  | 0, _, _, entries => (none, entries)
  | rounds + 1, i, calls, entries =>
    match entries[i]? with
    | none => (none, entries)
    | some current =>
      let s := shiftLoop compare current i calls entries
      match s.failure with
      | some failure => (some failure, s.entries)
      | none => sortLoop compare rounds (i + 1) s.calls (s.entries.set s.insert current)

/-- What a call leaves: an error, or `true`; the array; and the entries whose references it took and gave back. -/
structure Sorted (V : Type) where
  result : Except String Unit
  array : PArray V
  taken : List (Key × V)
  given : List (Key × V)

/-- The memory a call meets: for the buffer, in `pa_new`, and for the entry at an index. -/
structure SortMemory where
  entries : Bool
  fresh : Memory
  entry : Nat → Memory

/-- The arguments behind the array: a callback, or nothing or an integer. -/
def SortFunction.accepts (f : SortFunction) (rest : List (Argument V)) : Bool :=
  if f.user then rest.length == 1
  else
    match rest with
    | [] => true
    | [.int _] => true
    | _ => false

/-- Entries with the memory each of them meets, from the index `i` on. -/
def withMemory (mem : Nat → Memory) : Nat → List (Key × V) → List (Memory × Key × V)
  | _, [] => []
  | i, e :: rest => (mem i, e) :: withMemory mem (i + 1) rest

/-- `call_array_sort`. -/
def callArraySort (mem : SortMemory) (c : Comparer V) (f : SortFunction) (a : PArray V) (rest : List (Argument V)) :
    Option (Sorted V) :=
  if f.accepts rest = false then some ⟨.error (f.name ++ "() received invalid arguments"), a, [], []⟩
  else if a.size ≠ 0 ∧ mem.entries = false then some ⟨.error "out of memory sorting array", a, [], []⟩
  else
    (a.walk (fun entries e => some (true, entries ++ [e.2])) []).bind fun entries =>
      let sorted := sortLoop (compareSortable c f) (entries.length - 1) 1 0 entries
      match sorted.1 with
      | some text => some ⟨.error text, a, entries, sorted.2⟩
      | none =>
        match paNew mem.fresh entries.length with
        | none => some ⟨.error "out of memory sorting array", a, entries, sorted.2⟩
        | some replacement =>
          (replacement.putAll truncate (fun _ => f.preserve) (withMemory mem.entry 0 sorted.2)).map fun built =>
            if built.1 then ⟨.ok (), built.2, entries, sorted.2⟩
            else ⟨.error "out of memory sorting array", a, entries, sorted.2⟩

/-! ## What sorting is for -/

/-- Sorted entries as they stand in the array: with their keys, or numbered from 0. -/
def laidOut (preserve : Bool) (entries : List (Key × V)) : List (Key × V) := renumbered (fun _ => preserve) 0 entries

/-- Some entries are the original ones in another order, in which those that need not change places do not, and which
is that of a comparison that is a total preorder. -/
structure StableSort (compare : Comparison (Key × V) String) (entries sorted : List (Key × V)) : Prop where
  perm : sorted.Perm entries
  stable : ∀ answer, Answers compare answer entries → ∀ x y, answer x y ≤ 0 → [x, y].Sublist entries →
    [x, y].Sublist sorted
  ordered : ∀ answer, Answers compare answer entries → TotalPreorder answer entries →
    sorted.Pairwise fun x y => answer x y ≤ 0

/-- A call leaves the entries sorted, or an error and the array as it was, and gives back the references it took.
`refs` are those of an entry. -/
structure SortLaw {R : Type} (refs : Key × V → List R) (c : Comparer V) (f : SortFunction) (a : PArray V)
    (s : Sorted V) : Prop where
  done : s.result = .ok () → ∃ sorted, StableSort (compareSortable c f) a.observe sorted ∧
    s.array.observe = laidOut f.preserve sorted
  failed : ∀ text, s.result = .error text → s.array = a
  balanced : (s.given.flatMap refs).Perm (s.taken.flatMap refs)

/-! ## What the loops do -/

section Loops
variable {E F : Type} (compare : Comparison E F)

/-- The entry in the free place once some entries have been passed. -/
def inHole (hole : E) (passed : List E) : E := passed.getLast?.getD hole

theorem shiftLoop_eq (current : E) (done : List E) (hole : E) (calls : Nat) (todo : List E) :
    (∀ n passed kept, place compare current calls done = .found n passed kept →
      shiftLoop compare current done.length calls (done.reverse ++ hole :: todo) =
        ⟨kept.reverse ++ inHole hole passed :: (passed.reverse ++ todo), n, kept.length, none⟩) ∧
    ∀ failure passed kept, place compare current calls done = .failed failure passed kept →
      (shiftLoop compare current done.length calls (done.reverse ++ hole :: todo)).failure = some failure ∧
        (shiftLoop compare current done.length calls (done.reverse ++ hole :: todo)).entries =
          kept.reverse ++ inHole hole passed :: (passed.reverse ++ todo) := by
  induction done generalizing hole calls todo with
  | nil =>
    refine ⟨fun n passed kept found => ?_, fun failure passed kept failed => ?_⟩
    · cases found
      rfl
    · cases failed
  | cons x rest ih =>
    have left : ((x :: rest).reverse ++ hole :: todo)[rest.length]? = some x := by
      rw [reverse_cons, append_assoc, getElem?_append_right (by rw [length_reverse]), length_reverse, Nat.sub_self]
      rfl
    have shifted : ((x :: rest).reverse ++ hole :: todo).set (rest.length + 1) x =
        rest.reverse ++ x :: (x :: todo) := by
      have long : rest.length + 1 = (x :: rest).reverse.length := by rw [length_reverse, length_cons]
      rw [long, set_append_right _ _ (le_refl _), Nat.sub_self, reverse_cons, append_assoc]
      rfl
    rw [place, length_cons, shiftLoop, left]
    dsimp only
    cases answered : compare calls x current with
    | error failure =>
      refine ⟨fun n passed kept found => ?_, fun failure' passed kept failed => ?_⟩
      · cases found
      · cases failed
        exact ⟨rfl, rfl⟩
    | ok compared =>
      dsimp only
      by_cases stops : compared ≤ 0
      · rw [if_pos stops, if_pos stops]
        refine ⟨fun n passed kept found => ?_, fun failure passed kept failed => ?_⟩
        · cases found
          rfl
        · cases failed
      · obtain ⟨founds, fails⟩ := ih x (calls + 1) (x :: todo)
        have hole_eq : ∀ passed, inHole hole (x :: passed) = inHole x passed := by
          intro passed
          unfold inHole
          rw [getLast?_cons]
          rfl
        have rest_eq : ∀ passed, (x :: passed).reverse ++ todo = passed.reverse ++ x :: todo := by
          intro passed
          rw [reverse_cons, append_assoc]
          rfl
        rw [if_neg stops, if_neg stops, shifted]
        cases next : place compare current (calls + 1) rest with
        | found n passed kept =>
          refine ⟨fun n' passed' kept' found => ?_, fun failure passed' kept' failed => ?_⟩
          · cases found
            rw [founds n passed kept next, hole_eq, rest_eq]
          · cases failed
        | failed failure passed kept =>
          refine ⟨fun n' passed' kept' found => ?_, fun failure' passed' kept' failed => ?_⟩
          · cases found
          · cases failed
            rw [hole_eq, rest_eq]
            exact fails failure passed kept next

theorem sortLoop_eq (calls : Nat) (done todo : List E) : (∀ sorted, insertAll compare calls done todo = .sorted sorted →
      sortLoop compare todo.length done.length calls (done.reverse ++ todo) = (none, sorted.reverse)) ∧
    ∀ failure passed kept current todo', insertAll compare calls done todo = .failed failure passed kept current todo' →
      sortLoop compare todo.length done.length calls (done.reverse ++ todo) =
        (some failure, kept.reverse ++ inHole current passed :: (passed.reverse ++ todo')) := by
  induction todo generalizing calls done with
  | nil =>
    refine ⟨fun sorted all => ?_, fun failure passed kept current todo' all => ?_⟩
    · cases all
      rw [append_nil]
      rfl
    · cases all
  | cons current todo ih =>
    have here : (done.reverse ++ current :: todo)[done.length]? = some current := by
      rw [getElem?_append_right (by rw [length_reverse]), length_reverse, Nat.sub_self]
      rfl
    rw [insertAll, length_cons, sortLoop, here]
    dsimp only
    obtain ⟨founds, fails⟩ := shiftLoop_eq compare current done current calls todo
    cases search : place compare current calls done with
    | found n passed kept =>
      have parts := (place_parts compare current calls done).1 n passed kept search
      have put : (kept.reverse ++ inHole current passed :: (passed.reverse ++ todo)).set kept.length current =
          (passed ++ current :: kept).reverse ++ todo := by
        have long : kept.length = kept.reverse.length := length_reverse.symm
        rw [long, set_append_right _ _ (le_refl _), Nat.sub_self, reverse_append, reverse_cons]
        simp only [set_cons_zero, append_assoc, singleton_append]
        rfl
      have length : done.length + 1 = (passed ++ current :: kept).length := by
        rw [parts, length_append, length_append, length_cons, add_assoc]
      rw [founds n passed kept search]
      rw [put, length]
      exact ih n (passed ++ current :: kept)
    | failed failure passed kept =>
      obtain ⟨stopped, buffer⟩ := fails failure passed kept search
      rw [stopped, buffer]
      refine ⟨fun sorted all => ?_, fun failure' passed' kept' current' todo' all => ?_⟩
      · cases all
      · cases all
        rfl

/-- The loops of `call_array_sort` on a whole buffer. -/
theorem sortLoop_all (entries : List E) : (∀ sorted, insertAll compare 0 [] entries = .sorted sorted →
      sortLoop compare (entries.length - 1) 1 0 entries = (none, sorted.reverse)) ∧
    ∀ failure passed kept current todo, insertAll compare 0 [] entries = .failed failure passed kept current todo →
      sortLoop compare (entries.length - 1) 1 0 entries =
        (some failure, kept.reverse ++ inHole current passed :: (passed.reverse ++ todo)) := by
  cases entries with
  | nil =>
    refine ⟨fun sorted all => ?_, fun failure passed kept current todo all => ?_⟩
    · cases all
      rfl
    · cases all
  | cons first rest => exact sortLoop_eq compare 0 [first] rest

end Loops

/-- Where a comparison fails, no entry has been passed since the last one was taken, or the one passed last holds the
same references. -/
def FailsCleanly {R : Type} (refs : Key × V → List R) (compare : Comparison (Key × V) String)
    (entries : List (Key × V)) : Prop :=
  ∀ failure passed kept current todo, insertAll compare 0 [] entries = .failed failure passed kept current todo →
    ∀ last, passed.getLast? = some last → (refs last).Perm (refs current)

/-- The references given back are those taken exactly when the entry in the free place holds the same ones as the
entry to be inserted. -/
theorem balanced_iff {R : Type} (refs : Key × V → List R) {entries passed kept todo : List (Key × V)}
    {current : Key × V} (all : (passed ++ (kept ++ current :: todo)).Perm entries) :
    ((kept.reverse ++ inHole current passed :: (passed.reverse ++ todo)).flatMap refs).Perm (entries.flatMap refs) ↔
      ∀ last, passed.getLast? = some last → (refs last).Perm (refs current) := by
  have others : (kept.reverse ++ inHole current passed :: (passed.reverse ++ todo)).Perm
      (inHole current passed :: (passed ++ (kept ++ todo))) := by
    refine perm_middle.trans (List.Perm.cons _ ?_)
    have swap : (kept.reverse ++ (passed.reverse ++ todo)).Perm (kept ++ (passed ++ todo)) :=
      kept.reverse_perm.append (passed.reverse_perm.append_right todo)
    exact swap.trans (perm_append_comm_assoc kept passed todo)
  have taken : entries.Perm (current :: (passed ++ (kept ++ todo))) := by
    refine all.symm.trans ?_
    have middle : (kept ++ current :: todo).Perm (current :: (kept ++ todo)) := perm_middle
    exact (middle.append_left passed).trans perm_middle
  have given := others.flatMap_right refs
  have taken' := taken.flatMap_right refs
  rw [flatMap_cons] at given taken'
  have cancel : ((kept.reverse ++ inHole current passed :: (passed.reverse ++ todo)).flatMap refs).Perm
      (entries.flatMap refs) ↔ (refs (inHole current passed)).Perm (refs current) := by
    constructor
    · intro balanced
      exact (perm_append_right_iff _).mp (given.symm.trans (balanced.trans taken'))
    · intro same
      exact given.trans (((perm_append_right_iff _).mpr same).trans taken'.symm)
  rw [cancel]
  unfold inHole
  cases passed.getLast? with
  | none => exact ⟨fun _ last none_there => (by cases none_there), fun _ => Perm.refl _⟩
  | some last =>
    refine ⟨fun same last' there => ?_, fun same => same last rfl⟩
    obtain rfl := Option.some.inj there
    exact same

theorem withMemory_map (mem : Nat → Memory) (i : Nat) (entries : List (Key × V)) :
    (withMemory mem i entries).map Prod.snd = entries := by
  induction entries generalizing i with
  | nil => rfl
  | cons e rest ih => rw [withMemory, map_cons, ih]

theorem walk_collect (a : PArray V) :
    a.walk (fun entries e => some (true, entries ++ [e.2])) [] = some a.dict.entries := by
  have collect : ∀ (list : List (Nat × Key × V)) (before : List (Key × V)),
      rounds (fun entries e => some (true, entries ++ [e.2])) list before = some (before ++ list.map Prod.snd) := by
    intro list
    induction list with
    | nil =>
      intro before
      rw [map_nil, append_nil]
      rfl
    | cons e rest ih =>
      intro before
      rw [rounds]
      dsimp only
      rw [ih, map_cons, append_assoc]
      rfl
  rw [walk_eq, collect, nil_append, visited_entries]

theorem stableSort_of {compare : Comparison (Key × V) String} {entries sorted : List (Key × V)}
    (all : insertAll compare 0 [] entries = .sorted sorted) : StableSort compare entries sorted.reverse where
  perm := sorted.reverse_perm.trans (insertAll_perm compare all)
  stable := by
    intro answer answers x y order before
    have whole : Answers compare answer ([] ++ entries) := answers
    exact insertAll_stable whole all order before
  ordered := by
    intro answer answers preorder
    have whole : Answers compare answer ([] ++ entries) := answers
    exact pairwise_reverse.mpr (insertAll_ordered whole preorder Pairwise.nil all)

/-- Sorted entries can be added to a new array, with their keys or numbered from 0. -/
theorem accepts_laidOut {a : PArray V} (h : a.Lawful cfg) {entries : List (Key × V)}
    (perm : entries.Perm a.dict.entries) (preserve : Bool) : Dict.empty.Accepts cfg (fun _ => preserve) entries ∧
      (entries.foldl (Dict.put cfg fun _ => preserve) Dict.empty).entries = laidOut preserve entries := by
  have keysPerm : (keys entries).Perm (keys a.dict.entries) := perm.map Prod.fst
  have distinct : (keys entries).Nodup := keysPerm.nodup_iff.mpr h.lawful.distinct
  have canonical : ∀ key ∈ keys entries, key.Canonical cfg :=
    fun key listed => h.lawful.canonical key (keysPerm.subset listed)
  have apart : ∀ key : Key, key ∉ keys (Dict.empty : Dict V).entries := fun key => not_mem_nil
  unfold laidOut
  cases preserve with
  | true =>
    obtain ⟨accepts, built⟩ := Dict.accepts_all (d := Dict.empty) distinct canonical fun key _ => apart key
    rw [renumbered_all]
    exact ⟨accepts, built⟩
  | false =>
    have strings : OnlyStrings (fun _ => false) := fun _ => rfl
    have room : (0 : Int) + entries.length < cfg.intMax := by
      apply below_intMax
      have same := perm.length_eq
      have size := h.wf.size_dict
      have used : a.size ≤ a.used := by
        rw [h.wf.size_eq, ← length_cells]
        exact reduceOption_length_le _
      have := h.wf.used_le
      have := h.wf.capacity_le
      omega
    obtain ⟨accepts, built, -⟩ := Dict.accepts_renumbered strings Dict.numbered_empty (distinct.filter _) canonical
      (fun s _ _ => apart (.string s)) room
    exact ⟨accepts, built⟩

section Law
variable {R : Type} (refs : Key × V → List R) (c : Comparer V) (f : SortFunction) {a : PArray V}

theorem SortLaw.error_iff (text : String) (taken given : List (Key × V)) :
    SortLaw refs c f a ⟨.error text, a, taken, given⟩ ↔ (given.flatMap refs).Perm (taken.flatMap refs) :=
  ⟨fun law => law.balanced, fun balanced => ⟨fun impossible => (by cases impossible), fun _ _ => rfl, balanced⟩⟩

end Law

end Sorting

/-- A comparison of numbers, and a callback that does not return one the third time. -/
def thirdFails : Comparer Nat where
  callback := fun calls _ _ => if calls = 0 then .ok (-1) else if calls = 1 then .ok 1 else .error ""
  builtin := fun left right =>
    match left, right with
    | .value m, .value n => .ok ((m : Int) - n)
    | _, _ => .error none

/-- The calls that make an array of three elements. -/
def threeCalls : List (ArrayCall PArray.integerBuild Nat × Memory) :=
  [(.new 0, granted), (.push 0 20, granted), (.push 0 30, granted), (.push 0 10, granted)]

/-- The array they make. -/
def threeElements : PArray Nat :=
  ⟨true, 3, 8, 3, [⟨some (.int 0, 20), emptyBucket⟩, ⟨some (.int 1, 30), emptyBucket⟩,
    ⟨some (.int 2, 10), emptyBucket⟩], []⟩

theorem threeElements_reached :
    ∃ answers, PArray.run PArray.noFloatKeys [] threeCalls = some (answers, [threeElements]) :=
  ⟨replicate 4 (.status true), by rfl⟩

end PhpPico.Arrays
