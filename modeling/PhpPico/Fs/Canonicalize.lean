import Mathlib.Data.List.Basic
import PhpPico.Proto

/-!
# Canonical paths on the device

`pphp_fs_canonicalize` writes the components of a path to a buffer, and goes back over the last one at `..`. The
buffer begins with `/home` for paths of the form `/home/…` and relative ones, and empty for others; the floor under
`..` is five bytes for both. `lfs_path`: which path of the flash file system it names.
-/

namespace PhpPico.Fs
open List

/-! ## The code -/

/-- The slash. -/
def slash : UInt8 := 47

def home : List UInt8 := ascii "/home"

/-- A prefix that ends at a slash or with the path. -/
def hasRoot (root path : List UInt8) : Bool :=
  root <+: path && ((path.drop root.length).head?.all fun next => next == slash)

/-- `lfs_path`. -/
def lfsPath (path : List UInt8) : Option (List UInt8) :=
  if path = [] then none
  else if path = home ∨ path = home ++ [slash] then some [slash]
  else if home ++ [slash] <+: path then some (path.drop 5)
  else if hasRoot (ascii "/lib") path then none
  else some path

/-- The loop back to the last slash: where it ends, from `length` on. -/
def backToSlash (resolved : List UInt8) : Nat → Nat
  | 0 => 0
  | n + 1 => if 5 < n + 1 ∧ resolved[n]? ≠ some slash then backToSlash resolved n else n + 1

/-- What a component `..` does to the buffer. -/
def goUp (resolved : List UInt8) : List UInt8 :=
  if 5 < resolved.length then
    let length := backToSlash resolved resolved.length
    resolved.take (if 5 < length then length - 1 else length)
  else resolved

/-- What any other component does to the buffer. -/
def goDown (resolved component : List UInt8) : List UInt8 :=
  (if resolved.getLast? = some slash then resolved else resolved ++ [slash]) ++ component

/-- `.` and `..`. -/
def dot : List UInt8 := [46]
def dotDot : List UInt8 := [46, 46]

/-- One round of the loop of `pphp_fs_canonicalize`: a component, of which two slashes in a row have an
empty one between them. -/
def addComponent (capacity : Nat) (resolved component : List UInt8) : Option (List UInt8) :=
  if component = [] ∨ component = dot then some resolved
  else if component = dotDot then some (goUp resolved)
  else if capacity < resolved.length + component.length + 2 then none
  else some (goDown resolved component)

/-- Where `pphp_fs_canonicalize` begins: what is in the buffer, and the rest of the path. -/
def start (path : List UInt8) : List UInt8 × List UInt8 :=
  if hasRoot home path then (home, path.drop 5)
  else if path.head? = some slash then ([], path)
  else (home, path)

/-- `pphp_fs_canonicalize`. -/
def canonicalize (capacity : Nat) (path : List UInt8) : Option (List UInt8) :=
  if capacity < 6 then none
  else ((start path).2.splitOn slash).foldlM (addComponent capacity) (start path).1

/-! ## What paths name -/

/-- A step through the directories: `..` leads up, and nowhere from the root. -/
def visit (names : List (List UInt8)) (component : List UInt8) : List (List UInt8) :=
  if component = dotDot then names.dropLast else names ++ [component]

/-- The components of a path that lead anywhere. -/
def components (path : List UInt8) : List (List UInt8) :=
  (path.splitOn slash).filter fun component => component ≠ [] ∧ component ≠ dot

/-- The names of the directories, and of the file in the last of them, that a path leads to. -/
def names (path : List UInt8) : List (List UInt8) := (components path).foldl visit []

/-- The file of a path, if `lfs_path` has a path for it. -/
def file (path : List UInt8) : Option (List (List UInt8)) := (lfsPath path).map names

/-- Names with a slash before each. -/
def text (names : List (List UInt8)) : List UInt8 := names.flatMap fun name => slash :: name

/-- Components that are neither empty nor have a slash. -/
def Valid (cs : List (List UInt8)) : Prop := ∀ c ∈ cs, c ≠ [] ∧ slash ∉ c

/-- Components that are names. -/
def AreNames (cs : List (List UInt8)) : Prop := ∀ c ∈ cs, c ≠ [] ∧ slash ∉ c ∧ c ≠ dot ∧ c ≠ dotDot

/-! ## Texts -/

@[simp] theorem text_nil : text [] = [] := rfl

@[simp] theorem text_cons (c : List UInt8) (cs : List (List UInt8)) : text (c :: cs) = slash :: (c ++ text cs) := rfl

@[simp] theorem text_append (cs cs' : List (List UInt8)) : text (cs ++ cs') = text cs ++ text cs' :=
  flatMap_append

variable {cs : List (List UInt8)} {capacity : Nat}

theorem splitOn_name {c : List UInt8} (plain : slash ∉ c) (valid : ∀ c ∈ cs, slash ∉ c) :
    (c ++ text cs).splitOn slash = c :: cs := by
  induction cs generalizing c with
  | nil => rw [text_nil, append_nil, splitOn_eq_singleton plain]
  | cons d rest ih =>
    obtain ⟨plain', valid'⟩ := forall_mem_cons.mp valid
    rw [text_cons, splitOn_append_cons_self_of_not_mem plain, ih plain' valid']

theorem splitOn_text (valid : ∀ c ∈ cs, slash ∉ c) : (text cs).splitOn slash = [] :: cs :=
  splitOn_name (c := []) not_mem_nil valid

theorem text_injective {cs' : List (List UInt8)} (valid : ∀ c ∈ cs, slash ∉ c) (valid' : ∀ c ∈ cs', slash ∉ c)
    (same : text cs = text cs') : cs = cs' := by
  have split := splitOn_text valid
  rw [same, splitOn_text valid'] at split
  exact (cons.inj split).2.symm

theorem not_mem_of_mem_splitOn (path : List UInt8) : ∀ c ∈ path.splitOn slash, slash ∉ c := by
  induction path with
  | nil =>
    intro c mem
    rw [splitOn_nil, mem_singleton] at mem
    rw [mem]
    exact not_mem_nil
  | cons x rest ih =>
    rw [splitOn_cons_eq_if_modifyHead]
    split
    · exact forall_mem_cons.mpr ⟨not_mem_nil, ih⟩
    · next other =>
      cases parts : rest.splitOn slash with
      | nil => exact fun c mem => absurd mem not_mem_nil
      | cons first others =>
        rw [parts] at ih
        obtain ⟨plain, plain'⟩ := forall_mem_cons.mp ih
        refine forall_mem_cons.mpr ⟨fun mem => ?_, plain'⟩
        rcases mem_cons.mp mem with same | mem
        · exact other (beq_iff_eq.mpr same.symm)
        · exact plain mem

theorem valid_components (path : List UInt8) : Valid (components path) := by
  intro c mem
  obtain ⟨mem, leads⟩ := mem_filter.mp mem
  exact ⟨(of_decide_eq_true leads).1, not_mem_of_mem_splitOn path c mem⟩

theorem components_text (areNames : AreNames cs) : components (text cs) = cs := by
  rw [components, splitOn_text fun c mem => (areNames c mem).2.1, filter_cons, if_neg (by simp)]
  exact filter_eq_self.mpr fun c mem => decide_eq_true ⟨(areNames c mem).1, (areNames c mem).2.2.1⟩

/-! ## Runs within the capacity -/

/-- A step of the loop, where there is room. -/
def advance (resolved component : List UInt8) : List UInt8 :=
  if component = dotDot then goUp resolved else goDown resolved component

/-- What the loop leaves in the buffer, where there is room. -/
def canon (path : List UInt8) : List UInt8 := (components (start path).2).foldl advance (start path).1

theorem length_goUp_le (resolved : List UInt8) : (goUp resolved).length ≤ resolved.length := by
  unfold goUp
  split
  · exact length_take_le' _ _
  · exact le_rfl

theorem length_goDown_le (resolved component : List UInt8) :
    (goDown resolved component).length ≤ resolved.length + component.length + 1 := by
  unfold goDown
  split
  · rw [length_append]; omega
  · rw [length_append, length_append, length_singleton]; omega

theorem addComponent_eq_some {resolved component next : List UInt8}
    (added : addComponent capacity resolved component = some next) (fits : resolved.length + 1 ≤ capacity) :
    next = (if component ≠ [] ∧ component ≠ dot then advance resolved component else resolved) ∧
      next.length + 1 ≤ capacity := by
  unfold addComponent at added
  by_cases skips : component = [] ∨ component = dot
  · rw [if_pos skips] at added
    cases added
    exact ⟨(if_neg fun leads => skips.elim leads.1 leads.2).symm, fits⟩
  · rw [if_neg skips] at added
    rw [if_pos (not_or.mp skips), advance]
    split at added
    · next up =>
      cases added
      have le := length_goUp_le resolved
      exact ⟨(if_pos up).symm, by omega⟩
    · next down =>
      split at added
      · cases added
      · cases added
        have le := length_goDown_le resolved component
        exact ⟨(if_neg down).symm, by omega⟩

theorem foldlM_eq_some {resolved result : List UInt8}
    (accepted : cs.foldlM (addComponent capacity) resolved = some result) (fits : resolved.length + 1 ≤ capacity) :
    result = (cs.filter fun c => c ≠ [] ∧ c ≠ dot).foldl advance resolved ∧ result.length + 1 ≤ capacity := by
  induction cs generalizing resolved with
  | nil =>
    cases accepted
    exact ⟨rfl, fits⟩
  | cons c rest ih =>
    rw [foldlM_cons] at accepted
    obtain ⟨next, added, accepted⟩ := Option.bind_eq_some_iff.mp accepted
    obtain ⟨rfl, fits'⟩ := addComponent_eq_some added fits
    obtain ⟨e, room⟩ := ih accepted fits'
    refine ⟨e.trans ?_, room⟩
    rw [filter_cons]
    by_cases leads : c ≠ [] ∧ c ≠ dot
    · rw [if_pos leads, if_pos (decide_eq_true leads), foldl_cons]
    · rw [if_neg leads, if_neg (by rw [decide_eq_false leads]; exact Bool.false_ne_true)]

/-- **The output fits**, with its terminating NUL. -/
theorem canonicalize_eq_some {path result : List UInt8}
    (accepted : canonicalize capacity path = some result) : result = canon path ∧ result.length + 1 ≤ capacity := by
  unfold canonicalize at accepted
  split at accepted
  · cases accepted
  · refine foldlM_eq_some accepted ?_
    have short : home.length = 5 := rfl
    unfold start
    split
    · rw [short]; omega
    · split
      · rw [length_nil]; omega
      · rw [short]; omega

end PhpPico.Fs
