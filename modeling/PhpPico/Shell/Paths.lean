import PhpPico.Fs.Identity

/-!
# Paths of the device shell

`normalize_path` copies the current directory to a buffer, or begins at the root, and goes on component by component.
The buffer always holds a directory.
-/

namespace PhpPico.Shell
open List Fs

/-! ## The code -/

/-- The buffer of a path: the bytes before `length`, and those from there on. -/
structure Buffer where
  before : List UInt8
  behind : List UInt8

/-- `path[*length] = '\0'`. -/
def Buffer.terminate (b : Buffer) : Buffer := { b with behind := b.behind.set 0 0 }

/-- Write behind the path and go on there. -/
def Buffer.push (b : Buffer) (bytes : List UInt8) : Buffer := ⟨b.before ++ bytes, b.behind.drop bytes.length⟩

/-- Set `length` back. -/
def Buffer.cut (b : Buffer) (length : Nat) : Buffer := ⟨b.before.take length, b.before.drop length ++ b.behind⟩

/-- The loop back to the last slash. -/
def backToSlash (path : List UInt8) : Nat → Nat
  | 0 => 0
  | n + 1 => if 1 < n + 1 ∧ path[n]? ≠ some slash then backToSlash path n else n + 1

/-- The length that a component `..` leaves. -/
def goUp (path : List UInt8) : Nat :=
  if 1 < path.length then
    let length := backToSlash path path.length
    if 1 < length then length - 1 else length
  else path.length

/-- The slash before a name. -/
def addSlash (b : Buffer) : Option Buffer :=
  if 1 < b.before.length ∧ b.before.getLast? ≠ some slash then
    if 256 ≤ b.before.length + 1 then none else some (b.push [slash])
  else some b

/-- The name behind it. -/
def addName (component : List UInt8) (b : Buffer) : Option Buffer :=
  if 256 ≤ b.before.length + component.length then none else some (b.push component).terminate

/-- `append_component`; `P2SH_PATH_MAX` is 256. -/
def appendComponent (b : Buffer) (component : List UInt8) : Option Buffer :=
  if component = [] ∨ component = dot then some b
  else if component = dotDot then some (b.cut (goUp b.before)).terminate
  else (addSlash b).bind (addName component)

/-- The loop of `normalize_path`: the components between the slashes, which may be empty. -/
def scan (b : Buffer) (cursor : List UInt8) : Option Buffer := (cursor.splitOn slash).foldlM appendComponent b

/-- `normalize_path`, on what is in the output before. -/
def normalizePath (output currentDirectory input : List UInt8) : Option Buffer :=
  let input := if input = [] then currentDirectory else input
  if input.head? = some slash then scan ⟨[slash], 0 :: output.drop 2⟩ (input.drop 1)
  else if 256 ≤ currentDirectory.length then none
  else scan ⟨currentDirectory, 0 :: output.drop (currentDirectory.length + 1)⟩ input

/-- A directory that `normalize_path` has made, of an absolute path or from such a directory. -/
inductive IsDirectory : List UInt8 → Prop
  | root {output directory path : List UInt8} {b : Buffer} (size : output.length = 256)
      (absolute : path.head? = some slash) (made : normalizePath output directory path = some b) : IsDirectory b.before
  | on {output directory path : List UInt8} {b : Buffer} (was : IsDirectory directory) (size : output.length = 256)
      (made : normalizePath output directory path = some b) : IsDirectory b.before

/-! ## Directories -/

/-- The path of a directory. -/
def pathOf (S : List (List UInt8)) : List UInt8 := if S = [] then [slash] else text S

/-- The directory that a path starts from. -/
def origin (currentDirectory path : List UInt8) : List (List UInt8) :=
  if path.head? = some slash then [] else components currentDirectory

/-- All directories on the way have paths that fit. -/
def fits (S : List (List UInt8)) : List (List UInt8) → Bool
  | [] => true
  | e :: rest => decide ((pathOf (visit S e)).length < 256) && fits (visit S e) rest

/-- The buffer holds the path of a directory, with a NUL behind it. -/
structure Holds (b : Buffer) (S : List (List UInt8)) : Prop where
  names : AreNames S
  path : b.before = pathOf S
  size : b.before.length + b.behind.length = 256
  nul : b.behind.head? = some 0

variable {b : Buffer} {S : List (List UInt8)} {e directory output : List UInt8}

theorem pathOf_concat (S : List (List UInt8)) (e : List UInt8) : pathOf (S ++ [e]) = text S ++ slash :: e := by
  rw [pathOf, if_neg (by simp), text_concat]

theorem pathOf_eq (nonempty : S ≠ []) : pathOf S = text S := if_neg nonempty

theorem components_pathOf (areNames : AreNames S) : components (pathOf S) = S := by
  by_cases none_left : S = []
  · rw [none_left]
    decide
  · rw [pathOf_eq none_left, components_text areNames]

theorem head?_pathOf (S : List (List UInt8)) : (pathOf S).head? = some slash := by
  cases S <;> rfl

theorem Holds.fits (h : Holds b S) : b.before.length < 256 := by
  have size := h.size
  have nul := h.nul
  cases behind : b.behind with
  | nil =>
    rw [behind] at nul
    cases nul
  | cons x rest =>
    rw [behind, length_cons] at size
    omega

/-- Writing the NUL needs room for it. -/
theorem holds_terminate (areNames : AreNames S) (path : b.before = pathOf S)
    (size : b.before.length + b.behind.length = 256) (fits : b.before.length < 256) : Holds b.terminate S := by
  obtain ⟨before, _ | ⟨x, rest⟩⟩ := b
  · dsimp only [length_nil] at size fits
    omega
  · exact ⟨areNames, path, size, rfl⟩

theorem backToSlash_eq {before : List UInt8} (plain : slash ∉ e) {n : Nat}
    (behind : before.length + 1 ≤ n) (inside : n ≤ before.length + 1 + e.length) :
    backToSlash (before ++ slash :: e) n = before.length + 1 := by
  induction n with
  | zero => omega
  | succ n ih =>
    unfold backToSlash
    by_cases at_slash : n = before.length
    · rw [if_neg (by simp [at_slash]), at_slash]
    · have other : (before ++ slash :: e)[n]? ≠ some slash := by
        rw [getElem?_append_right (by omega), getElem?_cons, if_neg (by omega)]
        exact fun at_n => plain (mem_of_getElem? at_n)
      rw [if_pos ⟨by omega, other⟩]
      exact ih (by omega) (by omega)

/-- Going up leaves the path of the parent, which is the root's own. -/
theorem goUp_pathOf (areNames : AreNames S) :
    (pathOf S).take (goUp (pathOf S)) = pathOf S.dropLast ∧ goUp (pathOf S) ≤ (pathOf S).length := by
  rcases eq_nil_or_concat S with rfl | ⟨init, c, rfl⟩
  · exact ⟨rfl, le_rfl⟩
  · rw [concat_eq_append] at *
    obtain ⟨nonempty, plain, -⟩ := areNames c (by simp)
    have pos := List.length_pos_iff.mpr nonempty
    rw [dropLast_concat, pathOf_concat, goUp, length_append, length_cons, if_pos (by omega),
      backToSlash_eq plain (by omega) (by omega)]
    dsimp only
    by_cases root : init = []
    · rw [root]
      exact ⟨rfl, by simp⟩
    · have long := length_text_pos (fun d mem => areNames.valid d (mem_append_left _ mem)) root
      rw [if_pos (by omega), Nat.add_sub_cancel, take_left, pathOf_eq root]
      exact ⟨rfl, by omega⟩

theorem Holds.addSlash (h : Holds b S) : ∃ b' : Buffer, b'.before = text S ++ [slash] ∧
    b'.before.length + b'.behind.length = 256 ∧ addSlash b = if 255 ≤ (text S).length then none else some b' := by
  have size := h.size
  have fits := h.fits
  by_cases root : S = []
  · have at_root : b.before = [slash] := by rw [h.path, root]; rfl
    refine ⟨b, by rw [at_root, root]; rfl, size, ?_⟩
    rw [Shell.addSlash, at_root, root]
    rfl
  · have path := h.path
    have long := length_text_pos h.names.valid root
    rw [pathOf_eq root] at path
    refine ⟨b.push [slash], by rw [Buffer.push, path], ?_, ?_⟩
    · simp only [Buffer.push, length_append, length_drop, length_singleton]
      omega
    · rw [Shell.addSlash, path, if_pos ⟨by omega, getLast?_text h.names.valid⟩]
      simp only [Nat.reduceLeDiff]

/-- **One component**: the buffer follows the walk, or there is no room for the path. -/
theorem Holds.append (h : Holds b S) (lead : e ≠ [] ∧ slash ∉ e ∧ e ≠ dot) :
    if (pathOf (visit S e)).length < 256 then ∃ b', appendComponent b e = some b' ∧ Holds b' (visit S e)
    else appendComponent b e = none := by
  have areNames : AreNames (visit S e) := areNames_foldl h.names (List.forall_mem_singleton.mpr lead)
  have size := h.size
  have fits := h.fits
  unfold appendComponent
  rw [if_neg (not_or.mpr ⟨lead.1, lead.2.2⟩)]
  by_cases up : e = dotDot
  · obtain ⟨parent, le⟩ := goUp_pathOf h.names
    rw [up, visit_dotDot] at areNames ⊢
    rw [← h.path] at parent le
    have shorter := congrArg List.length parent
    rw [length_take] at shorter
    rw [if_pos (by omega), if_pos rfl]
    refine ⟨_, rfl, holds_terminate areNames parent ?_ ?_⟩
    · simp only [Buffer.cut, length_append, length_take, length_drop]
      omega
    · simp only [Buffer.cut, length_take]
      omega
  · obtain ⟨b', path, size', added⟩ := h.addSlash
    rw [visit_name _ up] at areNames ⊢
    rw [pathOf_concat, if_neg up, added, length_append, length_cons]
    have length := congrArg List.length path
    rw [length_append, length_singleton] at length
    have pos := List.length_pos_iff.mpr lead.1
    by_cases room : (text S).length + (e.length + 1) < 256
    · rw [if_pos room, if_neg (by omega)]
      refine ⟨_, if_neg (by omega), holds_terminate areNames ?_ ?_ ?_⟩
      · rw [pathOf_concat, Buffer.push, path, append_assoc, singleton_append]
      · simp only [Buffer.push, length_append, length_drop]
        omega
      · simp only [Buffer.push, length_append]
        omega
    · rw [if_neg room]
      split
      · rfl
      · exact if_pos (by omega)

/-- **The walk**: the buffer holds where it leads, if all directories on the way fit. -/
theorem Holds.foldlM (h : Holds b S) {es : List (List UInt8)} (leads : ∀ e ∈ es, e ≠ [] ∧ slash ∉ e ∧ e ≠ dot) :
    if Shell.fits S es then ∃ b', es.foldlM appendComponent b = some b' ∧ Holds b' (es.foldl visit S)
    else es.foldlM appendComponent b = none := by
  induction es generalizing b S with
  | nil => exact ⟨b, rfl, h⟩
  | cons e rest ih =>
    obtain ⟨lead, leads'⟩ := List.forall_mem_cons.mp leads
    have step := h.append lead
    simp only [Shell.fits, foldlM_cons, foldl_cons]
    split at step
    · next fits =>
      obtain ⟨b', added, h'⟩ := step
      rw [added, decide_eq_true fits, Bool.true_and]
      exact ih h' leads'
    · next long =>
      rw [step, decide_eq_false long]
      exact rfl

/-- The loop follows the components that lead anywhere. -/
theorem scan_eq (b : Buffer) (cursor : List UInt8) : scan b cursor = (components cursor).foldlM appendComponent b := by
  rw [scan, components]
  induction cursor.splitOn slash generalizing b with
  | nil => rfl
  | cons c rest ih =>
    rw [filter_cons]
    split
    · rw [foldlM_cons, foldlM_cons]
      simp only [ih]
    · next stays =>
      have skipped : appendComponent b c = some b := if_pos (by simpa [or_iff_not_imp_left] using stays)
      rw [foldlM_cons, skipped]
      exact ih b

/-! ## The law -/

theorem fits_names {T : List (List UInt8)} (areNames : AreNames T) (short : (pathOf (S ++ T)).length < 256) :
    fits S T = true := by
  induction T generalizing S with
  | nil => rfl
  | cons e rest ih =>
    obtain ⟨name, areNames'⟩ := List.forall_mem_cons.mp areNames
    rw [append_cons] at short
    rw [fits, visit_name _ name.2.2.2, ih areNames' short, Bool.and_true, decide_eq_true_iff, pathOf_eq (by simp)]
    rw [pathOf_eq (by simp), text_append, length_append] at short
    omega

theorem normalize_absolute (size : output.length = 256) {path : List UInt8} (absolute : path.head? = some slash) :
    if fits [] (components path) then
      ∃ b, normalizePath output directory path = some b ∧ Holds b ((components path).foldl visit [])
    else normalizePath output directory path = none := by
  obtain ⟨rest, rfl⟩ := List.head?_eq_some_iff.mp absolute
  have root : Holds ⟨[slash], 0 :: output.drop 2⟩ [] :=
    ⟨fun c mem => (by cases mem), rfl, by simp [size], rfl⟩
  have same : components (slash :: rest) = components rest := by
    rw [components, splitOn_cons_eq_if_modifyHead, if_pos (beq_self_eq_true slash), filter_cons, if_neg (by simp)]
    rfl
  have walk := root.foldlM (@leads_of_mem_components rest)
  rw [← scan_eq] at walk
  rw [same]
  exact walk

theorem normalize_pathOf (size : output.length = 256) (areNames : AreNames S) (short : (pathOf S).length < 256) :
    ∃ b, normalizePath output directory (pathOf S) = some b ∧ Holds b S := by
  have walk := @normalize_absolute directory output size _ (head?_pathOf S)
  rw [components_pathOf areNames, fits_names (S := []) areNames short, foldl_visit_names [] areNames] at walk
  exact walk

/-- The output is the path of the directory that a path leads to from another, if all directories on the way fit. -/
theorem normalize_law (size : output.length = 256) (areNames : AreNames S) (short : (pathOf S).length < 256)
    (path : List UInt8) : if fits (origin (pathOf S) path) (components path) then
      ∃ b, normalizePath output (pathOf S) path = some b ∧
        Holds b ((components path).foldl visit (origin (pathOf S) path))
    else normalizePath output (pathOf S) path = none := by
  unfold origin
  by_cases empty : path = []
  · obtain ⟨b, run, holds⟩ := @normalize_pathOf S (pathOf S) output size areNames short
    rw [empty]
    refine ⟨b, ?_, ?_⟩
    · rw [← run, normalizePath, normalizePath, if_pos rfl, ite_self]
    · rw [if_neg (by simp), components_pathOf areNames]
      exact holds
  · by_cases absolute : path.head? = some slash
    · rw [if_pos absolute]
      exact normalize_absolute size absolute
    · have start : Holds ⟨pathOf S, 0 :: output.drop ((pathOf S).length + 1)⟩ S := by
        refine ⟨areNames, rfl, ?_, rfl⟩
        simp only [length_cons, length_drop, size]
        omega
      have walk := start.foldlM (@leads_of_mem_components path)
      rw [← scan_eq] at walk
      rw [if_neg absolute, components_pathOf areNames]
      simp only [normalizePath, if_neg empty, if_neg absolute, if_neg (not_le.mpr short)]
      exact walk

/-- A path that fits has been made of names. -/
theorem Holds.of_made {outcome : Option Buffer} {some_room : Bool}
    (law : if some_room then ∃ b, outcome = some b ∧ Holds b S else outcome = none) (made : outcome = some b) :
    Holds b S := by
  rw [made] at law
  split at law
  · obtain ⟨b', run, holds⟩ := law
    cases run
    exact holds
  · cases law

theorem IsDirectory.eq (dir : IsDirectory directory) :
    ∃ S, AreNames S ∧ directory = pathOf S ∧ (pathOf S).length < 256 := by
  induction dir with
  | root size absolute made =>
    have holds := Holds.of_made (normalize_absolute size absolute) made
    exact ⟨_, holds.names, holds.path, holds.path ▸ holds.fits⟩
  | on was size made ih =>
    obtain ⟨S, areNames, rfl, short⟩ := ih
    have holds := Holds.of_made (normalize_law size areNames short _) made
    exact ⟨_, holds.names, holds.path, holds.path ▸ holds.fits⟩

theorem isDirectory_home : IsDirectory home :=
  @IsDirectory.root (List.replicate 256 0) [] home _ length_replicate rfl rfl

end PhpPico.Shell
