import Mathlib.Data.List.TakeWhile
import PhpPico.Proto

/-!
# Reading by lines

`fgets` reads byte by byte up to a newline or the limit, at most `PPHP_STR_MAX`, and makes a string of what `strlen`
counts. Allocation failure is left out.
-/

namespace PhpPico.Fs

variable {File : Type} (lfsFileRead : File → Nat → Option (List UInt8) × File)

/-! ## The functions -/

/-- `pphp_file`; `eof` is what `feof` answers. -/
structure Stream (File : Type) where
  handle : File
  eof : Bool

/-- `pphp_fs_read`: the bytes, if the read does not fail. -/
def fsRead (file : Stream File) (length : Nat) : Option (List UInt8) × Stream File :=
  if 4294967295 < length then (none, file)
  else match lfsFileRead file.handle length with
    | (none, handle) => (none, { file with handle })
    | (some bytes, handle) => (some bytes, ⟨handle, bytes.isEmpty⟩)

/-- The loop of `fgets`, which has room for some more bytes. -/
def fgetsLoop : Nat → Stream File → List UInt8 × Stream File
  | 0, file => ([], file)
  | room + 1, file =>
    match fsRead lfsFileRead file 1 with
    | (some (b :: _), file) =>
      if b = 10 then ([b], file) else (b :: (fgetsLoop room file).1, (fgetsLoop room file).2)
    | (_, file) => ([], file)

/-- An argument behind the stream. -/
inductive Argument where
  | int (n : Int)
  | other

def fgetsLimit : List Argument → Option Int
  | [] => some 256
  | [.int limit] => if 0 < limit then some limit else none
  | _ => none

/-- What `fgets` returns: `false` or a string. -/
inductive Answer where
  | no
  | line (string : PString)
  deriving DecidableEq

/-- `call_stream` for `fgets`. There is no answer where it raises an error. -/
def fgets (arguments : List Argument) (file : Stream File) : Option Answer × Stream File :=
  match fgetsLimit arguments with
  | none => (none, file)
  | some limit =>
    let limit := if 65535 < limit then 65535 else limit
    let (used, file) := fgetsLoop lfsFileRead limit.toNat file
    (if used = [] then some .no else (psNew (printed used)).map .line, file)

/-- The results of some calls until false, if it comes. -/
def untilFalse : List (List Argument) → Stream File → Option (List UInt8)
  | [], _ => none
  | arguments :: calls, file =>
    match (fgets lfsFileRead arguments file).1 with
    | none => none
    | some .no => some []
    | some (.line string) => (untilFalse calls (fgets lfsFileRead arguments file).2).map (string.bytes ++ ·)

/-! ## Lines -/

/-- The bytes up to and including the next newline, or up to the limit. -/
def upTo (limit : Nat) (content : List UInt8) : List UInt8 :=
  (content.take limit).take ((content.take limit).idxOf 10 + 1)

variable (content : File → List UInt8) (bound : Int → Int) (Kept : List UInt8 → Prop)

/-- **Some calls lose nothing** behind the position: each is false just at the end and else the bytes up to the
newline or the limit. `bound` is what a limit amounts to, and `Kept` which lines come back. -/
def Lossless : List (List Argument) → Stream File → Prop
  | [], _ => True
  | arguments :: calls, file => ∀ limit, fgetsLimit arguments = some limit →
    let line := upTo (bound limit).toNat (content file.handle)
    let answer := (fgets lfsFileRead arguments file).1
    let behind := (fgets lfsFileRead arguments file).2
    (answer = some .no ↔ content file.handle = []) ∧
    (content file.handle ≠ [] → Kept line → ∃ string, answer = some (.line string) ∧ string.bytes = line) ∧
    content behind.handle = (content file.handle).drop line.length ∧
    (behind.eof = true → content behind.handle = []) ∧ Lossless calls behind

/-- What is promised of `lfs_file_read` for one byte: it reads the next, or nothing at the end. -/
structure Reads : Prop where
  next : ∀ {file b rest}, content file = b :: rest →
    ∃ behind, lfsFileRead file 1 = (some [b], behind) ∧ content behind = rest
  finish : ∀ {file}, content file = [] → ∃ behind, lfsFileRead file 1 = (some [], behind) ∧ content behind = []

/-! ## What a call reads -/

section
variable {lfsFileRead : File → Nat → Option (List UInt8) × File} {content : File → List UInt8} {n : Nat} {b : UInt8}
  {l : List UInt8}

@[simp] theorem upTo_nil : upTo n [] = [] := by
  simp [upTo]

theorem upTo_cons : upTo (n + 1) (b :: l) = b :: (if b = 10 then [] else upTo n l) := by
  by_cases newline : b = 10 <;> simp [upTo, newline]

theorem upTo_append_drop (n : Nat) (l : List UInt8) : upTo n l ++ l.drop (upTo n l).length = l :=
  List.prefix_iff_eq_append.mp ((List.take_prefix ..).trans (List.take_prefix ..))

/-- **The loop of `fgets`** reads up to the newline or the limit. -/
theorem fgetsLoop_eq (reads : Reads lfsFileRead content) (room : Nat) (file : Stream File) :
    (fgetsLoop lfsFileRead room file).1 = upTo room (content file.handle) ∧
    content (fgetsLoop lfsFileRead room file).2.handle =
      (content file.handle).drop (upTo room (content file.handle)).length ∧
    (0 < room ∨ file.eof = false → (fgetsLoop lfsFileRead room file).2.eof = true →
      content (fgetsLoop lfsFileRead room file).2.handle = []) := by
  induction room generalizing file with
  | zero => simp +contextual [fgetsLoop, upTo]
  | succ room ih =>
    cases ahead : content file.handle with
    | nil =>
      obtain ⟨behind, read, left⟩ := reads.finish ahead
      simp [fgetsLoop, fsRead, read, left]
    | cons b rest =>
      obtain ⟨behind, read, left⟩ := reads.next ahead
      obtain ⟨used, position, flag⟩ := ih ⟨behind, false⟩
      by_cases newline : b = 10
      · simp [fgetsLoop, fsRead, read, left, upTo_cons, newline]
      · rw [left] at used position
        simpa [fgetsLoop, fsRead, read, upTo_cons, newline, used, position] using flag

/-- The greatest limit is `PPHP_STR_MAX`. -/
def greatestLimit (limit : Int) : Int := min limit 65535

theorem fgetsLimit_pos {arguments : List Argument} {limit : Int} (isLimit : fgetsLimit arguments = some limit) :
    0 < limit := by
  unfold fgetsLimit at isLimit
  split at isLimit
  · simp only [Option.some.injEq] at isLimit
    omega
  · split at isLimit <;> simp_all
  · cases isLimit

theorem fgets_eq (reads : Reads lfsFileRead content) {arguments : List Argument} {limit : Int} (file : Stream File)
    (isLimit : fgetsLimit arguments = some limit) : (fgets lfsFileRead arguments file).1 =
      (if content file.handle = [] then some .no
      else (psNew (printed (upTo (greatestLimit limit).toNat (content file.handle)))).map .line) ∧
    content (fgets lfsFileRead arguments file).2.handle =
      (content file.handle).drop (upTo (greatestLimit limit).toNat (content file.handle)).length ∧
    ((fgets lfsFileRead arguments file).2.eof = true → content (fgets lfsFileRead arguments file).2.handle = []) := by
  have positive := fgetsLimit_pos isLimit
  have capped : (if 65535 < limit then 65535 else limit) = greatestLimit limit := by
    unfold greatestLimit
    omega
  obtain ⟨room, isRoom⟩ : ∃ room, (greatestLimit limit).toNat = room + 1 :=
    ⟨_, (Nat.succ_pred_eq_of_pos (by unfold greatestLimit; omega)).symm⟩
  obtain ⟨used, position, flag⟩ := fgetsLoop_eq reads (room + 1) file
  simp only [fgets, isLimit, capped, isRoom]
  refine ⟨?_, position, flag (.inl room.succ_pos)⟩
  rw [used]
  cases ahead : content file.handle with
  | nil => simp
  | cons b rest => simp [upTo_cons]

theorem fgets_line {l : List UInt8} {limit : Int} (noNul : 0 ∉ upTo (greatestLimit limit).toNat l) :
    ∃ string, psNew (printed (upTo (greatestLimit limit).toNat l)) = some string ∧
      string.bytes = upTo (greatestLimit limit).toNat l := by
  have whole : printed (upTo (greatestLimit limit).toNat l) = upTo (greatestLimit limit).toNat l :=
    List.takeWhile_eq_self_iff.mpr fun b mem => decide_eq_true fun isNul => noNul (isNul ▸ mem)
  have short : (upTo (greatestLimit limit).toNat l).length ≤ 65535 := by
    simp only [upTo, greatestLimit, List.length_take]
    omega
  exact ⟨⟨_, short⟩, by rw [whole, psNew, dif_pos short], rfl⟩

/-- **`fgets` loses nothing** of lines without a NUL byte, where a limit above `PPHP_STR_MAX` amounts to that. -/
theorem fgets_lossless (reads : Reads lfsFileRead content) (calls : List (List Argument)) (file : Stream File) :
    Lossless lfsFileRead content greatestLimit (0 ∉ ·) calls file ∧
    (0 ∉ content file.handle → ∀ bytes, untilFalse lfsFileRead calls file = some bytes →
      bytes = content file.handle) := by
  induction calls generalizing file with
  | nil => exact ⟨trivial, fun _ _ none => nomatch none⟩
  | cons arguments calls ih =>
    have ih := ih (fgets lfsFileRead arguments file).2
    constructor
    · intro limit isLimit
      obtain ⟨answer, position, flag⟩ := fgets_eq reads file isLimit
      refine ⟨?_, fun more noNul => ?_, position, flag, ih.1⟩
      · rw [answer]
        split <;> simp [*]
      · obtain ⟨string, made, same⟩ := fgets_line noNul
        exact ⟨string, by rw [answer, if_neg more, made]; rfl, same⟩
    · intro noNul bytes result
      cases isLimit : fgetsLimit arguments with
      | none => simp [untilFalse, fgets, isLimit] at result
      | some limit =>
        obtain ⟨answer, position, -⟩ := fgets_eq reads file isLimit
        have parts := upTo_append_drop (greatestLimit limit).toNat (content file.handle)
        obtain ⟨string, made, same⟩ := @fgets_line (content file.handle) limit fun isNul =>
          noNul (parts ▸ List.mem_append_left _ isNul)
        rw [untilFalse, answer] at result
        by_cases ended : content file.handle = []
        · simp_all
        · rw [if_neg ended, made] at result
          obtain ⟨behind, rest, rfl⟩ := Option.map_eq_some_iff.mp result
          rw [ih.2 (fun isNul => noNul (List.mem_of_mem_drop (position ▸ isNul))) behind rest, same, position, parts]

/-- A file whose handle is what is left of it. -/
def readBytes (file : List UInt8) (length : Nat) : Option (List UInt8) × List UInt8 :=
  (some (file.take length), file.drop length)

theorem readBytes_reads : Reads readBytes id where
  next := by rintro _ b rest rfl; exact ⟨rest, rfl, rfl⟩
  finish := by rintro _ rfl; exact ⟨[], rfl, rfl⟩

theorem fgets_lossless_two : Lossless readBytes id greatestLimit (0 ∉ ·) [[], [.int 1], []] ⟨[97, 10, 98], false⟩ ∧
    ∀ bytes, untilFalse readBytes [[], [.int 1], []] ⟨[97, 10, 98], false⟩ = some bytes → bytes = [97, 10, 98] :=
  ⟨(fgets_lossless readBytes_reads _ _).1, (fgets_lossless readBytes_reads _ ⟨[97, 10, 98], false⟩).2 (by decide)⟩

theorem readBytes_long {n : Nat} (long : 65535 < n) :
    ¬Lossless readBytes id id (fun _ => True) [[.int n]] ⟨List.replicate n 97, false⟩ := fun lossless => by
  have isLimit : fgetsLimit [.int n] = some (n : Int) := if_pos (by omega)
  obtain ⟨string, -, same⟩ := (lossless n isLimit).2.1 (by simp; omega) trivial
  have short := string.length_le
  rw [same] at short
  simp [upTo] at short
  omega

/-- What is behind a NUL byte is lost, and a line is never longer than `PPHP_STR_MAX`. -/
theorem line_cut : ¬Lossless readBytes id id (fun _ => True) [[]] ⟨[97, 0, 98, 10], false⟩ ∧
    ¬Lossless readBytes id id (fun _ => True) [[.int 65536]] ⟨List.replicate 65536 97, false⟩ := by
  refine ⟨fun lossless => ?_, readBytes_long (by decide)⟩
  obtain ⟨string, answer, same⟩ := (lossless 256 rfl).2.1 (by decide) trivial
  have cut : (fgets readBytes [] ⟨[97, 0, 98, 10], false⟩).1 = some (.line ⟨[97], by decide⟩) := by decide
  cases cut.symm.trans answer
  exact absurd same (by decide)

end

end PhpPico.Fs
