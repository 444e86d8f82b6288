import Mathlib.Data.List.Perm.Basic
import PhpPico.Fs.Include

/-!
# Once forms include once

The table holds the files that a once form is executing or has included. So it is right about a file unless only plain
forms have included it.
-/

namespace PhpPico.Include
open List (Perm)
open OrderedMap

variable {cfg : Config} (truncate : BitVec cfg.floatWidth → Option Int) (compiler : Bool)

/-! ## The table -/

variable {path : PString} {included : PArray Unit}

theorem refersTo_path (name : numericStringKey cfg path.bytes = none) :
    RefersTo cfg truncate (.string path) (.string path) := by
  refine ((normalizeKey_eq_some cfg truncate true _ _).mp ?_).1
  simp only [normalizeKey, name]

theorem mem_keys_of_lookup {K V : Type} [DecidableEq K] {m : List (K × V)} {k : K} {v : V}
    (found : m.lookup k = some v) : k ∈ keys m := by
  by_contra absent
  rw [lookup_of_not_mem absent] at found
  cases found

/-- What is left of the keys where the first is taken out. -/
theorem perm_erase {K V : Type} [DecidableEq K] {m : List (K × V)} {k : K} {rest : List K}
    (perm : Perm (keys m) (k :: rest)) (distinct : (k :: rest).Nodup) : Perm (keys (erase m k)) rest := by
  have kept : rest.filter (fun l => decide (l ≠ k)) = rest :=
    List.filter_eq_self.mpr fun l mem => decide_eq_true fun same => (List.nodup_cons.mp distinct).1 (same ▸ mem)
  have filtered := perm.filter fun l => decide (l ≠ k)
  rw [List.filter_cons, if_neg (by simp), kept, keys, List.filter_map] at filtered
  exact filtered

theorem paGet_path (wf : included.Wf) (name : numericStringKey cfg path.bytes = none) (memory : Memory) :
    ∃ found, included.paGet truncate memory (.string path : KeyValue cfg) = some found ∧
      (found = some () ↔ .string path ∈ keys included.dict.entries) := by
  have refers := refersTo_path truncate name
  obtain ⟨found, e, present, missing⟩ := wf.paGet truncate (fun _ => true) (.string path)
  refine ⟨found, e, fun c => ?_, fun mem => ?_⟩
  · obtain ⟨key, refers', lookup⟩ := present () c
    rw [← refers'.unique refers]
    exact mem_keys_of_lookup lookup
  · cases found with
    | some => rfl
    | none =>
      rcases missing rfl with none | none
      · have absent := none _ refers
        rw [Dict.get, List.lookup_eq_none_iff] at absent
        obtain ⟨e, at_e, same⟩ := List.mem_map.mp mem
        have differs := absent e at_e
        rw [same] at differs
        simp at differs
      · cases none

theorem packed_eq_false (wf : included.Wf)
    (mem : .string path ∈ keys included.dict.entries) : included.packed = false := by
  obtain ⟨i, v, cell⟩ := mem_keys_live.mp mem
  by_contra packed
  obtain ⟨v', cell'⟩ := wf.packed_keys (Bool.not_eq_false _ ▸ packed) i (PArray.lt_used_of_cell cell)
  rw [cell] at cell'
  cases cell'

theorem paRemove_path (wf : included.Wf) (name : numericStringKey cfg path.bytes = none)
    (mem : .string path ∈ keys included.dict.entries) (memory : Memory) :
    ∃ included', included.paRemove truncate memory (.string path : KeyValue cfg) = some (true, included') ∧
      included'.Wf ∧ included'.dict = included.dict.erase (.string path) := by
  have hashed := packed_eq_false wf mem
  obtain ⟨ok, included', e, wf', done, failed⟩ := wf.removeHashed hashed (.string path)
  cases ok with
  | false => exact absurd mem (failed rfl).2
  | true =>
    refine ⟨included', ?_, wf', (done rfl).2⟩
    simp only [PArray.paRemove, normalizeKey, name, hashed, Bool.false_eq_true, if_false]
    exact e

/-! ## The invariant -/

namespace Includes

/-- The files once forms execute or have included. -/
def tracked (s : Includes) : List Key := (s.history.filter Inclusion.once).map fun i => .string i.path

variable (cfg) in
/-- The table has the files of the once forms, each once, and counts them. -/
structure Inv (s : Includes) : Prop where
  wf : s.included.Wf
  keys : Perm (keys s.included.dict.entries) s.tracked
  names : ∀ i ∈ s.history, i.once = true → numericStringKey cfg i.path.bytes = none
  added : s.included.dict.added = s.begun

variable {s : Includes}

theorem mem_tracked {path : PString} : .string path ∈ s.tracked ↔ ⟨path, true⟩ ∈ s.history := by
  simp only [tracked, List.mem_map, List.mem_filter, Key.string.injEq]
  constructor
  · rintro ⟨⟨_, _⟩, ⟨mem, rfl⟩, rfl⟩
    exact mem
  · exact fun mem => ⟨_, ⟨mem, rfl⟩, rfl⟩

theorem Inv.mem_keys (inv : s.Inv cfg) {path : PString} :
    .string path ∈ OrderedMap.keys s.included.dict.entries ↔ ⟨path, true⟩ ∈ s.history :=
  inv.keys.mem_iff.trans mem_tracked

theorem Inv.length_entries (inv : s.Inv cfg) :
    s.included.dict.entries.length = (s.history.filter Inclusion.once).length := by
  have same := inv.keys.length_eq
  rwa [OrderedMap.keys, tracked, List.length_map, List.length_map] at same

/-- What an include expression whose path is that of `target` comes to. -/
structure Outcome (cfg : Config) (s : Includes) (mode : IncludeMode) (target : Option PString) (w : Surroundings)
    (answer : IncludeAnswer) (included : PArray Unit) : Prop where
  wf : included.Wf
  executes : ∀ name, answer = .executes name → target = some name ∧
    (mode.once = true → numericStringKey cfg name.bytes = none ∧ ⟨name, true⟩ ∉ s.history) ∧
    included.dict = if mode.once then s.included.dict.set cfg (.string name) () else s.included.dict
  keeps : (∀ name, answer ≠ .executes name) → included.dict = s.included.dict
  runs : ∀ name, target = some name → (mode.once = true → ⟨name, true⟩ ∉ s.history) → w.Grants → answer = .executes name

theorem Outcome.of_not_executes {mode : IncludeMode} {target : Option PString} {w : Surroundings}
    {answer : IncludeAnswer} (inv : s.Inv cfg) (not : ∀ name, answer ≠ .executes name)
    (lacks : ∀ name, target = some name → (mode.once = true → ⟨name, true⟩ ∉ s.history) → ¬ w.Grants) :
    Outcome cfg s mode target w answer s.included :=
  ⟨inv.wf, fun name c => absurd c (not name), fun _ => rfl, fun name at_name fresh grants =>
    absurd grants (lacks name at_name fresh)⟩

/-- The path is no number, and the table can take another. -/
def Tracks (cfg : Config) (s : Includes) (name : PString) : Prop :=
  numericStringKey cfg name.bytes = none ∧ (s.history.filter Inclusion.once).length ≤ 16384 ∧ s.begun < 32768

/-- A once form looks its file up. -/
theorem Inv.lookup (inv : s.Inv cfg) (mode : IncludeMode) {name : PString}
    (number : mode.once = true → numericStringKey cfg name.bytes = none) (memory : Memory) :
    ∃ found, (if mode.once then s.included.paGet truncate memory (.string name : KeyValue cfg) else some none) =
        some found ∧ (found = some () ↔ mode.once = true ∧ ⟨name, true⟩ ∈ s.history) := by
  cases once : mode.once with
  | false =>
    refine ⟨none, rfl, fun c => (by cases c), fun c => ?_⟩
    cases c.1
  | true =>
    obtain ⟨found, e, there⟩ := paGet_path truncate inv.wf (number once) memory
    exact ⟨found, e, by rw [there, inv.mem_keys, and_iff_right rfl]⟩

/-- Once the file has loaded, a once form writes its path to the table. -/
theorem Inv.track {s : Includes} (inv : s.Inv cfg) (mode : IncludeMode) {name : PString}
    (tracks : mode.once = true → s.Tracks cfg name) (fresh : mode.once = true → ⟨name, true⟩ ∉ s.history)
    (w : Surroundings) (message : List UInt8) : ∃ answer included, (if mode.once then
        (s.included.paSet truncate w.memory (.string name : KeyValue cfg) ()).map fun outcome =>
          if outcome.1 then (IncludeAnswer.executes name, outcome.2) else (.error message, outcome.2)
      else some (.executes name, s.included)) = some (answer, included) ∧
        Outcome cfg s mode (some name) w answer included := by
  have executes (name' : PString) (e : IncludeAnswer.executes name = .executes name') :
      some name = some name' ∧
        (mode.once = true → numericStringKey cfg name'.bytes = none ∧ ⟨name', true⟩ ∉ s.history) := by
    cases e
    exact ⟨rfl, fun once => ⟨(tracks once).1, fresh once⟩⟩
  cases once : mode.once with
  | false =>
    refine ⟨_, _, rfl, inv.wf, fun name' e => ?_, fun c => absurd rfl (c name), fun _ e _ _ => ?_⟩
    · exact ⟨(executes name' e).1, (executes name' e).2, by rw [once]; rfl⟩
    · rw [Option.some.inj e]
  | true =>
    have track := tracks once
    have refers := refersTo_path truncate track.1
    obtain ⟨ok, included, e, wf, done, failed⟩ := inv.wf.paSet truncate w.memory (.string name) ()
    cases ok with
    | true =>
      obtain ⟨key, refers', dict⟩ := done rfl
      rw [refers'.unique refers] at dict
      refine ⟨.executes name, included, by rw [e]; rfl, wf, fun name' e => ?_, fun c => absurd rfl (c name),
        fun _ e _ _ => by rw [Option.some.inj e]⟩
      obtain ⟨same, facts⟩ := executes name' e
      rw [if_pos once, ← Option.some.inj same]
      exact ⟨rfl, fun once => (Option.some.inj same).symm ▸ facts once, dict⟩
    | false =>
      obtain ⟨same, no_key | lacks⟩ := failed rfl
      · exact absurd refers (no_key _)
      · refine ⟨.error message, included, by rw [e]; rfl, wf, fun _ c => (by cases c), fun _ => same, ?_⟩
        rintro _ - - ⟨-, -, -, grants⟩
        have room := track.2
        rcases lacks with ⟨site, refused⟩ | many | full
        · rw [grants site] at refused
          cases refused
        · rw [inv.length_entries] at many
          omega
        · rw [inv.added] at full
          omega

/-- **One include expression**, where a once form can track its file. -/
theorem Inv.execInclude {s : Includes} (inv : s.Inv cfg) (mode : IncludeMode) (path : List UInt8) (w : Surroundings)
    (tracks : ∀ name, mode.once = true → (resolveIncludePath compiler w.fs path).bind psNew = some name →
      s.Tracks cfg name) :
    ∃ answer included, execInclude cfg truncate compiler s.included mode path w = some (answer, included) ∧
      Outcome cfg s mode ((resolveIncludePath compiler w.fs path).bind psNew) w answer included := by
  unfold Include.execInclude
  cases resolves : resolveIncludePath compiler w.fs path with
  | none =>
    refine ⟨_, _, rfl, .of_not_executes inv (fun name c => ?_) fun name c => by cases c⟩
    split at c <;> cases c
  | some resolved =>
    rw [resolves] at tracks
    simp only [Option.bind_some] at tracks ⊢
    cases new : (psNew resolved).filter fun _ => w.pathMemory with
    | none =>
      refine ⟨_, _, rfl, .of_not_executes inv (fun _ c => by cases c) fun name at_name _ grants => ?_⟩
      rw [at_name, Option.filter_some, grants.2.2.1] at new
      cases new
    | some name =>
      have named : psNew resolved = some name := (Option.filter_eq_some_iff.mp new).1
      rw [named] at tracks ⊢
      have track (once : mode.once = true) : s.Tracks cfg name := tracks name once rfl
      obtain ⟨found, e, there⟩ := inv.lookup truncate mode (fun once => (track once).1) w.memory
      simp only [e]
      cases found with
      | some known =>
        have known := there.mp rfl
        refine ⟨_, _, rfl, .of_not_executes inv (fun _ c => by cases c) fun name' at_name fresh _ => ?_⟩
        rw [← Option.some.inj at_name] at fresh
        exact fresh known.1 known.2
      | none =>
        have fresh (once : mode.once = true) : ⟨name, true⟩ ∉ s.history := fun mem => by
          cases there.mpr ⟨once, mem⟩
        cases readable : w.readable with
        | false =>
          refine ⟨_, _, rfl, .of_not_executes inv (fun _ c => ?_) fun _ _ _ grants => ?_⟩
          · split at c <;> cases c
          · rw [grants.1] at readable
            cases readable
        | true =>
          simp only [Bool.not_true, Bool.false_eq_true, if_false]
          cases problem : w.problem with
          | some problem' =>
            refine ⟨_, _, rfl, .of_not_executes inv (fun _ c => by cases c) fun _ _ _ grants => ?_⟩
            rw [grants.2.1] at problem
            cases problem
          | none => exact inv.track truncate mode track fresh w _

/-! ## Steps -/

theorem Inv.begin (inv : s.Inv cfg) {i : Inclusion} {included : PArray Unit} (wf : included.Wf)
    (fresh : i.once = true → numericStringKey cfg i.path.bytes = none ∧ ⟨i.path, true⟩ ∉ s.history)
    (dict : included.dict = if i.once then s.included.dict.set cfg (.string i.path) () else s.included.dict) :
    (s.begin i included).Inv cfg := by
  obtain ⟨path, once⟩ := i
  cases once with
  | false =>
    rw [if_neg Bool.false_ne_true] at dict
    refine ⟨wf, dict ▸ inv.keys, fun i mem => ?_, by rw [Includes.begin, dict]; exact inv.added⟩
    rcases List.mem_cons.mp mem with rfl | mem
    · exact fun c => by cases c
    · exact inv.names i mem
  | true =>
    have absent : Key.string path ∉ OrderedMap.keys s.included.dict.entries := fun mem => (fresh rfl).2 (inv.mem_keys.mp mem)
    rw [if_pos rfl, Dict.set, if_neg absent] at dict
    refine ⟨wf, ?_, fun i mem => ?_, by rw [Includes.begin, dict]; exact congrArg (· + 1) inv.added⟩
    · rw [Includes.begin, dict, keys_set, if_neg absent]
      exact (List.perm_append_singleton _ _).trans (inv.keys.cons _)
    · rcases List.mem_cons.mp mem with rfl | mem
      · exact fun _ => (fresh rfl).1
      · exact inv.names i mem

theorem Inv.succeed (inv : s.Inv cfg) {i : Inclusion} {rest : List Inclusion}
    (executing : s.executing = i :: rest) :
    ({ s with executing := rest, succeeded := i :: s.succeeded } : Includes).Inv cfg := by
  have moved : Perm (rest ++ i :: s.succeeded) s.history := by
    rw [history, executing]
    exact List.perm_middle
  refine ⟨inv.wf, inv.keys.trans ((moved.filter _).map _).symm, fun j mem => inv.names j (moved.mem_iff.mp mem),
    inv.added⟩

/-- The innermost execution fails, and its file leaves the table if a once form began it. -/
theorem Inv.fail {s' : Includes} (inv : s.Inv cfg) {memory : Memory}
    (finishes : s.finish cfg truncate false memory = some s') : s'.Inv cfg := by
  unfold finish at finishes
  cases executing : s.executing with
  | nil => rw [executing] at finishes; cases finishes
  | cons i rest =>
    obtain ⟨path, once⟩ := i
    simp only [executing, Bool.false_eq_true, if_false] at finishes
    have history : s.history = ⟨path, once⟩ :: (rest ++ s.succeeded) := by rw [Includes.history, executing]; rfl
    have names := inv.names
    have keys := inv.keys
    rw [tracked, history] at keys
    rw [history] at names
    have names' (i : Inclusion) (mem : i ∈ rest ++ s.succeeded) := names i (.tail _ mem)
    cases once with
    | false =>
      cases finishes
      exact ⟨inv.wf, keys, names', inv.added⟩
    | true =>
      have mem : Key.string path ∈ OrderedMap.keys s.included.dict.entries := inv.mem_keys.mpr (history ▸ (.head _))
      obtain ⟨included, e, wf, dict⟩ := paRemove_path truncate inv.wf (names _ (.head _) rfl) mem memory
      simp only [if_true, e, Option.map_some] at finishes
      cases finishes
      have distinct := inv.wf.distinct
      rw [show OrderedMap.keys (live s.included.cells) = OrderedMap.keys s.included.dict.entries from rfl,
        keys.nodup_iff] at distinct
      refine ⟨wf, ?_, names', by rw [dict]; exact inv.added⟩
      rw [dict, Dict.erase]
      exact perm_erase keys distinct

variable {truncate compiler}

theorem clean_spec {mode : IncludeMode} {path : List UInt8} {w : Surroundings}
    (clean : s.clean cfg compiler (.execInclude mode path w) = true) {name : PString} (once : mode.once = true)
    (target : (resolveIncludePath compiler w.fs path).bind psNew = some name) :
    s.Tracks cfg name ∧ (⟨name, true⟩ ∉ s.history → s.Free name) := by
  rw [Includes.clean, once, target] at clean
  simp only [Bool.not_true, Bool.false_or, Option.all_some, Bool.and_eq_true, Bool.or_eq_true, decide_eq_true_eq,
    Option.isNone_iff_eq_none, List.all_eq_true, bne_iff_ne] at clean
  obtain ⟨⟨number, known⟩, room⟩ := clean
  refine ⟨⟨number, room⟩, fun fresh => ?_⟩
  rcases known with free | tracked
  · exact free
  · exact absurd tracked fresh

theorem Inv.right (inv : s.Inv cfg) {a : Action} (clean : s.clean cfg compiler a = true) :
    s.Right cfg truncate compiler a := by
  cases a with
  | finish => trivial
  | execInclude mode path w =>
    intro name target
    obtain ⟨answer, included, e, outcome⟩ := inv.execInclude truncate compiler mode path w
      fun name once target => (clean_spec clean once target).1
    refine ⟨answer, included, e, fun once executes => ?_, fun free grants => ?_⟩
    · obtain ⟨target, fresh, -⟩ := outcome.executes name executes
      exact (clean_spec clean once target).2 (fresh once).2
    · exact outcome.runs name target (fun _ mem => free _ mem rfl) grants

theorem Inv.step {s' : Includes} (inv : s.Inv cfg) {a : Action} (clean : s.clean cfg compiler a = true)
    (steps : s.step cfg truncate compiler a = some s') : s'.Inv cfg := by
  cases a with
  | finish ok memory =>
    cases ok with
    | false => exact inv.fail truncate steps
    | true =>
      cases executing : s.executing with
      | nil =>
        simp only [Includes.step, finish, executing] at steps
        cases steps
      | cons i rest =>
        simp only [Includes.step, finish, executing, if_true] at steps
        cases steps
        exact inv.succeed executing
  | execInclude mode path w =>
    obtain ⟨answer, included, e, outcome⟩ := inv.execInclude truncate compiler mode path w
      fun name once target => (clean_spec clean once target).1
    rw [Includes.step, e, Option.map_some] at steps
    by_cases executes : ∃ name, answer = .executes name
    · obtain ⟨name, executes⟩ := executes
      obtain ⟨-, fresh, dict⟩ := outcome.executes name executes
      rw [executes] at steps
      cases steps
      exact inv.begin outcome.wf fresh dict
    · have same := outcome.keeps fun name c => executes ⟨name, c⟩
      have idle : s' = { s with included := included } := by
        cases answer <;> cases steps <;> first | rfl | exact absurd ⟨_, rfl⟩ executes
      rw [idle]
      exact ⟨outcome.wf, same ▸ inv.keys, inv.names, same ▸ inv.added⟩

theorem Inv.staysRight (inv : s.Inv cfg) {actions : List Action}
    (clean : s.cleanRun cfg truncate compiler actions = true) : s.StaysRight cfg truncate compiler actions := by
  induction actions generalizing s with
  | nil => trivial
  | cons a rest ih =>
    obtain ⟨clean, rest_clean⟩ := (Bool.and_eq_true_iff.mp clean)
    refine ⟨inv.right clean, fun s' steps => ih (inv.step clean steps) ?_⟩
    rwa [steps] at rest_clean

theorem inv_opened {included : PArray Unit} {memory : Memory} (new : PArray.paNew memory 8 = some included) :
    (opened included).Inv cfg := by
  obtain ⟨wf, dict, -⟩ := PArray.paNew_eq_some new
  exact ⟨wf, by rw [opened, dict]; exact List.Perm.refl _, fun _ mem => absurd mem List.not_mem_nil,
    by rw [opened, dict]; rfl⟩

/-- A build without floats. -/
def integerBuild : Config := ⟨false, false, false, false, false⟩

def homeFile : PString := ⟨ascii "/home/a.php", by decide⟩

/-- A file system with one file. -/
def oneFile : FileSystem where
  fileExists path := path == homeFile.bytes || path == ascii "./a.php"
  canonicalize _ := some homeFile.bytes

/-- An include expression that has all it needs. -/
def including (mode : IncludeMode) (path : String) : Action :=
  .execInclude mode (ascii path) ⟨oneFile, true, none, true, fun _ => true⟩

/-- The file includes itself under another spelling, and its execution fails. Then it is included again, and
after that a plain form executes it once more. -/
def retried : List Action :=
  [including .pbcIncludeOnce "a.php", including .pbcRequireOnce "./a", .finish false fun _ => true,
    including .pbcRequireOnce "./a.php", .finish true fun _ => true, including .pbcIncludeOnce "/home/a",
    including .pbcInclude "a", .finish true fun _ => true]

end Includes
end PhpPico.Include
