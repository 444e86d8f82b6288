import PhpPico.Parray.Refine

/-!
# Included files

`pphp_exec_include` finds, loads and executes a file. Files that a once form includes are kept in `included_files` of
the root state, under their canonical paths. The file system and whether a file loads are given from outside.
-/

namespace PhpPico.Include

/-! ## Finding a file -/

/-- `PPHP_FS_PATH_MAX`. -/
def pathMax : Nat := 512

/-- What the file system answers: `pphp_fs_exists` and `pphp_fs_canonicalize`. -/
structure FileSystem where
  fileExists : List UInt8 → Bool
  canonicalize : List UInt8 → Option (List UInt8)

/-- `include_candidate`. -/
def includeCandidate (fs : FileSystem) (path : List UInt8) (around : List UInt8 × List UInt8) : Option (List UInt8) :=
  let candidate := around.1 ++ path ++ around.2
  if pathMax < candidate.length + 1 then none
  else if fs.fileExists candidate then some ((fs.canonicalize candidate).getD candidate)
  else none

/-- `has_php_extension`. -/
def hasPhpExtension (path : List UInt8) : Bool :=
  ascii ".php" <:+ path || ascii ".pbc" <:+ path

/-- What `resolve_include_path` tries, in this order: a prefix and a suffix for the path. -/
def includeCandidates (compiler : Bool) (path : List UInt8) : List (List UInt8 × List UInt8) :=
  let suffixes := if compiler then [ascii ".pbc", ascii ".php"] else [ascii ".pbc"]
  let prefixes := if path.head? = some 47 then [] else [ascii "/lib/", ascii "/home/"]
  let endings := if hasPhpExtension path then [[]] else suffixes
  ([], []) :: (if hasPhpExtension path then [] else suffixes.map fun suffix => ([], suffix)) ++
    prefixes.flatMap fun front => endings.map fun ending => (front, ending)

/-- `resolve_include_path`. -/
def resolveIncludePath (compiler : Bool) (fs : FileSystem) (path : List UInt8) : Option (List UInt8) :=
  if path = [] ∨ pathMax ≤ path.length then none
  else (includeCandidates compiler path).findSome? (includeCandidate fs path)

/-! ## Including a file -/

/-- The forms of an include expression. -/
inductive IncludeMode where
  | pbcInclude
  | pbcIncludeOnce
  | pbcRequire
  | pbcRequireOnce
deriving DecidableEq, Repr

namespace IncludeMode

def once : IncludeMode → Bool
  | pbcInclude | pbcRequire => false
  | pbcIncludeOnce | pbcRequireOnce => true

def required : IncludeMode → Bool
  | pbcInclude | pbcIncludeOnce => false
  | pbcRequire | pbcRequireOnce => true

end IncludeMode

/-- Why a file is not executed. -/
inductive IncludeError where
  | notOpened
  | noPathMemory
  | notPbc
  | parse (message : List UInt8)
  | compile (message : List UInt8)
  | compilerDisabled
  | functionDefined (name : List UInt8)
  | noExceptionClasses
  | noModuleMemory
  | noTrackingMemory
deriving DecidableEq, Repr

/-- The messages of `pphp_exec_include` and `validate_repl_functions`. -/
def IncludeError.message (path : List UInt8) : IncludeError → List UInt8
  | notOpened => ascii "required file " ++ path ++ ascii " could not be opened"
  | noPathMemory => ascii "out of memory resolving include path"
  | notPbc => ascii "included file " ++ path ++ ascii " is not valid PBC"
  | parse message => ascii "Parse error: " ++ message ++ ascii " in " ++ path
  | compile message => ascii "Compile error: " ++ message ++ ascii " in " ++ path
  | compilerDisabled => ascii "source compiler is disabled; include requires PBC: " ++ path
  | functionDefined name => ascii "function " ++ name ++ ascii " is already defined"
  | noExceptionClasses => ascii "cannot initialize exception classes"
  | noModuleMemory => ascii "out of memory retaining included definitions"
  | noTrackingMemory => ascii "out of memory tracking included file"

/-- What an include expression finds: the file system, whether the file can be read, what is wrong with
its contents from `pphp_pbc_load` to `retain_module`, and the memory for the path and the table. -/
structure Surroundings where
  fs : FileSystem
  readable : Bool
  problem : Option IncludeError
  pathMemory : Bool
  memory : Memory

/-- The file loads and there is memory. -/
def Surroundings.Grants (w : Surroundings) : Prop :=
  w.readable = true ∧ w.problem = none ∧ w.pathMemory = true ∧ ∀ site, w.memory site = true

/-- What comes of an include expression: no file, true without an execution, an error with its message,
or an execution of the file at a path. -/
inductive IncludeAnswer where
  | missing
  | already
  | error (message : List UInt8)
  | executes (path : PString)
deriving DecidableEq

section Including
variable (cfg : Config) (truncate : BitVec cfg.floatWidth → Option Int) (compiler : Bool)

/-- `pphp_exec_include`, up to the execution. The outer `none` is a table that is no table. -/
def execInclude (included : PArray Unit) (mode : IncludeMode) (path : List UInt8) (w : Surroundings) :
    Option (IncludeAnswer × PArray Unit) :=
  match resolveIncludePath compiler w.fs path with
  | none => some (if mode.required then .error (IncludeError.notOpened.message path) else .missing, included)
  | some resolved =>
    match (psNew resolved).filter fun _ => w.pathMemory with
    | none => some (.error (IncludeError.noPathMemory.message resolved), included)
    | some name =>
      match if mode.once then included.paGet truncate w.memory (.string name) else some none with
      | none => none
      | some (some _) => some (.already, included)
      | some none =>
        if !w.readable then
          some (if mode.required then .error (IncludeError.notOpened.message resolved) else .missing, included)
        else
          match w.problem with
          | some problem => some (.error (problem.message resolved), included)
          | none =>
            if mode.once then
              (included.paSet truncate w.memory (.string name) ()).map fun outcome =>
                if outcome.1 then (.executes name, outcome.2)
                else (.error (IncludeError.noTrackingMemory.message resolved), outcome.2)
            else some (.executes name, included)

end Including

/-! ## Runs -/

/-- An execution of a file, by a once form or a plain one. -/
structure Inclusion where
  path : PString
  once : Bool
deriving DecidableEq

/-- The table, and the files being executed, the innermost first. What has happened is recorded beside
them: the executions that succeeded, and how many once forms began. -/
structure Includes where
  included : PArray Unit
  executing : List Inclusion
  succeeded : List Inclusion
  begun : Nat
deriving DecidableEq

/-- The innermost execution includes a file, or ends; `memory` is for the removal from the table. -/
inductive Action where
  | execInclude (mode : IncludeMode) (path : List UInt8) (w : Surroundings)
  | finish (ok : Bool) (memory : Memory)

namespace Includes

def opened (included : PArray Unit) : Includes := ⟨included, [], [], 0⟩

/-- The file is being executed or has been included. -/
def history (s : Includes) : List Inclusion := s.executing ++ s.succeeded

/-- The file is neither being executed, nor has it been included. -/
def Free (s : Includes) (path : PString) : Prop := ∀ i ∈ s.history, i.path ≠ path

/-- An execution begins. -/
def begin (s : Includes) (i : Inclusion) (included : PArray Unit) : Includes :=
  ⟨included, i :: s.executing, s.succeeded, s.begun + i.once.toNat⟩

variable (cfg : Config) (truncate : BitVec cfg.floatWidth → Option Int) (compiler : Bool)

/-- The end of `pphp_exec_include`: a file whose execution failed is taken out of the table. -/
def finish (s : Includes) (ok : Bool) (memory : Memory) : Option Includes :=
  match s.executing with
  | [] => none
  | i :: rest =>
    if ok then some { s with executing := rest, succeeded := i :: s.succeeded }
    else if i.once then
      (s.included.paRemove truncate memory (.string i.path)).map fun outcome =>
        { s with executing := rest, included := outcome.2 }
    else some { s with executing := rest }

def step (s : Includes) : Action → Option Includes
  | .execInclude mode path w =>
    (execInclude cfg truncate compiler s.included mode path w).map fun outcome =>
      match outcome.1 with
      | .executes name => s.begin ⟨name, mode.once⟩ outcome.2
      | _ => { s with included := outcome.2 }
  | .finish ok memory => s.finish cfg truncate ok memory

/-- **Once is once**: a once form does not execute a file that is being executed or has been included,
and a file that is neither is executed, also where earlier executions of it failed. -/
def Right (s : Includes) : Action → Prop
  | .execInclude mode path w => ∀ name, (resolveIncludePath compiler w.fs path).bind psNew = some name →
      ∃ answer included, execInclude cfg truncate compiler s.included mode path w = some (answer, included) ∧
        (mode.once = true → answer = .executes name → s.Free name) ∧
        (s.Free name → w.Grants → answer = .executes name)
  | .finish .. => True

def StaysRight (s : Includes) : List Action → Prop
  | [] => True
  | a :: rest => s.Right cfg truncate compiler a ∧ ∀ s', s.step cfg truncate compiler a = some s' → s'.StaysRight rest

/-- Where a once form finds a file that is being executed or has been included, a once form did that. The path is no
number, and the table has room. -/
def clean (s : Includes) : Action → Bool
  | .execInclude mode path w => !mode.once || ((resolveIncludePath compiler w.fs path).bind psNew).all fun name =>
      (numericStringKey cfg name.bytes).isNone &&
      (s.history.all (fun i => i.path != name) || decide (⟨name, true⟩ ∈ s.history)) &&
      decide ((s.history.filter Inclusion.once).length ≤ 16384 ∧ s.begun < 32768)
  | .finish .. => true

def cleanRun (s : Includes) : List Action → Bool
  | [] => true
  | a :: rest => s.clean cfg compiler a && (s.step cfg truncate compiler a).all fun s' => s'.cleanRun rest

end Includes
end PhpPico.Include
