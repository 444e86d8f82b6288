import Mathlib.Data.List.Pairwise
import Mathlib.Logic.Relation
import PhpPico.State.Session

/-!
# What nested executions leave visible

Only the root takes over the class table and the modules of a nested execution. `NothingLost`: what finished
executions have defined is visible to the code that runs now. It holds of every reachable session as long as classes
are registered at most one level deep and files are included by code on the root state.
-/

namespace PhpPico
open List Option SharedArray

namespace Session

/-- A definition is what a lookup from the state `x` answers for its name. -/
def Visible (s : Session) (x : ExecState) : Definition → Prop
  | .classEntry c => s.findClass x c.name = some c
  | .function f => s.findFunction x f.name = some (.runtime f)
  | .constant c => s.findConstant c.name = some c
  | .module m =>
    m ∈ s.modulesOf x ∧ ∀ n ∈ m.functions, isPersistentName n = true → s.findFunction x n = some (.declared m)

instance (s : Session) (x : ExecState) (d : Definition) : Decidable (s.Visible x d) := by
  cases d <;> simp only [Visible] <;> infer_instance

/-- Everything finished nested executions have defined and no rollback or clearing has taken back. -/
def completed (s : Session) : List Definition :=
  s.kept ++ s.done ++ s.nested.flatMap Activation.done

/-- The running state's class table has not been freed, and every definition of a finished nested
execution is visible from it. -/
def NothingLost (s : Session) : Prop :=
  Live s.classMem s.running.classes ∧ ∀ d ∈ s.completed, s.Visible s.running d

instance (s : Session) : Decidable s.NothingLost := inferInstanceAs (Decidable (_ ∧ _))

/-- The steps whose tables merge: a class is registered at most one level above the root state, a file is included by
code on it, and a destructor finds its class table alive. -/
def Merges (s : Session) : Action → Prop
  | .registerClass _ _ => s.nested.length ≤ 1
  | .beginInclude _ _ => s.nested = []
  | .beginDestructor => Live s.classMem s.rootClasses
  | _ => True

/-- One step, whatever it is. -/
def Step (s s' : Session) : Prop := ∃ a, s.step a = some s'

/-- One step whose tables merge. -/
def MergingStep (s s' : Session) : Prop := ∃ a, s.Merges a ∧ s.step a = some s'

end Session

/-! ## Names -/

theorem lowerByte_eq_iff {b k : UInt8} (hk : k = 0 ∨ k = 58 ∨ k = 123) : lowerByte b = k ↔ b = k := by
  rw [← UInt8.toNat_inj, ← UInt8.toNat_inj]
  unfold lowerByte
  split
  case isTrue h =>
    have h1 : 65 ≤ b.toNat := h.1
    have h2 : b.toNat ≤ 90 := h.2
    rw [UInt8.toNat_add, show (32 : UInt8).toNat = 32 from rfl]
    rcases hk with rfl | rfl | rfl
    · rw [show (0 : UInt8).toNat = 0 from rfl]; omega
    · rw [show (58 : UInt8).toNat = 58 from rfl]; omega
    · rw [show (123 : UInt8).toNat = 123 from rfl]; omega
  case isFalse => rfl

theorem head?_lower {name : List UInt8} {k : UInt8} (hk : k = 0 ∨ k = 58 ∨ k = 123) :
    (name.map lowerByte).head? = some k ↔ name.head? = some k := by
  cases name with
  | nil => simp
  | cons b rest => simpa using lowerByte_eq_iff hk

theorem containsColons_lower (name : List UInt8) : containsColons (name.map lowerByte) = containsColons name := by
  induction name with
  | nil => rfl
  | cons b rest ih =>
    have hzero : (lowerByte b = 0) = (b = 0) := propext (lowerByte_eq_iff (.inl rfl))
    have hcolon : (lowerByte b == 58) = (b == 58) := by
      rw [Bool.eq_iff_iff, beq_iff_eq, beq_iff_eq]
      exact lowerByte_eq_iff (.inr (.inl rfl))
    have hnext : ((rest.map lowerByte).head? == some 58) = (rest.head? == some 58) := by
      rw [Bool.eq_iff_iff, beq_iff_eq, beq_iff_eq]
      exact head?_lower (.inr (.inl rfl))
    simp only [map_cons, containsColons, hzero, hcolon, hnext, ih]

theorem isPersistentName_congr {a b : List UInt8} (h : bytesEqualCi a b = true) :
    isPersistentName a = isPersistentName b := by
  have lower (name : List UInt8) : isPersistentName (name.map lowerByte) = isPersistentName name := by
    have hhead : ((name.map lowerByte).head? != some 123) = (name.head? != some 123) := by
      rw [Bool.eq_iff_iff, bne_iff_ne, bne_iff_ne, ne_eq, ne_eq, head?_lower (.inr (.inr rfl))]
    unfold isPersistentName
    rw [hhead, containsColons_lower, isEmpty_map]
  rw [← lower a, ← lower b, bytesEqualCi_iff.mp h]

variable {m : LoadedModule}

theorem LoadedModule.finds_iff {name : List UInt8} :
    m.finds name = true ↔ ∃ n ∈ m.functions, bytesEqualCi n name = true := by
  simp [LoadedModule.finds]

theorem LoadedModule.finds_self {n : List UInt8} (hn : n ∈ m.functions) : m.finds n = true :=
  LoadedModule.finds_iff.mpr ⟨n, hn, bytesEqualCi_refl n⟩

theorem LoadedModule.finds_congr {a b : List UInt8} (h : bytesEqualCi a b = true)
    (hm : m.finds a = true) : m.finds b = true := by
  obtain ⟨n, hn, hna⟩ := LoadedModule.finds_iff.mp hm
  exact LoadedModule.finds_iff.mpr ⟨n, hn, bytesEqualCi_trans hna h⟩

/-- No name two modules both find persists. -/
def Apart (m m' : LoadedModule) : Prop :=
  ∀ name, isPersistentName name = true → m.finds name = true → m'.finds name = false

theorem Apart.symm {m' : LoadedModule} (h : Apart m m') : Apart m' m := by
  intro name hp hm'
  by_contra hm
  rw [h name hp (by simpa using hm)] at hm'
  cases hm'

instance : Std.Symm Apart := ⟨fun _ _ h => h.symm⟩

/-- A module of the table, or one without functions that persist. -/
def Known (modules : List LoadedModule) (m : LoadedModule) : Prop :=
  m ∈ modules ∨ ∀ name, isPersistentName name = true → m.finds name = false

theorem Known.mono {modules modules' : List LoadedModule} (known : Known modules m)
    (sub : modules ⊆ modules') : Known modules' m :=
  known.imp (fun h => sub h) id

theorem known_callbackModule (modules : List LoadedModule) : Known modules Session.callbackModule :=
  .inr fun _ _ => rfl

/-! ## Lookup in a table without duplicates -/

theorem find?_of_pairwise {α : Type} {l : List α} {p : α → Bool} {a : α} (mem : a ∈ l) (ha : p a)
    (pair : l.Pairwise fun x y => p x = true → p y = true → False) : l.find? p = some a := by
  obtain ⟨before, after, rfl⟩ := append_of_mem mem
  rw [find?_eq_some_iff_append]
  refine ⟨ha, before, after, rfl, fun x hx => ?_⟩
  have apart := (pairwise_append.mp pair).2.2 x hx a (.head _)
  simpa using fun hpx => apart hpx ha

/-- Class names are pairwise different, letter case aside. -/
def UniqueNames (classes : List PClass) : Prop :=
  classes.Pairwise fun c c' => bytesEqualCi c.name c'.name = false

theorem UniqueNames.find {classes : List PClass} (unique : UniqueNames classes) {c : PClass}
    (mem : c ∈ classes) : (classes.find? fun x => bytesEqualCi x.name c.name) = some c := by
  apply find?_of_pairwise mem (bytesEqualCi_refl c.name)
  refine unique.imp fun {x y} hxy hx hy => ?_
  rw [bytesEqualCi_trans hx (bytesEqualCi_symm hy)] at hxy
  cases hxy

theorem UniqueNames.append {classes : List PClass} (unique : UniqueNames classes) {c : PClass}
    (fresh : (classes.find? fun x => bytesEqualCi x.name c.name) = none) : UniqueNames (classes ++ [c]) := by
  refine pairwise_append.mpr ⟨unique, pairwise_singleton _ _, fun x hx y hy => ?_⟩
  rw [mem_singleton.mp hy]
  simpa using find?_eq_none.mp fresh x hx

namespace Session

variable {x : ExecState} {m : LoadedModule} {d : Definition} {cp : Checkpoint} {a : Activation} {moved : Bool}

theorem findFunction_eq_none {s : Session} {name : List UInt8} (h : s.findFunction x name = none) :
    (∀ f ∈ s.functions, bytesEqualCi f.name name = false) ∧ ∀ m ∈ s.modulesOf x, m.finds name = false := by
  unfold findFunction at h
  split at h
  · cases h
  · rename_i hf
    split at h
    · cases h
    · rename_i hm
      have hl := find?_eq_none.mp (map_eq_none_iff.mp h)
      refine ⟨fun f hmem => ?_, fun m hmem => ?_⟩
      · simpa using find?_eq_none.mp hf f (mem_reverse.mpr hmem)
      · have hne := hl m (mem_reverse.mpr hmem)
        by_contra hfinds
        rw [Bool.not_eq_false] at hfinds
        have hcur : some m = x.module := by
          simpa only [hfinds, Bool.and_true, bne_iff_ne, ne_eq, not_not] using hne
        rw [← hcur] at hm
        simp [hfinds] at hm

/-- What a state needs to see the modules `E` under their own names. -/
def Sees (s : Session) (E : List LoadedModule) (x : ExecState) : Prop :=
  (∀ m ∈ E, m ∈ s.modulesOf x) ∧ ∀ m, m ∈ s.modulesOf x ∨ x.module = some m → Known E m

theorem Sees.declared {s : Session} {E : List LoadedModule} (sees : s.Sees E x) (apart : E.Pairwise Apart)
    (mem : m ∈ E) {n : List UInt8} (hn : n ∈ m.functions) (persistent : isPersistentName n = true)
    (noRuntime : ∀ f ∈ s.functions, bytesEqualCi f.name n = false) : s.findFunction x n = some (.declared m) := by
  -- only `m` can answer: the other modules in view are apart from it
  have only : ∀ m', m' ∈ s.modulesOf x ∨ x.module = some m' → m'.finds n = true → m' = m := by
    intro m' hm' hfinds
    rcases sees.2 m' hm' with known | none
    · by_contra hne
      have hap := apart.forall mem known (Ne.symm hne)
      rw [hap n persistent (LoadedModule.finds_self hn)] at hfinds
      cases hfinds
    · rw [none n persistent] at hfinds
      cases hfinds
  unfold findFunction
  have hf : (s.functions.reverse.find? fun f => bytesEqualCi f.name n) = none :=
    find?_eq_none.mpr fun f hmem => by simp [noRuntime f (mem_reverse.mp hmem)]
  rw [hf]
  dsimp only
  split
  · rename_i m' hm'
    obtain ⟨hcur, hfinds⟩ := filter_eq_some_iff.mp hm'
    rw [only m' (.inr hcur) hfinds]
  · rename_i hnone
    have hother : ¬ x.module = some m := by
      intro hcur
      rw [hcur] at hnone
      simp [LoadedModule.finds_self hn] at hnone
    have hsome : ((s.modulesOf x).reverse.find? fun m' => some m' != x.module && m'.finds n).isSome := by
      rw [find?_isSome]
      refine ⟨m, mem_reverse.mpr (sees.1 m mem), ?_⟩
      simp [LoadedModule.finds_self hn, Ne.symm hother]
    obtain ⟨m', hm'⟩ := isSome_iff_exists.mp hsome
    have hp := find?_some hm'
    have hmem := mem_reverse.mp (mem_of_find?_eq_some hm')
    rw [Bool.and_eq_true] at hp
    rw [hm', only m' (.inl hmem) hp.2]
    rfl

/-! ## The invariant -/

/-- The contents of the definition tables. -/
structure Tables where
  classes : List PClass
  functions : List RuntimeFunction
  constants : List DefinedConstant
  modules : List LoadedModule

def Tables.Has (t : Tables) : Definition → Prop
  | .classEntry c => c ∈ t.classes
  | .function f => f ∈ t.functions
  | .constant c => c ∈ t.constants
  | .module m => m ∈ t.modules

/-- What a rollback to the checkpoint leaves. -/
def Tables.upTo (t : Tables) (cp : Checkpoint) : Tables :=
  { t with
    classes := t.classes.take cp.classCount
    functions := t.functions.take cp.functionCount
    modules := t.modules.take cp.moduleCount }

theorem Tables.Has.mono {t t' : Tables} (has : t.Has d) (classes : t.classes ⊆ t'.classes)
    (functions : t.functions ⊆ t'.functions) (constants : t.constants ⊆ t'.constants)
    (modules : t.modules ⊆ t'.modules) : t'.Has d := by
  cases d with
  | classEntry c => exact classes has
  | function f => exact functions has
  | constant c => exact constants has
  | module m => exact modules has

def tables (s : Session) (D : List PClass) (E : List LoadedModule) : Tables :=
  ⟨D, s.functions, s.constants, E⟩

/-- `bottom` of the last element of a list, `inner` of the others. -/
def Stacked {α : Type} (bottom inner : α → Prop) : List α → Prop
  | [] => True
  | [a] => bottom a
  | a :: b :: rest => inner a ∧ Stacked bottom inner (b :: rest)

theorem Stacked.imp {α : Type} {bottom inner bottom' inner' : α → Prop} {l : List α}
    (h : Stacked bottom inner l) (hb : ∀ a, bottom a → bottom' a) (hi : ∀ a, inner a → inner' a) :
    Stacked bottom' inner' l := by
  induction l with
  | nil => trivial
  | cons a rest ih =>
    cases rest with
    | nil => exact hb a h
    | cons b rest => exact ⟨hi a h.1, ih h.2⟩

/-- The table that definitions one level deep go to: the outermost nested execution's, or the
root's when nothing is nested. -/
def holder (s : Session) : Head := (s.nested.getLast?.map fun a => a.state.classes).getD s.rootClasses

/-- The outermost nested execution. Its classes are in the table `L`, and rolling back its include
leaves what had been completed before. -/
structure BottomOk (s : Session) (D L : List PClass) (E : List LoadedModule) (a : Activation) :
    Prop where
  own : ∀ d ∈ a.own, (s.tables L E).Has d
  done : ∀ d ∈ a.done, (s.tables [] []).Has d
  classCount : ∀ cp ∈ a.checkpoint, D.length ≤ cp.classCount ∧ cp.classCount ≤ L.length
  moduleCount : ∀ cp ∈ a.checkpoint, cp.moduleCount ≤ E.length ∧
    ∀ run ∈ s.run, run.checkpoint.moduleCount ≤ cp.moduleCount
  completed : ∀ cp ∈ a.checkpoint, ∀ d ∈ s.kept ++ s.done, ((s.tables D E).upTo cp).Has d
  module : ∀ cp ∈ a.checkpoint, ∀ m ∈ cp.module, Known (E.take cp.moduleCount) m

/-- A deeper execution defines functions and constants only, and is no include. -/
structure InnerOk (s : Session) (a : Activation) : Prop where
  defined : ∀ d ∈ a.own ++ a.done, (s.tables [] []).Has d
  checkpoint : a.checkpoint = none

/-- Rolling back the run on the root leaves what earlier runs had completed. -/
structure RunOk (s : Session) (D : List PClass) (E : List LoadedModule) (run : TopRun) : Prop where
  classCount : run.checkpoint.classCount ≤ D.length
  moduleCount : run.checkpoint.moduleCount ≤ E.length
  kept : ∀ d ∈ s.kept, ((s.tables D E).upTo run.checkpoint).Has d
  module : ∀ m ∈ run.checkpoint.module, Known (E.take run.checkpoint.moduleCount) m

/-- The invariant. `D` are the classes every head shares, `L` the ones the holder sees, `E` the
retained modules. -/
structure Inv (s : Session) (D L : List PClass) (E : List LoadedModule) : Prop where
  holder : read s.classMem s.holder = some L
  unique : UniqueNames L
  rootKeeps : Keeps s.classMem D s.rootClasses
  nestedKeeps : ∀ a ∈ s.nested, Keeps s.classMem D a.state.classes ∧ Live s.classMem a.state.classes
  modules : read s.moduleMem s.rootModules = some E
  apart : E.Pairwise Apart
  functions : s.functions.Pairwise fun f g => bytesEqualCi f.name g.name = false
  functionsApart : ∀ f ∈ s.functions, isPersistentName f.name = true → ∀ m ∈ E, m.finds f.name = false
  constants : s.constants.Pairwise fun c c' => c.name ≠ c'.name
  rootModule : ∀ m ∈ s.rootModule, Known E m
  sees : ∀ a ∈ s.nested, s.Sees E a.state
  completed : ∀ d ∈ s.kept ++ s.done, (s.tables D E).Has d
  logs : Stacked (s.BottomOk D L E) s.InnerOk s.nested
  run : ∀ run ∈ s.run, s.RunOk D E run

variable {s s' : Session} {D L : List PClass} {E : List LoadedModule}

theorem inv_init : init.Inv [] [] [] where
  holder := rfl
  unique := .nil
  rootKeeps := ⟨Nat.zero_le _, fun _ _ => nil_prefix⟩
  nestedKeeps := by simp [init]
  modules := rfl
  apart := .nil
  functions := .nil
  functionsApart := by simp [init]
  constants := .nil
  rootModule := by simp [init]
  sees := by simp [init]
  completed := by simp [init]
  logs := trivial
  run := by simp [init]

/-! ## What the invariant gives -/

theorem Inv.modulesOf_root (inv : s.Inv D L E) : s.modulesOf s.root = E := by
  simp only [modulesOf, root, inv.modules, getD_some]

theorem Inv.sees_root (inv : s.Inv D L E) : s.Sees E s.root := by
  refine ⟨fun m hm => by rw [inv.modulesOf_root]; exact hm, fun m hm => ?_⟩
  rw [inv.modulesOf_root] at hm
  rcases hm with hm | hm
  · exact .inl hm
  · exact inv.rootModule m hm

theorem Inv.sees_running (inv : s.Inv D L E) : s.Sees E s.running := by
  unfold running
  cases hn : s.nested with
  | nil => exact inv.sees_root
  | cons a rest => exact inv.sees a (by rw [hn]; exact .head _)

theorem Inv.live_running (inv : s.Inv D L E) : Live s.classMem s.running.classes := by
  unfold running
  cases hn : s.nested with
  | nil =>
    have hr := inv.holder
    rw [Session.holder, hn] at hr
    exact isSome_iff_exists.mpr ⟨L, hr⟩
  | cons a rest => exact (inv.nestedKeeps a (by rw [hn]; exact .head _)).2

theorem Inv.keeps_running (inv : s.Inv D L E) : Keeps s.classMem D s.running.classes := by
  unfold running
  cases hn : s.nested with
  | nil => exact inv.rootKeeps
  | cons a rest => exact (inv.nestedKeeps a (by rw [hn]; exact .head _)).1

theorem Inv.keeps_holder (inv : s.Inv D L E) : Keeps s.classMem D s.holder := by
  unfold Session.holder
  cases hl : s.nested.getLast? with
  | none => exact inv.rootKeeps
  | some a => exact (inv.nestedKeeps a (mem_of_getLast? hl)).1

theorem Inv.prefix_holder (inv : s.Inv D L E) : D <+: L := inv.keeps_holder.isPrefix inv.holder

theorem Inv.visible (inv : s.Inv D L E) (has : (s.tables D E).Has d) : s.Visible s.running d := by
  cases d with
  | classEntry c =>
    obtain ⟨xs, hr⟩ := inv.live_running.exists_read
    obtain ⟨after, rfl⟩ := inv.keeps_running.isPrefix hr
    have unique : UniqueNames D := Pairwise.sublist inv.prefix_holder.sublist inv.unique
    have mem : c ∈ D := has
    simp only [Visible, findClass, classesOf, hr, getD_some]
    rw [find?_append, unique.find mem]
    rfl
  | function f =>
    have mem : f ∈ s.functions := has
    have pair : s.functions.reverse.Pairwise fun g g' =>
        bytesEqualCi g.name f.name = true → bytesEqualCi g'.name f.name = true → False := by
      refine pairwise_reverse.mpr (inv.functions.imp fun {g g'} apart hg' hg => ?_)
      rw [bytesEqualCi_trans hg (bytesEqualCi_symm hg')] at apart
      cases apart
    have found := find?_of_pairwise (mem_reverse.mpr mem) (bytesEqualCi_refl f.name) pair
    simp only [Visible, findFunction, found]
  | constant c =>
    have mem : c ∈ s.constants := has
    apply find?_of_pairwise mem (by simp)
    refine inv.constants.imp fun {c c'} apart hc hc' => ?_
    exact apart ((beq_iff_eq.mp hc).trans (beq_iff_eq.mp hc').symm)
  | module m =>
    have mem : m ∈ E := has
    refine ⟨inv.sees_running.1 m mem, fun n hn persistent => ?_⟩
    refine inv.sees_running.declared inv.apart mem hn persistent fun f hf => ?_
    by_contra heq
    rw [Bool.not_eq_false] at heq
    have hpf : isPersistentName f.name = true := (isPersistentName_congr heq).trans persistent
    have hfind := LoadedModule.finds_congr (bytesEqualCi_symm heq) (LoadedModule.finds_self hn)
    rw [inv.functionsApart f hf hpf m mem] at hfind
    cases hfind

theorem shared_has (has : (s.tables [] []).Has d) : (s.tables D E).Has d :=
  has.mono (nil_subset _) (Subset.refl _) (Subset.refl _) (nil_subset _)

theorem Inv.done_shared (inv : s.Inv D L E) : ∀ a ∈ s.nested, ∀ d ∈ a.done, (s.tables [] []).Has d := by
  have h : ∀ l : List Activation, Stacked (s.BottomOk D L E) s.InnerOk l →
      ∀ a ∈ l, ∀ d ∈ a.done, (s.tables [] []).Has d := by
    intro l
    induction l with
    | nil => simp
    | cons a rest ih =>
      cases rest with
      | nil =>
        intro ok b hb d hd
        rw [mem_singleton.mp hb] at hd
        exact ok.done d hd
      | cons b rest =>
        intro ok c hc d hd
        rcases mem_cons.mp hc with rfl | hc
        · exact ok.1.defined d (mem_append_right _ hd)
        · exact ih ok.2 c hc d hd
  exact h s.nested inv.logs

theorem Inv.nothingLost (inv : s.Inv D L E) : s.NothingLost := by
  refine ⟨inv.live_running, fun d hd => inv.visible ?_⟩
  rcases mem_append.mp hd with hd | hd
  · exact inv.completed d hd
  · obtain ⟨a, ha, hd⟩ := mem_flatMap.mp hd
    exact shared_has (inv.done_shared a ha d hd)

/-! ## Growing tables -/

/-- `s'` has the runs of `s`, and its shared tables extend those of `s`. -/
structure Grows (s s' : Session) : Prop where
  functions : s.functions <+: s'.functions
  constants : s.constants ⊆ s'.constants
  run : s'.run = s.run
  kept : s'.kept = s.kept

theorem Grows.same (functions : s'.functions = s.functions) (constants : s'.constants = s.constants)
    (run : s'.run = s.run) (kept : s'.kept = s.kept) : Grows s s' :=
  ⟨functions ▸ prefix_refl _, constants ▸ Subset.refl _, run, kept⟩

theorem Grows.has (grows : Grows s s') {D' : List PClass} {E' : List LoadedModule} (hD : D ⊆ D')
    (hE : E ⊆ E') {d : Definition} (has : (s.tables D E).Has d) : (s'.tables D' E').Has d :=
  has.mono hD grows.functions.subset grows.constants hE

theorem Grows.has_upTo (grows : Grows s s') {D' : List PClass} {E' : List LoadedModule} (hD : D <+: D')
    (hE : E <+: E') (has : ((s.tables D E).upTo cp).Has d) : ((s'.tables D' E').upTo cp).Has d :=
  has.mono (hD.take cp.classCount).subset (grows.functions.take cp.functionCount).subset
    grows.constants (hE.take cp.moduleCount).subset

theorem BottomOk.grow {L' : List PClass} (ok : s.BottomOk D L E a) (grows : Grows s s')
    (done : s'.done = s.done) (hL : L <+: L') : s'.BottomOk D L' E a where
  own d hd := grows.has hL.subset (Subset.refl E) (ok.own d hd)
  done d hd := grows.has (Subset.refl _) (Subset.refl _) (ok.done d hd)
  classCount cp hcp :=
    ⟨(ok.classCount cp hcp).1, (ok.classCount cp hcp).2.trans hL.length_le⟩
  moduleCount cp hcp := by rw [grows.run]; exact ok.moduleCount cp hcp
  completed cp hcp d hd := by
    rw [grows.kept, done] at hd
    exact grows.has_upTo (prefix_refl D) (prefix_refl E) (ok.completed cp hcp d hd)
  module := ok.module

theorem InnerOk.grow (ok : s.InnerOk a) (grows : Grows s s') : s'.InnerOk a where
  defined d hd := grows.has (Subset.refl _) (Subset.refl _) (ok.defined d hd)
  checkpoint := ok.checkpoint

theorem RunOk.grow {D' : List PClass} {E' : List LoadedModule} {run : TopRun}
    (ok : s.RunOk D E run) (grows : Grows s s') (hD : D <+: D') (hE : E <+: E') :
    s'.RunOk D' E' run where
  classCount := ok.classCount.trans hD.length_le
  moduleCount := ok.moduleCount.trans hE.length_le
  kept d hd := by rw [grows.kept] at hd; exact grows.has_upTo hD hE (ok.kept d hd)
  module m hm := (ok.module m hm).mono (hE.take run.checkpoint.moduleCount).subset

theorem Inv.setTop {a' : Activation} {rest : List Activation} (inv : s.Inv D L E) (hn : s.nested = a :: rest)
    (state : a'.state = a.state) (logs : Stacked (s.BottomOk D L E) s.InnerOk (a' :: rest)) :
    { s with nested := a' :: rest }.Inv D L E := by
  have last : ({ s with nested := a' :: rest } : Session).holder = s.holder := by
    unfold Session.holder
    rw [hn]
    cases rest with
    | nil => simp [state]
    | cons b rest => simp [getLast?_cons_cons]
  have old : ∀ {p : ExecState → Prop}, (∀ b ∈ s.nested, p b.state) → ∀ b ∈ a' :: rest, p b.state := by
    intro p hp b hb
    rcases mem_cons.mp hb with rfl | hb
    · rw [state]; exact hp a (by rw [hn]; exact .head _)
    · exact hp b (by rw [hn]; exact mem_cons_of_mem a hb)
  exact
    { inv with
      holder := by rw [last]; exact inv.holder
      nestedKeeps := old (p := fun x => Keeps s.classMem D x.classes ∧ Live s.classMem x.classes)
        inv.nestedKeeps
      sees := old (p := fun x => s.Sees E x) inv.sees
      logs := logs.imp (fun _ ok => ok.grow (.same rfl rfl rfl rfl) rfl (prefix_refl L))
        (fun _ ok => ok.grow (.same rfl rfl rfl rfl))
      run := fun run hrun => (inv.run run hrun).grow
        (.same rfl rfl rfl rfl) (prefix_refl D) (prefix_refl E) }

theorem Inv.logOwn (inv : s.Inv D L E) (bottom : (s.tables L E).Has d)
    (inner : 2 ≤ s.nested.length → (s.tables [] []).Has d) : (s.logOwn d).Inv D L E := by
  unfold Session.logOwn
  cases hn : s.nested with
  | nil => exact inv
  | cons a rest =>
    have logs := inv.logs
    rw [hn] at logs
    refine inv.setTop hn rfl ?_
    cases rest with
    | nil =>
      refine { logs with own := fun x hx => ?_ }
      rcases mem_append.mp hx with hx | hx
      · exact logs.own x hx
      · rw [mem_singleton.mp hx]; exact bottom
    | cons b rest =>
      refine ⟨⟨fun x hx => ?_, logs.1.checkpoint⟩, logs.2⟩
      rcases mem_append.mp hx with hx | hx
      · rcases mem_append.mp hx with hx | hx
        · exact logs.1.defined x (mem_append_left _ hx)
        · rw [mem_singleton.mp hx]; exact inner (by rw [hn]; simp)
      · exact logs.1.defined x (mem_append_right _ hx)

/-! ## Registrations -/

theorem Inv.grown (inv : s.Inv D L E) {fs : List RuntimeFunction} {cs : List DefinedConstant}
    (grows : Grows s { s with functions := fs, constants := cs })
    (functions : fs.Pairwise fun f g => bytesEqualCi f.name g.name = false)
    (functionsApart : ∀ f ∈ fs, isPersistentName f.name = true → ∀ m ∈ E, m.finds f.name = false)
    (constants : cs.Pairwise fun c c' => c.name ≠ c'.name) :
    { s with functions := fs, constants := cs }.Inv D L E :=
  { inv with
    functions := functions
    functionsApart := functionsApart
    constants := constants
    completed := fun d hd => grows.has (Subset.refl D) (Subset.refl E) (inv.completed d hd)
    logs := inv.logs.imp (fun _ ok => ok.grow grows rfl (prefix_refl L)) (fun _ ok => ok.grow grows)
    run := fun run hrun => (inv.run run hrun).grow grows (prefix_refl D) (prefix_refl E) }

theorem Inv.defineFunction (inv : s.Inv D L E) {f : RuntimeFunction}
    (step : s.defineFunction f = some s') : s'.Inv D L E := by
  unfold Session.defineFunction at step
  split at step
  · cases step
  rename_i refused
  rw [not_or, Bool.not_eq_true, isSome_eq_false_iff, isNone_iff_eq_none] at refused
  obtain ⟨noRuntime, noModule⟩ := findFunction_eq_none refused.1
  cases step
  have added : { s with functions := s.functions ++ [f] }.Inv D L E := by
    refine inv.grown ⟨prefix_append _ _, Subset.refl _, rfl, rfl⟩ ?_ ?_ inv.constants
    · refine pairwise_append.mpr ⟨inv.functions, pairwise_singleton _ _, ?_⟩
      intro g hg x hx
      rw [mem_singleton.mp hx]
      exact noRuntime g hg
    · intro g hg persistent m hm
      rcases mem_append.mp hg with hg | hg
      · exact inv.functionsApart g hg persistent m hm
      · rw [mem_singleton.mp hg]
        exact noModule m (inv.sees_running.1 m hm)
  exact added.logOwn (mem_append_right _ (.head _))
    fun _ => mem_append_right _ (.head _)

theorem Inv.defineConstant (inv : s.Inv D L E) {c : DefinedConstant}
    (step : s.defineConstant c = some s') : s'.Inv D L E := by
  unfold Session.defineConstant at step
  split at step
  · cases step
  rename_i refused
  rw [Bool.not_eq_true, isSome_eq_false_iff, isNone_iff_eq_none] at refused
  cases step
  have added : { s with constants := s.constants ++ [c] }.Inv D L E := by
    refine inv.grown ⟨prefix_refl _, subset_append_left _ _, rfl, rfl⟩ inv.functions inv.functionsApart ?_
    refine pairwise_append.mpr ⟨inv.constants, pairwise_singleton _ _, ?_⟩
    intro x hx y hy
    rw [mem_singleton.mp hy]
    simpa using find?_eq_none.mp refused x hx
  exact added.logOwn (mem_append_right _ (.head _))
    fun _ => mem_append_right _ (.head _)

theorem findClass_eq_none {name : List UInt8} {xs : List PClass} (hr : read s.classMem x.classes = some xs)
    (h : s.findClass x name = none) : (xs.find? fun c => bytesEqualCi c.name name) = none := by
  simpa only [findClass, classesOf, hr, getD_some] using h

/-- A class is registered on the root state or one level above it: in the table of the holder. -/
theorem Inv.registerClass (inv : s.Inv D L E) {c : PClass} (shallow : s.nested.length ≤ 1)
    (step : s.registerClass c moved = some s') : s'.Inv D (L ++ [c]) E := by
  have runs : s.running.classes = s.holder := by
    unfold Session.running Session.holder
    cases hn : s.nested with
    | nil => rfl
    | cons a rest =>
      cases rest with
      | nil => rfl
      | cons b rest => rw [hn] at shallow; simp at shallow
  unfold Session.registerClass at step
  split at step
  · cases step
  rename_i fresh
  rw [Bool.not_eq_true, isSome_eq_false_iff, isNone_iff_eq_none] at fresh
  have none := findClass_eq_none (runs ▸ inv.holder) fresh
  have hread : read (push moved s.classMem s.holder c).1 (push moved s.classMem s.holder c).2 =
      some (L ++ [c]) := read_push inv.holder c
  have keeps : ∀ h : Head, Keeps s.classMem D h → Keeps (push moved s.classMem s.holder c).1 D h :=
    fun h hk => keeps_push hk inv.keeps_holder c
  have pushed : Keeps (push moved s.classMem s.holder c).1 D (push moved s.classMem s.holder c).2 :=
    (keeps_of_read hread).mono (inv.prefix_holder.trans (prefix_append _ _))
  cases step
  rw [runs]
  have hL : L <+: L ++ [c] := prefix_append _ _
  suffices h : (s.setClasses (push moved s.classMem s.holder c).1
      (push moved s.classMem s.holder c).2).Inv D (L ++ [c]) E by
    refine h.logOwn (mem_append_right _ (.head _)) fun deep => ?_
    have same : (s.setClasses (push moved s.classMem s.holder c).1
        (push moved s.classMem s.holder c).2).nested.length = s.nested.length := by
      unfold setClasses
      split <;> simp_all
    omega
  unfold setClasses
  cases hn : s.nested with
  | nil =>
    have hh : s.holder = s.rootClasses := by rw [Session.holder, hn]; rfl
    rw [hh] at hread keeps pushed ⊢
    exact
      { inv with
        holder := hread
        unique := inv.unique.append none
        rootKeeps := pushed
        nestedKeeps := fun _ hb => nomatch hb
        logs := trivial
        sees := fun _ hb => nomatch hb
        run := fun run hrun => (inv.run run hrun).grow
          (.same rfl rfl rfl rfl) (prefix_refl D) (prefix_refl E) }
  | cons a rest =>
    obtain rfl : rest = [] := by
      rw [hn] at shallow
      simpa using shallow
    have hh : s.holder = a.state.classes := by rw [Session.holder, hn]; rfl
    have logs := inv.logs
    rw [hn] at logs
    have logs : s.BottomOk D L E a := logs
    have sees := inv.sees a (by rw [hn]; exact .head _)
    rw [hh] at hread keeps pushed ⊢
    have grown : s.BottomOk D (L ++ [c]) E a := logs.grow (.same rfl rfl rfl rfl) rfl hL
    refine
      { inv with
        holder := hread
        unique := inv.unique.append none
        rootKeeps := keeps _ inv.rootKeeps
        nestedKeeps := ?_
        sees := ?_
        logs := ⟨grown.own, grown.done, grown.classCount, grown.moduleCount, grown.completed, grown.module⟩
        run := fun run hrun => (inv.run run hrun).grow
          (.same rfl rfl rfl rfl) (prefix_refl D) (prefix_refl E) }
    · intro b hb
      rw [mem_singleton.mp hb]
      exact ⟨pushed, isSome_iff_exists.mpr ⟨_, hread⟩⟩
    · intro b hb
      rw [mem_singleton.mp hb]
      exact sees

/-! ## Entering a nested execution -/

/-- A callback, magic method or destructor starts from a state that sees the tables. -/
theorem Inv.beginInvoke (inv : s.Inv D L E) (sees : s.Sees E x) (keeps : Keeps s.classMem D x.classes)
    (live : Live s.classMem x.classes)
    (root : s.nested = [] → x.classes = s.rootClasses) : (s.beginInvoke x).Inv D L E := by
  have saw : (s.beginInvoke x).Sees E ⟨x.classes, .own (s.modulesOf x ++ x.module.toList),
      some callbackModule⟩ := by
    refine ⟨fun m hm => mem_append_left _ (sees.1 m hm), fun m hm => ?_⟩
    rcases hm with hm | hm
    · rcases mem_append.mp hm with hm | hm
      · exact sees.2 m (.inl hm)
      · exact sees.2 m (.inr (mem_toList.mp hm))
    · rw [← some.inj hm]
      exact known_callbackModule E
  have grows : Grows s (s.beginInvoke x) := .same rfl rfl rfl rfl
  refine
    { inv with
      holder := ?_
      nestedKeeps := fun a ha => ?_
      sees := fun a ha => ?_
      logs := ?_
      run := fun run hrun => (inv.run run hrun).grow grows (prefix_refl D) (prefix_refl E) }
  · have hr := inv.holder
    unfold Session.holder at hr
    unfold Session.holder Session.beginInvoke
    cases hn : s.nested with
    | nil =>
      rw [hn] at hr
      simpa [root hn] using hr
    | cons b rest =>
      rw [hn] at hr
      simpa [getLast?_cons_cons] using hr
  · rcases mem_cons.mp ha with rfl | ha
    · exact ⟨keeps, live⟩
    · exact inv.nestedKeeps a ha
  · rcases mem_cons.mp ha with rfl | ha
    · exact saw
    · exact inv.sees a ha
  · have logs : Stacked ((s.beginInvoke x).BottomOk D L E) (s.beginInvoke x).InnerOk s.nested :=
      inv.logs.imp (fun _ ok => ok.grow grows rfl (prefix_refl L)) (fun _ ok => ok.grow grows)
    unfold Session.beginInvoke at logs ⊢
    cases hn : s.nested with
    | nil =>
      exact
        { own := fun _ hd => nomatch hd
          done := fun _ hd => nomatch hd
          classCount := fun _ hcp => nomatch hcp
          moduleCount := fun _ hcp => nomatch hcp
          completed := fun _ hcp => nomatch hcp
          module := fun _ hcp => nomatch hcp }
    | cons b rest =>
      simp only [hn] at logs ⊢
      exact ⟨⟨fun _ hd => (nomatch hd), rfl⟩, logs⟩

theorem Inv.validated (inv : s.Inv D L E) (valid : s.validateReplFunctions s.root m = true) : (∀ m' ∈ E, Apart m' m) ∧
      ∀ f ∈ s.functions, isPersistentName f.name = true → m.finds f.name = false := by
  have unseen : ∀ name, isPersistentName name = true → m.finds name = true →
      ∃ n, bytesEqualCi n name = true ∧ s.findFunction s.root n = none := by
    intro name persistent hm
    obtain ⟨n, hn, heq⟩ := LoadedModule.finds_iff.mp hm
    have hvalid := List.all_eq_true.mp valid n hn
    rw [isPersistentName_congr heq, persistent] at hvalid
    exact ⟨n, heq, by simpa using hvalid⟩
  constructor
  · intro m' hm'
    refine Apart.symm fun name persistent hm => ?_
    obtain ⟨n, heq, hnone⟩ := unseen name persistent hm
    have hn := (findFunction_eq_none hnone).2 m' (inv.sees_root.1 m' hm')
    by_contra hfinds
    rw [Bool.not_eq_false] at hfinds
    rw [LoadedModule.finds_congr (bytesEqualCi_symm heq) hfinds] at hn
    cases hn
  · intro f hf persistent
    by_contra hfinds
    rw [Bool.not_eq_false] at hfinds
    obtain ⟨n, heq, hnone⟩ := unseen f.name persistent hfinds
    have hn := (findFunction_eq_none hnone).1 f hf
    rw [bytesEqualCi_symm heq] at hn
    cases hn

theorem Inv.retain (inv : s.Inv D L E) (moved : Bool) (flat : s.nested = [])
    (valid : s.validateReplFunctions s.root m = true) :
    { s with
      moduleMem := (push moved s.moduleMem s.rootModules m).1
      rootModules := (push moved s.moduleMem s.rootModules m).2 }.Inv D L (E ++ [m]) := by
  obtain ⟨modulesApart, functionsApart⟩ := inv.validated valid
  have hE : E <+: E ++ [m] := prefix_append _ _
  exact
    { inv with
      modules := read_push inv.modules m
      apart := by
        refine pairwise_append.mpr ⟨inv.apart, pairwise_singleton _ _, ?_⟩
        intro m' hm' x hx
        rw [mem_singleton.mp hx]
        exact modulesApart m' hm'
      functionsApart := by
        intro f hf persistent m' hm'
        rcases mem_append.mp hm' with hm' | hm'
        · exact inv.functionsApart f hf persistent m' hm'
        · rw [mem_singleton.mp hm']
          exact functionsApart f hf persistent
      rootModule := fun m' hm' => (inv.rootModule m' hm').mono hE.subset
      sees := fun a ha => by rw [flat] at ha; cases ha
      completed := fun d hd => (Grows.same rfl rfl rfl rfl).has (Subset.refl D) hE.subset
        (inv.completed d hd)
      logs := by rw [flat]; trivial
      run := fun run hrun => (inv.run run hrun).grow (.same rfl rfl rfl rfl) (prefix_refl D) hE }

theorem Inv.beginInclude (inv : s.Inv D L E) (flat : s.nested = [])
    (step : s.beginInclude m moved = some s') : s'.Inv D L (E ++ [m]) := by
  unfold Session.beginInclude at step
  split at step
  case isFalse => cases step
  rename_i valid
  have retained := inv.retain moved flat valid
  have hread : read s.classMem s.rootClasses = some L := by
    have hr := inv.holder
    rwa [Session.holder, flat] at hr
  have hcount : s.rootModules.count = E.length := (read_length inv.modules).symm
  have hmod : read (push moved s.moduleMem s.rootModules m).1 (push moved s.moduleMem s.rootModules m).2 =
      some (E ++ [m]) := read_push inv.modules m
  cases step
  rw [flat]
  refine
    { retained with
      holder := hread
      nestedKeeps := fun a ha => ?_
      sees := fun a ha => ?_
      logs := ?_
      run := fun run hrun => (retained.run run hrun).grow (.same rfl rfl rfl rfl)
        (prefix_refl D) (prefix_refl _) }
  · rw [mem_singleton.mp ha]
    exact ⟨inv.rootKeeps, isSome_iff_exists.mpr ⟨L, hread⟩⟩
  · rw [mem_singleton.mp ha]
    refine ⟨fun m' hm' => ?_, fun m' hm' => .inl ?_⟩
    · simpa only [modulesOf, hmod, getD_some] using hm'
    · rcases hm' with hm' | hm'
      · simpa only [modulesOf, hmod, getD_some] using hm'
      · rw [← some.inj hm']
        exact mem_append_right _ (.head _)
  · exact
      { own := fun d hd => by
          rw [mem_singleton.mp hd]
          exact mem_append_right _ (.head _)
        done := fun _ hd => nomatch hd
        classCount := fun cp hcp => by
          cases hcp
          exact ⟨inv.rootKeeps.1, (read_length hread).ge⟩
        moduleCount := fun cp hcp => by
          cases hcp
          have hle : s.rootModules.count ≤ (E ++ [m]).length := by
            rw [hcount, length_append]; omega
          exact ⟨hle, fun run hrun => (inv.run run hrun).moduleCount.trans_eq hcount.symm⟩
        completed := fun cp hcp d hd => by
          cases hcp
          refine (inv.completed d hd).mono ?_ ?_ (Subset.refl _) ?_
          · show D ⊆ D.take s.rootClasses.count
            rw [take_of_length_le inv.rootKeeps.1]
            exact Subset.refl D
          · show s.functions ⊆ s.functions.take s.functions.length
            rw [take_length]
            exact Subset.refl _
          · show E ⊆ (E ++ [m]).take s.rootModules.count
            rw [hcount, take_left]
            exact Subset.refl E
        module := fun cp hcp m' hm' => by
          cases hcp
          show Known ((E ++ [m]).take s.rootModules.count) m'
          rw [hcount, take_left]
          exact inv.rootModule m' hm' }

/-! ## Leaving one -/

theorem holder_congr (hn : s.nested ≠ []) (nested : s'.nested = s.nested) : s'.holder = s.holder := by
  unfold Session.holder
  rw [nested]
  cases hl : s.nested.getLast? with
  | none => exact absurd (getLast?_eq_none_iff.mp hl) hn
  | some a => rfl

theorem Inv.takeOver (inv : s.Inv D L E) (ha : a ∈ s.nested) :
    { s with rootClasses := a.state.classes }.Inv D L E := by
  have hn : s.nested ≠ [] := ne_nil_of_mem ha
  exact
    { inv with
      holder := by
        have same : ({ s with rootClasses := a.state.classes } : Session).holder = s.holder := holder_congr hn rfl
        rw [same]
        exact inv.holder
      rootKeeps := (inv.nestedKeeps a ha).1
      sees := inv.sees
      logs := inv.logs.imp (fun _ ok => ok.grow (.same rfl rfl rfl rfl) rfl (prefix_refl L))
        (fun _ ok => ok.grow (.same rfl rfl rfl rfl))
      run := fun run hrun => (inv.run run hrun).grow (.same rfl rfl rfl rfl) (prefix_refl D)
        (prefix_refl E) }

theorem Inv.failInclude (inv : s.Inv D L E) (step : s.failInclude = some s') : s'.Inv D L E := by
  unfold Session.failInclude at step
  split at step
  · cases step
  rename_i a rest hn
  split at step
  · cases step
    exact inv.takeOver (by rw [hn]; exact .head _)
  · cases step

theorem mem_take_take {α : Type} {l : List α} {i j : Nat} {x : α} (hi : x ∈ l.take i)
    (hj : x ∈ l.take j) : x ∈ (l.take i).take j := by
  rw [take_take]
  rcases Nat.le_total j i with h | h
  · rwa [Nat.min_eq_left h]
  · rwa [Nat.min_eq_right h]

/-- The outermost execution ends well: what it has defined joins the completed definitions, and every class it sees is
shared. -/
theorem Inv.mergeBottom (inv : s.Inv D L E) (hn : s.nested = [a]) :
    { s with rootClasses := a.state.classes, nested := [], done := s.done ++ (a.own ++ a.done) }.Inv
      L L E := by
  have logs := inv.logs
  rw [hn] at logs
  have logs : s.BottomOk D L E a := logs
  have hread : read s.classMem a.state.classes = some L := by
    have hr := inv.holder
    rwa [Session.holder, hn] at hr
  have hD : D <+: L := inv.prefix_holder
  exact
    { inv with
      holder := hread
      rootKeeps := keeps_of_read hread
      nestedKeeps := fun _ hb => nomatch hb
      sees := fun _ hb => nomatch hb
      completed := by
        intro d hd
        rw [← append_assoc] at hd
        rcases mem_append.mp hd with hd | hd
        · exact (Grows.same rfl rfl rfl rfl).has hD.subset (Subset.refl E) (inv.completed d hd)
        · rcases mem_append.mp hd with hd | hd
          · exact logs.own d hd
          · exact shared_has (logs.done d hd)
      logs := trivial
      run := fun run hrun => (inv.run run hrun).grow (.same rfl rfl rfl rfl) hD (prefix_refl E) }

/-- An include at the bottom fails and is rolled back; the constants it defined stay. -/
theorem Inv.rollBackBottom (inv : s.Inv D L E) (hn : s.nested = [a]) (hcp : a.checkpoint = some cp) :
    { { s with rootClasses := a.state.classes, nested := [] }.rollbackDefinitions cp with
      done := s.done ++ (a.own ++ a.done).filter Definition.isConstant }.Inv
      D (L.take cp.classCount) (E.take cp.moduleCount) := by
  have logs := inv.logs
  rw [hn] at logs
  have logs : s.BottomOk D L E a := logs
  have hread : read s.classMem a.state.classes = some L := by
    have hr := inv.holder
    rwa [Session.holder, hn] at hr
  obtain ⟨hDcp, hcpL⟩ := logs.classCount cp hcp
  obtain ⟨hcpE, hruns⟩ := logs.moduleCount cp hcp
  have hread' := read_truncate hread (hcpL.trans_eq (read_length hread))
  have hD : D <+: L.take cp.classCount := prefix_take_iff.mpr ⟨inv.prefix_holder, hDcp⟩
  exact
    { inv with
      holder := hread'
      unique := Pairwise.sublist (take_sublist _ _) inv.unique
      rootKeeps := (keeps_of_read hread').mono hD
      nestedKeeps := fun _ hb => nomatch hb
      modules := read_truncate inv.modules (hcpE.trans_eq (read_length inv.modules))
      apart := inv.apart.sublist (take_sublist _ _)
      functions := inv.functions.sublist (take_sublist _ _)
      functionsApart := fun f hf persistent m hm =>
        inv.functionsApart f (mem_of_mem_take hf) persistent m (mem_of_mem_take hm)
      rootModule := logs.module cp hcp
      sees := fun _ hb => nomatch hb
      completed := by
        intro d hd
        rw [← append_assoc] at hd
        rcases mem_append.mp hd with hd | hd
        · exact (logs.completed cp hcp d hd).mono (take_subset _ _) (Subset.refl _)
            (Subset.refl _) (Subset.refl _)
        · obtain ⟨hd, hconst⟩ := mem_filter.mp hd
          cases d with
          | constant c =>
            rcases mem_append.mp hd with hd | hd
            · exact logs.own _ hd
            · exact logs.done _ hd
          | classEntry c => cases hconst
          | function f => cases hconst
          | module m => cases hconst
      logs := trivial
      run := fun run hrun =>
        { classCount := (inv.run run hrun).classCount
          moduleCount := by
            rw [length_take]
            exact Nat.le_min.mpr ⟨hruns run hrun, (inv.run run hrun).moduleCount⟩
          kept := by
            intro d hd
            have before := (inv.run run hrun).kept d hd
            have after := logs.completed cp hcp d (mem_append_left _ hd)
            cases d with
            | classEntry c => exact before
            | function f => exact mem_take_take after before
            | constant c => exact before
            | module m => exact mem_take_take after before
          module := by
            intro m hm
            rw [take_take, Nat.min_eq_left (hruns run hrun)]
            exact (inv.run run hrun).module m hm } }

/-- A deeper execution ends: it has defined functions and constants only. -/
theorem Inv.mergeInner (inv : s.Inv D L E) {b : Activation} {rest : List Activation}
    (hn : s.nested = a :: b :: rest) :
    { s with
      rootClasses := a.state.classes
      nested := { b with done := b.done ++ (a.own ++ a.done) } :: rest }.Inv D L E := by
  have taken := inv.takeOver (a := a) (by rw [hn]; exact .head _)
  have logs := inv.logs
  rw [hn] at logs
  obtain ⟨inner, logs⟩ := logs
  have popped : { s with rootClasses := a.state.classes, nested := b :: rest }.Inv D L E :=
    { taken with
      holder := by
        have hr := taken.holder
        unfold Session.holder at hr ⊢
        rwa [hn, getLast?_cons_cons] at hr
      nestedKeeps := fun c hc => inv.nestedKeeps c (by rw [hn]; exact mem_cons_of_mem a hc)
      sees := fun c hc => inv.sees c (by rw [hn]; exact mem_cons_of_mem a hc)
      logs := logs.imp (fun _ ok => ok.grow (.same rfl rfl rfl rfl) rfl (prefix_refl L))
        (fun _ ok => ok.grow (.same rfl rfl rfl rfl))
      run := fun run hrun => (inv.run run hrun).grow (.same rfl rfl rfl rfl) (prefix_refl D)
        (prefix_refl E) }
  refine popped.setTop rfl rfl ?_
  have logs := popped.logs
  cases rest with
  | nil =>
    refine { logs with done := fun d hd => ?_ }
    rcases mem_append.mp hd with hd | hd
    · exact logs.done d hd
    · exact inner.defined d hd
  | cons c rest =>
    refine ⟨⟨fun d hd => ?_, logs.1.checkpoint⟩, logs.2⟩
    rcases mem_append.mp hd with hd | hd
    · exact logs.1.defined d (mem_append_left _ hd)
    · rcases mem_append.mp hd with hd | hd
      · exact logs.1.defined d (mem_append_right _ hd)
      · exact inner.defined d hd

theorem Inv.endNested (inv : s.Inv D L E) {ok : Bool} (step : s.endNested ok = some s') : ∃ D L E, s'.Inv D L E := by
  unfold Session.endNested at step
  split at step
  · cases step
  rename_i a rest hn
  cases rest with
  | nil =>
    split at step
    · cases step
      exact ⟨_, _, _, inv.mergeBottom hn⟩
    · rename_i cp hcp
      split at step
      · cases step
        exact ⟨_, _, _, inv.mergeBottom hn⟩
      · cases step
        exact ⟨_, _, _, inv.rollBackBottom hn hcp⟩
  | cons b rest =>
    have logs := inv.logs
    rw [hn] at logs
    rw [logs.1.checkpoint] at step
    cases step
    exact ⟨_, _, _, inv.mergeInner hn⟩

/-! ## Runs on the root state -/

theorem Inv.read_root (inv : s.Inv D L E) (flat : s.nested = []) : read s.classMem s.rootClasses = some L := by
  have hr := inv.holder
  rwa [Session.holder, flat] at hr

/-- While nothing is nested, the shared classes can be taken to be all the root sees. -/
theorem Inv.flatten (inv : s.Inv D L E) (flat : s.nested = []) : s.Inv L L E :=
  { inv with
    rootKeeps := keeps_of_read (inv.read_root flat)
    nestedKeeps := fun a ha => by rw [flat] at ha; cases ha
    completed := fun d hd => (Grows.same rfl rfl rfl rfl).has inv.prefix_holder.subset
      (Subset.refl E) (inv.completed d hd)
    logs := by rw [flat]; trivial
    run := fun run hrun => (inv.run run hrun).grow (.same rfl rfl rfl rfl) inv.prefix_holder
      (prefix_refl E) }

/-- A run begins: everything completed so far is kept, and its checkpoint is the present. -/
theorem Inv.enter (inv : s.Inv L L E) (flat : s.nested = []) (known : Known E m) {E₀ : List LoadedModule}
    (repl : Bool) (classCount : cp.classCount = L.length)
    (functionCount : cp.functionCount = s.functions.length) (moduleCount : cp.moduleCount = E₀.length)
    (hE : E₀ <+: E) (completed : ∀ d ∈ s.kept ++ s.done, (s.tables L E₀).Has d)
    (module : ∀ m ∈ cp.module, Known E₀ m) :
    { s with rootModule := some m, run := some ⟨cp, repl⟩, kept := s.kept ++ s.done, done := [] }.Inv
      L L E :=
  { inv with
    rootModule := fun m' hm' => by rw [← some.inj hm']; exact known
    nestedKeeps := inv.nestedKeeps
    sees := fun a ha => by rw [flat] at ha; cases ha
    completed := fun d hd => inv.completed d (by simpa using hd)
    logs := by rw [flat]; trivial
    run := fun run hrun => by
      obtain rfl : (⟨cp, repl⟩ : TopRun) = run := some.inj hrun
      have takeE : E.take cp.moduleCount = E₀ := by
        rw [moduleCount]
        exact (prefix_iff_eq_take.mp hE).symm
      refine
        { classCount := classCount.le
          moduleCount := moduleCount.trans_le hE.length_le
          kept := fun d hd => (completed d hd).mono ?_ ?_ (Subset.refl _) ?_
          module := ?_ }
      · show L ⊆ L.take cp.classCount
        rw [classCount, take_length]
        exact Subset.refl L
      · show s.functions ⊆ s.functions.take cp.functionCount
        rw [functionCount, take_length]
        exact Subset.refl _
      · show E₀ ⊆ E.take cp.moduleCount
        rw [takeE]
        exact Subset.refl _
      · rw [takeE]; exact module }

theorem known_of_not_persistent {modules : List LoadedModule}
    (h : moduleHasPersistentFunctions m = false) : Known modules m := by
  refine .inr fun name persistent => ?_
  by_contra hfinds
  rw [Bool.not_eq_false] at hfinds
  obtain ⟨n, hn, heq⟩ := LoadedModule.finds_iff.mp hfinds
  have hany := List.any_eq_false.mp h n hn
  rw [isPersistentName_congr heq, persistent] at hany
  exact hany rfl

theorem Inv.beginRun (inv : s.Inv D L E) {repl : Bool}
    (step : s.beginRun m repl moved = some s') : ∃ D L E, s'.Inv D L E := by
  unfold Session.beginRun at step
  split at step
  · cases step
  rename_i busy
  have flat : s.nested = [] := by
    by_contra hne
    exact busy (.inl hne)
  have here := inv.flatten flat
  have hclasses : s.checkpointDefinitions.classCount = L.length := (read_length (inv.read_root flat)).symm
  have hmodules : s.checkpointDefinitions.moduleCount = E.length := (read_length inv.modules).symm
  split at step
  · rename_i retained
    split at step
    · rename_i valid
      cases step
      exact ⟨_, _, _, (here.retain moved flat valid).enter flat
        (.inl (mem_append_right _ (.head _))) repl hclasses rfl hmodules
        (prefix_append _ _) here.completed inv.rootModule⟩
    · cases step
  · rename_i retained
    cases step
    have unnamed : moduleHasPersistentFunctions m = false := by
      rw [Bool.or_eq_true, not_or, Bool.not_eq_true, Bool.not_eq_true] at retained
      exact retained.2
    exact ⟨_, _, _, here.enter flat (known_of_not_persistent unnamed) repl hclasses rfl hmodules
      (prefix_refl E) here.completed inv.rootModule⟩

theorem Inv.endRun (inv : s.Inv D L E) {ok : Bool} (step : s.endRun ok = some s') : ∃ D L E, s'.Inv D L E := by
  unfold Session.endRun at step
  split at step
  · cases step
  rename_i run hrun
  split at step
  · cases step
  rename_i busy
  have flat : s.nested = [] := by simpa using busy
  have runOk := inv.run run hrun
  split at step
  · cases step
    refine ⟨D, L, E, { inv with rootModule := ?_, sees := inv.sees, logs := ?_, run := ?_ }⟩
    · dsimp only
      split
      · exact inv.rootModule
      · exact fun _ hm => nomatch hm
    · dsimp only
      rw [flat]
      trivial
    · exact fun _ hrun => nomatch hrun
  · cases step
    have hread := inv.read_root flat
    have hL : run.checkpoint.classCount ≤ L.length := runOk.classCount.trans inv.prefix_holder.length_le
    have hread' := read_truncate hread (hL.trans_eq (read_length hread))
    have hD : D.take run.checkpoint.classCount <+: L.take run.checkpoint.classCount := inv.prefix_holder.take _
    refine ⟨D.take run.checkpoint.classCount, L.take run.checkpoint.classCount, E.take run.checkpoint.moduleCount,
      { inv with
        holder := ?_
        unique := Pairwise.sublist (take_sublist _ _) inv.unique
        rootKeeps := (keeps_of_read hread').mono hD
        nestedKeeps := ?_
        modules := read_truncate inv.modules (runOk.moduleCount.trans_eq (read_length inv.modules))
        apart := inv.apart.sublist (take_sublist _ _)
        functions := inv.functions.sublist (take_sublist _ _)
        functionsApart := fun f hf persistent m hm =>
          inv.functionsApart f (mem_of_mem_take hf) persistent m (mem_of_mem_take hm)
        rootModule := runOk.module
        sees := ?_
        completed := ?_
        logs := ?_
        run := fun _ hrun => nomatch hrun }⟩
    · simpa only [Session.holder, rollbackDefinitions, flat, getLast?_nil, map_none, getD_none] using hread'
    · intro a ha
      simp only [rollbackDefinitions, flat] at ha
      cases ha
    · intro a ha
      simp only [rollbackDefinitions, flat] at ha
      cases ha
    · intro d hd
      rcases mem_append.mp hd with hd | hd
      · exact runOk.kept d hd
      · obtain ⟨hd, hconst⟩ := mem_filter.mp hd
        cases d with
        | constant c => exact inv.completed (.constant c) (mem_append_right _ hd)
        | classEntry c => cases hconst
        | function f => cases hconst
        | module m => cases hconst
    · simp only [rollbackDefinitions, flat]
      trivial

theorem Inv.clearUserClasses (inv : s.Inv D L E) {reachable : List Nat}
    (step : s.clearUserClasses reachable = some s') : ∃ D L E, s'.Inv D L E := by
  unfold Session.clearUserClasses at step
  split at step
  · cases step
  rename_i busy
  rw [not_or, not_not, Bool.not_eq_true, isSome_eq_false_iff, isNone_iff_eq_none]
    at busy
  obtain ⟨flat, idle⟩ := busy
  have hread := read_compact (inv.read_root flat) (Session.survives reachable)
  cases step
  refine ⟨L.filter (Session.survives reachable), L.filter (Session.survives reachable), E,
    { inv with
      holder := ?_
      unique := Pairwise.sublist filter_sublist inv.unique
      rootKeeps := keeps_of_read hread
      nestedKeeps := fun a ha => by rw [flat] at ha; cases ha
      sees := fun a ha => by rw [flat] at ha; cases ha
      completed := ?_
      logs := by rw [flat]; trivial
      run := fun run hrun => by rw [idle] at hrun; cases hrun }⟩
  · simpa only [Session.holder, flat, getLast?_nil, map_none, getD_none] using hread
  · intro d hd
    rw [← filter_append] at hd
    obtain ⟨hd, alive⟩ := mem_filter.mp hd
    have has := inv.completed d hd
    cases d with
    | classEntry c => exact mem_filter.mpr ⟨inv.prefix_holder.subset has, alive⟩
    | function f => exact has
    | constant c => exact has
    | module m => exact has

/-! ## Every run -/

theorem Inv.step (inv : s.Inv D L E) {a : Action} (merges : s.Merges a)
    (step : s.step a = some s') : ∃ D L E, s'.Inv D L E := by
  cases a with
  | registerClass c moved => exact ⟨_, _, _, inv.registerClass merges step⟩
  | defineFunction f => exact ⟨_, _, _, inv.defineFunction step⟩
  | defineConstant c => exact ⟨_, _, _, inv.defineConstant step⟩
  | beginInclude m moved => exact ⟨_, _, _, inv.beginInclude merges step⟩
  | beginInvoke =>
    cases step
    refine ⟨_, _, _, inv.beginInvoke inv.sees_running inv.keeps_running inv.live_running ?_⟩
    intro flat
    rw [running, flat]
    rfl
  | beginDestructor =>
    cases step
    exact ⟨_, _, _, inv.beginInvoke inv.sees_root inv.rootKeeps merges fun _ => rfl⟩
  | failInclude => exact ⟨_, _, _, inv.failInclude step⟩
  | endNested ok => exact inv.endNested step
  | beginRun m repl moved => exact inv.beginRun step
  | endRun ok => exact inv.endRun step
  | clearUserClasses reachable => exact inv.clearUserClasses step

theorem inv_of_mergingSteps (run : Relation.ReflTransGen MergingStep init s) : ∃ D L E, s.Inv D L E := by
  induction run with
  | refl => exact ⟨[], [], [], inv_init⟩
  | tail _ last ih =>
    obtain ⟨D, L, E, inv⟩ := ih
    obtain ⟨a, merges, step⟩ := last
    exact inv.step merges step

/-- **Nested executions lose nothing** in any run whose classes are registered at most one level
deep, whose files are included by code on the root state, and whose destructors find the root's
class table alive. -/
theorem nothingLost_of_mergingSteps (run : Relation.ReflTransGen MergingStep init s) : s.NothingLost := by
  obtain ⟨D, L, E, inv⟩ := inv_of_mergingSteps run
  exact inv.nothingLost

/-! ## Two concrete runs -/

instance (s : Session) (a : Action) : Decidable (s.Merges a) := by
  cases a <;> simp only [Merges] <;> infer_instance

/-- Take the actions in turn while each is allowed. -/
def play (allowed : Session → Action → Bool) (s : Session) : List Action → Option Session
  | [] => some s
  | a :: rest => if allowed s a then (s.step a).bind fun s' => play allowed s' rest else none

theorem reaches_of_play {allowed : Session → Action → Bool} {R : Session → Session → Prop}
    (hR : ∀ s a s', allowed s a = true → s.step a = some s' → R s s') {actions : List Action} :
    ∀ {s s' : Session}, play allowed s actions = some s' → Relation.ReflTransGen R s s' := by
  induction actions with
  | nil =>
    intro s s' h
    cases h
    exact .refl
  | cons a rest ih =>
    intro s s' h
    unfold play at h
    split at h
    · rename_i ok
      obtain ⟨s₁, first, later⟩ := bind_eq_some_iff.mp h
      exact .head (hR s a s₁ ok first) (ih later)
    · cases h

/-- A script includes a file with a function and a class, and a destructor declares another. -/
def mergingActions : List Action :=
  [.beginRun ⟨[], 1⟩ false false, .beginInclude ⟨[ascii "helper"], 2⟩ false,
    .registerClass ⟨ascii "Shape", false, 1⟩ false, .endNested true, .beginDestructor,
    .registerClass ⟨ascii "Circle", false, 2⟩ false, .defineFunction ⟨ascii "area", ⟨[], 1⟩⟩, .endNested true]

def mergingSession : Session :=
  (play (fun s a => decide (s.Merges a)) init mergingActions).getD init

theorem nothingLost_mergingSession : mergingSession.completed.length = 4 ∧ mergingSession.NothingLost := by
  refine ⟨by decide +kernel, nothingLost_of_mergingSteps ?_⟩
  have played : play (fun s a => decide (s.Merges a)) init mergingActions = some mergingSession := by
    decide +kernel
  exact reaches_of_play (fun s a s' ok step => ⟨a, of_decide_eq_true ok, step⟩) played

/-- A script includes a file that includes a second one, which declares a function and a class. -/
def nestedIncludeActions : List Action :=
  [.beginRun ⟨[], 1⟩ false false, .beginInclude ⟨[], 2⟩ false, .beginInclude ⟨[ascii "helper"], 3⟩ false,
    .registerClass ⟨ascii "Shape", false, 1⟩ false, .endNested true]

/-- The session in which the first file resumes. -/
def nestedIncludeSession : Session := (play (fun _ _ => true) init nestedIncludeActions).getD init

/-- **A file included by an included file is lost to it**: neither its function nor its class is
visible when the first file goes on. -/
theorem nested_include_lost : ¬ ∀ s, Relation.ReflTransGen Step init s → s.NothingLost := by
  intro all
  have played : play (fun _ _ => true) init nestedIncludeActions = some nestedIncludeSession := by
    decide +kernel
  have reached : Relation.ReflTransGen Step init nestedIncludeSession :=
    reaches_of_play (fun s a s' _ step => ⟨a, step⟩) played
  have lost : ¬ nestedIncludeSession.NothingLost := by decide +kernel
  exact lost (all _ reached)

end Session
end PhpPico
