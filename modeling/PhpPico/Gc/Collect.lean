import PhpPico.Gc.Release

/-!
# The cycle collector

`pphp_gc_collect` discovers up to 256 containers from the candidates, takes the references between them off their
counts, marks what is left with a count and what that reaches, and destroys the others.
-/

namespace PhpPico.Gc
open List

/-- The containers the slots of a value refer to. -/
def containerChildren (s : Gc) (a : Nat) : List Nat :=
  match s.value a with
  | none => []
  | some v => v.children.filter fun c => (s.value c).any HeapValue.isContainer

section Discovery
variable (children : Nat → List Nat)

/-- `discover_child`. -/
def discoverChild (nodes : List Nat) (c : Nat) : List Nat :=
  if c ∉ nodes ∧ nodes.length < 256 then nodes ++ [c] else nodes

/-- The loop that visits the nodes from the `i`-th on, with those that it adds. -/
def discoverFrom : Nat → Nat → List Nat → List Nat
  | 0, _, nodes => nodes
  | rounds + 1, i, nodes =>
    match nodes[i]? with
    | none => nodes
    | some a => discoverFrom rounds (i + 1) ((children a).foldl discoverChild nodes)

/-- The references to a node from nodes. -/
def internalRefs (nodes : List Nat) (a : Nat) : Nat := (nodes.map fun b => (children b).count a).sum

/-- `external_refs`: what is left of a count when it is lowered, to 0 at least, for each reference
from a node. -/
def externalRefs (rc : Nat → Nat) (nodes : List Nat) (a : Nat) : Nat := rc a - internalRefs children nodes a

/-- `mark_reachable_child`. -/
def markChild (nodes marked : List Nat) (c : Nat) : List Nat :=
  if c ∈ nodes ∧ c ∉ marked then marked ++ [c] else marked

/-- Mark the children of a node that is marked. -/
def markFrom (nodes marked : List Nat) (a : Nat) : List Nat :=
  if a ∈ marked then (children a).foldl (markChild nodes) marked else marked

/-- The loop that marks until nothing changes. -/
def markAll (nodes : List Nat) : Nat → List Nat → List Nat
  | 0, marked => marked
  | rounds + 1, marked =>
    let marked' := nodes.foldl (markFrom children nodes) marked
    if marked'.length = marked.length then marked' else markAll nodes rounds marked'

/-- The nodes that are marked in the end. -/
def marks (rc : Nat → Nat) (nodes : List Nat) : List Nat :=
  markAll children nodes (nodes.length + 1) (nodes.filter fun a => externalRefs children rc nodes a ≠ 0)

end Discovery

/-- The nodes of a collection. -/
def discovered (s : Gc) : List Nat := discoverFrom s.containerChildren 256 0 s.candidates

/-- Change a value. -/
def update (f : HeapValue → HeapValue) (s : Gc) (a : Nat) : Gc :=
  match s.value a with
  | none => s
  | some v => s.put a (f v)

/-- Take all candidates out of the buffer. -/
def clearBuffer (s : Gc) : Gc :=
  { s.candidates.foldl (update fun v => { v with buffered := false }) s with
    candidates := []
    requested := false }

/-- A node that is to be destroyed is flagged and retained. -/
def condemned (v : HeapValue) : HeapValue := HeapValue.retained { v with collecting := true }

/-- `release_child` of the `i`-th slot. -/
def releaseSlot (rounds : Nat) (a : Nat) (s : Gc) (i : Nat) : Option Gc :=
  match s.value a with
  | none => none
  | some v =>
    match v.slots[i]? with
    | none => some s
    | some (.ref c) => release rounds (s.put a { v with slots := v.slots.set i .null }) c
    | some _ => some (s.put a { v with slots := v.slots.set i .null })

/-- `visit_children` with `release_child`. -/
def releaseSlots (rounds : Nat) (s : Gc) (a : Nat) : Option Gc :=
  match s.value a with
  | none => none
  | some v => (List.range v.slots.length).foldlM (releaseSlot rounds a) s

/-- `pphp_gc_collect`, with the number of values it destroyed; nothing when a freed value is read.
-/
def collect (s : Gc) : Option (Gc × Nat) :=
  if s.candidates = [] then some (s, 0)
  else do
    let nodes := discoverFrom s.clearBuffer.containerChildren 256 0 s.candidates
    let marked := marks s.clearBuffer.containerChildren s.clearBuffer.rc nodes
    let garbage := nodes.filter fun a => a ∉ marked
    let s := garbage.foldl (update condemned) s.clearBuffer
    let s ← garbage.foldlM (releaseSlots (s.heap.length + 1)) s
    let s ← garbage.foldlM (release (s.heap.length + 1)) s
    return (s, garbage.length)

/-! ## What is discovered and marked -/

theorem mem_containerChildren {s : Gc} {a c : Nat} : c ∈ s.containerChildren a ↔
    ∃ v, s.value a = some v ∧ c ∈ v.children ∧ ∃ w, s.value c = some w ∧ w.isContainer = true := by
  unfold containerChildren
  cases at_a : s.value a with
  | none => simp
  | some v => simp [mem_filter, Option.any_eq_true]

section Marks
variable {children : Nat → List Nat} {rc : Nat → Nat} {nodes marked : List Nat} {a c : Nat}

variable {P : Nat → Prop} {m : List Nat}

theorem discoverFrom_all (child : ∀ a, P a → ∀ c ∈ children a, P c) (rounds i : Nat)
    (all : ∀ a ∈ nodes, P a) : ∀ a ∈ discoverFrom children rounds i nodes, P a := by
  induction rounds generalizing i nodes with
  | zero => exact all
  | succ rounds ih =>
    rw [discoverFrom]
    cases at_i : nodes[i]? with
    | none => exact all
    | some a =>
      -- one child after the other
      have visited : ∀ (l nodes : List Nat), (∀ c ∈ l, P c) → (∀ a ∈ nodes, P a) →
          ∀ a ∈ l.foldl discoverChild nodes, P a := by
        intro l
        induction l with
        | nil => exact fun nodes _ all => all
        | cons c rest ih' =>
          intro nodes those all
          rw [foldl_cons]
          apply ih' _ fun d hd => those d (mem_cons_of_mem c hd)
          unfold discoverChild
          split
          · intro x hx
            rcases mem_append.mp hx with hx | hx
            · exact all x hx
            · rw [mem_singleton.mp hx]
              exact those c (.head _)
          · exact all
      exact ih (i + 1) (visited (children a) nodes (child a (all a (mem_of_getElem? at_i))) all)

theorem discoverFrom_nodup (rounds i : Nat) (nodup : nodes.Nodup) : (discoverFrom children rounds i nodes).Nodup := by
  induction rounds generalizing i nodes with
  | zero => exact nodup
  | succ rounds ih =>
    rw [discoverFrom]
    cases at_i : nodes[i]? with
    | none => exact nodup
    | some a =>
      have visited : ∀ (l nodes : List Nat), nodes.Nodup → (l.foldl discoverChild nodes).Nodup := by
        intro l
        induction l with
        | nil => exact fun nodes nodup => nodup
        | cons c rest ih' =>
          intro nodes nodup
          rw [foldl_cons]
          apply ih'
          unfold discoverChild
          split
          · next new =>
            refine nodup_append.mpr ⟨nodup, pairwise_singleton _ c, fun x hx y hy e => ?_⟩
            rw [mem_singleton.mp hy] at e
            exact new.1 (e ▸ hx)
          · exact nodup
      exact ih (i + 1) (visited (children a) nodes nodup)

/-- A node with a reference from outside the nodes that its count knows of, or a child of such. -/
inductive Anchored (children : Nat → List Nat) (rc : Nat → Nat) (nodes : List Nat) : Nat → Prop
  | held {a : Nat} (node : a ∈ nodes) (counted : internalRefs children nodes a < rc a) : Anchored children rc nodes a
  | child {a c : Nat} (parent : Anchored children rc nodes a) (refers : c ∈ children a) (node : c ∈ nodes) :
      Anchored children rc nodes c

/-- Marking only adds nodes, and only what it is made for. -/
structure Marks (P : Nat → Prop) (nodes marked marked' : List Nat) : Prop where
  keeps : marked <+: marked'
  nodup : marked.Nodup → marked'.Nodup
  nodes : marked ⊆ nodes → marked' ⊆ nodes
  sound : (∀ a ∈ marked, P a) → ∀ a ∈ marked', P a
  grows : marked'.length ≠ marked.length → ∃ c ∈ marked', c ∉ marked

theorem Marks.refl (P : Nat → Prop) (nodes marked : List Nat) : Marks P nodes marked marked :=
  ⟨prefix_refl _, id, id, id, fun h => absurd rfl h⟩

theorem Marks.trans {m' m'' : List Nat} (h : Marks P nodes m m') (h' : Marks P nodes m' m'') : Marks P nodes m m'' := by
  refine ⟨h.keeps.trans h'.keeps, h'.nodup ∘ h.nodup, h'.nodes ∘ h.nodes, h'.sound ∘ h.sound, fun longer => ?_⟩
  by_cases first : m'.length = m.length
  · have same : m = m' := h.keeps.eq_of_length first.symm
    subst same
    exact h'.grows longer
  · obtain ⟨c, hc, new⟩ := h.grows first
    exact ⟨c, h'.keeps.subset hc, new⟩

theorem marks_foldl {β : Type} {step : List Nat → β → List Nat} {l : List β}
    (one : ∀ b ∈ l, ∀ m, (∀ a ∈ m, P a) → Marks P nodes m (step m b)) (m : List Nat) (sound : ∀ a ∈ m, P a) :
    Marks P nodes m (l.foldl step m) := by
  induction l generalizing m with
  | nil => exact Marks.refl P nodes m
  | cons b rest ih =>
    have first := one b (.head _) m sound
    exact first.trans (ih (fun b hb => one b (.tail _ hb)) _ (first.sound sound))

theorem marks_child (m : List Nat) (good : c ∈ nodes → P c) : Marks P nodes m (markChild nodes m c) := by
  unfold markChild
  split
  · next new =>
    refine ⟨prefix_append _ _, fun nodup => ?_, fun sub => ?_, fun sound a ha => ?_, fun _ => ?_⟩
    · refine nodup_append.mpr ⟨nodup, pairwise_singleton _ c, fun x hx y hy e => ?_⟩
      rw [mem_singleton.mp hy] at e
      exact new.2 (e ▸ hx)
    · exact append_subset.mpr ⟨sub, cons_subset.mpr ⟨new.1, nil_subset _⟩⟩
    · rcases mem_append.mp ha with ha | ha
      · exact sound a ha
      · rw [mem_singleton.mp ha]
        exact good new.1
    · exact ⟨c, mem_append_right _ (.head _), new.2⟩
  · exact Marks.refl P nodes m

theorem marks_from (child : ∀ a, P a → ∀ c ∈ children a, c ∈ nodes → P c) (m : List Nat) (sound : ∀ a ∈ m, P a)
    (a : Nat) : Marks P nodes m (markFrom children nodes m a) := by
  unfold markFrom
  split
  · next on => exact marks_foldl (fun c hc m _ => marks_child m (child a (sound a on) c hc)) m sound
  · exact Marks.refl P nodes m

theorem mem_foldl_markChild {l : List Nat} (hc : c ∈ l) (node : c ∈ nodes) : c ∈ l.foldl (markChild nodes) m := by
  induction l generalizing m with
  | nil => cases hc
  | cons d rest ih =>
    rw [foldl_cons]
    rcases mem_cons.mp hc with rfl | hc
    · have now : c ∈ markChild nodes m c := by
        unfold markChild
        by_cases on : c ∈ m
        · rw [if_neg fun h => h.2 on]
          exact on
        · rw [if_pos ⟨node, on⟩]
          exact mem_append_right _ (.head _)
      have grows : Marks (fun _ => True) nodes (markChild nodes m c)
          (rest.foldl (markChild nodes) (markChild nodes m c)) :=
        marks_foldl (fun d _ m _ => marks_child m fun _ => trivial) _ fun _ _ => trivial
      exact grows.keeps.subset now
    · exact ih hc

theorem mem_round {l : List Nat} (on : a ∈ m) (listed : a ∈ l) (hc : c ∈ children a) (node : c ∈ nodes) :
    c ∈ l.foldl (markFrom children nodes) m := by
  induction l generalizing m with
  | nil => cases listed
  | cons b rest ih =>
    have one : ∀ (l m : List Nat), Marks (fun _ => True) nodes m (l.foldl (markFrom children nodes) m) :=
      fun l m => marks_foldl (fun b _ m _ => marks_from (fun _ _ _ _ _ => trivial) m (fun _ _ => trivial) b) m
        fun _ _ => trivial
    rw [foldl_cons]
    rcases mem_cons.mp listed with rfl | listed
    · have now : c ∈ markFrom children nodes m a := by
        unfold markFrom
        rw [if_pos on]
        exact mem_foldl_markChild hc node
      exact (one rest _).keeps.subset now
    · exact ih ((one [b] m).keeps.subset on) listed

theorem unmarked_lt {m' : List Nat} (h : Marks P nodes m m') (sub : m ⊆ nodes) (grew : m'.length ≠ m.length) :
    (nodes.filter fun a => a ∉ m').length < (nodes.filter fun a => a ∉ m).length := by
  obtain ⟨c, hc, new⟩ := h.grows grew
  have both : (nodes.filter fun a => a ∉ m') = (nodes.filter fun a => a ∉ m).filter fun a => a ∉ m' := by
    rw [List.filter_filter]
    refine filter_congr fun a _ => ?_
    by_cases on : a ∈ m
    · simp only [h.keeps.subset on, on, not_true_eq_false, decide_false, Bool.and_self]
    · simp only [on, not_false_eq_true, decide_true, Bool.and_true]
  rw [both]
  apply length_filter_lt_length_iff_exists.mpr
  refine ⟨c, mem_filter.mpr ⟨h.nodes sub hc, decide_eq_true new⟩, ?_⟩
  simp only [hc, not_true_eq_false, decide_false, Bool.false_eq_true, not_false_eq_true]

/-- **Marking ends**, and then every child of a marked node is marked. -/
theorem markAll_closed (children : Nat → List Nat) {rounds : Nat} (sub : marked ⊆ nodes)
    (enough : (nodes.filter fun a => a ∉ marked).length < rounds) : marked ⊆ markAll children nodes rounds marked ∧
      ∀ a ∈ markAll children nodes rounds marked, ∀ c ∈ children a, c ∈ nodes →
        c ∈ markAll children nodes rounds marked := by
  induction rounds generalizing marked with
  | zero => cases enough
  | succ rounds ih =>
    have round : Marks (fun _ => True) nodes marked (nodes.foldl (markFrom children nodes) marked) :=
      marks_foldl (fun b _ m _ => marks_from (fun _ _ _ _ _ => trivial) m (fun _ _ => trivial) b) marked
        fun _ _ => trivial
    rw [markAll]
    split
    · next same =>
      have eq := round.keeps.eq_of_length same.symm
      refine ⟨round.keeps.subset, fun a ha c hc node => ?_⟩
      rw [← eq] at ha
      exact mem_round ha (sub ha) hc node
    · next grew =>
      have fewer := unmarked_lt round sub grew
      obtain ⟨keeps, closed⟩ := ih (round.nodes sub) (by omega)
      exact ⟨List.Subset.trans round.keeps.subset keeps, closed⟩

theorem markAll_sound (child : ∀ a, P a → ∀ c ∈ children a, c ∈ nodes → P c) (rounds : Nat)
    (sound : ∀ a ∈ marked, P a) : ∀ a ∈ markAll children nodes rounds marked, P a := by
  induction rounds generalizing marked with
  | zero => exact sound
  | succ rounds ih =>
    have round : Marks P nodes marked (nodes.foldl (markFrom children nodes) marked) :=
      marks_foldl (fun b _ m sound => marks_from child m sound b) marked sound
    rw [markAll]
    split
    · exact round.sound sound
    · exact ih (round.sound sound)

/-- **The marked nodes** are the anchored ones. -/
theorem mem_marks : a ∈ marks children rc nodes ↔ Anchored children rc nodes a := by
  have first : ∀ b, b ∈ nodes.filter (fun b => externalRefs children rc nodes b ≠ 0) ↔
      b ∈ nodes ∧ internalRefs children nodes b < rc b := by
    intro b
    rw [mem_filter, decide_eq_true_eq, externalRefs]
    exact and_congr_right fun _ => by omega
  constructor
  · refine markAll_sound (P := Anchored children rc nodes) ?_ _ ?_ a
    · exact fun b anchored c hc node => .child anchored hc node
    · intro b hb
      obtain ⟨node, counted⟩ := (first b).mp hb
      exact .held node counted
  · have sub : nodes.filter (fun b => externalRefs children rc nodes b ≠ 0) ⊆ nodes := List.filter_sublist.subset
    obtain ⟨keeps, closed⟩ := markAll_closed children sub (Nat.lt_succ_of_le (length_filter_le _ _))
    intro anchored
    induction anchored with
    | held node counted => exact keeps ((first _).mpr ⟨node, counted⟩)
    | child parent refers node ih => exact closed _ ih _ refers node

end Marks

end PhpPico.Gc
