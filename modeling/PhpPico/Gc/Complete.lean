import PhpPico.Gc.Account

/-!
# What a collection reclaims

Values that nothing outside refers to are reclaimed when a candidate among them leads to all and the nodes have room,
unless a count among them is stuck or gets stuck when the collector itself retains the value.
-/

namespace PhpPico.Gc
open List

/-! ## Discovery with room -/

/-- What is discovered when there is room for it. -/
inductive Found (s : Gc) : Nat → Prop
  | candidate {a : Nat} (listed : a ∈ s.candidates) : Found s a
  | child {a c : Nat} (parent : Found s a) (refers : c ∈ s.containerChildren a) : Found s c

/-- All that is discovered fits into the table of nodes. -/
def Fits (s : Gc) : Prop := ∃ l : List Nat, l.length ≤ 256 ∧ ∀ a, Found s a → a ∈ l

section Discovery
variable {children : Nat → List Nat} {P : Nat → Prop} {nodes : List Nat}

/-- Nodes, no one twice, that are all as `P` says. -/
structure NodesOf (P : Nat → Prop) (nodes : List Nat) : Prop where
  nodup : nodes.Nodup
  all : ∀ a ∈ nodes, P a

/-- There is room for all that are as `P` says. -/
def Room (P : Nat → Prop) : Prop := ∀ l, NodesOf P l → l.length ≤ 256

theorem discoverChild_spec (room : Room P) (h : NodesOf P nodes) {c : Nat} (good : P c) :
    NodesOf P (discoverChild nodes c) ∧ nodes <+: discoverChild nodes c ∧ c ∈ discoverChild nodes c := by
  unfold discoverChild
  by_cases known : c ∈ nodes
  · rw [if_neg fun new => new.1 known]
    exact ⟨h, prefix_refl _, known⟩
  · have longer : NodesOf P (nodes ++ [c]) := by
      refine ⟨nodup_append.mpr ⟨h.nodup, pairwise_singleton _ c, fun x hx y hy same => ?_⟩, fun x hx => ?_⟩
      · rw [mem_singleton.mp hy] at same
        exact known (same ▸ hx)
      · rcases mem_append.mp hx with hx | hx
        · exact h.all x hx
        · rw [mem_singleton.mp hx]
          exact good
    have within := room _ longer
    rw [length_append, length_singleton] at within
    rw [if_pos ⟨known, by omega⟩]
    exact ⟨longer, prefix_append _ _, mem_append_right _ (.head _)⟩

theorem discoverChildren_spec (room : Room P) (l : List Nat) (h : NodesOf P nodes) (good : ∀ c ∈ l, P c) :
    NodesOf P (l.foldl discoverChild nodes) ∧ nodes <+: l.foldl discoverChild nodes ∧
      l ⊆ l.foldl discoverChild nodes := by
  induction l generalizing nodes with
  | nil => exact ⟨h, prefix_refl _, nil_subset _⟩
  | cons c rest ih =>
    obtain ⟨first, kept, inside⟩ := discoverChild_spec room h (good c (.head _))
    obtain ⟨last, kept', inside'⟩ := ih first fun d hd => good d (mem_cons_of_mem c hd)
    rw [foldl_cons]
    exact ⟨last, kept.trans kept', cons_subset.mpr ⟨kept'.subset inside, inside'⟩⟩

/-- **With room, discovery is complete**: the children of all nodes are nodes. The nodes before the `i`-th have been
visited. -/
theorem discoverFrom_closed (child : ∀ a, P a → ∀ c ∈ children a, P c) (room : Room P) (rounds i : Nat)
    (enough : 256 ≤ i + rounds) (h : NodesOf P nodes)
    (visited : ∀ j < i, ∀ a, nodes[j]? = some a → children a ⊆ nodes) : nodes <+: discoverFrom children rounds i nodes ∧
      ∀ a ∈ discoverFrom children rounds i nodes, children a ⊆ discoverFrom children rounds i nodes := by
  induction rounds generalizing i nodes with
  | zero =>
    refine ⟨prefix_refl _, fun a (ha : a ∈ nodes) => ?_⟩
    obtain ⟨j, lt, at_j⟩ := getElem_of_mem ha
    have few := room nodes h
    exact visited j (by omega) a (List.getElem?_eq_some_iff.mpr ⟨lt, at_j⟩)
  | succ rounds ih =>
    rw [discoverFrom]
    cases at_i : nodes[i]? with
    | none =>
      have beyond := List.getElem?_eq_none_iff.mp at_i
      refine ⟨prefix_refl _, fun a (ha : a ∈ nodes) => ?_⟩
      obtain ⟨j, lt, at_j⟩ := getElem_of_mem ha
      exact visited j (by omega) a (List.getElem?_eq_some_iff.mpr ⟨lt, at_j⟩)
    | some a =>
      obtain ⟨more, kept, inside⟩ :=
        discoverChildren_spec room (children a) h (child a (h.all a (mem_of_getElem? at_i)))
      obtain ⟨kept', closed⟩ := ih (i + 1) (by omega) more fun j before b at_j => by
        have lt : j < nodes.length := by
          have := (List.getElem?_eq_some_iff.mp at_i).1
          omega
        have at_j : nodes[j]? = some b := by
          obtain ⟨behind, same⟩ := kept
          rw [← at_j, ← same, getElem?_append_left lt]
        rcases Nat.lt_succ_iff_lt_or_eq.mp before with before | rfl
        · exact fun c hc => kept.subset (visited j before b at_j hc)
        · rw [at_i] at at_j
          cases at_j
          exact inside
      exact ⟨kept.trans kept', closed⟩

end Discovery

/-! ## What nothing outside refers to -/

/-- Exact counts: each counts all references to the value, stuck ones too. Strings and resources hold nothing. -/
structure Exact (s : Gc) (roots : Nat → Nat) : Prop where
  sound : Sound s roots
  counts : ∀ a, s.rc a = roots a + s.refs a
  leaves : ∀ a v, s.value a = some v → v.isContainer = false → v.slots = []

/-- No reference from outside: neither from outside the heap nor from a value that is no member. -/
structure Detached (s : Gc) (roots : Nat → Nat) (members : Set Nat) : Prop where
  no_root : ∀ a ∈ members, roots a = 0
  no_holder : ∀ b v, s.value b = some v → b ∉ members → ∀ a ∈ members, a ∉ v.children

/-- A value leads to what can be reached from it. -/
inductive Leads (s : Gc) (m : Nat) : Nat → Prop
  | self : Leads s m m
  | slot {a c : Nat} {v : HeapValue} (parent : Leads s m a) (at_a : s.value a = some v) (refers : c ∈ v.children) :
      Leads s m c

/-- A value whose count is not stuck, nor gets stuck when the collector retains it. -/
def Releasable (s : Gc) (a : Nat) : Prop :=
  ∀ v, s.value a = some v → v.refcnt < if v.isContainer then 65534 else 65535

/-- The value has been freed once, and each reference in its slots has been released once. -/
structure Reclaimed (s : Gc) (t : Logged) (a : Nat) : Prop where
  gone : t.gc.value a = none
  freed : t.events.count (.freed a) = 1
  dropped : ∀ y, t.events.count (.dropped a y) = s.held a y

section Members
variable {s : Gc} {roots : Nat → Nat} {members : Set Nat} {m a b : Nat} {v : HeapValue}

theorem discovered_found (fits : Fits s) (h : Sound s roots) (found : Found s a) : a ∈ s.discovered := by
  obtain ⟨l, few, inside⟩ := fits
  have room : Room (Found s) := by
    intro nodes h
    have sub : nodes ⊆ l := fun x hx => inside x (h.all x hx)
    exact le_trans (subperm_of_subset h.nodup sub).length_le few
  obtain ⟨kept, closed⟩ := discoverFrom_closed (fun _ found _ refers => .child found refers) room 256 0 le_rfl
    ⟨h.buffer.nodup, fun _ listed => .candidate listed⟩ fun j before => absurd before (Nat.not_lt_zero j)
  induction found with
  | candidate listed => exact kept.subset listed
  | child _ refers ih => exact closed _ ih refers

theorem Exact.container_of_child (h : Exact s roots) (at_a : s.value a = some v) (refers : b ∈ v.children) :
    v.isContainer = true := by
  by_contra leaf
  have slots := h.leaves a v at_a (Bool.eq_false_iff.mpr leaf)
  rw [HeapValue.children, slots] at refers
  cases refers

theorem Detached.holder (h : Detached s roots members) (ha : a ∈ members) (at_b : s.value b = some v)
    (refers : a ∈ v.children) : b ∈ members := by
  by_contra outside
  exact h.no_holder b v at_b outside a ha refers

theorem leads_alive (h : Exact s roots) (listed : m ∈ s.candidates) (leads : Leads s m a) : s.rc a ≠ 0 := by
  induction leads with
  | self =>
    obtain ⟨v, at_m, on⟩ := (h.sound.buffer.listed m).mp listed
    rw [rc_of_value at_m]
    exact (h.sound.buffer.real m v at_m on).1
  | slot parent at_a refers ih => exact h.sound.counted.rc_ne_zero at_a ih refers

theorem leads_found (h : Exact s roots) (detached : Detached s roots members) (listed : m ∈ s.candidates)
    (leads : Leads s m a) (ha : a ∈ members) (at_a : s.value a = some v) (container : v.isContainer = true) :
    Found s a := by
  induction leads generalizing v with
  | self => exact .candidate listed
  | slot parent at_p refers ih =>
    have found := ih (detached.holder ha at_p refers) at_p (h.container_of_child at_p refers)
    exact .child found (mem_containerChildren.mpr ⟨_, at_p, refers, v, at_a, container⟩)

theorem refs_le_sum {l : List Nat} {x : Nat} (holders : ∀ b v, s.value b = some v → refersTo (some v) x ≠ 0 → b ∈ l) :
    s.refs x ≤ (l.map fun b => refersTo (s.value b) x).sum := by
  induction l generalizing s with
  | nil =>
    refine le_of_eq (sum_eq_zero fun n hn => ?_)
    obtain ⟨o, ho, rfl⟩ := List.mem_map.mp hn
    cases o with
    | none => rfl
    | some v =>
      obtain ⟨b, lt, at_index⟩ := getElem_of_mem ho
      have at_b : s.value b = some v := value_eq_some.mpr (List.getElem?_eq_some_iff.mpr ⟨lt, at_index⟩)
      by_contra refers
      cases holders b v at_b refers
  | cons b rest ih =>
    have without : ∀ {s' : Gc}, s'.value b = none → (∀ c, c ≠ b → s'.value c = s.value c) →
        s'.refs x ≤ (rest.map fun c => refersTo (s.value c) x).sum := by
      intro s' gone others
      refine le_trans (ih fun c v at_c refers => ?_) (sum_le_sum fun c _ => ?_)
      · have ne : c ≠ b := by
          rintro rfl
          rw [gone] at at_c
          cases at_c
        rw [others c ne] at at_c
        exact (mem_cons.mp (holders c v at_c refers)).resolve_left ne
      · by_cases ne : c = b
        · rw [ne, gone]
          exact Nat.zero_le _
        · rw [others c ne]
    rw [map_cons, sum_cons]
    cases at_b : s.value b with
    | none => exact le_trans (without at_b fun _ _ => rfl) (Nat.le_add_left _ _)
    | some v =>
      have refs := refs_free at_b x
      have below := without (value_free_self (s := s) (a := b)) fun c ne => value_free_ne (Ne.symm ne)
      omega

/-- **Members are garbage**: all that refers to one is among the nodes and no more anchored than it is. -/
theorem member_garbage (h : Exact s roots) (detached : Detached s roots members) (listed : m ∈ s.candidates)
    (leads : ∀ a ∈ members, Leads s m a) (fits : Fits s) (ha : a ∈ members) (at_a : s.value a = some v)
    (container : v.isContainer = true) : a ∈ s.garbage := by
  have node : ∀ {b w}, b ∈ members → s.value b = some w → w.isContainer = true → b ∈ s.discovered :=
    fun hb at_b container => discovered_found fits h.sound (leads_found h detached listed (leads _ hb) hb at_b container)
  refine mem_garbage.mpr ⟨node ha at_a container, fun anchored => ?_⟩
  have outside : ∀ {b}, Anchored s.containerChildren s.rc s.discovered b → b ∉ members := by
    intro b anchored
    induction anchored with
    | @held b is_node counted =>
      intro hb
      obtain ⟨w, at_w, container_w⟩ := ((discovered_containers h.sound).2 b is_node).2
      have all := refs_le_sum (s := s) (l := s.discovered) fun c u at_c refers => by
        simp only [refersTo, Option.elim_some] at refers
        split at refers
        · exact absurd rfl refers
        · have child := count_pos_iff.mp (pos_of_ne_zero refers)
          exact node (detached.holder hb at_c child) at_c (h.container_of_child at_c child)
      have inside : (s.discovered.map fun c => refersTo (s.value c) b).sum ≤
          internalRefs s.containerChildren s.discovered b := sum_le_sum fun c _ => by
        unfold containerChildren refersTo
        cases s.value c with
        | none => exact Nat.zero_le _
        | some u =>
          simp only [Option.elim_some]
          split
          · exact Nat.zero_le _
          · rw [count_filter (by rw [at_w]; exact container_w)]
      have exact_b := h.counts b
      rw [detached.no_root b hb] at exact_b
      omega
    | child parent refers is_node ih =>
      intro hc
      obtain ⟨u, at_p, refers, -⟩ := mem_containerChildren.mp refers
      exact ih (detached.holder hc at_p refers)
  exact outside anchored ha

/-- **A member is freed** if and only if its count can be released. -/
theorem member_freed_iff (h : Exact s roots) (detached : Detached s roots members)
    (garbage : ∀ a ∈ members, ∀ v, s.value a = some v → v.isContainer = true → a ∈ s.garbage)
    (some_left : s.candidates ≠ []) (ha : a ∈ members) (alive : s.rc a ≠ 0) {s' : Gc} {n : Nat}
    (run : s.collect = some (s', n)) : s'.value a = none ↔ Releasable s a := by
  obtain ⟨v, at_a, some_rc⟩ := exists_value alive
  obtain ⟨before, s'', run', value, evolves, counted, -, empty⟩ := collect_spec h.sound some_left
  rw [run] at run'
  cases run'
  -- the count that the references are taken from
  have rc_before : before.rc a =
      if v.isContainer = true then if v.refcnt = 65535 then v.refcnt else v.refcnt + 1 else v.refcnt := by
    by_cases container : v.isContainer = true
    · rw [if_pos container]
      have at_before : before.value a = some (condemned { v with buffered := false }) := by
        rw [value, if_pos (garbage a ha v at_a container), at_a]
        rfl
      exact (rc_of_value at_before).trans (condemned_spec _).2.2.2.2
    · rw [if_neg container]
      have no_node : a ∉ s.garbage := by
        intro node
        obtain ⟨w, at_w, container'⟩ := ((discovered_containers h.sound).2 a (mem_garbage.mp node).1).2
        rw [at_a] at at_w
        cases at_w
        exact container container'
      have at_before : before.value a = some { v with buffered := false } := by
        rw [value, if_neg no_node, at_a]
        rfl
      exact (rc_of_value at_before).trans rfl
  have small : Releasable s a ↔ v.refcnt < if v.isContainer then 65534 else 65535 := by
    refine ⟨fun releasable => releasable v at_a, fun small w at_w => ?_⟩
    rw [at_a] at at_w
    cases at_w
    exact small
  have narrow := h.sound.narrow a
  rw [rc_of_value at_a] at narrow
  rw [small]
  constructor
  · intro gone
    by_contra large
    have stuck : before.rc a = 65535 := by
      rw [rc_before]
      split_ifs at large ⊢ <;> omega
    have full := evolves.stuck a stuck
    rw [rc_of_none gone] at full
    cases full
  · intro small
    -- who holds it afterwards
    have no_refs : s'.refs a = 0 := by
      refine sum_eq_zero fun n hn => ?_
      obtain ⟨o, ho, rfl⟩ := List.mem_map.mp hn
      cases o with
      | none => rfl
      | some w =>
        obtain ⟨b, lt, at_index⟩ := getElem_of_mem ho
        have at_b : s'.value b = some w := value_eq_some.mpr (List.getElem?_eq_some_iff.mpr ⟨lt, at_index⟩)
        simp only [refersTo, Option.elim_some]
        split
        · rfl
        refine count_eq_zero.mpr fun refers => ?_
        by_cases hb : b ∈ s.garbage
        · rw [empty b hb w at_b] at refers
          cases refers
        · obtain ⟨w₁, at_b₁, later⟩ := evolves.later b w at_b
          rw [value, if_neg hb] at at_b₁
          obtain ⟨w₀, at_b₀, rfl⟩ := Option.map_eq_some_iff.mp at_b₁
          have refers₀ : a ∈ w₀.children := later.children refers
          exact hb (garbage b (detached.holder ha at_b₀ refers₀) w₀ at_b₀ (h.container_of_child at_b₀ refers₀))
    have le := evolves.rc_le a
    rw [rc_before] at le
    have zero : s'.rc a = 0 := by
      rcases counted a with full | count
      · split_ifs at small le <;> omega
      · rw [no_refs, detached.no_root a ha] at count
        exact count
    refine evolves.gone a ?_ zero
    rw [rc_before]
    split_ifs <;> omega

/-- **A collection reclaims** a set of values that nothing outside refers to, one of which is a candidate and leads
to all of them, if and only if every count in it can be released. -/
theorem collect_reclaims_iff (h : Exact s roots) (detached : Detached s roots members)
    (listed : m ∈ s.candidates) (leads : ∀ a ∈ members, Leads s m a) (fits : Fits s) :
    ∃ t n, Logged.collect ⟨s, []⟩ = some (t, n) ∧ s.collect = some (t.gc, n) ∧ t.gc.Counted roots [] ∧
      ((∀ a ∈ members, Reclaimed s t a) ↔ ∀ a ∈ members, Releasable s a) := by
  have some_left : s.candidates ≠ [] := ne_nil_of_mem listed
  obtain ⟨before, s', run, -, -, counted, -, -⟩ := collect_spec h.sound some_left
  have erased := Logged.collect_gc ⟨s, []⟩
  rw [run] at erased
  obtain ⟨⟨t, n⟩, logged, same⟩ := Option.map_eq_some_iff.mp erased
  cases same
  have garbage : ∀ a ∈ members, ∀ v, s.value a = some v → v.isContainer = true → a ∈ s.garbage :=
    fun a ha v at_a container => member_garbage h detached listed leads fits ha at_a container
  have freed : ∀ a ∈ members, (t.gc.value a = none ↔ Releasable s a) := fun a ha =>
    member_freed_iff h detached garbage some_left ha (leads_alive h listed (leads a ha)) run
  have balanced := balanced_collect logged
  refine ⟨t, s.garbage.length, logged, run, counted, ?_⟩
  constructor
  · exact fun reclaimed a ha => (freed a ha).mp (reclaimed a ha).gone
  · intro releasable a ha
    have gone := (freed a ha).mpr (releasable a ha)
    obtain ⟨v, at_a, -⟩ := exists_value (leads_alive h listed (leads a ha))
    refine ⟨gone, ?_, fun y => ?_⟩
    · have once := balanced.freed a
      rw [present, present, gone, at_a] at once
      exact once
    · have each := balanced.dropped a y
      rw [held, gone] at each
      have nothing : (Logged.mk s []).events.count (.dropped a y) = 0 := rfl
      rw [nothing, zero_add] at each
      exact each

end Members

/-! ## An object that a list in it holds -/

/-- An object whose property is an array that holds it `n` times; nothing else refers to either. -/
def listedInItself (n : Nat) : Gc where
  heap := [
    some ⟨.object, n, true, false, false, [.ref 1]⟩, some ⟨.array, 1, false, false, false, replicate n (.ref 0)⟩]
  candidates := [0]
  requested := false

theorem listedInItself_value {n a : Nat} {v : HeapValue} (h : (listedInItself n).value a = some v) :
    a = 0 ∧ v = ⟨.object, n, true, false, false, [.ref 1]⟩ ∨
      a = 1 ∧ v = ⟨.array, 1, false, false, false, replicate n (.ref 0)⟩ := by
  have lt := lt_of_value h
  have two : (listedInItself n).heap.length = 2 := rfl
  obtain rfl | rfl : a = 0 ∨ a = 1 := by omega
  · cases h
    exact .inl ⟨rfl, rfl⟩
  · cases h
    exact .inr ⟨rfl, rfl⟩

theorem listedInItself_refs {n : Nat} (some_held : 0 < n) (a : Nat) :
    (listedInItself n).refs a = [1].count a + (replicate n 0).count a := by
  have one : Slot.target (.ref 0) = some 0 := rfl
  have copies : (replicate n (Slot.ref 0)).filterMap Slot.target = replicate n 0 := filterMap_replicate_of_some one
  simp only [Gc.refs, listedInItself, map_cons, map_nil, sum_cons, sum_nil, refersTo,
    Option.elim_some, HeapValue.children, copies, if_neg (Nat.pos_iff_ne_zero.mp some_held), if_neg Nat.one_ne_zero,
    add_zero]
  rfl

theorem listedInItself_exact {n : Nat} (some_held : 0 < n) (narrow : n ≤ 65535) :
    Exact (listedInItself n) fun _ => 0 := by
  have counts : ∀ a, (listedInItself n).rc a = 0 + (listedInItself n).refs a := by
    intro a
    rw [listedInItself_refs some_held, count_replicate, zero_add]
    rcases a with _ | _ | a
    · exact (zero_add n).symm
    · rfl
    · rfl
  have buffer : (listedInItself n).BufferOk := by
    refine ⟨pairwise_singleton _ 0, Nat.le_of_ble_eq_true rfl, fun a => ⟨fun ha => ?_, ?_⟩, fun a v at_a on => ?_⟩
    · rw [mem_singleton.mp ha]
      exact ⟨_, rfl, rfl⟩
    · rintro ⟨v, at_a, on⟩
      rcases listedInItself_value at_a with ⟨rfl, -⟩ | ⟨-, rfl⟩
      · exact mem_singleton_self 0
      · cases on
    · rcases listedInItself_value at_a with ⟨-, rfl⟩ | ⟨-, rfl⟩
      · exact ⟨Nat.pos_iff_ne_zero.mp some_held, rfl⟩
      · cases on
  have narrow_all : ∀ a, (listedInItself n).rc a ≤ 65535 := by
    intro a
    cases at_a : (listedInItself n).value a with
    | none =>
      rw [rc_of_none at_a]
      exact Nat.zero_le _
    | some v =>
      rw [rc_of_value at_a]
      rcases listedInItself_value at_a with ⟨-, rfl⟩ | ⟨-, rfl⟩
      · exact narrow
      · exact Nat.le_of_ble_eq_true rfl
  refine ⟨⟨fun a => .inr (counts a), buffer, narrow_all, fun a v at_a => ?_⟩, counts, fun a v at_a leaf => ?_⟩
  · rcases listedInItself_value at_a with ⟨-, rfl⟩ | ⟨-, rfl⟩ <;> rfl
  · rcases listedInItself_value at_a with ⟨-, rfl⟩ | ⟨-, rfl⟩ <;> cases leaf

/-- The two values. -/
def bothValues : Set Nat := fun a => a = 0 ∨ a = 1

theorem listedInItself_both {n a : Nat} {v : HeapValue} (h : (listedInItself n).value a = some v) : a ∈ bothValues :=
  (listedInItself_value h).imp And.left And.left

theorem listedInItself_fits (n : Nat) : Fits (listedInItself n) := by
  refine ⟨[0, 1], Nat.le_of_ble_eq_true rfl, fun a found => ?_⟩
  have both : a ∈ bothValues := by
    cases found with
    | candidate listed => exact .inl (mem_singleton.mp listed)
    | child _ refers =>
      obtain ⟨_, -, -, w, at_a, -⟩ := mem_containerChildren.mp refers
      exact listedInItself_both at_a
  rcases both with rfl | rfl
  · exact .head _
  · exact mem_cons_of_mem 0 (.head _)

theorem listedInItself_detached (n : Nat) : Detached (listedInItself n) (fun _ => 0) bothValues :=
  ⟨fun _ _ => rfl, fun _ _ at_b outside => absurd (listedInItself_both at_b) outside⟩

theorem listedInItself_leads (n : Nat) : ∀ a ∈ bothValues, Leads (listedInItself n) 0 a := by
  rintro a (rfl | rfl)
  · exact .self
  · exact .slot .self rfl (.head _)

/-- An object that is listed in itself twice is reclaimed if its count can be released. -/
theorem collect_reclaims_iff_twice :
    ∃ t n, Logged.collect ⟨listedInItself 2, []⟩ = some (t, n) ∧ (listedInItself 2).collect = some (t.gc, n) ∧
      t.gc.Counted (fun _ => 0) [] ∧
      ((∀ a ∈ bothValues, Reclaimed (listedInItself 2) t a) ↔ ∀ a ∈ bothValues, Releasable (listedInItself 2) a) :=
  collect_reclaims_iff (listedInItself_exact Nat.two_pos (Nat.le_of_ble_eq_true rfl)) (listedInItself_detached 2)
    (.head _) (listedInItself_leads 2) (listedInItself_fits 2)

/-- An object that is listed in itself 65534 times is not reclaimed. -/
theorem crowded_object_stays : ¬ ∀ (s : Gc) (roots : Nat → Nat) (members : Set Nat) (m : Nat) (t : Logged) (n : Nat),
    Exact s roots → Detached s roots members → m ∈ members → m ∈ s.candidates → (∀ a ∈ members, Leads s m a) →
    Fits s → Logged.collect ⟨s, []⟩ = some (t, n) → ∀ a ∈ members, Reclaimed s t a := by
  intro claimed
  have some_held : 0 < 65534 := Nat.le_of_ble_eq_true rfl
  have exact_counts := listedInItself_exact some_held (Nat.le_of_ble_eq_true rfl)
  have detached := listedInItself_detached 65534
  have leads := listedInItself_leads 65534
  have fits := listedInItself_fits 65534
  have listed : 0 ∈ (listedInItself 65534).candidates := .head _
  have member : 0 ∈ bothValues := .inl rfl
  have at_zero : (listedInItself 65534).value 0 = some _ := rfl
  have is_garbage := member_garbage exact_counts detached listed leads fits member at_zero rfl
  obtain ⟨before, s', run, -⟩ := collect_spec exact_counts.sound (ne_nil_of_mem listed)
  have large : 65534 ≤ (listedInItself 65534).rc 0 := le_refl 65534
  obtain ⟨v, stays, -⟩ := stuck_garbage exact_counts.sound (ne_nil_of_mem listed) is_garbage large run
  have erased := Logged.collect_gc ⟨listedInItself 65534, []⟩
  rw [run] at erased
  obtain ⟨⟨t, n⟩, logged, same⟩ := Option.map_eq_some_iff.mp erased
  have reclaimed := claimed _ _ _ 0 t n exact_counts detached member listed leads fits logged 0 member
  have heap : t.gc = s' := congrArg Prod.fst same
  have gone := reclaimed.gone
  rw [heap, stays] at gone
  cases gone

end PhpPico.Gc
