import Mathlib.Data.List.Nodup
import Mathlib.Tactic.Common

/-!
# Chains of linked cells

A chain follows from a head the link kept in each cell until the link says stop. The links are a function from cells,
so that one statement serves chains through an array, records of a heap or a memory of bytes.
-/

namespace Chain

variable {α : Type}

/-- Following the links from `head` visits exactly the cells of the list and then stops. -/
def Linked (next : α → α) (stop : α) : α → List α → Prop
  | head, [] => head = stop
  | head, i :: rest => head = i ∧ i ≠ stop ∧ Linked next stop (next i) rest

section Links
variable {next next' : α → α} {stop head : α} {l : List α}

@[simp] theorem linked_nil : Linked next stop head [] ↔ head = stop := Iff.rfl

@[simp] theorem linked_cons {i : α} :
    Linked next stop head (i :: l) ↔ head = i ∧ i ≠ stop ∧ Linked next stop (next i) l := Iff.rfl

/-- Only the links of the visited cells matter. -/
theorem Linked.congr (h : Linked next stop head l) (same : ∀ i ∈ l, next' i = next i) : Linked next' stop head l := by
  induction l generalizing head with
  | nil => exact h
  | cons j rest ih =>
    obtain ⟨hj, ne, tail⟩ := h
    refine ⟨hj, ne, ?_⟩
    rw [same j List.mem_cons_self]
    exact ih tail fun i hi => same i (.tail _ hi)

end Links

/-! ## Searching a chain -/

/-- Where a link is kept: at the head, or in a cell. -/
inductive Link (α : Type) where
  | head
  | after (cell : α)
  deriving DecidableEq

/-- Follow the links to the first cell that satisfies `p`, and say which link led to it. A walk
that uses up its fuel has not ended. -/
def seek [DecidableEq α] (next : α → α) (stop : α) (p : α → Bool) : Nat → Link α → α → Option (Option (α × Link α))
  | 0, _, _ => none
  | fuel + 1, link, i =>
    if i = stop then some none
    else if p i then some (some (i, link))
    else seek next stop p fuel (.after i) (next i)

/-- The first cell of a list that satisfies `p`, with the link in front of it. -/
def locate (p : α → Bool) : Link α → List α → Option (α × Link α)
  | _, [] => none
  | link, i :: rest => if p i then some (i, link) else locate p (.after i) rest

section Search
variable {next : α → α} {stop head : α} {l : List α} {p : α → Bool}

/-- **With more fuel than cells the walk ends**, and finds what the list holds. -/
theorem Linked.seek_eq [DecidableEq α] (h : Linked next stop head l) {fuel : Nat} (enough : l.length < fuel)
    (link : Link α) : seek next stop p fuel link head = some (locate p link l) := by
  induction l generalizing head fuel link with
  | nil =>
    obtain ⟨n, rfl⟩ := Nat.exists_eq_succ_of_ne_zero (Nat.ne_zero_of_lt enough)
    have e : head = stop := h
    simp [seek, locate, e]
  | cons i rest ih =>
    obtain ⟨hi, ne, tail⟩ := h
    subst hi
    obtain ⟨n, rfl⟩ := Nat.exists_eq_succ_of_ne_zero (Nat.ne_zero_of_lt enough)
    simp only [seek, locate, if_neg ne]
    by_cases hp : p head = true
    · simp only [hp, if_true]
    · simp only [hp, if_false, Bool.false_eq_true]
      exact ih tail (by simpa using enough) (.after head)

theorem locate_eq_none {link : Link α} (h : locate p link l = none) : ∀ i ∈ l, p i = false := by
  induction l generalizing link with
  | nil => intro i hi; cases hi
  | cons j rest ih =>
    intro i hi
    simp only [locate] at h
    by_cases hp : p j = true
    · simp [hp] at h
    · rw [if_neg hp] at h
      rcases List.mem_cons.mp hi with rfl | hi
      · simpa using hp
      · exact ih h i hi

/-- What is found is a cell of the list that satisfies `p`. -/
theorem locate_mem {link link' : Link α} {i : α} (h : locate p link l = some (i, link')) : i ∈ l ∧ p i = true := by
  induction l generalizing link with
  | nil => cases h
  | cons j rest ih =>
    simp only [locate] at h
    by_cases hp : p j = true
    · rw [if_pos hp] at h
      cases h
      exact ⟨.head _, hp⟩
    · rw [if_neg hp] at h
      have ⟨hm, hpi⟩ := ih h
      exact ⟨.tail _ hm, hpi⟩

/-- The link that led to a cell is kept at the head or in another cell of the list. -/
theorem locate_link {link link' : Link α} {i : α} (h : locate p link l = some (i, link')) :
    link' = link ∨ ∃ j ∈ l, link' = .after j := by
  induction l generalizing link with
  | nil => cases h
  | cons j rest ih =>
    simp only [locate] at h
    by_cases hp : p j = true
    · rw [if_pos hp] at h
      cases h
      exact .inl rfl
    · rw [if_neg hp] at h
      rcases ih h with e | ⟨k, hk, e⟩
      · exact .inr ⟨j, .head _, e⟩
      · exact .inr ⟨k, .tail _ hk, e⟩

end Search

/-! ## Taking a cell out -/

section Unlink
variable [DecidableEq α] {next : α → α} {stop head : α} {l : List α} {p : α → Bool}

/-- The links with the one kept at `link` changed to `target`. -/
def redirect (next : α → α) (link : Link α) (target : α) : α → α :=
  fun j => if link = .after j then target else next j

/-- The head with the link kept there changed. -/
def redirectHead (head : α) (link : Link α) (target : α) : α :=
  if link = .head then target else head

@[simp] theorem redirectHead_head (target : α) : redirectHead head .head target = target := by
  simp [redirectHead]

@[simp] theorem redirectHead_after (j target : α) : redirectHead head (.after j) target = head := by
  simp [redirectHead]

theorem redirect_of_not_mem {link : Link α} {target : α}
    (away : ∀ j ∈ l, link ≠ .after j) : ∀ j ∈ l, redirect next link target j = next j := by
  intro j hj
  simp [redirect, away j hj]

/-- **Taking a cell out of a chain** by pointing the link that led to it past it leaves the chain
of the other cells. -/
theorem Linked.unlink (h : Linked next stop head l) (distinct : l.Nodup) {i : α} {link : Link α}
    (found : locate p .head l = some (i, link)) :
    Linked (redirect next link (next i)) stop (redirectHead head link (next i)) (l.erase i) := by
  -- the walk has passed `j`, whose link points at the cells still to be searched
  have inner : ∀ (j : α) (rest : List α), (j :: rest).Nodup → Linked next stop (next j) rest →
      locate p (.after j) rest = some (i, link) →
      Linked (redirect next link (next i)) stop (redirect next link (next i) j) (rest.erase i) := by
    intro j rest
    induction rest generalizing j with
    | nil => intro _ _ hf; cases hf
    | cons k rest ih =>
      intro nodup linked hf
      obtain ⟨hk, ne, tail⟩ := linked
      obtain ⟨hj, nodup'⟩ := List.nodup_cons.mp nodup
      have hk' : k ∉ rest := (List.nodup_cons.mp nodup').1
      simp only [locate] at hf
      by_cases hp : p k = true
      · rw [if_pos hp] at hf
        cases hf
        have away : ∀ m ∈ rest, redirect next (.after j) (next i) m = next m := by
          refine redirect_of_not_mem fun m hm e => hj ?_
          cases e
          exact .tail _ hm
        simpa [redirect] using tail.congr away
      · rw [if_neg hp] at hf
        have hi : i ∈ rest := (locate_mem hf).1
        have ki : k ≠ i := fun e => hk' (e ▸ hi)
        have stays : redirect next link (next i) j = k := by
          have : link ≠ .after j := by
            rcases locate_link hf with e | ⟨m, hm, e⟩
            · rw [e]; intro c; cases c; exact hj (.head _)
            · rw [e]; intro c; cases c; exact hj (.tail _ hm)
          simp [redirect, this, hk]
        rw [List.erase_cons_tail (by simpa using ki)]
        exact ⟨stays, ne, ih k nodup' tail hf⟩
  cases l with
  | nil => cases found
  | cons j rest =>
    obtain ⟨hj, ne, tail⟩ := h
    subst hj
    simp only [locate] at found
    by_cases hp : p head = true
    · rw [if_pos hp] at found
      cases found
      have away : ∀ m ∈ rest, redirect next .head (next head) m = next m := redirect_of_not_mem fun m _ e => by cases e
      simpa using tail.congr away
    · rw [if_neg hp] at found
      have hh : head ∉ rest := (List.nodup_cons.mp distinct).1
      have hi : i ∈ rest := (locate_mem found).1
      have hi' : head ≠ i := fun e => hh (e ▸ hi)
      have kept : redirectHead head link (next i) = head := by
        rcases locate_link found with e | ⟨m, -, e⟩ <;> simp [e]
      rw [List.erase_cons_tail (by simpa using hi'), kept]
      exact ⟨rfl, ne, inner head rest distinct tail found⟩

end Unlink

/-! ## Doubly linked chains -/

/-- Following `next` from `head` visits the cells of the list, each of which links back to the one
before it, the first to `back`; it ends before `head'`, having come from `back'`. -/
def Segment (next prev : α → α) (stop : α) : α → α → List α → α → α → Prop
  | back, head, [], back', head' => back' = back ∧ head' = head
  | back, head, i :: rest, back', head' =>
    head = i ∧ i ≠ stop ∧ prev i = back ∧ Segment next prev stop i (next i) rest back' head'

section Segments
variable {next prev next' prev' : α → α} {stop back head back' head' : α} {l pre post : List α}

theorem Segment.congr (h : Segment next prev stop back head l back' head')
    (same : ∀ i ∈ l, next' i = next i ∧ prev' i = prev i) : Segment next' prev' stop back head l back' head' := by
  induction l generalizing back head with
  | nil => exact h
  | cons i rest ih =>
    obtain ⟨hi, ne, hp, tail⟩ := h
    obtain ⟨n, p⟩ := same i (.head _)
    refine ⟨hi, ne, p.trans hp, ?_⟩
    rw [n]
    exact ih tail fun j hj => same j (.tail _ hj)

theorem Segment.linked (h : Segment next prev stop back head l back' stop) : Linked next stop head l := by
  induction l generalizing back head with
  | nil => exact h.2.symm
  | cons i rest ih =>
    obtain ⟨hi, ne, -, tail⟩ := h
    exact ⟨hi, ne, ih tail⟩

theorem segment_append {back'' head'' : α} : Segment next prev stop back head (pre ++ post) back'' head'' ↔
      ∃ back' head', Segment next prev stop back head pre back' head' ∧
        Segment next prev stop back' head' post back'' head'' := by
  induction pre generalizing back head with
  | nil =>
    constructor
    · intro h
      exact ⟨back, head, ⟨rfl, rfl⟩, h⟩
    · rintro ⟨_, _, ⟨rfl, rfl⟩, h⟩
      exact h
  | cons i rest ih =>
    constructor
    · rintro ⟨hi, ne, hp, tail⟩
      obtain ⟨b, c, first, second⟩ := ih.mp tail
      exact ⟨b, c, ⟨hi, ne, hp, first⟩, second⟩
    · rintro ⟨b, c, ⟨hi, ne, hp, first⟩, second⟩
      exact ⟨hi, ne, hp, ih.mpr ⟨b, c, first, second⟩⟩

/-- Where a segment ends up: where it began if it is empty, in its last cell otherwise. -/
theorem Segment.back_eq (h : Segment next prev stop back head l back' head') :
    (l = [] ∧ back' = back ∧ head' = head) ∨ (back' ∈ l ∧ back' ≠ stop ∧ next back' = head') := by
  induction l generalizing back head with
  | nil => exact .inl ⟨rfl, h⟩
  | cons i rest ih =>
    obtain ⟨-, ne, -, tail⟩ := h
    rcases ih tail with ⟨-, eb, eh⟩ | ⟨mem, ne', last⟩
    · subst eb
      exact .inr ⟨.head _, ne, eh.symm⟩
    · exact .inr ⟨.tail _ mem, ne', last⟩

/-- The neighbours of a cell are the end of the chain or cells on its two sides. -/
theorem Segment.neighbours {x : α} (h : Segment next prev stop stop head (pre ++ x :: post) back' stop) :
    (prev x = stop ∨ prev x ∈ pre) ∧ (next x = stop ∨ next x ∈ post) := by
  obtain ⟨b, c, first, hx, -, hp, second⟩ := segment_append.mp h
  subst hx
  constructor
  · rcases first.back_eq with ⟨-, eb, -⟩ | ⟨mem, -⟩
    · exact .inl (hp.trans eb)
    · exact .inr (hp ▸ mem)
  · cases post with
    | nil => exact .inl second.2.symm
    | cons k rest => exact .inr (second.1 ▸ (.head _))

variable [DecidableEq α]

theorem Segment.relink_last (h : Segment next prev stop back head l back' head') (distinct : l.Nodup) (target : α) :
    Segment (fun j => if l ≠ [] ∧ j = back' then target else next j) prev stop back
      (if l = [] then target else head) l back' target := by
  induction l generalizing back head with
  | nil => exact ⟨h.1, by simp⟩
  | cons i rest ih =>
    obtain ⟨hi, ne, hp, tail⟩ := h
    obtain ⟨fresh, distinct'⟩ := List.nodup_cons.mp distinct
    refine ⟨by simpa using hi, ne, hp, ?_⟩
    have step := ih tail distinct'
    cases rest with
    | nil =>
      obtain ⟨eb, -⟩ := tail
      subst eb
      exact ⟨rfl, by simp⟩
    | cons k rest =>
      have mem : back' ∈ k :: rest := by
        rcases tail.back_eq with ⟨c, -⟩ | ⟨mem, -⟩
        · cases c
        · exact mem
      have differs : i ≠ back' := fun e => fresh (e ▸ mem)
      simp only [ne_eq, reduceCtorEq, not_false_eq_true, true_and, if_false, if_neg differs] at step ⊢
      exact step

theorem Segment.relink_first (h : Segment next prev stop back head l back' stop) (distinct : l.Nodup) (target : α) :
    ∃ back'', Segment next (fun j => if head ≠ stop ∧ j = head then target else prev j) stop target
      head l back'' stop := by
  cases l with
  | nil => exact ⟨target, rfl, h.2⟩
  | cons i rest =>
    obtain ⟨hi, ne, -, tail⟩ := h
    subst hi
    obtain ⟨fresh, -⟩ := List.nodup_cons.mp distinct
    refine ⟨back', rfl, ne, by simp [ne], tail.congr fun j hj => ⟨rfl, ?_⟩⟩
    have differs : j ≠ head := fun e => fresh (e ▸ hj)
    simp [differs]

/-- **Unlinking a cell of a doubly linked chain** through its two neighbours. -/
theorem Segment.unlink {x : α} (h : Segment next prev stop stop head (pre ++ x :: post) back' stop)
    (distinct : (pre ++ x :: post).Nodup) : ∃ back'', Segment
      (fun j => if prev x ≠ stop ∧ j = prev x then next x else next j)
      (fun j => if next x ≠ stop ∧ j = next x then prev x else prev j) stop stop
      (if prev x = stop then next x else head) (pre ++ post) back'' stop := by
  obtain ⟨b, c, first, hx, ne, hp, second⟩ := segment_append.mp h
  subst hx
  have apart := List.disjoint_of_nodup_append distinct
  have distinct_pre := (List.nodup_append.mp distinct).1
  have distinct_post := (List.nodup_cons.mp (List.nodup_append.mp distinct).2.1).2
  have first_is : (pre = [] ∧ prev c = stop) ∨ (pre ≠ [] ∧ prev c ∈ pre ∧ prev c ≠ stop) := by
    rcases first.back_eq with ⟨e, eb, -⟩ | ⟨mem, ne', -⟩
    · exact .inl ⟨e, hp.trans eb⟩
    · rw [← hp] at mem ne'
      exact .inr ⟨List.ne_nil_of_mem mem, mem, ne'⟩
  have second_is : next c = stop ∨ next c ∈ post := by
    cases post with
    | nil => exact .inl second.2.symm
    | cons k rest => exact .inr (second.1 ▸ (.head _))
  obtain ⟨b', second'⟩ := second.relink_first distinct_post (prev c)
  refine ⟨b', segment_append.mpr ⟨prev c, next c, ?_, ?_⟩⟩
  · have relinked := first.relink_last distinct_pre (next c)
    rw [← hp] at relinked
    have heads : (if prev c = stop then next c else head) = if pre = [] then next c else head := by
      rcases first_is with ⟨e, s⟩ | ⟨e, -, s⟩ <;> simp [e, s]
    rw [heads]
    refine relinked.congr fun j hj => ⟨?_, ?_⟩
    · rcases first_is with ⟨e, s⟩ | ⟨e, -, s⟩
      · rw [e] at hj; cases hj
      · simp [e, s]
    · have differs : ¬ (next c ≠ stop ∧ j = next c) := by
        rintro ⟨ns, rfl⟩
        rcases second_is with s | mem
        · exact ns s
        · exact apart hj (.tail _ mem)
      exact if_neg differs
  · refine second'.congr fun j hj => ⟨?_, rfl⟩
    have differs : ¬ (prev c ≠ stop ∧ j = prev c) := by
      rintro ⟨ns, rfl⟩
      rcases first_is with ⟨-, s⟩ | ⟨-, mem, -⟩
      · exact ns s
      · exact apart mem (.tail _ hj)
    exact if_neg differs

/-- Putting a new cell in front of a doubly linked chain. -/
theorem Segment.push {x : α} (h : Segment next prev stop stop head l back' stop) (distinct : l.Nodup)
    (fresh : x ∉ l) (ne : x ≠ stop) : ∃ back'', Segment (fun j => if j = x then head else next j)
      (fun j => if head ≠ stop ∧ j = head then x else if j = x then stop else prev j) stop stop x
      (x :: l) back'' stop := by
  obtain ⟨b, h'⟩ := h.relink_first distinct x
  have head_is : head ≠ stop → head ∈ l := by
    intro ns
    cases l with
    | nil => exact absurd h.2.symm ns
    | cons k rest => exact h.1 ▸ (.head _)
  refine ⟨b, rfl, ne, ?_, ?_⟩
  · have differs : ¬ (head ≠ stop ∧ x = head) := fun ⟨ns, e⟩ => fresh (e ▸ head_is ns)
    simp [differs]
  · simp only [if_true]
    refine h'.congr fun j hj => ?_
    have differs : j ≠ x := fun e => fresh (e ▸ hj)
    simp [differs]

end Segments

end Chain
