import Mathlib.Data.List.Count
import Mathlib.Tactic.Common

/-!
# Counted arrays that are copied before they are written

Arrays live in a heap, each with a count of the references to it, which sticks at a limit. What holds values outside
the heap are the roots. A count that is never below the number of references tells when an array may be written where
it is: whoever does not refer to it reads on what it read before.
-/

namespace CopyOnWrite
open List

inductive Value (D : Type) where
  | data (d : D)
  | array (a : Nat)
deriving DecidableEq, Repr

structure Cell (C : Type) where
  refcnt : Nat
  content : C
deriving DecidableEq, Repr

/-- The arrays, `none` once they are freed. -/
abbrev Heap (C : Type) := List (Option (Cell C))

variable {C D K : Type}

def cellAt (h : Heap C) (a : Nat) : Option (Cell C) := (h[a]?).join

def put (h : Heap C) (a : Nat) (cell : Cell C) : Heap C := h.set a (some cell)

def refersTo (a : Nat) : Value D → Bool
  | .data _ => false
  | .array b => b == a

/-- How many of the values refer to an array. -/
def count (a : Nat) (values : List (Value D)) : Nat := values.countP (refersTo a)

@[simp] theorem count_nil (a : Nat) : count a ([] : List (Value D)) = 0 := rfl

@[simp] theorem count_cons_data (a : Nat) (d : D) (values : List (Value D)) :
    count a (.data d :: values) = count a values := by simp [count, refersTo]

theorem count_cons_array (a b : Nat) (values : List (Value D)) :
    count a (.array b :: values) = count a values + if b = a then 1 else 0 := by
  simp [count, countP_cons, refersTo]

theorem count_cons (a : Nat) (v : Value D) (values : List (Value D)) :
    count a (v :: values) = count a [v] + count a values := by
  rw [count, countP_cons, count, countP_cons, countP_nil, count]
  omega

@[simp] theorem count_append (a : Nat) (l m : List (Value D)) : count a (l ++ m) = count a l + count a m :=
  countP_append

theorem count_pos {a : Nat} {values : List (Value D)} (h : .array a ∈ values) : 0 < count a values :=
  countP_pos_iff.mpr ⟨_, h, beq_self_eq_true a⟩

section Operations
variable (limit : Nat) (entries : C → List (K × Value D))

def values (c : C) : List (Value D) := (entries c).map Prod.snd

/-- One more reference. -/
def retain (h : Heap C) : Value D → Heap C
  | .data _ => h
  | .array a =>
    match cellAt h a with
    | none => h
    | some cell => if cell.refcnt = limit then h else put h a { cell with refcnt := cell.refcnt + 1 }

def retainAll (h : Heap C) (vs : List (Value D)) : Heap C := vs.foldl (retain limit) h

/-- One reference less: the last one frees the array, and leaves what was in it to be released. -/
def release (h : Heap C) (a : Nat) : Heap C × List (Value D) :=
  match cellAt h a with
  | none => (h, [])
  | some cell =>
    if cell.refcnt = limit ∨ cell.refcnt = 0 then (h, [])
    else if cell.refcnt = 1 then (h.set a none, values entries cell.content)
    else (put h a { cell with refcnt := cell.refcnt - 1 }, [])

/-- A new array with one reference. -/
def alloc (h : Heap C) (c : C) : Heap C := h ++ [some ⟨1, c⟩]

/-- An array gets another content. -/
def overwrite (h : Heap C) (a : Nat) (c : C) : Heap C :=
  match cellAt h a with
  | none => h
  | some cell => put h a { cell with content := c }

def rc (h : Heap C) (a : Nat) : Nat := (cellAt h a).elim 0 Cell.refcnt

/-- What is in an array, nothing once it is freed. -/
def valuesIn (o : Option (Cell C)) : List (Value D) := o.elim [] fun cell => values entries cell.content

/-- How many entries refer to an array. -/
def inside (h : Heap C) (a : Nat) : Nat := count a (h.flatMap (valuesIn entries))

/-- **The counts are high enough** for the references from roots and from entries. -/
def Counted (h : Heap C) (roots : Nat → Nat) : Prop :=
  ∀ a, rc h a = limit ∨ roots a + inside entries h a ≤ rc h a

end Operations

/-! ## Cells -/

section Cells
variable {limit : Nat} {entries : C → List (K × Value D)} {h : Heap C} {a b : Nat} {cell : Cell C} {v : Value D}

theorem cellAt_eq_some : cellAt h a = some cell ↔ h[a]? = some (some cell) := by
  rw [cellAt]
  cases h[a]? with
  | none => simp
  | some o => simp

theorem cellAt_lt (found : cellAt h a = some cell) : a < h.length :=
  (List.getElem?_eq_some_iff.mp (cellAt_eq_some.mp found)).1

theorem cellAt_set (inside_heap : a < h.length) (o : Option (Cell C)) :
    cellAt (h.set a o) b = if b = a then o else cellAt h b := by
  rw [cellAt, getElem?_set]
  by_cases same : a = b
  · subst same
    rw [if_pos rfl, if_pos inside_heap, if_pos rfl]
    rfl
  · rw [if_neg same, if_neg (Ne.symm same), cellAt]

theorem cellAt_put (found : cellAt h a = some cell) (new : Cell C) :
    cellAt (put h a new) b = if b = a then some new else cellAt h b := cellAt_set (cellAt_lt found) _

theorem cellAt_alloc (c : C) : cellAt (alloc h c) b = if b = h.length then some ⟨1, c⟩ else cellAt h b := by
  rw [cellAt, alloc, cellAt]
  rcases Nat.lt_trichotomy b h.length with old | rfl | beyond
  · rw [if_neg (by omega), getElem?_append_left old]
  · rw [if_pos rfl, getElem?_append_right (Nat.le_refl _), Nat.sub_self]
    rfl
  · rw [if_neg (by omega), getElem?_eq_none (by rw [length_append]; simp; omega), getElem?_eq_none (by omega)]

theorem rc_of_none (absent : cellAt h a = none) : rc h a = 0 := by rw [rc, absent]; rfl

theorem rc_of_some (found : cellAt h a = some cell) : rc h a = cell.refcnt := by rw [rc, found]; rfl

theorem rc_put (found : cellAt h a = some cell) (new : Cell C) :
    rc (put h a new) b = if b = a then new.refcnt else rc h b := by
  rw [rc, cellAt_put found]
  split
  · rfl
  · rfl

theorem count_flatMap_set {α : Type} {l : List α} {i : Nat} {x : α} (f : α → List (Value D)) (at_i : l[i]? = some x)
    (y : α) : count a ((l.set i y).flatMap f) + count a (f x) = count a (l.flatMap f) + count a (f y) := by
  induction l generalizing i with
  | nil => cases at_i
  | cons z rest ih =>
    cases i with
    | zero =>
      cases at_i
      simp only [set_cons_zero, flatMap_cons, count_append]
      omega
    | succ i =>
      have later := ih at_i
      simp only [set_cons_succ, flatMap_cons, count_append]
      omega

theorem inside_set (entries : C → List (K × Value D)) (b : Nat) (found : cellAt h a = some cell) (o : Option (Cell C)) :
    inside entries (h.set a o) b + count b (values entries cell.content) =
      inside entries h b + count b (valuesIn entries o) :=
  count_flatMap_set (valuesIn entries) (cellAt_eq_some.mp found) o

/-- A new count changes no entry. -/
theorem inside_recount (found : cellAt h a = some cell) (n : Nat) :
    inside entries (put h a { cell with refcnt := n }) b = inside entries h b := by
  have moved := inside_set entries b found (some { cell with refcnt := n })
  have same : count b (valuesIn entries (some { cell with refcnt := n })) = count b (values entries cell.content) := rfl
  rw [put]
  omega

theorem inside_alloc (c : C) : inside entries (alloc h c) b = inside entries h b + count b (values entries c) := by
  rw [inside, alloc, flatMap_append, count_append, flatMap_singleton]
  rfl

theorem le_inside (entries : C → List (K × Value D)) (b : Nat) (found : cellAt h a = some cell) :
    count b (values entries cell.content) ≤ inside entries h b := by
  have moved := inside_set entries b found none
  have nothing : count b (valuesIn entries (none : Option (Cell C))) = 0 := rfl
  omega

end Cells

/-! ## Counting -/

section Counting
variable {limit : Nat} {entries : C → List (K × Value D)} {h : Heap C} {roots : Nat → Nat} {a b : Nat} {cell : Cell C}
  {v : Value D}

/-- What a value refers to has not been freed. -/
def Live (h : Heap C) (v : Value D) : Prop := ∀ a, v = .array a → ∃ cell, cellAt h a = some cell

theorem Counted.mono {roots' : Nat → Nat} (counted : Counted limit entries h roots) (le : ∀ a, roots' a ≤ roots a) :
    Counted limit entries h roots' := by
  intro a
  have := le a
  rcases counted a with stuck | enough
  · exact .inl stuck
  · exact .inr (by omega)

theorem Counted.found (counted : Counted limit entries h roots) (positive : 0 < limit)
    (referred : 0 < roots a + inside entries h a) : ∃ cell, cellAt h a = some cell := by
  cases at_a : cellAt h a with
  | some cell => exact ⟨cell, rfl⟩
  | none =>
    rcases counted a with stuck | enough
    · rw [rc_of_none at_a] at stuck
      omega
    · rw [rc_of_none at_a] at enough
      omega

theorem Counted.live_entry (counted : Counted limit entries h roots) (positive : 0 < limit)
    (found : cellAt h a = some cell) (mem : v ∈ values entries cell.content) : Live h v := by
  rintro b rfl
  have := count_pos mem
  have := le_inside entries b found
  exact counted.found positive (by omega)

theorem counted_retain (counted : Counted limit entries h roots) (live : Live h v) :
    Counted limit entries (retain limit h v) fun a => roots a + count a [v] := by
  cases v with
  | data d => exact counted
  | array b =>
    obtain ⟨cell, found⟩ := live b rfl
    intro a
    have before := counted a
    simp only [retain, found, count_cons_array, count_nil]
    split
    · rename_i stuck
      by_cases same : b = a
      · subst same
        exact .inl ((rc_of_some found).trans stuck)
      · rw [if_neg same]
        exact before
    · rw [rc_put found, inside_recount found]
      by_cases same : b = a
      · subst same
        rw [rc_of_some found] at before
        rw [if_pos rfl, if_pos rfl]
        rename_i free
        exact .inr (by have := before.resolve_left free; simp only; omega)
      · rw [if_neg (Ne.symm same), if_neg same]
        exact before

theorem Live.retain {w : Value D} (live : Live h v) : Live (retain limit h w) v := by
  rintro a rfl
  obtain ⟨cell, found⟩ := live a rfl
  cases w with
  | data d => exact ⟨cell, found⟩
  | array b =>
    rw [CopyOnWrite.retain]
    cases at_b : cellAt h b with
    | none => exact ⟨cell, found⟩
    | some other =>
      simp only
      split
      · exact ⟨cell, found⟩
      · rw [cellAt_put at_b]
        split
        · exact ⟨_, rfl⟩
        · exact ⟨cell, found⟩

theorem Live.alloc {c : C} (live : Live h v) : Live (alloc h c) v := by
  intro a same
  obtain ⟨cell, found⟩ := live a same
  exact ⟨cell, by rw [cellAt_alloc, if_neg (Nat.ne_of_lt (cellAt_lt found)), found]⟩

theorem counted_retainAll {vs : List (Value D)} (counted : Counted limit entries h roots) (live : ∀ v ∈ vs, Live h v) :
    Counted limit entries (retainAll limit h vs) fun a => roots a + count a vs := by
  induction vs generalizing h roots with
  | nil => exact counted
  | cons v rest ih =>
    rw [retainAll, foldl_cons]
    have once := counted_retain counted (live v (.head _))
    have all := ih once fun w mem => (live w (.tail _ mem)).retain
    refine all.mono fun a => ?_
    rw [count_cons]
    omega

theorem counted_release (positive : 0 < limit)
    (counted : Counted limit entries h fun a => roots a + if b = a then 1 else 0) :
    Counted limit entries (release limit entries h b).1 fun a => roots a + count a (release limit entries h b).2 := by
  obtain ⟨cell, found⟩ := counted.found (a := b) positive (by rw [if_pos rfl]; omega)
  have at_b := counted b
  simp only [rc_of_some found, if_true] at at_b
  rw [release, found]
  simp only
  split
  · refine counted.mono fun a => ?_
    rw [count_nil]
    omega
  · rename_i free
    have enough := at_b.resolve_left fun stuck => free (.inl stuck)
    split
    · -- the last reference
      rename_i last
      intro a
      show rc (h.set b none) a = limit ∨
        roots a + count a (values entries cell.content) + inside entries (h.set b none) a ≤ rc (h.set b none) a
      have moved := inside_set entries a found none
      have nothing : count a (valuesIn entries (none : Option (Cell C))) = 0 := rfl
      by_cases same : a = b
      · subst same
        exact .inr (by omega)
      · have before := counted a
        simp only [if_neg (Ne.symm same)] at before
        rw [rc, cellAt_set (cellAt_lt found), if_neg same]
        rcases before with stuck | enough
        · exact .inl stuck
        · exact .inr (by rw [rc] at enough; omega)
    · intro a
      have before := counted a
      simp only [rc_put found, inside_recount found, count_nil]
      by_cases same : a = b
      · subst same
        rw [if_pos rfl]
        exact .inr (by omega)
      · rw [if_neg same]
        simp only [if_neg (Ne.symm same)] at before
        exact before

theorem counted_alloc {c : C} (positive : 0 < limit)
    (counted : Counted limit entries h fun a => roots a + count a (values entries c)) :
    Counted limit entries (alloc h c) fun a => roots a + if h.length = a then 1 else 0 := by
  intro a
  have before : rc h a = limit ∨ roots a + count a (values entries c) + inside entries h a ≤ rc h a := counted a
  show rc (alloc h c) a = limit ∨
    roots a + (if h.length = a then 1 else 0) + inside entries (alloc h c) a ≤ rc (alloc h c) a
  rw [rc, cellAt_alloc, inside_alloc]
  by_cases new : a = h.length
  · subst new
    have absent : cellAt h h.length = none := by rw [cellAt, getElem?_eq_none (Nat.le_refl _)]; rfl
    rw [rc_of_none absent] at before
    rw [if_pos rfl, if_pos rfl, Option.elim_some]
    exact .inr (by simp only; omega)
  · rw [if_neg new, if_neg (Ne.symm new)]
    rw [rc] at before
    rcases before with stuck | enough
    · exact .inl stuck
    · exact .inr (by omega)

/-- An array is written: some references come with the new content, and some go with the old one. -/
theorem counted_overwrite {c : C} {vs ws : List (Value D)} (found : cellAt h b = some cell)
    (balance : ∀ a, count a (values entries c) + count a ws ≤ count a (values entries cell.content) + count a vs)
    (counted : Counted limit entries h fun a => roots a + count a vs) :
    Counted limit entries (overwrite h b c) fun a => roots a + count a ws := by
  intro a
  have before : rc h a = limit ∨ roots a + count a vs + inside entries h a ≤ rc h a := counted a
  have moved := inside_set entries a found (some { cell with content := c })
  have new : count a (valuesIn entries (some { cell with content := c })) = count a (values entries c) := rfl
  have balanced := balance a
  rw [overwrite, found]
  simp only
  have same_count : rc (put h b { cell with content := c }) a = rc h a := by
    rw [rc_put found]
    split
    · rename_i same
      rw [same, rc_of_some found]
    · rfl
  rw [same_count, put]
  rcases before with stuck | enough
  · exact .inl stuck
  · exact .inr (by omega)

end Counting

/-! ## Reading -/

/-- What is read at a value, down to some depth. -/
inductive Tree (K D : Type) where
  | data (d : D)
  | array (entries : List (K × Tree K D))
  | cut

section Reading
variable (entries : C → List (K × Value D))

def look : Nat → Heap C → Value D → Tree K D
  | _, _, .data d => .data d
  | 0, _, .array _ => .cut
  | n + 1, h, .array a =>
    match cellAt h a with
    | none => .cut
    | some cell => .array ((entries cell.content).map fun e => (e.1, look n h e.2))

/-- The array is the value, or in it. -/
inductive Reaches (h : Heap C) : Value D → Nat → Prop
  | here (a : Nat) : Reaches h (.array a) a
  | inside {a b : Nat} {cell : Cell C} {e : K × Value D} (found : cellAt h a = some cell)
      (mem : e ∈ entries cell.content) (rest : Reaches h e.2 b) : Reaches h (.array a) b

/-- What is reached from a value has the same content in both heaps. -/
def Agree (h h' : Heap C) (v : Value D) : Prop :=
  ∀ a, Reaches entries h v a → (cellAt h' a).map Cell.content = (cellAt h a).map Cell.content

end Reading

section Agreeing
variable {limit : Nat} {entries : C → List (K × Value D)} {h h' h'' : Heap C} {roots : Nat → Nat} {a b : Nat}
  {cell : Cell C} {v : Value D}

theorem Agree.entry {e : K × Value D} (agree : Agree entries h h' (.array a)) (found : cellAt h a = some cell)
    (mem : e ∈ entries cell.content) : Agree entries h h' e.2 :=
  fun b reaches => agree b (.inside found mem reaches)

/-- **Whoever reaches nothing that changes reads the same.** -/
theorem Agree.look (agree : Agree entries h h' v) (n : Nat) : look entries n h' v = look entries n h v := by
  induction n generalizing v with
  | zero => cases v <;> rfl
  | succ n ih =>
    cases v with
    | data d => rfl
    | array a =>
      have same := agree a (.here a)
      rw [CopyOnWrite.look, CopyOnWrite.look]
      cases found : cellAt h a with
      | none =>
        rw [found] at same
        rw [Option.map_eq_none_iff.mp same]
      | some cell =>
        rw [found] at same
        obtain ⟨cell', found', content⟩ := Option.map_eq_some_iff.mp same
        rw [found']
        simp only [content]
        congr 1
        refine map_congr_left fun e mem => ?_
        rw [ih (agree.entry found mem)]

theorem Agree.reaches (agree : Agree entries h h' v) (reaches : Reaches entries h v a) : Reaches entries h' v a := by
  induction reaches with
  | here a => exact .here a
  | inside found mem rest ih =>
    have same := agree _ (.here _)
    rw [found] at same
    obtain ⟨cell', found', content⟩ := Option.map_eq_some_iff.mp same
    exact .inside found' (content ▸ mem) (ih (agree.entry found mem))

theorem Agree.refl (h : Heap C) (v : Value D) : Agree entries h h v := fun _ _ => rfl

theorem Agree.trans (agree : Agree entries h h' v) (agree' : Agree entries h' h'' v) : Agree entries h h'' v :=
  fun a reaches => (agree' a (agree.reaches reaches)).trans (agree a reaches)

theorem not_reaches (alone : inside entries h b = 0) (other : v ≠ .array b) : ¬ Reaches entries h v b := by
  intro reaches
  induction reaches with
  | here a => exact other rfl
  | @inside a b cell e found mem rest ih =>
    refine ih alone fun same => ?_
    have positive : 0 < count b (values entries cell.content) := count_pos (same ▸ List.mem_map_of_mem mem)
    have := le_inside entries b found
    omega

theorem agree_of_contents (same : ∀ a, (cellAt h' a).map Cell.content = (cellAt h a).map Cell.content) :
    Agree entries h h' v := fun a _ => same a

theorem found_of_contents (same : (cellAt h' a).map Cell.content = (cellAt h a).map Cell.content)
    (found : cellAt h a = some cell) : ∃ cell', cellAt h' a = some cell' ∧ cell'.content = cell.content := by
  rw [found] at same
  obtain ⟨cell', found', content⟩ := Option.map_eq_some_iff.mp same
  exact ⟨cell', found', content⟩

theorem retain_contents (w : Value D) (a : Nat) :
    (cellAt (retain limit h w) a).map Cell.content = (cellAt h a).map Cell.content := by
  cases w with
  | data d => rfl
  | array b =>
    rw [retain]
    cases found : cellAt h b with
    | none => rfl
    | some cell =>
      simp only
      split
      · rfl
      · rw [cellAt_put found]
        split
        · rename_i same
          rw [same, found]
          rfl
        · rfl

theorem retainAll_contents (vs : List (Value D)) (a : Nat) :
    (cellAt (retainAll limit h vs) a).map Cell.content = (cellAt h a).map Cell.content := by
  induction vs generalizing h with
  | nil => rfl
  | cons w rest ih =>
    rw [retainAll, foldl_cons]
    exact (ih (h := retain limit h w)).trans (retain_contents w a)

theorem Agree.reaches_back (agree : Agree entries h h' v) (reaches : Reaches entries h' v a) :
    Reaches entries h v a := by
  induction reaches with
  | here a => exact .here a
  | inside found' mem rest ih =>
    have same := agree _ (.here _)
    rw [found'] at same
    obtain ⟨cell, found, content⟩ := Option.map_eq_some_iff.mp same.symm
    rw [← content] at mem
    exact .inside found mem (ih (agree.entry found mem))

theorem length_retainAll (vs : List (Value D)) : (retainAll limit h vs).length = h.length := by
  induction vs generalizing h with
  | nil => rfl
  | cons w rest ih =>
    rw [retainAll, foldl_cons]
    refine (ih (h := retain limit h w)).trans ?_
    cases w with
    | data d => rfl
    | array b =>
      rw [retain]
      cases cellAt h b with
      | none => rfl
      | some cell =>
        simp only
        split
        · rfl
        · rw [put, List.length_set]

theorem Live.of_contents (live : Live h v)
    (same : ∀ a, (cellAt h' a).map Cell.content = (cellAt h a).map Cell.content) : Live h' v := by
  intro a eq
  obtain ⟨cell, found⟩ := live a eq
  obtain ⟨cell', found', -⟩ := found_of_contents (same a) found
  exact ⟨cell', found'⟩

theorem Live.of_agree (live : Live h v) (agree : Agree entries h h' v) : Live h' v := by
  intro a same
  obtain ⟨cell, found⟩ := live a same
  obtain ⟨cell', found', -⟩ := found_of_contents (agree a (same ▸ .here a)) found
  exact ⟨cell', found'⟩

theorem Counted.reaches_found (counted : Counted limit entries h roots) (positive : 0 < limit) (live : Live h v)
    (reaches : Reaches entries h v a) : ∃ cell, cellAt h a = some cell := by
  induction reaches with
  | here a => exact live a rfl
  | inside found mem rest ih => exact ih (counted.live_entry positive found (List.mem_map_of_mem mem))

theorem Counted.agree_alloc {c : C} (counted : Counted limit entries h roots) (positive : 0 < limit)
    (live : Live h v) : Agree entries h (alloc h c) v := by
  intro a reaches
  obtain ⟨cell, found⟩ := counted.reaches_found positive live reaches
  rw [cellAt_alloc, if_neg (Nat.ne_of_lt (cellAt_lt found))]

theorem Counted.not_reaches_new {c : C} (counted : Counted limit entries h roots) (positive : 0 < limit)
    (live : Live h v) : ¬ Reaches entries (alloc h c) v h.length := by
  intro reaches
  obtain ⟨cell, found⟩ := counted.reaches_found positive live
    ((counted.agree_alloc positive live).reaches_back reaches)
  exact Nat.lt_irrefl _ (cellAt_lt found)

/-- A release frees nothing that is still referred to. -/
theorem Counted.agree_release (positive : 0 < limit)
    (counted : Counted limit entries h fun a => roots a + if b = a then 1 else 0)
    (rooted : ∀ a, v = .array a → 0 < roots a) : Agree entries h (release limit entries h b).1 v := by
  obtain ⟨cell, found⟩ := counted.found (a := b) positive (by rw [if_pos rfl]; omega)
  have at_b := counted b
  simp only [rc_of_some found, if_true] at at_b
  rw [release, found]
  simp only
  split
  · exact .refl h v
  · rename_i free
    split
    · rename_i last
      intro a reaches
      rw [cellAt_set (cellAt_lt found), if_neg]
      rintro rfl
      refine not_reaches (by omega) (fun same => ?_) reaches
      have := rooted a same
      omega
    · refine agree_of_contents fun a => ?_
      rw [cellAt_put found]
      split
      · rename_i same
        rw [same, found]
        rfl
      · rfl

theorem agree_overwrite {c : C} (unreached : ¬ Reaches entries h v b) : Agree entries h (overwrite h b c) v := by
  intro a reaches
  rw [overwrite]
  cases found : cellAt h b with
  | none => rfl
  | some cell =>
    simp only
    rw [cellAt_put found, if_neg]
    rintro rfl
    exact unreached reaches

end Agreeing

end CopyOnWrite
