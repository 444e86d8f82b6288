import Mathlib.Data.List.Nodup
import PhpPico.State.Statics

/-!
# Locals the compiler makes up

Values that have to last while code of the program runs are kept in locals that the compiler adds: pending exceptions
of `finally` and the temporaries of assignments. Their names start with a byte that no variable starts with and go on
with the number of locals before, so that none shares a slot. Those of top-level code are in `state->globals`.
-/

namespace PhpPico
open List

variable {cfg : Config}

/-! ## Names -/

/-- The name of a local: of a variable of the program, or one the compiler has made up. -/
inductive LocalName where
  | program (name : Identifier)
  | returned
  | exception (n : Nat)
  | temporary (n : Nat)
deriving DecidableEq

def returnedName : List UInt8 := 1 :: ascii "return"

def exceptionName (n : Nat) : List UInt8 := 1 :: (ascii "exception" ++ printUnsigned n)

def temporaryName (n : Nat) : List UInt8 := 1 :: (ascii "temporary" ++ printUnsigned n)

def LocalName.bytes : LocalName → List UInt8
  | .program name => name.bytes
  | .returned => returnedName
  | .exception n => exceptionName n
  | .temporary n => temporaryName n

/-- `exception_slot` and `temporary_slot` have made the name up. -/
def LocalName.isKept : LocalName → Bool
  | .exception _ | .temporary _ => true
  | .program _ | .returned => false

/-- `variable_slot`, the name without its dollar sign. -/
def Proto.variableSlot (p : Proto cfg) (name : Identifier) : Option (Proto cfg × UInt8) := p.addLocal name.bytes

/-- `exception_slot`. -/
def Proto.exceptionSlot (p : Proto cfg) : Option (Proto cfg × UInt8) := p.addLocal (exceptionName p.nLocals)

/-- `temporary_slot`. -/
def Proto.temporarySlot (p : Proto cfg) : Option (Proto cfg × UInt8) := p.addLocal (temporaryName p.nLocals)

/-- The local of a `return` inside a `try` that has a `finally`. -/
def Proto.returnedSlot (p : Proto cfg) : Option (Proto cfg × UInt8) := p.addLocal returnedName

theorem Identifier.head_ne_one (name : Identifier) : name.bytes.head? ≠ some 1 := by
  intro one
  have start := name.first_ok
  rw [Option.some.inj one] at start
  cases start

theorem LocalName.bytes_injective {x y : LocalName} (same : x.bytes = y.bytes) : x = y := by
  have head : ∀ {name : Identifier} {bytes : List UInt8}, name.bytes ≠ 1 :: bytes := by
    intro name bytes same
    exact name.head_ne_one (congrArg List.head? same)
  have exception : ascii "exception" = 101 :: ascii "xception" := by decide +kernel
  have temporary : ascii "temporary" = 116 :: ascii "emporary" := by decide +kernel
  have returned : ascii "return" = 114 :: ascii "eturn" := by decide +kernel
  cases x with
  | program name =>
    cases y with
    | program name' => exact congrArg _ (Identifier.bytes_injective same)
    | returned => exact absurd same head
    | exception n => exact absurd same head
    | temporary n => exact absurd same head
  | returned =>
    simp only [LocalName.bytes, returnedName, returned] at same
    cases y with
    | program name => exact absurd same.symm head
    | returned => rfl
    | exception n => simp [exceptionName, exception] at same
    | temporary n => simp [temporaryName, temporary] at same
  | exception n =>
    simp only [LocalName.bytes, exceptionName] at same
    cases y with
    | program name => exact absurd same.symm head
    | returned => simp [returnedName, returned, exception] at same
    | exception m =>
      obtain ⟨-, same⟩ := cons.inj same
      exact congrArg _ (printUnsigned_injective (append_cancel_left same))
    | temporary m => simp [temporaryName, temporary, exception] at same
  | temporary n =>
    simp only [LocalName.bytes, temporaryName] at same
    cases y with
    | program name => exact absurd same.symm head
    | returned => simp [returnedName, returned, temporary] at same
    | exception m => simp [exceptionName, temporary, exception] at same
    | temporary m =>
      obtain ⟨-, same⟩ := cons.inj same
      exact congrArg _ (printUnsigned_injective (append_cancel_left same))

/-! ## Local tables -/

/-- The names of the locals of a proto as the compiler adds them, the first slot first. -/
inductive Allocated : List LocalName → Prop
  | empty : Allocated []
  | program {names : List LocalName} (name : Identifier) : Allocated names → .program name ∉ names →
      names.length < 255 → Allocated (names ++ [LocalName.program name])
  | returned {names : List LocalName} : Allocated names → .returned ∉ names → names.length < 255 →
      Allocated (names ++ [LocalName.returned])
  | exception {names : List LocalName} : Allocated names → names.length < 255 →
      Allocated (names ++ [LocalName.exception names.length])
  | temporary {names : List LocalName} : Allocated names → names.length < 255 →
      Allocated (names ++ [LocalName.temporary names.length])

namespace Allocated
variable {names : List LocalName}

theorem numbered (allocated : Allocated names) {n : Nat} (listed : .exception n ∈ names ∨ .temporary n ∈ names) :
    n < names.length := by
  induction allocated with
  | empty => simp at listed
  | program name _ _ _ ih =>
    simp only [mem_append, mem_singleton, reduceCtorEq, or_false] at listed
    rw [length_append]
    exact Nat.lt_add_right _ (ih listed)
  | returned _ _ _ ih =>
    simp only [mem_append, mem_singleton, reduceCtorEq, or_false] at listed
    rw [length_append]
    exact Nat.lt_add_right _ (ih listed)
  | exception _ _ ih =>
    simp only [mem_append, mem_singleton, reduceCtorEq, or_false, LocalName.exception.injEq] at listed
    rw [length_append, length_singleton]
    rcases listed with (listed | rfl) | listed
    · exact Nat.lt_add_right _ (ih (.inl listed))
    · omega
    · exact Nat.lt_add_right _ (ih (.inr listed))
  | temporary _ _ ih =>
    simp only [mem_append, mem_singleton, reduceCtorEq, or_false, LocalName.temporary.injEq] at listed
    rw [length_append, length_singleton]
    rcases listed with listed | listed | rfl
    · exact Nat.lt_add_right _ (ih (.inl listed))
    · exact Nat.lt_add_right _ (ih (.inr listed))
    · omega

theorem exception_fresh (allocated : Allocated names) : .exception names.length ∉ names :=
  fun listed => absurd (allocated.numbered (.inl listed)) (lt_irrefl _)

theorem temporary_fresh (allocated : Allocated names) : .temporary names.length ∉ names :=
  fun listed => absurd (allocated.numbered (.inr listed)) (lt_irrefl _)

theorem nodup (allocated : Allocated names) : names.Nodup := by
  have snoc : ∀ {names : List LocalName} {name : LocalName}, name ∉ names → names.Nodup → (names ++ [name]).Nodup := by
    intro names name fresh distinct
    rw [← concat_eq_append]
    exact (nodup_concat names name).mpr ⟨fresh, distinct⟩
  induction allocated with
  | empty => exact nodup_nil
  | program name _ fresh _ ih => exact snoc fresh ih
  | returned _ fresh _ ih => exact snoc fresh ih
  | exception allocated _ ih => exact snoc allocated.exception_fresh ih
  | temporary allocated _ ih => exact snoc allocated.temporary_fresh ih

end Allocated

/-- The locals of a proto have these names. -/
def Proto.Locals (p : Proto cfg) (names : List LocalName) : Prop :=
  p.locals.map PString.bytes = names.map LocalName.bytes

theorem Proto.locals_new (name : PString) : (Proto.new name : Proto cfg).Locals [] := rfl

namespace Proto.Locals
variable {p p' : Proto cfg} {names : List LocalName} {slot : UInt8}

theorem length_eq (h : p.Locals names) : p.locals.length = names.length := by
  have lengths := congrArg List.length h
  rwa [length_map, length_map] at lengths

theorem addLocal (h : p.Locals names) {name : LocalName} (added : p.addLocal name.bytes = some (p', slot)) :
    (p' = p ∧ names[slot.toNat]? = some name) ∨
      (name ∉ names ∧ names.length < 255 ∧ slot.toNat = names.length ∧ p'.Locals (names ++ [name])) := by
  have lengths := h.length_eq
  have bytes_at : ∀ i : Nat, (p.locals[i]?).map PString.bytes = (names[i]?).map LocalName.bytes := by
    intro i
    rw [← getElem?_map, ← getElem?_map, h]
  rw [Proto.addLocal, Proto.findLocal] at added
  cases found : p.locals.findIdx? fun candidate => candidate.bytes == name.bytes with
  | some i =>
    rw [found] at added
    obtain ⟨rfl, rfl⟩ := Prod.mk.inj (Option.some.inj added)
    obtain ⟨below, here, -⟩ := findIdx?_eq_some_iff_getElem.mp found
    left
    refine ⟨rfl, ?_⟩
    have small : (UInt8.ofNat i).toNat = i := by
      apply UInt8.toNat_ofNat_of_lt'
      exact below.trans_le (Nat.le_succ_of_le p.locals_le)
    have same := bytes_at i
    rw [small, getElem?_eq_getElem (lengths ▸ below)]
    rw [getElem?_eq_getElem below, getElem?_eq_getElem (lengths ▸ below), Option.map_some, Option.map_some,
      Option.some.injEq, eq_of_beq here] at same
    rw [LocalName.bytes_injective same]
  | none =>
    rw [found] at added
    simp only [Option.map_none] at added
    split at added
    · next room =>
      obtain ⟨string, made, added⟩ := Option.map_eq_some_iff.mp added
      obtain ⟨rfl, rfl⟩ := Prod.mk.inj added
      have string_bytes : string.bytes = name.bytes := by
        unfold psNew at made
        split at made
        · rw [← Option.some.inj made]
        · cases made
      right
      refine ⟨?_, lengths ▸ room, ?_, ?_⟩
      · intro listed
        obtain ⟨candidate, listed, same⟩ : ∃ c ∈ p.locals, c.bytes = name.bytes := by
          apply List.mem_map.mp
          rw [h]
          exact List.mem_map_of_mem listed
        have different := findIdx?_eq_none_iff.mp found candidate listed
        rw [same, beq_self_eq_true] at different
        cases different
      · rw [UInt8.toNat_ofNat_of_lt' (Nat.lt_succ_of_lt room), lengths]
      · rw [Proto.Locals, map_append, map_append, h, map_singleton, map_singleton, string_bytes]
    · cases added

/-- **Each temporary has a slot of its own**, behind all others. -/
theorem temporarySlot (h : p.Locals names) (allocated : Allocated names) (added : p.temporarySlot = some (p', slot)) :
    slot.toNat = names.length ∧ Allocated (names ++ [LocalName.temporary names.length]) ∧
      p'.Locals (names ++ [LocalName.temporary names.length]) := by
  rw [Proto.temporarySlot, Proto.nLocals, h.length_eq] at added
  rcases @addLocal _ _ _ _ _ h (.temporary names.length) added with ⟨-, found⟩ | ⟨-, room, slot_eq, named⟩
  · exact absurd (mem_of_getElem? found) allocated.temporary_fresh
  · exact ⟨slot_eq, allocated.temporary room, named⟩

theorem exceptionSlot (h : p.Locals names) (allocated : Allocated names) (added : p.exceptionSlot = some (p', slot)) :
    slot.toNat = names.length ∧ Allocated (names ++ [LocalName.exception names.length]) ∧
      p'.Locals (names ++ [LocalName.exception names.length]) := by
  rw [Proto.exceptionSlot, Proto.nLocals, h.length_eq] at added
  rcases @addLocal _ _ _ _ _ h (.exception names.length) added with ⟨-, found⟩ | ⟨-, room, slot_eq, named⟩
  · exact absurd (mem_of_getElem? found) allocated.exception_fresh
  · exact ⟨slot_eq, allocated.exception room, named⟩

theorem variableSlot (h : p.Locals names) (allocated : Allocated names) {name : Identifier}
    (added : p.variableSlot name = some (p', slot)) :
    ∃ names', names <+: names' ∧ Allocated names' ∧ p'.Locals names' ∧ names'[slot.toNat]? = some (.program name) := by
  rcases @addLocal _ _ _ _ _ h (.program name) added with ⟨rfl, found⟩ | ⟨fresh, room, slot_eq, named⟩
  · exact ⟨names, prefix_rfl, allocated, h, found⟩
  · refine ⟨names ++ [LocalName.program name], prefix_append _ _, allocated.program name fresh room, named, ?_⟩
    rw [slot_eq, getElem?_concat_length]

theorem returnedSlot (h : p.Locals names) (allocated : Allocated names) (added : p.returnedSlot = some (p', slot)) :
    ∃ names', names <+: names' ∧ Allocated names' ∧ p'.Locals names' ∧ names'[slot.toNat]? = some .returned := by
  rcases @addLocal _ _ _ _ _ h .returned added with ⟨rfl, found⟩ | ⟨fresh, room, slot_eq, named⟩
  · exact ⟨names, prefix_rfl, allocated, h, found⟩
  · refine ⟨names ++ [LocalName.returned], prefix_append _ _, allocated.returned fresh room, named, ?_⟩
    rw [slot_eq, getElem?_concat_length]

end Proto.Locals

/-! ## Slots -/

/-- What the code generator asks a slot for. -/
inductive SlotRequest where
  | named (name : Identifier)
  | returned
  | exception
  | temporary
deriving DecidableEq

namespace SlotRequest

def slot {cfg : Config} : SlotRequest → Proto cfg → Option (Proto cfg × UInt8)
  | named name, p => p.variableSlot name
  | returned, p => p.returnedSlot
  | exception, p => p.exceptionSlot
  | temporary, p => p.temporarySlot

/-- The name of the local, where there are `k` before. -/
def localName (k : Nat) : SlotRequest → LocalName
  | named name => .program name
  | returned => .returned
  | exception => .exception k
  | temporary => .temporary k

/-- Variables and what `return` has keep their slots. -/
def Kept : SlotRequest → Prop
  | named _ | returned => True
  | exception | temporary => False

theorem localName_eq_iff {x y : SlotRequest} {k k' : Nat} (later : ¬ x.Kept → k < k') :
    x.localName k = y.localName k' ↔ x = y ∧ x.Kept := by
  cases x with
  | named name => cases y <;> simp [localName, Kept]
  | returned => cases y <;> simp [localName, Kept]
  | exception => cases y <;> simp [localName, Kept, (later id).ne]
  | temporary => cases y <;> simp [localName, Kept, (later id).ne]

variable {cfg : Config} {p p' : Proto cfg} {names : List LocalName}

theorem slot_spec {x : SlotRequest} {slot : UInt8} (h : p.Locals names) (allocated : Allocated names)
    (taken : x.slot p = some (p', slot)) : ∃ names', names <+: names' ∧ Allocated names' ∧ p'.Locals names' ∧
      names'[slot.toNat]? = some (x.localName names.length) ∧ (¬ x.Kept → names.length < names'.length) := by
  cases x with
  | named name =>
    obtain ⟨names', longer, allocated', named, found⟩ := h.variableSlot allocated taken
    exact ⟨names', longer, allocated', named, found, fun lost => absurd trivial lost⟩
  | returned =>
    obtain ⟨names', longer, allocated', named, found⟩ := h.returnedSlot allocated taken
    exact ⟨names', longer, allocated', named, found, fun lost => absurd trivial lost⟩
  | exception =>
    obtain ⟨at_end, allocated', named⟩ := h.exceptionSlot allocated taken
    exact ⟨_, prefix_append _ _, allocated', named, by rw [at_end, getElem?_concat_length]; rfl, fun _ => by simp⟩
  | temporary =>
    obtain ⟨at_end, allocated', named⟩ := h.temporarySlot allocated taken
    exact ⟨_, prefix_append _ _, allocated', named, by rw [at_end, getElem?_concat_length]; rfl, fun _ => by simp⟩

end SlotRequest

/-- The slots that a proto gives, one request after the other. -/
def Proto.slots {cfg : Config} : List SlotRequest → Proto cfg → Option (List (SlotRequest × UInt8))
  | [], _ => some []
  | x :: rest, p => (x.slot p).bind fun r => (r.1.slots rest).map ((x, r.2) :: ·)

section Slots
variable {cfg : Config} {p : Proto cfg} {names : List LocalName} {requests : List SlotRequest}
  {given : List (SlotRequest × UInt8)}

theorem slots_cons {x : SlotRequest} (ran : p.slots (x :: requests) = some given) :
    ∃ p' slot rest, x.slot p = some (p', slot) ∧ p'.slots requests = some rest ∧ given = (x, slot) :: rest := by
  obtain ⟨⟨p', slot⟩, taken, ran⟩ := Option.bind_eq_some_iff.mp ran
  obtain ⟨rest, further, rfl⟩ := Option.map_eq_some_iff.mp ran
  exact ⟨p', slot, rest, taken, further, rfl⟩

/-- Each slot is that of a local behind those there were, or of a variable. -/
theorem slots_mem (h : p.Locals names) (allocated : Allocated names) (ran : p.slots requests = some given)
    {y : SlotRequest × UInt8} (mem : y ∈ given) : ∃ names' k, names <+: names' ∧ Allocated names' ∧
      names.length ≤ k ∧ names'[y.2.toNat]? = some (y.1.localName k) := by
  induction requests generalizing p names given with
  | nil =>
    cases ran
    cases mem
  | cons x rest ih =>
    obtain ⟨p', slot, later, taken, further, rfl⟩ := slots_cons ran
    obtain ⟨names₁, longer, allocated₁, named, found, -⟩ := SlotRequest.slot_spec h allocated taken
    cases mem with
    | head => exact ⟨names₁, _, longer, allocated₁, le_rfl, found⟩
    | tail _ mem =>
      obtain ⟨names', k, longer', allocated', le, found⟩ := ih named allocated₁ further mem
      exact ⟨names', k, longer.trans longer', allocated', longer.length_le.trans le, found⟩

theorem slots_pairwise (h : p.Locals names) (allocated : Allocated names) (ran : p.slots requests = some given) :
    given.Pairwise fun x y => x.2 = y.2 ↔ x.1 = y.1 ∧ x.1.Kept := by
  induction requests generalizing p names given with
  | nil =>
    cases ran
    exact .nil
  | cons x rest ih =>
    obtain ⟨p', slot, later, taken, further, rfl⟩ := slots_cons ran
    obtain ⟨names₁, longer, allocated₁, named, found, grown⟩ := SlotRequest.slot_spec h allocated taken
    refine .cons (fun y mem => ?_) (ih named allocated₁ further)
    obtain ⟨names', k, longer', allocated', le, found'⟩ := slots_mem named allocated₁ further mem
    rw [← SlotRequest.localName_eq_iff fun lost => (grown lost).trans_le le]
    obtain ⟨before, same⟩ := List.getElem?_eq_some_iff.mp found
    have kept : names'[slot.toNat]? = some (x.localName names.length) := by
      rw [prefix_iff_getElem?.mp longer' _ before, same]
    constructor
    · rintro rfl
      exact Option.some.inj (kept.symm.trans found')
    · intro one
      rw [← one, ← kept] at found'
      exact UInt8.toNat_inj.mp ((List.getElem?_inj (before.trans_le longer'.length_le) allocated'.nodup).mp
        found'.symm)

end Slots

/-- **Slots are not shared**: of all slots that the code generator takes for one function, two are the same only for the
same variable, or for what `return` has. -/
theorem slots_distinct (cfg : Config) (name : PString) {requests : List SlotRequest}
    {given : List (SlotRequest × UInt8)} (ran : (Proto.new name : Proto cfg).slots requests = some given) :
    given.Pairwise fun x y => x.2 = y.2 ↔ x.1 = y.1 ∧ x.1.Kept :=
  slots_pairwise (Proto.locals_new name) .empty ran

/-- A variable before and after two temporaries. -/
theorem slots_distinct_twice : ∃ given, (Proto.new ⟨[102], by decide⟩ : Proto ⟨true, true, true, true, true⟩).slots
      [.named ⟨110, [], by decide, by decide⟩, .temporary, .temporary, .named ⟨110, [], by decide, by decide⟩] =
        some given ∧ given.Pairwise fun x y => x.2 = y.2 ↔ x.1 = y.1 ∧ x.1.Kept := by
  have taken : ((Proto.new ⟨[102], by decide⟩ : Proto ⟨true, true, true, true, true⟩).slots
      [.named ⟨110, [], by decide, by decide⟩, .temporary, .temporary,
        .named ⟨110, [], by decide, by decide⟩]).isSome = true := by decide +kernel
  obtain ⟨given, ran⟩ := Option.isSome_iff_exists.mp taken
  exact ⟨given, ran, slots_distinct _ _ ran⟩

end PhpPico
