import PhpPico.Json.Grammar
import Mathlib.Data.List.DropRight

/-!
# What the decoder accepts

With memory at hand the decoder reads every JSON text as its value. A text that it reads is one, unless an object was
left at a name without a quotation mark. Whatever the allocator answers, the parser holds the blocks of its value and
no others.
-/

namespace PhpPico.Json
open List

/-! ## Blocks -/

@[simp] theorem blocksOf_append (entries entries' : List (Key × Value)) :
    blocksOf (entries ++ entries') = blocksOf entries + blocksOf entries' := by
  induction entries with
  | nil => simp [blocksOf]
  | cons entry entries ih =>
    rw [cons_append, blocksOf, blocksOf, ih]
    omega

/-- A member takes the block of its name and those of its value; what `pa_set` does not keep is
released. -/
theorem blocksOf_set {entries : List (Key × Value)} (key : Key) (v : Value)
    (distinct : (OrderedMap.keys entries).Nodup) :
    blocksOf (OrderedMap.set entries key v) + releasedBy entries key = blocksOf entries + (v.blocks + 1) := by
  by_cases present : key ∈ OrderedMap.keys entries
  · obtain ⟨⟨k, old⟩, listed, rfl⟩ := List.mem_map.mp present
    obtain ⟨pre, post, rfl⟩ := append_of_mem listed
    rw [OrderedMap.set_present distinct]
    simp only [releasedBy, OrderedMap.lookup_present distinct, blocksOf_append, blocksOf]
    omega
  · rw [OrderedMap.set_of_not_mem v present, blocksOf_append]
    cases key <;> simp only [releasedBy, OrderedMap.lookup_of_not_mem present, blocksOf, keyBlocks] <;> omega

/-! ## Every text is read -/

/-- The parser before it has failed, with memory at hand. -/
abbrev Parser.ready (depth : Nat) (live : Int) (nameless : Bool) (rest : List UInt8) : Parser :=
  ⟨rest, depth, false, [], live, nameless⟩

/-- `parse` reads the text as the value, whatever is behind it. -/
def Reads (parse : Parser → Value × Parser) (depth : Nat) (text : List UInt8) (v : Value) : Prop :=
  ∀ (live : Int) (nameless : Bool) (tail : List UInt8), Ends tail →
    parse (.ready depth live nameless (text ++ tail)) = (v, .ready depth (live + v.blocks) nameless tail)

/-- The first byte of a value. -/
def StartsValue (text : List UInt8) : Prop :=
  ∃ byte rest, text = byte :: rest ∧ Parser.isSpace byte = false ∧ byte ≠ 93

theorem ends_of_head {tail : List UInt8}
    (h : ∀ byte ∈ tail.head?, Parser.isSpace byte = true ∨ byte = 44 ∨ byte = 93 ∨ byte = 125) : Ends tail := by
  intro byte first
  have which := h byte first
  rw [isSpace_iff] at which
  rcases which with (rfl | rfl | rfl | rfl) | rfl | rfl | rfl <;> decide

theorem ends_blank {r : List UInt8} (hr : Blank r) : Ends r := by
  refine ends_of_head fun byte first => .inl (isSpace_iff.mpr (hr byte ?_))
  exact mem_of_mem_head? first

/-- A number ends in front of a blank, a comma or a bracket. -/
theorem ends_blank_cons {r tail : List UInt8} {byte : UInt8} (hr : Blank r)
    (closes : byte = 44 ∨ byte = 93 ∨ byte = 125) : Ends (r ++ byte :: tail) := by
  cases r with
  | nil =>
    refine ends_of_head fun b first => ?_
    cases first
    exact .inr closes
  | cons space r =>
    refine ends_of_head fun b first => ?_
    cases first
    exact .inl (isSpace_iff.mpr (hr space (.head _)))

section Skip
variable {depth : Nat} {live : Int} {nameless : Bool} {ws tail : List UInt8}

theorem skipSpace_ready (blank : Blank ws) (stop : ∀ byte ∈ tail.head?, Parser.isSpace byte = false) :
    (Parser.ready depth live nameless (ws ++ tail)).skipSpace = .ready depth live nameless tail := by
  rw [Parser.skipSpace, dropWhile_blank blank stop]

theorem skipSpace_byte {byte : UInt8} (blank : Blank ws) (solid : Parser.isSpace byte = false) :
    (Parser.ready depth live nameless (ws ++ byte :: tail)).skipSpace = .ready depth live nameless (byte :: tail) := by
  refine skipSpace_ready blank fun b first => ?_
  cases first
  exact solid

theorem skipSpace_value {text : List UInt8} (blank : Blank ws) (starts : StartsValue text) :
    (Parser.ready depth live nameless (ws ++ (text ++ tail))).skipSpace =
      .ready depth live nameless (text ++ tail) := by
  obtain ⟨byte, rest, rfl, solid, -⟩ := starts
  exact skipSpace_byte blank solid

theorem parseString_eq {text : List UInt8} {s : PString} (h : IsString text s) :
    parseString (.ready depth live nameless (text ++ tail)) = (some s, .ready depth (live + 1) nameless tail) := by
  obtain ⟨body, rfl, chars⟩ := h
  have loop : stringLoop ((body ++ 34 :: tail).length + 1) (body ++ 34 :: tail) [] = some (s.bytes, tail) :=
    (stringLoop_iff (Nat.lt_succ_self _) (Nat.zero_le _)).mpr ⟨body, s.bytes, chars, rfl, rfl, s.length_le⟩
  rw [cons_append, append_assoc, singleton_append, parseString]
  simp only [ne_eq, not_true, if_false, loop, Parser.ask, Bool.true_eq_false, psNew_bytes]

end Skip

section Loops
variable {P : List UInt8 → Value → Prop} {item : Parser → Value × Parser} {depth : Nat}

/-- What holds of the values inside an array or object: they are read, and begin as values do. -/
structure ReadsAll (P : List UInt8 → Value → Prop) (item : Parser → Value × Parser) (depth : Nat) : Prop where
  reads : ∀ {text : List UInt8} {v : Value}, P text v → Reads item depth text v
  starts : ∀ {text : List UInt8} {v : Value}, P text v → StartsValue text

variable {l text body : List UInt8} {v : Value} {vs : List Value} {cfg : Config}
  {members : List (PString × Value)}

/-- The loop of `parse_array` takes an element and goes on behind the comma. -/
theorem parseItems_more (all : ReadsAll P item depth) {r rest : List UInt8} (hl : Blank l) (h : P text v)
    (hr : Blank r) (rounds : Nat) (live : Int) (nameless : Bool) (entries : List (Key × Value)) :
    parseItems item (rounds + 1)
        (Parser.ready depth live nameless (l ++ (text ++ (r ++ 44 :: rest)))).skipSpace entries =
      parseItems item rounds (Parser.ready depth (live + v.blocks) nameless rest).skipSpace
        (entries ++ [(Key.int entries.length, v)]) := by
  rw [skipSpace_value hl (all.starts h), parseItems, all.reads h _ _ _ (ends_blank_cons hr (.inl rfl))]
  simp only [Bool.false_eq_true, Bool.true_eq_false, if_false, Parser.ask]
  rw [skipSpace_byte hr (by decide)]
  rfl

theorem parseItems_last (all : ReadsAll P item depth) {r tail : List UInt8} (hl : Blank l) (h : P text v)
    (hr : Blank r) (rounds : Nat) (live : Int) (nameless : Bool) (entries : List (Key × Value)) :
    parseItems item (rounds + 1)
        (Parser.ready depth live nameless (l ++ (text ++ (r ++ 93 :: tail)))).skipSpace entries =
      (.array (entries ++ [(Key.int entries.length, v)]), .ready (depth - 1) (live + v.blocks) nameless tail) := by
  rw [skipSpace_value hl (all.starts h), parseItems, all.reads h _ _ _ (ends_blank_cons hr (.inr (.inl rfl)))]
  simp only [Bool.false_eq_true, Bool.true_eq_false, if_false, Parser.ask]
  rw [skipSpace_byte hr (by decide)]
  rfl

theorem parseItems_eq (all : ReadsAll P item depth) (h : Elements P body vs) {rounds : Nat}
    (enough : vs.length ≤ rounds) (live : Int) (nameless : Bool) (tail : List UInt8) (entries : List (Key × Value)) :
    parseItems item rounds (Parser.ready depth live nameless (body ++ 93 :: tail)).skipSpace entries =
      (.array (entries ++ numbered entries.length vs),
        .ready (depth - 1) (live + blocksOf (numbered entries.length vs)) nameless tail) := by
  induction h generalizing rounds live entries with
  | last hl h hr =>
    obtain _ | rounds := rounds
    · cases enough
    simp only [append_assoc]
    rw [parseItems_last all hl h hr]
    simp [numbered, blocksOf, keyBlocks]
  | more hl h hr hrest ih =>
    obtain _ | rounds := rounds
    · cases enough
    simp only [append_assoc, cons_append]
    rw [parseItems_more all hl h hr, ih (Nat.le_of_succ_le_succ enough)]
    simp [numbered, blocksOf, keyBlocks, Int.add_assoc]

theorem Elements.length_le (starts : ∀ {text : List UInt8} {v : Value}, P text v → StartsValue text)
    (h : Elements P body vs) : vs.length ≤ body.length := by
  induction h with
  | last _ h _ =>
    obtain ⟨byte, rest, rfl, -⟩ := starts h
    simp only [length_append, length_cons, length_nil]
    omega
  | more _ _ _ _ ih =>
    simp only [length_append, length_cons]
    omega

theorem Elements.starts (starts : ∀ {text : List UInt8} {v : Value}, P text v → StartsValue text)
    {body : List UInt8} {vs : List Value} (h : Elements P body vs) :
    ∃ l text, Blank l ∧ StartsValue text ∧ body = l ++ text := by
  cases h with
  | last hl h _ =>
    obtain ⟨byte, rest, rfl, solid, no_close⟩ := starts h
    exact ⟨_, _, hl, ⟨byte, _, rfl, solid, no_close⟩, rfl⟩
  | more hl h _ _ =>
    obtain ⟨byte, rest, rfl, solid, no_close⟩ := starts h
    exact ⟨_, _, hl, ⟨byte, _, rfl, solid, no_close⟩, rfl⟩

/-- The parser behind a member, on which the loop of `parse_object` goes on. -/
abbrev behindMember (cfg : Config) (depth : Nat) (live : Int) (nameless : Bool)
    (entries : List (Key × Value)) (s : PString) (v : Value) (rest : List UInt8) : Parser :=
  .ready depth (live + 1 + v.blocks - releasedBy entries (memberKey cfg s)) nameless rest

/-- The loop of `parse_object` takes a member and goes on behind the comma. -/
theorem parseMembers_more (all : ReadsAll P item depth) {rest : List UInt8} {s : PString}
    (h : Member P text s v) (rounds : Nat) (live : Int) (nameless : Bool) (entries : List (Key × Value)) :
    parseMembers cfg item (rounds + 1) (Parser.ready depth live nameless (text ++ 44 :: rest)).skipSpace entries =
      parseMembers cfg item rounds (behindMember cfg depth live nameless entries s v rest).skipSpace
        (OrderedMap.set entries (memberKey cfg s) v) := by
  obtain @⟨l, name, m, m', text, r, s, v, hl, hname, hm, hm', h, hr⟩ := h
  simp only [append_assoc, cons_append]
  obtain ⟨body, e, -⟩ := id hname
  rw [e, cons_append, skipSpace_byte hl (by decide), ← cons_append, ← e, parseMembers, parseString_eq hname]
  simp only
  rw [skipSpace_byte hm (by decide)]
  simp only
  rw [skipSpace_value hm' (all.starts h), all.reads h _ _ _ (ends_blank_cons hr (.inl rfl))]
  simp only [Bool.false_eq_true, Bool.true_eq_false, if_false, Parser.ask]
  rw [skipSpace_byte hr (by decide)]
  rfl

theorem parseMembers_last (all : ReadsAll P item depth) {tail : List UInt8} {s : PString}
    (h : Member P text s v) (rounds : Nat) (live : Int) (nameless : Bool) (entries : List (Key × Value)) :
    parseMembers cfg item (rounds + 1)
        (Parser.ready depth live nameless (text ++ 125 :: tail)).skipSpace entries =
      (.array (OrderedMap.set entries (memberKey cfg s) v),
        { behindMember cfg depth live nameless entries s v tail with depth := depth - 1 }) := by
  obtain @⟨l, name, m, m', text, r, s, v, hl, hname, hm, hm', h, hr⟩ := h
  simp only [append_assoc, cons_append]
  obtain ⟨body, e, -⟩ := id hname
  rw [e, cons_append, skipSpace_byte hl (by decide), ← cons_append, ← e, parseMembers, parseString_eq hname]
  simp only
  rw [skipSpace_byte hm (by decide)]
  simp only
  rw [skipSpace_value hm' (all.starts h), all.reads h _ _ _ (ends_blank_cons hr (.inr (.inr rfl)))]
  simp only [Bool.false_eq_true, Bool.true_eq_false, if_false, Parser.ask]
  rw [skipSpace_byte hr (by decide)]
  rfl

theorem parseMembers_eq (all : ReadsAll P item depth) (h : Members P body members) {rounds : Nat}
    (enough : members.length ≤ rounds) (live : Int) (nameless : Bool) (tail : List UInt8)
    {entries : List (Key × Value)} (distinct : (OrderedMap.keys entries).Nodup) :
    parseMembers cfg item rounds (Parser.ready depth live nameless (body ++ 125 :: tail)).skipSpace entries =
      (.array (collected cfg entries members),
        .ready (depth - 1) (live + blocksOf (collected cfg entries members) - blocksOf entries) nameless tail) := by
  induction h generalizing rounds live entries with
  | @last text s v h =>
    obtain _ | rounds := rounds
    · cases enough
    have blocks := blocksOf_set (memberKey cfg s) v distinct
    rw [parseMembers_last all h]
    simp only [collected, foldl_cons, foldl_nil, Prod.mk.injEq, true_and, Parser.mk.injEq, and_true]
    omega
  | @more text rest s v members h hrest ih =>
    obtain _ | rounds := rounds
    · cases enough
    have blocks := blocksOf_set (memberKey cfg s) v distinct
    simp only [append_assoc, cons_append]
    rw [parseMembers_more all h, ih (Nat.le_of_succ_le_succ enough) _ (OrderedMap.nodup_set _ _ distinct)]
    simp only [collected, foldl_cons, Prod.mk.injEq, true_and, Parser.mk.injEq, and_true]
    omega

theorem Members.length_le (h : Members P body members) : members.length ≤ body.length := by
  induction h with
  | last h =>
    obtain ⟨-, -, -, -, -, -⟩ := h
    simp only [length_append, length_cons, length_nil]
    omega
  | more _ _ ih =>
    simp only [length_append, length_cons]
    omega

theorem Members.starts (h : Members P body members) : ∃ l text, Blank l ∧ body = l ++ 34 :: text := by
  have one : ∀ {body : List UInt8} {s : PString} {v : Value}, Member P body s v →
      ∃ l text, Blank l ∧ body = l ++ 34 :: text := by
    rintro _ _ _ ⟨hl, ⟨body, rfl, -⟩, -, -, -, -⟩
    exact ⟨_, _, hl, rfl⟩
  cases h with
  | last h => exact one h
  | more h _ =>
    obtain ⟨l, text, hl, rfl⟩ := one h
    exact ⟨l, _, hl, append_assoc ..⟩

theorem parseArray_empty {ws : List UInt8} (h : Blank ws) : ∀ (live : Int) (nameless : Bool) (tail : List UInt8),
      parseArray item (.ready depth live nameless (ws ++ 93 :: tail)) =
        (.array [], .ready depth (live + 1) nameless tail) := by
  intro live nameless tail
  simp only [parseArray, Parser.ask, Bool.true_eq_false, if_false]
  rw [skipSpace_byte h (by decide)]
  rfl

theorem StartsValue.append (starts : StartsValue text) (tail : List UInt8) : StartsValue (text ++ tail) := by
  obtain ⟨byte, rest, rfl, first⟩ := starts
  exact ⟨byte, rest ++ tail, rfl, first⟩

theorem parseArray_loop (hl : Blank l) (starts : StartsValue text) (live : Int) (nameless : Bool) :
    parseArray item (.ready depth live nameless (l ++ text)) = parseItems item ((l ++ text).length + 1)
        (Parser.ready (depth + 1) (live + 1) nameless (l ++ text)).skipSpace [] := by
  obtain ⟨byte, rest, rfl, solid, no_close⟩ := starts
  simp only [parseArray, Parser.ask, Bool.true_eq_false, if_false]
  rw [skipSpace_byte hl solid]
  split
  · next closed => exact absurd (cons.inj closed).1 no_close
  · rfl

theorem parseArray_eq (all : ReadsAll P item (depth + 1)) (h : Elements P body vs) (live : Int)
    (nameless : Bool) (tail : List UInt8) : parseArray item (.ready depth live nameless (body ++ 93 :: tail)) =
      (.array (numbered 0 vs), .ready depth (live + (1 + blocksOf (numbered 0 vs) : Nat)) nameless tail) := by
  have enough : vs.length ≤ (body ++ 93 :: tail).length + 1 := by
    have := h.length_le all.starts
    rw [length_append]
    omega
  have loop := parseItems_eq all h enough (live + 1) nameless tail []
  obtain ⟨l, text, hl, starts, rfl⟩ := h.starts all.starts
  rw [append_assoc] at loop ⊢
  rw [parseArray_loop hl (starts.append _), loop]
  simp [Int.add_assoc]

theorem parseObject_empty {ws : List UInt8} (h : Blank ws) : ∀ (live : Int) (nameless : Bool) (tail : List UInt8),
      parseObject cfg item (.ready depth live nameless (ws ++ 125 :: tail)) =
        (.array [], .ready depth (live + 1) nameless tail) := by
  intro live nameless tail
  simp only [parseObject, Parser.ask, Bool.true_eq_false, if_false]
  rw [skipSpace_byte h (by decide)]
  rfl

theorem parseObject_loop (hl : Blank l) (live : Int) (nameless : Bool) :
    parseObject cfg item (.ready depth live nameless (l ++ 34 :: text)) =
      parseMembers cfg item ((l ++ 34 :: text).length + 1)
        (Parser.ready (depth + 1) (live + 1) nameless (l ++ 34 :: text)).skipSpace [] := by
  simp only [parseObject, Parser.ask, Bool.true_eq_false, if_false]
  rw [skipSpace_byte hl (by decide)]
  rfl

theorem parseObject_eq (all : ReadsAll P item (depth + 1)) (h : Members P body members) (live : Int)
    (nameless : Bool) (tail : List UInt8) : parseObject cfg item (.ready depth live nameless (body ++ 125 :: tail)) =
      (.array (collected cfg [] members),
        .ready depth (live + (1 + blocksOf (collected cfg [] members) : Nat)) nameless tail) := by
  have enough : members.length ≤ (body ++ 125 :: tail).length + 1 := by
    have := h.length_le
    rw [length_append]
    omega
  have distinct : (OrderedMap.keys ([] : List (Key × Value))).Nodup := nodup_nil
  have loop : parseMembers cfg item _ _ _ = _ := parseMembers_eq all h enough (live + 1) nameless tail distinct
  obtain ⟨l, text, hl, rfl⟩ := h.starts
  rw [append_assoc, cons_append] at loop ⊢
  rw [parseObject_loop hl, loop]
  simp [blocksOf, Int.add_assoc]

end Loops

variable {cfg : Config} {text l body : List UInt8} {v : Value} {depth : Nat} {p p' : Parser}
  {P : List UInt8 → Value → Prop}

theorem numberValue_blocks {floating : Bool} (hv : numberValue cfg text floating = some v) : v.blocks = 0 := by
  rw [numberValue] at hv
  split at hv
  · cases hv; rfl
  · split at hv
    · cases hv; rfl
    · cases hv

theorem parseNumber_eq {floating : Bool} (h : IsNumber text floating)
    (hv : numberValue cfg text floating = some v) : Reads (parseNumber cfg) depth text v := by
  intro live nameless tail ends
  simp only [parseNumber, scanNumber_eq h ends, Parser.ask, Bool.true_eq_false, if_false, hv,
    numberValue_blocks hv, Nat.cast_zero, Int.add_zero]

/-- **Every value of the grammar is read**, when the arrays and objects around it leave room. -/
theorem parseValue_eq {room rounds : Nat} (h : IsValue cfg room text v) (within : depth + room ≤ 32)
    (enough : room ≤ rounds) : Reads (parseValue cfg rounds) depth text v := by
  induction room generalizing rounds depth text v with
  | zero => exact h.elim
  | succ room ih =>
    obtain _ | rounds := rounds
    · cases enough
    have all : ReadsAll (IsValue cfg room) (parseValue cfg rounds) (depth + 1) := by
      refine ⟨fun h => ih h (by omega) (Nat.le_of_succ_le_succ enough), fun {text v} h => ?_⟩
      cases room with
      | zero => exact h.elim
      | succ room => exact Production.head h
    intro live nameless tail ends
    have shallow : ¬ 32 ≤ depth := by omega
    have here : (Parser.ready depth live nameless ([] ++ (text ++ tail))).skipSpace = _ :=
      skipSpace_value blank_nil (Production.head h)
    rw [nil_append] at here
    rw [parseValue]
    simp only [here, if_neg shallow]
    cases h with
    | null =>
      simp only [Value.blocks, Nat.cast_zero, Int.add_zero]
      rfl
    | isFalse =>
      simp only [Value.blocks, Nat.cast_zero, Int.add_zero]
      rfl
    | isTrue =>
      simp only [Value.blocks, Nat.cast_zero, Int.add_zero]
      rfl
    | number h hv =>
      refine Eq.trans ?_ (parseNumber_eq h hv live nameless tail ends)
      obtain ⟨byte, rest, rfl, first⟩ := h.head
      have other : ∀ b : UInt8, b ≠ 45 → ¬ IsDigit b → byte ≠ b := by
        rintro b noMinus noDigit rfl
        exact first.elim noMinus noDigit
      have noWord : ∀ word : List UInt8, (∀ b ∈ word.head?, b ≠ 45 ∧ ¬ IsDigit b) → word ≠ [] →
          word.isPrefixOf (byte :: rest ++ tail) = false := by
        intro word starts nonempty
        cases word with
        | nil => exact absurd rfl nonempty
        | cons b word =>
          obtain ⟨noMinus, noDigit⟩ := starts b rfl
          simp [List.isPrefixOf, (other b noMinus noDigit).symm]
      have number : byte = 45 ∨ isDigit byte = true := first.imp_right isDigit_eq_true.mpr
      simp only [cons_append, if_neg (other 34 (by decide) (by decide)), if_neg (other 91 (by decide) (by decide)),
        if_neg (other 123 (by decide) (by decide))]
      rw [cons_append] at noWord
      rw [noWord (ascii "true") (by decide +kernel) (by decide +kernel),
        noWord (ascii "false") (by decide +kernel) (by decide +kernel),
        noWord (ascii "null") (by decide +kernel) (by decide +kernel)]
      simp only [Bool.false_eq_true, if_false, if_pos number]
    | string h =>
      have read : parseString (.ready depth live nameless (text ++ tail)) = _ := parseString_eq h
      obtain ⟨body, rfl, -⟩ := h
      simp only [cons_append] at read ⊢
      simp only [if_true, read]
      rfl
    | emptyArray h =>
      simp only [cons_append, append_assoc, nil_append]
      exact parseArray_empty h live nameless tail
    | array h =>
      simp only [cons_append, append_assoc, nil_append]
      exact parseArray_eq all h live nameless tail
    | emptyObject h =>
      simp only [cons_append, append_assoc, nil_append]
      exact parseObject_empty h live nameless tail
    | object h =>
      simp only [cons_append, append_assoc, nil_append]
      exact parseObject_eq all h live nameless tail

/-! ## Nothing is lost -/

/-- The parser has done something: what failed stays failed, and `held` blocks more than those of the
value have been released. -/
structure Kept (held : Nat) (p : Parser) (r : Value × Parser) : Prop where
  memory : p.memory = [] → r.2.memory = []
  failed : r.2.failed = false → p.failed = false
  nameless : r.2.nameless = false → p.nameless = false
  live : r.2.live + held = p.live + r.1.blocks

section Keeping
variable {held : Nat} {p p' : Parser} {v : Value} {r : Value × Parser}

theorem Kept.refl (v : Value) (p : Parser) : Kept v.blocks p (v, p) := ⟨id, id, id, rfl⟩

theorem Kept.trans (first : Kept held p (v, p')) (next : Kept v.blocks p' r) : Kept held p r := by
  refine ⟨fun h => next.memory (first.memory h), fun h => first.failed (next.failed h),
    fun h => first.nameless (next.nameless h), ?_⟩
  have live := first.live
  have live' := next.live
  dsimp only at live live'
  omega

theorem Kept.moved (kept : Kept held p (v, p')) (rest : List UInt8) (depth : Nat) :
    Kept held p (v, { p' with rest := rest, depth := depth }) :=
  ⟨kept.memory, kept.failed, kept.nameless, kept.live⟩

theorem Kept.before {rest : List UInt8} (kept : Kept held { p with rest := rest } r) : Kept held p r :=
  ⟨kept.memory, kept.failed, kept.nameless, kept.live⟩

theorem Kept.fail (kept : Kept held p (v, p')) : Kept held p (v, p'.fail) :=
  ⟨kept.memory, fun h => (nomatch h), kept.nameless, kept.live⟩

theorem Kept.released (kept : Kept held p (v, p')) : Kept held p (.null, p'.release v) := by
  refine ⟨kept.memory, kept.failed, kept.nameless, ?_⟩
  have live := kept.live
  simp only [Parser.release, Value.blocks] at live ⊢
  omega

theorem Kept.with {held' : Nat} {v' : Value} (kept : Kept held p (v, p'))
    (same : v'.blocks + held = v.blocks + held') : Kept held' p (v', p') := by
  refine ⟨kept.memory, kept.failed, kept.nameless, ?_⟩
  have live := kept.live
  dsimp only at live ⊢
  omega

theorem Kept.beside (kept : Kept 0 p (.null, p')) (v : Value) : Kept v.blocks p (v, p') :=
  kept.with (by simp [Value.blocks])

theorem Parser.ask_eq (p : Parser) :
    ∃ granted memory, p.ask = (granted, { p with memory := memory }) ∧
      (p.memory = [] → granted = true ∧ memory = []) := by
  obtain ⟨rest, depth, failed, memory, live, nameless⟩ := p
  cases memory with
  | nil => exact ⟨true, [], rfl, fun _ => ⟨rfl, rfl⟩⟩
  | cons granted memory => exact ⟨granted, memory, rfl, fun h => nomatch h⟩

theorem Kept.asked {q : Parser} {granted : Bool} (kept : Kept held p (v, p')) (ask : p'.ask = (granted, q)) :
    Kept held p (v, q) := by
  obtain ⟨granted, memory, ask', empty⟩ := p'.ask_eq
  cases ask.symm.trans ask'
  exact ⟨fun h => (empty (kept.memory h)).2, kept.failed, kept.nameless, kept.live⟩

end Keeping

theorem parseString_kept (p : Parser) : Kept 0 p ((parseString p).1.elim .null .string, (parseString p).2) := by
  have start : Kept 0 p (.null, p) := .refl .null p
  unfold parseString
  split
  · exact start
  · split
    · exact start.moved _ _
    · split
      · exact start.fail
      · rcases ask : p.ask with ⟨_ | _, q⟩
        · exact (start.asked ask).fail
        rcases ask' : q.ask with ⟨_ | _, q'⟩ <;> have again := (start.asked ask).asked ask' <;>
          simp only [ask', Bool.true_eq_false, if_false, if_true]
        · exact again.moved _ _
        · split
          · exact again.moved _ _
          · refine ⟨again.memory, again.failed, again.nameless, ?_⟩
            have live := again.live
            simp only [Value.blocks, Option.elim_some] at live ⊢
            omega

section KeptLoops
variable {item : Parser → Value × Parser}

theorem parseItems_kept (kept : ∀ p, Kept 0 p (item p)) (rounds : Nat) (p : Parser) (entries : List (Key × Value)) :
    Kept (Value.array entries).blocks p (parseItems item rounds p entries) := by
  induction rounds generalizing p entries with
  | zero => exact (Kept.refl (.array entries) p).fail.released
  | succ rounds ih =>
    have one := kept p
    rw [parseItems]
    generalize item p = r at one ⊢
    obtain ⟨v, q⟩ := r
    dsimp only
    split
    · exact (one.released.beside _).released
    rcases ask : q.ask with ⟨_ | _, q'⟩
    · exact ((one.asked ask).released.fail.beside _).released
    have more : Kept (Value.array entries).blocks p (.array (entries ++ [(Key.int entries.length, v)]), q') := by
      refine (one.asked ask).with ?_
      simp only [Value.blocks, blocksOf_append, blocksOf, keyBlocks]
      omega
    simp only [Bool.true_eq_false, if_false]
    split
    · exact (more.moved _ _).trans (ih _ _)
    · exact more.moved _ _
    · exact (more.moved _ _).fail.released

theorem Kept.opened {p q : Parser} {granted : Bool} (ask : p.ask = (granted, q)) :
    Kept 0 p (.array [], ({ q with depth := q.depth + 1, live := q.live + 1 } : Parser).skipSpace) := by
  have start := (Kept.refl .null p).asked ask
  refine ⟨start.memory, start.failed, start.nameless, ?_⟩
  have live := start.live
  simp only [Value.blocks, blocksOf, Parser.skipSpace] at live ⊢
  omega

theorem parseArray_kept (kept : ∀ p, Kept 0 p (item p)) (p : Parser) : Kept 0 p (parseArray item p) := by
  unfold parseArray
  rcases ask : p.ask with ⟨_ | _, q⟩
  · exact ((Kept.refl .null p).asked ask).fail
  simp only [Bool.true_eq_false, if_false]
  split
  · exact (Kept.opened ask).moved _ _
  · exact (Kept.opened ask).trans (parseItems_kept kept _ _ [])

theorem parseMembers_kept (kept : ∀ p, Kept 0 p (item p)) (cfg : Config) (rounds : Nat) (p : Parser)
    {entries : List (Key × Value)} (distinct : (OrderedMap.keys entries).Nodup) :
    Kept (Value.array entries).blocks p (parseMembers cfg item rounds p entries) := by
  induction rounds generalizing p entries with
  | zero => exact (Kept.refl (.array entries) p).fail.released
  | succ rounds ih =>
    have name := parseString_kept p
    rw [parseMembers]
    generalize parseString p = r at name ⊢
    obtain ⟨_ | s, q⟩ := r
    · have none := (name.beside (.array entries)).released
      exact ⟨none.memory, none.failed, fun h => none.nameless (Bool.or_eq_false_iff.mp h).1, none.live⟩
    dsimp only
    split
    · next rest _ =>
      have colon : Kept 0 p (.string s, ({ q.skipSpace with rest := rest } : Parser).skipSpace) := name.moved _ _
      have one := kept ({ q.skipSpace with rest := rest } : Parser).skipSpace
      have swap := fun v => blocksOf_set (memberKey cfg s) v distinct
      generalize item _ = r at one ⊢
      obtain ⟨v, q'⟩ := r
      split
      · exact ((colon.trans (one.released.beside _)).released.beside _).released
      rcases ask : q'.ask with ⟨_ | _, q''⟩
      · exact ((colon.trans ((one.asked ask).released.beside _)).released.fail.beside _).released
      have more : Kept (Value.array entries).blocks p (.array (OrderedMap.set entries (memberKey cfg s) v),
          { q'' with live := q''.live - releasedBy entries (memberKey cfg s) }) := by
        have one := one.asked ask
        refine ⟨fun h => one.memory (colon.memory h), fun h => colon.failed (one.failed h),
          fun h => colon.nameless (one.nameless h), ?_⟩
        have live := colon.live
        have live' := one.live
        have swap := swap v
        simp only [Value.blocks] at live live' ⊢
        omega
      simp only [Bool.true_eq_false, if_false]
      split
      · exact (more.moved _ _).trans (ih _ (OrderedMap.nodup_set (memberKey cfg s) v distinct))
      · exact more.moved _ _
      · exact (more.moved _ _).fail.released
    · exact ((name.moved _ _).released.fail.beside (.array entries)).released

theorem parseObject_kept (kept : ∀ p, Kept 0 p (item p)) (cfg : Config) (p : Parser) :
    Kept 0 p (parseObject cfg item p) := by
  unfold parseObject
  rcases ask : p.ask with ⟨_ | _, q⟩
  · exact ((Kept.refl .null p).asked ask).fail
  simp only [Bool.true_eq_false, if_false]
  split
  · exact (Kept.opened ask).moved _ _
  · exact (Kept.opened ask).trans (parseMembers_kept kept cfg _ _ nodup_nil)

end KeptLoops

theorem parseNumber_kept (cfg : Config) (p : Parser) : Kept 0 p (parseNumber cfg p) := by
  have start := Kept.refl .null p
  unfold parseNumber
  split
  · exact start.fail
  · rcases ask : p.ask with ⟨_ | _, q⟩
    · exact (start.asked ask).fail
    simp only [Bool.true_eq_false, if_false]
    split
    · exact (start.asked ask).fail
    · next v hv => exact ((start.asked ask).moved _ _).with (by simp [numberValue_blocks hv, Value.blocks])

/-- **The parser holds the blocks of the value it has made and no others**, whatever the allocator
answers. -/
theorem parseValue_kept (cfg : Config) (rounds : Nat) (p : Parser) : Kept 0 p (parseValue cfg rounds p) := by
  induction rounds generalizing p with
  | zero => exact ⟨id, fun h => (nomatch h), id, rfl⟩
  | succ rounds ih =>
    have start : Kept 0 p (.null, p.skipSpace) := (Kept.refl .null p).moved _ _
    have failing := start.fail
    have word : ∀ (n : Nat) (b : Value), b.blocks = 0 → Kept 0 p (b, { p.skipSpace with rest := p.skipSpace.rest.drop n }) :=
      fun n b noBlocks => (start.moved _ _).with (by simp [noBlocks, Value.blocks])
    rw [parseValue]
    split
    · exact failing
    · split
      · exact failing
      · next first rest _ =>
        split_ifs
        · have string := (parseString_kept p.skipSpace).before
          generalize parseString p.skipSpace = r at string ⊢
          obtain ⟨_ | s, p'⟩ := r <;> exact string
        · exact (parseArray_kept ih { p with rest := rest }).before
        · exact (parseObject_kept ih cfg { p with rest := rest }).before
        · exact word 4 (.bool true) rfl
        · exact word 5 (.bool false) rfl
        · exact word 4 .null rfl
        · exact (parseNumber_kept cfg p.skipSpace).before
        · exact failing

/-! ## Only texts are read -/

/-- The parser has gone over the text without failing, with memory at hand. -/
structure Consumed (p p' : Parser) (text : List UInt8) (depth : Nat) : Prop where
  rest : p.rest = text ++ p'.rest
  depth : p'.depth = depth
  memory : p'.memory = []
  failed : p.failed = false
  nameless : p.nameless = false

/-- What `parse` reads without failing and without leaving an object at a name is a value. -/
def Sound (parse : Parser → Value × Parser) (depth : Nat) (P : List UInt8 → Value → Prop) : Prop :=
  ∀ {p p' : Parser} {v : Value}, parse p = (v, p') → p.depth = depth → p.memory = [] → p'.failed = false →
    p'.nameless = false → ∃ l text, Blank l ∧ P text v ∧ Consumed p p' (l ++ text) depth

theorem parseString_some {s : PString} (h : parseString p = (some s, p')) (memory : p.memory = []) :
    ∃ text, IsString text s ∧ p.rest = text ++ p'.rest ∧ p' = { p with rest := p'.rest, live := p.live + 1 } := by
  obtain ⟨rest, depth, failed, _, live, nameless⟩ := p
  cases memory
  simp only [parseString, Parser.ask, Bool.true_eq_false, if_false] at h
  split at h
  · cases h
  · next first rest =>
    split at h
    · cases h
    · next quote =>
      split at h
      · cases h
      · next bytes behind loop =>
        split at h
        · cases h
        · next s' new =>
          cases h
          obtain ⟨text, bytes', chars, rfl, e, -⟩ := (stringLoop_iff (Nat.lt_succ_self _) (Nat.zero_le _)).mp loop
          have same : s.bytes = bytes' := by
            rw [psNew] at new
            split at new
            · cases new; exact e
            · cases new
          rw [not_not] at quote
          exact ⟨34 :: (text ++ [34]), ⟨text, rfl, same ▸ chars⟩, by rw [quote]; simp, rfl⟩

theorem parseString_none (h : parseString p = (none, p')) (memory : p.memory = [])
    (quote : p.rest.head? = some 34) : p'.failed = true := by
  obtain ⟨rest, depth, failed, _, live, nameless⟩ := p
  cases memory
  simp only [parseString, Parser.ask, Bool.true_eq_false, if_false] at h
  split at h
  · cases quote
  · next first rest =>
    cases quote
    split at h
    · next other => exact absurd rfl other
    · split at h
      · cases h; rfl
      · next bytes behind loop =>
        split at h
        · next new =>
          obtain ⟨text, bytes', -, -, -, fits⟩ := (stringLoop_iff (Nat.lt_succ_self _) (Nat.zero_le _)).mp loop
          rw [psNew, dif_pos fits] at new
          cases new
        · cases h

theorem Elements.blank {vs : List Value} (hl : Blank l) (h : Elements P body vs) : Elements P (l ++ body) vs := by
  cases h with
  | last hl' h hr =>
    rw [← append_assoc]
    exact .last (hl.append hl') h hr
  | more hl' h hr hrest =>
    rw [← append_assoc]
    exact .more (hl.append hl') h hr hrest

theorem Member.blank {s : PString} (hl : Blank l) (h : Member P body s v) : Member P (l ++ body) s v := by
  obtain ⟨hl', hname, hm, hm', h, hr⟩ := h
  rw [← append_assoc]
  exact .mk (hl.append hl') hname hm hm' h hr

theorem Members.blank {members : List (PString × Value)} (hl : Blank l)
    (h : Members P body members) : Members P (l ++ body) members := by
  cases h with
  | last h => exact .last (h.blank hl)
  | more h hrest =>
    rw [← append_assoc]
    exact .more (h.blank hl) hrest

section SoundLoops
variable {P : List UInt8 → Value → Prop} {item : Parser → Value × Parser} {depth : Nat}

variable {p p' : Parser} {v : Value}

theorem parseItems_sound (kept : ∀ p, Kept 0 p (item p)) (sound : Sound item depth P) {rounds : Nat}
    {entries : List (Key × Value)} (h : parseItems item rounds p entries = (v, p')) (at_depth : p.depth = depth)
    (memory : p.memory = []) (ok : p'.failed = false) (named : p'.nameless = false) :
    ∃ body vs, Elements P body vs ∧ v = .array (entries ++ numbered entries.length vs) ∧
      Consumed p p' (body ++ [93]) (depth - 1) := by
  induction rounds generalizing p entries with
  | zero =>
    cases h
    cases ok
  | succ rounds ih =>
    have one := kept p
    rcases first : item p with ⟨v₁, p₁⟩
    rw [first] at one
    rw [parseItems] at h
    simp only [first] at h
    split at h
    · next failed =>
      cases h
      exact absurd (failed.symm.trans ok) (by decide)
    · next fine =>
      rw [Bool.not_eq_true] at fine
      obtain ⟨granted, memory', ask, empty⟩ := p₁.ask_eq
      obtain ⟨rfl, rfl⟩ := empty (one.memory memory)
      simp only [ask, Bool.true_eq_false, if_false] at h
      obtain ⟨r, hr, blank⟩ := exists_blank p₁.rest
      split at h
      · next rest comma =>
        have later := parseItems_kept kept rounds ({ p₁ with rest := rest, memory := [] } : Parser).skipSpace
          (entries ++ [(Key.int entries.length, v₁)])
        have named₁ : p₁.nameless = false := later.nameless ((congrArg (·.2.nameless) h).trans named)
        obtain ⟨l, text, hl, value, c⟩ := sound first at_depth memory fine named₁
        obtain ⟨body, vs, elements, rfl, c'⟩ := ih h c.depth rfl
        obtain ⟨l', hl', blank'⟩ := exists_blank rest
        refine ⟨_, v₁ :: vs, .more hl value hr (elements.blank hl'), by simp [numbered], ?_⟩
        refine ⟨?_, c'.depth, c'.memory, c.failed, c.nameless⟩
        have behind : p₁.rest.dropWhile Parser.isSpace = 44 :: rest := comma
        have behind' : rest.dropWhile Parser.isSpace = body ++ [93] ++ p'.rest := c'.rest
        rw [c.rest, blank, behind, blank', behind']
        simp
      · next rest closed =>
        cases h
        obtain ⟨l, text, hl, value, c⟩ := sound first at_depth memory fine named
        refine ⟨_, [v₁], .last hl value hr, by simp [numbered], ?_⟩
        refine ⟨?_, congrArg (· - 1) c.depth, rfl, c.failed, c.nameless⟩
        have behind : p₁.rest.dropWhile Parser.isSpace = 93 :: rest := closed
        rw [c.rest, blank, behind]
        simp
      · cases h
        cases ok

theorem parseMembers_sound (kept : ∀ p, Kept 0 p (item p)) (sound : Sound item depth P) {cfg : Config}
    {rounds : Nat} {entries : List (Key × Value)} (distinct : (OrderedMap.keys entries).Nodup)
    (h : parseMembers cfg item rounds p entries = (v, p')) (at_depth : p.depth = depth) (memory : p.memory = [])
    (ok : p'.failed = false) (named : p'.nameless = false) :
    ∃ body members, Members P body members ∧ v = .array (collected cfg entries members) ∧
      Consumed p p' (body ++ [125]) (depth - 1) := by
  induction rounds generalizing p entries with
  | zero =>
    cases h
    cases ok
  | succ rounds ih =>
    rw [parseMembers] at h
    rcases name_eq : parseString p with ⟨_ | s, p₁⟩
    · simp only [name_eq] at h
      cases h
      -- there is a quotation mark, as the flag `nameless` is down
      have quote : p.rest.head? = some 34 := by
        have := (Bool.or_eq_false_iff.mp named).2
        simpa using this
      have failed := parseString_none name_eq memory quote
      exact absurd (failed.symm.trans ok) (by decide)
    · simp only [name_eq] at h
      obtain ⟨name, isName, whole, e⟩ := parseString_some name_eq memory
      generalize p₁.rest = behindName at whole e
      subst e
      obtain ⟨m, hm, blank⟩ := exists_blank behindName
      split at h
      · next rest colon =>
        obtain ⟨m', hm', blank'⟩ := exists_blank rest
        have behind : behindName.dropWhile Parser.isSpace = 58 :: rest := colon
        have one := kept ({ p with rest := rest, live := p.live + 1 } : Parser).skipSpace
        rcases first : item ({ p with rest := rest, live := p.live + 1 } : Parser).skipSpace with ⟨v₁, p₂⟩
        rw [first] at one
        simp only [Parser.skipSpace] at first h
        simp only [first] at h
        split at h
        · next failed =>
          cases h
          exact absurd (failed.symm.trans ok) (by decide)
        · next fine =>
          rw [Bool.not_eq_true] at fine
          obtain ⟨granted, memory', ask, empty⟩ := p₂.ask_eq
          obtain ⟨rfl, rfl⟩ := empty (one.memory memory)
          simp only [ask, Bool.true_eq_false, if_false] at h
          obtain ⟨r, hr, blank₂⟩ := exists_blank p₂.rest
          split at h
          · next rest₂ comma =>
            have later := parseMembers_kept kept cfg rounds
              ({ p₂ with rest := rest₂, memory := [], live := p₂.live - releasedBy entries (memberKey cfg s) } : Parser).skipSpace
              (OrderedMap.nodup_set (memberKey cfg s) v₁ distinct)
            have named₁ : p₂.nameless = false := later.nameless ((congrArg (·.2.nameless) h).trans named)
            obtain ⟨l, text, hl, value, c⟩ := sound first at_depth memory fine named₁
            obtain ⟨body, members, hmembers, rfl, c'⟩ := ih (OrderedMap.nodup_set _ _ distinct) h c.depth rfl
            obtain ⟨l', hl', blank₃⟩ := exists_blank rest₂
            have member : Member P _ s v₁ := .mk blank_nil isName hm (hm'.append hl) value hr
            refine ⟨_, (s, v₁) :: members, .more member (hmembers.blank hl'), rfl, ?_⟩
            refine ⟨?_, c'.depth, c'.memory, c.failed, c.nameless⟩
            have behind₁ : rest.dropWhile Parser.isSpace = l ++ text ++ p₂.rest := c.rest
            have behind₂ : p₂.rest.dropWhile Parser.isSpace = 44 :: rest₂ := comma
            have behind₃ : rest₂.dropWhile Parser.isSpace = body ++ [125] ++ p'.rest := c'.rest
            rw [whole, blank, behind, blank', behind₁, blank₂, behind₂, blank₃, behind₃]
            simp
          · next rest₂ closed =>
            cases h
            obtain ⟨l, text, hl, value, c⟩ := sound first at_depth memory fine named
            have member : Member P _ s v₁ := .mk blank_nil isName hm (hm'.append hl) value hr
            refine ⟨_, [(s, v₁)], .last member, rfl, ?_⟩
            refine ⟨?_, congrArg (· - 1) c.depth, rfl, c.failed, c.nameless⟩
            have behind₁ : rest.dropWhile Parser.isSpace = l ++ text ++ p₂.rest := c.rest
            have behind₂ : p₂.rest.dropWhile Parser.isSpace = 125 :: rest₂ := closed
            rw [whole, blank, behind, blank', behind₁, blank₂, behind₂]
            simp
          · cases h
            cases ok
      · cases h
        cases ok

theorem parseArray_sound (kept : ∀ p, Kept 0 p (item p)) (sound : Sound item (depth + 1) P)
    (h : parseArray item p = (v, p')) (at_depth : p.depth = depth) (memory : p.memory = [])
    (ok : p'.failed = false) (named : p'.nameless = false) :
    ∃ text, (Blank text ∧ v = .array [] ∨ ∃ vs, Elements P text vs ∧ v = .array (numbered 0 vs)) ∧
      Consumed p p' (text ++ [93]) depth := by
  obtain ⟨granted, memory', ask, empty⟩ := p.ask_eq
  obtain ⟨rfl, rfl⟩ := empty memory
  simp only [parseArray, ask, Bool.true_eq_false, if_false] at h
  obtain ⟨ws, hws, blank⟩ := exists_blank p.rest
  split at h
  · next rest closed =>
    cases h
    refine ⟨ws, .inl ⟨hws, rfl⟩, ?_, at_depth, rfl, ok, named⟩
    have behind : p.rest.dropWhile Parser.isSpace = 93 :: rest := closed
    rw [blank, behind]
    simp
  · obtain ⟨body, vs, elements, rfl, c⟩ := parseItems_sound kept sound h (congrArg (· + 1) at_depth) rfl ok named
    refine ⟨ws ++ body, .inr ⟨vs, elements.blank hws, rfl⟩, ?_, c.depth, c.memory, c.failed, c.nameless⟩
    have behind : p.rest.dropWhile Parser.isSpace = body ++ [93] ++ p'.rest := c.rest
    rw [blank, behind]
    simp only [append_assoc]

theorem parseObject_sound (kept : ∀ p, Kept 0 p (item p)) (sound : Sound item (depth + 1) P) {cfg : Config}
    (h : parseObject cfg item p = (v, p')) (at_depth : p.depth = depth) (memory : p.memory = [])
    (ok : p'.failed = false) (named : p'.nameless = false) :
    ∃ text, (Blank text ∧ v = .array [] ∨ ∃ members, Members P text members ∧ v = .array (collected cfg [] members)) ∧
      Consumed p p' (text ++ [125]) depth := by
  obtain ⟨granted, memory', ask, empty⟩ := p.ask_eq
  obtain ⟨rfl, rfl⟩ := empty memory
  simp only [parseObject, ask, Bool.true_eq_false, if_false] at h
  obtain ⟨ws, hws, blank⟩ := exists_blank p.rest
  split at h
  · next rest closed =>
    cases h
    refine ⟨ws, .inl ⟨hws, rfl⟩, ?_, at_depth, rfl, ok, named⟩
    have behind : p.rest.dropWhile Parser.isSpace = 125 :: rest := closed
    rw [blank, behind]
    simp
  · have distinct : (OrderedMap.keys ([] : List (Key × Value))).Nodup := nodup_nil
    obtain ⟨body, members, hmembers, rfl, c⟩ :=
      parseMembers_sound kept sound distinct h (congrArg (· + 1) at_depth) rfl ok named
    refine ⟨ws ++ body, .inr ⟨members, hmembers.blank hws, rfl⟩, ?_, c.depth, c.memory, c.failed, c.nameless⟩
    have behind : p.rest.dropWhile Parser.isSpace = body ++ [125] ++ p'.rest := c.rest
    rw [blank, behind]
    simp only [append_assoc]

end SoundLoops

theorem parseNumber_sound (h : parseNumber cfg p = (v, p')) (memory : p.memory = []) (ok : p'.failed = false) :
    ∃ text floating, IsNumber text floating ∧ numberValue cfg text floating = some v ∧
      p.rest = text ++ p'.rest ∧ p' = { p with rest := p'.rest } := by
  obtain ⟨granted, memory', ask, empty⟩ := p.ask_eq
  obtain ⟨rfl, rfl⟩ := empty memory
  rw [parseNumber] at h
  split at h
  · cases h
    cases ok
  · next text floating rest scan =>
    simp only [ask, Bool.true_eq_false, if_false] at h
    split at h
    · cases h
      cases ok
    · next v' hv =>
      cases h
      obtain ⟨number, whole⟩ := scanNumber_sound scan
      exact ⟨text, floating, number, hv, whole, by rw [← memory]⟩

theorem exists_append_of_isPrefixOf {word rest : List UInt8} (h : word.isPrefixOf rest = true) :
    rest = word ++ rest.drop word.length := by
  obtain ⟨behind, rfl⟩ := isPrefixOf_iff_prefix.mp h
  rw [drop_left]

/-- **What is read without failing is a value**, unless an object was left at a name. -/
theorem parseValue_sound (cfg : Config) {room rounds : Nat} (full : 32 ≤ depth + room) :
    Sound (parseValue cfg rounds) depth (IsValue cfg room) := by
  induction rounds generalizing room depth with
  | zero =>
    intro p p' v h _ _ ok _
    cases h
    cases ok
  | succ rounds ih =>
    intro p p' v h at_depth memory ok named
    obtain ⟨l, hl, blank⟩ := exists_blank p.rest
    rw [parseValue] at h
    split at h
    · cases h
      cases ok
    · next shallow =>
      have room_left : depth < 32 := at_depth ▸ not_le.mp shallow
      obtain ⟨room, rfl⟩ : ∃ r, room = r + 1 := Nat.exists_eq_succ_of_ne_zero (by omega)
      split at h
      · cases h
        cases ok
      · next first rest first_eq =>
        have starts : p.rest.dropWhile Parser.isSpace = first :: rest := first_eq
        have kept := parseValue_kept cfg rounds
        have sound : Sound (parseValue cfg rounds) (depth + 1) (IsValue cfg room) := ih (by omega)
        have value : ∀ text, Production cfg (IsValue cfg room) text v →
            p.rest.dropWhile Parser.isSpace = text ++ p'.rest → p'.depth = depth → p'.memory = [] →
            p.failed = false → p.nameless = false →
            ∃ l text, Blank l ∧ IsValue cfg (room + 1) text v ∧ Consumed p p' (l ++ text) depth := by
          intro text production whole depth' memory' ok' named'
          refine ⟨l, text, hl, production, ?_, depth', memory', ok', named'⟩
          rw [append_assoc, ← whole]
          exact blank
        split_ifs at h with quote bracket brace isTrue isFalse isNull number
        · rcases read : parseString p.skipSpace with ⟨_ | s, p₁⟩
          · rw [read] at h
            cases h
            have failed := parseString_none read memory (by rw [first_eq, quote]; rfl)
            exact absurd (failed.symm.trans ok) (by decide)
          · rw [read] at h
            cases h
            obtain ⟨text, string, whole, e⟩ := parseString_some read memory
            exact value text (.string string) whole ((congrArg Parser.depth e).trans at_depth)
              ((congrArg Parser.memory e).trans memory) ((congrArg Parser.failed e).symm.trans ok)
              ((congrArg Parser.nameless e).symm.trans named)
        · obtain ⟨text, which, c⟩ := parseArray_sound kept sound h at_depth memory ok named
          have whole : p.rest.dropWhile Parser.isSpace = 91 :: (text ++ [93]) ++ p'.rest := by
            rw [starts, bracket, cons_append, ← c.rest]
          refine value _ ?_ whole c.depth c.memory c.failed c.nameless
          rcases which with ⟨empty, rfl⟩ | ⟨vs, elements, rfl⟩
          · exact .emptyArray empty
          · exact .array elements
        · obtain ⟨text, which, c⟩ := parseObject_sound kept sound h at_depth memory ok named
          have whole : p.rest.dropWhile Parser.isSpace = 123 :: (text ++ [125]) ++ p'.rest := by
            rw [starts, brace, cons_append, ← c.rest]
          refine value _ ?_ whole c.depth c.memory c.failed c.nameless
          rcases which with ⟨empty, rfl⟩ | ⟨members, hmembers, rfl⟩
          · exact .emptyObject empty
          · exact .object hmembers
        · cases h
          exact value _ .isTrue (exists_append_of_isPrefixOf isTrue) at_depth memory ok named
        · cases h
          exact value _ .isFalse (exists_append_of_isPrefixOf isFalse) at_depth memory ok named
        · cases h
          exact value _ .null (exists_append_of_isPrefixOf isNull) at_depth memory ok named
        · obtain ⟨text, floating, number, hv, whole, e⟩ := parseNumber_sound h memory ok
          exact value text (.number number hv) whole ((congrArg Parser.depth e).trans at_depth)
            ((congrArg Parser.memory e).trans memory) ((congrArg Parser.failed e).symm.trans ok)
            ((congrArg Parser.nameless e).symm.trans named)
        · cases h
          cases ok

/-! ## Whole texts -/

theorem parseValue_skipSpace (cfg : Config) (rounds : Nat) (p : Parser) :
    parseValue cfg (rounds + 1) p.skipSpace = parseValue cfg (rounds + 1) p := by
  have again : p.skipSpace.skipSpace = p.skipSpace := by
    simp only [Parser.skipSpace, dropWhile_idempotent]
  rw [parseValue, parseValue, again]

theorem parseText_eq (h : IsText cfg text v) : parseText cfg [] text = (v, .ready 0 v.blocks false []) := by
  obtain ⟨l, body, r, hl, value, hr, rfl⟩ := h
  have starts : StartsValue body := Production.head value
  have skip : (Parser.ready 0 0 false (l ++ (body ++ r))).skipSpace = Parser.ready 0 0 false (body ++ r) :=
    skipSpace_value hl starts
  have read : parseValue cfg 33 (Parser.ready 0 0 false (body ++ r)) = (v, .ready 0 v.blocks false r) := by
    have room : 0 + 32 ≤ 32 := le_rfl
    have enough : 32 ≤ 33 := Nat.le_succ _
    simpa using parseValue_eq value room enough 0 false r (ends_blank hr)
  have last : (Parser.ready 0 v.blocks false (r ++ [])).skipSpace = Parser.ready 0 v.blocks false [] :=
    skipSpace_ready hr fun b h => nomatch h
  rw [append_nil] at last
  rw [parseText, Parser.start, ← parseValue_skipSpace, skip, read]
  simp only [last]

theorem parseText_sound (h : parseText cfg [] text = (v, p)) (ok : p.succeeds = true)
    (named : p.nameless = false) : IsText cfg text v := by
  rcases read : parseValue cfg 33 (.start [] text) with ⟨v', p'⟩
  simp only [parseText, read] at h
  cases h
  rw [Parser.succeeds, Bool.and_eq_true, Bool.not_eq_true', List.isEmpty_iff] at ok
  have deep : 32 ≤ 0 + 32 := le_rfl
  obtain ⟨l, body, hl, value, c⟩ := parseValue_sound cfg deep read rfl rfl ok.1 named
  obtain ⟨r, hr, blank⟩ := exists_blank p'.rest
  refine ⟨l, body, r, hl, value, hr, ?_⟩
  have nothing : p'.rest.dropWhile Parser.isSpace = [] := ok.2
  have whole : text = l ++ body ++ p'.rest := c.rest
  rw [whole, blank, nothing, append_nil, append_assoc]

/-- **`json_decode` accepts the JSON texts**: in the associative mode and with memory at hand it succeeds on every
JSON text with its value, and where it succeeds the text is one, unless an object was left at a name without a
quotation mark. It holds no blocks but those of its result, null where it fails. Any other mode is an error. -/
theorem jsonDecode_accepts (cfg : Config) (text : PString) (associative : Option Bool) :
    (associative = some false → ∀ memory, jsonDecode cfg memory text associative =
      .error "json_decode() requires associative array mode") ∧ (associative ≠ some false →
      (∀ v, IsText cfg text.bytes v → ∃ p, jsonDecode cfg [] text associative = .ok (v, p) ∧ p.succeeds = true) ∧
      (∀ v p, jsonDecode cfg [] text associative = .ok (v, p) → p.succeeds = true → p.nameless = false →
        IsText cfg text.bytes v) ∧
      (∀ memory, ∃ v p, jsonDecode cfg memory text associative = .ok (v, p) ∧ p.live = v.blocks ∧
        (p.succeeds = false → v = .null))) := by
  refine ⟨fun other memory => by rw [jsonDecode, if_pos other], fun mode => ⟨?_, ?_, ?_⟩⟩
  · intro v h
    rw [jsonDecode, if_neg mode, parseText_eq h]
    exact ⟨_, rfl, rfl⟩
  · intro v p h ok named
    rw [jsonDecode, if_neg mode] at h
    rcases read : parseText cfg [] text.bytes with ⟨v', p'⟩
    simp only [read] at h
    split at h
    · cases h
      exact parseText_sound read ok named
    · next failed =>
      cases h
      exact absurd ok failed
  · intro memory
    rw [jsonDecode, if_neg mode]
    have kept := parseValue_kept cfg 33 (.start memory text.bytes)
    rcases read : parseText cfg memory text.bytes with ⟨v, p⟩
    have live : p.live = v.blocks := by
      have all := kept.live
      simp only [parseText, Prod.mk.injEq] at read
      obtain ⟨rfl, rfl⟩ := read
      simpa [Parser.start, Parser.skipSpace] using all
    simp only
    split
    · next ok => exact ⟨v, p, rfl, live, fun h => absurd (ok.symm.trans h) (by decide)⟩
    · refine ⟨.null, p.release v, rfl, ?_, fun _ => rfl⟩
      rw [Parser.release, live]
      simp [Value.blocks]

/-- The hypothesis is met: two numbers between brackets. -/
theorem jsonDecode_accepts_list (cfg : Config) :
    IsText { cfg with int64 := true } (ascii "[1, 2]") (.array [(.int 0, .int 1), (.int 1, .int 2)]) :=
  ((jsonDecode_accepts { cfg with int64 := true } ⟨ascii "[1, 2]", by decide⟩ none).2 (by decide)).2.1
    _ (.ready 0 1 false []) rfl rfl rfl

/-- A JSON text is not accepted where the mode is another one. -/
theorem associative_mode_required : ¬ ∀ (cfg : Config) (text : PString) (associative : Option Bool),
      (∃ v p, jsonDecode cfg [] text associative = .ok (v, p) ∧ p.succeeds = true) ↔ ∃ v, IsText cfg text.bytes v := by
  intro always
  have text : IsText ⟨true, true, true, true, true⟩ (ascii "null") .null :=
    ⟨[], ascii "null", [], blank_nil, .null, blank_nil, rfl⟩
  obtain ⟨v, p, h, -⟩ := (always ⟨true, true, true, true, true⟩ ⟨ascii "null", by decide⟩ (some false)).mpr ⟨_, text⟩
  cases h

/-- An object is left, and null is what it gives, where a name does not begin with a quotation mark. -/
example : jsonDecode ⟨true, true, true, true, true⟩ [] ⟨ascii "[\x7bx]", by decide⟩ none =
    .ok (.array [(.int 0, .null)], ⟨[], 1, false, [], 1, true⟩) := rfl

end PhpPico.Json
