import PhpPico.Json.Accept

/-!
# Encoding and decoding

A value that `json_encode` turns into text comes back from `json_decode` unless more than 32 values lie inside one
another: the encoder admits an array at depth 31 with something in it.
-/

namespace PhpPico.Json
open List
open Option (bind_eq_some_iff)

/-! ## Values -/

mutual

/-- How many values lie inside one another. -/
def Value.height : Value → Nat
  | .array entries => 1 + heightOf entries
  | _ => 1

def heightOf : List (Key × Value) → Nat
  | [] => 0
  | (_, v) :: rest => max v.height (heightOf rest)

end

/-- A key an array can have: a string that reads as an integer is none. -/
def Key.Regular (cfg : Config) : Key → Prop
  | .int i => cfg.intMin ≤ i ∧ i ≤ cfg.intMax
  | .string s => numericStringKey cfg s.bytes = none

mutual

/-- A value of null, booleans, integers, strings and arrays of these. -/
def Value.Regular (cfg : Config) : Value → Prop
  | .float _ => False
  | .int i => cfg.intMin ≤ i ∧ i ≤ cfg.intMax
  | .array entries => (OrderedMap.keys entries).Nodup ∧ RegularEntries cfg entries
  | _ => True

def RegularEntries (cfg : Config) : List (Key × Value) → Prop
  | [] => True
  | (key, v) :: rest => Key.Regular cfg key ∧ v.Regular cfg ∧ RegularEntries cfg rest

end

/-! ## What is printed -/

/-- A string between quotation marks. -/
def quoted (bytes : List UInt8) : List UInt8 := 34 :: (bytes.flatMap escape ++ [34])

section Print
variable (formatFloat : List UInt8 → List UInt8) (pretty : Bool)

/-- A line break and the indentation, when they are asked for. -/
def breakText (depth : Nat) : List UInt8 := if pretty then 10 :: indentation depth else []

/-- The name in front of a member. -/
def nameText (key : Key) : List UInt8 := quoted (keyBytes key) ++ 58 :: (if pretty then [32] else [])

mutual

/-- What `encode_value` writes when there is room. -/
def printValue (depth : Nat) : Value → List UInt8
  | .null => ascii "null"
  | .bool false => ascii "false"
  | .bool true => ascii "true"
  | .int i => formatInteger i
  | .float text => formatFloat text
  | .string s => quoted s.bytes
  | .array entries =>
    (if arrayIsList entries then 91 else 123) :: (printEntries (arrayIsList entries) depth entries ++
        ((if entries = [] then [] else breakText pretty depth) ++ [if arrayIsList entries then 93 else 125]))

/-- What the loop of `encode_array` writes, from the first entry on. -/
def printEntries (list : Bool) (depth : Nat) : List (Key × Value) → List UInt8
  | [] => []
  | (key, v) :: rest =>
    breakText pretty (depth + 1) ++ ((if list then [] else nameText pretty key) ++
      (printValue (depth + 1) v ++ ((if rest = [] then [] else [44]) ++ printEntries list depth rest)))

end

variable {buffer out : List UInt8}

theorem append_some {bytes : List UInt8} (h : append buffer bytes = some out) :
    out = buffer ++ bytes := (append_eq_some.mp h).2

theorem encodeString_some {bytes : List UInt8} (h : encodeString buffer bytes = some out) :
    out = buffer ++ quoted bytes := by
  have loop : ∀ {bytes buffer out : List UInt8},
      bytes.foldlM (fun buffer byte => append buffer (escape byte)) buffer = some out →
        out = buffer ++ bytes.flatMap escape := by
    intro bytes
    induction bytes with
    | nil =>
      intro buffer out h
      cases h
      exact (append_nil _).symm
    | cons byte bytes ih =>
      intro buffer out h
      rw [foldlM_cons] at h
      obtain ⟨next, first, h⟩ := bind_eq_some_iff.mp h
      rw [ih h, append_some first, flatMap_cons, append_assoc]
  obtain ⟨b₁, open_, h⟩ := bind_eq_some_iff.mp h
  obtain ⟨b₂, body, close⟩ := bind_eq_some_iff.mp h
  rw [append_some close, loop body, append_some open_, quoted]
  simp

theorem lineBreak_some {depth : Nat} (h : lineBreak pretty depth buffer = some out) :
    out = buffer ++ breakText pretty depth := by
  cases pretty with
  | false =>
    cases h
    exact (append_nil _).symm
  | true => exact append_some h

theorem encodeName_some {key : Key} (h : encodeName pretty key buffer = some out) :
    out = buffer ++ nameText pretty key := by
  obtain ⟨c₁, string, rest⟩ := bind_eq_some_iff.mp h
  obtain ⟨c₂, colon, blank⟩ := bind_eq_some_iff.mp rest
  have blank_eq : out = c₂ ++ if pretty then [32] else [] := by
    cases pretty with
    | true => exact append_some blank
    | false =>
      cases blank
      exact (append_nil _).symm
  rw [blank_eq, append_some colon, encodeString_some string, nameText]
  simp

mutual

/-- **`encode_value` appends the text of the value**, or fails. -/
theorem encodeValue_some {depth : Nat} {buffer out : List UInt8} (v : Value)
    (h : encodeValue formatFloat pretty depth buffer v = some out) :
    out = buffer ++ printValue formatFloat pretty depth v := by
  cases v with
  | null => exact append_some h
  | bool b => cases b <;> exact append_some h
  | int i => exact append_some h
  | float text => exact append_some h
  | string s => exact encodeString_some h
  | array entries =>
    rw [encodeValue] at h
    split at h
    · cases h
    · obtain ⟨b₁, open_, h₁⟩ := bind_eq_some_iff.mp h
      obtain ⟨b₂, body, h₂⟩ := bind_eq_some_iff.mp h₁
      obtain ⟨b₃, behind, close⟩ := bind_eq_some_iff.mp h₂
      have entries_eq := encodeEntries_some entries body
      have behind_eq : b₃ = b₂ ++ if entries = [] then [] else breakText pretty depth := by
        split at behind
        · next empty =>
          cases behind
          rw [if_pos empty, append_nil]
        · next nonempty =>
          rw [if_neg nonempty]
          exact lineBreak_some pretty behind
      rw [append_some close, behind_eq, entries_eq, append_some open_, printValue]
      cases arrayIsList entries <;> simp

theorem encodeEntries_some {list first : Bool} {depth : Nat} {buffer out : List UInt8} (entries : List (Key × Value))
    (h : encodeEntries formatFloat pretty list depth first buffer entries = some out) :
    out = buffer ++ ((if first = true ∨ entries = [] then [] else [44]) ++
      printEntries formatFloat pretty list depth entries) := by
  cases entries with
  | nil =>
    cases h
    simp [printEntries]
  | cons entry rest =>
    obtain ⟨key, v⟩ := entry
    rw [encodeEntries] at h
    obtain ⟨b₁, comma, h₁⟩ := bind_eq_some_iff.mp h
    obtain ⟨b₂, line, h₂⟩ := bind_eq_some_iff.mp h₁
    obtain ⟨b₃, name, h₃⟩ := bind_eq_some_iff.mp h₂
    obtain ⟨b₄, item, behind⟩ := bind_eq_some_iff.mp h₃
    have comma_eq : b₁ = buffer ++ if first = true ∨ (key, v) :: rest = [] then [] else [44] := by
      cases first with
      | true =>
        cases comma
        simp
      | false => simpa using append_some comma
    have name_eq : b₃ = b₂ ++ if list then [] else nameText pretty key := by
      cases list with
      | true =>
        cases name
        exact (append_nil _).symm
      | false => exact encodeName_some pretty name
    rw [encodeEntries_some rest behind, encodeValue_some v item, name_eq, lineBreak_some pretty line, comma_eq, printEntries]
    simp

end

end Print

/-! ## The text of a string or an integer -/

variable {n : Nat}

theorem hexValue_hexDigit (h : n < 16) : hexValue (hexDigit n) = some n := by
  have all : ∀ n : Fin 16, hexValue (hexDigit n) = some n.val := by decide
  exact all ⟨n, h⟩

theorem codepointBytes_small {byte : UInt8} (h : byte < 32) : codepointBytes byte.toNat = [byte] := by
  have small : byte.toNat ≤ 127 := by
    have := UInt8.lt_iff_toNat_lt.mp h
    have bound : (32 : UInt8).toNat = 32 := rfl
    omega
  rw [codepointBytes, if_pos small, UInt8.ofNat_toNat]

theorem chars_escape (byte : UInt8) {text bytes : List UInt8} (rest : Chars text bytes) :
    Chars (escape byte ++ text) (byte :: bytes) := by
  have letter : ∀ letter : UInt8, unescape letter = some byte → Chars (92 :: letter :: text) (byte :: bytes) :=
    fun l stands => .escape (.letter stands) rest
  unfold escape
  split_ifs with quote backslash slash b f n r t control
  · exact letter 34 (by rw [quote]; rfl)
  · exact letter 92 (by rw [backslash]; rfl)
  · exact letter 47 (by rw [slash]; rfl)
  · exact letter 98 (by rw [b]; rfl)
  · exact letter 102 (by rw [f]; rfl)
  · exact letter 110 (by rw [n]; rfl)
  · exact letter 114 (by rw [r]; rfl)
  · exact letter 116 (by rw [t]; rfl)
  · have small : byte.toNat < 32 := UInt8.lt_iff_toNat_lt.mp control
    have digits : Hex4 [48, 48, hexDigit (byte.toNat / 16), hexDigit (byte.toNat % 16)] byte.toNat := by
      have high : byte.toNat / 16 < 16 := by omega
      have low : byte.toNat % 16 < 16 := by omega
      have value : ((0 * 16 + 0) * 16 + byte.toNat / 16) * 16 + byte.toNat % 16 = byte.toNat := by omega
      have hex := Hex4.mk (a := 48) (b := 48) (w := 0) (x := 0) rfl rfl (hexValue_hexDigit high) (hexValue_hexDigit low)
      rwa [value] at hex
    have point := Chars.escape (.unicode (.single digits (.inl (by omega)))) rest
    rwa [codepointBytes_small control] at point
  · exact .plain (UInt8.not_lt.mp control) quote backslash rest

theorem isString_quoted (s : PString) : IsString (quoted s.bytes) s := by
  refine ⟨s.bytes.flatMap escape, rfl, ?_⟩
  induction s.bytes with
  | nil => exact .nil
  | cons byte bytes ih => exact chars_escape byte ih

theorem printUnsigned_small (h : n < 10) : printUnsigned n = [UInt8.ofNat (48 + n)] := by
  have all : ∀ n : Fin 10, printUnsigned n = [UInt8.ofNat (48 + n.val)] := by decide
  exact all ⟨n, h⟩

theorem printUnsigned_large (h : 10 ≤ n) : printUnsigned n = printUnsigned (n / 10) ++ [UInt8.ofNat (48 + n % 10)] := by
  have last := printUnsigned_small (Nat.mod_lt n (by decide : 0 < 10))
  rw [printUnsigned, Nat.toDigits_of_lt_base (Nat.mod_lt n (by decide))] at last
  rw [printUnsigned, Nat.toDigits_of_base_le (by decide) h, map_append, ← last]
  rfl

theorem isDigit_ofNat (h : n < 10) : IsDigit (UInt8.ofNat (48 + n)) ∧ (UInt8.ofNat (48 + n)).toNat - 48 = n := by
  have all : ∀ n : Fin 10, IsDigit (UInt8.ofNat (48 + n.val)) ∧ (UInt8.ofNat (48 + n.val)).toNat - 48 = n.val := by decide
  exact all ⟨n, h⟩

/-- The digits of a number: they write it, and the first is a zero only where it is the only one. -/
theorem printUnsigned_spec (n : Nat) : IsDigits (printUnsigned n) ∧ decimal 0 (printUnsigned n) = n ∧
      ((printUnsigned n).head? = some 48 → n = 0) := by
  induction n using Nat.strongRecOn with
  | _ n ih =>
    by_cases small : n < 10
    · have digit := isDigit_ofNat small
      rw [printUnsigned_small small]
      refine ⟨⟨cons_ne_nil _ _, fun b h => mem_singleton.mp h ▸ digit.1⟩, ?_, fun h => ?_⟩
      · simpa [decimal] using digit.2
      · have zero : UInt8.ofNat (48 + n) = 48 := Option.some.inj h
        rw [zero] at digit
        exact digit.2.symm
    · have digit := isDigit_ofNat (Nat.mod_lt n (by decide : 0 < 10))
      obtain ⟨⟨nonempty, all⟩, value, zero⟩ := ih (n / 10) (by omega)
      rw [printUnsigned_large (not_lt.mp small)]
      refine ⟨⟨append_ne_nil_of_left_ne_nil nonempty _, fun b h => ?_⟩, ?_, fun h => ?_⟩
      · rcases mem_append.mp h with h | h
        · exact all b h
        · exact mem_singleton.mp h ▸ digit.1
      · rw [decimal, foldl_append]
        rw [decimal] at value
        rw [value, foldl_cons, foldl_nil, digit.2]
        omega
      · rw [head?_append_of_ne_nil _ nonempty] at h
        have := zero h
        omega

theorem printUnsigned_length {k : Nat} (h : n < 10 ^ (k + 1)) : (printUnsigned n).length ≤ k + 1 := by
  induction k generalizing n with
  | zero =>
    rw [printUnsigned_small (by simpa using h)]
    exact le_rfl
  | succ k ih =>
    by_cases small : n < 10
    · rw [printUnsigned_small small]
      exact Nat.le_add_left ..
    · have shorter : n / 10 < 10 ^ (k + 1) := by
        rw [pow_succ] at h
        exact Nat.div_lt_of_lt_mul (by omega)
      rw [printUnsigned_large (not_lt.mp small), length_append]
      exact Nat.succ_le_succ (ih shorter)

theorem isInt_printUnsigned (n : Nat) : IsInt (printUnsigned n) := by
  obtain ⟨digits, -, zero⟩ := printUnsigned_spec n
  by_cases first : (printUnsigned n).head? = some 48
  · rw [zero first]
    exact .inl rfl
  · exact .inr ⟨first, digits⟩

theorem isNumber_formatInteger (i : Int) : IsNumber (formatInteger i) false := by
  have minus : (if i < 0 then [(45 : UInt8)] else []) = [] ∨ (if i < 0 then [(45 : UInt8)] else []) = [45] := by
    split
    · exact .inr rfl
    · exact .inl rfl
  have number := IsNumber.mk minus (isInt_printUnsigned i.natAbs) (.inl rfl) (.inl rfl)
  rwa [append_nil, append_nil] at number

theorem integerOf_formatInteger (i : Int) : integerOf (formatInteger i) = i := by
  obtain ⟨digits, value, -⟩ := printUnsigned_spec i.natAbs
  rw [integerOf, formatInteger]
  by_cases negative : i < 0
  · rw [if_pos negative, singleton_append, head?_cons, if_pos rfl, tail_cons, value]
    omega
  · have unsigned : (printUnsigned i.natAbs).head? ≠ some 45 := by
      intro h
      exact absurd (digits.2 45 (mem_of_mem_head? h)) (by decide)
    rw [if_neg negative, nil_append, if_neg unsigned, value]
    omega

theorem integerLike_formatInteger {cfg : Config} {i : Int} (range : cfg.intMin ≤ i ∧ i ≤ cfg.intMax) :
    IntegerLike cfg (formatInteger i) i (printUnsigned i.natAbs) := by
  obtain ⟨digits, value, zero⟩ := printUnsigned_spec i.natAbs
  refine ⟨?_, digits.1, digits.2, fun h => by rw [zero h]; rfl, range.1, range.2⟩
  rw [formatInteger, value]
  by_cases negative : i < 0
  · exact .inr ⟨by rw [if_pos negative]; rfl, by omega⟩
  · exact .inl ⟨by rw [if_neg negative]; rfl, by omega⟩

theorem isString_name {cfg : Config} {key : Key} (regular : Key.Regular cfg key) :
    ∃ s, IsString (quoted (keyBytes key)) s ∧ memberKey cfg s = key := by
  cases key with
  | string s => exact ⟨s, isString_quoted s, by rw [memberKey, regular]⟩
  | int i =>
    have number := (numericStringKey_eq_some cfg (formatInteger i) i).mpr ⟨_, integerLike_formatInteger regular⟩
    have fits : (formatInteger i).length ≤ 65535 := by
      have below : i.natAbs < 10 ^ (19 + 1) := by
        have max : cfg.intMax ≤ 9223372036854775807 := by
          unfold Config.intMax
          split <;> omega
        obtain ⟨lower, upper⟩ := regular
        rw [Config.intMin] at lower
        omega
      have short := printUnsigned_length below
      have sign : (if i < 0 then [(45 : UInt8)] else []).length ≤ 1 := by split <;> simp
      rw [formatInteger, length_append]
      omega
    exact ⟨⟨formatInteger i, fits⟩, isString_quoted ⟨formatInteger i, fits⟩, by rw [memberKey, number]⟩

/-! ## The text of a value is a value -/

section Text
variable {cfg : Config} {formatFloat : List UInt8 → List UInt8} {pretty : Bool} {P : List UInt8 → Value → Prop}

theorem blank_breakText (pretty : Bool) (depth : Nat) : Blank (breakText pretty depth) := by
  unfold breakText indentation
  split
  · intro byte h
    rcases mem_cons.mp h with rfl | h
    · decide
    · obtain ⟨word, listed, h⟩ := mem_flatten.mp h
      rw [eq_of_mem_replicate listed] at h
      have blanks : ∀ b ∈ ascii "    ", b = 32 ∨ b = 9 ∨ b = 10 ∨ b = 13 := by decide +kernel
      exact blanks byte h
  · exact blank_nil

theorem blank_behindColon (pretty : Bool) : Blank (if pretty then [32] else []) := by
  split
  · intro byte h
    rw [mem_singleton.mp h]
    decide
  · exact blank_nil

variable {entries : List (Key × Value)}

theorem eq_numbered {n : Nat} (h : countsFrom n entries = true) : entries = numbered n (entries.map Prod.snd) := by
  induction entries generalizing n with
  | nil => rfl
  | cons entry rest ih =>
    obtain ⟨key, v⟩ := entry
    rw [countsFrom, Bool.and_eq_true, beq_iff_eq] at h
    rw [map_cons, numbered, ← ih h.2, h.1]

theorem elements_print {depth : Nat} {behind : List UInt8} (hbehind : Blank behind) (nonempty : entries ≠ [])
    (all : ∀ e ∈ entries, P (printValue formatFloat pretty (depth + 1) e.2) e.2) :
    Elements P (printEntries formatFloat pretty true depth entries ++ behind) (entries.map Prod.snd) := by
  induction entries with
  | nil => exact absurd rfl nonempty
  | cons entry rest ih =>
    obtain ⟨key, v⟩ := entry
    have one := all (key, v) (.head _)
    rw [printEntries]
    by_cases last : rest = []
    · subst last
      simp only [if_true, printEntries, append_nil, nil_append, append_assoc]
      exact .last (blank_breakText _ _) one hbehind
    · have next := ih last fun e h => all e (.tail _ h)
      simp only [if_true, if_neg last, nil_append, append_assoc, singleton_append]
      exact .more (blank_breakText _ _) one blank_nil next

theorem members_print {depth : Nat} {behind : List UInt8} (hbehind : Blank behind) (nonempty : entries ≠ [])
    (all : ∀ e ∈ entries, P (printValue formatFloat pretty (depth + 1) e.2) e.2) {names : List PString}
    (written : Forall₂ (fun e s => IsString (quoted (keyBytes e.1)) s) entries names) :
    Members P (printEntries formatFloat pretty false depth entries ++ behind) (names.zip (entries.map Prod.snd)) := by
  induction written with
  | nil => exact absurd rfl nonempty
  | @cons entry s rest names hname written ih =>
    obtain ⟨key, v⟩ := entry
    have one := all (key, v) (.head _)
    have member : ∀ {r : List UInt8}, Blank r → Member P (breakText pretty (depth + 1) ++ (quoted (keyBytes key) ++
        ([] ++ 58 :: ((if pretty then [32] else []) ++ (printValue formatFloat pretty (depth + 1) v ++ r))))) s v :=
      fun hr => .mk (blank_breakText _ _) hname blank_nil (blank_behindColon pretty) one hr
    rw [printEntries]
    by_cases last : rest = []
    · subst last
      simp only [Bool.false_eq_true, if_false, if_true, nameText, printEntries, append_nil, append_assoc, cons_append]
      cases written
      exact .last (member hbehind)
    · have next := ih last fun e h => all e (.tail _ h)
      have whole := Members.more (member blank_nil) next
      simpa only [Bool.false_eq_true, if_false, if_neg last, nameText, append_nil, append_assoc, cons_append,
        nil_append, map_cons, zip_cons_cons] using whole

theorem collected_zip {names : List PString}
    (named : Forall₂ (fun e s => memberKey cfg s = e.1) entries names) {before : List (Key × Value)}
    (distinct : (OrderedMap.keys (before ++ entries)).Nodup) :
    collected cfg before (names.zip (entries.map Prod.snd)) = before ++ entries := by
  induction named generalizing before with
  | nil => exact (append_nil _).symm
  | @cons entry s rest names name _ ih =>
    obtain ⟨key, v⟩ := entry
    have absent := (OrderedMap.nodup_around distinct).1
    rw [append_cons] at distinct ⊢
    rw [← ih distinct, map_cons, zip_cons_cons, collected, foldl_cons, name, OrderedMap.set_of_not_mem v absent]
    rfl

theorem exists_names (regular : RegularEntries cfg entries) :
    ∃ names, Forall₂ (fun e s => IsString (quoted (keyBytes e.1)) s) entries names ∧
      Forall₂ (fun e s => memberKey cfg s = e.1) entries names := by
  induction entries with
  | nil => exact ⟨[], .nil, .nil⟩
  | cons entry rest ih =>
    obtain ⟨s, written, named⟩ := isString_name regular.1
    obtain ⟨names, all_written, all_named⟩ := ih regular.2.2
    exact ⟨s :: names, .cons written all_written, .cons named all_named⟩

mutual

/-- **What is printed for a value is a text of the value**, when there is room. -/
theorem isValue_print (v : Value) (regular : v.Regular cfg) {room : Nat} (depth : Nat) (fits : v.height ≤ room) :
    IsValue cfg room (printValue formatFloat pretty depth v) v := by
  obtain _ | room := room
  · cases v <;> simp only [Value.height] at fits <;> omega
  cases v with
  | null => exact Production.null
  | bool b =>
    cases b with
    | false => exact Production.isFalse
    | true => exact Production.isTrue
  | int i =>
    have value : numberValue cfg (formatInteger i) false = some (.int i) := by
      rw [numberValue, integerOf_formatInteger, if_pos ⟨rfl, regular⟩]
    exact Production.number (isNumber_formatInteger i) value
  | float text => exact regular.elim
  | string s => exact Production.string (isString_quoted s)
  | array entries =>
    have inside : heightOf entries ≤ room := by
      rw [Value.height] at fits
      omega
    have all := isValue_printEntries entries regular.2 depth inside
    have blank := blank_breakText pretty depth
    rw [printValue]
    by_cases empty : entries = []
    · subst empty
      exact Production.emptyArray blank_nil
    · rw [if_neg empty]
      by_cases list : arrayIsList entries = true
      · have value := @Production.array cfg _ _ _ (elements_print blank empty all)
        rw [if_pos list, if_pos list, list]
        rwa [← eq_numbered list, append_assoc] at value
      · obtain ⟨names, written, named⟩ := exists_names regular.2
        have value := @Production.object cfg _ _ _ (members_print blank empty all written)
        rw [Bool.not_eq_true] at list
        have collect : collected cfg [] (names.zip (entries.map Prod.snd)) = [] ++ entries :=
          collected_zip named regular.1
        rw [collect, nil_append, append_assoc] at value
        simp only [list, Bool.false_eq_true, if_false]
        exact value

theorem isValue_printEntries (entries : List (Key × Value)) (regular : RegularEntries cfg entries)
    {room : Nat} (depth : Nat) (fits : heightOf entries ≤ room) :
    ∀ e ∈ entries, IsValue cfg room (printValue formatFloat pretty (depth + 1) e.2) e.2 := by
  cases entries with
  | nil => exact fun e h => nomatch h
  | cons entry rest =>
    obtain ⟨key, v⟩ := entry
    rw [heightOf] at fits
    intro e h
    rcases mem_cons.mp h with rfl | h
    · exact isValue_print v regular.2.1 _ (by omega)
    · exact isValue_printEntries rest regular.2.2 depth (by omega) e h

end

theorem startsValue_printEntries (regular : RegularEntries cfg entries) (depth : Nat) :
    ∀ e ∈ entries, StartsValue (printValue formatFloat pretty (depth + 1) e.2) := by
  intro e h
  have whole : IsValue cfg (heightOf entries + 1) (printValue formatFloat pretty (depth + 1) e.2) e.2 :=
    isValue_printEntries entries regular depth (Nat.le_succ _) e h
  exact Production.head whole

end Text

/-! ## Values that are too deep -/

/-- `parse` fails at the text, whatever is behind it. -/
def Refuses (parse : Parser → Value × Parser) (depth : Nat) (text : List UInt8) : Prop :=
  ∀ (live : Int) (nameless : Bool) (tail : List UInt8), Ends tail →
    (parse (.ready depth live nameless (text ++ tail))).2.failed = true

section Refused
variable {cfg : Config} {formatFloat : List UInt8 → List UInt8} {pretty : Bool}
  {item : Parser → Value × Parser} {depth : Nat}

variable {tail : List UInt8} {outer rounds : Nat} {entries : List (Key × Value)}

theorem parseItems_refuses {l text : List UInt8} (hl : Blank l) (starts : StartsValue text)
    (refused : Refuses item depth text) (ends : Ends tail) (rounds : Nat) (live : Int) (nameless : Bool)
    (entries : List (Key × Value)) :
    (parseItems item rounds (Parser.ready depth live nameless (l ++ (text ++ tail))).skipSpace entries).2.failed =
      true := by
  cases rounds with
  | zero => rfl
  | succ rounds =>
    have failed := refused live nameless tail ends
    rw [skipSpace_value hl starts, parseItems]
    simp only [failed, if_true]
    exact failed

theorem parseMembers_refuses {l name m text : List UInt8} {s : PString} (hl : Blank l) (hname : IsString name s)
    (hm : Blank m) (starts : StartsValue text) (refused : Refuses item depth text) (ends : Ends tail)
    (rounds : Nat) (live : Int) (nameless : Bool) (entries : List (Key × Value)) : (parseMembers cfg item rounds
      (Parser.ready depth live nameless (l ++ (name ++ 58 :: (m ++ (text ++ tail))))).skipSpace entries).2.failed =
      true := by
  cases rounds with
  | zero => rfl
  | succ rounds =>
    have failed := refused (live + 1) nameless tail ends
    obtain ⟨body, e, -⟩ := id hname
    rw [e, cons_append, skipSpace_byte hl (by decide), ← cons_append, ← e, parseMembers, parseString_eq hname]
    simp only
    have colon : (Parser.ready depth (live + 1) nameless ([] ++ 58 :: (m ++ (text ++ tail)))).skipSpace =
        .ready depth (live + 1) nameless (58 :: (m ++ (text ++ tail))) := skipSpace_byte blank_nil (by decide)
    rw [nil_append] at colon
    simp only [colon]
    rw [skipSpace_value hm starts]
    simp only [failed, if_true]
    exact failed

theorem loop_refused (loop : Nat → Parser → List (Key × Value) → Value × Parser) (list : Bool) (nameless : Bool)
    (ends : Ends tail) (zero : ∀ p acc, (loop 0 p acc).2.failed = true)
    (goesOn : ∀ e ∈ entries, Reads item depth (printValue formatFloat pretty (outer + 1) e.2) e.2 →
      ∀ rounds live acc rest, ∃ live' acc', loop (rounds + 1)
        (Parser.ready depth live nameless (breakText pretty (outer + 1) ++ ((if list then [] else nameText pretty e.1) ++
          (printValue formatFloat pretty (outer + 1) e.2 ++ 44 :: rest)))).skipSpace acc =
        loop rounds (Parser.ready depth live' nameless rest).skipSpace acc')
    (stops : ∀ e ∈ entries, Refuses item depth (printValue formatFloat pretty (outer + 1) e.2) →
      ∀ rounds live acc rest, Ends rest → (loop rounds
        (Parser.ready depth live nameless (breakText pretty (outer + 1) ++ ((if list then [] else nameText pretty e.1) ++
          (printValue formatFloat pretty (outer + 1) e.2 ++ rest)))).skipSpace acc).2.failed = true)
    (each : ∀ e ∈ entries, Reads item depth (printValue formatFloat pretty (outer + 1) e.2) e.2 ∨
      Refuses item depth (printValue formatFloat pretty (outer + 1) e.2))
    (bad : ∃ e ∈ entries, Refuses item depth (printValue formatFloat pretty (outer + 1) e.2)) (rounds : Nat)
    (live : Int) (acc : List (Key × Value)) : (loop rounds (Parser.ready depth live nameless
      (printEntries formatFloat pretty list outer entries ++ tail)).skipSpace acc).2.failed = true := by
  induction entries generalizing rounds live acc with
  | nil =>
    obtain ⟨e, h, -⟩ := bad
    cases h
  | cons e rest ih =>
    obtain _ | rounds := rounds
    · exact zero _ _
    have first : e ∈ e :: rest := .head _
    rw [printEntries]
    simp only [append_assoc]
    by_cases refused : Refuses item depth (printValue formatFloat pretty (outer + 1) e.2)
    · refine stops e first refused _ _ _ _ ?_
      by_cases last : rest = []
      · rw [last, if_pos rfl, printEntries]
        exact ends
      · rw [if_neg last]
        exact ends_blank_cons blank_nil (.inl rfl)
    · have read := (each e first).resolve_right refused
      obtain ⟨e', listed, refused'⟩ := bad
      have behind : e' ∈ rest := by
        rcases mem_cons.mp listed with rfl | h
        · exact absurd refused' refused
        · exact h
      rw [if_neg (ne_nil_of_mem behind)]
      obtain ⟨live', acc', next⟩ := goesOn e first read rounds live acc (printEntries formatFloat pretty list outer rest ++ tail)
      rw [singleton_append, next]
      exact ih (fun e h => goesOn e (.tail _ h)) (fun e h => stops e (.tail _ h))
        (fun e h => each e (.tail _ h)) ⟨e', behind, refused'⟩ rounds live' acc'

theorem readsAll_starts : ReadsAll (fun text v => Reads item depth text v ∧ StartsValue text) item depth :=
  ⟨fun h => h.1, fun h => h.2⟩

theorem parseArray_refuses (starts : ∀ e ∈ entries, StartsValue (printValue formatFloat pretty (outer + 1) e.2))
    (each : ∀ e ∈ entries, Reads item (depth + 1) (printValue formatFloat pretty (outer + 1) e.2) e.2 ∨
      Refuses item (depth + 1) (printValue formatFloat pretty (outer + 1) e.2))
    (bad : ∃ e ∈ entries, Refuses item (depth + 1) (printValue formatFloat pretty (outer + 1) e.2))
    (ends : Ends tail) (live : Int) (nameless : Bool) : (parseArray item (.ready depth live nameless
      (printEntries formatFloat pretty true outer entries ++ tail))).2.failed = true := by
  have loop := loop_refused (parseItems item) true nameless ends (fun p acc => rfl)
    (fun e h read rounds live acc rest => ⟨_, _,
      parseItems_more readsAll_starts (blank_breakText pretty (outer + 1)) ⟨read, starts e h⟩ blank_nil rounds live
        nameless acc⟩)
    (fun e h refused rounds live acc rest ends =>
      parseItems_refuses (blank_breakText pretty (outer + 1)) (starts e h) refused ends rounds live nameless acc)
    each bad
  obtain ⟨e, listed, -⟩ := bad
  cases entries with
  | nil => cases listed
  | cons e rest =>
    rw [printEntries] at loop ⊢
    simp only [if_true, nil_append, append_assoc] at loop ⊢
    rw [parseArray_loop (blank_breakText pretty (outer + 1)) ((starts e mem_cons_self).append _)]
    exact loop _ _ _

theorem parseObject_refuses (regular : RegularEntries cfg entries)
    (starts : ∀ e ∈ entries, StartsValue (printValue formatFloat pretty (outer + 1) e.2))
    (each : ∀ e ∈ entries, Reads item (depth + 1) (printValue formatFloat pretty (outer + 1) e.2) e.2 ∨
      Refuses item (depth + 1) (printValue formatFloat pretty (outer + 1) e.2))
    (bad : ∃ e ∈ entries, Refuses item (depth + 1) (printValue formatFloat pretty (outer + 1) e.2))
    (ends : Ends tail) (live : Int) (nameless : Bool) : (parseObject cfg item (.ready depth live nameless
      (printEntries formatFloat pretty false outer entries ++ tail))).2.failed = true := by
  obtain ⟨names, written, -⟩ := exists_names regular
  have name : ∀ e ∈ entries, ∃ s, IsString (quoted (keyBytes e.1)) s := by
    intro e h
    obtain ⟨i, bound, rfl⟩ := getElem_of_mem h
    have same := written.length_eq
    exact ⟨_, Forall₂.get written bound (by omega)⟩
  have loop := loop_refused (parseMembers cfg item) false nameless ends (fun p acc => rfl)
    (fun e h read rounds live acc rest => by
      obtain ⟨s, hname⟩ := name e h
      have member : Member (fun text v => Reads item (depth + 1) text v ∧ StartsValue text) _ s e.2 :=
        .mk (blank_breakText pretty (outer + 1)) hname blank_nil (blank_behindColon pretty) ⟨read, starts e h⟩
          blank_nil
      have step := @parseMembers_more _ item (depth + 1) _ _ cfg readsAll_starts rest _ member rounds live nameless acc
      refine ⟨live + 1 + e.2.blocks - releasedBy acc (memberKey cfg s), OrderedMap.set acc (memberKey cfg s) e.2, ?_⟩
      simpa only [nameText, Bool.false_eq_true, if_false, append_assoc, cons_append, nil_append, append_nil] using step)
    (fun e h refused rounds live acc rest ends => by
      obtain ⟨s, hname⟩ := name e h
      have stop := @parseMembers_refuses cfg item (depth + 1) _ _ _ _ _ _ (blank_breakText pretty (outer + 1)) hname
        (blank_behindColon pretty) (starts e h) refused ends rounds live nameless acc
      simpa only [nameText, Bool.false_eq_true, if_false, append_assoc, cons_append] using stop)
    each bad
  obtain ⟨e, listed, -⟩ := bad
  cases entries with
  | nil => cases listed
  | cons e rest =>
    rw [printEntries] at loop ⊢
    simp only [Bool.false_eq_true, if_false, nameText, quoted, append_assoc, cons_append] at loop ⊢
    rw [parseObject_loop (blank_breakText pretty (outer + 1))]
    exact loop _ _ _

/-- Inside 32 arrays and objects nothing is read. -/
theorem parseValue_deep (deep : 32 ≤ depth) (text : List UInt8) : Refuses (parseValue cfg rounds) depth text := by
  intro live nameless tail _
  cases rounds with
  | zero => rfl
  | succ rounds =>
    rw [parseValue]
    split
    · rfl
    · next shallow => exact absurd deep shallow

theorem parseValue_bracket (shallow : depth < 32) (live : Int) (nameless : Bool) (rest : List UInt8) :
    parseValue cfg (rounds + 1) (.ready depth live nameless (91 :: rest)) =
      parseArray (parseValue cfg rounds) (.ready depth live nameless rest) := by
  rw [parseValue]
  simp only [Parser.skipSpace, dropWhile_cons_of_neg (show ¬ Parser.isSpace 91 = true by decide)]
  rw [if_neg (not_le.mpr shallow)]
  rfl

theorem parseValue_brace (shallow : depth < 32) (live : Int) (nameless : Bool) (rest : List UInt8) :
    parseValue cfg (rounds + 1) (.ready depth live nameless (123 :: rest)) =
      parseObject cfg (parseValue cfg rounds) (.ready depth live nameless rest) := by
  rw [parseValue]
  simp only [Parser.skipSpace, dropWhile_cons_of_neg (show ¬ Parser.isSpace 123 = true by decide)]
  rw [if_neg (not_le.mpr shallow)]
  rfl

theorem exists_of_heightOf {n : Nat} (h : n < heightOf entries) : ∃ e ∈ entries, n < e.2.height := by
  induction entries with
  | nil =>
    rw [heightOf] at h
    omega
  | cons e rest ih =>
    rw [heightOf] at h
    by_cases first : n < e.2.height
    · exact ⟨e, .head _, first⟩
    · obtain ⟨e', listed, deep⟩ := ih (by omega)
      exact ⟨e', .tail _ listed, deep⟩

mutual

/-- **The text of a value that is too deep is refused.** -/
theorem parseValue_refuses (v : Value) (regular : v.Regular cfg) {rounds depth : Nat} (outer : Nat)
    (deep : 32 < depth + v.height) (enough : 32 ≤ depth + rounds) :
    Refuses (parseValue cfg rounds) depth (printValue formatFloat pretty outer v) := by
  by_cases shallow : depth < 32
  · cases v with
    | array entries =>
      obtain _ | rounds := rounds
      · omega
      have starts : ∀ e ∈ entries, StartsValue (printValue formatFloat pretty (outer + 1) e.2) :=
        startsValue_printEntries regular.2 outer
      have bad : ∃ e ∈ entries, Refuses (parseValue cfg rounds) (depth + 1) (printValue formatFloat pretty (outer + 1) e.2) := by
        rw [Value.height] at deep
        have deeper : 32 - (depth + 1) < heightOf entries := by omega
        obtain ⟨e, listed, h⟩ := exists_of_heightOf deeper
        exact ⟨e, listed, (parseValue_entries entries regular.2 outer (by omega) e listed).2 (by omega)⟩
      have each : ∀ e ∈ entries,
          Reads (parseValue cfg rounds) (depth + 1) (printValue formatFloat pretty (outer + 1) e.2) e.2 ∨
            Refuses (parseValue cfg rounds) (depth + 1) (printValue formatFloat pretty (outer + 1) e.2) := by
        intro e listed
        have left : 32 ≤ depth + 1 + rounds := by omega
        have both := parseValue_entries entries regular.2 outer left e listed
        by_cases fits : depth + 1 + e.2.height ≤ 32
        · exact .inl (both.1 fits)
        · exact .inr (both.2 (by omega))
      intro live nameless tail _
      have behind : ∀ close : UInt8, close = 93 ∨ close = 125 →
          Ends ((if entries = [] then [] else breakText pretty outer) ++ close :: tail) := by
        intro close closes
        refine ends_blank_cons ?_ (.inr closes)
        split
        · exact blank_nil
        · exact blank_breakText pretty outer
      rw [printValue]
      simp only [cons_append, append_assoc, nil_append]
      by_cases list : arrayIsList entries = true
      · simp only [list, if_true]
        rw [parseValue_bracket shallow]
        exact parseArray_refuses starts each bad (behind 93 (.inl rfl)) live nameless
      · rw [Bool.not_eq_true] at list
        simp only [list, Bool.false_eq_true, if_false]
        rw [parseValue_brace shallow]
        exact parseObject_refuses regular.2 starts each bad (behind 125 (.inr rfl)) live nameless
    | _ => simp only [Value.height] at deep; omega
  · exact parseValue_deep (not_lt.mp shallow) _

theorem parseValue_entries (entries : List (Key × Value)) (regular : RegularEntries cfg entries) {rounds depth : Nat}
    (outer : Nat) (enough : 32 ≤ depth + rounds) : ∀ e ∈ entries,
      (depth + e.2.height ≤ 32 → Reads (parseValue cfg rounds) depth (printValue formatFloat pretty (outer + 1) e.2) e.2) ∧
      (32 < depth + e.2.height → Refuses (parseValue cfg rounds) depth (printValue formatFloat pretty (outer + 1) e.2)) := by
  cases entries with
  | nil => exact fun e h => nomatch h
  | cons entry rest =>
    obtain ⟨key, v⟩ := entry
    intro e h
    rcases mem_cons.mp h with rfl | h
    · refine ⟨fun fits => ?_, fun deep => parseValue_refuses v regular.2.1 _ deep enough⟩
      exact parseValue_eq (isValue_print v regular.2.1 _ le_rfl) fits (by simp only at fits; omega)
    · exact parseValue_entries rest regular.2.2 outer enough e h

end

end Refused

/-! ## There and back -/

theorem encoded_text {formatFloat : List UInt8 → List UInt8} {pretty : Bool} {v : Value} {text : PString}
    (h : jsonEncode formatFloat pretty v = some text) : text.bytes = printValue formatFloat pretty 0 v := by
  obtain ⟨bytes, encoded, new⟩ := bind_eq_some_iff.mp h
  rw [psNew] at new
  split at new
  · cases new
    exact encodeValue_some formatFloat pretty v encoded
  · cases new

/-- **What `json_encode` writes comes back from `json_decode` exactly when no more than 32 values lie
inside one another**; otherwise it is refused. -/
theorem decode_encode_iff (cfg : Config) (formatFloat : List UInt8 → List UInt8) (pretty : Bool) (v : Value)
    (regular : v.Regular cfg) (text : PString) (encoded : jsonEncode formatFloat pretty v = some text) :
    (∃ p, jsonDecode cfg [] text (some true) = .ok (v, p) ∧ p.succeeds = true) ↔ v.height ≤ 32 := by
  have bytes := encoded_text encoded
  constructor
  · rintro ⟨p, decoded, ok⟩
    by_contra deep
    have refused : Refuses (parseValue cfg 33) 0 (printValue formatFloat pretty 0 v) :=
      parseValue_refuses v regular 0 (by omega) (by decide)
    have failed := refused 0 false [] fun b h => nomatch h
    rw [append_nil, ← bytes] at failed
    rw [jsonDecode, if_neg (by decide)] at decoded
    rcases read : parseText cfg [] text.bytes with ⟨v', p'⟩
    have failed' : p'.failed = true := by
      simp only [parseText, Prod.mk.injEq] at read
      rw [← read.2]
      exact failed
    simp only [read] at decoded
    split at decoded
    · next ok' =>
      rw [Parser.succeeds, failed'] at ok'
      cases ok'
    · cases decoded
      rw [Parser.succeeds, Parser.release, failed'] at ok
      cases ok
  · intro fits
    have whole : IsText cfg text.bytes v :=
      ⟨[], _, [], blank_nil, isValue_print v regular 0 fits, blank_nil, by rw [bytes, append_nil]; rfl⟩
    rw [jsonDecode, if_neg (by decide), parseText_eq whole]
    exact ⟨_, rfl, rfl⟩

/-- The hypotheses are met: a list of a boolean and a map. -/
theorem decode_encode_iff_map :
    ∃ p, jsonDecode ⟨true, true, true, true, true⟩ [] ⟨ascii "[true,\x7b\"7\":-12\x7d]", by decide⟩ (some true) =
      .ok (.array [(.int 0, .bool true), (.int 1, .array [(.int 7, .int (-12))])], p) ∧ p.succeeds = true :=
  (decode_encode_iff ⟨true, true, true, true, true⟩ id false
    (.array [(.int 0, .bool true), (.int 1, .array [(.int 7, .int (-12))])])
    (by simp [Value.Regular, RegularEntries, Key.Regular, Config.intMin, Config.intMax, OrderedMap.keys])
    ⟨ascii "[true,\x7b\"7\":-12\x7d]", by decide⟩ (by decide +kernel)).mpr (by decide)

/-- **What `json_encode` writes is JSON, of its value and of no other**, unless more than 32 values lie inside one
another: then it is the text of nothing. -/
theorem encoded_isText_iff (cfg : Config) (formatFloat : List UInt8 → List UInt8) (pretty : Bool) (v w : Value)
    (regular : v.Regular cfg) (text : PString) (encoded : jsonEncode formatFloat pretty v = some text) :
    IsText cfg text.bytes w ↔ w = v ∧ v.height ≤ 32 := by
  have bytes := encoded_text encoded
  have whole (fits : v.height ≤ 32) : IsText cfg text.bytes v :=
    ⟨[], _, [], blank_nil, isValue_print v regular 0 fits, blank_nil, by rw [bytes, append_nil]; rfl⟩
  constructor
  · intro other
    have read := parseText_eq other
    by_cases fits : v.height ≤ 32
    · exact ⟨congrArg Prod.fst (read.symm.trans (parseText_eq (whole fits))), fits⟩
    · have refused : Refuses (parseValue cfg 33) 0 (printValue formatFloat pretty 0 v) :=
        parseValue_refuses v regular 0 (by omega) (by decide)
      have failed := refused 0 false [] fun b h => nomatch h
      rw [append_nil, ← bytes] at failed
      simp only [parseText, Prod.mk.injEq] at read
      have failed' : (Parser.ready 0 w.blocks false []).failed = true := by
        rw [← read.2]
        exact failed
      cases failed'
  · rintro ⟨rfl, fits⟩
    exact whole fits

theorem encoded_isText_iff_null : IsText ⟨true, true, true, true, true⟩ (ascii "[null]") (.array [(.int 0, .null)]) :=
  (encoded_isText_iff ⟨true, true, true, true, true⟩ id false (.array [(.int 0, .null)]) _
    ⟨nodup_singleton _, ⟨by decide, by decide⟩, trivial, trivial⟩ ⟨ascii "[null]", by decide⟩
    (by decide +kernel)).mpr ⟨rfl, by decide⟩

/-- Null inside `n` lists. -/
def nested : Nat → Value
  | 0 => .null
  | n + 1 => .array [(.int 0, nested n)]

/-- Null inside 32 lists is written, but not read. -/
theorem nested_null_lost :
    ¬ ∀ (cfg : Config) (formatFloat : List UInt8 → List UInt8) (pretty : Bool) (v : Value), v.Regular cfg →
      ∀ text, jsonEncode formatFloat pretty v = some text →
        ∃ p, jsonDecode cfg [] text (some true) = .ok (v, p) ∧ p.succeeds = true := by
  intro always
  have regular : ∀ n, (nested n).Regular ⟨true, true, true, true, true⟩ := by
    intro n
    induction n with
    | zero => trivial
    | succ n ih =>
      exact ⟨nodup_singleton _, ⟨by decide, by decide⟩, ih, trivial⟩
  have written : jsonEncode id false (nested 32) =
      some ⟨replicate 32 91 ++ (ascii "null" ++ replicate 32 93), by decide⟩ := by
    decide +kernel
  obtain ⟨p, decoded, ok⟩ := always ⟨true, true, true, true, true⟩ id false (nested 32) (regular 32) _ written
  have lost : (match jsonDecode ⟨true, true, true, true, true⟩ []
      ⟨replicate 32 91 ++ (ascii "null" ++ replicate 32 93), by decide⟩ (some true) with
    | .ok (_, p) => p.succeeds
    | .error _ => false) = false := by
    decide +kernel
  rw [decoded] at lost
  exact absurd (ok.symm.trans lost) (by decide)

end PhpPico.Json
