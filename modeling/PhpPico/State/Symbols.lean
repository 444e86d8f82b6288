import PhpPico.Lib.ProbeTable
import PhpPico.Parray.Table
import PhpPico.Pool.Alloc

/-!
# The symbol table under nested executions

Interned strings hang in a table with linear probing, resized before it is three quarters full. A nested execution
runs on a copy of a state, and with it on a copy of the table's head: the address of its entries, its capacity and its
count. Nothing of the copy is taken over at the end.
-/

namespace PhpPico
open List Option ProbeTable

/-- An interned string: its identity and its bytes. -/
structure Symbol where
  id : Nat
  bytes : List UInt8
  deriving DecidableEq

/-- `psymbol_table`; `entries` is the address of an array. -/
structure PsymbolTable where
  entries : Nat
  capacity : Nat
  count : Nat
  deriving DecidableEq

/-- The arrays of entries, `none` once they are freed, and the number of strings made so far. -/
structure SymbolMemory where
  arrays : List (Option (List (Option Symbol)))
  made : Nat
  deriving DecidableEq

/-- The entries at an address. -/
def SymbolMemory.array (m : SymbolMemory) (entries : Nat) : Option (List (Option Symbol)) :=
  (m.arrays[entries]?).join

/-! ## Symbols -/

/-- The loop of `next_power_of_two`. -/
def doubleUntil (value : Nat) : Nat → Nat → Nat
  | 0, result => result
  | rounds + 1, result => if result < value then doubleUntil value rounds (result * 2) else result

/-- `next_power_of_two`; the loop stops at half the values of `size_t`. -/
def nextPowerOfTwo (t : Arch) (value : Nat) : Nat := doubleUntil value (8 * t.pointer - 4) 8

/-- The loop of `find_slot`; a walk that passes all slots never ends. -/
def findSlotFrom (entries : List (Option Symbol)) (capacity : Nat) (bytes : List UInt8) : Nat → Nat → Option Nat
  | 0, _ => none
  | rounds + 1, slot =>
    match cell entries slot with
    | none => some slot
    | some s =>
      if s.bytes = bytes then some slot
      else findSlotFrom entries capacity bytes rounds ((slot + 1) &&& (capacity - 1))

/-- The hash of a string as a number. -/
def symbolHash (bytes : List UInt8) : Nat := (psHashBytes bytes).toNat

/-- `find_slot`. -/
def findSlot (entries : List (Option Symbol)) (capacity : Nat) (bytes : List UInt8) : Option Nat :=
  findSlotFrom entries capacity bytes capacity (symbolHash bytes &&& (capacity - 1))

/-- Enter one entry of the old array into the new one. -/
def reenter (capacity : Nat) (entries : List (Option Symbol)) : Option Symbol → Option (List (Option Symbol))
  | none => some entries
  | some s => (findSlot entries capacity s.bytes).map fun slot => entries.set slot (some s)

/-- An array of this capacity is not allocated: `room` says so, or it is larger than the allocator's
largest block. -/
def ArrayRefused (t : Arch) (room : Bool) (capacity : Nat) : Prop :=
  room = false ∨ 4294967287 < capacity * t.pointer

instance (t : Arch) (room : Bool) (capacity : Nat) : Decidable (ArrayRefused t room capacity) :=
  inferInstanceAs (Decidable (_ ∨ _))

/-- `resize_table`, and whether it succeeded. -/
def resizeTable (t : Arch) (room : Bool) (m : SymbolMemory) (table : PsymbolTable) (capacity : Nat) :
    Option (SymbolMemory × PsymbolTable × Bool) :=
  let capacity := nextPowerOfTwo t capacity
  if ArrayRefused t room capacity then some (m, table, false)
  else do
    let old ← m.array table.entries
    let entries ← (old.take table.capacity).foldlM (reenter capacity) (replicate capacity none)
    return (⟨m.arrays.set table.entries none ++ [some entries], m.made⟩,
      { table with entries := m.arrays.length, capacity := capacity }, true)

/-- `psymbol_init` with the capacity 64. -/
def psymbolInit : SymbolMemory × PsymbolTable :=
  (⟨[some (replicate 64 none)], 0⟩, ⟨0, 64, 0⟩)

/-- `psymbol_find`; nothing when it reads a freed array or never ends. -/
def psymbolFind (m : SymbolMemory) (table : PsymbolTable) (bytes : List UInt8) : Option (Option Symbol) :=
  if table.capacity = 0 then some none
  else do
    let entries ← m.array table.entries
    let slot ← findSlot entries table.capacity bytes
    return cell entries slot

/-- The table is resized before another symbol is looked for. -/
def PsymbolTable.Crowded (table : PsymbolTable) : Prop := table.capacity * 3 ≤ (table.count + 1) * 4

instance (table : PsymbolTable) : Decidable table.Crowded := inferInstanceAs (Decidable (_ ≤ _))

/-- The end of `psymbol_intern`: look for the symbol and make it if there is none. -/
def internSlot (memory : Bool) (m : SymbolMemory) (table : PsymbolTable) (bytes : List UInt8) :
    Option (SymbolMemory × PsymbolTable × Option Symbol) := do
  let entries ← m.array table.entries
  let slot ← findSlot entries table.capacity bytes
  match cell entries slot with
  | some s => return (m, table, some s)
  | none =>
    if memory then
      return (⟨m.arrays.set table.entries (some (entries.set slot (some ⟨m.made, bytes⟩))), m.made + 1⟩,
        { table with count := table.count + 1 }, some ⟨m.made, bytes⟩)
    else return (m, table, none)

/-- `psymbol_intern`. `room` and `memory` say whether the array of a resize and the string of a new
symbol can be allocated. -/
def psymbolIntern (t : Arch) (room memory : Bool) (m : SymbolMemory) (table : PsymbolTable)
    (bytes : List UInt8) : Option (SymbolMemory × PsymbolTable × Option Symbol) :=
  if table.capacity = 0 then some (m, table, none)
  else if table.Crowded then do
    let (m, table, resized) ← resizeTable t room m table (table.capacity * 2)
    if resized then internSlot memory m table bytes else return (m, table, none)
  else internSlot memory m table bytes

/-! ## Nested executions -/

/-- The tables of the states that are executing: the one that runs, and those that wait for it, the
root's last. -/
structure States where
  memory : SymbolMemory
  running : PsymbolTable
  below : List PsymbolTable
  deriving DecidableEq

def States.tables (s : States) : List PsymbolTable := s.running :: s.below

/-- The root's table. -/
def States.root (s : States) : PsymbolTable := s.below.getLastD s.running

/-- What happens to the tables: the running state interns a string, `pphp_vm_invoke` copies the
running state, `pphp_exec_include` copies the root, and a nested execution ends. -/
inductive SymbolEvent where
  | intern (bytes : List UInt8) (room memory : Bool)
  | vmInvoke
  | execInclude
  | leave
  deriving DecidableEq

/-- One event, with the string that was interned and its symbol. -/
def States.step (t : Arch) (s : States) : SymbolEvent → Option (List (List UInt8 × Symbol) × States)
  | .intern bytes room memory =>
    (psymbolIntern t room memory s.memory s.running bytes).map fun (m, table, symbol) =>
      (symbol.toList.map fun x => (bytes, x), { s with memory := m, running := table })
  | .vmInvoke => some ([], { s with below := s.tables })
  | .execInclude => some ([], { s with running := s.root, below := s.tables })
  | .leave =>
    match s.below with
    | [] => some ([], s)
    | table :: below => some ([], { s with running := table, below := below })

/-- The events of a run; nothing when one of them reads a freed array or never ends. -/
def States.run (t : Arch) (s : States) : List SymbolEvent → Option (List (List UInt8 × Symbol) × States)
  | [] => some ([], s)
  | event :: events => do
    let (given, s) ← s.step t event
    let (given', s) ← s.run t events
    return (given ++ given', s)

/-- `pphp_open`. -/
def States.opened : States := ⟨psymbolInit.1, psymbolInit.2, []⟩

/-- All states use one live array, and the head of each says how full it is. -/
structure States.Coherent (s : States) : Prop where
  shared : ∀ table ∈ s.tables, table.entries = s.running.entries
  live : ∃ cells, s.memory.array s.running.entries = some cells ∧ none ∈ cells ∧
    ∀ table ∈ s.tables, table.capacity = cells.length ∧ table.count = cells.reduceOption.length ∧
      table.count * 4 < table.capacity * 3

/-- `psymbol_intern` changes nothing: the table is not resized, and no symbol is made. -/
def Idle (t : Arch) (room memory : Bool) (m : SymbolMemory) (table : PsymbolTable) (bytes : List UInt8) : Prop :=
  if table.Crowded then ArrayRefused t room (nextPowerOfTwo t (table.capacity * 2))
  else memory = false ∨ ∃ x, psymbolFind m table bytes = some (some x)

/-- An event of a nested execution that leaves the table alone: an interned string is in the table already or cannot
be made, and nothing is resized. -/
def SymbolEvent.Quiet (t : Arch) (s : States) : SymbolEvent → Prop
  | .intern bytes room memory => s.below = [] ∨ Idle t room memory s.memory s.running bytes
  | _ => True

/-- The events of a run are quiet. -/
def States.QuietRun (t : Arch) (s : States) : List SymbolEvent → Prop
  | [] => True
  | event :: events => event.Quiet t s ∧ ∀ given s', s.step t event = some (given, s') → s'.QuietRun t events

/-! ## One table -/

section Table
variable {t : Arch} {room memory : Bool} {m : SymbolMemory} {table : PsymbolTable}
  {cells : List (Option Symbol)} {bytes : List UInt8} {k : Nat}

theorem doubleUntil_pow {a b rounds : Nat} (le : a ≤ b) (enough : b - a ≤ rounds) :
    doubleUntil (2 ^ b) rounds (2 ^ a) = 2 ^ b := by
  induction rounds generalizing a with
  | zero =>
    have same : a = b := by omega
    rw [same, doubleUntil]
  | succ rounds ih =>
    rw [doubleUntil]
    split
    · next lt =>
      have below := (Nat.pow_lt_pow_iff_right (by decide : 1 < 2)).mp lt
      rw [← pow_succ]
      exact ih below (by omega)
    · next stop =>
      have reached := (Nat.pow_le_pow_iff_right (by decide : 1 < 2)).mp (not_lt.mp stop)
      rw [le_antisymm le reached]

theorem nextPowerOfTwo_pow (large : 3 ≤ k) (small : k ≤ 30) : nextPowerOfTwo t (2 ^ k) = 2 ^ k := by
  apply doubleUntil_pow (a := 3) large
  cases t with
  | bits32 => simp only [Arch.pointer]; omega
  | bits64 => simp only [Arch.pointer]; omega

theorem findSlotFrom_eq (power : cells.length = 2 ^ k) (rounds slot : Nat) :
    findSlotFrom cells cells.length bytes rounds slot = probe Symbol.bytes cells bytes rounds slot := by
  induction rounds generalizing slot with
  | zero => rfl
  | succ rounds ih =>
    rw [findSlotFrom, probe]
    have next : (slot + 1) &&& (cells.length - 1) = (slot + 1) % cells.length := by
      rw [power, Nat.and_two_pow_sub_one_eq_mod]
    cases cell cells slot with
    | none => rfl
    | some x => simp only [next, ih]

/-- **`find_slot` walks the table.** -/
theorem findSlot_eq (power : cells.length = 2 ^ k) (bytes : List UInt8) : findSlot cells cells.length bytes =
      probe Symbol.bytes cells bytes cells.length (symbolHash bytes % cells.length) := by
  rw [findSlot, findSlotFrom_eq power]
  rw [show symbolHash bytes &&& (cells.length - 1) = symbolHash bytes % cells.length by
    rw [power, Nat.and_two_pow_sub_one_eq_mod]]

/-- The entries of a table, and what its head says of them. -/
structure PsymbolTable.Ok (table : PsymbolTable) (cells : List (Option Symbol)) : Prop where
  capacity : table.capacity = cells.length
  power : ∃ k, 6 ≤ k ∧ k ≤ 29 ∧ cells.length = 2 ^ k
  count : table.count = cells.reduceOption.length
  load : table.count * 4 < table.capacity * 3
  placed : Placed Symbol.bytes symbolHash cells

theorem PsymbolTable.Ok.empty_slot (h : table.Ok cells) : none ∈ cells := by
  have := h.capacity
  have := h.count
  have := h.load
  exact reduceOption_length_lt_iff.mp (by omega)

theorem PsymbolTable.Ok.findSlot (h : table.Ok cells) (bytes : List UInt8) :
    ∃ i, i < cells.length ∧ findSlot cells table.capacity bytes = some i ∧
      ((∃ x, cell cells i = some x ∧ x.bytes = bytes) ∨
        cell cells i = none ∧ (∀ x ∈ cells.reduceOption, x.bytes ≠ bytes) ∧
          ∀ x : Symbol, x.bytes = bytes → Placed Symbol.bytes symbolHash (cells.set i (some x))) := by
  obtain ⟨k, -, -, power⟩ := h.power
  obtain ⟨i, lt, run, outcome⟩ := h.placed.probe_cases h.empty_slot bytes
  refine ⟨i, lt, ?_, outcome⟩
  rw [h.capacity, findSlot_eq power]
  exact run

theorem reenter_all (old : List (Option Symbol)) (power : cells.length = 2 ^ k)
    (placed : Placed Symbol.bytes symbolHash cells)
    (distinct : ((cells.reduceOption ++ old.reduceOption).map Symbol.bytes).Nodup)
    (room : cells.reduceOption.length + old.reduceOption.length < cells.length) :
    ∃ cells', old.foldlM (reenter cells.length) cells = some cells' ∧ cells'.length = cells.length ∧
      Placed Symbol.bytes symbolHash cells' ∧ cells'.reduceOption.Perm (cells.reduceOption ++ old.reduceOption) := by
  induction old generalizing cells with
  | nil =>
    refine ⟨cells, rfl, rfl, placed, ?_⟩
    rw [reduceOption_nil, append_nil]
  | cons c rest ih =>
    rw [foldlM_cons]
    cases c with
    | none =>
      rw [reduceOption_cons_of_none] at distinct room ⊢
      exact ih power placed distinct room
    | some x =>
      rw [reduceOption_cons_of_some] at distinct room ⊢
      rw [length_cons] at room
      have empty : none ∈ cells := reduceOption_length_lt_iff.mp (by omega)
      obtain ⟨i, lt, run, outcome⟩ := placed.probe_cases empty x.bytes
      have fresh : ∀ y ∈ cells.reduceOption, y.bytes ≠ x.bytes := by
        intro y hy same
        rw [map_append, map_cons] at distinct
        have apart := (nodup_append.mp distinct).2.2
        exact apart _ (List.mem_map_of_mem hy) _ (.head _) same
      obtain ⟨none_i, -, placed'⟩ := outcome.resolve_left fun ⟨y, at_i, same⟩ =>
        fresh y (cell_mem at_i) same
      have added := reduceOption_set (e := x) lt none_i
      have moved : ((cells.set i (some x)).reduceOption ++ rest.reduceOption).Perm
          (cells.reduceOption ++ x :: rest.reduceOption) :=
        (added.append_right _).trans perm_middle.symm
      have power' : (cells.set i (some x)).length = 2 ^ k := by rw [List.length_set, power]
      obtain ⟨cells', fold, length, placed'', perm⟩ := ih power' (placed' x rfl)
        (((moved.map Symbol.bytes).nodup_iff).mpr distinct)
        (by rw [List.length_set, added.length_eq, length_cons]; omega)
      rw [List.length_set] at fold length
      refine ⟨cells', ?_, length, placed'', perm.trans moved⟩
      have entered : reenter cells.length cells (some x) = some (cells.set i (some x)) := by
        rw [reenter, findSlot_eq power, run]
        rfl
      rw [entered]
      exact fold

theorem SymbolMemory.lt_of_array (live : m.array table.entries = some cells) : table.entries < m.arrays.length :=
  (List.getElem?_eq_some_iff.mp (join_eq_some_iff.mp live)).1

/-- **`resize_table`** moves the entries to an array of twice the size and frees the old one. -/
theorem PsymbolTable.Ok.resizeTable (h : table.Ok cells) (live : m.array table.entries = some cells)
    (granted : ¬ ArrayRefused t room (nextPowerOfTwo t (table.capacity * 2))) :
    ∃ cells' m' table', resizeTable t room m table (table.capacity * 2) = some (m', table', true) ∧
      table'.Ok cells' ∧ ¬ table'.Crowded ∧ m'.array table'.entries = some cells' ∧
      m'.array table.entries = none ∧ cells'.reduceOption.Perm cells.reduceOption := by
  obtain ⟨k, large, small, power⟩ := h.power
  have capacity := h.capacity
  have count := h.count
  have load := h.load
  have double : table.capacity * 2 = 2 ^ (k + 1) := by rw [capacity, power, pow_succ]
  have next : nextPowerOfTwo t (table.capacity * 2) = 2 ^ (k + 1) := by
    rw [double]
    exact nextPowerOfTwo_pow (by omega) (by omega)
  rw [next] at granted
  have few : k + 1 ≤ 29 := by
    by_contra many
    have eq : k + 1 = 30 := by omega
    rw [eq] at granted
    apply granted
    right
    cases t <;> decide
  have whole : cells.take table.capacity = cells := by rw [capacity, take_length]
  have wide : (replicate (2 ^ (k + 1)) (none : Option Symbol)).length = 2 ^ (k + 1) := length_replicate
  have nothing : (replicate (2 ^ (k + 1)) (none : Option Symbol)).reduceOption = [] := reduceOption_replicate_none
  obtain ⟨cells', fold, length, placed, perm⟩ := reenter_all cells wide (placed_replicate _)
    (by rw [nothing]; exact h.placed.distinct)
    (by rw [nothing, wide, ← double, length_nil]; omega)
  rw [wide] at fold length
  rw [nothing, nil_append] at perm
  have at_old := SymbolMemory.lt_of_array live
  have large' : 6 ≤ k + 1 := by omega
  have not_small : 2 ^ 6 ≤ 2 ^ k := Nat.pow_le_pow_right (by decide) large
  refine ⟨cells', ⟨m.arrays.set table.entries none ++ [some cells'], m.made⟩,
    { table with entries := m.arrays.length, capacity := 2 ^ (k + 1) }, ?_,
    ⟨?_, ⟨k + 1, large', few, length⟩, ?_, ?_, placed⟩, ?_, ?_, ?_, perm⟩
  · rw [PhpPico.resizeTable, next]
    simp only [if_neg granted, live, bind_eq_bind, bind_some, whole, fold]
    rfl
  · exact length.symm
  · rw [count, perm.length_eq]
  · simp only
    omega
  · unfold PsymbolTable.Crowded
    simp only
    omega
  · simp only [SymbolMemory.array]
    rw [getElem?_append_right (by rw [List.length_set]), List.length_set, Nat.sub_self]
    rfl
  · simp only [SymbolMemory.array]
    rw [getElem?_append_left (by rw [List.length_set]; exact at_old), getElem?_set_self at_old]
    rfl

/-- What the end of `psymbol_intern` does with an intact table that has room. -/
inductive Interned (memory : Bool) (m : SymbolMemory) (table : PsymbolTable) (bytes : List UInt8)
    (cells : List (Option Symbol)) : SymbolMemory × PsymbolTable × Option Symbol → Prop
  | found (x : Symbol) (listed : x ∈ cells.reduceOption) (own : x.bytes = bytes) :
      Interned memory m table bytes cells (m, table, some x)
  | refused (absent : ∀ x ∈ cells.reduceOption, x.bytes ≠ bytes) (none_left : memory = false) :
      Interned memory m table bytes cells (m, table, none)
  | made (absent : ∀ x ∈ cells.reduceOption, x.bytes ≠ bytes) (granted : memory = true) (x : Symbol)
      (own : x.bytes = bytes) {cells' : List (Option Symbol)} {m' : SymbolMemory}
      (ok : ({ table with count := table.count + 1 } : PsymbolTable).Ok cells')
      (live : m'.array table.entries = some cells')
      (added : cells'.reduceOption.Perm (x :: cells.reduceOption)) :
      Interned memory m table bytes cells (m', { table with count := table.count + 1 }, some x)

theorem PsymbolTable.Ok.internSlot (h : table.Ok cells) (live : m.array table.entries = some cells)
    (uncrowded : ¬ table.Crowded) (memory : Bool) (bytes : List UInt8) :
    ∃ r, internSlot memory m table bytes = some r ∧ Interned memory m table bytes cells r := by
  obtain ⟨i, lt, slot, outcome⟩ := h.findSlot bytes
  unfold PhpPico.internSlot
  simp only [live, bind_eq_bind, bind_some, slot]
  rcases outcome with ⟨x, at_i, own⟩ | ⟨none_i, absent, placed⟩
  · rw [at_i]
    exact ⟨_, rfl, .found x (cell_mem at_i) own⟩
  · rw [none_i]
    cases memory with
    | false => exact ⟨_, rfl, .refused absent rfl⟩
    | true =>
      have added := reduceOption_set (e := (⟨m.made, bytes⟩ : Symbol)) lt none_i
      have capacity := h.capacity
      have count := h.count
      have at_table := SymbolMemory.lt_of_array live
      obtain ⟨k, large, small, power⟩ := h.power
      refine ⟨_, rfl, .made absent rfl ⟨m.made, bytes⟩ rfl ?_ ?_ added⟩
      · refine ⟨?_, ⟨k, large, small, ?_⟩, ?_, ?_, placed _ rfl⟩
        · rw [List.length_set]
          exact capacity
        · rw [List.length_set]
          exact power
        · rw [added.length_eq, length_cons, ← count]
        · unfold PsymbolTable.Crowded at uncrowded
          simp only
          omega
      · simp only [SymbolMemory.array]
        rw [getElem?_set_self at_table]
        rfl

/-- **`psymbol_find`** finds the symbol of the table with the bytes. -/
theorem PsymbolTable.Ok.psymbolFind (h : table.Ok cells) (live : m.array table.entries = some cells) (x : Symbol) :
    psymbolFind m table bytes = some (some x) ↔ x ∈ cells.reduceOption ∧ x.bytes = bytes := by
  obtain ⟨i, -, slot, outcome⟩ := h.findSlot bytes
  obtain ⟨k, -, -, power⟩ := h.power
  have pos : table.capacity ≠ 0 := by
    rw [h.capacity, power]
    exact ne_of_gt (Nat.two_pow_pos k)
  have found : PhpPico.psymbolFind m table bytes = some (cell cells i) := by
    simp only [PhpPico.psymbolFind, if_neg pos, live, bind_eq_bind, bind_some, slot]
    rfl
  rw [found, some_inj]
  constructor
  · intro at_i
    rcases outcome with ⟨y, at_y, own⟩ | ⟨none_i, -⟩
    · rw [at_i, some_inj] at at_y
      rw [at_y]
      exact ⟨at_y ▸ cell_mem at_i, own⟩
    · simp [none_i] at at_i
  · rintro ⟨listed, own⟩
    rcases outcome with ⟨y, at_y, own'⟩ | ⟨-, absent, -⟩
    · rw [at_y, inj_on_of_nodup_map h.placed.distinct (cell_mem at_y) listed (own'.trans own.symm)]
    · exact absurd own (absent x listed)

/-- **`psymbol_intern` returns**: the table stays intact with its symbols, and the answer is one of them with the
bytes. Unless it is idle, the head changes. -/
theorem PsymbolTable.Ok.psymbolIntern (h : table.Ok cells) (live : m.array table.entries = some cells)
    (room memory : Bool) (bytes : List UInt8) :
    ∃ m' table' answer cells', psymbolIntern t room memory m table bytes = some (m', table', answer) ∧
      table'.Ok cells' ∧ m'.array table'.entries = some cells' ∧ (∀ x ∈ cells.reduceOption, x ∈ cells'.reduceOption) ∧
      (∀ x, answer = some x → x ∈ cells'.reduceOption ∧ x.bytes = bytes) ∧
      (Idle t room memory m table bytes → m' = m ∧ table' = table) ∧ (¬ Idle t room memory m table bytes →
        table'.entries ≠ table.entries ∨ table'.count ≠ table.count) := by
  obtain ⟨k, -, -, power⟩ := h.power
  have pos : table.capacity ≠ 0 := by
    rw [h.capacity, power]
    exact ne_of_gt (Nat.two_pow_pos k)
  unfold PhpPico.psymbolIntern Idle
  rw [if_neg pos]
  by_cases crowded : table.Crowded
  · simp only [if_pos crowded]
    by_cases refused : ArrayRefused t room (nextPowerOfTwo t (table.capacity * 2))
    · refine ⟨m, table, none, cells, ?_, h, live, fun x hx => hx, fun x e => (by cases e),
        fun _ => ⟨rfl, rfl⟩, fun c => absurd refused c⟩
      simp only [PhpPico.resizeTable, if_pos refused]
      rfl
    · obtain ⟨cells₁, m₁, table₁, resized, ok₁, uncrowded, live₁, freed, perm⟩ := h.resizeTable live refused
      have moved : table₁.entries ≠ table.entries := by
        intro same
        rw [same, freed] at live₁
        cases live₁
      obtain ⟨r, run, outcome⟩ := ok₁.internSlot live₁ uncrowded memory bytes
      simp only [resized, bind_eq_bind, bind_some, if_true, run]
      cases outcome with
      | found x listed own =>
        refine ⟨m₁, table₁, some x, cells₁, rfl, ok₁, live₁, fun y hy => perm.mem_iff.mpr hy, ?_,
          fun c => absurd c refused, fun _ => .inl moved⟩
        rintro y ⟨⟩
        exact ⟨listed, own⟩
      | refused absent none_left =>
        exact ⟨m₁, table₁, none, cells₁, rfl, ok₁, live₁, fun y hy => perm.mem_iff.mpr hy,
          fun x e => (by cases e), fun c => absurd c refused, fun _ => .inl moved⟩
      | made absent granted x own ok live added =>
        refine ⟨_, _, some x, _, rfl, ok, live, fun y hy => ?_, ?_, fun c => absurd c refused, fun _ => .inl moved⟩
        · exact added.mem_iff.mpr (mem_cons_of_mem x (perm.mem_iff.mpr hy))
        · rintro y ⟨⟩
          exact ⟨added.mem_iff.mpr (.head _), own⟩
  · simp only [if_neg crowded]
    obtain ⟨r, run, outcome⟩ := h.internSlot live crowded memory bytes
    simp only [run, h.psymbolFind live]
    cases outcome with
    | found x listed own =>
      refine ⟨m, table, some x, cells, rfl, h, live, fun y hy => hy, ?_, fun _ => ⟨rfl, rfl⟩, fun c => ?_⟩
      · rintro y ⟨⟩
        exact ⟨listed, own⟩
      · exact absurd (.inr ⟨x, listed, own⟩) c
    | refused absent none_left =>
      exact ⟨m, table, none, cells, rfl, h, live, fun y hy => hy, fun x e => (by cases e),
        fun _ => ⟨rfl, rfl⟩, fun c => absurd (.inl none_left) c⟩
    | made absent granted x own ok live added =>
      refine ⟨_, _, some x, _, rfl, ok, live, fun y hy => ?_, ?_, ?_, fun _ => .inr (Nat.succ_ne_self _)⟩
      · exact added.mem_iff.mpr (mem_cons_of_mem x hy)
      · rintro y ⟨⟩
        exact ⟨added.mem_iff.mpr (.head _), own⟩
      · rintro (none_left | ⟨y, listed, same⟩)
        · rw [granted] at none_left
          cases none_left
        · exact absurd same (absent y listed)

end Table

/-! ## Runs -/

section Runs
variable {t : Arch} {s s' : States} {cells : List (Option Symbol)} {event : SymbolEvent}
  {events : List SymbolEvent}

/-- All states have one head, of an intact table. -/
structure States.Intact (s : States) (cells : List (Option Symbol)) : Prop where
  same : ∀ table ∈ s.below, table = s.running
  live : s.memory.array s.running.entries = some cells
  ok : s.running.Ok cells

theorem States.Intact.coherent (h : s.Intact cells) : s.Coherent := by
  have same : ∀ table ∈ s.tables, table = s.running := by
    intro table ht
    rcases mem_cons.mp ht with rfl | ht
    · rfl
    · exact h.same table ht
  constructor
  · intro table ht
    rw [same table ht]
  · refine ⟨cells, h.live, h.ok.empty_slot, fun table ht => ?_⟩
    rw [same table ht]
    exact ⟨h.ok.capacity, h.ok.count, h.ok.load⟩

theorem States.Intact.root (h : s.Intact cells) : s.root = s.running := by
  unfold States.root
  rw [getLastD_eq_getLast?]
  cases last : s.below.getLast? with
  | none => rfl
  | some table => exact h.same table (mem_of_getLast? last)

/-- **One event**: a quiet one keeps the table intact, with its symbols and the symbols it gives;
any other one leaves two heads that differ. -/
theorem States.Intact.step (h : s.Intact cells) (event : SymbolEvent) :
    ∃ given s', s.step t event = some (given, s') ∧ (s'.Coherent ↔ event.Quiet t s) ∧
      (event.Quiet t s → ∃ cells', s'.Intact cells' ∧ (∀ x ∈ cells.reduceOption, x ∈ cells'.reduceOption) ∧
        ∀ p ∈ given, p.2 ∈ cells'.reduceOption ∧ p.2.bytes = p.1) := by
  -- the events that copy and drop heads
  have copies : ∀ s' : States, s'.Intact cells → event.Quiet t s →
      (s'.Coherent ↔ event.Quiet t s) ∧ (event.Quiet t s → ∃ cells', s'.Intact cells' ∧
        (∀ x ∈ cells.reduceOption, x ∈ cells'.reduceOption) ∧
        ∀ p ∈ ([] : List (List UInt8 × Symbol)), p.2 ∈ cells'.reduceOption ∧ p.2.bytes = p.1) :=
    fun s' intact quiet => ⟨iff_of_true intact.coherent quiet, fun _ => ⟨cells, intact, fun _ hx => hx,
      fun p hp => (by cases hp)⟩⟩
  have all : ∀ table ∈ s.tables, table = s.running := by
    intro table ht
    rcases mem_cons.mp ht with rfl | ht
    · rfl
    · exact h.same table ht
  cases event with
  | vmInvoke => exact ⟨[], _, rfl, copies _ ⟨all, h.live, h.ok⟩ trivial⟩
  | execInclude =>
    refine ⟨[], _, rfl, copies _ ⟨?_, ?_, ?_⟩ trivial⟩
    · rw [h.root]
      exact all
    · rw [h.root]
      exact h.live
    · rw [h.root]
      exact h.ok
  | leave =>
    cases hb : s.below with
    | nil =>
      refine ⟨[], s, ?_, copies s h trivial⟩
      simp only [States.step, hb]
    | cons table below =>
      have own : table = s.running := h.same table (by rw [hb]; exact .head _)
      refine ⟨[], { s with running := table, below := below }, ?_, copies _ ⟨?_, ?_, ?_⟩ trivial⟩
      · simp only [States.step, hb]
      · intro other ho
        rw [own]
        exact h.same other (by rw [hb]; exact .tail _ ho)
      · rw [own]
        exact h.live
      · rw [own]
        exact h.ok
  | intern bytes room memory =>
    obtain ⟨m', table', answer, cells', run, ok, live, keeps, answered, idle, busy⟩ :=
      h.ok.psymbolIntern (t := t) h.live room memory bytes
    have intact : (SymbolEvent.intern bytes room memory).Quiet t s →
        (⟨m', table', s.below⟩ : States).Intact cells' := by
      rintro (root | is_idle)
      · exact ⟨fun table ht => (by rw [root] at ht; cases ht), live, ok⟩
      · obtain ⟨rfl, rfl⟩ := idle is_idle
        exact ⟨h.same, live, ok⟩
    refine ⟨answer.toList.map fun x => (bytes, x), ⟨m', table', s.below⟩, ?_, ?_, fun quiet => ?_⟩
    · simp only [States.step, run, map_some]
    · refine ⟨fun coherent => ?_, fun quiet => (intact quiet).coherent⟩
      by_contra loud
      obtain ⟨nested, is_busy⟩ := not_or.mp loud
      obtain ⟨table, rest, hb⟩ := exists_cons_of_ne_nil nested
      have waits : table ∈ s.below := by rw [hb]; exact .head _
      have old := h.same table waits
      have in_tables : table ∈ (⟨m', table', s.below⟩ : States).tables := .tail _ waits
      have same := coherent.shared table in_tables
      obtain ⟨cells'', -, -, full⟩ := coherent.live
      have count := (full table in_tables).2.1
      have count' := (full table' (.head _)).2.1
      rw [old] at same count
      rcases busy is_busy with moved | counted
      · exact moved same.symm
      · exact counted (count'.trans count.symm)
    · refine ⟨cells', intact quiet, keeps, fun p hp => ?_⟩
      obtain ⟨x, hx, rfl⟩ := List.mem_map.mp hp
      exact answered x (mem_toList.mp hx)

theorem States.Intact.run (h : s.Intact cells) (quiet : s.QuietRun t events) {before : List (List UInt8 × Symbol)}
    (known : ∀ p ∈ before, p.2 ∈ cells.reduceOption ∧ p.2.bytes = p.1) :
    ∃ given s' cells', s.run t events = some (given, s') ∧ s'.Intact cells' ∧
      ∀ p ∈ before ++ given, p.2 ∈ cells'.reduceOption ∧ p.2.bytes = p.1 := by
  induction events generalizing s cells before with
  | nil =>
    refine ⟨[], s, cells, rfl, h, ?_⟩
    rw [append_nil]
    exact known
  | cons event events ih =>
    obtain ⟨given, s₁, step, -, intact⟩ := h.step (t := t) event
    obtain ⟨cells₁, intact₁, keeps, answered⟩ := intact quiet.1
    have known₁ : ∀ p ∈ before ++ given, p.2 ∈ cells₁.reduceOption ∧ p.2.bytes = p.1 := by
      intro p hp
      rcases mem_append.mp hp with hp | hp
      · exact ⟨keeps _ (known p hp).1, (known p hp).2⟩
      · exact answered p hp
    obtain ⟨given', s', cells', run, intact', known'⟩ := ih intact₁ (quiet.2 given s₁ step) known₁
    refine ⟨given ++ given', s', cells', ?_, intact', ?_⟩
    · rw [States.run, step]
      simp only [bind_eq_bind, bind_some, run]
      rfl
    · rw [← append_assoc]
      exact known'

theorem opened_intact : States.opened.Intact (replicate 64 none) := by
  refine ⟨fun table ht => (by cases ht), rfl, rfl, ⟨6, by decide, by decide, length_replicate⟩, ?_, ?_,
    placed_replicate 64⟩
  · rw [reduceOption_replicate_none]
    rfl
  · decide

/-- **The symbol table is coherent** after every run of quiet events: every `psymbol_intern` ends without reading a
freed array, all states share one live array whose count they know, and the same bytes always have the same symbol.
The next event keeps this exactly if it is quiet. -/
theorem symbols_stay_coherent (quiet : States.opened.QuietRun t events) :
    ∃ given s, States.opened.run t events = some (given, s) ∧ s.Coherent ∧
      (∀ p ∈ given, p.2.bytes = p.1) ∧ (∀ p ∈ given, ∀ q ∈ given, p.1 = q.1 → p.2 = q.2) ∧
      ∀ event : SymbolEvent, ∃ given' s', s.step t event = some (given', s') ∧ (s'.Coherent ↔ event.Quiet t s) := by
  have none_known : ∀ p ∈ ([] : List (List UInt8 × Symbol)),
      p.2 ∈ (replicate 64 (none : Option Symbol)).reduceOption ∧ p.2.bytes = p.1 :=
    fun p hp => (by cases hp)
  obtain ⟨given, s, cells, run, intact, known⟩ := opened_intact.run quiet none_known
  rw [nil_append] at known
  refine ⟨given, s, run, intact.coherent, fun p hp => (known p hp).2, fun p hp q hq same => ?_, fun event => ?_⟩
  · obtain ⟨listed, own⟩ := known p hp
    obtain ⟨listed', own'⟩ := known q hq
    exact inj_on_of_nodup_map intact.ok.placed.distinct listed listed' (by rw [own, own', same])
  · obtain ⟨given', s', step, iff, -⟩ := intact.step (t := t) event
    exact ⟨given', s', step, iff⟩

/-- A callback that interns a string the root has interned before. -/
theorem symbols_stay_coherent_nested : ∃ given s, States.opened.run .bits32
        [.intern [120] true true, .vmInvoke, .intern [120] true true, .leave] = some (given, s) ∧
      s.Coherent ∧ (∀ p ∈ given, p.2.bytes = p.1) ∧ (∀ p ∈ given, ∀ q ∈ given, p.1 = q.1 → p.2 = q.2) ∧
      ∀ event : SymbolEvent, ∃ given' s', s.step .bits32 event = some (given', s') ∧
        (s'.Coherent ↔ event.Quiet .bits32 s) := by
  apply symbols_stay_coherent
  refine ⟨.inl rfl, fun given s₁ step₁ => ⟨trivial, fun given₂ s₂ step₂ => ⟨?_, fun given₃ s₃ step₃ => ?_⟩⟩⟩
  · have run : States.opened.step .bits32 (.intern [120] true true) = some ([([120], ⟨0, [120]⟩)],
        ⟨⟨[some ((replicate 64 none).set (symbolHash [120] % 64) (some ⟨0, [120]⟩))], 1⟩, ⟨0, 64, 1⟩, []⟩) := by
      decide +kernel
    rw [run] at step₁
    cases step₁
    cases step₂
    right
    unfold Idle
    rw [if_neg (by decide)]
    exact .inr ⟨⟨0, [120]⟩, by decide +kernel⟩
  · exact ⟨trivial, fun _ _ _ => trivial⟩

/-- A callback that interns a new string: the state it ran on counts one symbol too few. -/
theorem nested_symbol_not_counted : ¬ ∀ (t : Arch) (events : List SymbolEvent)
    (given : List (List UInt8 × Symbol)) (s : States), States.opened.run t events = some (given, s) → s.Coherent := by
  intro claimed
  have run : States.opened.run .bits32 [.vmInvoke, .intern [102, 58, 58, 120] true true, .leave] =
      some ([([102, 58, 58, 120], ⟨0, [102, 58, 58, 120]⟩)], ⟨⟨[some
        ((replicate 64 none).set (symbolHash [102, 58, 58, 120] % 64) (some ⟨0, [102, 58, 58, 120]⟩))], 1⟩,
        ⟨0, 64, 0⟩, []⟩) := by
    decide +kernel
  obtain ⟨cells, live, -, full⟩ := (claimed _ _ _ _ run).live
  have count := (full _ (.head _)).2.1
  cases live
  revert count
  decide +kernel

/-! ## The calls on one state -/

/-- What the table of a state that runs alone promises of its array. -/
structure PsymbolTable.Sound (table : PsymbolTable) (m : SymbolMemory) (cells : List (Option Symbol)) : Prop where
  live : m.array table.entries = some cells
  capacity : table.capacity = cells.length
  distinct : ∀ i j x y, cell cells i = some x → cell cells j = some y → x.bytes = y.bytes → i = j
  found : ∀ i x, cell cells i = some x → findSlot cells table.capacity x.bytes = some i
  count : table.count = cells.countP Option.isSome
  empty : none ∈ cells

theorem PsymbolTable.Ok.sound {table : PsymbolTable} {m : SymbolMemory} (h : table.Ok cells)
    (live : m.array table.entries = some cells) : table.Sound m cells := by
  have apart : ∀ i j x y, cell cells i = some x → cell cells j = some y → x.bytes = y.bytes → i = j :=
    fun i j x y at_i at_j same => index_unique h.placed.distinct at_i at_j same
  refine ⟨live, h.capacity, apart, fun i x at_i => ?_, ?_, h.empty_slot⟩
  · obtain ⟨j, -, slot, ⟨y, at_j, same⟩ | ⟨-, absent, -⟩⟩ := h.findSlot x.bytes
    · rw [slot, apart i j x y at_i at_j same.symm]
    · exact absurd rfl (absent x (cell_mem at_i))
  · rw [h.count, List.countP_eq_length_filter, List.reduceOption_length_eq]

/-- A call of `psymbol_intern`: the string, and what the allocator does. -/
def SymbolEvent.call (c : List UInt8 × Bool × Bool) : SymbolEvent := .intern c.1 c.2.1 c.2.2

theorem States.quietRun_calls (calls : List (List UInt8 × Bool × Bool)) (alone : s.below = []) :
    s.QuietRun t (calls.map .call) := by
  induction calls generalizing s with
  | nil => trivial
  | cons call calls ih =>
    refine ⟨.inl alone, fun given s' step => ih ?_⟩
    obtain ⟨r, -, eq⟩ := map_eq_some_iff.mp step
    cases eq
    exact alone

/-- **The symbol table is sound** after every sequence of calls of `psymbol_intern` on one state, whatever allocations
fail, and still finds every symbol that was given. Every further call returns and keeps this. -/
theorem symbol_table_sound (t : Arch) (calls : List (List UInt8 × Bool × Bool)) :
    ∃ given s cells, States.opened.run t (calls.map .call) = some (given, s) ∧ s.running.Sound s.memory cells ∧
      (∀ p ∈ given, psymbolFind s.memory s.running p.1 = some (some p.2)) ∧ ∀ bytes room memory, ∃ m table answer,
        psymbolIntern t room memory s.memory s.running bytes = some (m, table, answer) ∧
        ∀ earlier x, psymbolFind s.memory s.running earlier = some (some x) →
          psymbolFind m table earlier = some (some x) := by
  obtain ⟨given, s, cells, run, intact, known⟩ :=
    opened_intact.run (t := t) (States.quietRun_calls calls rfl) (List.forall_mem_nil _)
  rw [nil_append] at known
  refine ⟨given, s, cells, run, intact.ok.sound intact.live, fun p hp => ?_, fun bytes room memory => ?_⟩
  · exact (intact.ok.psymbolFind intact.live p.2).mpr (known p hp)
  · obtain ⟨m, table, answer, cells', call, ok, live, keeps, -⟩ :=
      intact.ok.psymbolIntern (t := t) intact.live room memory bytes
    refine ⟨m, table, answer, call, fun earlier x before => ?_⟩
    obtain ⟨listed, own⟩ := (intact.ok.psymbolFind intact.live x).mp before
    exact (ok.psymbolFind live x).mpr ⟨keeps x listed, own⟩

end Runs

end PhpPico
