import PhpPico.Pool.Valid
import Mathlib.Algebra.Order.BigOperators.Group.List
import Mathlib.Tactic.IntervalCases

/-!
# Clients of the pool

A client allocates, releases and reallocates payloads of one pool and writes to those it holds. In every run of calls
that do not wrap around, the pool stays valid and the payloads stay apart with their contents.
-/

namespace PhpPico.Pool
open List Option ByteMemory

/-! ## The check and the statistics -/

section Walks
variable {t : Arch} {p : Pool} {l : List Block} {hidden : List Nat} {lists : Nat × Nat → List Nat}

/-- What the headers in memory say of some blocks. -/
def Described (m : Mem) (l : List Block) : Prop :=
  ∀ b ∈ l, prevSize m b.addr = b.prev ∧ blockSize m b.addr = b.size ∧ blockIsUsed m b.addr = b.used

theorem Heap.described (h : Heap t p l hidden lists) : Described p.mem l :=
  fun b hb => ⟨(h.headers b hb).2, h.blockSize hb, h.blockIsUsed hb⟩

theorem checkFrom_of_layout {a before e fuel : Nat} (layout : Layout t a before l e)
    (described : Described p.mem l) (inside : e < p.finish) (enough : e - a < fuel) :
    checkFrom t p fuel a before = true := by
  have pos := (minimum_pos t).1
  induction l generalizing a before fuel with
  | nil => exact layout.elim
  | cons b rest ih =>
    obtain ⟨fuel, rfl⟩ : ∃ n, fuel = n + 1 := ⟨fuel - 1, by omega⟩
    obtain ⟨prev_b, size_b, used_b⟩ := described b (.head _)
    obtain ⟨at_b, behind⟩ := layout.head
    rw [at_b] at prev_b size_b used_b
    have within := layout.within.1
    rw [checkFrom, if_neg (by omega), if_neg (by rw [prev_b, behind]; simp), size_b]
    cases rest with
    | nil =>
      obtain ⟨-, -, size, used, -⟩ := layout
      rw [if_pos size, used_b, used]
    | cons c more =>
      obtain ⟨-, -, aligned, min, tail⟩ := layout
      have := tail.within.1
      rw [if_neg (by omega), if_neg (by omega)]
      have next : nextBlock p.mem a = a + b.size := by rw [nextBlock, size_b]
      rw [next]
      exact ih tail (fun d hd => described d (mem_cons_of_mem b hd)) (by omega)

/-- **`pphp_pool_check` succeeds** on a pool whose heap is intact. -/
theorem Heap.poolCheck (h : Heap t p l hidden lists) : poolCheck t p = true := by
  have := h.finish_gt
  rw [Pool.poolCheck, if_pos h.initialized]
  exact checkFrom_of_layout h.layout h.described (by omega) (by omega)

/-- The bytes of the payloads of used blocks. -/
def usedPayload (l : List Block) : Nat := (l.map fun b => if b.used then b.size - 8 else 0).sum

theorem statsFrom_of_layout {a before e fuel : Nat} {s : Stats} (layout : Layout t a before l e)
    (described : Described p.mem l) (enough : e - a < fuel) :
    ∃ s', statsFrom p.mem fuel a s = some s' ∧ s'.total = s.total ∧ s'.used = s.used + usedPayload l := by
  have pos := (minimum_pos t).1
  induction l generalizing a before fuel s with
  | nil => exact layout.elim
  | cons b rest ih =>
    obtain ⟨fuel, rfl⟩ : ∃ n, fuel = n + 1 := ⟨fuel - 1, by omega⟩
    obtain ⟨-, size_b, used_b⟩ := described b (.head _)
    rw [layout.head.1] at size_b used_b
    rw [statsFrom, size_b]
    cases rest with
    | nil =>
      obtain ⟨-, -, size, used, -⟩ := layout
      rw [if_pos size]
      exact ⟨s, rfl, rfl, by simp [usedPayload, used, size]⟩
    | cons c more =>
      obtain ⟨-, -, aligned, min, tail⟩ := layout
      have := tail.within.1
      have next : nextBlock p.mem a = a + b.size := by rw [nextBlock, size_b]
      have counted : (s.count p.mem a).used = s.used + (if b.used then b.size - 8 else 0) ∧
          (s.count p.mem a).total = s.total := by
        simp only [Stats.count, size_b, used_b]
        split <;> simp
      have enough' : e - (a + b.size) < fuel := by omega
      obtain ⟨s', walk, total, used⟩ := ih (s := s.count p.mem a) tail
        (fun d hd => described d (mem_cons_of_mem b hd)) enough'
      rw [if_neg (by omega), next]
      refine ⟨s', walk, total.trans counted.2, ?_⟩
      rw [used, counted.1]
      simp only [usedPayload, map_cons, sum_cons]
      omega

/-- **`pphp_pool_get_stats`** counts the payloads of the used blocks. -/
theorem Heap.getStats (h : Heap t p l hidden lists) :
    ∃ s, getStats p = some s ∧ s.total = p.total ∧ s.used = usedPayload l := by
  have enough : p.finish - 8 - p.start < p.finish - p.start + 1 := by omega
  obtain ⟨s, walk, total, used⟩ := statsFrom_of_layout (s := ⟨p.total, 0, 0, 0, 0⟩) h.layout h.described enough
  refine ⟨s, ?_, total, used.trans (zero_add _)⟩
  rw [Pool.getStats, if_pos h.initialized, walk]

end Walks

/-! ## Calls -/

/-- A payload a client holds, and the size it was requested with. -/
structure Allocation where
  ptr : Nat
  size : Nat
  deriving DecidableEq

/-- A pool and the payloads its client holds. -/
structure Client where
  pool : Pool
  live : List Allocation

/-- What a client does: it calls the allocator or writes a byte to a payload. -/
inductive Call where
  | alloc (size : Nat)
  | free (ptr : Nat)
  | realloc (ptr size : Nat)
  | write (ptr offset : Nat) (byte : UInt8)

/-- The payload a call is about; 0 when it is about none. -/
def Call.target : Call → Nat
  | .alloc _ => 0
  | .free ptr => ptr
  | .realloc ptr _ => ptr
  | .write ptr _ _ => ptr

/-- The payloads a client holds besides one. -/
def Client.without (c : Client) (ptr : Nat) : List Allocation := c.live.filter fun a => a.ptr ≠ ptr

/-- A call: its result and the client afterwards, or nothing when the call never returns. -/
def Client.step (t : Arch) (c : Client) : Call → Option (Nat × Client)
  | .alloc size =>
    (Pool.alloc t c.pool size).map fun r =>
      (r.1, ⟨r.2, if r.1 = 0 then c.live else ⟨r.1, size⟩ :: c.live⟩)
  | .free ptr => some (0, ⟨Pool.free t c.pool ptr, c.without ptr⟩)
  | .realloc ptr size =>
    (Pool.realloc t c.pool ptr size).map fun r =>
      (r.1, ⟨r.2, if size = 0 then c.without ptr
        else if r.1 = 0 then c.live else ⟨r.1, size⟩ :: c.without ptr⟩)
  | .write ptr offset byte =>
    some (0, ⟨{ c.pool with mem := Function.update c.pool.mem (ptr + offset) byte }, c.live⟩)

/-- A client releases and reallocates what it holds, or the null pointer, and writes inside the
payloads it holds. -/
def Call.Allowed (c : Client) : Call → Prop
  | .alloc _ => True
  | .free ptr => ptr = 0 ∨ ∃ a ∈ c.live, a.ptr = ptr
  | .realloc ptr _ => ptr = 0 ∨ ∃ a ∈ c.live, a.ptr = ptr
  | .write ptr offset _ => ∃ a ∈ c.live, a.ptr = ptr ∧ offset < a.size

/-- The size a call requests does not wrap around. -/
def Call.Fits (t : Arch) : Call → Prop
  | .alloc size => RequestFits t size
  | .realloc _ size => RequestFits t size
  | _ => True

/-- The size a call requests is a value of `size_t`. -/
def Call.Representable (t : Arch) : Call → Prop
  | .alloc size => size < t.sizes
  | .realloc _ size => size < t.sizes
  | _ => True

/-- The clients that calls of some kind lead to, from a pool initialized with `size` bytes at
`buffer`. -/
inductive Reachable (t : Arch) (kind : Call → Prop) (m : Mem) (buffer size : Nat) : Client → Prop
  | init : Reachable t kind m buffer size ⟨poolInit t m buffer size, []⟩
  | step {c c' : Client} {call : Call} {result : Nat} : Reachable t kind m buffer size c →
      call.Allowed c → kind call → c.step t call = some (result, c') → Reachable t kind m buffer size c'

/-- The payloads a client holds are aligned, lie in the buffer and do not overlap. -/
structure Client.Disjoint (c : Client) (buffer size : Nat) : Prop where
  aligned : ∀ a ∈ c.live, a.ptr ≠ 0 ∧ 8 ∣ a.ptr
  inside : ∀ a ∈ c.live, buffer ≤ a.ptr ∧ a.ptr + a.size ≤ buffer + size
  apart : c.live.Pairwise fun a b => a.ptr + a.size ≤ b.ptr ∨ b.ptr + b.size ≤ a.ptr

/-- All payloads but one are held as before, with their contents. -/
def Client.Keeps (c c' : Client) (ptr : Nat) : Prop :=
  ∀ a ∈ c.live, a.ptr ≠ ptr → a ∈ c'.live ∧ ∀ i < a.size, c'.pool.mem (a.ptr + i) = c.pool.mem (a.ptr + i)

/-- What a client may expect of a call: it serves the request or changes nothing, keeps what is reallocated, and
leaves the other payloads alone. -/
def Served (c : Client) (call : Call) (result : Nat) (c' : Client) : Prop :=
  c.Keeps c' call.target ∧
  match call with
  | .alloc size => result = 0 ∧ c' = c ∨ ⟨result, size⟩ ∈ c'.live
  | .free ptr => c'.live = c.without ptr
  | .realloc ptr size =>
    if size = 0 then c'.live = c.without ptr
    else result = 0 ∧ c' = c ∨ ⟨result, size⟩ ∈ c'.live ∧
      ∀ a ∈ c.live, a.ptr = ptr → ∀ i < min a.size size, c'.pool.mem (result + i) = c.pool.mem (ptr + i)
  | .write _ _ _ => c'.live = c.live

/-! ## The invariant -/

/-- Each payload a client holds is that of a used block that is large enough. -/
structure Client.Backed (t : Arch) (c : Client) (l : List Block) : Prop where
  valid : Valid t c.pool l
  blocks : ∀ a ∈ c.live, ∃ b ∈ l, b.used = true ∧ a.ptr = b.addr + 8 ∧ a.size + 8 ≤ b.size
  distinct : (c.live.map Allocation.ptr).Nodup

section Backed
variable {t : Arch} {c c' : Client} {l l' : List Block} {a : Allocation} {ptr size : Nat}

theorem Client.mem_without : a ∈ c.without ptr ↔ a ∈ c.live ∧ a.ptr ≠ ptr := by
  simp [Client.without]

theorem Client.Backed.block (h : c.Backed t l) (ha : a ∈ c.live) :
    ∃ b ∈ l, b.used = true ∧ a.ptr = b.addr + 8 ∧ a.size + 8 ≤ b.size ∧ b.size ≠ 0 := by
  obtain ⟨b, hb, used, at_b, fits⟩ := h.blocks a ha
  exact ⟨b, hb, used, at_b, fits, by omega⟩

theorem Client.Backed.distinct_without (h : c.Backed t l) : ((c.without ptr).map Allocation.ptr).Nodup :=
  h.distinct.sublist (List.filter_sublist.map Allocation.ptr)

/-- **Payloads do not overlap.** -/
theorem Client.Backed.disjoint {buffer room : Nat} (h : c.Backed t l) (lo : buffer ≤ c.pool.start)
    (hi : c.pool.finish ≤ buffer + room) : c.Disjoint buffer room := by
  obtain ⟨lists, heap⟩ := h.valid.heap
  constructor
  · intro a ha
    obtain ⟨b, hb, -, at_b, -⟩ := h.blocks a ha
    have := (heap.aligned hb).1
    omega
  · intro a ha
    obtain ⟨b, hb, -, at_b, fits⟩ := h.blocks a ha
    have within := heap.layout.within.2 b hb
    omega
  · refine (pairwise_map.mp h.distinct).imp_of_mem fun {a d} ha hd ne => ?_
    obtain ⟨b, hb, -, at_b, fits_b⟩ := h.blocks a ha
    obtain ⟨e, he, -, at_e, fits_e⟩ := h.blocks d hd
    have ne' : b.addr ≠ e.addr := by omega
    rcases heap.layout.apart hb he ne' with ⟨le, -⟩ | ⟨le, -⟩
    · left; omega
    · right; omega

/-- Payloads whose blocks are kept are backed afterwards, with the same contents. -/
theorem Client.Backed.kept (h : c.Backed t l) {p : Pool} {except : Nat}
    (kept : Kept c.pool p l l' except) (ha : a ∈ c.live) (ne : a.ptr ≠ except + 8) :
    (∃ b ∈ l', b.used = true ∧ a.ptr = b.addr + 8 ∧ a.size + 8 ≤ b.size) ∧
      ∀ i < a.size, p.mem (a.ptr + i) = c.pool.mem (a.ptr + i) := by
  obtain ⟨b, hb, used, at_b, fits⟩ := h.blocks a ha
  obtain ⟨same, b', hb', addr, size, used'⟩ := kept.blocks b hb used (by omega)
  refine ⟨⟨b', hb', used', by omega, by omega⟩, fun i hi => ?_⟩
  exact same _ (by omega) (by omega)

/-- A call does what the client expects and keeps the invariant and the extent of the pool. -/
def Lands (t : Arch) (c : Client) (call : Call) : Prop :=
  ∃ result c', c.step t call = some (result, c') ∧ Served c call result c' ∧
    (∃ l', c'.Backed t l') ∧ c'.pool.start = c.pool.start ∧ c'.pool.finish = c.pool.finish

theorem Client.Keeps.refl (c : Client) (ptr : Nat) : c.Keeps c ptr :=
  fun _ ha _ => ⟨ha, fun _ _ => rfl⟩

theorem Client.Backed.alloc (h : c.Backed t l) (fits : RequestFits t size) : Lands t c (.alloc size) := by
  obtain ⟨r, run, outcome⟩ := h.valid.alloc size
  rcases outcome with rfl | ⟨small, l', b, hb, used, ptr, large, valid, kept, fresh⟩
  · refine ⟨0, c, ?_, ⟨Client.Keeps.refl c 0, .inl ⟨rfl, rfl⟩⟩, ⟨l, h⟩, rfl, rfl⟩
    simp only [Client.step, run, map_some, if_true]
  · have not_null : r.1 ≠ 0 := by omega
    have request := le_neededSize fits small
    have apart : ∀ a ∈ c.live, a.ptr ≠ b.addr + 8 := by
      intro a ha e
      obtain ⟨d, hd, used_d, at_d, -⟩ := h.blocks a ha
      exact fresh d hd used_d (by omega)
    refine ⟨r.1, ⟨r.2, ⟨r.1, size⟩ :: c.live⟩, ?_, ⟨?_, .inr (.head _)⟩, ⟨l', ?_⟩, kept.start, kept.finish⟩
    · simp only [Client.step, run, map_some, if_neg not_null]
    · intro a ha _
      exact ⟨.tail _ ha, (h.kept kept ha (apart a ha)).2⟩
    · refine ⟨valid, fun a ha => ?_, nodup_cons.mpr ⟨fun listed => ?_, h.distinct⟩⟩
      · rcases mem_cons.mp ha with rfl | ha
        · exact ⟨b, hb, used, ptr, by simp only; omega⟩
        · exact (h.kept kept ha (apart a ha)).1
      · obtain ⟨a, ha, e⟩ := List.mem_map.mp listed
        exact apart a ha (e.trans ptr)

theorem Client.Backed.free (h : c.Backed t l) (allowed : (Call.free ptr).Allowed c) : Lands t c (.free ptr) := by
  rcases allowed with rfl | ⟨a, ha, rfl⟩
  · have all : c.without 0 = c.live := by
      refine filter_eq_self.mpr fun a ha => ?_
      obtain ⟨b, -, -, at_b, -⟩ := h.blocks a ha
      exact decide_eq_true (by omega)
    have same : Pool.free t c.pool 0 = c.pool := if_pos (.inl rfl)
    refine ⟨0, c, ?_, ⟨Client.Keeps.refl c 0, all.symm⟩, ⟨l, h⟩, rfl, rfl⟩
    simp only [Client.step, all, same]
  · obtain ⟨b, hb, used, at_b, -, real⟩ := h.block ha
    obtain ⟨l', valid, kept⟩ := h.valid.free hb used real
    rw [← at_b] at valid kept
    refine ⟨0, ⟨Pool.free t c.pool a.ptr, c.without a.ptr⟩, rfl, ⟨?_, rfl⟩, ⟨l', valid, ?_,
      h.distinct_without⟩, kept.start, kept.finish⟩
    · intro d hd ne
      exact ⟨Client.mem_without.mpr ⟨hd, ne⟩, (h.kept kept hd (by rw [← at_b]; exact ne)).2⟩
    · intro d hd
      obtain ⟨hd, ne⟩ := Client.mem_without.mp hd
      exact (h.kept kept hd (by rw [← at_b]; exact ne)).1

theorem served_realloc {result : Nat} (some_size : size ≠ 0) : Served c (.realloc ptr size) result c' ↔ c.Keeps c' ptr ∧
      (result = 0 ∧ c' = c ∨ ⟨result, size⟩ ∈ c'.live ∧ ∀ a ∈ c.live, a.ptr = ptr → ∀ i < min a.size size,
          c'.pool.mem (result + i) = c.pool.mem (ptr + i)) := by
  simp only [Served, Call.target, if_neg some_size]

theorem Client.Backed.realloc (h : c.Backed t l) (allowed : (Call.realloc ptr size).Allowed c)
    (fits : RequestFits t size) : Lands t c (.realloc ptr size) := by
  by_cases null : ptr = 0
  · -- the null pointer asks for a new payload
    subst null
    have all : c.without 0 = c.live := by
      refine filter_eq_self.mpr fun a ha => ?_
      obtain ⟨b, -, -, at_b, -⟩ := h.blocks a ha
      exact decide_eq_true (by omega)
    obtain ⟨result, c', run, ⟨keeps, served⟩, rest⟩ := h.alloc fits
    refine ⟨result, c', ?_, ⟨keeps, ?_⟩, rest⟩
    · simp only [Client.step, Pool.realloc, if_true, all] at run ⊢
      rw [← run]
      by_cases none : size = 0
      · subst none
        have refused : Pool.alloc t c.pool 0 = some (0, c.pool) := if_pos (.inr (.inl rfl))
        simp [refused]
      · simp only [if_neg none]
    · have held : ∀ a ∈ c.live, a.ptr = 0 → False := by
        intro a ha e
        obtain ⟨b, -, -, at_b, -⟩ := h.blocks a ha
        omega
      by_cases none : size = 0
      · subst none
        have refused : Pool.alloc t c.pool 0 = some (0, c.pool) := if_pos (.inr (.inl rfl))
        simp only [Client.step, refused, map_some, if_true, some.injEq, Prod.mk.injEq] at run
        simp only [if_true, all, ← run.2]
      · simp only [if_neg none]
        exact served.imp id fun new => ⟨new, fun a ha e => (held a ha e).elim⟩
  · obtain ⟨a, ha, rfl⟩ := allowed.resolve_left null
    by_cases none : size = 0
    · -- size 0 releases the payload
      subst none
      obtain ⟨result, c', run, ⟨keeps, served⟩, rest⟩ := h.free (.inr ⟨a, ha, rfl⟩)
      refine ⟨result, c', ?_, ⟨keeps, ?_⟩, rest⟩
      · rw [← run]
        simp only [Client.step, Pool.realloc, if_neg null, if_true, map_some]
      · simp only [if_true]
        exact served
    · obtain ⟨b, hb, used, at_b, fits_b, real⟩ := h.block ha
      obtain ⟨r, run, outcome⟩ := h.valid.realloc hb used real none fits
      rw [← at_b] at run
      have only : ∀ d ∈ c.live, d.ptr = a.ptr → d = a := fun d hd e => inj_on_of_nodup_map h.distinct hd ha e
      rcases outcome with ⟨rfl, enough⟩ | rfl | ⟨l', d, hd, used_d, ptr, large, valid, kept, fresh, contents⟩
      · -- the payload is large enough
        rw [← at_b] at run
        refine ⟨a.ptr, ⟨c.pool, ⟨a.ptr, size⟩ :: c.without a.ptr⟩, ?_, (served_realloc none).mpr ⟨?_, ?_⟩,
          ⟨l, h.valid, ?_, ?_⟩, rfl, rfl⟩
        · simp only [Client.step, run, map_some, if_neg none, if_neg null]
        · intro d hd ne
          exact ⟨.tail _ (Client.mem_without.mpr ⟨hd, ne⟩), fun _ _ => rfl⟩
        · exact .inr ⟨.head _, fun _ _ _ _ _ => rfl⟩
        · intro d hd
          rcases mem_cons.mp hd with rfl | hd
          · exact ⟨b, hb, used, at_b, enough⟩
          · exact h.blocks d (Client.mem_without.mp hd).1
        · refine nodup_cons.mpr ⟨fun listed => ?_, h.distinct_without⟩
          obtain ⟨d, hd, e⟩ := List.mem_map.mp listed
          exact (Client.mem_without.mp hd).2 e
      · refine ⟨0, c, ?_, (served_realloc none).mpr ⟨Client.Keeps.refl c _, .inl ⟨rfl, rfl⟩⟩, ⟨l, h⟩, rfl, rfl⟩
        simp only [Client.step, run, map_some, if_neg none, if_true]
      · -- the contents have moved to a larger block
        have not_null : r.1 ≠ 0 := by omega
        have apart : ∀ x ∈ c.live, x.ptr ≠ d.addr + 8 := by
          intro x hx e
          obtain ⟨y, hy, used_y, at_y, -⟩ := h.blocks x hx
          exact fresh y hy used_y (by omega)
        refine ⟨r.1, ⟨r.2, ⟨r.1, size⟩ :: c.without a.ptr⟩, ?_, (served_realloc none).mpr ⟨?_, ?_⟩,
          ⟨l', valid, ?_, ?_⟩, kept.start, kept.finish⟩
        · simp only [Client.step, run, map_some, if_neg none, if_neg not_null]
        · intro x hx ne
          exact ⟨.tail _ (Client.mem_without.mpr ⟨hx, ne⟩), (h.kept kept hx (by rw [← at_b]; exact ne)).2⟩
        · refine .inr ⟨.head _, fun x hx e i hi => ?_⟩
          rw [only x hx e] at hi
          rw [ptr, at_b]
          exact contents i (by omega)
        · intro x hx
          rcases mem_cons.mp hx with rfl | hx
          · exact ⟨d, hd, used_d, ptr, large⟩
          · obtain ⟨hx, ne⟩ := Client.mem_without.mp hx
            exact (h.kept kept hx (by rw [← at_b]; exact ne)).1
        · refine nodup_cons.mpr ⟨fun listed => ?_, h.distinct_without⟩
          obtain ⟨x, hx, e⟩ := List.mem_map.mp listed
          exact apart x (Client.mem_without.mp hx).1 (e.trans ptr)

theorem Client.Backed.write {offset : Nat} {byte : UInt8} (h : c.Backed t l)
    (allowed : (Call.write ptr offset byte).Allowed c) : Lands t c (.write ptr offset byte) := by
  obtain ⟨a, ha, rfl, inside⟩ := allowed
  obtain ⟨b, hb, used, at_b, fits, -⟩ := h.block ha
  have elsewhere : ∀ z, z ≠ a.ptr + offset → Function.update c.pool.mem (a.ptr + offset) byte z = c.pool.mem z :=
    fun z ne => Function.update_of_ne ne _ _
  obtain ⟨valid, same⟩ := h.valid.payload hb used fun z away => elsewhere z (by omega)
  refine ⟨0, _, rfl, ⟨?_, rfl⟩, ⟨l, valid, h.blocks, h.distinct⟩, rfl, rfl⟩
  intro d hd ne
  refine ⟨hd, fun i hi => ?_⟩
  obtain ⟨e, he, -, at_e, fits_e⟩ := h.blocks d hd
  have differs : e.addr ≠ b.addr := fun eq => ne (by simp only [Call.target]; omega)
  exact same e he differs _ (by omega) (by omega)

/-- **Every call** does what its client expects and keeps the invariant. -/
theorem Client.Backed.lands (h : c.Backed t l) {call : Call} (allowed : call.Allowed c)
    (fits : call.Fits t) : Lands t c call := by
  cases call with
  | alloc size => exact h.alloc fits
  | free ptr => exact h.free allowed
  | realloc ptr size => exact h.realloc allowed fits
  | write ptr offset byte => exact h.write allowed

end Backed

/-! ## Pools that serve nothing -/

section Barren
variable {t : Arch}

theorem floorLog2_ge {rounds n : Nat} (k : Nat) (large : 2 ^ k ≤ n) (enough : k ≤ rounds) : k ≤ floorLog2 rounds n := by
  induction k generalizing rounds n with
  | zero => exact Nat.zero_le _
  | succ k ih =>
    obtain ⟨rounds, rfl⟩ : ∃ r, rounds = r + 1 := ⟨rounds - 1, by omega⟩
    rw [pow_succ] at large
    have := Nat.one_le_two_pow (n := k)
    rw [floorLog2, if_pos (by omega)]
    exact Nat.succ_le_succ (ih (by omega) (by omega))

/-- The classes of blocks that can hold links behind each other on 64 bits. -/
theorem mapping_ge {needed : Nat} (large : 24 ≤ needed) :
    4 < (mapping needed).1 ∨ (mapping needed).1 = 4 ∧ 2 ≤ (mapping needed).2 := by
  by_cases le : 32 ≤ needed
  · have : 5 ≤ floorLog2 64 needed := floorLog2_ge 5 le (by decide)
    left
    unfold mapping
    simp only
    split <;> omega
  · have small : needed < 32 := not_le.mp le
    interval_cases needed <;> decide

theorem mapping_lt {n : Nat} (small : n < 3) :
    (mapping (8 * n)).1 < 4 ∨ (mapping (8 * n)).1 = 4 ∧ (mapping (8 * n)).2 = 0 := by
  interval_cases n <;> decide

theorem classesFrom_ge {c k : Nat × Nat} (h : k ∈ classesFrom c) : c.1 < k.1 ∨ c.1 = k.1 ∧ c.2 ≤ k.2 := by
  simp only [classesFrom, mem_flatMap, mem_range, List.mem_map] at h
  obtain ⟨d, -, e, -, rfl⟩ := h
  by_cases same : d = 0
  · right
    simp only [same, if_true]
    omega
  · left
    simp only
    omega

/-- No list that is searched for a block holds one. -/
def Barren (t : Arch) (p : Pool) : Prop :=
  p.initialized = false ∨ ∀ needed, minimumBlockSize t ≤ needed → ∀ k ∈ classesFrom (mapping needed), p.bins k.1 k.2 = 0

theorem findIn_of_empty {p : Pool} {classes : List (Nat × Nat)} (needed : Nat)
    (empty : ∀ k ∈ classes, p.bins k.1 k.2 = 0) : findIn t p needed classes = some none := by
  induction classes with
  | nil => rfl
  | cons k rest ih =>
    rw [findIn, empty k mem_cons_self]
    exact ih fun k hk => empty k (.tail _ hk)

theorem Barren.alloc {p : Pool} (h : Barren t p) (size : Nat) : Pool.alloc t p size = some (0, p) := by
  unfold Pool.alloc
  by_cases refused : p.initialized = false ∨ size = 0 ∨ 4294967287 < size
  · exact if_pos refused
  · have empty := h.resolve_left fun c => refused (.inl c)
    rw [if_neg refused, findFree, findIn_of_empty _ (empty _ (neededSize_spec t size).2)]

/-- A pool whose first block is cut below the smallest one, and a pool that is not initialized,
serve nothing. -/
theorem poolInit_barren (m : Mem) {buffer size : Nat} (memory : buffer + size ≤ t.sizes)
    (unfit : (poolInit t m buffer size).initialized = true → ¬ PoolFits t buffer size) :
    Barren t (poolInit t m buffer size) := by
  by_cases accepted : (poolInit t m buffer size).initialized = true
  · obtain ⟨not_null, large, made⟩ := poolInit_eq m accepted
    obtain ⟨aligned, small, -⟩ := firstBlock_spec t buffer size
    have unfit := unfit accepted
    unfold PoolFits at unfit
    obtain ⟨-, -, of_first⟩ := blockSize_firstMem (m := m) (a := alignUp t buffer) aligned small
    have bins : (poolInit t m buffer size).bins =
        setBin (fun _ _ => 0) (mapping (firstBlock t buffer size)) (alignUp t buffer) := by
      rw [made]
      simp only [Pool.insertFree, of_first]
    right
    intro needed min k hk
    rw [bins]
    refine if_neg fun same => ?_
    have ge := classesFrom_ge hk
    rw [Prod.mk.eta] at same
    cases t with
    | bits32 =>
      -- the size of the block fits its header
      have whole : alignDown (size - (alignUp .bits32 buffer - buffer)) - 8 < 4294967296 := by
        unfold alignDown
        simp only [Arch.sizes] at memory
        omega
      have value : minimumBlockSize .bits32 = 16 := by decide
      unfold firstBlock at unfit
      rw [Nat.mod_eq_of_lt whole] at unfit
      unfold alignDown at unfit
      omega
    | bits64 =>
      have value : minimumBlockSize .bits64 = 24 := by decide
      rw [value] at unfit min
      have classes := mapping_ge min
      obtain ⟨n, e⟩ := aligned
      have small_class := mapping_lt (n := n) (by omega)
      rw [same, e] at ge
      omega
  · exact .inl (Bool.eq_false_iff.mpr accepted)

theorem Barren.step {c : Client} (h : Barren t c.pool) (none : c.live = []) {call : Call}
    (allowed : call.Allowed c) : c.step t call = some (0, c) ∧ Served c call 0 c := by
  have null : ∀ ptr, (ptr = 0 ∨ ∃ a ∈ c.live, a.ptr = ptr) → ptr = 0 := by
    rintro ptr (e | ⟨a, ha, -⟩)
    · exact e
    · rw [none] at ha
      cases ha
  have all : c.without 0 = c.live := by rw [Client.without, none, filter_nil]
  have keeps : ∀ ptr, c.Keeps c ptr := Client.Keeps.refl c
  cases call with
  | alloc size =>
    refine ⟨?_, keeps _, .inl ⟨rfl, rfl⟩⟩
    simp only [Client.step, h.alloc, map_some, if_true]
  | free ptr =>
    rw [null ptr allowed]
    have same : Pool.free t c.pool 0 = c.pool := if_pos (.inl rfl)
    refine ⟨?_, keeps _, all.symm⟩
    simp only [Client.step, all, same]
  | realloc ptr size =>
    rw [null ptr allowed]
    refine ⟨?_, keeps _, ?_⟩
    · simp only [Client.step, Pool.realloc, h.alloc, map_some, if_true, all, ite_self]
    · simp only [all, and_self, true_or, ite_self]
  | write ptr offset byte =>
    obtain ⟨a, ha, -⟩ := allowed
    rw [none] at ha
    cases ha

end Barren

/-! ## Runs -/

section Runs
variable {t : Arch} {m : Mem} {buffer size : Nat} {c : Client}

/-- **A run** of fitting calls on a pool that is valid at first. -/
theorem Reachable.backed (reach : Reachable t (Call.Fits t) m buffer size c) {l : List Block}
    (valid : Valid t (poolInit t m buffer size) l) :
    (∃ l, c.Backed t l) ∧ c.pool.start = (poolInit t m buffer size).start ∧
      c.pool.finish = (poolInit t m buffer size).finish := by
  induction reach with
  | init =>
    refine ⟨⟨l, valid, fun a ha => ?_, nodup_nil⟩, rfl, rfl⟩
    cases ha
  | step reach allowed fits run ih =>
    obtain ⟨⟨l, backed⟩, start, finish⟩ := ih
    obtain ⟨result, c', run', -, backed', start', finish'⟩ := backed.lands allowed fits
    rw [run] at run'
    cases run'
    exact ⟨backed', start'.trans start, finish'.trans finish⟩

theorem Reachable.barren {kind : Call → Prop} (reach : Reachable t kind m buffer size c)
    (barren : Barren t (poolInit t m buffer size)) : Barren t c.pool ∧ c.live = [] := by
  induction reach with
  | init => exact ⟨barren, rfl⟩
  | step reach allowed fits run ih =>
    have stays := (ih.1.step ih.2 allowed).1
    rw [run] at stays
    cases stays
    exact ih

theorem Reachable.alloc {kind : Call → Prop} {request block : Nat} (ok : kind (.alloc request))
    (valid : ¬ ((poolInit t m buffer size).initialized = false ∨ request = 0 ∨ 4294967287 < request))
    (found : findFree t (poolInit t m buffer size) (neededSize t request) = some (some block)) :
    Reachable t kind m buffer size
      ⟨(takeBlock t (poolInit t m buffer size) block (neededSize t request)).2, [⟨block + 8, request⟩]⟩ := by
  have ptr : (takeBlock t (poolInit t m buffer size) block (neededSize t request)).1 = block + 8 := by
    unfold takeBlock
    simp only
    split <;> rfl
  have allowed : (Call.alloc request).Allowed ⟨poolInit t m buffer size, []⟩ := trivial
  have run : (⟨poolInit t m buffer size, []⟩ : Client).step t (.alloc request) = some (block + 8,
      ⟨(takeBlock t (poolInit t m buffer size) block (neededSize t request)).2, [⟨block + 8, request⟩]⟩) := by
    simp only [Client.step, Pool.alloc, if_neg valid, found, map_some, ptr, Nat.succ_ne_zero, if_false]
  exact .step .init allowed ok run

/-- **The heap invariant** holds after every run of calls that fit: the blocks tile the pool, their headers agree, no
two free blocks are neighbours and each is in the list of its class. The check succeeds, and the statistics count the
used payloads. -/
theorem pool_stays_valid (memory : buffer + size ≤ t.sizes)
    (accepted : (poolInit t m buffer size).initialized = true) (fits : PoolFits t buffer size)
    (reach : Reachable t (Call.Fits t) m buffer size c) :
    ∃ l, (∃ lists, Heap t c.pool l [] lists) ∧ Separate l ∧ poolCheck t c.pool = true ∧
      ∃ s, getStats c.pool = some s ∧ s.total = c.pool.total ∧ s.used = usedPayload l := by
  obtain ⟨⟨l₀, valid₀⟩, -, -⟩ := poolInit_valid m memory accepted fits
  obtain ⟨⟨l, valid, -, -⟩, -, -⟩ := reach.backed valid₀
  obtain ⟨lists, heap⟩ := valid.heap
  exact ⟨l, ⟨lists, heap⟩, valid.separate, heap.poolCheck, heap.getStats⟩

theorem pool_stays_valid_alloc : ∃ l, (∃ lists, Heap .bits64
        (takeBlock .bits64 (poolInit .bits64 (fun _ => 0) 8 128) 8 (neededSize .bits64 8)).2 l [] lists) ∧ Separate l ∧
      poolCheck .bits64 (takeBlock .bits64 (poolInit .bits64 (fun _ => 0) 8 128) 8 (neededSize .bits64 8)).2 = true ∧
      ∃ s, getStats (takeBlock .bits64 (poolInit .bits64 (fun _ => 0) 8 128) 8 (neededSize .bits64 8)).2 = some s ∧
        s.total = (takeBlock .bits64 (poolInit .bits64 (fun _ => 0) 8 128) 8 (neededSize .bits64 8)).2.total ∧
        s.used = usedPayload l :=
  have memory : 8 + 128 ≤ Arch.bits64.sizes := by decide
  have accepted : (poolInit .bits64 (fun _ => 0) 8 128).initialized = true := by decide
  have fits : PoolFits .bits64 8 128 := by unfold PoolFits; decide
  have small : RequestFits .bits64 8 := .inl (by decide)
  have found : findFree .bits64 (poolInit .bits64 (fun _ => 0) 8 128) (neededSize .bits64 8) =
      some (some 8) := by decide +kernel
  pool_stays_valid memory accepted fits (.alloc small (by decide) found)

/-- The bytes of the used blocks, with their headers. -/
def usedBytes (l : List Block) : Nat := (l.map fun b => if b.used then b.size else 0).sum

theorem usedPayload_le (l : List Block) : usedPayload l ≤ usedBytes l := by
  refine sum_le_sum fun b _ => ?_
  split
  · exact Nat.sub_le _ _
  · exact le_refl 0

theorem usedPayload_lt {l : List Block} {b : Block} (hb : b ∈ l) (used : b.used = true) (real : b.size ≠ 0) :
    usedPayload l < usedBytes l := by
  obtain ⟨pre, post, rfl⟩ := append_of_mem hb
  have front := usedPayload_le pre
  have behind := usedPayload_le post
  simp only [usedPayload, usedBytes, map_append, map_cons, sum_append, sum_cons, used, if_true] at front behind ⊢
  have : b.size - 8 < b.size := by omega
  omega

/-- The statistics do not count the used blocks: after one request of 8 bytes the header is left
out. -/
theorem used_leaves_headers_out : ¬ ∀ (c : Client) (l : List Block),
    Reachable .bits64 (Call.Fits .bits64) (fun _ => 0) 8 128 c → c.Backed .bits64 l →
      ∃ s, getStats c.pool = some s ∧ s.used = usedBytes l := by
  intro claimed
  have reach : Reachable .bits64 (Call.Fits .bits64) (fun _ => 0) 8 128
      ⟨(takeBlock .bits64 (poolInit .bits64 (fun _ => 0) 8 128) 8 (neededSize .bits64 8)).2, [⟨8 + 8, 8⟩]⟩ :=
    .alloc (.inl (by decide)) (by decide) (by decide +kernel)
  have memory : 8 + 128 ≤ Arch.bits64.sizes := by decide
  have fits : PoolFits .bits64 8 128 := by unfold PoolFits; decide
  obtain ⟨⟨l₀, valid₀⟩, -, -⟩ := poolInit_valid (fun _ => 0) memory (by decide) fits
  obtain ⟨⟨l, backed⟩, -, -⟩ := reach.backed valid₀
  obtain ⟨b, hb, used, -, -, real⟩ := backed.block (.head _)
  obtain ⟨lists, heap⟩ := backed.valid.heap
  obtain ⟨s, stats, -, counted⟩ := heap.getStats
  obtain ⟨s', stats', counted'⟩ := claimed _ l reach backed
  rw [stats] at stats'
  cases stats'
  have := usedPayload_lt hb used real
  omega

/-- **Clients are served** in every run of calls that fit: the payloads a client holds are aligned,
inside its buffer and apart, and each call returns and does what is expected of it. -/
theorem clients_are_served (memory : buffer + size ≤ t.sizes) (reach : Reachable t (Call.Fits t) m buffer size c) :
    c.Disjoint buffer size ∧ ∀ call : Call, call.Allowed c → call.Fits t →
      ∃ result c', c.step t call = some (result, c') ∧ Served c call result c' ∧ c'.Disjoint buffer size := by
  by_cases fits : (poolInit t m buffer size).initialized = true ∧ PoolFits t buffer size
  · obtain ⟨⟨l₀, valid₀⟩, lo, hi⟩ := poolInit_valid m memory fits.1 fits.2
    obtain ⟨⟨l, backed⟩, start, finish⟩ := reach.backed valid₀
    rw [← start] at lo
    rw [← finish] at hi
    refine ⟨backed.disjoint lo hi, fun call allowed fits => ?_⟩
    obtain ⟨result, c', run, served, ⟨l', backed'⟩, start', finish'⟩ := backed.lands allowed fits
    rw [← start'] at lo
    rw [← finish'] at hi
    exact ⟨result, c', run, served, backed'.disjoint lo hi⟩
  · obtain ⟨barren, none⟩ := reach.barren (poolInit_barren m memory (not_and.mp fits))
    have disjoint : c.Disjoint buffer size := by
      have nothing : ∀ a ∈ c.live, False := fun a ha => by rw [none] at ha; cases ha
      constructor
      · exact fun a ha => (nothing a ha).elim
      · exact fun a ha => (nothing a ha).elim
      · rw [none]; exact .nil
    refine ⟨disjoint, fun call allowed _ => ?_⟩
    obtain ⟨run, served⟩ := barren.step none allowed
    exact ⟨0, c, run, served, disjoint⟩

theorem clients_are_served_alloc :
    let c : Client := ⟨(takeBlock .bits32 (poolInit .bits32 (fun _ => 0) 8 64) 8 (neededSize .bits32 20)).2,
      [⟨8 + 8, 20⟩]⟩
    c.Disjoint 8 64 ∧ ∀ call : Call, call.Allowed c → call.Fits .bits32 →
      ∃ result c', c.step .bits32 call = some (result, c') ∧ Served c call result c' ∧ c'.Disjoint 8 64 :=
  clients_are_served (by decide) (.alloc (.inl (by decide)) (by decide) (by decide +kernel))

/-- A request of 4294967281 bytes wraps around on 32 bits and is answered with a block of 16 bytes. -/
theorem wrapped_request_overruns : ¬ ∀ (t : Arch) (m : Mem) (buffer size : Nat) (c : Client),
    buffer + size ≤ t.sizes → Reachable t (Call.Representable t) m buffer size c → c.Disjoint buffer size := by
  intro claimed
  have reach : Reachable .bits32 (Call.Representable .bits32) (fun _ => 0) 8 64
      ⟨(takeBlock .bits32 (poolInit .bits32 (fun _ => 0) 8 64) 8 (neededSize .bits32 4294967281)).2,
        [⟨8 + 8, 4294967281⟩]⟩ :=
    .alloc (by simp only [Call.Representable]; decide) (by decide) (by decide +kernel)
  have := (claimed .bits32 _ 8 64 _ (by decide) reach).inside _ (.head _)
  simp only at this
  omega

end Runs

end PhpPico.Pool
