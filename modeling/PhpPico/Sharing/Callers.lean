import PhpPico.Sharing.Invoke
import PhpPico.Sharing.Readonly

/-!
# Callers

Arguments are arrays that the caller still has, and the code that is called may write, sort and unset its parameters.
What the operands and the variables of the frames that wait read stays the same.
-/

namespace PhpPico.Sharing
open CopyOnWrite OrderedMap

/-- The frame waits for a call. -/
def Waits (below : List Frame) (s : State) : Prop := ∃ extra, s.callers = extra ++ below

section Callers
variable {prog : Program} {s s' : State} {f : Frame} {callers : List Frame} {op : Op} {w : PValue} {a : Nat}

/-- What a frame that waits has is counted besides the variables that run and what is to be released. -/
theorem caller_counted (waits : Waits (f :: callers) s) (a : Nat) : count a f.values +
    count a (s.frame.locals.flatMap Variable.values) + count a s.stored + count a s.pending ≤ count a s.places := by
  obtain ⟨extra, frames⟩ := waits
  simp only [State.places, frames, List.flatMap_append, List.flatMap_cons, Frame.values, count_append]
  omega

theorem read_counted {slot : Nat} {base : PValue} (read : s.readLocal slot = some base) (a : Nat) :
    count a [base] ≤ count a (s.frame.locals.flatMap Variable.values) + count a s.stored := by
  unfold State.readLocal at read
  split at read
  · cases read
  · rename_i own at_slot
    cases read
    exact (count_flatMap_le Variable.values at_slot).trans (Nat.le_add_right _ _)
  · have stored := count_flatMap_le (a := a) (fun v => [v]) read
    rw [List.flatMap_singleton'] at stored
    exact stored.trans (Nat.le_add_left _ _)

theorem caller_mem (waits : Waits (f :: callers) s) (mem : w ∈ f.values) : w ∈ s.places := by
  obtain ⟨extra, frames⟩ := waits
  simp only [State.places, frames, List.flatMap_append, List.flatMap_cons, List.mem_append, mem, true_or, or_true]

/-- A step of the code that a frame has called spares what the frame has. -/
theorem caller_spared (waits : Waits (f :: callers) s) (harmless : Harmless f.values op s) (mem : w ∈ f.values) :
    Spared s w op := by
  cases op with
  | setIndex _ _ slot _ _ | unsetIndex _ _ slot _ =>
    intro base a read same
    have counted := caller_counted waits a
    have here := count_pos (same ▸ mem)
    have there := read_counted read a
    omega
  | mutatePush i v | mutateReplace i c => exact fun a at_i => harmless a at_i w mem
  | releaseOne =>
    intro v rest pending a same
    have counted := caller_counted waits a
    have here := count_pos (same ▸ mem)
    rw [pending, count_cons] at counted
    omega
  | _ => trivial

end Callers

/-- `$a = [1]; f($a);` -/
def call : List Op :=
  [.newArray, .pushData (.int 1), .arrPush, .built, .storeLocal 0, .loadLocal 0, .enter none 1 2]

def called : State := (runOps readonlyProgram call (.start 1)).get (by decide +kernel)

def waiting : Frame := ⟨none, [.own (.array 0)], []⟩

/-- `$x[] = $y;` in the function, which has its own array after that. -/
def wrote : State := (exec readonlyProgram (.setIndex true true 0 none 1) called).get (by decide +kernel)

end PhpPico.Sharing
