import Mathlib.Data.List.Basic
import PhpPico.Compiler.Lexer

/-!
# The scanners read on

What stands between the start of a number and its end is read byte by byte: no scanner goes back behind the byte it
was called at, or past the end of the source.
-/

namespace PhpPico.Compiler

namespace Lexer

theorem not_atEnd {lexer : Lexer} : lexer.atEnd = false ↔ lexer.current < lexer.source.length := by
  simp [atEnd]

theorem lt_of_byteAt {lexer : Lexer} {position : Nat} (h : lexer.byteAt position ≠ 0) :
    position < lexer.source.length := by
  by_contra outside
  apply h
  rw [byteAt, List.getD_eq_getElem?_getD, List.getElem?_eq_none (by omega)]
  rfl

/-! ## Reading on -/

/-- What every scanner does: it reads on, never behind the end. -/
structure Reads (lexer lexer' : Lexer) : Prop where
  source : lexer'.source = lexer.source
  current : lexer.current ≤ lexer'.current
  within : lexer.current ≤ lexer.source.length → lexer'.current ≤ lexer.source.length
  pendingError : lexer'.pendingError = lexer.pendingError
  interpEnd : ∀ stop, lexer'.interpEnd = some stop → stop ≤ lexer.source.length ∨ lexer.interpEnd = some stop

namespace Reads
variable {lexer lexer' lexer'' : Lexer}

theorem refl (lexer : Lexer) : Reads lexer lexer := ⟨rfl, le_rfl, id, rfl, fun _ h => .inr h⟩

theorem trans (h : Reads lexer lexer') (h' : Reads lexer' lexer'') : Reads lexer lexer'' := by
  refine ⟨h'.source.trans h.source, h.current.trans h'.current, ?_, h'.pendingError.trans h.pendingError, ?_⟩
  · intro inside
    have := h'.within
    rw [h.source] at this
    exact this (h.within inside)
  · intro stop same
    rcases h'.interpEnd stop same with inside | same'
    · exact .inl (h.source ▸ inside)
    · exact h.interpEnd stop same'

theorem advance (h : lexer.current < lexer.source.length) : Reads lexer lexer.advance := by
  unfold Lexer.advance
  split
  all_goals exact ⟨rfl, Nat.le_succ _, fun _ => h, rfl, fun _ same => .inr same⟩

/-- A byte that is not the end is there. -/
theorem advance_of_peek (h : lexer.peek ≠ 0) : Reads lexer lexer.advance := advance (lt_of_byteAt h)

end Reads

@[simp] theorem advance_current (lexer : Lexer) : lexer.advance.current = lexer.current + 1 := by
  unfold advance
  split <;> rfl

@[simp] theorem advance_source (lexer : Lexer) : lexer.advance.source = lexer.source := by
  unfold advance
  split <;> rfl

/-! ## Numbers -/

theorem digitsFrom_reads (base bytes count : Nat) (underscore : Bool) (lexer : Lexer) :
    Reads lexer (digitsFrom base bytes count underscore lexer).2 := by
  induction bytes generalizing count underscore lexer with
  | zero => exact .refl lexer
  | succ bytes ih =>
    rw [digitsFrom]
    split
    · exact .refl lexer
    · next inside =>
      have step := Reads.advance (not_atEnd.mp (Bool.not_eq_true _ ▸ inside))
      split
      · exact step.trans (ih _ _ _)
      · split
        · exact step.trans (ih _ _ _)
        · exact .refl lexer

theorem scanDigits_reads (lexer : Lexer) (base : Nat) : Reads lexer (lexer.scanDigits base).2 :=
  digitsFrom_reads base lexer.left 0 false lexer

theorem scanSign_reads (lexer : Lexer) : Reads lexer lexer.scanSign := by
  unfold scanSign
  split
  · next signed =>
    apply Reads.advance_of_peek
    rw [Bool.or_eq_true, decide_eq_true_iff, decide_eq_true_iff] at signed
    rcases signed with is | is <;> rw [is] <;> decide
  · exact .refl lexer

theorem scanExponent_reads (lexer : Lexer) : Reads lexer lexer.scanExponent.2 := by
  unfold scanExponent
  split
  · next h =>
    rw [Bool.and_eq_true, Bool.not_eq_true'] at h
    have sign := (Reads.advance (not_atEnd.mp h.1)).trans (scanSign_reads lexer.advance)
    have all := sign.trans (scanDigits_reads _ 10)
    dsimp only
    split
    · exact ⟨all.source, le_rfl, id, all.pendingError, all.interpEnd⟩
    · exact all
  · exact .refl lexer

end Lexer
end PhpPico.Compiler
