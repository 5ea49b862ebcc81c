import Mathlib.Data.List.Basic
import Mathlib.Tactic.Choose

/-!
# Operations

A system that does operations, one after the other, each of which has a result. To refine
another one, it is enough that each operation does the same on states and on their
abstractions (`operate_abs`). Where a step can fail, a run needs an invariant (`exists_run`).
-/

namespace Sync

variable {A S T R : Type*}

/-- The state after some operations, and their results in order. -/
def operate (op : A → S → S × R) : List A → S → S × List R
  | [], s => (s, [])
  | a :: l, s =>
    let (s', rs) := operate op l (op a s).1
    (s', (op a s).2 :: rs)

/-- If every operation respects the abstraction, then so does any number of them. -/
theorem operate_abs {op : A → S → S × R} {op' : A → T → T × R} {abs : S → T}
    (h : ∀ a s, op' a (abs s) = (abs (op a s).1, (op a s).2)) (l : List A) (s : S) :
    operate op' l (abs s) = (abs (operate op l s).1, (operate op l s).2) := by
  induction l generalizing s with
  | nil => rfl
  | cons a l ih => simp only [operate, h, ih]

/-- A run goes on for ever, if an invariant makes every step succeed. -/
theorem exists_run (step : ℕ → S → Option (R × S)) {P : ℕ → S → Prop} {s₀ : S} (h0 : P 0 s₀)
    (h : ∀ n s, P n s → ∃ r s', step n s = some (r, s') ∧ P (n + 1) s') :
    ∃ (s : ℕ → S) (r : ℕ → R), s 0 = s₀ ∧ ∀ n, step n (s n) = some (r n, s (n + 1)) := by
  obtain ⟨r₀, -⟩ := h 0 s₀ h0
  have : Nonempty R := ⟨r₀⟩
  have : Nonempty S := ⟨s₀⟩
  choose! r next hstep hnext using h
  let s : ℕ → S := fun n => n.rec s₀ next
  have hs : ∀ n, P n (s n) := fun n => by
    induction n with
    | zero => exact h0
    | succ n ih => exact hnext n _ ih
  exact ⟨s, fun n => r n (s n), rfl, fun n => hstep n _ (hs n)⟩

end Sync
