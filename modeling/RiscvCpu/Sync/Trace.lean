import Mathlib.Data.List.Induction

/-!
# Traces

A system takes actions one after the other, each of which can be possible or not. What
holds at the start, and is kept by every action, holds after every trace, also if it
speaks about the trace so far (`exec_induction`).
-/

namespace Sync

variable {S A : Type*}

/-- The state after the actions, if all of them are possible. -/
def exec (step : S → A → Option S) : List A → S → Option S
  | [], s => some s
  | a :: l, s => (step s a).bind (exec step l)

variable {step : S → A → Option S} {l : List A} {s s' : S} {a : A}

theorem exec_concat (l : List A) (s : S) (a : A) :
    exec step (l ++ [a]) s = (exec step l s).bind (step · a) := by
  induction l generalizing s with
  | nil =>
    rw [List.nil_append, exec, exec, Option.bind_some]
    cases step s a <;> rfl
  | cons b l ih =>
    rw [List.cons_append, exec, exec]
    cases step s b with
    | none => rfl
    | some s => exact ih s

theorem exec_induction {P : List A → S → Prop} (h0 : P [] s)
    (h : ∀ l s a s', P l s → step s a = some s' → P (l ++ [a]) s') (hl : exec step l s = some s') :
    P l s' := by
  induction l using List.reverseRecOn generalizing s' with
  | nil =>
    obtain rfl : s = s' := Option.some.inj hl
    exact h0
  | append_singleton l a ih =>
    rw [exec_concat, Option.bind_eq_some_iff] at hl
    obtain ⟨x, hx, ha⟩ := hl
    exact h l x a s' (ih hx) ha

end Sync
