import Mathlib.Data.Nat.Nth
import Mathlib.Data.Set.Basic

/-!
# Synchronous machines

A synchronous machine has registers, updated all at once at every clock edge,
and is driven by an environment that presents, in every cycle, some inputs. What
the environment may present can depend on the current registers (it may, e.g.,
only answer a request that is there): these are the *admissible* inputs. A run
is the sequence of the registers, cycle by cycle, under admissible inputs.

* `Machine.Inductive`: a condition on the registers that holds initially and is
  kept by every cycle holds in every cycle of every run (`Inductive.of_isRun`).
* `Machine.Refines`: a machine that, in the cycles in which it *commits*, does
  one step of a function `A` on an abstraction of its registers, and otherwise
  leaves the abstraction alone. Its run is then that of `A`, delayed: before
  the cycle `n`, as many steps of `A` are done as there are commits
  (`Refines.abs_eq_iterate`), and the `k`-th commit is the `k`-th step
  (`Refines.abs_nth`).
* `exists_of_stays` and `exists_of_rank`: what waits for an event, and keeps a
  condition while it waits, has the condition when the event comes. A rank also
  bounds the time until then (`exists_le_of_rank`).
-/

namespace Sync

variable {S I T : Type*}

/-- A synchronous machine with registers `S` and inputs `I`. -/
structure Machine (S I : Type*) where
  /-- The initial registers. -/
  init : Set S
  /-- The inputs the environment may present, given the registers. -/
  admits : S → Set I
  /-- The registers after the clock edge. -/
  next : S → I → S

namespace Machine

variable (m : Machine S I)

/-- A run: the registers `s n` and the inputs `i n` in every cycle `n`. -/
structure IsRun (s : ℕ → S) (i : ℕ → I) : Prop where
  init : s 0 ∈ m.init
  admits : ∀ n, i n ∈ m.admits (s n)
  next : ∀ n, s (n + 1) = m.next (s n) (i n)

/-- The registers from `s` on, under the inputs `i`. -/
def run (s : S) (i : ℕ → I) : ℕ → S
  | 0 => s
  | n + 1 => m.next (run s i n) (i n)

theorem isRun_run {s : S} {i : ℕ → I} (hs : s ∈ m.init) (hi : ∀ n, i n ∈ m.admits (m.run s i n)) :
    m.IsRun (m.run s i) i :=
  ⟨hs, hi, fun _ => rfl⟩

/-- The registers from `s` on, with an environment that looks at them. -/
def drive (env : ℕ → S → I) (s : S) : ℕ → S
  | 0 => s
  | n + 1 => m.next (drive env s n) (env n (drive env s n))

theorem isRun_drive {env : ℕ → S → I} {s : S} (hs : s ∈ m.init)
    (hi : ∀ n, env n (m.drive env s n) ∈ m.admits (m.drive env s n)) :
    m.IsRun (m.drive env s) fun n => env n (m.drive env s n) :=
  ⟨hs, hi, fun _ => rfl⟩

/-- The registers that some run reaches. -/
inductive Reachable : S → Prop
  | init {s : S} : s ∈ m.init → Reachable s
  | step {s : S} {i : I} : Reachable s → i ∈ m.admits s → Reachable (m.next s i)

/-- `P` holds initially, and every cycle keeps it. -/
structure Inductive (P : S → Prop) : Prop where
  init : ∀ s ∈ m.init, P s
  step : ∀ s, P s → ∀ i ∈ m.admits s, P (m.next s i)

variable {m} {s : ℕ → S} {i : ℕ → I} {P : S → Prop}

theorem IsRun.reachable (hr : m.IsRun s i) : ∀ n, m.Reachable (s n)
  | 0 => .init hr.init
  | n + 1 => hr.next n ▸ .step (hr.reachable n) (hr.admits n)

/-- An inductive condition holds in every reachable state. -/
theorem Inductive.of_reachable (hP : m.Inductive P) {x : S} (hx : m.Reachable x) : P x := by
  induction hx with
  | init h => exact hP.init _ h
  | step _ hi ih => exact hP.step _ ih _ hi

/-- An inductive condition holds in every cycle of every run. -/
theorem Inductive.of_isRun (hP : m.Inductive P) (hr : m.IsRun s i) (n : ℕ) : P (s n) :=
  hP.of_reachable (hr.reachable n)

/-- What every cycle keeps holds in every cycle, if it holds in the first. -/
theorem IsRun.induction (hr : m.IsRun s i) (h0 : P (s 0))
    (step : ∀ s, P s → ∀ i ∈ m.admits s, P (m.next s i)) (n : ℕ) : P (s n) := by
  induction n with
  | zero => exact h0
  | succ n ih =>
    rw [hr.next]
    exact step _ ih _ (hr.admits n)

/-! ## Delayed refinement -/

variable (m P) in
/-- In the states `P`, the machine does one step of `A` on the abstraction `abs`
    when it commits, and leaves the abstraction alone when it does not. -/
structure Refines (commit : S → I → Bool) (abs : S → T) (A : T → T) : Prop where
  commits : ∀ s, P s → ∀ i ∈ m.admits s, commit s i = true → abs (m.next s i) = A (abs s)
  waits : ∀ s, P s → ∀ i ∈ m.admits s, commit s i = false → abs (m.next s i) = abs s

variable {commit : S → I → Bool} {abs : S → T} {A : T → T}

/-- Before the cycle `n`, the machine has done one step of `A` for each commit. -/
theorem Refines.abs_eq_iterate (h : m.Refines P commit abs A) (hP : ∀ n, P (s n))
    (hr : m.IsRun s i) (n : ℕ) :
    abs (s n) = A^[Nat.count (fun k => commit (s k) (i k) = true) n] (abs (s 0)) := by
  induction n with
  | zero => rw [Nat.count_zero, Function.iterate_zero_apply]
  | succ n ih =>
    rw [hr.next, Nat.count_succ]
    by_cases hc : commit (s n) (i n) = true
    · rw [if_pos hc, Function.iterate_succ_apply', ← ih]
      exact h.commits _ (hP n) _ (hr.admits n) hc
    · rw [if_neg hc, Nat.add_zero, ← ih]
      exact h.waits _ (hP n) _ (hr.admits n) (Bool.eq_false_iff.2 hc)

/-- The `k`-th commit, in a run with infinitely many, does the `k`-th step of `A`. -/
theorem Refines.abs_nth (h : m.Refines P commit abs A) (hP : ∀ n, P (s n)) (hr : m.IsRun s i)
    (hinf : {n | commit (s n) (i n) = true}.Infinite) (k : ℕ) :
    abs (s (Nat.nth (fun n => commit (s n) (i n) = true) k)) = A^[k] (abs (s 0)) ∧
      abs (s (Nat.nth (fun n => commit (s n) (i n) = true) k + 1)) = A^[k + 1] (abs (s 0)) := by
  have hc := Nat.nth_mem_of_infinite hinf k
  refine ⟨?_, ?_⟩
  · rw [h.abs_eq_iterate hP hr (Nat.nth _ k), Nat.count_nth_of_infinite hinf]
  · rw [h.abs_eq_iterate hP hr (Nat.nth _ k + 1), Nat.count_succ, if_pos hc,
      Nat.count_nth_of_infinite hinf]

end Machine

/-! ## Waiting for an event -/

section Waiting

variable {P E : ℕ → Prop} {n : ℕ}

/-- What holds until an event that is bound to come holds when it comes. -/
theorem exists_of_stays (hP : P n) (hE : ∃ k, n ≤ k ∧ E k)
    (stays : ∀ k, n ≤ k → P k → ¬E k → P (k + 1)) :
    ∃ k, n ≤ k ∧ P k ∧ E k ∧ ∀ j, n ≤ j → j < k → P j ∧ ¬E j := by
  classical
  have hex : ∃ k, n ≤ k ∧ E k := hE
  have hlt : ∀ j, n ≤ j → j < Nat.find hex → ¬E j := fun j hj hjk he =>
    Nat.find_min hex hjk ⟨hj, he⟩
  have hP' : ∀ j, n ≤ j → j ≤ Nat.find hex → P j := by
    intro j hj
    induction j, hj using Nat.le_induction with
    | base => exact fun _ => hP
    | succ j hj ih => exact fun hjk => stays j hj (ih (Nat.le_of_succ_le hjk)) (hlt j hj hjk)
  -- The first cycle with the event.
  obtain ⟨hn, he⟩ := Nat.find_spec hex
  exact ⟨Nat.find hex, hn, hP' _ hn le_rfl, he,
    fun j hj hjk => ⟨hP' j hj hjk.le, hlt j hj hjk⟩⟩

/-- An event comes if, as long as it does not, a rank decreases. -/
theorem exists_of_rank (rank : ℕ → ℕ) (hP : P n)
    (decreases : ∀ k, n ≤ k → P k → ¬E k → P (k + 1) ∧ rank (k + 1) < rank k) :
    ∃ k, n ≤ k ∧ P k ∧ E k := by
  -- By induction on a bound of the rank, for all cycles with this bound.
  suffices h : ∀ b k, n ≤ k → P k → rank k ≤ b → ∃ k, n ≤ k ∧ P k ∧ E k from
    h (rank n) n le_rfl hP le_rfl
  intro b
  induction b with
  | zero =>
    intro k hk hPk hb
    refine ⟨k, hk, hPk, by_contra fun hE => ?_⟩
    exact absurd (decreases k hk hPk hE).2 (by omega)
  | succ b ih =>
    intro k hk hPk hb
    by_cases hE : E k
    · exact ⟨k, hk, hPk, hE⟩
    · obtain ⟨hP', hr⟩ := decreases k hk hPk hE
      exact ih (k + 1) (by omega) hP' (by omega)

/-- The event comes in as many cycles as the rank, or before. -/
theorem exists_le_of_rank (rank : ℕ → ℕ) (hP : P n)
    (decreases : ∀ k, n ≤ k → P k → ¬E k → P (k + 1) ∧ rank (k + 1) < rank k) :
    ∃ k, n ≤ k ∧ k ≤ n + rank n ∧ E k := by
  by_contra hE
  push Not at hE
  -- Without the event, as much of the rank is gone as there are cycles.
  have hlt : ∀ j, j ≤ rank n → P (n + j) ∧ rank (n + j) + j ≤ rank n := by
    intro j
    induction j with
    | zero => exact fun _ => ⟨hP, le_rfl⟩
    | succ j ih =>
      intro hj
      obtain ⟨hPj, hr⟩ := ih (by omega)
      obtain ⟨hP', hr'⟩ := decreases (n + j) (by omega) hPj (hE _ (by omega) (by omega))
      refine ⟨hP', ?_⟩
      change rank (n + j + 1) + (j + 1) ≤ rank n
      omega
  obtain ⟨hPr, hr⟩ := hlt (rank n) le_rfl
  have hd := (decreases (n + rank n) (by omega) hPr (hE _ (by omega) le_rfl)).2
  omega

end Waiting

end Sync
