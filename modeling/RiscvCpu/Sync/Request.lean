import RiscvCpu.Sync.Machine

/-!
# Requests and answers

A requester presents requests, cycle by cycle, to someone who answers in some of the
cycles. It keeps a request unchanged until the answer (`Held`), and can present the
next one right after it. A request is *presented* in its first cycle (`Presented`), and
answered in the first cycle from there on with an answer (`Answers`).

* `Held.existsUnique_presented`: every answer, if there is none without a request,
  answers exactly one request.
* `Held.existsUnique_answer`: every request has exactly one answer, if there is one.
* `foldl_ops`: what is changed by operations, in some of the cycles, is what it was,
  after the operations done so far, in order.
-/

namespace Sync

section Request

variable {R : Type*} (valid : R → Prop) (req : ℕ → R) (ok : ℕ → Prop)

/-- The requests are kept until they are answered. -/
def Held : Prop := ∀ t, valid (req t) → ¬ok t → req (t + 1) = req t

/-- In the cycle `t`, a request is presented that was not there before. -/
def Presented (t : ℕ) : Prop := valid (req t) ∧ ∀ u, t = u + 1 → valid (req u) → ok u

/-- The cycle `k` has the first answer to the request of the cycle `t`. -/
structure Answers (t k : ℕ) : Prop where
  le : t ≤ k
  answered : ok k
  first : ∀ j, t ≤ j → j < k → ¬ok j
  kept : ∀ j, t ≤ j → j ≤ k → req j = req t

variable {valid req ok}

theorem Answers.unique {t k k' : ℕ} (h : Answers req ok t k) (h' : Answers req ok t k') :
    k = k' := by
  rcases lt_trichotomy k k' with hlt | heq | hlt
  · exact absurd h.answered (h'.first k h.le hlt)
  · exact heq
  · exact absurd h'.answered (h.first k' h'.le hlt)

theorem Held.kept (hh : Held valid req ok) {t u : ℕ} (hv : valid (req t)) (htu : t ≤ u)
    (hj : ∀ j, t ≤ j → j < u → ¬ok j) : req u = req t := by
  induction u, htu using Nat.le_induction with
  | base => rfl
  | succ u htu ih =>
    have heq := ih fun j htj hju => hj j htj (Nat.lt_succ_of_lt hju)
    rw [hh u (heq ▸ hv) (hj u htu u.lt_succ_self), heq]

/-- A valid request was presented at some time, and is not answered since. -/
theorem Held.exists_presented (hh : Held valid req ok) (k : ℕ) (hv : valid (req k)) :
    ∃ t ≤ k, Presented valid req ok t ∧ (∀ j, t ≤ j → j < k → ¬ok j) ∧
      ∀ j, t ≤ j → j ≤ k → req j = req t := by
  induction k with
  | zero =>
    refine ⟨0, le_rfl, ⟨hv, fun u hu => by omega⟩, fun j _ hj => by omega, fun j _ hj => ?_⟩
    rw [Nat.le_zero.1 hj]
  | succ k ih =>
    -- Either the request was there before, not answered, or it is presented just now.
    by_cases hk : valid (req k) ∧ ¬ok k
    · have heq := hh k hk.1 hk.2
      obtain ⟨t, htk, hp, hj, hkept⟩ := ih hk.1
      refine ⟨t, Nat.le_succ_of_le htk, hp, fun j htj hjk => ?_, fun j htj hjk => ?_⟩
      · rcases Nat.lt_succ_iff_lt_or_eq.1 hjk with hjk | rfl
        · exact hj j htj hjk
        · exact hk.2
      · rcases Nat.le_succ_iff.1 hjk with hjk | rfl
        · exact hkept j htj hjk
        · rw [heq, hkept k htk le_rfl]
    · refine ⟨k + 1, le_rfl, ⟨hv, fun u hu hvu => ?_⟩, fun j _ hj => by omega, fun j hj hjk => ?_⟩
      · obtain rfl : u = k := by omega
        exact by_contra fun hok => hk ⟨hvu, hok⟩
      · rw [show j = k + 1 by omega]

theorem Presented.le_of_answers {t t' k : ℕ} (h : Answers req ok t k)
    (hp : valid (req t)) (hp' : Presented valid req ok t') (h' : Answers req ok t' k) : t' ≤ t := by
  by_contra hlt
  -- Otherwise, the request of `t` is still there in the cycle before `t'`, and that cycle
  -- must have answered it, as another one is presented next.
  obtain ⟨u, rfl⟩ : ∃ u, t' = u + 1 := ⟨t' - 1, by omega⟩
  have hle := h'.le
  have hv : valid (req u) := by
    rw [h.kept u (by omega) (by omega)]
    exact hp
  exact h.first u (by omega) (by omega) (hp'.2 u rfl hv)

/-- Every answer is the answer to exactly one request. -/
theorem Held.existsUnique_presented (hh : Held valid req ok) {k : ℕ} (hv : valid (req k))
    (hok : ok k) : ∃! t, Presented valid req ok t ∧ Answers req ok t k := by
  obtain ⟨t, htk, hp, hj, hkept⟩ := hh.exists_presented k hv
  have ha : Answers req ok t k := ⟨htk, hok, hj, hkept⟩
  refine ⟨t, ⟨hp, ha⟩, fun t' ⟨hp', ha'⟩ => ?_⟩
  exact le_antisymm (hp'.le_of_answers ha hp.1 ha') (hp.le_of_answers ha' hp'.1 ha)

/-- A request has exactly one answer, if there is an answer at all. -/
theorem Held.existsUnique_answer (hh : Held valid req ok) {t : ℕ} (hv : valid (req t))
    (hok : ∃ k, t ≤ k ∧ ok k) : ∃! k, Answers req ok t k := by
  obtain ⟨k, htk, hk, hok, hj⟩ := exists_of_stays (P := fun k => req k = req t) rfl hok
    fun k _ hk hnok => by rw [hh k (hk ▸ hv) hnok, hk]
  have ha : Answers req ok t k := by
    refine ⟨htk, hok, fun j htj hjk => (hj j htj hjk).2, fun j htj hjk => ?_⟩
    rcases hjk.lt_or_eq with hjk | rfl
    · exact (hj j htj hjk).1
    · exact hk
  exact ⟨k, ha, fun k' ha' => ha'.unique ha⟩

end Request

section Ops

variable {O T : Type*}

/-- The operations that are done before the cycle `n`, in order. -/
def ops (op : ℕ → Option O) : ℕ → List O
  | 0 => []
  | n + 1 => ops op n ++ (op n).toList

/-- What the operations change is what it was, after the operations. -/
theorem foldl_ops {op : ℕ → Option O} {x : ℕ → T} (exec : T → O → T)
    (h : ∀ n, x (n + 1) = (op n).elim (x n) (exec (x n))) (n : ℕ) :
    x n = (ops op n).foldl exec (x 0) := by
  induction n with
  | zero => rfl
  | succ n ih =>
    rw [h, ops, List.foldl_append, ← ih]
    cases op n <;> rfl

end Ops

end Sync
