import RiscvCpu.Core.Phases

/-!
# Progress

The core is alive if it asks for something: a word, data, a product or a quotient. It
is alive in every cycle, and commits one instruction after the other, unless it
fetches a `Silent` word (`alive_iff`): then, it never does anything again.
-/

namespace RiscvCpu.Core

open Sync

/-- The core waits for something. -/
def Alive (s : Core) (i : In) : Prop :=
  s.ireq.valid = true ∨ (s.dreq i).valid = true ∨ (s.mulIn i).valid = true ∨
    (s.divIn i).valid = true

/-- Every request is answered at some time. -/
structure Answered (s : ℕ → Core) (i : ℕ → In) : Prop where
  iresp : ∀ n, (s n).ireq.valid = true → ∃ k ≥ n, (i k).iresp.dataOk = true
  dresp : ∀ n, ((s n).dreq (i n)).valid = true → ∃ k ≥ n, (i k).dresp.dataOk = true

theorem Fetching.alive {s : Core} (h : Fetching s) (i : In) : Alive s i := .inl h.ireqValid

theorem Executing.alive {s : Core} {i : In} (h : Executing s) (hi : i ∈ machine.admits s) :
    Alive s i := by
  have ha := h.asks
  rw [← (h.instr_eq hi).2] at ha
  rw [Alive, dreq_valid, mulIn_valid, divIn_valid]
  exact .inr (asks_cases ha)

theorem Dead.not_alive {s : Core} {i : In} (h : Dead s) (hi : i ∈ machine.admits s) :
    ¬Alive s i := by
  have hinstr : s.instr i = 0#32 :=
    (instr_of_not_dataOk (not_iresp_of_not_ireq hi h.ireqValid)).trans h.currInstr
  rw [Alive, dreq_valid, mulIn_valid, divIn_valid, hinstr]
  rintro (hv | hv | hv | hv)
  · exact absurd hv (ne_true_of_eq_false h.ireqValid)
  all_goals exact absurd hv (by decide)

/-- A silent word is not committed when it is fetched, and kills the core. -/
theorem Fetching.dead {s : Core} {i : In} (h : Fetching s) (hi : i ∈ machine.admits s)
    (hf : i.iresp.dataOk = true) (hs : Silent i.iresp.data) : Dead (s.next i false) := by
  obtain ⟨hk, ha⟩ := silent_iff.1 hs
  rw [← instr_of_dataOk (s := s) hf] at hk ha
  have hmem : asksMem (s.instr i) = false := by
    by_contra hm
    rw [keeps_of_asksMem (eq_true_of_ne_false hm)] at hk
    exact absurd hk Bool.false_ne_true.symm
  have hc : s.ifHoldPc i = false := by
    rw [ifHoldPc_eq, ha, not_dataOk_of_not_asksMem hi hmem, h.mul.done, h.div.done, Bool.not_true,
      Bool.and_false]
    rfl
  exact h.die hf hc hk

section Run

variable {s : ℕ → Core} {i : ℕ → In}

/-- Without silent words, the core fetches or executes. -/
theorem not_dead (hr : machine.IsRun s i)
    (h : ∀ n, (i n).iresp.dataOk = true → ¬Silent (i n).iresp.data) (n : ℕ) :
    Fetching (s n) ∨ Executing (s n) := by
  induction n with
  | zero =>
    rw [Set.mem_singleton_iff.1 hr.init]
    exact .inl fetching_init
  | succ n ih =>
    rw [run_succ hr]
    rcases ih with hn | hn
    · rcases hn.next (hr.admits n) with hn | hn | ⟨hf, hs, _⟩
      · exact .inl hn
      · exact .inr hn
      · exact absurd hs (h n hf)
    · exact hn.next (hr.admits n)

/-- What is executed by a unit is committed, as the unit counts until then. -/
theorem exists_hold_of_rank (hr : machine.IsRun s i) {asked : BitVec 32 → Bool}
    (rank : Core → ℕ) {n : ℕ} (h : Executing (s n)) (hm : asked (s n).currInstr = true)
    (counts : ∀ {s : Core} {i : In}, Executing s → i ∈ machine.admits s → s.ifHoldPc i = false →
      asked s.currInstr = true → rank (s.next i false) < rank s) :
    ∃ k ≥ n, (s k).ifHoldPc (i k) = true := by
  obtain ⟨k, hk, _, he⟩ := exists_of_rank (n := n)
    (P := fun k => Executing (s k) ∧ asked (s k).currInstr = true)
    (E := fun k => (s k).ifHoldPc (i k) = true) (fun k => rank (s k)) ⟨h, hm⟩
    fun k _ ⟨hk, hmk⟩ he => by
      have hc := eq_false_of_ne_true he
      obtain ⟨hnext, hcurr, _⟩ := hk.wait (hr.admits k) hc
      rw [run_succ hr]
      exact ⟨⟨hnext, hcurr ▸ hmk⟩, counts hk (hr.admits k) hc hmk⟩
  exact ⟨k, hk, he⟩

/-- What is executed is committed. -/
theorem exists_hold_of_executing (hr : machine.IsRun s i) (ha : Answered s i) {n : ℕ}
    (h : Executing (s n)) : ∃ k ≥ n, (s k).ifHoldPc (i k) = true := by
  have hinstr := (h.instr_eq (hr.admits n)).2
  rcases asks_cases h.asks with hm | hm | hm
  · obtain ⟨k, hk, hd⟩ := ha.dresp n (by rw [dreq_valid, hinstr, hm])
    exact ⟨k, hk, by simp [ifHoldPc_eq, hd]⟩
  · exact exists_hold_of_rank hr (·.mul.remaining) h hm fun h hi hc => (h.wait hi hc).2.2.2.1
  · exact exists_hold_of_rank hr (·.div.remaining) h hm fun h hi hc => (h.wait hi hc).2.2.2.2

/-- Without silent words, there is always a next commit. -/
theorem exists_hold (hr : machine.IsRun s i) (ha : Answered s i)
    (h : ∀ n, (i n).iresp.dataOk = true → ¬Silent (i n).iresp.data) (n : ℕ) :
    ∃ k ≥ n, (s k).ifHoldPc (i k) = true := by
  rcases not_dead hr h n with hn | hn
  · obtain ⟨k, hk, hf⟩ := ha.iresp n hn.ireqValid
    rcases not_dead hr h (k + 1) with hn' | hn'
    · -- A fetch that does not lead to an execution is a commit.
      refine ⟨k, hk, ?_⟩
      by_contra hc
      have hv := (next_of_not_hold (eq_false_of_ne_true hc)).2.1
      rw [← run_succ hr, hn'.ireqValid, hf] at hv
      exact absurd hv Bool.false_ne_true.symm
    · obtain ⟨l, hl, hc⟩ := exists_hold_of_executing hr ha hn'
      exact ⟨l, by omega, hc⟩
  · exact exists_hold_of_executing hr ha hn

/-- The core is alive in every cycle, and always has a next commit if its requests are
    answered, if and only if it never fetches a silent word. -/
theorem alive_iff (hr : machine.IsRun s i) :
    ((∀ n, Alive (s n) (i n)) ∧
      (Answered s i → ∀ n, ∃ k ≥ n, (s k).ifHoldPc (i k) = true)) ↔
    ∀ n, (i n).iresp.dataOk = true → ¬Silent (i n).iresp.data := by
  constructor
  · intro ⟨h, _⟩ n hf hs
    -- A silent word kills the core in the next cycle.
    have hdead := (fetching_of_dataOk hr hf).dead (hr.admits n) hf hs
    rw [← run_succ hr] at hdead
    exact hdead.not_alive (hr.admits (n + 1)) (h (n + 1))
  · intro h
    refine ⟨fun n => ?_, fun ha => exists_hold hr ha h⟩
    rcases not_dead hr h n with hn | hn
    · exact hn.alive _
    · exact hn.alive (hr.admits n)

end Run

/-- `divw x1, x1, x2`, and then words that are no instructions. -/
def divwWord (pc : BitVec 64) : BitVec 32 := if pc = PCINIT then 0x0220c0bb#32 else 0xffffffff#32

/-- Every fetch is answered at once. -/
def divwEnv (_ : ℕ) (s : Core) : In := if s.ireqValid then .fetch (divwWord s.pc) else .wait

theorem divwWord_eq (pc : BitVec 64) :
    ¬Silent (divwWord pc) ∧ asksMem (divwWord pc) = false := by
  rw [divwWord]
  split <;> decide

theorem divwEnv_fetch {n : ℕ} {s : Core} (h : s.ireqValid = true) :
    divwEnv n s = .fetch (divwWord s.pc) := if_pos h

theorem divwEnv_wait {n : ℕ} {s : Core} (h : s.ireqValid = false) : divwEnv n s = .wait :=
  if_neg (ne_true_of_eq_false h)

theorem admits_divwEnv (n : ℕ) (s : Core) : divwEnv n s ∈ machine.admits s := by
  cases hv : s.ireqValid with
  | true =>
    rw [divwEnv_fetch hv]
    exact ⟨fun _ => hv, fun h => absurd h Bool.false_ne_true⟩
  | false =>
    rw [divwEnv_wait hv]
    exact ⟨fun h => absurd h Bool.false_ne_true, fun h => absurd h Bool.false_ne_true⟩

theorem asksMem_divwEnv (n : ℕ) {s : Core} (h : asksMem s.currInstr = false) :
    asksMem (s.instr (divwEnv n s)) = false := by
  cases hv : s.ireqValid with
  | true =>
    rw [divwEnv_fetch hv, instr_of_dataOk rfl]
    exact (divwWord_eq s.pc).2
  | false => rwa [divwEnv_wait hv, instr_of_not_dataOk rfl]

/-- The memory is never asked for data. -/
theorem answered_divwEnv {s : ℕ → Core} (hr : machine.IsRun s fun n => divwEnv n (s n)) :
    Answered s fun n => divwEnv n (s n) where
  iresp n hv := ⟨n, le_rfl, by rw [divwEnv_fetch hv]; rfl⟩
  dresp n hv := by
    have hcurr : asksMem (s n).currInstr = false := by
      clear hv
      induction n with
      | zero =>
        rw [Set.mem_singleton_iff.1 hr.init]
        rfl
      | succ n ih =>
        rw [run_succ hr]
        rcases currInstr_next (s n) (divwEnv n (s n)) with h0 | h0 <;> rw [h0]
        · rfl
        · exact asksMem_divwEnv n ih
    rw [dreq_valid, asksMem_divwEnv n hcurr] at hv
    exact absurd hv Bool.false_ne_true

/-- The division takes many cycles, and the other words are committed at once. -/
theorem alive_divw :
    let s := machine.drive divwEnv init
    (∀ n, Alive (s n) (divwEnv n (s n))) ∧
      ∀ n, ∃ k ≥ n, (s k).ifHoldPc (divwEnv k (s k)) = true := by
  intro s
  have hr : machine.IsRun s fun n => divwEnv n (s n) :=
    machine.isRun_drive rfl fun n => admits_divwEnv n _
  have halive := (alive_iff hr).2 fun n hd => by
    cases hv : (s n).ireqValid with
    | true =>
      rw [divwEnv_fetch hv]
      exact (divwWord_eq _).1
    | false =>
      rw [divwEnv_wait hv] at hd
      exact absurd hd Bool.false_ne_true
  exact ⟨halive.1, halive.2 (answered_divwEnv hr)⟩

/-- A word with the opcode and the `func3` of `divw`, and the `func7` `0`, then nothing. -/
def silentInputs : ℕ → In
  | 0 => .fetch 0x0020c0bb#32
  | _ => .wait

theorem isRun_silentInputs : machine.IsRun (machine.run init silentInputs) silentInputs := by
  refine machine.isRun_run rfl fun n => ?_
  match n with
  | 0 => exact ⟨fun _ => rfl, fun h => absurd h Bool.false_ne_true⟩
  | n + 1 => exact ⟨fun h => absurd h Bool.false_ne_true, fun h => absurd h Bool.false_ne_true⟩

theorem silent_not_alive :
    (¬∀ s i, machine.IsRun s i → ∀ n, Alive (s n) (i n)) ∧
      ¬Alive (machine.run init silentInputs 1) (silentInputs 1) := by
  have hn : ¬Alive (machine.run init silentInputs 1) (silentInputs 1) := by
    rw [Alive]
    decide
  exact ⟨fun h => hn (h _ _ isRun_silentInputs 1), hn⟩

end RiscvCpu.Core
