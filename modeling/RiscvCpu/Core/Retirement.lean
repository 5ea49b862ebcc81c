import RiscvCpu.Core.Phases

/-!
# Register writes and commits

The register file is written by `ifWreg`, and the instruction is committed by
`ifHoldPc`. They agree, but for `HalfDecoded` words: such a word is committed when it is
fetched, and then stays in `currInstr`, and is written again in every cycle in which
the core waits for the next word (`wreg_at_commit_iff`).

What is reported of the registers, `regNext`, is in every commit what the register file
holds after it (`regNextOut_eq`), though it is overwritten with unfinished results in
every cycle before.
-/

namespace RiscvCpu.Core

open Sync

variable {s : Core} {i : In}

theorem wreg_of_halfDecoded (h : HalfDecoded (s.instr i)) : (s.net i).cu.wreg = true := by
  rw [wreg_eq]
  rcases h.1 with ho | ho <;> rw [ho] <;> rfl

/-! ## Writes -/

/-- A write without a commit is one of a half-decoded word, in a cycle that waits for
    the next one. -/
theorem Fetching.of_ifWreg (h : Fetching s) (hw : s.ifWreg i = true)
    (hc : s.ifHoldPc i = false) : i.iresp.dataOk = false ∧ HalfDecoded s.currInstr := by
  cases hf : i.iresp.dataOk with
  | true =>
    rw [not_wreg_of_asks (asks_of_not_hold hf hc) hc] at hw
    exact absurd hw Bool.false_ne_true
  | false =>
    refine ⟨rfl, h.currInstr.resolve_left fun h0 => ?_⟩
    rw [ifWreg_eq, not_wreg_zero ((instr_of_not_dataOk hf).trans h0), Bool.false_and] at hw
    exact absurd hw Bool.false_ne_true

theorem Phase.of_ifWreg (h : Phase s) (hi : i ∈ machine.admits s) (hw : s.ifWreg i = true)
    (hc : s.ifHoldPc i = false) : i.iresp.dataOk = false ∧ HalfDecoded s.currInstr := by
  cases h with
  | fetching h => exact h.of_ifWreg hw hc
  | executing h =>
    rw [not_wreg_of_asks ((h.instr_eq hi).2 ▸ h.asks) hc] at hw
    exact absurd hw Bool.false_ne_true
  | dead h =>
    have hf := not_iresp_of_not_ireq hi h.ireqValid
    rw [ifWreg_eq, not_wreg_zero ((instr_of_not_dataOk hf).trans h.currInstr), Bool.false_and] at hw
    exact absurd hw Bool.false_ne_true

/-- A half-decoded word is committed when it is fetched, and kept. -/
theorem Fetching.keep (h : Fetching s) (hi : i ∈ machine.admits s) (hf : i.iresp.dataOk = true)
    (hd : HalfDecoded i.iresp.data) :
    Fetching (s.next i false) ∧ (s.next i false).currInstr = i.iresp.data := by
  have hinstr : s.instr i = i.iresp.data := instr_of_dataOk hf
  obtain ⟨hk, ha⟩ := halfDecoded_iff.1 hd
  rw [← hinstr] at hk ha
  have hc : s.ifHoldPc i = true := by
    rw [ifHoldPc_eq, hf, ha]
    rfl
  have hmem : asksMem (s.instr i) = false := by
    simp only [RiscvCpu.asks, Bool.or_eq_false_iff] at ha
    exact ha.1.1
  refine ⟨h.commit hi hc, ?_⟩
  rw [← hinstr]
  simp [Core.next, not_dataOk_of_not_asksMem hi hmem, mulDone, h.mul.done, divDone, h.div.done,
    ifCurrIns_eq, hk, hf]

/-- The kept word is written in the next cycle, unless the next word arrives in it. -/
theorem Fetching.rewrite (h : Fetching s) (hi : i ∈ machine.admits s) (hf : i.iresp.dataOk = false)
    (hd : HalfDecoded s.currInstr) : s.ifWreg i = true ∧ s.ifHoldPc i = false := by
  have hinstr : s.instr i = s.currInstr := instr_of_not_dataOk hf
  refine ⟨?_, (h.wait hi hf).1⟩
  rw [ifWreg_eq, wreg_of_halfDecoded (hinstr ▸ hd), hinstr, h.asks]
  rfl

theorem not_halfDecoded_zero : ¬HalfDecoded 0#32 := by decide

section Run

variable {s : ℕ → Core} {i : ℕ → In}

/-- If the next word always arrives right after a half-decoded one, the cycle before
    a half-decoded word stands in `currInstr` has fetched it. -/
theorem fetched_of_halfDecoded (hr : machine.IsRun s i)
    (h : ∀ n, (i n).iresp.dataOk = true → HalfDecoded (i n).iresp.data →
      (i (n + 1)).iresp.dataOk = true) {n : ℕ} (hd : HalfDecoded (s n).currInstr) :
    ∃ m, n = m + 1 ∧ (i m).iresp.dataOk = true ∧ HalfDecoded (i m).iresp.data := by
  induction n with
  | zero =>
    rw [Set.mem_singleton_iff.1 hr.init] at hd
    exact absurd hd not_halfDecoded_zero
  | succ n ih =>
    refine ⟨n, rfl, ?_⟩
    have hn : HalfDecoded ((s n).instr (i n)) := by
      rw [run_succ hr] at hd
      rcases currInstr_next (s n) (i n) with h0 | h0
      · exact absurd (h0 ▸ hd) not_halfDecoded_zero
      · rwa [← h0]
    -- If the word was not fetched just now, it was there before, and fetched right before
    -- that: the next word would have arrived in this cycle.
    cases hf : (i n).iresp.dataOk with
    | true => exact ⟨rfl, instr_of_dataOk hf ▸ hn⟩
    | false =>
      obtain ⟨m, rfl, hm, hdm⟩ := ih (instr_of_not_dataOk hf ▸ hn)
      exact absurd (h m hm hdm) (ne_true_of_eq_false hf)

/-- The register file is written, and changes, at commits only, if and only if the
    next word arrives right after every half-decoded one. -/
theorem wreg_at_commit_iff (hr : machine.IsRun s i) :
    (∀ n, ((s n).ifWreg (i n) = true → (s n).ifHoldPc (i n) = true) ∧
      ((s (n + 1)).regs ≠ (s n).regs → (s n).ifHoldPc (i n) = true)) ↔
    ∀ n, (i n).iresp.dataOk = true → HalfDecoded (i n).iresp.data →
      (i (n + 1)).iresp.dataOk = true := by
  constructor
  · intro h n hf hd
    have hfetch := fetching_of_dataOk hr hf
    obtain ⟨hnext, hcurr⟩ := hfetch.keep (hr.admits n) hf hd
    rw [← run_succ hr] at hnext hcurr
    by_contra hf'
    -- The kept word would be written in the next cycle, without a commit.
    obtain ⟨hw, hc⟩ := hnext.rewrite (hr.admits (n + 1)) (eq_false_of_ne_true hf') (hcurr ▸ hd)
    exact absurd ((h (n + 1)).1 hw) (ne_true_of_eq_false hc)
  · intro h n
    have hw : (s n).ifWreg (i n) = true → (s n).ifHoldPc (i n) = true := by
      intro hw
      by_contra hc
      obtain ⟨hf, hd⟩ :=
        (phase.of_isRun hr n).of_ifWreg (hr.admits n) hw (eq_false_of_ne_true hc)
      obtain ⟨m, rfl, hm, hdm⟩ := fetched_of_halfDecoded hr h hd
      exact absurd (h m hm hdm) (ne_true_of_eq_false hf)
    refine ⟨hw, fun hne => hw ?_⟩
    by_contra hw'
    rw [run_succ hr, regs_of_not_wreg (eq_false_of_ne_true hw')] at hne
    exact hne rfl

end Run

/-- `addi x1, x0, 5`, then `mulh x1, x1, x1`, then nothing. -/
def mulhInputs : ℕ → In
  | 0 => .fetch 0x00500093#32
  | 1 => .fetch 0x021090b3#32
  | _ => .wait

theorem isRun_mulhInputs : machine.IsRun (machine.run init mulhInputs) mulhInputs := by
  refine machine.isRun_run rfl fun n => ?_
  match n with
  | 0 => exact ⟨fun _ => rfl, fun h => absurd h Bool.false_ne_true⟩
  | 1 => exact ⟨fun _ => by decide, fun h => absurd h Bool.false_ne_true⟩
  | n + 2 => exact ⟨fun h => absurd h Bool.false_ne_true, fun h => absurd h Bool.false_ne_true⟩

/-- In the cycle `2`, the `mulh` that was committed in the cycle `1` adds `x1` to `x1` once
    more. -/
theorem mulh_writes_again :
    (¬∀ s i, machine.IsRun s i → ∀ n, (s n).ifWreg (i n) = true → (s n).ifHoldPc (i n) = true) ∧
      (machine.run init mulhInputs 1).ifHoldPc (mulhInputs 1) = true ∧
      (machine.run init mulhInputs 2).ifHoldPc (mulhInputs 2) = false ∧
      (machine.run init mulhInputs 2).regs.read 1#5 = 10#64 ∧
      (machine.run init mulhInputs 3).regs.read 1#5 = 20#64 := by
  refine ⟨fun h => ?_, by decide⟩
  exact absurd (h _ _ isRun_mulhInputs 2 (by decide)) (by decide)

/-- `mulh x1, x1, x1`, right before `addi x1, x0, 5`. -/
def mulhAddiInputs : ℕ → In
  | 0 => .fetch 0x021090b3#32
  | 1 => .fetch 0x00500093#32
  | _ => .wait

theorem wreg_at_commit_mulhAddi :
    let s := machine.run init mulhAddiInputs
    ∀ n, ((s n).ifWreg (mulhAddiInputs n) = true → (s n).ifHoldPc (mulhAddiInputs n) = true) ∧
      ((s (n + 1)).regs ≠ (s n).regs → (s n).ifHoldPc (mulhAddiInputs n) = true) := by
  have hr : machine.IsRun (machine.run init mulhAddiInputs) mulhAddiInputs := by
    refine machine.isRun_run rfl fun n => ?_
    match n with
    | 0 => exact ⟨fun _ => rfl, fun h => absurd h Bool.false_ne_true⟩
    | 1 => exact ⟨fun _ => by decide, fun h => absurd h Bool.false_ne_true⟩
    | n + 2 => exact ⟨fun h => absurd h Bool.false_ne_true, fun h => absurd h Bool.false_ne_true⟩
  refine (wreg_at_commit_iff hr).2 fun n hf hd => ?_
  match n with
  | 0 => rfl
  | 1 => exact absurd hd (by decide)
  | n + 2 => exact absurd hf Bool.false_ne_true

/-! ## The reported registers -/

/-- What the reported values must agree with before the evaluation of a cycle. -/
structure Reported (s : Core) : Prop where
  fetching : s.ireqValid = true → ∀ r, s.regNext r = s.regs.read r
  executing : asks s.currInstr = true → ∀ r ≠ (decode s.currInstr).rd, s.regNext r = s.regs.read r

/-- The evaluation assigns the value of one register, and the clock edge writes the
    same register, or none if it is the register `0`. -/
theorem regNextOut_eq_read (hs : ∀ r ≠ (decode (s.instr i)).rd, s.regNext r = s.regs.read r)
    (hw : s.ifWreg i = (s.net i).cu.wreg) (r : BitVec 5) :
    s.regNextOut i r = (s.next i false).regs.read r := by
  have hrd : (s.net i).dec.rd = (decode (s.instr i)).rd := rfl
  cases hwreg : (s.net i).cu.wreg with
  | true =>
    have hregs : (s.next i false).regs =
        s.regs.write (s.net i).dec.rd (s.regNextOut i (s.net i).dec.rd) := by
      simp [Core.next, hw, hwreg]
    rw [hregs, Regs.read_write]
    by_cases hr : r = (s.net i).dec.rd
    · by_cases h0 : r = 0#5
      · simp [regNextOut, ← hr, h0]
      · rw [if_pos ⟨hr, h0⟩, hr]
    · rw [if_neg fun h => hr h.1, regNextOut, if_neg hr, hs r hr]
  | false =>
    rw [regs_of_not_wreg (hw.trans hwreg), regNextOut]
    -- Nothing is written. The decoder then gives the destination `0`, reported as 0.
    have h0 : (s.net i).dec.rd = 0#5 := wires_rd _ _ _ hwreg
    by_cases hr : r = (s.net i).dec.rd
    · rw [if_pos hr, if_pos h0, hr, h0, Regs.read_zero]
    · rw [if_neg hr, hs r hr]

/-- While nothing is written, the values of the other registers are retained. -/
theorem regNextOut_of_not_wreg (hs : ∀ r ≠ (decode (s.instr i)).rd, s.regNext r = s.regs.read r)
    (hw : s.ifWreg i = false) {r : BitVec 5} (hr : r ≠ (decode (s.instr i)).rd) :
    s.regNextOut i r = (s.next i false).regs.read r := by
  rw [regs_of_not_wreg hw, ← hs r hr]
  exact if_neg hr

theorem Fetching.reported (h : Fetching s) (hs : ∀ r, s.regNext r = s.regs.read r) : Reported s :=
  ⟨fun _ => hs, fun ha => absurd ha (ne_true_of_eq_false h.asks)⟩

theorem Executing.reported (h : Executing s)
    (hs : ∀ r ≠ (decode s.currInstr).rd, s.regNext r = s.regs.read r) : Reported s :=
  ⟨fun hv => absurd hv (ne_true_of_eq_false h.ireqValid), fun _ => hs⟩

theorem Dead.reported (h : Dead s) : Reported s := by
  refine ⟨fun hv => absurd hv (ne_true_of_eq_false h.ireqValid), fun ha => ?_⟩
  rw [h.currInstr, asks_zero] at ha
  exact absurd ha Bool.false_ne_true

/-- Before the evaluation, the values of the registers that are not written agree. -/
theorem Reported.regNext_eq (hs : Reported s) (h : Phase s) (hi : i ∈ machine.admits s)
    (hc : s.ifHoldPc i = true) :
    ∀ r ≠ (decode (s.instr i)).rd, s.regNext r = s.regs.read r := by
  cases h with
  | fetching h => exact fun r _ => hs.fetching h.ireqValid r
  | executing h =>
    rw [(h.instr_eq hi).2]
    exact hs.executing h.asks
  | dead h => exact absurd hc (ne_true_of_eq_false (h.next hi).1)

/-- A commit assigns the value of the register that is written, the last that was missing. -/
theorem Reported.commit (hs : Reported s) (h : Phase s) (hi : i ∈ machine.admits s)
    (hc : s.ifHoldPc i = true) : Reported (s.next i false) := by
  have hnext : Fetching (s.next i false) := by
    cases h with
    | fetching h => exact h.commit hi hc
    | executing h => exact h.commit hi hc
    | dead h => exact absurd hc (ne_true_of_eq_false (h.next hi).1)
  exact hnext.reported (regNextOut_eq_read (hs.regNext_eq h hi hc) (ifWreg_of_hold hc))

/-- Without a commit, all values agree until the word is fetched. Then, the value of `rd`
    is not final yet. -/
theorem Fetching.reported_next (h : Fetching s) (hs : Reported s) (hi : i ∈ machine.admits s)
    (hc : s.ifHoldPc i = false) : Reported (s.next i false) := by
  have hregs := fun r (_ : r ≠ (decode (s.instr i)).rd) => hs.fetching h.ireqValid r
  cases hf : i.iresp.dataOk with
  | false =>
    have ha : RiscvCpu.asks (s.instr i) = false := instr_of_not_dataOk hf ▸ h.asks
    refine (h.wait hi hf).2.reported (regNextOut_eq_read hregs ?_)
    -- A half-decoded word in `currInstr` can be written again, with its value reported.
    rw [ifWreg_eq, ha]
    exact Bool.and_true _
  | true =>
    have ha := asks_of_not_hold hf hc
    cases hk : keeps (s.instr i) with
    | true =>
      refine (h.start hf hc hk).reported fun r hr => ?_
      rw [(next_of_not_hold hc).2.2, if_pos hk] at hr
      exact regNextOut_of_not_wreg hregs (not_wreg_of_asks ha hc) hr
    | false => exact (h.die hf hc hk).reported

theorem Executing.reported_next (h : Executing s) (hs : Reported s) (hi : i ∈ machine.admits s)
    (hc : s.ifHoldPc i = false) : Reported (s.next i false) := by
  obtain ⟨hnext, hcurr, _⟩ := h.wait hi hc
  have hinstr := (h.instr_eq hi).2
  refine hnext.reported fun r hr => ?_
  rw [hcurr, ← hinstr] at hr
  have hregs : ∀ r ≠ (decode (s.instr i)).rd, s.regNext r = s.regs.read r := by
    rw [hinstr]
    exact hs.executing h.asks
  exact regNextOut_of_not_wreg hregs (not_wreg_of_asks (hinstr ▸ h.asks) hc) hr

theorem reported : machine.Inductive fun s => Phase s ∧ Reported s where
  init s hs := by
    rw [Set.mem_singleton_iff.1 hs]
    refine ⟨.fetching fetching_init, fetching_init.reported fun r => ?_⟩
    by_cases hr : r = 0#5
    · rw [hr, Regs.read_zero]
      rfl
    · rw [Regs.read_of_ne _ hr]
      rfl
  step s hs i hi := by
    refine ⟨phase.step s hs.1 i hi, ?_⟩
    obtain ⟨hphase, hrep⟩ := hs
    cases hc : s.ifHoldPc i with
    | true => exact hrep.commit hphase hi hc
    | false =>
      cases hphase with
      | fetching h => exact h.reported_next hrep hi hc
      | executing h => exact h.reported_next hrep hi hc
      | dead h => exact (h.next hi).2.reported

/-- In every commit of every run, the values reported for the 32 registers, and for the
    one written, are those that the register file holds after the clock edge. -/
theorem regNextOut_eq {s : ℕ → Core} {i : ℕ → In} (hr : machine.IsRun s i) {n : ℕ}
    (hc : (s n).ifHoldPc (i n) = true) :
    (∀ r, (s n).regNextOut (i n) r = (s (n + 1)).regs.read r) ∧
      (s n).regNextOut (i n) 0#5 = 0#64 ∧
      (((s n).net (i n)).cu.wreg = true →
        (s n).regNextOut (i n) ((s n).net (i n)).dec.rd =
          (s (n + 1)).regs.read ((s n).net (i n)).dec.rd) := by
  obtain ⟨hphase, hrep⟩ := reported.of_isRun hr n
  have h : ∀ r, (s n).regNextOut (i n) r = (s (n + 1)).regs.read r := by
    rw [run_succ hr]
    exact regNextOut_eq_read (hrep.regNext_eq hphase (hr.admits n) hc) (ifWreg_of_hold hc)
  exact ⟨h, (h 0#5).trans (Regs.read_zero _), fun _ => h _⟩

/-- The value of `x1` that is reported with the commit of `mulh x1, x1, x1`, and after it. -/
theorem regNextOut_eq_mulh : (machine.run init mulhInputs 1).regNextOut (mulhInputs 1) 1#5 =
    (machine.run init mulhInputs 2).regs.read 1#5 :=
  (regNextOut_eq isRun_mulhInputs (by decide)).1 1#5

end RiscvCpu.Core
