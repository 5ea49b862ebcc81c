import RiscvCpu.Core.Core

/-!
# The phases of the core

The core fetches, or executes the instruction in `currInstr`, which asks for the
memory, the multiplier or the divider. Whatever words it fetches, it is in one of
three phases (`phase`).

* `Fetching`: a request is up on the instruction bus, and the units are idle.
* `Executing`: the core waits for what the instruction in `currInstr` asks for.
* `Dead`: no request is up, and never will be.

Two mismatches between the control unit and `ifCurrIns` make a difference. A `Silent`
word asks for the divider, but is not kept in `currInstr`: fetching it leads to the
dead phase. A `HalfDecoded` word is kept, but asks for nothing: it is committed when it
is fetched, and stays in `currInstr`.
-/

namespace RiscvCpu

open Sync

/-! ## Words -/

section Word

variable (instr : BitVec 32)

/-- The encodings of `mulh`, `mulhsu` and `mulhu`, and their unused `W` forms. -/
def HalfDecoded : Prop :=
  (instr.extractLsb 6 0 = 0b0110011#7 ∨ instr.extractLsb 6 0 = 0b0111011#7) ∧
    instr.extractLsb 31 25 = 0b0000001#7 ∧
    (instr.extractLsb 14 12 = 0b001#3 ∨ instr.extractLsb 14 12 = 0b010#3 ∨
      instr.extractLsb 14 12 = 0b011#3)

/-- The encodings of `divw`, `remw` and `remuw`, but with another `func7`. -/
def Silent : Prop :=
  instr.extractLsb 6 0 = 0b0111011#7 ∧ instr.extractLsb 31 25 ≠ 0b0000001#7 ∧
    (instr.extractLsb 14 12 = 0b100#3 ∨ instr.extractLsb 14 12 = 0b110#3 ∨
      instr.extractLsb 14 12 = 0b111#3)

instance : DecidablePred HalfDecoded := fun _ => inferInstanceAs (Decidable (_ ∧ _))

instance : DecidablePred Silent := fun _ => inferInstanceAs (Decidable (_ ∧ _))

variable {instr}

theorem halfDecoded_iff : HalfDecoded instr ↔ keeps instr = true ∧ asks instr = false := by
  unfold HalfDecoded keeps asks asksMem asksMul asksDiv
  generalize (instr.extractLsb 6 0 : BitVec 7) = o, (instr.extractLsb 31 25 : BitVec 7) = f7,
    (instr.extractLsb 14 12 : BitVec 3) = f3
  rcases Bits.cases_three f3 with rfl | rfl | rfl | rfl | rfl | rfl | rfl | rfl <;> grind

theorem silent_iff : Silent instr ↔ keeps instr = false ∧ asks instr = true := by
  unfold Silent keeps asks asksMem asksMul asksDiv
  generalize (instr.extractLsb 6 0 : BitVec 7) = o, (instr.extractLsb 31 25 : BitVec 7) = f7,
    (instr.extractLsb 14 12 : BitVec 3) = f3
  rcases Bits.cases_three f3 with rfl | rfl | rfl | rfl | rfl | rfl | rfl | rfl <;> grind

theorem asks_cases (h : asks instr = true) :
    asksMem instr = true ∨ asksMul instr = true ∨ asksDiv instr = true := by
  simpa only [asks, Bool.or_eq_true, or_assoc] using h

theorem asks_zero : asks 0#32 = false := by decide

theorem keeps_of_asksMem (h : asksMem instr = true) : keeps instr = true := by
  by_contra hk
  have hs : Silent instr := silent_iff.2 ⟨eq_false_of_ne_true hk, by simp [asks, h]⟩
  simp [asksMem, hs.1] at h

theorem keeps_of_asksMul (h : asksMul instr = true) : keeps instr = true := by
  by_contra hk
  have hs : Silent instr := silent_iff.2 ⟨eq_false_of_ne_true hk, by simp [asks, h]⟩
  simp [asksMul, hs.2.1] at h

open Rv64

theorem opcode_encode (i : Instr) : i.encode.extractLsb 6 0 = (decoded i).opcode := by
  rw [← decode_encode, decode_opcode]

theorem func_encode {i : Instr}
    (h : (decoded i).opcode = 0b0110011#7 ∨ (decoded i).opcode = 0b0111011#7) :
    i.encode.extractLsb 14 12 = (decoded i).func3 ∧
      i.encode.extractLsb 31 25 = (decoded i).func7 := by
  rw [← opcode_encode] at h
  rw [← decode_encode, (decode_func h).1, (decode_func h).2]
  exact ⟨rfl, rfl⟩

/-- Of the instructions, those are kept that ask for something. -/
theorem keeps_encode (i : Instr) : keeps i.encode = asks i.encode := by
  rw [keeps, asks, asksMem, asksMul, asksDiv, opcode_encode]
  cases i with
  | opReg op rs2 rs1 rd =>
    rw [(func_encode (.inl rfl)).1, (func_encode (.inl rfl)).2]
    cases op <;> rfl
  | opWord op rs2 rs1 rd =>
    rw [(func_encode (.inr rfl)).1, (func_encode (.inr rfl)).2]
    cases op <;> rfl
  | mulDiv op w rs2 rs1 rd =>
    cases w with
    | false =>
      rw [(func_encode (.inl rfl)).1, (func_encode (.inl rfl)).2]
      cases op <;> rfl
    | true =>
      rw [(func_encode (.inr rfl)).1, (func_encode (.inr rfl)).2]
      cases op <;> rfl
  | _ => rfl

theorem not_halfDecoded_of_legal (h : Legal instr) : ¬HalfDecoded instr := by
  obtain ⟨i, rfl⟩ := h
  rw [halfDecoded_iff, keeps_encode]
  exact fun h => absurd h.1 (ne_true_of_eq_false h.2)

theorem not_silent_of_legal (h : Legal instr) : ¬Silent instr := by
  obtain ⟨i, rfl⟩ := h
  rw [silent_iff, keeps_encode]
  exact fun h => absurd h.2 (ne_true_of_eq_false h.1)

end Word

namespace Core

variable {s : Core} {i : In}

/-! ## Wires -/

theorem dreq_valid (s : Core) (i : In) : (s.dreq i).valid = asksMem (s.instr i) := wires_dValid ..

theorem mulIn_valid (s : Core) (i : In) : (s.mulIn i).valid = asksMul (s.instr i) :=
  wires_mulValid ..

theorem divIn_valid (s : Core) (i : In) : (s.divIn i).valid = asksDiv (s.instr i) :=
  wires_divValid ..

theorem not_asks : (!(s.dreq i).valid && !(s.mulIn i).valid && !(s.divIn i).valid) =
    !asks (s.instr i) := by
  rw [dreq_valid, mulIn_valid, divIn_valid, asks, Bool.not_or, Bool.not_or]

theorem ifHoldPc_eq : s.ifHoldPc i =
    ((i.iresp.dataOk && !asks (s.instr i)) || i.dresp.dataOk || s.mul.done || s.div.done) := by
  rw [← not_asks, ← Bool.and_assoc, ← Bool.and_assoc]
  rfl

theorem ifWreg_eq : s.ifWreg i = ((s.net i).cu.wreg &&
    (!asks (s.instr i) || i.dresp.dataOk || s.mul.done || s.div.done)) := by
  rw [← not_asks]
  rfl

theorem ifCurrIns_eq (s : Core) (i : In) : s.ifCurrIns i = keeps (s.instr i) := by
  have ho : (s.net i).dec.opcode = (s.instr i).extractLsb 6 0 := decode_opcode _
  rw [ifCurrIns, ho, keeps]
  by_cases h : (s.instr i).extractLsb 6 0 = 0b0110011#7 ∨ (s.instr i).extractLsb 6 0 = 0b0111011#7
  · have hf : (s.net i).dec.func7 = (s.instr i).extractLsb 31 25 := (decode_func h).2
    rw [hf]
  · push Not at h
    have h1 : ((s.instr i).extractLsb 6 0 == 0b0110011#7) = false := beq_eq_false_iff_ne.2 h.1
    have h2 : ((s.instr i).extractLsb 6 0 == 0b0111011#7) = false := beq_eq_false_iff_ne.2 h.2
    rw [h1, h2]
    rfl

theorem instr_of_dataOk (h : i.iresp.dataOk = true) : s.instr i = i.iresp.data := if_pos h

theorem instr_of_not_dataOk (h : i.iresp.dataOk = false) : s.instr i = s.currInstr := by
  rw [instr, h, if_neg Bool.false_ne_true]

theorem wreg_eq (s : Core) (i : In) :
    (s.net i).cu.wreg = hasRd ((s.instr i).extractLsb 6 0) := by
  rw [← decode_opcode]
  exact controlunit_wreg _ _ _ _ _ _

theorem not_wreg_zero (h : s.instr i = 0#32) : (s.net i).cu.wreg = false := by
  rw [wreg_eq, h]
  decide

/-- In the cycle of a commit, what has a destination is written. -/
theorem ifWreg_of_hold (hc : s.ifHoldPc i = true) : s.ifWreg i = (s.net i).cu.wreg := by
  rw [ifHoldPc_eq, Bool.or_assoc, Bool.or_assoc, Bool.or_eq_true, Bool.and_eq_true] at hc
  rw [ifWreg_eq, Bool.or_assoc, Bool.or_assoc]
  rcases hc with ⟨_, ha⟩ | hd
  · rw [ha, Bool.true_or, Bool.and_true]
  · rw [hd, Bool.or_true, Bool.and_true]

/-! ## The phases -/

/-- The network on the instruction in `currInstr`. (The retained values are arbitrary;
    they do not matter for what is asked.) -/
def exec (s : Core) : Wires := wires default s.regs s.pc s.currInstr

/-- What the instruction in `currInstr` is waiting for. -/
inductive Awaiting (s : Core) : Prop
  | mem (h : asksMem s.currInstr = true) (mul : s.mul.Idle) (div : s.div.Idle)
  | mul (h : asksMul s.currInstr = true) (mul : Mul.Working s.exec.mulIn s.mul) (div : s.div.Idle)
  | div (h : asksDiv s.currInstr = true) (mul : s.mul.Idle) (div : Div.Working s.exec.divIn s.div)

structure Fetching (s : Core) : Prop where
  ireqValid : s.ireqValid = true
  currInstr : s.currInstr = 0#32 ∨ HalfDecoded s.currInstr
  mul : s.mul.Idle
  div : s.div.Idle

structure Executing (s : Core) : Prop where
  ireqValid : s.ireqValid = false
  keeps : keeps s.currInstr = true
  awaiting : Awaiting s

structure Dead (s : Core) : Prop where
  ireqValid : s.ireqValid = false
  currInstr : s.currInstr = 0#32
  mul : s.mul.done = false
  div : s.div.done = false

theorem fetching_init : Fetching init := ⟨rfl, .inl rfl, SerialReg.idle_init, SerialReg.idle_init⟩

theorem Fetching.asks (h : Fetching s) : asks s.currInstr = false := by
  rcases h.currInstr with h0 | hd
  · rw [h0, asks_zero]
  · exact (halfDecoded_iff.1 hd).2

theorem Executing.asks (h : Executing s) : RiscvCpu.asks s.currInstr = true := by
  cases h.awaiting with
  | mem h _ _ => simp [RiscvCpu.asks, h]
  | mul h _ _ => simp [RiscvCpu.asks, h]
  | div h _ _ => simp [RiscvCpu.asks, h]

theorem Executing.mem (h : Executing s) (hm : asksMem s.currInstr = true) :
    s.mul.Idle ∧ s.div.Idle := by
  cases h.awaiting with
  | mem _ hmul hdiv => exact ⟨hmul, hdiv⟩
  | mul hm' => exact absurd hm (ne_true_of_eq_false (asksMul_excl hm').1)
  | div hm' => exact absurd hm (ne_true_of_eq_false (asksDiv_excl hm').1)

theorem Executing.mul (h : Executing s) (hm : asksMul s.currInstr = true) :
    Mul.Working s.exec.mulIn s.mul ∧ s.div.Idle := by
  cases h.awaiting with
  | mem hm' => exact absurd hm (ne_true_of_eq_false (asksMem_excl hm').1)
  | mul _ hmul hdiv => exact ⟨hmul, hdiv⟩
  | div hm' => exact absurd hm (ne_true_of_eq_false (asksDiv_excl hm').2)

theorem Executing.div (h : Executing s) (hm : asksDiv s.currInstr = true) :
    s.mul.Idle ∧ Div.Working s.exec.divIn s.div := by
  cases h.awaiting with
  | mem hm' => exact absurd hm (ne_true_of_eq_false (asksMem_excl hm').2)
  | mul hm' => exact absurd hm (ne_true_of_eq_false (asksMul_excl hm').2)
  | div _ hmul hdiv => exact ⟨hmul, hdiv⟩

/-! ## One cycle -/

theorem dreq_exec (h : s.instr i = s.currInstr) : s.dreq i = s.exec.dreq := by
  rw [dreq, net, h]
  exact wires_dreq_congr ..

theorem mulIn_exec (h : s.instr i = s.currInstr) : s.mulIn i = s.exec.mulIn := by
  rw [mulIn, net, h]
  exact wires_mulIn_congr ..

theorem divIn_exec (h : s.instr i = s.currInstr) : s.divIn i = s.exec.divIn := by
  rw [divIn, net, h]
  exact wires_divIn_congr ..

theorem mul_next_exec (h : s.instr i = s.currInstr) :
    (s.next i false).mul = Mul.next s.exec.mulIn false s.mul := by
  rw [← mulIn_exec h]
  rfl

theorem div_next_exec (h : s.instr i = s.currInstr) :
    (s.next i false).div = Div.next s.exec.divIn false s.div := by
  rw [← divIn_exec h]
  rfl

theorem exec_mulValid (s : Core) : s.exec.mulIn.valid = asksMul s.currInstr := wires_mulValid ..

theorem exec_divValid (s : Core) : s.exec.divIn.valid = asksDiv s.currInstr := wires_divValid ..

/-- A multiplier that is not asked stays idle. -/
theorem mul_idle_next (h : s.mul.Idle) (hm : asksMul (s.instr i) = false) :
    (s.next i false).mul.Idle :=
  Mul.idle_next h (by rw [mulIn_valid, hm])

/-- A divider that is not asked stays idle. -/
theorem div_idle_next (h : s.div.Idle) (hm : asksDiv (s.instr i) = false) :
    (s.next i false).div.Idle :=
  Div.idle_next h (by rw [divIn_valid, hm])

/-- An answer of the memory is one to a load or store. -/
theorem asksMem_of_dataOk (hi : i ∈ machine.admits s) (hd : i.dresp.dataOk = true) :
    asksMem (s.instr i) = true := by
  rw [← dreq_valid]
  exact hi.2 hd

theorem not_dataOk_of_not_asksMem (hi : i ∈ machine.admits s) (h : asksMem (s.instr i) = false) :
    i.dresp.dataOk = false := by
  by_contra hd
  rw [asksMem_of_dataOk hi (eq_true_of_ne_false hd)] at h
  exact absurd h Bool.false_ne_true.symm

theorem not_iresp_of_not_ireq (hi : i ∈ machine.admits s) (h : s.ireqValid = false) :
    i.iresp.dataOk = false := by
  by_contra hd
  have hv := hi.1 (eq_true_of_ne_false hd)
  exact absurd hv (ne_true_of_eq_false h)

/-- A cycle without a commit. -/
theorem next_of_not_hold (hc : s.ifHoldPc i = false) :
    (s.next i false).pc = s.pc ∧
      (s.next i false).ireqValid = (!i.iresp.dataOk && s.ireqValid) ∧
      (s.next i false).currInstr = if keeps (s.instr i) then s.instr i else 0#32 := by
  have hc' := hc
  simp only [Core.ifHoldPc_eq, Bool.or_eq_false_iff] at hc
  obtain ⟨⟨⟨hf, hd⟩, hm⟩, hv⟩ := hc
  refine ⟨by simp [Core.next, hc'], ?_, ?_⟩
  · cases hi : i.iresp.dataOk <;> simp [Core.next, hc', hi]
  · have hinstr : (if i.iresp.dataOk then s.instr i else s.currInstr) = s.instr i := by
      cases hi : i.iresp.dataOk <;> simp [instr, hi]
    cases hk : keeps (s.instr i) <;>
      simp [Core.next, hd, mulDone, hm, divDone, hv, ifCurrIns_eq, hk, hinstr]

/-- A cycle with a commit. -/
theorem next_of_hold (hc : s.ifHoldPc i = true) :
    (s.next i false).pc = (s.net i).nextPc ∧ (s.next i false).ireqValid = true ∧
      ((s.next i false).currInstr = 0#32 ∨ HalfDecoded (s.next i false).currInstr) := by
  refine ⟨by simp [Core.next, hc], by simp [Core.next, hc], ?_⟩
  by_cases hd : i.dresp.dataOk || s.mulDone || s.divDone || !s.ifCurrIns i
  · exact .inl (by simp only [Core.next, Bool.false_eq_true, if_false, hd, if_true])
  · -- Nothing was awaited: the word is committed when it is fetched, and kept.
    simp only [Bool.or_eq_true, Bool.not_eq_true', not_or, Bool.not_eq_true,
      Bool.not_eq_false] at hd
    obtain ⟨⟨⟨hd, hm⟩, hv⟩, hk⟩ := hd
    have hm' : s.mul.done = false := hm
    have hv' : s.div.done = false := hv
    simp only [Core.ifHoldPc_eq, hd, hm', hv', Bool.or_false, Bool.and_eq_true,
      Bool.not_eq_true'] at hc
    refine .inr ?_
    have hcurr : (s.next i false).currInstr = s.instr i := by
      simp [Core.next, hd, hm, hv, hk, hc.1]
    rw [hcurr, halfDecoded_iff, ← ifCurrIns_eq]
    exact ⟨hk, hc.2⟩

/-- The word in `currInstr` is the one of the cycle before, or `0`. -/
theorem currInstr_next (s : Core) (i : In) :
    (s.next i false).currInstr = 0#32 ∨ (s.next i false).currInstr = s.instr i := by
  cases hc : s.ifHoldPc i with
  | false =>
    rw [(next_of_not_hold hc).2.2]
    split
    · exact .inr rfl
    · exact .inl rfl
  | true =>
    simp only [Core.next, Bool.false_eq_true, if_false]
    split
    · exact .inl rfl
    · split
      · exact .inr rfl
      · exact .inr (instr_of_not_dataOk (by simp_all)).symm

/-- While it fetches, the core waits for the response. -/
theorem Fetching.wait (h : Fetching s) (hi : i ∈ machine.admits s) (hf : i.iresp.dataOk = false) :
    s.ifHoldPc i = false ∧ Fetching (s.next i false) := by
  have hinstr : s.instr i = s.currInstr := instr_of_not_dataOk hf
  have ha : RiscvCpu.asks (s.instr i) = false := hinstr ▸ h.asks
  have ha' := ha
  simp only [RiscvCpu.asks, Bool.or_eq_false_iff] at ha'
  obtain ⟨⟨hm, hmul⟩, hdiv⟩ := ha'
  have hc : s.ifHoldPc i = false := by
    rw [ifHoldPc_eq, hf, not_dataOk_of_not_asksMem hi hm, h.mul.done, h.div.done]
    rfl
  obtain ⟨_, hv, hcurr⟩ := next_of_not_hold hc
  refine ⟨hc, ⟨?_, ?_, mul_idle_next h.mul hmul, div_idle_next h.div hdiv⟩⟩
  · rw [hv, hf, h.ireqValid]
    rfl
  · rw [hcurr, hinstr]
    split
    · exact h.currInstr
    · exact .inl rfl

/-- A cycle that commits what was just fetched. -/
theorem Fetching.commit (h : Fetching s) (hi : i ∈ machine.admits s) (hc : s.ifHoldPc i = true) :
    Fetching (s.next i false) := by
  obtain ⟨_, hv, hcurr⟩ := next_of_hold hc
  have hunits : asksMul (s.instr i) = false ∧ asksDiv (s.instr i) = false := by
    rw [ifHoldPc_eq, h.mul.done, h.div.done, Bool.or_false, Bool.or_false] at hc
    -- If the memory answers at once, the units are not asked; else nothing is.
    cases hd : i.dresp.dataOk with
    | true => exact asksMem_excl (asksMem_of_dataOk hi hd)
    | false =>
      simp only [hd, Bool.or_false, Bool.and_eq_true, Bool.not_eq_true', RiscvCpu.asks,
        Bool.or_eq_false_iff] at hc
      exact ⟨hc.2.1.2, hc.2.2⟩
  exact ⟨hv, hcurr, mul_idle_next h.mul hunits.1, div_idle_next h.div hunits.2⟩

/-- What is fetched without a commit asks for something. -/
theorem asks_of_not_hold (hf : i.iresp.dataOk = true) (hc : s.ifHoldPc i = false) :
    asks (s.instr i) = true := by
  rw [ifHoldPc_eq, hf, Bool.true_and, Bool.or_eq_false_iff, Bool.or_eq_false_iff,
    Bool.or_eq_false_iff, Bool.not_eq_false'] at hc
  exact hc.1.1.1

/-- What is waited for is not written back yet. -/
theorem not_wreg_of_asks (ha : asks (s.instr i) = true) (hc : s.ifHoldPc i = false) :
    s.ifWreg i = false := by
  simp only [ifHoldPc_eq, Bool.or_eq_false_iff] at hc
  rw [ifWreg_eq, ha, hc.1.1.2, hc.1.2, hc.2]
  exact Bool.and_false _

theorem regs_of_not_wreg (hw : s.ifWreg i = false) : (s.next i false).regs = s.regs := by
  simp [Core.next, hw]

/-- The instruction that waits is the one that is executed in the next cycle. -/
theorem exec_next (ha : asks (s.instr i) = true) (hk : keeps (s.instr i) = true)
    (hc : s.ifHoldPc i = false) :
    (s.next i false).exec = wires default s.regs s.pc (s.instr i) := by
  obtain ⟨hpc, _, hcurr⟩ := next_of_not_hold hc
  rw [exec, regs_of_not_wreg (not_wreg_of_asks ha hc), hpc, hcurr, if_pos hk]

/-- A cycle that fetches what is to wait. -/
theorem Fetching.start (h : Fetching s) (hf : i.iresp.dataOk = true) (hc : s.ifHoldPc i = false)
    (hk : RiscvCpu.keeps (s.instr i) = true) : Executing (s.next i false) := by
  have ha := asks_of_not_hold hf hc
  obtain ⟨_, hv, hcurr⟩ := next_of_not_hold hc
  rw [if_pos hk] at hcurr
  refine ⟨by rw [hv, hf]; rfl, by rw [hcurr, hk], ?_⟩
  have hmulIn : s.mulIn i = (s.next i false).exec.mulIn := by
    rw [exec_next ha hk hc]
    exact wires_mulIn_congr ..
  have hdivIn : s.divIn i = (s.next i false).exec.divIn := by
    rw [exec_next ha hk hc]
    exact wires_divIn_congr ..
  rcases asks_cases ha with hm | hm | hm
  · obtain ⟨hmul, hdiv⟩ := asksMem_excl hm
    exact .mem (hcurr ▸ hm) (mul_idle_next h.mul hmul) (div_idle_next h.div hdiv)
  · refine .mul (hcurr ▸ hm) ?_ (div_idle_next h.div (asksMul_excl hm).2)
    rw [← hmulIn]
    exact Mul.working_of_idle h.mul (by rw [mulIn_valid, hm])
  · refine .div (hcurr ▸ hm) (mul_idle_next h.mul (asksDiv_excl hm).2) ?_
    rw [← hdivIn]
    exact Div.working_of_idle h.div (by rw [divIn_valid, hm])

/-- A cycle that fetches a silent word: the divider is started, but the word is lost. -/
theorem Fetching.die (h : Fetching s) (hf : i.iresp.dataOk = true) (hc : s.ifHoldPc i = false)
    (hk : RiscvCpu.keeps (s.instr i) = false) : Dead (s.next i false) := by
  have ha := asks_of_not_hold hf hc
  obtain ⟨_, hv, hcurr⟩ := next_of_not_hold hc
  rw [hk, if_neg Bool.false_ne_true] at hcurr
  have hmul : asksMul (s.instr i) = false := by
    by_contra hm
    rw [keeps_of_asksMul (eq_true_of_ne_false hm)] at hk
    exact absurd hk Bool.false_ne_true.symm
  refine ⟨by rw [hv, hf]; rfl, hcurr, (mul_idle_next h.mul hmul).done, ?_⟩
  have hdiv : (s.divIn i).valid = true := by
    rw [divIn_valid]
    rcases asks_cases ha with hm | hm | hm
    · rw [keeps_of_asksMem hm] at hk
      exact absurd hk Bool.false_ne_true.symm
    · exact absurd hm (ne_true_of_eq_false hmul)
    · exact hm
  -- The divider has only started to count.
  obtain ⟨_, _, hcount, _⟩ := h.div.next_of_valid (0#64 ++ Div.num1 (s.divIn i))
    (Div.shift (Div.num2 (s.divIn i)))
  have hnext : (s.next i false).div = (s.div).next (0#64 ++ Div.num1 (s.divIn i))
      (Div.shift (Div.num2 (s.divIn i))) false (s.divIn i).valid := rfl
  rw [hnext, hdiv]
  exact hcount.done

theorem Executing.instr_eq (h : Executing s) (hi : i ∈ machine.admits s) :
    i.iresp.dataOk = false ∧ s.instr i = s.currInstr := by
  have hf := not_iresp_of_not_ireq hi h.ireqValid
  exact ⟨hf, instr_of_not_dataOk hf⟩

/-- While it executes, the core waits for the memory, or counts. -/
theorem Executing.wait (h : Executing s) (hi : i ∈ machine.admits s) (hc : s.ifHoldPc i = false) :
    Executing (s.next i false) ∧ (s.next i false).currInstr = s.currInstr ∧
      (s.next i false).regs = s.regs ∧
      (asksMul s.currInstr = true → (s.next i false).mul.remaining < s.mul.remaining) ∧
      (asksDiv s.currInstr = true → (s.next i false).div.remaining < s.div.remaining) := by
  obtain ⟨hf, hinstr⟩ := h.instr_eq hi
  have ha : RiscvCpu.asks (s.instr i) = true := hinstr ▸ h.asks
  have hk : RiscvCpu.keeps (s.instr i) = true := hinstr ▸ h.keeps
  obtain ⟨_, hv, hcurr⟩ := next_of_not_hold hc
  rw [if_pos hk, hinstr] at hcurr
  have hregs := regs_of_not_wreg (not_wreg_of_asks ha hc)
  have hexec : (s.next i false).exec = s.exec := by rw [exec_next ha hk hc, hinstr, exec]
  have hdone := hc
  simp only [ifHoldPc_eq, Bool.or_eq_false_iff] at hdone
  suffices hs : Awaiting (s.next i false) ∧
      (asksMul s.currInstr = true → (s.next i false).mul.remaining < s.mul.remaining) ∧
      (asksDiv s.currInstr = true → (s.next i false).div.remaining < s.div.remaining) from
    ⟨⟨by rw [hv, h.ireqValid, Bool.and_false], by rw [hcurr, h.keeps], hs.1⟩, hcurr, hregs, hs.2⟩
  -- The unit that is asked counts on, and the others stay idle.
  cases h.awaiting with
  | mem hm hmul hdiv =>
    obtain ⟨hmf, hdf⟩ := asksMem_excl hm
    refine ⟨.mem (hcurr ▸ hm) (mul_idle_next hmul (hinstr ▸ hmf))
      (div_idle_next hdiv (hinstr ▸ hdf)), fun h => ?_, fun h => ?_⟩
    · exact absurd h (ne_true_of_eq_false hmf)
    · exact absurd h (ne_true_of_eq_false hdf)
  | mul hm hmul hdiv =>
    have hdf := (asksMul_excl hm).2
    obtain ⟨hw, hr⟩ := hmul.next (by rw [exec_mulValid, hm]) hdone.1.2
    rw [← mul_next_exec hinstr] at hw hr
    refine ⟨.mul (hcurr ▸ hm) (hexec ▸ hw) (div_idle_next hdiv (hinstr ▸ hdf)), fun _ => hr,
      fun h => ?_⟩
    exact absurd h (ne_true_of_eq_false hdf)
  | div hm hmul hdiv =>
    have hmf := (asksDiv_excl hm).2
    obtain ⟨hw, hr⟩ := hdiv.next (by rw [exec_divValid, hm]) hdone.2
    rw [← div_next_exec hinstr] at hw hr
    refine ⟨.div (hcurr ▸ hm) (mul_idle_next hmul (hinstr ▸ hmf)) (hexec ▸ hw), fun h => ?_,
      fun _ => hr⟩
    exact absurd h (ne_true_of_eq_false hmf)

/-- The cycle that ends the wait commits the instruction. -/
theorem Executing.commit (h : Executing s) (hi : i ∈ machine.admits s) (hc : s.ifHoldPc i = true) :
    Fetching (s.next i false) := by
  obtain ⟨hf, hinstr⟩ := h.instr_eq hi
  obtain ⟨_, hv, hcurr⟩ := next_of_hold hc
  rw [ifHoldPc_eq, hf, Bool.false_and, Bool.false_or, Bool.or_eq_true, Bool.or_eq_true] at hc
  suffices hs : (s.next i false).mul.Idle ∧ (s.next i false).div.Idle from ⟨hv, hcurr, hs.1, hs.2⟩
  -- What was awaited has come: the unit that was asked is done, if it was one.
  cases h.awaiting with
  | mem hm hmul hdiv =>
    obtain ⟨hmf, hdf⟩ := asksMem_excl hm
    exact ⟨mul_idle_next hmul (hinstr ▸ hmf), div_idle_next hdiv (hinstr ▸ hdf)⟩
  | mul hm hmul hdiv =>
    obtain ⟨hmem, hdf⟩ := asksMul_excl hm
    rw [not_dataOk_of_not_asksMem hi (hinstr ▸ hmem), hdiv.done] at hc
    rw [mul_next_exec hinstr]
    exact ⟨hmul.idle (by simpa using hc), div_idle_next hdiv (hinstr ▸ hdf)⟩
  | div hm hmul hdiv =>
    obtain ⟨hmem, hmf⟩ := asksDiv_excl hm
    rw [not_dataOk_of_not_asksMem hi (hinstr ▸ hmem), hmul.done] at hc
    rw [div_next_exec hinstr]
    exact ⟨mul_idle_next hmul (hinstr ▸ hmf), hdiv.idle (by simpa using hc)⟩

/-- The core fetches on, or executes what it has fetched, unless that is a silent word. -/
theorem Fetching.next (h : Fetching s) (hi : i ∈ machine.admits s) :
    Fetching (s.next i false) ∨ Executing (s.next i false) ∨
      (i.iresp.dataOk = true ∧ Silent i.iresp.data ∧ Dead (s.next i false)) := by
  cases hc : s.ifHoldPc i with
  | true => exact .inl (h.commit hi hc)
  | false =>
    cases hf : i.iresp.dataOk with
    | false => exact .inl (h.wait hi hf).2
    | true =>
      cases hk : RiscvCpu.keeps (s.instr i) with
      | true => exact .inr (.inl (h.start hf hc hk))
      | false =>
        have hs : Silent (s.instr i) := silent_iff.2 ⟨hk, asks_of_not_hold hf hc⟩
        exact .inr (.inr ⟨rfl, instr_of_dataOk hf ▸ hs, h.die hf hc hk⟩)

theorem Executing.next (h : Executing s) (hi : i ∈ machine.admits s) :
    Fetching (s.next i false) ∨ Executing (s.next i false) := by
  cases hc : s.ifHoldPc i with
  | true => exact .inl (h.commit hi hc)
  | false => exact .inr (h.wait hi hc).1

/-- The core stays dead. -/
theorem Dead.next (h : Dead s) (hi : i ∈ machine.admits s) :
    s.ifHoldPc i = false ∧ Dead (s.next i false) := by
  have hf := not_iresp_of_not_ireq hi h.ireqValid
  have hinstr : s.instr i = 0#32 := (instr_of_not_dataOk hf).trans h.currInstr
  have hmem : asksMem (s.instr i) = false := by rw [hinstr]; decide
  -- The word `0` asks for nothing, and nothing else can lead to a commit.
  have hc : s.ifHoldPc i = false := by
    rw [ifHoldPc_eq, hf, not_dataOk_of_not_asksMem hi hmem, h.mul, h.div]
    rfl
  obtain ⟨_, hv, hcurr⟩ := next_of_not_hold hc
  refine ⟨hc, ⟨by rw [hv, h.ireqValid, Bool.and_false], ?_, ?_, ?_⟩⟩
  · rw [hcurr, hinstr]
    decide
  · have hmul : (s.mulIn i).valid = false := by rw [mulIn_valid, hinstr]; decide
    have hnext : (s.next i false).mul = (s.mul).next (0#65 ++ Mul.num1 (s.mulIn i))
        (Mul.shift (Mul.num2 (s.mulIn i))) false (s.mulIn i).valid := rfl
    rw [hnext, hmul, SerialReg.next_of_not_valid]
    simp [h.mul]
  · have hdiv : (s.divIn i).valid = false := by rw [divIn_valid, hinstr]; decide
    have hnext : (s.next i false).div = (s.div).next (0#64 ++ Div.num1 (s.divIn i))
        (Div.shift (Div.num2 (s.divIn i))) false (s.divIn i).valid := rfl
    rw [hnext, hdiv, SerialReg.next_of_not_valid]
    simp [h.div]

/-! ## Runs -/

/-- One of the three phases. -/
inductive Phase (s : Core) : Prop
  | fetching (h : Fetching s)
  | executing (h : Executing s)
  | dead (h : Dead s)

/-- Whatever words it fetches, the core is in one of the three phases. -/
theorem phase : machine.Inductive Phase where
  init s hs := by
    rw [Set.mem_singleton_iff.1 hs]
    exact .fetching fetching_init
  step s hs i hi := by
    cases hs with
    | fetching h =>
      rcases h.next hi with h | h | ⟨_, _, h⟩
      · exact .fetching h
      · exact .executing h
      · exact .dead h
    | executing h =>
      rcases h.next hi with h | h
      · exact .fetching h
      · exact .executing h
    | dead h => exact .dead (h.next hi).2

section Run

variable {s : ℕ → Core} {i : ℕ → In}

theorem run_succ (hr : machine.IsRun s i) (n : ℕ) : s (n + 1) = (s n).next (i n) false := hr.next n

theorem fetching_of_dataOk (hr : machine.IsRun s i) {n : ℕ} (hf : (i n).iresp.dataOk = true) :
    Fetching (s n) := by
  have hv := (hr.admits n).1 hf
  cases phase.of_isRun hr n with
  | fetching h => exact h
  | executing h => exact absurd hv (ne_true_of_eq_false h.ireqValid)
  | dead h => exact absurd hv (ne_true_of_eq_false h.ireqValid)

end Run

end Core

end RiscvCpu
