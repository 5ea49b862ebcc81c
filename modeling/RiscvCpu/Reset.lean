import RiscvCpu.SimTop

/-!
# The reset

A reset of the whole computer, from any values of its registers. The program counter,
`currInstr` and the register file take their reset values at once, when `reset` rises; the
other registers do at the clock edges. The serial units take two of them. At the first
edge, an operation may still start, on a word that the bus delivers in this very cycle, and
`done` may still go up. At the second edge, the arbiter is free, hence there is no such
word, and no operation (`Settling.next`).

From then on, the registers are those of the initial state, up to the values that are only
reported (`cleared`). The first cycle does nothing but ask for the word at `PCINIT`.
-/

namespace RiscvCpu

open Sync

/-! ## Wires -/

namespace Core

/-- The registers when `reset` rises, before any clock edge. -/
def rise (s : Core) : Core := { s with pc := PCINIT, currInstr := 0#32, regs := fun _ => 0#64 }

variable {s : Core} {i : In}

/-- The word `0` asks for nothing. -/
theorem not_valid_of_zero (h : s.instr i = 0#32) :
    (s.dreq i).valid = false ∧ (s.mulIn i).valid = false ∧ (s.divIn i).valid = false := by
  rw [dreq_valid, mulIn_valid, divIn_valid, h]
  decide

end Core

namespace SimTop

/-! ## The reset state -/

/-- The registers when `reset` rises, before any clock edge. -/
def rise (s : SimTop) : SimTop := { s with core := s.core.rise }

/-- The computer while `reset` is up, with any registers before it. -/
def resetting : Machine SimTop In where
  init := Set.range rise
  admits _ := Set.univ
  next s i := s.next i true

/-- The registers after the first edge. -/
structure Settling (s : SimTop) : Prop where
  currInstr : s.core.currInstr = 0#32
  busy : s.stack.arbiter.busy = false
  mul : s.core.mul.state = true → s.core.mul.done = false
  div : s.core.div.state = true → s.core.div.done = false

/-- The registers after the second edge. -/
def cleared (regNext : BitVec 5 → BitVec 64) (ram : Ram) : SimTop :=
  { init ram with core := { Core.init with regNext := regNext } }

variable {s : SimTop} {i : In}

/-- A free arbiter passes no response on. -/
theorem not_dataOk_of_free (hb : s.stack.arbiter.busy = false) :
    (s.iresp i).dataOk = false ∧ (s.dresp i).dataOk = false :=
  ⟨Stack.not_answers_of_free (i := s.stackIn i) hb 1,
    Stack.not_answers_of_free (i := s.stackIn i) hb 0⟩

theorem oreq_of_free (hb : s.stack.arbiter.busy = false) : s.oreq i = .zero :=
  Arbiter.oreq_of_free hb

theorem settling_next (s : SimTop) (i : In) : Settling (s.next i true) where
  currInstr := rfl
  busy := rfl
  mul := SerialReg.not_done_of_reset
  div := SerialReg.not_done_of_reset

theorem Settling.instr_eq (h : Settling s) (i : In) : s.core.instr (s.coreIn i) = 0#32 := by
  rw [Core.instr_of_not_dataOk (not_dataOk_of_free h.busy).1, h.currInstr]

/-- The second edge clears the serial units, too, as no operation is under way. -/
theorem Settling.next (h : Settling s) (i : In) :
    s.next i true = cleared (s.next i true).core.regNext s.stack.ram := by
  obtain ⟨_, hm, hd⟩ := Core.not_valid_of_zero (h.instr_eq i)
  have hmul : Mul.next (s.core.mulIn (s.coreIn i)) true s.core.mul = .init := by
    rw [Mul.next, hm, SerialReg.next_reset h.mul]
  have hdiv : Div.next (s.core.divIn (s.coreIn i)) true s.core.div = .init := by
    rw [Div.next, hd, SerialReg.next_reset h.div]
  rw [SimTop.next, Core.next, hmul, hdiv]
  rfl

section Cleared

variable (regNext : BitVec 5 → BitVec 64) (ram : Ram)

theorem settling_cleared : Settling (cleared regNext ram) := ⟨rfl, rfl, fun _ => rfl, fun _ => rfl⟩

/-- After a reset, the computer is in its invariant, as it is initially. -/
theorem inv_cleared : Inv (cleared regNext ram) :=
  ⟨.fetching ⟨rfl, .inl rfl, SerialReg.idle_init, SerialReg.idle_init⟩,
    fun _ => Stack.inv_init ram _⟩

/-- The first cycle after a reset commits nothing, and writes no register. -/
theorem not_ifHoldPc_cleared (i : In) :
    (cleared regNext ram).core.ifHoldPc ((cleared regNext ram).coreIn i) = false ∧
      (cleared regNext ram).core.ifWreg ((cleared regNext ram).coreIn i) = false := by
  have hf : ((cleared regNext ram).coreIn i).iresp.dataOk = false := (not_dataOk_of_free rfl).1
  have hd : ((cleared regNext ram).coreIn i).dresp.dataOk = false := (not_dataOk_of_free rfl).2
  constructor
  · rw [Core.ifHoldPc_eq, hf, hd]
    rfl
  · rw [Core.ifWreg, Core.not_wreg_zero ((settling_cleared regNext ram).instr_eq i), Bool.false_and]

/-- It makes no request to the memory, which keeps its contents. -/
theorem oreq_cleared (i : In) : (cleared regNext ram).oreq i = .zero ∧
    ((cleared regNext ram).next i false).stack.ram.mem = (cleared regNext ram).stack.ram.mem :=
  ⟨oreq_of_free (settling_cleared regNext ram).busy,
    (Stack.Inv.grant (settling_cleared regNext ram).busy rfl).2.1⟩

end Cleared

/-! ## Runs -/

section Run

variable {s : ℕ → SimTop} {i : ℕ → In}

/-- After two or more edges, the state is clear, whatever it was. -/
theorem eq_cleared (hr : resetting.IsRun s i) {n : ℕ} (hn : 2 ≤ n) :
    ∃ regNext ram, s n = cleared regNext ram := by
  obtain ⟨m, rfl⟩ := Nat.exists_eq_add_of_le' hn
  have h := (settling_next (s m) (i m)).next (i (m + 1))
  have h1 : s (m + 1) = (s m).next (i m) true := hr.next m
  have h2 : s (m + 2) = (s (m + 1)).next (i (m + 1)) true := hr.next (m + 1)
  rw [← h1, ← h2] at h
  exact ⟨_, _, h⟩

/-- The memory keeps its contents. -/
theorem mem_of_resetting (hr : resetting.IsRun s i) (n : ℕ) :
    (s n).stack.ram.mem = (s 0).stack.ram.mem := by
  induction n with
  | zero => rfl
  | succ n ih =>
    rw [hr.next]
    exact ih

/-- After two or more clock edges, the registers are reset, whatever they were, and the
    next cycle neither commits, nor writes a register, nor makes a request to the memory. -/
theorem reset_converges (hr : resetting.IsRun s i) {n : ℕ} (hn : 2 ≤ n) :
    (s n).core.pc = PCINIT ∧ (s n).core.currInstr = 0#32 ∧ (∀ r, (s n).core.regs r = 0#64) ∧
    (s n).core.ireqValid = true ∧
    (s n).core.mul = { state := false, count := 0#7, p := 0#129, done := false } ∧
    (s n).core.div = { state := false, count := 0#7, p := 0#128, done := false } ∧
    (s n).stack.arbiter.busy = false ∧ (s n).stack.arbiter.index = 0 ∧
    ∀ j : In,
      (s n).core.ifHoldPc ((s n).coreIn j) = false ∧ (s n).core.ifWreg ((s n).coreIn j) = false ∧
      ((s n).dreq j).valid = false ∧ (s n).oreq j = .zero ∧
      ((s n).next j false).stack.ram.mem = (s n).stack.ram.mem := by
  obtain ⟨regNext, ram, hs⟩ := eq_cleared hr hn
  rw [hs]
  refine ⟨rfl, rfl, fun _ => rfl, rfl, rfl, rfl, rfl, rfl, fun j => ?_⟩
  obtain ⟨hhold, hwreg⟩ := not_ifHoldPc_cleared regNext ram j
  have hd := (Core.not_valid_of_zero ((settling_cleared regNext ram).instr_eq j)).1
  exact ⟨hhold, hwreg, hd, oreq_cleared regNext ram j⟩

/-- Registers in the middle of everything: the bus delivers a multiplication, with the
    multiplier at the last count, and the divider is done. -/
def powerOn : SimTop where
  core := { Core.init with
    ireqValid := false, pc := 0x123#64, regs := fun _ => 7#64
    mul := { state := true, count := 0x41#7, p := 5#129, done := false }
    div := { state := false, count := 0x42#7, p := 9#128, done := true } }
  stack :=
    { arbiter := { busy := true, index := 1, savedReq := .zero }
      ram := { Ram.ofMem fun _ => 0x020000b3020000b3#64 with state := .READ } }

/-- The multiplier raises `done` at the first edge, and is cleared at the second. -/
theorem reset_converges_powerOn :
    (resetting.run powerOn.rise (fun _ => ⟨0#32, 0#32, default⟩) 1).core.mul.done = true ∧
    (resetting.run powerOn.rise (fun _ => ⟨0#32, 0#32, default⟩) 2).core.mul.done = false := by
  have hr : resetting.IsRun (resetting.run powerOn.rise fun _ => ⟨0#32, 0#32, default⟩)
      fun _ => ⟨0#32, 0#32, default⟩ := resetting.isRun_run ⟨_, rfl⟩ fun _ => trivial
  obtain ⟨_, _, _, _, hmul, _⟩ := reset_converges hr le_rfl
  exact ⟨by decide, by rw [hmul]⟩

end Run

end SimTop

end RiscvCpu
