import RiscvCpu.Bus.Stack
import RiscvCpu.Core.Phases

/-!
# The simulated computer

The core, with the bus stack behind its two buses. Each keeps the promise that the other
relies on. The core keeps its requests until they are answered (`Core.ireq_next`,
`Core.dreq_next`), if it is answered only when it asks; and the stack answers only what
is asked (`Stack.Inv`), if the requests are kept. Hence, whatever is in memory, no
request is modified while it is in flight (`requests_stay`).
-/

namespace RiscvCpu

open Sync

/-! ## The requests of the core -/

namespace Core

variable {s : Core} {i : In}

/-- Of the phases with a request on the instruction bus, there is only one. -/
theorem Phase.fetching_of_ireq (hp : Phase s) (hv : s.ireq.valid = true) : Fetching s := by
  cases hp with
  | fetching h => exact h
  | executing h => exact absurd hv (ne_true_of_eq_false h.ireqValid)
  | dead h => exact absurd hv (ne_true_of_eq_false h.ireqValid)

/-- While it fetches, the core asks for data only when the word arrives. -/
theorem Fetching.dataOk_of_dreq (h : Fetching s) (hv : (s.dreq i).valid = true) :
    i.iresp.dataOk = true := by
  by_contra hf
  rw [dreq_valid, instr_of_not_dataOk (eq_false_of_ne_true hf)] at hv
  have ha := h.asks
  rw [RiscvCpu.asks, hv, Bool.true_or, Bool.true_or] at ha
  exact absurd ha Bool.false_ne_true.symm

/-- A request on the instruction bus is kept until it is answered. -/
theorem ireq_next (hp : Phase s) (hi : i ∈ machine.admits s) (hv : s.ireq.valid = true)
    (hf : i.iresp.dataOk = false) : (s.next i false).ireq = s.ireq := by
  have h := hp.fetching_of_ireq hv
  obtain ⟨hc, h'⟩ := h.wait hi hf
  rw [ireq, ireq, h'.ireqValid, h.ireqValid, (next_of_not_hold hc).1]

/-- A load or store that is not answered is executed, unchanged, in the next cycle. -/
theorem executing_of_dreq (hp : Phase s) (hi : i ∈ machine.admits s)
    (hv : (s.dreq i).valid = true) (hd : i.dresp.dataOk = false) :
    Executing (s.next i false) ∧ (s.next i false).exec.dreq = s.dreq i := by
  have hm := hv
  rw [dreq_valid] at hm
  have ha : asks (s.instr i) = true := by rw [asks, hm, Bool.true_or, Bool.true_or]
  -- No commit without the answer: the units have nothing to be done.
  have hold : s.mul.Idle → s.div.Idle → s.ifHoldPc i = false := fun hmul hdiv => by
    rw [ifHoldPc_eq, ha, hd, hmul.done, hdiv.done, Bool.not_true, Bool.and_false]
    rfl
  suffices hs : s.ifHoldPc i = false ∧ Executing (s.next i false) by
    refine ⟨hs.2, ?_⟩
    rw [exec_next ha (keeps_of_asksMem hm) hs.1]
    exact wires_dreq_congr ..
  cases hp with
  | fetching h =>
    have hc := hold h.mul h.div
    exact ⟨hc, h.start (h.dataOk_of_dreq hv) hc (keeps_of_asksMem hm)⟩
  | executing h =>
    rw [(h.instr_eq hi).2] at hm
    obtain ⟨hmul, hdiv⟩ := h.mem hm
    have hc := hold hmul hdiv
    exact ⟨hc, (h.wait hi hc).1⟩
  | dead h =>
    have hf := not_iresp_of_not_ireq hi h.ireqValid
    rw [instr_of_not_dataOk hf, h.currInstr] at hm
    exact absurd hm (by decide)

/-- A request on the data bus is kept until it is answered. -/
theorem dreq_next (hp : Phase s) (hi : i ∈ machine.admits s) (hv : (s.dreq i).valid = true)
    (hd : i.dresp.dataOk = false) {i' : In}
    (hi' : i'.iresp.dataOk = true → (s.next i false).ireq.valid = true) :
    (s.next i false).dreq i' = s.dreq i := by
  -- While it executes, the core fetches nothing, so that the word under evaluation is kept.
  obtain ⟨h, hdreq⟩ := executing_of_dreq hp hi hv hd
  have hf : i'.iresp.dataOk = false := by
    by_contra hf
    have hv' := hi' (eq_true_of_ne_false hf)
    exact absurd hv' (ne_true_of_eq_false h.ireqValid)
  rw [dreq_exec (instr_of_not_dataOk hf), hdreq]

end Core

/-! ## The computer -/

structure SimTop where
  core : Core
  stack : Stack

namespace SimTop

/-- The inputs of the computer in a cycle. -/
structure In where
  random : BitVec 32
  switch : BitVec 32
  /-- The last values of the outputs of the control unit, for those that are retained. -/
  held : Control

variable (s : SimTop) (i : In)

def ireq : IbusReq := s.core.ireq

def iresp : IbusResp := s.stack.irespTo i.switch s.ireq

def dresp : DbusResp := s.stack.drespTo i.switch

def coreIn : Core.In := { iresp := s.iresp i, dresp := s.dresp i, held := i.held }

def dreq : DbusReq := s.core.dreq (s.coreIn i)

def stackIn : Stack.In :=
  { ireq := s.ireq, dreq := s.dreq i, random := i.random, switch := i.switch }

def oreq : CbusReq := s.stack.oreq (s.stackIn i)

/-- The registers after the clock edge. -/
def next (reset : Bool) : SimTop where
  core := s.core.next (s.coreIn i) reset
  stack := s.stack.next (s.stackIn i) reset

/-- The registers after the initial reset. -/
def init (ram : Ram) : SimTop := { core := .init, stack := .init ram }

/-- The computer, with any contents of the memory, and any delays. -/
def machine : Machine SimTop In where
  init := Set.range init
  admits _ := Set.univ
  next s i := s.next i false

/-! ## One cycle -/

/-- The core is in one of its phases, and the stack at one of its requests. -/
structure Inv (s : SimTop) : Prop where
  core : Core.Phase s.core
  stack : ∀ i, s.stack.Inv (s.stackIn i)

variable {s i}

/-- The stack answers only what is asked. -/
theorem Inv.admits (h : Inv s) : s.coreIn i ∈ Core.machine.admits s.core :=
  ⟨fun hf => ((h.stack i).of_answers (k := 1) hf).2.2.1,
    fun hd => ((h.stack i).of_answers (k := 0) hd).2.2.1⟩

theorem Inv.ireq_next (h : Inv s) (hv : s.ireq.valid = true) (hf : (s.iresp i).dataOk = false) :
    (s.next i false).ireq = s.ireq := Core.ireq_next h.core h.admits hv hf

/-- The next cycle, too, answers a fetch only if there is one. (For the stack, the request
    on the data bus might as well be kept.) -/
theorem Inv.ireq_of_dataOk (h : Inv s) {i' : In} (hf : ((s.next i false).iresp i').dataOk = true) :
    (s.next i false).ireq.valid = true := by
  have hkeeps : s.stack.Keeps (s.stackIn i)
      { (s.next i false).stackIn i' with dreq := s.dreq i } := ⟨h.ireq_next, fun _ _ => rfl⟩
  exact (((h.stack i).next hkeeps).of_answers (k := 1) hf).2.2.1

theorem Inv.dreq_next (h : Inv s) (hv : (s.dreq i).valid = true)
    (hd : (s.dresp i).dataOk = false) (i' : In) : (s.next i false).dreq i' = s.dreq i :=
  Core.dreq_next h.core h.admits hv hd h.ireq_of_dataOk

/-- The core and the stack keep each other's promises. -/
theorem inductive_inv : machine.Inductive Inv where
  init s hs := by
    obtain ⟨ram, rfl⟩ := hs
    exact ⟨.fetching Core.fetching_init, fun _ => Stack.inv_init ram _⟩
  step s h i _ := by
    refine ⟨Core.phase.step _ h.core _ h.admits, fun i' => ?_⟩
    exact (h.stack i).next ⟨h.ireq_next, fun hv hd => h.dreq_next hv hd i'⟩

/-! ## Runs -/

section Run

variable {s : ℕ → SimTop} {i : ℕ → In}

/-- No request is modified while it is in flight. -/
theorem requests_stay (hr : machine.IsRun s i) (t : ℕ) :
    ((s t).ireq.valid = true → ((s t).iresp (i t)).dataOk = false →
      (s (t + 1)).ireq = (s t).ireq) ∧
    (((s t).dreq (i t)).valid = true → ((s t).dresp (i t)).dataOk = false →
      (s (t + 1)).dreq (i (t + 1)) = (s t).dreq (i t)) ∧
    ((s t).ireq.valid = true → ((s t).dreq (i t)).valid = true →
      ((s t).iresp (i t)).dataOk = true) ∧
    ((s t).stack.ram.state ≠ .NONE →
      ((s t).oreq (i t)).valid = (s t).stack.ram.savedOreq.valid ∧
      ((s t).oreq (i t)).isWrite = (s t).stack.ram.savedOreq.isWrite ∧
      ((s t).oreq (i t)).size = (s t).stack.ram.savedOreq.size ∧
      ((s t).oreq (i t)).addr = (s t).stack.ram.savedOreq.addr ∧
      ((s t).oreq (i t)).len = (s t).stack.ram.savedOreq.len ∧
      ((s t).oreq (i t)).burst = (s t).stack.ram.savedOreq.burst) ∧
    (s t).stack.ram.modificationError ((s t).oreq (i t)) = false := by
  have h := inductive_inv.of_isRun hr t
  have hn : s (t + 1) = (s t).next (i t) false := hr.next t
  rw [hn]
  refine ⟨h.ireq_next, fun hv hd => h.dreq_next hv hd _, fun hf hv => ?_, fun hne => ?_,
    (h.stack (i t)).not_modified⟩
  · exact (h.core.fetching_of_ireq hf).dataOk_of_dreq hv
  · have hm := (h.stack (i t)).not_modified
    rw [Ram.modificationError_of_ne hne] at hm
    exact Ram.eq_of_not_modified hm

/-- A memory full of `ld x1, 0(x0)`, and the shortest positive delays. -/
def loads : ℕ → SimTop :=
  machine.run (init (.ofMem fun _ => 0x0000308300003083#64)) fun _ => ⟨0#32, 0#32, default⟩

/-- The first load is fetched in the cycle 5, and is still there in the next one. -/
theorem requests_stay_loads : ((loads 5).dreq ⟨0#32, 0#32, default⟩).valid = true ∧
    (loads 6).dreq ⟨0#32, 0#32, default⟩ = (loads 5).dreq ⟨0#32, 0#32, default⟩ := by
  have hv : ((loads 5).dreq ⟨0#32, 0#32, default⟩).valid = true := by decide
  have hr : machine.IsRun loads fun _ => ⟨0#32, 0#32, default⟩ :=
    machine.isRun_run ⟨_, rfl⟩ fun _ => trivial
  exact ⟨hv, (requests_stay hr 5).2.1 hv (by decide)⟩

end Run

end SimTop

end RiscvCpu
