import Mathlib.Data.Fin.VecNotation
import RiscvCpu.Bus.Arbiter
import RiscvCpu.Bus.Converters
import RiscvCpu.Bus.Ram
import RiscvCpu.Sync.Request

/-!
# The bus stack

Behind the instruction bus and the data bus, there are their converters, the arbiter, and
the memory. In a cycle, the responses depend on the registers only; the requests may
depend on the responses.

If the requesters keep their requests until they are answered, then whenever the arbiter
is busy with a request, the memory serves it, and it is idle otherwise (`Inv`). The
consequences for whole runs are in `Bus.Sequential`.
-/

namespace RiscvCpu

open Sync

structure Stack where
  arbiter : Arbiter
  ram : Ram

namespace Stack

/-- The inputs of the stack in a cycle: the requests, a random number for the delay, and
    the switches. -/
structure In where
  ireq : IbusReq
  dreq : DbusReq
  random : BitVec 32
  switch : BitVec 32

/-! ## Wires -/

/-- The requesters, the data bus first. -/
def In.ireqs (i : In) : Fin 2 → CbusReq := ![DBusToCBus.dcreq i.dreq, IBusToCBus.icreq i.ireq]

section Resp

variable (s : Stack) (switch : BitVec 32)

def oresp : CbusResp := s.ram.oresp switch

def icresp : CbusResp := s.arbiter.iresps (n := 2) (s.oresp switch) 1

def dcresp : CbusResp := s.arbiter.iresps (n := 2) (s.oresp switch) 0

/-- The response on the instruction bus, to the request that is presented. -/
def irespTo (ireq : IbusReq) : IbusResp := IBusToCBus.iresp ireq (s.icresp switch)

/-- The response on the data bus. -/
def drespTo : DbusResp := DBusToCBus.dresp (s.dcresp switch)

end Resp

variable (s : Stack) (i : In)

def oreq : CbusReq := s.arbiter.oreq i.ireqs

def iresp : IbusResp := s.irespTo i.switch i.ireq

def dresp : DbusResp := s.drespTo i.switch

/-! ## The clock edge -/

/-- The registers after the clock edge. -/
def next (reset : Bool) : Stack where
  arbiter := s.arbiter.next i.ireqs (s.oresp i.switch) reset
  ram := s.ram.next (s.oreq i) i.random reset

/-- The registers after a reset. -/
def init (ram : Ram) : Stack := { arbiter := .init, ram := ram.init }

/-! ## Answers -/

/-- The request `k` is answered in this cycle. -/
def answers (k : Fin 2) : Bool := DBusToCBus.okay (s.arbiter.iresps (s.oresp i.switch) k)

theorem dresp_dataOk : (s.dresp i).dataOk = s.answers i 0 := rfl

theorem iresp_dataOk : (s.iresp i).dataOk = s.answers i 1 := rfl

/-- The requests are kept in the next cycle, unless they are answered. -/
structure Keeps (i' : In) : Prop where
  ireq : i.ireq.valid = true → (s.iresp i).dataOk = false → i'.ireq = i.ireq
  dreq : i.dreq.valid = true → (s.dresp i).dataOk = false → i'.dreq = i.dreq

/-- The requests of the two buses have a single beat. -/
theorem In.len_ireqs : ∀ k, (i.ireqs k).len = 0#8
  | 0 => rfl
  | 1 => rfl

variable {s i}

theorem Keeps.ireqs {i' : In} (h : Keeps s i i') : ∀ k, (i.ireqs k).valid = true →
    s.answers i k = false → i'.ireqs k = i.ireqs k
  | 0, hv, hk => congrArg DBusToCBus.dcreq (h.dreq hv hk)
  | 1, hv, hk => congrArg IBusToCBus.icreq (h.ireq hv hk)

/-! ## The invariant -/

/-- The arbiter and the memory are at the same request, or at none. -/
inductive Inv (s : Stack) (i : In) : Prop
  | free (busy : s.arbiter.busy = false) (ram : s.ram.state = .NONE)
  | busy (k : Fin 2) (busy : s.arbiter.busy = true) (index : s.arbiter.index = k)
      (valid : (i.ireqs k).valid = true) (ram : s.ram.Serves (i.ireqs k))

theorem inv_init (ram : Ram) (i : In) : Inv (init ram) i := .free rfl rfl

theorem not_answers_of_free (h : s.arbiter.busy = false) (k : Fin 2) : s.answers i k = false := by
  rw [answers, Arbiter.iresps_of_free h]
  rfl

/-- A request is answered by the beat of the memory, while the arbiter is busy with it. -/
theorem Inv.of_answers (h : Inv s i) {k : Fin 2} (hk : s.answers i k = true) :
    s.arbiter.busy = true ∧ s.arbiter.index = k ∧ (i.ireqs k).valid = true ∧
      s.ram.Beat (i.ireqs k) := by
  cases h with
  | free hb _ =>
    rw [not_answers_of_free hb] at hk
    exact absurd hk Bool.false_ne_true
  | busy j hb hj hv hram =>
    -- The arbiter passes the response on to the request it is busy with, and to no other.
    have heq : k = j := by
      by_contra hne
      rw [answers, Arbiter.iresps_of_ne hj hne] at hk
      exact absurd hk Bool.false_ne_true
    subst heq
    rw [answers, Arbiter.iresps_self hb hj, DBusToCBus.okay, Bool.and_eq_true] at hk
    exact ⟨hb, hj, hv, hram.beat_of_last hk.2⟩

/-- At most one request is answered. -/
theorem Inv.answers_unique (h : Inv s i) {k j : Fin 2} (hk : s.answers i k = true)
    (hj : s.answers i j = true) : k = j :=
  Fin.val_injective ((h.of_answers hk).2.1.symm.trans (h.of_answers hj).2.1)

/-- The memory never finds a request modified. -/
theorem Inv.not_modified (h : Inv s i) : s.ram.modificationError (s.oreq i) = false := by
  cases h with
  | free _ hram => rw [Ram.modificationError, hram]
  | busy k hb hk _ hram => rw [oreq, Arbiter.oreq_of_busy _ hb hk, hram.not_modified]

/-- While a request waits, it is kept, and the memory does not change. -/
theorem Inv.wait {k : Fin 2} (hb : s.arbiter.busy = true) (hk : s.arbiter.index = k)
    (hv : (i.ireqs k).valid = true) (hram : s.ram.Serves (i.ireqs k))
    (ha : s.answers i k = false) :
    (s.next i false).arbiter.busy = true ∧ (s.next i false).arbiter.index = k ∧
      (s.next i false).ram.Serves (i.ireqs k) ∧ (s.next i false).ram.mem = s.ram.mem ∧
      (s.next i false).ram.remaining < s.ram.remaining := by
  have hl : (s.oresp i.switch).last = false := by
    rwa [answers, Arbiter.iresps_self hb hk, DBusToCBus.okay, oresp, hram.ready_eq,
      Bool.and_self] at ha
  obtain ⟨hserves, hmem, hlt⟩ := hram.next i.random hv (i.len_ireqs k) hl
  obtain ⟨hbusy, hindex⟩ := Arbiter.next_of_busy i.ireqs (s.oresp i.switch) hb
  have ho : s.oreq i = i.ireqs k := Arbiter.oreq_of_busy _ hb hk
  rw [next, ho, hbusy, hindex, hl]
  exact ⟨rfl, hk, hserves, hmem, hlt⟩

/-- After an answer, the stack is free. -/
theorem Inv.answer (h : Inv s i) {k : Fin 2} (ha : s.answers i k = true) :
    (s.next i false).arbiter.busy = false ∧ (s.next i false).ram.state = .NONE ∧
      (s.next i false).ram.mem =
        if (i.ireqs k).isWrite then (s.ram.tick.write (i.ireqs k)).mem else s.ram.mem := by
  obtain ⟨hb, hk, _, hbeat⟩ := h.of_answers ha
  have hl : (s.oresp i.switch).last = true := by rw [oresp, hbeat.oresp]
  obtain ⟨hstate, hmem⟩ := hbeat.next i.random
  have hbusy := (Arbiter.next_of_busy i.ireqs (s.oresp i.switch) hb).1
  have ho : s.oreq i = i.ireqs k := Arbiter.oreq_of_busy _ hb hk
  rw [next, ho, hbusy, hl]
  exact ⟨rfl, hstate, hmem⟩

/-- A free stack takes the first valid request. -/
theorem Inv.grant (hb : s.arbiter.busy = false) (hram : s.ram.state = .NONE) :
    (s.next i false).ram.state = .NONE ∧ (s.next i false).ram.mem = s.ram.mem ∧
      ((s.next i false).arbiter.busy = false ∧ (∀ k, (i.ireqs k).valid = false) ∨
        ∃ k : Fin 2, (s.next i false).arbiter.busy = true ∧
          (s.next i false).arbiter.index = k ∧ (i.ireqs k).valid = true ∧
          ∀ j < k, (i.ireqs j).valid = false) := by
  have ho : s.oreq i = .zero := Arbiter.oreq_of_free hb
  obtain ⟨hstate, hmem⟩ := Ram.next_of_none .zero i.random hram rfl
  obtain ⟨hbusy, hindex⟩ := Arbiter.next_of_free i.ireqs (s.oresp i.switch) hb
  rw [next, ho]
  refine ⟨hstate, hmem, ?_⟩
  rw [hbusy, hindex]
  cases hv : (Arbiter.selectedReq i.ireqs).valid with
  | false =>
    refine .inl ⟨rfl, fun k => ?_⟩
    by_contra hk
    rw [Arbiter.selectedReq_valid (eq_true_of_ne_false hk)] at hv
    exact absurd hv Bool.false_ne_true.symm
  | true =>
    obtain ⟨k, hk, hvk, hj⟩ := Arbiter.select_eq hv
    exact .inr ⟨k, rfl, hk, hvk, hj⟩

/-- The invariant holds in the next cycle, if the requests are kept. -/
theorem Inv.next (h : Inv s i) {i' : In} (hkeeps : Keeps s i i') :
    Inv (s.next i false) i' := by
  cases h with
  | free hb hram =>
    obtain ⟨hstate, _, hfree | ⟨k, hbusy, hk, hv, _⟩⟩ := Inv.grant (i := i) hb hram
    · exact .free hfree.1 hstate
    -- What is granted is still presented: a free stack answers nothing.
    · have heq := hkeeps.ireqs k hv (not_answers_of_free hb k)
      exact .busy k hbusy hk (heq ▸ hv) (.none hstate)
  | busy k hb hk hv hram =>
    cases ha : s.answers i k with
    | false =>
      obtain ⟨hbusy, hindex, hserves, _, _⟩ := Inv.wait hb hk hv hram ha
      have heq := hkeeps.ireqs k hv ha
      exact .busy k hbusy hindex (heq ▸ hv) (heq ▸ hserves)
    | true =>
      -- After the answer, the requester is free to change its request.
      obtain ⟨hbusy, hstate, _⟩ := Inv.answer (.busy k hb hk hv hram) ha
      exact .free hbusy hstate

end Stack

end RiscvCpu
