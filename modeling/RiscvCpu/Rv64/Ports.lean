import Mathlib.Data.Set.Basic
import RiscvCpu.Rv64.Hart

/-!
# Ports

Loads and stores that do not reach memory, but the ports of some devices. A load from a port
gets a value from outside, and a store to a port leaves the memory alone (`Hart.PortStep`).
-/

namespace Rv64

open Bits Bytes

/-- The address of a load or a store. -/
def Request.address : Request → Option (BitVec 64)
  | load addr _ _ => some addr
  | store addr _ _ => some addr
  | _ => none

namespace Hart

variable (space : Set (BitVec 64)) (ports : Set Request) (h : Hart) (addr data : BitVec 64)

/-- With the double word at an address. -/
def see : Hart := { h with mem := h.mem.write (addr >>> 3 <<< 3) 8 data }

/-- The hart after an access to a port. -/
def transfer (i : Instr) : Hart := { (h.see addr data).execute i with mem := h.mem }

/-- The access of the instruction is to a port. -/
structure Transfers (i : Instr) (r : Request) : Prop where
  fetches : h.Fetches space i
  request : r ∈ (h.effect i).request
  address : r.address = some addr
  /-- It is naturally aligned. -/
  valid : r.Valid Set.univ
  not_mem : addr ∉ space
  port : r ∈ ports

/-- One step, in which `data` is what comes from a port. -/
inductive PortStep (i : Instr) : Hart → Prop
  | execute (hx : h.Executes space i) : PortStep i (h.execute i)
  | transfer {addr : BitVec 64} {r : Request} (hx : h.Transfers space ports addr i r) :
      PortStep i (h.transfer addr data i)

variable {space ports h addr data} {i : Instr} {r : Request}

theorem mem_word_iff {a : BitVec 64} : (a - addr >>> 3 <<< 3).toNat < 8 ↔ a >>> 3 = addr >>> 3 := by
  have ha := a.isLt
  have haddr := addr.isLt
  have hs : (addr >>> 3 <<< 3).toNat = addr.toNat / 8 * 8 := by
    rw [BitVec.toNat_shiftLeft, BitVec.toNat_ushiftRight, Nat.shiftRight_eq_div_pow,
      Nat.shiftLeft_eq]
    omega
  rw [BitVec.toNat_sub, hs, ← BitVec.toNat_inj, BitVec.toNat_ushiftRight,
    BitVec.toNat_ushiftRight, Nat.shiftRight_eq_div_pow, Nat.shiftRight_eq_div_pow]
  omega

/-- The port is not in the memory of the program. -/
theorem see_agrees (hs : WordClosed space) (ha : addr ∉ space) : (h.see addr data).Agrees space h :=
  ⟨rfl, rfl, fun a hm => Mem.write_of_not_lt fun hlt =>
    ha (hs a hm addr (mem_word_iff.1 hlt).symm)⟩

theorem see_read (data : BitVec 64) (hs : WordClosed space) (hx : h.Fetches space i)
    (ha : addr ∉ space) : (h.see addr data).mem.read h.pc 4 = i.encode :=
  ((see_agrees hs ha).read (hs.access_subset hx.mem (by decide) hx.aligned)).trans hx.fetch

/-- With the port in memory, the instruction can be executed. -/
theorem Transfers.executes_see (hs : WordClosed space) (hx : h.Transfers space ports addr i r) :
    (h.see addr data).Executes Set.univ i where
  aligned := hx.fetches.aligned
  mem := Set.mem_univ _
  fetch := see_read data hs hx.fetches hx.not_mem
  valid r' hr' := by
    obtain rfl : r = r' := Option.some.inj (hx.request.symm.trans hr')
    exact hx.valid

theorem PortStep.fetches {h' : Hart} (hx : h.PortStep space ports data i h') :
    h.Fetches space i := by
  cases hx with
  | execute hx => exact hx.fetches
  | transfer hx => exact hx.fetches

end Hart

/-- A program that runs forever, without exceptions, and with ports. The sequences are those
    of the instructions, and of the data that come from ports. -/
def IsPortExecution (space : Set (BitVec 64)) (ports : Set Request) (h : ℕ → Hart) (i : ℕ → Instr)
    (data : ℕ → BitVec 64) : Prop :=
  ∀ k, (h k).PortStep space ports (data k) (i k) (h (k + 1))

end Rv64
