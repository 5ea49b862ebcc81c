import RiscvCpu.Bus.Ram

/-!
# The array of the emulator

The memory model keeps its words in an array of the emulator, which it reads and writes with
two functions. The array has 256 MB: at larger indices a read wraps, and a write is a failed
assertion. Below, the array is the memory: it `Holds` the words, and keeps to hold them
(`holds_edge`).
-/

namespace RiscvCpu

/-- The size of the array, in bytes. -/
def EMU_RAM_SIZE : ℕ := 256 * 1024 * 1024

/-- The number of words of the array. -/
def EMU_RAM_WORDS : ℕ := 256 * 1024 * 1024 / 8

/-- The array, and the number of failed assertions. -/
structure EmuRam where
  ram : Vector (BitVec 64) EMU_RAM_WORDS
  assertCount : ℕ

namespace EmuRam

variable (e : EmuRam)

def ramReadHelper (en : Bool) (rIdx : BitVec 64) : BitVec 64 :=
  if en then
    if h : rIdx.toNat < EMU_RAM_WORDS then e.ram.get ⟨rIdx.toNat, h⟩
    else e.ram.get ⟨rIdx.toNat % EMU_RAM_WORDS, Nat.mod_lt _ (by decide)⟩
  else 0#64

def ramWriteHelper (wIdx wdata wmask : BitVec 64) (wen : Bool) : EmuRam :=
  if wen then
    if h : wIdx.toNat < EMU_RAM_WORDS then
      { e with ram := e.ram.set wIdx.toNat ((e.ram.get ⟨wIdx.toNat, h⟩ &&& ~~~wmask) |||
          (wdata &&& wmask)) h }
    else { e with assertCount := e.assertCount + 1 }
  else e

/-- The array has these words at its indices. -/
def Holds (m : Words) : Prop :=
  ∀ idx, (h : idx.toNat < EMU_RAM_WORDS) → e.ram.get ⟨idx.toNat, h⟩ = m idx

variable {e} {m : Words} {idx : BitVec 64}

theorem Holds.read (he : e.Holds m) (h : idx.toNat < EMU_RAM_WORDS) :
    e.ramReadHelper true idx = m.readHelper idx := by
  rw [ramReadHelper, if_pos rfl, dif_pos h]
  exact he idx h

theorem Holds.write (he : e.Holds m) (h : idx.toNat < EMU_RAM_WORDS) (wdata wmask : BitVec 64) :
    (e.ramWriteHelper idx wdata wmask true).Holds (m.writeHelper idx wdata wmask) ∧
      (e.ramWriteHelper idx wdata wmask true).assertCount = e.assertCount := by
  rw [ramWriteHelper, if_pos rfl, dif_pos h]
  refine ⟨fun k hk => ?_, rfl⟩
  have hget : ∀ v : BitVec 64, (e.ram.set idx.toNat v h).get ⟨k.toNat, hk⟩ =
      if idx.toNat = k.toNat then v else e.ram.get ⟨k.toNat, hk⟩ := fun v =>
    Vector.getElem_set ..
  rw [hget]
  by_cases hki : k = idx
  · obtain rfl := hki
    rw [if_pos rfl, Words.writeHelper_self, he k h]
  · rw [if_neg fun h => hki (BitVec.eq_of_toNat_eq h).symm, Words.writeHelper_of_ne _ _ _ hki]
    exact he k hk

end EmuRam

/-! ## The calls of the memory model -/

namespace Ram

/-- The addresses that are written without a call. -/
def devices : List (BitVec 64) :=
  [0x40600004#64, 0x23333000#64, 0x38000000#64, 0x38004000#64, 0x3800bff8#64, 0x4060000c#64]

variable (s : Ram) (oreq : CbusReq)

/-- The array after the clock edge. -/
def edge (e : EmuRam) : EmuRam :=
  if s.state = .WRITE ∧ s.addr ∉ devices then
    e.ramWriteHelper s.idx oreq.data (Words.wmask oreq.strobe) true
  else e

variable {s oreq}

theorem mem_write : (s.tick.write oreq).mem =
    if s.addr ∈ devices then s.mem
    else s.mem.writeHelper s.idx oreq.data (Words.wmask oreq.strobe) := by
  have ht : s.tick.addr = s.addr := rfl
  by_cases h : s.addr ∈ devices
  · rw [if_pos h]
    simp only [devices, List.mem_cons, List.not_mem_nil, or_false] at h
    rw [write, ht]
    rcases h with h | h | h | h | h | h <;> rw [h] <;> rfl
  · rw [if_neg h]
    simp only [devices, List.mem_cons, List.not_mem_nil, or_false, not_or] at h
    obtain ⟨h₁, h₂, h₃, h₄, h₅, h₆⟩ := h
    rw [write, ht, if_neg h₁, if_neg h₂, if_neg h₃, if_neg h₄, if_neg h₅, if_pos h₆]
    rfl

theorem mem_next (random : BitVec 32) : (s.next oreq random false).mem =
    if s.state = .WRITE then (s.tick.write oreq).mem else s.mem := by
  have hadv : ∀ (r : Ram) addr, (r.advance addr).mem = r.mem := fun r addr => by
    rw [advance]
    split <;> rfl
  rw [next, Bool.not_false, if_pos rfl]
  cases s.state with
  | NONE => by_cases hv : oreq.valid = true <;> simp [hv, tick]
  | WAIT => by_cases hc : s.countDown = 0#8 <;> simp [hc, tick, start]
  | READ => exact hadv ..
  | WRITE => exact hadv ..

variable (oreq) in
/-- With its calls in range, the memory model has its words in the array. -/
theorem holds_edge {e : EmuRam} (he : e.Holds s.mem)
    (h : s.state = .WRITE → s.addr ∉ devices → s.idx.toNat < EMU_RAM_WORDS)
    (random : BitVec 32) : (s.edge oreq e).Holds (s.next oreq random false).mem ∧
      (s.edge oreq e).assertCount = e.assertCount := by
  rw [mem_next, mem_write, edge]
  by_cases hs : s.state = .WRITE
  · by_cases hd : s.addr ∈ devices
    · rw [if_pos hs, if_pos hd, if_neg fun h => h.2 hd]
      exact ⟨he, rfl⟩
    · rw [if_pos hs, if_neg hd, if_pos ⟨hs, hd⟩]
      exact he.write (h hs hd) ..
  · rw [if_neg hs, if_neg fun h => hs h.1]
    exact ⟨he, rfl⟩

end Ram

end RiscvCpu
