import Mathlib.Tactic.IntervalCases
import RiscvCpu.Arith.Bits

/-!
# Arrays of words

Memory is an array of words of 64 bits, read a word at a time, and written under a mask.
The mask of a bus request repeats each bit of its strobe 8 times: a write replaces the
bytes of the strobe, and no others (`byte_write`).
-/

namespace RiscvCpu

open Bits

/-- An array of words, by index. -/
abbrev Words := BitVec 64 → BitVec 64

namespace Words

def readHelper (m : Words) (rIdx : BitVec 64) : BitVec 64 := m rIdx

def writeHelper (m : Words) (wIdx wdata wmask : BitVec 64) : Words := fun idx =>
  if idx = wIdx then (m idx &&& ~~~wmask) ||| (wdata &&& wmask) else m idx

/-- The mask of a strobe. -/
def wmask (strobe : BitVec 8) : BitVec 64 :=
  rep 8 (strobe.getLsbD 7) ++ (rep 8 (strobe.getLsbD 6) ++ (rep 8 (strobe.getLsbD 5) ++
    (rep 8 (strobe.getLsbD 4) ++ (rep 8 (strobe.getLsbD 3) ++ (rep 8 (strobe.getLsbD 2) ++
      (rep 8 (strobe.getLsbD 1) ++ rep 8 (strobe.getLsbD 0)))))))

/-- The byte `k` of a word. -/
def byte (x : BitVec 64) (k : ℕ) : BitVec 8 := x.extractLsb' (8 * k) 8

theorem byte_wmask (strobe : BitVec 8) {k : ℕ} (hk : k < 8) :
    byte (wmask strobe) k = rep 8 (strobe.getLsbD k) := by
  have h0 := (rep 8 (strobe.getLsbD 0)).isLt
  have h1 := (rep 8 (strobe.getLsbD 1)).isLt
  have h2 := (rep 8 (strobe.getLsbD 2)).isLt
  have h3 := (rep 8 (strobe.getLsbD 3)).isLt
  have h4 := (rep 8 (strobe.getLsbD 4)).isLt
  have h5 := (rep 8 (strobe.getLsbD 5)).isLt
  have h6 := (rep 8 (strobe.getLsbD 6)).isLt
  have h7 := (rep 8 (strobe.getLsbD 7)).isLt
  apply BitVec.eq_of_toNat_eq
  rw [byte, BitVec.extractLsb'_toNat, Nat.shiftRight_eq_div_pow, wmask]
  simp only [toNat_append]
  interval_cases k <;> omega

/-- A masked write replaces the bytes of the strobe. -/
theorem byte_write (old wdata : BitVec 64) (strobe : BitVec 8) {k : ℕ} (hk : k < 8) :
    byte ((old &&& ~~~wmask strobe) ||| (wdata &&& wmask strobe)) k =
      if strobe.getLsbD k then byte wdata k else byte old k := by
  -- All bits of a byte of the mask are the same bit of the strobe.
  have hm : ∀ j < 8, (wmask strobe).getLsbD (8 * k + j) = strobe.getLsbD k := by
    intro j hj
    have h := congrArg (BitVec.getLsbD · j) (byte_wmask strobe hk)
    simp only [byte, BitVec.getLsbD_extractLsb', hj, decide_true, Bool.true_and] at h
    rw [h, getLsbD_rep, decide_eq_true hj, Bool.true_and]
  apply BitVec.eq_of_getLsbD_eq
  intro j hj
  have hkj : 8 * k + j < 64 := by omega
  simp only [byte, BitVec.getLsbD_extractLsb', hj, decide_true, Bool.true_and, BitVec.getLsbD_or,
    BitVec.getLsbD_and, BitVec.getLsbD_not, hkj, hm j hj]
  cases strobe.getLsbD k <;> simp [hj]

theorem writeHelper_self (m : Words) (wIdx wdata wmask : BitVec 64) :
    m.writeHelper wIdx wdata wmask wIdx = (m wIdx &&& ~~~wmask) ||| (wdata &&& wmask) := if_pos rfl

theorem writeHelper_of_ne (m : Words) {wIdx idx : BitVec 64} (wdata wmask : BitVec 64)
    (h : idx ≠ wIdx) : m.writeHelper wIdx wdata wmask idx = m idx := if_neg h

end Words

end RiscvCpu
