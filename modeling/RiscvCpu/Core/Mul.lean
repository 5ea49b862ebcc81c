import RiscvCpu.Arith.Iterative
import RiscvCpu.Core.Serial
import RiscvCpu.Rv64.MulDiv

/-!
# The multiplier

`mul` multiplies magnitudes by 64 steps of shift-and-add multiplication in the
129-bit register `p`, and negates the product if the signs differ. The bit `128` is
always `0`, and the sum of a step, on 65 bits, keeps its carry
(`Arith.shiftAdded_lt`).
-/

namespace RiscvCpu

open Sync Bits

namespace Mul

variable (i : SerialIn)

/-- The magnitude of an operand, as `num1` and `num2` compute it. -/
def num (s : Bool) (x : BitVec 64) : BitVec 64 :=
  if x.getLsbD 63 && s then ~~~x + 1#64 else x

def num1 : BitVec 64 := num i.s i.a

def num2 : BitVec 64 := num i.s i.b

/-- A step of the multiplication by `num2`. -/
def shift (num2 : BitVec 64) (p : BitVec 129) : BitVec 129 :=
  if p.getLsbD 0 then
    0#1 ++ (((0#1 ++ p.extractLsb 127 64) + (0#1 ++ num2) : BitVec 65) ++ p.extractLsb 63 1)
  else 0#1 ++ p.extractLsb 128 1

/-- The clock edge of the multiplier. -/
def next (reset : Bool) (r : SerialReg 129) : SerialReg 129 :=
  r.next (0#65 ++ num1 i) (shift (num2 i)) reset i.valid

/-- The output `a * b`. -/
def c (p : BitVec 129) : BitVec 64 :=
  let temp := if i.s && (i.a.getLsbD 63 ^^ i.b.getLsbD 63) then ~~~p + 1#129 else p
  if i.w then rep 32 (temp.getLsbD 31) ++ temp.extractLsb 31 0 else temp.extractLsb 63 0

/-! ## The multiplication of magnitudes -/

theorem toNat_shift (d : BitVec 64) {p : BitVec 129} (hp : p.toNat < 2 ^ 128) :
    (shift d p).toNat = Arith.shiftAdd 64 d.toNat p.toNat := by
  have hd := d.isLt
  simp only [shift, Arith.shiftAdd, getLsbD_eq, decide_eq_true_eq, pow_zero, Nat.div_one]
  split
  case isTrue h =>
    rw [toNat_append, toNat_append, BitVec.toNat_add, toNat_append, toNat_append, toNat_extractLsb,
      toNat_extractLsb, BitVec.toNat_ofNat]
    omega
  case isFalse h =>
    rw [toNat_append, toNat_extractLsb, BitVec.toNat_ofNat]
    omega

theorem toNat_iterate_shift (d x : BitVec 64) {k : ℕ} (hk : k ≤ 64) :
    ((shift d)^[k] (0#65 ++ x)).toNat = Arith.shiftAdded 64 x.toNat d.toNat k := by
  rw [← Arith.iterate_shiftAdd hk]
  induction k with
  | zero =>
    rw [Function.iterate_zero_apply, Function.iterate_zero_apply, toNat_append, BitVec.toNat_ofNat,
      Nat.zero_mod, zero_mul, zero_add]
  | succ k ih =>
    have hp := ih (by omega)
    -- The bit 128 is clear before each step, so that the carry has a place to go.
    have hlt := Arith.shiftAdded_lt d.isLt x.isLt (show k ≤ 64 by omega)
    rw [← Arith.iterate_shiftAdd (by omega), ← hp] at hlt
    rw [Function.iterate_succ_apply', Function.iterate_succ_apply', toNat_shift d hlt, hp]

/-- The register after a multiplication. -/
def multiplied : BitVec 129 := (shift (num2 i))^[64] (0#65 ++ num1 i)

theorem multiplied_eq :
    multiplied i = BitVec.ofNat 129 ((num1 i).toNat * (num2 i).toNat) := by
  have h1 := (num1 i).isLt
  have h2 := (num2 i).isLt
  have hlt : (num1 i).toNat * (num2 i).toNat < 2 ^ 64 * 2 ^ 64 := Nat.mul_lt_mul'' h1 h2
  apply BitVec.eq_of_toNat_eq
  rw [multiplied, toNat_iterate_shift _ _ le_rfl, ← Arith.iterate_shiftAdd le_rfl,
    Arith.iterate_shiftAdd_width h1, BitVec.toNat_ofNat, Nat.mod_eq_of_lt (by omega), mul_comm]

theorem multiplied_lo : (multiplied i).extractLsb 63 0 = num1 i * num2 i := by
  apply BitVec.eq_of_toNat_eq
  rw [multiplied_eq, toNat_extractLsb, BitVec.toNat_ofNat, BitVec.toNat_mul]
  omega

/-! ## Results -/

theorem num_eq (s : Bool) (x : BitVec 64) : num s x = if x.msb && s then -x else x := by
  rw [num, not_add_one]
  rfl

theorem extractLsb_neg (p : BitVec 129) : (-p).extractLsb 63 0 = -p.extractLsb 63 0 := by
  apply BitVec.eq_of_toNat_eq
  rw [toNat_extractLsb, BitVec.toNat_neg, BitVec.toNat_neg, toNat_extractLsb]
  omega

theorem rep_lo (p : BitVec 129) : rep 32 (p.getLsbD 31) ++ p.extractLsb 31 0 =
    ((p.extractLsb 63 0).setWidth 32).signExtend 64 := by
  rw [← rep_word, BitVec.getLsbD_extractLsb]
  congr 1
  apply BitVec.eq_of_toNat_eq
  rw [toNat_extractLsb, toNat_extractLsb, toNat_extractLsb]
  omega

/-- After the multiplication, the output holds the product, signed or not. -/
theorem c_multiplied : c i (multiplied i) = Rv64.product i.w i.a i.b := by
  have htemp : (if i.s && (i.a.getLsbD 63 ^^ i.b.getLsbD 63) then ~~~multiplied i + 1#129
      else multiplied i).extractLsb 63 0 = i.a * i.b := by
    have ha : i.a.getLsbD 63 = i.a.msb := rfl
    have hb : i.b.getLsbD 63 = i.b.msb := rfl
    rw [not_add_one, apply_ite (BitVec.extractLsb 63 0), extractLsb_neg, multiplied_lo, ha, hb,
      num1, num2, num_eq, num_eq]
    -- The signs cancel out in the low half, whatever they are.
    cases i.s <;> cases i.a.msb <;> cases i.b.msb <;>
      simp only [Bool.true_and, Bool.false_and, Bool.xor_self, Bool.xor_true, Bool.xor_false,
        Bool.not_false, if_true, if_false, Bool.false_eq_true, BitVec.neg_mul, BitVec.mul_neg,
        BitVec.neg_neg]
  rw [c, Rv64.product, rep_lo, htemp, BitVec.setWidth_mul _ _ (by decide)]
  rfl

/-! ## An operation -/

/-- In the multiplication of the operands, or just done with it. -/
def Working (r : SerialReg 129) : Prop := r.Working (0#65 ++ num1 i) (shift (num2 i))

section Working

variable {i} {r : SerialReg 129}

theorem working_of_idle (h : r.Idle) (hv : i.valid = true) : Working i (next i false r) := by
  rw [next, hv]
  exact h.start

theorem Working.next (h : Working i r) (hv : i.valid = true) (hd : r.done = false) :
    Working i (Mul.next i false r) ∧ (Mul.next i false r).remaining < r.remaining := by
  rw [Mul.next, hv]
  exact SerialReg.Working.next h hd

theorem Working.c_eq (h : Working i r) (hd : r.done = true) :
    c i r.p = Rv64.product i.w i.a i.b := by
  rw [(SerialReg.Working.of_done h hd).2]
  exact c_multiplied i

theorem Working.idle (h : Working i r) (hd : r.done = true) : (Mul.next i false r).Idle :=
  (SerialReg.Working.of_done h hd).1.next

theorem idle_next (h : r.Idle) (hv : i.valid = false) : (Mul.next i false r).Idle := by
  rw [Mul.next, hv]
  exact h.next_of_not_valid

end Working

/-! ## Runs -/

/-- The multiplier, from its reset state, under any inputs. -/
def machine : Machine (SerialReg 129) SerialIn where
  init := {SerialReg.init}
  admits _ := Set.univ
  next r i := next i false r

/-- The multiplier on every trace of inputs: when it is done, for how long, and what it
    gives, signed or not, if its operands were constant since the load. -/
theorem mul_correct {r : ℕ → SerialReg 129} {i : ℕ → SerialIn} (hr : machine.IsRun r i) (n : ℕ) :
    ((r n).done = true ↔
      ∃ m, n = m + 67 ∧ (r m).state = false ∧ ∀ k < 67, (i (m + k)).valid = true) ∧
    ((r n).done = true → (r (n + 1)).done = false) ∧
    ((r n).done = true →
      (∀ k, n - 66 ≤ k → k ≤ n →
        (i k).a = (i n).a ∧ (i k).b = (i n).b ∧ (i k).s = (i n).s ∧ (i k).w = (i n).w) →
      c (i n) (r n).p =
        if (i n).w then (((i n).a * (i n).b).setWidth 32).signExtend 64
        else (i n).a * (i n).b) := by
  have hr' : (SerialReg.machine (fun i => 0#65 ++ num1 i) (fun i => shift (num2 i))
    SerialIn.valid).IsRun r i := ⟨hr.init, hr.admits, hr.next⟩
  refine ⟨SerialReg.done_iff_valid hr' n, SerialReg.not_done_succ hr', fun hd hconst => ?_⟩
  have hp : (r n).p = multiplied (i n) := by
    refine SerialReg.p_of_done hr' hd fun k hk hkn => ?_
    obtain ⟨ha, hb, hs, hw⟩ := hconst k hk hkn
    simp only [num1, num2, ha, hb, hs, and_self]
  rw [hp, c_multiplied, Rv64.product, Rv64.word, BitVec.setWidth_mul _ _ (by decide)]

/-- Multiplying `-3` by `5`, for 67 cycles. -/
theorem mul_correct_neg_three :
    let i : SerialIn := ⟨true, -3#64, 5#64, true, false⟩
    c i (machine.run SerialReg.init (fun _ => i) 67).p = -15#64 := by
  intro i
  have hr := machine.isRun_run (s := SerialReg.init) (i := fun _ => i) rfl fun _ => trivial
  have hd := (mul_correct hr 67).1.2 ⟨0, rfl, rfl, fun _ _ => rfl⟩
  have hc := (mul_correct hr 67).2.2 hd fun _ _ _ => ⟨rfl, rfl, rfl, rfl⟩
  rwa [if_neg Bool.false_ne_true, show i.a * i.b = -15#64 by decide] at hc

end Mul

end RiscvCpu
