import RiscvCpu.Arith.Iterative
import RiscvCpu.Core.Serial
import RiscvCpu.Rv64.MulDiv

/-!
# The divider

`div` divides magnitudes by 64 steps of restoring division in the 128-bit
register `p`, and corrects the signs on the way out. The comparison of a step
only reads `p[126:63]`: the top bit of the remainder is dropped, and is always
`0` (`Arith.iterate_restore`), even for divisors above `2 ^ 63`.
-/

namespace RiscvCpu

open Sync Bits

namespace Div

variable (i : SerialIn)

/-- The magnitude of an operand, as `num1` and `num2` compute it. -/
def num (s w : Bool) (x : BitVec 64) : BitVec 64 :=
  if w then
    if s then
      let num := rep 32 (x.getLsbD 31) ++ x.extractLsb 31 0
      if x.getLsbD 31 then ~~~num + 1#64 else num
    else 0#32 ++ x.extractLsb 31 0
  else if x.getLsbD 63 && s then ~~~x + 1#64 else x

def num1 : BitVec 64 := num i.s i.w i.a

def num2 : BitVec 64 := num i.s i.w i.b

/-- A step of the division by `num2`. -/
def shift (num2 : BitVec 64) (p : BitVec 128) : BitVec 128 :=
  if num2 ≤ p.extractLsb 126 63 then (p.extractLsb 126 63 - num2) ++ (p.extractLsb 62 0 ++ 1#1)
  else p.extractLsb 126 0 ++ 0#1

/-- The clock edge of the divider. -/
def next (reset : Bool) (r : SerialReg 128) : SerialReg 128 :=
  r.next (0#64 ++ num1 i) (shift (num2 i)) reset i.valid

/-- The output `{a % b, a / b}`. -/
def c (p : BitVec 128) : BitVec 128 :=
  let hi := p.extractLsb 127 64
  let lo := p.extractLsb 63 0
  if i.w then
    if i.s && i.a.getLsbD 31 && num2 i == 0#64 then (~~~hi + 1#64) ++ lo
    else if i.s && i.a.getLsbD 31 && !i.b.getLsbD 31 then (~~~hi + 1#64) ++ (~~~lo + 1#64)
    else if i.s && !i.a.getLsbD 31 && i.b.getLsbD 31 then hi ++ (~~~lo + 1#64)
    else if i.s && i.a.getLsbD 31 && i.b.getLsbD 31 then
      (~~~hi + 1#64) ++ (rep 32 (p.getLsbD 31) ++ p.extractLsb 31 0)
    else
      (rep 32 (p.getLsbD 95) ++ p.extractLsb 95 64) ++ (rep 32 (p.getLsbD 31) ++ p.extractLsb 31 0)
  else
    if i.s && i.a.getLsbD 63 && i.b == 0#64 then (~~~hi + 1#64) ++ lo
    else if i.s && i.a.getLsbD 63 && !i.b.getLsbD 63 then (~~~hi + 1#64) ++ (~~~lo + 1#64)
    else if i.s && !i.a.getLsbD 63 && i.b.getLsbD 63 then hi ++ (~~~lo + 1#64)
    else if i.s && i.a.getLsbD 63 && i.b.getLsbD 63 then (~~~hi + 1#64) ++ lo
    else p

/-! ## The division of magnitudes -/

theorem toNat_shift (d : BitVec 64) (p : BitVec 128) :
    (shift d p).toNat = Arith.restore 64 d.toNat p.toNat := by
  have hd := d.isLt
  have hp := p.isLt
  simp only [shift, Arith.restore, BitVec.le_def, toNat_extractLsb]
  split
  case isTrue h =>
    have hsub := BitVec.toNat_sub_of_le (BitVec.le_def.2 (by rwa [toNat_extractLsb] :
      d.toNat ≤ (p.extractLsb 126 63).toNat))
    rw [toNat_append, toNat_append, hsub, toNat_extractLsb, toNat_extractLsb, BitVec.toNat_ofNat]
    omega
  case isFalse h =>
    rw [toNat_append, toNat_extractLsb, BitVec.toNat_ofNat]
    omega

theorem toNat_iterate_shift (d : BitVec 64) (k : ℕ) (p : BitVec 128) :
    ((shift d)^[k] p).toNat = (Arith.restore 64 d.toNat)^[k] p.toNat := by
  induction k with
  | zero => rfl
  | succ k ih => rw [Function.iterate_succ_apply', Function.iterate_succ_apply', toNat_shift, ih]

/-- The register after a division. -/
def divided : BitVec 128 := (shift (num2 i))^[64] (0#64 ++ num1 i)

theorem toNat_divided : (divided i).toNat = (num1 i).toNat % (num2 i).toNat * 2 ^ 64 +
    Arith.quotient 64 (num1 i).toNat (num2 i).toNat := by
  have h0 : (0#64 ++ num1 i : BitVec 128).toNat = (num1 i).toNat := by
    rw [toNat_append, BitVec.toNat_ofNat, Nat.zero_mod, zero_mul, zero_add]
  rw [divided, toNat_iterate_shift, h0, Arith.iterate_restore_width (num1 i).isLt]

/-- The high half of the register is the remainder. -/
theorem divided_hi :
    (divided i).extractLsb 127 64 = BitVec.ofNat 64 ((num1 i).toNat % (num2 i).toNat) := by
  have hq := Arith.quotient_lt (k := 64) (d := (num2 i).toNat) (num1 i).isLt
  have hr := (Nat.mod_le (num1 i).toNat (num2 i).toNat).trans_lt (num1 i).isLt
  apply BitVec.eq_of_toNat_eq
  rw [toNat_extractLsb, toNat_divided, BitVec.toNat_ofNat]
  omega

/-- The low half of the register is the quotient. -/
theorem divided_lo :
    (divided i).extractLsb 63 0 =
      BitVec.ofNat 64 (Arith.quotient 64 (num1 i).toNat (num2 i).toNat) := by
  have hq := Arith.quotient_lt (k := 64) (d := (num2 i).toNat) (num1 i).isLt
  apply BitVec.eq_of_toNat_eq
  rw [toNat_extractLsb, toNat_divided, BitVec.toNat_ofNat]
  omega

theorem divided_eq : divided i = (divided i).extractLsb 127 64 ++ (divided i).extractLsb 63 0 := by
  have hp := (divided i).isLt
  apply BitVec.eq_of_toNat_eq
  rw [toNat_append, toNat_extractLsb, toNat_extractLsb]
  omega

/-! ## Operands -/

theorem toNat_num_unsigned (x : BitVec 64) : (num false false x).toNat = x.toNat := by
  simp [num]

theorem toNat_num_signed (x : BitVec 64) : (num true false x).toNat = x.toInt.natAbs := by
  have hnum : num true false x = if x.msb then ~~~x + 1#64 else x := by
    rw [num, Bool.and_true]
    rfl
  rw [hnum]
  split
  case isTrue hx => rw [not_add_one, toNat_neg_of_msb hx]
  case isFalse hx => rw [toNat_of_msb (Bool.eq_false_iff.2 hx)]

theorem toNat_num_unsigned_word (x : BitVec 64) :
    (num false true x).toNat = (x.setWidth 32).toNat := zero_word x

theorem toNat_num_signed_word (x : BitVec 64) :
    (num true true x).toNat = (x.setWidth 32).toInt.natAbs := by
  have hnum : num true true x = if ((x.setWidth 32).signExtend 64).msb
      then ~~~((x.setWidth 32).signExtend 64) + 1#64 else (x.setWidth 32).signExtend 64 := by
    rw [BitVec.msb_signExtend, ← rep_word, ← getLsbD_word]
    rfl
  rw [hnum, ← BitVec.toInt_signExtend_of_le (x := x.setWidth 32) (v := 64) (by decide)]
  split
  case isTrue hx => rw [not_add_one, toNat_neg_of_msb hx]
  case isFalse hx => rw [toNat_of_msb (Bool.eq_false_iff.2 hx)]

/-! ## Results -/

theorem ofNat_quotient_zero (n : ℕ) :
    BitVec.ofNat 64 (Arith.quotient 64 n 0) = BitVec.allOnes 64 := by
  rw [Arith.quotient, if_pos rfl]
  decide

theorem ofNat_quotient_zero_word (n : ℕ) :
    BitVec.ofNat 32 (Arith.quotient 64 n 0) = BitVec.allOnes 32 := by
  rw [Arith.quotient, if_pos rfl]
  decide

theorem quotient_of_ne (n : ℕ) {d : ℕ} (hd : d ≠ 0) : Arith.quotient 64 n d = n / d := if_neg hd

theorem natAbs_toInt_ne_zero {w : ℕ} {b : BitVec w} (hb : b ≠ 0#w) : b.toInt.natAbs ≠ 0 := by
  rw [Int.natAbs_ne_zero, ← BitVec.toInt_zero (w := w)]
  exact fun h => hb (BitVec.eq_of_toInt_eq h)

variable (v : Bool) (a b : BitVec 64)

theorem c_unsigned : c ⟨v, a, b, false, false⟩ (divided ⟨v, a, b, false, false⟩) =
    Rv64.remu a b ++ Rv64.divu a b := by
  have hc : c ⟨v, a, b, false, false⟩ (divided ⟨v, a, b, false, false⟩) =
      divided ⟨v, a, b, false, false⟩ := rfl
  rw [hc, divided_eq, divided_hi, divided_lo, num1, num2, toNat_num_unsigned, toNat_num_unsigned,
    Rv64.remu, Rv64.divu]
  by_cases hb : b = 0#64
  · simp [hb, ofNat_quotient_zero]
  · have hb' : b.toNat ≠ 0 := fun h => hb (BitVec.eq_of_toNat_eq h)
    rw [if_neg hb, if_neg hb, quotient_of_ne _ hb']

theorem c_signed : c ⟨v, a, b, true, false⟩ (divided ⟨v, a, b, true, false⟩) =
    Rv64.rem a b ++ Rv64.div a b := by
  have hhi := divided_hi ⟨v, a, b, true, false⟩
  have hlo := divided_lo ⟨v, a, b, true, false⟩
  have hp := divided_eq ⟨v, a, b, true, false⟩
  have ha : a.getLsbD 63 = a.msb := rfl
  have hb : b.getLsbD 63 = b.msb := rfl
  rw [num1, num2, toNat_num_signed, toNat_num_signed] at hhi hlo
  rw [hhi, hlo] at hp
  simp only [c, ha, hb, hhi, hlo, not_add_one, Bool.true_and, if_false, Bool.false_eq_true]
  rw [Rv64.rem_eq_natAbs]
  by_cases hb0 : b = 0#64
  · subst hb0
    cases a.msb <;> simp [hp, Rv64.div, ofNat_quotient_zero]
  -- The four branches of the output, by the signs of the operands.
  · rw [Rv64.div_eq_natAbs hb0, quotient_of_ne _ (natAbs_toInt_ne_zero hb0)] at *
    cases a.msb <;> cases b.msb <;> simp [hp, hb0]

/-- The words in the two halves of the register. -/
theorem rep_hi (p : BitVec 128) : rep 32 (p.getLsbD 95) ++ p.extractLsb 95 64 =
    ((p.extractLsb 127 64).setWidth 32).signExtend 64 := by
  rw [← rep_word, BitVec.getLsbD_extractLsb]
  congr 1
  apply BitVec.eq_of_toNat_eq
  rw [toNat_extractLsb, toNat_extractLsb, toNat_extractLsb]
  omega

theorem rep_lo (p : BitVec 128) : rep 32 (p.getLsbD 31) ++ p.extractLsb 31 0 =
    ((p.extractLsb 63 0).setWidth 32).signExtend 64 := by
  rw [← rep_word, BitVec.getLsbD_extractLsb]
  congr 1
  apply BitVec.eq_of_toNat_eq
  rw [toNat_extractLsb, toNat_extractLsb, toNat_extractLsb]
  omega

theorem c_unsigned_word : c ⟨v, a, b, false, true⟩ (divided ⟨v, a, b, false, true⟩) =
    Rv64.word Rv64.remu a b ++ Rv64.word Rv64.divu a b := by
  have hc : c ⟨v, a, b, false, true⟩ (divided ⟨v, a, b, false, true⟩) =
      (rep 32 ((divided ⟨v, a, b, false, true⟩).getLsbD 95) ++
        (divided ⟨v, a, b, false, true⟩).extractLsb 95 64) ++
      (rep 32 ((divided ⟨v, a, b, false, true⟩).getLsbD 31) ++
        (divided ⟨v, a, b, false, true⟩).extractLsb 31 0) := rfl
  rw [hc, rep_hi, rep_lo, divided_hi, divided_lo, num1, num2, toNat_num_unsigned_word,
    toNat_num_unsigned_word, Rv64.word, Rv64.word, Rv64.remu, Rv64.divu,
    BitVec.setWidth_ofNat_of_le (by decide), BitVec.setWidth_ofNat_of_le (by decide)]
  by_cases hb : b.setWidth 32 = 0#32
  · rw [if_pos hb, if_pos hb, hb, BitVec.toNat_ofNat, Nat.zero_mod, Nat.mod_zero,
      BitVec.ofNat_toNat, BitVec.setWidth_eq, ofNat_quotient_zero_word]
  · have hb' : (b.setWidth 32).toNat ≠ 0 := fun h => hb (BitVec.eq_of_toNat_eq h)
    rw [if_neg hb, if_neg hb, quotient_of_ne _ hb']

theorem num2_eq_zero_word : num2 ⟨v, a, b, true, true⟩ = 0#64 ↔ b.setWidth 32 = 0#32 := by
  rw [← BitVec.toNat_inj, num2, toNat_num_signed_word, ← BitVec.toInt_inj, BitVec.toInt_zero]
  exact Int.natAbs_eq_zero

theorem c_signed_word : c ⟨v, a, b, true, true⟩ (divided ⟨v, a, b, true, true⟩) =
    Rv64.word Rv64.rem a b ++ Rv64.word Rv64.div a b := by
  have hhi := divided_hi ⟨v, a, b, true, true⟩
  have hlo := divided_lo ⟨v, a, b, true, true⟩
  have hhi' := rep_hi (divided ⟨v, a, b, true, true⟩)
  have hlo' := rep_lo (divided ⟨v, a, b, true, true⟩)
  rw [num1, num2, toNat_num_signed_word, toNat_num_signed_word] at hhi hlo
  rw [hhi, BitVec.setWidth_ofNat_of_le (by decide)] at hhi'
  rw [hlo, BitVec.setWidth_ofNat_of_le (by decide)] at hlo'
  simp only [c, beq_iff_eq, num2_eq_zero_word, Bool.and_eq_true, getLsbD_word, hhi, hlo, hlo', hhi',
    not_add_one, true_and, if_true]
  rw [Rv64.word, Rv64.word, Rv64.rem_eq_natAbs]
  generalize a.setWidth 32 = x, b.setWidth 32 = y at *
  -- The magnitudes are in the range of words, negated or not.
  have hx := natAbs_toInt_le x
  have hmod := (Nat.mod_le x.toInt.natAbs y.toInt.natAbs).trans hx
  have hdiv := (Nat.div_le_self x.toInt.natAbs y.toInt.natAbs).trans hx
  by_cases hy : y = 0#32
  -- With the divisor `0`, the remainder is the dividend, and only its sign is restored.
  · subst hy
    cases hxm : x.msb with
    | true =>
      rw [if_pos rfl, signExtend_neg_ofNat (by decide) (by decide) hmod]
      simp [Rv64.div, ofNat_quotient_zero]
    | false => simp [Rv64.div, ofNat_quotient_zero_word]
  · rw [Rv64.div_eq_natAbs hy, quotient_of_ne _ (natAbs_toInt_ne_zero hy)]
    cases hxm : x.msb with
    | true =>
      rw [if_pos rfl, signExtend_neg_ofNat (by decide) (by decide) hmod]
      cases y.msb with
      -- The quotient of the most negative word by `-1` wraps around: its low word is extended.
      | true => simp [hy]
      | false => simp [hy, signExtend_neg_ofNat (m := 32) (n := 64) (by decide) (by decide) hdiv]
    | false =>
      have hx' := natAbs_toInt_lt (by decide) hxm
      have hmod' := (Nat.mod_le x.toInt.natAbs y.toInt.natAbs).trans_lt hx'
      cases y.msb with
      | true =>
        simp [signExtend_ofNat (m := 32) (n := 64) (by decide) (by decide) hmod',
          signExtend_neg_ofNat (m := 32) (n := 64) (by decide) (by decide) hdiv]
      | false => simp

/-- After the division, the output holds the remainder and the quotient. -/
theorem c_divided :
    c i (divided i) = Rv64.remainder i.s i.w i.a i.b ++ Rv64.quot i.s i.w i.a i.b := by
  obtain ⟨v, a, b, s, w⟩ := i
  cases w <;> cases s
  · exact c_unsigned v a b
  · exact c_signed v a b
  · exact c_unsigned_word v a b
  · exact c_signed_word v a b

/-! ## An operation -/

/-- In the division of the operands, or just done with it. -/
def Working (r : SerialReg 128) : Prop := r.Working (0#64 ++ num1 i) (shift (num2 i))

section Working

variable {i} {r : SerialReg 128}

theorem working_of_idle (h : r.Idle) (hv : i.valid = true) : Working i (next i false r) := by
  rw [next, hv]
  exact h.start

theorem Working.next (h : Working i r) (hv : i.valid = true) (hd : r.done = false) :
    Working i (Div.next i false r) ∧ (Div.next i false r).remaining < r.remaining := by
  rw [Div.next, hv]
  exact SerialReg.Working.next h hd

theorem Working.c_eq (h : Working i r) (hd : r.done = true) :
    c i r.p = Rv64.remainder i.s i.w i.a i.b ++ Rv64.quot i.s i.w i.a i.b := by
  rw [(SerialReg.Working.of_done h hd).2]
  exact c_divided i

theorem Working.idle (h : Working i r) (hd : r.done = true) : (Div.next i false r).Idle :=
  (SerialReg.Working.of_done h hd).1.next

theorem idle_next (h : r.Idle) (hv : i.valid = false) : (Div.next i false r).Idle := by
  rw [Div.next, hv]
  exact h.next_of_not_valid

end Working

/-! ## Runs -/

/-- The divider, from its reset state, under any inputs. -/
def machine : Machine (SerialReg 128) SerialIn where
  init := {SerialReg.init}
  admits _ := Set.univ
  next r i := next i false r

/-- The divider on every trace of inputs: when it is done, for how long, and what
    it gives if its operands were constant since the load. -/
theorem div_correct {r : ℕ → SerialReg 128} {i : ℕ → SerialIn} (hr : machine.IsRun r i) (n : ℕ) :
    ((r n).done = true ↔
      ∃ m, n = m + 67 ∧ (r m).state = false ∧ ∀ k < 67, (i (m + k)).valid = true) ∧
    ((r n).done = true → (r (n + 1)).done = false) ∧
    ((r n).done = true →
      (∀ k, n - 66 ≤ k → k ≤ n →
        (i k).a = (i n).a ∧ (i k).b = (i n).b ∧ (i k).s = (i n).s ∧ (i k).w = (i n).w) →
      (c (i n) (r n).p).extractLsb 63 0 = Rv64.quot (i n).s (i n).w (i n).a (i n).b ∧
        (c (i n) (r n).p).extractLsb 127 64 = Rv64.remainder (i n).s (i n).w (i n).a (i n).b) := by
  have hr' : (SerialReg.machine (fun i => 0#64 ++ num1 i) (fun i => shift (num2 i))
    SerialIn.valid).IsRun r i := ⟨hr.init, hr.admits, hr.next⟩
  refine ⟨SerialReg.done_iff_valid hr' n, SerialReg.not_done_succ hr', fun hd hconst => ?_⟩
  have hp : (r n).p = divided (i n) := by
    refine SerialReg.p_of_done hr' hd fun k hk hkn => ?_
    obtain ⟨ha, hb, hs, hw⟩ := hconst k hk hkn
    simp only [num1, num2, ha, hb, hs, hw, and_self]
  rw [hp, c_divided]
  constructor
  · apply BitVec.eq_of_toNat_eq
    rw [toNat_extractLsb, toNat_append]
    omega
  · apply BitVec.eq_of_toNat_eq
    rw [toNat_extractLsb, toNat_append]
    omega

/-- Dividing `-7` by `2`, for 67 cycles. -/
theorem div_correct_neg_seven :
    let i : SerialIn := ⟨true, -7#64, 2#64, true, false⟩
    (c i (machine.run SerialReg.init (fun _ => i) 67).p).extractLsb 63 0 = -3#64 ∧
      (c i (machine.run SerialReg.init (fun _ => i) 67).p).extractLsb 127 64 = -1#64 := by
  intro i
  have hr := machine.isRun_run (s := SerialReg.init) (i := fun _ => i) rfl fun _ => trivial
  have hd := (div_correct hr 67).1.2 ⟨0, rfl, rfl, fun _ _ => rfl⟩
  have hc := (div_correct hr 67).2.2 hd fun _ _ _ => ⟨rfl, rfl, rfl, rfl⟩
  rwa [show Rv64.quot i.s i.w i.a i.b = -3#64 by decide,
    show Rv64.remainder i.s i.w i.a i.b = -1#64 by decide] at hc

end Div

end RiscvCpu
