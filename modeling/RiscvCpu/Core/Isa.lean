import RiscvCpu.Core.Access
import RiscvCpu.Rv64.Hart

/-!
# The sequential machine as a hart

A step of the sequential machine (`Arch.step`) evaluates the network of the core, on words of
64 bits. On the encoding of an instruction, it is that of a hart, on bytes
(`Arch.hart_step`).
-/

namespace RiscvCpu

open Bits Bytes Rv64

theorem Msize.bits_of_bytes {size : Msize} {b : BitVec 3} (h : 2 ^ b.toNat = size.bytes) :
    b = size.bits := by
  cases size <;> revert b <;> decide

/-- Loads and stores are of 1, 2, 4 or 8 bytes. -/
theorem exists_size {i : Instr} {pc addr : BitVec 64} {x : BitVec 5 → BitVec 64} {n : ℕ}
    (h : (∃ s, .load addr n s ∈ (i.execute pc x).request) ∨
      ∃ d, .store addr n d ∈ (i.execute pc x).request) : ∃ size : Msize, size.bytes = n := by
  cases i with
  | load op imm rs1 rd =>
    rcases h with ⟨_, h⟩ | ⟨_, h⟩
    · obtain ⟨_, rfl, _⟩ := Request.load.inj (Option.some.inj h)
      cases op with
      | lb | lbu => exact ⟨.MSIZE1, rfl⟩
      | lh | lhu => exact ⟨.MSIZE2, rfl⟩
      | lw | lwu => exact ⟨.MSIZE4, rfl⟩
      | ld => exact ⟨.MSIZE8, rfl⟩
    · exact Request.noConfusion (Option.some.inj h)
  | store op imm rs2 rs1 =>
    rcases h with ⟨_, h⟩ | ⟨_, h⟩
    · exact Request.noConfusion (Option.some.inj h)
    · obtain ⟨_, rfl, _⟩ := Request.store.inj (Option.some.inj h)
      cases op with
      | sb => exact ⟨.MSIZE1, rfl⟩
      | sh => exact ⟨.MSIZE2, rfl⟩
      | sw => exact ⟨.MSIZE4, rfl⟩
      | sd => exact ⟨.MSIZE8, rfl⟩
  | mulDiv op w rs2 rs1 rd =>
    cases op <;> simp [Instr.execute, MulDivOp.request] at h
  | _ => simp [Instr.execute] at h

/-! ## Requests of the network -/

namespace Wires

variable {w : Wires}

theorem mem_requests_iff {r : Request} : r ∈ w.requests ↔
    (w.cu.dValid = true ∧ r = if w.cu.wmem then
        .store w.alu.result (2 ^ w.cu.dByte.toNat) w.rfq2
      else .load w.alu.result (2 ^ w.cu.dByte.toNat) w.cu.readSign) ∨
    (w.cu.mulValid = true ∧ r = .mul w.cu.mulW w.alua w.alub) ∨
    (w.cu.divValid = true ∧ r = .div w.cu.divSign w.cu.divW w.alua w.alub) := by
  rw [requests, List.mem_append, List.mem_append, or_assoc]
  cases w.cu.dValid <;> cases w.cu.mulValid <;> cases w.cu.divValid <;> simp

/-- Without a load or a store, there is no request on the data bus. -/
theorem not_dValid_of_requests
    (h : ∀ r ∈ w.requests, (∀ addr n s, r ≠ .load addr n s) ∧ ∀ addr n d, r ≠ .store addr n d) :
    w.cu.dValid = false := by
  by_contra hd
  have hr := h _ (mem_requests_iff.2 (.inl ⟨eq_true_of_ne_false hd, rfl⟩))
  cases hw : w.cu.wmem with
  | true => exact hr.2 _ _ _ (if_pos hw)
  | false => exact hr.1 _ _ _ (if_neg (ne_true_of_eq_false hw))

theorem of_load_mem {addr : BitVec 64} {n : ℕ} {s : Bool} (h : .load addr n s ∈ w.requests) :
    w.cu.dValid = true ∧ w.cu.wmem = false ∧ w.alu.result = addr ∧ 2 ^ w.cu.dByte.toNat = n ∧
      w.cu.readSign = s := by
  rcases mem_requests_iff.1 h with ⟨hd, hr⟩ | ⟨_, hr⟩ | ⟨_, hr⟩
  · cases hw : w.cu.wmem with
    | true =>
      rw [if_pos hw] at hr
      exact Request.noConfusion hr
    | false =>
      rw [if_neg (ne_true_of_eq_false hw), Request.load.injEq] at hr
      exact ⟨hd, rfl, hr.1.symm, hr.2.1.symm, hr.2.2.symm⟩
  · exact Request.noConfusion hr
  · exact Request.noConfusion hr

theorem of_store_mem {addr data : BitVec 64} {n : ℕ} (h : .store addr n data ∈ w.requests) :
    w.cu.dValid = true ∧ w.cu.wmem = true ∧ w.alu.result = addr ∧ 2 ^ w.cu.dByte.toNat = n ∧
      w.rfq2 = data := by
  rcases mem_requests_iff.1 h with ⟨hd, hr⟩ | ⟨_, hr⟩ | ⟨_, hr⟩
  · cases hw : w.cu.wmem with
    | true =>
      rw [if_pos hw, Request.store.injEq] at hr
      exact ⟨hd, rfl, hr.1.symm, hr.2.1.symm, hr.2.2.symm⟩
    | false =>
      rw [if_neg (ne_true_of_eq_false hw)] at hr
      exact Request.noConfusion hr
  · exact Request.noConfusion hr
  · exact Request.noConfusion hr

theorem of_mul_mem {word : Bool} {a b : BitVec 64} (h : .mul word a b ∈ w.requests) :
    w.mulIn.w = word ∧ w.mulIn.a = a ∧ w.mulIn.b = b := by
  rcases mem_requests_iff.1 h with ⟨_, hr⟩ | ⟨_, hr⟩ | ⟨_, hr⟩
  · split at hr <;> exact Request.noConfusion hr
  · rw [Request.mul.injEq] at hr
    exact ⟨hr.1.symm, hr.2.1.symm, hr.2.2.symm⟩
  · exact Request.noConfusion hr

theorem of_div_mem {s word : Bool} {a b : BitVec 64} (h : .div s word a b ∈ w.requests) :
    w.divIn.s = s ∧ w.divIn.w = word ∧ w.divIn.a = a ∧ w.divIn.b = b := by
  rcases mem_requests_iff.1 h with ⟨_, hr⟩ | ⟨_, hr⟩ | ⟨_, hr⟩
  · split at hr <;> exact Request.noConfusion hr
  · exact Request.noConfusion hr
  · rw [Request.div.injEq] at hr
    exact ⟨hr.1.symm, hr.2.1.symm, hr.2.2.1.symm, hr.2.2.2.symm⟩

end Wires

/-! ## Steps -/

theorem Regs.read_commit (regs : Regs) (write : Option (BitVec 5 × BitVec 64)) :
    (regs.commit write).read = setReg regs.read write := by
  funext r
  by_cases hr : r = 0#5
  · rw [hr, read_zero, setReg_zero regs.read_zero]
  · exact read_of_ne _ hr

namespace Arch

variable (t : Arch)

/-- What a programmer sees, on bytes. -/
def hart : Hart := ⟨t.pc, t.regs.read, t.regs.read_zero, t.mem.bytes⟩

/-- The four bytes at an aligned program counter are the instruction. -/
theorem read_pc (h : t.pc.toNat % 4 = 0) : t.hart.mem.read t.hart.pc 4 = t.instr := by
  have hr : t.mem.bytes.read t.pc 4 =
      (t.mem (t.pc >>> 3)).extractLsb' (8 * (t.pc.toNat % 8)) (8 * 4) :=
    t.mem.read_bytes (by omega)
  have hb : t.pc.getLsbD 2 = decide (t.pc.toNat % 8 = 4) := by
    rw [BitVec.getLsbD, Nat.testBit_eq_decide_div_mod_eq, decide_eq_decide]
    omega
  rw [instr, Words.fetch, hb]
  refine hr.trans ?_
  by_cases h4 : t.pc.toNat % 8 = 4
  · rw [if_pos (decide_eq_true h4), h4]
    rfl
  · rw [if_neg (ne_true_of_eq_false (decide_eq_false h4)), show t.pc.toNat % 8 = 0 by omega]
    rfl

section Step

variable {t : Arch} {i : Instr} {space : Set (BitVec 64)}

theorem implements (h : t.instr = i.encode) : Implements t.net (t.hart.effect i) := by
  rw [net, h]
  exact datapath_correct ..

theorem mem_requests_iff (h : t.instr = i.encode) {r : Request} :
    r ∈ t.net.requests ↔ r ∈ (t.hart.effect i).request := by
  rw [(implements h).requests]
  exact Option.mem_toList

/-- An aligned load or store is an access, with its request. -/
theorem exists_access (h : t.instr = i.encode) {r : Request} {addr : BitVec 64} {n : ℕ}
    (hr : r ∈ (t.hart.effect i).request) (ha : addr.toNat % n = 0)
    (hl : (∃ s, r = .load addr n s) ∨ ∃ d, r = .store addr n d) : ∃ a : Access,
      t.net.dreq = a.dreq ∧ r = if a.wmem then .store a.addr a.size.bytes a.rfq2
        else .load a.addr a.size.bytes a.readSign := by
  obtain ⟨size, rfl⟩ : ∃ size : Msize, size.bytes = n := by
    rcases hl with ⟨s, rfl⟩ | ⟨d, rfl⟩
    · exact exists_size (.inl ⟨s, hr⟩)
    · exact exists_size (.inr ⟨d, hr⟩)
  have hnet := (mem_requests_iff h).2 hr
  rcases hl with ⟨s, rfl⟩ | ⟨d, rfl⟩
  · obtain ⟨hd, hw, rfl, hs, rfl⟩ := Wires.of_load_mem hnet
    refine ⟨t.net.access size ha, (Wires.access_eq hd (Msize.bits_of_bytes hs) ha rfl).1, ?_⟩
    exact (if_neg (ne_true_of_eq_false hw)).symm
  · obtain ⟨hd, hw, rfl, hs, rfl⟩ := Wires.of_store_mem hnet
    refine ⟨t.net.access size ha, (Wires.access_eq hd (Msize.bits_of_bytes hs) ha rfl).1, ?_⟩
    exact (if_pos hw).symm

/-- The accesses of an instruction are in the memory. -/
theorem dreq_addr_mem (h : t.hart.Executes space i) (hv : t.net.dreq.valid = true) :
    t.net.dreq.addr ∈ space := by
  have hi : t.instr = i.encode := (t.read_pc h.aligned).symm.trans h.fetch
  have hr := (mem_requests_iff hi).1 (Wires.mem_requests_iff.2 (.inl ⟨hv, rfl⟩))
  cases hw : t.net.cu.wmem with
  | true =>
    rw [hw, if_pos rfl] at hr
    exact (h.valid _ hr).2
  | false =>
    rw [hw, if_neg Bool.false_ne_true] at hr
    exact (h.valid _ hr).2

theorem step_load (h : t.instr = i.encode) {addr : BitVec 64} {n : ℕ} {s : Bool}
    (hr : .load addr n s ∈ (t.hart.effect i).request) (ha : addr.toNat % n = 0) :
    t.step.mem.bytes = t.mem.bytes ∧ t.net.readdata (t.mem.word t.net.dreq.addr) =
      extend 64 s (t.mem.bytes.read addr n) := by
  obtain ⟨size, rfl⟩ := exists_size (.inl ⟨s, hr⟩)
  obtain ⟨hd, hw, rfl, hs, rfl⟩ := Wires.of_load_mem ((mem_requests_iff h).2 hr)
  obtain ⟨hmem, hread⟩ := t.step_access hd (Msize.bits_of_bytes hs) ha
  have hspec : (t.net.access size ha).spec t.mem.bytes = (t.mem.bytes,
      some (extend 64 t.net.cu.readSign (t.mem.bytes.read t.net.alu.result size.bytes))) :=
    if_neg (ne_true_of_eq_false hw)
  rw [hspec] at hmem hread
  exact ⟨hmem, hread _ rfl⟩

theorem step_store (h : t.instr = i.encode) {addr data : BitVec 64} {n : ℕ}
    (hr : .store addr n data ∈ (t.hart.effect i).request) (ha : addr.toNat % n = 0) :
    t.step.mem.bytes = t.mem.bytes.write addr n data := by
  obtain ⟨size, rfl⟩ := exists_size (.inr ⟨data, hr⟩)
  obtain ⟨hd, hw, rfl, hs, rfl⟩ := Wires.of_store_mem ((mem_requests_iff h).2 hr)
  obtain ⟨hmem, -⟩ := t.step_access hd (Msize.bits_of_bytes hs) ha
  have hspec : (t.net.access size ha).spec t.mem.bytes =
      (t.mem.bytes.write t.net.alu.result size.bytes t.net.rfq2, none) := if_pos hw
  rwa [hspec] at hmem

/-- An instruction that is no store keeps the memory. -/
theorem step_mem_of_not_dValid (h : t.net.cu.dValid = false) : t.step.mem = t.mem :=
  if_neg (ne_true_of_eq_false h)

theorem bytes_step (h : t.hart.Executes space i) (hi : t.instr = i.encode) :
    t.step.mem.bytes = (t.hart.effect i).mem t.mem.bytes := by
  have hmem := fun r => mem_requests_iff hi (r := r)
  rw [Effect.mem]
  cases hreq : (t.hart.effect i).request with
  | none =>
    rw [step_mem_of_not_dValid, Option.elim_none]
    refine Wires.not_dValid_of_requests fun r hr => ?_
    rw [hmem, hreq] at hr
    exact absurd hr (Option.not_mem_none r)
  | some r =>
    have hv := h.valid r hreq
    rw [Option.elim_some]
    cases r with
    | load addr n s => exact (step_load hi hreq hv.1).1
    | store addr n data => exact step_store hi hreq hv.1
    | _ =>
      refine congrArg Words.bytes (step_mem_of_not_dValid (Wires.not_dValid_of_requests ?_))
      intro r hr
      rw [hmem, hreq] at hr
      obtain rfl := Option.some.inj hr
      exact ⟨fun _ _ _ => Request.noConfusion, fun _ _ _ => Request.noConfusion⟩

/-- What is written back is the answer to what was asked. -/
theorem get_eq (h : t.hart.Executes space i) (hi : t.instr = i.encode) {w : BitVec 5 × Result}
    (hw : w ∈ (t.hart.effect i).write) :
    w.2.get (t.net.readdata (t.mem.word t.net.dreq.addr))
      (product t.net.mulIn.w t.net.mulIn.a t.net.mulIn.b)
      (quot t.net.divIn.s t.net.divIn.w t.net.divIn.a t.net.divIn.b)
      (remainder t.net.divIn.s t.net.divIn.w t.net.divIn.a t.net.divIn.b) =
    (t.hart.effect i).get t.mem.bytes w.2 := by
  have ha := i.answers_execute _ _ w hw
  have hmem := fun r => mem_requests_iff hi (r := r)
  rw [Effect.get]
  cases hres : w.2 with
  | value v => rfl
  | loaded =>
    rw [hres] at ha
    obtain ⟨addr, n, s, hr⟩ := ha
    have hr' : (t.hart.effect i).request = some (.load addr n s) := hr
    rw [hr']
    exact (step_load hi hr (h.valid _ hr).1).2
  | product =>
    rw [hres] at ha
    obtain ⟨word, a, b, hr⟩ := ha
    have hr' : (t.hart.effect i).request = some (.mul word a b) := hr
    obtain ⟨rfl, rfl, rfl⟩ := Wires.of_mul_mem ((hmem _).2 hr)
    rw [hr']
    rfl
  | quotient =>
    rw [hres] at ha
    obtain ⟨s, word, a, b, hr⟩ := ha
    have hr' : (t.hart.effect i).request = some (.div s word a b) := hr
    obtain ⟨rfl, rfl, rfl, rfl⟩ := Wires.of_div_mem ((hmem _).2 hr)
    rw [hr']
    rfl
  | remainder =>
    rw [hres] at ha
    obtain ⟨s, word, a, b, hr⟩ := ha
    have hr' : (t.hart.effect i).request = some (.div s word a b) := hr
    obtain ⟨rfl, rfl, rfl, rfl⟩ := Wires.of_div_mem ((hmem _).2 hr)
    rw [hr']
    rfl

theorem extractLsb_append (a b : BitVec 64) :
    (a ++ b).extractLsb 63 0 = b ∧ (a ++ b).extractLsb 127 64 = a := by
  constructor
  · apply BitVec.eq_of_getLsbD_eq
    intro k hk
    rw [BitVec.getLsbD_extractLsb, BitVec.getLsbD_append]
    grind
  · apply BitVec.eq_of_getLsbD_eq
    intro k hk
    rw [BitVec.getLsbD_extractLsb, BitVec.getLsbD_append]
    grind

/-- The register that is written, and its value. -/
theorem write_eq (h : t.hart.Executes space i) (hi : t.instr = i.encode) :
    t.net.write t.writeregdata = (t.hart.effect i).written t.mem.bytes := by
  rw [writeregdata, (implements hi).write, (extractLsb_append _ _).1, (extractLsb_append _ _).2,
    Effect.written]
  cases hw : (t.hart.effect i).write with
  | none => rfl
  | some w => exact congrArg (fun v => some (w.1, v)) (get_eq h hi hw)

/-- On the encoding of an instruction, a step of the network is one of the hart. -/
theorem hart_step (h : t.hart.Executes space i) : t.step.hart = t.hart.execute i := by
  have hi : t.instr = i.encode := (t.read_pc h.aligned).symm.trans h.fetch
  refine Hart.ext (implements hi).nextPc ?_ (bytes_step h hi)
  have hw := write_eq h hi
  exact (Regs.read_commit t.regs _).trans (congrArg (setReg t.regs.read) hw)

end Step

end Arch

end RiscvCpu
