import RiscvCpu.Execution
import RiscvCpu.Rv64.Ports

/-!
# The devices of the computer

Below its window, the memory model has the ports of some devices: a console, a timer, and a
few more. The computer runs programs with accesses to them, too (`executes_io`). What the
simulation prints is what the program stores to the console, in order, each character once
(`RunsPorts.printed`); and the timer is as the program has set it (`RunsPorts.clint`).
-/

namespace RiscvCpu

open Sync Rv64

namespace Ram

/-- The addresses that are read without a call. -/
def inputs : List (BitVec 64) :=
  [0x40600008#64, 0x38000000#64, 0x38004000#64, 0x3800bff8#64, 0x20003000#64, 0x23333008#64]

/-- What is printed. -/
inductive Output
  | char (c : BitVec 8)
  | pass
  deriving DecidableEq, Repr

/-- What is printed at the clock edge. -/
def output (s : Ram) (oreq : CbusReq) : Option Output :=
  if s.state = .WRITE then
    if s.addr = 0x40600004#64 then
      if oreq.strobe.getLsbD 4 then some (.char (oreq.data.extractLsb 39 32)) else none
    else if s.addr = 0x23333000#64 then
      if oreq.data = 0x233#64 ∧ oreq.strobe = 0xff#8 then some .pass else none
    else none
  else none

end Ram

/-- The registers of the timer that a program sets. -/
@[ext]
structure Clint where
  msip : Bool
  mtimecmp : BitVec 64

namespace Clint

/-- After the reset. -/
def init : Clint := ⟨false, BitVec.allOnes 64⟩

/-- A store sets a register as a whole. The bytes that are not stored become 0. -/
def exec (c : Clint) : Request → Clint
  | .store addr n data =>
    if addr = 0x38000000#64 then { c with msip := data.getLsbD 0 }
    else if addr = 0x38004000#64 then
      { c with mtimecmp := BitVec.ofNat 64 (data.toNat % 2 ^ (8 * n)) }
    else c
  | _ => c

/-- The word at an address, where it does not depend on the time or the switches. -/
def answer (c : Clint) (addr : BitVec 64) : Option (BitVec 64) :=
  if addr = 0x40600008#64 then some 0#64
  else if addr = 0x38000000#64 then some ((BitVec.ofBool c.msip).setWidth 64)
  else if addr = 0x38004000#64 then some c.mtimecmp
  else none

end Clint

namespace Ram

variable {s : Ram} {oreq : CbusReq} {switch : BitVec 32}

def clint (s : Ram) : Clint := ⟨s.msip, s.mtimecmp⟩

theorem rdata_of_answer {v : BitVec 64} (h : v ∈ s.clint.answer s.addr) : s.rdata switch = v := by
  rw [Clint.answer] at h
  rw [rdata]
  split_ifs at h ⊢ with h₁ h₂ h₃
  · exact Option.some.inj h
  · exact Option.some.inj h
  · exact Option.some.inj h
  all_goals exact absurd h (Option.not_mem_none v)

theorem clint_write : (s.tick.write oreq).clint =
    if s.addr = 0x38000000#64 then { s.clint with msip := oreq.data.getLsbD 0 }
    else if s.addr = 0x38004000#64 then { s.clint with mtimecmp := oreq.data }
    else s.clint := by
  have ht : s.tick.addr = s.addr := rfl
  rw [write, ht]
  split_ifs with h₁ h₂ h₃ h₄ <;> first | rfl | simp_all

theorem clint_next (random : BitVec 32) : (s.next oreq random false).clint =
    if s.state = .WRITE then (s.tick.write oreq).clint else s.clint := by
  have hadv : ∀ (r : Ram) addr, (r.advance addr).clint = r.clint := fun r addr => by
    rw [advance]
    split <;> rfl
  rw [next, Bool.not_false, if_pos rfl]
  cases s.state with
  | NONE => by_cases hv : oreq.valid = true <;> simp [hv, tick, clint]
  | WAIT => by_cases hc : s.countDown = 0#8 <;> simp [hc, tick, start, clint]
  | READ => exact hadv ..
  | WRITE => exact hadv ..

end Ram

/-- The ports of the devices. -/
def ports : Set Request := {r | match r with
  | .load addr _ _ => addr ∈ Ram.inputs
  | .store addr _ _ => addr ∈ Ram.devices
  | _ => False}

/-- What a store to a port prints. -/
def printed : Request → Option Ram.Output
  | .store addr n data =>
    if addr = 0x40600004#64 then some (.char (data.setWidth 8))
    else if addr = 0x23333000#64 ∧ n = 8 ∧ data = 0x233#64 then some .pass
    else none
  | _ => none

section Ports

variable {r : Request} {addr : BitVec 64}

/-- The ports are below the window. -/
theorem lt_of_port (hp : r ∈ ports) (ha : r.address = some addr) : addr < 0x80000000#64 := by
  have hall : ∀ a ∈ Ram.inputs ++ Ram.devices, a < 0x80000000#64 := by
    simp [Ram.inputs, Ram.devices]
  refine hall addr (List.mem_append.2 ?_)
  cases r with
  | load a n s =>
    obtain rfl : a = addr := Option.some.inj ha
    exact .inl hp
  | store a n d =>
    obtain rfl : a = addr := Option.some.inj ha
    exact .inr hp
  | mul | div => exact hp.elim

theorem not_window_of_lt (h : addr < 0x80000000#64) : addr ∉ window := fun hw =>
  absurd (BitVec.lt_def.1 h) (BitVec.le_def.1 hw.1).not_gt

theorem wordIdx_of_lt (h : addr < 0x80000000#64) : Ram.wordIdx addr = 0#64 :=
  if_neg fun hgt => absurd (BitVec.lt_def.1 h) (BitVec.lt_def.1 hgt).not_gt

/-- In the window, nothing is printed. -/
theorem printed_of_window (hr : r.Valid window) : printed r = none := by
  cases r with
  | store a n d =>
    have hne : ∀ d : BitVec 64, d < 0x80000000#64 → a ≠ d := fun d hd h =>
      not_window_of_lt hd (h ▸ hr.2)
    rw [printed, if_neg (hne _ (by decide)), if_neg fun h => hne _ (by decide) h.1]
  | _ => rfl

/-- In the window, the timer is not set. -/
theorem Clint.exec_of_window (c : Clint) (hr : r.Valid window) : c.exec r = c := by
  cases r with
  | store a n d =>
    have hne : ∀ d : BitVec 64, d < 0x80000000#64 → a ≠ d := fun d hd h =>
      not_window_of_lt hd (h ▸ hr.2)
    rw [exec, if_neg (hne _ (by decide)), if_neg (hne _ (by decide))]
  | _ => rfl

end Ports

section Instr

variable (h : Hart) (instr : Instr)

/-- What an instruction prints. -/
def prints : Option Ram.Output := (h.effect instr).request.bind printed

/-- The timer after an instruction. -/
def sets (c : Clint) : Clint := (h.effect instr).request.elim c c.exec

variable {h instr}

theorem prints_of_executes (hx : h.Executes window instr) : prints h instr = none := by
  cases hr : (h.effect instr).request with
  | none => rw [prints, hr, Option.bind_none]
  | some r => rw [prints, hr, Option.bind_some, printed_of_window (hx.valid r hr)]

theorem sets_of_executes {c : Clint} (hx : h.Executes window instr) : sets h instr c = c := by
  cases hr : (h.effect instr).request with
  | none => rw [sets, hr, Option.elim_none]
  | some r => rw [sets, hr, Option.elim_some, c.exec_of_window (hx.valid r hr)]

end Instr

namespace Words

theorem wmask_ones : wmask 0xff#8 = BitVec.allOnes 64 := by decide

/-- With the word at an address. -/
def see (m : Words) (addr data : BitVec 64) : Words :=
  m.writeHelper (addr >>> 3) data (wmask 0xff#8)

variable {m : Words} {addr data : BitVec 64}

theorem word_see : (m.see addr data).word addr = data := by
  rw [word, readHelper, see, writeHelper_self, wmask_ones, BitVec.not_allOnes, BitVec.and_zero,
    BitVec.zero_or, BitVec.and_allOnes]

theorem fetch_see {pc : BitVec 64} (h : pc >>> 3 ≠ addr >>> 3) :
    (m.see addr data).fetch pc = m.fetch pc := by
  have hw : (m.see addr data).word pc = m.word pc := writeHelper_of_ne _ _ _ h
  rw [fetch, fetch, hw]

theorem bytes_see : (m.see addr data).bytes = m.bytes.write (addr >>> 3 <<< 3) 8 data := by
  have hlt := addr.isLt
  have hn : (addr >>> 3 <<< 3).toNat = addr.toNat / 8 * 8 := by
    rw [BitVec.toNat_shiftLeft, BitVec.toNat_ushiftRight, Nat.shiftRight_eq_div_pow,
      Nat.shiftLeft_eq]
    omega
  have hs : addr >>> 3 <<< 3 >>> 3 = addr >>> 3 := by
    apply BitVec.eq_of_toNat_eq
    rw [BitVec.toNat_ushiftRight, hn, BitVec.toNat_ushiftRight, Nat.shiftRight_eq_div_pow,
      Nat.shiftRight_eq_div_pow]
    omega
  have h0 : (addr >>> 3 <<< 3).toNat % 8 = 0 := by omega
  have hle : (addr >>> 3 <<< 3).toNat % 8 + 8 ≤ 8 := by omega
  refine (congrArg (fun idx => (m.writeHelper idx data (wmask 0xff#8)).bytes) hs.symm).trans ?_
  refine m.bytes_writeHelper hle (fun k hk => ?_) fun k _ => by rw [h0, Nat.zero_add]
  rw [decide_eq_true (by omega)]
  interval_cases k <;> rfl

end Words

namespace Stack

/-- A write is the beat of a store, which is answered. -/
theorem Inv.answers_of_write {s : Stack} {i : In} (h : Inv s i) (hs : s.ram.state = .WRITE) :
    s.answers i 0 = true := by
  cases h with
  | free _ hram => simp [hram] at hs
  | busy k hb hk _ hram =>
    cases hram with
    | none hn => simp [hn] at hs
    | wait hw _ => simp [hw] at hs
    | beat hbeat =>
      match k with
      | 0 =>
        rw [answers, Arbiter.iresps_self hb hk, DBusToCBus.okay, oresp, hbeat.oresp,
          Bool.and_self]
      | 1 => exact RamState.noConfusion (hbeat.state.symm.trans hs)

end Stack

namespace Access

variable {a : Access} {ram : Ram}

/-- All lanes are those of a store of 8 bytes. -/
theorem strobe_eq_ones_iff (h : a.wmem = true) : a.dreq.strobe = 0xff#8 ↔ a.size.bytes = 8 := by
  have hle := a.lane_add_le
  constructor
  · intro hs
    have hbit := fun k (hk : k < 8) => a.getLsbD_strobe h hk
    have h0 := hbit 0 (by omega)
    have h7 := hbit 7 (by omega)
    rw [hs] at h0 h7
    have h0' := of_decide_eq_true h0.symm
    have h7' := of_decide_eq_true h7.symm
    omega
  · intro hs
    apply BitVec.eq_of_getLsbD_eq
    intro k hk
    rw [a.getLsbD_strobe h hk, decide_eq_true (by omega)]
    interval_cases k <;> rfl

theorem data_of_ones (h : a.wmem = true) (hs : a.size.bytes = 8) : a.dreq.data = a.rfq2 := by
  have hsize : a.size = .MSIZE8 := by
    cases hc : a.size <;> rw [hc] at hs <;> first | rfl | exact absurd hs (by decide)
  rw [dreq, wd, h, hsize]
  rfl

/-- The beat of a store prints what the store prints. -/
theorem output_eq (h : a.wmem = true) (hs : ram.state = .WRITE) (ha : ram.addr = a.addr) :
    ram.output (DBusToCBus.dcreq a.dreq) = printed (.store a.addr a.size.bytes a.rfq2) := by
  rw [Ram.output, if_pos hs, ha, printed]
  by_cases hchar : a.addr = 0x40600004#64
  · -- The character is the first byte that is stored.
    have hlane : a.addr.toNat % 8 = 4 := by rw [hchar]; rfl
    have hn : 0 < a.size.bytes := by cases a.size <;> decide
    have hbit : a.dreq.strobe.getLsbD 4 = true := by
      rw [a.getLsbD_strobe h (by omega), hlane]
      exact decide_eq_true (by omega)
    have hbyte : a.dreq.data.extractLsb' (8 * (4 + 0)) 8 = a.rfq2.extractLsb' 0 8 := by
      have hb := byte_wd (a.addr.extractLsb 2 0) a.rfq2 a.size hn
      rw [lane_eq, hlane] at hb
      rw [dreq, wd, h]
      exact hb
    rw [if_pos hchar, if_pos hchar]
    refine (if_pos hbit).trans (congrArg (some ∘ Ram.Output.char) (hbyte.trans ?_))
    exact (BitVec.setWidth_eq_extractLsb' (by omega)).symm
  · rw [if_neg hchar, if_neg hchar]
    by_cases hpass : a.addr = 0x23333000#64
    · rw [if_pos hpass]
      refine if_congr ?_ rfl rfl
      have hdata : (DBusToCBus.dcreq a.dreq).data = a.dreq.data := rfl
      have hstrobe : (DBusToCBus.dcreq a.dreq).strobe = a.dreq.strobe := rfl
      rw [hdata, hstrobe, strobe_eq_ones_iff h]
      constructor
      · exact fun hd => ⟨hpass, hd.2, (data_of_ones h hd.2).symm.trans hd.1⟩
      · exact fun hd => ⟨(data_of_ones h hd.2.1).trans hd.2.2, hd.2.1⟩
    · rw [if_neg hpass, if_neg fun hd => hpass hd.1]

/-- The beat of a store sets what the store sets. -/
theorem clint_eq (h : a.wmem = true) (hs : ram.state = .WRITE) (ha : ram.addr = a.addr)
    (random : BitVec 32) : (ram.next (DBusToCBus.dcreq a.dreq) random false).clint =
      ram.clint.exec (.store a.addr a.size.bytes a.rfq2) := by
  rw [Ram.clint_next, if_pos hs, Ram.clint_write, ha, Clint.exec]
  -- The registers are at the first lane.
  have hdata : a.addr.toNat % 8 = 0 → (DBusToCBus.dcreq a.dreq).data.toNat =
      a.rfq2.toNat % 2 ^ (8 * a.size.bytes) := fun h0 => by
    have hwd := toNat_wd (a.addr.extractLsb 2 0) a.rfq2 a.size
    rw [lane_eq, h0, Nat.mul_zero, pow_zero, Nat.mul_one] at hwd
    change a.dreq.data.toNat = _
    rw [dreq, wd, h]
    exact hwd
  have hn : 0 < a.size.bytes := by cases a.size <;> decide
  by_cases hmsip : a.addr = 0x38000000#64
  · have hbit : (DBusToCBus.dcreq a.dreq).data.getLsbD 0 = a.rfq2.getLsbD 0 := by
      rw [BitVec.getLsbD, hdata (by rw [hmsip]; rfl), Nat.testBit_mod_two_pow,
        decide_eq_true (by omega), Bool.true_and]
      rfl
    rw [if_pos hmsip, if_pos hmsip, hbit]
  · by_cases hcmp : a.addr = 0x38004000#64
    · have hword : (DBusToCBus.dcreq a.dreq).data =
          BitVec.ofNat 64 (a.rfq2.toNat % 2 ^ (8 * a.size.bytes)) := by
        rw [← hdata (by rw [hcmp]; rfl), BitVec.ofNat_toNat, BitVec.setWidth_eq]
      rw [if_neg hmsip, if_neg hmsip, if_pos hcmp, if_pos hcmp, hword]
    · rw [if_neg hmsip, if_neg hmsip, if_neg hcmp, if_neg hcmp]

end Access

namespace SimTop

/-! ## One cycle -/

/-- The core, and its memory with a port. -/
def see (s : SimTop) (addr data : BitVec 64) : Computer := ⟨s.core, s.computer.mem.see addr data⟩

section Cycle

variable {s : SimTop} {i : In} {instr : Instr} {r : Request} {addr data : BitVec 64}

theorem hart_see : (s.see addr data).arch.hart = s.hart.see addr data :=
  Hart.ext rfl rfl Words.bytes_see

/-- The port is not in the word that is fetched. -/
theorem fetch_see (hx : s.hart.Fetches window instr) (ha : addr ∉ window) :
    (s.see addr data).mem.fetch s.core.pc = s.computer.mem.fetch s.core.pc :=
  Words.fetch_see fun h => ha (wordClosed_window s.core.pc hx.mem addr h.symm)

/-- The instruction makes the request of the access on the data bus. -/
theorem exists_access (hx : s.hart.Transfers window ports addr instr r)
    (hi : s.core.instr (s.coreIn i) = s.computer.arch.instr) :
    ∃ a : Access, s.dreq i = a.dreq ∧ a.addr = addr ∧
      r = if a.wmem then .store a.addr a.size.bytes a.rfq2
        else .load a.addr a.size.bytes a.readSign := by
  have hdreq : s.dreq i = s.computer.arch.net.dreq := by
    rw [dreq, Core.dreq, Core.net, hi]
    exact wires_dreq_congr ..
  have hinstr : s.computer.arch.instr = instr.encode :=
    (s.computer.arch.read_pc hx.fetches.aligned).symm.trans hx.fetches.fetch
  obtain ⟨a, ha, hr⟩ : ∃ a : Access, s.computer.arch.net.dreq = a.dreq ∧
      r = if a.wmem then .store a.addr a.size.bytes a.rfq2
        else .load a.addr a.size.bytes a.readSign := by
    cases hr : r with
    | load a n sign =>
      have hv := hx.valid
      rw [hr] at hv
      exact Arch.exists_access hinstr (hr ▸ hx.request) hv.1 (.inl ⟨sign, rfl⟩)
    | store a n d =>
      have hv := hx.valid
      rw [hr] at hv
      exact Arch.exists_access hinstr (hr ▸ hx.request) hv.1 (.inr ⟨d, rfl⟩)
    | mul | div =>
      have ha := hx.address
      rw [hr] at ha
      exact absurd ha (Option.some_ne_none addr).symm
  refine ⟨a, hdreq.trans ha, ?_, hr⟩
  have haddr := hx.address
  rw [hr] at haddr
  split_ifs at haddr <;> exact Option.some.inj haddr

/-- The request on the data bus is that of the access. -/
theorem Sound.exists_access (h : Sound s) (hx : s.hart.Transfers window ports addr instr r)
    (hv : (s.dreq i).valid = true) : ∃ a : Access, s.dreq i = a.dreq ∧ a.addr = addr ∧
      r = if a.wmem then .store a.addr a.size.bytes a.rfq2
        else .load a.addr a.size.bytes a.readSign :=
  SimTop.exists_access hx (h.instr_eq hx.fetches hv)

/-- The beat of the memory is at the port, or it is a fetch. -/
theorem Sound.addr_of_port (h : Sound s) (hx : s.hart.Transfers window ports addr instr r) (i : In)
    (hs : s.stack.ram.state = .READ ∨ s.stack.ram.state = .WRITE) :
    s.stack.ram.addr = addr ∨ s.stack.ram.state = .READ ∧ s.stack.ram.addr ∈ window := by
  cases h.inv.stack i with
  | free _ hram => simp [hram] at hs
  | busy k _ _ hv hram =>
    cases hram with
    | none hn => simp [hn] at hs
    | wait hw _ => simp [hw] at hs
    | beat hb =>
      rw [hb.addr]
      match k with
      | 0 =>
        obtain ⟨a, hdreq, ha, _⟩ := h.exists_access hx hv
        exact .inl ((congrArg DbusReq.addr hdreq).trans ha)
      | 1 => exact .inr ⟨hb.state, hx.fetches.mem⟩

/-- A store to a port leaves the memory alone. -/
theorem Sound.mem_next (h : Sound s) (hx : s.hart.Transfers window ports addr instr r) :
    (s.next i false).stack.ram.mem = s.stack.ram.mem := by
  have hstack := h.inv.stack i
  change (s.stack.next (s.stackIn i) false).ram.mem = _
  cases h0 : s.stack.answers (s.stackIn i) 0 with
  | true =>
    obtain ⟨-, -, hv, hbeat⟩ := hstack.of_answers h0
    obtain ⟨a, hdreq, ha, hr⟩ := h.exists_access hx hv
    rw [(hstack.answer h0).2.2]
    split_ifs with hw
    · have hwmem : a.wmem = true := by
        rw [← a.isWrite_eq, ← hdreq]
        exact hw
      have haddr : s.stack.ram.addr = addr :=
        hbeat.addr.trans ((congrArg DbusReq.addr hdreq).trans ha)
      rw [if_pos hwmem] at hr
      have hp := hx.port
      rw [hr] at hp
      rw [Ram.mem_write, haddr, ← ha]
      exact if_pos hp
    · rfl
  | false =>
    cases h1 : s.stack.answers (s.stackIn i) 1 with
    | true => exact (hstack.answer h1).2.2
    | false => exact hstack.mem_of_not_answers fun | 0 => h0 | 1 => h1

/-- The stack answers as the memory with the port. -/
theorem Sound.see_admits (h : Sound s) (hx : s.hart.Transfers window ports addr instr r) :
    s.coreIn i ∈ Computer.machine.admits (s.see addr (s.stack.ram.rdata i.switch)) := by
  refine ⟨h.inv.admits, fun hf => ?_, fun hd hs => ?_⟩
  · exact (h.iresp_data hx.fetches hf).trans (fetch_see hx.fetches hx.not_mem).symm
  · obtain ⟨hb, hk, hv, hbeat⟩ := (h.inv.stack i).of_answers (k := 0) hd
    obtain ⟨a, hdreq, ha, -⟩ := h.exists_access hx hv
    have hw : (DBusToCBus.dcreq (s.dreq i)).isWrite = false := bne_eq_false_iff_eq.2 hs
    have haddr : (s.dreq i).addr = addr := (congrArg DbusReq.addr hdreq).trans ha
    change (s.stack.arbiter.iresps (s.stack.oresp i.switch) 0).data =
      Words.word (s.see addr _).mem (s.dreq i).addr
    rw [Arbiter.iresps_self hb hk, Stack.oresp, hbeat.oresp, haddr, see, Words.word_see]
    exact if_neg (ne_true_of_eq_false hw)

theorem Sound.see_sound (h : Sound s) (hx : s.hart.Fetches window instr) (ha : addr ∉ window) :
    Computer.Sound (s.see addr data) := by
  cases h.sound with
  | fetching hp hcurr => exact .fetching hp hcurr
  | executing hp hcurr => exact .executing hp (hcurr.trans (fetch_see hx ha).symm)

/-- In a cycle with a port, the computer does the access if it commits, and nothing else. -/
theorem Sound.next_transfer (h : Sound s) (hx : s.hart.Transfers window ports addr instr r) :
    Sound (s.next i false) ∧ (s.next i false).hart =
      if s.commit i then s.hart.transfer addr (s.stack.ram.rdata i.switch) instr
      else s.hart := by
  -- The cycle is one of the computer that has the port in its memory.
  obtain ⟨c, hc⟩ : ∃ c, c = s.see addr (s.stack.ram.rdata i.switch) := ⟨_, rfl⟩
  have hadm : s.coreIn i ∈ Computer.machine.admits c := hc ▸ h.see_admits hx
  have hsound : Computer.Sound c := hc ▸ h.see_sound hx.fetches hx.not_mem
  have hfetch : c.arch.instr = s.computer.arch.instr := hc ▸ fetch_see hx.fetches hx.not_mem
  have hl : Legal c.arch.instr := hfetch ▸ legal hx.fetches
  have hhart : c.arch.hart = s.hart.see addr (s.stack.ram.rdata i.switch) := hc ▸ hart_see
  have hcommit : c.commit (s.coreIn i) = s.commit i := hc ▸ rfl
  have hcore : (s.next i false).computer.core = (Computer.machine.next c (s.coreIn i)).core :=
    hc ▸ rfl
  have hmem : (s.next i false).computer.mem = s.computer.mem :=
    congrArg Words.rebase (h.mem_next hx)
  refine ⟨⟨inductive_inv.step _ h.inv i trivial, ?_⟩, ?_⟩
  · cases hsound.next hl hadm with
    | fetching hp hcurr => exact .fetching (hcore ▸ hp) (hcore ▸ hcurr)
    | executing hp hcurr =>
      -- A commit would have made the core fetch.
      have hwait : s.commit i = false := by
        by_contra hcm
        have hv := (Core.next_of_hold (eq_true_of_ne_false hcm)).2.1
        exact absurd hv (ne_true_of_eq_false (hcore ▸ hp).ireqValid)
      have harch := Computer.arch_next_of_wait hsound hadm (hcommit.trans hwait)
      have hpc : (s.next i false).core.pc = s.core.pc := (Core.next_of_not_hold hwait).1
      have hinstr : (s.next i false).computer.arch.instr = s.computer.arch.instr :=
        (congrArg (Words.fetch _) hpc).trans (congrArg (fun m => Words.fetch m s.core.pc) hmem)
      refine .executing (hcore ▸ hp) ?_
      rw [hcore, hcurr, harch, hfetch, hinstr]
  · have hnext : (Computer.machine.next c (s.coreIn i)).arch.hart =
        if s.commit i then c.arch.hart.execute instr else c.arch.hart := by
      cases hcm : s.commit i with
      | true =>
        rw [if_pos rfl, Computer.arch_next_of_commit hsound hl hadm (hcommit.trans hcm)]
        exact Arch.hart_step (hhart ▸ hx.executes_see wordClosed_window)
      | false =>
        rw [if_neg Bool.false_ne_true, Computer.arch_next_of_wait hsound hadm (hcommit.trans hcm)]
    have hpc : (s.next i false).hart.pc = (Computer.machine.next c (s.coreIn i)).arch.hart.pc :=
      congrArg Core.pc hcore
    have hregs : (s.next i false).hart.x = (Computer.machine.next c (s.coreIn i)).arch.hart.x :=
      congrArg (fun core : Core => core.regs.read) hcore
    have hbytes : (s.next i false).hart.mem = s.hart.mem := congrArg Words.bytes hmem
    rw [hnext, hhart] at hpc hregs
    cases hcm : s.commit i with
    | true =>
      rw [hcm, if_pos rfl] at hpc hregs
      exact Hart.ext hpc hregs hbytes
    | false =>
      rw [hcm, if_neg Bool.false_ne_true] at hpc hregs
      exact Hart.ext hpc hregs hbytes

/-- A commit comes with the answer. -/
theorem Sound.answers_of_commit (h : Sound s)
    (hx : s.hart.Transfers window ports addr instr r) (hc : s.commit i = true) :
    s.stack.answers (s.stackIn i) 0 = true := by
  have hadm := h.see_admits hx (i := i)
  have hsound : Computer.Sound (s.see addr (s.stack.ram.rdata i.switch)) :=
    h.see_sound hx.fetches hx.not_mem
  have hinstr : s.core.instr (s.coreIn i) = s.computer.arch.instr :=
    (hsound.instr_eq hadm (hsound.dataOk_of_commit hadm hc)).trans (fetch_see hx.fetches hx.not_mem)
  obtain ⟨a, hdreq, -⟩ := SimTop.exists_access hx hinstr
  refine hsound.dresp_of_commit hadm hc ((Core.dreq_valid s.core (s.coreIn i)).symm.trans ?_)
  exact congrArg DbusReq.valid hdreq

/-- With a commit, the memory is in the beat of the access. -/
theorem Sound.beat_of_commit (h : Sound s) (hx : s.hart.Transfers window ports addr instr r)
    (hc : s.commit i = true) : ∃ a : Access, s.oreq i = DBusToCBus.dcreq a.dreq ∧
      s.stack.ram.addr = a.addr ∧ s.stack.ram.state = (if a.wmem then .WRITE else .READ) ∧
      r = if a.wmem then .store a.addr a.size.bytes a.rfq2
        else .load a.addr a.size.bytes a.readSign := by
  obtain ⟨hb, hk, hv, hbeat⟩ := (h.inv.stack i).of_answers (h.answers_of_commit hx hc)
  obtain ⟨a, hdreq, -, hr⟩ := h.exists_access hx hv
  have hw : ((s.stackIn i).ireqs 0).isWrite = a.wmem :=
    (congrArg (fun d => (DBusToCBus.dcreq d).isWrite) hdreq).trans a.isWrite_eq
  refine ⟨a, ?_, ?_, ?_, hr⟩
  · exact (Arbiter.oreq_of_busy _ hb hk).trans (congrArg DBusToCBus.dcreq hdreq)
  · exact hbeat.addr.trans (congrArg DbusReq.addr hdreq)
  · rw [← hw]
    exact hbeat.state

/-- A write is committed in its beat. -/
theorem Sound.commit_of_write (h : Sound s) (hs : s.stack.ram.state = .WRITE) :
    s.commit i = true := by
  have hd : (s.coreIn i).dresp.dataOk = true := (h.inv.stack i).answers_of_write hs
  refine (Core.ifHoldPc_eq ..).trans ?_
  rw [hd, Bool.or_true, Bool.true_or, Bool.true_or]

/-- The memory prints what the instruction prints, in the cycle of its commit. -/
theorem Sound.output_of_transfers (h : Sound s)
    (hx : s.hart.Transfers window ports addr instr r) : s.stack.ram.output (s.oreq i) =
      if s.commit i then printed r else none := by
  cases hc : s.commit i with
  | true =>
    obtain ⟨a, ho, ha, hs, hr⟩ := h.beat_of_commit hx hc
    rw [if_pos rfl, ho, hr]
    cases hw : a.wmem with
    | true => exact Access.output_eq hw (by rw [hs, hw, if_pos rfl]) ha
    | false => exact if_neg (by simp [hs, hw])
  | false =>
    rw [if_neg Bool.false_ne_true]
    exact if_neg fun hs => absurd (h.commit_of_write hs) (ne_true_of_eq_false hc)

/-- The registers of the timer are set by the commit. -/
theorem Sound.clint_of_transfers (h : Sound s)
    (hx : s.hart.Transfers window ports addr instr r) : (s.next i false).stack.ram.clint =
      if s.commit i then s.stack.ram.clint.exec r else s.stack.ram.clint := by
  change (s.stack.ram.next (s.oreq i) i.random false).clint = _
  cases hc : s.commit i with
  | true =>
    obtain ⟨a, ho, ha, hs, hr⟩ := h.beat_of_commit hx hc
    rw [if_pos rfl, ho, hr]
    cases hw : a.wmem with
    | true => exact Access.clint_eq hw (by rw [hs, hw, if_pos rfl]) ha _
    | false =>
      rw [Ram.clint_next, if_neg (by simp [hs, hw])]
      rfl
  | false =>
    rw [if_neg Bool.false_ne_true, Ram.clint_next, if_neg fun hs => ?_]
    exact absurd (h.commit_of_write hs) (ne_true_of_eq_false hc)

/-- What is loaded with the commit. -/
theorem Sound.rdata_of_transfers {v : BitVec 64} (h : Sound s)
    (hx : s.hart.Transfers window ports addr instr r) (hc : s.commit i = true)
    (hv : v ∈ s.stack.ram.clint.answer addr) : s.stack.ram.rdata i.switch = v := by
  obtain ⟨a, -, ha, -, hr⟩ := h.beat_of_commit hx hc
  refine Ram.rdata_of_answer ?_
  have haddr := hx.address
  rw [hr] at haddr
  rw [ha]
  split_ifs at haddr
  · obtain rfl := Option.some.inj haddr
    exact hv
  · obtain rfl := Option.some.inj haddr
    exact hv

/-- A program in the window neither prints, nor sets the timer. -/
theorem Sound.quiet_of_executes (h : Sound s) (hx : s.hart.Executes window instr) :
    s.stack.ram.output (s.oreq i) = none ∧
      (s.next i false).stack.ram.clint = s.stack.ram.clint := by
  change _ ∧ (s.stack.ram.next (s.oreq i) i.random false).clint = _
  rw [Ram.clint_next, Ram.clint_write]
  by_cases hs : s.stack.ram.state = .WRITE
  · have hne : ∀ d : BitVec 64, d < 0x80000000#64 → s.stack.ram.addr ≠ d := fun d hd ha =>
      not_window_of_lt hd (ha ▸ h.addr_mem i hx (.inr hs))
    rw [Ram.output, if_pos hs, if_neg (hne _ (by decide)), if_neg (hne _ (by decide)), if_pos hs,
      if_neg (hne _ (by decide)), if_neg (hne _ (by decide))]
    exact ⟨rfl, rfl⟩
  · exact ⟨if_neg hs, if_neg hs⟩

/-- One cycle, with the data that come from a port. -/
theorem Sound.next_io {hart' : Hart} {data : BitVec 64} (h : Sound s)
    (hx : s.hart.PortStep window ports data instr hart')
    (hd : s.commit i = true → data = s.stack.ram.rdata i.switch) :
    Sound (s.next i false) ∧ (s.next i false).hart = (if s.commit i then hart' else s.hart) ∧
      s.stack.ram.output (s.oreq i) = (if s.commit i then prints s.hart instr else none) ∧
      (s.next i false).stack.ram.clint =
        if s.commit i then sets s.hart instr s.stack.ram.clint else s.stack.ram.clint := by
  cases hx with
  | execute hx =>
    obtain ⟨hsound, hhart⟩ := h.next hx (i := i)
    obtain ⟨hout, hclint⟩ := h.quiet_of_executes hx (i := i)
    refine ⟨hsound, hhart, ?_, ?_⟩
    · rw [hout, prints_of_executes hx, ite_self]
    · rw [hclint, sets_of_executes hx, ite_self]
  | transfer hx =>
    obtain ⟨hsound, hhart⟩ := h.next_transfer hx (i := i)
    refine ⟨hsound, hhart.trans ?_, ?_, ?_⟩
    · cases hc : s.commit i with
      | true => rw [if_pos rfl, if_pos rfl, hd hc]
      | false => rw [if_neg Bool.false_ne_true, if_neg Bool.false_ne_true]
    · rw [h.output_of_transfers hx, prints, hx.request]
      rfl
    · rw [h.clint_of_transfers hx, sets, hx.request]
      rfl

/-- What is loaded with the commit is what the device answers. -/
theorem Sound.rdata_io {hart' : Hart} {data v : BitVec 64} {n : ℕ} {sign : Bool} (h : Sound s)
    (hx : s.hart.PortStep window ports data instr hart') (hc : s.commit i = true)
    (hr : .load addr n sign ∈ (s.hart.effect instr).request)
    (hv : v ∈ s.stack.ram.clint.answer addr) : s.stack.ram.rdata i.switch = v := by
  cases hx with
  | execute hx =>
    have hne : ∀ d : BitVec 64, d < 0x80000000#64 → addr ≠ d := fun d hd h =>
      not_window_of_lt hd (h ▸ (hx.valid _ hr).2)
    rw [Clint.answer, if_neg (hne _ (by decide)), if_neg (hne _ (by decide)),
      if_neg (hne _ (by decide))] at hv
    exact absurd hv (Option.not_mem_none v)
  | transfer hx =>
    obtain rfl := Option.some.inj (hx.request.symm.trans hr)
    obtain rfl := Option.some.inj hx.address
    exact h.rdata_of_transfers hx hc hv

/-- The array of the emulator has the word of every beat. -/
theorem Sound.idx_lt {hart' : Hart} {data : BitVec 64} (h : Sound s)
    (hx : s.hart.PortStep window ports data instr hart') (i : In)
    (hs : s.stack.ram.state = .READ ∨ s.stack.ram.state = .WRITE) :
    s.stack.ram.idx.toNat < EMU_RAM_WORDS := by
  cases hx with
  | execute hx => exact wordIdx_lt_of_mem (h.addr_mem i hx hs)
  | transfer hx =>
    rcases h.addr_of_port hx i hs with ha | ⟨-, hw⟩
    · rw [Ram.idx, ha, wordIdx_of_lt (lt_of_port hx.port hx.address)]
      decide
    · exact wordIdx_lt_of_mem hw

end Cycle

/-! ## Runs -/

section Run

variable {s : ℕ → SimTop} {i : ℕ → In} {x : ℕ → Hart} {instr : ℕ → Instr} {data : ℕ → BitVec 64}

/-- The number of instructions that are committed before the cycle `n`. -/
def committed (s : ℕ → SimTop) (i : ℕ → In) (n : ℕ) : ℕ :=
  Nat.count (fun k => (s k).commit (i k) = true) n

theorem committed_succ (n : ℕ) : committed s i (n + 1) =
    if (s n).commit (i n) then committed s i n + 1 else committed s i n := by
  rw [committed, Nat.count_succ, ← committed]
  split_ifs <;> rfl

/-- The data are what the memory has at its port when the instruction is committed. -/
def Reads (s : ℕ → SimTop) (i : ℕ → In) (data : ℕ → BitVec 64) : Prop :=
  ∀ n, (s n).commit (i n) = true → data (committed s i n) = (s n).stack.ram.rdata (i n).switch

/-- The timer before the instruction `k`. -/
def clintAt (x : ℕ → Hart) (instr : ℕ → Instr) : ℕ → Clint
  | 0 => .init
  | k + 1 => sets (x k) (instr k) (clintAt x instr k)

/-- The computer after the cycle `n`, and the program after as many instructions as there are
    commits. -/
structure Follows (s : ℕ → SimTop) (i : ℕ → In) (x : ℕ → Hart) (instr : ℕ → Instr) (n : ℕ) :
    Prop where
  sound : Sound (s n)
  hart : (s n).hart = x (committed s i n)
  printed : ops (fun k => (s k).stack.ram.output ((s k).oreq (i k))) n =
    ops (fun k => prints (x k) (instr k)) (committed s i n)
  clint : (s n).stack.ram.clint = clintAt x instr (committed s i n)

/-- One cycle more. -/
theorem Follows.next {n : ℕ} (h : Follows s i x instr n)
    (hx : (s n).hart.PortStep window ports (data (committed s i n)) (instr (committed s i n))
      (x (committed s i n + 1)))
    (hd : Reads s i data) (hs : s (n + 1) = (s n).next (i n) false) :
    Follows s i x instr (n + 1) := by
  obtain ⟨hsound, hhart, hout, hclint⟩ := h.sound.next_io hx (hd n)
  rw [h.hart] at hhart hout hclint
  rw [h.clint] at hclint
  cases hc : (s n).commit (i n) with
  | true =>
    have hcount : committed s i (n + 1) = committed s i n + 1 := by
      rw [committed_succ, hc, if_pos rfl]
    rw [hc, if_pos rfl] at hhart hout hclint
    refine ⟨hs ▸ hsound, ?_, ?_, ?_⟩
    · rw [hs, hhart, hcount]
    · rw [hcount, ops, h.printed, hout]
      rfl
    · rw [hs, hclint, hcount]
      rfl
  | false =>
    have hcount : committed s i (n + 1) = committed s i n := by
      rw [committed_succ, hc, if_neg Bool.false_ne_true]
    rw [hc, if_neg Bool.false_ne_true] at hhart hout hclint
    refine ⟨hs ▸ hsound, ?_, ?_, ?_⟩
    · rw [hs, hhart, hcount]
    · rw [hcount, ops, h.printed, hout]
      exact List.append_nil _
    · rw [hs, hclint, hcount]

theorem follows_of_isRun (hr : released.IsRun s i)
    (hx : IsPortExecution window ports x instr data) (h0 : (s 0).hart = x 0) (hd : Reads s i data)
    (hc : (s 0).stack.ram.clint = .init) (n : ℕ) : Follows s i x instr n := by
  induction n with
  | zero =>
    obtain ⟨regNext, ram, hs⟩ := hr.init
    refine ⟨⟨released_inv.of_isRun hr 0, ?_⟩, h0, rfl, hc⟩
    rw [hs]
    exact .fetching ⟨rfl, .inl rfl, SerialReg.idle_init, SerialReg.idle_init⟩ rfl
  | succ n ih => exact ih.next (ih.hart ▸ hx _) hd (succ_eq hr n)

/-- The run executes a program with accesses to the devices, an instruction with every
    commit. -/
structure RunsPorts (s : ℕ → SimTop) (i : ℕ → In) (x : ℕ → Hart) (instr : ℕ → Instr)
    (data : ℕ → BitVec 64) : Prop where
  /-- There is always a next commit, after at most 519 other cycles. -/
  commits : ∀ n, ∃ k, n ≤ k ∧ k ≤ n + 519 ∧ (s k).commit (i k) = true
  /-- As many instructions are executed as there are commits. -/
  hart : ∀ n, (s n).hart = x (committed s i n)
  /-- What is printed is what the committed instructions print, in their order. -/
  printed : ∀ n, ops (fun k => (s k).stack.ram.output ((s k).oreq (i k))) n =
    ops (fun k => prints (x k) (instr k)) (committed s i n)
  /-- The timer is as the committed instructions have set it. -/
  clint : ∀ n, (s n).stack.ram.clint = clintAt x instr (committed s i n)
  /-- What is loaded from the timer is what was set, and the console has no input. -/
  answers : ∀ k addr n sign v, .load addr n sign ∈ ((x k).effect (instr k)).request →
    v ∈ (clintAt x instr k).answer addr → data k = v
  /-- The memory finds no error. -/
  no_error : ∀ n, (s n).stack.ram.modificationError ((s n).oreq (i n)) = false ∧
    (s n).stack.ram.rangeError = false
  /-- The array of the emulator holds the memory: no access is out of its range. -/
  array : ∀ e : ℕ → EmuRam, (e 0).Holds (s 0).stack.ram.mem →
    (∀ n, e (n + 1) = (s n).stack.ram.edge ((s n).oreq (i n)) (e n)) → ∀ n,
      (e n).Holds (s n).stack.ram.mem ∧ (e n).assertCount = (e 0).assertCount

/-- There is a commit of every instruction. -/
theorem exists_committed (h : ∀ n, ∃ k, n ≤ k ∧ k ≤ n + 519 ∧ (s k).commit (i k) = true) (k : ℕ) :
    ∃ n, (s n).commit (i n) = true ∧ committed s i n = k := by
  have hinf : {n | (s n).commit (i n) = true}.Infinite := by
    refine Set.infinite_of_forall_exists_gt fun n => ?_
    obtain ⟨k, hk, _, hc⟩ := h (n + 1)
    exact ⟨k, hc, hk⟩
  exact ⟨_, Nat.nth_mem_of_infinite hinf k, Nat.count_nth_of_infinite hinf k⟩

theorem runs_io (hr : released.IsRun s i) (hx : IsPortExecution window ports x instr data)
    (h0 : (s 0).hart = x 0) (hd : Reads s i data) (hc : (s 0).stack.ram.clint = .init) :
    RunsPorts s i x instr data := by
  have hs := follows_of_isRun hr hx h0 hd hc
  have hstep : ∀ n, (s n).hart.PortStep window ports (data (committed s i n))
      (instr (committed s i n)) (x (committed s i n + 1)) := fun n => (hs n).hart ▸ hx _
  have hidx : ∀ n, (s n).stack.ram.state = .READ ∨ (s n).stack.ram.state = .WRITE →
      (s n).stack.ram.idx.toNat < EMU_RAM_WORDS := fun n => (hs n).sound.idx_lt (hstep n) (i n)
  have hcommits : ∀ n, ∃ k, n ≤ k ∧ k ≤ n + 519 ∧ (s k).commit (i k) = true := by
    refine exists_commit hr fun n hf => ?_
    rw [(hs n).sound.iresp_data (hstep n).fetches hf]
    exact not_silent_of_legal (legal (hstep n).fetches)
  constructor
  case commits => exact hcommits
  case hart => exact fun n => (hs n).hart
  case printed => exact fun n => (hs n).printed
  case clint => exact fun n => (hs n).clint
  case answers =>
    intro k addr n sign v hr hv
    obtain ⟨m, hm, rfl⟩ := exists_committed hcommits k
    rw [← (hs m).hart] at hr
    rw [← (hs m).clint] at hv
    exact (hd m hm).trans ((hs m).sound.rdata_io (hstep m) hm hr hv)
  case no_error =>
    intro n
    refine ⟨((hs n).sound.inv.stack (i n)).not_modified, ?_⟩
    by_cases hr : (s n).stack.ram.state = .READ
    · have hlt := hidx n (.inl hr)
      have hge : ¬(s n).stack.ram.idx ≥ 0x10000000#64 := fun hge =>
        absurd (BitVec.le_def.1 hge) (hlt.trans (by decide)).not_ge
      rw [Ram.rangeError, decide_eq_false hge, Bool.and_false]
    · rw [Ram.rangeError, beq_eq_false_iff_ne.2 hr, Bool.false_and]
  case array =>
    intro e h0 he n
    induction n with
    | zero => exact ⟨h0, rfl⟩
    | succ n ih =>
      obtain ⟨hh, hc⟩ := Ram.holds_edge ((s n).oreq (i n)) ih.1
        (fun hw _ => hidx n (.inr hw)) (i n).random
      rw [he, succ_eq hr]
      exact ⟨hh, hc.trans ih.2⟩

variable {n₀ : ℕ}

/-- From the power-on, the computer executes the program in its memory, and prints what the
    program prints. -/
theorem executes_io (h : IsPowerOn n₀ s i) (hn : 2 ≤ n₀)
    (hx : IsPortExecution window ports x instr data) (h0 : x 0 = boot (s 0).stack.ram.mem)
    (hd : Reads (fun n => s (n₀ + n)) (fun n => i (n₀ + n)) data) :
    RunsPorts (fun n => s (n₀ + n)) (fun n => i (n₀ + n)) x instr data := by
  obtain ⟨hr, hboot⟩ := h.released hn
  refine runs_io hr hx (hboot.trans h0.symm) hd ?_
  obtain ⟨regNext, ram, hs⟩ := hr.init
  exact congrArg (fun s : SimTop => s.stack.ram.clint) hs

/-- A memory full of `addi x1, x0, 72` and `lui x2, 0x40600`, then `sb x1, 4(x2)` and
    `jal x0, -4`. -/
def greetMem : Words := fun idx =>
  if idx.getLsbD 0 then 0xffdff06f00110223#64 else 0x4060013704800093#64

/-- The instruction `k`. -/
def greetInstr (k : ℕ) : Instr :=
  if k = 0 then .opImm .addi 72#12 0#5 1#5
  else if k = 1 then .lui 0x40600#20 2#5
  else if k % 2 = 0 then .store .sb 4#12 1#5 2#5
  else .jal 0xffffe#20 0#5

/-- The hart after `k` instructions. -/
def greeting (k : ℕ) : Hart where
  pc := if k = 0 then PCINIT else if k = 1 then PCINIT + 4#64
    else if k % 2 = 0 then PCINIT + 8#64 else PCINIT + 12#64
  x r := if r = 1#5 ∧ 1 ≤ k then 72#64 else if r = 2#5 ∧ 2 ≤ k then 0x40600000#64 else 0#64
  x_zero := rfl
  mem := greetMem.rebase.bytes

/-- From the instruction 2 on, the program repeats itself. -/
theorem greeting_add_two (k : ℕ) : greeting (k + 4) = greeting (k + 2) ∧
    greetInstr (k + 4) = greetInstr (k + 2) := by
  have hmod : (k + 4) % 2 = (k + 2) % 2 := by omega
  constructor
  · refine Hart.ext ?_ (funext fun r => ?_) rfl
    · simp [greeting, hmod]
    · simp [greeting]
  · simp [greetInstr, hmod]

theorem fetches_greeting {k : ℕ} (hk : k < 4) : (greeting k).Fetches window (greetInstr k) := by
  have hmem : (greeting k).mem = greetMem.rebase.bytes := rfl
  refine ⟨?_, ?_, ?_⟩
  · interval_cases k <;> decide
  · interval_cases k <;> exact ⟨by decide, by decide⟩
  · rw [hmem]
    interval_cases k <;> decide

/-- The instructions in the window. -/
theorem greeting_succ {k : ℕ} (hk : k < 4) (h2 : k ≠ 2) :
    (greeting k).Executes window (greetInstr k) ∧
      greeting (k + 1) = (greeting k).execute (greetInstr k) := by
  have hf := fetches_greeting hk
  have hreq : ((greeting k).effect (greetInstr k)).request = none := by
    interval_cases k <;> first | rfl | exact absurd rfl h2
  refine ⟨⟨hf.aligned, hf.mem, hf.fetch, fun r hr => ?_⟩, Hart.ext ?_ (funext fun r => ?_) ?_⟩
  · rw [hreq] at hr
    exact absurd hr (Option.not_mem_none r)
  · interval_cases k <;> decide
  · revert r
    interval_cases k <;> decide
  · have hmem : ((greeting k).execute (greetInstr k)).mem = (greeting k).mem := by
      change ((greeting k).effect (greetInstr k)).mem _ = _
      rw [Effect.mem, hreq, Option.elim_none]
    exact hmem.symm

/-- The store to the console. -/
theorem transfers_greeting : (greeting 2).Transfers window ports 0x40600004#64 (greetInstr 2)
    (.store 0x40600004#64 1 72#64) where
  fetches := fetches_greeting (by omega)
  request := by decide
  address := rfl
  valid := ⟨by decide, trivial⟩
  not_mem := not_window_of_lt (by decide)
  port := by
    change _ ∈ Ram.devices
    decide

theorem greeting_transfer (data : BitVec 64) :
    greeting 3 = (greeting 2).transfer 0x40600004#64 data (greetInstr 2) := by
  refine Hart.ext ?_ (funext fun r => ?_) rfl
  · change _ = (greeting 2).pc + 4#64
    decide
  · change _ = (greeting 2).x r
    revert r
    decide

theorem step_greeting (data : BitVec 64) :
    ∀ k, (greeting k).PortStep window ports data (greetInstr k) (greeting (k + 1))
  | 0 => (greeting_succ (k := 0) (by omega) (by omega)).2 ▸
      .execute (greeting_succ (by omega) (by omega)).1
  | 1 => (greeting_succ (k := 1) (by omega) (by omega)).2 ▸
      .execute (greeting_succ (by omega) (by omega)).1
  | 2 => greeting_transfer data ▸ .transfer transfers_greeting
  | 3 => (greeting_succ (k := 3) (by omega) (by omega)).2 ▸
      .execute (greeting_succ (by omega) (by omega)).1
  | k + 4 => by
    have h := step_greeting data (k + 2)
    rwa [← (greeting_add_two k).1, ← (greeting_add_two k).2, ← (greeting_add_two (k + 1)).1] at h

theorem prints_greeting : ∀ k, prints (greeting k) (greetInstr k) =
    if 2 ≤ k ∧ k % 2 = 0 then some (.char 72#8) else none
  | 0 | 1 | 2 | 3 => by decide
  | k + 4 => by
    rw [(greeting_add_two k).1, (greeting_add_two k).2, prints_greeting (k + 2)]
    exact if_congr (by omega) rfl rfl

theorem ops_greeting (k : ℕ) : ops (fun k => prints (greeting k) (greetInstr k)) k =
    List.replicate ((k - 1) / 2) (.char 72#8) := by
  induction k with
  | zero => rfl
  | succ k ih =>
    rw [ops, ih, prints_greeting]
    by_cases hk : 2 ≤ k ∧ k % 2 = 0
    · rw [if_pos hk, show (k + 1 - 1) / 2 = (k - 1) / 2 + 1 by omega, List.replicate_succ']
      rfl
    · rw [if_neg hk, show (k + 1 - 1) / 2 = (k - 1) / 2 by omega]
      exact List.append_nil _

/-- The program prints an `H` with every other instruction, after the first two. -/
theorem executes_io_greeting :
    let i : ℕ → In := fun _ => ⟨7#32, 0#32, default⟩
    let s := powered 10 (init (.ofMem greetMem)) i
    ∀ n, ops (fun k => (s (10 + k)).stack.ram.output ((s (10 + k)).oreq (i (10 + k)))) n =
      List.replicate ((committed (fun n => s (10 + n)) (fun n => i (10 + n)) n - 1) / 2)
        (.char 72#8) := by
  intro i s n
  have hpow : IsPowerOn 10 s i := isPowerOn_powered _ _
  have h0 : greeting 0 = boot (s 0).stack.ram.mem :=
    Hart.ext rfl (funext fun r => by simp [greeting, boot]) rfl
  let data : ℕ → BitVec 64 := fun k =>
    (s (10 + Nat.nth (fun n => (s (10 + n)).commit (i (10 + n)) = true) k)).stack.ram.rdata 0#32
  have hd : Reads (fun n => s (10 + n)) (fun n => i (10 + n)) data := fun n hc =>
    congrArg (fun n => (s (10 + n)).stack.ram.rdata 0#32) (Nat.nth_count hc)
  have hr := executes_io hpow (by omega) (fun k => step_greeting (data k) k) h0 hd
  exact (hr.printed n).trans (ops_greeting _)

end Run

end SimTop

end RiscvCpu
