import RiscvCpu.Common
import RiscvCpu.Memory

/-!
# The memory model

The slave of the cache bus in simulation: memory, a timer, and a few devices. It takes
a request, waits for a random time, and then does its beats, one per cycle, until the
one with `last`. It latches the request, but works on the live one, and checks that
the two agree (`modificationError`).

The bus requests of this processor have a single beat. While such a request is presented,
unchanged, the memory `Serves` it: it is idle, it waits, or it is in the cycle of the beat,
which answers the request and, for a write, does it (`Serves.next`).
-/

namespace RiscvCpu

inductive RamState
  | NONE
  | WAIT
  | READ
  | WRITE
  deriving DecidableEq, Repr

/-- The registers of `RAMHelper2`, and the memory behind its helper functions. -/
structure Ram where
  savedOreq : CbusReq
  state : RamState
  countDown : BitVec 8
  size : BitVec 4
  addr : BitVec 64
  wrap1 : BitVec 64
  wrap2 : BitVec 64
  cycCnt : BitVec 64
  msCnt : BitVec 64
  mtime : BitVec 64
  mtimecmp : BitVec 64
  msip : Bool
  trint : Bool
  swint : Bool
  exint : Bool
  mem : Words

namespace Ram

/-! ## Wires -/

/-- The index of the word at an address. -/
def wordIdx (addr : BitVec 64) : BitVec 64 :=
  if addr > 0x80000000#64 then (addr - 0x80000000#64) >>> 3 else 0#64

variable (s : Ram) (oreq : CbusReq)

def idx : BitVec 64 := wordIdx s.addr

/-- The value read, given the switches. -/
def rdata (switch : BitVec 32) : BitVec 64 :=
  if s.addr = 0x40600008#64 then 0#64
  else if s.addr = 0x38000000#64 then (BitVec.ofBool s.msip).setWidth 64
  else if s.addr = 0x38004000#64 then s.mtimecmp
  else if s.addr = 0x3800bff8#64 then s.mtime
  else if s.addr = 0x20003000#64 then s.msCnt
  else if s.addr = 0x23333008#64 then switch.setWidth 64
  else s.mem.readHelper s.idx

def oresp (switch : BitVec 32) : CbusResp :=
  match s.state with
  | .READ => { ready := true, last := s.countDown == 0#8, data := s.rdata switch }
  | .WRITE => { ready := true, last := s.countDown == 0#8, data := 0#64 }
  | _ => .zero

/-- The live request is not the one that was latched. -/
def modified : Bool :=
  oreq.valid != s.savedOreq.valid || oreq.isWrite != s.savedOreq.isWrite ||
    oreq.size != s.savedOreq.size || oreq.addr != s.savedOreq.addr ||
    oreq.len != s.savedOreq.len || oreq.burst != s.savedOreq.burst

/-- `ERROR: Unexpected CBus request modification.` -/
def modificationError : Bool :=
  match s.state with
  | .NONE => false
  | _ => s.modified oreq

/-- `ERROR: Load address out of range!` -/
def rangeError : Bool := s.state == .READ && decide (s.idx ≥ 0x10000000#64)

/-! ## The clock edge -/

/-- The timer. -/
def tick : Ram :=
  { s with
    cycCnt := if s.cycCnt = 25#64 then 0#64 else s.cycCnt + 1#64
    msCnt := if s.cycCnt = 25#64 then s.msCnt + 1#64 else s.msCnt
    mtime := if s.cycCnt = 25#64 then s.mtime + 1#64 else s.mtime
    trint := decide (s.mtime > s.mtimecmp)
    swint := s.msip }

/-- The number of cycles to wait, given a random number. -/
def delay (random : BitVec 32) : BitVec 8 := (random.srem 31#32 + 2#32).setWidth 8

/-- The number of bytes of a burst. -/
def burstBytes : BitVec 64 := (oreq.len.setWidth 64 + 1#64) <<< oreq.size.toNat

/-- The first beat of the live request is done in the next cycle. -/
def start : Ram :=
  { s with
    state := if oreq.isWrite then .WRITE else .READ
    addr := oreq.addr
    countDown := oreq.len
    size := 1#4 <<< oreq.size.toNat
    wrap1 := match oreq.burst with
      | .FIXED => oreq.addr
      | .WRAP => oreq.addr &&& ~~~(burstBytes oreq - 1#64)
      | _ => 0#64
    wrap2 := match oreq.burst with
      | .FIXED => oreq.addr + 1#64 <<< oreq.size.toNat
      | .WRAP => (oreq.addr &&& ~~~(burstBytes oreq - 1#64)) + burstBytes oreq
      | _ => 0#64 }

/-- A beat is written. (What is printed is left out.) -/
def write : Ram :=
  -- Writes to the first two addresses only print, and those to the last one are ignored.
  if s.addr = 0x40600004#64 then s
  else if s.addr = 0x23333000#64 then s
  else if s.addr = 0x38000000#64 then { s with msip := oreq.data.getLsbD 0 }
  else if s.addr = 0x38004000#64 then { s with mtimecmp := oreq.data }
  else if s.addr = 0x3800bff8#64 then { s with mtime := oreq.data }
  else if s.addr ≠ 0x4060000c#64 then
    { s with mem := s.mem.writeHelper s.idx oreq.data (Words.wmask oreq.strobe) }
  else s

/-- After a beat, the request is finished, or the next beat follows. -/
def advance (addr' : BitVec 64) : Ram :=
  if s.countDown = 0#8 then { s with state := .NONE }
  else { s with countDown := s.countDown - 1#8, addr := addr' }

/-- The address of the next beat, when it is read. -/
def nextRead : BitVec 64 :=
  if s.addr + s.size.setWidth 64 = s.wrap2 then s.wrap1 else s.addr + s.size.setWidth 64

/-- The address of the next beat, when it is written. -/
def nextWrite : BitVec 64 := s.addr + s.size.setWidth 64

/-- The registers after a reset. The wrap addresses and the memory keep their values. -/
def init : Ram :=
  { s with
    state := .NONE, countDown := 0#8, cycCnt := 0#64, msCnt := 0#64, addr := 0#64, size := 0#4,
    savedOreq := .zero, mtime := 0#64, mtimecmp := BitVec.allOnes 64, msip := false,
    trint := false, swint := false, exint := false }

/-- A memory after a reset, with given contents. -/
def ofMem (mem : Words) : Ram where
  savedOreq := .zero
  state := .NONE
  countDown := 0#8
  size := 0#4
  addr := 0#64
  wrap1 := 0#64
  wrap2 := 0#64
  cycCnt := 0#64
  msCnt := 0#64
  mtime := 0#64
  mtimecmp := BitVec.allOnes 64
  msip := false
  trint := false
  swint := false
  exint := false
  mem := mem

/-- The registers after the clock edge. -/
def next (random : BitVec 32) (reset : Bool) : Ram :=
  if !reset then
    match s.state with
    | .NONE =>
      if oreq.valid then
        { s.tick with savedOreq := oreq, countDown := delay random, state := .WAIT }
      else s.tick
    | .WAIT =>
      if s.countDown = 0#8 then s.tick.start oreq
      else { s.tick with countDown := s.countDown - 1#8 }
    | .READ => s.tick.advance s.nextRead
    | .WRITE => (s.tick.write oreq).advance s.nextWrite
  else s.init

/-! ## Requests of a single beat -/

/-- The cycle of the beat of the request. -/
structure Beat (s : Ram) (oreq : CbusReq) : Prop where
  state : s.state = if oreq.isWrite then .WRITE else .READ
  countDown : s.countDown = 0#8
  addr : s.addr = oreq.addr
  saved : s.modified oreq = false

/-- The request is served, if it is presented. -/
inductive Serves (s : Ram) (oreq : CbusReq) : Prop
  | none (state : s.state = .NONE)
  | wait (state : s.state = .WAIT) (saved : s.modified oreq = false)
  | beat (h : s.Beat oreq)

/-- A bound for the number of cycles until the end of the beat. -/
def remaining : ℕ :=
  match s.state with
  | .NONE => 258
  | .WAIT => s.countDown.toNat + 2
  | _ => 1

variable {s oreq} {switch random : BitVec 32}

theorem modified_self (h : s.savedOreq = oreq) : s.modified oreq = false := by
  simp [modified, h]

theorem eq_of_not_modified (h : s.modified oreq = false) :
    oreq.valid = s.savedOreq.valid ∧ oreq.isWrite = s.savedOreq.isWrite ∧
      oreq.size = s.savedOreq.size ∧ oreq.addr = s.savedOreq.addr ∧
      oreq.len = s.savedOreq.len ∧ oreq.burst = s.savedOreq.burst := by
  simpa only [modified, Bool.or_eq_false_iff, bne_eq_false_iff_eq, and_assoc] using h

theorem modificationError_of_ne (h : s.state ≠ .NONE) :
    s.modificationError oreq = s.modified oreq := by
  cases hs : s.state with
  | NONE => exact absurd hs h
  | _ => rw [modificationError, hs]

theorem oresp_of_none (h : s.state = .NONE) : s.oresp switch = .zero := by
  rw [oresp, h]

theorem Beat.oresp (h : s.Beat oreq) : s.oresp switch =
    { ready := true, last := true, data := if oreq.isWrite then 0#64 else s.rdata switch } := by
  rw [Ram.oresp, h.state, h.countDown]
  cases oreq.isWrite <;> rfl

/-- In the cycle of the beat, and in no other, there is a response. -/
theorem Serves.ready_eq (h : s.Serves oreq) : (s.oresp switch).ready = (s.oresp switch).last := by
  cases h with
  | none h => rw [oresp_of_none h]; rfl
  | wait h _ => rw [Ram.oresp, h]; rfl
  | beat h => rw [h.oresp]

theorem Serves.beat_of_last (h : s.Serves oreq) (hl : (s.oresp switch).last = true) :
    s.Beat oreq := by
  cases h with
  | none h =>
    rw [oresp_of_none h] at hl
    exact absurd hl Bool.false_ne_true
  | wait h _ =>
    rw [Ram.oresp, h] at hl
    exact absurd hl Bool.false_ne_true
  | beat h => exact h

/-- A served request is never found to be modified. -/
theorem Serves.not_modified (h : s.Serves oreq) : s.modificationError oreq = false := by
  cases h with
  | none h => rw [modificationError, h]
  | wait h hs => rw [modificationError, h, hs]
  | beat h =>
    rw [modificationError, h.state, h.saved]
    cases oreq.isWrite <;> rfl

variable (oreq random) in
theorem next_of_none (h : s.state = .NONE) (hv : oreq.valid = false) :
    (s.next oreq random false).state = .NONE ∧ (s.next oreq random false).mem = s.mem := by
  simp [next, h, hv, tick]

variable (random) in
/-- With a request, the memory starts to wait. The delay has 8 bits. -/
theorem next_of_valid (h : s.state = .NONE) (hv : oreq.valid = true) :
    s.next oreq random false =
        { s.tick with savedOreq := oreq, countDown := delay random, state := .WAIT } ∧
      (s.next oreq random false).remaining < s.remaining := by
  have hn : s.next oreq random false =
      { s.tick with savedOreq := oreq, countDown := delay random, state := .WAIT } := by
    simp [next, h, hv]
  have hd := (delay random).isLt
  refine ⟨hn, ?_⟩
  simp only [hn, remaining, h]
  omega

variable (oreq random) in
/-- The memory waits until the count is 0. -/
theorem next_of_wait (h : s.state = .WAIT) (hc : s.countDown ≠ 0#8) :
    s.next oreq random false = { s.tick with countDown := s.countDown - 1#8 } ∧
      (s.next oreq random false).remaining < s.remaining := by
  have hn : s.next oreq random false = { s.tick with countDown := s.countDown - 1#8 } := by
    simp [next, h, hc]
  have hpos : s.countDown.toNat ≠ 0 := fun h0 => hc (BitVec.eq_of_toNat_eq h0)
  have hlt := s.countDown.isLt
  refine ⟨hn, ?_⟩
  simp only [hn, remaining, tick, h, BitVec.toNat_sub, BitVec.toNat_ofNat]
  omega

variable (oreq random) in
theorem next_of_start (h : s.state = .WAIT) (hc : s.countDown = 0#8) :
    s.next oreq random false = s.tick.start oreq := by
  simp [next, h, hc]

variable (random) in
/-- Before the beat, the memory waits. -/
theorem Serves.next (h : s.Serves oreq) (hv : oreq.valid = true) (hlen : oreq.len = 0#8)
    (hl : (s.oresp switch).last = false) : (s.next oreq random false).Serves oreq ∧
      (s.next oreq random false).mem = s.mem ∧
      (s.next oreq random false).remaining < s.remaining := by
  cases h with
  | none h =>
    obtain ⟨hn, hr⟩ := next_of_valid random h hv
    rw [hn] at hr ⊢
    exact ⟨.wait rfl (modified_self rfl), rfl, hr⟩
  | wait h hs =>
    by_cases hc : s.countDown = 0#8
    · rw [next_of_start oreq random h hc]
      -- The single beat is the last one: the count starts at `len`, which is 0.
      refine ⟨.beat ⟨rfl, hlen, rfl, hs⟩, rfl, ?_⟩
      simp only [remaining, h, start]
      cases oreq.isWrite <;> simp
    · obtain ⟨hn, hr⟩ := next_of_wait oreq random h hc
      rw [hn] at hr ⊢
      exact ⟨.wait h hs, rfl, hr⟩
  | beat h =>
    rw [h.oresp] at hl
    exact absurd hl Bool.false_ne_true.symm

variable (random) in
/-- The beat is the end of the request. -/
theorem Beat.next (h : s.Beat oreq) : (s.next oreq random false).state = .NONE ∧
    (s.next oreq random false).mem = if oreq.isWrite then (s.tick.write oreq).mem else s.mem := by
  have hs := h.state
  have hc : (s.tick.write oreq).countDown = 0#8 := by
    rw [← h.countDown, write]
    split_ifs <;> rfl
  cases hw : oreq.isWrite with
  | false =>
    rw [hw, if_neg Bool.false_ne_true] at hs
    -- With nothing left to count, the state falls back to `NONE`.
    have ht : s.tick.countDown = 0#8 := h.countDown
    have hn : s.next oreq random false = s.tick.advance s.nextRead := by
      simp [Ram.next, hs]
    rw [hn, advance, if_pos ht]
    exact ⟨rfl, rfl⟩
  | true =>
    rw [hw, if_pos rfl] at hs
    have hn : s.next oreq random false = (s.tick.write oreq).advance s.nextWrite := by
      simp [Ram.next, hs]
    rw [hn, advance, if_pos hc]
    exact ⟨rfl, rfl⟩

/-! ## The window of the memory -/

/-- The addresses of the memory. Those below belong to the devices. -/
def InWindow (addr : BitVec 64) : Prop := 0x80000000#64 ≤ addr ∧ addr < 0x100000000#64

instance : DecidablePred InWindow := fun _ => inferInstanceAs (Decidable (_ ∧ _))

/-- The memory ends at `2 ^ 32`. -/
theorem wordIdx_ge_iff {addr : BitVec 64} :
    wordIdx addr ≥ 0x10000000#64 ↔ 2 ^ 32 ≤ addr.toNat := by
  have hlt := addr.isLt
  by_cases h : addr > 0x80000000#64
  · rw [wordIdx, if_pos h, ge_iff_le, BitVec.le_def, BitVec.toNat_ushiftRight,
      Nat.shiftRight_eq_div_pow, BitVec.toNat_sub]
    rw [gt_iff_lt, BitVec.lt_def] at h
    simp only [BitVec.toNat_ofNat] at *
    omega
  · rw [wordIdx, if_neg h, ge_iff_le, BitVec.le_def]
    rw [gt_iff_lt, BitVec.lt_def] at h
    simp only [BitVec.toNat_ofNat] at *
    omega

theorem InWindow.wordIdx {addr : BitVec 64} (h : InWindow addr) :
    wordIdx addr = (addr - 0x80000000#64) >>> 3 ∧ wordIdx addr < 0x10000000#64 := by
  obtain ⟨hlo, hhi⟩ := h
  have heq : Ram.wordIdx addr = (addr - 0x80000000#64) >>> 3 := by
    rw [Ram.wordIdx]
    split
    · rfl
    -- The first address is not above the start, but its index is 0, too.
    · have : addr = 0x80000000#64 := by
        bv_omega
      rw [this]
      rfl
  exact ⟨heq, BitVec.not_le.1 fun h => absurd (BitVec.lt_def.1 hhi) (wordIdx_ge_iff.1 h).not_gt⟩

/-- The addresses of the devices are not in the window. -/
theorem InWindow.ne {addr d : BitVec 64} (h : InWindow addr) (hd : d < 0x80000000#64) :
    addr ≠ d := by
  rintro rfl
  exact absurd (BitVec.le_def.1 h.1) (not_le.2 (BitVec.lt_def.1 hd))

theorem rdata_of_inWindow (h : InWindow s.addr) : s.rdata switch = s.mem (wordIdx s.addr) := by
  rw [rdata, if_neg (h.ne (by decide)), if_neg (h.ne (by decide)), if_neg (h.ne (by decide)),
    if_neg (h.ne (by decide)), if_neg (h.ne (by decide)), if_neg (h.ne (by decide))]
  rfl

theorem write_of_inWindow (h : InWindow s.addr) : (s.tick.write oreq).mem =
    s.mem.writeHelper (wordIdx s.addr) oreq.data (Words.wmask oreq.strobe) := by
  have ht : s.tick.addr = s.addr := rfl
  rw [write, ht, if_neg (h.ne (by decide)), if_neg (h.ne (by decide)), if_neg (h.ne (by decide)),
    if_neg (h.ne (by decide)), if_neg (h.ne (by decide)), if_pos (h.ne (by decide))]
  rfl

theorem rangeError_of_inWindow (h : InWindow s.addr) : s.rangeError = false := by
  rw [rangeError, idx, decide_eq_false (BitVec.not_le.2 h.wordIdx.2), Bool.and_false]

end Ram

end RiscvCpu
