import RiscvCpu.Bus.Ram
import RiscvCpu.Bus.Transaction
import RiscvCpu.Verilate.AXITransaction

/-!
# Bursts on the two slaves of the cache bus

Behind the cache bus, there is the memory model or the bridge to AXI. This compares the
addresses of the beats of a burst. The memory model takes the burst type of the request,
but does not look at it in a write; the bridge takes all bursts to be wrapping ones.

* `Ram.Serving.exists_ends`: the memory does the beats of a request, with the addresses
  `BurstReq.beat`. A read of an address out of range ends the simulation.
* `BurstReq.map_beats_address`: behind the bridge, AXI has the addresses `BurstReq.axiBeat`.
* `bursts_agree_iff`: these are the same in the cases of `BurstReq.Agrees`, which leave out,
  e.g., most writes that wrap, and those of a write and a read in the cases of
  `BurstReq.Repeats`.
-/

namespace RiscvCpu

open Arith Sync

/-- The request of a burst, read or written, with any data. -/
structure BurstReq where
  size : Msize
  len : Mlen
  addr : BitVec 64
  aligned : addr.toNat % size.bytes = 0
  burst : AxiBurstType
  burst_ne : burst ≠ .RESERVED

namespace BurstReq

variable (r : BurstReq)

def creq (isWrite : Bool) (strobe : BitVec 8) (data : BitVec 64) : CbusReq :=
  { valid := true, isWrite, size := r.size.bits, addr := r.addr, strobe, data
    len := r.len.bits, burst := r.burst }

/-- The first beat, of all beats of this size of the memory. -/
def first : ℕ := r.addr.toNat / r.size.bytes

/-- The burst starts at the start of its window. -/
def AtStart : Prop := r.first % r.len.beats = 0

/-- The window of the burst ends at the last address. -/
def Top : Prop := r.size.bytes * (lower r.len.beats r.first + r.len.beats) = 2 ^ 64

instance : Decidable r.AtStart := inferInstanceAs (Decidable (_ = _))

instance : Decidable r.Top := inferInstanceAs (Decidable (_ = _))

variable {r} {k : ℕ} {isWrite : Bool}

theorem toNat_addr : r.addr.toNat = r.size.bytes * r.first :=
  (Nat.mul_div_cancel' (Nat.dvd_of_mod_eq_zero r.aligned)).symm

theorem bytes_pos : 0 < r.size.bytes := by cases r.size <;> decide

theorem beats_pos : 0 < r.len.beats := Nat.succ_pos _

theorem one_lt_beats (h : r.len ≠ .MLEN1) : 1 < r.len.beats := by
  revert h
  cases r.len <;> decide

/-- The number of bytes of a burst is a power of two. -/
theorem exists_two_pow (r : BurstReq) : ∃ m < 32, r.size.bytes * r.len.beats = 2 ^ m ∧
    (r.len.bits.setWidth 64 + 1#64) <<< r.size.bits.toNat = BitVec.twoPow 64 m := by
  refine ⟨r.size.bits.toNat + Nat.log2 r.len.beats, ?_⟩
  cases r.size <;> cases r.len <;> decide

/-- The number of beats of the memory. -/
def total : ℕ := 2 ^ 64 / r.size.bytes

theorem bytes_mul_total : r.size.bytes * r.total = 2 ^ 64 := by
  rw [total]
  cases r.size <;> rfl

theorem beats_dvd_total : r.len.beats ∣ r.total ∧ r.len.beats < r.total := by
  rw [total]
  cases r.size <;> cases r.len <;> decide

theorem first_lt : r.first < r.total := by
  have h := r.addr.isLt
  rw [toNat_addr, ← r.bytes_mul_total] at h
  exact Nat.lt_of_mul_lt_mul_left h

/-! ## The beats in the memory -/

variable (r)

/-- The number of beats of the window in which the memory wraps. -/
def window (isWrite : Bool) : ℕ :=
  match isWrite, r.burst with
  | false, .FIXED => 1
  | false, .WRAP => r.len.beats
  | _, _ => r.total

/-- The address of the beat `k`. -/
def beat (isWrite : Bool) (k : ℕ) : ℕ :=
  r.size.bytes * wrap (r.window isWrite) r.first k

/-- The address of the beat `k`, in a wrapping burst. In the last window, the transaction
    stays at the lower boundary. -/
def axiBeat (k : ℕ) : ℕ :=
  r.size.bytes *
    if r.Top ∧ k ≠ 0 then lower r.len.beats r.first else wrap r.len.beats r.first k

/-- The address is out of range, so that a read of it ends the simulation. -/
def Out (isWrite : Bool) (k : ℕ) : Prop := isWrite = false ∧ 2 ^ 32 ≤ r.beat isWrite k

instance (isWrite : Bool) : DecidablePred (r.Out isWrite) := fun _ =>
  inferInstanceAs (Decidable (_ ∧ _))

/-- The beat with which the request ends, or the simulation. -/
def stop (isWrite : Bool) : ℕ :=
  Nat.find (p := fun k => k = r.len.bits.toNat ∨ r.Out isWrite k) ⟨_, .inl rfl⟩

/-- The addresses of the beats that are done. -/
def beats (isWrite : Bool) : List ℕ := (List.range (r.stop isWrite + 1)).map (r.beat isWrite)

variable {r}

theorem stop_le : r.stop isWrite ≤ r.len.bits.toNat := Nat.find_min' _ (.inl rfl)

variable (r isWrite) in
theorem stop_spec : r.stop isWrite = r.len.bits.toNat ∨ r.Out isWrite (r.stop isWrite) :=
  Nat.find_spec (p := fun k => k = r.len.bits.toNat ∨ r.Out isWrite k) ⟨_, .inl rfl⟩

theorem not_of_lt_stop (h : k < r.stop isWrite) : ¬(k = r.len.bits.toNat ∨ r.Out isWrite k) :=
  Nat.find_min _ h

theorem window_write : r.window true = r.total := rfl

theorem window_fixed (h : r.burst = .FIXED) : r.window false = 1 := by
  unfold window
  rw [h]

theorem window_incr (h : r.burst = .INCR) : r.window false = r.total := by
  unfold window
  rw [h]

theorem window_wrap (h : r.burst = .WRAP) : r.window false = r.len.beats := by
  unfold window
  rw [h]

variable (r isWrite) in
/-- The windows are in the memory. -/
theorem window_mem : 0 < r.window isWrite ∧ r.window isWrite ∣ r.total := by
  have htotal := r.beats_dvd_total.2
  cases isWrite with
  | true => exact ⟨Nat.zero_lt_of_lt htotal, Nat.dvd_refl _⟩
  | false =>
    unfold window
    split
    · exact ⟨Nat.one_pos, Nat.one_dvd _⟩
    · exact ⟨beats_pos, r.beats_dvd_total.1⟩
    · exact ⟨Nat.zero_lt_of_lt htotal, Nat.dvd_refl _⟩

variable (r isWrite) in
theorem window_le :
    r.size.bytes * (lower (r.window isWrite) r.first + r.window isWrite) ≤ 2 ^ 64 := by
  rw [← r.bytes_mul_total]
  exact Nat.mul_le_mul_left _ (lower_add_le (r.window_mem isWrite).2 r.first_lt)

theorem beat_zero : r.beat isWrite 0 = r.addr.toNat := by
  rw [beat, wrap_zero, toNat_addr]

end BurstReq

namespace Ram

open BurstReq

/-! ## The memory -/

/-- The inputs of the memory in a cycle. -/
structure In where
  oreq : CbusReq
  random : BitVec 32
  switch : BitVec 32

/-- The memory, with any requests. -/
def machine : Machine Ram In where
  init := {s | s.state = .NONE}
  admits _ := Set.univ
  next s i := s.next i.oreq i.random false

/-- In this cycle, the request ends, or the simulation. -/
def finished (s : Ram) (i : In) : Bool :=
  (s.oresp i.switch).last || s.rangeError || s.modificationError i.oreq

section Spec

variable (r : BurstReq) (isWrite : Bool) (s : ℕ → Ram) (i : ℕ → In)

/-- The request is presented from the first cycle on, until the response with `last`. -/
structure Serving : Prop where
  run : machine.IsRun s i
  held : ∀ t, (∀ u < t, ((s u).oresp (i u).switch).last = false) →
    Axi.header (i t).oreq = Axi.header (r.creq isWrite 0#8 0#64)

/-- The cycle `n` is the last one. -/
def Ends (n : ℕ) : Prop :=
  (s n).finished (i n) = true ∧ ∀ t < n, (s t).finished (i t) = false

/-- The addresses of the beats up to the cycle `n`. -/
def accesses (n : ℕ) : List (BitVec 64) :=
  ((List.range (n + 1)).filter fun t => ((s t).oresp (i t).switch).ready).map fun t => (s t).addr

end Spec

/-- Before the first beat. -/
inductive Waiting (r : BurstReq) (isWrite : Bool) (s : Ram) : Prop
  | none (state : s.state = .NONE)
  | wait (state : s.state = .WAIT) (saved : s.modified (r.creq isWrite 0#8 0#64) = false)

/-- The cycle of the beat `k`. -/
structure Beating (r : BurstReq) (isWrite : Bool) (k : ℕ) (s : Ram) : Prop where
  state : s.state = if isWrite then .WRITE else .READ
  countDown : s.countDown.toNat + k = r.len.bits.toNat
  addr : s.addr.toNat = r.beat isWrite k
  size : s.size.toNat = r.size.bytes
  wrap1 : s.wrap1.toNat = r.size.bytes * lower (r.window false) r.first
  wrap2 : s.wrap2.toNat =
    r.size.bytes * (lower (r.window false) r.first + r.window false) % 2 ^ 64
  saved : s.modified (r.creq isWrite 0#8 0#64) = false

variable {r : BurstReq} {isWrite : Bool} {s : Ram} {oreq : CbusReq} {random switch : BitVec 32}
  {k : ℕ}

theorem Waiting.oresp (h : s.Waiting r isWrite) : s.oresp switch = .zero := by
  cases h with
  | none h => rw [Ram.oresp, h]
  | wait h => rw [Ram.oresp, h]

theorem modified_header : s.modified (Axi.header oreq) = s.modified oreq := rfl

theorem start_header : s.start (Axi.header oreq) = s.start oreq := rfl

/-- The window of a read is between the two registers. -/
theorem toNat_wrap_start :
    (s.start (r.creq isWrite 0#8 0#64)).wrap1.toNat =
        r.size.bytes * lower (r.window false) r.first ∧
      (s.start (r.creq isWrite 0#8 0#64)).wrap2.toNat =
        r.size.bytes * (lower (r.window false) r.first + r.window false) % 2 ^ 64 := by
  have hone : (1#64 <<< r.size.bits.toNat).toNat = r.size.bytes := by
    cases r.size <;> rfl
  simp only [start, BurstReq.creq, BurstReq.window]
  cases hb : r.burst with
  | FIXED =>
    rw [lower, Nat.div_one, mul_one, mul_add_one, ← toNat_addr, BitVec.toNat_add, hone]
    exact ⟨rfl, rfl⟩
  | WRAP =>
    obtain ⟨m, hm, hbytes, hburst⟩ := r.exists_two_pow
    have hlow : (r.addr &&& ~~~(BitVec.twoPow 64 m - 1#64)).toNat =
        r.size.bytes * lower r.len.beats r.first := by
      rw [Bits.toNat_and_not _ (by omega), ← hbytes, toNat_addr,
        Nat.mul_div_mul_left _ _ bytes_pos, lower, mul_left_comm]
    rw [burstBytes, hburst, BitVec.toNat_add, hlow, BitVec.toNat_twoPow_of_lt (by omega), mul_add,
      hbytes]
    exact ⟨rfl, rfl⟩
  | INCR =>
    rw [lower, Nat.div_eq_of_lt r.first_lt, zero_mul, zero_add, bytes_mul_total]
    exact ⟨rfl, rfl⟩
  | RESERVED => exact absurd hb r.burst_ne

theorem beating_start (ho : Axi.header oreq = Axi.header (r.creq isWrite 0#8 0#64))
    (hs : s.modified (r.creq isWrite 0#8 0#64) = false) :
    Beating r isWrite 0 (s.start oreq) := by
  have hsize : (1#4 <<< r.size.bits.toNat).toNat = r.size.bytes := by
    cases r.size <;> rfl
  rw [← start_header, ho, start_header]
  exact ⟨rfl, rfl, beat_zero.symm, hsize, toNat_wrap_start.1, toNat_wrap_start.2, hs⟩

variable (random) in
/-- The memory waits, for less and less time, until it starts with the first beat. -/
theorem Waiting.next (h : s.Waiting r isWrite)
    (ho : Axi.header oreq = Axi.header (r.creq isWrite 0#8 0#64)) :
    (s.next oreq random false).Waiting r isWrite ∧
        (s.next oreq random false).remaining < s.remaining ∨
      Beating r isWrite 0 (s.next oreq random false) := by
  cases h with
  | none h =>
    have hv : oreq.valid = true := congrArg CbusReq.valid ho
    obtain ⟨hn, hr⟩ := next_of_valid random h hv
    rw [hn] at hr ⊢
    refine .inl ⟨.wait rfl ?_, hr⟩
    rw [← modified_header, ← ho, modified_header]
    exact modified_self rfl
  | wait h hs =>
    by_cases hc : s.countDown = 0#8
    · rw [next_of_start oreq random h hc]
      exact .inr (beating_start ho hs)
    · obtain ⟨hn, hr⟩ := next_of_wait oreq random h hc
      rw [hn] at hr ⊢
      exact .inl ⟨.wait h hs, hr⟩

theorem Beating.ready (h : Beating r isWrite k s) : (s.oresp switch).ready = true := by
  rw [Ram.oresp, h.state]
  cases isWrite <;> rfl

/-- The beat `len` is the last one. -/
theorem Beating.last_iff (h : Beating r isWrite k s) :
    (s.oresp switch).last = true ↔ k = r.len.bits.toNat := by
  have hl : (s.oresp switch).last = (s.countDown == 0#8) := by
    rw [Ram.oresp, h.state]
    cases isWrite <;> rfl
  have hc := h.countDown
  rw [hl, beq_iff_eq, BitVec.toNat_eq, BitVec.toNat_ofNat, Nat.zero_mod]
  omega

/-- Reads must not be behind the end of the memory. -/
theorem Beating.rangeError_iff (h : Beating r isWrite k s) :
    s.rangeError = true ↔ r.Out isWrite k := by
  have hread : (s.state == .READ) = !isWrite := by
    rw [h.state]
    cases isWrite <;> rfl
  rw [rangeError, hread, Bool.and_eq_true, decide_eq_true_iff, idx, wordIdx_ge_iff, h.addr,
    Bool.not_eq_true', Out]

/-- The request is never found to be modified. -/
theorem Waiting.finished {i : In} (h : s.Waiting r isWrite)
    (hi : Axi.header i.oreq = Axi.header (r.creq isWrite 0#8 0#64)) : s.finished i = false := by
  have hm : s.modificationError i.oreq = false := by
    cases h with
    | none h => rw [modificationError, h]
    | wait h hs =>
      rw [modificationError_of_ne (by rw [h]; decide), ← modified_header, hi, modified_header, hs]
  rw [Ram.finished, h.oresp, rangeError, hm]
  cases h with
  | none h => rw [h]; rfl
  | wait h => rw [h]; rfl

theorem Beating.finished_iff {i : In} (h : Beating r isWrite k s)
    (hi : Axi.header i.oreq = Axi.header (r.creq isWrite 0#8 0#64)) :
    s.finished i = true ↔ k = r.len.bits.toNat ∨ r.Out isWrite k := by
  have hm : s.modificationError i.oreq = false := by
    have hne : s.state ≠ .NONE := by
      rw [h.state]
      cases isWrite <;> decide
    rw [modificationError_of_ne hne, ← modified_header, hi, modified_header, h.saved]
  rw [finished, hm, Bool.or_false, Bool.or_eq_true, h.last_iff, h.rangeError_iff]

theorem Beating.toNat_add_size (h : Beating r isWrite k s) :
    (s.addr + s.size.setWidth 64).toNat =
      r.size.bytes * (wrap (r.window isWrite) r.first k + 1) % 2 ^ 64 := by
  have hsize : (s.size.setWidth 64).toNat = r.size.bytes := by
    have hlt := s.size.isLt
    rw [BitVec.toNat_setWidth, Nat.mod_eq_of_lt (by omega), h.size]
  rw [BitVec.toNat_add, h.addr, hsize, beat, mul_add_one]

/-- A read wraps at the end of its window. -/
theorem Beating.toNat_nextRead (h : Beating r false k s) :
    s.nextRead.toNat = r.beat false (k + 1) := by
  have hpos := (r.window_mem false).1
  have hle := r.window_le false
  have hlt : wrap (r.window false) r.first k + 1 ≤
      lower (r.window false) r.first + r.window false := wrap_lt hpos
  rw [nextRead, beat, wrap_succ hpos]
  rcases hlt.eq_or_lt with heq | hlt
  · have hend : s.addr + s.size.setWidth 64 = s.wrap2 := by
      rw [BitVec.toNat_eq, h.toNat_add_size, h.wrap2, heq]
    rw [if_pos heq, if_pos hend, h.wrap1]
  · have hmul := Nat.mul_lt_mul_of_pos_left hlt r.bytes_pos
    have hadd := h.toNat_add_size
    rw [Nat.mod_eq_of_lt (hmul.trans_le hle)] at hadd
    -- The end of the window can be that of the memory, which is the address 0.
    have hend : s.addr + s.size.setWidth 64 ≠ s.wrap2 := by
      rw [ne_eq, BitVec.toNat_eq, hadd, h.wrap2]
      intro heq
      rcases hle.lt_or_eq with hle | hle
      · rw [Nat.mod_eq_of_lt hle] at heq
        exact hmul.ne heq
      · rw [hle, Nat.mod_self] at heq
        exact absurd heq (Nat.mul_pos r.bytes_pos (Nat.succ_pos _)).ne'
    rw [if_neg hlt.ne, if_neg hend, hadd]

/-- A write only wraps at the end of the memory. -/
theorem Beating.toNat_nextWrite (h : Beating r true k s) :
    s.nextWrite.toNat = r.beat true (k + 1) := by
  rw [nextWrite, h.toNat_add_size, beat, window_write, wrap_of_lt r.first_lt, wrap_of_lt r.first_lt,
    ← r.bytes_mul_total, Nat.mul_mod_mul_left, Nat.mod_add_mod, add_assoc]

variable (oreq) in
/-- What is written are no registers of the burst. -/
theorem Beating.write (h : Beating r isWrite k s) : Beating r isWrite k (s.tick.write oreq) := by
  rw [Ram.write]
  split_ifs <;> exact ⟨h.state, h.countDown, h.addr, h.size, h.wrap1, h.wrap2, h.saved⟩

theorem Beating.advance (h : Beating r isWrite k s) (hk : k ≠ r.len.bits.toNat)
    {addr' : BitVec 64} (ha : addr'.toNat = r.beat isWrite (k + 1)) :
    Beating r isWrite (k + 1) (s.advance addr') := by
  have hc := h.countDown
  have hpos : s.countDown.toNat ≠ 0 := by omega
  have hne : s.countDown ≠ 0#8 := fun h0 => hpos (congrArg BitVec.toNat h0)
  have hcount : (s.countDown - 1#8).toNat + (k + 1) = r.len.bits.toNat := by
    have hlt := s.countDown.isLt
    rw [BitVec.toNat_sub, BitVec.toNat_ofNat]
    omega
  rw [Ram.advance, if_neg hne]
  exact ⟨h.state, hcount, ha, h.size, h.wrap1, h.wrap2, h.saved⟩

variable (oreq random) in
/-- After a beat that is not the last one, there is the next one. -/
theorem Beating.next (h : Beating r isWrite k s) (hk : k ≠ r.len.bits.toNat) :
    Beating r isWrite (k + 1) (s.next oreq random false) := by
  have hs := h.state
  cases isWrite with
  | false =>
    have hn : s.next oreq random false = s.tick.advance s.nextRead := by
      simp [Ram.next, hs]
    have ht : Beating r false k s.tick :=
      ⟨h.state, h.countDown, h.addr, h.size, h.wrap1, h.wrap2, h.saved⟩
    rw [hn]
    exact ht.advance hk h.toNat_nextRead
  | true =>
    have hn : s.next oreq random false = (s.tick.write oreq).advance s.nextWrite := by
      simp [Ram.next, hs]
    rw [hn]
    exact (h.write oreq).advance hk h.toNat_nextWrite

/-! ## Runs of the memory -/

section Run

variable {s : ℕ → Ram} {i : ℕ → In}

/-- The request is not answered before its first beat, and that is bound to come. -/
theorem Serving.exists_first (h : Serving r isWrite s i) :
    ∃ a, (∀ t < a, (s t).Waiting r isWrite) ∧ Beating r isWrite 0 (s a) := by
  have hstep : ∀ t, (∀ u ≤ t, (s u).Waiting r isWrite) →
      (s (t + 1)).Waiting r isWrite ∧ (s (t + 1)).remaining < (s t).remaining ∨
        Beating r isWrite 0 (s (t + 1)) := by
    intro t ht
    have hheld := h.held t fun u hu => congrArg CbusResp.last (ht u hu.le).oresp
    rw [h.run.next]
    exact (ht t le_rfl).next _ hheld
  obtain ⟨t, -, ht, hb⟩ := exists_of_rank (P := fun t => ∀ u ≤ t, (s u).Waiting r isWrite)
    (E := fun t => Beating r isWrite 0 (s (t + 1))) (n := 0) (fun t => (s t).remaining)
    (fun u hu => Nat.le_zero.1 hu ▸ .none h.run.init) fun t _ ht hb => by
      obtain ⟨hw, hlt⟩ := (hstep t ht).resolve_right hb
      exact ⟨fun u hu => (Nat.le_succ_iff.1 hu).elim (ht u) fun he => he ▸ hw, hlt⟩
  exact ⟨t + 1, fun u hu => ht u (Nat.le_of_lt_succ hu), hb⟩

/-- From the first beat on, there is one beat per cycle. -/
theorem Serving.beating (h : Serving r isWrite s i) {a : ℕ} (hb : Beating r isWrite 0 (s a))
    (hk : k ≤ r.len.bits.toNat) : Beating r isWrite k (s (a + k)) := by
  induction k with
  | zero => exact hb
  | succ k ih =>
    rw [← Nat.add_assoc, h.run.next]
    exact (ih (Nat.le_of_succ_le hk)).next _ _ (Nat.ne_of_lt hk)

theorem map_accesses {a m : ℕ} (hw : ∀ t < a, (s t).Waiting r isWrite)
    (hb : ∀ k ≤ m, Beating r isWrite k (s (a + k))) :
    (accesses s i (a + m)).map BitVec.toNat = (List.range (m + 1)).map (r.beat isWrite) := by
  have hnil : (List.range a).filter (fun t => ((s t).oresp (i t).switch).ready) = [] := by
    rw [List.filter_eq_nil_iff]
    intro t ht
    rw [(hw t (List.mem_range.1 ht)).oresp]
    exact Bool.false_ne_true
  have hself : ((List.range (m + 1)).map (a + ·)).filter
      (fun t => ((s t).oresp (i t).switch).ready) = (List.range (m + 1)).map (a + ·) := by
    rw [List.filter_eq_self]
    intro t ht
    obtain ⟨k, hk, rfl⟩ := List.mem_map.1 ht
    exact (hb k (Nat.lt_succ_iff.1 (List.mem_range.1 hk))).ready
  rw [accesses, Nat.add_assoc, List.range_add, List.filter_append, hnil, hself, List.nil_append,
    List.map_map, List.map_map]
  exact List.map_congr_left fun k hk => (hb k (Nat.lt_succ_iff.1 (List.mem_range.1 hk))).addr

/-- The memory does the beats of the request. -/
theorem Serving.exists_ends (h : Serving r isWrite s i) :
    ∃ n, Ends s i n ∧ (accesses s i n).map BitVec.toNat = r.beats isWrite := by
  obtain ⟨a, hw, hb⟩ := h.exists_first
  have hbeat : ∀ k ≤ r.stop isWrite, Beating r isWrite k (s (a + k)) := fun k hk =>
    h.beating hb (hk.trans stop_le)
  -- No beat before the last one is answered with `last`.
  have hheld : ∀ k ≤ r.stop isWrite,
      Axi.header (i (a + k)).oreq = Axi.header (r.creq isWrite 0#8 0#64) := by
    intro k hk
    refine h.held _ fun u hu => ?_
    rcases Nat.lt_or_ge u a with hu | hua
    · exact congrArg CbusResp.last (hw u hu).oresp
    · obtain ⟨j, rfl⟩ := Nat.exists_eq_add_of_le hua
      have hj : j < r.stop isWrite := by omega
      exact Bool.eq_false_iff.2 fun hl =>
        not_of_lt_stop hj (.inl ((hbeat j hj.le).last_iff.1 hl))
  refine ⟨a + r.stop isWrite, ⟨?_, fun t ht => ?_⟩, ?_⟩
  · exact ((hbeat _ le_rfl).finished_iff (hheld _ le_rfl)).2 (r.stop_spec isWrite)
  · rcases Nat.lt_or_ge t a with hta | hat
    · exact (hw t hta).finished (h.held t fun u hu =>
        congrArg CbusResp.last (hw u (hu.trans hta)).oresp)
    · obtain ⟨k, rfl⟩ := Nat.exists_eq_add_of_le hat
      have hk : k < r.stop isWrite := Nat.lt_of_add_lt_add_left ht
      rw [Bool.eq_false_iff, ne_eq, (hbeat k hk.le).finished_iff (hheld k hk.le)]
      exact not_of_lt_stop hk
  · exact map_accesses hw hbeat

end Run

end Ram

/-! ## The bridge -/

/-- The addresses that AXI gives to the beats, by what is on the channel. -/
def AddrChannel.beats (c : AddrChannel) : List (BitVec 64) :=
  let t := AXITransaction.init c.addr (c.size.setWidth 64) (c.len.setWidth 64)
  match c.burst with
  | .FIXED => List.replicate (c.len.toNat + 1) c.addr
  | .INCR => c.addr :: (List.range c.len.toNat).map fun k =>
      t.alignedAddress + BitVec.ofNat 64 (k + 1) * t.numberBytes
  | .WRAP => (List.range (c.len.toNat + 1)).map fun k => (AXITransaction.sync^[k] t).addr
  | .RESERVED => []

/-- The channel for the address of a request. -/
def CBusToAXI.channel (b : CBusToAXI) (isWrite : Bool) : AddrChannel :=
  if isWrite then b.aw else b.ar

section Bridge

variable {r : BurstReq} {isWrite : Bool}

theorem CBusToAXI.beats_address (creq : CbusReq) : (address creq).beats =
    (List.range (creq.len.toNat + 1)).map fun k => (AXITransaction.sync^[k]
      (AXITransaction.init creq.addr (creq.size.setWidth 64) (creq.len.setWidth 64))).addr :=
  rfl

/-- The bridge takes the burst to be a wrapping one. -/
theorem BurstReq.map_beats_address :
    (CBusToAXI.address (r.creq isWrite 0#8 0#64)).beats.map BitVec.toNat =
      (List.range r.len.beats).map r.axiBeat := by
  have hof := AXITransaction.of_init r.len r.aligned
  have haddr := toNat_addr (r := r)
  have hle : r.size.bytes * (lower r.len.beats r.first + r.len.beats) ≤ 2 ^ 64 := by
    rw [← r.bytes_mul_total]
    exact Nat.mul_le_mul_left _ (lower_add_le r.beats_dvd_total.1 r.first_lt)
  rw [CBusToAXI.beats_address, List.map_map]
  refine List.map_congr_left fun k _ => ?_
  rw [Function.comp_apply, axiBeat]
  by_cases ht : r.Top
  · cases k with
    | zero =>
      rw [if_neg fun h => h.2 rfl, wrap_zero]
      exact haddr
    | succ k =>
      rw [if_pos ⟨ht, k.succ_ne_zero⟩]
      exact hof.addr_of_top ht k
  · rw [if_neg fun h => ht h.1]
    exact hof.toNat_addr r.bytes_pos r.beats_pos haddr (hle.lt_of_ne ht) k

/-- After an idle cycle with the request, the bridge presents its address. -/
theorem CBusToAXI.channel_next {b : CBusToAXI} {j : CBusToAXI.In} (hb : b.busy = false)
    (hj : Axi.header j.creq = Axi.header (r.creq isWrite 0#8 0#64)) :
    (b.next j false).channel isWrite = CBusToAXI.address (r.creq isWrite 0#8 0#64) := by
  have hidle : b.inIssue = 0#5 := bne_eq_false_iff_eq.1 hb
  have hv : j.creq.valid = true := congrArg CbusReq.valid hj
  have hw : j.creq.isWrite = isWrite := congrArg CbusReq.isWrite hj
  have haddr : address (Axi.header j.creq) = address (r.creq isWrite 0#8 0#64) := by
    rw [hj]
    rfl
  have hm : (b.next j false).inIssue = mask (!isWrite) (!isWrite) isWrite isWrite isWrite := by
    rw [Axi.next_of_idle j hidle, hv, if_pos rfl, nextIssue, hw]
    cases isWrite <;> rfl
  have hs : (b.next j false).savedReq = j.creq := congrArg savedReq (Axi.next_of_idle j hidle)
  obtain ⟨har, -, haw, -, -⟩ := Axi.channels_of_mask hm
  rw [channel, har, haw, hs, ← haddr]
  cases isWrite <;> rfl

end Bridge

/-! ## The two compared -/

namespace BurstReq

variable (r : BurstReq) (isWrite : Bool)

/-- The memory has the addresses of AXI. -/
def Agrees : Prop :=
  r.len = .MLEN1 ∨
    if isWrite then r.AtStart ∧ ¬r.Top
    else r.addr.toNat < 2 ^ 32 ∧ (r.burst = .WRAP ∨ r.burst = .INCR ∧ r.AtStart)

/-- The memory has the same addresses in writes and in reads. -/
def Repeats : Prop :=
  r.len = .MLEN1 ∨
    (r.burst = .INCR ∨ r.burst = .WRAP ∧ r.AtStart) ∧
      r.addr.toNat + r.size.bytes * r.len.bits.toNat ≤ 2 ^ 32

variable {r isWrite} {f : ℕ → ℕ}

/-- All beats are done, and the addresses are those of `f`. -/
theorem beats_eq_iff : r.beats isWrite = (List.range r.len.beats).map f ↔
    (∀ k < r.len.bits.toNat, ¬r.Out isWrite k) ∧ ∀ k < r.len.beats, r.beat isWrite k = f k := by
  constructor
  · intro h
    have hlen : r.stop isWrite + 1 = r.len.beats := by
      have := congrArg List.length h
      rwa [beats, List.length_map, List.length_map, List.length_range, List.length_range] at this
    rw [beats, hlen, List.map_inj_left] at h
    have heq : r.stop isWrite = r.len.bits.toNat := Nat.succ_injective hlen
    exact ⟨fun k hk ho => not_of_lt_stop (heq.symm ▸ hk) (.inr ho),
      fun k hk => h k (List.mem_range.2 hk)⟩
  · rintro ⟨hout, hf⟩
    have heq : r.stop isWrite = r.len.bits.toNat := by
      refine stop_le.eq_or_lt.resolve_right fun hlt => ?_
      exact (r.stop_spec isWrite).elim hlt.ne (hout _ hlt)
    rw [beats, heq]
    exact List.map_congr_left fun k hk => hf k (List.mem_range.1 hk)

/-- A single beat is done, anyway. -/
theorem beats_of_single (h : r.len = .MLEN1) (hf : f 0 = r.addr.toNat) :
    r.beats isWrite = (List.range r.len.beats).map f := by
  have hlen : r.len.bits.toNat = 0 := by
    rw [h]
    rfl
  rw [beats_eq_iff]
  refine ⟨fun k hk => absurd hk (by omega), fun k hk => ?_⟩
  obtain rfl : k = 0 := Nat.lt_one_iff.1 (hk.trans_eq (congrArg Nat.succ hlen))
  rw [beat_zero, hf]

theorem axiBeat_of_not_top (h : ¬r.Top) (k : ℕ) :
    r.axiBeat k = r.size.bytes * wrap r.len.beats r.first k := by
  rw [axiBeat, if_neg fun h' => h h'.1]

theorem mul_wrap_inj {a b : ℕ} : r.size.bytes * a = r.size.bytes * b ↔ a = b :=
  Nat.mul_right_inj r.bytes_pos.ne'

/-- In windows of all of the memory, only the bursts from the start of a window of their own
    do not leave it. -/
theorem atStart_iff (hw : r.window isWrite = r.total) :
    (∀ k < r.len.beats, r.beat isWrite k = r.size.bytes * wrap r.len.beats r.first k) ↔
      r.AtStart := by
  obtain ⟨hdvd, hlt⟩ := r.beats_dvd_total
  rw [AtStart, ← wrap_eq_wrap_iff r.beats_pos hdvd hlt r.first_lt]
  refine forall₂_congr fun k _ => ?_
  rw [beat, hw]
  exact mul_wrap_inj

/-- The wrapping burst from an address in range is in range. -/
theorem window_in_range (h : r.addr.toNat < 2 ^ 32) :
    r.size.bytes * (lower r.len.beats r.first + r.len.beats) ≤ 2 ^ 32 := by
  obtain ⟨m, hm, hbytes, -⟩ := r.exists_two_pow
  refine mul_lower_add_le ?_ (r.toNat_addr ▸ h)
  rw [hbytes]
  exact Nat.pow_dvd_pow 2 hm.le

/-- The address of the first beat is in range, unless that is the last one, too. -/
theorem in_range_of_not_out (hn : r.len ≠ .MLEN1)
    (h : ∀ k < r.len.bits.toNat, ¬r.Out false k) : r.addr.toNat < 2 ^ 32 := by
  have hlt : 1 < r.len.beats := one_lt_beats hn
  have h0 := h 0 (Nat.lt_of_succ_lt_succ hlt)
  rw [Out, beat_zero] at h0
  exact Nat.lt_of_not_le fun hle => h0 ⟨rfl, hle⟩

theorem write_agrees_iff (hn : r.len ≠ .MLEN1) :
    (∀ k < r.len.beats, r.beat true k = r.axiBeat k) ↔ r.AtStart ∧ ¬r.Top := by
  obtain ⟨hdvd, hlt⟩ := r.beats_dvd_total
  by_cases ht : r.Top
  · refine ⟨fun h => ?_, fun h => absurd ht h.2⟩
    have h1 := h 1 (one_lt_beats hn)
    rw [beat, axiBeat, if_pos ⟨ht, one_ne_zero⟩, mul_wrap_inj] at h1
    exact absurd h1 (wrap_one_ne_lower r.beats_pos hdvd hlt r.first_lt)
  · simp only [axiBeat_of_not_top ht]
    rw [atStart_iff window_write, and_iff_left ht]

theorem read_agrees_iff (hn : r.len ≠ .MLEN1) :
    (∀ k < r.len.bits.toNat, ¬r.Out false k) ∧
        (∀ k < r.len.beats, r.beat false k = r.axiBeat k) ↔
      r.addr.toNat < 2 ^ 32 ∧ (r.burst = .WRAP ∨ r.burst = .INCR ∧ r.AtStart) := by
  by_cases ha : r.addr.toNat < 2 ^ 32
  swap
  · exact ⟨fun h => absurd (in_range_of_not_out hn h.1) ha, fun h => absurd h.1 ha⟩
  have hle := window_in_range ha
  have ht : ¬r.Top := fun ht => absurd (ht ▸ hle) (by decide)
  simp only [axiBeat_of_not_top ht]
  -- The addresses of a wrapping burst are in range.
  have hout : (∀ k < r.len.beats, r.beat false k = r.size.bytes * wrap r.len.beats r.first k) →
      ∀ k < r.len.bits.toNat, ¬r.Out false k := by
    rintro h k hk ⟨-, hge⟩
    rw [h k (Nat.lt_succ_of_lt hk)] at hge
    have hlt := Nat.mul_lt_mul_of_pos_left (wrap_lt (y := r.first) (k := k) r.beats_pos) r.bytes_pos
    exact absurd (hlt.trans_le hle) hge.not_gt
  rw [and_iff_right ha, and_iff_right_of_imp hout]
  cases hb : r.burst with
  | FIXED =>
    refine ⟨fun h => ?_, fun h => by simp at h⟩
    have h1 := h 1 (one_lt_beats hn)
    rw [beat, window_fixed hb, wrap_one, mul_wrap_inj] at h1
    exact absurd h1.symm (wrap_ne (one_lt_beats hn))
  | INCR =>
    rw [atStart_iff (window_incr hb)]
    simp
  | WRAP =>
    refine ⟨fun _ => .inl rfl, fun _ k _ => ?_⟩
    rw [beat, window_wrap hb]
  | RESERVED => exact absurd hb r.burst_ne

/-- The memory has the addresses of AXI in these cases, and in no others. -/
theorem beats_eq_axi_iff :
    r.beats isWrite = (List.range r.len.beats).map r.axiBeat ↔ r.Agrees isWrite := by
  rw [Agrees]
  by_cases hn : r.len = .MLEN1
  · refine ⟨fun _ => .inl hn, fun _ => beats_of_single hn ?_⟩
    rw [axiBeat, if_neg fun h => h.2 rfl, wrap_zero, toNat_addr]
  · rw [or_iff_right hn, beats_eq_iff]
    cases isWrite with
    | false => exact read_agrees_iff hn
    | true =>
      rw [if_pos rfl, ← write_agrees_iff hn]
      exact and_iff_right fun k _ h => absurd h.1 Bool.false_ne_true.symm

theorem beats_write : r.beats true = (List.range r.len.beats).map (r.beat true) :=
  beats_eq_iff.2 ⟨fun _ _ h => absurd h.1 Bool.false_ne_true.symm, fun _ _ => rfl⟩

theorem beat_write (h : r.size.bytes * (r.first + k) < 2 ^ 64) :
    r.beat true k = r.size.bytes * (r.first + k) := by
  rw [← r.bytes_mul_total] at h
  rw [beat, window_write, wrap_of_lt r.first_lt, Nat.mod_eq_of_lt (Nat.lt_of_mul_lt_mul_left h)]

/-- The addresses of a write are in range, except for the last one, which may be the end. -/
theorem write_in_range_iff (hn : r.len ≠ .MLEN1) :
    (∀ k < r.len.bits.toNat, r.beat true k < 2 ^ 32) ↔
      r.addr.toNat + r.size.bytes * r.len.bits.toNat ≤ 2 ^ 32 := by
  obtain ⟨m, hm, hbytes, -⟩ := r.exists_two_pow
  have hlen : 1 < r.len.beats := one_lt_beats hn
  have hsmall : r.size.bytes * r.len.bits.toNat < 2 ^ 32 :=
    calc r.size.bytes * r.len.bits.toNat < r.size.bytes * r.len.beats :=
          Nat.mul_lt_mul_of_pos_left (Nat.lt_succ_self _) r.bytes_pos
      _ = 2 ^ m := hbytes
      _ < 2 ^ 32 := Nat.pow_lt_pow_right (by omega) hm
  rw [toNat_addr, ← mul_add]
  constructor
  · intro h
    have hpos : 0 < r.len.bits.toNat := Nat.lt_of_succ_lt_succ hlen
    have h0 := h 0 hpos
    have hlast := h (r.len.bits.toNat - 1) (Nat.pred_lt hpos.ne')
    rw [beat_zero, toNat_addr] at h0
    have hle : r.size.bytes * (r.first + (r.len.bits.toNat - 1)) ≤
        r.size.bytes * r.first + r.size.bytes * r.len.bits.toNat := by
      rw [← mul_add]
      exact Nat.mul_le_mul_left _ (by omega)
    rw [beat_write (by omega)] at hlast
    -- The end of the memory is the start of a beat.
    obtain ⟨c, hc⟩ : r.size.bytes ∣ 2 ^ 32 := by
      cases r.size <;> decide
    rw [hc] at hlast ⊢
    have hlt := Nat.lt_of_mul_lt_mul_left hlast
    exact Nat.mul_le_mul_left _ (by omega)
  · intro h k hk
    have hlt : r.size.bytes * (r.first + k) < 2 ^ 32 :=
      (Nat.mul_lt_mul_of_pos_left (Nat.add_lt_add_left hk _) r.bytes_pos).trans_le h
    rw [beat_write (hlt.trans (by decide))]
    exact hlt

theorem read_eq_write_iff (hn : r.len ≠ .MLEN1) :
    (∀ k < r.len.beats, r.beat false k = r.beat true k) ↔
      r.burst = .INCR ∨ r.burst = .WRAP ∧ r.AtStart := by
  cases hb : r.burst with
  | FIXED =>
    refine ⟨fun h => ?_, fun h => by simp at h⟩
    have h1 := h 1 (one_lt_beats hn)
    rw [beat, beat, window_fixed hb, wrap_one, mul_wrap_inj] at h1
    exact absurd h1.symm (wrap_ne ((one_lt_beats hn).trans r.beats_dvd_total.2))
  | INCR =>
    refine ⟨fun _ => .inl rfl, fun _ k _ => ?_⟩
    rw [beat, window_incr hb]
    rfl
  | WRAP =>
    have hread : ∀ k, r.beat false k = r.size.bytes * wrap r.len.beats r.first k := fun k => by
      rw [beat, window_wrap hb]
    have heq : (∀ k < r.len.beats, r.beat false k = r.beat true k) ↔ r.AtStart := by
      rw [← atStart_iff window_write]
      exact forall₂_congr fun k _ => by rw [hread, eq_comm]
    rw [heq]
    simp
  | RESERVED => exact absurd hb r.burst_ne

/-- A write and a read have the same addresses in these cases, and in no others. -/
theorem write_eq_read_iff : r.beats true = r.beats false ↔ r.Repeats := by
  rw [eq_comm, beats_write, Repeats]
  by_cases hn : r.len = .MLEN1
  · exact ⟨fun _ => .inl hn, fun _ => beats_of_single hn beat_zero⟩
  · rw [or_iff_right hn, beats_eq_iff, ← read_eq_write_iff hn, ← write_in_range_iff hn, and_comm]
    refine and_congr_right fun h => forall₂_congr fun k hk => ?_
    rw [Out, h k (Nat.lt_succ_of_lt hk), not_and, Nat.not_le]
    exact ⟨fun h => h rfl, fun h _ => h⟩

end BurstReq

section Bursts

variable {r : BurstReq} {s : Bool → ℕ → Ram} {i : Bool → ℕ → Ram.In} {b : Bool → CBusToAXI}
  {j : Bool → CBusToAXI.In}

/-- The memory and the bridge have the same addresses for a request, and the memory the same
    ones for a write and a read of it, in these cases and in no others. -/
theorem bursts_agree_iff (hs : ∀ isWrite, Ram.Serving r isWrite (s isWrite) (i isWrite))
    (hb : ∀ isWrite, (b isWrite).busy = false)
    (hj : ∀ isWrite, Axi.header (j isWrite).creq = Axi.header (r.creq isWrite 0#8 0#64)) :
    ∃ n : Bool → ℕ, (∀ isWrite, Ram.Ends (s isWrite) (i isWrite) (n isWrite)) ∧
      (∀ isWrite, Ram.accesses (s isWrite) (i isWrite) (n isWrite) =
        (((b isWrite).next (j isWrite) false).channel isWrite).beats ↔ r.Agrees isWrite) ∧
      (Ram.accesses (s true) (i true) (n true) = Ram.accesses (s false) (i false) (n false) ↔
        r.Repeats) := by
  choose n hends hacc using fun isWrite => (hs isWrite).exists_ends
  have hinj : Function.Injective (List.map (BitVec.toNat (w := 64))) :=
    List.map_injective_iff.2 fun _ _ => BitVec.eq_of_toNat_eq
  refine ⟨n, hends, fun isWrite => ?_, ?_⟩
  · rw [CBusToAXI.channel_next (hb isWrite) (hj isWrite), ← hinj.eq_iff, hacc isWrite,
      BurstReq.map_beats_address, BurstReq.beats_eq_axi_iff]
  · rw [← hinj.eq_iff, hacc true, hacc false, BurstReq.write_eq_read_iff]

/-- Two beats that wrap, from the second half of their window on. -/
def halfWay : BurstReq where
  size := .MSIZE8
  len := .MLEN2
  addr := 0x80000008#64
  aligned := rfl
  burst := .WRAP
  burst_ne := by decide

/-- The request, presented to an idle memory. -/
def present (r : BurstReq) (isWrite : Bool) (_ : ℕ) : Ram.In :=
  { oreq := r.creq isWrite 0xff#8 0#64, random := 0#32, switch := 0#32 }

def served (r : BurstReq) (isWrite : Bool) : ℕ → Ram :=
  Ram.machine.run (.ofMem fun _ => 0#64) (present r isWrite)

/-- The request, presented to a bridge. -/
def issue (r : BurstReq) (isWrite : Bool) : CBusToAXI.In :=
  { creq := r.creq isWrite 0xff#8 0#64, arready := false, rdata := 0#64, rlast := false,
    rvalid := false, awready := false, wready := false, bvalid := false }

/-- The channel of the address, after an idle cycle with the request. -/
def issued (r : BurstReq) (isWrite : Bool) : AddrChannel :=
  ((CBusToAXI.mk 0#5 .zero 0#8).next (issue r isWrite) false).channel isWrite

theorem serving_served (r : BurstReq) (isWrite : Bool) :
    Ram.Serving r isWrite (served r isWrite) (present r isWrite) :=
  ⟨Ram.machine.isRun_run rfl fun _ => trivial, fun _ _ => rfl⟩

/-- The read of it wraps, as on AXI. -/
theorem bursts_agree_read : ∃ n, Ram.Ends (served halfWay false) (present halfWay false) n ∧
    Ram.accesses (served halfWay false) (present halfWay false) n =
      (issued halfWay false).beats := by
  obtain ⟨n, hn, h, -⟩ := bursts_agree_iff (serving_served halfWay)
    (b := fun _ => CBusToAXI.mk 0#5 .zero 0#8) (j := issue halfWay) (fun _ => rfl) fun _ => rfl
  exact ⟨n false, hn false, (h false).2 (.inr ⟨by decide, .inl rfl⟩)⟩

/-- The write of it does not: it has the addresses `80000008` and `80000010`, and the read, as
    AXI, `80000008` and `80000000`. -/
theorem bursts_disagree :
    Ram.Serving halfWay true (served halfWay true) (present halfWay true) ∧
    Ram.Serving halfWay false (served halfWay false) (present halfWay false) ∧
    Ram.Ends (served halfWay true) (present halfWay true) 5 ∧
    Ram.Ends (served halfWay false) (present halfWay false) 5 ∧
    Ram.accesses (served halfWay true) (present halfWay true) 5 ≠ (issued halfWay true).beats ∧
    Ram.accesses (served halfWay true) (present halfWay true) 5 ≠
      Ram.accesses (served halfWay false) (present halfWay false) 5 := by
  refine ⟨serving_served _ _, serving_served _ _, ⟨?_, ?_⟩, ⟨?_, ?_⟩, ?_, ?_⟩ <;> decide

end Bursts

end RiscvCpu
