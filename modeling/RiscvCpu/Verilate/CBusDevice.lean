import RiscvCpu.Bus.Transaction
import RiscvCpu.Memory
import RiscvCpu.Verilate.AXITransaction

/-!
# The slave of the simulation

The simulation has a slave of its own for the cache bus, in front of any memory. It takes a
request, and then does a beat of it in every cycle in which it is not paused.

To a requester that holds its request until the response with `last`, the slave is a memory
that does the beats of one request after the other (`Serves`, `serves`): each request has
`len + 1` beats, at the addresses of a transaction, and only the last of them has `last`. No
assertion fails, and a pause only delays what follows.
-/

namespace RiscvCpu

open Sync

/-- `class IMemory`. Loads can have effects, in a device. -/
structure IMemory (M : Type*) where
  reset : M → M
  load : M → BitVec 64 → BitVec 64 × M
  store : M → BitVec 64 → BitVec 64 → BitVec 64 → M

/-- `struct AXITransaction`. -/
structure BusyTransaction where
  busy : Bool
  isWrite : Bool
  tx : AXITransaction
  deriving DecidableEq, Repr

/-- After `memset`. -/
def BusyTransaction.zero : BusyTransaction :=
  ⟨false, false, false, 0#64, 0#64, 0#64, 0#64, 0#64, 0#64, 0#64, 0#64⟩

structure CBusDevice (M : Type*) where
  mem : M
  enable : Bool
  strobe : BitVec 64
  data : BitVec 64
  tx : BusyTransaction
  /-- The new state of the transaction. -/
  ntx : BusyTransaction

namespace CBusDevice

def STROBE_TO_MASK : Vector (BitVec 64) 16 :=
  #v[0x00000000, 0x000000ff, 0x0000ff00, 0x0000ffff,
    0x00ff0000, 0x00ff00ff, 0x00ffff00, 0x00ffffff,
    0xff000000, 0xff0000ff, 0xff00ff00, 0xff00ffff,
    0xffff0000, 0xffff00ff, 0xffffff00, 0xffffffff]

/-- The mask of a strobe, out of two halves. -/
def strobeMask (strobe : BitVec 64) : BitVec 64 :=
  let mask1 := STROBE_TO_MASK.get (strobe.setWidth 4).toFin
  let mask2 := STROBE_TO_MASK.get ((strobe >>> 4).setWidth 4).toFin
  (mask2 <<< 32) ||| mask1

theorem strobeMask_setWidth (strobe : BitVec 8) :
    strobeMask (strobe.setWidth 64) = Words.wmask strobe := by
  revert strobe
  decide +kernel

variable {M : Type*} (mem : IMemory M) (d : CBusDevice M)

/-! ## A cycle -/

def reset : CBusDevice M :=
  { d with mem := mem.reset d.mem, tx := .zero, ntx := .zero, strobe := 0#64, data := 0#64 }

def evalResp : CbusResp × CBusDevice M :=
  if !d.enable then (.zero, d)
  else if d.tx.busy then
    -- Data is fetched if it is needed.
    if !d.tx.isWrite then
      let (data, m) := mem.load d.mem d.tx.tx.addr
      (⟨true, d.tx.tx.last, data⟩, { d with mem := m })
    else (⟨true, d.tx.tx.last, 0#64⟩, d)
  else (.zero, d)

/-- The assertions of `eval_req`. -/
def asserts (req : CbusReq) : Bool :=
  !d.enable || !d.tx.busy ||
    req.valid && req.isWrite == d.tx.isWrite &&
      (1#32 <<< req.size.toNat).setWidth 64 == d.tx.tx.numberBytes &&
      req.addr == d.tx.tx.startAddress && req.len.setWidth 64 + 1#64 == d.tx.tx.burstLength

def evalReq (req : CbusReq) : CBusDevice M :=
  if !d.enable then d
  else if d.tx.busy then
    { d with
      strobe := req.strobe.setWidth 64
      data := req.data
      ntx := if d.tx.tx.last then .zero else { d.ntx with tx := d.ntx.tx.sync } }
  else if req.valid then
    { d with
      ntx := ⟨true, req.isWrite, .init req.addr (req.size.setWidth 64) (req.len.setWidth 64)⟩ }
  else d

/-- The clock edge, and whether the device is paused in the next cycle. -/
def sync (enable : Bool) : CBusDevice M :=
  let d :=
    if d.enable then
      if d.tx.busy && d.tx.isWrite then
        { d with
          mem := mem.store d.mem d.tx.tx.addr d.data (strobeMask d.strobe)
          strobe := 0#64
          data := 0#64
          tx := d.ntx }
      else { d with tx := d.ntx }
    else d
  { d with enable }

/-- The inputs in a cycle. -/
structure In where
  req : CbusReq
  enable : Bool

def resp : CbusResp := (d.evalResp mem).1

/-- The device after a cycle. -/
def next (i : In) : CBusDevice M := (((d.evalResp mem).2.evalReq i.req).sync mem i.enable)

/-- The device, with any requests and pauses. -/
def machine : Machine (CBusDevice M) In where
  init := Set.range (reset mem)
  admits _ := Set.univ
  next d i := d.next mem i

/-! ## Operations of the memory -/

/-- A beat. -/
inductive Op
  | load (addr : BitVec 64)
  | store (addr data : BitVec 64) (strobe : BitVec 8)

def Op.exec (m : M) : Op → M
  | load addr => (mem.load m addr).2
  | store addr data strobe => mem.store m addr data (Words.wmask strobe)

/-- The beat that is done in this cycle. -/
def op (i : In) : Option Op :=
  if (d.resp mem).ready then
    some (if d.tx.isWrite then .store d.tx.tx.addr i.req.data i.req.strobe
      else .load d.tx.tx.addr)
  else none

section Spec

variable (s : ℕ → CBusDevice M) (i : ℕ → In)

/-- The request is held until the response with `last`. -/
def Held : Prop :=
  Sync.Held (fun r : CbusReq => r.valid = true) (fun t => Axi.header (i t).req)
    (fun t => ((s t).resp mem).last = true)

def Presented : ℕ → Prop :=
  Sync.Presented (fun r : CbusReq => r.valid = true) (fun t => Axi.header (i t).req)
    (fun t => ((s t).resp mem).last = true)

def Answers : ℕ → ℕ → Prop :=
  Sync.Answers (fun t => Axi.header (i t).req) (fun t => ((s t).resp mem).last = true)

/-- The number of beats in the `m` cycles from `t` on. -/
def beats (t m : ℕ) : ℕ := Nat.count (fun j => ((s (t + j)).resp mem).ready = true) m

/-- The address of the beat `k` of a request. -/
def beatAddr (req : CbusReq) (k : ℕ) : BitVec 64 :=
  (AXITransaction.sync^[k]
    (.init req.addr (req.size.setWidth 64) (req.len.setWidth 64))).addr

/-- A memory that does the beats of one request after the other. -/
structure Serves : Prop where
  no_error : ∀ n, (s n).asserts (i n).req = true
  /-- Every response with `last` ends one request. -/
  last_presented : ∀ n, ((s n).resp mem).last = true →
    (i n).req.valid = true ∧ ∃! t, Presented mem s i t ∧ Answers mem s i t n
  /-- Every request is ended, if the device is not paused for ever. -/
  last_answer : (∀ n, ∃ k ≥ n, (s k).enable = true) → ∀ t, Presented mem s i t →
    ∃! n, Answers mem s i t n
  /-- A beat belongs to a request, and is the one that is due. -/
  beat : ∀ n, ((s n).resp mem).ready = true → ∃ t m, n = t + m ∧ Presented mem s i t ∧
    (∀ j < m, ((s (t + j)).resp mem).last = false) ∧
    beats mem s t m ≤ (i t).req.len.toNat ∧
    (((s n).resp mem).last = true ↔ beats mem s t m = (i t).req.len.toNat) ∧
    (s n).op mem (i n) = some (if (i t).req.isWrite then
        .store (beatAddr (i t).req (beats mem s t m)) (i n).req.data (i n).req.strobe
      else .load (beatAddr (i t).req (beats mem s t m)))
  /-- A load responds with what is in memory. -/
  data : ∀ n addr, (s n).op mem (i n) = some (.load addr) →
    ((s n).resp mem).data = (mem.load (s n).mem addr).1
  /-- The memory is what the beats have made of it. -/
  contents : ∀ n, (s n).mem = (ops (fun t => (s t).op mem (i t)) n).foldl (Op.exec mem) (s 0).mem
  /-- A cycle without a beat has no response. -/
  quiet : ∀ n, ((s n).resp mem).ready = false → (s n).resp mem = .zero

end Spec

/-! ## One cycle -/

section Cycle

variable {d : CBusDevice M} {i : In} {req : CbusReq} {k : ℕ}

/-- The transaction of a request, in its beat `k`. -/
def beatTx (req : CbusReq) (k : ℕ) : BusyTransaction :=
  ⟨true, req.isWrite, AXITransaction.sync^[k]
    (.init req.addr (req.size.setWidth 64) (req.len.setWidth 64))⟩

/-- There is no request in progress. -/
structure Idle (d : CBusDevice M) : Prop where
  tx : d.tx.busy = false
  ntx : d.ntx = d.tx

/-- The beat `k` of the request is next. -/
structure Beat (d : CBusDevice M) (req : CbusReq) (k : ℕ) : Prop where
  valid : req.valid = true
  le : k ≤ req.len.toNat
  tx : d.tx = beatTx req k
  ntx : d.ntx = d.tx

theorem Beat.congr {req' : CbusReq} (h : Beat d req k) (hh : Axi.header req' = Axi.header req) :
    Beat d req' k := by
  simp only [Axi.header, CbusReq.mk.injEq, true_and] at hh
  obtain ⟨hv, hw, hs, ha, hl, -⟩ := hh
  refine ⟨hv.trans h.valid, hl ▸ h.le, ?_, h.ntx⟩
  rw [h.tx, beatTx, beatTx, hw, hs, ha, hl]

theorem last_beatTx (hk : k ≤ req.len.toNat) :
    (beatTx req k).tx.last = decide (k = req.len.toNat) :=
  AXITransaction.last_iterate_sync hk

theorem beatTx_succ : { beatTx req k with tx := (beatTx req k).tx.sync } = beatTx req (k + 1) := by
  rw [beatTx, beatTx, Function.iterate_succ_apply']

theorem idle_reset : Idle (d.reset mem) := ⟨rfl, rfl⟩

variable {mem}

theorem Idle.resp (h : Idle d) : d.evalResp mem = (.zero, d) := by
  rw [evalResp, h.tx]
  cases d.enable <;> rfl

theorem resp_of_paused (he : d.enable = false) : d.evalResp mem = (.zero, d) := by
  rw [evalResp, he]
  rfl

theorem Idle.asserts (h : Idle d) : d.asserts req = true := by
  rw [CBusDevice.asserts, h.tx]
  cases d.enable <;> rfl

variable (mem i) in
/-- A request is taken, unless the device is paused. -/
theorem Idle.next (h : Idle d) :
    if d.enable = true ∧ i.req.valid = true then Beat (d.next mem i) i.req 0
    else Idle (d.next mem i) := by
  rw [CBusDevice.next, h.resp]
  cases he : d.enable with
  | false => simpa [evalReq, sync, he] using ⟨h.tx, h.ntx⟩
  | true =>
    cases hv : i.req.valid with
    | false => simpa [evalReq, sync, he, h.tx, hv, h.ntx] using ⟨h.tx, rfl⟩
    | true =>
      simp only [evalReq, sync, he, h.tx, hv, Bool.not_true, Bool.false_eq_true, if_false, if_true,
        Bool.false_and, and_self]
      exact ⟨hv, Nat.zero_le _, rfl, rfl⟩

variable (mem i) in
/-- In a paused cycle, nothing happens. -/
theorem next_of_paused (he : d.enable = false) :
    (d.next mem i).tx = d.tx ∧ (d.next mem i).ntx = d.ntx := by
  rw [CBusDevice.next, resp_of_paused he]
  simp [evalReq, CBusDevice.sync, he]

theorem Beat.resp (h : Beat d req k) (he : d.enable = true) : d.resp mem =
    ⟨true, decide (k = req.len.toNat),
      if req.isWrite then 0#64 else (mem.load d.mem (beatAddr req k)).1⟩ := by
  rw [CBusDevice.resp, evalResp, he, h.tx, ← last_beatTx h.le]
  cases hw : req.isWrite <;> simp [beatTx, beatAddr, hw]

theorem Beat.asserts (h : Beat d req k) : d.asserts req = true := by
  obtain ⟨-, hl⟩ := AXITransaction.iterate_sync_N
    (t := .init req.addr (req.size.setWidth 64) (req.len.setWidth 64)) k
  obtain ⟨hb, ha⟩ := AXITransaction.iterate_sync_startAddress
    (t := .init req.addr (req.size.setWidth 64) (req.len.setWidth 64)) k
  have hsize : (req.size.setWidth 64).toNat = req.size.toNat :=
    BitVec.toNat_setWidth_of_le (by decide)
  rw [CBusDevice.asserts, h.tx, h.valid, beatTx, hl, hb, ha, AXITransaction.init, hsize]
  simp

variable (mem i) in
/-- In a beat, the transaction advances. -/
theorem next_of_busy (he : d.enable = true) (hb : d.tx.busy = true) :
    (d.next mem i).tx = (if d.tx.tx.last then .zero else { d.ntx with tx := d.ntx.tx.sync }) ∧
      (d.next mem i).ntx = (d.next mem i).tx := by
  -- The response only changes the memory.
  obtain ⟨m, hm⟩ : ∃ m, (d.evalResp mem).2 = { d with mem := m } := by
    obtain ⟨m, enable, strobe, data, tx, ntx⟩ := d
    obtain rfl : enable = true := he
    rw [evalResp, hb]
    cases tx.isWrite with
    | false => exact ⟨_, rfl⟩
    | true => exact ⟨m, rfl⟩
  rw [CBusDevice.next, hm, evalReq, CBusDevice.sync]
  cases hw : d.tx.isWrite <;> simp [he, hb, hw]

variable (mem) in
/-- A beat is done, unless the device is paused. -/
theorem Beat.next (h : Beat d i.req k) (he : d.enable = true) :
    if k = i.req.len.toNat then Idle (d.next mem i) else Beat (d.next mem i) i.req (k + 1) := by
  obtain ⟨htx, hntx⟩ := next_of_busy mem i he (congrArg BusyTransaction.busy h.tx)
  rw [h.ntx, h.tx, last_beatTx h.le, beatTx_succ] at htx
  split_ifs with hk
  · rw [if_pos (decide_eq_true hk)] at htx
    exact ⟨congrArg BusyTransaction.busy htx, hntx⟩
  · rw [if_neg (by rwa [decide_eq_true_iff])] at htx
    exact ⟨h.valid, Nat.lt_of_le_of_ne h.le hk, htx, hntx⟩

variable (mem d i) in
/-- The operation of the cycle is done in memory. -/
theorem mem_next : (d.next mem i).mem = (d.op mem i).elim d.mem (Op.exec mem d.mem) := by
  have hm := strobeMask_setWidth i.req.strobe
  cases he : d.enable with
  | false => simp [CBusDevice.next, op, CBusDevice.resp, evalResp, evalReq, CBusDevice.sync, he,
      CbusResp.zero]
  | true =>
    cases hb : d.tx.busy with
    | false =>
      cases hv : i.req.valid <;> simp [CBusDevice.next, op, CBusDevice.resp, evalResp, evalReq,
        CBusDevice.sync, he, hb, hv, CbusResp.zero]
    | true =>
      cases hw : d.tx.isWrite <;> simp [CBusDevice.next, op, CBusDevice.resp, evalResp, evalReq,
        CBusDevice.sync, he, hb, hw, Op.exec, hm]

end Cycle

/-! ## Runs -/

section Run

variable {mem} {s : ℕ → CBusDevice M} {i : ℕ → In} {req : CbusReq} {t m n k : ℕ}

theorem not_last_of_idle {d : CBusDevice M} (h : Idle d) : ¬(d.resp mem).last = true := by
  rw [CBusDevice.resp, h.resp]
  exact Bool.false_ne_true

theorem not_last_of_paused {d : CBusDevice M} (he : d.enable = false) :
    ¬(d.resp mem).last = true := by
  rw [CBusDevice.resp, resp_of_paused he]
  exact Bool.false_ne_true

theorem Beat.ready {d : CBusDevice M} (h : Beat d req k) : (d.resp mem).ready = d.enable := by
  cases he : d.enable with
  | false => rw [CBusDevice.resp, resp_of_paused he, CbusResp.zero]
  | true => rw [h.resp he]

theorem Beat.last_iff {d : CBusDevice M} (h : Beat d req k) :
    (d.resp mem).last = true ↔ d.enable = true ∧ k = req.len.toNat := by
  cases he : d.enable with
  | false => simp [not_last_of_paused he]
  | true => simp [h.resp he]

/-- A request that is not taken is still there. -/
theorem Idle.succ (hr : (machine mem).IsRun s i) (hh : Held mem s i) (h : Idle (s n)) :
    if (s n).enable = true ∧ (i n).req.valid = true then Beat (s (n + 1)) (i (n + 1)).req 0
    else Idle (s (n + 1)) := by
  have hn := h.next mem (i n)
  rw [hr.next]
  split_ifs at hn ⊢ with hv
  · exact hn.congr (hh n hv.2 (not_last_of_idle h))
  · exact hn

theorem Beat.succ (hr : (machine mem).IsRun s i) (hh : Held mem s i)
    (h : Beat (s n) (i n).req k) :
    if ((s n).resp mem).last = true then Idle (s (n + 1))
    else Beat (s (n + 1)) (i (n + 1)).req (if (s n).enable then k + 1 else k) := by
  rw [hr.next]
  split_ifs with hl he
  · have hn := h.next mem (h.last_iff.1 hl).1
    rwa [if_pos (h.last_iff.1 hl).2] at hn
  · have hn := h.next mem he
    rw [if_neg fun hk => hl (h.last_iff.2 ⟨he, hk⟩)] at hn
    exact hn.congr (hh n h.valid hl)
  · obtain ⟨htx, hntx⟩ := next_of_paused mem (i n) (Bool.eq_false_iff.2 he)
    have hn : Beat ((s n).next mem (i n)) (i n).req k :=
      ⟨h.valid, h.le, htx.trans h.tx, by rw [hntx, htx, h.ntx]⟩
    exact hn.congr (hh n h.valid hl)

theorem idle_or_beat (hr : (machine mem).IsRun s i) (hh : Held mem s i) (n : ℕ) :
    Idle (s n) ∨ ∃ k, Beat (s n) (i n).req k := by
  induction n with
  | zero =>
    obtain ⟨d, hd⟩ := hr.init
    exact .inl (hd ▸ idle_reset mem)
  | succ n ih =>
    rcases ih with h | ⟨k, h⟩
    · have hn := h.succ hr hh
      split_ifs at hn
      · exact .inr ⟨0, hn⟩
      · exact .inl hn
    · have hn := h.succ hr hh
      split_ifs at hn
      · exact .inl hn
      · exact .inr ⟨_, hn⟩
      · exact .inr ⟨_, hn⟩

/-- When a request is presented, the one before it is done. -/
theorem idle_of_presented (hr : (machine mem).IsRun s i) (hh : Held mem s i)
    (hp : Presented mem s i t) : Idle (s t) := by
  cases t with
  | zero =>
    obtain ⟨d, hd⟩ := hr.init
    exact hd ▸ idle_reset mem
  | succ u =>
    rcases idle_or_beat hr hh u with h | ⟨k, h⟩
    · have hn := h.succ hr hh
      rwa [if_neg fun hv => not_last_of_idle h (hp.2 u rfl hv.2)] at hn
    · have hn := h.succ hr hh
      rwa [if_pos (hp.2 u rfl h.valid)] at hn

/-- As long as a request is not ended, the beats done are those of the request. -/
theorem under_way (hr : (machine mem).IsRun s i) (hh : Held mem s i) (hp : Presented mem s i t)
    (hl : ∀ j < m, ¬((s (t + j)).resp mem).last = true) :
    Idle (s (t + m)) ∧ beats mem s t m = 0 ∨
      Beat (s (t + m)) (i (t + m)).req (beats mem s t m) := by
  induction m with
  | zero => exact .inl ⟨idle_of_presented hr hh hp, Nat.count_zero _⟩
  | succ m ih =>
    rw [beats, Nat.count_succ]
    rcases ih fun j hj => hl j (Nat.lt_succ_of_lt hj) with ⟨h, hb⟩ | h
    · have hn := h.succ hr hh
      have hready : ¬((s (t + m)).resp mem).ready = true := by
        rw [CBusDevice.resp, h.resp]
        exact Bool.false_ne_true
      rw [if_neg hready, ← beats, hb]
      split_ifs at hn
      · exact .inr hn
      · exact .inl ⟨hn, rfl⟩
    · have hn := h.succ hr hh
      rw [if_neg (hl m m.lt_succ_self)] at hn
      rw [h.ready]
      exact .inr (by split_ifs at hn ⊢ <;> exact hn)

/-- The next cycle without a pause, with the same request. -/
theorem exists_enable (hr : (machine mem).IsRun s i) (hh : Held mem s i)
    (hen : ∀ n, ∃ k ≥ n, (s k).enable = true) (hv : (i n).req.valid = true) :
    ∃ k ≥ n, (s k).enable = true ∧ (s k).tx = (s n).tx ∧ (s k).ntx = (s n).ntx ∧
      Axi.header (i k).req = Axi.header (i n).req := by
  have stays : ∀ k, n ≤ k → ((s k).tx = (s n).tx ∧ (s k).ntx = (s n).ntx ∧
      Axi.header (i k).req = Axi.header (i n).req) → ¬(s k).enable = true →
      (s (k + 1)).tx = (s n).tx ∧ (s (k + 1)).ntx = (s n).ntx ∧
        Axi.header (i (k + 1)).req = Axi.header (i n).req := by
    rintro k - ⟨htx, hntx, hreq⟩ he
    have hp := Bool.eq_false_iff.2 he
    obtain ⟨h1, h2⟩ := next_of_paused mem (i k) hp
    have hvk : (i k).req.valid = true := (congrArg CbusReq.valid hreq).trans hv
    refine ⟨?_, ?_, (hh k hvk (not_last_of_paused hp)).trans hreq⟩
    · exact (congrArg CBusDevice.tx (hr.next k)).trans (h1.trans htx)
    · exact (congrArg CBusDevice.ntx (hr.next k)).trans (h2.trans hntx)
  obtain ⟨k, hk, h, he, -⟩ := exists_of_stays ⟨rfl, rfl, rfl⟩ (hen n) stays
  exact ⟨k, hk, he, h⟩

/-- The beats of a request are done, up to the last one. -/
theorem Beat.exists_last (hr : (machine mem).IsRun s i) (hh : Held mem s i)
    (hen : ∀ n, ∃ k ≥ n, (s k).enable = true) {b : ℕ} (h : Beat (s n) (i n).req k)
    (hb : k + b = (i n).req.len.toNat) : ∃ k ≥ n, ((s k).resp mem).last = true := by
  induction b generalizing n k with
  | zero =>
    obtain ⟨j, hj, he, htx, hntx, hreq⟩ := exists_enable hr hh hen h.valid
    have hB : Beat (s j) (i n).req k :=
      ⟨h.valid, h.le, htx.trans h.tx, by rw [hntx, htx, h.ntx]⟩
    exact ⟨j, hj, hB.last_iff.2 ⟨he, hb⟩⟩
  | succ b ih =>
    obtain ⟨j, hj, he, htx, hntx, hreq⟩ := exists_enable hr hh hen h.valid
    have hB : Beat (s j) (i j).req k :=
      Beat.congr ⟨h.valid, h.le, htx.trans h.tx, by rw [hntx, htx, h.ntx]⟩ hreq
    have hlen : ∀ {k}, Axi.header (i k).req = Axi.header (i n).req →
      (i k).req.len = (i n).req.len := fun hk => (congrArg CbusReq.len hk).trans rfl
    by_cases hl : ((s j).resp mem).last = true
    · exact ⟨j, hj, hl⟩
    · have hn := hB.succ hr hh
      rw [if_neg hl, if_pos he] at hn
      have hreq' := (hh j hB.valid hl).trans hreq
      obtain ⟨l, hjl, hl⟩ := ih hn (by rw [hlen hreq', ← hb]; omega)
      exact ⟨l, by omega, hl⟩

theorem exists_last (hr : (machine mem).IsRun s i) (hh : Held mem s i)
    (hen : ∀ n, ∃ k ≥ n, (s k).enable = true) (hp : Presented mem s i t) :
    ∃ k ≥ t, ((s k).resp mem).last = true := by
  have h := idle_of_presented hr hh hp
  obtain ⟨j, hj, he, htx, hntx, hreq⟩ := exists_enable hr hh hen hp.1
  have hI : Idle (s j) := ⟨by rw [htx, h.tx], by rw [hntx, htx, h.ntx]⟩
  have hn := hI.succ hr hh
  rw [if_pos ⟨he, (congrArg CbusReq.valid hreq).trans hp.1⟩] at hn
  obtain ⟨l, hjl, hl⟩ := hn.exists_last hr hh hen (Nat.zero_add _)
  exact ⟨l, by omega, hl⟩

theorem Beat.op {d : CBusDevice M} {i : In} (h : Beat d req k) (he : d.enable = true) :
    d.op mem i = some (if req.isWrite then .store (beatAddr req k) i.req.data i.req.strobe
      else .load (beatAddr req k)) := by
  rw [CBusDevice.op, h.ready, he, h.tx]
  rfl

theorem quiet {d : CBusDevice M} (h : (d.resp mem).ready = false) : d.resp mem = .zero := by
  rw [CBusDevice.resp, evalResp] at h ⊢
  split_ifs at h ⊢ <;> rfl

theorem data_of_op {d : CBusDevice M} {i : In} {addr : BitVec 64}
    (h : d.op mem i = some (.load addr)) : (d.resp mem).data = (mem.load d.mem addr).1 := by
  rw [CBusDevice.op] at h
  split_ifs at h with hready hw
  · cases h
  · obtain rfl : d.tx.tx.addr = addr := Op.load.inj (Option.some.inj h)
    rw [CBusDevice.resp, evalResp, Bool.eq_false_iff.2 hw] at hready ⊢
    simp only [Bool.not_false, if_true] at hready ⊢
    split_ifs at hready ⊢ with he hb
    · exact absurd hready Bool.false_ne_true
    · rfl
    · exact absurd hready Bool.false_ne_true

/-- The slave does the beats of one request after the other. -/
theorem serves (hr : (machine mem).IsRun s i) (hh : Held mem s i) : Serves mem s i where
  no_error n := by
    rcases idle_or_beat hr hh n with h | ⟨k, h⟩
    · exact h.asserts
    · exact h.asserts
  last_presented n hl := by
    rcases idle_or_beat hr hh n with h | ⟨k, h⟩
    · exact absurd hl (not_last_of_idle h)
    · exact ⟨h.valid, hh.existsUnique_presented h.valid hl⟩
  last_answer hen t hp := hh.existsUnique_answer hp.1 (exists_last hr hh hen hp)
  beat n hready := by
    obtain ⟨k, h⟩ := (idle_or_beat hr hh n).resolve_left fun h => by
      rw [CBusDevice.resp, h.resp] at hready
      exact Bool.false_ne_true hready
    obtain ⟨t, htn, hp, hl, hkept⟩ := hh.exists_presented n h.valid
    obtain ⟨m, rfl⟩ := Nat.exists_eq_add_of_le htn
    have hl' : ∀ j < m, ¬((s (t + j)).resp mem).last = true := fun j hj =>
      hl _ (Nat.le_add_right _ _) (Nat.add_lt_add_left hj _)
    have hB := (under_way hr hh hp hl').resolve_left fun hI =>
      Bool.false_ne_true (hI.1.tx.symm.trans (congrArg BusyTransaction.busy h.tx))
    have he : (s (t + m)).enable = true := h.ready.symm.trans hready
    replace hB := hB.congr (hkept _ (Nat.le_add_right _ _) le_rfl).symm
    refine ⟨t, m, rfl, hp, fun j hj => Bool.eq_false_iff.2 (hl' j hj), hB.le, ?_, hB.op he⟩
    rw [hB.last_iff, and_iff_right he]
  data _ _ ho := data_of_op ho
  contents := foldl_ops (Op.exec mem) fun n => by rw [hr.next, ← mem_next]; rfl
  quiet _ h := quiet h

/-- An array of words. -/
def words : IMemory Words where
  reset m := m
  load m addr := (m.readHelper (addr >>> 3), m)
  store m addr data mask := m.writeHelper (addr >>> 3) data mask

/-- Bursts of 4 beats, with a pause in every third cycle. -/
def burstInputs : ℕ → In := fun t =>
  ⟨⟨true, true, 3#3, 0x80000000#64, 0x0f#8, 0x1122334455667788#64, 3#8, .INCR⟩,
    t % 3 != 2⟩

def burstStart : CBusDevice Words := reset words ⟨fun _ => 0#64, true, 0#64, 0#64, .zero, .zero⟩

theorem serves_burst : Serves words ((machine words).run burstStart burstInputs) burstInputs :=
  serves ((machine words).isRun_run ⟨_, rfl⟩ fun _ => trivial) fun _ _ _ => rfl

end Run

end CBusDevice

end RiscvCpu
