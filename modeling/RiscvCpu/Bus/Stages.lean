import RiscvCpu.Bus.Axi

/-!
# The stages of a transaction

In every cycle of a transaction of the bridge, the channels in issue are determined by the
handshakes so far, and so is what the slave owes (`Stage`). A cycle leads to the next stage,
with its handshakes counted, or completes the transaction (`Stage.next`). What is on the
channels in the cycle follows (`ReadCycle`, `WriteCycle`).
-/

namespace RiscvCpu

open Sync

namespace Axi

open CBusToAXI

/-! ## The stages of a transaction -/

/-- The numbers of handshakes on the channels, and of responses with `last`. -/
structure Tally where
  ar : ℕ
  r : ℕ
  aw : ℕ
  w : ℕ
  b : ℕ
  last : ℕ
  deriving DecidableEq, Repr

namespace Tally

def zero : Tally := { ar := 0, r := 0, aw := 0, w := 0, b := 0, last := 0 }

/-- After another cycle. -/
def next (T : Tally) (s : CBusToAXI) (i : In) : Tally where
  ar := T.ar + (s.arHandshake i).toNat
  r := T.r + (s.rHandshake i).toNat
  aw := T.aw + (s.awHandshake i).toNat
  w := T.w + (s.wHandshake i).toNat
  b := T.b + (s.bHandshake i).toNat
  last := T.last + (s.cresp i).last.toNat

/-- The transaction of a request: one address, `len + 1` beats, and for a write, one
    response. The last beat is marked once. -/
def final (req : CbusReq) : Tally :=
  if req.isWrite then { ar := 0, r := 0, aw := 1, w := req.len.toNat + 1, b := 1, last := 1 }
  else { ar := 1, r := req.len.toNat + 1, aw := 0, w := 0, b := 0, last := 1 }

/-- The number of handshakes. -/
def total (T : Tally) : ℕ := T.ar + T.r + T.aw + T.w + T.b

end Tally

/-- The stages of the transaction of a request, by the handshakes so far. -/
inductive Stage (req : CbusReq) (T : Tally) (x : Axi) : Prop
  /-- The address of a read. -/
  | addr (inIssue : x.bridge.inIssue = mask true true false false false)
      (savedReq : x.bridge.savedReq = req) (isWrite : req.isWrite = false)
      (count : x.bridge.count = req.len) (slave : x.slave = .idle) (tally : T = .zero)
  /-- The beats of a read. -/
  | beats (r : ℕ) (inIssue : x.bridge.inIssue = mask false true false false false)
      (savedReq : x.bridge.savedReq = req) (isWrite : req.isWrite = false)
      (count : r + x.bridge.count.toNat = req.len.toNat)
      (slave : x.slave = { due := x.bridge.count.toNat + 1, aw := false, w := false })
      (tally : T = { ar := 1, r := r, aw := 0, w := 0, b := 0, last := 0 })
  /-- The beats of a write. The address is sent in the meantime. -/
  | data (aw : Bool) (w : ℕ) (inIssue : x.bridge.inIssue = mask false false aw true true)
      (savedReq : x.bridge.savedReq = req) (isWrite : req.isWrite = true)
      (count : w + x.bridge.count.toNat = req.len.toNat)
      (slave : x.slave = { due := 0, aw := !aw, w := false })
      (tally : T = { ar := 0, r := 0, aw := (!aw).toNat, w := w, b := 0, last := 0 })
  /-- After the beats of a write. -/
  | resp (aw : Bool) (inIssue : x.bridge.inIssue = mask false false aw false true)
      (savedReq : x.bridge.savedReq = req) (isWrite : req.isWrite = true)
      (slave : x.slave = { due := 0, aw := !aw, w := true })
      (tally : T =
        { ar := 0, r := 0, aw := (!aw).toNat, w := req.len.toNat + 1, b := 0, last := 1 })

section Stage

variable {req : CbusReq} {T : Tally} {x : Axi} {i : In}

theorem Stage.busy (h : Stage req T x) : x.bridge.inIssue ≠ 0#5 := by
  cases h with
  | addr h => rw [h]; decide
  | beats _ h => rw [h]; decide
  | data aw _ h => rw [h]; cases aw <;> decide
  | resp aw h => rw [h]; cases aw <;> decide

theorem slave_of_idle (hb : x.bridge.inIssue = 0#5) (hs : x.slave = .idle) :
    (machine.next x i).slave = .idle := by
  have h0 : x.bridge.inIssue = mask false false false false false := hb
  obtain ⟨h4, h3, h2, h1, h5⟩ := handshakes_of_mask i h0
  change Slave.next x.slave x.bridge i = .idle
  rw [Slave.next, h4, h3, h2, h1, h5, hs]
  rfl

/-- A request that is accepted. -/
theorem stage_of_accept (hb : x.bridge.inIssue = 0#5) (hs : x.slave = .idle)
    (hv : i.creq.valid = true) : Stage i.creq .zero (machine.next x i) := by
  have hn : (machine.next x i).bridge =
      { inIssue := nextIssue i.creq, savedReq := i.creq, count := i.creq.len } := by
    refine (next_of_idle i hb).trans ?_
    rw [hv, if_pos rfl]
  have hslave := slave_of_idle (i := i) hb hs
  cases hw : i.creq.isWrite with
  | false =>
    refine .addr ?_ ?_ hw ?_ hslave rfl
    · rw [hn, nextIssue, hw]; rfl
    · rw [hn]
    · rw [hn]
  | true =>
    refine .data true 0 ?_ ?_ hw ?_ hslave rfl
    · rw [hn, nextIssue, hw]; rfl
    · rw [hn]
    · rw [hn, Nat.zero_add]

/-- The transaction is complete, and nothing is owed. -/
structure Complete (req : CbusReq) (T : Tally) (x : Axi) : Prop where
  inIssue : x.bridge.inIssue = 0#5
  slave : x.slave = .idle
  tally : T = .final req

/-- The count of the beats to come, after a beat that is not the last one. -/
theorem count_sub {c : BitVec 8} {k n : ℕ} (hc : c ≠ 0#8) (h : k + c.toNat = n) :
    k + 1 + (c - 1#8).toNat = n ∧ (c - 1#8).toNat + 1 = c.toNat := by
  have h0 : c.toNat ≠ 0 := fun h0 => hc (BitVec.eq_of_toNat_eq h0)
  have hlt := c.isLt
  rw [BitVec.toNat_sub, BitVec.toNat_ofNat]
  omega

variable (T i) in
/-- A cycle, by the channels in issue. -/
theorem next_of_mask {ar r aw w b : Bool} (hm : x.bridge.inIssue = mask ar r aw w b)
    (hb : x.bridge.inIssue ≠ 0#5) :
    machine.next x i =
      { bridge :=
          { inIssue := mask (ar && !i.arready) (r && !(i.rvalid && i.rlast)) (aw && !i.awready)
              (w && !(i.wready && x.bridge.isLast)) (b && !i.bvalid)
            savedReq := x.bridge.savedReq
            count :=
              if ((w && i.wready) || (r && i.rvalid)) &&
                  !(((w && i.wready) || (r && i.rvalid)) && (!r || i.rlast) && x.bridge.isLast) then
                x.bridge.count - 1#8
              else x.bridge.count }
        slave :=
          { due :=
              if ar && i.arready then x.bridge.savedReq.len.toNat + 1
              else if r && i.rvalid then x.slave.due - 1
              else x.slave.due
            aw := !(b && i.bvalid) && (x.slave.aw || (aw && i.awready))
            w := !(b && i.bvalid) && (x.slave.w || ((w && i.wready) && x.bridge.isLast)) } } ∧
    T.next x.bridge i =
      { ar := T.ar + (ar && i.arready).toNat
        r := T.r + (r && i.rvalid).toNat
        aw := T.aw + (aw && i.awready).toNat
        w := T.w + (w && i.wready).toNat
        b := T.b + (b && i.bvalid).toNat
        last := T.last + (((w && i.wready) || (r && i.rvalid)) && (!r || i.rlast) &&
          x.bridge.isLast).toNat } := by
  obtain ⟨h4, h3, h2, h1, h0⟩ := handshakes_of_mask i hm
  obtain ⟨hready, hlast⟩ := cresp_of_mask i hm
  obtain ⟨hcar, -, -, hcw, -⟩ := channels_of_mask hm
  constructor
  · have hslave : x.slave.next x.bridge i =
        { due :=
            if ar && i.arready then x.bridge.savedReq.len.toNat + 1
            else if r && i.rvalid then x.slave.due - 1
            else x.slave.due
          aw := !(b && i.bvalid) && (x.slave.aw || (aw && i.awready))
          w := !(b && i.bvalid) && (x.slave.w || ((w && i.wready) && x.bridge.isLast)) } := by
      rw [Slave.next, h4, h3, h2, h1, h0, hcar, hcw]
      congr 1
      · cases ar <;> rfl
      · cases w <;> rfl
    change Axi.mk (x.bridge.next i false) (x.slave.next x.bridge i) = _
    rw [hslave, next_of_busy i hb, remain_of_mask i hm, hready, hlast]
  · rw [Tally.next, h4, h3, h2, h1, h0, hlast]

/-- There are no beats that are not due. -/
theorem not_rvalid (hi : i ∈ machine.admits x) (hs : x.slave.due = 0) : i.rvalid = false := by
  by_contra hv
  have hdue := (hi.1 (eq_true_of_ne_false hv)).1
  rw [hs] at hdue
  exact absurd hdue (lt_irrefl 0)

/-- There is no response before the last beat. -/
theorem not_bvalid (hi : i ∈ machine.admits x) (hs : x.slave.w = false) : i.bvalid = false := by
  by_contra hb
  have hw := (hi.2 (eq_true_of_ne_false hb)).2
  exact absurd hw (ne_true_of_eq_false hs)

/-- There is no response before the address. -/
theorem aw_of_bvalid {aw : Bool} (hi : i ∈ machine.admits x) (hs : x.slave.aw = !aw)
    (hb : i.bvalid = true) : aw = false := by
  have h := (hi.2 hb).1
  rw [hs] at h
  exact (Bool.not_eq_true' _).mp h

/-- The address of a write is sent in this cycle, or was before, or is still to be sent. -/
theorem aw_next (aw awready : Bool) :
    (!aw || aw && awready) = !(aw && !awready) ∧
      (!aw).toNat + (aw && awready).toNat = (!(aw && !awready)).toNat := by
  cases aw <;> simp

theorem isLast_iff {s : CBusToAXI} {k n : ℕ} (hc : k + s.count.toNat = n) :
    s.isLast = true ↔ k = n := by
  rw [isLast, beq_iff_eq, ← BitVec.toNat_inj, BitVec.toNat_ofNat]
  omega

/-- The slave marks the beat that the bridge counts as the last one. -/
theorem rlast_eq (hi : i ∈ machine.admits x) (hs : x.slave.due = x.bridge.count.toNat + 1)
    (hv : i.rvalid = true) : i.rlast = x.bridge.isLast := by
  rw [Bool.eq_iff_iff, (hi.1 hv).2, hs, isLast, beq_iff_eq, ← BitVec.toNat_inj,
    BitVec.toNat_ofNat]
  omega

/-- While the address of a read waits, there are no beats. -/
theorem addr_next (hm : x.bridge.inIssue = mask true true false false false)
    (hreq : x.bridge.savedReq = req) (hw : req.isWrite = false) (hc : x.bridge.count = req.len)
    (hs : x.slave = .idle) (ht : T = .zero) (hi : i ∈ machine.admits x) :
    Stage req (T.next x.bridge i) (machine.next x i) := by
  obtain ⟨hx, hT⟩ := next_of_mask T i hm (by rw [hm]; decide)
  have hv := not_rvalid hi (by rw [hs]; rfl)
  rw [hx, hT, hv, hs, ht, hreq]
  cases hr : i.arready with
  | false => exact .addr rfl rfl hw hc rfl rfl
  | true => exact .beats 0 rfl rfl hw (by rw [← hc, Nat.zero_add]; rfl) (by rw [← hc]; rfl) rfl

/-- The last beat of a read completes it. -/
theorem beats_next {r : ℕ} (hm : x.bridge.inIssue = mask false true false false false)
    (hreq : x.bridge.savedReq = req) (hw : req.isWrite = false)
    (hc : r + x.bridge.count.toNat = req.len.toNat)
    (hs : x.slave = { due := x.bridge.count.toNat + 1, aw := false, w := false })
    (ht : T = { ar := 1, r := r, aw := 0, w := 0, b := 0, last := 0 })
    (hi : i ∈ machine.admits x) :
    Complete req (T.next x.bridge i) (machine.next x i) ∨
      Stage req (T.next x.bridge i) (machine.next x i) := by
  obtain ⟨hx, hT⟩ := next_of_mask T i hm (by rw [hm]; decide)
  have hlast := rlast_eq hi (by rw [hs])
  rw [hx, hT, hs, ht, hreq]
  cases hv : i.rvalid with
  | false => exact .inr (.beats r rfl rfl hw hc rfl rfl)
  | true =>
    rw [hlast hv]
    by_cases h0 : x.bridge.count = 0#8
    -- The bridge and the slave agree on the last beat: nothing is in issue, nothing owed.
    · have hl : x.bridge.isLast = true := beq_iff_eq.2 h0
      rw [h0, BitVec.toNat_ofNat, Nat.zero_mod, Nat.add_zero] at hc
      rw [hl]
      refine .inl ⟨(mask_eq_zero ..).2 ⟨rfl, rfl, rfl, rfl, rfl⟩, by rw [h0]; rfl, ?_⟩
      rw [Tally.final, hw, ← hc]
      rfl
    · have hl : x.bridge.isLast = false := beq_eq_false_iff_ne.2 h0
      obtain ⟨hc', hs'⟩ := count_sub h0 hc
      rw [hl]
      refine .inr (.beats (r + 1) rfl rfl hw hc' ?_ rfl)
      exact congrArg (Slave.mk · false false) hs'.symm

/-- The address and the beats of a write are sent in any order. -/
theorem data_next {aw : Bool} {w : ℕ} (hm : x.bridge.inIssue = mask false false aw true true)
    (hreq : x.bridge.savedReq = req) (hw : req.isWrite = true)
    (hc : w + x.bridge.count.toNat = req.len.toNat)
    (hs : x.slave = { due := 0, aw := !aw, w := false })
    (ht : T = { ar := 0, r := 0, aw := (!aw).toNat, w := w, b := 0, last := 0 })
    (hi : i ∈ machine.admits x) : Stage req (T.next x.bridge i) (machine.next x i) := by
  obtain ⟨hx, hT⟩ := next_of_mask T i hm (by rw [hm]; cases aw <;> decide)
  have hb := not_bvalid hi (by rw [hs])
  -- Whether the address is sent in this cycle is left to the flag of the next stage.
  obtain ⟨haw, hawT⟩ := aw_next aw i.awready
  rw [hx, hT, hb, hs, ht, hreq, haw, hawT]
  cases hr : i.wready with
  | false => exact .data (aw && !i.awready) w rfl rfl hw hc rfl rfl
  | true =>
    by_cases h0 : x.bridge.count = 0#8
    · have hl : x.bridge.isLast = true := beq_iff_eq.2 h0
      rw [h0, BitVec.toNat_ofNat, Nat.zero_mod, Nat.add_zero] at hc
      rw [hl, hc]
      exact .resp (aw && !i.awready) rfl rfl hw rfl rfl
    · have hl : x.bridge.isLast = false := beq_eq_false_iff_ne.2 h0
      rw [hl]
      exact .data (aw && !i.awready) (w + 1) rfl rfl hw (count_sub h0 hc).1 rfl rfl

/-- The response completes a write. -/
theorem resp_next {aw : Bool} (hm : x.bridge.inIssue = mask false false aw false true)
    (hreq : x.bridge.savedReq = req) (hw : req.isWrite = true)
    (hs : x.slave = { due := 0, aw := !aw, w := true })
    (ht : T = { ar := 0, r := 0, aw := (!aw).toNat, w := req.len.toNat + 1, b := 0, last := 1 })
    (hi : i ∈ machine.admits x) :
    Complete req (T.next x.bridge i) (machine.next x i) ∨
      Stage req (T.next x.bridge i) (machine.next x i) := by
  obtain ⟨hx, hT⟩ := next_of_mask T i hm (by rw [hm]; cases aw <;> decide)
  rw [hx, hT, hs, ht, hreq]
  cases hb : i.bvalid with
  | false =>
    obtain ⟨haw, hawT⟩ := aw_next aw i.awready
    rw [haw, hawT]
    exact .inr (.resp (aw && !i.awready) rfl rfl hw rfl rfl)
  | true =>
    -- The slave responds only after the address, so that no channel is left in issue.
    have haw : aw = false := aw_of_bvalid hi (by rw [hs]) hb
    rw [haw]
    refine .inl ⟨(mask_eq_zero ..).2 ⟨rfl, rfl, rfl, rfl, rfl⟩, rfl, ?_⟩
    rw [Tally.final, hw]
    rfl

/-- In a cycle of a transaction, the handshakes are counted, or it is completed. -/
theorem Stage.next (h : Stage req T x) (hi : i ∈ machine.admits x) :
    Complete req (T.next x.bridge i) (machine.next x i) ∨
      Stage req (T.next x.bridge i) (machine.next x i) := by
  cases h with
  | addr hm hreq hw hc hs ht => exact .inr (addr_next hm hreq hw hc hs ht hi)
  | beats r hm hreq hw hc hs ht => exact beats_next hm hreq hw hc hs ht hi
  | data aw w hm hreq hw hc hs ht => exact .inr (data_next hm hreq hw hc hs ht hi)
  | resp aw hm hreq hw hs ht => exact resp_next hm hreq hw hs ht hi

/-! ## The cycles of a transaction -/

/-- A cycle of the transaction of a read, after the handshakes `T`. -/
structure ReadCycle (req : CbusReq) (T : Tally) (x : Axi) (i : In) : Prop where
  /-- The address that was accepted is presented until its handshake. -/
  ar : x.bridge.ar = if T.ar = 0 then
      { id := 0#4, addr := req.addr, len := req.len, size := req.size, burst := .WRAP,
        lock := false, cache := 0#4, prot := 0#3, valid := true }
    else .zero
  ar_le : T.ar ≤ 1
  rready : x.bridge.rready = true
  others : x.bridge.aw = .zero ∧ x.bridge.w i.creq = .zero ∧ x.bridge.bready = false
  /-- The beats come after the address. The slave marks the last one. -/
  beat : x.bridge.rHandshake i = true → T.ar = 1 ∧ T.r ≤ req.len.toNat ∧
    (i.rlast = true ↔ T.r = req.len.toNat)
  /-- Every beat is a response, and the last one has `last`. -/
  ready : (x.bridge.cresp i).ready = x.bridge.rHandshake i
  data : (x.bridge.cresp i).data = i.rdata
  last : (x.bridge.cresp i).last = true ↔
    x.bridge.rHandshake i = true ∧ T.r = req.len.toNat
  /-- It completes the transaction. -/
  ends : (machine.next x i).bridge.inIssue = 0#5 ↔ (x.bridge.cresp i).last = true

/-- A cycle of the transaction of a write, after the handshakes `T`. -/
structure WriteCycle (req : CbusReq) (T : Tally) (x : Axi) (i : In) : Prop where
  /-- The address that was accepted is presented until its handshake. -/
  aw : x.bridge.aw = if T.aw = 0 then
      { id := 0#4, addr := req.addr, len := req.len, size := req.size, burst := .WRAP,
        lock := false, cache := 0#4, prot := 0#3, valid := true }
    else .zero
  aw_le : T.aw ≤ 1
  /-- The data of the live request is presented, until the last beat, which is marked. -/
  w : x.bridge.w i.creq = if T.w ≤ req.len.toNat then
      { data := i.creq.data, strb := i.creq.strobe, last := decide (T.w = req.len.toNat),
        valid := true }
    else .zero
  w_le : T.w ≤ req.len.toNat + 1
  bready : x.bridge.bready = true
  others : x.bridge.ar = .zero ∧ x.bridge.rready = false
  /-- The response comes after the address and the beats. -/
  b : T.b = 0
  resp : x.bridge.bHandshake i = true → T.aw = 1 ∧ T.w = req.len.toNat + 1
  /-- Every beat is a response, and the last one has `last`. -/
  ready : (x.bridge.cresp i).ready = x.bridge.wHandshake i
  last : (x.bridge.cresp i).last = true ↔
    x.bridge.wHandshake i = true ∧ T.w = req.len.toNat
  /-- After the last beat, there is no response, whatever is requested. -/
  quiet : T.w = req.len.toNat + 1 → (x.bridge.cresp i).ready = false
  /-- The response of the slave completes the transaction. -/
  ends : (machine.next x i).bridge.inIssue = 0#5 ↔ x.bridge.bHandshake i = true

theorem inIssue_next {ar r aw w b : Bool} (hm : x.bridge.inIssue = mask ar r aw w b)
    (hb : x.bridge.inIssue ≠ 0#5) : (machine.next x i).bridge.inIssue = 0#5 ↔
      (ar && !i.arready) = false ∧ (r && !(i.rvalid && i.rlast)) = false ∧
        (aw && !i.awready) = false ∧ (w && !(i.wready && x.bridge.isLast)) = false ∧
        (b && !i.bvalid) = false := by
  rw [(next_of_mask .zero i hm hb).1]
  exact mask_eq_zero ..

theorem Stage.readCycle (h : Stage req T x) (hi : i ∈ machine.admits x)
    (hw : req.isWrite = false) : ReadCycle req T x i := by
  have hbusy := h.busy
  cases h with
  | addr hm hreq _ hc hs ht =>
    obtain ⟨har, hr, haw, hwd, hb⟩ := channels_of_mask hm
    obtain ⟨-, hrs, -⟩ := handshakes_of_mask i hm
    obtain ⟨hready, hlast⟩ := cresp_of_mask i hm
    have hv := not_rvalid hi (by rw [hs]; rfl)
    have hend := inIssue_next (i := i) hm hbusy
    rw [hv] at hrs hready hlast hend
    exact
      { ar := by rw [har, hreq, ht]; rfl
        ar_le := by rw [ht]; exact Nat.zero_le 1
        rready := hr
        others := ⟨haw, hwd _, hb⟩
        beat := fun h => absurd h (ne_true_of_eq_false hrs)
        ready := by rw [hready, hrs]; rfl
        data := rfl
        last := by rw [hlast, hrs]; simp
        ends := by rw [hend, hlast]; simp }
  | beats r hm hreq _ hc hs ht =>
    obtain ⟨har, hr, haw, hwd, hb⟩ := channels_of_mask hm
    obtain ⟨-, hrs, -⟩ := handshakes_of_mask i hm
    obtain ⟨hready, hlast⟩ := cresp_of_mask i hm
    have hl := rlast_eq hi (by rw [hs])
    have hend := inIssue_next (i := i) hm hbusy
    have hiff := isLast_iff hc
    rw [Bool.true_and] at hrs
    exact
      { ar := by rw [har, ht]; rfl
        ar_le := by rw [ht]
        rready := hr
        others := ⟨haw, hwd _, hb⟩
        beat := fun h => by
          rw [hrs] at h
          rw [hl h, hiff, ht]
          exact ⟨rfl, Nat.le.intro hc, Iff.rfl⟩
        ready := by rw [hready, hrs]; rfl
        data := rfl
        last := by
          rw [hlast, hrs, ht, ← hiff]
          cases hv : i.rvalid with
          | false => simp
          | true => simp [hl hv]
        ends := by
          rw [hend, hlast]
          cases hv : i.rvalid with
          | false => simp
          | true => simp [hl hv] }
  | data _ _ _ _ hw' => exact absurd hw' (ne_true_of_eq_false hw)
  | resp _ _ _ hw' => exact absurd hw' (ne_true_of_eq_false hw)

theorem Stage.writeCycle (h : Stage req T x) (hi : i ∈ machine.admits x)
    (hw : req.isWrite = true) : WriteCycle req T x i := by
  have hbusy := h.busy
  cases h with
  | addr _ _ hw' => exact absurd hw (ne_true_of_eq_false hw')
  | beats _ _ _ hw' => exact absurd hw (ne_true_of_eq_false hw')
  | data aw w hm hreq _ hc hs ht =>
    obtain ⟨har, hr, haw, hwd, hb⟩ := channels_of_mask hm
    obtain ⟨-, -, -, hws, hbs⟩ := handshakes_of_mask i hm
    obtain ⟨hready, hlast⟩ := cresp_of_mask i hm
    have hbv := not_bvalid hi (by rw [hs])
    have hend := inIssue_next (i := i) hm hbusy
    have hiff := isLast_iff hc
    have hle : w ≤ req.len.toNat := Nat.le.intro hc
    rw [hbv] at hbs hend
    rw [Bool.true_and] at hws
    exact
      { aw := by rw [haw, hreq, ht]; cases aw <;> rfl
        aw_le := by rw [ht]; exact Bool.toNat_le _
        w := by
          have hlast : x.bridge.isLast = decide (w = req.len.toNat) := by
            rw [Bool.eq_iff_iff, hiff, decide_eq_true_iff]
          rw [hwd, hlast, ht, if_pos rfl]
          exact (if_pos hle).symm
        w_le := by rw [ht]; exact Nat.le_succ_of_le hle
        bready := hb
        others := ⟨har, hr⟩
        b := by rw [ht]
        resp := fun h => absurd h (ne_true_of_eq_false hbs)
        ready := by rw [hready, hws]; simp
        last := by rw [hlast, hws, ht, ← hiff]; simp
        quiet := fun h => by
          rw [ht] at h
          exact absurd hle (Nat.not_le.2 (Nat.lt_of_succ_le h.ge))
        ends := by rw [hend, hbs]; simp }
  | resp aw hm hreq _ hs ht =>
    obtain ⟨har, hr, haw, hwd, hb⟩ := channels_of_mask hm
    obtain ⟨-, -, -, hws, hbs⟩ := handshakes_of_mask i hm
    obtain ⟨hready, hlast⟩ := cresp_of_mask i hm
    have hend := inIssue_next (i := i) hm hbusy
    have hresp : i.bvalid = true → aw = false := aw_of_bvalid hi (by rw [hs])
    rw [Bool.true_and] at hbs
    exact
      { aw := by rw [haw, hreq, ht]; cases aw <;> rfl
        aw_le := by rw [ht]; exact Bool.toNat_le _
        w := by
          rw [hwd, ht, if_neg Bool.false_ne_true]
          exact (if_neg (Nat.not_succ_le_self _)).symm
        w_le := by rw [ht]
        bready := hb
        others := ⟨har, hr⟩
        b := by rw [ht]
        resp := fun h => by
          rw [ht, hresp (hbs.symm.trans h)]
          exact ⟨rfl, rfl⟩
        ready := by rw [hready, hws]; rfl
        last := by rw [hlast, hws]; simp
        quiet := fun _ => by rw [hready]; rfl
        ends := by
          rw [hend, hbs]
          cases hv : i.bvalid with
          | false => simp
          | true => simp [hresp hv] }

theorem Stage.total_le (h : Stage req T x) : T.total ≤ req.len.toNat + 2 := by
  have hle := fun aw : Bool => Bool.toNat_le (!aw)
  cases h with
  | addr _ _ _ _ _ ht =>
    rw [ht]
    exact Nat.zero_le _
  | beats r _ _ _ hc _ ht =>
    simp only [Tally.total, ht]
    omega
  | data aw w _ _ _ hc _ ht =>
    have haw := hle aw
    simp only [Tally.total, ht]
    omega
  | resp aw _ _ _ _ ht =>
    have haw := hle aw
    simp only [Tally.total, ht]
    omega

theorem Tally.total_next (T : Tally) (s : CBusToAXI) (i : In) : (T.next s i).total =
    T.total + ((s.arHandshake i).toNat + (s.rHandshake i).toNat + (s.awHandshake i).toNat +
      (s.wHandshake i).toNat + (s.bHandshake i).toNat) := by
  simp only [Tally.total, Tally.next]
  omega

/-- A handshake on some channel. -/
def Handshake (s : CBusToAXI) (i : In) : Prop :=
  s.arHandshake i = true ∨ s.rHandshake i = true ∨ s.awHandshake i = true ∨
    s.wHandshake i = true ∨ s.bHandshake i = true

theorem Tally.total_lt (T : Tally) {s : CBusToAXI} {i : In} (h : Handshake s i) :
    T.total < (T.next s i).total := by
  rw [Tally.total_next]
  rcases h with h | h | h | h | h <;> rw [h, Bool.toNat_true] <;> omega

theorem Stage.exists_mask (h : Stage req T x) : ∃ ar r aw w b,
    x.bridge.inIssue = mask ar r aw w b := by
  cases h with
  | addr h => exact ⟨_, _, _, _, _, h⟩
  | beats _ h => exact ⟨_, _, _, _, _, h⟩
  | data _ _ h => exact ⟨_, _, _, _, _, h⟩
  | resp _ h => exact ⟨_, _, _, _, _, h⟩

/-- Without a handshake, nothing changes. -/
theorem Stage.next_of_quiet (h : Stage req T x) (hq : (T.next x.bridge i).total ≤ T.total) :
    machine.next x i = x := by
  obtain ⟨ar, r, aw, w, b, hm⟩ := h.exists_mask
  obtain ⟨h4, h3, h2, h1, h0⟩ := handshakes_of_mask i hm
  rw [Tally.total_next, h4, h3, h2, h1, h0] at hq
  -- No handshake on any channel: no bit is cleared, and nothing is counted.
  have hz : ∀ c : Bool, c.toNat ≤ 0 → c = false := fun c hc => by
    cases c with
    | false => rfl
    | true => exact absurd hc (by decide)
  have har := hz (ar && i.arready) (by omega)
  have hr := hz (r && i.rvalid) (by omega)
  have haw := hz (aw && i.awready) (by omega)
  have hw := hz (w && i.wready) (by omega)
  have hb := hz (b && i.bvalid) (by omega)
  rw [(next_of_mask T i hm h.busy).1, har, hr, haw, hw, hb]
  have hmask : mask (ar && !i.arready) (r && !(i.rvalid && i.rlast)) (aw && !i.awready)
      (w && !(i.wready && x.bridge.isLast)) (b && !i.bvalid) = x.bridge.inIssue := by
    rw [hm]
    congr 1
    · cases ar <;> simp_all
    · cases r <;> simp_all
    · cases aw <;> simp_all
    · cases w <;> simp_all
    · cases b <;> simp_all
  rw [hmask]
  simp

end Stage

end Axi

end RiscvCpu
