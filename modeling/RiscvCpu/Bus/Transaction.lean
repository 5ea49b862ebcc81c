import RiscvCpu.Bus.Stages
import RiscvCpu.Sync.Request

/-!
# The transactions of the bridge

A request of the cache bus is one transaction of AXI, from the cycle in which it is
accepted until `inIssue` is 0 again. The requester holds the request until the response
with `last`, but can change the data from beat to beat (`Held`), and can present another
one while the bridge waits for the rest.

While the transaction is under way, it is in the stage that the handshakes so far determine
(`stage_of_underWay`), and when it ends, each channel has had all of its handshakes
(`transaction`). With a slave that responds, it ends (`exists_end`).
-/

namespace RiscvCpu

open Sync

namespace Axi

open CBusToAXI

/-! ## Runs -/

section Spec

variable (s : ℕ → Axi) (i : ℕ → In)

/-- A request, except for what can change from beat to beat. -/
def header (creq : CbusReq) : CbusReq := { creq with strobe := 0#8, data := 0#64 }

/-- The request is held until the response with `last`. -/
def Held : Prop :=
  Sync.Held (fun r : CbusReq => r.valid = true) (fun t => header (i t).creq)
    (fun t => ((s t).bridge.cresp (i t)).last = true)

/-- The slave is ready at some time for what is presented, and sends at some time what it
    owes. -/
structure Responsive : Prop where
  arready : ∀ t, (s t).bridge.ar.valid = true → ∃ u ≥ t, (i u).arready = true
  rvalid : ∀ t, 0 < (s t).slave.due → ∃ u ≥ t, (i u).rvalid = true
  awready : ∀ t, (s t).bridge.aw.valid = true → ∃ u ≥ t, (i u).awready = true
  wready : ∀ t, ((s t).bridge.w (i t).creq).valid = true → ∃ u ≥ t, (i u).wready = true
  bvalid : ∀ t, (s t).slave.aw = true → (s t).slave.w = true → ∃ u ≥ t, (i u).bvalid = true

/-- In the cycle `a`, a request is accepted. -/
structure Accepted (a : ℕ) : Prop where
  inIssue : (s a).bridge.inIssue = 0#5
  valid : (i a).creq.valid = true

/-- The transaction of the request accepted in the cycle `a` is under way, at least for the
    `n` cycles after its first. -/
def UnderWay (a n : ℕ) : Prop := ∀ j ≤ n, (s (a + 1 + j)).bridge.inIssue ≠ 0#5

/-- The handshakes in the first `n` cycles of the transaction. -/
def tally (a : ℕ) : ℕ → Tally
  | 0 => .zero
  | n + 1 => (tally a n).next (s (a + 1 + n)).bridge (i (a + 1 + n))

/-- No channel is used, and there is no response. -/
structure Quiet (x : Axi) (i : In) : Prop where
  ar : x.bridge.ar = .zero
  rready : x.bridge.rready = false
  aw : x.bridge.aw = .zero
  w : x.bridge.w i.creq = .zero
  bready : x.bridge.bready = false
  ready : (x.bridge.cresp i).ready = false
  last : (x.bridge.cresp i).last = false

/-- The transaction of the request accepted in the cycle `a`. -/
structure Transaction (a : ℕ) : Prop where
  /-- What its cycles do, by the handshakes so far. -/
  read : (i a).creq.isWrite = false → ∀ n, UnderWay s a n →
    ReadCycle (i a).creq (tally s i a n) (s (a + 1 + n)) (i (a + 1 + n))
  write : (i a).creq.isWrite = true → ∀ n, UnderWay s a n →
    WriteCycle (i a).creq (tally s i a n) (s (a + 1 + n)) (i (a + 1 + n))
  /-- Until the last beat, the live request is the one that was accepted. -/
  held : ∀ n, UnderWay s a n → (tally s i a n).last = 0 →
    header (i (a + 1 + n)).creq = header (i a).creq
  /-- When it ends, all of its handshakes are done. -/
  complete : ∀ n, UnderWay s a n → (s (a + 1 + n + 1)).bridge.inIssue = 0#5 →
    tally s i a (n + 1) = .final (i a).creq
  /-- It ends, with a slave that responds. -/
  ends : Responsive s i → ∃ n, UnderWay s a n ∧ (s (a + 1 + n + 1)).bridge.inIssue = 0#5

end Spec

section Run

variable {s : ℕ → Axi} {i : ℕ → In}

theorem next_eq (hr : machine.IsRun s i) (t : ℕ) : s (t + 1) = machine.next (s t) (i t) :=
  hr.next t

theorem quiet_of_idle {x : Axi} {i : In} (h : x.bridge.inIssue = 0#5) : Quiet x i := by
  have h0 : x.bridge.inIssue = mask false false false false false := h
  obtain ⟨har, hr, haw, hw, hb⟩ := channels_of_mask h0
  obtain ⟨hready, hlast⟩ := cresp_of_mask i h0
  exact ⟨har, hr, haw, hw _, hb, hready, hlast⟩

/-- Between transactions, the slave owes nothing. -/
theorem idle_or_stage : machine.Inductive fun x =>
    (x.bridge.inIssue = 0#5 ∧ x.slave = .idle) ∨ ∃ req T, Stage req T x where
  init _ hx := .inl hx
  step x hx i hi := by
    rcases hx with ⟨hb, hs⟩ | ⟨req, T, h⟩
    · cases hv : i.creq.valid with
      | true => exact .inr ⟨_, _, stage_of_accept hb hs hv⟩
      | false =>
        refine .inl ⟨(congrArg inIssue (next_of_idle i hb)).trans ?_, slave_of_idle hb hs⟩
        rw [hv]
        rfl
    · rcases h.next hi with hc | hst
      · exact .inl ⟨hc.inIssue, hc.slave⟩
      · exact .inr ⟨_, _, hst⟩

theorem slave_idle (hr : machine.IsRun s i) {t : ℕ} (hb : (s t).bridge.inIssue = 0#5) :
    (s t).slave = .idle := by
  rcases idle_or_stage.of_isRun hr t with h | ⟨_, _, h⟩
  · exact h.2
  · exact absurd hb h.busy

theorem UnderWay.of_le {a n m : ℕ} (h : UnderWay s a n) (hm : m ≤ n) : UnderWay s a m :=
  fun j hj => h j (hj.trans hm)

/-- The handshakes of a transaction that is under way determine its stage. -/
theorem stage_of_underWay (hr : machine.IsRun s i) {a : ℕ} (ha : Accepted s i a) {n : ℕ}
    (h : UnderWay s a n) : Stage (i a).creq (tally s i a n) (s (a + 1 + n)) := by
  induction n with
  | zero =>
    rw [Nat.add_zero, next_eq hr]
    exact stage_of_accept ha.inIssue (slave_idle hr ha.inIssue) ha.valid
  | succ n ih =>
    have hnext := (ih (h.of_le n.le_succ)).next (hr.admits (a + 1 + n))
    rw [← next_eq hr] at hnext
    -- A complete transaction has nothing in issue.
    exact hnext.resolve_left fun hc => h (n + 1) le_rfl hc.inIssue

/-- What is in issue belongs to a request that was accepted. -/
theorem exists_accepted (hr : machine.IsRun s i) (t : ℕ) (hb : (s t).bridge.inIssue ≠ 0#5) :
    ∃ a n, t = a + 1 + n ∧ Accepted s i a ∧ UnderWay s a n := by
  induction t with
  | zero => exact absurd hr.init.1 hb
  | succ t ih =>
    by_cases hbt : (s t).bridge.inIssue = 0#5
    · refine ⟨t, 0, rfl, ⟨hbt, ?_⟩, fun j hj => by rwa [Nat.le_zero.1 hj]⟩
      by_contra hv
      rw [next_eq hr] at hb
      refine hb ((congrArg inIssue (next_of_idle (i t) hbt)).trans ?_)
      rw [eq_false_of_ne_true hv]
      rfl
    · obtain ⟨a, n, rfl, ha, hn⟩ := ih hbt
      refine ⟨a, n + 1, rfl, ha, fun j hj => ?_⟩
      rcases Nat.le_succ_iff.1 hj with hj | rfl
      · exact hn j hj
      · exact hb

variable (s i) in
theorem not_last_of_tally (a : ℕ) {n : ℕ} (hl : (tally s i a n).last = 0) :
    ∀ k < n, ((s (a + 1 + k)).bridge.cresp (i (a + 1 + k))).last = false := by
  induction n with
  | zero => exact fun k hk => absurd hk (Nat.not_lt_zero k)
  | succ n ih =>
    intro k hk
    obtain ⟨hn, hlast⟩ : (tally s i a n).last = 0 ∧
        ((s (a + 1 + n)).bridge.cresp (i (a + 1 + n))).last.toNat = 0 := Nat.add_eq_zero_iff.1 hl
    rcases Nat.lt_succ_iff_lt_or_eq.1 hk with hk | rfl
    · exact ih hn k hk
    · exact Bool.toNat_eq_zero.1 hlast

theorem held_of_accepted (hh : Held s i) {a : ℕ} (ha : Accepted s i a) {n : ℕ}
    (hl : (tally s i a n).last = 0) : header (i (a + 1 + n)).creq = header (i a).creq := by
  refine hh.kept ha.valid (by omega) fun j haj hj => ne_true_of_eq_false ?_
  -- There is no response in the cycle `a`, and none with `last` in the transaction so far.
  rcases haj.eq_or_lt with rfl | haj
  · exact (quiet_of_idle ha.inIssue).last
  · obtain ⟨k, rfl⟩ := Nat.exists_eq_add_of_le haj
    exact not_last_of_tally s i a hl k (by omega)

/-- What waits for a handshake gets one, from a slave that responds. -/
theorem Stage.exists_handshake {req : CbusReq} {T : Tally} {t : ℕ} (h : Stage req T (s t))
    (hs : Responsive s i) (hstays : ∀ u ≥ t, s u = s t) :
    ∃ u ≥ t, Handshake (s u).bridge (i u) := by
  have hmask : ∀ {u ar r aw w b}, t ≤ u → (s t).bridge.inIssue = mask ar r aw w b →
      (s u).bridge.inIssue = mask ar r aw w b := fun hu hm => by rwa [hstays _ hu]
  cases h with
  | addr hm =>
    obtain ⟨u, hu, hready⟩ := hs.arready t (by rw [(channels_of_mask hm).1]; rfl)
    refine ⟨u, hu, .inl ?_⟩
    rw [(handshakes_of_mask _ (hmask hu hm)).1, hready]
    rfl
  | beats r hm _ _ _ hsl =>
    obtain ⟨u, hu, hvalid⟩ := hs.rvalid t (by rw [hsl]; exact Nat.succ_pos _)
    refine ⟨u, hu, .inr (.inl ?_)⟩
    rw [(handshakes_of_mask _ (hmask hu hm)).2.1, hvalid]
    rfl
  | data aw w hm =>
    obtain ⟨u, hu, hready⟩ := hs.wready t (by rw [(channels_of_mask hm).2.2.2.1]; rfl)
    refine ⟨u, hu, .inr (.inr (.inr (.inl ?_)))⟩
    rw [(handshakes_of_mask _ (hmask hu hm)).2.2.2.1, hready]
    rfl
  | resp aw hm _ _ hsl =>
    cases aw with
    | true =>
      obtain ⟨u, hu, hready⟩ := hs.awready t (by rw [(channels_of_mask hm).2.2.1]; rfl)
      refine ⟨u, hu, .inr (.inr (.inl ?_))⟩
      rw [(handshakes_of_mask _ (hmask hu hm)).2.2.1, hready]
      rfl
    | false =>
      obtain ⟨u, hu, hvalid⟩ := hs.bvalid t (by rw [hsl]; rfl) (by rw [hsl])
      refine ⟨u, hu, .inr (.inr (.inr (.inr ?_)))⟩
      rw [(handshakes_of_mask _ (hmask hu hm)).2.2.2.2, hvalid]
      rfl

variable (s i) in
theorem total_mono (a : ℕ) {n m : ℕ} (h : n ≤ m) :
    (tally s i a n).total ≤ (tally s i a m).total := by
  induction m, h using Nat.le_induction with
  | base => exact le_rfl
  | succ m _ ih =>
    rw [tally, Tally.total_next]
    omega

/-- A transaction under way gets another handshake. -/
theorem exists_total_lt (hr : machine.IsRun s i) {a : ℕ} (ha : Accepted s i a)
    (hs : Responsive s i) (hun : ∀ n, UnderWay s a n) (n : ℕ) :
    ∃ m ≥ n, (tally s i a m).total < (tally s i a (m + 1)).total := by
  by_contra hno
  push Not at hno
  -- Otherwise, the registers stay as they are, and the slave still owes a handshake.
  have hstays : ∀ m ≥ n, s (a + 1 + m) = s (a + 1 + n) := fun m hm => by
    induction m, hm using Nat.le_induction with
    | base => rfl
    | succ m hm ih =>
      have hst := stage_of_underWay hr ha (hun m)
      rw [← ih, ← Nat.add_assoc, next_eq hr]
      exact hst.next_of_quiet (hno m hm)
  obtain ⟨u, hu, hh⟩ := (stage_of_underWay hr ha (hun n)).exists_handshake hs fun u hu => by
    obtain ⟨k, rfl⟩ := Nat.exists_eq_add_of_le hu
    rw [Nat.add_assoc]
    exact hstays (n + k) (Nat.le_add_right n k)
  obtain ⟨k, rfl⟩ := Nat.exists_eq_add_of_le hu
  rw [Nat.add_assoc (a + 1)] at hh
  exact absurd ((tally s i a (n + k)).total_lt hh) (Nat.not_lt.2 (hno _ (Nat.le_add_right n k)))

/-- With a slave that responds, a transaction comes to an end. -/
theorem exists_end (hr : machine.IsRun s i) {a : ℕ} (ha : Accepted s i a)
    (hs : Responsive s i) : ∃ n, UnderWay s a n ∧ (s (a + 1 + n + 1)).bridge.inIssue = 0#5 := by
  by_contra hno
  push Not at hno
  have hun : ∀ n, UnderWay s a n := by
    intro n
    induction n with
    | zero =>
      intro j hj
      rw [Nat.le_zero.1 hj, Nat.add_zero, next_eq hr]
      exact (stage_of_accept ha.inIssue (slave_idle hr ha.inIssue) ha.valid).busy
    | succ n ih =>
      intro j hj
      rcases Nat.le_succ_iff.1 hj with hj | rfl
      · exact ih j hj
      · exact hno n ih
  -- There would be more and more handshakes.
  have hmany : ∀ k, ∃ n, k ≤ (tally s i a n).total := by
    intro k
    induction k with
    | zero => exact ⟨0, Nat.zero_le _⟩
    | succ k ih =>
      obtain ⟨n, hn⟩ := ih
      obtain ⟨m, hm, hlt⟩ := exists_total_lt hr ha hs hun n
      have hmono := total_mono s i a hm
      exact ⟨m + 1, by omega⟩
  obtain ⟨n, hn⟩ := hmany ((i a).creq.len.toNat + 3)
  have hle := (stage_of_underWay hr ha (hun n)).total_le
  omega

/-- Every request that is accepted is the transaction of what is on the channels, and
    nothing else is on them. -/
theorem transaction (hr : machine.IsRun s i) (hh : Held s i) :
    (∀ t, (s t).bridge.inIssue = 0#5 → Quiet (s t) (i t)) ∧
    (∀ t, (s t).bridge.inIssue ≠ 0#5 →
      ∃ a n, t = a + 1 + n ∧ Accepted s i a ∧ UnderWay s a n) ∧
    ∀ a, Accepted s i a → Transaction s i a := by
  refine ⟨fun t ht => quiet_of_idle ht, exists_accepted hr, fun a ha => ?_⟩
  constructor
  case read => exact fun hw n hn => (stage_of_underWay hr ha hn).readCycle (hr.admits _) hw
  case write => exact fun hw n hn => (stage_of_underWay hr ha hn).writeCycle (hr.admits _) hw
  case held => exact fun n _ hl => held_of_accepted hh ha hl
  case complete =>
    intro n hn hend
    have hnext := (stage_of_underWay hr ha hn).next (hr.admits (a + 1 + n))
    rw [← next_eq hr] at hnext
    exact (hnext.resolve_right fun hst => hst.busy hend).tally
  case ends => exact exists_end hr ha

/-- A read of two beats, again and again, and a slave that takes the first address at once,
    and sends its beats in the cycles 2 and 3. -/
def readIn (t : ℕ) : In where
  creq := { CbusReq.zero with valid := true, addr := 0x80000000#64, size := 3#3, len := 1#8 }
  arready := t == 1
  rdata := BitVec.ofNat 64 t
  rlast := t == 3
  rvalid := t == 2 || t == 3
  awready := false
  wready := false
  bvalid := false

/-- A run with the read. -/
def read : ℕ → Axi :=
  machine.run { bridge := { inIssue := 0#5, savedReq := .zero, count := 0#8 }, slave := .idle }
    readIn

theorem transaction_read :
    tally read readIn 0 3 = { ar := 1, r := 2, aw := 0, w := 0, b := 0, last := 1 } := by
  have hr : machine.IsRun read readIn := machine.isRun_run ⟨rfl, rfl⟩ fun t => by
    refine ⟨fun hv => ?_, fun hb => absurd hb Bool.false_ne_true⟩
    match t, hv with
    | 2, _ => decide
    | 3, _ => decide
  exact ((transaction hr fun _ _ _ => rfl).2.2 0 ⟨rfl, rfl⟩).complete 2
    (fun j hj => by interval_cases j <;> decide) rfl

end Run

end Axi

end RiscvCpu
