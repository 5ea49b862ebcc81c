import Mathlib.Data.Fin.Basic
import RiscvCpu.Common
import RiscvCpu.Sync.Request

/-!
# The arbiter

The arbiter connects `n` requesters to one slave of the cache bus. When it is free, it
selects the first valid request, and forwards, from the next cycle on, what the selected
requester presents, until the response with `last`. It is then free again, for at least
one cycle.

A requester keeps its request valid until it is answered (`Held`), but can change the
data, e.g., between the beats of a burst. That is why the live request is forwarded, and
not the one that was selected. What the slave does is up to it.
-/

namespace RiscvCpu

open Sync

/-- The registers of the arbiter. -/
structure Arbiter where
  busy : Bool
  index : ℕ
  /-- Not read by anything. -/
  savedReq : CbusReq
  deriving DecidableEq, Repr

namespace Arbiter

/-- The registers after a reset. -/
def init : Arbiter := { busy := false, index := 0, savedReq := .zero }

variable {n : ℕ}

/-! ## Wires -/

/-- `ireqs[k]`. -/
def req (ireqs : Fin n → CbusReq) (k : ℕ) : CbusReq :=
  if h : k < n then ireqs ⟨k, h⟩ else .zero

/-- The first valid request, or 0. -/
def select (ireqs : Fin n → CbusReq) : ℕ :=
  match Fin.find? fun i => (ireqs i).valid with
  | some i => i
  | none => 0

def selectedReq (ireqs : Fin n → CbusReq) : CbusReq := req ireqs (select ireqs)

variable (s : Arbiter) (ireqs : Fin n → CbusReq) (oresp : CbusResp)

def oreq : CbusReq := if s.busy then req ireqs s.index else .zero

def iresps (i : Fin n) : CbusResp := if s.busy ∧ s.index = i then oresp else .zero

/-! ## The clock edge -/

/-- The registers after the clock edge. -/
def next (reset : Bool) : Arbiter :=
  if !reset then
    if s.busy then
      if oresp.last then { s with busy := false, savedReq := .zero } else s
    else
      { busy := (selectedReq ireqs).valid, index := select ireqs, savedReq := selectedReq ireqs }
  else
    init

/-- The inputs of the arbiter in a cycle. -/
structure In (n : ℕ) where
  ireqs : Fin n → CbusReq
  oresp : CbusResp

variable (n) in
/-- The arbiter with any requesters and slave. -/
def machine : Machine Arbiter (In n) where
  init := {init}
  admits _ := Set.univ
  next s i := s.next i.ireqs i.oresp false

/-! ## One cycle -/

variable {s ireqs oresp}

theorem req_fin (k : Fin n) : req ireqs k = ireqs k := dif_pos k.isLt

/-- The first valid request is selected. -/
theorem select_eq (h : (selectedReq ireqs).valid = true) :
    ∃ k : Fin n, select ireqs = k ∧ (ireqs k).valid = true ∧ ∀ j < k, (ireqs j).valid = false := by
  cases hf : Fin.find? fun i => (ireqs i).valid with
  | some k =>
    obtain ⟨hk, hj⟩ := Fin.find?_eq_some_iff.1 hf
    exact ⟨k, by rw [select, hf], hk, hj⟩
  | none =>
    -- Without a valid request, the one at 0 is selected, if there is one: it is not valid.
    exfalso
    have hv := Fin.find?_eq_none_iff.1 hf
    rw [selectedReq, req] at h
    split at h
    · rw [hv] at h
      exact absurd h Bool.false_ne_true
    · exact absurd h Bool.false_ne_true

/-- If there is a valid request, a valid one is selected. -/
theorem selectedReq_valid {i : Fin n} (h : (ireqs i).valid = true) :
    (selectedReq ireqs).valid = true := by
  cases hf : Fin.find? fun i => (ireqs i).valid with
  | some k =>
    have hk := (Fin.find?_eq_some_iff.1 hf).1
    rw [selectedReq, select, hf, req_fin, hk]
  | none =>
    rw [Fin.find?_eq_none_iff.1 hf i] at h
    exact absurd h Bool.false_ne_true

theorem oreq_of_free (h : s.busy = false) : s.oreq ireqs = .zero := by
  rw [oreq, h, if_neg Bool.false_ne_true]

variable (ireqs) in
theorem oreq_of_busy {k : Fin n} (h : s.busy = true) (hk : s.index = k) :
    s.oreq ireqs = ireqs k := by
  rw [oreq, h, if_pos rfl, hk, req_fin]

theorem iresps_of_free (h : s.busy = false) (i : Fin n) : s.iresps oresp i = .zero := by
  rw [iresps, h, if_neg fun h => Bool.false_ne_true h.1]

theorem iresps_self {k : Fin n} (h : s.busy = true) (hk : s.index = k) :
    s.iresps oresp k = oresp := if_pos ⟨h, hk⟩

theorem iresps_of_ne {i k : Fin n} (hk : s.index = k) (hi : i ≠ k) :
    s.iresps oresp i = .zero :=
  if_neg fun h => hi (Fin.val_injective (h.2.symm.trans hk))

variable (ireqs oresp) in
theorem next_of_busy (h : s.busy = true) :
    (s.next ireqs oresp false).busy = !oresp.last ∧
      (s.next ireqs oresp false).index = s.index := by
  cases hl : oresp.last <;> simp [next, h, hl]

variable (ireqs oresp) in
theorem next_of_free (h : s.busy = false) :
    (s.next ireqs oresp false).busy = (selectedReq ireqs).valid ∧
      (s.next ireqs oresp false).index = select ireqs := by
  simp [next, h]

/-- The arbiter takes the first valid request, as soon as it is free. -/
theorem busy_next_of_free (h : s.busy = false) :
    (s.next ireqs oresp false).busy = true ↔ ∃ i, (ireqs i).valid = true := by
  rw [(next_of_free _ _ h).1]
  refine ⟨fun hv => ?_, fun ⟨i, hi⟩ => selectedReq_valid hi⟩
  obtain ⟨k, _, hk, _⟩ := select_eq hv
  exact ⟨k, hk⟩

/-! ## Grants -/

section Run

variable {s : ℕ → Arbiter} {i : ℕ → In n}

/-- The requesters keep their requests valid until they are answered, with `last`. -/
def Held (s : ℕ → Arbiter) (i : ℕ → In n) : Prop :=
  ∀ k : Fin n, Sync.Held (fun v => v = true) (fun t => ((i t).ireqs k).valid)
    (fun t => ((s t).iresps (i t).oresp k).last = true)

/-- A request that is not answered is still valid in the next cycle. -/
theorem Held.valid (hh : Held s i) {t : ℕ} {k : Fin n} (hv : ((i t).ireqs k).valid = true)
    (hl : ((s t).iresps (i t).oresp k).last = false) : ((i (t + 1)).ireqs k).valid = true :=
  (hh k t hv (ne_true_of_eq_false hl)).trans hv

/-- The request `k`, selected in the cycle `g`, is under way in the cycle `t`. -/
structure Granted (s : ℕ → Arbiter) (i : ℕ → In n) (g : ℕ) (k : Fin n) (t : ℕ) : Prop where
  lt : g < t
  free : (s g).busy = false
  /-- It was valid, and the first that was. -/
  valid : ((i g).ireqs k).valid = true
  first : ∀ j < k, ((i g).ireqs j).valid = false
  busy : ∀ u, g < u → u ≤ t → (s u).busy = true ∧ (s u).index = k
  /-- What is forwarded is valid. -/
  forwarded : ∀ u, g < u → u ≤ t → ((i u).ireqs k).valid = true
  not_last : ∀ u, g < u → u < t → (i u).oresp.last = false

theorem granted_of_free (hr : (machine n).IsRun s i) (hh : Held s i) {g : ℕ}
    (hf : (s g).busy = false) (hb : (s (g + 1)).busy = true) :
    ∃ k, Granted s i g k (g + 1) := by
  have hn : s (g + 1) = (s g).next (i g).ireqs (i g).oresp false := hr.next g
  rw [hn, (next_of_free _ _ hf).1] at hb
  obtain ⟨k, hk, hv, hj⟩ := select_eq hb
  have hlast : ((s g).iresps (i g).oresp k).last = false := by
    rw [iresps_of_free hf]
    rfl
  refine ⟨k, g.lt_succ_self, hf, hv, hj, fun u hu hut => ?_, fun u hu hut => ?_, fun u hu hut => ?_⟩
  · obtain rfl : u = g + 1 := by omega
    rw [hn, (next_of_free _ _ hf).1, (next_of_free _ _ hf).2]
    exact ⟨hb, hk⟩
  · obtain rfl : u = g + 1 := by omega
    exact hh.valid hv hlast
  · omega

theorem Granted.succ {g t : ℕ} {k : Fin n} (h : Granted s i g k t) (hr : (machine n).IsRun s i)
    (hh : Held s i) (hl : (i t).oresp.last = false) : Granted s i g k (t + 1) := by
  have hn : s (t + 1) = (s t).next (i t).ireqs (i t).oresp false := hr.next t
  obtain ⟨hb, hk⟩ := h.busy t h.lt le_rfl
  -- The requester sees the response of the slave, and keeps its request valid.
  have hlast : ((s t).iresps (i t).oresp k).last = false := by
    rw [iresps_self hb hk, hl]
  refine ⟨Nat.lt_succ_of_lt h.lt, h.free, h.valid, h.first, fun u hu hut => ?_, fun u hu hut => ?_,
    fun u hu hut => ?_⟩
  · rcases Nat.le_succ_iff.1 hut with hut | rfl
    · exact h.busy u hu hut
    · rw [hn, (next_of_busy _ _ hb).1, (next_of_busy _ _ hb).2, hl]
      exact ⟨rfl, hk⟩
  · rcases Nat.le_succ_iff.1 hut with hut | rfl
    · exact h.forwarded u hu hut
    · exact hh.valid (h.forwarded t h.lt le_rfl) hlast
  · rcases Nat.lt_succ_iff_lt_or_eq.1 hut with hut | rfl
    · exact h.not_last u hu hut
    · exact hl

/-- When the arbiter is busy, some request is under way. -/
theorem granted_of_busy (hr : (machine n).IsRun s i) (hh : Held s i) (t : ℕ)
    (hb : (s t).busy = true) : ∃ g k, Granted s i g k t := by
  induction t with
  | zero =>
    rw [Set.mem_singleton_iff.1 hr.init] at hb
    exact absurd hb Bool.false_ne_true
  | succ t ih =>
    cases hf : (s t).busy with
    | false =>
      obtain ⟨k, hk⟩ := granted_of_free hr hh hf hb
      exact ⟨t, k, hk⟩
    | true =>
      obtain ⟨g, k, hg⟩ := ih hf
      have hn : s (t + 1) = (s t).next (i t).ireqs (i t).oresp false := hr.next t
      rw [hn, (next_of_busy _ _ hf).1, Bool.not_eq_true'] at hb
      exact ⟨g, k, hg.succ hr hh hb⟩

/-- A free arbiter forwards nothing, and takes the first valid request. A busy one
    forwards the request that is under way, and its responses, until the last one; then
    it is free. No one else gets a response. -/
theorem serialises (hr : (machine n).IsRun s i) (hh : Held s i) (t : ℕ) :
    ((s t).busy = false →
      (s t).oreq (i t).ireqs = .zero ∧ (∀ k : Fin n, (s t).iresps (i t).oresp k = .zero) ∧
        ((s (t + 1)).busy = true ↔ ∃ k, ((i t).ireqs k).valid = true)) ∧
    ((s t).busy = true → ∃ g k, Granted s i g k t ∧
      (∀ u, g < u → u ≤ t → (s u).oreq (i u).ireqs = (i u).ireqs k ∧
        ((s u).oreq (i u).ireqs).valid = true ∧ (s u).iresps (i u).oresp k = (i u).oresp ∧
        ∀ j ≠ k, (s u).iresps (i u).oresp j = .zero) ∧
      ((s (t + 1)).busy = false ↔ (i t).oresp.last = true)) ∧
    ∀ k : Fin n, ((s t).iresps (i t).oresp k).ready = true ∨
      ((s t).iresps (i t).oresp k).last = true → ∃ g, Granted s i g k t := by
  have hn : s (t + 1) = (s t).next (i t).ireqs (i t).oresp false := hr.next t
  refine ⟨fun hf => ⟨oreq_of_free hf, iresps_of_free hf, ?_⟩, fun hb => ?_, fun k hk => ?_⟩
  · rw [hn]
    exact busy_next_of_free hf
  · obtain ⟨g, k, hg⟩ := granted_of_busy hr hh t hb
    refine ⟨g, k, hg, fun u hu hut => ?_, ?_⟩
    · obtain ⟨hbu, hku⟩ := hg.busy u hu hut
      have ho := oreq_of_busy (i u).ireqs hbu hku
      exact ⟨ho, ho ▸ hg.forwarded u hu hut, iresps_self hbu hku, fun j hj => iresps_of_ne hku hj⟩
    · rw [hn, (next_of_busy _ _ hb).1, Bool.not_eq_false']
  -- A response that is not `0` is that of the slave, passed on.
  · have hb : (s t).busy = true ∧ (s t).index = k := by
      by_contra hne
      rw [iresps, if_neg hne] at hk
      exact hk.elim (absurd · Bool.false_ne_true) (absurd · Bool.false_ne_true)
    obtain ⟨g, j, hg⟩ := granted_of_busy hr hh t hb.1
    obtain rfl : j = k := Fin.val_injective ((hg.busy t hg.lt le_rfl).2.symm.trans hb.2)
    exact ⟨g, hg⟩

/-- Two requesters that ask all the time, and a slave that answers with bursts of 3 beats. -/
def burstIn (t : ℕ) : In 2 where
  ireqs k := { CbusReq.zero with valid := true, data := BitVec.ofNat 64 (k + t) }
  oresp := { ready := true, last := t % 3 == 0, data := 0#64 }

theorem serialises_burst :
    (∃ g k, Granted ((machine 2).run init burstIn) burstIn g k 3) ∧
      ((machine 2).run init burstIn 4).busy = false := by
  have hr : (machine 2).IsRun ((machine 2).run init burstIn) burstIn :=
    (machine 2).isRun_run rfl fun _ => trivial
  have hh : Held ((machine 2).run init burstIn) burstIn := fun _ _ _ _ => rfl
  obtain ⟨g, k, hg, _, hl⟩ := (serialises hr hh 3).2.1 rfl
  exact ⟨⟨g, k, hg⟩, hl.2 rfl⟩

end Run

end Arbiter

end RiscvCpu
