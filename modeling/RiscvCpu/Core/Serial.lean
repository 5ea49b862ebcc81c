import RiscvCpu.Sync.Machine

/-!
# Serial units

The multiplier and the divider are the same machine around two different
registers `p`: idle until `valid`, they then load `p` (at the count `0`), shift it
64 times, and raise `done` for one cycle, falling back to idle at any cycle in
which `valid` is low. `SerialReg.next` is that machine, given what is loaded and
how `p` is shifted; `mul` and `div` are its instances.

* `done_iff`: `done` is up in a cycle if and only if the 67 cycles before had
  `valid`, the first of them with the unit idle.
* `p_of_started`: if the operands are constant from the load on, `p` has then been
  loaded and shifted 64 times.

The unit is idle again in the cycle of `done`; if `valid` is still up (the
instruction is only leaving in this cycle), it is busy in the next one, with the
count `0` and nothing loaded yet: `Idle` covers that state, too, as the next
operation may start from it.
-/

namespace RiscvCpu

open Sync

/-- The registers of a serial unit. -/
structure SerialReg (n : ℕ) where
  state : Bool
  count : BitVec 7
  p : BitVec n
  done : Bool
  deriving DecidableEq, Repr

/-- The operands of a serial unit, and whether they are `valid`. -/
structure SerialIn where
  valid : Bool
  a : BitVec 64
  b : BitVec 64
  /-- Signed operands. -/
  s : Bool
  /-- Operands of 32 bits. -/
  w : Bool
  deriving DecidableEq, Repr

namespace SerialReg

variable {n : ℕ}

/-- The state after a reset. -/
def init : SerialReg n := { state := false, count := 0#7, p := 0#n, done := false }

/-- The clock edge of a serial unit. The assignments of the reset come first, and
    those of the case statement override them: it has no `else`. -/
def next (load : BitVec n) (shift : BitVec n → BitVec n) (reset valid : Bool) (r : SerialReg n) :
    SerialReg n :=
  let r' := if reset then { r with state := false, count := 0#7, p := 0#n } else r
  match r.state with
  | false =>
    if valid then { r' with done := false, state := true, count := 0#7 }
    else { r' with done := false, state := false, count := 0#7 }
  | true =>
    if valid then
      { (if r.count = 0#7 then { r' with p := load }
          else if r.count = 0x41#7 then { r' with state := false, done := true }
          else { r' with p := shift r.p }) with count := r.count + 1#7 }
    else { r' with state := false, count := 0#7 }

/-- Nothing is loaded, or about to be done. -/
structure Idle (r : SerialReg n) : Prop where
  done : r.done = false
  count : r.state = true → r.count.toNat = 0

/-- In the cycle `j` of an operation, out of 66. -/
structure Counting (j : ℕ) (r : SerialReg n) : Prop where
  state : r.state = true
  count : r.count.toNat = j
  le : j ≤ 65
  done : r.done = false

/-- The cycle after an operation. -/
structure Finished (r : SerialReg n) : Prop where
  state : r.state = false
  done : r.done = true

/-- The shifts done so far are those of `j` cycles. -/
def Shifted (load : BitVec n) (shift : BitVec n → BitVec n) (j : ℕ) (r : SerialReg n) : Prop :=
  1 ≤ j → r.p = shift^[j - 1] load

variable {load : BitVec n} {shift : BitVec n → BitVec n} {valid : Bool} {r : SerialReg n} {j : ℕ}

theorem idle_init : Idle (init : SerialReg n) := ⟨rfl, fun h => absurd h Bool.false_ne_true⟩

/-! ## One cycle -/

theorem count_eq_iff (k : ℕ) (hk : k < 128) : r.count = BitVec.ofNat 7 k ↔ r.count.toNat = k := by
  rw [← BitVec.toNat_inj, BitVec.toNat_ofNat, Nat.mod_eq_of_lt hk]

/-- A cycle without `valid` stops the operation. -/
theorem next_of_not_valid :
    next load shift false false r =
      { r with state := false, count := 0#7, done := r.done && r.state } := by
  cases hs : r.state <;> simp [next, hs]

/-- `valid` starts an idle unit. -/
theorem next_start (hs : r.state = false) :
    next load shift false true r = { r with state := true, count := 0#7, done := false } := by
  simp [next, hs]

/-- The count `0` loads the register. -/
theorem next_load (hs : r.state = true) (hc : r.count.toNat = 0) :
    next load shift false true r = { r with p := load, count := r.count + 1#7 } := by
  simp [next, hs, (count_eq_iff 0 (by omega)).2 hc]

/-- The count `0x41` ends the operation. -/
theorem next_finish (hs : r.state = true) (hc : r.count.toNat = 65) :
    next load shift false true r =
      { r with state := false, done := true, count := r.count + 1#7 } := by
  simp [next, hs, (count_eq_iff 65 (by omega)).2 hc]

/-- The other counts shift the register. -/
theorem next_shift (hs : r.state = true) (h0 : r.count.toNat ≠ 0) (h65 : r.count.toNat ≠ 65) :
    next load shift false true r = { r with p := shift r.p, count := r.count + 1#7 } := by
  have h0' : r.count ≠ 0#7 := fun h => h0 ((count_eq_iff 0 (by omega)).1 h)
  have h65' : r.count ≠ 0x41#7 := fun h => h65 ((count_eq_iff 65 (by omega)).1 h)
  simp [next, hs, h0', h65']

/-- A reset stops a busy unit, at any count. -/
theorem not_state_of_reset (hr : r.state = true) :
    (next load shift true valid r).state = false := by
  cases valid with
  | false => simp [next, hr]
  | true =>
    simp only [next, hr, if_true]
    split_ifs <;> rfl

/-- A reset does not stop an idle unit from starting, but then `done` is down. -/
theorem not_done_of_reset (hs : (next load shift true valid r).state = true) :
    (next load shift true valid r).done = false := by
  cases hr : r.state with
  | false => cases valid <;> simp [next, hr]
  | true =>
    rw [not_state_of_reset hr] at hs
    exact absurd hs Bool.false_ne_true

/-- Without `valid`, a reset clears all registers, if `done` is not up in a busy unit. -/
theorem next_reset (hd : r.state = true → r.done = false) :
    next load shift true false r = init := by
  cases hr : r.state with
  | false => simp [next, init, hr]
  | true => simp [next, init, hr, hd hr]

theorem Idle.next_of_not_valid (h : Idle r) : Idle (next load shift false false r) := by
  rw [SerialReg.next_of_not_valid]
  exact ⟨by simp [h.done], fun h' => absurd h' Bool.false_ne_true⟩

variable (load shift) in
theorem Counting.next (h : Counting j r) (hj : j < 65) :
    Counting (j + 1) (next load shift false true r) := by
  have hc : (r.count + 1#7).toNat = j + 1 := by
    rw [BitVec.toNat_add, h.count]
    exact Nat.mod_eq_of_lt (show j + 1 < 128 by omega)
  -- The first of the cycles loads the register, and the others shift it.
  rcases Nat.eq_zero_or_pos j with h0 | h0
  · rw [next_load h.state (h.count.trans h0)]
    exact ⟨h.state, hc, by omega, h.done⟩
  · rw [next_shift h.state (by rw [h.count]; omega) (by rw [h.count]; omega)]
    exact ⟨h.state, hc, by omega, h.done⟩

variable (load shift) in
theorem Counting.finish (h : Counting 65 r) :
    Finished (SerialReg.next load shift false true r) := by
  rw [next_finish h.state h.count]
  exact ⟨rfl, rfl⟩

theorem Finished.next (h : Finished r) : Idle (next load shift false valid r) := by
  cases valid with
  | false =>
    rw [SerialReg.next_of_not_valid]
    exact ⟨by simp [h.state], fun h' => absurd h' Bool.false_ne_true⟩
  | true =>
    rw [next_start h.state]
    exact ⟨rfl, fun _ => rfl⟩

theorem Shifted.next (hs : Shifted load shift j r) (h : Counting j r) (hj : j < 65) :
    Shifted load shift (j + 1) (next load shift false true r) := by
  intro _
  rcases Nat.eq_zero_or_pos j with rfl | h0
  · rw [next_load h.state h.count]
    rfl
  · rw [next_shift h.state (by rw [h.count]; omega) (by rw [h.count]; omega)]
    obtain ⟨k, rfl⟩ : ∃ k, j = k + 1 := ⟨j - 1, by omega⟩
    change shift r.p = shift^[k + 1] load
    rw [hs h0, Function.iterate_succ_apply']
    rfl

theorem Shifted.finish (hs : Shifted load shift 65 r) (h : Counting 65 r) :
    (SerialReg.next load shift false true r).p = shift^[64] load := by
  rw [next_finish h.state h.count]
  exact hs (by omega)

variable (load shift) in
/-- `valid` starts a unit at rest: it counts from `0`, or from `1` if the cycle
    before had already started it. -/
theorem Idle.next_of_valid (h : Idle r) :
    ∃ j ≤ 1, Counting j (next load shift false true r) ∧
      Shifted load shift j (next load shift false true r) := by
  cases hs : r.state with
  | false =>
    refine ⟨0, by omega, ?_, fun h => absurd h (by omega)⟩
    rw [next_start hs]
    exact ⟨rfl, rfl, by omega, rfl⟩
  | true =>
    have hc : Counting 0 r := ⟨hs, h.count hs, by omega, h.done⟩
    exact ⟨1, le_rfl, hc.next load shift (by omega),
      Shifted.next (fun h => absurd h (by omega)) hc (by omega)⟩

/-! ## An operation on constant operands -/

/-- In an operation, or just done with it. -/
inductive Working (load : BitVec n) (shift : BitVec n → BitVec n) (r : SerialReg n) : Prop
  | counting (j : ℕ) (h : Counting j r) (hs : Shifted load shift j r)
  | finished (h : Finished r) (hp : r.p = shift^[64] load)

/-- The number of cycles until `done`, at most. -/
def remaining (r : SerialReg n) : ℕ := if r.state then 66 - r.count.toNat else 0

theorem Idle.start (h : Idle r) : Working load shift (SerialReg.next load shift false true r) := by
  obtain ⟨j, _, hc, hs⟩ := h.next_of_valid load shift
  exact .counting j hc hs

theorem Working.next (h : Working load shift r) (hd : r.done = false) :
    Working load shift (SerialReg.next load shift false true r) ∧
      (SerialReg.next load shift false true r).remaining < r.remaining := by
  cases h with
  | counting j h hs =>
    have hr : r.remaining = 66 - j := by rw [remaining, h.state, if_pos rfl, h.count]
    rw [hr]
    rcases Nat.lt_or_eq_of_le h.le with hj | rfl
    · have h' := h.next load shift hj
      refine ⟨.counting (j + 1) h' (hs.next h hj), ?_⟩
      rw [remaining, h'.state, if_pos rfl, h'.count]
      omega
    · have h' := h.finish load shift
      refine ⟨.finished h' (hs.finish h), ?_⟩
      rw [remaining, h'.state, if_neg Bool.false_ne_true]
      omega
  | finished h _ => exact absurd h.done (ne_true_of_eq_false hd)

theorem Working.of_done (h : Working load shift r) (hd : r.done = true) :
    Finished r ∧ r.p = shift^[64] load := by
  cases h with
  | counting j h _ => exact absurd hd (ne_true_of_eq_false h.done)
  | finished h hp => exact ⟨h, hp⟩

/-! ## Runs -/

section Run

variable {I : Type*} (load : I → BitVec n) (shift : I → BitVec n → BitVec n) (valid : I → Bool)

/-- The unit, from its reset state, under any inputs. -/
def machine : Machine (SerialReg n) I where
  init := {init}
  admits _ := Set.univ
  next r i := next (load i) (shift i) false (valid i) r

variable {load shift valid} {r : ℕ → SerialReg n} {i : ℕ → I} {m k : ℕ}

theorem run_zero (hr : (machine load shift valid).IsRun r i) : r 0 = init := hr.init

theorem run_succ (hr : (machine load shift valid).IsRun r i) (c : ℕ) :
    r (c + 1) = next (load (i c)) (shift (i c)) false (valid (i c)) (r c) := hr.next c

/-- The unit is idle in the cycle `m`, and `valid` up in it and the `j` next ones. -/
structure Started (valid : I → Bool) (r : ℕ → SerialReg n) (i : ℕ → I) (m j : ℕ) : Prop where
  state : (r m).state = false
  valid : ∀ k ≤ j, valid (i (m + k)) = true

theorem Started.of_le (h : Started valid r i m j) (hk : k ≤ j) : Started valid r i m k :=
  ⟨h.state, fun l hl => h.valid l (hl.trans hk)⟩

theorem Started.succ (h : Started valid r i m j) (hv : valid (i (m + j + 1)) = true) :
    Started valid r i m (j + 1) := by
  refine ⟨h.state, fun k hk => ?_⟩
  rcases Nat.lt_or_eq_of_le hk with hk | rfl
  · exact h.valid k (by omega)
  · exact hv

/-- A started unit counts. -/
theorem counting_of_started (hr : (machine load shift valid).IsRun r i) (hj : j ≤ 65)
    (hs : Started valid r i m j) : Counting j (r (m + j + 1)) := by
  have hv := hs.valid j le_rfl
  induction j with
  | zero =>
    rw [Nat.add_zero] at hv
    rw [Nat.add_zero, run_succ hr, hv, next_start hs.state]
    exact ⟨rfl, rfl, by omega, rfl⟩
  | succ j ih =>
    rw [run_succ hr, hv]
    exact (ih (by omega) (hs.of_le (Nat.le_succ j)) (hs.valid j (by omega))).next _ _ (by omega)

/-- A busy unit was started, and has counted since. -/
theorem started_of_state (hr : (machine load shift valid).IsRun r i) {c : ℕ}
    (hc : (r c).state = true) : ∃ m j, c = m + j + 1 ∧ j ≤ 65 ∧ Started valid r i m j := by
  induction c with
  | zero =>
    rw [run_zero hr] at hc
    exact absurd hc Bool.false_ne_true
  | succ c ih =>
    rw [run_succ hr] at hc
    cases hv : valid (i c) with
    | false =>
      rw [hv, SerialReg.next_of_not_valid] at hc
      exact absurd hc Bool.false_ne_true
    | true =>
      cases hs : (r c).state with
      | false =>
        exact ⟨c, 0, rfl, by omega, hs, fun k hk => by rwa [Nat.le_zero.1 hk, Nat.add_zero]⟩
      | true =>
        obtain ⟨m, j, rfl, hj, hst⟩ := ih hs
        have hcount := counting_of_started hr hj hst
        -- At the count 65, the unit would be idle in the next cycle.
        have hj' : j ≠ 65 := by
          rintro rfl
          rw [hv, next_finish hcount.state hcount.count] at hc
          exact absurd hc Bool.false_ne_true
        exact ⟨m, j + 1, rfl, by omega, hst.succ hv⟩

/-- A busy unit is not `done`. -/
theorem done_of_state (hr : (machine load shift valid).IsRun r i) {c : ℕ}
    (hs : (r c).state = true) : (r c).done = false := by
  obtain ⟨m, j, rfl, hj, hst⟩ := started_of_state hr hs
  exact (counting_of_started hr hj hst).done

/-- The timing: `done` comes 67 cycles after an idle cycle, if `valid` was up all
    the time, and only so. -/
theorem done_iff (hr : (machine load shift valid).IsRun r i) (c : ℕ) :
    (r c).done = true ↔ ∃ m, c = m + 67 ∧ Started valid r i m 66 := by
  constructor
  · intro hd
    cases c with
    | zero =>
      rw [run_zero hr] at hd
      exact absurd hd Bool.false_ne_true
    | succ c =>
      rw [run_succ hr] at hd
      cases hs : (r c).state with
      | false =>
        -- An idle unit is never done in the next cycle.
        cases hv : valid (i c) with
        | false => simp [hv, next_of_not_valid, hs] at hd
        | true => simp [hv, next_start hs] at hd
      | true =>
        have hdone := done_of_state hr hs
        obtain ⟨m, j, rfl, hj, hst⟩ := started_of_state hr hs
        have hcount := counting_of_started hr hj hst
        cases hv : valid (i (m + j + 1)) with
        | false => simp [hv, next_of_not_valid, hdone] at hd
        | true =>
          -- Only the last count raises `done`.
          rcases Nat.lt_or_eq_of_le hj with hlt | rfl
          · rw [hv, (hcount.next _ _ hlt).done] at hd
            exact absurd hd Bool.false_ne_true
          · exact ⟨m, rfl, hst.succ hv⟩
  · rintro ⟨m, rfl, hs⟩
    have hc := counting_of_started hr le_rfl (hs.of_le (k := 65) (by omega))
    rw [run_succ hr, hs.valid 66 le_rfl]
    exact (hc.finish _ _).done

/-- `done` is up for one cycle. -/
theorem not_done_succ (hr : (machine load shift valid).IsRun r i) {c : ℕ}
    (hd : (r c).done = true) : (r (c + 1)).done = false := by
  have hs : (r c).state = false := by
    by_contra hs
    rw [done_of_state hr (eq_true_of_ne_false hs)] at hd
    exact absurd hd Bool.false_ne_true
  have hf : Finished (r c) := ⟨hs, hd⟩
  rw [run_succ hr]
  exact hf.next.done

/-- The data: after an operation on constant operands, the register has been
    loaded, and shifted 64 times. -/
theorem p_of_started (hr : (machine load shift valid).IsRun r i) (hs : Started valid r i m 66)
    {x : BitVec n} {f : BitVec n → BitVec n}
    (hc : ∀ k, 1 ≤ k → k ≤ 66 → load (i (m + k)) = x ∧ shift (i (m + k)) = f) :
    (r (m + 67)).p = f^[64] x := by
  have hcount : ∀ j ≤ 65, Counting j (r (m + j + 1)) := fun j hj =>
    counting_of_started hr hj (hs.of_le (by omega))
  -- By induction on the cycles: the operands of the first cycle, which only starts the unit,
  -- do not matter.
  have hp : ∀ j ≤ 65, Shifted x f j (r (m + j + 1)) := by
    intro j
    induction j with
    | zero => exact fun _ h => absurd h (by omega)
    | succ j ih =>
      intro hj
      obtain ⟨hl, hf⟩ := hc (j + 1) (by omega) (by omega)
      rw [run_succ hr, hs.valid (j + 1) (by omega), hl, hf]
      exact (ih (by omega)).next (hcount j (by omega)) (by omega)
  obtain ⟨hl, hf⟩ := hc 66 (by omega) le_rfl
  rw [run_succ hr, hs.valid 66 le_rfl, hl, hf]
  exact (hp 65 le_rfl).finish (hcount 65 le_rfl)

/-- The timing, by the inputs of the 67 cycles before. -/
theorem done_iff_valid (hr : (machine load shift valid).IsRun r i) (c : ℕ) :
    (r c).done = true ↔
      ∃ m, c = m + 67 ∧ (r m).state = false ∧ ∀ k < 67, valid (i (m + k)) = true := by
  rw [done_iff hr]
  exact exists_congr fun m => and_congr_right fun _ =>
    ⟨fun h => ⟨h.state, fun k hk => h.valid k (by omega)⟩,
      fun h => ⟨h.1, fun k hk => h.2 k (by omega)⟩⟩

/-- The data: when the unit is done, and the operands were those of this cycle since the
    load, the register has been loaded with them, and shifted 64 times. -/
theorem p_of_done (hr : (machine load shift valid).IsRun r i) {c : ℕ} (hd : (r c).done = true)
    (hc : ∀ k, c - 66 ≤ k → k ≤ c → load (i k) = load (i c) ∧ shift (i k) = shift (i c)) :
    (r c).p = (shift (i c))^[64] (load (i c)) := by
  obtain ⟨m, rfl, hs⟩ := (done_iff hr c).1 hd
  exact p_of_started hr hs fun k h1 h66 => hc (m + k) (by omega) (by omega)

end Run

end SerialReg

end RiscvCpu
