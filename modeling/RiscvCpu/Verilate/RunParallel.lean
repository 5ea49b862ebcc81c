import Mathlib.Algebra.BigOperators.Fin
import Mathlib.Algebra.Order.BigOperators.Group.Finset
import Mathlib.Tactic.Ring
import RiscvCpu.Sync.Trace

/-!
# The tests in parallel

A master runs the tests on a number of workers, its child processes. Each worker is
connected to the master by two pipes: it sends a character to request a test, and gets the
index of a test, or `-1` when there are no more. A worker whose test fails is gone, and the
end of its pipe is what the master sees of it. The calls of `pipe`, `fork` and `select` succeed:
all descriptors are below `FD_SETSIZE`.

In whatever order the processes take their steps (`run_parallel_correct`), every test is run
at most once, the master always gets to the end of its loop, and it ends with a failure if
and only if a test has failed. Otherwise all tests have been run, and are counted.
-/

namespace RiscvCpu

open Sync

/-- What a process does, in `run_worker`. -/
inductive RunWorker
  /-- Before the `write`. -/
  | asking
  /-- In the `read`. -/
  | waiting
  | running (i : ℕ)
  | exited
  /-- A test has ended the process. -/
  | dead
  deriving DecidableEq, Repr

/-- A worker, its pipes, and what the master keeps about it. -/
structure Worker where
  proc : RunWorker
  /-- The characters in the pipe to the master. -/
  requests : ℕ
  /-- The numbers in the pipe from the master. -/
  responses : List ℤ
  /-- Whether the master still reads from the pipe: `worker[j] >= 0`. -/
  isOpen : Bool
  /-- Whether the worker is the first time to request a task. -/
  first : Bool
  deriving DecidableEq, Repr

/-- The state of the processes, in `run_parallel` with `n` workers. -/
structure RunParallel (n : ℕ) where
  worker : Fin n → Worker
  dispatched : ℕ
  exited : ℕ
  passed : ℕ
  failed : Bool
  /-- In the loop over the workers: the next worker, and the result of `select`. -/
  scan : Option (ℕ × (Fin n → Bool))

namespace Worker

def initial : Worker := ⟨.asking, 0, [], true, true⟩

/-- The other end of the pipe to the master is closed. -/
def Gone (w : Worker) : Prop := w.proc = .exited ∨ w.proc = .dead

/-- A `read` of the master returns: there is a character, or the end of the pipe. -/
def Readable (w : Worker) : Prop := w.requests ≠ 0 ∨ w.Gone

instance : DecidablePred Gone := fun _ => inferInstanceAs (Decidable (_ ∨ _))
instance : DecidablePred Readable := fun _ => inferInstanceAs (Decidable (_ ∨ _))

end Worker

namespace RunParallel

variable {n : ℕ} (total : ℕ) (s : RunParallel n)

/-! ## Steps -/

inductive Action (n : ℕ)
  /-- The master returns from `select`. -/
  | select (set : Fin n → Bool)
  /-- The master does one round of the loop over the workers, or leaves it. -/
  | visit
  /-- A worker sends its character. -/
  | request (j : Fin n)
  | receive (j : Fin n)
  | pass (j : Fin n) (i : ℕ)
  | fail (j : Fin n) (i : ℕ)

/-- After the processes are spawned. -/
def spawned (n : ℕ) : RunParallel n := ⟨fun _ => .initial, 0, 0, 0, false, none⟩

def setWorker (j : Fin n) (w : Worker) : RunParallel n :=
  { s with worker := Function.update s.worker j w }

/-- A new task is dispatched, or `-1` is sent. -/
def respond (j : Fin n) : RunParallel n :=
  let w := s.worker j
  if s.dispatched < total then
    { s.setWorker j { w with responses := w.responses ++ [(s.dispatched : ℤ)] } with
      dispatched := s.dispatched + 1 }
  else
    { s.setWorker j { w with responses := w.responses ++ [-1], isOpen := false } with
      exited := s.exited + 1 }

/-- The master has read a character, or the end of the pipe of a worker. -/
def serve (j : Fin n) (set : Fin n → Bool) : RunParallel n :=
  let w := s.worker j
  -- The child failed, and the pipe was closed.
  if w.requests = 0 then { s with failed := true, scan := none }
  else
    let s := s.setWorker j { w with requests := w.requests - 1, first := false }
    let s := if w.first then s else { s with passed := s.passed + 1 }
    { s.respond total j with scan := some (j + 1, set) }

def step : Action n → Option (RunParallel n)
  | .select set =>
    if s.scan = none ∧ s.failed = false ∧ s.exited < n ∧ (∃ j, set j = true) ∧
      ∀ j, set j = true → (s.worker j).isOpen = true ∧ (s.worker j).Readable then
      some { s with scan := some (0, set) }
    else none
  | .visit => s.scan.bind fun (k, set) =>
    if h : k < n then
      if (s.worker ⟨k, h⟩).isOpen && set ⟨k, h⟩ then
        if (s.worker ⟨k, h⟩).Readable then some (s.serve total ⟨k, h⟩ set) else none
      else some { s with scan := some (k + 1, set) }
    else some { s with scan := none }
  | .request j =>
    if (s.worker j).proc = .asking then
      some (s.setWorker j
        { s.worker j with proc := .waiting, requests := (s.worker j).requests + 1 })
    else none
  | .receive j =>
    match (s.worker j).proc, (s.worker j).responses with
    | .waiting, i :: responses => some (s.setWorker j
        { s.worker j with proc := if i < 0 then .exited else .running i.toNat, responses })
    | _, _ => none
  | .pass j i =>
    if (s.worker j).proc = .running i then
      some (s.setWorker j { s.worker j with proc := .asking })
    else none
  | .fail j i =>
    if (s.worker j).proc = .running i then
      some (s.setWorker j { s.worker j with proc := .dead })
    else none

/-- The loop of the master is over. -/
def Over : Prop := s.scan = none ∧ (s.failed = true ∨ n ≤ s.exited)

/-- The test that has been run by an action, and whether it has passed. -/
def Action.ran : Action n → Option (ℕ × Bool)
  | .pass _ i => some (i, true)
  | .fail _ i => some (i, false)
  | _ => none

def ran (l : List (Action n)) : List (ℕ × Bool) := l.filterMap Action.ran

/-- The number of workers that run a test. -/
def running (i : ℕ) : ℕ := (Finset.univ.filter fun j => (s.worker j).proc = .running i).card

/-- What holds after a trace. -/
structure Correct (l : List (Action n)) : Prop where
  /-- There is no infinite trace. -/
  length_le : l.length ≤ (total + n) * (n + 6) + n
  /-- A test is run once at most. -/
  once : ∀ i, ((ran l).map Prod.fst).count i + s.running i ≤ if i < total then 1 else 0
  /-- The processes only stop when the master is done. -/
  stops : (∀ a, s.step total a = none) → s.Over
  failed_iff : s.Over → (s.failed = true ↔ ∃ i, (i, false) ∈ ran l)
  /-- Without a failure, all tests are run, and counted. -/
  passed : s.Over → s.failed = false →
    (ran l).Perm ((List.range total).map (·, true)) ∧ s.passed = total

/-! ## Stages -/

/-- What a worker and the master do together. -/
inductive Stage
  | asking (first : Bool)
  | asked (first : Bool)
  | sent (i : ℕ)
  /-- It is told that there are no more tests. -/
  | told
  | running (i : ℕ)
  | exited
  | dead

namespace Stage

/-- The worker, in a stage. -/
def worker : Stage → Worker
  | asking first => ⟨.asking, 0, [], true, first⟩
  | asked first => ⟨.waiting, 1, [], true, first⟩
  | sent i => ⟨.waiting, 0, [(i : ℤ)], true, false⟩
  | told => ⟨.waiting, 0, [-1], false, false⟩
  | running i => ⟨.running i, 0, [], true, false⟩
  | exited => ⟨.exited, 0, [], false, false⟩
  | dead => ⟨.dead, 0, [], true, false⟩

/-- Whether the test `i` is dispatched, but has not been run to its end. -/
def holds (i : ℕ) : Stage → ℕ
  | sent k | running k => if k = i then 1 else 0
  | _ => 0

/-- A passed test that is not counted yet. -/
def uncounted : Stage → ℕ
  | asking first | asked first => if first then 0 else 1
  | _ => 0

def closed : Stage → ℕ
  | told | exited => 1
  | _ => 0

def failed : Stage → ℕ
  | dead => 1
  | _ => 0

/-- The worker waits for the master. -/
def Readable (x : Stage) : Prop := (∃ first, x = .asked first) ∨ x = .dead

/-- A bound on the steps of the worker until it waits for the master. -/
def rank : Stage → ℕ
  | sent _ => 3
  | running _ => 2
  | asking _ | told => 1
  | _ => 0

end Stage

/-! ## The invariant -/

section Invariant

variable {total s} {r : List (ℕ × Bool)} {g g' : Fin n → Stage} {j : Fin n} {s' : RunParallel n}
  {set : Fin n → Bool} {k : ℕ}

variable (total) in
/-- What holds after the tests `r` have been run, with the workers in the stages `g`. -/
structure Inv (r : List (ℕ × Bool)) (g : Fin n → Stage) (s : RunParallel n) : Prop where
  worker : ∀ j, s.worker j = (g j).worker
  /-- A dispatched test is with exactly one worker, or has been run. -/
  holds : ∀ i, (r.map Prod.fst).count i + ∑ j, (g j).holds i =
    if i < s.dispatched then 1 else 0
  passed : r.countP (·.2) = s.passed + ∑ j, (g j).uncounted
  failed : r.countP (!·.2) = ∑ j, (g j).failed
  exited : s.exited = ∑ j, (g j).closed
  le : s.dispatched ≤ total
  eq : s.exited ≠ 0 → s.dispatched = total
  of_failed : s.failed = true → s.scan = none ∧ ∃ j, g j = .dead
  scan : ∀ k set, s.scan = some (k, set) →
    k ≤ n ∧ ∀ j : Fin n, k ≤ j → set j = true → (g j).Readable

theorem sum_update (f : Stage → ℕ) {x : Stage} (hg : g j = x) (y : Stage) :
    ∑ k, f (Function.update g j y k) + f x = ∑ k, f (g k) + f y := by
  have h := Function.comp_update f g j y
  calc ∑ k, f (Function.update g j y k) + f x
      = ∑ k, Function.update (f ∘ g) j (f y) k + f (g j) := by rw [← h, hg]; rfl
    _ = f y + (∑ k ∈ Finset.univ \ {j}, f (g k) + f (g j)) := by
      rw [Finset.sum_update_of_mem (Finset.mem_univ j), add_assoc]
      rfl
    _ = ∑ k, f (g k) + f y := by
      rw [Finset.sdiff_singleton_eq_erase, Finset.sum_erase_add _ _ (Finset.mem_univ j), add_comm]

theorem ran_concat (l : List (Action n)) (a : Action n) :
    ran (l ++ [a]) = ran l ++ a.ran.toList := by
  rw [ran, List.filterMap_append]
  cases h : a.ran <;> simp [ran, h]

theorem inv_spawned : Inv total [] (fun _ => .asking true) (spawned n) where
  worker _ := rfl
  holds i := by simp [spawned, Stage.holds]
  passed := by simp [spawned, Stage.uncounted]
  failed := by simp [Stage.failed]
  exited := by simp [spawned, Stage.closed]
  le := Nat.zero_le _
  eq h := absurd rfl h
  of_failed h := absurd h Bool.false_ne_true
  scan _ _ h := nomatch h

theorem worker_setWorker (h : ∀ j, s.worker j = (g j).worker) (j : Fin n) (x : Stage) (k : Fin n) :
    (s.setWorker j x.worker).worker k = (Function.update g j x k).worker := by
  change Function.update s.worker j x.worker k = _
  by_cases hk : k = j
  · rw [hk, Function.update_self, Function.update_self]
  · rw [Function.update_of_ne hk, Function.update_of_ne hk, h]

/-- The steps that a worker does on its own. -/
inductive Move (j : Fin n) : Action n → Stage → Stage → Prop
  | request (first : Bool) : Move j (.request j) (.asking first) (.asked first)
  | receive (i : ℕ) : Move j (.receive j) (.sent i) (.running i)
  | exit : Move j (.receive j) .told .exited
  | pass (i : ℕ) : Move j (.pass j i) (.running i) (.asking false)
  | fail (i : ℕ) : Move j (.fail j i) (.running i) .dead

section Move

variable {a : Action n} {x y : Stage}

theorem Move.holds (hm : Move j a x y) (i : ℕ) :
    (a.ran.toList.map Prod.fst).count i + y.holds i = x.holds i := by
  cases hm <;> simp [Action.ran, Stage.holds, List.count_singleton]

theorem Move.passed (hm : Move j a x y) :
    a.ran.toList.countP (·.2) + x.uncounted = y.uncounted := by
  cases hm <;> simp [Action.ran, Stage.uncounted]

theorem Move.failed (hm : Move j a x y) : a.ran.toList.countP (!·.2) + x.failed = y.failed := by
  cases hm <;> simp [Action.ran, Stage.failed]

theorem Move.closed (hm : Move j a x y) : y.closed = x.closed := by
  cases hm <;> rfl

theorem Move.rank (hm : Move j a x y) : y.rank < x.rank := by
  cases hm <;> simp [Stage.rank]

/-- The worker is not waiting for the master. -/
theorem Move.not_readable (hm : Move j a x y) : ¬x.Readable := by
  rintro (⟨first, rfl⟩ | rfl) <;> cases hm

theorem Move.step (hm : Move j a x y) (h : s.worker j = x.worker) :
    s.step total a = some (s.setWorker j y.worker) := by
  cases hm with
  | receive i =>
    have hi : ¬(i : ℤ) < 0 := Int.not_lt.2 (Int.natCast_nonneg i)
    simp [RunParallel.step, h, Stage.worker, hi]
  | request | exit | pass | fail => simp [RunParallel.step, h, Stage.worker]

end Move

theorem Move.inv {a : Action n} {x : Stage} (hm : Move j a (g j) x) (h : Inv total r g s) :
    Inv total (r ++ a.ran.toList) (Function.update g j x) (s.setWorker j x.worker) where
  worker := worker_setWorker h.worker j x
  holds i := by
    have hs := sum_update (Stage.holds i) (Eq.refl (g j)) x
    have hl := h.holds i
    have hi := hm.holds i
    rw [List.map_append, List.count_append]
    change _ = if i < s.dispatched then 1 else 0
    omega
  passed := by
    have hs := sum_update Stage.uncounted (Eq.refl (g j)) x
    have hp := h.passed
    have hi := hm.passed
    rw [List.countP_append]
    change _ = s.passed + _
    omega
  failed := by
    have hs := sum_update Stage.failed (Eq.refl (g j)) x
    have hf := h.failed
    have hi := hm.failed
    rw [List.countP_append]
    omega
  exited := by
    have hs := sum_update Stage.closed (Eq.refl (g j)) x
    have he := h.exited
    have hi := hm.closed
    change s.exited = _
    omega
  le := h.le
  eq := h.eq
  of_failed hf := by
    obtain ⟨hscan, k, hk⟩ := h.of_failed hf
    refine ⟨hscan, k, ?_⟩
    rwa [Function.update_of_ne]
    rintro rfl
    exact hm.not_readable (.inr hk)
  scan k set hscan := by
    obtain ⟨hk, hr⟩ := h.scan k set hscan
    refine ⟨hk, fun i hki hset => ?_⟩
    rw [Function.update_of_ne]
    · exact hr i hki hset
    · rintro rfl
      exact hm.not_readable (hr i hki hset)

/-- The master's rounds of the loop over the workers. -/
inductive Visit (total : ℕ) (g : Fin n → Stage) (s : RunParallel n) (set : Fin n → Bool) :
    ℕ → (Fin n → Stage) → RunParallel n → Prop
  | leave {k : ℕ} (hk : n ≤ k) : Visit total g s set k g { s with scan := none }
  | skip {j : Fin n} (hset : set j = false) :
      Visit total g s set j g { s with scan := some (j + 1, set) }
  | fail {j : Fin n} (hset : set j = true) (hg : g j = .dead) :
      Visit total g s set j g { s with failed := true, scan := none }
  | dispatch {j : Fin n} {first : Bool} (hset : set j = true) (hg : g j = .asked first)
      (hlt : s.dispatched < total) :
      Visit total g s set j (Function.update g j (.sent s.dispatched))
        { s.setWorker j (Stage.sent s.dispatched).worker with
          dispatched := s.dispatched + 1
          passed := s.passed + if first then 0 else 1
          scan := some (j + 1, set) }
  | close {j : Fin n} {first : Bool} (hset : set j = true) (hg : g j = .asked first)
      (hge : ¬s.dispatched < total) :
      Visit total g s set j (Function.update g j .told)
        { s.setWorker j Stage.told.worker with
          exited := s.exited + 1
          passed := s.passed + if first then 0 else 1
          scan := some (j + 1, set) }

theorem Stage.readable_iff (x : Stage) :
    x.worker.isOpen = true ∧ x.worker.Readable ↔ x.Readable := by
  cases x <;> simp [Stage.worker, Worker.Readable, Worker.Gone, Stage.Readable]

theorem Inv.serve (h : Inv total r g s) (hset : set j = true)
    (hr : (g j).Readable) : ∃ g', Visit total g s set j g' (s.serve total j set) := by
  rcases hr with ⟨first, hg⟩ | hg
  · by_cases hd : s.dispatched < total
    · refine ⟨Function.update g j (.sent s.dispatched), ?_⟩
      convert Visit.dispatch hset hg hd using 1
      cases first <;>
        simp [RunParallel.serve, respond, setWorker, h.worker, hg, Stage.worker, hd]
    · refine ⟨Function.update g j .told, ?_⟩
      convert Visit.close hset hg hd using 1
      cases first <;>
        simp [RunParallel.serve, respond, setWorker, h.worker, hg, Stage.worker, hd]
  · refine ⟨g, ?_⟩
    rw [RunParallel.serve, h.worker, hg]
    exact .fail hset hg

/-- In the loop, the master never waits. -/
theorem Inv.visit (h : Inv total r g s) (hscan : s.scan = some (k, set)) :
    ∃ g' s', s.step total .visit = some s' ∧ Visit total g s set k g' s' := by
  rw [step, hscan, Option.bind_some]
  by_cases hk : k < n
  · lift k to Fin n using hk
    have hr := (g k).readable_iff
    simp only [k.isLt, dif_pos, Fin.eta, h.worker, Bool.and_eq_true]
    by_cases hset : set k = true
    · have hk := (h.scan k set hscan).2 k le_rfl hset
      rw [if_pos ⟨(hr.2 hk).1, hset⟩, if_pos (hr.2 hk).2]
      obtain ⟨g', hv⟩ := h.serve hset hk
      exact ⟨g', _, rfl, hv⟩
    · rw [if_neg fun hc => hset hc.2]
      exact ⟨g, _, rfl, .skip (Bool.eq_false_iff.2 hset)⟩
  · simp only [dif_neg hk]
    exact ⟨g, _, rfl, .leave (Nat.not_lt.1 hk)⟩

/-- What a step can be. -/
theorem Inv.step_cases (h : Inv total r g s) {a : Action n} (hs : s.step total a = some s') :
    (∃ j x, Move j a (g j) x ∧ s' = s.setWorker j x.worker) ∨
    (∃ set, a = .select set ∧ s.scan = none ∧ s.failed = false ∧ s.exited < n ∧
      (∃ j, set j = true) ∧ (∀ j, set j = true → (g j).Readable) ∧
      s' = { s with scan := some (0, set) }) ∨
    ∃ k set g', a = .visit ∧ s.scan = some (k, set) ∧ Visit total g s set k g' s' := by
  cases a with
  | select set =>
    rw [step, Option.ite_none_right_eq_some, Option.some_inj] at hs
    obtain ⟨⟨hscan, hf, hlt, hex, hset⟩, rfl⟩ := hs
    refine .inr (.inl ⟨set, rfl, hscan, hf, hlt, hex, fun j hj => ?_, rfl⟩)
    rw [← Stage.readable_iff, ← h.worker]
    exact hset j hj
  | visit =>
    refine .inr (.inr ?_)
    cases hscan : s.scan with
    | none =>
      rw [step, hscan] at hs
      cases hs
    | some scan =>
      obtain ⟨k, set⟩ := scan
      obtain ⟨g', x, hx, hv⟩ := h.visit hscan
      obtain rfl : x = s' := Option.some.inj (hx.symm.trans hs)
      exact ⟨k, set, g', rfl, rfl, hv⟩
  | request j =>
    refine .inl ⟨j, ?_⟩
    rw [step, h.worker] at hs
    generalize hg : g j = y at hs
    cases y with
    | asking first =>
      simp only [Stage.worker, if_true, Option.some_inj] at hs
      exact ⟨_, .request first, hs.symm⟩
    | _ => simp [Stage.worker] at hs
  | receive j =>
    refine .inl ⟨j, ?_⟩
    rw [step, h.worker] at hs
    generalize hg : g j = y at hs
    cases y with
    | sent i =>
      have hi : ¬(i : ℤ) < 0 := Int.not_lt.2 (Int.natCast_nonneg i)
      simp only [Stage.worker, if_neg hi, Int.toNat_natCast, Option.some_inj] at hs
      exact ⟨_, .receive i, hs.symm⟩
    | told =>
      simp only [Stage.worker, Option.some_inj] at hs
      exact ⟨_, .exit, hs.symm⟩
    | _ => simp [Stage.worker] at hs
  | pass j i =>
    refine .inl ⟨j, ?_⟩
    rw [step, h.worker, Option.ite_none_right_eq_some, Option.some_inj] at hs
    obtain ⟨hp, rfl⟩ := hs
    generalize hg : g j = y at hp
    cases y with
    | running k =>
      obtain rfl : k = i := by simpa [Stage.worker] using hp
      exact ⟨_, .pass k, rfl⟩
    | _ => simp [Stage.worker] at hp
  | fail j i =>
    refine .inl ⟨j, ?_⟩
    rw [step, h.worker, Option.ite_none_right_eq_some, Option.some_inj] at hs
    obtain ⟨hp, rfl⟩ := hs
    generalize hg : g j = y at hp
    cases y with
    | running k =>
      obtain rfl : k = i := by simpa [Stage.worker] using hp
      exact ⟨_, .fail k, rfl⟩
    | _ => simp [Stage.worker] at hp

/-- In the loop, the master has not failed. -/
theorem Inv.not_failed (h : Inv total r g s) (hscan : s.scan = some (k, set)) :
    s.failed = false := by
  rw [Bool.eq_false_iff]
  intro hf
  rw [(h.of_failed hf).1] at hscan
  cases hscan

/-- The workers that the rest of the loop serves stay as they are. -/
theorem Inv.scan_next (h : Inv total r g s) (hscan : s.scan = some (j.1, set)) (x : Stage)
    {k' : ℕ} {set' : Fin n → Bool} (hs : some (j.1 + 1, set) = some (k', set')) :
    k' ≤ n ∧ ∀ i : Fin n, k' ≤ i → set' i = true → (Function.update g j x i).Readable := by
  obtain ⟨rfl, rfl⟩ := Prod.mk.inj (Option.some.inj hs)
  refine ⟨j.isLt, fun i hi hi' => ?_⟩
  rw [Function.update_of_ne (by rintro rfl; omega)]
  exact (h.scan j set hscan).2 i (by omega) hi'

theorem Visit.inv (hv : Visit total g s set k g' s') (h : Inv total r g s)
    (hscan : s.scan = some (k, set)) : Inv total r g' s' := by
  have hf : s.failed = true → False := fun hf =>
    Bool.false_ne_true ((h.not_failed hscan).symm.trans hf)
  cases hv with
  | leave hk =>
    exact { h with
      of_failed := fun h => (hf h).elim
      scan := fun _ _ hs => nomatch hs }
  | @skip j hset =>
    exact { h with
      of_failed := fun h => (hf h).elim
      scan := fun _ _ hs => by
        have hnext := h.scan_next hscan (g j) hs
        rwa [Function.update_eq_self] at hnext }
  | @fail j hset hg =>
    exact { h with
      of_failed := fun _ => ⟨rfl, j, hg⟩
      scan := fun _ _ hs => nomatch hs }
  | @dispatch j first hset hg hlt =>
    refine {
      worker := worker_setWorker h.worker j _
      holds := fun i => ?_
      passed := ?_
      failed := ?_
      exited := ?_
      le := hlt
      eq := fun he => absurd (h.eq he) hlt.ne
      of_failed := fun h => (hf h).elim
      scan := fun _ _ hs => h.scan_next hscan _ hs }
    · have hs : _ + 0 = _ + (if s.dispatched = i then 1 else 0) :=
        sum_update (Stage.holds i) hg (.sent s.dispatched)
      have hl := h.holds i
      change _ = if i < s.dispatched + 1 then 1 else 0
      split_ifs at * <;> omega
    · have hs : _ + (if first then 0 else 1) = _ + 0 :=
        sum_update Stage.uncounted hg (.sent s.dispatched)
      have hp := h.passed
      change _ = s.passed + _ + _
      omega
    · have hs : _ + 0 = _ + 0 := sum_update Stage.failed hg (.sent s.dispatched)
      have hp := h.failed
      omega
    · have hs : _ + 0 = _ + 0 := sum_update Stage.closed hg (.sent s.dispatched)
      have hp := h.exited
      change s.exited = _
      omega
  | @close j first hset hg hge =>
    refine {
      worker := worker_setWorker h.worker j _
      holds := fun i => ?_
      passed := ?_
      failed := ?_
      exited := ?_
      le := h.le
      eq := fun _ => le_antisymm h.le (Nat.not_lt.1 hge)
      of_failed := fun h => (hf h).elim
      scan := fun _ _ hs => h.scan_next hscan _ hs }
    · have hs : _ + 0 = _ + 0 := sum_update (Stage.holds i) hg .told
      have hl := h.holds i
      change _ = if i < s.dispatched then 1 else 0
      omega
    · have hs : _ + (if first then 0 else 1) = _ + 0 := sum_update Stage.uncounted hg .told
      have hp := h.passed
      change _ = s.passed + _ + _
      omega
    · have hs : _ + 0 = _ + 0 := sum_update Stage.failed hg .told
      have hp := h.failed
      omega
    · have hs : _ + 0 = _ + 1 := sum_update Stage.closed hg .told
      have hp := h.exited
      change s.exited + 1 = _
      omega

/-- There is a worker to serve in the rest of the loop. -/
def Hit (k : ℕ) (set : Fin n → Bool) : Prop := ∃ j : Fin n, k ≤ j ∧ set j = true

instance (k : ℕ) (set : Fin n → Bool) : Decidable (Hit k set) :=
  inferInstanceAs (Decidable (∃ _, _))

variable (total s) in
/-- A bound on the characters that the master will read. -/
def remaining : ℕ := total - s.dispatched + (n - s.exited)

variable (n) in
/-- A bound on the steps of the master. -/
def masterRank (remaining : ℕ) (failed : Bool) : Option (ℕ × (Fin n → Bool)) → ℕ
  | none => if failed then 0 else remaining * (n + 2)
  | some (k, set) => (if Hit k set then remaining - 1 else remaining) * (n + 2) + (n + 1 - k)

variable (total g s) in
/-- A bound on all steps. -/
def rank : ℕ :=
  4 * s.remaining total + ∑ j, (g j).rank + masterRank n (s.remaining total) s.failed s.scan

theorem Move.rank_lt {a : Action n} {x : Stage} (hm : Move j a (g j) x) :
    (s.setWorker j x.worker).rank total (Function.update g j x) < s.rank total g := by
  have hs := sum_update Stage.rank (Eq.refl (g j)) x
  have hx := hm.rank
  change 4 * s.remaining total + _ + masterRank n (s.remaining total) s.failed s.scan <
    4 * s.remaining total + _ + masterRank n (s.remaining total) s.failed s.scan
  omega

theorem masterRank_select (hr : 0 < k) (hset : ∃ j, set j = true) :
    masterRank n k false (some (0, set)) < masterRank n k false none := by
  have hhit : Hit 0 set := hset.imp fun j hj => ⟨Nat.zero_le _, hj⟩
  obtain ⟨m, rfl⟩ := Nat.exists_eq_add_of_le' hr
  rw [masterRank, masterRank, if_pos hhit, if_neg Bool.false_ne_true, Nat.add_sub_cancel,
    Nat.succ_mul]
  omega

/-- A character is read. -/
theorem masterRank_serve (hset : set j = true) :
    masterRank n k false (some (j + 1, set)) < masterRank n (k + 1) false (some (j, set)) := by
  have hj := j.isLt
  have hhit : Hit j set := ⟨j, le_rfl, hset⟩
  have hle : (if Hit (j + 1) set then k - 1 else k) * (n + 2) ≤ k * (n + 2) :=
    Nat.mul_le_mul_right _ (by split_ifs <;> omega)
  rw [masterRank, masterRank, if_pos hhit, Nat.add_sub_cancel]
  omega

theorem masterRank_skip (hset : set j = false) :
    masterRank n k false (some (j + 1, set)) < masterRank n k false (some (j, set)) := by
  have hj := j.isLt
  have hhit : Hit j set ↔ Hit (j + 1) set := by
    refine exists_congr fun i => ⟨fun ⟨hi, hs⟩ => ⟨?_, hs⟩, fun ⟨hi, hs⟩ => ⟨by omega, hs⟩⟩
    refine hi.lt_of_ne fun heq => ?_
    rw [← Fin.ext heq, hset] at hs
    exact Bool.false_ne_true hs
  simp only [masterRank, hhit]
  omega

variable (set) in
theorem masterRank_fail (hj : k ≤ n) (r : ℕ) :
    masterRank n r true none < masterRank n r false (some (k, set)) := by
  rw [masterRank, masterRank, if_pos rfl]
  omega

variable (set) in
theorem masterRank_leave (hk : k = n) (r : ℕ) :
    masterRank n r false none < masterRank n r false (some (k, set)) := by
  have hno : ¬Hit k set := fun ⟨j, hj, _⟩ => by omega
  rw [masterRank, masterRank, if_neg Bool.false_ne_true, if_neg hno]
  omega

theorem Inv.exited_lt (h : Inv total r g s) (hj : (g j).closed = 0) : s.exited < n := by
  rw [h.exited]
  have hle : ∀ k ∈ Finset.univ, (g k).closed ≤ 1 := fun k _ => by
    cases g k <;> simp [Stage.closed]
  have hlt := Finset.sum_lt_sum hle ⟨j, Finset.mem_univ j, by rw [hj]; exact Nat.one_pos⟩
  simpa using hlt

theorem Visit.rank_lt (hv : Visit total g s set k g' s') (h : Inv total r g s)
    (hscan : s.scan = some (k, set)) : s'.rank total g' < s.rank total g := by
  have hf := h.not_failed hscan
  have hrank : s.rank total g = 4 * s.remaining total + ∑ j, (g j).rank +
      masterRank n (s.remaining total) false (some (k, set)) := by rw [rank, hscan, hf]
  rw [hrank]
  cases hv with
  | leave hk =>
    have hlt := masterRank_leave set (le_antisymm (h.scan k set hscan).1 hk) (s.remaining total)
    change 4 * s.remaining total + _ + masterRank n (s.remaining total) s.failed none < _
    rw [hf]
    omega
  | @skip j hset =>
    have hlt := masterRank_skip (k := s.remaining total) hset
    change 4 * s.remaining total + _ + masterRank n (s.remaining total) s.failed (some _) < _
    rw [hf]
    omega
  | @fail j hset hg =>
    have hlt := masterRank_fail set j.isLt.le (s.remaining total)
    change 4 * s.remaining total + _ + masterRank n (s.remaining total) true none < _
    omega
  | @dispatch j first hset hg hlt =>
    have hs : _ + 0 = _ + 3 := sum_update Stage.rank hg (.sent s.dispatched)
    have hm := masterRank_serve (k := total - (s.dispatched + 1) + (n - s.exited)) hset
    have hr : s.remaining total = total - (s.dispatched + 1) + (n - s.exited) + 1 := by
      rw [remaining]
      omega
    change 4 * (total - (s.dispatched + 1) + (n - s.exited)) + _ +
      masterRank n (total - (s.dispatched + 1) + (n - s.exited)) s.failed (some _) < _
    rw [hf, hr]
    omega
  | @close j first hset hg hge =>
    have hs : _ + 0 = _ + 1 := sum_update Stage.rank hg .told
    have hm := masterRank_serve (k := total - s.dispatched + (n - (s.exited + 1))) hset
    have hlt : s.exited < n := h.exited_lt (j := j) (by rw [hg]; rfl)
    have hr : s.remaining total = total - s.dispatched + (n - (s.exited + 1)) + 1 := by
      rw [remaining]
      omega
    change 4 * (total - s.dispatched + (n - (s.exited + 1))) + _ +
      masterRank n (total - s.dispatched + (n - (s.exited + 1))) s.failed (some _) < _
    rw [hf, hr]
    omega

/-- Every step keeps the invariant, and there are less steps left after it. -/
theorem Inv.step (h : Inv total r g s) {a : Action n} (hs : s.step total a = some s') :
    ∃ g', Inv total (r ++ a.ran.toList) g' s' ∧ s'.rank total g' < s.rank total g := by
  rcases h.step_cases hs with ⟨j, x, hm, rfl⟩ | ⟨set, rfl, hscan, hf, hlt, hex, hr, rfl⟩ |
    ⟨k, set, g', rfl, hscan, hv⟩
  · exact ⟨_, hm.inv h, hm.rank_lt⟩
  · change ∃ g', Inv total (r ++ []) g' _ ∧ _
    rw [List.append_nil]
    refine ⟨g, ?_, ?_⟩
    · refine { h with
        of_failed := fun h => absurd (hf.symm.trans h) Bool.false_ne_true
        scan := fun k' set' hs => ?_ }
      obtain ⟨rfl, rfl⟩ := Prod.mk.inj (Option.some.inj hs)
      exact ⟨Nat.zero_le _, fun j _ => hr j⟩
    · have hm := masterRank_select (k := s.remaining total) (by rw [remaining]; omega) hex
      change 4 * s.remaining total + _ + masterRank n (s.remaining total) s.failed (some _) < _
      rw [rank, hscan, hf]
      omega
  · change ∃ g', Inv total (r ++ []) g' _ ∧ _
    rw [List.append_nil]
    exact ⟨g', hv.inv h hscan, hv.rank_lt h hscan⟩

/-- As long as the master is not done, some process can do a step. -/
theorem Inv.stops (h : Inv total r g s) (hs : ∀ a, s.step total a = none) : s.Over := by
  -- Every worker waits for the master, or has been told to exit.
  have hmove : ∀ {j a x}, ¬Move j a (g j) x := fun {j a x} hm =>
    Option.some_ne_none _ ((hm.step (h.worker j)).symm.trans (hs a))
  have hg : ∀ j, (g j).Readable ∨ (g j).closed = 1 := fun j => by
    have hm := @hmove j
    generalize g j = y at hm
    cases y with
    | asking first => exact (hm (.request first)).elim
    | asked first => exact .inl (.inl ⟨first, rfl⟩)
    | sent i => exact (hm (.receive i)).elim
    | told => exact (hm .exit).elim
    | running i => exact (hm (.pass i)).elim
    | exited => exact .inr rfl
    | dead => exact .inl (.inr rfl)
  have hscan : s.scan = none := by
    by_contra hne
    obtain ⟨⟨k, set⟩, hk⟩ := Option.ne_none_iff_exists'.1 hne
    obtain ⟨-, x, hx, -⟩ := h.visit hk
    exact Option.some_ne_none _ (hx.symm.trans (hs .visit))
  refine ⟨hscan, or_iff_not_imp_left.2 fun hf => ?_⟩
  by_contra hlt
  -- Otherwise, there is a worker whose pipe is still open, and that is readable.
  obtain ⟨j, hj⟩ : ∃ j, (g j).closed ≠ 1 := by
    by_contra hall
    push Not at hall
    have he := h.exited
    simp only [hall, Finset.sum_const, Finset.card_univ, Fintype.card_fin, smul_eq_mul] at he
    omega
  have hr := (Stage.readable_iff _).2 ((hg j).resolve_right hj)
  have hsel := hs (.select fun k => k == j)
  rw [RunParallel.step, if_pos] at hsel
  · cases hsel
  · refine ⟨hscan, Bool.eq_false_iff.2 hf, Nat.not_le.1 hlt, ⟨j, beq_self_eq_true j⟩, ?_⟩
    intro k hk
    rwa [eq_of_beq hk, h.worker]

/-- Without a failure, all workers are told to exit in the end, and hence all tests are run. -/
theorem Inv.of_over (h : Inv total r g s) (ho : s.Over) (hf : s.failed = false) (hn : 0 < n) :
    r.countP (!·.2) = 0 ∧ r.Perm ((List.range total).map (·, true)) ∧ s.passed = total := by
  have hn' : n ≤ s.exited := ho.2.resolve_left (by rw [hf]; exact Bool.false_ne_true)
  have hclosed : ∀ j, (g j).closed ≠ 0 := fun j hj => by
    have := h.exited_lt hj
    omega
  have hsum : ∀ f : Stage → ℕ, f .told = 0 → f .exited = 0 → ∑ j, f (g j) = 0 := by
    intro f htold hexited
    refine Finset.sum_eq_zero fun j _ => ?_
    have hj := hclosed j
    generalize g j = y at hj
    cases y with
    | told => exact htold
    | exited => exact hexited
    | _ => exact absurd rfl hj
  have hfailed := h.failed
  have hpassed := h.passed
  rw [hsum _ rfl rfl] at hfailed hpassed
  have heq : s.dispatched = total := h.eq (by omega)
  -- All results are `true`, and every test is there once.
  have hall : r = (r.map Prod.fst).map (·, true) := by
    rw [List.map_map]
    refine (List.map_id' r).symm.trans (List.map_congr_left fun x hx => ?_)
    have hx2 := List.countP_eq_zero.1 hfailed x hx
    exact Prod.ext rfl (by simpa using hx2)
  have hperm : (r.map Prod.fst).Perm (List.range total) := by
    refine List.perm_iff_count.2 fun i => ?_
    have hi := h.holds i
    rw [hsum _ rfl rfl, heq] at hi
    rw [← Nat.add_zero (List.count i _), hi, List.count_range]
  have hall' : r.countP (·.2) = r.length := List.countP_eq_length.2 fun x hx => by
    simpa using List.countP_eq_zero.1 hfailed x hx
  refine ⟨hfailed, hall ▸ hperm.map _, ?_⟩
  have hlen := hperm.length_eq
  rw [List.length_map, List.length_range] at hlen
  omega

theorem Inv.running_le (h : Inv total r g s) (i : ℕ) : s.running i ≤ ∑ j, (g j).holds i := by
  rw [running, Finset.card_filter]
  refine Finset.sum_le_sum fun j _ => ?_
  rw [h.worker]
  cases g j <;> simp [Stage.worker, Stage.holds]

theorem exists_failed_iff : (∃ i, (i, false) ∈ r) ↔ r.countP (!·.2) ≠ 0 := by
  rw [← Nat.pos_iff_ne_zero, List.countP_pos_iff]
  exact ⟨fun ⟨i, hi⟩ => ⟨(i, false), hi, rfl⟩, fun ⟨⟨i, b⟩, hi, hb⟩ => ⟨i, by
    obtain rfl : b = false := by simpa using hb
    exact hi⟩⟩

theorem Inv.exists_failed (h : Inv total r g s) (hf : s.failed = true) : ∃ i, (i, false) ∈ r := by
  obtain ⟨-, j, hj⟩ := h.of_failed hf
  rw [exists_failed_iff, h.failed]
  refine (Finset.sum_pos' (fun k _ => Nat.zero_le _) ⟨j, Finset.mem_univ j, ?_⟩).ne'
  rw [hj]
  exact Nat.one_pos

theorem rank_spawned : (spawned n).rank total (fun _ => .asking true) =
    (total + n) * (n + 6) + n := by
  have hr : (spawned n).remaining total = total + n := rfl
  simp only [rank, hr, Stage.rank, Finset.sum_const, Finset.card_univ, Fintype.card_fin,
    smul_eq_mul, mul_one]
  change 4 * (total + n) + n + (total + n) * (n + 2) = _
  ring

end Invariant

/-- Any steps of the processes are correct, if there is a worker at all. -/
theorem run_parallel_correct (hn : 0 < n) {l : List (Action n)} {s : RunParallel n}
    (hl : exec (step total) l (spawned n) = some s) : Correct total s l := by
  obtain ⟨g, h, hlen⟩ : ∃ g, Inv total (ran l) g s ∧
      l.length + s.rank total g ≤ (spawned n).rank total fun _ => .asking true := by
    refine exec_induction (P := fun l s => ∃ g, Inv total (ran l) g s ∧
      l.length + s.rank total g ≤ (spawned n).rank total fun _ => .asking true)
      ⟨_, inv_spawned, (Nat.zero_add _).le⟩ ?_ hl
    rintro l s a s' ⟨g, h, hlen⟩ hs
    obtain ⟨g', h', hlt⟩ := h.step hs
    refine ⟨g', ran_concat l a ▸ h', ?_⟩
    rw [List.length_append, List.length_singleton]
    omega
  rw [rank_spawned] at hlen
  refine ⟨(Nat.le_add_right _ _).trans hlen, fun i => ?_, h.stops,
    fun ho => ⟨h.exists_failed, fun hex => ?_⟩, fun ho hf => (h.of_over ho hf hn).2⟩
  · have hi := h.holds i
    have hle := h.le
    have hr := h.running_le i
    split_ifs at hi ⊢ <;> omega
  · by_contra hf
    exact exists_failed_iff.1 hex (h.of_over ho (Bool.eq_false_iff.2 hf) hn).1

def worker₀ : Fin 2 := ⟨0, by decide⟩
def worker₁ : Fin 2 := ⟨1, by decide⟩

/-- One test for two workers, the second of which has nothing to do. -/
def idleWorker : List (Action 2) :=
  [.request worker₀, .request worker₁, .select fun _ => true, .visit, .visit, .visit,
    .receive worker₁, .receive worker₀, .pass worker₀ 0, .request worker₀,
    .select fun j => j == worker₀, .visit, .visit, .visit]

theorem run_parallel_idleWorker : ∃ s, exec (step 1) idleWorker (spawned 2) = some s ∧
    Correct 1 s idleWorker :=
  ⟨_, rfl, run_parallel_correct 1 Nat.two_pos rfl⟩

end RunParallel

end RiscvCpu
