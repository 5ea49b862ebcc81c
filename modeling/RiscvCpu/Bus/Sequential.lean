import RiscvCpu.Bus.Stack

/-!
# The bus stack as a memory

To the requesters, the bus stack is a memory that does one operation after the other, in
the order of its answers, each in the cycle of its answer (`Sequential`). Every answer
is that of one request, and every request on the data bus has one. A request on the
instruction bus has one, unless the data bus has a request whenever the arbiter is free:
the data bus goes first, and can starve the other (`fetch_starves`).
-/

namespace RiscvCpu

open Sync

/-- An operation of the memory. -/
inductive Op
  | fetch (addr : BitVec 64)
  | load (addr : BitVec 64)
  | store (addr : BitVec 64) (strobe : BitVec 8) (data : BitVec 64)
  deriving DecidableEq, Repr

namespace Op

/-- The index of the word that holds the byte at an address of the window. -/
def wordAt (addr : BitVec 64) : BitVec 64 := (addr - 0x80000000#64) >>> 3

/-- The memory after an operation. -/
def exec (m : Words) : Op → Words
  | .fetch _ => m
  | .load _ => m
  | .store addr strobe data => m.writeHelper (wordAt addr) data (Words.wmask strobe)

/-- What a load returns. -/
def loaded (m : Words) (addr : BitVec 64) : BitVec 64 := m (wordAt addr)

/-- What a fetch returns. -/
def fetched (m : Words) (addr : BitVec 64) : BitVec 32 :=
  if addr.getLsbD 2 then (loaded m addr).extractLsb 63 32 else (loaded m addr).extractLsb 31 0

/-- The operation of a request on the data bus. -/
def ofDreq (dreq : DbusReq) : Op :=
  if dreq.strobe = 0#8 then .load dreq.addr else .store dreq.addr dreq.strobe dreq.data

theorem exec_ofDreq (m : Words) (dreq : DbusReq) : exec m (ofDreq dreq) =
    if (DBusToCBus.dcreq dreq).isWrite then
      m.writeHelper (wordAt dreq.addr) dreq.data (Words.wmask dreq.strobe)
    else m := by
  have hw : (DBusToCBus.dcreq dreq).isWrite = (dreq.strobe != 0#8) := rfl
  by_cases hs : dreq.strobe = 0#8
  · rw [ofDreq, if_pos hs, hw, bne_eq_false_iff_eq.2 hs, if_neg Bool.false_ne_true, exec]
  · rw [ofDreq, if_neg hs, hw, bne_iff_ne.2 hs, if_pos rfl, exec]

/-- The bytes that an operation leaves in memory. -/
theorem byte_exec (m : Words) (dreq : DbusReq) (idx : BitVec 64) {k : ℕ} (hk : k < 8) :
    Words.byte (exec m (ofDreq dreq) idx) k =
      if idx = wordAt dreq.addr ∧ dreq.strobe.getLsbD k = true then Words.byte dreq.data k
      else Words.byte (m idx) k := by
  by_cases hs : dreq.strobe = 0#8
  · rw [ofDreq, if_pos hs, exec, if_neg (by simp [hs])]
  · rw [ofDreq, if_neg hs, exec]
    by_cases hi : idx = wordAt dreq.addr
    · rw [hi, Words.writeHelper_self, Words.byte_write _ _ _ hk]
      simp
    · rw [Words.writeHelper_of_ne _ _ _ hi, if_neg fun h => hi h.1]

end Op

namespace Stack

/-- The stack, with requests to the window of the memory. -/
def machine : Machine Stack In where
  init := Set.range init
  admits _ := {i | (i.ireq.valid = true → Ram.InWindow i.ireq.addr) ∧
    (i.dreq.valid = true → Ram.InWindow i.dreq.addr)}
  next s i := s.next i false

/-- The operation that is answered in this cycle. -/
def op (s : Stack) (i : In) : Option Op :=
  if (s.iresp i).dataOk then some (.fetch i.ireq.addr)
  else if (s.dresp i).dataOk then some (.ofDreq i.dreq)
  else none

section Spec

variable (s : ℕ → Stack) (i : ℕ → In)

/-! ## Requesters -/

def FetchHeld : Prop :=
  Held (fun r : IbusReq => r.valid = true) (fun t => (i t).ireq)
    (fun t => ((s t).iresp (i t)).dataOk = true)

def DataHeld : Prop :=
  Held (fun r : DbusReq => r.valid = true) (fun t => (i t).dreq)
    (fun t => ((s t).dresp (i t)).dataOk = true)

def FetchPresented : ℕ → Prop :=
  Presented (fun r : IbusReq => r.valid = true) (fun t => (i t).ireq)
    (fun t => ((s t).iresp (i t)).dataOk = true)

def DataPresented : ℕ → Prop :=
  Presented (fun r : DbusReq => r.valid = true) (fun t => (i t).dreq)
    (fun t => ((s t).dresp (i t)).dataOk = true)

def FetchAnswers : ℕ → ℕ → Prop :=
  Answers (fun t => (i t).ireq) (fun t => ((s t).iresp (i t)).dataOk = true)

def DataAnswers : ℕ → ℕ → Prop :=
  Answers (fun t => (i t).dreq) (fun t => ((s t).dresp (i t)).dataOk = true)

/-- A memory that does one operation after the other. -/
structure Sequential : Prop where
  /-- No two operations are answered at once. -/
  excl : ∀ t, ((s t).iresp (i t)).dataOk = true → ((s t).dresp (i t)).dataOk = false
  /-- Every answer is the answer to one request. -/
  fetch_presented : ∀ k, ((s k).iresp (i k)).dataOk = true →
    (i k).ireq.valid = true ∧ ∃! t, FetchPresented s i t ∧ FetchAnswers s i t k
  data_presented : ∀ k, ((s k).dresp (i k)).dataOk = true →
    (i k).dreq.valid = true ∧ ∃! t, DataPresented s i t ∧ DataAnswers s i t k
  /-- Every request has one answer, if it does not starve. -/
  fetch_answer : ∀ t, FetchPresented s i t → (∃! k, FetchAnswers s i t k) ∨
    ∀ u ≥ t, (s u).arbiter.busy = false → (i u).dreq.valid = true
  data_answer : ∀ t, DataPresented s i t → ∃! k, DataAnswers s i t k
  /-- The memory is what the operations that are answered have made of it. -/
  mem : ∀ t, (s t).ram.mem = (ops (fun t => (s t).op (i t)) t).foldl Op.exec (s 0).ram.mem
  /-- The answer is that of the operation on the current memory. -/
  fetched : ∀ t, ((s t).iresp (i t)).dataOk = true →
    ((s t).iresp (i t)).data = Op.fetched (s t).ram.mem (i t).ireq.addr
  loaded : ∀ t, ((s t).dresp (i t)).dataOk = true → (i t).dreq.strobe = 0#8 →
    ((s t).dresp (i t)).data = Op.loaded (s t).ram.mem (i t).dreq.addr
  /-- A store changes, in the cycle of its answer, the bytes of its strobe, and nothing
      else changes any. -/
  bytes : ∀ t idx, ∀ k < 8, Words.byte ((s (t + 1)).ram.mem idx) k =
    if ((s t).dresp (i t)).dataOk = true ∧ idx = Op.wordAt (i t).dreq.addr ∧
        (i t).dreq.strobe.getLsbD k = true then
      Words.byte (i t).dreq.data k
    else Words.byte ((s t).ram.mem idx) k
  /-- The memory finds no error. -/
  no_error : ∀ t, (s t).ram.modificationError ((s t).oreq (i t)) = false ∧
    (s t).ram.rangeError = false

end Spec

/-! ## One cycle -/

section Cycle

variable {s : Stack} {i : In}

theorem inWindow_ireqs (hi : i ∈ machine.admits s) :
    ∀ k, (i.ireqs k).valid = true → Ram.InWindow (i.ireqs k).addr
  | 0, hv => hi.2 hv
  | 1, hv => hi.1 hv

/-- In the cycle of its answer, a request works on its word. -/
theorem Inv.inWindow (h : Inv s i) (hi : i ∈ machine.admits s) {k : Fin 2}
    (hk : s.answers i k = true) : Ram.InWindow s.ram.addr ∧
      Ram.wordIdx s.ram.addr = Op.wordAt (i.ireqs k).addr := by
  obtain ⟨_, _, hv, hbeat⟩ := h.of_answers hk
  have hw := inWindow_ireqs hi k hv
  rw [hbeat.addr]
  exact ⟨hw, hw.wordIdx.1⟩

theorem Inv.rangeError (h : Inv s i) (hi : i ∈ machine.admits s) : s.ram.rangeError = false := by
  cases hs : s.ram.state with
  | READ =>
    cases h with
    | free _ hram => rw [hs] at hram; exact absurd hram (by decide)
    | busy k hb hk hv hram =>
      refine Ram.rangeError_of_inWindow ?_
      cases hram with
      | none h => rw [hs] at h; exact absurd h (by decide)
      | wait h _ => rw [hs] at h; exact absurd h (by decide)
      | beat h => exact h.addr ▸ inWindow_ireqs hi k hv
  | _ => rw [Ram.rangeError, hs]; rfl

/-- What is read, in the cycle of the answer. -/
theorem Inv.data (h : Inv s i) (hi : i ∈ machine.admits s) {k : Fin 2}
    (hk : s.answers i k = true) (hw : (i.ireqs k).isWrite = false) :
    (s.arbiter.iresps (s.oresp i.switch) k).data = s.ram.mem (Op.wordAt (i.ireqs k).addr) := by
  obtain ⟨hb, hindex, _, hbeat⟩ := h.of_answers hk
  obtain ⟨hwin, hidx⟩ := h.inWindow hi hk
  rw [Arbiter.iresps_self hb hindex, oresp, hbeat.oresp, hw, if_neg Bool.false_ne_true,
    Ram.rdata_of_inWindow hwin, hidx]

/-- Without an answer, the memory stays. -/
theorem Inv.mem_of_not_answers (h : Inv s i) (hn : ∀ k, s.answers i k = false) :
    (s.next i false).ram.mem = s.ram.mem := by
  cases h with
  | free hb hram => exact (Inv.grant hb hram).2.1
  | busy k hb hk hv hram => exact (Inv.wait hb hk hv hram (hn k)).2.2.2.1

theorem Inv.mem_of_answers (h : Inv s i) (hi : i ∈ machine.admits s) {k : Fin 2}
    (hk : s.answers i k = true) : (s.next i false).ram.mem =
      if (i.ireqs k).isWrite then s.ram.mem.writeHelper (Op.wordAt (i.ireqs k).addr)
        (i.ireqs k).data (Words.wmask (i.ireqs k).strobe)
      else s.ram.mem := by
  obtain ⟨hwin, hidx⟩ := h.inWindow hi hk
  rw [(h.answer hk).2.2, Ram.write_of_inWindow hwin, hidx]

/-- The memory does the operation that is answered. -/
theorem Inv.mem (h : Inv s i) (hi : i ∈ machine.admits s) :
    (s.next i false).ram.mem = (s.op i).elim s.ram.mem (Op.exec s.ram.mem) := by
  rw [op, iresp_dataOk, dresp_dataOk]
  cases h1 : s.answers i 1 with
  | true => exact h.mem_of_answers hi h1
  | false =>
    cases h0 : s.answers i 0 with
    | true =>
      rw [if_neg Bool.false_ne_true, if_pos rfl, Option.elim_some, Op.exec_ofDreq]
      exact h.mem_of_answers hi h0
    | false => exact h.mem_of_not_answers fun | 0 => h0 | 1 => h1

end Cycle

/-! ## Runs -/

section Run

variable {s : ℕ → Stack} {i : ℕ → In}

theorem next_eq (hr : machine.IsRun s i) (t : ℕ) : s (t + 1) = (s t).next (i t) false := hr.next t

theorem inv_of_run (hr : machine.IsRun s i) (hi : FetchHeld s i) (hd : DataHeld s i) (t : ℕ) :
    Inv (s t) (i t) := by
  induction t with
  | zero =>
    obtain ⟨ram, h0⟩ := hr.init
    rw [← h0]
    exact inv_init ram _
  | succ t ih =>
    rw [next_eq hr]
    refine ih.next ⟨fun hv hn => hi t hv ?_, fun hv hn => hd t hv ?_⟩
    · exact ne_true_of_eq_false hn
    · exact ne_true_of_eq_false hn

/-- What the arbiter is busy with is answered. -/
theorem exists_answers_of_busy (hr : machine.IsRun s i) (hinv : ∀ t, Inv (s t) (i t)) {t : ℕ}
    {k : Fin 2} (hb : (s t).arbiter.busy = true) (hk : (s t).arbiter.index = k) :
    ∃ u, t ≤ u ∧ (s u).answers (i u) k = true := by
  obtain ⟨u, htu, _, hu⟩ := exists_of_rank (n := t) (fun u => (s u).ram.remaining)
    (P := fun u => (s u).arbiter.busy = true ∧ (s u).arbiter.index = k)
    (E := fun u => (s u).answers (i u) k = true) ⟨hb, hk⟩ fun u _ ⟨hbu, hku⟩ hn => by
      cases hinv u with
      | free hf _ => exact absurd hbu (ne_true_of_eq_false hf)
      | busy j _ hj hv hram =>
        obtain rfl : j = k := Fin.val_injective (hj.symm.trans hku)
        obtain ⟨hb', hk', _, _, hlt⟩ :=
          Inv.wait hbu hj hv hram (eq_false_of_ne_true hn)
        rw [next_eq hr]
        exact ⟨⟨hb', hk'⟩, hlt⟩
  exact ⟨u, htu, hu⟩

/-- A request on the data bus is the first to be taken by a free arbiter. -/
theorem exists_data_of_free (hr : machine.IsRun s i) (hinv : ∀ t, Inv (s t) (i t)) {t : ℕ}
    (hf : (s t).arbiter.busy = false) (hv : (i t).dreq.valid = true) :
    ∃ u, t ≤ u ∧ ((s u).dresp (i u)).dataOk = true := by
  cases hinv t with
  | busy _ hb _ _ _ => exact absurd hb (ne_true_of_eq_false hf)
  | free _ hram =>
    obtain ⟨_, _, ⟨_, hn⟩ | ⟨k, hb, hk, _, hj⟩⟩ := Inv.grant (i := i t) hf hram
    · exact absurd hv (ne_true_of_eq_false (hn 0))
    · rw [← next_eq hr] at hb hk
      -- Whatever is granted has no valid request before it, and the data bus is the first.
      match k, hj with
      | 0, _ =>
        obtain ⟨u, htu, hu⟩ := exists_answers_of_busy hr hinv hb hk
        exact ⟨u, by omega, hu⟩
      | 1, hj => exact absurd hv (ne_true_of_eq_false (hj 0 Nat.one_pos))

/-- A request on the data bus is answered. -/
theorem exists_data (hr : machine.IsRun s i) (hd : DataHeld s i) (hinv : ∀ t, Inv (s t) (i t))
    {t : ℕ} (hv : (i t).dreq.valid = true) :
    ∃ u, t ≤ u ∧ ((s u).dresp (i u)).dataOk = true := by
  cases hinv t with
  | free hf _ => exact exists_data_of_free hr hinv hf hv
  | busy k hb hk _ _ =>
    obtain ⟨u, htu, hu⟩ := exists_answers_of_busy hr hinv hb hk
    match k, hu with
    | 0, hu => exact ⟨u, htu, hu⟩
    | 1, hu =>
      -- The fetch is answered first. Then, the arbiter is free.
      by_cases hex : ∃ j, t ≤ j ∧ j < u + 1 ∧ ((s j).dresp (i j)).dataOk = true
      · obtain ⟨j, htj, _, hj⟩ := hex
        exact ⟨j, htj, hj⟩
      · have hkept := hd.kept (u := u + 1) hv (by omega) fun j htj hju hj => hex ⟨j, htj, hju, hj⟩
        have hfree : (s (u + 1)).arbiter.busy = false := by
          rw [next_eq hr]
          exact ((hinv u).answer hu).1
        obtain ⟨w, huw, hw⟩ := exists_data_of_free hr hinv hfree (by rw [hkept]; exact hv)
        exact ⟨w, by omega, hw⟩

/-- A fetch is answered, if the data bus has no request in some cycle with a free arbiter. -/
theorem exists_fetch (hr : machine.IsRun s i) (hi : FetchHeld s i) (hinv : ∀ t, Inv (s t) (i t))
    {t u : ℕ} (hv : (i t).ireq.valid = true) (htu : t ≤ u) (hf : (s u).arbiter.busy = false)
    (hd : (i u).dreq.valid = false) : ∃ k, t ≤ k ∧ ((s k).iresp (i k)).dataOk = true := by
  by_cases hex : ∃ j, t ≤ j ∧ j < u ∧ ((s j).iresp (i j)).dataOk = true
  · obtain ⟨j, htj, _, hj⟩ := hex
    exact ⟨j, htj, hj⟩
  -- Not answered until then, the fetch is the only request that the free arbiter finds.
  · have hkept := hi.kept hv htu fun j htj hju hj => hex ⟨j, htj, hju, hj⟩
    have hvu : (i u).ireq.valid = true := by rw [hkept]; exact hv
    cases hinv u with
    | busy _ hb _ _ _ => exact absurd hb (ne_true_of_eq_false hf)
    | free _ hram =>
      obtain ⟨_, _, ⟨_, hn⟩ | ⟨k, hb, hk, hvk, _⟩⟩ := Inv.grant (i := i u) hf hram
      · exact absurd hvu (ne_true_of_eq_false (hn 1))
      · rw [← next_eq hr] at hb hk
        match k, hvk with
        | 0, hvk => exact absurd hvk (ne_true_of_eq_false hd)
        | 1, _ =>
          obtain ⟨w, huw, hw⟩ := exists_answers_of_busy hr hinv hb hk
          exact ⟨w, by omega, hw⟩

/-- The bus stack is a memory that does one operation after the other. -/
theorem sequential (hr : machine.IsRun s i) (hi : FetchHeld s i) (hd : DataHeld s i) :
    Sequential s i := by
  have hinv := inv_of_run hr hi hd
  have hmem : ∀ t, (s (t + 1)).ram.mem =
      ((s t).op (i t)).elim (s t).ram.mem (Op.exec (s t).ram.mem) := fun t => by
    rw [next_eq hr]
    exact (hinv t).mem (hr.admits t)
  have hexcl : ∀ t, ((s t).iresp (i t)).dataOk = true → ((s t).dresp (i t)).dataOk = false :=
    fun t h1 => by
      by_contra h0
      exact absurd ((hinv t).answers_unique h1 (eq_true_of_ne_false h0)) (by decide)
  constructor
  case excl => exact hexcl
  case fetch_presented =>
    intro k hk
    have hv := ((hinv k).of_answers hk).2.2.1
    exact ⟨hv, hi.existsUnique_presented hv hk⟩
  case data_presented =>
    intro k hk
    have hv := ((hinv k).of_answers hk).2.2.1
    exact ⟨hv, hd.existsUnique_presented hv hk⟩
  case fetch_answer =>
    intro t ht
    by_cases hex : ∃ u ≥ t, (s u).arbiter.busy = false ∧ (i u).dreq.valid = false
    · obtain ⟨u, htu, hf, hdu⟩ := hex
      exact .inl (hi.existsUnique_answer ht.1 (exists_fetch hr hi hinv ht.1 htu hf hdu))
    · refine .inr fun u htu hf => ?_
      by_contra hdu
      exact hex ⟨u, htu, hf, eq_false_of_ne_true hdu⟩
  case data_answer => exact fun t ht => hd.existsUnique_answer ht.1 (exists_data hr hd hinv ht.1)
  case mem => exact foldl_ops Op.exec hmem
  case fetched =>
    intro t ht
    have hdata := (hinv t).data (hr.admits t) ht rfl
    rw [Op.fetched, Op.loaded]
    exact hdata ▸ rfl
  case loaded =>
    intro t ht hs
    exact (hinv t).data (hr.admits t) ht (by exact bne_eq_false_iff_eq.2 hs)
  case bytes =>
    intro t idx k hk
    rw [hmem, op]
    cases hd0 : ((s t).dresp (i t)).dataOk with
    | true =>
      -- The operation of this cycle is the one on the data bus.
      have h1 : ((s t).iresp (i t)).dataOk = false := by
        by_contra h1
        rw [hexcl t (eq_true_of_ne_false h1)] at hd0
        exact absurd hd0 Bool.false_ne_true
      rw [h1, if_neg Bool.false_ne_true, if_pos rfl, Option.elim_some, Op.byte_exec _ _ _ hk]
      simp only [true_and]
    | false =>
      simp only [Bool.false_eq_true, false_and, if_false]
      cases ((s t).iresp (i t)).dataOk <;> rfl
  case no_error => exact fun t => ⟨(hinv t).not_modified, (hinv t).rangeError (hr.admits t)⟩

/-- A store and a fetch that are presented again and again. -/
def storeFetchIn (_ : ℕ) : In where
  ireq := { valid := true, addr := 0x80000004#64 }
  dreq := { valid := true, addr := 0x80000008#64, size := 0b010#3, strobe := 0b00001111#8,
            data := 0x0000000000000513#64 }
  random := 5#32
  switch := 0#32

/-- A run with the store and the fetch. -/
def storeFetch : ℕ → Stack := machine.run (init (.ofMem fun _ => 0#64)) storeFetchIn

theorem isRun_storeFetch : machine.IsRun storeFetch storeFetchIn :=
  machine.isRun_run ⟨_, rfl⟩ fun _ =>
    ⟨fun _ => (by decide : Ram.InWindow 0x80000004#64),
      fun _ => (by decide : Ram.InWindow 0x80000008#64)⟩

theorem sequential_storeFetch : ∃! k, DataAnswers storeFetch storeFetchIn 0 k :=
  (sequential isRun_storeFetch (fun _ _ _ => rfl) (fun _ _ _ => rfl)).data_answer 0
    ⟨rfl, fun _ h => absurd h (Nat.succ_ne_zero _).symm⟩

/-- The arbiter takes the store, whenever it is free. The fetch is never answered. -/
theorem fetch_starves : machine.IsRun storeFetch storeFetchIn ∧ FetchHeld storeFetch storeFetchIn ∧
    DataHeld storeFetch storeFetchIn ∧ FetchPresented storeFetch storeFetchIn 0 ∧
    ∀ k, ¬FetchAnswers storeFetch storeFetchIn 0 k := by
  have hindex : ∀ t, (storeFetch t).arbiter.index = 0 := by
    intro t
    induction t with
    | zero => rfl
    | succ t ih =>
      rw [next_eq isRun_storeFetch, next]
      cases hb : (storeFetch t).arbiter.busy with
      | true => exact (Arbiter.next_of_busy _ _ hb).2.trans ih
      | false => exact (Arbiter.next_of_free _ _ hb).2
  -- An answer to the fetch would come with the index 1.
  refine ⟨isRun_storeFetch, fun _ _ _ => rfl, fun _ _ _ => rfl,
    ⟨rfl, fun _ h => absurd h (Nat.succ_ne_zero _).symm⟩, fun k hk => ?_⟩
  have hinv := inv_of_run isRun_storeFetch (fun _ _ _ => rfl) (fun _ _ _ => rfl) k
  exact absurd ((hindex k).symm.trans (hinv.of_answers hk.answered).2.1) (by decide)

end Run

end Stack

end RiscvCpu
