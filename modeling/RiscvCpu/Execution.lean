import RiscvCpu.Bus.Sequential
import RiscvCpu.Core.Isa
import RiscvCpu.EmuRam
import RiscvCpu.Latency

/-!
# The program of the computer

From the power-on to the program: after two or more clock edges with `reset` up, from any
values of the registers, the computer executes the program in its memory as a hart does, an
instruction with every commit (`executes`). The program is one that has no exceptions, and
that stays in the window of the memory, which is as long as the array of the emulator.

The word at the index 0 of the memory has the address `0x80000000`. To the program, the
words are where their addresses are (`Words.rebase`).
-/

namespace RiscvCpu

open Sync Rv64

/-- The addresses of the memory that the emulator has. -/
def window : Set (BitVec 64) := {addr | 0x80000000#64 ≤ addr ∧ addr < 0x90000000#64}

theorem inWindow_of_mem {addr : BitVec 64} (h : addr ∈ window) : Ram.InWindow addr :=
  ⟨h.1, BitVec.lt_def.2 ((BitVec.lt_def.1 h.2).trans (by decide))⟩

theorem wordIdx_lt_of_mem {addr : BitVec 64} (h : addr ∈ window) :
    (Ram.wordIdx addr).toNat < EMU_RAM_WORDS := by
  rw [(inWindow_of_mem h).wordIdx.1, BitVec.toNat_ushiftRight, Nat.shiftRight_eq_div_pow]
  have hlo := BitVec.le_def.1 h.1
  have hhi := BitVec.lt_def.1 h.2
  rw [BitVec.toNat_sub]
  simp only [BitVec.toNat_ofNat, EMU_RAM_WORDS] at *
  omega

theorem wordClosed_window : WordClosed window := by
  rintro a ⟨hlo, hhi⟩ b hb
  have h := congrArg BitVec.toNat hb
  rw [BitVec.toNat_ushiftRight, BitVec.toNat_ushiftRight, Nat.shiftRight_eq_div_pow,
    Nat.shiftRight_eq_div_pow] at h
  rw [BitVec.le_def] at hlo
  rw [BitVec.lt_def] at hhi
  refine ⟨BitVec.le_def.2 ?_, BitVec.lt_def.2 ?_⟩
  · simp only [BitVec.toNat_ofNat] at *
    omega
  · simp only [BitVec.toNat_ofNat] at *
    omega

/-! ## The memory, by addresses -/

namespace Words

/-- The words, by the index of their addresses. -/
def rebase (m : Words) : Words := fun idx => m (idx - 0x10000000#64)

variable {m : Words} {addr : BitVec 64}

theorem sub_eq_wordAt (h : Ram.InWindow addr) :
    (addr >>> 3) - 0x10000000#64 = Op.wordAt addr := by
  have hlo : 0x80000000 ≤ addr.toNat := BitVec.le_def.1 h.1
  have hlt := addr.isLt
  apply BitVec.eq_of_toNat_eq
  rw [Op.wordAt, BitVec.toNat_ushiftRight, BitVec.toNat_sub, BitVec.toNat_sub,
    BitVec.toNat_ushiftRight, BitVec.toNat_ofNat, BitVec.toNat_ofNat, Nat.shiftRight_eq_div_pow,
    Nat.shiftRight_eq_div_pow]
  omega

theorem word_rebase (h : Ram.InWindow addr) : m.rebase.word addr = Op.loaded m addr :=
  congrArg m (sub_eq_wordAt h)

theorem fetch_rebase (h : Ram.InWindow addr) : m.rebase.fetch addr = Op.fetched m addr := by
  rw [fetch, word_rebase h, Op.fetched]

theorem write_rebase (h : Ram.InWindow addr) (data wmask : BitVec 64) :
    m.rebase.writeHelper (addr >>> 3) data wmask =
      (m.writeHelper (Op.wordAt addr) data wmask).rebase := by
  funext idx
  by_cases hi : idx = addr >>> 3
  · rw [hi, writeHelper_self, rebase, rebase, sub_eq_wordAt h, writeHelper_self]
  · have hi' : idx - 0x10000000#64 ≠ Op.wordAt addr := fun h' => by
      rw [← sub_eq_wordAt h] at h'
      exact hi ((BitVec.sub_left_inj _).1 h')
    rw [writeHelper_of_ne _ _ _ hi, rebase, rebase, writeHelper_of_ne _ _ _ hi']

/-- An operation of the memory is an access, by addresses. -/
theorem access_rebase {dreq : DbusReq} (hv : dreq.valid = true) (h : Ram.InWindow dreq.addr) :
    m.rebase.access dreq = (Op.exec m (.ofDreq dreq)).rebase := by
  rw [access, if_pos hv, write_rebase h]
  by_cases hs : dreq.strobe = 0#8
  · -- Under an empty strobe, nothing is written.
    rw [Op.ofDreq, if_pos hs, Op.exec, hs]
    have hm : wmask 0#8 = 0#64 := by decide
    refine congrArg rebase (funext fun idx => ?_)
    rw [hm, writeHelper, BitVec.not_zero, BitVec.and_allOnes, BitVec.and_zero, BitVec.or_zero]
    exact ite_self _
  · rw [Op.ofDreq, if_neg hs, Op.exec]

end Words

namespace SimTop

/-! ## One cycle -/

/-- The core, and its memory by addresses. -/
def computer (s : SimTop) : Computer := ⟨s.core, s.stack.ram.mem.rebase⟩

/-- What the program sees. -/
def hart (s : SimTop) : Hart := s.computer.arch.hart

/-- The computer is at an instruction of its program. -/
structure Sound (s : SimTop) : Prop where
  inv : Inv s
  sound : Computer.Sound s.computer

section Cycle

variable {s : SimTop} {i : In} {instr : Instr}

/-- A fetch is answered with the word at the program counter. -/
theorem Sound.iresp_data (h : Sound s) (hx : s.hart.Fetches window instr)
    (hf : (s.iresp i).dataOk = true) : (s.iresp i).data = s.computer.mem.fetch s.core.pc := by
  obtain ⟨hb, hk, hv, hbeat⟩ := (h.inv.stack i).of_answers (k := 1) hf
  -- What is on the data bus does not matter.
  let j : Stack.In := { s.stackIn i with dreq := { s.dreq i with valid := false } }
  have hinv : Stack.Inv s.stack j := .busy 1 hb hk hv (.beat hbeat)
  have hj : j ∈ Stack.machine.admits s.stack :=
    ⟨fun _ => inWindow_of_mem hx.mem, fun h => absurd h Bool.false_ne_true⟩
  have hdata : (s.stack.icresp i.switch).data = Op.loaded s.stack.ram.mem s.hart.pc :=
    hinv.data hj (k := 1) hf rfl
  refine Eq.trans ?_ (Words.fetch_rebase (inWindow_of_mem hx.mem)).symm
  rw [Op.fetched, ← hdata]
  rfl

/-- What is executed is the instruction at the program counter. -/
theorem Sound.instr_eq (h : Sound s) (hx : s.hart.Fetches window instr)
    (hv : (s.dreq i).valid = true) : s.core.instr (s.coreIn i) = s.computer.arch.instr := by
  cases h.sound with
  | fetching hp _ =>
    have hf := hp.dataOk_of_dreq hv
    exact (Core.instr_of_dataOk hf).trans (h.iresp_data hx hf)
  | executing hp hcurr => exact (hp.instr_eq h.inv.admits).2.trans hcurr

theorem Sound.dreq_mem (h : Sound s) (hx : s.hart.Executes window instr)
    (hv : (s.dreq i).valid = true) : (s.dreq i).addr ∈ window := by
  have hdreq : s.dreq i = s.computer.arch.net.dreq := by
    rw [dreq, Core.dreq, Core.net, h.instr_eq hx.fetches hv]
    exact wires_dreq_congr ..
  rw [hdreq] at hv ⊢
  exact Arch.dreq_addr_mem hx hv

theorem Sound.dreq_inWindow (h : Sound s) (hx : s.hart.Executes window instr)
    (hv : (s.dreq i).valid = true) : Ram.InWindow (s.dreq i).addr :=
  inWindow_of_mem (h.dreq_mem hx hv)

/-- The stack, with the requests of a program in the window. -/
theorem Sound.stack_admits (h : Sound s) (hx : s.hart.Executes window instr) :
    s.stackIn i ∈ Stack.machine.admits s.stack :=
  ⟨fun _ => inWindow_of_mem hx.mem, fun hv => h.dreq_inWindow hx hv⟩

/-- The beats of the memory are in the window. -/
theorem Sound.addr_mem (h : Sound s) (i : In) (hx : s.hart.Executes window instr)
    (hs : s.stack.ram.state = .READ ∨ s.stack.ram.state = .WRITE) :
    s.stack.ram.addr ∈ window := by
  cases h.inv.stack i with
  | free _ hram => simp [hram] at hs
  | busy k _ _ hv hram =>
    cases hram with
    | none hn => simp [hn] at hs
    | wait hw _ => simp [hw] at hs
    | beat hb =>
      rw [hb.addr]
      match k with
      | 0 => exact h.dreq_mem hx hv
      | 1 => exact hx.mem

/-- The stack answers as the memory that the core relies on. -/
theorem Sound.admits (h : Sound s) (hx : s.hart.Executes window instr) :
    s.coreIn i ∈ Computer.machine.admits s.computer := by
  refine ⟨h.inv.admits, h.iresp_data hx.fetches, fun hd hs => ?_⟩
  have hv := ((h.inv.stack i).of_answers (k := 0) hd).2.2.1
  have hdata := (h.inv.stack i).data (h.stack_admits hx) hd (by exact bne_eq_false_iff_eq.2 hs)
  exact hdata.trans (Words.word_rebase (h.dreq_inWindow hx hv)).symm

/-- A cycle of the computer is one of the core with this memory. -/
theorem Sound.computer_next (h : Sound s) (hx : s.hart.Executes window instr) :
    (s.next i false).computer = Computer.machine.next s.computer (s.coreIn i) := by
  have hmem := (h.inv.stack i).mem (h.stack_admits hx)
  suffices hm : (s.next i false).stack.ram.mem.rebase =
      if (s.dresp i).dataOk then s.stack.ram.mem.rebase.access (s.dreq i)
      else s.stack.ram.mem.rebase from congrArg (Computer.mk _) hm
  have hnext : (s.next i false).stack.ram.mem = (s.stack.next (s.stackIn i) false).ram.mem := rfl
  have hi : (s.stack.iresp (s.stackIn i)).dataOk = (s.iresp i).dataOk := rfl
  have hd : (s.stack.dresp (s.stackIn i)).dataOk = (s.dresp i).dataOk := rfl
  rw [hnext, hmem, Stack.op, hi, hd]
  cases hdo : (s.dresp i).dataOk with
  | true =>
    -- Only one of the buses is answered.
    have hf : (s.iresp i).dataOk = false := by
      by_contra hf
      exact absurd ((h.inv.stack i).answers_unique (k := 1) (j := 0) (eq_true_of_ne_false hf) hdo)
        (by decide)
    have hv := ((h.inv.stack i).of_answers (k := 0) hdo).2.2.1
    rw [hf, if_neg Bool.false_ne_true, if_pos rfl, Option.elim_some]
    exact (Words.access_rebase hv (h.dreq_inWindow hx hv)).symm
  | false =>
    rw [if_neg Bool.false_ne_true]
    cases (s.iresp i).dataOk <;> rfl

theorem legal (hx : s.hart.Fetches window instr) : Legal s.computer.arch.instr :=
  ⟨instr, hx.fetch.symm.trans (s.computer.arch.read_pc hx.aligned)⟩

/-- In a cycle, the computer executes the instruction if it commits, and nothing else. -/
theorem Sound.next (h : Sound s) (hx : s.hart.Executes window instr) : Sound (s.next i false) ∧
    (s.next i false).hart = if s.commit i then s.hart.execute instr else s.hart := by
  have hadm := h.admits hx (i := i)
  have hcomp := h.computer_next hx (i := i)
  have hl := legal hx.fetches
  refine ⟨⟨inductive_inv.step _ h.inv i trivial, ?_⟩, ?_⟩
  · rw [hcomp]
    exact h.sound.next hl hadm
  · rw [hart, hcomp]
    cases hc : s.commit i with
    | true =>
      rw [if_pos rfl, Computer.arch_next_of_commit h.sound hl hadm hc]
      exact Arch.hart_step hx
    | false =>
      rw [if_neg Bool.false_ne_true, Computer.arch_next_of_wait h.sound hadm hc]
      rfl

/-- A commit is that of the instruction at the program counter. -/
theorem Sound.instr_of_commit (h : Sound s) (hx : s.hart.Executes window instr)
    (hc : s.commit i = true) :
    s.core.instr (s.coreIn i) = s.hart.mem.read s.hart.pc 4 := by
  have hadm := h.admits hx (i := i)
  refine (h.sound.instr_eq hadm (h.sound.dataOk_of_commit hadm hc)).trans ?_
  exact (s.computer.arch.read_pc hx.aligned).symm

end Cycle

/-! ## Runs -/

section Run

variable {s : ℕ → SimTop} {i : ℕ → In} {x : ℕ → Hart}

theorem sound_of_isRun (hr : released.IsRun s i) (hx : IsExecution window x)
    (h0 : (s 0).hart = x 0) (n : ℕ) : Sound (s n) ∧
      (s n).hart = x (Nat.count (fun k => (s k).commit (i k) = true) n) := by
  induction n with
  | zero =>
    obtain ⟨regNext, ram, hs⟩ := hr.init
    refine ⟨⟨released_inv.of_isRun hr 0, ?_⟩, h0⟩
    rw [hs]
    exact .fetching ⟨rfl, .inl rfl, SerialReg.idle_init, SerialReg.idle_init⟩ rfl
  | succ n ih =>
    obtain ⟨instr, hex, hstep⟩ := hx (Nat.count (fun k => (s k).commit (i k) = true) n)
    rw [← ih.2] at hex hstep
    obtain ⟨hsound, hhart⟩ := ih.1.next hex (i := i n)
    rw [succ_eq hr, Nat.count_succ]
    refine ⟨hsound, hhart.trans ?_⟩
    cases hc : (s n).commit (i n) with
    | true => rw [if_pos rfl, if_pos rfl, hstep]
    | false => rw [if_neg Bool.false_ne_true, if_neg Bool.false_ne_true, ih.2, Nat.add_zero]

/-- The run executes a program, an instruction with every commit. -/
structure Runs (s : ℕ → SimTop) (i : ℕ → In) (x : ℕ → Hart) : Prop where
  /-- There is always a next commit, after at most 519 other cycles. -/
  commits : ∀ n, ∃ k, n ≤ k ∧ k ≤ n + 519 ∧ (s k).commit (i k) = true
  /-- As many instructions are executed as there are commits. -/
  hart : ∀ n, (s n).hart = x (Nat.count (fun k => (s k).commit (i k) = true) n)
  /-- The commit is one of the instruction at the program counter. -/
  instr : ∀ n, (s n).commit (i n) = true →
    (s n).core.instr ((s n).coreIn (i n)) = (s n).hart.mem.read (s n).hart.pc 4
  /-- The memory finds no error. -/
  no_error : ∀ n, (s n).stack.ram.modificationError ((s n).oreq (i n)) = false ∧
    (s n).stack.ram.rangeError = false
  /-- The array of the emulator holds the memory: no access is out of its range. -/
  array : ∀ e : ℕ → EmuRam, (e 0).Holds (s 0).stack.ram.mem →
    (∀ n, e (n + 1) = (s n).stack.ram.edge ((s n).oreq (i n)) (e n)) → ∀ n,
      (e n).Holds (s n).stack.ram.mem ∧ (e n).assertCount = (e 0).assertCount ∧
      ((s n).stack.ram.state = .READ → (e n).ramReadHelper true (s n).stack.ram.idx =
        (s n).stack.ram.mem.readHelper (s n).stack.ram.idx)

theorem runs (hr : released.IsRun s i) (hx : IsExecution window x) (h0 : (s 0).hart = x 0) :
    Runs s i x := by
  have hs := sound_of_isRun hr hx h0
  have hex : ∀ n, ∃ instr, (s n).hart.Executes window instr := fun n => by
    obtain ⟨instr, hex, _⟩ := hx (Nat.count (fun k => (s k).commit (i k) = true) n)
    exact ⟨instr, (hs n).2 ▸ hex⟩
  constructor
  case commits =>
    refine exists_commit hr fun n hf => ?_
    obtain ⟨instr, hex⟩ := hex n
    rw [(hs n).1.iresp_data hex.fetches hf]
    exact not_silent_of_legal (legal hex.fetches)
  case hart => exact fun n => (hs n).2
  case instr =>
    intro n hc
    obtain ⟨instr, hex⟩ := hex n
    exact (hs n).1.instr_of_commit hex hc
  case no_error =>
    intro n
    obtain ⟨instr, hex⟩ := hex n
    have hinv := (hs n).1.inv.stack (i n)
    exact ⟨hinv.not_modified, hinv.rangeError ((hs n).1.stack_admits hex)⟩
  case array =>
    intro e h0 he n
    have hidx : ∀ n, (s n).stack.ram.state = .READ ∨ (s n).stack.ram.state = .WRITE →
        (s n).stack.ram.idx.toNat < EMU_RAM_WORDS := fun n h => by
      obtain ⟨instr, hex⟩ := hex n
      exact wordIdx_lt_of_mem ((hs n).1.addr_mem (i n) hex h)
    suffices h : (e n).Holds (s n).stack.ram.mem ∧ (e n).assertCount = (e 0).assertCount from
      ⟨h.1, h.2, fun hr => h.1.read (hidx n (.inl hr))⟩
    induction n with
    | zero => exact ⟨h0, rfl⟩
    | succ n ih =>
      obtain ⟨hh, hc⟩ := Ram.holds_edge ((s n).oreq (i n)) ih.1
        (fun hw _ => hidx n (.inr hw)) (i n).random
      rw [he, succ_eq hr]
      exact ⟨hh, hc.trans ih.2⟩

/-- The `k`-th commit is the `k`-th instruction. -/
theorem Runs.nth (h : Runs s i x) (k : ℕ) :
    (s (Nat.nth (fun n => (s n).commit (i n) = true) k)).hart = x k ∧
      (s (Nat.nth (fun n => (s n).commit (i n) = true) k + 1)).hart = x (k + 1) := by
  have hinf : {n | (s n).commit (i n) = true}.Infinite := by
    refine Set.infinite_of_forall_exists_gt fun n => ?_
    obtain ⟨k, hk, _, hc⟩ := h.commits (n + 1)
    exact ⟨k, hc, hk⟩
  have hc := Nat.nth_mem_of_infinite hinf k
  constructor
  · rw [h.hart, Nat.count_nth_of_infinite hinf]
  · rw [h.hart, Nat.count_succ, if_pos hc, Nat.count_nth_of_infinite hinf]

/-! ## The power-on -/

/-- A run with any registers before it, and with `reset` up for some clock edges. -/
structure IsPowerOn (n₀ : ℕ) (s : ℕ → SimTop) (i : ℕ → In) : Prop where
  init : s 0 ∈ Set.range rise
  next : ∀ n, s (n + 1) = (s n).next (i n) (decide (n < n₀))

/-- The hart at the first instruction. -/
def boot (mem : Words) : Hart := ⟨PCINIT, fun _ => 0#64, rfl, mem.rebase.bytes⟩

variable {n₀ : ℕ}

theorem IsPowerOn.eq_run (h : IsPowerOn n₀ s i) {n : ℕ} (hn : n ≤ n₀) :
    s n = resetting.run (s 0) i n := by
  induction n with
  | zero => rfl
  | succ n ih =>
    rw [h.next, decide_eq_true (show n < n₀ from hn), ih (by omega)]
    rfl

/-- After the reset, the computer starts anew, with its memory. -/
theorem IsPowerOn.released (h : IsPowerOn n₀ s i) (hn : 2 ≤ n₀) :
    released.IsRun (fun n => s (n₀ + n)) (fun n => i (n₀ + n)) ∧
      (s n₀).hart = boot (s 0).stack.ram.mem := by
  have hr : resetting.IsRun (resetting.run (s 0) i) i := resetting.isRun_run h.init fun _ => trivial
  obtain ⟨regNext, ram, hs⟩ := eq_cleared hr hn
  have hmem := mem_of_resetting hr n₀
  rw [← h.eq_run le_rfl] at hs hmem
  have hmem' : ram.mem = (s 0).stack.ram.mem := by rw [hs] at hmem; exact hmem
  refine ⟨⟨⟨regNext, ram, hs⟩, fun _ => trivial, fun n => ?_⟩, ?_⟩
  · rw [← add_assoc, h.next, decide_eq_false (by omega)]
    rfl
  · rw [hs, ← hmem']
    refine Hart.ext rfl (funext fun r => ?_) rfl
    by_cases hr : r = 0#5
    · exact dif_pos hr
    · exact dif_neg hr

/-- From the power-on, the computer executes the program in its memory. -/
theorem executes (h : IsPowerOn n₀ s i) (hn : 2 ≤ n₀) (hx : IsExecution window x)
    (h0 : x 0 = boot (s 0).stack.ram.mem) :
    Runs (fun n => s (n₀ + n)) (fun n => i (n₀ + n)) x := by
  obtain ⟨hr, hboot⟩ := h.released hn
  exact runs hr hx (hboot.trans h0.symm)

/-- The run with `reset` up for `n₀` clock edges. -/
def powered (n₀ : ℕ) (s : SimTop) (i : ℕ → In) : ℕ → SimTop
  | 0 => s.rise
  | n + 1 => (powered n₀ s i n).next (i n) (decide (n < n₀))

theorem isPowerOn_powered (s : SimTop) (i : ℕ → In) : IsPowerOn n₀ (powered n₀ s i) i :=
  ⟨⟨s, rfl⟩, fun _ => rfl⟩

/-- A memory full of `addi x1, x1, 1` and `jal x0, -4`. -/
def countMem : Words := fun _ => 0xffdff06f00108093#64

/-- The hart after `k` instructions. -/
def counting (k : ℕ) : Hart where
  pc := if k % 2 = 0 then PCINIT else PCINIT + 4#64
  x r := if r = 1#5 then BitVec.ofNat 64 ((k + 1) / 2) else 0#64
  x_zero := rfl
  mem := countMem.rebase.bytes

theorem counting_addi {k : ℕ} (hk : k % 2 = 0) :
    (counting k).Executes window (.opImm .addi 1#12 1#5 1#5) ∧
      counting (k + 1) = (counting k).execute (.opImm .addi 1#12 1#5 1#5) := by
  have hpc : (counting k).pc = PCINIT := if_pos hk
  refine ⟨⟨?_, ?_, ?_, fun r hr => absurd hr (Option.not_mem_none r)⟩,
    Hart.ext ?_ (funext fun r => ?_) rfl⟩
  · rw [hpc]
    decide
  · rw [hpc]
    exact ⟨by decide, by decide⟩
  · rw [hpc]
    change countMem.rebase.bytes.read PCINIT 4 = _
    decide
  · have hpc' : ((counting k).execute (.opImm .addi 1#12 1#5 1#5)).pc = (counting k).pc + 4#64 :=
      rfl
    rw [hpc', hpc]
    exact if_neg (by omega)
  · by_cases hr : r = 1#5
    · obtain rfl := hr
      change BitVec.ofNat 64 ((k + 1 + 1) / 2) = BitVec.ofNat 64 ((k + 1) / 2) + 1#64
      rw [← BitVec.ofNat_add, show (k + 1 + 1) / 2 = (k + 1) / 2 + 1 by omega]
    · exact (if_neg hr).trans ((if_neg fun h => hr h.1).trans (if_neg hr)).symm

theorem counting_jal {k : ℕ} (hk : ¬k % 2 = 0) :
    (counting k).Executes window (.jal 0xffffe#20 0#5) ∧
      counting (k + 1) = (counting k).execute (.jal 0xffffe#20 0#5) := by
  have hpc : (counting k).pc = PCINIT + 4#64 := if_neg hk
  refine ⟨⟨?_, ?_, ?_, fun r hr => absurd hr (Option.not_mem_none r)⟩,
    Hart.ext ?_ (funext fun r => ?_) rfl⟩
  · rw [hpc]
    decide
  · rw [hpc]
    exact ⟨by decide, by decide⟩
  · rw [hpc]
    change countMem.rebase.bytes.read (PCINIT + 4#64) 4 = _
    decide
  · have hpc' : ((counting k).execute (.jal 0xffffe#20 0#5)).pc =
        (counting k).pc + offset 0xffffe#20 := rfl
    rw [hpc', hpc]
    exact (if_pos (by omega)).trans (by decide)
  · -- The register `0` is not written, and the others keep their values.
    have hx : ((counting k).execute (.jal 0xffffe#20 0#5)).x r = (counting k).x r :=
      if_neg fun h => h.2 h.1
    have hd : (k + 1 + 1) / 2 = (k + 1) / 2 := by omega
    rw [hx]
    change (if r = 1#5 then BitVec.ofNat 64 ((k + 1 + 1) / 2) else 0#64) = _
    rw [hd]
    rfl

/-- The instruction after `k` of them. -/
def countInstr (k : ℕ) : Instr :=
  if k % 2 = 0 then .opImm .addi 1#12 1#5 1#5 else .jal 0xffffe#20 0#5

theorem program_counting (k : ℕ) : (counting k).Executes window (countInstr k) ∧
    counting (k + 1) = (counting k).execute (countInstr k) := by
  rw [countInstr]
  by_cases hk : k % 2 = 0
  · rw [if_pos hk]
    exact counting_addi hk
  · rw [if_neg hk]
    exact counting_jal hk

theorem isExecution_counting : IsExecution window counting := fun k => ⟨_, program_counting k⟩

/-- The program only reads its two instructions. -/
theorem inputs_counting {a : BitVec 64} (ha : a ∈ inputs counting countInstr) :
    (a - PCINIT).toNat < 8 := by
  obtain ⟨k, ha, -⟩ := ha
  rw [countInstr] at ha
  by_cases hk : k % 2 = 0
  · rw [if_pos hk] at ha
    have hpc : (counting k).pc = PCINIT := if_pos hk
    have ha' := ha.resolve_right (Set.notMem_empty a)
    change (a - (counting k).pc).toNat < 4 at ha'
    rw [hpc] at ha'
    omega
  · rw [if_neg hk] at ha
    have hpc : (counting k).pc = PCINIT + 4#64 := if_neg hk
    have ha' := ha.resolve_right (Set.notMem_empty a)
    change (a - (counting k).pc).toNat < 4 at ha'
    rw [hpc, PCINIT] at ha'
    rw [PCINIT]
    bv_omega

/-- After `2 * k` instructions, the program has counted to `k`. -/
theorem executes_counting :
    let i : ℕ → In := fun _ => ⟨7#32, 0#32, default⟩
    let s := powered 10 (init (.ofMem countMem)) i
    ∀ n, ((s (10 + n)).hart).x 1#5 = BitVec.ofNat 64
      ((Nat.count (fun k => (s (10 + k)).commit (i (10 + k)) = true) n + 1) / 2) := by
  intro i s n
  have hpow : IsPowerOn 10 s i := isPowerOn_powered _ _
  have h0 : counting 0 = boot (s 0).stack.ram.mem :=
    Hart.ext rfl (funext fun r => ite_self _) rfl
  have hr := (executes hpow (by omega) isExecution_counting h0).hart n
  exact congrArg (fun h : Hart => h.x 1#5) hr

end Run

end SimTop

end RiscvCpu
