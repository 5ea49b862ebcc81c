import RiscvCpu.Core.Retirement
import RiscvCpu.Difftest.Accepts
import RiscvCpu.Execution

/-!
# The computer under the differential test

The computer reports every commit, with the registers after it (`SimTop.report`), to the
differential test, whose reference executes instructions as a hart does (`Proxy.Simulates`).
The test never fails, if and only if the first instruction, executed once more, changes
nothing (`SimTop.Cosim.never_fails_iff`): the reference starts with the registers that the
computer has after the first instruction, and executes this instruction, too.

The memory of the reference can have anything behind the image of the program, if the program
does not read it before it has written it.
-/

namespace RiscvCpu

open Bytes Function Rv64 Sync

/-! ## The registers that are compared -/

/-- The values of the `csr` registers. They are constant. -/
def csr : CsrState where
  mstatus := 0#64
  mcause := 0#64
  mepc := 0#64
  sstatus := 0#64
  scause := 0#64
  sepc := 0#64
  satp := 0#64
  mip := 0#64
  mie := 0#64
  mscratch := 0#64
  sscratch := 0#64
  mideleg := 0#64
  medeleg := 0#64
  mtval := 0#64
  stval := 0#64
  mtvec := 0#64
  stvec := 0#64
  priviledgeMode := 3#64

/-- The registers of a hart, in the order of the comparison. The floating-point ones are old. -/
def packed (x : BitVec 5 → BitVec 64) (pc : BitVec 64) (old : RegState) : RegState :=
  update (fun j => if j.1 < 32 then x (BitVec.ofNat 5 j.1)
    else if j.1 ≤ 64 then old j
    else (csr.toList[j.1 - 65]?).getD 0#64) thisPc pc

section Packed

variable {x x' : BitVec 5 → BitVec 64} {pc pc' : BitVec 64} {old : RegState}

/-- The place of a register. -/
def gprIndex (r : BitVec 5) : Fin DIFFTEST_NR_REG := ⟨r.toNat, r.isLt.trans (by decide)⟩

theorem gprIndex_ne (r : BitVec 5) : gprIndex r ≠ thisPc := fun h => by
  have hv : r.toNat = 64 := congrArg Fin.val h
  have := r.isLt
  omega

theorem packed_gprIndex (r : BitVec 5) : packed x pc old (gprIndex r) = x r := by
  rw [packed, update_of_ne (gprIndex_ne r), if_pos (show (gprIndex r).1 < 32 from r.isLt)]
  exact congrArg x ((BitVec.ofNat_toNat 5 r).trans (BitVec.setWidth_eq r))

theorem packed_thisPc : packed x pc old thisPc = pc := update_self ..

theorem packed_of_le {j : Fin DIFFTEST_NR_REG} (hj : 32 ≤ j.1) (hne : j ≠ thisPc) :
    packed x pc old j = packed x' pc' old j := by
  have hlt : ¬j.1 < 32 := not_lt.2 hj
  rw [packed, packed, update_of_ne hne, update_of_ne hne, if_neg hlt, if_neg hlt]

theorem eq_packed {v : RegState} (hx : ∀ r, v (gprIndex r) = x r) (hpc : v thisPc = pc)
    (hv : ∀ j : Fin DIFFTEST_NR_REG, 32 ≤ j.1 → j ≠ thisPc → v j = packed x pc old j) :
    v = packed x pc old := by
  funext j
  by_cases hj : j = thisPc
  · rw [hj, hpc, packed_thisPc]
  · by_cases hlt : j.1 < 32
    · have hi : gprIndex (BitVec.ofNat 5 j.1) = j := Fin.ext (Nat.mod_eq_of_lt hlt)
      rw [← hi, hx, packed_gprIndex]
    · exact hv j (by omega) hj

theorem packed_inj : packed x pc old = packed x' pc' old ↔ x = x' ∧ pc = pc' := by
  constructor
  · refine fun h => ⟨funext fun r => ?_, ?_⟩
    · have hr := congrFun h (gprIndex r)
      rwa [packed_gprIndex, packed_gprIndex] at hr
    · have hp := congrFun h thisPc
      rwa [packed_thisPc, packed_thisPc] at hp
  · rintro ⟨rfl, rfl⟩
    rfl

end Packed

/-- The registers can be those of the computer. -/
def OfComputer (v : RegState) : Prop :=
  v 0 = 0#64 ∧ ∀ j : Fin DIFFTEST_NR_REG, 64 < j.1 → v j = (csr.toList[j.1 - 65]?).getD 0#64

theorem ofComputer_packed {x : BitVec 5 → BitVec 64} (h0 : x 0#5 = 0#64) (pc : BitVec 64)
    (old : RegState) : OfComputer (packed x pc old) := by
  refine ⟨(packed_gprIndex 0#5).trans h0, fun j hj => ?_⟩
  have hne : j ≠ thisPc := fun h => absurd (congrArg Fin.val h) hj.ne'
  rw [packed, update_of_ne hne, if_neg (by omega), if_neg (by omega)]

/-! ## The reference -/

/-- With the `csr` registers of the computer, the reference is a hart, and does not change the
    other registers. Only such registers are copied to it, and only an image that fits. -/
structure Proxy.Simulates {R : Type*} (p : Proxy R) (hart : R → Hart) : Prop where
  gpr : ∀ r, OfComputer (p.regcpyToDut r) → ∀ k, p.regcpyToDut r (gprIndex k) = (hart r).x k
  pc : ∀ r, OfComputer (p.regcpyToDut r) → p.regcpyToDut r thisPc = (hart r).pc
  exec : ∀ r i, OfComputer (p.regcpyToDut r) → (hart r).Executes window i →
    hart (p.exec r) = (hart r).execute i ∧
      ∀ j : Fin DIFFTEST_NR_REG, j = 0 ∨ 32 ≤ j.1 ∧ j ≠ thisPc →
        p.regcpyToDut (p.exec r) j = p.regcpyToDut r j
  regcpy : ∀ v r, OfComputer v → p.regcpyToDut (p.regcpyToRef v r) = v ∧
    (hart (p.regcpyToRef v r)).mem = (hart r).mem
  memcpy : ∀ img r, img.length ≤ EMU_RAM_SIZE → ∀ a,
    (hart (p.memcpyToRef 0x80000000#64 img r)).mem a =
      (img[(a - 0x80000000#64).toNat]?).getD ((hart r).mem a)

/-- The bytes of the program, as they are in the array of the emulator. -/
def image (m : Words) (size : ℕ) : List (BitVec 8) :=
  (List.range size).map fun k => m.bytes (BitVec.ofNat 64 k)

namespace SimTop

/-! ## Reports -/

/-- The calls of the core at the clock edge. -/
def report (s : SimTop) (i : In) : Report where
  trap := ⟨false, 0#8⟩
  commit k :=
    if k = firstCommit ∧ s.commit i = true then
      some
        { valid := true
          pc := s.core.pc
          inst := s.core.instr (s.coreIn i)
          skip := false
          isRVC := false
          scFailed := false
          wen := (s.core.net (s.coreIn i)).cu.wreg
          wdest := (s.core.net (s.coreIn i)).dec.rd.setWidth 8
          wdata := s.core.regNextOut (s.coreIn i) (s.core.net (s.coreIn i)).dec.rd }
    else none
  gpr := s.core.regNextOut (s.coreIn i)
  csr := csr

variable {s : SimTop} {i : In}

theorem isSome_commit_report (k : Fin DIFFTEST_COMMIT_WIDTH) :
    ((s.report i).commit k).isSome = (decide (k = firstCommit) && s.commit i) := by
  change (if k = firstCommit ∧ s.commit i = true then _ else none : Option InstrCommit).isSome = _
  by_cases hk : k = firstCommit <;> cases hc : s.commit i <;> simp [hk]

theorem width_report : (s.report i).width = if s.commit i then 1 else 0 := by
  rw [Report.width]
  simp only [isSome_commit_report]
  cases s.commit i <;> rfl

theorem plain_report : (s.report i).Plain where
  trap := rfl
  first k j hkj h := by
    rw [isSome_commit_report, Bool.and_eq_true, decide_eq_true_iff] at h ⊢
    obtain ⟨rfl, hc⟩ := h
    exact ⟨Fin.ext (Nat.le_zero.1 hkj), hc⟩
  commit k c hc := by
    have h : (if k = firstCommit ∧ s.commit i = true then _ else none : Option InstrCommit) =
      some c := hc
    split at h
    · obtain rfl := Option.some.inj h
      exact ⟨rfl, rfl, rfl⟩
    · exact absurd h.symm (Option.some_ne_none c)

theorem pc_report (hc : s.commit i = true) : (s.report i).pc = s.hart.pc := by
  have h : (s.report i).commit firstCommit = some _ := if_pos ⟨rfl, hc⟩
  rw [Report.pc, h]
  rfl

/-- The values reported are those of the register file, up to the one that is evaluated. -/
theorem reported_inv : machine.Inductive fun s => Inv s ∧ Core.Reported s.core where
  init s hs := by
    refine ⟨inductive_inv.init s hs, ?_⟩
    obtain ⟨ram, rfl⟩ := hs
    exact (Core.reported.init _ rfl).2
  step s h i hi := by
    have hcore := Core.reported.step s.core ⟨h.1.core, h.2⟩ (s.coreIn i) h.1.admits
    exact ⟨inductive_inv.step s h.1 i hi, hcore.2⟩

/-- With a commit, the registers after it are reported. -/
theorem gpr_report (h : Inv s) (hs : Core.Reported s.core) (hc : s.commit i = true) :
    (s.report i).gpr = (s.next i false).hart.x :=
  funext fun r => Core.regNextOut_eq_read (hs.regNext_eq h.core h.admits hc)
    (Core.ifWreg_of_hold hc) r

/-! ## The first instruction -/

/-- The first instruction is no load, and no store: with the registers `0`, it would not be
    one of the window. -/
theorem not_access_of_boot {mem : Words} {i₀ : Instr} (hi : (boot mem).Executes window i₀)
    (pc : BitVec 64) (x : BitVec 5 → BitVec 64) : ∀ r ∈ (i₀.execute pc x).request,
      (∀ m, r.exec m = m) ∧ r.reads = ∅ ∧ r.writes = ∅ ∧ r.Valid window := by
  have hlow : ∀ imm : BitVec 12, 0#64 + imm.signExtend 64 ∉ window := fun imm h => by
    obtain ⟨hlo, hhi⟩ := h
    rw [BitVec.zero_add, BitVec.le_def, BitVec.toNat_signExtend] at hlo
    rw [BitVec.zero_add, BitVec.lt_def, BitVec.toNat_signExtend] at hhi
    have hlt := imm.isLt
    rw [BitVec.toNat_setWidth, BitVec.toNat_ofNat] at hlo hhi
    cases hm : imm.msb with
    | false =>
      rw [hm, if_neg Bool.false_ne_true] at hlo
      omega
    | true =>
      rw [hm, if_pos rfl] at hhi
      omega
  intro r hr
  cases i₀ with
  | load op imm rs1 rd => exact absurd (hi.valid _ rfl).2 (hlow imm)
  | store op imm rs2 rs1 => exact absurd (hi.valid _ rfl).2 (hlow imm)
  | mulDiv op w rs2 rs1 rd =>
    obtain rfl := Option.some.inj hr
    cases op <;> exact ⟨fun _ => rfl, rfl, rfl, trivial⟩
  | _ => exact absurd hr (Option.not_mem_none r)

/-- The hart after the first instruction, but before it. -/
def again (h : Hart) : Hart := { h with pc := PCINIT }

theorem mem_execute_of_boot {mem : Words} {i₀ : Instr} (hi : (boot mem).Executes window i₀)
    (h : Hart) : (h.execute i₀).mem = h.mem := by
  change (h.effect i₀).mem h.mem = h.mem
  have ha := not_access_of_boot hi h.pc h.x
  rw [Effect.mem]
  cases hr : (h.effect i₀).request with
  | none => rfl
  | some r => exact (ha r hr).1 h.mem

theorem executes_again {mem : Words} {i₀ : Instr} (hi : (boot mem).Executes window i₀) :
    (again ((boot mem).execute i₀)).Executes window i₀ where
  aligned := (by decide : PCINIT.toNat % 4 = 0)
  mem := (⟨by decide, by decide⟩ : PCINIT ∈ window)
  fetch := by
    change ((boot mem).execute i₀).mem.read PCINIT 4 = _
    rw [mem_execute_of_boot hi]
    exact hi.fetch
  valid r hr := (not_access_of_boot hi _ _ r hr).2.2.2

theorem reads_of_boot {mem : Words} {i₀ : Instr} (hi : (boot mem).Executes window i₀) (h : Hart) :
    h.reads i₀ = {a | (a - h.pc).toNat < 4} := by
  rw [Hart.reads]
  cases hr : (h.effect i₀).request with
  | none => exact Set.union_empty _
  | some r =>
    rw [Option.elim_some, (not_access_of_boot hi _ _ r hr).2.1]
    exact Set.union_empty _

theorem writes_of_boot {mem : Words} {i₀ : Instr} (hi : (boot mem).Executes window i₀) (h : Hart) :
    h.writes i₀ = ∅ := by
  rw [Hart.writes]
  cases hr : (h.effect i₀).request with
  | none => rfl
  | some r => exact (not_access_of_boot hi _ _ r hr).2.2.1

/-! ## Runs -/

open Difftest

theorem hart_init (ram : Ram) : (init ram).hart = boot ram.mem := by
  refine Hart.ext rfl (funext fun r => ?_) rfl
  by_cases hr : r = 0#5
  · exact dif_pos hr
  · exact dif_neg hr

def reports (s : ℕ → SimTop) (i : ℕ → In) (t : ℕ) : Report := (s t).report (i t)

/-- The bytes of the program, after the clock edge. -/
def images (s : ℕ → SimTop) (size : ℕ) (t : ℕ) : List (BitVec 8) :=
  image (s (t + 1)).stack.ram.mem size

variable {R : Type*}

/-- The computer executes a program, whose image has a size, with a reference. -/
structure Cosim (s : ℕ → SimTop) (i : ℕ → In) (x : ℕ → Hart) (instr : ℕ → Instr) (p : Proxy R)
    (hart : R → Hart) (d₀ : Difftest R) (size : ℕ) : Prop where
  run : machine.IsRun s i
  program : ∀ k, (x k).Executes window (instr k) ∧ x (k + 1) = (x k).execute (instr k)
  start : (s 0).hart = x 0
  size_le : size ≤ EMU_RAM_SIZE
  reference : p.Simulates hart
  fresh : Fresh d₀
  /-- What the program reads behind its image before it has written it is the same in both
      memories. -/
  mem : ∀ a ∈ inputs x instr, size ≤ (a - 0x80000000#64).toNat →
    (hart d₀.proxy).mem a = (x 0).mem a

namespace Cosim

variable {s : ℕ → SimTop} {i : ℕ → In} {x : ℕ → Hart} {instr : ℕ → Instr} {p : Proxy R}
  {hart : R → Hart} {d₀ : Difftest R} {size t t₀ : ℕ}

theorem runs (c : Cosim s i x instr p hart d₀ size) : Runs s i x :=
  SimTop.runs (isRun_released c.run) (fun k => ⟨_, c.program k⟩) c.start

theorem succ (c : Cosim s i x instr p hart d₀ size) (n : ℕ) : s (n + 1) = (s n).next (i n) false :=
  c.run.next n

theorem commits_eq (n : ℕ) : commits (reports s i) n =
    Nat.count (fun k => (s k).commit (i k) = true) n := by
  induction n with
  | zero => rfl
  | succ n ih =>
    rw [commits_succ, ih, Nat.count_succ]
    exact congrArg _ width_report

/-- Before a cycle, as many instructions are executed as were reported. -/
theorem hart_eq (c : Cosim s i x instr p hart d₀ size) (n : ℕ) :
    (s n).hart = x (commits (reports s i) n) := by
  rw [commits_eq]
  exact c.runs.hart n

theorem commit_of_width (h : (reports s i t).width ≠ 0) :
    (s t).commit (i t) = true ∧ (reports s i t).width = 1 := by
  have hw : (reports s i t).width = if (s t).commit (i t) then 1 else 0 := width_report
  cases hc : (s t).commit (i t) with
  | true => exact ⟨rfl, by rw [hw, hc]; rfl⟩
  | false =>
    rw [hw, hc] at h
    exact absurd rfl h

theorem width_of_commit (h : (s t).commit (i t) = true) : (reports s i t).width ≠ 0 := by
  have hw : (reports s i t).width = if (s t).commit (i t) then 1 else 0 := width_report
  rw [hw, if_pos h]
  exact Nat.one_ne_zero

/-- The computer is always in time. -/
theorem not_stuck (c : Cosim s i x instr p hart d₀ size) (t : ℕ) : ¬Stuck (reports s i) t := by
  rintro ⟨ht, h⟩
  obtain ⟨k, hlo, hhi, hc⟩ := c.runs.commits (t - 5000)
  exact width_of_commit hc (h k (by omega) (by omega))

theorem pc_eq (c : Cosim s i x instr p hart d₀ size) (hc : (s t).commit (i t) = true) :
    (reports s i t).pc = (x (commits (reports s i) t)).pc := by
  rw [← c.hart_eq t]
  exact pc_report hc

theorem boot_eq (c : Cosim s i x instr p hart d₀ size) : x 0 = boot (s 0).stack.ram.mem := by
  obtain ⟨ram, h⟩ := c.run.init
  rw [← c.start, ← h]
  exact hart_init ram

/-- What is reported with a commit. -/
theorem dutRegs_eq (c : Cosim s i x instr p hart d₀ size) (hc : (s t).commit (i t) = true) :
    dutRegs d₀ (reports s i) t = packed (x (commits (reports s i) t + 1)).x
      (x (commits (reports s i) t)).pc d₀.dut.regs := by
  obtain ⟨hinv, hrep⟩ := reported_inv.of_isRun c.run t
  have hgpr : (reports s i t).gpr = (x (commits (reports s i) t + 1)).x := by
    refine (gpr_report hinv hrep hc).trans ?_
    rw [← c.succ, c.hart_eq, commits_succ, (commit_of_width (width_of_commit hc)).2]
  rw [dutRegs, c.pc_eq hc, packed, ← hgpr]
  rfl

/-! ### The reference -/

/-- The reference has the other registers as they were. -/
def Tracks (p : Proxy R) (hart : R → Hart) (old : RegState) (r : R) : Prop :=
  p.regcpyToDut r = packed (hart r).x (hart r).pc old

theorem Tracks.pc {old : RegState} {r : R} (h : Tracks p hart old r) :
    p.regcpyToDut r thisPc = (hart r).pc := by rw [h, packed_thisPc]

theorem Tracks.ofComputer {old : RegState} {r : R} (h : Tracks p hart old r) :
    OfComputer (p.regcpyToDut r) := by
  rw [h]
  exact ofComputer_packed (hart r).x_zero _ _

theorem tracks_exec (c : Cosim s i x instr p hart d₀ size) {old : RegState} {r : R} {j : Instr}
    (h : Tracks p hart old r) (hx : (hart r).Executes window j) :
    Tracks p hart old (p.exec r) := by
  have hc := h.ofComputer
  obtain ⟨-, hkept⟩ := c.reference.exec r j hc hx
  have hc' : OfComputer (p.regcpyToDut (p.exec r)) := by
    refine ⟨(hkept 0 (.inl rfl)).trans hc.1, fun k hk => ?_⟩
    have hne : k ≠ thisPc := fun h => absurd (congrArg Fin.val h) hk.ne'
    exact (hkept k (.inr ⟨by omega, hne⟩)).trans (hc.2 k hk)
  refine eq_packed (c.reference.gpr _ hc') (c.reference.pc _ hc') fun k hk hne => ?_
  rw [hkept k (.inr ⟨hk, hne⟩), h]
  exact packed_of_le hk hne

theorem bytes_rebase (m : Words) {a : BitVec 64} (ha : a ∈ window) :
    m.rebase.bytes a = m.bytes (a - 0x80000000#64) := by
  have hlo := BitVec.le_def.1 ha.1
  have hmod : a.toNat % 8 = (a - 0x80000000#64).toNat % 8 := by
    rw [BitVec.toNat_sub]
    simp only [BitVec.toNat_ofNat] at *
    omega
  rw [Words.bytes, Words.rebase, Words.sub_eq_wordAt (inWindow_of_mem ha), hmod]
  rfl

theorem pc_zero (c : Cosim s i x instr p hart d₀ size) : (x 0).pc = PCINIT := by
  rw [c.boot_eq]
  rfl

theorem boot_executes (c : Cosim s i x instr p hart d₀ size) :
    (boot (s 0).stack.ram.mem).Executes window (instr 0) := c.boot_eq ▸ (c.program 0).1

/-- The reference is loaded with the hart after the first instruction, at this instruction. -/
theorem agrees_loaded (c : Cosim s i x instr p hart d₀ size) (hf : First (reports s i) t₀) :
    Tracks p hart d₀.dut.regs (loaded p d₀ (reports s i) (images s size) t₀) ∧
      (again (x 1)).Agrees (inputs x instr)
        (hart (loaded p d₀ (reports s i) (images s size) t₀)) := by
  obtain ⟨hw, h0⟩ := hf
  have hc := (commit_of_width hw).1
  have hregs := c.dutRegs_eq hc
  rw [h0, c.pc_zero] at hregs
  have hof : OfComputer (packed (x 1).x PCINIT d₀.dut.regs) := ofComputer_packed (x 1).x_zero _ _
  obtain ⟨hout, hmem⟩ := c.reference.regcpy (dutRegs d₀ (reports s i) t₀)
    (p.memcpyToRef 0x80000000#64 (images s size t₀) d₀.proxy) (hregs ▸ hof)
  have hout' : p.regcpyToDut (loaded p d₀ (reports s i) (images s size) t₀) =
      packed (x 1).x PCINIT d₀.dut.regs := hout.trans hregs
  have hof' : OfComputer (p.regcpyToDut (loaded p d₀ (reports s i) (images s size) t₀)) :=
    hout' ▸ hof
  have hx : (hart (loaded p d₀ (reports s i) (images s size) t₀)).x = (x 1).x :=
    funext fun k => by rw [← c.reference.gpr _ hof', hout', packed_gprIndex]
  have hp : (hart (loaded p d₀ (reports s i) (images s size) t₀)).pc = PCINIT := by
    rw [← c.reference.pc _ hof', hout', packed_thisPc]
  refine ⟨by rw [Tracks, hx, hp, hout'], hp.symm, hx.symm, fun a ha => ?_⟩
  change (x 1).mem a = _
  have hmem₁ : (x 1).mem = (s (t₀ + 1)).stack.ram.mem.rebase.bytes := by
    have h := c.hart_eq (t₀ + 1)
    rw [commits_succ, h0, (commit_of_width hw).2] at h
    rw [← h]
    rfl
  have hsize : (images s size t₀).length ≤ EMU_RAM_SIZE := by
    rw [images, image, List.length_map, List.length_range]
    exact c.size_le
  rw [loaded, hmem, c.reference.memcpy _ _ hsize, images, image, List.getElem?_map]
  by_cases hlt : (a - 0x80000000#64).toNat < size
  · have hwin : a ∈ window := inputs_subset wordClosed_window (fun k => (c.program k).1) ha
    rw [List.getElem?_range hlt, Option.map_some, Option.getD_some, hmem₁, bytes_rebase _ hwin,
      BitVec.ofNat_toNat, BitVec.setWidth_eq]
  · have hnone : (List.range size)[(a - 0x80000000#64).toNat]? = none := by
      rw [List.getElem?_eq_none_iff, List.length_range]
      omega
    rw [hnone, Option.map_none, Option.getD_none, c.mem a ha (not_lt.1 hlt), (c.program 0).2,
      c.boot_eq, mem_execute_of_boot c.boot_executes]

/-- The reference after the first instruction, which it executes once more. -/
theorem exec_loaded (c : Cosim s i x instr p hart d₀ size) (hf : First (reports s i) t₀) :
    Tracks p hart d₀.dut.regs (p.exec (loaded p d₀ (reports s i) (images s size) t₀)) ∧
      ((again (x 1)).execute (instr 0)).Agrees (inputs x instr)
        (hart (p.exec (loaded p d₀ (reports s i) (images s size) t₀))) := by
  obtain ⟨htracks, hagrees⟩ := c.agrees_loaded hf
  have hagain : (again (x 1)).Executes window (instr 0) := by
    rw [(c.program 0).2, c.boot_eq]
    exact executes_again c.boot_executes
  -- It only reads itself.
  have hreads : (again (x 1)).reads (instr 0) ⊆ inputs x instr := by
    refine Eq.trans_subset ?_ (reads_zero_subset (x := x) (i := instr))
    rw [reads_of_boot c.boot_executes, reads_of_boot c.boot_executes, c.pc_zero]
    rfl
  obtain ⟨hex, hnext⟩ := hagrees.execute_of_reads hreads hagain
  refine ⟨c.tracks_exec htracks hex, ?_⟩
  rw [(c.reference.exec _ _ htracks.ofComputer hex).1]
  exact hnext.mono Set.subset_union_left

/-- From then on, it is the hart, if the first instruction has changed nothing. -/
theorem exec_succ (c : Cosim s i x instr p hart d₀ size) (hf : First (reports s i) t₀)
    (h : (again (x 1)).execute (instr 0) = x 1) (k : ℕ) :
    Tracks p hart d₀.dut.regs (p.exec^[k + 1] (loaded p d₀ (reports s i) (images s size) t₀)) ∧
      (x (k + 1)).Agrees (inputs x instr ∪ written x instr (k + 1))
        (hart (p.exec^[k + 1] (loaded p d₀ (reports s i) (images s size) t₀))) := by
  induction k with
  | zero =>
    have hl := c.exec_loaded hf
    rw [h] at hl
    rwa [written_succ, written_zero, writes_of_boot c.boot_executes, Set.union_empty,
      Set.union_empty]
  | succ k ih =>
    obtain ⟨hj, hstep⟩ := c.program (k + 1)
    obtain ⟨hex, hnext⟩ := agrees_succ subset_rfl hj hstep ih.2
    rw [iterate_succ_apply']
    refine ⟨c.tracks_exec ih.1 hex, ?_⟩
    rw [(c.reference.exec _ _ ih.1.ofComputer hex).1]
    exact hnext

/-- What the registers are compared with. -/
theorem refRegs_eq
    (ht : Tracks p hart d₀.dut.regs (p.exec^[commits (reports s i) (t + 1)]
      (loaded p d₀ (reports s i) (images s size) t₀))) :
    refRegs p d₀ (reports s i) (images s size) t₀ t =
      packed (hart (p.exec^[commits (reports s i) (t + 1)]
          (loaded p d₀ (reports s i) (images s size) t₀))).x
        (if commits (reports s i) t = 0 then FIRST_INST_ADDRESS
          else p.regcpyToDut (p.exec^[commits (reports s i) t]
            (loaded p d₀ (reports s i) (images s size) t₀)) thisPc) d₀.dut.regs := by
  rw [refRegs, ht, packed, packed, update_idem]

theorem first_pc (c : Cosim s i x instr p hart d₀ size) (hf : First (reports s i) t) :
    (reports s i t).pc = FIRST_INST_ADDRESS := by
  rw [c.pc_eq (commit_of_width hf.1).1, hf.2, c.pc_zero]
  rfl

theorem matches_of_again (c : Cosim s i x instr p hart d₀ size)
    (h : (again (x 1)).execute (instr 0) = x 1) (t : ℕ) :
    Matches p d₀ (reports s i) (images s size) t := by
  intro t₀ hf _ hw
  obtain ⟨hc, hone⟩ := commit_of_width hw
  have hsucc : commits (reports s i) (t + 1) = commits (reports s i) t + 1 := by
    rw [commits_succ, hone]
  obtain ⟨htracks, hagrees⟩ := c.exec_succ hf h (commits (reports s i) t)
  rw [c.dutRegs_eq hc, refRegs_eq (hsucc ▸ htracks), hsucc, packed_inj]
  refine ⟨hagrees.x, ?_⟩
  split
  next h0 =>
    rw [h0, c.pc_zero]
    rfl
  next h0 =>
    obtain ⟨k, hk⟩ := Nat.exists_eq_succ_of_ne_zero h0
    obtain ⟨htracks', hagrees'⟩ := c.exec_succ hf h k
    rw [hk, htracks'.pc]
    exact hagrees'.pc

/-- The next commit. -/
theorem exists_next (c : Cosim s i x instr p hart d₀ size) (n : ℕ) : ∃ k, n ≤ k ∧ k ≤ n + 519 ∧
    (s k).commit (i k) = true ∧ commits (reports s i) k = commits (reports s i) n := by
  obtain ⟨k, hn, hle, hc⟩ := c.runs.commits n
  have hex : ∃ k, n ≤ k ∧ (s k).commit (i k) = true := ⟨k, hn, hc⟩
  obtain ⟨hn', hc'⟩ := Nat.find_spec hex
  have hmin := Nat.find_min' hex ⟨hn, hc⟩
  refine ⟨Nat.find hex, hn', hmin.trans hle, hc', ?_⟩
  -- There is none before it.
  suffices h : ∀ u, n ≤ u → u ≤ Nat.find hex →
      commits (reports s i) u = commits (reports s i) n from h _ hn' le_rfl
  intro u hu
  induction u, hu using Nat.le_induction with
  | base => exact fun _ => rfl
  | succ u hnu ih =>
    intro hlt
    have hw : (reports s i u).width = 0 := by
      by_contra hw
      exact Nat.find_min hex hlt ⟨hnu, (commit_of_width hw).1⟩
    rw [commits_succ, hw, ih (by omega), Nat.add_zero]

/-- The first two commits show what the first instruction has changed. -/
theorem again_of_matches (c : Cosim s i x instr p hart d₀ size)
    (hm : ∀ t < 1040, Matches p d₀ (reports s i) (images s size) t) :
    (again (x 1)).execute (instr 0) = x 1 := by
  obtain ⟨t₀, -, hle, hc, h0⟩ := c.exists_next 0
  have hf : First (reports s i) t₀ := ⟨width_of_commit hc, h0⟩
  have hone : commits (reports s i) (t₀ + 1) = 1 := by
    rw [commits_succ, hf.2, (commit_of_width hf.1).2]
  obtain ⟨t₁, hlt, hle₁, hc₁, hone₁⟩ := c.exists_next (t₀ + 1)
  rw [hone] at hone₁
  obtain ⟨htracks, hagrees⟩ := c.exec_loaded hf
  -- The first commit compares the registers, and the second one the program counter.
  have hregs := hm t₀ (by omega) t₀ hf le_rfl hf.1
  rw [c.dutRegs_eq hc, refRegs_eq (by rw [hone]; exact htracks), hf.2, hone, packed_inj] at hregs
  have hpc := congrFun (hm t₁ (by omega) t₀ hf (by omega) (width_of_commit hc₁)) thisPc
  rw [dutRegs, refRegs, update_self, update_self, c.pc_eq hc₁, hone₁, if_neg Nat.one_ne_zero] at hpc
  refine Hart.ext ?_ ?_ ?_
  · exact hagrees.pc.trans (htracks.pc.symm.trans hpc.symm)
  · exact hagrees.x.trans hregs.1.symm
  · exact mem_execute_of_boot c.boot_executes _

end Cosim

/-! ## A reference -/

/-- The words that have given bytes. -/
def ofBytes (m : Mem 64) : Words := fun idx => m.read (idx <<< 3) 8

theorem bytes_ofBytes (m : Mem 64) : (ofBytes m).bytes = m := by
  funext a
  have ha : (a >>> 3) <<< 3 + BitVec.ofNat 64 (a.toNat % 8) = a := by
    apply BitVec.eq_of_toNat_eq
    have := a.isLt
    rw [BitVec.toNat_add, BitVec.toNat_shiftLeft, BitVec.toNat_ushiftRight, BitVec.toNat_ofNat,
      Nat.shiftLeft_eq, Nat.shiftRight_eq_div_pow]
    omega
  apply BitVec.eq_of_getLsbD_eq
  intro j hj
  have hlt : a.toNat % 8 < 8 := Nat.mod_lt _ (by decide)
  rw [Words.bytes, ofBytes, Words.byte, BitVec.getLsbD_extractLsb', decide_eq_true hj,
    Bool.true_and, Mem.getLsbD_read _ _ (by omega), show (8 * (a.toNat % 8) + j) / 8 = a.toNat % 8
    by omega, show (8 * (a.toNat % 8) + j) % 8 = j by omega, ha]

/-- The registers of the sequential machine, with the other registers. -/
def regState (r : Arch × RegState) : RegState :=
  update (fun j => if j.1 < 32 then r.1.regs.read (BitVec.ofNat 5 j.1) else r.2 j) thisPc r.1.pc

section RegState

variable {r : Arch × RegState} {j : Fin DIFFTEST_NR_REG}

theorem regState_thisPc : regState r thisPc = r.1.pc := by rw [regState, update_self]

theorem regState_of_lt (hj : j.1 < 32) :
    regState r j = r.1.regs.read (BitVec.ofNat 5 j.1) := by
  have hne : j ≠ thisPc := fun h => absurd (h ▸ hj) (by decide)
  rw [regState, update_of_ne hne, if_pos hj]

theorem regState_of_le (hj : 32 ≤ j.1) (hne : j ≠ thisPc) : regState r j = r.2 j := by
  rw [regState, update_of_ne hne, if_neg (not_lt.2 hj)]

end RegState

/-- The sequential machine as a reference. -/
def archProxy : Proxy (Arch × RegState) where
  exec r := (r.1.step, r.2)
  regcpyToDut := regState
  regcpyToRef v r := ({ r.1 with pc := v thisPc, regs := fun k => v (gprIndex k.1) }, v)
  memcpyToRef addr img r :=
    ({ r.1 with mem := ofBytes fun a => (img[(a - addr).toNat]?).getD (r.1.mem.bytes a) }, r.2)
  uarchstatusCpy _ _ r := r
  guidedExec _ r := r
  raiseIntr _ r := r
  storeCommit _ _ _ r := (false, r)

theorem simulates_archProxy : archProxy.Simulates fun r => r.1.hart where
  gpr r _ k := by
    refine (regState_of_lt (j := gprIndex k) k.isLt).trans ?_
    exact congrArg r.1.regs.read ((BitVec.ofNat_toNat 5 k).trans (BitVec.setWidth_eq k))
  pc r _ := regState_thisPc
  exec r j _ hx := by
    refine ⟨Arch.hart_step hx, ?_⟩
    rintro k (rfl | ⟨hk, hne⟩)
    · rfl
    · exact (regState_of_le hk hne).trans (regState_of_le (r := r) hk hne).symm
  regcpy v r hv := by
    refine ⟨funext fun j => ?_, rfl⟩
    change regState ({ r.1 with pc := v thisPc, regs := fun k => v (gprIndex k.1) }, v) j = v j
    by_cases hlt : j.1 < 32
    · have hi : gprIndex (BitVec.ofNat 5 j.1) = j := Fin.ext (Nat.mod_eq_of_lt hlt)
      rw [regState_of_lt hlt]
      by_cases hz : BitVec.ofNat 5 j.1 = 0#5
      · rw [hz] at hi ⊢
        rw [← hi]
        exact hv.1.symm
      · exact (Regs.read_of_ne _ hz).trans (congrArg v hi)
    · by_cases hj : j = thisPc
      · rw [hj, regState_thisPc]
      · exact regState_of_le (not_lt.1 hlt) hj
  memcpy img r _ a := congrFun (bytes_ofBytes _) a

/-- The test after its construction, with a memory for the reference. -/
def fresh (mem : Words) : Difftest (Arch × RegState) where
  proxy := (⟨PCINIT, fun _ => 0#64, mem⟩, fun _ => 0#64)
  numCommit := 0#32
  hasCommit := false
  dut :=
    { trap := ⟨false, 0#8⟩
      event := ⟨0#32, 0#32, 0#64⟩
      commit := fun _ => ⟨false, 0#64, 0#32, false, false, false, false, 0#8, 0#64⟩
      regs := fun _ => 0#64
      store := fun _ => ⟨false, 0#64, 0#64, 0#8⟩ }
  ref := fun _ => 0#64
  progress := false
  ticks := 0#64
  lastCommit := 0#64
  nemuThisPc := 0#64

/-- The run of a program that reads only its image, with this reference, which has another
    memory. -/
theorem cosim_fresh {mem : Words} {x : ℕ → Hart} {instr : ℕ → Instr} {size : ℕ}
    (hx : ∀ k, (x k).Executes window (instr k) ∧ x (k + 1) = (x k).execute (instr k))
    (h0 : x 0 = boot mem) (hs : size ≤ EMU_RAM_SIZE)
    (hin : ∀ a ∈ inputs x instr, (a - 0x80000000#64).toNat < size) (mem' : Words) (i : ℕ → In) :
    Cosim (machine.run (init (.ofMem mem)) i) i x instr archProxy (fun r => r.1.hart)
      (fresh mem') size where
  run := machine.isRun_run ⟨_, rfl⟩ fun _ => trivial
  program := hx
  start := (hart_init _).trans h0.symm
  size_le := hs
  reference := simulates_archProxy
  fresh := ⟨rfl, rfl, rfl, ⟨rfl, rfl⟩, fun _ => rfl, fun _ => rfl⟩
  mem a ha hle := absurd (hin a ha) (not_lt.2 hle)

/-- A memory full of `jal x0, 0`. -/
def spinMem : Words := fun _ => 0x0000006f0000006f#64

theorem executes_spin : (boot spinMem).Executes window (.jal 0#20 0#5) where
  aligned := (by decide : PCINIT.toNat % 4 = 0)
  mem := (⟨by decide, by decide⟩ : PCINIT ∈ window)
  fetch := by
    change spinMem.rebase.bytes.read PCINIT 4 = _
    decide
  valid r hr := absurd hr (Option.not_mem_none r)

theorem execute_spin : (boot spinMem).execute (.jal 0#20 0#5) = boot spinMem := by
  refine Hart.ext ?_ (funext fun r => if_neg fun h => h.2 h.1) rfl
  change PCINIT + offset 0#20 = PCINIT
  decide

end SimTop

end RiscvCpu
