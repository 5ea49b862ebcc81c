import RiscvCpu.Core.Progress
import RiscvCpu.Core.Retirement
import RiscvCpu.Memory
import RiscvCpu.Rv64.Hart

/-!
# The core as a sequential machine

A programmer sees the program counter, the registers and the memory (`Arch`), and a
step that fetches an instruction, evaluates the network on it once, and writes its
results (`Arch.step`). The core, with the memory behind its buses (`Computer`), takes
many cycles for an instruction, with any delays; its commits are the steps, in order, and
between them nothing changes (`refines`, `core_refines`).
-/

namespace RiscvCpu

open Sync Rv64

/-! ## Memory -/

namespace Words

/-- The word that holds the byte at an address. -/
def word (m : Words) (addr : BitVec 64) : BitVec 64 := m.readHelper (addr >>> 3)

/-- The half word that a fetch returns. -/
def fetch (m : Words) (pc : BitVec 64) : BitVec 32 :=
  if pc.getLsbD 2 then (m.word pc).extractLsb 63 32 else (m.word pc).extractLsb 31 0

/-- The memory after a request on the data bus. -/
def access (m : Words) (dreq : DbusReq) : Words :=
  if dreq.valid then m.writeHelper (dreq.addr >>> 3) dreq.data (wmask dreq.strobe) else m

end Words

/-! ## The sequential machine -/

/-- What a programmer sees. -/
@[ext]
structure Arch where
  pc : BitVec 64
  regs : Regs
  mem : Words

namespace Regs

variable (regs : Regs)

/-- The registers after a write. -/
def commit (write : Option (BitVec 5 × BitVec 64)) : Regs := fun r => setReg regs.read write r.1

theorem commit_none : regs.commit none = regs := funext fun r => read_of_ne regs r.2

/-- The write port of the register file does it. -/
theorem commit_some (rd : BitVec 5) (v : BitVec 64) : regs.commit (some (rd, v)) =
    regs.write rd v :=
  funext fun r => (regs.read_write rd r.1 v).symm.trans (read_of_ne _ r.2)

end Regs

namespace Arch

variable (t : Arch)

def instr : BitVec 32 := t.mem.fetch t.pc

/-- The network of the core, on the current instruction. -/
def net : Wires := wires default t.regs t.pc t.instr

/-- What is written back, given the word in memory and exact products and quotients. -/
def writeregdata : BitVec 64 :=
  t.net.writeregdata (t.net.readdata (t.mem.word t.net.dreq.addr))
    (product t.net.mulIn.w t.net.mulIn.a t.net.mulIn.b)
    (remainder t.net.divIn.s t.net.divIn.w t.net.divIn.a t.net.divIn.b ++
      quot t.net.divIn.s t.net.divIn.w t.net.divIn.a t.net.divIn.b)

/-- One instruction. -/
def step : Arch where
  pc := t.net.nextPc
  regs := t.regs.commit (t.net.write t.writeregdata)
  mem := t.mem.access t.net.dreq

end Arch

/-! ## Answers -/

section Answers

variable (regs : Regs) (pc : BitVec 64)

/-- What an instruction writes back depends on an answer only if it asks for it. -/
theorem write_congr {word : BitVec 32} (h : Legal word) (held held' : Control)
    {readdata readdata' mulres mulres' : BitVec 64} {divres divres' : BitVec 128}
    (hr : asksMem word = true → (wires held regs pc word).strobe = 0#8 → readdata = readdata')
    (hm : asksMul word = true → mulres = mulres') (hd : asksDiv word = true → divres = divres') :
    (wires held regs pc word).write
        ((wires held regs pc word).writeregdata readdata mulres divres) =
      (wires held' regs pc word).write
        ((wires held' regs pc word).writeregdata readdata' mulres' divres') := by
  obtain ⟨i, rfl⟩ := h
  rw [(datapath_correct held regs pc i).write, (datapath_correct held' regs pc i).write]
  cases i with
  | mulDiv op w rs2 rs1 rd =>
    rw [asksMul, asksDiv, opcode_encode] at *
    cases w with
    | false =>
      rw [(func_encode (.inl rfl)).1, (func_encode (.inl rfl)).2] at *
      cases op with
      | mul => rw [hm rfl]; rfl
      | _ => rw [hd rfl]; rfl
    | true =>
      rw [(func_encode (.inr rfl)).1, (func_encode (.inr rfl)).2] at *
      cases op with
      | mul => rw [hm rfl]; rfl
      | _ => rw [hd rfl]; rfl
  | load op imm rs1 rd =>
    -- The data read matters: a load has no strobe, so that the answer is the word in memory.
    have hstrobe : (wires held regs pc (Instr.load op imm rs1 rd).encode).strobe = 0#8 := by
      rw [wires, decode_encode]
      simp only [decoded, controlunit_load]
      rfl
    rw [asksMem, opcode_encode] at hr
    rw [hr rfl hstrobe]
    rfl
  | _ => rfl

end Answers

/-! ## The core with its memory -/

/-- The core and the memory behind its buses. -/
structure Computer where
  core : Core
  mem : Words

namespace Computer

open RiscvCpu.Core

variable (s : Computer) (i : In)

def arch : Arch := { pc := s.core.pc, regs := s.core.regs, mem := s.mem }

/-- An instruction is committed. -/
def commit : Bool := s.core.ifHoldPc i

/-- The core, in an environment that answers fetches and loads with the contents of
    memory, and does a store when it answers it. -/
def machine : Machine Computer In where
  init := {s | s.core = Core.init}
  admits s := {i | i ∈ Core.machine.admits s.core ∧
    (i.iresp.dataOk = true → i.iresp.data = s.mem.fetch s.core.pc) ∧
    (i.dresp.dataOk = true → (s.core.dreq i).strobe = 0#8 →
      i.dresp.data = s.mem.word (s.core.dreq i).addr)}
  next s i :=
    { core := s.core.next i false
      mem := if i.dresp.dataOk then s.mem.access (s.core.dreq i) else s.mem }

theorem isRun_core {s : ℕ → Computer} {i : ℕ → In} (hr : machine.IsRun s i) :
    Core.machine.IsRun (fun n => (s n).core) i where
  init := hr.init
  admits n := (hr.admits n).1
  next n := congrArg core (hr.next n)

/-! ## Phases -/

variable {s i}

/-- The phases of the core on a legal program: what is executed is the current
    instruction. -/
inductive Sound (s : Computer) : Prop
  | fetching (h : Fetching s.core) (hcurr : s.core.currInstr = 0#32)
  | executing (h : Executing s.core) (hcurr : s.core.currInstr = s.arch.instr)

/-- The current instruction, and all that are to come, are legal. -/
def Program (t : Arch) : Prop := ∀ k, Legal (Arch.step^[k] t).instr

theorem Program.instr {t : Arch} (h : Program t) : Legal t.instr := h 0

theorem Program.step {t : Arch} (h : Program t) : Program t.step := fun k => h (k + 1)

/-- The word under evaluation is the current instruction, but in a cycle that waits for
    a fetch. -/
theorem Sound.instr_eq (h : Sound s) (hi : i ∈ machine.admits s)
    (hf : s.core.ireqValid = true → i.iresp.dataOk = true) : s.core.instr i = s.arch.instr := by
  cases h with
  | fetching h _ =>
    have hf := hf h.ireqValid
    exact (instr_of_dataOk hf).trans (hi.2.1 hf)
  | executing h hcurr => exact (h.instr_eq hi.1).2.trans hcurr

/-- A commit of a fetch comes with the response. -/
theorem Sound.dataOk_of_commit (h : Sound s) (hi : i ∈ machine.admits s) (hc : s.commit i = true)
    (hv : s.core.ireqValid = true) : i.iresp.dataOk = true := by
  cases h with
  | fetching h _ =>
    by_contra hf
    have hw := (h.wait hi.1 (eq_false_of_ne_true hf)).1
    exact absurd hc (ne_true_of_eq_false hw)
  | executing h _ => exact absurd hv (ne_true_of_eq_false h.ireqValid)

/-- A commit of what asks for something comes with one of the answers. -/
theorem answered_of_commit (hc : s.commit i = true) (ha : asks (s.core.instr i) = true) :
    i.dresp.dataOk = true ∨ s.core.mul.done = true ∨ s.core.div.done = true := by
  have hc' : s.core.ifHoldPc i = true := hc
  rwa [ifHoldPc_eq, ha, Bool.not_true, Bool.and_false, Bool.false_or, Bool.or_assoc,
    Bool.or_eq_true, Bool.or_eq_true] at hc'

/-- An answer of a unit comes while the instruction is executed. -/
theorem Sound.executing_of_done (h : Sound s)
    (hd : s.core.mul.done = true ∨ s.core.div.done = true) : Executing s.core := by
  cases h with
  | fetching h _ =>
    rcases hd with hd | hd
    · exact absurd hd (ne_true_of_eq_false h.mul.done)
    · exact absurd hd (ne_true_of_eq_false h.div.done)
  | executing h _ => exact h

/-- A commit of what asks the memory comes with its answer. -/
theorem Sound.dresp_of_commit (h : Sound s) (hi : i ∈ machine.admits s) (hc : s.commit i = true)
    (hm : asksMem (s.core.instr i) = true) : i.dresp.dataOk = true := by
  refine (answered_of_commit hc (by simp [asks, hm])).resolve_right fun hd => ?_
  have he := h.executing_of_done hd
  rw [(he.instr_eq hi.1).2] at hm
  obtain ⟨hmul, hdiv⟩ := he.mem hm
  rcases hd with hd | hd
  · exact absurd hd (ne_true_of_eq_false hmul.done)
  · exact absurd hd (ne_true_of_eq_false hdiv.done)

/-- What asks the memory waits for its answer. -/
theorem Sound.waits (h : Sound s) (hi : i ∈ machine.admits s)
    (hm : asksMem (s.core.instr i) = true) (hd : i.dresp.dataOk = false) : s.commit i = false := by
  by_contra hc
  exact absurd (h.dresp_of_commit hi (eq_true_of_ne_false hc) hm) (ne_true_of_eq_false hd)

/-- A commit of what asks a unit comes while the instruction is executed. -/
theorem Sound.executing_of_commit (h : Sound s) (hi : i ∈ machine.admits s)
    (hc : s.commit i = true) (ha : asks (s.core.instr i) = true)
    (hm : asksMem (s.core.instr i) = false) :
    Executing s.core ∧ (s.core.mul.done = true ∨ s.core.div.done = true) := by
  have hd : s.core.mul.done = true ∨ s.core.div.done = true := by
    refine (answered_of_commit hc ha).resolve_left fun hd => ?_
    exact absurd (asksMem_of_dataOk hi.1 hd) (ne_true_of_eq_false hm)
  exact ⟨h.executing_of_done hd, hd⟩

/-- A commit of a multiplication comes with the product. -/
theorem Sound.mulres_of_commit (h : Sound s) (hi : i ∈ machine.admits s) (hc : s.commit i = true)
    (hm : asksMul (s.core.instr i) = true) : s.core.mulres i =
      product (s.core.mulIn i).w (s.core.mulIn i).a (s.core.mulIn i).b := by
  obtain ⟨he, hd⟩ := h.executing_of_commit hi hc (by simp [asks, hm]) (asksMul_excl hm).1
  have hinstr := (he.instr_eq hi.1).2
  obtain ⟨hmul, hdiv⟩ := he.mul (hinstr ▸ hm)
  have hdone : s.core.mul.done = true :=
    hd.resolve_right fun hd => absurd hd (ne_true_of_eq_false hdiv.done)
  rw [mulres, mulIn_exec hinstr]
  exact hmul.c_eq hdone

/-- A commit of a division comes with the remainder and the quotient. -/
theorem Sound.divres_of_commit (h : Sound s) (hi : i ∈ machine.admits s) (hc : s.commit i = true)
    (hm : asksDiv (s.core.instr i) = true) : s.core.divres i =
      remainder (s.core.divIn i).s (s.core.divIn i).w (s.core.divIn i).a (s.core.divIn i).b ++
        quot (s.core.divIn i).s (s.core.divIn i).w (s.core.divIn i).a (s.core.divIn i).b := by
  obtain ⟨he, hd⟩ := h.executing_of_commit hi hc (by simp [asks, hm]) (asksDiv_excl hm).1
  have hinstr := (he.instr_eq hi.1).2
  obtain ⟨hmul, hdiv⟩ := he.div (hinstr ▸ hm)
  have hdone : s.core.div.done = true :=
    hd.resolve_left fun hd => absurd hd (ne_true_of_eq_false hmul.done)
  rw [divres, divIn_exec hinstr]
  exact hdiv.c_eq hdone

/-! ## Commits are steps -/

theorem regs_next (s : Core) (i : In) (hc : s.ifHoldPc i = true) : (s.next i false).regs =
    s.regs.commit ((s.net i).write (s.writeregdata i)) := by
  have hw : s.ifWreg i = (s.net i).cu.wreg := ifWreg_of_hold hc
  cases hwreg : (s.net i).cu.wreg with
  | false => simp [Core.next, hw, hwreg, Wires.write, Regs.commit_none]
  | true =>
    simp only [Core.next, hw, hwreg, Wires.write, if_true, Bool.false_eq_true, if_false,
      Regs.commit_some]
    funext r
    by_cases hrd : r.1 = (s.net i).dec.rd
    · rw [Regs.write, if_pos hrd, Regs.write, if_pos hrd, regNextOut, if_pos rfl,
        if_neg (hrd ▸ r.2)]
    · rw [Regs.write, if_neg hrd, Regs.write, if_neg hrd]

/-- A commit is a step. -/
theorem arch_next_of_commit (h : Sound s) (hl : Legal s.arch.instr) (hi : i ∈ machine.admits s)
    (hc : s.commit i = true) : (machine.next s i).arch = s.arch.step := by
  have hinstr := h.instr_eq hi (h.dataOk_of_commit hi hc)
  have hnet : s.core.net i = wires i.held s.core.regs s.core.pc s.arch.instr := by rw [net, hinstr]
  have hdreq : s.core.dreq i = s.arch.net.dreq := by
    rw [dreq, hnet]
    exact wires_dreq_congr ..
  have hmulIn : s.core.mulIn i = s.arch.net.mulIn := by
    rw [mulIn, hnet]
    exact wires_mulIn_congr ..
  have hdivIn : s.core.divIn i = s.arch.net.divIn := by
    rw [divIn, hnet]
    exact wires_divIn_congr ..
  have hpc : (s.core.next i false).pc = s.arch.step.pc := by
    rw [(next_of_hold hc).1, hnet]
    -- On a legal word, the next program counter does not depend on the retained values.
    obtain ⟨j, hj⟩ := hl
    rw [Arch.step, Arch.net, ← hj, (datapath_correct _ _ _ j).nextPc]
    exact (datapath_correct _ _ _ j).nextPc.symm
  have hregs : (s.core.next i false).regs = s.arch.step.regs := by
    rw [regs_next _ _ hc, Core.writeregdata, hnet]
    refine congrArg s.core.regs.commit (write_congr _ _ hl _ _ ?_ ?_ ?_)
    · intro hm hs
      rw [← hinstr] at hm
      have hstrobe : (s.core.dreq i).strobe = 0#8 := by
        rw [dreq, hnet]
        exact hs
      rw [hi.2.2 (h.dresp_of_commit hi hc hm) hstrobe, hdreq]
      exact wires_readdata_congr ..
    · intro hm
      rw [h.mulres_of_commit hi hc (hinstr ▸ hm), hmulIn]
    · intro hm
      rw [h.divres_of_commit hi hc (hinstr ▸ hm), hdivIn]
  have hmem : (machine.next s i).mem = s.arch.step.mem := by
    have hstep : s.arch.step.mem = s.mem.access (s.core.dreq i) := by rw [hdreq]; rfl
    rw [hstep]
    change (if i.dresp.dataOk then _ else _) = _
    cases hd : i.dresp.dataOk with
    | true => rfl
    | false =>
      -- A commit without an answer is one of an instruction that asks for no data.
      have hv : (s.core.dreq i).valid = false := by
        rw [dreq_valid]
        by_contra hm
        exact absurd (h.dresp_of_commit hi hc (eq_true_of_ne_false hm)) (ne_true_of_eq_false hd)
      rw [Words.access, hv]
      rfl
  exact Arch.ext hpc hregs hmem

/-- Between commits, nothing changes. -/
theorem arch_next_of_wait (h : Sound s) (hi : i ∈ machine.admits s) (hc : s.commit i = false) :
    (machine.next s i).arch = s.arch := by
  have hregs : (s.core.next i false).regs = s.core.regs := by
    apply regs_of_not_wreg
    cases h with
    | fetching h hcurr =>
      cases hf : i.iresp.dataOk with
      | true => exact not_wreg_of_asks (asks_of_not_hold hf hc) hc
      | false =>
        rw [ifWreg_eq, not_wreg_zero ((instr_of_not_dataOk hf).trans hcurr)]
        rfl
    | executing h _ =>
      exact not_wreg_of_asks ((h.instr_eq hi.1).2 ▸ h.asks) hc
  have hmem : (machine.next s i).mem = s.mem := by
    have hd := hc
    simp only [commit, ifHoldPc_eq, Bool.or_eq_false_iff] at hd
    change (if i.dresp.dataOk then _ else _) = _
    rw [hd.1.1.2]
    rfl
  exact Arch.ext (next_of_not_hold hc).1 hregs hmem

/-- A legal program keeps the core sound. -/
theorem Sound.next (h : Sound s) (hl : Legal s.arch.instr) (hi : i ∈ machine.admits s) :
    Sound (machine.next s i) := by
  cases hc : s.commit i with
  | true =>
    have hinstr := h.instr_eq hi (h.dataOk_of_commit hi hc)
    have hf : Fetching (s.core.next i false) := by
      cases h with
      | fetching h _ => exact h.commit hi.1 hc
      | executing h _ => exact h.commit hi.1 hc
    refine .fetching hf ?_
    rcases currInstr_next s.core i with h0 | h0
    · exact h0
    · -- The word is kept only if it is half-decoded.
      refine hf.currInstr.resolve_right ?_
      rw [h0, hinstr]
      exact not_halfDecoded_of_legal hl
  | false =>
    have harch := arch_next_of_wait h hi hc
    obtain ⟨_, _, hcurr⟩ := next_of_not_hold hc
    cases h with
    | fetching h h0 =>
      cases hf : i.iresp.dataOk with
      | false =>
        refine .fetching (h.wait hi.1 hf).2 (hcurr.trans ?_)
        rw [instr_of_not_dataOk hf, h0]
        rfl
      | true =>
        have hinstr : s.core.instr i = s.arch.instr := (instr_of_dataOk hf).trans (hi.2.1 hf)
        -- A legal word is not silent: what waits is kept.
        have hk : keeps (s.core.instr i) = true := by
          by_contra hk
          refine not_silent_of_legal hl (silent_iff.2 ⟨?_, ?_⟩)
          · exact hinstr ▸ eq_false_of_ne_true hk
          · exact hinstr ▸ asks_of_not_hold hf hc
        refine .executing (h.start hf hc hk) ?_
        rw [harch, ← hinstr]
        exact hcurr.trans (if_pos hk)
    | executing h hcur =>
      refine .executing (h.wait hi.1 hc).1 ?_
      rw [harch, ← hcur]
      exact (h.wait hi.1 hc).2.1

/-- On legal programs, the computer does a step with every commit. -/
theorem refines : machine.Refines (fun s => Sound s ∧ Program s.arch) commit arch Arch.step where
  commits _ h _ hi hc := arch_next_of_commit h.1 h.2.instr hi hc
  waits _ h _ hi hc := arch_next_of_wait h.1 hi hc

section Run

variable {s : ℕ → Computer} {i : ℕ → In}

theorem sound_of_isRun (hr : machine.IsRun s i) (hp : Program (s 0).arch) (n : ℕ) :
    Sound (s n) ∧ Program (s n).arch := by
  refine hr.induction (P := fun s => Sound s ∧ Program s.arch) ⟨?_, hp⟩ (fun s h i hi => ?_) n
  · have h0 : (s 0).core = Core.init := hr.init
    exact .fetching (h0 ▸ fetching_init) (h0 ▸ rfl)
  · refine ⟨h.1.next h.2.instr hi, ?_⟩
    cases hc : s.commit i with
    | true =>
      rw [refines.commits s h i hi hc]
      exact h.2.step
    | false =>
      rw [refines.waits s h i hi hc]
      exact h.2

/-- The run of the core on a legal program is that of the sequential machine: it commits
    again and again, the `k`-th commit is the `k`-th step, and nothing changes in other
    cycles. -/
theorem core_refines (hr : machine.IsRun s i) (ha : Answered (fun n => (s n).core) i)
    (hp : ∀ k, Legal (Arch.step^[k] (s 0).arch).instr) :
    {n | (s n).commit (i n) = true}.Infinite ∧
    (∀ k, let n := Nat.nth (fun n => (s n).commit (i n) = true) k
      (s n).core.pc = (Arch.step^[k] (s 0).arch).pc ∧
      (s n).core.instr (i n) = (Arch.step^[k] (s 0).arch).instr ∧
      (s (n + 1)).arch = Arch.step^[k + 1] (s 0).arch) ∧
    (∀ n, (s n).commit (i n) = false → (s (n + 1)).arch = (s n).arch) := by
  have hP := sound_of_isRun hr hp
  have hsilent : ∀ n, (i n).iresp.dataOk = true → ¬Silent (i n).iresp.data := by
    intro n hf
    rw [(hr.admits n).2.1 hf]
    exact not_silent_of_legal (hP n).2.instr
  have hinf : {n | (s n).commit (i n) = true}.Infinite := by
    refine Set.infinite_of_forall_exists_gt fun n => ?_
    obtain ⟨k, hk, hc⟩ := exists_hold (isRun_core hr) ha hsilent (n + 1)
    exact ⟨k, hc, hk⟩
  refine ⟨hinf, fun k => ?_, fun n hc => ?_⟩
  · have hc := Nat.nth_mem_of_infinite hinf k
    obtain ⟨habs, hnext⟩ := refines.abs_nth hP hr hinf k
    refine ⟨congrArg Arch.pc habs, ?_, hnext⟩
    have hi := hr.admits (Nat.nth (fun n => (s n).commit (i n) = true) k)
    exact ((hP _).1.instr_eq hi ((hP _).1.dataOk_of_commit hi hc)).trans (congrArg Arch.instr habs)
  · rw [hr.next]
    exact refines.waits _ (hP n) _ (hr.admits n) hc

end Run

/-- Every third cycle, what is asked for is answered. -/
def slowEnv (n : ℕ) (s : Computer) : In :=
  if n % 3 ≠ 2 then .wait
  else if s.core.ireqValid then .fetch (s.mem.fetch s.core.pc)
  else if asksMem s.core.currInstr then
    let data := s.mem.word (s.core.dreq .wait).addr
    { In.wait with dresp := { addrOk := true, dataOk := true, data } }
  else .wait

section SlowEnv

variable {n : ℕ} {s : Computer}

theorem slowEnv_wait (h : n % 3 ≠ 2) : slowEnv n s = .wait := if_pos h

theorem slowEnv_fetch (h : n % 3 = 2) (hv : s.core.ireqValid = true) :
    slowEnv n s = .fetch (s.mem.fetch s.core.pc) := by
  rw [slowEnv, if_neg (not_not_intro h), if_pos hv]

theorem slowEnv_access (h : n % 3 = 2) (hv : s.core.ireqValid = false)
    (hm : asksMem s.core.currInstr = true) : (slowEnv n s).dresp.dataOk = true := by
  rw [slowEnv, if_neg (not_not_intro h), if_neg (ne_true_of_eq_false hv), if_pos hm]

theorem admits_slowEnv (n : ℕ) (s : Computer) : slowEnv n s ∈ machine.admits s := by
  rw [slowEnv]
  split
  next =>
    exact ⟨⟨fun h => absurd h Bool.false_ne_true, fun h => absurd h Bool.false_ne_true⟩,
      fun h => absurd h Bool.false_ne_true, fun h => absurd h Bool.false_ne_true⟩
  next =>
    split
    next hv =>
      exact ⟨⟨fun _ => hv, fun h => absurd h Bool.false_ne_true⟩, fun _ => rfl,
        fun h => absurd h Bool.false_ne_true⟩
    next =>
      split
      next hm =>
        refine ⟨⟨fun h => absurd h Bool.false_ne_true, fun _ => ?_⟩,
          fun h => absurd h Bool.false_ne_true, fun _ _ => rfl⟩
        rw [dreq_valid, instr_of_not_dataOk rfl, hm]
      next =>
        exact ⟨⟨fun h => absurd h Bool.false_ne_true, fun h => absurd h Bool.false_ne_true⟩,
          fun h => absurd h Bool.false_ne_true, fun h => absurd h Bool.false_ne_true⟩

/-- What is executed is answered. -/
theorem exists_answer {s : ℕ → Computer} (hr : machine.IsRun s fun n => slowEnv n (s n))
    (hs : ∀ n, Sound (s n)) {n : ℕ} (h : Executing (s n).core)
    (hm : asksMem (s n).core.currInstr = true) :
    ∃ k ≥ n, (slowEnv k (s k)).dresp.dataOk = true := by
  obtain ⟨k, hk, ⟨hek, hmk⟩, hlast⟩ := exists_of_rank (n := n)
    (P := fun k => Executing (s k).core ∧ asksMem (s k).core.currInstr = true)
    (E := fun k => k % 3 = 2) (fun k => 2 - k % 3) ⟨h, hm⟩ fun k _ ⟨hek, hmk⟩ hlast => by
      have hc := (hs k).waits (hr.admits k) ((hek.instr_eq (hr.admits k).1).2 ▸ hmk)
        (by rw [slowEnv_wait hlast]; rfl)
      obtain ⟨hnext, hcurr, -⟩ := hek.wait (hr.admits k).1 hc
      rw [hr.next]
      exact ⟨⟨hnext, hcurr ▸ hmk⟩, by omega⟩
  exact ⟨k, hk, slowEnv_access hlast hek.ireqValid hmk⟩

/-- With any program, all requests are answered. -/
theorem answered_slowEnv {s : ℕ → Computer} (hr : machine.IsRun s fun n => slowEnv n (s n))
    (hs : ∀ n, Sound (s n)) : Answered (fun n => (s n).core) fun n => slowEnv n (s n) where
  iresp n hv := by
    obtain ⟨k, hk, hvk, hlast⟩ := exists_of_rank (n := n)
      (P := fun k => (s k).core.ireqValid = true) (E := fun k => k % 3 = 2)
      (fun k => 2 - k % 3) hv fun k _ hvk hlast => by
        cases hs k with
        | fetching h _ =>
          have hnext := (h.wait (hr.admits k).1 (by rw [slowEnv_wait hlast]; rfl)).2
          rw [hr.next]
          exact ⟨hnext.ireqValid, by omega⟩
        | executing h _ => exact absurd hvk (ne_true_of_eq_false h.ireqValid)
    exact ⟨k, hk, by rw [slowEnv_fetch hlast hvk]; rfl⟩
  dresp n hv := by
    have hm : asksMem ((s n).core.instr (slowEnv n (s n))) = true := by rw [← dreq_valid, hv]
    cases hs n with
    | executing h _ => exact exists_answer hr hs h ((h.instr_eq (hr.admits n).1).2 ▸ hm)
    | fetching h hcurr =>
      -- It is fetched just now, and answered when it is executed.
      have hf : (slowEnv n (s n)).iresp.dataOk = true := by
        by_contra hf
        rw [instr_of_not_dataOk (eq_false_of_ne_true hf), hcurr] at hm
        exact absurd hm (by decide)
      have hlast : n % 3 = 2 := by
        by_contra hlast
        rw [slowEnv_wait hlast] at hf
        exact absurd hf Bool.false_ne_true
      have hc := (hs n).waits (hr.admits n) hm (by rw [slowEnv_fetch hlast h.ireqValid]; rfl)
      have hkeep := keeps_of_asksMem hm
      have hcurr' := (next_of_not_hold hc).2.2.trans (if_pos hkeep)
      obtain ⟨k, hk, hd⟩ := exists_answer hr hs (n := n + 1) (hr.next n ▸ h.start hf hc hkeep)
        (by rw [hr.next]; exact hcurr' ▸ hm)
      exact ⟨k, by omega, hd⟩

end SlowEnv

/-- A loop: `x1` is counted up, its square is stored, loaded, and divided by it. -/
def squareCode : ℕ → Instr
  | 0 => .opImm .addi 3#12 1#5 1#5
  | 1 => .mulDiv .mul false 1#5 1#5 2#5
  | 2 => .store .sd 256#12 2#5 0#5
  | 3 => .load .ld 256#12 0#5 3#5
  | 4 => .mulDiv .div false 1#5 3#5 4#5
  | _ => .jal (-10#20) 0#5

/-- The memory with the loop from `PCINIT` on. -/
def squareMem : Words := fun idx =>
  let k := (idx - PCINIT >>> 3).toNat
  if k < 3 then (squareCode (2 * k + 1)).encode ++ (squareCode (2 * k)).encode else 0#64

/-- The next instruction of the loop, and its access to memory. -/
theorem wires_square (regs : Regs) {k : ℕ} (hk : k < 6) :
    let w := wires default regs (PCINIT + BitVec.ofNat 64 (4 * k)) (squareCode k).encode
    w.nextPc = PCINIT + BitVec.ofNat 64 (4 * ((k + 1) % 6)) ∧
      (w.dreq.valid = true → w.dreq.addr = 256#64) := by
  have haddr : regs.read 0#5 + 256#64 = 256#64 := by rw [Regs.read_zero, BitVec.zero_add]
  have hjal : PCINIT + 20#64 + -20#64 = PCINIT + 0#64 := by decide
  match k with
  | 0 => exact ⟨rfl, fun h => absurd h Bool.false_ne_true⟩
  | 1 => exact ⟨rfl, fun h => absurd h Bool.false_ne_true⟩
  | 2 => exact ⟨rfl, fun _ => haddr⟩
  | 3 => exact ⟨rfl, fun _ => haddr⟩
  | 4 => exact ⟨rfl, fun h => absurd h Bool.false_ne_true⟩
  | 5 => exact ⟨hjal, fun h => absurd h Bool.false_ne_true⟩

theorem fetch_square {k : ℕ} (hk : k < 6) :
    (PCINIT + BitVec.ofNat 64 (4 * k)) >>> 3 ≠ 32#64 ∧
    squareMem.fetch (PCINIT + BitVec.ofNat 64 (4 * k)) = (squareCode k).encode := by
  interval_cases k <;> decide

/-- The program is in the loop. It has only written the word that it stores. -/
structure InLoop (t : Arch) : Prop where
  pc : ∃ k < 6, t.pc = PCINIT + BitVec.ofNat 64 (4 * k)
  mem : ∀ idx, idx ≠ 32#64 → t.mem idx = squareMem idx

theorem InLoop.exists_instr {t : Arch} (h : InLoop t) :
    ∃ k < 6, t.pc = PCINIT + BitVec.ofNat 64 (4 * k) ∧ t.instr = (squareCode k).encode := by
  obtain ⟨k, hk, hpc⟩ := h.pc
  obtain ⟨hne, hfetch⟩ := fetch_square hk
  refine ⟨k, hk, hpc, ?_⟩
  have hword : t.mem.word t.pc = squareMem.word t.pc := h.mem _ (hpc ▸ hne)
  rw [Arch.instr, Words.fetch, hword, hpc]
  exact hfetch

theorem InLoop.step {t : Arch} (h : InLoop t) : InLoop t.step := by
  obtain ⟨k, hk, hpc, hinstr⟩ := h.exists_instr
  obtain ⟨hnext, haddr⟩ := wires_square t.regs hk
  rw [← hpc, ← hinstr] at hnext haddr
  refine ⟨⟨(k + 1) % 6, Nat.mod_lt _ (by decide), hnext⟩, fun idx hidx => ?_⟩
  rw [Arch.step, Words.access]
  split
  next hv =>
    have h256 : t.net.dreq.addr = 256#64 := haddr hv
    rw [h256]
    exact (Words.writeHelper_of_ne _ _ _ hidx).trans (h.mem idx hidx)
  next => exact h.mem idx hidx

theorem program_square {t : Arch} (h : InLoop t) : Program t := by
  intro k
  have hk : InLoop (Arch.step^[k] t) := by
    induction k with
    | zero => exact h
    | succ k ih => exact Function.iterate_succ_apply' Arch.step k t ▸ ih.step
  obtain ⟨j, -, -, hj⟩ := hk.exists_instr
  exact ⟨squareCode j, hj.symm⟩

theorem inLoop_init (regs : Regs) : InLoop ⟨PCINIT, regs, squareMem⟩ :=
  ⟨⟨0, by decide, rfl⟩, fun _ _ => rfl⟩

/-- Each instruction of the loop waits for its word, and each access for its answer. The first
    quotient is `3`. -/
theorem core_refines_square :
    let s := machine.drive slowEnv ⟨Core.init, squareMem⟩
    let commit := fun n => (s n).commit (slowEnv n (s n)) = true
    {n | commit n}.Infinite ∧ ¬commit 0 ∧
      (∀ k, (s (Nat.nth commit k + 1)).arch =
        Arch.step^[k + 1] ⟨PCINIT, fun _ => 0#64, squareMem⟩) ∧
      (s (Nat.nth commit 4 + 1)).mem.word 256#64 = 9#64 ∧
      (s (Nat.nth commit 4 + 1)).core.regs.read 4#5 = 3#64 := by
  intro s commit
  have hr : machine.IsRun s fun n => slowEnv n (s n) :=
    machine.isRun_drive rfl fun n => admits_slowEnv n _
  have hp : Program (s 0).arch := program_square (inLoop_init _)
  have hs : ∀ n, Sound (s n) := fun n => (sound_of_isRun hr hp n).1
  obtain ⟨hinf, hnth, -⟩ := core_refines hr (answered_slowEnv hr hs) hp
  have hfour := (hnth 4).2.2
  refine ⟨hinf, by decide, fun k => (hnth k).2.2, ?_, ?_⟩
  · refine (congrArg (fun t : Arch => t.mem.word 256#64) hfour).trans ?_
    decide +kernel
  · refine (congrArg (fun t : Arch => t.regs.read 4#5) hfour).trans ?_
    decide +kernel

end Computer

end RiscvCpu
