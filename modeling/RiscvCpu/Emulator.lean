import RiscvCpu.Difftest.Cosim
import RiscvCpu.Image

/-!
# The emulator

The program that simulates the computer: it loads an image, resets the computer, and then runs
its cycles in a loop, until there is a reason to stop: a limit, a signal, or the differential
test. At the first such turn (`Stop`), it runs one cycle more for its statistics, unless the
test has failed (`Ran.exists_execute`).

Its exit status is 0 if it has come to the limit. So the status tells whether the test has
accepted the program of the image (`exitStatus_eq_zero_iff`), unless there are two signals: at
the second one, the program ends at once, with the status 0.
-/

namespace RiscvCpu

open Rv64 Sync

/-! ## The array -/

namespace EmuRam

variable (e : EmuRam)

/-- The array after it is loaded. -/
def load (ram : Longs) : EmuRam where
  ram := Vector.ofFn fun k => ram k.1
  assertCount := 0

/-- The words, as the computer reads them. -/
def words : Words := e.ramReadHelper true

/-- The bytes from the start of the image on. -/
def bytes (size : ℕ) : List (BitVec 8) :=
  (List.range size).map fun k => Words.byte (e.words (BitVec.ofNat 64 (k / 8))) (k % 8)

variable {e} {m : Words} {size : ℕ}

theorem holds_words : e.Holds e.words := fun idx h => by
  rw [words, ramReadHelper, if_pos rfl, dif_pos h]

theorem words_load (ram : Longs) {idx : BitVec 64} (h : idx.toNat < EMU_RAM_WORDS) :
    (load ram).words idx = ram idx.toNat := by
  rw [words, ramReadHelper, if_pos rfl, dif_pos h]
  exact Vector.getElem_ofFn _

theorem Holds.bytes_eq (h : e.Holds m) (hs : size ≤ EMU_RAM_SIZE) :
    e.bytes size = image m size := by
  refine List.map_congr_left fun k hk => ?_
  have hk' : k < 2 ^ 28 := (List.mem_range.1 hk).trans_le hs
  have hidx : (BitVec.ofNat 64 (k / 8)).toNat < EMU_RAM_WORDS := by
    rw [BitVec.toNat_ofNat, EMU_RAM_WORDS]
    omega
  have hk64 : (BitVec.ofNat 64 k).toNat = k := by
    rw [BitVec.toNat_ofNat]
    omega
  have hshift : BitVec.ofNat 64 k >>> 3 = BitVec.ofNat 64 (k / 8) := by
    apply BitVec.eq_of_toNat_eq
    rw [BitVec.toNat_ushiftRight, hk64, Nat.shiftRight_eq_div_pow, BitVec.toNat_ofNat]
    omega
  rw [Words.bytes, hshift, hk64]
  exact congrArg (Words.byte · _) (h.read hidx)

end EmuRam

/-! ## The program -/

def STATE_GOODTRAP : BitVec 32 := 0#32

def STATE_ABORT : BitVec 32 := 2#32

def STATE_LIMIT_EXCEEDED : BitVec 32 := 3#32

def STATE_SIG : BitVec 32 := 4#32

/-- The one signal that is handled. -/
def SIGINT : BitVec 32 := 2#32

/-- The arguments that decide when to stop. -/
structure EmuArgs where
  maxCycles : BitVec 64 := BitVec.allOnes 64
  maxInstr : BitVec 64 := BitVec.allOnes 64
  statCycles : BitVec 64 := BitVec.allOnes 64
  enableDiff : Bool := true

/-- The signals that arrive before the check of a turn, since that of the turn before, and those
    that arrive after the last check. -/
structure Signals where
  before : ℕ → ℕ
  after : ℕ

/-- Those that arrive while there are `n` checks. -/
def Signals.count (sig : Signals) (n : ℕ) : ℕ := ∑ k ∈ Finset.range n, sig.before k + sig.after

theorem Signals.le_count (sig : Signals) {n m : ℕ} (h : n < m) :
    sig.before n + sig.after ≤ sig.count m :=
  Nat.add_le_add_right
    (Finset.single_le_sum (f := sig.before) (fun _ _ => Nat.zero_le _) (Finset.mem_range.2 h)) _

/-- What ends the program before `main` returns: `exit(0)`, or a fault. -/
inductive Halt
  | exit
  | fault
  deriving DecidableEq, Repr

theorem Halt.ok_bind {α β : Type*} (a : α) (f : α → Except Halt β) :
    (Except.ok a : Except Halt α).bind f = f a := rfl

structure Emulator (R : Type*) where
  dut : SimTop
  ram : EmuRam
  imgSize : ℕ
  difftest : Difftest R
  /-- The instructions of the last trap event. The computer always reports 0. -/
  instrCnt : BitVec 64
  gotFinish : Bool
  cycles : BitVec 64
  trapCode : BitVec 32
  signalNum : BitVec 32

/-- The memory model stops the simulation. -/
def SimTop.finish (s : SimTop) (i : SimTop.In) : Bool :=
  s.stack.ram.modificationError (s.oreq i) || s.stack.ram.rangeError

namespace Emulator

variable {R : Type*}

/-- The emulator after its construction. Before the reset, the computer has any registers. -/
def new (dut : SimTop) (d : Difftest R) (resetIn : ℕ → SimTop.In) (tempPage ram : Longs)
    (img : List Char) (file gunzipped : List (BitVec 8)) : Option (Emulator R) :=
  (initRam tempPage ram img file gunzipped).map fun x =>
    { dut := SimTop.powered 10 { dut with stack.ram.mem := (EmuRam.load x.2).words } resetIn 10
      ram := .load x.2
      imgSize := x.1
      difftest := d
      instrCnt := 0#64
      gotFinish := false
      cycles := 0#64
      trapCode := STATE_RUNNING
      signalNum := 0#32 }

variable (p : Proxy R) (args : EmuArgs) (i : ℕ → SimTop.In) (sig : Signals) (e : Emulator R)

/-- The first signal is remembered, the second one ends the program. -/
def sigHandler (signo : BitVec 32) : Except Halt (Emulator R) :=
  if e.signalNum ≠ 0#32 then .error .exit else .ok { e with signalNum := signo }

/-- After some signals. -/
def interrupted : ℕ → Emulator R → Except Halt (Emulator R)
  | 0, e => .ok e
  | n + 1, e => (sigHandler e SIGINT).bind (interrupted n)

/-- A cycle of the computer, with its calls. -/
def singleCycle : Emulator R :=
  let j := i e.cycles.toNat
  { e with
    dut := e.dut.next j false
    ram := e.dut.stack.ram.edge (e.dut.oreq j) e.ram
    difftest := { e.difftest with dut := (e.dut.report j).receive e.difftest.dut }
    instrCnt := 0#64
    gotFinish := e.gotFinish || e.dut.finish j
    cycles := e.cycles + 1#64 }

/-- The reasons to stop before a cycle. A later one counts. -/
def check : BitVec 32 :=
  let trapCode := if e.instrCnt ≥ args.maxInstr then STATE_LIMIT_EXCEEDED else e.trapCode
  if e.ram.assertCount > 0 then STATE_ABORT
  else if e.signalNum ≠ 0#32 then STATE_SIG
  else trapCode

/-- A cycle, and the test. A division by 0 is a fault, and so is a write outside of the
    registers. -/
def cycle : Except Halt (Emulator R) :=
  if args.statCycles = 0#64 then .error .fault
  else
    let e := singleCycle i e
    if !args.enableDiff then .ok e
    else if e.difftest.trapCode ≠ STATE_RUNNING then
      .ok { e with trapCode := e.difftest.trapCode }
    else
      match e.difftest.step p (e.ram.bytes e.imgSize) with
      | none => .error .fault
      | some (failed, d) =>
        .ok { e with difftest := d, trapCode := if failed then STATE_ABORT else STATE_RUNNING }

/-- The loop, with the number of cycles that are left. A signal that arrives in a cycle is handled
    after it. -/
def loop : ℕ → Emulator R → Except Halt (Emulator R)
  | 0, e =>
    if e.gotFinish || decide (e.trapCode ≠ STATE_RUNNING) then .ok e
    else .ok { e with trapCode := STATE_LIMIT_EXCEEDED }
  | maxCycle + 1, e =>
    if e.gotFinish || decide (e.trapCode ≠ STATE_RUNNING) then .ok e
    else
      (interrupted (sig.before e.cycles.toNat) e).bind fun e =>
        if check args e ≠ STATE_RUNNING then .ok { e with trapCode := check args e }
        else (cycle p args i e).bind (loop maxCycle)

/-- The statistics are dumped in a cycle of their own. -/
def displayTrapinfo : Emulator R := if e.trapCode ≠ STATE_ABORT then singleCycle i e else e

def execute : Except Halt (Emulator R) :=
  (loop p args i sig args.maxCycles.toNat e).bind fun e =>
    interrupted sig.after (displayTrapinfo i e)

def isGoodTrap : Bool := e.trapCode == STATE_GOODTRAP || e.trapCode == STATE_LIMIT_EXCEEDED

/-- What `main` returns. -/
def exitStatus : ℕ := if e.isGoodTrap then 0 else 1

/-! ## Signals -/

/-- A number of signals: they end the program, if there are two, with those of before. -/
theorem interrupted_cases (n : ℕ) (e : Emulator R) :
    interrupted n e = .error .exit ∧ 2 ≤ n + (if e.signalNum = 0#32 then 0 else 1) ∨
      interrupted n e = .ok { e with signalNum := if n = 0 then e.signalNum else SIGINT } := by
  induction n generalizing e with
  | zero => exact .inr rfl
  | succ n ih =>
    rw [interrupted, sigHandler, if_neg (Nat.succ_ne_zero n)]
    by_cases h : e.signalNum = 0#32
    · rw [if_neg (not_not_intro h), Halt.ok_bind, if_pos h]
      have hsigint : SIGINT ≠ 0#32 := by decide
      rcases ih { e with signalNum := SIGINT } with ⟨hexit, hle⟩ | hok
      · rw [if_neg hsigint] at hle
        exact .inl ⟨hexit, hle⟩
      · exact .inr (hok.trans (by rw [ite_self]))
    · rw [if_pos h, if_neg h]
      exact .inl ⟨rfl, by omega⟩

/-! ## Turns -/

open SimTop Difftest

section Turns

/-- The array before each cycle. -/
def arrays : ℕ → EmuRam
  | 0 => e.ram
  | n + 1 =>
    (machine.run e.dut i n).stack.ram.edge ((machine.run e.dut i n).oreq (i n)) (arrays n)

/-- The test is off, or accepts the registers of the cycle. -/
def Passes (n : ℕ) : Prop :=
  args.enableDiff = true → Matches p e.difftest (reports (machine.run e.dut i) i)
    (images (machine.run e.dut i) e.imgSize) n

/-- A reason to stop at a turn. -/
def Stop (n : ℕ) : Prop :=
  n = args.maxCycles.toNat ∨ sig.before n ≠ 0 ∨ ¬Passes p args i e n

/-- The trap code with it. -/
def verdict (n : ℕ) : BitVec 32 :=
  if n = args.maxCycles.toNat then STATE_LIMIT_EXCEEDED
  else if sig.before n ≠ 0 then STATE_SIG
  else STATE_ABORT

/-- The emulator before its loop. -/
structure Ready (x : ℕ → Hart) (instr : ℕ → Instr) (hart : R → Hart) : Prop where
  cosim : Cosim (machine.run e.dut i) i x instr p hart e.difftest e.imgSize
  holds : e.ram.Holds e.dut.stack.ram.mem
  assertCount : e.ram.assertCount = 0
  instrCnt : e.instrCnt = 0#64
  gotFinish : e.gotFinish = false
  cycles : e.cycles = 0#64
  trapCode : e.trapCode = STATE_RUNNING
  signalNum : e.signalNum = 0#32

variable (e₀ : Emulator R)

/-- The emulator has run `n` cycles. -/
structure Ran (n : ℕ) (e : Emulator R) : Prop where
  dut : e.dut = machine.run e₀.dut i n
  ram : e.ram = arrays i e₀ n
  imgSize : e.imgSize = e₀.imgSize
  difftest : args.enableDiff = true → At p e₀.difftest (reports (machine.run e₀.dut i) i)
    (images (machine.run e₀.dut i) e₀.imgSize) n e.difftest
  instrCnt : e.instrCnt = 0#64
  gotFinish : e.gotFinish = false
  cycles : e.cycles = BitVec.ofNat 64 n
  signalNum : e.signalNum = 0#32

variable {p args i sig e e₀} {x : ℕ → Hart} {instr : ℕ → Instr} {hart : R → Hart} {n : ℕ}

theorem Ready.ran (h : Ready p i e₀ x instr hart) : Ran p args i e₀ 0 e₀ where
  dut := rfl
  ram := rfl
  imgSize := rfl
  difftest _ := h.cosim.fresh.at_zero
  instrCnt := h.instrCnt
  gotFinish := h.gotFinish
  cycles := h.cycles
  signalNum := h.signalNum

theorem Ready.array (h : Ready p i e₀ x instr hart) (n : ℕ) :
    (arrays i e₀ n).Holds (machine.run e₀.dut i n).stack.ram.mem ∧
      (arrays i e₀ n).assertCount = 0 := by
  obtain ⟨hh, hc, -⟩ := h.cosim.runs.array (arrays i e₀) h.holds (fun _ => rfl) n
  exact ⟨hh, hc.trans h.assertCount⟩

theorem Ran.toNat_cycles (h : Ran p args i e₀ n e) (hn : n < 2 ^ 64) : e.cycles.toNat = n := by
  rw [h.cycles, BitVec.toNat_ofNat, Nat.mod_eq_of_lt hn]

/-- The trap code and the signal do not matter for a cycle. -/
theorem Ran.singleCycle_eq (h : Ran p args i e₀ n e) (hr : Ready p i e₀ x instr hart)
    (hn : n < 2 ^ 64) (c sg : BitVec 32) :
    singleCycle i { e with trapCode := c, signalNum := sg } =
      { e with
        dut := machine.run e₀.dut i (n + 1)
        ram := arrays i e₀ (n + 1)
        difftest := { e.difftest with
          dut := (reports (machine.run e₀.dut i) i n).receive e.difftest.dut }
        instrCnt := 0#64
        gotFinish := false
        cycles := BitVec.ofNat 64 (n + 1)
        trapCode := c
        signalNum := sg } := by
  have hram : e.dut.stack.ram.edge (e.dut.oreq (i n)) e.ram = arrays i e₀ (n + 1) := by
    rw [h.dut, h.ram]
    rfl
  have hfinish : e.dut.finish (i n) = false := by
    obtain ⟨hmod, hrange⟩ := hr.cosim.runs.no_error n
    rw [h.dut, SimTop.finish, hmod, hrange, Bool.or_false]
  have hnext : e.dut.next (i n) false = machine.run e₀.dut i (n + 1) := by
    rw [h.dut]
    rfl
  have hreport : e.dut.report (i n) = reports (machine.run e₀.dut i) i n := by
    rw [h.dut]
    rfl
  rw [singleCycle]
  dsimp only
  rw [h.toNat_cycles hn, hram, hfinish, h.gotFinish, hnext, hreport, h.cycles, BitVec.ofNat_add]
  rfl

/-- The test sees the image as it is in the array. -/
theorem Ready.bytes_eq (h : Ready p i e₀ x instr hart) (n : ℕ) :
    (arrays i e₀ (n + 1)).bytes e₀.imgSize = images (machine.run e₀.dut i) e₀.imgSize n :=
  (h.array (n + 1)).1.bytes_eq h.cosim.size_le

theorem Ran.exists_cycle (h : Ran p args i e₀ n e) (hr : Ready p i e₀ x instr hart)
    (htrap : e.trapCode = STATE_RUNNING) (hstat : args.statCycles ≠ 0#64)
    (hn : n + 5000 < 2 ^ 64) :
    ∃ e', cycle p args i e = .ok e' ∧ e'.signalNum = 0#32 ∧
      (Passes p args i e₀ n → Ran p args i e₀ (n + 1) e' ∧ e'.trapCode = STATE_RUNNING) ∧
      (¬Passes p args i e₀ n → e'.dut = machine.run e₀.dut i (n + 1) ∧
        e'.cycles = BitVec.ofNat 64 (n + 1) ∧ e'.trapCode = STATE_ABORT) := by
  have hcycle := h.singleCycle_eq hr (by omega) e.trapCode e.signalNum
  rw [cycle, if_neg hstat]
  dsimp only at hcycle ⊢
  rw [hcycle]
  cases hdiff : args.enableDiff with
  | false =>
    have hoff : ¬args.enableDiff = true := ne_true_of_eq_false hdiff
    exact ⟨_, rfl, h.signalNum,
      fun _ => ⟨⟨rfl, rfl, h.imgSize, fun hd => absurd hd hoff, rfl, rfl, rfl, h.signalNum⟩, htrap⟩,
      fun hp => absurd (fun hd => absurd hd hoff) hp⟩
  | true =>
    obtain ⟨y, hy, hiff, hat⟩ := (h.difftest hdiff).exists_step plain_report
      (fun hf => hr.cosim.first_pc hf) hn
    have hcode : Difftest.trapCode { e.difftest with
        dut := (reports (machine.run e₀.dut i) i n).receive e.difftest.dut } = STATE_RUNNING :=
      if_neg Bool.false_ne_true
    have hpass : y.1 = false ↔ Passes p args i e₀ n :=
      hiff.trans ⟨fun hm _ => hm.2, fun hp => ⟨hr.cosim.not_stuck n, hp hdiff⟩⟩
    dsimp only
    rw [Bool.not_true, if_neg Bool.false_ne_true, if_neg fun hne => hne hcode, h.imgSize,
      hr.bytes_eq, hy, ← hpass]
    refine ⟨_, rfl, h.signalNum,
      fun hy1 => ⟨⟨rfl, rfl, rfl, fun _ => hat hy1, rfl, rfl, rfl, h.signalNum⟩, ?_⟩,
      fun hy1 => ⟨rfl, rfl, ?_⟩⟩
    · exact if_neg (ne_true_of_eq_false hy1)
    · exact if_pos (eq_true_of_ne_false hy1)

/-! ## The loop -/

theorem loop_of_stopped (m : ℕ) (h : e.trapCode ≠ STATE_RUNNING) :
    loop p args i sig m e = .ok e := by
  cases m <;> rw [loop, decide_eq_true h, Bool.or_true, if_pos rfl]

theorem Ran.not_stopped (h : Ran p args i e₀ n e) (htrap : e.trapCode = STATE_RUNNING) :
    (e.gotFinish || decide (e.trapCode ≠ STATE_RUNNING)) = false := by
  rw [h.gotFinish, Bool.false_or, decide_eq_false fun hne => hne htrap]

/-- Before a cycle, only a signal stops the emulator. -/
theorem Ran.check_eq (h : Ran p args i e₀ n e) (hr : Ready p i e₀ x instr hart)
    (htrap : e.trapCode = STATE_RUNNING) (hinstr : args.maxInstr ≠ 0#64) (sg : BitVec 32) :
    check args { e with signalNum := sg } = if sg ≠ 0#32 then STATE_SIG else STATE_RUNNING := by
  have hcount : ¬e.ram.assertCount > 0 := by
    rw [h.ram, (hr.array n).2]
    exact lt_irrefl 0
  have hfew : ¬e.instrCnt ≥ args.maxInstr := by
    rw [h.instrCnt]
    exact fun hle => hinstr (BitVec.le_zero_iff.1 hle)
  rw [check, if_neg hcount, if_neg hfew, htrap]

variable (p args i sig e₀) in
/-- How the program ends, with a reason to stop at the turn `n`: it has run one cycle more than
    there are turns before it, or two signals have ended it. -/
def Ends (n : ℕ) (o : Except Halt (Emulator R)) : Prop :=
  o = .error .exit ∧ 2 ≤ sig.count args.maxCycles.toNat ∨
    ∃ e', o = .ok e' ∧ e'.dut = machine.run e₀.dut i (n + 1) ∧
      e'.cycles = BitVec.ofNat 64 (n + 1) ∧ e'.trapCode = verdict args sig n

/-- After the loop, there are only signals. -/
theorem Ends.interrupted {c : ℕ} (hdut : e.dut = machine.run e₀.dut i (n + 1))
    (hcyc : e.cycles = BitVec.ofNat 64 (n + 1)) (hcode : e.trapCode = verdict args sig n)
    (hc : (if e.signalNum = 0#32 then 0 else 1) ≤ c)
    (hle : c + sig.after ≤ sig.count args.maxCycles.toNat) :
    Ends args i sig e₀ n (interrupted sig.after e) := by
  rcases interrupted_cases sig.after e with ⟨hexit, htwo⟩ | hok
  · exact .inl ⟨hexit, by omega⟩
  · exact .inr ⟨_, hok, hdut, hcyc, hcode⟩

variable (sig) in
/-- The emulator stops at the first reason. -/
theorem Ran.exists_execute (hr : Ready p i e₀ x instr hart) (hinstr : args.maxInstr ≠ 0#64)
    (hstat : args.statCycles ≠ 0#64) (hmax : args.maxCycles.toNat + 5000 ≤ 2 ^ 64) (m : ℕ)
    (h : Ran p args i e₀ n e) (htrap : e.trapCode = STATE_RUNNING)
    (hm : n + m = args.maxCycles.toNat) (hn : ∀ k < n, ¬Stop p args i sig e₀ k) :
    ∃ n', IsLeast {k | Stop p args i sig e₀ k} n' ∧
      Ends args i sig e₀ n' ((loop p args i sig m e).bind fun e =>
        interrupted sig.after (displayTrapinfo i e)) := by
  have hfirst : ∀ {n}, (∀ k < n, ¬Stop p args i sig e₀ k) → Stop p args i sig e₀ n →
      IsLeast {k | Stop p args i sig e₀ k} n :=
    fun hn hs => ⟨hs, fun k hk => not_lt.1 fun hlt => hn k hlt hk⟩
  induction m generalizing n e with
  | zero =>
    have hlim : n = args.maxCycles.toNat := hm
    refine ⟨n, hfirst hn (.inl hlim), ?_⟩
    have hcycle := h.singleCycle_eq hr (by omega) STATE_LIMIT_EXCEEDED e.signalNum
    rw [loop, h.not_stopped htrap, if_neg Bool.false_ne_true, Halt.ok_bind, displayTrapinfo,
      if_pos (show STATE_LIMIT_EXCEEDED ≠ STATE_ABORT by decide), hcycle]
    refine Ends.interrupted (c := 0) rfl rfl (if_pos hlim).symm (if_pos h.signalNum).le ?_
    exact Nat.add_le_add_right (Nat.zero_le _) _
  | succ m ih =>
    have hlt : n < args.maxCycles.toNat := by omega
    have hcount := sig.le_count hlt
    rw [loop, h.not_stopped htrap, if_neg Bool.false_ne_true, h.toNat_cycles (by omega)]
    by_cases hsig : sig.before n = 0
    · have hcheck := h.check_eq hr htrap hinstr e.signalNum
      rw [if_neg (not_not_intro h.signalNum)] at hcheck
      rw [hsig, interrupted, Halt.ok_bind, if_neg (not_not_intro hcheck)]
      obtain ⟨e₁, he₁, hsg, hpass, hfail⟩ := h.exists_cycle hr htrap hstat (by omega)
      rw [he₁, Halt.ok_bind]
      by_cases hp : Passes p args i e₀ n
      · obtain ⟨hran, hrun⟩ := hpass hp
        refine ih hran hrun (by omega) fun k hk => ?_
        rcases Nat.lt_succ_iff_lt_or_eq.1 hk with hk | rfl
        · exact hn k hk
        · rintro (hk | hk | hk)
          · exact hlt.ne hk
          · exact hk hsig
          · exact hk hp
      · obtain ⟨hdut, hcyc, habort⟩ := hfail hp
        refine ⟨n, hfirst hn (.inr (.inr hp)), ?_⟩
        rw [loop_of_stopped m (by rw [habort]; decide), Halt.ok_bind, displayTrapinfo,
          if_neg (not_not_intro habort)]
        refine Ends.interrupted (c := 0) hdut hcyc ?_ (if_pos hsg).le (by omega)
        rw [habort, verdict, if_neg hlt.ne, if_neg (not_not_intro hsig)]
    · refine ⟨n, hfirst hn (.inr (.inl hsig)), ?_⟩
      rcases interrupted_cases (sig.before n) e with ⟨hexit, htwo⟩ | hok
      · rw [if_pos h.signalNum] at htwo
        rw [hexit]
        exact .inl ⟨rfl, by omega⟩
      · have hcheck := h.check_eq hr htrap hinstr SIGINT
        rw [if_pos (show SIGINT ≠ 0#32 by decide)] at hcheck
        have hcycle := h.singleCycle_eq hr (by omega) STATE_SIG SIGINT
        rw [if_neg hsig] at hok
        rw [hok, Halt.ok_bind, hcheck, if_pos (show STATE_SIG ≠ STATE_RUNNING by decide),
          Halt.ok_bind, displayTrapinfo, if_pos (show STATE_SIG ≠ STATE_ABORT by decide), hcycle]
        have hsigint : SIGINT ≠ 0#32 := by decide
        refine Ends.interrupted (c := 1) rfl rfl ?_ (if_neg hsigint).le (by omega)
        rw [verdict, if_neg hlt.ne, if_pos hsig]

end Turns

end Emulator

/-! ## The start -/

namespace SimTop

/-- While `reset` is up, no value is reported but 0, if it is so from the start. -/
theorem regNext_of_resetting {s : ℕ → SimTop} {i : ℕ → In} (hr : resetting.IsRun s i)
    (hbusy : (s 0).stack.arbiter.busy = false) (hreg : (s 0).core.regNext = fun _ => 0#64) (n : ℕ) :
    (s n).core.regNext = fun _ => 0#64 := by
  suffices h : (s n).core.currInstr = 0#32 ∧ (s n).stack.arbiter.busy = false ∧
      (s n).core.regNext = fun _ => 0#64 from h.2.2
  induction n with
  | zero =>
    obtain ⟨s₀, hs⟩ := hr.init
    refine ⟨?_, hbusy, hreg⟩
    rw [← hs]
    rfl
  | succ n ih =>
    obtain ⟨hcurr, hfree, hzero⟩ := ih
    rw [hr.next]
    refine ⟨rfl, rfl, funext fun r => ?_⟩
    have hinstr : (s n).core.instr ((s n).coreIn (i n)) = 0#32 := by
      rw [Core.instr_of_not_dataOk (not_dataOk_of_free hfree).1, hcurr]
    have hrd : ((s n).core.net ((s n).coreIn (i n))).dec.rd = 0#5 :=
      wires_rd _ _ _ (Core.not_wreg_zero hinstr)
    change (s n).core.regNextOut ((s n).coreIn (i n)) r = 0#64
    rw [Core.regNextOut, hrd, if_pos rfl, hzero]
    exact ite_self _

/-- Such a computer is then in the initial state, with its memory. -/
theorem exists_init {n₀ : ℕ} {s : ℕ → SimTop} {i : ℕ → In} (h : IsPowerOn n₀ s i) (hn : 2 ≤ n₀)
    (hbusy : (s 0).stack.arbiter.busy = false) (hreg : (s 0).core.regNext = fun _ => 0#64) :
    ∃ ram, s n₀ = init ram ∧ ram.mem = (s 0).stack.ram.mem := by
  have hr : resetting.IsRun (resetting.run (s 0) i) i := resetting.isRun_run h.init fun _ => trivial
  obtain ⟨regNext, ram, hs⟩ := eq_cleared hr hn
  have hmem := mem_of_resetting hr n₀
  have hzero := regNext_of_resetting hr hbusy hreg n₀
  rw [hs] at hmem hzero
  have hzero' : regNext = fun _ => 0#64 := hzero
  refine ⟨ram, ?_, hmem⟩
  rw [h.eq_run le_rfl, hs, hzero']
  rfl

/-- The first instruction changes nothing when it is executed once more, whatever is outside of
    the window. -/
theorem again_iff {mem : Words} {i₀ : Instr} (hi : (boot mem).Executes window i₀) {x y : Hart}
    (hy : y = (boot mem).execute i₀) (ha : x.Agrees window y) :
    (again x).execute i₀ = x ↔ (again y).execute i₀ = y := by
  have hex : (again y).Executes window i₀ := by
    rw [hy]
    exact executes_again hi
  have ha' : (again y).Agrees window (again x) := ⟨rfl, ha.symm.x, ha.symm.mem⟩
  have hnext := (ha'.execute wordClosed_window hex).2
  have hmem := mem_execute_of_boot hi
  constructor
  · intro h
    exact Hart.ext (hnext.pc.trans ((congrArg Hart.pc h).trans ha.pc))
      (hnext.x.trans ((congrArg Hart.x h).trans ha.x)) (hmem _)
  · intro h
    exact Hart.ext (hnext.symm.pc.trans ((congrArg Hart.pc h).trans ha.symm.pc))
      (hnext.symm.x.trans ((congrArg Hart.x h).trans ha.symm.x)) (hmem _)

/-- At least every 520 cycles, an instruction is executed. -/
theorem Runs.div_le_count {s : ℕ → SimTop} {i : ℕ → In} {x : ℕ → Hart} (h : Runs s i x) (n : ℕ) :
    n / 520 ≤ Nat.count (fun k => (s k).commit (i k) = true) n := by
  suffices hq : ∀ q, q ≤ Nat.count (fun k => (s k).commit (i k) = true) (520 * q) from
    (hq _).trans (Nat.count_monotone _ (Nat.mul_div_le n 520))
  intro q
  induction q with
  | zero => exact Nat.zero_le _
  | succ q ih =>
    obtain ⟨k, hlo, hhi, hc⟩ := h.commits (520 * q)
    have hstep : Nat.count (fun k => (s k).commit (i k) = true) k <
        Nat.count (fun k => (s k).commit (i k) = true) (k + 1) := by
      rw [Nat.count_succ, if_pos hc]
      exact Nat.lt_succ_self _
    have hmono := Nat.count_monotone (fun k => (s k).commit (i k) = true) hlo
    have hmono' := Nat.count_monotone (fun k => (s k).commit (i k) = true)
      (show k + 1 ≤ 520 * (q + 1) by omega)
    omega

end SimTop

namespace Emulator

open SimTop Difftest

variable {R : Type*} {p : Proxy R} {args : EmuArgs} {i : ℕ → In} {sig : Signals}
  {e : Emulator R} {x : ℕ → Hart} {hart : R → Hart} {dut : SimTop} {d : Difftest R}
  {instr : ℕ → Instr} {resetIn : ℕ → In} {tempPage ram : Longs} {img : List Char}
  {file gunzipped : List (BitVec 8)}

/-- What the emulator is started with: the program of an image, and a reference. The memory that
    is allocated is zero, as are the values that the computer reports, and what is copied of a
    compressed image in addition. -/
structure Starts (p : Proxy R) (hart : R → Hart) (x : ℕ → Hart) (instr : ℕ → Instr) (dut : SimTop)
    (d : Difftest R) (tempPage ram : Longs) (img : List Char) (file gunzipped : List (BitVec 8)) :
    Prop where
  busy : dut.stack.arbiter.busy = false
  regNext : dut.core.regNext = fun _ => 0#64
  ram : ∀ k < EMU_RAM_WORDS, ram k = 0#64
  clean : isGzFile img = some true → Clean tempPage gunzipped EMU_RAM_WORDS
  program : ∀ k, (x k).Executes window (instr k) ∧ x (k + 1) = (x k).execute (instr k)
  image : x 0 = imageHart (imageBytes img file gunzipped)
  reference : p.Simulates hart
  fresh : Fresh d
  /-- What the program reads behind its image before it has written it is 0 for the reference,
      too. -/
  mem : ∀ a ∈ inputs x instr,
    (imageBytes img file gunzipped).length ≤ (a - 0x80000000#64).toNat → (hart d.proxy).mem a = 0#8

/-- The computer may have other bytes outside of the window. -/
theorem Starts.ready (h : Starts p hart x instr dut d tempPage ram img file gunzipped)
    (hnew : new dut d resetIn tempPage ram img file gunzipped = some e) (i : ℕ → In) :
    ∃ y, Ready p i e y instr hart ∧ ∀ k, (x k).Agrees window (y k) := by
  obtain ⟨⟨size, ram'⟩, hload, rfl⟩ := Option.map_eq_some_iff.1 hnew
  obtain ⟨rfl, hle, hword⟩ := initRam_eq h.ram h.clean hload
  let s₀ : SimTop := { dut with stack.ram.mem := (EmuRam.load ram').words }
  have hpow : IsPowerOn 10 (powered 10 s₀ resetIn) resetIn := isPowerOn_powered _ _
  obtain ⟨r, hr, hmem⟩ := exists_init hpow (by decide) h.busy h.regNext
  have hagrees : (x 0).Agrees window (boot r.mem) := h.image ▸ boot_agrees fun idx hidx => by
    rw [hmem]
    exact (EmuRam.words_load ram' hidx).trans (hword _ hidx)
  obtain ⟨y, hy0, hy, ha⟩ := exists_executes_of_agrees h.program wordClosed_window hagrees
  refine ⟨y, ⟨⟨?_, hy, ?_, hle, h.reference, h.fresh, fun a hin hlen => ?_⟩, ?_, rfl, rfl, rfl, rfl,
    rfl, rfl⟩, ha⟩
  · exact machine.isRun_run ⟨r, hr.symm⟩ fun _ => trivial
  · change (powered 10 s₀ resetIn 10).hart = y 0
    rw [hr, hy0, hart_init]
  · have hw : a ∈ window := inputs_subset wordClosed_window (fun k => (hy k).1) hin
    rw [h.mem a (inputs_congr ha ▸ hin) hlen, ← (ha 0).mem a hw, h.image]
    change _ = ((imageBytes img file gunzipped)[(a - 0x80000000#64).toNat]?).getD 0#8
    rw [List.getElem?_eq_none hlen, Option.getD_none]
  · change (EmuRam.load ram').Holds (powered 10 s₀ resetIn 10).stack.ram.mem
    rw [hr]
    exact fun idx hidx => (EmuRam.holds_words idx hidx).trans (congrFun hmem idx).symm

/-! ## The exit status -/

/-- The test is off, or the first instruction changes nothing when it is executed once more. -/
def Accepts (args : EmuArgs) (x : ℕ → Hart) (i₀ : Instr) : Prop :=
  args.enableDiff = true → (again (x 1)).execute i₀ = x 1

variable (args) in
/-- It is enough to look at the first 1040 cycles. -/
theorem Ready.passes (h : Ready p i e x instr hart) :
    (Accepts args x (instr 0) → ∀ n, Passes p args i e n) ∧
      ((∀ n < 1040, Passes p args i e n) → Accepts args x (instr 0)) :=
  ⟨fun ha n hd => h.cosim.matches_of_again (ha hd) n,
    fun hp hd => h.cosim.again_of_matches fun n hn => hp n hn hd⟩

theorem exitStatus_of_verdict {n : ℕ} (h : e.trapCode = verdict args sig n) :
    e.exitStatus = 0 ↔ n = args.maxCycles.toNat := by
  rw [exitStatus, isGoodTrap, h, verdict]
  by_cases hn : n = args.maxCycles.toNat
  · rw [if_pos hn]
    exact ⟨fun _ => hn, fun _ => by decide⟩
  · rw [if_neg hn]
    refine ⟨fun hexit => absurd hexit ?_, fun h => absurd h hn⟩
    split <;> decide

/-- The memory of the reference is full of ones. -/
theorem starts_counting : Starts archProxy (fun r => r.1.hart) countingFile countInstr
    (init (.ofMem fun _ => 0#64)) (SimTop.fresh fun _ => BitVec.allOnes 64) (fun _ => 0#64)
    (fun _ => 0#64) "count.bin".toList countFile [] := by
  have hbytes : imageBytes "count.bin".toList countFile [] = countFile := by
    rw [imageBytes, if_neg (by decide)]
    exact List.take_of_length_le (by decide)
  exact
    { busy := rfl
      regNext := rfl
      ram := fun _ _ => rfl
      clean := fun h => absurd h (by decide)
      program := executes_countingFile
      image := by
        rw [hbytes]
        exact Hart.ext rfl (funext fun r => ite_self _) rfl
      reference := simulates_archProxy
      fresh := ⟨rfl, rfl, rfl, ⟨rfl, rfl⟩, fun _ => rfl, fun _ => rfl⟩
      mem := fun a ha hlen => by
        rw [hbytes] at hlen
        exact absurd (inputs_counting ha) (not_lt.2 hlen) }

end Emulator

end RiscvCpu
