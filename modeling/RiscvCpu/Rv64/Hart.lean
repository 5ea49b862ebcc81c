import Mathlib.Data.Set.Basic
import Mathlib.Tactic.IntervalCases
import RiscvCpu.Arith.Bytes
import RiscvCpu.Rv64.Instr

/-!
# Harts

A hart with its memory: the program counter, the registers, and the bytes of memory. In a
step, it executes the instruction whose encoding is at the program counter (`Hart.Step`).

There are no exceptions. A hart has no step if there is no instruction at the program
counter, or if an access is misaligned, or outside of the memory.

What a hart does depends only on the bytes that it reads (`Hart.Agrees.execute_of_reads`). So a
program depends only on its inputs, which are the bytes that it reads before it has written them
(`agrees_succ`).
-/

namespace Rv64

open Bits Bytes

@[ext]
structure Hart where
  pc : BitVec 64
  x : BitVec 5 → BitVec 64
  x_zero : x 0#5 = 0#64
  mem : Mem 64

/-- The registers after a write. The register `0` is not written. -/
def setReg (x : BitVec 5 → BitVec 64) : Option (BitVec 5 × BitVec 64) → BitVec 5 → BitVec 64
  | none => x
  | some (rd, v) => fun r => if r = rd ∧ r ≠ 0#5 then v else x r

theorem setReg_zero {x : BitVec 5 → BitVec 64} (h : x 0#5 = 0#64) :
    ∀ write, setReg x write 0#5 = 0#64
  | none => h
  | some _ => (if_neg fun h => h.2 rfl).trans h

/-! ## Requests -/

namespace Request

variable (m : Mem 64)

/-- The memory after a request. -/
def exec : Request → Mem 64
  | store addr bytes data => m.write addr bytes data
  | _ => m

/-- The answers to a request. -/
def loaded : Request → BitVec 64
  | load addr bytes signed => extend 64 signed (m.read addr bytes)
  | _ => 0#64

def product : Request → BitVec 64
  | mul w a b => Rv64.product w a b
  | _ => 0#64

def quotient : Request → BitVec 64
  | div s w a b => quot s w a b
  | _ => 0#64

def remainder : Request → BitVec 64
  | div s w a b => Rv64.remainder s w a b
  | _ => 0#64

/-- The bytes that are read. -/
def reads : Request → Set (BitVec 64)
  | load addr bytes _ => {a | (a - addr).toNat < bytes}
  | _ => ∅

/-- The bytes that are written. -/
def writes : Request → Set (BitVec 64)
  | store addr bytes _ => {a | (a - addr).toNat < bytes}
  | _ => ∅

/-- The accesses that are naturally aligned, and in the memory. -/
def Valid (space : Set (BitVec 64)) : Request → Prop
  | load addr bytes _ => addr.toNat % bytes = 0 ∧ addr ∈ space
  | store addr bytes _ => addr.toNat % bytes = 0 ∧ addr ∈ space
  | _ => True

end Request

namespace Effect

variable (e : Effect) (m : Mem 64)

/-- The memory after an instruction. -/
def mem : Mem 64 := e.request.elim m (Request.exec m)

/-- The value for the destination. -/
def get (res : Result) : BitVec 64 :=
  res.get (e.request.elim 0#64 (Request.loaded m)) (e.request.elim 0#64 Request.product)
    (e.request.elim 0#64 Request.quotient) (e.request.elim 0#64 Request.remainder)

/-- The register written, and its value. -/
def written : Option (BitVec 5 × BitVec 64) := e.write.map fun x => (x.1, e.get m x.2)

end Effect

/-- The request that a result is the answer to. -/
def Result.Answers : Result → Option Request → Prop
  | .value _, _ => True
  | .loaded, r => ∃ addr bytes signed, r = some (.load addr bytes signed)
  | .product, r => ∃ w a b, r = some (.mul w a b)
  | .quotient, r => ∃ s w a b, r = some (.div s w a b)
  | .remainder, r => ∃ s w a b, r = some (.div s w a b)

namespace Instr

variable (i : Instr) (pc : BitVec 64) (x : BitVec 5 → BitVec 64)

/-- An instruction writes what it asks for. -/
theorem answers_execute : ∀ w ∈ (i.execute pc x).write, w.2.Answers (i.execute pc x).request := by
  intro w hw
  cases i with
  | mulDiv op word rs2 rs1 rd =>
    obtain rfl := Option.some.inj hw
    cases op with
    | mul => exact ⟨_, _, _, rfl⟩
    | _ => exact ⟨_, _, _, _, rfl⟩
  | load op imm rs1 rd =>
    obtain rfl := Option.some.inj hw
    exact ⟨_, _, _, rfl⟩
  | branch => exact absurd hw (Option.not_mem_none w)
  | store => exact absurd hw (Option.not_mem_none w)
  | _ =>
    obtain rfl := Option.some.inj hw
    exact trivial

end Instr

namespace Hart

variable (space : Set (BitVec 64)) (h : Hart)

/-- What an instruction does at the program counter. -/
def effect (i : Instr) : Effect := i.execute h.pc h.x

/-- The hart after an instruction. -/
def execute (i : Instr) : Hart where
  pc := (h.effect i).nextPc
  x := setReg h.x ((h.effect i).written h.mem)
  x_zero := setReg_zero h.x_zero _
  mem := (h.effect i).mem h.mem

/-- The bytes that an instruction reads: its own, and those that it loads. -/
def reads (i : Instr) : Set (BitVec 64) :=
  {a | (a - h.pc).toNat < 4} ∪ (h.effect i).request.elim ∅ Request.reads

def writes (i : Instr) : Set (BitVec 64) := (h.effect i).request.elim ∅ Request.writes

/-- The instruction is at the program counter. -/
structure Fetches (i : Instr) : Prop where
  aligned : h.pc.toNat % 4 = 0
  mem : h.pc ∈ space
  fetch : h.mem.read h.pc 4 = i.encode

/-- The instruction is at the program counter, and can be executed. -/
structure Executes (i : Instr) : Prop where
  aligned : h.pc.toNat % 4 = 0
  mem : h.pc ∈ space
  fetch : h.mem.read h.pc 4 = i.encode
  valid : ∀ r ∈ (h.effect i).request, r.Valid space

theorem Executes.fetches {space : Set (BitVec 64)} {h : Hart} {i : Instr}
    (hx : h.Executes space i) : h.Fetches space i := ⟨hx.aligned, hx.mem, hx.fetch⟩

/-- One step. -/
def Step (h' : Hart) : Prop := ∃ i, h.Executes space i ∧ h' = h.execute i

end Hart

/-- A program that runs forever, without exceptions. -/
def IsExecution (space : Set (BitVec 64)) (h : ℕ → Hart) : Prop :=
  ∀ k, (h k).Step space (h (k + 1))

/-! ## Harts that agree -/

/-- With an address, the other bytes of its double word. -/
def WordClosed (space : Set (BitVec 64)) : Prop :=
  ∀ a ∈ space, ∀ b : BitVec 64, b >>> 3 = a >>> 3 → b ∈ space

/-- The bytes that are accessed are in the space. -/
theorem WordClosed.add_mem {space : Set (BitVec 64)} (hs : WordClosed space) {addr : BitVec 64}
    (ha : addr ∈ space) {n : ℕ} (hn : n ∣ 8) (h : addr.toNat % n = 0) {k : ℕ} (hk : k < n) :
    addr + BitVec.ofNat 64 k ∈ space := by
  refine hs addr ha _ (BitVec.eq_of_toNat_eq ?_)
  have hlt := addr.isLt
  -- The bytes do not reach the end of the word.
  have hle : addr.toNat % 8 + k < 8 := by
    have hn8 : n ≤ 8 := Nat.le_of_dvd (by omega) hn
    have hcases : n = 1 ∨ n = 2 ∨ n = 4 ∨ n = 8 := by
      obtain ⟨c, hc⟩ := hn
      interval_cases n <;> omega
    rcases hcases with rfl | rfl | rfl | rfl <;> omega
  rw [BitVec.toNat_ushiftRight, BitVec.toNat_ushiftRight, Nat.shiftRight_eq_div_pow,
    Nat.shiftRight_eq_div_pow, BitVec.toNat_add, BitVec.toNat_ofNat]
  omega

/-- An aligned access stays in the space. -/
theorem WordClosed.access_subset {space : Set (BitVec 64)} (hs : WordClosed space)
    {addr : BitVec 64} (hm : addr ∈ space) {n : ℕ} (hn : n ∣ 8) (h0 : addr.toNat % n = 0) :
    {a | (a - addr).toNat < n} ⊆ space := by
  intro a ha
  have hadd : addr + BitVec.ofNat 64 (a - addr).toNat = a := by
    rw [BitVec.ofNat_toNat, BitVec.setWidth_eq, BitVec.add_comm, BitVec.sub_add_cancel]
  rw [← hadd]
  exact hs.add_mem hm hn h0 ha

/-- Loads and stores are of 1, 2, 4 or 8 bytes. -/
theorem Instr.bytes_dvd {i : Instr} {pc addr : BitVec 64} {x : BitVec 5 → BitVec 64} {n : ℕ}
    (h : (∃ s, .load addr n s ∈ (i.execute pc x).request) ∨
      ∃ d, .store addr n d ∈ (i.execute pc x).request) : n ∣ 8 := by
  cases i with
  | load op imm rs1 rd =>
    rcases h with ⟨_, h⟩ | ⟨_, h⟩
    · obtain ⟨_, rfl, _⟩ := Request.load.inj (Option.some.inj h)
      cases op <;> decide
    · exact Request.noConfusion (Option.some.inj h)
  | store op imm rs2 rs1 =>
    rcases h with ⟨_, h⟩ | ⟨_, h⟩
    · exact Request.noConfusion (Option.some.inj h)
    · obtain ⟨_, rfl, _⟩ := Request.store.inj (Option.some.inj h)
      cases op <;> decide
  | mulDiv op w rs2 rs1 rd => cases op <;> simp [Instr.execute, MulDivOp.request] at h
  | _ => simp [Instr.execute] at h

namespace Hart

/-- Two harts that a program in the space cannot tell apart. -/
structure Agrees (space : Set (BitVec 64)) (h h' : Hart) : Prop where
  pc : h.pc = h'.pc
  x : h.x = h'.x
  mem : ∀ a ∈ space, h.mem a = h'.mem a

variable {space : Set (BitVec 64)} {h h' : Hart} {i : Instr}

theorem Agrees.symm (ha : h.Agrees space h') : h'.Agrees space h :=
  ⟨ha.pc.symm, ha.x.symm, fun a hs => (ha.mem a hs).symm⟩

theorem Agrees.trans {h'' : Hart} (ha : h.Agrees space h') (ha' : h'.Agrees space h'') :
    h.Agrees space h'' :=
  ⟨ha.pc.trans ha'.pc, ha.x.trans ha'.x, fun a hs => (ha.mem a hs).trans (ha'.mem a hs)⟩

theorem Agrees.mono {known : Set (BitVec 64)} (ha : h.Agrees space h') (hs : known ⊆ space) :
    h.Agrees known h' :=
  ⟨ha.pc, ha.x, fun a hm => ha.mem a (hs hm)⟩

theorem Agrees.effect (ha : h.Agrees space h') : h.effect i = h'.effect i := by
  rw [Hart.effect, Hart.effect, ha.pc, ha.x]

theorem Agrees.reads (ha : h.Agrees space h') : h.reads i = h'.reads i := by
  rw [Hart.reads, Hart.reads, ha.pc, ha.effect]

theorem Agrees.writes (ha : h.Agrees space h') : h.writes i = h'.writes i := by
  rw [Hart.writes, Hart.writes, ha.effect]

theorem Agrees.read {known : Set (BitVec 64)} (ha : h.Agrees known h') {addr : BitVec 64} {n : ℕ}
    (hk : {a | (a - addr).toNat < n} ⊆ known) : h.mem.read addr n = h'.mem.read addr n := by
  refine Mem.read_congr fun k hkn => ha.mem _ (hk ?_)
  change (addr + BitVec.ofNat 64 k - addr).toNat < n
  rw [BitVec.add_comm, BitVec.add_sub_cancel, BitVec.toNat_ofNat]
  exact (Nat.mod_le _ _).trans_lt hkn

/-- What is loaded is the same. -/
theorem Agrees.loaded {known : Set (BitVec 64)} (ha : h.Agrees known h') (hr : h.reads i ⊆ known) :
    (h.effect i).request.elim 0#64 (Request.loaded h.mem) =
      (h.effect i).request.elim 0#64 (Request.loaded h'.mem) := by
  cases hreq : (h.effect i).request with
  | none => rfl
  | some r =>
    rw [Hart.reads, hreq] at hr
    cases r with
    | load addr n s => exact congrArg (extend 64 s) (ha.read (Set.subset_union_right.trans hr))
    | _ => rfl

/-- What is written is the same. -/
theorem Agrees.effect_mem {known : Set (BitVec 64)} (ha : h.Agrees known h') {a : BitVec 64}
    (hm : a ∈ known ∪ h.writes i) :
    (h.effect i).mem h.mem a = (h.effect i).mem h'.mem a := by
  rw [Hart.writes] at hm
  rw [Effect.mem, Effect.mem]
  cases hreq : (h.effect i).request with
  | none =>
    rw [hreq] at hm
    exact ha.mem a (hm.resolve_right (Set.notMem_empty a))
  | some r =>
    rw [hreq] at hm
    cases r with
    | store addr n data =>
      change h.mem.write addr n data a = h'.mem.write addr n data a
      by_cases hlt : (a - addr).toNat < n
      · rw [Mem.write_of_lt hlt, Mem.write_of_lt hlt]
      · rw [Mem.write_of_not_lt hlt, Mem.write_of_not_lt hlt, ha.mem a (hm.resolve_right hlt)]
    | _ => exact ha.mem a (hm.resolve_right (Set.notMem_empty a))

/-- Harts that agree on what is read execute the same instruction, and then agree on what is
    written, too. -/
theorem Agrees.execute_of_reads {known : Set (BitVec 64)} (ha : h.Agrees known h')
    (hr : h.reads i ⊆ known) (hx : h.Executes space i) :
    h'.Executes space i ∧ (h.execute i).Agrees (known ∪ h.writes i) (h'.execute i) := by
  have heff : h'.effect i = h.effect i := ha.effect.symm
  refine ⟨⟨?_, ?_, ?_, ?_⟩, ?_, ?_, fun a hm => ?_⟩
  · rw [← ha.pc]
    exact hx.aligned
  · rw [← ha.pc]
    exact hx.mem
  · rw [← ha.pc, ← ha.read (Set.subset_union_left.trans hr)]
    exact hx.fetch
  · rw [heff]
    exact hx.valid
  · exact congrArg Effect.nextPc heff.symm
  · change setReg h.x ((h.effect i).written h.mem) = setReg h'.x ((h'.effect i).written h'.mem)
    have hget : (h.effect i).get h.mem = (h.effect i).get h'.mem := by
      funext res
      rw [Effect.get, Effect.get, ha.loaded hr]
    rw [heff, ha.x, Effect.written, Effect.written, hget]
  · change (h.effect i).mem h.mem a = (h'.effect i).mem h'.mem a
    rw [heff, ha.effect_mem hm]

theorem Executes.reads_subset (hs : WordClosed space) (hx : h.Executes space i) :
    h.reads i ⊆ space := by
  refine Set.union_subset (hs.access_subset hx.mem (by decide) hx.aligned) ?_
  cases hreq : (h.effect i).request with
  | none => exact Set.empty_subset _
  | some r =>
    cases r with
    | load addr n s =>
      obtain ⟨h0, hm⟩ := hx.valid _ hreq
      exact hs.access_subset hm (Instr.bytes_dvd (.inl ⟨s, hreq⟩)) h0
    | _ => exact Set.empty_subset _

/-- Harts that agree execute the same instructions, and still agree. -/
theorem Agrees.execute (hs : WordClosed space) (ha : h.Agrees space h')
    (hx : h.Executes space i) :
    h'.Executes space i ∧ (h.execute i).Agrees space (h'.execute i) := by
  obtain ⟨hx', ha'⟩ := ha.execute_of_reads (hx.reads_subset hs) hx
  exact ⟨hx', ha'.mono Set.subset_union_left⟩

end Hart

/-- From a hart that agrees with the first one, the instructions are executed, too. -/
theorem exists_executes_of_agrees {space : Set (BitVec 64)} {x : ℕ → Hart} {i : ℕ → Instr}
    (hx : ∀ k, (x k).Executes space (i k) ∧ x (k + 1) = (x k).execute (i k)) (hs : WordClosed space)
    {h : Hart} (ha : (x 0).Agrees space h) :
    ∃ y : ℕ → Hart, y 0 = h ∧
      (∀ k, (y k).Executes space (i k) ∧ y (k + 1) = (y k).execute (i k)) ∧
      ∀ k, (x k).Agrees space (y k) := by
  let y : ℕ → Hart := fun k => k.rec h fun k h => h.execute (i k)
  have hy : ∀ k, (x k).Agrees space (y k) := by
    intro k
    induction k with
    | zero => exact ha
    | succ k ih =>
      rw [(hx k).2]
      exact (ih.execute hs (hx k).1).2
  exact ⟨y, rfl, fun k => ⟨((hy k).execute hs (hx k).1).1, rfl⟩, hy⟩

/-- From a hart that agrees with the first one, the program runs, too. -/
theorem IsExecution.exists_of_agrees {space : Set (BitVec 64)} {x : ℕ → Hart}
    (hx : IsExecution space x) (hs : WordClosed space) {h : Hart} (ha : (x 0).Agrees space h) :
    ∃ y : ℕ → Hart, y 0 = h ∧ IsExecution space y ∧ ∀ k, (x k).Agrees space (y k) := by
  choose i hi using hx
  obtain ⟨y, hy0, hy, hya⟩ := exists_executes_of_agrees hi hs ha
  exact ⟨y, hy0, fun k => ⟨i k, hy k⟩, hya⟩

/-! ## Inputs -/

section Inputs

variable (x : ℕ → Hart) (i : ℕ → Instr)

/-- The bytes that are written before an instruction. -/
def written (k : ℕ) : Set (BitVec 64) := {a | ∃ j < k, a ∈ (x j).writes (i j)}

/-- The bytes that a program reads before it has written them. -/
def inputs : Set (BitVec 64) := {a | ∃ k, a ∈ (x k).reads (i k) ∧ a ∉ written x i k}

variable {x i} {space known : Set (BitVec 64)} {h : Hart}

theorem reads_subset (k : ℕ) : (x k).reads (i k) ⊆ inputs x i ∪ written x i k := by
  intro a ha
  by_cases hw : a ∈ written x i k
  · exact .inr hw
  · exact .inl ⟨k, ha, hw⟩

theorem written_succ (k : ℕ) : written x i (k + 1) = written x i k ∪ (x k).writes (i k) := by
  ext a
  constructor
  · rintro ⟨j, hj, ha⟩
    rcases Nat.lt_succ_iff_lt_or_eq.1 hj with hj | rfl
    · exact .inl ⟨j, hj, ha⟩
    · exact .inr ha
  · rintro (⟨j, hj, ha⟩ | ha)
    · exact ⟨j, by omega, ha⟩
    · exact ⟨k, Nat.lt_succ_self k, ha⟩

theorem written_zero : written x i 0 = ∅ := Set.eq_empty_of_forall_notMem
  fun _ ⟨_, hj, _⟩ => Nat.not_lt_zero _ hj

theorem reads_zero_subset : (x 0).reads (i 0) ⊆ inputs x i := fun _ ha =>
  ⟨0, ha, fun ⟨_, hj, _⟩ => Nat.not_lt_zero _ hj⟩

theorem inputs_subset (hs : WordClosed space) (hx : ∀ k, (x k).Executes space (i k)) :
    inputs x i ⊆ space := fun _ ⟨k, ha, _⟩ => (hx k).reads_subset hs ha

/-- A hart that agrees on the inputs executes the program, and agrees on what the program has
    written, too. -/
theorem agrees_succ (hi : inputs x i ⊆ known) {k : ℕ} (hx : (x k).Executes space (i k))
    (hstep : x (k + 1) = (x k).execute (i k)) (ha : (x k).Agrees (known ∪ written x i k) h) :
    h.Executes space (i k) ∧
      (x (k + 1)).Agrees (known ∪ written x i (k + 1)) (h.execute (i k)) := by
  have hr : (x k).reads (i k) ⊆ known ∪ written x i k :=
    (reads_subset k).trans (Set.union_subset_union_left _ hi)
  rw [hstep, written_succ, ← Set.union_assoc]
  exact ha.execute_of_reads hr hx

/-- Programs that differ in other bytes only have the same inputs. -/
theorem inputs_congr {y : ℕ → Hart} (h : ∀ k, (x k).Agrees space (y k)) :
    inputs x i = inputs y i := by
  simp only [inputs, written, (h _).reads, (h _).writes]

end Inputs

end Rv64
