import RiscvCpu.Arith.Bytes
import RiscvCpu.Bus.Converters
import RiscvCpu.Core.Refinement
import RiscvCpu.Sync.Operations

/-!
# Loads and stores of bytes

To a programmer, memory is addressed by bytes. The core has an array of words of 64 bits
instead, and loads and stores through `rd` and `wd` (`Access.exec`). Naturally aligned
accesses stay within a word, and any number of them, of any sizes, does the same on both
(`accesses_refine`). An aligned load or store of the core is such an access
(`Arch.step_access`).
-/

namespace RiscvCpu

open Bits Bytes Sync

/-! ## Words as bytes -/

namespace Words

/-- An array of words as a memory of bytes. -/
def bytes (m : Words) : Mem 64 := fun a => byte (m (a >>> 3)) (a.toNat % 8)

/-- Within a word, the bytes of a memory are those of the word. -/
theorem bytes_add (m : Words) {addr : BitVec 64} {k : ℕ} (h : addr.toNat % 8 + k < 8) :
    m.bytes (addr + BitVec.ofNat 64 k) = byte (m (addr >>> 3)) (addr.toNat % 8 + k) := by
  have hlt := addr.isLt
  have ha : (addr + BitVec.ofNat 64 k).toNat = addr.toNat + k := by
    rw [BitVec.toNat_add, BitVec.toNat_ofNat]
    omega
  have hw : (addr + BitVec.ofNat 64 k) >>> 3 = addr >>> 3 := by
    apply BitVec.eq_of_toNat_eq
    rw [BitVec.toNat_ushiftRight, BitVec.toNat_ushiftRight, ha, Nat.shiftRight_eq_div_pow,
      Nat.shiftRight_eq_div_pow]
    omega
  rw [bytes, hw, ha, show (addr.toNat + k) % 8 = addr.toNat % 8 + k by omega]

/-- Within a word, the bytes that are read are a slice. -/
theorem read_bytes (m : Words) {addr : BitVec 64} {n : ℕ} (h : addr.toNat % 8 + n ≤ 8) :
    m.bytes.read addr n = (m (addr >>> 3)).extractLsb' (8 * (addr.toNat % 8)) (8 * n) := by
  apply BitVec.eq_of_getLsbD_eq
  intro j hj
  rw [Mem.getLsbD_read _ _ hj, bytes_add m (by omega), byte, BitVec.getLsbD_extractLsb',
    BitVec.getLsbD_extractLsb', decide_eq_true (Nat.mod_lt j (by omega)), decide_eq_true hj]
  rw [show 8 * (addr.toNat % 8 + j / 8) + j % 8 = 8 * (addr.toNat % 8) + j by omega]

/-- The bytes from an address on are in the same word. -/
theorem sub_lt_iff {addr a : BitVec 64} {n : ℕ} (h : addr.toNat % 8 + n ≤ 8) :
    (a - addr).toNat < n ↔ a >>> 3 = addr >>> 3 ∧
      addr.toNat % 8 ≤ a.toNat % 8 ∧ a.toNat % 8 < addr.toNat % 8 + n := by
  have hlt := addr.isLt
  have hlt' := a.isLt
  rw [← BitVec.toNat_inj, BitVec.toNat_ushiftRight, BitVec.toNat_ushiftRight, BitVec.toNat_sub,
    Nat.shiftRight_eq_div_pow, Nat.shiftRight_eq_div_pow]
  omega

/-- A masked write of a word is a write of bytes, if the strobe and the data are those of the
    lanes from the address on. -/
theorem bytes_writeHelper (m : Words) {addr data x : BitVec 64} {strobe : BitVec 8} {n : ℕ}
    (h : addr.toNat % 8 + n ≤ 8)
    (hs : ∀ k < 8, strobe.getLsbD k =
      decide (addr.toNat % 8 ≤ k ∧ k < addr.toNat % 8 + n))
    (hd : ∀ k < n, byte data (addr.toNat % 8 + k) = byte x k) :
    (m.writeHelper (addr >>> 3) data (wmask strobe)).bytes = m.bytes.write addr n x := by
  funext a
  have hk : a.toNat % 8 < 8 := Nat.mod_lt _ (by omega)
  by_cases hw : a >>> 3 = addr >>> 3
  · rw [bytes, hw, writeHelper_self, byte_write _ _ _ hk, hs _ hk]
    by_cases hin : addr.toNat % 8 ≤ a.toNat % 8 ∧ a.toNat % 8 < addr.toNat % 8 + n
    · -- A byte of the access: in the word, it is as far from the lane.
      have hsub : addr.toNat % 8 + (a - addr).toNat = a.toNat % 8 := by
        have hlt := addr.isLt
        have hlt' := a.isLt
        rw [← BitVec.toNat_inj, BitVec.toNat_ushiftRight, BitVec.toNat_ushiftRight,
          Nat.shiftRight_eq_div_pow, Nat.shiftRight_eq_div_pow] at hw
        rw [BitVec.toNat_sub]
        omega
      have hlt := (sub_lt_iff h).2 ⟨hw, hin⟩
      rw [if_pos (decide_eq_true hin), Mem.write_of_lt hlt, ← hsub, hd _ hlt, byte]
    · rw [if_neg (ne_true_of_eq_false (decide_eq_false hin)),
        Mem.write_of_not_lt fun h' => hin ((sub_lt_iff h).1 h').2, bytes, hw]
  · rw [Mem.write_of_not_lt fun h' => hw ((sub_lt_iff h).1 h').1, bytes,
      writeHelper_of_ne _ _ _ hw, bytes]

end Words

/-! ## Accesses -/

/-- A load or a store of the core, naturally aligned. -/
structure Access where
  wmem : Bool
  size : Msize
  addr : BitVec 64
  aligned : addr.toNat % size.bytes = 0
  /-- Whether a load extends the sign. -/
  readSign : Bool
  /-- The register that is stored. -/
  rfq2 : BitVec 64

namespace Access

variable (a : Access)

/-- What `wd` makes of the register. -/
def wd : BitVec 64 × BitVec 8 :=
  RiscvCpu.wd a.wmem (a.addr.extractLsb 2 0) a.rfq2 a.size.bits

/-- The request on the data bus. -/
def dreq : DbusReq :=
  { valid := true, addr := a.addr, size := a.size.bits, strobe := a.wd.2, data := a.wd.1 }

/-- The bytes loaded, out of the word in memory. -/
def readdata (tempReaddata : BitVec 64) : BitVec 64 :=
  rd tempReaddata (a.addr.extractLsb 2 0) a.size.bits !a.readSign

/-- The access to the word at `addr >> 3`, by its request on the cache bus, and what a load
    returns. -/
def exec (m : Words) : Words × Option (BitVec 64) :=
  let dcreq := DBusToCBus.dcreq a.dreq
  if dcreq.isWrite then
    (m.writeHelper (dcreq.addr >>> 3) dcreq.data (Words.wmask dcreq.strobe), none)
  else (m, some (a.readdata (m.readHelper (dcreq.addr >>> 3))))

/-- The access to a memory of bytes. -/
def spec (m : Mem 64) : Mem 64 × Option (BitVec 64) :=
  if a.wmem then (m.write a.addr a.size.bytes a.rfq2, none)
  else (m, some (extend 64 a.readSign (m.read a.addr a.size.bytes)))

/-! ## One access -/

theorem toNat_addr : (a.addr.extractLsb 2 0).toNat = a.addr.toNat % 8 := by
  rw [toNat_extractLsb, pow_zero, Nat.div_one]
  rfl

/-- An aligned access starts at its lane. -/
theorem lane_eq : a.size.lane (a.addr.extractLsb 2 0) = a.addr.toNat % 8 := by
  have h := a.aligned
  rw [Msize.lane, toNat_addr]
  revert h
  cases a.size <;> simp only [Msize.bytes] <;> omega

/-- An aligned access stays in its word. -/
theorem lane_add_le : a.addr.toNat % 8 + a.size.bytes ≤ 8 := by
  have h := a.aligned
  revert h
  cases a.size <;> simp only [Msize.bytes] <;> omega

theorem strobe_of_load (h : a.wmem = false) : a.dreq.strobe = 0#8 := by
  rw [dreq, wd, h]
  rfl

/-- A store marks the lanes of its bytes. -/
theorem getLsbD_strobe (h : a.wmem = true) {k : ℕ} (hk : k < 8) : a.dreq.strobe.getLsbD k =
    decide (a.addr.toNat % 8 ≤ k ∧ k < a.addr.toNat % 8 + a.size.bytes) := by
  rw [← lane_eq, ← RiscvCpu.getLsbD_strobe _ a.rfq2 _ hk, dreq, wd, h]

theorem strobe_of_store (h : a.wmem = true) : a.dreq.strobe ≠ 0#8 := by
  have hn : 0 < a.size.bytes := by cases a.size <;> decide
  have hk := a.getLsbD_strobe h (k := a.addr.toNat % 8) (Nat.mod_lt _ (by omega))
  rw [decide_eq_true ⟨le_rfl, by omega⟩] at hk
  intro hs
  rw [hs, BitVec.getLsbD_zero] at hk
  exact absurd hk Bool.false_ne_true

theorem isWrite_eq : (DBusToCBus.dcreq a.dreq).isWrite = a.wmem := by
  cases h : a.wmem with
  | false => exact bne_eq_false_iff_eq.2 (a.strobe_of_load h)
  | true => exact bne_iff_ne.2 (a.strobe_of_store h)

/-- A load returns the bytes at its address. -/
theorem readdata_eq (m : Words) :
    a.readdata (m (a.addr >>> 3)) = extend 64 a.readSign (m.bytes.read a.addr a.size.bytes) := by
  rw [readdata, rd_eq, lane_eq, Bool.not_not, m.read_bytes a.lane_add_le]

/-- A store changes the bytes at its address, and no others. -/
theorem bytes_writeHelper (h : a.wmem = true) (m : Words) :
    (m.writeHelper (a.addr >>> 3) a.dreq.data (Words.wmask a.dreq.strobe)).bytes =
      m.bytes.write a.addr a.size.bytes a.rfq2 := by
  refine m.bytes_writeHelper a.lane_add_le (fun k hk => a.getLsbD_strobe h hk) fun k hk => ?_
  rw [← lane_eq, dreq, wd, h, byte_wd _ _ _ hk]

/-- On words and on bytes, an access does the same. -/
theorem spec_bytes (m : Words) : a.spec m.bytes = ((a.exec m).1.bytes, (a.exec m).2) := by
  rw [spec, exec, isWrite_eq]
  cases h : a.wmem with
  | false => exact congrArg (fun v => (m.bytes, some v)) (a.readdata_eq m).symm
  | true => exact congrArg (·, none) (a.bytes_writeHelper h m).symm

end Access

/-! ## Sequences of accesses -/

/-- Accesses to words are accesses to bytes. All stores have a strobe, and loads have none. -/
theorem accesses_refine (m : Words) (l : List Access) :
    operate Access.spec l m.bytes =
      ((operate Access.exec l m).1.bytes, (operate Access.exec l m).2) ∧
    ∀ a ∈ l, (a.wmem = true → a.dreq.strobe ≠ 0#8) ∧ (a.wmem = false → a.dreq.strobe = 0#8) ∧
      (DBusToCBus.dcreq a.dreq).isWrite = a.wmem :=
  ⟨operate_abs Access.spec_bytes l m,
    fun a _ => ⟨a.strobe_of_store, a.strobe_of_load, a.isWrite_eq⟩⟩

/-- A byte is stored into a long word, and loaded as the upper half of a half word. -/
example : (operate Access.exec [⟨true, .MSIZE8, 0x80#64, rfl, false, 0x1122334455667788#64⟩,
    ⟨true, .MSIZE1, 0x83#64, rfl, false, 0xff#64⟩, ⟨false, .MSIZE2, 0x82#64, rfl, true, 0#64⟩]
      fun _ => 0#64).2 = [none, none, some 0xffffffffffffff66#64] := by decide

/-! ## The loads and stores of the core -/

/-- The access that an instruction asks for, if its address is aligned. -/
def Wires.access (w : Wires) (size : Msize) (h : w.alu.result.toNat % size.bytes = 0) :
    Access where
  wmem := w.cu.wmem
  size := size
  addr := w.alu.result
  aligned := h
  readSign := w.cu.readSign
  rfq2 := w.rfq2

/-- The network makes the request of the access. -/
theorem Wires.access_eq {w : Wires} {size : Msize} (hv : w.cu.dValid = true)
    (hs : w.cu.dByte = size.bits) (h : w.alu.result.toNat % size.bytes = 0)
    (hwd : (w.writedata, w.strobe) =
      wd w.cu.wmem (w.alu.result.extractLsb 2 0) w.rfq2 w.cu.dByte) :
    w.dreq = (w.access size h).dreq ∧ w.readdata = (w.access size h).readdata := by
  have hwd' : (w.access size h).wd = (w.writedata, w.strobe) := by
    rw [hwd, hs]
    rfl
  constructor
  · rw [dreq, Access.dreq, hv, hs, hwd']
    rfl
  · funext x
    rw [readdata, Access.readdata, hs]
    rfl

namespace Access

variable (a : Access) (m : Words)

/-- The sequential machine writes under the strobe, which is empty for a load. -/
theorem bytes_access : (m.access a.dreq).bytes = (a.spec m.bytes).1 := by
  have hm : m.access a.dreq =
      m.writeHelper (a.addr >>> 3) a.dreq.data (Words.wmask a.dreq.strobe) := if_pos rfl
  rw [hm, spec]
  cases h : a.wmem with
  | true => exact a.bytes_writeHelper h m
  | false =>
    have hlt := Nat.mod_lt a.addr.toNat (show 0 < 8 by omega)
    rw [a.strobe_of_load h, m.bytes_writeHelper (n := 0) (x := 0#64) hlt.le]
    · exact funext fun _ => Mem.write_of_not_lt (Nat.not_lt_zero _)
    · intro k _
      rw [BitVec.getLsbD_zero, decide_eq_false (by omega)]
    · exact fun k hk => absurd hk k.not_lt_zero

theorem readdata_of_spec {v : BitVec 64} (h : v ∈ (a.spec m.bytes).2) :
    a.readdata (m.word a.addr) = v := by
  have hm : m.word a.addr = m (a.addr >>> 3) := rfl
  rw [spec] at h
  cases hw : a.wmem with
  | true =>
    rw [if_pos hw] at h
    exact absurd h (Option.not_mem_none v)
  | false =>
    rw [if_neg (ne_true_of_eq_false hw)] at h
    rw [hm, a.readdata_eq, Option.some.inj h]

end Access

/-- On bytes, a step of the sequential machine does the access of its instruction. -/
theorem Arch.step_access (t : Arch) {size : Msize} (hv : t.net.cu.dValid = true)
    (hs : t.net.cu.dByte = size.bits) (h : t.net.alu.result.toNat % size.bytes = 0) :
    t.step.mem.bytes = ((t.net.access size h).spec t.mem.bytes).1 ∧
      ∀ v ∈ ((t.net.access size h).spec t.mem.bytes).2,
        t.net.readdata (t.mem.word t.net.dreq.addr) = v := by
  obtain ⟨hdreq, hread⟩ := Wires.access_eq hv hs h rfl
  have hmem : t.step.mem = t.mem.access t.net.dreq := rfl
  rw [hmem, hdreq, hread]
  exact ⟨Access.bytes_access _ _, fun v hv => Access.readdata_of_spec _ _ hv⟩

end RiscvCpu
