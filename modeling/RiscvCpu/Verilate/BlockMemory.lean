import RiscvCpu.Memory

/-!
# The memory of the simulation

A block of words of 64 bits, from an offset on. It is loaded and stored a word at a time;
`map` puts a sequence of bytes, such as the image of a program, into it.

What stops the simulation, or is undefined behaviour, has no result (`none`): an assertion
that fails, an index out of range, or a shift of an `unsigned` by 32 or more.

`map` computes its mask as an `unsigned`, of 32 bits. Hence it is only defined in the lower
half of a word, and clears the upper half: it does what it should only if the bytes are
there, and the upper half was `0` before (`mapsExactly_iff`).
-/

namespace RiscvCpu

/-- `ByteSeq`, with a `size()` of 64 bits. -/
abbrev ByteSeq := {data : List (BitVec 8) // data.length < 2 ^ 64}

def ByteSeq.size (data : ByteSeq) : BitVec 64 := BitVec.ofNat 64 data.1.length

structure BlockMemory where
  size : BitVec 64
  offset : BitVec 64
  size_mod : size.toNat % 8 = 0
  mem : Vector (BitVec 64) (size.toNat / 8)
  savedMem : Vector (BitVec 64) (size.toNat / 8)

namespace BlockMemory

/-! ## Operations -/

section Operations

variable (m : BlockMemory) (addr : BitVec 64)

/-- `mem[index]`. -/
def word (index : BitVec 64) : Option (BitVec 64) := m.mem[index.toNat]?

/-- `mem[index] = value`. -/
def setWord (index value : BitVec 64) : BlockMemory :=
  { m with mem := m.mem.setIfInBounds index.toNat value }

def reset : BlockMemory := { m with mem := m.savedMem }

def load : Option (BitVec 64) :=
  let addr := addr - m.offset
  if addr < m.size then m.word (addr / 8#64) else none

def store (data mask : BitVec 64) : Option BlockMemory :=
  let addr := addr - m.offset
  if addr < m.size then
    let index := addr / 8#64
    (m.word index).map fun value => m.setWord index ((value &&& ~~~mask) ||| (data &&& mask))
  else none

/-- `~(0xffu << shamt)`, as a word. -/
def mapMask (shamt : BitVec 64) : Option (BitVec 64) :=
  if shamt.toNat < 32 then some ((~~~(0xff#32 <<< shamt.toNat)).setWidth 64) else none

/-- The loop of `map`, for one byte; `addr` is `addr + i`. -/
def mapByte (b : BitVec 8) : Option BlockMemory := do
  let index := addr / 8#64
  let shamt := addr % 8#64 * 8#64
  let mask ← mapMask shamt
  let value ← m.word index
  return m.setWord index ((value &&& mask) ||| (b.setWidth 64 <<< shamt.toNat))

/-- The loop of `map`, from `i` on. -/
def mapFrom (i : ℕ) : List (BitVec 8) → BlockMemory → Option BlockMemory
  | [], m => some m
  | b :: data, m => (m.mapByte (addr + BitVec.ofNat 64 i) b).bind (mapFrom (i + 1) data)

/-- `addr + data.size() <= _size`, for an `addr` without the offset. -/
def InRange (data : ByteSeq) : Prop := addr - m.offset + data.size ≤ m.size

instance (data : ByteSeq) : Decidable (m.InRange addr data) := inferInstanceAs (Decidable (_ ≤ _))

def map (data : ByteSeq) : Option BlockMemory :=
  if m.InRange addr data then mapFrom (addr - m.offset) 0 data.1 m else none

end Operations

/-- `BlockMemory(_size, _offset)`. -/
def ofSize (size offset : BitVec 64) : Option BlockMemory :=
  if h : size.toNat % 8 = 0 then
    some ⟨size, offset, h, Vector.replicate _ 0#64, Vector.replicate _ 0#64⟩
  else none

/-- `BlockMemory(_size, data, _offset)`. -/
def ofSizeData (size : BitVec 64) (data : ByteSeq) (offset : BitVec 64) : Option BlockMemory := do
  let m ← ofSize size offset
  let m ← m.map offset data
  return { m with savedMem := m.mem }

/-- `BlockMemory(data, _offset)`. -/
def ofData (data : ByteSeq) (offset : BitVec 64) : Option BlockMemory :=
  ofSizeData data.size data offset

/-! ## Bytes -/

section Bytes

variable (m : BlockMemory) (addr : BitVec 64)

/-- The byte at an address without the offset. -/
def cell : Option (BitVec 8) := (m.word (addr / 8#64)).map (Words.byte · (addr.toNat % 8))

/-- The byte at an address, in the word that is loaded from there, in little-endian order. -/
def byteAt : Option (BitVec 8) :=
  (m.load addr).map (Words.byte · ((addr - m.offset).toNat % 8))

variable {m addr} {b : BitVec 8} {m' : BlockMemory}

theorem toNat_index : (addr / 8#64).toNat = addr.toNat / 8 := BitVec.toNat_udiv

/-- The range of `load` is that of the words. -/
theorem load_eq : m.load addr = m.word ((addr - m.offset) / 8#64) := by
  have h := m.size_mod
  rw [load, ite_eq_left_iff, word, toNat_index]
  intro hlt
  rw [BitVec.lt_def, not_lt] at hlt
  exact (Vector.getElem?_eq_none (by omega)).symm

theorem byteAt_eq : m.byteAt addr = m.cell (addr - m.offset) := by
  rw [byteAt, load_eq, cell]

theorem setWord_offset {i v : BitVec 64} : (m.setWord i v).offset = m.offset := rfl

theorem word_setWord {i j v : BitVec 64} :
    (m.setWord i v).word j = if i = j then (m.word j).map fun _ => v else m.word j := by
  rw [word, word, setWord, Vector.getElem?_setIfInBounds]
  by_cases hij : i = j
  · rw [if_pos (congrArg _ hij), if_pos hij, hij]
    by_cases hlt : j.toNat < m.size.toNat / 8
    · rw [if_pos hlt, Vector.getElem?_eq_getElem hlt]
      rfl
    · rw [if_neg hlt, Vector.getElem?_eq_none (not_lt.1 hlt)]
      rfl
  · rw [if_neg fun h => hij (BitVec.toNat_inj.1 h), if_neg hij]

end Bytes

/-! ## The loop -/

/-- A word with the byte `j` replaced by `map`. -/
def placed (value : BitVec 64) (b : BitVec 8) (j : ℕ) : BitVec 64 :=
  (value &&& (~~~(0xff#32 <<< (j * 8))).setWidth 64) ||| (b.setWidth 64 <<< (j * 8))

theorem getLsbD_mapMask (j : ℕ) {n : ℕ} (hn : n < 64) :
    ((~~~(0xff#32 <<< (j * 8))).setWidth 64).getLsbD n =
      decide (n < 32 ∧ ¬(j * 8 ≤ n ∧ n < j * 8 + 8)) := by
  have hff : 0xff#32 = (BitVec.allOnes 8).setWidth 32 := by decide
  rw [hff, Bool.eq_iff_iff]
  simp only [BitVec.getLsbD_setWidth, BitVec.getLsbD_not, BitVec.getLsbD_shiftLeft,
    BitVec.getLsbD_allOnes, Bool.and_eq_true, Bool.not_eq_true', Bool.and_eq_false_iff,
    decide_eq_true_eq, decide_eq_false_iff_not, Bool.not_eq_false']
  omega

/-- The byte is placed, and the upper half is cleared. -/
theorem byte_placed (value : BitVec 64) (b : BitVec 8) {j k : ℕ} (hj : j < 4) (hk : k < 8) :
    Words.byte (placed value b j) k =
      if k = j then b else if k < 4 then Words.byte value k else 0#8 := by
  apply BitVec.eq_of_getLsbD_eq
  intro i hi
  have hn : 8 * k + i < 64 := by omega
  rw [Words.byte, placed, BitVec.getLsbD_extractLsb', BitVec.getLsbD_or, BitVec.getLsbD_and,
    getLsbD_mapMask j hn, BitVec.getLsbD_shiftLeft, BitVec.getLsbD_setWidth, decide_eq_true hi,
    decide_eq_true hn, decide_eq_true (show 8 * k + i - j * 8 < 64 by omega), Bool.true_and,
    Bool.true_and, Bool.true_and]
  by_cases hkj : k = j
  · -- The byte itself: the mask has cleared it.
    have hm : ¬(8 * k + i < 32 ∧ ¬(j * 8 ≤ 8 * k + i ∧ 8 * k + i < j * 8 + 8)) := by omega
    rw [if_pos hkj, decide_eq_false hm, decide_eq_false (show ¬8 * k + i < j * 8 by omega),
      show 8 * k + i - j * 8 = i by omega, Bool.and_false, Bool.false_or, Bool.not_false,
      Bool.true_and]
  -- Another byte, to which `b` does not contribute.
  have hb : (!decide (8 * k + i < j * 8) && b.getLsbD (8 * k + i - j * 8)) = false := by
    by_cases hlt : 8 * k + i < j * 8
    · rw [decide_eq_true hlt]
      rfl
    · rw [BitVec.getLsbD_of_ge _ _ (by omega), Bool.and_false]
  rw [if_neg hkj, hb, Bool.or_false]
  by_cases h4 : k < 4
  · rw [if_pos h4, decide_eq_true (by omega), Bool.and_true, Words.byte,
      BitVec.getLsbD_extractLsb', decide_eq_true hi, Bool.true_and]
  · rw [if_neg h4, decide_eq_false (by omega), Bool.and_false, BitVec.getLsbD_zero]

section Loop

variable {m m' : BlockMemory} {addr : BitVec 64} {b : BitVec 8} {data : List (BitVec 8)} {i : ℕ}

theorem toNat_shamt : (addr % 8#64 * 8#64).toNat = addr.toNat % 8 * 8 := by
  have h8 : (8#64).toNat = 8 := rfl
  rw [BitVec.toNat_mul, BitVec.toNat_umod, h8]
  omega

/-- In the upper half of a word, the shift is undefined. -/
theorem mapByte_of_ge (h : 4 ≤ addr.toNat % 8) : m.mapByte addr b = none := by
  have hs : ¬(addr % 8#64 * 8#64).toNat < 32 := by
    rw [toNat_shamt]
    omega
  rw [mapByte, mapMask, if_neg hs]
  rfl

theorem mapByte_of_lt (h : addr.toNat % 8 < 4) : m.mapByte addr b =
    (m.word (addr / 8#64)).map fun value =>
      m.setWord (addr / 8#64) (placed value b (addr.toNat % 8)) := by
  have hs : (addr % 8#64 * 8#64).toNat < 32 := by
    rw [toNat_shamt]
    omega
  rw [mapByte, mapMask, if_pos hs, toNat_shamt]
  cases m.word (addr / 8#64) <;> rfl

/-- One byte is written, and the upper half of its word is cleared. -/
theorem cell_mapByte (h : m.mapByte addr b = some m') : addr.toNat % 8 < 4 ∧
    m'.offset = m.offset ∧ ∀ q, m'.cell q =
      if q = addr then some b
      else if q / 8#64 = addr / 8#64 ∧ 4 ≤ q.toNat % 8 then (m.cell q).map fun _ => 0#8
      else m.cell q := by
  have hlt : addr.toNat % 8 < 4 := by
    by_contra hge
    rw [mapByte_of_ge (not_lt.1 hge)] at h
    exact absurd h (Option.some_ne_none _).symm
  rw [mapByte_of_lt hlt, Option.map_eq_some_iff] at h
  obtain ⟨value, hvalue, rfl⟩ := h
  refine ⟨hlt, rfl, fun q => ?_⟩
  have hq : q.toNat % 8 < 8 := Nat.mod_lt _ (by omega)
  rw [cell, word_setWord]
  by_cases hw : addr / 8#64 = q / 8#64
  · have heq : q = addr ↔ q.toNat % 8 = addr.toNat % 8 := by
      rw [← BitVec.toNat_inj, toNat_index, toNat_index] at hw
      rw [← BitVec.toNat_inj]
      omega
    rw [if_pos hw, ← hw, hvalue, Option.map_some, Option.map_some, byte_placed _ _ hlt hq, cell,
      ← hw, hvalue, Option.map_some]
    by_cases hqa : q.toNat % 8 = addr.toNat % 8
    · rw [if_pos hqa, if_pos (heq.2 hqa)]
    rw [if_neg hqa, if_neg fun h => hqa (heq.1 h)]
    by_cases h4 : q.toNat % 8 < 4
    · rw [if_pos h4, if_neg fun h => absurd h.2 (not_le.2 h4)]
    · rw [if_neg h4, if_pos ⟨rfl, not_lt.1 h4⟩, Option.map_some]
  · rw [if_neg hw, if_neg fun h => hw (congrArg (· / 8#64) h.symm), if_neg fun h => hw h.1.symm,
      cell]

/-- After the lower half of a word, there is its upper half. -/
theorem next_of_lt (h : addr.toNat % 8 < 4) :
    (addr + 1#64).toNat = addr.toNat + 1 ∧ (addr + 1#64) / 8#64 = addr / 8#64 := by
  have hlt := addr.isLt
  have hadd : (addr + 1#64).toNat = addr.toNat + 1 := by
    rw [BitVec.toNat_add, show (1#64).toNat = 1 from rfl]
    omega
  refine ⟨hadd, BitVec.eq_of_toNat_eq ?_⟩
  rw [toNat_index, toNat_index, hadd]
  omega

theorem add_ofNat_succ : addr + BitVec.ofNat 64 (i + 1) = addr + BitVec.ofNat 64 i + 1#64 := by
  rw [BitVec.ofNat_add, BitVec.add_assoc]

/-- The bytes from an address on are the one there and those from the next address on. -/
theorem getElem?_sub_of_ne {q : BitVec 64} (hadd : (addr + 1#64).toNat = addr.toNat + 1)
    (hq : q ≠ addr) :
    (b :: data)[(q - addr).toNat]? = data[(q - (addr + 1#64)).toNat]? := by
  have hne : q.toNat ≠ addr.toNat := fun h => hq (BitVec.toNat_inj.1 h)
  have hqlt := q.isLt
  have halt := addr.isLt
  have hk : (q - addr).toNat = (q - (addr + 1#64)).toNat + 1 := by
    rw [BitVec.toNat_sub, BitVec.toNat_sub, hadd]
    omega
  rw [hk, List.getElem?_cons_succ]

theorem getElem?_sub_self (hadd : (addr + 1#64).toNat = addr.toNat + 1)
    (hlen : data.length < 4) : data[(addr - (addr + 1#64)).toNat]? = none := by
  have halt := addr.isLt
  rw [List.getElem?_eq_none_iff, BitVec.toNat_sub, hadd]
  omega

/-- The loop does not leave the lower half of a word. There, it writes the bytes, and clears
    the upper half. -/
theorem cell_mapFrom (h : mapFrom addr i data m = some m') :
    (data = [] ∨ (addr + BitVec.ofNat 64 i).toNat % 8 + data.length ≤ 4) ∧
    m'.offset = m.offset ∧ ∀ q, m'.cell q =
      data[(q - (addr + BitVec.ofNat 64 i)).toNat]?.or
        (if data ≠ [] ∧ q / 8#64 = (addr + BitVec.ofNat 64 i) / 8#64 ∧ 4 ≤ q.toNat % 8 then
          (m.cell q).map fun _ => 0#8
        else m.cell q) := by
  induction data generalizing i m with
  | nil =>
    obtain rfl := Option.some.inj h
    refine ⟨.inl rfl, rfl, fun q => ?_⟩
    rw [if_neg fun h => h.1 rfl]
    rfl
  | cons b data ih =>
    obtain ⟨m1, h1, h2⟩ := Option.bind_eq_some_iff.1 h
    obtain ⟨hlt, ho, hc⟩ := cell_mapByte h1
    obtain ⟨hlen, ho', hc'⟩ := ih h2
    rw [add_ofNat_succ] at hlen hc'
    generalize addr + BitVec.ofNat 64 i = a at hlt hlen hc hc' ⊢
    obtain ⟨hadd, hindex⟩ := next_of_lt hlt
    have hlen' : a.toNat % 8 + (data.length + 1) ≤ 4 := by
      rcases hlen with rfl | hlen
      · rw [List.length_nil]
        omega
      · omega
    refine ⟨.inr hlen', ho'.trans ho, fun q => ?_⟩
    rw [hc', hc, hindex]
    by_cases hq : q = a
    · -- The byte of this step: it is in the lower half, and the others are after it.
      rw [hq, getElem?_sub_self hadd (by omega), if_neg fun h => absurd h.2.2 (by omega),
        if_pos rfl, BitVec.sub_self]
      rfl
    · rw [getElem?_sub_of_ne hadd hq, if_neg hq]
      congr 1
      by_cases hup : q / 8#64 = a / 8#64 ∧ 4 ≤ q.toNat % 8
      · have hnil : b :: data ≠ [] := List.cons_ne_nil b data
        refine Eq.trans ?_ (if_pos ⟨hnil, hup⟩).symm
        rw [if_pos hup, Option.map_map]
        exact ite_self _
      · rw [if_neg hup, if_neg fun h => hup h.2, if_neg fun h => hup h.2]

/-- In the lower half of a word, the loop goes through. -/
theorem exists_mapFrom (hw : (m.word ((addr + BitVec.ofNat 64 i) / 8#64)).isSome = true)
    (h : (addr + BitVec.ofNat 64 i).toNat % 8 + data.length ≤ 4) :
    ∃ m', mapFrom addr i data m = some m' := by
  induction data generalizing i m with
  | nil => exact ⟨m, rfl⟩
  | cons b data ih =>
    rw [List.length_cons] at h
    have hlt : (addr + BitVec.ofNat 64 i).toNat % 8 < 4 := by omega
    obtain ⟨hadd, hindex⟩ := next_of_lt hlt
    obtain ⟨value, hvalue⟩ := Option.isSome_iff_exists.1 hw
    rw [mapFrom, mapByte_of_lt hlt, hvalue, Option.map_some, Option.bind_some]
    refine ih ?_ (by rw [add_ofNat_succ, hadd]; omega)
    rw [add_ofNat_succ, hindex, word_setWord, if_pos rfl, hvalue]
    rfl

end Loop

/-! ## Images -/

section Map

variable (m : BlockMemory) (addr : BitVec 64) (data : ByteSeq)

/-- `map` stores the bytes, and keeps all others. -/
def MapsExactly : Prop := ∃ m', m.map addr data = some m' ∧
  (∀ i (h : i < data.1.length), m'.byteAt (addr + BitVec.ofNat 64 i) = some data.1[i]) ∧
  ∀ a, (∀ i < data.1.length, a ≠ addr + BitVec.ofNat 64 i) → m'.byteAt a = m.byteAt a

variable {m addr data} {m' : BlockMemory}

theorem extractLsb_eq_zero_iff {value : BitVec 64} : value.extractLsb 63 32 = 0#32 ↔
    ∀ k, 4 ≤ k → k < 8 → Words.byte value k = 0#8 := by
  have hlt := value.isLt
  have hb : ∀ k, (Words.byte value k).toNat = value.toNat / 2 ^ (8 * k) % 2 ^ 8 := fun k => by
    rw [Words.byte, BitVec.extractLsb'_toNat, Nat.shiftRight_eq_div_pow]
  simp only [← BitVec.toNat_inj, Bits.toNat_extractLsb, hb, BitVec.toNat_ofNat]
  constructor
  · intro h k h4 h8
    interval_cases k <;> omega
  · intro h
    have h4 := h 4 (by omega) (by omega)
    have h5 := h 5 (by omega) (by omega)
    have h6 := h 6 (by omega) (by omega)
    have h7 := h 7 (by omega) (by omega)
    omega

theorem byteAt_map (h : m.map addr data = some m') :
    (data.1 = [] ∨ (addr - m.offset).toNat % 8 + data.1.length ≤ 4) ∧ ∀ a, m'.byteAt a =
      data.1[(a - addr).toNat]?.or
        (if data.1 ≠ [] ∧ (a - m.offset) / 8#64 = (addr - m.offset) / 8#64 ∧
            4 ≤ (a - m.offset).toNat % 8 then (m.byteAt a).map fun _ => 0#8
        else m.byteAt a) := by
  rw [map, Option.ite_none_right_eq_some] at h
  obtain ⟨hlen, ho, hc⟩ := cell_mapFrom h.2
  rw [BitVec.add_zero] at hlen hc
  refine ⟨hlen, fun a => ?_⟩
  have hsub : a - m.offset - (addr - m.offset) = a - addr := by
    rw [BitVec.sub_sub, BitVec.add_comm, BitVec.sub_add_cancel]
  rw [byteAt_eq, ho, hc, hsub, byteAt_eq]

theorem map_nil (h : m.InRange addr data) (hd : data.1 = []) : m.map addr data = some m := by
  rw [map, if_pos h, hd]
  rfl

/-- If the bytes are in the lower half of a word, this word exists. -/
theorem exists_map (h : m.InRange addr data) (hd : data.1 ≠ [])
    (hlen : (addr - m.offset).toNat % 8 + data.1.length ≤ 4) : ∃ m', m.map addr data = some m' := by
  have hpos := List.length_pos_iff.2 hd
  have hmod := m.size_mod
  have hlt := (addr - m.offset).isLt
  have hle : (addr - m.offset).toNat + data.1.length ≤ m.size.toNat := by
    have h' := BitVec.le_def.1 h
    rw [BitVec.toNat_add, ByteSeq.size, BitVec.toNat_ofNat, Nat.mod_eq_of_lt data.2] at h'
    omega
  have hidx : (m.word ((addr - m.offset) / 8#64)).isSome = true := by
    rw [word, Vector.getElem?_eq_getElem (by rw [toNat_index]; omega)]
    rfl
  rw [map, if_pos h]
  exact exists_mapFrom (by rwa [BitVec.add_zero]) (by rwa [BitVec.add_zero])

theorem byteAt_of_index {a : BitVec 64} (h : (a - m.offset) / 8#64 = (addr - m.offset) / 8#64) :
    m.byteAt a = (m.load addr).map (Words.byte · ((a - m.offset).toNat % 8)) := by
  rw [byteAt, load_eq, load_eq, h]

/-- The bytes of the range, and no others, are at a distance below the length. -/
theorem sub_lt_of_ne {a : BitVec 64} (h : ∀ i < data.1.length, a ≠ addr + BitVec.ofNat 64 i) :
    data.1.length ≤ (a - addr).toNat := by
  by_contra hlt
  refine h _ (not_le.1 hlt) ?_
  rw [BitVec.ofNat_toNat, BitVec.setWidth_eq, BitVec.add_comm, BitVec.sub_add_cancel]

theorem toNat_add_sub {i : ℕ} (h : i < 2 ^ 64) : (addr + BitVec.ofNat 64 i - addr).toNat = i := by
  rw [BitVec.add_comm, BitVec.add_sub_cancel, BitVec.toNat_ofNat, Nat.mod_eq_of_lt h]

/-- If no other byte changes, the upper half of the word was `0`. -/
theorem MapsExactly.upper (h : m.MapsExactly addr data) (hd : data.1 ≠ []) :
    (addr - m.offset).toNat % 8 + data.1.length ≤ 4 ∧
      ∀ value ∈ m.load addr, value.extractLsb 63 32 = 0#32 := by
  obtain ⟨m', hm, _, hout⟩ := h
  obtain ⟨hlen, hb⟩ := byteAt_map hm
  have hlen := hlen.resolve_left hd
  refine ⟨hlen, fun value hv => extractLsb_eq_zero_iff.2 fun k h4 h8 => ?_⟩
  -- The byte `k` of the word is `j` bytes after the first one that is mapped.
  obtain ⟨j, rfl⟩ := Nat.exists_eq_add_of_le (show (addr - m.offset).toNat % 8 ≤ k by omega)
  have hj : (addr + BitVec.ofNat 64 j - addr).toNat = j := toNat_add_sub (by omega)
  have hlt := (addr - m.offset).isLt
  have ha : (addr + BitVec.ofNat 64 j - m.offset).toNat = (addr - m.offset).toNat + j := by
    have hsub : addr + BitVec.ofNat 64 j - m.offset = addr - m.offset + BitVec.ofNat 64 j := by
      rw [BitVec.sub_eq_add_neg, BitVec.sub_eq_add_neg, BitVec.add_assoc, BitVec.add_assoc,
        BitVec.add_comm (BitVec.ofNat 64 j)]
    rw [hsub, BitVec.toNat_add, BitVec.toNat_ofNat]
    omega
  have hi : (addr + BitVec.ofNat 64 j - m.offset) / 8#64 = (addr - m.offset) / 8#64 := by
    rw [← BitVec.toNat_inj, toNat_index, toNat_index, ha]
    omega
  have hmod : (addr + BitVec.ofNat 64 j - m.offset).toNat % 8 =
      (addr - m.offset).toNat % 8 + j := by omega
  have hkeep := hout (addr + BitVec.ofNat 64 j) fun i hi heq => by
    rw [heq, toNat_add_sub (hi.trans data.2)] at hj
    omega
  rw [hb, hj, List.getElem?_eq_none (by omega), Option.none_or, if_pos ⟨hd, hi, by omega⟩,
    byteAt_of_index hi, hv, hmod, Option.map_some, Option.map_some] at hkeep
  exact (Option.some.inj hkeep).symm

/-- `map` does what it should if and only if there are no bytes, or they are in the lower half
    of a word whose upper half is `0`. -/
theorem mapsExactly_iff (h : m.InRange addr data) : m.MapsExactly addr data ↔
    data.1 = [] ∨ ((addr - m.offset).toNat % 8 + data.1.length ≤ 4 ∧
      ∀ value ∈ m.load addr, value.extractLsb 63 32 = 0#32) := by
  constructor
  · intro hm
    by_cases hd : data.1 = []
    · exact .inl hd
    · exact .inr (hm.upper hd)
  · intro hc
    by_cases hd : data.1 = []
    · refine ⟨m, map_nil h hd, fun i hi => ?_, fun _ _ => rfl⟩
      rw [hd] at hi
      exact absurd hi i.not_lt_zero
    obtain ⟨hlen, hup⟩ := hc.resolve_left hd
    obtain ⟨m', hm⟩ := exists_map h hd hlen
    obtain ⟨-, hb⟩ := byteAt_map hm
    refine ⟨m', hm, fun i hi => ?_, fun a ha => ?_⟩
    · rw [hb, toNat_add_sub (hi.trans data.2), List.getElem?_eq_getElem hi, Option.some_or]
    · rw [hb, List.getElem?_eq_none (sub_lt_of_ne ha), Option.none_or]
      split_ifs with hw
      · -- In the upper half, what is cleared was `0`.
        rw [byteAt_of_index hw.2.1]
        cases hv : m.load addr with
        | none => rfl
        | some value =>
          have hz := extractLsb_eq_zero_iff.1 (hup value hv) _ hw.2.2 (Nat.mod_lt _ (by omega))
          rw [Option.map_some, Option.map_some, hz]
      · rfl

end Map

/-- One word, all ones. -/
def ones : BlockMemory := ⟨8#64, 0#64, rfl, #v[BitVec.allOnes 64], #v[0#64]⟩

/-- One byte is mapped to the first address, and the byte `4` is lost. -/
theorem not_mapsExactly_ones :
    let data : ByteSeq := ⟨[0x12#8], by decide⟩
    ones.InRange 0#64 data ∧ ones.byteAt 4#64 = some 0xff#8 ∧
      (ones.map 0#64 data).bind (·.byteAt 4#64) = some 0#8 ∧ ¬ones.MapsExactly 0#64 data := by
  intro data
  refine ⟨by decide, by decide, by decide, fun h => ?_⟩
  obtain ⟨_, hup⟩ := h.upper (List.cons_ne_nil _ _)
  exact absurd (hup (BitVec.allOnes 64) (by decide)) (by decide)

/-- One word, all zeros. -/
def zeros : BlockMemory := ⟨8#64, 0x1000#64, rfl, #v[0#64], #v[0#64]⟩

theorem mapsExactly_zeros :
    let data : ByteSeq := ⟨[0x12#8, 0x34#8, 0x56#8], by decide⟩
    zeros.MapsExactly 0x1001#64 data := by
  intro data
  have hv : zeros.load 0x1001#64 = some 0#64 := by decide
  refine (mapsExactly_iff (by decide)).2 (.inr ⟨by decide, fun value h => ?_⟩)
  rw [hv] at h
  rw [← Option.some.inj h]
  decide

/-! ## Other operations -/

section Other

variable {m m' : BlockMemory} {addr offset size : BitVec 64} {data : ByteSeq}

/-- With its mask of 64 bits, a store replaces the bytes of a strobe, and no others. -/
theorem byteAt_store {x : BitVec 64} {strobe : BitVec 8}
    (h : m.store addr x (Words.wmask strobe) = some m') (a : BitVec 64) : m'.byteAt a =
      if (a - m.offset) / 8#64 = (addr - m.offset) / 8#64 ∧
          strobe.getLsbD ((a - m.offset).toNat % 8) = true then
        some (Words.byte x ((a - m.offset).toNat % 8))
      else m.byteAt a := by
  rw [store, Option.ite_none_right_eq_some, Option.map_eq_some_iff] at h
  obtain ⟨_, value, hv, rfl⟩ := h
  have hk : (a - m.offset).toNat % 8 < 8 := Nat.mod_lt _ (by omega)
  rw [byteAt_eq, byteAt_eq, setWord_offset, cell, cell, word_setWord]
  by_cases hi : (addr - m.offset) / 8#64 = (a - m.offset) / 8#64
  · rw [if_pos hi, ← hi, hv, Option.map_some, Option.map_some, Words.byte_write _ _ _ hk,
      Option.map_some]
    cases hs : strobe.getLsbD ((a - m.offset).toNat % 8) with
    | true => rw [if_pos rfl, if_pos ⟨rfl, rfl⟩]
    | false => rw [if_neg Bool.false_ne_true, if_neg fun h => Bool.false_ne_true h.2]
  · rw [if_neg hi, if_neg fun h => hi h.1.symm]

theorem reset_mapFrom {i : ℕ} {data : List (BitVec 8)} (h : mapFrom addr i data m = some m') :
    m'.reset = m.reset := by
  induction data generalizing i m with
  | nil => rw [Option.some.inj h]
  | cons b data ih =>
    obtain ⟨m1, h1, h2⟩ := Option.bind_eq_some_iff.1 h
    rw [mapByte_of_lt (cell_mapByte h1).1, Option.map_eq_some_iff] at h1
    obtain ⟨value, _, rfl⟩ := h1
    rw [ih h2]
    rfl

/-- `map` does not change what `reset` restores. -/
theorem reset_map (h : m.map addr data = some m') : m'.reset = m.reset := by
  rw [map, Option.ite_none_right_eq_some] at h
  exact reset_mapFrom h.2

/-- No constructor takes an image of more than 4 bytes. -/
theorem length_le_of_ofSizeData (h : ofSizeData size data offset = some m) :
    size.toNat % 8 = 0 ∧ data.1.length ≤ 4 := by
  obtain ⟨m0, h0, h⟩ := Option.bind_eq_some_iff.1 h
  obtain ⟨m1, h1, _⟩ := Option.bind_eq_some_iff.1 h
  rw [ofSize, Option.dite_none_right_eq_some] at h0
  obtain ⟨hmod, h0⟩ := h0
  obtain rfl := Option.some.inj h0
  refine ⟨hmod, ?_⟩
  rcases (byteAt_map h1).1 with hd | hlen
  · rw [hd, List.length_nil]
    omega
  · omega

/-- A memory of the size of its image can only be empty. -/
theorem eq_nil_of_ofData (h : ofData data offset = some m) : data.1 = [] := by
  obtain ⟨hmod, hlen⟩ := length_le_of_ofSizeData h
  rw [ByteSeq.size, BitVec.toNat_ofNat, Nat.mod_eq_of_lt data.2] at hmod
  exact List.length_eq_zero_iff.1 (by omega)

end Other

end BlockMemory

end RiscvCpu
