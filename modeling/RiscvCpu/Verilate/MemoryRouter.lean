import RiscvCpu.Sync.Operations
import RiscvCpu.Verilate.BlockMemory
import RiscvCpu.Verilate.Confreg

/-!
# The devices of the simulation

The simulation has a memory and the configuration registers behind a router. The memory is at
two places: from the start on, and in a window of 1 MiB, where the processor of the SoC starts.

Whatever the loads and stores are, the memory is a single one, with every store done where the
window or the plain address says, and the registers serve those accesses that are routed to
them, as if there were no others (`isRun_routes`).
-/

namespace RiscvCpu

open Sync

/-- An entry, with its prefix `pre`. -/
structure MemoryRouter.Entry (D : Type*) where
  mask : BitVec 64
  pre : BitVec 64
  mem : D
  translate : BitVec 64 → BitVec 64

abbrev MemoryRouter (D : Type*) := List (MemoryRouter.Entry D)

/-- The first entry for an address. -/
def MemoryRouter.search {D : Type*} (r : MemoryRouter D) (addr : BitVec 64) :
    Option (MemoryRouter.Entry D) :=
  r.find? fun e => addr &&& e.mask == e.pre

/-! ## The router -/

/-- The devices of `install_soc`. -/
inductive Soc.Device
  | mem
  | con

structure Soc where
  mem : BlockMemory
  con : Confreg

namespace Soc

open Confreg (ADDR_MASK Ready During Synced value loads expected)

def layout : MemoryRouter Device :=
  [⟨0xfff00000#64, 0x1fc00000#64, .mem, fun addr => addr - 0x1fc00000#64⟩,
    ⟨0xffff0000#64, 0x1faf0000#64, .con, fun addr => addr⟩,
    ⟨0x00000000#64, 0x00000000#64, .mem, fun addr => addr⟩]

section Operations

variable (s : Soc)

def resetDevice : Device → Soc
  | .mem => { s with mem := s.mem.reset }
  | .con => { s with con := s.con.reset }

/-- The memory is reset twice. -/
def reset : Soc := layout.foldl (fun s e => s.resetDevice e.mem) s

def load (addr : BitVec 64) : Option (BitVec 64 × Soc) :=
  (layout.search addr).bind fun e =>
    match e.mem with
    | .mem => (s.mem.load (e.translate addr)).map fun v => (v, s)
    | .con => (s.con.load (e.translate addr)).map fun (v, c) => (v, { s with con := c })

def store (addr data mask : BitVec 64) : Option Soc :=
  (layout.search addr).bind fun e =>
    match e.mem with
    | .mem => (s.mem.store (e.translate addr) data mask).map fun m => { s with mem := m }
    | .con => (s.con.store (e.translate addr) data mask).map fun c => { s with con := c }

/-- The value of an access that is a load, and the devices after it. -/
def access : Confreg.Access → Option (Option (BitVec 64) × Soc)
  | .load addr => (s.load addr).map fun (v, s) => (some v, s)
  | .store addr data mask => (s.store addr data mask).map fun s => (none, s)
  | .receive char => some (none, { s with con := s.con.receive char })

/-- The values that are loaded, in order. -/
def accesses : List Confreg.Access → Soc → Option (List (BitVec 64) × Soc)
  | [], s => some ([], s)
  | x :: l, s =>
    (s.access x).bind fun (v, s) => (accesses l s).map fun (vs, s) => (v.toList ++ vs, s)

/-- The accesses of a cycle, and the clock edge. -/
def cycle (l : List Confreg.Access) : Option (List (BitVec 64) × Soc) :=
  (accesses l s).bind fun (vs, s) => s.con.sync.map fun c => (vs, { s with con := c })

/-- A run from the reset. -/
structure IsRun (a : ℕ → List Confreg.Access) (s₀ : Soc) (s : ℕ → Soc)
    (vs : ℕ → List (BitVec 64)) : Prop where
  init : s 0 = s₀.reset
  next : ∀ n, (s n).cycle (a n) = some (vs n, s (n + 1))

end Operations

/-! ## What an access is for -/

/-- The device of an address, and the address there. -/
def route (addr : BitVec 64) : Device × BitVec 64 :=
  if addr &&& 0xfff00000#64 = 0x1fc00000#64 then (.mem, addr - 0x1fc00000#64)
  else if addr &&& 0xffff0000#64 = 0x1faf0000#64 then (.con, addr)
  else (.mem, addr)

/-- What is asked of the registers. -/
def toCon : Confreg.Access → Option Confreg.Access
  | .load addr =>
    match route addr with
    | (.mem, _) => none
    | (.con, addr) => some (.load addr)
  | .store addr data mask =>
    match route addr with
    | (.mem, _) => none
    | (.con, addr) => some (.store addr data mask)
  | .receive char => some (.receive char)

/-- The address in the memory. -/
def toMem : Confreg.Access → Option (BitVec 64)
  | .load addr | .store addr _ _ =>
    match route addr with
    | (.mem, addr) => some addr
    | (.con, _) => none
  | .receive _ => none

/-- The simulation stops. -/
def Fatal (m : BlockMemory) (x : Confreg.Access) : Prop :=
  (∃ y ∈ toCon x, y.Fatal) ∨ ∃ addr ∈ toMem x, m.size ≤ addr - m.offset

/-- The range is checked at the one address only. -/
instance (m : BlockMemory) : DecidablePred (Fatal m) := fun x =>
  have : Decidable (∃ addr ∈ toMem x, m.size ≤ addr - m.offset) :=
    decidable_of_iff ((toMem x).any fun addr => decide (m.size ≤ addr - m.offset))
      (by simp [Option.any_eq_true])
  inferInstanceAs (Decidable (_ ∨ _))

/-- The word of an address. -/
def cell (m : BlockMemory) (addr : BitVec 64) : BitVec 64 := (addr - m.offset) / 8#64

/-- An access to the words of the memory, where the registers have given values. -/
def op (m : BlockMemory) (value : BitVec 64 → BitVec 64) :
    Confreg.Access → Words → Words × Option (BitVec 64)
  | .load addr, w =>
    match route addr with
    | (.mem, addr) => (w, some (w (cell m addr)))
    | (.con, addr) => (w, some (value (addr &&& ADDR_MASK)))
  | .store addr data mask, w =>
    match route addr with
    | (.mem, addr) => (w.writeHelper (cell m addr) data mask, none)
    | (.con, _) => (w, none)
  | .receive _, w => (w, none)

/-- The block has the words. -/
structure Holds (m₀ m : BlockMemory) (w : Words) : Prop where
  size : m.size = m₀.size
  offset : m.offset = m₀.offset
  word : ∀ idx, idx.toNat < m₀.size.toNat / 8 → m.word idx = some (w idx)

section Devices

variable {m₀ m : BlockMemory} {w : Words} {c c' : Confreg} {addr data mask : BitVec 64}

theorem toNat_cell_lt (h : addr - m.offset < m.size) : (cell m addr).toNat < m.size.toNat / 8 := by
  have hmod := m.size_mod
  rw [BitVec.lt_def] at h
  rw [cell, BlockMemory.toNat_index]
  omega

theorem Holds.mem_load (h : Holds m₀ m w) (addr : BitVec 64) : m.load addr =
    if m₀.size ≤ addr - m₀.offset then none else some (w (cell m₀ addr)) := by
  rw [BlockMemory.load, h.size, h.offset]
  by_cases hlt : addr - m₀.offset < m₀.size
  · rw [if_pos hlt, if_neg (BitVec.not_le.2 hlt), ← h.word _ (toNat_cell_lt hlt), cell]
  · rw [if_neg hlt, if_pos (BitVec.not_lt.1 hlt)]

theorem Holds.mem_store (h : Holds m₀ m w) (addr data mask : BitVec 64) :
    (m₀.size ≤ addr - m₀.offset → m.store addr data mask = none) ∧
    (¬m₀.size ≤ addr - m₀.offset → ∃ m', m.store addr data mask = some m' ∧
      Holds m₀ m' (w.writeHelper (cell m₀ addr) data mask)) := by
  rw [BlockMemory.store, h.size, h.offset]
  dsimp only
  constructor
  · exact fun hle => if_neg (BitVec.not_lt.2 hle)
  · intro hlt
    rw [BitVec.not_le] at hlt
    have hword : m.word ((addr - m₀.offset) / 8#64) = some (w (cell m₀ addr)) :=
      h.word _ (toNat_cell_lt hlt)
    rw [if_pos hlt, hword]
    refine ⟨_, rfl, h.size, h.offset, fun idx hlt => ?_⟩
    rw [BlockMemory.word_setWord, h.word idx hlt, Option.map_some, Words.writeHelper]
    change (if cell m₀ addr = idx then _ else _) = _
    by_cases heq : idx = cell m₀ addr
    · rw [if_pos heq.symm, if_pos heq, heq]
    · rw [if_neg fun h => heq h.symm, if_neg heq]

/-- The search ends, at the device of the address. -/
theorem search_layout (addr : BitVec 64) : ∃ e, layout.search addr = some e ∧
    (e.mem, e.translate addr) = route addr := by
  rw [route, MemoryRouter.search, layout, List.find?_cons, List.find?_cons, List.find?_cons]
  by_cases hboot : addr &&& 0xfff00000#64 = 0x1fc00000#64
  · rw [beq_iff_eq.2 hboot, if_pos hboot]
    exact ⟨_, rfl, rfl⟩
  · rw [beq_eq_false_iff_ne.2 hboot, if_neg hboot]
    by_cases hcon : addr &&& 0xffff0000#64 = 0x1faf0000#64
    · rw [beq_iff_eq.2 hcon, if_pos hcon]
      exact ⟨_, rfl, rfl⟩
    · rw [beq_eq_false_iff_ne.2 hcon, if_neg hcon, beq_iff_eq.2 (BitVec.and_zero)]
      exact ⟨_, rfl, rfl⟩

theorem load_eq (s : Soc) (addr : BitVec 64) : s.load addr =
    match route addr with
    | (.mem, addr) => (s.mem.load addr).map fun v => (v, s)
    | (.con, addr) => (s.con.load addr).map fun (v, c) => (v, { s with con := c }) := by
  obtain ⟨e, he, hr⟩ := search_layout addr
  rw [load, he, ← hr, Option.bind_some]
  cases e.mem <;> rfl

theorem store_eq (s : Soc) (addr data mask : BitVec 64) : s.store addr data mask =
    match route addr with
    | (.mem, addr) => (s.mem.store addr data mask).map fun m => { s with mem := m }
    | (.con, addr) => (s.con.store addr data mask).map fun c => { s with con := c } := by
  obtain ⟨e, he, hr⟩ := search_layout addr
  rw [store, he, ← hr, Option.bind_some]
  cases e.mem <;> rfl

variable (m₀ m w c) {x y : Confreg.Access} (value : BitVec 64 → BitVec 64)

theorem fatal_at_iff {p : BitVec 64} : ((∃ y ∈ (none : Option Confreg.Access), y.Fatal) ∨
    ∃ addr ∈ some p, m.size ≤ addr - m.offset) ↔ m.size ≤ p - m.offset := by
  simp

/-- An access to the registers does nothing else. -/
theorem access_of_toCon (h : y ∈ toCon x) :
    access ⟨m, c⟩ x = (c.access y).map (fun (v, c) => (v, ⟨m, c⟩)) ∧ toMem x = none ∧
      op m₀ value x w = (w, y.loaded.map value) := by
  cases x with
  | receive char =>
    obtain rfl := Option.some.inj h
    exact ⟨rfl, rfl, rfl⟩
  | load addr =>
    rw [access, load_eq, toMem, op]
    rw [toCon] at h
    generalize route addr = r at h ⊢
    rcases r with ⟨_ | _, p⟩
    · exact absurd h (Option.not_mem_none y)
    · obtain rfl := Option.some.inj h
      refine ⟨?_, rfl, rfl⟩
      dsimp only [Confreg.access]
      cases c.load p <;> rfl
  | store addr data mask =>
    rw [access, store_eq, toMem, op]
    rw [toCon] at h
    generalize route addr = r at h ⊢
    rcases r with ⟨_ | _, p⟩
    · exact absurd h (Option.not_mem_none y)
    · obtain rfl := Option.some.inj h
      refine ⟨?_, rfl, rfl⟩
      dsimp only [Confreg.access]
      cases c.store p data mask <;> rfl

variable {m₀ m w} in
/-- An access to the memory finds the words, unless it is out of range. -/
theorem access_of_holds (h : Holds m₀ m w) (hx : toCon x = none) :
    (Fatal m₀ x → access ⟨m, c⟩ x = none) ∧
    (¬Fatal m₀ x → ∃ m', access ⟨m, c⟩ x = some ((op m₀ value x w).2, ⟨m', c⟩) ∧
      Holds m₀ m' (op m₀ value x w).1) := by
  cases x with
  | receive char => exact absurd hx (Option.some_ne_none _)
  | load addr =>
    rw [Fatal, hx, access, load_eq, toMem, op]
    rw [toCon] at hx
    generalize route addr = r at hx ⊢
    rcases r with ⟨_ | _, p⟩
    · dsimp only
      rw [fatal_at_iff, h.mem_load]
      constructor
      · intro hle
        rw [if_pos hle]
        rfl
      · intro hlt
        rw [if_neg hlt]
        exact ⟨m, rfl, h⟩
    · exact absurd hx (Option.some_ne_none _)
  | store addr data mask =>
    rw [Fatal, hx, access, store_eq, toMem, op]
    rw [toCon] at hx
    generalize route addr = r at hx ⊢
    rcases r with ⟨_ | _, p⟩
    · obtain ⟨hnone, hsome⟩ := h.mem_store p data mask
      dsimp only
      rw [fatal_at_iff]
      constructor
      · intro hle
        rw [hnone hle]
        rfl
      · intro hlt
        obtain ⟨m', hm', hholds⟩ := hsome hlt
        rw [hm']
        exact ⟨m', rfl, hholds⟩
    · exact absurd hx (Option.some_ne_none _)

end Devices

/-! ## A cycle -/

section Cycle

variable {m₀ m : BlockMemory} {w : Words} {c c' : Confreg} {l : List Confreg.Access}

/-- An access in a cycle. -/
theorem step_eq (h : Holds m₀ m w) (hc : Ready c) (hd : During c l c') (x : Confreg.Access) :
    (Fatal m₀ x → access ⟨m, c'⟩ x = none) ∧
    (¬Fatal m₀ x → ∃ m' c'', access ⟨m, c'⟩ x = some ((op m₀ (value c) x w).2, ⟨m', c''⟩) ∧
      Holds m₀ m' (op m₀ (value c) x w).1 ∧ During c (l ++ (toCon x).toList) c'') := by
  cases hx : toCon x with
  | none =>
    obtain ⟨hfatal, hok⟩ := access_of_holds c' (value c) h hx
    refine ⟨hfatal, fun hn => ?_⟩
    obtain ⟨m', hm', hholds⟩ := hok hn
    rw [Option.toList_none, List.append_nil]
    exact ⟨m', c', hm', hholds, hd⟩
  | some y =>
    obtain ⟨haccess, hmem, hop⟩ := access_of_toCon m₀ m w c' (value c) hx
    obtain ⟨hfatal, hok⟩ := hd.access hc y
    have hiff : Fatal m₀ x ↔ y.Fatal := by
      rw [Fatal, hx, hmem]
      simp
    rw [hiff, haccess, hop]
    constructor
    · intro hy
      rw [hfatal hy]
      rfl
    · intro hy
      obtain ⟨c'', hc'', hd'⟩ := hok hy
      rw [hc'']
      exact ⟨m, c'', rfl, h, hd'⟩

/-- The accesses of a cycle. -/
theorem accesses_eq (hc : Ready c) (l' : List Confreg.Access) (h : Holds m₀ m w)
    (hd : During c l c') :
    ((∃ x ∈ l', Fatal m₀ x) → accesses l' ⟨m, c'⟩ = none) ∧
    ((∀ x ∈ l', ¬Fatal m₀ x) → ∃ m' c'',
      accesses l' ⟨m, c'⟩ =
        some ((operate (op m₀ (value c)) l' w).2.reduceOption, ⟨m', c''⟩) ∧
      Holds m₀ m' (operate (op m₀ (value c)) l' w).1 ∧
      During c (l ++ l'.filterMap toCon) c'') := by
  induction l' generalizing l c' m w with
  | nil =>
    refine ⟨fun ⟨x, hx, _⟩ => absurd hx List.not_mem_nil, fun _ => ⟨m, c', rfl, h, ?_⟩⟩
    rw [List.filterMap_nil, List.append_nil]
    exact hd
  | cons x l' ih =>
    obtain ⟨hfatal, hok⟩ := step_eq h hc hd x
    constructor
    · rintro ⟨y, hy, hf⟩
      rw [accesses]
      by_cases hx : Fatal m₀ x
      · rw [hfatal hx]
        rfl
      · obtain ⟨m₁, c₁, hstep, hholds, hd₁⟩ := hok hx
        have hy' : y ∈ l' := (List.mem_cons.1 hy).resolve_left fun hxy => hx (hxy ▸ hf)
        rw [hstep, Option.bind_some]
        dsimp only
        rw [(ih hholds hd₁).1 ⟨y, hy', hf⟩, Option.map_none]
    · intro hl
      obtain ⟨m₁, c₁, hstep, hholds, hd₁⟩ := hok (hl x List.mem_cons_self)
      obtain ⟨m₂, c₂, hrest, hholds₂, hd₂⟩ :=
        (ih hholds hd₁).2 fun y hy => hl y (List.mem_cons_of_mem x hy)
      refine ⟨m₂, c₂, ?_, hholds₂, ?_⟩
      · rw [accesses, hstep, Option.bind_some]
        dsimp only
        rw [hrest, Option.map_some, operate]
        cases (op m₀ (value c) x w).2 <;> rfl
      · rw [List.filterMap_cons]
        rw [List.append_assoc] at hd₂
        cases hx : toCon x <;> rw [hx] at hd₂ <;> exact hd₂

/-- A cycle: the words and the registers do what is asked of them. -/
theorem cycle_eq {s : Soc} (hc : Ready s.con) (h : Holds m₀ s.mem w) (l : List Confreg.Access) :
    ((∃ x ∈ l, Fatal m₀ x) → s.cycle l = none) ∧
    ((∀ x ∈ l, ¬Fatal m₀ x) → ∃ s',
      s.cycle l = some ((operate (op m₀ (value s.con)) l w).2.reduceOption, s') ∧
      Holds m₀ s'.mem (operate (op m₀ (value s.con)) l w).1 ∧
      Synced s.con (l.filterMap toCon) s'.con) := by
  obtain ⟨hfatal, hok⟩ := accesses_eq hc l h hc.during
  constructor
  · intro hf
    rw [cycle, hfatal hf]
    rfl
  · intro hl
    obtain ⟨m', c', haccesses, hholds, hd⟩ := hok hl
    obtain ⟨c'', hsync, hs⟩ := hd.sync hc
    refine ⟨⟨m', c''⟩, ?_, hholds, hs⟩
    rw [cycle, haccesses, Option.bind_some]
    dsimp only
    rw [hsync]
    rfl

end Cycle

/-! ## Runs -/

section Run

variable (s₀ : Soc) (a : ℕ → List Confreg.Access)

/-- What is asked of the registers in the cycle `n`. -/
def asked (n : ℕ) : List Confreg.Access := (a n).filterMap toCon

/-- The words before the cycle `n`. -/
def words : ℕ → Words
  | 0 => fun idx => (s₀.mem.savedMem[idx.toNat]?).getD 0#64
  | n + 1 => (operate (op s₀.mem (expected (asked a) n)) (a n) (words n)).1

/-- The run of the devices is that of words, and of the registers on their own. -/
structure Serves (s : ℕ → Soc) (vs : ℕ → List (BitVec 64)) : Prop where
  loaded : ∀ n, vs n =
    (operate (op s₀.mem (expected (asked a) n)) (a n) (words s₀ a n)).2.reduceOption
  mem : ∀ n, Holds s₀.mem (s n).mem (words s₀ a n)
  con : Confreg.Serves (asked a) (fun n => (s n).con) fun n =>
    (loads (asked a n)).map (expected (asked a) n)

/-- The devices before the cycle `n`. -/
structure Follows (n : ℕ) (s : Soc) : Prop where
  mem : Holds s₀.mem s.mem (words s₀ a n)
  con : Confreg.Follows (asked a) n s.con

variable {s₀ a} {n : ℕ} {s : Soc}

theorem follows_reset (h : s₀.con.changes = []) : Follows s₀ a 0 s₀.reset where
  mem := by
    refine ⟨rfl, rfl, fun idx hidx => ?_⟩
    change s₀.mem.savedMem[idx.toNat]? = some ((s₀.mem.savedMem[idx.toNat]?).getD 0#64)
    rw [Vector.getElem?_eq_getElem hidx]
    rfl
  con := Confreg.follows_reset h

/-- A cycle of a run. -/
theorem Follows.cycle (h : Follows s₀ a n s) :
    ((∃ x ∈ a n, Fatal s₀.mem x) → s.cycle (a n) = none) ∧
    ((∀ x ∈ a n, ¬Fatal s₀.mem x) → ∃ s',
      s.cycle (a n) = some ((operate (op s₀.mem (expected (asked a) n)) (a n)
        (words s₀ a n)).2.reduceOption, s') ∧
      Synced s.con (asked a n) s'.con ∧ Follows s₀ a (n + 1) s') := by
  obtain ⟨hfatal, hok⟩ := cycle_eq h.con.ready h.mem (a n)
  have hvalue : value s.con = expected (asked a) n := funext h.con.value_eq
  rw [hvalue] at hok
  refine ⟨hfatal, fun hl => ?_⟩
  obtain ⟨s', hs', hholds, hs⟩ := hok hl
  exact ⟨s', hs', hs, hholds, h.con.next hs⟩

variable {ss : ℕ → Soc} {vs : ℕ → List (BitVec 64)}

theorem IsRun.cycle (hr : IsRun a s₀ ss vs) (h : Follows s₀ a n (ss n)) :
    (∀ x ∈ a n, ¬Fatal s₀.mem x) ∧
    vs n = (operate (op s₀.mem (expected (asked a) n)) (a n) (words s₀ a n)).2.reduceOption ∧
    Synced (ss n).con (asked a n) (ss (n + 1)).con ∧ Follows s₀ a (n + 1) (ss (n + 1)) := by
  obtain ⟨hfatal, hok⟩ := h.cycle
  have hn : ∀ x ∈ a n, ¬Fatal s₀.mem x := fun x hx hf =>
    absurd ((hr.next n).symm.trans (hfatal ⟨x, hx, hf⟩)) (Option.some_ne_none _)
  obtain ⟨s', hs', hs⟩ := hok hn
  obtain ⟨hvs, hss⟩ := Prod.mk.inj (Option.some.inj ((hr.next n).symm.trans hs'))
  exact ⟨hn, hvs, hss ▸ hs⟩

theorem IsRun.follows (hr : IsRun a s₀ ss vs) (h : s₀.con.changes = []) (n : ℕ) :
    Follows s₀ a n (ss n) := by
  induction n with
  | zero =>
    rw [hr.init]
    exact follows_reset h
  | succ n ih => exact (hr.cycle ih).2.2.2

/-- If no access is out of range or fatal for the registers, the simulation goes on, and there
    is one memory, and the registers on their own. -/
theorem isRun_routes (h : s₀.con.changes = []) (a : ℕ → List Confreg.Access) :
    ((∃ s vs, IsRun a s₀ s vs) ↔ ∀ n, ∀ x ∈ a n, ¬Fatal s₀.mem x) ∧
      ∀ s vs, IsRun a s₀ s vs → Serves s₀ a s vs := by
  refine ⟨⟨?_, fun ha => ?_⟩, fun s vs hr => ?_⟩
  · rintro ⟨s, vs, hr⟩ n
    exact (hr.cycle (hr.follows h n)).1
  · obtain ⟨s, vs, h0, hnext⟩ := exists_run (fun n s => Soc.cycle s (a n)) (follows_reset h)
      fun n s hs => by
        obtain ⟨s', hs', -, hf⟩ := hs.cycle.2 (ha n)
        exact ⟨_, s', hs', hf⟩
    exact ⟨s, vs, h0, hnext⟩
  · have hf := hr.follows h
    refine ⟨fun n => (hr.cycle (hf n)).2.1, fun n => (hf n).mem, ?_⟩
    refine Confreg.serves_of_follows (fun n => (hf n).con) fun n => ⟨?_, (hr.cycle (hf n)).2.2.1⟩
    exact List.map_congr_left fun addr _ => ((hf n).con.value_eq addr).symm

/-- A word is stored in the window, and loaded from the start of the memory. -/
def mirrored (n : ℕ) : List Confreg.Access :=
  if n = 0 then [.store 0x1fc00008#64 0x1234#64 (BitVec.allOnes 64), .load 0x8#64]
  else [.load 0x8#64, .load 0x1faff010#64]

/-- A memory of two words. -/
def twoWords : Soc := ⟨⟨16#64, 0#64, rfl, #v[0#64, 0#64], #v[0#64, 0#64]⟩, .blank⟩

theorem not_fatal_mirrored (n : ℕ) : ∀ x ∈ mirrored n, ¬Fatal twoWords.mem x := by
  rw [mirrored]
  split_ifs <;> decide

/-- The word is there, and the registers are, too. -/
theorem isRun_routes_mirrored : ∃ s vs, IsRun mirrored twoWords s vs ∧ vs 0 = [0x1234#64] ∧
    vs 1 = [0x1234#64, 0#64] := by
  obtain ⟨hiff, hserves⟩ := isRun_routes (show twoWords.con.changes = [] from rfl) mirrored
  obtain ⟨s, vs, hr⟩ := hiff.2 not_fatal_mirrored
  have hs := hserves s vs hr
  exact ⟨s, vs, hr, (hs.loaded 0).trans (by decide), (hs.loaded 1).trans (by decide)⟩

end Run

end Soc

end RiscvCpu
