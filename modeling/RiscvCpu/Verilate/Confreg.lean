import Mathlib.Data.List.Induction
import Mathlib.Logic.Function.Basic
import Mathlib.Order.Nat
import RiscvCpu.Sync.Operations

/-!
# The configuration registers of the simulation

A device of the simulation: registers for lamps, switches and a timer, and a serial port. All
loads of a cycle see the device as it is at its start. Stores are collected, and done at the
clock edge, as is the character fetched from the serial port removed there (`sync`). Meanwhile,
characters can be received at any time.

So the device does in every cycle what its registers (`reg`) and the received characters say
(`Serves`, `isRun_serves`), in whatever order there are loads, stores and receptions: no received
character is lost, or fetched twice.
-/

namespace RiscvCpu

open Function

/-- `struct Context`. -/
structure Confreg.Context where
  uartAvail : Bool
  uartWritten : Bool
  uartFetched : Bool
  uartData : BitVec 8
  vuartWritten : Bool
  vuartData : BitVec 8
  vOpenTrace : Bool
  vNumMonitor : Bool
  vNum : BitVec 64

structure Confreg where
  ctx : Confreg.Context
  /-- The context of the cycle before. -/
  ctx0 : Confreg.Context
  ififo : List (BitVec 8)
  /-- What was written to the terminal, if there is one. -/
  opty : Option (List (BitVec 8))
  mem : BitVec 64 → Option (BitVec 64)
  changes : List (BitVec 64 × BitVec 64)

namespace Confreg

/-! ## Layout -/

def ADDR_MASK : BitVec 64 := 0xffff#64

def UART_RXD : BitVec 64 := 0x1000#64

def UART_TXD : BitVec 64 := 0x1000#64

def UART_LSR : BitVec 64 := 0x1014#64

def NUM : BitVec 64 := 0xf010#64

def TIMER : BitVec 64 := 0xe000#64

def IO_SIMU : BitVec 64 := 0xffec#64

def VIRTUAL_UART : BitVec 64 := 0xfff0#64

def SIMU_FLAG : BitVec 64 := 0xfff4#64

def OPEN_TRACE : BitVec 64 := 0xfff8#64

def NUM_MONITOR : BitVec 64 := 0xfffc#64

/-- The registers, with their values after the reset: `CR0` to `CR7`, then `LED`, `LED_RG0`,
    `LED_RG1`, `NUM`, `SWITCH`, `BTN_KEY`, `BTN_STEP`, `SW_INTER`, and the others. -/
def layout : List (BitVec 64 × BitVec 64) :=
  [(0x8000#64, 0#64), (0x8004#64, 0#64), (0x8008#64, 0#64), (0x800c#64, 0#64), (0x8010#64, 0#64),
    (0x8014#64, 0#64), (0x8018#64, 0#64), (0x801c#64, 0#64), (0xf000#64, 0xffff#64),
    (0xf004#64, 0#64), (0xf008#64, 0#64), (NUM, 0#64), (0xf020#64, 0xff#64), (0xf024#64, 0#64),
    (0xf028#64, 0#64), (0xf02c#64, 0xaaaa#64), (TIMER, 0#64), (IO_SIMU, 0#64),
    (VIRTUAL_UART, 0#64), (SIMU_FLAG, 0xffffffff#64), (OPEN_TRACE, 1#64), (NUM_MONITOR, 1#64)]

/-! ## The device -/

def Context.reset : Context where
  uartAvail := false
  uartWritten := false
  uartFetched := false
  uartData := 0#8
  vuartWritten := false
  vuartData := 0#8
  vOpenTrace := true
  vNumMonitor := true
  vNum := 0#64

variable (c : Confreg)

/-- The changes stay. -/
def reset : Confreg :=
  { c with ctx := .reset, ctx0 := .reset, ififo := [], mem := fun addr => layout.lookup addr }

/-- Nothing, if the front of an empty queue is read. -/
def load (addr : BitVec 64) : Option (BitVec 64 × Confreg) :=
  let addr := addr &&& ADDR_MASK
  if addr = UART_LSR then some (if c.ctx.uartAvail then 1#64 else 0#64, c)
  else if addr = UART_RXD then
    if c.ctx.uartAvail then
      c.ififo.head?.map fun char =>
        (char.setWidth 64, { c with ctx := { c.ctx with uartFetched := true } })
    else some (0#64, c)
  else some ((c.mem addr).getD 0#64, c)

def swapBytes (data : BitVec 64) : BitVec 64 :=
  ((data >>> 16) &&& 0xffff#64) ||| ((data <<< 16) &&& 0xffff0000#64)

/-- The data of a change, and the context with it. -/
def change (addr data : BitVec 64) (ctx : Context) : BitVec 64 × Context :=
  if addr = VIRTUAL_UART then
    let data := data &&& 0xff#64
    (data, { ctx with vuartWritten := true, vuartData := data.setWidth 8 })
  else if addr = NUM then (data, { ctx with vNum := data })
  else if addr = SIMU_FLAG then (0xffffffff#64, ctx)
  else if addr = IO_SIMU then (swapBytes data, ctx)
  else if addr = OPEN_TRACE then
    let data := if data ≠ 0#64 then 1#64 else 0#64
    (data, { ctx with vOpenTrace := decide (data ≠ 0#64) })
  else if addr = NUM_MONITOR then
    let data := data &&& 1#64
    (data, { ctx with vNumMonitor := decide (data ≠ 0#64) })
  else (data, ctx)

/-- Nothing, if the device panics. -/
def store (addr data mask : BitVec 64) : Option Confreg :=
  let addr := addr &&& ADDR_MASK
  if addr = UART_LSR then none
  else if addr = UART_TXD then
    if mask = 0xff#64 then
      some { c with
        ctx := { c.ctx with uartWritten := true, uartData := (data &&& 0xff#64).setWidth 8 } }
    else none
  else
    let (data, ctx) := change addr data c.ctx
    some { c with ctx := ctx, changes := c.changes ++ [(addr, data)] }

/-- A register that does not exist is not changed. -/
def commit (mem : BitVec 64 → Option (BitVec 64)) (x : BitVec 64 × BitVec 64) :
    BitVec 64 → Option (BitVec 64) :=
  if (mem x.1).isSome then update mem x.1 (some x.2) else mem

/-- The clock edge. Nothing, if the assertion fails. -/
def sync : Option Confreg :=
  if c.ctx.uartFetched ∧ c.ififo = [] then none
  else
    let ififo := if c.ctx.uartFetched then c.ififo.tail else c.ififo
    let opty := if c.ctx.uartWritten then c.opty.map (· ++ [c.ctx.uartData]) else c.opty
    let mem := c.changes.foldl commit c.mem
    some
      { ctx := { c.ctx with
          uartAvail := !ififo.isEmpty
          uartWritten := false
          uartFetched := false
          vuartWritten := false }
        ctx0 := c.ctx
        ififo := ififo
        opty := opty
        mem := update mem TIMER (some ((mem TIMER).getD 0#64 + 1#64))
        changes := [] }

/-- The background worker receives a character. -/
def receive (char : BitVec 8) : Confreg := { c with ififo := c.ififo ++ [char] }

def traceEnabled : Bool := c.ctx0.vOpenTrace

def monitorEnabled : Bool := c.ctx0.vNumMonitor

def hasChar : Bool := c.ctx0.vuartWritten

def getChar : BitVec 8 := c.ctx0.vuartData

def getCurrentNum : BitVec 32 := (c.ctx0.vNum >>> 24).setWidth 32

def getAckedNum : BitVec 32 := (c.ctx0.vNum &&& 0xff#64).setWidth 32

/-- The model checks the device after a clock edge: the number of the test that is completed, and
    a character to be printed. Nothing, if a test is not passed. -/
def checkout (currentNum : BitVec 32) : Option (BitVec 32 × Option (BitVec 8)) :=
  let char := if c.hasChar && decide (c.getChar ≤ 0x7f#8) then some c.getChar else none
  if c.monitorEnabled then
    if currentNum ≠ c.getCurrentNum then
      if currentNum + 1#32 = c.getCurrentNum ∧ c.getAckedNum = c.getCurrentNum then
        some (c.getCurrentNum, char)
      else none
    else some (currentNum, char)
  else some (currentNum, char)

/-! ## Cycles -/

inductive Access
  | load (addr : BitVec 64)
  | store (addr data mask : BitVec 64)
  | receive (char : BitVec 8)

/-- The value of an access that is a load, and the device after it. -/
def access : Access → Option (Option (BitVec 64) × Confreg)
  | .load addr => (c.load addr).map fun (v, c) => (some v, c)
  | .store addr data mask => (c.store addr data mask).map fun c => (none, c)
  | .receive char => some (none, c.receive char)

/-- The values that are loaded, in order. -/
def accesses : List Access → Confreg → Option (List (BitVec 64) × Confreg)
  | [], c => some ([], c)
  | x :: l, c =>
    (c.access x).bind fun (v, c) => (accesses l c).map fun (vs, c) => (v.toList ++ vs, c)

/-- The accesses of a cycle, and the clock edge. -/
def cycle (l : List Access) : Option (List (BitVec 64) × Confreg) :=
  (accesses l c).bind fun (vs, c) => c.sync.map fun c => (vs, c)

/-! ## What the accesses of a cycle ask for -/

/-- What a store writes to a register. -/
def written (addr data : BitVec 64) : BitVec 64 := (change addr data .reset).1

namespace Access

/-- The device panics. -/
def Fatal : Access → Prop
  | .store addr _ mask => addr &&& ADDR_MASK = UART_LSR ∨
      addr &&& ADDR_MASK = UART_TXD ∧ mask ≠ 0xff#64
  | _ => False

instance (x : Access) : Decidable x.Fatal :=
  match x with
  | .store addr _ mask => inferInstanceAs (Decidable (addr &&& ADDR_MASK = UART_LSR ∨
      addr &&& ADDR_MASK = UART_TXD ∧ mask ≠ 0xff#64))
  | .load _ => inferInstanceAs (Decidable False)
  | .receive _ => inferInstanceAs (Decidable False)

def received : Access → Option (BitVec 8)
  | .receive char => some char
  | _ => none

def loaded : Access → Option (BitVec 64)
  | .load addr => some (addr &&& ADDR_MASK)
  | _ => none

def sent : Access → Option (BitVec 8)
  | .store addr data _ =>
    if addr &&& ADDR_MASK = UART_TXD then some ((data &&& 0xff#64).setWidth 8) else none
  | _ => none

def changed : Access → Option (BitVec 64 × BitVec 64)
  | .store addr data _ =>
    if addr &&& ADDR_MASK = UART_TXD then none
    else some (addr &&& ADDR_MASK, written (addr &&& ADDR_MASK) data)
  | _ => none

end Access

/-- The characters that are received. -/
def received (l : List Access) : List (BitVec 8) := l.filterMap Access.received

/-- The addresses that are loaded. -/
def loads (l : List Access) : List (BitVec 64) := l.filterMap Access.loaded

/-- The character that is sent at the end: the last one. -/
def sent (l : List Access) : Option (BitVec 8) := (l.filterMap Access.sent).getLast?

/-- The last change of a register. -/
def last (addr : BitVec 64) (l : List (BitVec 64 × BitVec 64)) : Option (BitVec 64) :=
  ((l.filter (·.1 = addr)).getLast?).map Prod.snd

/-- What a register is set to at the end. -/
def stored (addr : BitVec 64) (l : List Access) : Option (BitVec 64) :=
  last addr (l.filterMap Access.changed)

section Lists

variable {addr : BitVec 64} {l : List Access} {x : Access}

theorem received_concat : received (l ++ [x]) = received l ++ x.received.toList := by
  rw [received, List.filterMap_append]
  cases x <;> rfl

theorem loads_concat : loads (l ++ [x]) = loads l ++ x.loaded.toList := by
  rw [loads, List.filterMap_append]
  cases x <;> rfl

theorem changed_concat : (l ++ [x]).filterMap Access.changed =
    l.filterMap Access.changed ++ x.changed.toList := by
  rw [List.filterMap_append, List.filterMap_cons]
  cases x.changed <;> rfl

theorem sent_concat : sent (l ++ [x]) = x.sent.or (sent l) := by
  rw [sent, List.filterMap_append, List.filterMap_cons]
  cases x.sent <;> simp [sent]

theorem last_concat (l : List (BitVec 64 × BitVec 64)) (x : BitVec 64 × BitVec 64) :
    last addr (l ++ [x]) = if x.1 = addr then some x.2 else last addr l := by
  by_cases hx : x.1 = addr <;> simp [last, List.filter_append, hx]

/-- A register that exists has the last change. -/
theorem foldl_commit (mem : BitVec 64 → Option (BitVec 64)) (l : List (BitVec 64 × BitVec 64)) :
    l.foldl commit mem addr = (mem addr).map fun v => (last addr l).getD v := by
  induction l using List.reverseRecOn with
  | nil =>
    change mem addr = (mem addr).map fun v => v
    rw [Option.map_id']
  | append_singleton l x ih =>
    rw [List.foldl_append, List.foldl_cons, List.foldl_nil, commit, last_concat]
    by_cases hx : x.1 = addr
    · obtain rfl := hx
      rw [if_pos rfl, ih]
      cases hm : mem x.1 with
      | none =>
        rw [hm] at ih
        exact ih
      | some v => exact update_self ..
    · rw [if_neg hx, ← ih]
      split
      · exact update_of_ne (Ne.symm hx) ..
      · rfl

end Lists

/-! ## A cycle -/

/-- The context shows what is in the registers. -/
structure Shows (ctx : Context) (mem : BitVec 64 → Option (BitVec 64)) : Prop where
  vNum : mem NUM = some ctx.vNum
  vOpenTrace : mem OPEN_TRACE = some (if ctx.vOpenTrace then 1#64 else 0#64)
  vNumMonitor : mem NUM_MONITOR = some (if ctx.vNumMonitor then 1#64 else 0#64)
  vuartData : mem VIRTUAL_UART = some (ctx.vuartData.setWidth 64)

theorem Shows.reset : Shows .reset fun addr => layout.lookup addr := ⟨rfl, rfl, rfl, rfl⟩

theorem change_fst (addr data : BitVec 64) (ctx : Context) :
    (change addr data ctx).1 = written addr data := by
  unfold written change
  split_ifs <;> rfl

theorem change_snd (addr data : BitVec 64) (ctx : Context) : (change addr data ctx).2 =
    { ctx with
      vuartWritten := ctx.vuartWritten || decide (addr = VIRTUAL_UART)
      vuartData := if addr = VIRTUAL_UART then (written addr data).setWidth 8 else ctx.vuartData
      vOpenTrace := if addr = OPEN_TRACE then decide (written addr data ≠ 0#64) else ctx.vOpenTrace
      vNumMonitor :=
        if addr = NUM_MONITOR then decide (written addr data ≠ 0#64) else ctx.vNumMonitor
      vNum := if addr = NUM then written addr data else ctx.vNum } := by
  unfold written change
  split_ifs <;> simp_all [VIRTUAL_UART, OPEN_TRACE, NUM_MONITOR, NUM, SIMU_FLAG, IO_SIMU]

theorem commit_of_some {mem : BitVec 64 → Option (BitVec 64)} {a v : BitVec 64}
    (h : mem a = some v) (x : BitVec 64 × BitVec 64) :
    commit mem x a = some (if x.1 = a then x.2 else v) := by
  rw [commit]
  by_cases hx : x.1 = a
  · rw [hx, h, Option.isSome_some, if_pos rfl, if_pos rfl, update_self]
  · rw [if_neg hx, ← h]
    split
    · exact update_of_ne (Ne.symm hx) ..
    · rfl

theorem written_openTrace (data : BitVec 64) :
    written OPEN_TRACE data = if data ≠ 0#64 then 1#64 else 0#64 := rfl

theorem written_numMonitor (data : BitVec 64) : written NUM_MONITOR data = data &&& 1#64 := rfl

theorem written_virtualUart (data : BitVec 64) : written VIRTUAL_UART data = data &&& 0xff#64 := rfl

/-- A register of the context is shown. -/
theorem Shows.change {ctx : Context} {mem : BitVec 64 → Option (BitVec 64)} (h : Shows ctx mem)
    (addr data : BitVec 64) :
    Shows (Confreg.change addr data ctx).2 (commit mem (addr, written addr data)) := by
  rw [change_snd]
  refine ⟨commit_of_some h.vNum _, (commit_of_some h.vOpenTrace _).trans ?_,
    (commit_of_some h.vNumMonitor _).trans ?_, (commit_of_some h.vuartData _).trans ?_⟩
  · by_cases ha : addr = OPEN_TRACE
    · rw [if_pos ha, if_pos ha, ha, written_openTrace]
      by_cases hd : data = 0#64
      · rw [hd]
        rfl
      · rw [if_pos hd]
        rfl
    · rw [if_neg ha, if_neg ha]
  · by_cases ha : addr = NUM_MONITOR
    · rw [if_pos ha, if_pos ha, ha, written_numMonitor,
        BitVec.and_one_eq_setWidth_ofBool_getLsbD]
      cases data.getLsbD 0 <;> rfl
    · rw [if_neg ha, if_neg ha]
  · by_cases ha : addr = VIRTUAL_UART
    · have hle : data.toNat &&& 255 ≤ 255 := Nat.and_le_right
      rw [if_pos ha, if_pos ha, ha, written_virtualUart]
      refine congrArg some (BitVec.eq_of_toNat_eq ?_)
      rw [BitVec.toNat_setWidth, BitVec.toNat_setWidth, BitVec.toNat_and]
      change data.toNat &&& 255 = (data.toNat &&& 255) % 2 ^ 8 % 2 ^ 64
      omega
    · rw [if_neg ha, if_neg ha]

/-- The device between two cycles. -/
structure Ready (c : Confreg) : Prop where
  avail : c.ctx.uartAvail = !c.ififo.isEmpty
  fetched : c.ctx.uartFetched = false
  written : c.ctx.uartWritten = false
  vuartWritten : c.ctx.vuartWritten = false
  changes : c.changes = []
  shows : Shows c.ctx c.mem
  mem : ∀ addr, (c.mem addr).isSome = (layout.lookup addr).isSome

/-- What is loaded in a cycle. -/
def value (addr : BitVec 64) : BitVec 64 :=
  if addr = UART_LSR then if c.ififo = [] then 0#64 else 1#64
  else if addr = UART_RXD then (c.ififo.head?.map (BitVec.setWidth 64)).getD 0#64
  else (c.mem addr).getD 0#64

/-- The device in a cycle, after some accesses. -/
structure During (c : Confreg) (l : List Access) (c' : Confreg) : Prop where
  avail : c'.ctx.uartAvail = c.ctx.uartAvail
  fetched : c'.ctx.uartFetched = (c.ctx.uartAvail && decide (UART_RXD ∈ loads l))
  written : c'.ctx.uartWritten = (sent l).isSome
  data : ∀ v ∈ sent l, c'.ctx.uartData = v
  vuartWritten : c'.ctx.vuartWritten = (stored VIRTUAL_UART l).isSome
  ififo : c'.ififo = c.ififo ++ received l
  opty : c'.opty = c.opty
  mem : c'.mem = c.mem
  changes : c'.changes = l.filterMap Access.changed
  shows : Shows c'.ctx (c'.changes.foldl commit c'.mem)

theorem Ready.during {c : Confreg} (h : Ready c) : During c [] c where
  avail := rfl
  fetched := by rw [h.fetched]; exact (Bool.and_false _).symm
  written := h.written
  data _ hv := absurd hv (Option.not_mem_none _)
  vuartWritten := h.vuartWritten
  ififo := (List.append_nil _).symm
  opty := rfl
  mem := rfl
  changes := h.changes
  shows := by rw [h.changes]; exact h.shows

variable {c c' : Confreg} {l : List Access}

theorem During.receive (h : During c l c') (char : BitVec 8) :
    During c (l ++ [.receive char]) (c'.receive char) := by
  have hchanged := (changed_concat (l := l) (x := .receive char)).trans (List.append_nil _)
  refine ⟨h.avail, ?_, sent_concat ▸ h.written, sent_concat ▸ h.data, ?_, ?_, h.opty, h.mem,
    hchanged ▸ h.changes, h.shows⟩
  · rw [loads_concat.trans (List.append_nil _)]
    exact h.fetched
  · rw [stored, hchanged]
    exact h.vuartWritten
  · rw [received_concat, ← List.append_assoc, ← h.ififo]
    rfl

/-- A load changes nothing but what is fetched. -/
theorem During.fetch (h : During c l c') (addr : BitVec 64) {fetched : Bool}
    (hf : fetched = (c.ctx.uartAvail && decide (UART_RXD ∈ loads (l ++ [.load addr])))) :
    During c (l ++ [.load addr]) { c' with ctx := { c'.ctx with uartFetched := fetched } } := by
  have hchanged := (changed_concat (l := l) (x := .load addr)).trans (List.append_nil _)
  refine ⟨h.avail, hf, sent_concat ▸ h.written, sent_concat ▸ h.data, ?_, ?_, h.opty, h.mem,
    hchanged ▸ h.changes,
    ⟨h.shows.vNum, h.shows.vOpenTrace, h.shows.vNumMonitor, h.shows.vuartData⟩⟩
  · rw [stored, hchanged]
    exact h.vuartWritten
  · rw [received_concat.trans (List.append_nil _)]
    exact h.ififo

theorem mem_loads_concat {addr : BitVec 64} : UART_RXD ∈ loads (l ++ [.load addr]) ↔
    UART_RXD ∈ loads l ∨ addr &&& ADDR_MASK = UART_RXD := by
  rw [loads_concat, Access.loaded, Option.toList_some, List.mem_append, List.mem_singleton]
  exact or_congr_right eq_comm

theorem During.keep (h : During c l c') {addr : BitVec 64} (hne : addr &&& ADDR_MASK ≠ UART_RXD) :
    During c (l ++ [.load addr]) c' :=
  h.fetch addr (h.fetched.trans (by simp only [mem_loads_concat, hne, or_false]))

/-- All loads of a cycle see the device as it was at the start. -/
theorem During.load (h : During c l c') (hc : Ready c) (addr : BitVec 64) :
    ∃ c'', c'.load addr = some (value c (addr &&& ADDR_MASK), c'') ∧
      During c (l ++ [.load addr]) c'' := by
  rw [Confreg.load, value, h.avail, hc.avail]
  dsimp only
  by_cases hlsr : addr &&& ADDR_MASK = UART_LSR
  · rw [if_pos hlsr, if_pos hlsr]
    refine ⟨c', ?_, h.keep (by rw [hlsr]; decide)⟩
    cases c.ififo <;> rfl
  · rw [if_neg hlsr, if_neg hlsr]
    by_cases hrxd : addr &&& ADDR_MASK = UART_RXD
    · rw [if_pos hrxd, if_pos hrxd]
      have hmem : UART_RXD ∈ loads (l ++ [.load addr]) := mem_loads_concat.2 (.inr hrxd)
      cases hq : c.ififo with
      | nil =>
        have hoff : c.ctx.uartAvail = false := by rw [hc.avail, hq]; rfl
        refine ⟨c', rfl, h.fetch addr (h.fetched.trans ?_)⟩
        rw [hoff, Bool.false_and, Bool.false_and]
      | cons char q =>
        have hon : c.ctx.uartAvail = true := by rw [hc.avail, hq]; rfl
        have hhead : c'.ififo.head? = some char := by
          rw [h.ififo, hq]
          rfl
        rw [hhead]
        refine ⟨_, rfl, h.fetch addr ?_⟩
        rw [hon, decide_eq_true hmem]
        rfl
    · rw [if_neg hrxd, if_neg hrxd, h.mem]
      exact ⟨c', rfl, h.keep hrxd⟩

theorem During.store (h : During c l c') {addr data mask : BitVec 64}
    (hx : ¬(Access.store addr data mask).Fatal) :
    ∃ c'', c'.store addr data mask = some c'' ∧ During c (l ++ [.store addr data mask]) c'' := by
  obtain ⟨hlsr, htxd⟩ := not_or.1 hx
  have hloads := (loads_concat (l := l) (x := .store addr data mask)).trans (List.append_nil _)
  have hrecv := (received_concat (l := l) (x := .store addr data mask)).trans (List.append_nil _)
  by_cases ht : addr &&& ADDR_MASK = UART_TXD
  · have hmask : mask = 0xff#64 := not_not.1 fun hne => htxd ⟨ht, hne⟩
    have hchanged : (l ++ [Access.store addr data mask]).filterMap Access.changed =
        l.filterMap Access.changed := by
      rw [changed_concat, Access.changed, if_pos ht]
      exact List.append_nil _
    have hsent : sent (l ++ [.store addr data mask]) = some ((data &&& 0xff#64).setWidth 8) := by
      rw [sent_concat, Access.sent, if_pos ht]
      rfl
    rw [Confreg.store]
    dsimp only
    rw [if_neg hlsr, if_pos ht, if_pos hmask]
    refine ⟨_, rfl, ⟨h.avail, hloads ▸ h.fetched, ?_, ?_, ?_, hrecv ▸ h.ififo, h.opty, h.mem,
      hchanged ▸ h.changes,
      ⟨h.shows.vNum, h.shows.vOpenTrace, h.shows.vNumMonitor, h.shows.vuartData⟩⟩⟩
    · rw [hsent]
      rfl
    · rw [hsent]
      exact fun v hv => Option.some.inj hv
    · rw [stored, hchanged]
      exact h.vuartWritten
  · have hchanged : (l ++ [Access.store addr data mask]).filterMap Access.changed =
        l.filterMap Access.changed ++
          [(addr &&& ADDR_MASK, Confreg.written (addr &&& ADDR_MASK) data)] := by
      rw [changed_concat, Access.changed, if_neg ht]
      rfl
    have hsent : sent (l ++ [.store addr data mask]) = sent l := by
      rw [sent_concat, Access.sent, if_neg ht]
      rfl
    have hstore : c'.store addr data mask = some { c' with
        ctx := (change (addr &&& ADDR_MASK) data c'.ctx).2
        changes := c'.changes ++
          [(addr &&& ADDR_MASK, Confreg.written (addr &&& ADDR_MASK) data)] } := by
      rw [Confreg.store]
      dsimp only
      rw [if_neg hlsr, if_neg ht, ← change_fst _ _ c'.ctx]
    rw [hstore]
    refine ⟨_, rfl, ⟨?_, ?_, ?_, ?_, ?_, hrecv ▸ h.ififo, h.opty, h.mem, ?_, ?_⟩⟩
    · rw [change_snd]
      exact h.avail
    · rw [change_snd, hloads]
      exact h.fetched
    · rw [change_snd, hsent]
      exact h.written
    · rw [change_snd, hsent]
      exact h.data
    · rw [change_snd, stored, hchanged, last_concat, h.vuartWritten, stored]
      dsimp only
      split
      next ha => rw [ha, decide_eq_true rfl, Bool.or_true, Option.isSome_some]
      next ha => rw [decide_eq_false ha, Bool.or_false]
    · rw [hchanged, h.changes]
    · rw [List.foldl_append]
      exact h.shows.change _ _

theorem store_of_fatal {addr data mask : BitVec 64} (hx : (Access.store addr data mask).Fatal) :
    c'.store addr data mask = none := by
  rw [Confreg.store]
  rcases hx with hlsr | ⟨htxd, hmask⟩
  · exact if_pos hlsr
  · have hlsr : ¬addr &&& ADDR_MASK = UART_LSR := by
      rw [htxd]
      decide
    dsimp only
    rw [if_neg hlsr, if_pos htxd, if_neg hmask]

/-- An access gives what it has to, unless it is fatal. -/
theorem During.access (h : During c l c') (hc : Ready c) (x : Access) :
    (x.Fatal → c'.access x = none) ∧
    (¬x.Fatal → ∃ c'', c'.access x = some (x.loaded.map (value c), c'') ∧
      During c (l ++ [x]) c'') := by
  cases x with
  | receive char => exact ⟨False.elim, fun _ => ⟨_, rfl, h.receive char⟩⟩
  | load addr =>
    obtain ⟨c'', hl, hd⟩ := h.load hc addr
    refine ⟨False.elim, fun _ => ⟨c'', ?_, hd⟩⟩
    rw [Confreg.access, hl]
    rfl
  | store addr data mask =>
    constructor
    · intro hx
      rw [Confreg.access, store_of_fatal hx]
      rfl
    · intro hx
      obtain ⟨c'', hs, hd⟩ := h.store hx
      refine ⟨c'', ?_, hd⟩
      rw [Confreg.access, hs]
      rfl

/-- The accesses of a cycle: none is fatal, or the device panics. -/
theorem During.accesses (hc : Ready c) (l' : List Access) (h : During c l c') :
    ((∃ x ∈ l', x.Fatal) → Confreg.accesses l' c' = none) ∧
    ((∀ x ∈ l', ¬x.Fatal) → ∃ c'',
      Confreg.accesses l' c' = some ((loads l').map (value c), c'') ∧ During c (l ++ l') c'') := by
  induction l' generalizing l c' with
  | nil =>
    refine ⟨fun ⟨x, hx, _⟩ => absurd hx List.not_mem_nil, fun _ => ⟨c', rfl, ?_⟩⟩
    rw [List.append_nil]
    exact h
  | cons x l' ih =>
    obtain ⟨hfatal, hok⟩ := h.access hc x
    constructor
    · rintro ⟨y, hy, hf⟩
      rw [Confreg.accesses]
      by_cases hx : x.Fatal
      · rw [hfatal hx]
        rfl
      · obtain ⟨c₁, hc₁, hd⟩ := hok hx
        have hy' : y ∈ l' := (List.mem_cons.1 hy).resolve_left fun hxy => hx (hxy ▸ hf)
        rw [hc₁, Option.bind_some]
        dsimp only
        rw [(ih hd).1 ⟨y, hy', hf⟩, Option.map_none]
    · intro hl
      obtain ⟨c₁, hc₁, hd⟩ := hok (hl x List.mem_cons_self)
      obtain ⟨c₂, hc₂, hd₂⟩ := (ih hd).2 fun y hy => hl y (List.mem_cons_of_mem x hy)
      refine ⟨c₂, ?_, ?_⟩
      · rw [Confreg.accesses, hc₁, Option.bind_some]
        dsimp only
        rw [hc₂, Option.map_some, loads, loads, List.filterMap_cons]
        cases x.loaded <;> rfl
      · rw [List.append_cons]
        exact hd₂

/-- The device after a cycle. -/
structure Synced (c : Confreg) (l : List Access) (c' : Confreg) : Prop where
  ready : Ready c'
  ififo : c'.ififo = (if UART_RXD ∈ loads l then c.ififo.tail else c.ififo) ++ received l
  opty : c'.opty = c.opty.map (· ++ (sent l).toList)
  mem : ∀ addr, c'.mem addr = (c.mem addr).map fun v =>
    if addr = TIMER then (stored addr l).getD v + 1#64 else (stored addr l).getD v
  shows : Shows c'.ctx0 c'.mem
  hasChar : c'.hasChar = (stored VIRTUAL_UART l).isSome

theorem Shows.tick {ctx : Context} {mem : BitVec 64 → Option (BitVec 64)} (h : Shows ctx mem)
    (v : Option (BitVec 64)) : Shows ctx (update mem TIMER v) :=
  ⟨(update_of_ne (by decide) ..).trans h.vNum, (update_of_ne (by decide) ..).trans h.vOpenTrace,
    (update_of_ne (by decide) ..).trans h.vNumMonitor,
    (update_of_ne (by decide) ..).trans h.vuartData⟩

theorem During.sync (h : During c l c') (hc : Ready c) :
    ∃ c'', c'.sync = some c'' ∧ Synced c l c'' := by
  have hfifo : (if c'.ctx.uartFetched then c'.ififo.tail else c'.ififo) =
      (if UART_RXD ∈ loads l then c.ififo.tail else c.ififo) ++ received l := by
    rw [h.fetched, hc.avail, h.ififo]
    cases c.ififo with
    | nil => exact (ite_self _).symm ▸ rfl
    | cons char q => by_cases hm : UART_RXD ∈ loads l <;> simp [hm]
  have hgo : ¬(c'.ctx.uartFetched = true ∧ c'.ififo = []) := by
    rintro ⟨hf, hq⟩
    rw [h.fetched, Bool.and_eq_true, hc.avail] at hf
    rw [h.ififo, List.append_eq_nil_iff] at hq
    rw [hq.1] at hf
    exact absurd hf.1 Bool.false_ne_true
  have hmem : ∀ addr, c'.changes.foldl commit c'.mem addr =
      (c.mem addr).map fun v => (stored addr l).getD v := fun addr => by
    rw [foldl_commit, h.mem, h.changes]
    rfl
  have htick : ∀ addr, update (c'.changes.foldl commit c'.mem) TIMER
      (some ((c'.changes.foldl commit c'.mem TIMER).getD 0#64 + 1#64)) addr =
      (c.mem addr).map fun v =>
        if addr = TIMER then (stored addr l).getD v + 1#64 else (stored addr l).getD v := by
    intro addr
    by_cases ha : addr = TIMER
    · obtain ⟨v, hv⟩ := Option.isSome_iff_exists.1 (show (c.mem TIMER).isSome from hc.mem TIMER)
      rw [ha, update_self, hmem, hv]
      rfl
    · rw [update_of_ne ha, hmem]
      simp only [if_neg ha]
  have hopty : (if c'.ctx.uartWritten then c'.opty.map (· ++ [c'.ctx.uartData]) else c'.opty) =
      c.opty.map (· ++ (sent l).toList) := by
    rw [h.opty, h.written]
    cases hs : sent l with
    | none =>
      have hid : (fun x : List (BitVec 8) => x ++ Option.toList none) = id :=
        funext fun x => List.append_nil x
      rw [hid, Option.map_id]
      rfl
    | some v =>
      rw [h.data v hs]
      rfl
  have hshows := h.shows.tick (some ((c'.changes.foldl commit c'.mem TIMER).getD 0#64 + 1#64))
  rw [Confreg.sync, if_neg hgo]
  refine ⟨_, rfl, ⟨⟨rfl, rfl, rfl, rfl, rfl, ?_, fun addr => ?_⟩, hfifo, hopty, htick, hshows,
    h.vuartWritten⟩⟩
  · exact ⟨hshows.vNum, hshows.vOpenTrace, hshows.vNumMonitor, hshows.vuartData⟩
  · exact (congrArg Option.isSome (htick addr)).trans (by rw [Option.isSome_map, hc.mem])

/-- A cycle: no access is fatal, or the device panics. -/
theorem Ready.cycle (h : Ready c) (l : List Access) :
    ((∃ x ∈ l, x.Fatal) → c.cycle l = none) ∧
    ((∀ x ∈ l, ¬x.Fatal) →
      ∃ c', c.cycle l = some ((loads l).map (value c), c') ∧ Synced c l c') := by
  obtain ⟨hfatal, hok⟩ := During.accesses h l h.during
  constructor
  · intro hf
    rw [Confreg.cycle, hfatal hf]
    rfl
  · intro hl
    obtain ⟨c₁, hc₁, hd⟩ := hok hl
    obtain ⟨c₂, hc₂, hs⟩ := hd.sync h
    refine ⟨c₂, ?_, hs⟩
    rw [Confreg.cycle, hc₁, Option.bind_some]
    dsimp only
    rw [hc₂]
    rfl

/-! ## Runs -/

section Run

variable (a : ℕ → List Access)

/-- A register before the cycle `n`. -/
def reg (addr : BitVec 64) : ℕ → BitVec 64
  | 0 => (layout.lookup addr).getD 0#64
  | n + 1 =>
    if addr = TIMER then (stored addr (a n)).getD (reg addr n) + 1#64
    else (stored addr (a n)).getD (reg addr n)

/-- The characters received before the cycle `n`. -/
def arrived (n : ℕ) : List (BitVec 8) := (List.range n).flatMap fun k => received (a k)

/-- The number of characters that were fetched before the cycle `n`. -/
def fetched : ℕ → ℕ
  | 0 => 0
  | n + 1 =>
    if (loads (a n)).contains UART_RXD ∧ fetched n < (arrived a n).length then fetched n + 1
    else fetched n

/-- What is loaded in the cycle `n`. -/
def expected (n : ℕ) (addr : BitVec 64) : BitVec 64 :=
  if addr = UART_LSR then if fetched a n < (arrived a n).length then 1#64 else 0#64
  else if addr = UART_RXD then (((arrived a n)[fetched a n]?).map (BitVec.setWidth 64)).getD 0#64
  else if (layout.lookup addr).isSome then reg a addr n
  else 0#64

/-- The run of the device is as its accesses say. -/
structure Serves (c : ℕ → Confreg) (vs : ℕ → List (BitVec 64)) : Prop where
  loaded : ∀ n, vs n = (loads (a n)).map (expected a n)
  /-- The characters that are not fetched yet are still there. -/
  received : ∀ n, (arrived a n).take (fetched a n) ++ (c n).ififo = arrived a n
  sent : ∀ n, (c n).opty = (c 0).opty.map (· ++ (List.range n).filterMap fun k => sent (a k))
  trace : ∀ n, (c n).traceEnabled = decide (reg a OPEN_TRACE n ≠ 0#64)
  monitor : ∀ n, (c n).monitorEnabled = decide (reg a NUM_MONITOR n ≠ 0#64) ∧
    (c n).getCurrentNum = (reg a NUM n >>> 24).setWidth 32 ∧
    (c n).getAckedNum = (reg a NUM n &&& 0xff#64).setWidth 32
  char : ∀ n, (c (n + 1)).hasChar = (stored VIRTUAL_UART (a n)).isSome ∧
    (c (n + 1)).getChar = (reg a VIRTUAL_UART (n + 1)).setWidth 8

/-- The device before the cycle `n`. -/
structure Follows (n : ℕ) (c : Confreg) : Prop where
  ready : Ready c
  le : fetched a n ≤ (arrived a n).length
  ififo : c.ififo = (arrived a n).drop (fetched a n)
  mem : ∀ addr, c.mem addr = (layout.lookup addr).map fun _ => reg a addr n
  shows : Shows c.ctx0 c.mem

variable {a} {n : ℕ}

theorem follows_reset (h : c.changes = []) : Follows a 0 c.reset where
  ready := ⟨rfl, rfl, rfl, rfl, h, .reset, fun _ => rfl⟩
  le := le_rfl
  ififo := rfl
  mem addr := by
    change layout.lookup addr = (layout.lookup addr).map fun _ => (layout.lookup addr).getD 0#64
    cases layout.lookup addr <;> rfl
  shows := .reset

theorem Follows.value_eq (h : Follows a n c) (addr : BitVec 64) :
    value c addr = expected a n addr := by
  rw [value, expected, h.ififo, h.mem, List.head?_drop]
  split
  · by_cases hlt : fetched a n < (arrived a n).length
    · rw [if_pos hlt, if_neg fun hd => absurd (List.drop_eq_nil_iff.1 hd) (by omega)]
    · rw [if_neg hlt, if_pos (List.drop_eq_nil_iff.2 (by omega))]
  · split
    · rfl
    · cases layout.lookup addr <;> rfl

theorem arrived_succ (n : ℕ) : arrived a (n + 1) = arrived a n ++ received (a n) := by
  rw [arrived, List.range_succ, List.flatMap_append, List.flatMap_singleton]
  rfl

theorem fetched_succ (n : ℕ) : fetched a (n + 1) =
    if UART_RXD ∈ loads (a n) ∧ fetched a n < (arrived a n).length then fetched a n + 1
    else fetched a n := by
  simp only [fetched, List.contains_iff_mem]

theorem Follows.next (h : Follows a n c) (hs : Synced c (a n) c') : Follows a (n + 1) c' := by
  have hle := h.le
  have hlen : (arrived a (n + 1)).length = (arrived a n).length + (received (a n)).length := by
    rw [arrived_succ, List.length_append]
  refine ⟨hs.ready, ?_, ?_, fun addr => ?_, hs.shows⟩
  · rw [hlen, fetched_succ]
    split <;> omega
  · rw [hs.ififo, h.ififo, arrived_succ, fetched_succ]
    by_cases hlt : fetched a n < (arrived a n).length
    · by_cases hm : UART_RXD ∈ loads (a n)
      · rw [if_pos hm, if_pos ⟨hm, hlt⟩, List.tail_drop, List.drop_append_of_le_length hlt]
      · rw [if_neg hm, if_neg fun h => hm h.1, List.drop_append_of_le_length hle]
    · -- There is nothing to be fetched.
      have hn : ¬(UART_RXD ∈ loads (a n) ∧ fetched a n < (arrived a n).length) := fun h => hlt h.2
      rw [if_neg hn, List.drop_append_of_le_length hle, List.drop_eq_nil_iff.2 (not_lt.1 hlt),
        List.tail_nil, ite_self]
  · rw [hs.mem, h.mem]
    cases layout.lookup addr <;> rfl

variable (a) in
/-- A run from the reset. -/
structure IsRun (c₀ : Confreg) (c : ℕ → Confreg) (vs : ℕ → List (BitVec 64)) : Prop where
  init : c 0 = c₀.reset
  next : ∀ n, (c n).cycle (a n) = some (vs n, c (n + 1))

variable {c₀ : Confreg} {cs : ℕ → Confreg} {vs : ℕ → List (BitVec 64)}

theorem IsRun.synced (hr : IsRun a c₀ cs vs) (h : Ready (cs n)) :
    (∀ x ∈ a n, ¬x.Fatal) ∧ vs n = (loads (a n)).map (value (cs n)) ∧
      Synced (cs n) (a n) (cs (n + 1)) := by
  obtain ⟨hfatal, hok⟩ := h.cycle (a n)
  have hn : ∀ x ∈ a n, ¬x.Fatal := fun x hx hf =>
    absurd ((hr.next n).symm.trans (hfatal ⟨x, hx, hf⟩)) (Option.some_ne_none _)
  obtain ⟨c', hc', hs⟩ := hok hn
  obtain ⟨hvs, hcs⟩ := Prod.mk.inj (Option.some.inj ((hr.next n).symm.trans hc'))
  exact ⟨hn, hvs, hcs ▸ hs⟩

theorem IsRun.follows (hr : IsRun a c₀ cs vs) (h : c₀.changes = []) (n : ℕ) :
    Follows a n (cs n) := by
  induction n with
  | zero =>
    rw [hr.init]
    exact follows_reset h
  | succ n ih => exact ih.next (hr.synced ih.ready).2.2

theorem exists_isRun (h : c₀.changes = []) (ha : ∀ n, ∀ x ∈ a n, ¬x.Fatal) :
    ∃ cs vs, IsRun a c₀ cs vs := by
  obtain ⟨cs, vs, h0, hnext⟩ := Sync.exists_run (fun n c => Confreg.cycle c (a n))
    (follows_reset h) fun n c hc => by
      obtain ⟨c', hc', hs⟩ := (hc.ready.cycle (a n)).2 (ha n)
      exact ⟨_, c', hc', hc.next hs⟩
  exact ⟨cs, vs, h0, hnext⟩

/-- A flag of the context is that of its register. -/
theorem eq_decide_of_shown {b : Bool} {v : BitVec 64}
    (h : some v = some (if b then 1#64 else 0#64)) : b = decide (v ≠ 0#64) := by
  rw [Option.some.inj h]
  cases b <;> rfl

theorem Follows.reg_eq (h : Follows a n c) {addr : BitVec 64} (hk : (layout.lookup addr).isSome) :
    c.mem addr = some (reg a addr n) := by
  obtain ⟨v, hv⟩ := Option.isSome_iff_exists.1 hk
  rw [h.mem, hv]
  rfl

theorem serves_of_follows (hf : ∀ n, Follows a n (cs n))
    (hs : ∀ n, vs n = (loads (a n)).map (value (cs n)) ∧ Synced (cs n) (a n) (cs (n + 1))) :
    Serves a cs vs := by
  have hnum : ∀ n, (cs n).ctx0.vNum = reg a NUM n := fun n =>
    Option.some.inj ((hf n).shows.vNum.symm.trans ((hf n).reg_eq rfl))
  constructor
  case loaded =>
    exact fun n => (hs n).1.trans (List.map_congr_left fun addr _ => (hf n).value_eq addr)
  case received =>
    intro n
    rw [(hf n).ififo, List.take_append_drop]
  case sent =>
    intro n
    induction n with
    | zero => simp
    | succ n ih =>
      rw [(hs n).2.opty, ih, Option.map_map, List.range_succ, List.filterMap_append]
      refine congrArg (Option.map · _) (funext fun l => ?_)
      rw [comp_apply, List.append_assoc, List.filterMap_cons, List.filterMap_nil]
      cases sent (a n) <;> rfl
  case trace =>
    exact fun n => eq_decide_of_shown (((hf n).reg_eq rfl).symm.trans (hf n).shows.vOpenTrace)
  case monitor =>
    intro n
    refine ⟨eq_decide_of_shown (((hf n).reg_eq rfl).symm.trans (hf n).shows.vNumMonitor), ?_, ?_⟩
    · rw [getCurrentNum, hnum]
    · rw [getAckedNum, hnum]
  case char =>
    intro n
    refine ⟨(hs n).2.hasChar, ?_⟩
    have hv : reg a VIRTUAL_UART (n + 1) = (cs (n + 1)).ctx0.vuartData.setWidth 64 :=
      Option.some.inj (((hf (n + 1)).reg_eq rfl).symm.trans (hf (n + 1)).shows.vuartData)
    rw [getChar, hv, BitVec.setWidth_setWidth_of_le _ (by decide), BitVec.setWidth_eq]

theorem IsRun.as_accessed (hr : IsRun a c₀ cs vs) (h : c₀.changes = []) : Serves a cs vs :=
  serves_of_follows (hr.follows h) fun n => (hr.synced (hr.follows h n).ready).2

/-- If no access is fatal, the device never panics, and its run is as the accesses say. -/
theorem isRun_serves (h : c₀.changes = []) (a : ℕ → List Access) :
    ((∃ cs vs, IsRun a c₀ cs vs) ↔ ∀ n, ∀ x ∈ a n, ¬x.Fatal) ∧
      ∀ cs vs, IsRun a c₀ cs vs → Serves a cs vs := by
  refine ⟨⟨?_, exists_isRun h⟩, fun cs vs hr => hr.as_accessed h⟩
  rintro ⟨cs, vs, hr⟩ n
  exact (hr.synced (hr.follows h n).ready).1

/-- `hi` is received, read and written, and then a test is completed. -/
def greet (n : ℕ) : List Access :=
  if n = 0 then [.receive 0x68#8, .receive 0x69#8]
  else if n = 1 then
    [.load UART_LSR, .load UART_RXD, .store UART_TXD 0x68#64 0xff#64, .load UART_RXD]
  else if n = 2 then
    [.load UART_RXD, .store UART_TXD 0x69#64 0xff#64, .store NUM 0x01000001#64 0xff#64]
  else [.load UART_LSR, .load NUM]

theorem not_fatal_greet (n : ℕ) : ∀ x ∈ greet n, ¬x.Fatal := by
  unfold greet
  split_ifs <;> decide

/-- A device with a terminal. -/
def blank : Confreg where
  ctx := .reset
  ctx0 := .reset
  ififo := []
  opty := some []
  mem _ := none
  changes := []

/-- The characters are read in order, one for each cycle, and sent, and the test is shown. -/
theorem isRun_serves_greet : ∃ cs vs, IsRun greet blank cs vs ∧ vs 1 = [1#64, 0x68#64, 0x68#64] ∧
    vs 2 = [0x69#64] ∧ vs 3 = [0#64, 0x01000001#64] ∧ (cs 3).opty = some [0x68#8, 0x69#8] ∧
    (cs 3).getCurrentNum = 1#32 := by
  obtain ⟨hiff, hserves⟩ := isRun_serves (show blank.changes = [] from rfl) greet
  obtain ⟨cs, vs, hr⟩ := hiff.2 not_fatal_greet
  have hs := hserves cs vs hr
  refine ⟨cs, vs, hr, (hs.loaded 1).trans (by decide), (hs.loaded 2).trans (by decide),
    (hs.loaded 3).trans (by decide), ?_, ?_⟩
  · rw [hs.sent 3, hr.init]
    decide
  · rw [(hs.monitor 3).2.1]
    decide

/-- What is pending at a reset is done after it, behind the back of the context. -/
theorem reset_of_pending {v : BitVec 64} (h : last NUM c.changes = some v) :
    ∃ c', c.reset.sync = some c' ∧ c'.mem NUM = some v ∧ c'.ctx0.vNum = 0#64 := by
  refine ⟨_, if_neg fun h => Bool.false_ne_true h.1, ?_, rfl⟩
  dsimp only [reset]
  rw [update_of_ne (by decide), foldl_commit, h]
  rfl

/-! ## The tests of a program -/

theorem toNat_acked_le (v : BitVec 64) : ((v &&& 0xff#64).setWidth 32).toNat ≤ 255 := by
  have hle : v.toNat &&& 255 ≤ 255 := Nat.and_le_right
  rw [BitVec.toNat_setWidth, BitVec.toNat_and]
  change (v.toNat &&& 255) % 2 ^ 32 ≤ 255
  omega

/-- A test is completed by its number in two parts of `NUM`. -/
theorem checkout_eq {cur cur' : BitVec 32} {char : Option (BitVec 8)}
    (h : c.checkout cur = some (cur', char)) :
    (cur' = cur ∨ c.monitorEnabled = true ∧ cur' = cur + 1#32 ∧ c.getCurrentNum = cur' ∧
      c.getAckedNum = cur') ∧
    char = if c.hasChar && decide (c.getChar ≤ 0x7f#8) then some c.getChar else none := by
  rw [checkout] at h
  generalize (if c.hasChar && decide (c.getChar ≤ 0x7f#8) then some c.getChar else none) = o at h ⊢
  split_ifs at h with hm hne hok
  · obtain ⟨rfl, rfl⟩ := Prod.mk.inj (Option.some.inj h)
    exact ⟨.inr ⟨hm, hok.1.symm, rfl, hok.2⟩, rfl⟩
  · obtain ⟨rfl, rfl⟩ := Prod.mk.inj (Option.some.inj h)
    exact ⟨.inl rfl, rfl⟩
  · obtain ⟨rfl, rfl⟩ := Prod.mk.inj (Option.some.inj h)
    exact ⟨.inl rfl, rfl⟩

/-- A check after a cycle of a run: the test is still the same, or the next one is completed. -/
theorem Serves.checkout (hs : Serves a cs vs) {n : ℕ} {cur cur' : BitVec 32}
    {char : Option (BitVec 8)} (hc : (cs (n + 1)).checkout cur = some (cur', char))
    (hle : cur.toNat ≤ 255) :
    (cur' = cur ∨ cur'.toNat = cur.toNat + 1 ∧ cur'.toNat ≤ 255 ∧
      reg a NUM_MONITOR (n + 1) ≠ 0#64 ∧ (reg a NUM (n + 1) >>> 24).setWidth 32 = cur' ∧
      (reg a NUM (n + 1) &&& 0xff#64).setWidth 32 = cur') ∧
    char = ((stored VIRTUAL_UART (a n)).map (BitVec.setWidth 8)).filter (· ≤ 0x7f#8) := by
  obtain ⟨hcur, hchar⟩ := checkout_eq hc
  obtain ⟨hmon, hnum, hack⟩ := hs.monitor (n + 1)
  refine ⟨hcur.imp id ?_, ?_⟩
  · rintro ⟨hm, hinc, hnum', hack'⟩
    rw [hmon] at hm
    rw [hnum] at hnum'
    rw [hack] at hack'
    refine ⟨?_, hack' ▸ toNat_acked_le _, of_decide_eq_true hm, hnum', hack'⟩
    rw [hinc, BitVec.toNat_add, BitVec.toNat_ofNat]
    omega
  · obtain ⟨hhas, hget⟩ := hs.char n
    rw [hchar, hhas, hget, reg, if_neg (show VIRTUAL_UART ≠ TIMER by decide)]
    cases stored VIRTUAL_UART (a n) with
    | none => rfl
    | some v =>
      rw [Option.isSome_some, Bool.true_and, Option.getD_some, Option.map_some, Option.filter_some]

/-- When no test fails, they are completed one after the other, each with its number in `NUM`. The
    lower part of it has 8 bits. -/
theorem completes (hr : IsRun a c₀ cs vs) (h : c₀.changes = []) (cur : ℕ → BitVec 32)
    (char : ℕ → Option (BitVec 8)) (h0 : cur 0 = 0#32)
    (hc : ∀ n, (cs (n + 1)).checkout (cur n) = some (cur (n + 1), char n)) (n : ℕ) :
    (cur n).toNat ≤ 255 ∧
    (∀ j, 1 ≤ j → j ≤ (cur n).toNat → ∃ m < n, (cur m).toNat + 1 = j ∧ (cur (m + 1)).toNat = j ∧
      reg a NUM_MONITOR (m + 1) ≠ 0#64 ∧
      (reg a NUM (m + 1) >>> 24).setWidth 32 = BitVec.ofNat 32 j ∧
      (reg a NUM (m + 1) &&& 0xff#64).setWidth 32 = BitVec.ofNat 32 j) ∧
    char n = ((stored VIRTUAL_UART (a n)).map (BitVec.setWidth 8)).filter (· ≤ 0x7f#8) := by
  have hs := hr.as_accessed h
  have hle : ∀ n, (cur n).toNat ≤ 255 := fun n => by
    induction n with
    | zero =>
      rw [h0]
      decide
    | succ n ih =>
      rcases (hs.checkout (hc n) ih).1 with hsame | ⟨-, hle, -⟩
      · rw [hsame]
        exact ih
      · exact hle
  refine ⟨hle n, ?_, (hs.checkout (hc n) (hle n)).2⟩
  induction n with
  | zero =>
    rw [h0]
    exact fun j h1 hj => absurd (h1.trans hj) (by decide)
  | succ n ih =>
    intro j h1 hj
    by_cases hj' : j ≤ (cur n).toNat
    · obtain ⟨m, hm, hrest⟩ := ih j h1 hj'
      exact ⟨m, by omega, hrest⟩
    · -- The test is completed in this cycle.
      rcases (hs.checkout (hc n) (hle n)).1 with hsame | ⟨hinc, -, hmon, hnum, hack⟩
      · rw [hsame] at hj
        exact absurd hj hj'
      · have hof : cur (n + 1) = BitVec.ofNat 32 j := by
          rw [show j = (cur (n + 1)).toNat by omega, BitVec.ofNat_toNat, BitVec.setWidth_eq]
        rw [hof] at hnum hack
        exact ⟨n, by omega, by omega, by omega, hmon, hnum, hack⟩

theorem reg_greet (n : ℕ) : reg greet NUM_MONITOR n = 1#64 ∧
    reg greet NUM n = if n < 3 then 0#64 else 0x01000001#64 := by
  induction n with
  | zero => exact ⟨rfl, rfl⟩
  | succ n ih =>
    rw [reg, reg, ih.1, ih.2, if_neg (by decide), if_neg (by decide), greet]
    split_ifs <;> first | omega | decide

/-- The first test is completed when its number is in the register. -/
theorem completes_greet : ∃ m < 3, (reg greet NUM (m + 1) >>> 24).setWidth 32 = 1#32 := by
  obtain ⟨cs, vs, hr⟩ := exists_isRun (show blank.changes = [] from rfl) not_fatal_greet
  have hs := hr.as_accessed rfl
  have hc : ∀ n, (cs (n + 1)).checkout (if n < 3 then 0#32 else 1#32) =
      some (if n + 1 < 3 then 0#32 else 1#32, none) := by
    intro n
    obtain ⟨hmon, hcur, hack⟩ := hs.monitor (n + 1)
    obtain ⟨hone, hnum⟩ := reg_greet (n + 1)
    have hchar : (cs (n + 1)).hasChar = false := by
      rw [(hs.char n).1, greet]
      split_ifs <;> decide
    rw [hone, decide_eq_true (by decide)] at hmon
    rw [checkout, hmon, hcur, hack, hchar, hnum, Bool.false_and, if_neg Bool.false_ne_true]
    rcases lt_trichotomy n 2 with h | rfl | h
    · have h3 : n + 1 < 3 := by omega
      rw [if_pos (show n < 3 by omega), if_pos h3, if_pos h3]
      decide
    · decide
    · have h3 : ¬n + 1 < 3 := by omega
      rw [if_neg (show ¬n < 3 by omega), if_neg h3, if_neg h3]
      decide
  obtain ⟨m, hm, -, -, -, hnum, -⟩ := (completes hr rfl (fun n => if n < 3 then 0#32 else 1#32)
    (fun _ => none) rfl hc 3).2.1 1 le_rfl le_rfl
  exact ⟨m, hm, hnum⟩

end Run

end Confreg

end RiscvCpu
