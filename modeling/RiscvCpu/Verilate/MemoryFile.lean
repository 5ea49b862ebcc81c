import Mathlib.Data.List.DropRight
import Mathlib.Data.Nat.Digits.Defs
import Mathlib.Tactic.IntervalCases

/-!
# The files of the memory

The simulation fills its memory from a file: a binary one, or a text of words, one for each
line, in base 2 (`.mif`), in base 16 (`.hex`), or in a base that the text tells (`.coe`).

A text is accepted if and only if each of its lines has a numeral below `2 ^ 32`, or nothing,
with anything around it that is neither a letter nor a digit (`parseMemoryFile_iff`). So a comma
or a semicolon does no harm at the end, and a sign is ignored.

What throws an exception, or fails an assertion, has no result (`none`).
-/

namespace RiscvCpu.MemoryFile

/-! ## The standard library -/

/-- The lines that `std::getline` gives. -/
def lines : List Char → List (List Char)
  | [] => []
  | c :: cs =>
    if c = '\n' then [] :: lines cs
    else
      match lines cs with
      | [] => [[c]]
      | l :: ls => (c :: l) :: ls

def isspace (c : Char) : Bool := c = ' ' || decide (9 ≤ c.toNat ∧ c.toNat ≤ 13)

/-- The value of a digit. -/
def digit (base : ℕ) (c : Char) : Option ℕ :=
  let d :=
    if c.isDigit then c.toNat - 48
    else if c.isLower then c.toNat - 87
    else if c.isUpper then c.toNat - 55
    else base
  if d < base then some d else none

/-- The value of the digits in front, after those with the value `v`, and their number. -/
def digits (base : ℕ) : ℕ → List Char → ℕ × ℕ
  | v, [] => (v, 0)
  | v, c :: cs =>
    match digit base c with
    | some d =>
      let (v, n) := digits base (base * v + d) cs
      (v, n + 1)
    | none => (v, 0)

/-- The size of a mark `0x` in front of a digit. -/
def markSize : List Char → ℕ
  | '0' :: x :: c :: _ => if (x = 'x' ∨ x = 'X') ∧ (digit 16 c).isSome then 2 else 0
  | _ => 0

/-- The base of a numeral, and the size of its mark. Other bases are not allowed. -/
def radix (base : ℤ) (buf : List Char) : Option (ℕ × ℕ) :=
  if base = 16 then some (16, markSize buf)
  else if base = 0 then
    if markSize buf = 2 then some (16, 2)
    else if buf.head? = some '0' then some (8, 0)
    else some (10, 0)
  else if 2 ≤ base ∧ base ≤ 36 then some (base.toNat, 0)
  else none

/-- `std::stoull`, where the text starts with a letter or a digit: there is no white space and no
    sign. -/
def stoull (buf : List Char) (base : ℤ) : Option (BitVec 64 × ℕ) :=
  (radix base buf).bind fun (b, k) =>
    let (v, n) := digits b 0 (buf.drop k)
    if n = 0 ∨ 2 ^ 64 ≤ v then none else some (BitVec.ofNat 64 v, k + n)

def stoi (buf : List Char) : Option ℤ :=
  let (negative, buf) :=
    match buf.dropWhile isspace with
    | '-' :: buf => (true, buf)
    | '+' :: buf => (false, buf)
    | buf => (false, buf)
  let (v, n) := digits 10 0 buf
  let i : ℤ := if negative then -v else v
  if n = 0 ∨ i < -2 ^ 31 ∨ 2 ^ 31 ≤ i then none else some i

/-! ## The parser -/

def trim (text : List Char) : List Char :=
  (text.dropWhile fun c => !c.isAlphanum).rdropWhile fun c => !c.isAlphanum

/-- The 4 bytes of a word. -/
def wordBytes (data : BitVec 64) : List (BitVec 8) :=
  (List.range 4).map fun i => (data >>> (8 * i)).setWidth 8

/-- What a line adds. -/
def feedLine (base : ℤ) (line : List Char) : Option (List (BitVec 8)) :=
  let buf := trim line
  if buf = [] then some []
  else
    (stoull buf base).bind fun (data, count) =>
      if count = buf.length ∧ data &&& 0xffffffff#64 = data then some (wordBytes data) else none

def feed (base : ℤ) : List (List Char) → Option (List (BitVec 8))
  | [] => some []
  | line :: ls => (feedLine base line).bind fun b => (feed base ls).map (b ++ ·)

/-- The base and the data of a COE file. -/
def coeHeader : List (List Char) → Option (ℤ × List (List Char))
  | line :: line' :: ls =>
    if trim (line.takeWhile (· ≠ '=')) = "memory_initialization_radix".toList then
      (stoi ((line.dropWhile (· ≠ '=')).drop 1)).bind fun base =>
        if trim (line'.takeWhile (· ≠ '=')) = "memory_initialization_vector".toList then
          some (base, ls)
        else none
    else none
  | _ => none

def parseCoe (file : List Char) : Option (List (BitVec 8)) :=
  (coeHeader (lines file)).bind fun (base, ls) => feed base ls

def parseMif (file : List Char) : Option (List (BitVec 8)) := feed 2 (lines file)

def parseHex (file : List Char) : Option (List (BitVec 8)) := feed 16 (lines file)

def parseBin (file : List Char) : List (BitVec 8) := file.map fun c => BitVec.ofNat 8 c.toNat

def parseMemoryFile (path file : List Char) : Option (List (BitVec 8)) :=
  if ".coe".toList.isSuffixOf path then parseCoe file
  else if ".mif".toList.isSuffixOf path then parseMif file
  else if ".hex".toList.isSuffixOf path then parseHex file
  else some (parseBin file)

/-! ## What is accepted -/

/-- The digits of a number. -/
def Digits (base : ℕ) (s : List Char) (v : ℕ) : Prop :=
  s ≠ [] ∧ ∃ ds : List ℕ, s.map (digit base) = ds.map some ∧ v = Nat.ofDigits base ds.reverse

/-- A number, with its mark. -/
def Numeral (base : ℤ) (s : List Char) (v : ℕ) : Prop :=
  ∃ b k, radix base s = some (b, k) ∧ Digits b (s.drop k) v

/-- A line, with its bytes. -/
inductive Line (base : ℤ) : List Char → List (BitVec 8) → Prop
  | blank {l : List Char} (hl : ∀ c ∈ l, ¬c.isAlphanum) : Line base l []
  | word {before s after : List Char} {v : ℕ} (hbefore : ∀ c ∈ before, ¬c.isAlphanum)
      (hafter : ∀ c ∈ after, ¬c.isAlphanum) (hs : Numeral base s v) (hv : v < 2 ^ 32) :
      Line base (before ++ s ++ after) (wordBytes (BitVec.ofNat 64 v))

/-- The lines of a text, with their bytes. -/
def Text (base : ℤ) (ls : List (List Char)) (bytes : List (BitVec 8)) : Prop :=
  ∃ bs, List.Forall₂ (Line base) ls bs ∧ bytes = bs.flatten

/-! ## Numerals -/

section Numerals

variable {b k v : ℕ} {c : Char} {s : List Char} {base : ℤ}

theorem isAlphanum_of_digit (h : (digit b c).isSome) : c.isAlphanum := by
  by_contra hc
  change ¬(c.isUpper || c.isLower || c.isDigit) = true at hc
  simp only [Bool.or_eq_true, not_or, Bool.not_eq_true] at hc
  simp [digit, hc] at h

/-- The digits of a number are read to their end. -/
theorem digits_of_map {ds : List ℕ} (h : s.map (digit b) = ds.map some) (v : ℕ) :
    digits b v s = (b ^ s.length * v + Nat.ofDigits b ds.reverse, s.length) := by
  induction s generalizing v ds with
  | nil =>
    obtain rfl : ds = [] := List.map_eq_nil_iff.1 h.symm
    simp [digits]
  | cons c s ih =>
    cases ds with
    | nil => cases h
    | cons d ds =>
      obtain ⟨hd, hs⟩ := List.cons_eq_cons.1 h
      have hlen : ds.length = s.length := by simpa using congrArg List.length hs.symm
      rw [digits, hd]
      dsimp only
      rw [ih hs, List.reverse_cons, Nat.ofDigits_append, Nat.ofDigits_singleton,
        List.length_reverse, hlen, List.length_cons]
      ring_nf

/-- What is read to its end are digits. -/
theorem exists_map_of_digits (h : (digits b v s).2 = s.length) :
    ∃ ds : List ℕ, s.map (digit b) = ds.map some := by
  induction s generalizing v with
  | nil => exact ⟨[], rfl⟩
  | cons c s ih =>
    rw [digits] at h
    cases hd : digit b c with
    | none =>
      rw [hd] at h
      cases h
    | some d =>
      rw [hd] at h
      obtain ⟨ds, hds⟩ := ih (Nat.succ.inj h)
      exact ⟨d :: ds, by rw [List.map_cons, hd, hds, List.map_cons]⟩

/-- A mark is in front of a digit. -/
theorem markSize_eq (s : List Char) : markSize s = 0 ∨ markSize s = 2 ∧ 2 ≤ s.length ∧
    ∀ c ∈ s.take 2, c.isAlphanum := by
  unfold markSize
  split
  next x c s =>
    by_cases hx : (x = 'x' ∨ x = 'X') ∧ (digit 16 c).isSome
    · refine .inr ⟨if_pos hx, Nat.le_add_left 2 _, fun y hy => ?_⟩
      rcases List.mem_pair.1 hy with rfl | rfl
      · decide
      · rcases hx.1 with rfl | rfl <;> decide
    · exact .inl (if_neg hx)
  next => exact .inl rfl

theorem radix_mark (h : radix base s = some (b, k)) :
    k ≤ s.length ∧ ∀ c ∈ s.take k, c.isAlphanum := by
  have hzero : 0 ≤ s.length ∧ ∀ c ∈ s.take 0, c.isAlphanum :=
    ⟨Nat.zero_le _, fun c hc => absurd hc List.not_mem_nil⟩
  have hmark : markSize s ≤ s.length ∧ ∀ c ∈ s.take (markSize s), c.isAlphanum := by
    rcases markSize_eq s with h0 | ⟨h2, hlen, hall⟩
    · rw [h0]
      exact hzero
    · rw [h2]
      exact ⟨hlen, hall⟩
  rw [radix] at h
  split_ifs at h with h16 h0 h2 h8 <;> obtain ⟨-, rfl⟩ := Prod.mk.inj (Option.some.inj h)
  · exact hmark
  · rw [← h2]
    exact hmark
  · exact hzero
  · exact hzero
  · exact hzero

theorem Numeral.isAlphanum (h : Numeral base s v) : s ≠ [] ∧ ∀ c ∈ s, c.isAlphanum := by
  obtain ⟨b, k, hr, hne, ds, hds, -⟩ := h
  refine ⟨fun hs => hne (by rw [hs, List.drop_nil]), fun c hc => ?_⟩
  rw [← List.take_append_drop k s, List.mem_append] at hc
  rcases hc with hc | hc
  · exact (radix_mark hr).2 c hc
  · have hmem : digit b c ∈ ds.map some := hds ▸ List.mem_map_of_mem hc
    obtain ⟨d, -, hd⟩ := List.mem_map.1 hmem
    exact isAlphanum_of_digit (b := b) (hd ▸ rfl)

/-- The check of `feed`. -/
theorem and_mask_iff {v : ℕ} (h : v < 2 ^ 64) :
    BitVec.ofNat 64 v &&& 0xffffffff#64 = BitVec.ofNat 64 v ↔ v < 2 ^ 32 := by
  rw [← BitVec.toNat_inj, BitVec.toNat_and, BitVec.toNat_ofNat, Nat.mod_eq_of_lt h]
  change v &&& (2 ^ 32 - 1) = v ↔ _
  rw [Nat.and_two_pow_sub_one_eq_mod]
  exact ⟨fun h => by omega, Nat.mod_eq_of_lt⟩

/-- A text is read to its end, and is a word, if it is a numeral below `2 ^ 32`. -/
theorem stoull_iff {bytes : List (BitVec 8)} : ((stoull s base).bind fun (data, count) =>
      if count = s.length ∧ data &&& 0xffffffff#64 = data then some (wordBytes data) else none) =
    some bytes ↔
      ∃ v < 2 ^ 32, Numeral base s v ∧ bytes = wordBytes (BitVec.ofNat 64 v) := by
  constructor
  · intro h
    obtain ⟨⟨data, count⟩, hs, h⟩ := Option.bind_eq_some_iff.1 h
    obtain ⟨⟨b, k⟩, hr, hs⟩ := Option.bind_eq_some_iff.1 hs
    dsimp only at h hs
    split_ifs at h with hc
    split_ifs at hs with hn
    obtain ⟨hn, hv⟩ := not_or.1 hn
    obtain ⟨rfl, rfl⟩ := Prod.mk.inj (Option.some.inj hs)
    have hk := (radix_mark hr).1
    have hlen : (digits b 0 (s.drop k)).2 = (s.drop k).length := by
      rw [List.length_drop]
      omega
    obtain ⟨ds, hds⟩ := exists_map_of_digits hlen
    refine ⟨(digits b 0 (s.drop k)).1, (and_mask_iff (not_le.1 hv)).1 hc.2,
      ⟨b, k, hr, fun hnil => hn (by rw [hlen, hnil]; rfl), ds, hds, ?_⟩, (Option.some.inj h).symm⟩
    rw [digits_of_map hds, Nat.mul_zero, Nat.zero_add]
  · rintro ⟨v, hv, ⟨b, k, hr, hne, ds, hds, rfl⟩, rfl⟩
    have hv64 : Nat.ofDigits b ds.reverse < 2 ^ 64 := hv.trans (by norm_num)
    have hlen : (s.drop k).length ≠ 0 := fun h => hne (List.length_eq_zero_iff.1 h)
    have hk := (radix_mark hr).1
    rw [stoull, hr, Option.bind_some]
    dsimp only
    rw [digits_of_map hds, Nat.mul_zero, Nat.zero_add, if_neg (by omega), Option.bind_some]
    refine if_pos ⟨?_, (and_mask_iff hv64).2 hv⟩
    rw [List.length_drop]
    omega

end Numerals

/-! ## Lines -/

section Lines

variable {base : ℤ} {l s : List Char} {b : List (BitVec 8)}

theorem dropWhile_append_of_alphanum (hne : s ≠ []) (h : ∀ c ∈ s, c.isAlphanum) (t : List Char) :
    (s ++ t).dropWhile (fun c => !c.isAlphanum) = s ++ t := by
  cases s with
  | nil => exact absurd rfl hne
  | cons c s => rw [List.cons_append, List.dropWhile_cons, h c List.mem_cons_self]; rfl

theorem trim_append {before after : List Char} (hbefore : ∀ c ∈ before, ¬c.isAlphanum)
    (hafter : ∀ c ∈ after, ¬c.isAlphanum) (hne : s ≠ []) (hs : ∀ c ∈ s, c.isAlphanum) :
    trim (before ++ s ++ after) = s := by
  have hback : s.reverse.dropWhile (fun c => !c.isAlphanum) = s.reverse := by
    simpa using dropWhile_append_of_alphanum (mt List.reverse_eq_nil_iff.1 hne)
      (fun c hc => hs c (List.mem_reverse.1 hc)) []
  rw [trim, List.append_assoc, List.dropWhile_append_of_pos fun c hc => by simpa using hbefore c hc,
    dropWhile_append_of_alphanum hne hs, List.rdropWhile, List.reverse_append,
    List.dropWhile_append_of_pos fun c hc => by simpa using hafter c (List.mem_reverse.1 hc),
    hback, List.reverse_reverse]

/-- What `trim` removes. -/
theorem exists_trim (l : List Char) : ∃ before after, l = before ++ trim l ++ after ∧
    (∀ c ∈ before, ¬c.isAlphanum) ∧ ∀ c ∈ after, ¬c.isAlphanum := by
  refine ⟨l.takeWhile fun c => !c.isAlphanum,
    (l.dropWhile fun c => !c.isAlphanum).rtakeWhile fun c => !c.isAlphanum, ?_,
    fun c hc => by simpa using List.mem_takeWhile_imp hc,
    fun c hc => by simpa using List.mem_rtakeWhile_imp hc⟩
  rw [trim, List.append_assoc, List.rdropWhile_append_rtakeWhile, List.takeWhile_append_dropWhile]

theorem trim_eq_nil_iff : trim l = [] ↔ ∀ c ∈ l, ¬c.isAlphanum := by
  constructor
  · intro h c hc
    obtain ⟨before, after, hl, hbefore, hafter⟩ := exists_trim l
    rw [h, List.append_nil] at hl
    rw [hl, List.mem_append] at hc
    exact hc.elim (hbefore c) (hafter c)
  · intro h
    rw [trim, List.dropWhile_eq_nil_iff.2 fun c hc => by simpa using h c hc, List.rdropWhile_nil]

theorem feedLine_iff : feedLine base l = some b ↔ Line base l b := by
  rw [feedLine]
  constructor
  · intro h
    dsimp only at h
    split_ifs at h with hl
    · obtain rfl := Option.some.inj h
      exact .blank (trim_eq_nil_iff.1 hl)
    · obtain ⟨v, hv, hs, rfl⟩ := stoull_iff.1 h
      obtain ⟨before, after, hl, hbefore, hafter⟩ := exists_trim l
      rw [hl]
      exact .word hbefore hafter hs hv
  · intro h
    cases h with
    | blank hl => exact if_pos (trim_eq_nil_iff.2 hl)
    | word hbefore hafter hs hv =>
      obtain ⟨hne, hall⟩ := hs.isAlphanum
      rw [trim_append hbefore hafter hne hall]
      exact (if_neg hne).trans (stoull_iff.2 ⟨_, hv, hs, rfl⟩)

/-- The lines are accepted one by one. -/
theorem feed_iff {ls : List (List Char)} {bytes : List (BitVec 8)} :
    feed base ls = some bytes ↔ Text base ls bytes := by
  induction ls generalizing bytes with
  | nil =>
    constructor
    · intro h
      exact ⟨[], .nil, (Option.some.inj h).symm⟩
    · rintro ⟨bs, hbs, rfl⟩
      cases hbs
      rfl
  | cons l ls ih =>
    rw [feed, Option.bind_eq_some_iff]
    constructor
    · rintro ⟨b, hb, h⟩
      obtain ⟨rest, hrest, rfl⟩ := Option.map_eq_some_iff.1 h
      obtain ⟨bs, hbs, rfl⟩ := ih.1 hrest
      exact ⟨b :: bs, .cons (feedLine_iff.1 hb) hbs, rfl⟩
    · rintro ⟨bs, hbs, rfl⟩
      cases hbs with
      | cons hb hbs =>
        exact ⟨_, feedLine_iff.2 hb, Option.map_eq_some_iff.2 ⟨_, ih.2 ⟨_, hbs, rfl⟩, rfl⟩⟩

/-- What is accepted, and what it means. -/
theorem parseMemoryFile_iff (path file : List Char) (bytes : List (BitVec 8)) :
    parseMemoryFile path file = some bytes ↔
      if ".coe".toList.isSuffixOf path then
        ∃ base ls, coeHeader (lines file) = some (base, ls) ∧ Text base ls bytes
      else if ".mif".toList.isSuffixOf path then Text 2 (lines file) bytes
      else if ".hex".toList.isSuffixOf path then Text 16 (lines file) bytes
      else bytes = parseBin file := by
  rw [parseMemoryFile]
  split_ifs
  · rw [parseCoe, Option.bind_eq_some_iff, Prod.exists]
    simp only [feed_iff]
  · exact feed_iff
  · exact feed_iff
  · rw [Option.some_inj, eq_comm]

example : parseHex "1f,\n\n -0xAb;".toList =
    some [0x1f#8, 0x00#8, 0x00#8, 0x00#8, 0xab#8, 0x00#8, 0x00#8, 0x00#8] := by decide

end Lines

/-! ## Printing -/

section Print

variable {b v : ℕ} {l s : List Char}

/-- A text of words, one for each line. -/
def print (b : ℕ) (ws : List (BitVec 32)) : List Char :=
  ws.flatMap fun w => Nat.toDigits b w.toNat ++ ['\n']

theorem digit_digitChar (hb : b ≤ 16) (hv : v < b) : digit b v.digitChar = some v := by
  have hd : ∀ v < 16, digit b v.digitChar = if v < b then some v else none := by
    intro v hv
    interval_cases v <;> rfl
  rw [hd v (hv.trans_le hb), if_pos hv]

theorem digits_toDigits (h1 : 1 < b) (hb : b ≤ 16) (v : ℕ) : Digits b (Nat.toDigits b v) v := by
  refine ⟨Nat.toDigits_ne_nil, ?_⟩
  induction v using Nat.strong_induction_on with
  | _ v ih =>
    rw [Nat.toDigits_eq_if h1]
    by_cases hv : v < b
    · rw [if_pos hv]
      refine ⟨[v], by rw [List.map_singleton, digit_digitChar hb hv, List.map_singleton], ?_⟩
      rw [List.reverse_singleton, Nat.ofDigits_singleton]
    · obtain ⟨ds, hds, hval⟩ := ih (v / b) (Nat.div_lt_self (by omega) h1)
      rw [if_neg hv]
      refine ⟨ds ++ [v % b], ?_, ?_⟩
      · rw [List.map_append, hds, List.map_singleton,
          digit_digitChar hb (Nat.mod_lt v (by omega)), List.map_append, List.map_singleton]
      · rw [List.reverse_append, List.reverse_singleton, List.singleton_append,
          Nat.ofDigits_cons, ← hval]
        exact (Nat.mod_add_div v b).symm

/-- Digits have no mark. -/
theorem markSize_of_digits (h : Digits 16 s v) : markSize s = 0 := by
  unfold markSize
  split
  next x c s =>
    obtain ⟨-, ds, hds, -⟩ := h
    refine if_neg fun hx => ?_
    have hmem : digit 16 x ∈ ds.map some := hds ▸ List.mem_map_of_mem (by simp)
    obtain ⟨d, -, hd⟩ := List.mem_map.1 hmem
    rcases hx.1 with rfl | rfl <;> cases hd
  next => rfl

theorem numeral_two (h : Digits 2 s v) : Numeral 2 s v := ⟨2, 0, rfl, h⟩

theorem numeral_sixteen (h : Digits 16 s v) : Numeral 16 s v :=
  ⟨16, 0, by rw [radix, if_pos rfl, markSize_of_digits h], h⟩

theorem lines_append (hl : '\n' ∉ l) (s : List Char) : lines (l ++ '\n' :: s) = l :: lines s := by
  induction l with
  | nil => exact if_pos rfl
  | cons c l ih =>
    obtain ⟨hc, hl⟩ := not_or.1 (mt List.mem_cons.2 hl)
    rw [List.cons_append, lines, if_neg (Ne.symm hc), ih hl]

theorem text_print {base : ℤ} (hb : ∀ v, Numeral base (Nat.toDigits b v) v)
    (ws : List (BitVec 32)) : Text base (lines (print b ws))
      (ws.flatMap fun w => wordBytes (w.setWidth 64)) := by
  induction ws with
  | nil => exact ⟨[], .nil, rfl⟩
  | cons w ws ih =>
    obtain ⟨bs, hbs, heq⟩ := ih
    have hn : '\n' ∉ Nat.toDigits b w.toNat := fun h =>
      absurd ((hb w.toNat).isAlphanum.2 _ h) (by decide)
    have hline : Line base (Nat.toDigits b w.toNat) (wordBytes (w.setWidth 64)) := by
      have hw := @Line.word base [] _ [] _ (fun c hc => nomatch hc) (fun c hc => nomatch hc)
        (hb w.toNat) w.isLt
      rwa [List.nil_append, List.append_nil, BitVec.ofNat_toNat] at hw
    rw [print, List.flatMap_cons, List.append_assoc, List.singleton_append, lines_append hn]
    exact ⟨_ :: bs, .cons hline hbs, by rw [List.flatMap_cons, heq, List.flatten_cons]⟩

/-- What is printed is read again. -/
theorem parse_print (ws : List (BitVec 32)) :
    parseMif (print 2 ws) = some (ws.flatMap fun w => wordBytes (w.setWidth 64)) ∧
    parseHex (print 16 ws) = some (ws.flatMap fun w => wordBytes (w.setWidth 64)) :=
  ⟨feed_iff.2 (text_print (fun v => numeral_two (digits_toDigits (by decide) (by decide) v)) ws),
    feed_iff.2
      (text_print (fun v => numeral_sixteen (digits_toDigits (by decide) le_rfl v)) ws)⟩

end Print

end RiscvCpu.MemoryFile
