/-
# Theory.Pic -- two cascaded 8259 interrupt controllers

A `Pic` is one chip: the requests it has latched, the mask, the interrupts in
service, and what the initialization words set.  The command port takes ICW1 and
the specific end of interrupt, the data port the other initialization words in
their order and, once they are through, the mask; the chip's other commands do
nothing here, and a chip in another mode than plain nesting with explicit ends of
interrupt delivers nothing.  In a `PicPair` the slave's output is line 2 of the
master.

`PicPair.lines` forgets the cascade: sixteen lines, each requested or not, open
or not, in service or not, with the slave's lines at the level of line 2.  For a
nested pair `acknowledge_iff` says that the chips deliver exactly the best line,
which is the highest open request if nothing in service is as high (`Lines.Best`);
acknowledging and ending an interrupt keep the pair nested.
-/
import Mathlib.Data.BitVec

namespace Illinix.Theory

set_option autoImplicit false

/-! ## Registers -/

def setBit (r : BitVec 8) (n : Nat) : BitVec 8 := r ||| (1#8 <<< n)
def clearBit (r : BitVec 8) (n : Nat) : BitVec 8 := r &&& ~~~(1#8 <<< n)

theorem getLsbD_setBit (r : BitVec 8) {n : Nat} (small : n < 8) (i : Nat) :
    (setBit r n).getLsbD i = (r.getLsbD i || decide (i = n)) := by
  simp only [setBit, BitVec.getLsbD_or, BitVec.getLsbD_shiftLeft, BitVec.getLsbD_one]
  congr 1
  rw [Bool.eq_iff_iff]
  simp
  omega

theorem getLsbD_clearBit (r : BitVec 8) (n : Nat) (i : Nat) :
    (clearBit r n).getLsbD i = (r.getLsbD i && decide (i ≠ n)) := by
  simp only [clearBit, BitVec.getLsbD_and, BitVec.getLsbD_not, BitVec.getLsbD_shiftLeft,
    BitVec.getLsbD_one]
  by_cases inside : i < 8
  · congr 1
    rw [Bool.eq_iff_iff]
    simp [inside]
    omega
  · rw [BitVec.getLsbD_of_ge r i (by omega)]
    rfl

/-- Bit `n` of a word that lies in two registers. -/
def lineBit (low high : BitVec 8) (n : Nat) : Bool :=
  if n < 8 then low.getLsbD n else high.getLsbD (n - 8)

theorem lineBit_low (low high : BitVec 8) {n : Nat} (inside : n < 8) :
    lineBit low high n = low.getLsbD n := if_pos inside

theorem lineBit_high (low high : BitVec 8) (k : Nat) :
    lineBit low high (8 + k) = high.getLsbD k := by
  rw [lineBit, if_neg (by omega), Nat.add_sub_cancel_left]

/-- A line is one of the lower register or one of the higher. -/
theorem line_cases (n : Nat) : n < 8 ∨ ∃ k, n = 8 + k := by
  by_cases inside : n < 8
  · exact Or.inl inside
  · exact Or.inr ⟨n - 8, by omega⟩

theorem lineBit_setLow (low high : BitVec 8) {n : Nat} (inside : n < 8) (i : Nat) :
    lineBit (setBit low n) high i = (lineBit low high i || decide (i = n)) := by
  obtain small | ⟨j, rfl⟩ := line_cases i
  · rw [lineBit_low _ _ small, lineBit_low _ _ small, getLsbD_setBit _ inside]
  · rw [lineBit_high, lineBit_high, decide_eq_false (by omega), Bool.or_false]

theorem lineBit_setHigh (low high : BitVec 8) {k : Nat} (inside : k < 8) (i : Nat) :
    lineBit low (setBit high k) i = (lineBit low high i || decide (i = 8 + k)) := by
  obtain small | ⟨j, rfl⟩ := line_cases i
  · rw [lineBit_low _ _ small, lineBit_low _ _ small, decide_eq_false (by omega), Bool.or_false]
  · rw [lineBit_high, lineBit_high, getLsbD_setBit _ inside]
    simp only [Nat.add_left_cancel_iff]

theorem lineBit_clearLow (low high : BitVec 8) {n : Nat} (inside : n < 8) (i : Nat) :
    lineBit (clearBit low n) high i = (lineBit low high i && decide (i ≠ n)) := by
  obtain small | ⟨j, rfl⟩ := line_cases i
  · rw [lineBit_low _ _ small, lineBit_low _ _ small, getLsbD_clearBit]
  · rw [lineBit_high, lineBit_high, decide_eq_true (by omega), Bool.and_true]

theorem lineBit_clearHigh (low high : BitVec 8) (k : Nat) (i : Nat) :
    lineBit low (clearBit high k) i = (lineBit low high i && decide (i ≠ 8 + k)) := by
  obtain small | ⟨j, rfl⟩ := line_cases i
  · rw [lineBit_low _ _ small, lineBit_low _ _ small, decide_eq_true (by omega), Bool.and_true]
  · rw [lineBit_high, lineBit_high, getLsbD_clearBit]
    simp only [ne_eq, Nat.add_left_cancel_iff]

/-! ## One chip -/

/-- The write that the data port takes next: an initialization word, with the
words that follow it, or the mask. -/
inductive PicStage where
  | icw2 (icw3 icw4 : Bool)
  | icw3 (icw4 : Bool)
  | icw4
  | ready
  deriving DecidableEq, Repr

structure Pic where
  irr : BitVec 8
  imr : BitVec 8
  isr : BitVec 8
  /-- ICW2: the vector of line 0. -/
  base : BitVec 8
  /-- ICW3: the lines with a slave, or a slave's own line. -/
  cascade : BitVec 8
  /-- ICW4 -/
  mode : BitVec 8
  stage : PicStage
  deriving DecidableEq, Repr

namespace Pic

def command (c : Pic) (v : BitVec 8) : Pic :=
  if v.getLsbD 4 then
    { c with irr := 0, imr := 0, isr := 0, mode := 0, stage := .icw2 (!v.getLsbD 1) (v.getLsbD 0) }
  else if v.toNat / 8 = 12 then { c with isr := clearBit c.isr (v.toNat % 8) }
  else c

def data (c : Pic) (v : BitVec 8) : Pic :=
  match c.stage with
  | .icw2 icw3 icw4 =>
      { c with base := v &&& 0xF8, stage := if icw3 then .icw3 icw4 else if icw4 then .icw4 else .ready }
  | .icw3 icw4 => { c with cascade := v, stage := if icw4 then .icw4 else .ready }
  | .icw4 => { c with mode := v, stage := .ready }
  | .ready => { c with imr := v }

/-- Initialized for plain nesting: 8086 vectors, no automatic end of interrupt,
no special nesting. -/
def normal (c : Pic) : Bool := c.stage = .ready && c.mode &&& 0x13 = 1

def pending (c : Pic) (n : Nat) : Bool := c.irr.getLsbD n && !c.imr.getLsbD n

/-- The line the chip asks the processor for: the highest pending one, if no line
as high is in service. -/
def next (c : Pic) : Option Nat :=
  ((List.range 8).find? fun n => c.isr.getLsbD n || c.pending n).filter fun n => !c.isr.getLsbD n

def raise (c : Pic) (n : Nat) : Pic := { c with irr := setBit c.irr n }

def serve (c : Pic) (n : Nat) : Pic := { c with irr := clearBit c.irr n, isr := setBit c.isr n }

theorem next_eq_some {c : Pic} {n : Nat} : c.next = some n ↔ n < 8 ∧ c.pending n = true ∧
    (∀ m, m ≤ n → c.isr.getLsbD m = false) ∧ ∀ m, m < n → c.pending m = false := by
  simp only [next, Option.filter_eq_some_iff, List.find?_range_eq_some, List.mem_range]
  constructor
  · rintro ⟨⟨chosen, inside, before⟩, free⟩
    have free : c.isr.getLsbD n = false := by simpa using free
    have quiet : ∀ m, m < n → c.isr.getLsbD m = false ∧ c.pending m = false := fun m below => by
      simpa using before m below
    refine ⟨inside, by simpa [free] using chosen, fun m upTo => ?_, fun m below => (quiet m below).2⟩
    obtain rfl | below := Nat.eq_or_lt_of_le upTo
    · exact free
    · exact (quiet m below).1
  · rintro ⟨inside, asked, free, before⟩
    refine ⟨⟨by simp [asked], inside, fun m below => ?_⟩, by simp [free n (Nat.le_refl n)]⟩
    simp [free m (Nat.le_of_lt below), before m below]

/-- With nothing in service the chip asks as soon as a line is pending. -/
theorem next_isSome {c : Pic} (free : c.isr = 0) : c.next.isSome = true ↔ ∃ n, c.pending n = true := by
  constructor
  · intro asks
    obtain ⟨n, asked⟩ := Option.isSome_iff_exists.1 asks
    exact ⟨n, (next_eq_some.1 asked).2.1⟩
  · intro asked
    obtain ⟨least, before⟩ := And.intro (Nat.find_spec asked) fun m => Nat.find_min (m := m) asked
    have inside : Nat.find asked < 8 := by
      by_contra outside
      rw [pending, BitVec.getLsbD_of_ge c.irr _ (Nat.not_lt.1 outside)] at least
      exact nomatch least
    refine Option.isSome_iff_exists.2 ⟨Nat.find asked, next_eq_some.2 ⟨inside, least, ?_, ?_⟩⟩
    · simp [free]
    · exact fun m below => by simpa using before m below

end Pic

/-! ## The cascade -/

/-- The master's line that the slave's output goes to. -/
def cascadeLine : Nat := 2

structure PicPair where
  master : Pic
  slave : Pic
  deriving DecidableEq, Repr

namespace PicPair

/-- The master, with the slave's output on its line. -/
def wired (p : PicPair) : Pic :=
  { p.master with
    irr := if p.slave.next.isSome then setBit p.master.irr cascadeLine
      else clearBit p.master.irr cascadeLine }

/-- A device on line `n` asks for an interrupt. -/
def raise (p : PicPair) (n : Nat) : PicPair :=
  if n < 8 then { p with master := p.master.raise n }
  else if n < 16 then { p with slave := p.slave.raise (n - 8) }
  else p

/-- The processor's acknowledge cycle: the pair and the vector. -/
def acknowledge (p : PicPair) : Option (PicPair × BitVec 8) :=
  if p.master.normal && p.slave.normal then do
    let n ← p.wired.next
    let master := p.master.serve n
    if p.master.cascade.getLsbD n then
      if p.slave.cascade.toNat % 8 = n then do
        let k ← p.slave.next
        some (⟨master, p.slave.serve k⟩, p.slave.base ||| BitVec.ofNat 8 k)
      else none
    else some ({ p with master := master }, p.master.base ||| BitVec.ofNat 8 n)
  else none

end PicPair

/-! ## Lines -/

/-- What a pair of controllers is for: sixteen lines, of which line 2 is only the
gate of the upper eight. -/
@[ext] structure Lines where
  requested : Nat → Bool
  isOpen : Nat → Bool
  serving : Nat → Bool

/-- The priority of a line; the slave's lines have that of the line they share. -/
def lineLevel (n : Nat) : Nat := if n < 8 then n else cascadeLine

namespace Lines

def Pending (s : Lines) (n : Nat) : Prop :=
  s.requested n = true ∧ s.isOpen n = true ∧ (8 ≤ n → s.isOpen cascadeLine = true)

/-- Line `n` is the one to deliver. -/
structure Best (s : Lines) (n : Nat) : Prop where
  pending : s.Pending n
  /-- Nothing in service is as high. -/
  above : ∀ k, s.serving k = true → lineLevel n < lineLevel k
  highest : ∀ k, s.Pending k → lineLevel n < lineLevel k ∨ lineLevel n = lineLevel k ∧ n ≤ k

theorem Best.unique {s : Lines} {n k : Nat} (one : s.Best n) (other : s.Best k) : n = k := by
  have first := one.highest k other.pending
  have second := other.highest n one.pending
  omega

/-- A line in service is not delivered again. -/
theorem Best.idle {s : Lines} {n : Nat} (best : s.Best n) : s.serving n = false := by
  by_contra busy
  exact Nat.lt_irrefl _ (best.above n (by simpa using busy))

def request (s : Lines) (n : Nat) : Lines := { s with requested := Function.update s.requested n true }

def serve (s : Lines) (n : Nat) : Lines :=
  { s with
    requested := Function.update s.requested n false
    serving := Function.update s.serving n true }

def finish (s : Lines) (n : Nat) : Lines := { s with serving := Function.update s.serving n false }

def setOpen (s : Lines) (n : Nat) (isOpen : Bool) : Lines :=
  { s with isOpen := Function.update s.isOpen n isOpen }

end Lines

namespace PicPair

/-- The pair, seen as lines. -/
def lines (p : PicPair) : Lines where
  requested n := n != cascadeLine && lineBit p.master.irr p.slave.irr n
  isOpen n := n < 16 && !lineBit p.master.imr p.slave.imr n
  serving n := n != cascadeLine && lineBit p.master.isr p.slave.isr n

/-- Initialized as master and slave, and serving at most one of the slave's lines. -/
structure Cascaded (p : PicPair) : Prop where
  masterNormal : p.master.normal = true
  slaveNormal : p.slave.normal = true
  slaves : p.master.cascade = 1#8 <<< cascadeLine
  identity : p.slave.cascade.toNat % 8 = cascadeLine
  shared : p.master.isr.getLsbD cascadeLine = true ↔ ∃ k, p.slave.isr.getLsbD k = true
  single : ∀ j k, p.slave.isr.getLsbD j = true → p.slave.isr.getLsbD k = true → j = k

/-- The pair once line `n` is acknowledged. -/
def taken (p : PicPair) (n : Nat) : PicPair :=
  if n < 8 then { p with master := p.master.serve n }
  else ⟨p.master.serve cascadeLine, p.slave.serve (n - 8)⟩

/-- The pair once the end of interrupt has gone to every chip of line `n`. -/
def finished (p : PicPair) (n : Nat) : PicPair :=
  if n < 8 then { p with master := { p.master with isr := clearBit p.master.isr n } }
  else
    ⟨{ p.master with isr := clearBit p.master.isr cascadeLine },
      { p.slave with isr := clearBit p.slave.isr (n - 8) }⟩

def vector (p : PicPair) (n : Nat) : BitVec 8 :=
  if n < 8 then p.master.base ||| BitVec.ofNat 8 n else p.slave.base ||| BitVec.ofNat 8 (n - 8)

section

variable {p : PicPair}

theorem Cascaded.quiet (cascaded : p.Cascaded) (free : p.master.isr.getLsbD cascadeLine = false)
    (k : Nat) : p.slave.isr.getLsbD k = false := by
  by_contra busy
  have shared := cascaded.shared.2 ⟨k, by simpa using busy⟩
  exact nomatch free.symm.trans shared

theorem Cascaded.slave_idle (cascaded : p.Cascaded)
    (free : p.master.isr.getLsbD cascadeLine = false) : p.slave.isr = 0 := by
  apply BitVec.eq_of_getLsbD_eq
  intro k _
  rw [cascaded.quiet free k]
  exact (BitVec.getLsbD_zero ..).symm

theorem wired_pending (p : PicPair) {n : Nat} (other : n ≠ cascadeLine) :
    p.wired.pending n = p.master.pending n := by
  simp only [Pic.pending, wired]
  split_ifs
  · rw [getLsbD_setBit _ (by decide), decide_eq_false other, Bool.or_false]
  · rw [getLsbD_clearBit, decide_eq_true other, Bool.and_true]

theorem wired_cascade (p : PicPair) : p.wired.pending cascadeLine =
    (p.slave.next.isSome && !p.master.imr.getLsbD cascadeLine) := by
  simp only [Pic.pending, wired]
  split_ifs with asks
  · rw [getLsbD_setBit _ (by decide), decide_eq_true rfl, Bool.or_true, asks]
  · rw [getLsbD_clearBit, decide_eq_false (not_not.2 rfl), Bool.and_false, Bool.false_and,
      (Bool.not_eq_true _).mp asks, Bool.false_and]

theorem above_cascade (k : Nat) : 8 + k ≠ cascadeLine := by
  simp only [cascadeLine]
  omega

theorem pending_master {n : Nat} (inside : n < 8) :
    p.lines.Pending n ↔ n ≠ cascadeLine ∧ p.master.pending n = true := by
  simp only [Lines.Pending, lines, lineBit_low _ _ inside, Pic.pending, Bool.and_eq_true, bne_iff_ne,
    Nat.not_le.2 inside, false_imp_iff, and_true, and_assoc, decide_eq_true (show n < 16 by omega),
    true_and]

theorem pending_slave (k : Nat) : p.lines.Pending (8 + k) ↔
    p.slave.pending k = true ∧ p.master.imr.getLsbD cascadeLine = false := by
  simp only [Lines.Pending, lines, lineBit_high, lineBit_low _ _ (show cascadeLine < 8 by decide),
    Pic.pending, Bool.and_eq_true, bne_iff_ne, ne_eq, above_cascade, not_false_iff, true_and,
    Bool.not_eq_true', decide_eq_true_eq, Nat.le_add_right, true_imp_iff,
    show cascadeLine < 16 by decide]
  constructor
  · rintro ⟨asked, ⟨_, unmasked⟩, shared⟩
    exact ⟨⟨asked, unmasked⟩, shared⟩
  · rintro ⟨⟨asked, unmasked⟩, shared⟩
    have inside : k < 8 := by
      by_contra outside
      rw [BitVec.getLsbD_of_ge _ _ (Nat.not_lt.1 outside)] at asked
      exact nomatch asked
    exact ⟨asked, ⟨by omega, unmasked⟩, shared⟩

theorem serving_master {n : Nat} (inside : n < 8) :
    p.lines.serving n = true ↔ n ≠ cascadeLine ∧ p.master.isr.getLsbD n = true := by
  simp only [lines, lineBit_low _ _ inside, Bool.and_eq_true, bne_iff_ne]

theorem serving_slave (k : Nat) : p.lines.serving (8 + k) = p.slave.isr.getLsbD k := by
  simp only [lines, lineBit_high, bne_iff_ne.2 (above_cascade k), Bool.true_and]

/-! ### The line to deliver -/

theorem lineLevel_master {n : Nat} (inside : n < 8) : lineLevel n = n := if_pos inside

theorem lineLevel_slave (k : Nat) : lineLevel (8 + k) = cascadeLine :=
  if_neg (show ¬8 + k < 8 by omega)

theorem best_master (cascaded : p.Cascaded) {n : Nat} (inside : n < 8) (own : n ≠ cascadeLine) :
    p.lines.Best n ↔ p.wired.next = some n := by
  rw [Pic.next_eq_some, wired_pending p own]
  constructor
  · intro best
    have level := lineLevel_master inside
    refine ⟨inside, ((pending_master inside).1 best.pending).2, fun m upTo => ?_, fun m below => ?_⟩
    · -- a line as high in service would keep it back
      by_contra busy
      have busy : p.master.isr.getLsbD m = true := by simpa [wired] using busy
      by_cases cascade : m = cascadeLine
      · obtain ⟨k, serving⟩ := cascaded.shared.1 (cascade ▸ busy)
        have above := best.above (8 + k) ((serving_slave k).trans serving)
        rw [level, lineLevel_slave] at above
        omega
      · have above := best.above m ((serving_master (by omega)).2 ⟨cascade, busy⟩)
        rw [level, lineLevel_master (by omega)] at above
        omega
    · by_contra asked
      have asked : p.wired.pending m = true := by simpa using asked
      by_cases cascade : m = cascadeLine
      · rw [cascade, wired_cascade, Bool.and_eq_true, Bool.not_eq_true'] at asked
        obtain ⟨k, chosen⟩ := Option.isSome_iff_exists.1 asked.1
        have pending := (pending_slave k).2 ⟨(Pic.next_eq_some.1 chosen).2.1, asked.2⟩
        have highest := best.highest _ pending
        rw [level, lineLevel_slave] at highest
        omega
      · rw [wired_pending p cascade] at asked
        have highest := best.highest m ((pending_master (by omega)).2 ⟨cascade, asked⟩)
        rw [level, lineLevel_master (by omega)] at highest
        omega
  · rintro ⟨_, asked, free, before⟩
    have level := lineLevel_master inside
    refine ⟨(pending_master inside).2 ⟨own, asked⟩, fun k serving => ?_, fun k pending => ?_⟩
    · rw [level]
      obtain small | ⟨k, rfl⟩ := line_cases k
      · rw [lineLevel_master small]
        by_contra upTo
        have idle := free k (by omega)
        exact nomatch idle.symm.trans ((serving_master small).1 serving).2
      · rw [lineLevel_slave]
        rw [serving_slave] at serving
        by_contra upTo
        have idle := free cascadeLine (by omega)
        exact nomatch idle.symm.trans (cascaded.shared.2 ⟨k, serving⟩)
    · rw [level]
      obtain small | ⟨k, rfl⟩ := line_cases k
      · rw [lineLevel_master small]
        obtain ⟨other, pending⟩ := (pending_master small).1 pending
        have notBefore : ¬k < n := fun below => by
          have quiet := before k below
          rw [wired_pending p other] at quiet
          exact nomatch quiet.symm.trans pending
        omega
      · rw [lineLevel_slave]
        obtain ⟨pending, unmasked⟩ := (pending_slave k).1 pending
        by_contra notAbove
        have idle := cascaded.slave_idle (free cascadeLine (by omega))
        have quiet := before cascadeLine (by omega)
        rw [wired_cascade, (Pic.next_isSome idle).2 ⟨k, pending⟩, unmasked] at quiet
        exact nomatch quiet

theorem best_slave (cascaded : p.Cascaded) (k : Nat) : p.lines.Best (8 + k) ↔
    p.wired.next = some cascadeLine ∧ p.slave.next = some k := by
  rw [Pic.next_eq_some, Pic.next_eq_some, wired_cascade, Bool.and_eq_true, Bool.not_eq_true']
  have level := lineLevel_slave k
  constructor
  · intro best
    obtain ⟨pending, unmasked⟩ := (pending_slave k).1 best.pending
    have free : p.master.isr.getLsbD cascadeLine = false := by
      by_contra busy
      obtain ⟨j, serving⟩ := cascaded.shared.1 (by simpa using busy)
      have above := best.above (8 + j) ((serving_slave j).trans serving)
      rw [level, lineLevel_slave] at above
      exact Nat.lt_irrefl _ above
    have inside : k < 8 := by
      by_contra outside
      rw [Pic.pending, BitVec.getLsbD_of_ge _ _ (Nat.not_lt.1 outside)] at pending
      exact nomatch pending
    refine ⟨⟨by decide, ⟨(Pic.next_isSome (cascaded.slave_idle free)).2 ⟨k, pending⟩, unmasked⟩,
      fun m upTo => ?_, fun m below => ?_⟩, inside, pending, fun m _ => cascaded.quiet free m,
      fun m below => ?_⟩
    · by_contra busy
      have busy : p.master.isr.getLsbD m = true := by simpa [wired] using busy
      have other : m ≠ cascadeLine := fun same => nomatch (same ▸ free).symm.trans busy
      have small : m < 8 := Nat.lt_of_le_of_lt upTo (by decide)
      have above := best.above m ((serving_master small).2 ⟨other, busy⟩)
      rw [level, lineLevel_master small] at above
      omega
    · by_contra asked
      have other : m ≠ cascadeLine := Nat.ne_of_lt below
      have small : m < 8 := Nat.lt_of_lt_of_le below (by decide)
      rw [wired_pending p other] at asked
      have highest := best.highest m ((pending_master small).2 ⟨other, by simpa using asked⟩)
      rw [level, lineLevel_master small] at highest
      omega
    · by_contra asked
      have highest := best.highest (8 + m) ((pending_slave m).2 ⟨by simpa using asked, unmasked⟩)
      rw [level, lineLevel_slave] at highest
      omega
  · rintro ⟨⟨_, ⟨_, unmasked⟩, free, before⟩, inside, pending, _, first⟩
    have idle : p.master.isr.getLsbD cascadeLine = false := free cascadeLine (Nat.le_refl _)
    refine ⟨(pending_slave k).2 ⟨pending, unmasked⟩, fun j serving => ?_, fun j asked => ?_⟩
    · rw [level]
      obtain small | ⟨j, rfl⟩ := line_cases j
      · rw [lineLevel_master small]
        by_contra upTo
        have quiet := free j (by omega)
        exact nomatch quiet.symm.trans ((serving_master small).1 serving).2
      · rw [serving_slave, cascaded.quiet idle j] at serving
        exact nomatch serving
    · rw [level]
      obtain small | ⟨j, rfl⟩ := line_cases j
      · rw [lineLevel_master small]
        obtain ⟨other, asked⟩ := (pending_master small).1 asked
        have notBefore : ¬j < cascadeLine := fun below => by
          have quiet := before j below
          rw [wired_pending p other] at quiet
          exact nomatch quiet.symm.trans asked
        omega
      · rw [lineLevel_slave]
        have notBefore : ¬j < k := fun below =>
          nomatch (first j below).symm.trans ((pending_slave j).1 asked).1
        omega

/-- **What the cascade delivers is the best of the sixteen lines.** -/
theorem acknowledge_iff (cascaded : p.Cascaded) {p' : PicPair} {v : BitVec 8} :
    p.acknowledge = some (p', v) ↔ ∃ n, p.lines.Best n ∧ p' = p.taken n ∧ v = p.vector n := by
  have slaves : ∀ n, p.master.cascade.getLsbD n = decide (n = cascadeLine) := by
    intro n
    rw [cascaded.slaves, show 1#8 <<< cascadeLine = setBit 0 cascadeLine by decide,
      getLsbD_setBit 0 (by decide)]
    simp
  rw [acknowledge, cascaded.masterNormal, cascaded.slaveNormal, Bool.and_true, if_pos rfl]
  simp only [Option.bind_eq_bind, Option.bind_eq_some_iff, slaves, decide_eq_true_eq,
    cascaded.identity]
  constructor
  · rintro ⟨n, chosen, rest⟩
    have inside : n < 8 := (Pic.next_eq_some.1 chosen).1
    by_cases cascade : n = cascadeLine
    · subst cascade
      rw [if_pos rfl, if_pos rfl, Option.bind_eq_some_iff] at rest
      obtain ⟨k, answered, same⟩ := rest
      cases same
      refine ⟨8 + k, (best_slave cascaded k).2 ⟨chosen, answered⟩, ?_, ?_⟩
      · rw [taken, if_neg (by omega), Nat.add_sub_cancel_left]
      · rw [vector, if_neg (by omega), Nat.add_sub_cancel_left]
    · rw [if_neg cascade] at rest
      cases rest
      exact ⟨n, (best_master cascaded inside cascade).2 chosen, (if_pos inside).symm,
        (if_pos inside).symm⟩
  · rintro ⟨n, best, rfl, rfl⟩
    obtain inside | ⟨k, rfl⟩ := line_cases n
    · have own := ((pending_master inside).1 best.pending).1
      refine ⟨n, (best_master cascaded inside own).1 best, ?_⟩
      rw [if_neg own, taken, if_pos inside, vector, if_pos inside]
    · obtain ⟨chosen, answered⟩ := (best_slave cascaded k).1 best
      refine ⟨cascadeLine, chosen, ?_⟩
      rw [if_pos rfl, if_pos rfl, answered, Option.bind_some, taken, if_neg (by omega), vector,
        if_neg (by omega), Nat.add_sub_cancel_left]

theorem pending_inside {n : Nat} (pending : p.lines.Pending n) : n < 16 ∧ n ≠ cascadeLine := by
  have inside : n < 16 := by
    have opened := pending.2.1
    simp only [lines, Bool.and_eq_true, decide_eq_true_eq] at opened
    exact opened.1
  have asked := pending.1
  simp only [lines, Bool.and_eq_true, bne_iff_ne] at asked
  exact ⟨inside, asked.1⟩

/-! ### What the operations do to the lines -/

/-- Setting the bit of a line, among the lines less the cascade. -/
theorem masked_set {f g : Nat → Bool} {n : Nat} (own : n ≠ cascadeLine)
    (set : ∀ i, g i = (f i || decide (i = n))) :
    (fun i => i != cascadeLine && g i) = Function.update (fun i => i != cascadeLine && f i) n true := by
  funext i
  rw [Function.update_apply, set]
  split_ifs with same
  · rw [decide_eq_true same, Bool.or_true, same, bne_iff_ne.2 own, Bool.true_and]
  · rw [decide_eq_false same, Bool.or_false]

theorem masked_clear {f g : Nat → Bool} {n : Nat} (cleared : ∀ i, g i = (f i && decide (i ≠ n))) :
    (fun i => i != cascadeLine && g i) = Function.update (fun i => i != cascadeLine && f i) n false := by
  funext i
  rw [Function.update_apply, cleared]
  split_ifs with same
  · rw [decide_eq_false (not_not.2 same), Bool.and_false, Bool.and_false]
  · rw [decide_eq_true same, Bool.and_true]

/-- The cascade's own bits are not seen. -/
theorem masked_other {f g : Nat → Bool} (same : ∀ i, i ≠ cascadeLine → g i = f i) :
    (fun i => i != cascadeLine && g i) = fun i => i != cascadeLine && f i := by
  funext i
  by_cases here : i = cascadeLine
  · rw [here, bne_self_eq_false, Bool.false_and, Bool.false_and]
  · rw [same i here]

theorem raise_lines {n : Nat} (inside : n < 16) (own : n ≠ cascadeLine) :
    (p.raise n).lines = p.lines.request n := by
  obtain low | ⟨k, rfl⟩ := line_cases n
  · rw [raise, if_pos low]
    exact Lines.ext (masked_set own (lineBit_setLow _ _ low)) rfl rfl
  · rw [raise, if_neg (by omega), if_pos inside, Nat.add_sub_cancel_left]
    exact Lines.ext (masked_set own (lineBit_setHigh _ _ (by omega))) rfl rfl

theorem taken_lines {n : Nat} (inside : n < 16) (own : n ≠ cascadeLine) :
    (p.taken n).lines = p.lines.serve n := by
  obtain low | ⟨k, rfl⟩ := line_cases n
  · rw [taken, if_pos low]
    exact Lines.ext (masked_clear (lineBit_clearLow _ _ low)) rfl
      (masked_set own (lineBit_setLow _ _ low))
  · rw [taken, if_neg (by omega), Nat.add_sub_cancel_left]
    have cleared := masked_clear (lineBit_clearHigh p.master.irr p.slave.irr k)
    have set := masked_set own (lineBit_setHigh p.master.isr p.slave.isr (k := k) (by omega))
    refine Lines.ext (Eq.trans (masked_other fun i other => ?_) cleared) rfl
      (Eq.trans (masked_other fun i other => ?_) set)
    · simp only [Pic.serve, lineBit_clearLow _ _ (show cascadeLine < 8 by decide),
        decide_eq_true other, Bool.and_true]
    · simp only [Pic.serve, lineBit_setLow _ _ (show cascadeLine < 8 by decide),
        decide_eq_false other, Bool.or_false]

theorem finished_lines {n : Nat} : (p.finished n).lines = p.lines.finish n := by
  obtain low | ⟨k, rfl⟩ := line_cases n
  · rw [finished, if_pos low]
    exact Lines.ext rfl rfl (masked_clear (lineBit_clearLow _ _ low))
  · rw [finished, if_neg (by omega), Nat.add_sub_cancel_left]
    have cleared := masked_clear (lineBit_clearHigh p.master.isr p.slave.isr k)
    refine Lines.ext rfl rfl (Eq.trans (masked_other fun i other => ?_) cleared)
    simp only [lineBit_clearLow _ _ (show cascadeLine < 8 by decide), decide_eq_true other,
      Bool.and_true]

/-- What the kernel has set: masks and vectors. -/
def setup (p : PicPair) : (BitVec 8 × BitVec 8) × BitVec 8 × BitVec 8 :=
  ((p.master.imr, p.master.base), p.slave.imr, p.slave.base)

theorem raise_setup (p : PicPair) (n : Nat) : (p.raise n).setup = p.setup := by
  simp only [raise]
  split_ifs <;> rfl

theorem taken_setup (p : PicPair) (n : Nat) : (p.taken n).setup = p.setup := by
  simp only [taken]
  split_ifs <;> rfl

theorem finished_setup (p : PicPair) (n : Nat) : (p.finished n).setup = p.setup := by
  simp only [finished]
  split_ifs <;> rfl

/-! ### The operations keep the pair cascaded -/

/-- What the masks and the requests have no part in. -/
theorem Cascaded.congr {p' : PicPair} (cascaded : p.Cascaded)
    (master : p'.master.mode = p.master.mode ∧ p'.master.stage = p.master.stage ∧
      p'.master.cascade = p.master.cascade ∧ p'.master.isr = p.master.isr)
    (slave : p'.slave.mode = p.slave.mode ∧ p'.slave.stage = p.slave.stage ∧
      p'.slave.cascade = p.slave.cascade ∧ p'.slave.isr = p.slave.isr) : p'.Cascaded := by
  obtain ⟨mode, stage, cascade, isr⟩ := master
  obtain ⟨mode', stage', cascade', isr'⟩ := slave
  refine ⟨?_, ?_, ?_, ?_, ?_, ?_⟩
  · rw [Pic.normal, mode, stage]
    exact cascaded.masterNormal
  · rw [Pic.normal, mode', stage']
    exact cascaded.slaveNormal
  · rw [cascade]
    exact cascaded.slaves
  · rw [cascade']
    exact cascaded.identity
  · rw [isr, isr']
    exact cascaded.shared
  · rw [isr']
    exact cascaded.single

theorem Cascaded.raise (cascaded : p.Cascaded) (n : Nat) : (p.raise n).Cascaded := by
  simp only [PicPair.raise, Pic.raise]
  split_ifs <;> exact cascaded.congr ⟨rfl, rfl, rfl, rfl⟩ ⟨rfl, rfl, rfl, rfl⟩

theorem Cascaded.taken (cascaded : p.Cascaded) {n : Nat} (best : p.lines.Best n) :
    (p.taken n).Cascaded := by
  obtain low | ⟨k, rfl⟩ := line_cases n
  · have own := ((pending_master low).1 best.pending).1
    rw [PicPair.taken, if_pos low]
    refine ⟨cascaded.masterNormal, cascaded.slaveNormal, cascaded.slaves, cascaded.identity, ?_,
      cascaded.single⟩
    simp only [Pic.serve, getLsbD_setBit _ low, decide_eq_false own.symm, Bool.or_false]
    exact cascaded.shared
  · obtain ⟨chosen, answered⟩ := (best_slave cascaded k).1 best
    obtain ⟨inside, _⟩ := Pic.next_eq_some.1 answered
    have free := (Pic.next_eq_some.1 chosen).2.2.1 cascadeLine (Nat.le_refl _)
    have idle := cascaded.slave_idle free
    rw [PicPair.taken, if_neg (by omega), Nat.add_sub_cancel_left]
    have only : ∀ j, (setBit p.slave.isr k).getLsbD j = decide (j = k) := by
      intro j
      rw [getLsbD_setBit _ inside, idle]
      simp
    refine ⟨cascaded.masterNormal, cascaded.slaveNormal, cascaded.slaves, cascaded.identity, ?_, ?_⟩
    · simp only [Pic.serve, getLsbD_setBit _ (show cascadeLine < 8 by decide), decide_true,
        Bool.or_true, only, decide_eq_true_eq, exists_eq]
    · intro i j
      simp only [Pic.serve, only, decide_eq_true_eq]
      exact fun one other => one.trans other.symm

theorem Cascaded.finished (cascaded : p.Cascaded) {n : Nat} (serving : p.lines.serving n = true) :
    (p.finished n).Cascaded := by
  obtain low | ⟨k, rfl⟩ := line_cases n
  · have own := ((serving_master low).1 serving).1
    rw [PicPair.finished, if_pos low]
    refine ⟨cascaded.masterNormal, cascaded.slaveNormal, cascaded.slaves, cascaded.identity, ?_,
      cascaded.single⟩
    simp only [getLsbD_clearBit, decide_eq_true own.symm, Bool.and_true]
    exact cascaded.shared
  · rw [serving_slave] at serving
    rw [PicPair.finished, if_neg (by omega), Nat.add_sub_cancel_left]
    have none : ∀ j, (clearBit p.slave.isr k).getLsbD j = false := by
      intro j
      rw [getLsbD_clearBit]
      by_cases same : j = k
      · rw [decide_eq_false (not_not.2 same), Bool.and_false]
      · by_contra busy
        exact same (cascaded.single j k (by simp_all) serving)
    refine ⟨cascaded.masterNormal, cascaded.slaveNormal, cascaded.slaves, cascaded.identity, ?_, ?_⟩
    · simp [getLsbD_clearBit, none]
    · simp [none]

end

end PicPair

end Illinix.Theory
