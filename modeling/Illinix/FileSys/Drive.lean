/-
# FileSys.Drive -- the sector loops, port by port

The drive has four address registers and a data port.  A read or write command
takes the sector number the registers hold at that moment, 28 bits of it, and the
words then go to this sector one after the other.  The drive is always ready, so
the polling loops end at once, and it ignores a flush.

`readAtaSectors_drive` and `writeAtaSectors_drive` say that the loops over the
ports are those of `FileSys.Disk`.  `transfers_iff` is the round trip, with its
limits: the sector numbers wrap around behind the last one, and the byte count at
2 ^ 32.
-/
import Illinix.FileSys.Disk

namespace Illinix.FileSys

open Illinix.Theory

set_option autoImplicit false

/-! ## The drive -/

inductive Port where
  | sectorCount
  | lbaLow
  | lbaMid
  | lbaHigh
  | driveSelect
  | command
  deriving DecidableEq

/-- `sector` and `pos` are where the next word of the data port goes, `log` the
sectors the commands have gone to. -/
structure Drive where
  lbaLow : UInt8
  lbaMid : UInt8
  lbaHigh : UInt8
  driveSelect : UInt8
  sector : Nat
  pos : Nat
  log : List Nat
  store : Disk

def ataCmdRead : UInt8 := 0x20
def ataCmdWrite : UInt8 := 0x30
def ataCmdFlush : UInt8 := 0xE7
def ataMasterDrive : UInt8 := 0xA0

namespace Drive

/-- The sector number in the registers. -/
def address (d : Drive) : Nat :=
  d.driveSelect.toNat % 16 * 2 ^ 24 + d.lbaHigh.toNat * 2 ^ 16 + d.lbaMid.toNat * 2 ^ 8 +
    d.lbaLow.toNat

def outb (value : UInt8) (port : Port) (d : Drive) : Drive :=
  match port with
  | .sectorCount => d
  | .lbaLow => { d with lbaLow := value }
  | .lbaMid => { d with lbaMid := value }
  | .lbaHigh => { d with lbaHigh := value }
  | .driveSelect => { d with driveSelect := value }
  | .command =>
      if value = ataCmdRead ∨ value = ataCmdWrite then
        { d with sector := d.address, pos := 0, log := d.log ++ [d.address] }
      else d

/-- A word to the data port, low byte first. -/
def outw (low high : UInt8) (d : Drive) : Drive :=
  { d with
    pos := d.pos + 2
    store := Function.update d.store d.sector
      (Function.update (Function.update (d.store d.sector) d.pos low) (d.pos + 1) high) }

/-- The drive after a word has been read from the data port. -/
def inw (d : Drive) : Drive := { d with pos := d.pos + 2 }

/-! ## The loops -/

/-- The six stores to the ports before each sector. -/
def select (index : Nat) (cmd : UInt8) (d : Drive) : Drive :=
  let d := d.outb (UInt8.ofNat (0xE0 ||| (index / 2 ^ 24 % 16))) .driveSelect
  let d := d.outb 1 .sectorCount
  let d := d.outb (UInt8.ofNat index) .lbaLow
  let d := d.outb (UInt8.ofNat (index / 2 ^ 8 % 256)) .lbaMid
  let d := d.outb (UInt8.ofNat (index / 2 ^ 16 % 256)) .lbaHigh
  d.outb cmd .command

/-- A word of a write, and the flush behind it. -/
def sendWord (low high : UInt8) (d : Drive) : Drive :=
  let d := d.outw low high
  let d := d.outb ataMasterDrive .driveSelect
  d.outb ataCmdFlush .command

/-- The inner loop of `write_ata_sectors`, `n` words left, from `buf + pos` on. -/
def writeWords (buf : Nat → UInt8) : Nat → Nat → Nat → Drive → Nat × Drive
  | 0, _, bytes, d => (bytes, d)
  | n + 1, pos, bytes, d =>
      writeWords buf n (pos + 2) (u32 (bytes + 2)) (d.sendWord (buf pos) (buf (pos + 1)))

/-- The inner loop of `read_ata_sectors`, `n` words left, to `buf + pos` on. -/
def readWords : Nat → Nat → Nat → (Nat → UInt8) → Drive → Nat × (Nat → UInt8) × Drive
  | 0, _, bytes, buf, d => (bytes, buf, d)
  | n + 1, pos, bytes, buf, d =>
      let buf := Function.update buf pos (d.store d.sector d.pos)
      let buf := Function.update buf (pos + 1) (d.store d.sector (d.pos + 1))
      readWords n (pos + 2) (u32 (bytes + 2)) buf d.inw

/-- The outer loop of `write_ata_sectors`, `count` sectors left. -/
def writeLoop (buf : Nat → UInt8) : Nat → Nat → Nat → Nat → Drive → Nat × Drive
  | 0, _, _, bytes, d => (bytes, d)
  | count + 1, index, pos, bytes, d =>
      let r := writeWords buf (ataSectorSize / 2) pos bytes (d.select index ataCmdWrite)
      writeLoop buf count (u32 (index + 1)) (pos + ataSectorSize) r.1 r.2

/-- The outer loop of `read_ata_sectors`, `count` sectors left. -/
def readLoop : Nat → Nat → Nat → Nat → (Nat → UInt8) → Drive → Nat × (Nat → UInt8) × Drive
  | 0, _, _, bytes, buf, d => (bytes, buf, d)
  | count + 1, index, pos, bytes, buf, d =>
      let r := readWords (ataSectorSize / 2) pos bytes buf (d.select index ataCmdRead)
      readLoop count (u32 (index + 1)) (pos + ataSectorSize) r.1 r.2.1 r.2.2

/-- `write_ata_sectors` with a buffer. -/
def writeSectors (index count : Nat) (buf : Nat → UInt8) (d : Drive) : Nat × Drive :=
  if count = 0 ∨ ataSectorBound ≤ index then (0, d) else writeLoop buf count index 0 0 d

/-- `read_ata_sectors` with a buffer. -/
def readSectors (index count : Nat) (buf : Nat → UInt8) (d : Drive) :
    Nat × (Nat → UInt8) × Drive :=
  if count = 0 ∨ ataSectorBound ≤ index then (0, buf, d) else readLoop count index 0 0 buf d

/-! ## One sector -/

section

variable {d : Drive} {buf : Nat → UInt8} {index pos bytes : Nat}

theorem nibble (k : Nat) (small : k < 16) : (UInt8.ofNat (0xE0 ||| k)).toNat % 16 = k := by
  revert k
  decide

/-- The registers give back 28 bits of the index. -/
theorem address_eq (index : Nat)
    (low : d.lbaLow = UInt8.ofNat index) (mid : d.lbaMid = UInt8.ofNat (index / 2 ^ 8 % 256))
    (high : d.lbaHigh = UInt8.ofNat (index / 2 ^ 16 % 256))
    (top : d.driveSelect = UInt8.ofNat (0xE0 ||| (index / 2 ^ 24 % 16))) :
    d.address = lba index := by
  rw [address, low, mid, high, top, nibble _ (Nat.mod_lt _ (by decide))]
  simp only [UInt8.toNat_ofNat', lba]
  omega

theorem select_eq (index : Nat) {cmd : UInt8} (transfer : cmd = ataCmdRead ∨ cmd = ataCmdWrite)
    (d : Drive) : (d.select index cmd).sector = lba index ∧ (d.select index cmd).pos = 0 ∧
      (d.select index cmd).log = d.log ++ [lba index] ∧ (d.select index cmd).store = d.store := by
  simp only [select, outb, if_pos transfer, true_and, and_true]
  rw [address_eq index rfl rfl rfl rfl]
  exact ⟨rfl, rfl⟩

/-- A word in front of the rest. -/
theorem blit_word (buf : Nat → UInt8) (pos at' n : Nat) (src : Nat → UInt8) :
    blit (Function.update (Function.update buf at' (src pos)) (at' + 1) (src (pos + 1))) (at' + 2)
      (fun k => src (pos + 2 + k)) (2 * n) = blit buf at' (fun k => src (pos + k)) (2 * (n + 1)) := by
  funext k
  by_cases first : k = at'
  · subst first
    rw [blit_outside _ _ (by omega), blit_inside _ _ (le_refl k) (by omega),
      Function.update_of_ne (by omega), Function.update_self, Nat.sub_self, Nat.add_zero]
  by_cases second : k = at' + 1
  · subst second
    rw [blit_outside _ _ (by omega), blit_inside _ _ (by omega) (by omega),
      Function.update_self, Nat.add_sub_cancel_left]
  · simp only [blit, Function.update_of_ne first, Function.update_of_ne second]
    split_ifs <;> first | omega | rfl | (congr 1; omega)

/-- The flush leaves the data port where it was: the select register is lost, but
the command has been taken. -/
theorem sendWord_eq (low high : UInt8) (d : Drive) :
    (d.sendWord low high).sector = d.sector ∧ (d.sendWord low high).pos = d.pos + 2 ∧
      (d.sendWord low high).log = d.log ∧
      (d.sendWord low high).store = Function.update d.store d.sector
        (Function.update (Function.update (d.store d.sector) d.pos low) (d.pos + 1) high) :=
  ⟨rfl, rfl, rfl, rfl⟩

/-- The words of a write go to one sector. -/
theorem writeWords_eq (buf : Nat → UInt8) (n : Nat) : ∀ (pos bytes : Nat) (d : Drive),
    bytes < 2 ^ 32 →
    (writeWords buf n pos bytes d).1 = u32 (bytes + 2 * n) ∧
      (writeWords buf n pos bytes d).2.log = d.log ∧
      (writeWords buf n pos bytes d).2.store = Function.update d.store d.sector
        (blit (d.store d.sector) d.pos (fun k => buf (pos + k)) (2 * n)) := by
  induction n with
  | zero =>
      intro pos bytes d small
      refine ⟨(u32_of_lt small).symm, rfl, ?_⟩
      rw [Nat.mul_zero, blit_zero, Function.update_eq_self]
      rfl
  | succ n ih =>
      intro pos bytes d small
      simp only [writeWords]
      obtain ⟨count, log, store⟩ := ih (pos + 2) (u32 (bytes + 2))
        (d.sendWord (buf pos) (buf (pos + 1))) (Nat.mod_lt _ (by decide))
      obtain ⟨sector, next, _, stored⟩ := sendWord_eq (buf pos) (buf (pos + 1)) d
      refine ⟨?_, log, ?_⟩
      · rw [count]
        simp only [u32]
        omega
      · rw [store, sector, next, stored, Function.update_idem, Function.update_self, blit_word]

/-- The words of a read come from one sector. -/
theorem readWords_eq (n : Nat) : ∀ (pos bytes : Nat) (buf : Nat → UInt8) (d : Drive),
    bytes < 2 ^ 32 →
    (readWords n pos bytes buf d).1 = u32 (bytes + 2 * n) ∧
      (readWords n pos bytes buf d).2.1 =
        blit buf pos (fun k => d.store d.sector (d.pos + k)) (2 * n) ∧
      (readWords n pos bytes buf d).2.2.log = d.log ∧
      (readWords n pos bytes buf d).2.2.store = d.store := by
  induction n with
  | zero =>
      intro pos bytes buf d small
      refine ⟨(u32_of_lt small).symm, ?_, rfl, rfl⟩
      rw [Nat.mul_zero, blit_zero]
      rfl
  | succ n ih =>
      intro pos bytes buf d small
      simp only [readWords]
      obtain ⟨count, got, log, store⟩ := ih (pos + 2) (u32 (bytes + 2))
        (Function.update (Function.update buf pos (d.store d.sector d.pos)) (pos + 1)
          (d.store d.sector (d.pos + 1))) d.inw (Nat.mod_lt _ (by decide))
      refine ⟨?_, ?_, log, store⟩
      · rw [count]
        simp only [u32]
        omega
      · rw [got]
        exact blit_word buf d.pos pos n (d.store d.sector)

/-! ## The loops -/

/-- The sectors a call asks for, as numbers of 28 bits. -/
def addressed (index : Nat) : Nat → List Nat
  | 0 => []
  | count + 1 => lba index :: addressed (u32 (index + 1)) count

/-- The sectors are those of `FileSys.writeSectors`, byte by byte, the sectors gone
to are the ones asked for, and the count is kept in 32 bits. -/
theorem writeLoop_eq (buf : Nat → UInt8) (count : Nat) : ∀ (index pos bytes : Nat) (d : Drive)
    (disk : Disk), bytes < 2 ^ 32 →
    (∀ sector k, k < ataSectorSize → d.store sector k = disk sector k) →
    (writeLoop buf count index pos bytes d).1 = u32 (bytes + count * ataSectorSize) ∧
      (writeLoop buf count index pos bytes d).2.log = d.log ++ addressed index count ∧
      ∀ sector k, k < ataSectorSize → (writeLoop buf count index pos bytes d).2.store sector k =
        FileSys.writeSectors buf count index pos disk sector k := by
  induction count with
  | zero =>
      intro index pos bytes d disk small same
      refine ⟨?_, (List.append_nil _).symm, same⟩
      rw [Nat.zero_mul]
      exact (u32_of_lt small).symm
  | succ count ih =>
      intro index pos bytes d disk small same
      obtain ⟨sector, start, log, store⟩ := select_eq index (Or.inr rfl : ataCmdWrite = _ ∨ _) d
      obtain ⟨moved, log', store'⟩ := writeWords_eq buf (ataSectorSize / 2) pos bytes
        (d.select index ataCmdWrite) small
      rw [sector, start, store] at store'
      obtain ⟨last, logged, stored⟩ := ih (u32 (index + 1)) (pos + ataSectorSize)
        (writeWords buf (ataSectorSize / 2) pos bytes (d.select index ataCmdWrite)).1
        (writeWords buf (ataSectorSize / 2) pos bytes (d.select index ataCmdWrite)).2
        (Function.update disk (lba index) fun k => buf (pos + k))
        (moved ▸ Nat.mod_lt _ (by decide)) (by
          intro s k low
          rw [store']
          by_cases here : s = lba index
          · have half : 2 * (ataSectorSize / 2) = ataSectorSize := rfl
            rw [here, Function.update_self, Function.update_self, half,
              blit_inside _ _ (Nat.zero_le k) (by omega), Nat.sub_zero]
          · rw [Function.update_of_ne here, Function.update_of_ne here, same s k low])
      refine ⟨?_, ?_, fun s k low => ?_⟩
      · simp only [writeLoop]
        rw [last, moved]
        simp only [u32, ataSectorSize]
        omega
      · simp only [writeLoop]
        rw [logged, log', log, List.append_assoc]
        rfl
      · exact stored s k low

/-- The same for a read. -/
theorem readLoop_eq (count : Nat) : ∀ (index pos bytes : Nat) (buf : Nat → UInt8) (d : Drive),
    bytes < 2 ^ 32 →
    (readLoop count index pos bytes buf d).1 = u32 (bytes + count * ataSectorSize) ∧
      (readLoop count index pos bytes buf d).2.1 =
        FileSys.readSectors d.store count index pos buf ∧
      (readLoop count index pos bytes buf d).2.2.log = d.log ++ addressed index count ∧
      (readLoop count index pos bytes buf d).2.2.store = d.store := by
  induction count with
  | zero =>
      intro index pos bytes buf d small
      refine ⟨?_, rfl, (List.append_nil _).symm, rfl⟩
      rw [Nat.zero_mul]
      exact (u32_of_lt small).symm
  | succ count ih =>
      intro index pos bytes buf d small
      obtain ⟨sector, start, log, store⟩ := select_eq index (Or.inl rfl : ataCmdRead = _ ∨ _) d
      obtain ⟨moved, got, log', store'⟩ := readWords_eq (ataSectorSize / 2) pos bytes buf
        (d.select index ataCmdRead) small
      rw [sector, start, store] at got
      obtain ⟨last, filled, logged, kept⟩ := ih (u32 (index + 1)) (pos + ataSectorSize)
        (readWords (ataSectorSize / 2) pos bytes buf (d.select index ataCmdRead)).1
        (readWords (ataSectorSize / 2) pos bytes buf (d.select index ataCmdRead)).2.1
        (readWords (ataSectorSize / 2) pos bytes buf (d.select index ataCmdRead)).2.2
        (moved ▸ Nat.mod_lt _ (by decide))
      refine ⟨?_, ?_, ?_, ?_⟩
      · simp only [readLoop]
        rw [last, moved]
        simp only [u32, ataSectorSize]
        omega
      · simp only [readLoop]
        rw [filled, got, store', store]
        simp only [FileSys.readSectors, Nat.zero_add]
        rfl
      · simp only [readLoop]
        rw [logged, log', log, List.append_assoc]
        rfl
      · simp only [readLoop]
        rw [kept, store', store]

/-! ## The round trip -/

/-- A write, and a read of the same sectors after it: the sectors of the range get
the buffer and no others change, the read gives the buffer back, both return the
number of bytes, and every command goes to a sector of the range. -/
structure Transfers (index count : Nat) (buf : Nat → UInt8) (d : Drive) : Prop where
  stored : ∀ sector k, k < ataSectorSize → (d.writeSectors index count buf).2.store sector k =
    if index ≤ sector ∧ sector < index + count then buf (ataSectorSize * (sector - index) + k)
    else d.store sector k
  back : ∀ old k, k < count * ataSectorSize →
    ((d.writeSectors index count buf).2.readSectors index count old).2.1 k = buf k
  wrote : (d.writeSectors index count buf).1 = count * ataSectorSize
  read : ∀ old, ((d.writeSectors index count buf).2.readSectors index count old).1 =
    count * ataSectorSize
  inside : ∀ old, ∃ touched,
    ((d.writeSectors index count buf).2.readSectors index count old).2.2.log = d.log ++ touched ∧
      ∀ sector ∈ touched, index ≤ sector ∧ sector < index + count

theorem addressed_inside (count : Nat) : ∀ index, index + count ≤ 2 ^ 28 →
    ∀ sector ∈ addressed index count, index ≤ sector ∧ sector < index + count := by
  induction count with
  | zero => exact fun index _ sector mem => absurd mem List.not_mem_nil
  | succ count ih =>
      intro index room sector mem
      have low : lba index = index := Nat.mod_eq_of_lt (by omega)
      have next : u32 (index + 1) = index + 1 := u32_of_lt (by omega)
      rw [addressed, low, next, List.mem_cons] at mem
      rcases mem with rfl | later
      · omega
      · have := ih (index + 1) (by omega) sector later
        omega

/-- Behind the last sector the numbers start again. -/
theorem addressed_wraps (count : Nat) : ∀ index, index < 2 ^ 28 → 2 ^ 28 < index + count →
    0 ∈ addressed index count := by
  induction count with
  | zero => intro index low high; omega
  | succ count ih =>
      intro index low high
      have next : u32 (index + 1) = index + 1 := u32_of_lt (by omega)
      rw [addressed, next]
      refine List.mem_cons_of_mem _ ?_
      rcases Nat.lt_or_ge (index + 1) (2 ^ 28) with more | last
      · exact ih (index + 1) more (by omega)
      · obtain ⟨rest, rfl⟩ := Nat.exists_eq_succ_of_ne_zero (by omega : count ≠ 0)
        rw [addressed, show index + 1 = 2 ^ 28 by omega]
        exact List.mem_cons_self

/-- What the two calls do, accepted. -/
theorem accepted_eq (start : index < ataSectorBound) {count : Nat} (some' : 0 < count)
    (buf old : Nat → UInt8) (d : Drive) :
    (d.writeSectors index count buf).1 = u32 (count * ataSectorSize) ∧
      (∀ sector k, k < ataSectorSize → (d.writeSectors index count buf).2.store sector k =
        FileSys.writeSectors buf count index 0 d.store sector k) ∧
      (∀ d' : Drive, (d'.readSectors index count old).1 = u32 (count * ataSectorSize) ∧
        (d'.readSectors index count old).2.1 = FileSys.readSectors d'.store count index 0 old) ∧
      ((d.writeSectors index count buf).2.readSectors index count old).2.2.log =
        d.log ++ (addressed index count ++ addressed index count) := by
  have accepted : ¬(count = 0 ∨ ataSectorBound ≤ index) := by omega
  simp only [writeSectors, readSectors, if_neg accepted]
  obtain ⟨wrote, log, store⟩ := writeLoop_eq buf count index 0 0 d d.store (by decide)
    fun _ _ _ => rfl
  obtain ⟨_, _, log', _⟩ := readLoop_eq count index 0 0 old (writeLoop buf count index 0 0 d).2
    (by decide)
  refine ⟨?_, store, fun d' => ?_, ?_⟩
  · rw [wrote, Nat.zero_add]
  · obtain ⟨read, got, _, _⟩ := readLoop_eq count index 0 0 old d' (by decide)
    exact ⟨by rw [read, Nat.zero_add], got⟩
  · rw [log', log, List.append_assoc]

end

/-- **The sector transfer and its limits**: it works exactly for ranges that end
within the 2 ^ 28 sectors and have fewer than 2 ^ 32 bytes. -/
theorem transfers_iff {index count : Nat} (start : index < ataSectorBound) (some' : 0 < count)
    (buf : Nat → UInt8) (d : Drive) : Transfers index count buf d ↔
      index + count ≤ 2 ^ 28 ∧ count * ataSectorSize < 2 ^ 32 := by
  constructor
  · intro transfers
    obtain ⟨wrote, _, _, log⟩ := accepted_eq start some' buf buf d
    have small : count * ataSectorSize < 2 ^ 32 := by
      rw [← transfers.wrote, wrote]
      exact Nat.mod_lt _ (by decide)
    refine ⟨?_, small⟩
    by_contra long
    obtain ⟨touched, logged, inside⟩ := transfers.inside buf
    obtain rfl := List.append_cancel_left (log.symm.trans logged)
    have wrapped := addressed_wraps count index (by simp only [ataSectorBound] at start; omega)
      (by omega)
    have first := (inside 0 (List.mem_append_left _ wrapped)).1
    simp only [ataSectorSize] at small
    omega
  · rintro ⟨room, small⟩
    have bytes : u32 (count * ataSectorSize) = count * ataSectorSize := u32_of_lt small
    have stored (sector k : Nat) (low : k < ataSectorSize) :
        (d.writeSectors index count buf).2.store sector k =
          if index ≤ sector ∧ sector < index + count
          then buf (ataSectorSize * (sector - index) + k) else d.store sector k := by
      rw [(accepted_eq start some' buf buf d).2.1 sector k low]
      split_ifs with inside
      · obtain ⟨i, rfl⟩ := Nat.exists_eq_add_of_le inside.1
        rw [writeSectors_sector buf count index 0 d.store i room (by omega),
          Nat.add_sub_cancel_left, Nat.zero_add]
      · rw [writeSectors_other buf count index 0 d.store sector room (by omega)]
    refine ⟨stored, fun old k low => ?_, ?_, fun old => ?_, fun old => ?_⟩
    · obtain ⟨_, got⟩ := (accepted_eq start some' buf old d).2.2.1
        (d.writeSectors index count buf).2
      have below : k / ataSectorSize < count := Nat.div_lt_of_lt_mul (by rwa [Nat.mul_comm])
      have short : k % ataSectorSize < ataSectorSize := Nat.mod_lt _ (by decide)
      rw [got, readSectors_eq _ _ _ _ _ room, blit_inside _ _ (Nat.zero_le k)
        (by rw [Nat.zero_add, Nat.mul_comm]; exact low), Nat.sub_zero, stored _ _ short,
        if_pos ⟨Nat.le_add_right _ _, Nat.add_lt_add_left below index⟩, Nat.add_sub_cancel_left,
        Nat.div_add_mod]
    · rw [(accepted_eq start some' buf buf d).1, bytes]
    · rw [((accepted_eq start some' buf old d).2.2.1 _).1, bytes]
    · refine ⟨_, (accepted_eq start some' buf old d).2.2.2, fun sector mem => ?_⟩
      rcases List.mem_append.1 mem with written | read <;>
        exact addressed_inside count index room sector (by assumption)

/-- A drive with nothing on it. -/
def fresh : Drive := ⟨0, 0, 0, 0, 0, 0, [], fun _ _ => 0⟩

theorem transfers_one : Transfers 5000 2 (fun _ => 1) fresh :=
  (transfers_iff (by decide) (by decide) (fun _ => 1) fresh).2 (by decide)

/-- Three sectors from the last but one on: the third is sector 0. -/
theorem transfers_past_end : 0x0FFFFFFE < ataSectorBound ∧
    ((fresh.writeSectors 0x0FFFFFFE 3 fun _ => 1).2.store 0 0 = 1) ∧
    ¬Transfers 0x0FFFFFFE 3 (fun _ => 1) fresh := by
  have written : (fresh.writeSectors 0x0FFFFFFE 3 fun _ => 1).2.store 0 0 = 1 := by
    rw [(accepted_eq (by decide) (by decide) (fun _ => 1) (fun _ => 1) fresh).2.1 0 0 (by decide)]
    rfl
  refine ⟨by decide, written, fun transfers => ?_⟩
  have kept := transfers.stored 0 0 (by decide)
  rw [written, if_neg (by omega)] at kept
  exact absurd kept (by decide)

end Drive

end Illinix.FileSys
