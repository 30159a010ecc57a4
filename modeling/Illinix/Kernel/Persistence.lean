/-
# Kernel.Persistence -- what survives a reboot

`write` and `delete` send `inode_count + data_block_count + 1` sectors of the
image to the disk, `file_system_init` reads as many back, and `create` sends
nothing.  The image has that many blocks, of eight sectors each; so seven eighths
of it come from the boot module after a reboot, whatever the disk holds.

`reboot_byte` says which byte comes from where, and `reboot_restores_iff` what the
boot module and the disk must have for the image to come back.
-/
import Illinix.Kernel.Inodes
import Illinix.FileSys.Mount

namespace Illinix.Kernel

open Illinix.FileSys Illinix.Theory

set_option autoImplicit false

/-- A successful create, non-empty write to a regular file, or delete. -/
def Mutates (m : Machine) (e : FileEvent) (m' : Machine) : Prop :=
  ∃ v, e.call.run (e.enter m) = some (m', v) ∧
    match e.call with
    | .create _ _ => v ≠ -1
    | .write fd _ count => v = count ∧ 0 < count ∧ ∃ curr, Writes (e.enter m) fd curr
    | .delete _ => v = 0
    | .open' _ | .close _ => False

def FileCall.isCreate : FileCall → Bool
  | .create _ _ => true
  | _ => false

/-- A successful write or delete ends with the image on the disk. -/
theorem mutates_flushes {m m' : Machine} {e : FileEvent} (mutates : Mutates m e m')
    (writesBack : e.call.isCreate = false) : ∃ fs : Fs, m'.fs = fs.flush := by
  obtain ⟨v, ran, success⟩ := mutates
  cases call : e.call with
  | create fileName reserved => simp [call, FileCall.isCreate] at writesBack
  | write fd buf count =>
      rw [call] at ran success
      obtain ⟨rfl, some', curr, writes⟩ := success
      exact writeData_flushes (write_of_writes writes ran) some'
  | open' fileName => simp [call] at success
  | close fd => simp [call] at success
  | delete fileName =>
      rw [call] at ran success
      obtain rfl : v = 0 := success
      rcases delete_some ran with ⟨_, failed⟩ | ⟨index, den, fs, _, _, rfl, _⟩
      · omega
      · exact ⟨_, rfl⟩

/-- `create` leaves the disk alone. -/
theorem create_keeps_disk {m m' : Machine} {e : FileEvent} (mutates : Mutates m e m')
    (creates : e.call.isCreate = true) : m'.fs.disk = m.fs.disk := by
  obtain ⟨v, ran, success⟩ := mutates
  cases call : e.call with
  | create fileName reserved =>
      rw [call] at ran success
      rcases create_some ran with ⟨_, failed⟩ | ⟨_, _, _, _, _, rfl, _⟩
      · exact absurd failed success
      · rfl
  | write | open' | close | delete => simp [call, FileCall.isCreate] at creates

/-- **Where each byte comes from after a reboot.** The sectors give the first
`512 * N` bytes, which a write or a delete has just sent and a create has not; the
boot module gives the rest. -/
theorem reboot_byte {m m' : Machine} {e : FileEvent} {module : Image} (mutates : Mutates m e m')
    (counts : SameCounts module m'.fs) (fits : m'.fs.extent ≤ 2 ^ 32) (k : Nat) :
    (mountedImage module m'.fs.disk).byte k =
      if k < ataSectorSize * module.sectorCount then
        if e.call.isCreate = true then
          m.fs.disk (imageSector + k / ataSectorSize) (k % ataSectorSize)
        else m'.fs.byte k
      else module.byte k := by
  have same : module.sectorCount = m'.fs.sectorCount := by
    simp only [Image.sectorCount, counts.1, counts.2]
  have room : imageSector + m'.fs.sectorCount ≤ 2 ^ 28 := by
    have small := sectorCount_le m'.fs.toImage
    simp only [imageSector, Image.extent, fsBlockSize] at small fits ⊢
    omega
  split_ifs with below creates
  · rw [← create_keeps_disk mutates creates]
    exact mountedImage_byte_disk _ (same ▸ room) below
  · obtain ⟨fs, flushed⟩ := mutates_flushes mutates (by simpa using creates)
    rw [same] at below
    rw [flushed, flush_toImage] at same room below ⊢
    exact mountedImage_byte_flush fs same room below
  · exact mountedImage_byte_beyond _ _ (by omega)

/-- The disk and the boot module have between them what a reboot needs: the
module has the image from byte `512 * N` on, after a create the sectors before it
have the bytes before that, and what the image lists fits the bitmaps. -/
structure Supplies (module : Image) (m : Machine) (e : FileEvent) (m' : Machine) : Prop where
  rest : ∀ k, ataSectorSize * module.sectorCount ≤ k → k < m'.fs.extent →
    module.byte k = m'.fs.byte k
  sectors : e.call.isCreate = true → ∀ k, k < ataSectorSize * module.sectorCount →
    m.fs.disk (imageSector + k / ataSectorSize) (k % ataSectorSize) = m'.fs.byte k
  mounts : (Image.ofBytes m'.fs.byte).Mounts

/-- **What a reboot restores, exactly.** After every successful create, non-empty
write or delete, `file_system_init` gives the image back if and only if the boot
module has all of it but the first `512 * N` bytes and, after a create, the disk
has those already. -/
theorem reboot_restores_iff (m m' : Machine) (e : FileEvent) (module : Image)
    (mutates : Mutates m e m') (counts : SameCounts module m'.fs) (fits : m'.fs.extent ≤ 2 ^ 32) :
    Restores module m'.fs ↔ Supplies module m e m' := by
  have bytes := reboot_byte mutates counts fits
  rw [restores_iff]
  constructor
  · rintro ⟨mounts, same⟩
    refine ⟨fun k beyond inside => ?_, fun creates k below => ?_, mounts⟩
    · rw [← same k inside, bytes k, if_neg (by omega)]
    · rw [← same k (below.trans_le (sectors_le_extent counts)), bytes k, if_pos below, if_pos creates]
  · rintro ⟨rest, sectors, mounts⟩
    refine ⟨mounts, fun k inside => ?_⟩
    rw [bytes k]
    split_ifs with below creates
    · exact sectors creates k below
    · rfl
    · exact rest k (by omega) inside

/-! ## One byte -/

theorem oneFile_created : Mutates (Machine.mounted Fs.empty) (createBy3 nameA) oneFile :=
  ⟨2, rfl, show (2 : Int) ≠ -1 by decide⟩

theorem oneByte_written : ∃ m', Mutates oneFile (writeBy3 1) m' ∧
    (Image.ofBytes m'.fs.byte).Mounts := by
  refine ⟨_, ⟨1, rfl, rfl, by decide, 3, rfl, rfl, rfl⟩, fun i low => ?_⟩
  obtain rfl : i = 0 := Nat.lt_one_iff.1 low
  refine ⟨by decide, fun _ => ⟨by decide, by decide, fun j small passed => ?_⟩⟩
  -- the list is block 1, then 0
  have first : j = 0 := by
    by_contra later
    exact passed 1 (by omega) (by decide)
  subst first
  decide

/-- From a boot module equal to the memory, a file just created is lost, and one
just written is there. -/
theorem create_lost_write_kept : ¬Restores oneFile.fs.toImage oneFile.fs ∧
    ∃ m', Mutates oneFile (writeBy3 1) m' ∧ Restores m'.fs.toImage m'.fs := by
  constructor
  · rw [reboot_restores_iff (Machine.mounted Fs.empty) oneFile (createBy3 nameA) oneFile.fs.toImage
      oneFile_created ⟨rfl, rfl⟩ (by decide)]
    intro supplies
    exact absurd (supplies.sectors rfl 0 (by decide)) (by decide)
  · obtain ⟨m', mutates, mounts⟩ := oneByte_written
    have small : m'.fs.extent ≤ 2 ^ 32 := by
      obtain ⟨v, ran, _⟩ := mutates
      cases ran
      decide
    exact ⟨m', mutates, (reboot_restores_iff oneFile m' (writeBy3 1) m'.fs.toImage mutates ⟨rfl, rfl⟩
      small).2 ⟨fun _ _ _ => rfl, fun creates => absurd creates Bool.false_ne_true, mounts⟩⟩

/-- `create("a")`, then one byte written: the boot module's last byte stays. -/
theorem one_byte_lost : ∃ m', Mutates oneFile (writeBy3 1) m' ∧
    SameCounts (spoiled m'.fs) m'.fs ∧ ¬Restores (spoiled m'.fs) m'.fs :=
  ⟨_, ⟨1, rfl, rfl, by decide, 3, rfl, rfl, rfl⟩, spoiled_sameCounts _, spoiled_not_restored _⟩

end Illinix.Kernel
