/-
# Kernel.UserPages -- the pages of the running process

The tables of a machine as the processor goes through them: for user code
(`userTranslate_paging`) they hold the 4 MB of the running process's image and,
while its entry is present, one page of video memory.  For kernel code they hold
more, but of the images no other than that one (`translate_reaches`), so that not
even a system call with a bad pointer stores to another process's image.
-/
import Illinix.Kernel.AddressSpace
import Illinix.Memory.Access

namespace Illinix.Kernel

open Illinix.FileSys Illinix.Theory Machine
open Illinix.Memory (Layout Paging present readWrite userSupervisor pageSize pageTableBaseAddress
  pageBaseAddressMB pageBaseAddress pagingCount Grants)
open Illinix.Memory.Paging (kmallocInit pagingInit translate userTranslate windowPage windowPages
  Windowed)

set_option autoImplicit false

/-- The page of the user's view of video memory, as `vidmap` gives it out. -/
def videoPage : Nat := vidmemIndex * pagingCount + vidmemIndex

section

variable (l : Layout) (m : Machine)

/-! ## The entries -/

theorem user_storePte (entry : Nat) (pte : Pte) :
    userSupervisor.get (storePte entry pte) = userSupervisor.get entry := by
  unfold storePte
  rw [Field.get_set_other (by decide), Field.get_set_other (by decide)]

theorem write_storePte (entry : Nat) (pte : Pte) :
    readWrite.get (storePte entry pte) = readWrite.get entry := by
  unfold storePte
  rw [Field.get_set_other (by decide), Field.get_set_other (by decide)]

/-- The kernel leaves the directory as the initialisers made it, but for one entry. -/
theorem paging_boot {k : Nat} (other : k ≠ userEntry) : (m.paging l).pageDirectories k =
    (kmallocInit l (pagingInit l zeroPaging)).pageDirectories k := by
  have stored : (m.paging l).pageDirectories k = (bootPaging l).pageDirectories k :=
    Function.update_of_ne other ..
  rw [stored]
  unfold bootPaging
  rfl

theorem paging_userEntry : (m.paging l).pageDirectories userEntry = pageBaseAddressMB.set
    (readWrite.set (userSupervisor.set (present.set ((bootPaging l).pageDirectories userEntry) 1) 1) 1)
      m.userPage := by
  unfold Machine.paging storeTables
  simp only [Function.update_self]

theorem userEntry_grants (store : Bool) : Grants ((m.paging l).pageDirectories userEntry) store := by
  rw [paging_userEntry]
  refine ⟨?_, ?_, fun _ => ?_⟩
  · rw [Field.get_set_other (by decide), Field.get_set_other (by decide),
      Field.get_set_other (by decide), Field.get_set]
    rfl
  · rw [Field.get_set_other (by decide), Field.get_set_other (by decide), Field.get_set]
    rfl
  · rw [Field.get_set_other (by decide), Field.get_set]
    rfl

theorem userEntry_size : pageSize.get ((m.paging l).pageDirectories userEntry) = 1 := by
  have boot : pageSize.get ((bootPaging l).pageDirectories userEntry) = 1 := by
    unfold bootPaging
    rw [Memory.Paging.kmallocInit_other l _ (Or.inr (by decide))]
    exact Memory.Paging.pagingInit_size l zeroPaging (by decide) (by decide) (by decide)
  rw [paging_userEntry, Field.get_set_other (by decide), Field.get_set_other (by decide),
    Field.get_set_other (by decide), Field.get_set_other (by decide), boot]

/-- The directory's entry for the user's view of video memory. -/
theorem paging_vidmem : ∃ entry, (m.paging l).pageDirectories vidmemIndex = pageTableBaseAddress.set
    (pageSize.set (readWrite.set (userSupervisor.set (present.set entry 1) 1) 1) 0) l.userVidmem := by
  rw [paging_directory l m (by decide) (Or.inr (by decide))]
  exact Memory.Paging.pagingInit_vidmem l zeroPaging

theorem vidmem_grants (store : Bool) : Grants ((m.paging l).pageDirectories vidmemIndex) store := by
  obtain ⟨entry, filled⟩ := paging_vidmem l m
  rw [filled]
  refine ⟨?_, ?_, fun _ => ?_⟩
  · rw [Field.get_set_other (by decide), Field.get_set_other (by decide),
      Field.get_set_other (by decide), Field.get_set_other (by decide), Field.get_set]
    rfl
  · rw [Field.get_set_other (by decide), Field.get_set_other (by decide),
      Field.get_set_other (by decide), Field.get_set]
    rfl
  · rw [Field.get_set_other (by decide), Field.get_set_other (by decide), Field.get_set]
    rfl

theorem vidmem_size : pageSize.get ((m.paging l).pageDirectories vidmemIndex) = 0 := by
  obtain ⟨entry, filled⟩ := paging_vidmem l m
  rw [filled, Field.get_set_other (by decide), Field.get_set]
  rfl

theorem vidmem_table : (m.paging l).tableAt l
    (pageTableBaseAddress.get ((m.paging l).pageDirectories vidmemIndex)) =
      some (m.paging l).userVidmem := by
  obtain ⟨entry, filled⟩ := paging_vidmem l m
  have inside := l.userVidmem_inside
  have small : l.userVidmem % 2 ^ pageTableBaseAddress.width = l.userVidmem :=
    Nat.mod_eq_of_lt (by simp only [pageTableBaseAddress]; omega)
  rw [filled, Field.get_set, small]
  exact (if_neg l.tables_apart).trans (if_pos rfl)

/-- The user's table: one entry that a user gets through when it is present. -/
theorem paging_userTable {k : Nat} (high : k < pagingCount) :
    (k ≠ vidmemIndex → present.get ((m.paging l).userVidmem k) = 0) ∧
      (k = vidmemIndex → userSupervisor.get ((m.paging l).userVidmem k) = 1 ∧
        readWrite.get ((m.paging l).userVidmem k) = 1) := by
  have boot : (bootPaging l).userVidmem = (pagingInit l zeroPaging).userVidmem := by
    unfold bootPaging
    exact (Memory.Paging.kmallocInit_tables l _).2
  obtain ⟨absent, opened⟩ := Memory.Paging.pagingInit_userTable l zeroPaging high
  constructor
  · intro other
    have kept : (m.paging l).userVidmem k = (bootPaging l).userVidmem k :=
      Function.update_of_ne other ..
    rw [kept, boot]
    exact absent other
  · rintro rfl
    have stored : (m.paging l).userVidmem vidmemIndex =
        storePte ((bootPaging l).userVidmem vidmemIndex) m.userVidmem := userVidmem_store ..
    rw [stored, user_storePte, write_storePte, boot]
    exact opened rfl

/-! ## User code -/

/-- **The pages of user code**: those of the running process's image, and the page
of video memory while its entry is present. -/
theorem userTranslate_paging (store : Bool) {page : Nat} (inside : page < pagingCount * pagingCount)
    (small : m.userPage < 2 ^ 10) : userTranslate l (m.paging l) store page =
      if page / pagingCount = userEntry then some (m.userPage * pagingCount + page % pagingCount)
      else if page = videoPage ∧ m.userVidmem.present then some (m.userVidmem.base % 2 ^ 20)
      else none := by
  have high : page / pagingCount < pagingCount := Nat.div_lt_of_lt_mul inside
  have index : page % pagingCount < pagingCount := Nat.mod_lt _ (by decide)
  by_cases image : page / pagingCount = userEntry
  · rw [if_pos image, ← translate_user l m image small]
    apply Memory.Paging.userTranslate_large
    · rw [image]
      exact userEntry_grants l m store
    · rw [image]
      exact userEntry_size l m
  rw [if_neg image]
  by_cases video : page / pagingCount = vidmemIndex
  · by_cases here : page % pagingCount = vidmemIndex
    · -- the one open entry of the user's table
      have same : page = videoPage := by
        rw [videoPage, ← Nat.div_add_mod page pagingCount, video, here, Nat.mul_comm]
      obtain ⟨user, write⟩ := (paging_userTable l m (k := vidmemIndex) (by decide)).2 rfl
      have through : userTranslate l (m.paging l) store page = translate l (m.paging l) page := by
        have table : Memory.Paging.tableAt l (m.paging l)
            (pageTableBaseAddress.get ((m.paging l).pageDirectories (page / pagingCount))) =
              some (m.paging l).userVidmem := by
          rw [video]
          exact vidmem_table l m
        refine Memory.Paging.userTranslate_small ?_ ?_ table ?_ ?_
        · rw [video]
          exact vidmem_grants l m store
        · rw [video]
          exact vidmem_size l m
        · rw [here, user]
        · rw [here, write]
      rw [through, same, videoPage, translate_userVidmem]
      simp only [true_and]
    · have absent := (paging_userTable l m index).1 here
      have differ : ¬(page = videoPage ∧ m.userVidmem.present) := by
        rintro ⟨rfl, _⟩
        exact here (by decide)
      rw [if_neg differ]
      simp only [userTranslate]
      rw [video, if_neg (not_not.2 (vidmem_grants l m store)), vidmem_size, if_neg Nat.zero_ne_one,
        vidmem_table, Option.bind_eq_bind, Option.bind_some,
        if_pos fun grants => grants.present_ne absent]
  · have differ : ¬(page = videoPage ∧ m.userVidmem.present) := by
      rintro ⟨rfl, _⟩
      exact video (by decide)
    rw [if_neg differ]
    apply Memory.Paging.userTranslate_closed
    rw [paging_boot l m image]
    exact Memory.Paging.kmallocInit_closed l zeroPaging high video

/-! ## Kernel code -/

/-- The entries for video memory name frames of the first 4 MB. -/
structure LowVideo (m : Machine) : Prop where
  kernel : ∀ i, i < pagingCount → (m.screen.vid.kernelVidmem i).base < pagingCount
  user : m.userVidmem.base < pagingCount

variable {m}

/-- **The pages of kernel code** lie in low memory, in the kernel's own 4 MB and in
the image of the running process. -/
theorem translate_reaches (low : LowVideo m) (small : m.userPage < 2 ^ 10) {page frame : Nat}
    (inside : page < pagingCount * pagingCount) (reached : translate l (m.paging l) page = some frame) :
    frame < 2 * pagingCount ∨
      page / pagingCount = userEntry ∧ frame = m.userPage * pagingCount + page % pagingCount := by
  have high : page / pagingCount < pagingCount := Nat.div_lt_of_lt_mul inside
  have index : page % pagingCount < pagingCount := Nat.mod_lt _ (by decide)
  have clipped : ∀ base, base < pagingCount → base % 2 ^ 20 < 2 * pagingCount := fun base bound =>
    (Nat.mod_le base _).trans_lt (bound.trans (by decide))
  have video : ∀ (pte : Pte) (v : Nat), pte.base < pagingCount →
      (if pte.present then some (pte.base % 2 ^ 20) else none) = some v → v < 2 * pagingCount := by
    intro pte v bound found
    split_ifs at found
    obtain rfl := Option.some.inj found
    exact clipped _ bound
  by_cases image : page / pagingCount = userEntry
  · rw [translate_user l m image small] at reached
    exact Or.inr ⟨image, (Option.some.inj reached).symm⟩
  left
  by_cases window : Memory.kmallocPde ≤ page / pagingCount ∧
      page / pagingCount < Memory.kmallocPde + Memory.kmallocPdeCount
  · -- the window of kmalloc
    have lies : page = windowPage (page - Memory.kmallocPde * pagingCount) ∧
        page - Memory.kmallocPde * pagingCount < windowPages := by
      simp only [Memory.kmallocPde, Memory.kmallocPdeCount, windowPage, windowPages,
        Memory.kmallocBegin, Memory.kmallocSize, pagingCount] at window ⊢
      omega
    have windowed : Windowed l (m.paging l) := by
      have boot := bootPaging_windowed l
      refine ⟨fun k bound => ?_, boot.table⟩
      obtain ⟨entry, filled⟩ := boot.directory k bound
      refine ⟨entry, Eq.trans (Function.update_of_ne ?_ ..) filled⟩
      simp only [Memory.kmallocPde, Memory.kmallocPdeCount, userEntry] at bound ⊢
      omega
    rw [lies.1, Memory.Paging.translate_window windowed lies.2] at reached
    obtain rfl := Option.some.inj reached
    exact (Nat.mod_lt _ (by decide)).trans (by decide)
  by_cases vidmem : page / pagingCount = vidmemIndex
  · by_cases here : page % pagingCount = vidmemIndex
    · have same : page = vidmemIndex * pagingCount + vidmemIndex := by
        rw [← Nat.div_add_mod page pagingCount, vidmem, here, Nat.mul_comm]
      rw [same, translate_userVidmem] at reached
      exact video _ _ low.user reached
    · have absent := (paging_userTable l m index).1 here
      unfold Memory.Paging.translate at reached
      dsimp only at reached
      rw [vidmem, if_neg (vidmem_grants l m false).present_ne, vidmem_size, if_neg Nat.zero_ne_one,
        vidmem_table, Option.bind_eq_bind, Option.bind_some, if_pos absent] at reached
      cases reached
  by_cases first : page < pagingCount
  · rw [translate_kernelVidmem l m first] at reached
    exact video _ _ (low.kernel page first) reached
  by_cases kernel : page / pagingCount = 1
  · rw [translate_kernel l m kernel] at reached
    obtain rfl := Option.some.inj reached
    simp only [pagingCount] at kernel ⊢
    omega
  · -- every other entry is as `paging_init` left it, and not present
    have far : 2 ≤ page / pagingCount := by
      simp only [pagingCount] at first kernel ⊢
      omega
    have absent : present.get ((m.paging l).pageDirectories (page / pagingCount)) = 0 := by
      rw [paging_directory l m image (by omega)]
      exact Memory.Paging.pagingInit_absent l zeroPaging far high vidmem
    unfold Memory.Paging.translate at reached
    dsimp only at reached
    rw [if_pos absent] at reached
    cases reached

end

/-! ## Runs -/

section

variable {m m' mid : Machine} {frame : Nat} {ended : Ended} {magic : Nat → UInt8}

theorem LowVideo.same (low : LowVideo m)
    (kernel : m'.screen.vid.kernelVidmem = m.screen.vid.kernelVidmem)
    (user : m'.userVidmem.base = m.userVidmem.base) : LowVideo m' :=
  ⟨fun i inside => kernel ▸ low.kernel i inside, user ▸ low.user⟩

theorem LowVideo.context (low : LowVideo m) (same : m'.context = m.context) : LowVideo m' :=
  low.same (congrArg Context.kernelVidmem same)
    (congrArg (fun c : Context => c.userVidmem.base) same)

theorem LowVideo.mapped (low : LowVideo m) (small : frame < pagingCount) :
    LowVideo (m.mapVidmem frame) := by
  refine ⟨fun i inside => ?_, small⟩
  simp only [mapVidmem]
  by_cases here : i = vidmemIndex
  · rw [here, Function.update_self]
    exact small
  · rw [Function.update_of_ne here]
    exact low.kernel i inside

theorem LowVideo.undisturbed (low : LowVideo m) (same : Undisturbed m m') : LowVideo m' :=
  low.same (congrArg Context.kernelVidmem same.rest)
    (congrArg (fun c : Context => c.userVidmem.base) same.rest)

theorem lowVideo_halt {status : UInt8} (ran : m.halt status magic = some (m', ended))
    (low : LowVideo m) : LowVideo m' := by
  obtain ⟨p, _, ⟨_, pid, parent, _, rfl, _⟩ | back⟩ := halt_inv ran
  · exact low.same rfl rfl
  · obtain ⟨q, _, _, rfl⟩ := returnToParent_some back
    exact low.same rfl rfl

theorem lowVideo_kernel {call : KernelCall} (inside : InKernel m)
    (ran : call.run m = some (m', ended)) (low : LowVideo m) : LowVideo m' := by
  cases call with
  | execute command magic =>
      rcases execute_some ran with ⟨rfl, _⟩ | ⟨pid, parent, _, rfl, _⟩
      · exact low
      · exact low.same rfl rfl
  | halt status magic => exact lowVideo_halt ran low
  | raise vector address =>
      obtain ⟨_, raised, same⟩ := Option.map_eq_some_iff.1 ran
      cases same
      obtain ⟨mid, drawn, rfl⟩ := raise_some raised
      have drew : LowVideo mid := low.context drawn
      exact drew.same rfl rfl
  | pitHandler magic =>
      obtain ⟨curr, mid, m₁, rfl, _, rfl, rest⟩ := pitHandler_some ran
      have next : m.nextTermId < terminalCount := Nat.mod_lt _ (by decide)
      have small : (if m.nextTermId = m.shownTermId then vidmemIndex
          else vidmemIndex + m.nextTermId + 2) < pagingCount := by
        simp only [terminalCount, vidmemIndex, pagingCount] at next ⊢
        split_ifs <;> omega
      have screen : LowVideo (m.turnScreen m.nextTermId) :=
        (low.mapped small).context (turnScreen_context m m.nextTermId)
      have turned : LowVideo ((m.turnScreen m.nextTermId).turned curr m.nextTermId) :=
        screen.same rfl rfl
      rcases rest with ⟨_, halted⟩ | ⟨rfl, _⟩
      · exact lowVideo_halt halted (turned.same rfl rfl)
      · exact turned.same rfl rfl
  | keyboardHandler scancode =>
      rcases keyboardHandler_some ran with ⟨t, _, switched⟩ | ⟨typed, _⟩
      · rcases switchTerminal_some switched with ⟨_, rfl⟩ | ⟨curr, mid, m₁, _, swapped, _, rfl, rfl, _⟩
        · exact low
        · have screen : LowVideo mid := (low.mapped (by decide)).context (swapScreens_context swapped)
          exact screen.same rfl rfl
      · exact low.context (typeKey_drawn typed)
  | vidmap start =>
      obtain ⟨⟨mid, v⟩, mapped, same⟩ := Option.map_eq_some_iff.1 ran
      cases same
      rcases vidmap_some mapped with ⟨rfl, _⟩ | ⟨curr, current, _, rfl⟩
      · exact low
      · obtain rfl := Option.some.inj (inside.current.symm.trans current)
        have alive := inside.sched.head_alive inside.sched.active
        have pid : (m.pcbs (m.terms m.activeTermId).pid).pid = (m.terms m.activeTermId).pid :=
          inside.sched.pid _ alive
        have bound : (m.terms m.activeTermId).pid < maxProcess := alive.1
        refine ⟨low.kernel, ?_⟩
        dsimp only
        rw [pid]
        simp only [maxProcess, vidmemIndex, pagingCount] at bound ⊢
        split_ifs <;> omega
  | putc c =>
      obtain ⟨_, drew, same⟩ := Option.map_eq_some_iff.1 ran
      cases same
      exact low.context (putc_drawn drew)

theorem lowVideo_step {e : SystemEvent} (sched : Scheduled m.sessions)
    (step : systemStep m e = some m') (low : LowVideo m) : LowVideo m' := by
  have entered : ∀ ebp, LowVideo (m.entered ebp) := fun ebp => low.same rfl rfl
  obtain ⟨outcome, ran⟩ := ran_of_step step
  cases ran with
  | iret => exact low.same rfl rfl
  | kernel frame made => exact lowVideo_kernel (inKernel_enter sched frame) made (entered _)
  | file frame made =>
      have current := (inKernel_enter sched frame).current
      exact (entered _).undisturbed (fileCall_serves current made).toUndisturbed
  | read frame made =>
      have current := (inKernel_enter sched frame).current
      exact (entered _).undisturbed (read_serves current made).toUndisturbed
  | resume frame made =>
      have current := (inKernel_enter sched frame).current
      exact (entered _).undisturbed (resume_serves current made).toUndisturbed
  | rtcHandler frame => exact (entered _).undisturbed (rtcHandler_undisturbed _)

theorem lowVideo_start (booted : m.Booted) : LowVideo m.mapTerminals.startShells := by
  have kernel : m.mapTerminals.startShells.screen.vid.kernelVidmem =
      m.mapTerminals.screen.vid.kernelVidmem := by
    simp [startShells, setUpShell, leaveRet, setScreenCoordinate, setPcb, setTerm]
  have user : m.mapTerminals.startShells.userVidmem = m.userVidmem := by
    simp [startShells, setUpShell, leaveRet, setScreenCoordinate, setPcb, setTerm, mapTerminals]
  refine ⟨fun i inside => ?_, ?_⟩
  · rw [kernel]
    simp only [mapTerminals, Function.update_apply, booted.kernelVidmem]
    split_ifs <;> first | exact inside | decide
  · rw [user, booted.userVidmem]
    decide

end

/-- What user code reaches in a state where the process on top of the active
terminal's chain runs. -/
theorem space_scheduled {m : Machine} (l : Layout) (sched : Scheduled m.sessions) (low : LowVideo m)
    (store : Bool) {page : Nat} (inside : page < pagingCount * pagingCount) :
    userTranslate l (m.paging l) store page =
      if page / pagingCount = userEntry then
        some ((2 + (m.terms m.activeTermId).pid) * pagingCount + page % pagingCount)
      else if page = videoPage ∧ m.userVidmem.present then some m.userVidmem.base
      else none := by
  have alive := sched.head_alive sched.active
  have bound : (m.terms m.activeTermId).pid < maxProcess := alive.1
  have own : m.userPage = 2 + (m.terms m.activeTermId).pid := sched.userPage
  have small : m.userPage < 2 ^ 10 := by
    simp only [maxProcess] at bound
    omega
  have clipped : m.userVidmem.base % 2 ^ 20 = m.userVidmem.base :=
    Nat.mod_eq_of_lt (low.user.trans (by decide))
  rw [userTranslate_paging l m store inside small, clipped, own]

/-- **The address space of user code** in every state of every run: the image of
the running process, the page of video memory while its entry is present, and
nothing else, be it to load or to store. -/
theorem user_space (l : Layout) (m₀ m : Machine) (magic : Nat → UInt8) (booted : m₀.Booted)
    (started : m₀.initiateShells magic = some (m, true)) (run : List SystemEvent) :
    Every systemStep (fun _ _ m' => ∃ p, m'.running = some p ∧ p < maxProcess ∧
      m'.userVidmem.base < pagingCount ∧
      ∀ store page, page < pagingCount * pagingCount → userTranslate l (m'.paging l) store page =
        if page / pagingCount = userEntry then some ((2 + p) * pagingCount + page % pagingCount)
        else if page = videoPage ∧ m'.userVidmem.present then some m'.userVidmem.base
        else none) m run := by
  obtain rfl := initiateShells_some started
  apply every_of_invariant (fun m => Scheduled m.sessions ∧ LowVideo m)
  · rintro m e m' ⟨sched, low⟩ step
    have sched' := scheduled_system sched step
    have low' := lowVideo_step sched step low
    have alive := sched'.head_alive sched'.active
    refine ⟨⟨sched', low'⟩, _, (coherent_of_scheduled sched').running, alive.1, low'.user, ?_⟩
    exact fun store page inside => space_scheduled l sched' low' store inside
  · exact ⟨scheduled_start booted, lowVideo_start booted⟩

/-- The first shell runs a program, and the tick comes. -/
theorem shells_user_space : Every systemStep (fun _ _ m' => ∃ p, m'.running = some p ∧
    p < maxProcess ∧ m'.userVidmem.base < pagingCount ∧
      ∀ store page, page < pagingCount * pagingCount →
        userTranslate tablesLast (m'.paging tablesLast) store page =
          if page / pagingCount = userEntry then some ((2 + p) * pagingCount + page % pagingCount)
          else if page = videoPage ∧ m'.userVidmem.present then some m'.userVidmem.base
          else none) shells
      [.call 0x7FFF00 (.kernel (.execute (some shellName) fun _ => 0)),
        .call 0x7F9F00 (.kernel (.pitHandler fun _ => 0))] :=
  user_space tablesLast (mounted shellFs) shells (fun _ => 0) (mounted_booted shellFs) shells_started _

end Illinix.Kernel
