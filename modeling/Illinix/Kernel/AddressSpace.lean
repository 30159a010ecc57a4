/-
# Kernel.AddressSpace -- the frames behind the kernel's window

After `paging_init` and `kmalloc_init` the kernel stores to few entries: the user
page's in the directory and those for video memory in two tables.  `PagingCall`
has these stores, call by call.  A machine state keeps what they leave;
`paging_step` says that each step of the kernel changes the tables by such calls,
and `translate_kernelVidmem`, `translate_kernel`, `translate_user` and
`translate_userVidmem` what the processor makes of them.

None of the calls reaches the four tables of `kmalloc_init`.  They should map the
4096 pages of the window to frames of their own.  Each maps its 1024 pages to the
first 1024 frames, video memory among them (`never_separated`).
-/
import Illinix.Kernel.Restart
import Illinix.Memory.Paging

namespace Illinix.Kernel

open Illinix.FileSys Illinix.Theory Machine
open Illinix.Memory (Layout Paging present readWrite userSupervisor pageSize pageTableBaseAddress
  pageBaseAddressMB pageBaseAddress pagingCount)
open Illinix.Memory.Paging (kmallocInit pagingInit translate windowPage windowPages Windowed)

set_option autoImplicit false

/-! ## The kernel's stores to the tables -/

/-- `page_directories[USER_ENTRY].MB.page_base_address = 2 + pid` -/
def setUserPage (p : Paging) (pid : Nat) : Paging :=
  p.setDirectory userEntry (pageBaseAddressMB.set (p.pageDirectories userEntry) (2 + pid))

/-- The other stores of `initiate_shells` and `execute` to that entry. -/
def openUserPage (p : Paging) : Paging :=
  p.setDirectory userEntry (readWrite.set (userSupervisor.set
    (present.set (p.pageDirectories userEntry) 1) 1) 1)

/-- The stores of `initiate_shells` to `page_table_kernel_vidmem`. -/
def mapTerminalPages (p : Paging) : Paging :=
  let p := p.setKernelVidmem (vidmemIndex + 1) (pageBaseAddress.set
    (present.set (p.kernelVidmem (vidmemIndex + 1)) 1) vidmemIndex)
  let p := p.setKernelVidmem (vidmemIndex + 2) (present.set (p.kernelVidmem (vidmemIndex + 2)) 1)
  let p := p.setKernelVidmem (vidmemIndex + 3) (present.set (p.kernelVidmem (vidmemIndex + 3)) 1)
  p.setKernelVidmem (vidmemIndex + 4) (present.set (p.kernelVidmem (vidmemIndex + 4)) 1)

/-- A call's stores, with the values it has computed: `turn` is a tick or a
terminal switch. -/
inductive PagingCall where
  | initiateShells
  | execute (pid : Nat)
  | halt (parent : Nat)
  | turn (frame pid : Nat) (flag : Bool)
  | vidmap (frame : Nat)

def PagingCall.run (p : Paging) : PagingCall → Paging
  | .initiateShells =>
      setUserPage (setUserPage (setUserPage (mapTerminalPages (openUserPage p)) 2) 1) 0
  | .execute pid => setUserPage (openUserPage p) pid
  | .halt parent => setUserPage p parent
  | .turn frame pid flag =>
      let p := p.setKernelVidmem vidmemIndex (pageBaseAddress.set (p.kernelVidmem vidmemIndex) frame)
      let p := p.setUserVidmem vidmemIndex (pageBaseAddress.set (p.userVidmem vidmemIndex) frame)
      let p := setUserPage p pid
      p.setUserVidmem vidmemIndex (present.set (p.userVidmem vidmemIndex) flag.toNat)
  | .vidmap frame =>
      p.setUserVidmem vidmemIndex (pageBaseAddress.set (present.set (p.userVidmem vidmemIndex) 1) frame)

/-- The tables as the loader zeroed them. -/
def zeroPaging : Paging := ⟨fun _ => 0, fun _ => 0, fun _ => 0, fun _ => 0⟩

/-- The tables after the two initialisers. -/
@[irreducible] def bootPaging (l : Layout) : Paging := kmallocInit l (pagingInit l zeroPaging)

/-! ## The window -/

/-- No call reaches the window. -/
theorem windowed_call {l : Layout} {p : Paging} (window : Windowed l p) (call : PagingCall) :
    Windowed l (call.run p) := by
  have other : ∀ k entry, k < Memory.kmallocPdeCount →
      Function.update p.pageDirectories userEntry entry (Memory.kmallocPde + k) =
        p.pageDirectories (Memory.kmallocPde + k) := by
    intro k entry low
    refine Function.update_of_ne ?_ ..
    simp only [Memory.kmallocPdeCount, Memory.kmallocPde, userEntry] at low ⊢
    omega
  constructor
  · intro k low
    obtain ⟨entry, filled⟩ := window.directory k low
    refine ⟨entry, Eq.trans ?_ filled⟩
    cases call with
    | initiateShells =>
        simp only [PagingCall.run, setUserPage, openUserPage, mapTerminalPages, Paging.setDirectory,
          Paging.setKernelVidmem, Function.update_idem]
        exact other k _ low
    | execute pid =>
        simp only [PagingCall.run, setUserPage, openUserPage, Paging.setDirectory,
          Function.update_idem]
        exact other k _ low
    | halt parent => exact other k _ low
    | turn frame pid flag => exact other k _ low
    | vidmap frame => rfl
  · cases call <;> exact window.table

theorem bootPaging_windowed (l : Layout) : Windowed l (bootPaging l) := by
  unfold bootPaging
  exact Memory.Paging.kmallocInit_windowed l _

theorem windowed_calls {l : Layout} (calls : List PagingCall) : ∀ {p : Paging}, Windowed l p →
    Windowed l (calls.foldl PagingCall.run p) := by
  induction calls with
  | nil => exact fun window => window
  | cons call rest ih => exact fun window => ih (windowed_call window call)

/-! ## The tables of a machine -/

/-- A table entry with `present` and `page_base_address` stored. -/
def storePte (entry : Nat) (pte : Pte) : Nat :=
  pageBaseAddress.set (present.set entry pte.present.toNat) pte.base

/-- The tables with what a machine keeps of them: the kernel's entries for video
memory, the user's one, and the page of the running process's image. -/
def storeTables (p : Paging) (kernel : Nat → Pte) (user : Pte) (page : Nat) : Paging :=
  { p with
    pageDirectories := Function.update p.pageDirectories userEntry
      (pageBaseAddressMB.set (readWrite.set (userSupervisor.set
        (present.set (p.pageDirectories userEntry) 1) 1) 1) page)
    kernelVidmem := fun i =>
      if i < pagingCount then storePte (p.kernelVidmem i) (kernel i) else p.kernelVidmem i
    userVidmem := Function.update p.userVidmem vidmemIndex
      (storePte (p.userVidmem vidmemIndex) user) }

/-- The directory and the tables from `initiate_shells` on. -/
def Machine.paging (l : Layout) (m : Machine) : Paging :=
  storeTables (bootPaging l) m.screen.vid.kernelVidmem m.userVidmem m.userPage

section

variable (p : Paging) (kernel : Nat → Pte) (user : Pte) (page : Nat)

theorem storePte_base (entry frame : Nat) (pte : Pte) :
    pageBaseAddress.set (storePte entry pte) frame = storePte entry { pte with base := frame } :=
  Field.set_set ..

theorem storePte_present (entry : Nat) (pte : Pte) (flag : Bool) :
    present.set (storePte entry pte) flag.toNat = storePte entry { pte with present := flag } := by
  unfold storePte
  rw [Field.set_comm (by decide), Field.set_set]

/-- A store of what the entry holds. -/
theorem storePte_self {entry : Nat} {pte : Pte} (flag : present.get entry = pte.present.toNat)
    (base : pageBaseAddress.get entry = pte.base) : storePte entry pte = entry := by
  unfold storePte
  rw [Field.set_get _ _ flag, Field.set_get _ _ base]

theorem setUserPage_store (pid : Nat) : setUserPage (storeTables p kernel user page) pid =
    storeTables p kernel user (2 + pid) := by
  unfold setUserPage storeTables Paging.setDirectory
  simp only [Function.update_self, Function.update_idem, Field.set_set]

theorem openUserPage_store :
    openUserPage (storeTables p kernel user page) = storeTables p kernel user page := by
  unfold openUserPage storeTables Paging.setDirectory
  simp only [Function.update_self, Function.update_idem]
  generalize p.pageDirectories userEntry = entry
  have presents : present.get (pageBaseAddressMB.set (readWrite.set (userSupervisor.set
      (present.set entry 1) 1) 1) page) = 1 := by
    rw [Field.get_set_other (by decide), Field.get_set_other (by decide),
      Field.get_set_other (by decide), Field.get_set]
    rfl
  have user' : userSupervisor.get (pageBaseAddressMB.set (readWrite.set (userSupervisor.set
      (present.set entry 1) 1) 1) page) = 1 := by
    rw [Field.get_set_other (by decide), Field.get_set_other (by decide), Field.get_set]
    rfl
  have writes : readWrite.get (pageBaseAddressMB.set (readWrite.set (userSupervisor.set
      (present.set entry 1) 1) 1) page) = 1 := by
    rw [Field.get_set_other (by decide), Field.get_set]
    rfl
  rw [Field.set_get _ _ presents, Field.set_get _ _ user', Field.set_get _ _ writes]

theorem kernelVidmem_store {i : Nat} (low : i < pagingCount) :
    (storeTables p kernel user page).kernelVidmem i = storePte (p.kernelVidmem i) (kernel i) :=
  if_pos low

theorem userVidmem_store : (storeTables p kernel user page).userVidmem vidmemIndex =
    storePte (p.userVidmem vidmemIndex) user := by
  unfold storeTables
  simp only [Function.update_self]

theorem setKernelVidmem_store {i : Nat} (low : i < pagingCount) (pte : Pte) :
    (storeTables p kernel user page).setKernelVidmem i (storePte (p.kernelVidmem i) pte) =
      storeTables p (Function.update kernel i pte) user page := by
  unfold storeTables Paging.setKernelVidmem
  congr 1
  funext j
  by_cases here : j = i
  · subst here
    simp only [Function.update_self, if_pos low]
  · simp only [Function.update_of_ne here]

theorem setUserVidmem_store (pte : Pte) :
    (storeTables p kernel user page).setUserVidmem vidmemIndex
      (storePte (p.userVidmem vidmemIndex) pte) = storeTables p kernel pte page := by
  unfold storeTables Paging.setUserVidmem
  simp only [Function.update_idem]

theorem execute_store (pid : Nat) : PagingCall.run (storeTables p kernel user page) (.execute pid) =
    storeTables p kernel user (2 + pid) := by
  show setUserPage (openUserPage _) pid = _
  rw [openUserPage_store, setUserPage_store]

theorem halt_store (parent : Nat) : PagingCall.run (storeTables p kernel user page) (.halt parent) =
    storeTables p kernel user (2 + parent) :=
  setUserPage_store ..

theorem vidmap_store (frame : Nat) :
    PagingCall.run (storeTables p kernel user page) (.vidmap frame) =
      storeTables p kernel ⟨true, frame⟩ page := by
  show (storeTables p kernel user page).setUserVidmem vidmemIndex (pageBaseAddress.set
    (present.set ((storeTables p kernel user page).userVidmem vidmemIndex) true.toNat) frame) = _
  rw [userVidmem_store, storePte_present, storePte_base, setUserVidmem_store]

theorem turn_store (frame pid : Nat) (flag : Bool) :
    PagingCall.run (storeTables p kernel user page) (.turn frame pid flag) =
      storeTables p (Function.update kernel vidmemIndex { kernel vidmemIndex with base := frame })
        ⟨flag, frame⟩ (2 + pid) := by
  have inside : vidmemIndex < pagingCount := by decide
  unfold PagingCall.run
  dsimp only
  rw [kernelVidmem_store _ _ _ _ inside, storePte_base, setKernelVidmem_store _ _ _ _ inside,
    userVidmem_store, storePte_base, setUserVidmem_store, setUserPage_store, userVidmem_store,
    storePte_present, setUserVidmem_store]

theorem mapTerminals_store (m : Machine) :
    mapTerminalPages (storeTables p m.screen.vid.kernelVidmem user page) =
      storeTables p m.mapTerminals.screen.vid.kernelVidmem user page := by
  have set : ∀ (kernel : Nat → Pte) {i : Nat}, i < pagingCount →
      (storeTables p kernel user page).setKernelVidmem i (present.set
        ((storeTables p kernel user page).kernelVidmem i) 1) =
          storeTables p (Function.update kernel i ⟨true, (kernel i).base⟩) user page := by
    intro kernel i low
    rw [kernelVidmem_store _ _ _ _ low, show (1 : Nat) = true.toNat from rfl, storePte_present,
      setKernelVidmem_store _ _ _ _ low]
  unfold mapTerminalPages
  dsimp only
  rw [kernelVidmem_store _ _ _ _ (by decide), show (1 : Nat) = true.toNat from rfl, storePte_present,
    storePte_base, setKernelVidmem_store _ _ _ _ (by decide), show true.toNat = 1 from rfl,
    set _ (by decide), set _ (by decide), set _ (by decide)]
  rfl

end

/-- What `initiate_shells` finds is what the initialisers stored. -/
theorem boot_store (l : Layout) {m : Machine} (booted : m.Booted) :
    setUserPage (openUserPage (bootPaging l)) 2 =
      storeTables (bootPaging l) m.screen.vid.kernelVidmem m.userVidmem 4 := by
  have kernelVidmem : (bootPaging l).kernelVidmem = (pagingInit l zeroPaging).kernelVidmem := by
    unfold bootPaging
    exact (Memory.Paging.kmallocInit_tables l _).1
  have userVidmem : (bootPaging l).userVidmem = (pagingInit l zeroPaging).userVidmem := by
    unfold bootPaging
    exact (Memory.Paging.kmallocInit_tables l _).2
  have kernel : (bootPaging l).kernelVidmem = fun i => if i < pagingCount then
      storePte ((bootPaging l).kernelVidmem i) (m.screen.vid.kernelVidmem i)
        else (bootPaging l).kernelVidmem i := by
    funext i
    split_ifs with low
    · obtain ⟨flag, base⟩ := Memory.Paging.pagingInit_kernelVidmem l zeroPaging low
      rw [booted.kernelVidmem, kernelVidmem]
      symm
      apply storePte_self
      · exact flag
      · exact base
    · rfl
  have user : (bootPaging l).userVidmem = Function.update (bootPaging l).userVidmem vidmemIndex
      (storePte ((bootPaging l).userVidmem vidmemIndex) m.userVidmem) := by
    obtain ⟨flag, base⟩ := Memory.Paging.pagingInit_userVidmem l zeroPaging
    rw [booted.userVidmem, userVidmem]
    have same : storePte ((pagingInit l zeroPaging).userVidmem vidmemIndex) ⟨false, vidmemIndex⟩ =
        (pagingInit l zeroPaging).userVidmem vidmemIndex := storePte_self flag base
    rw [same, Function.update_eq_self]
  unfold setUserPage openUserPage Paging.setDirectory storeTables
  simp only [Function.update_self, Function.update_idem]
  rw [← kernel, ← user]

/-- The two kinds of stores of `initiate_shells` go to different tables. -/
theorem setUserPage_mapTerminalPages (p : Paging) (pid : Nat) :
    setUserPage (mapTerminalPages p) pid = mapTerminalPages (setUserPage p pid) := by
  unfold setUserPage mapTerminalPages Paging.setDirectory Paging.setKernelVidmem
  rfl

/-- **initiate_shells** makes the tables of the machine it leaves. -/
theorem start_paging (l : Layout) {m : Machine} (booted : m.Booted) :
    PagingCall.run (bootPaging l) .initiateShells = m.mapTerminals.startShells.paging l := by
  show setUserPage (setUserPage (setUserPage (mapTerminalPages (openUserPage (bootPaging l))) 2) 1) 0 = _
  rw [setUserPage_mapTerminalPages, boot_store l booted, mapTerminals_store, setUserPage_store,
    setUserPage_store]
  have kernel : m.mapTerminals.startShells.screen.vid.kernelVidmem =
      m.mapTerminals.screen.vid.kernelVidmem := by
    simp [startShells, setUpShell, leaveRet, setScreenCoordinate, setPcb, setTerm]
  have user : m.mapTerminals.startShells.userVidmem = m.userVidmem := by
    simp [startShells, setUpShell, leaveRet, setScreenCoordinate, setPcb, setTerm, mapTerminals]
  have page : m.mapTerminals.startShells.userPage = 2 + 0 := by
    simp [startShells, setUpShell, leaveRet, setScreenCoordinate, setPcb, setTerm]
  unfold Machine.paging
  rw [kernel, user, page]

/-! ## What the tables translate to -/

section

variable (l : Layout) (m : Machine)

theorem present_storePte (entry : Nat) (pte : Pte) :
    present.get (storePte entry pte) = pte.present.toNat := by
  unfold storePte
  rw [Field.get_set_other (by decide), Field.get_set]
  cases pte.present <;> rfl

theorem base_storePte (entry : Nat) (pte : Pte) :
    pageBaseAddress.get (storePte entry pte) = pte.base % 2 ^ 20 :=
  Field.get_set ..

/-- The directory outside the window and the user page is that of `paging_init`. -/
theorem paging_directory {k : Nat} (other : k ≠ userEntry)
    (outside : k < Memory.kmallocPde ∨ Memory.kmallocPde + Memory.kmallocPdeCount ≤ k) :
    (m.paging l).pageDirectories k = (pagingInit l zeroPaging).pageDirectories k := by
  have boot : (bootPaging l).pageDirectories k = (pagingInit l zeroPaging).pageDirectories k := by
    unfold bootPaging
    exact Memory.Paging.kmallocInit_other l _ outside
  rw [← boot]
  exact Function.update_of_ne other ..

/-- A translation through a table. -/
theorem translate_table {p : Paging} {page : Nat} {table : Nat → Nat}
    (presents : present.get (p.pageDirectories (page / pagingCount)) = 1)
    (small : pageSize.get (p.pageDirectories (page / pagingCount)) = 0)
    (found : p.tableAt l (pageTableBaseAddress.get (p.pageDirectories (page / pagingCount))) = some table)
    {pte : Pte} {entry : Nat} (stored : table (page % pagingCount) = storePte entry pte) :
    translate l p page = if pte.present then some (pte.base % 2 ^ 20) else none := by
  unfold Memory.Paging.translate
  dsimp only
  rw [presents, small, found, Option.bind_eq_bind, Option.bind_some, stored, present_storePte,
    base_storePte, if_neg (by decide), if_neg (by decide)]
  cases pte.present <;> rfl

/-- The first 4 MB: the table the console draws through. -/
theorem translate_kernelVidmem {page : Nat} (low : page < pagingCount) :
    translate l (m.paging l) page = if (m.screen.vid.kernelVidmem page).present then
      some ((m.screen.vid.kernelVidmem page).base % 2 ^ 20) else none := by
  have directory : page / pagingCount = 0 := Nat.div_eq_of_lt low
  have index : page % pagingCount = page := Nat.mod_eq_of_lt low
  have entry : (m.paging l).pageDirectories 0 = (present.set 0 1 ||| l.kernelVidmem * 2 ^ 12) := by
    rw [paging_directory l m (by decide) (Or.inl (by decide))]
    exact Memory.Paging.pagingInit_zero l zeroPaging
  have inside := l.kernelVidmem_inside
  have address : present.get (l.kernelVidmem * 2 ^ 12) = 0 ∧ pageSize.get (l.kernelVidmem * 2 ^ 12) = 0 ∧
      pageTableBaseAddress.get (l.kernelVidmem * 2 ^ 12) = l.kernelVidmem := by
    simp only [Field.get, present, pageSize, pageTableBaseAddress]
    omega
  apply translate_table l
  · rw [directory, entry, Field.get_or, address.1]
    rfl
  · rw [directory, entry, Field.get_or, address.2.1]
    rfl
  · rw [directory, entry, Field.get_or, address.2.2, show pageTableBaseAddress.get (present.set 0 1) = 0
      by decide, Nat.zero_or]
    exact if_pos rfl
  · rw [index]
    exact kernelVidmem_store _ _ _ _ low

/-- The next 4 MB: the kernel, at its own frames. -/
theorem translate_kernel {page : Nat} (inside : page / pagingCount = 1) :
    translate l (m.paging l) page = some page := by
  have entry : (m.paging l).pageDirectories 1 =
      (pageSize.set (present.set 0 1) 1 ||| Memory.kernelAddr) := by
    rw [paging_directory l m (by decide) (Or.inl (by decide))]
    exact Memory.Paging.pagingInit_one l zeroPaging
  have base : pageBaseAddressMB.get (pageSize.set (present.set 0 1) 1 ||| Memory.kernelAddr) = 1 := by
    decide
  unfold Memory.Paging.translate
  dsimp only
  rw [inside, entry, base, if_neg (by decide), if_pos (by decide)]
  congr 1
  simp only [pagingCount] at inside ⊢
  omega

/-- The user page: the 4 MB of the running process's image. -/
theorem translate_user {page : Nat} (inside : page / pagingCount = userEntry)
    (small : m.userPage < 2 ^ 10) :
    translate l (m.paging l) page = some (m.userPage * pagingCount + page % pagingCount) := by
  have boot : pageSize.get ((bootPaging l).pageDirectories userEntry) = 1 := by
    unfold bootPaging
    rw [Memory.Paging.kmallocInit_other l _ (Or.inr (by decide))]
    exact Memory.Paging.pagingInit_size l zeroPaging (by decide) (by decide) (by decide)
  have entry : (m.paging l).pageDirectories userEntry = pageBaseAddressMB.set (readWrite.set
      (userSupervisor.set (present.set ((bootPaging l).pageDirectories userEntry) 1) 1) 1)
        m.userPage := by
    unfold Machine.paging storeTables
    simp only [Function.update_self]
  have presents : present.get ((m.paging l).pageDirectories userEntry) = 1 := by
    rw [entry, Field.get_set_other (by decide), Field.get_set_other (by decide),
      Field.get_set_other (by decide), Field.get_set]
    rfl
  have size : pageSize.get ((m.paging l).pageDirectories userEntry) = 1 := by
    rw [entry, Field.get_set_other (by decide), Field.get_set_other (by decide),
      Field.get_set_other (by decide), Field.get_set_other (by decide), boot]
  have base : pageBaseAddressMB.get ((m.paging l).pageDirectories userEntry) = m.userPage := by
    rw [entry, Field.get_set]
    exact Nat.mod_eq_of_lt small
  unfold Memory.Paging.translate
  dsimp only
  rw [inside, presents, size, base, if_neg (by decide), if_pos rfl]

/-- The user's page for video memory. -/
theorem translate_userVidmem :
    translate l (m.paging l) (vidmemIndex * pagingCount + vidmemIndex) =
      if m.userVidmem.present then some (m.userVidmem.base % 2 ^ 20) else none := by
  obtain ⟨old, filled⟩ := Memory.Paging.pagingInit_vidmem l zeroPaging
  have entry : (m.paging l).pageDirectories vidmemIndex = _ :=
    (paging_directory l m (by decide) (Or.inr (by decide))).trans filled
  have directory : (vidmemIndex * pagingCount + vidmemIndex) / pagingCount = vidmemIndex := by decide
  have index : (vidmemIndex * pagingCount + vidmemIndex) % pagingCount = vidmemIndex := by decide
  have inside := l.userVidmem_inside
  apply translate_table l
  · rw [directory, entry, Field.get_set_other (by decide), Field.get_set_other (by decide),
      Field.get_set_other (by decide), Field.get_set_other (by decide), Field.get_set]
    rfl
  · rw [directory, entry, Field.get_set_other (by decide), Field.get_set]
    rfl
  · have small : l.userVidmem % 2 ^ pageTableBaseAddress.width = l.userVidmem :=
      Nat.mod_eq_of_lt (by simp only [pageTableBaseAddress]; omega)
    rw [directory, entry, Field.get_set, small]
    exact (if_neg l.tables_apart).trans (if_pos rfl)
  · rw [index]
    exact userVidmem_store ..

end

/-! ## The steps of the kernel -/

/-- The tables of `m'` come from those of `m` by such calls. -/
def Follows (l : Layout) (m m' : Machine) : Prop :=
  ∃ calls : List PagingCall, m'.paging l = calls.foldl PagingCall.run (m.paging l)

section

variable {l : Layout} {m m' m'' : Machine} {ended : Ended}

theorem Follows.trans (first : Follows l m m') (second : Follows l m' m'') : Follows l m m'' := by
  obtain ⟨calls, one⟩ := first
  obtain ⟨calls', two⟩ := second
  refine ⟨calls ++ calls', ?_⟩
  rw [List.foldl_append, ← one, two]

theorem follows_of_call (call : PagingCall) (same : m'.paging l = call.run (m.paging l)) :
    Follows l m m' :=
  ⟨[call], same⟩

theorem follows_of_same (kernel : m'.screen.vid.kernelVidmem = m.screen.vid.kernelVidmem)
    (user : m'.userVidmem = m.userVidmem) (page : m'.userPage = m.userPage) : Follows l m m' := by
  refine ⟨[], ?_⟩
  unfold Machine.paging
  rw [kernel, user, page]
  rfl

theorem follows_of_undisturbed (same : Undisturbed m m') : Follows l m m' :=
  follows_of_same (congrArg Context.kernelVidmem same.rest) (congrArg Context.userVidmem same.rest)
    (congrArg Context.userPage same.rest)

theorem follows_of_drawn (drawn : Drawn m m') : Follows l m m' :=
  follows_of_same (congrArg Context.kernelVidmem drawn) (congrArg Context.userVidmem drawn)
    (congrArg Context.userPage drawn)

theorem launched_follows (pid : Nat) (parent : Option Nat) : Follows l m (m.launched pid parent) :=
  follows_of_call (.execute pid) (execute_store ..).symm

theorem halt_follows {status : UInt8} {magic : Nat → UInt8}
    (ran : m.halt status magic = some (m', ended)) : Follows l m m' := by
  obtain ⟨p, _, ⟨_, pid, parent, _, rfl, _⟩ | back⟩ := halt_inv ran
  · exact (follows_of_same rfl rfl rfl).trans (launched_follows (m := m.givenUp p) pid parent)
  · obtain ⟨q, _, _, rfl⟩ := returnToParent_some back
    exact follows_of_call (.halt ((m.givenUp p).pcbs q).pid) (halt_store ..).symm

/-- A tick or a terminal switch, with the frame its screen part has chosen. -/
theorem turned_follows {mid : Machine} {frame curr t : Nat}
    (screen : mid.context = (m.mapVidmem frame).context) : Follows l m (mid.turned curr t) := by
  have kernel : mid.screen.vid.kernelVidmem = (m.mapVidmem frame).screen.vid.kernelVidmem :=
    congrArg Context.kernelVidmem screen
  have user : mid.userVidmem.base = frame := congrArg (fun c : Context => c.userVidmem.base) screen
  have stored := turn_store (bootPaging l) m.screen.vid.kernelVidmem m.userVidmem m.userPage frame
    ((mid.turned curr t).pcbs (mid.terms t).pid).pid
      ((mid.turned curr t).pcbs (mid.terms t).pid).vidmap
  apply follows_of_call (.turn frame ((mid.turned curr t).pcbs (mid.terms t).pid).pid
    ((mid.turned curr t).pcbs (mid.terms t).pid).vidmap)
  refine Eq.trans ?_ stored.symm
  show storeTables (bootPaging l) mid.screen.vid.kernelVidmem
    ⟨((mid.turned curr t).pcbs (mid.terms t).pid).vidmap, mid.userVidmem.base⟩
      (2 + ((mid.turned curr t).pcbs (mid.terms t).pid).pid) = _
  rw [kernel, user]
  rfl

theorem kernel_follows {call : KernelCall} (ran : call.run m = some (m', ended)) :
    Follows l m m' := by
  cases call with
  | execute command magic =>
      rcases execute_some ran with ⟨rfl, _⟩ | ⟨pid, parent, _, rfl, _⟩
      · exact follows_of_same rfl rfl rfl
      · exact launched_follows pid parent
  | halt status magic => exact halt_follows ran
  | raise vector address =>
      obtain ⟨mid, raised, same⟩ := Option.map_eq_some_iff.1 ran
      cases same
      obtain ⟨mid, drawn, rfl⟩ := raise_some raised
      have follows : Follows l m mid := follows_of_drawn drawn
      exact follows
  | pitHandler magic =>
      obtain ⟨curr, mid, m₁, rfl, _, rfl, rest⟩ := pitHandler_some ran
      have turned : Follows l m ((m.turnScreen m.nextTermId).turned curr m.nextTermId) :=
        turned_follows (turnScreen_context m m.nextTermId)
      rcases rest with ⟨_, halted⟩ | ⟨rfl, _⟩
      · have later := halt_follows (l := l) halted
        exact turned.trans later
      · exact turned
  | keyboardHandler scancode =>
      rcases keyboardHandler_some ran with ⟨t, _, switched⟩ | ⟨typed, _⟩
      · rcases switchTerminal_some switched with ⟨_, rfl⟩ | ⟨curr, mid, m₁, _, swapped, _, rfl, rfl, _⟩
        · exact follows_of_same rfl rfl rfl
        · have turned : Follows l m (mid.turned curr t) := turned_follows (swapScreens_context swapped)
          exact turned
      · exact follows_of_drawn (typeKey_drawn typed)
  | vidmap start =>
      obtain ⟨⟨mid, v⟩, mapped, same⟩ := Option.map_eq_some_iff.1 ran
      cases same
      rcases vidmap_some mapped with ⟨rfl, _⟩ | ⟨curr, _, _, rfl⟩
      · exact follows_of_same rfl rfl rfl
      · exact follows_of_call (.vidmap _) (vidmap_store ..).symm
  | putc c =>
      obtain ⟨mid, drew, same⟩ := Option.map_eq_some_iff.1 ran
      cases same
      exact follows_of_drawn (putc_drawn drew)

/-- **Each step of the kernel stores to the tables what the calls store.** -/
theorem paging_step {e : SystemEvent} (sched : Scheduled m.sessions)
    (step : systemStep m e = some m') : Follows l m m' := by
  have serves : ∀ {ebp : Nat}, Undisturbed (m.entered ebp) m' → Follows l m m' := fun same =>
    follows_of_undisturbed (m := m.entered _) same
  obtain ⟨outcome, ran⟩ := ran_of_step step
  cases ran with
  | iret => exact follows_of_same rfl rfl rfl
  | @kernel ebp call _ how frame made => exact kernel_follows (m := m.entered ebp) made
  | file frame made =>
      have current := (inKernel_enter sched frame).current
      exact serves (fileCall_serves current made).toUndisturbed
  | read frame made =>
      have current := (inKernel_enter sched frame).current
      exact serves (read_serves current made).toUndisturbed
  | resume frame made =>
      have current := (inKernel_enter sched frame).current
      exact serves (resume_serves current made).toUndisturbed
  | rtcHandler frame => exact serves (rtcHandler_undisturbed _)

end

/-! ## Separation -/

/-- The frames of the kernel's 4 MB page. -/
def KernelFrame (frame : Nat) : Prop := frame / pagingCount = 1

/-- The frames of the image of process `pid`. -/
def ImageFrame (pid frame : Nat) : Prop := frame / pagingCount = 2 + pid

/-- The display, the hidden buffers and the frame between. -/
def VideoFrame (frame : Nat) : Prop := vidmemIndex ≤ frame ∧ frame ≤ vidmemIndex + 4

/-- The window has frames of its own. -/
structure Separated (l : Layout) (p : Paging) : Prop where
  mapped : ∀ i, i < windowPages → ∃ frame, translate l p (windowPage i) = some frame
  distinct : ∀ i j frame, i < windowPages → j < windowPages → i ≠ j →
    translate l p (windowPage i) = some frame → translate l p (windowPage j) ≠ some frame
  apart : ∀ i frame, i < windowPages → translate l p (windowPage i) = some frame →
    ¬KernelFrame frame ∧ (∀ pid, pid < maxProcess → ¬ImageFrame pid frame) ∧ ¬VideoFrame frame

section

variable {l : Layout} {p : Paging}

/-- The part that holds: the kernel's page and the images are not reached. -/
theorem window_below (window : Windowed l p) {i frame : Nat} (inside : i < windowPages)
    (mapped : translate l p (windowPage i) = some frame) :
    ¬KernelFrame frame ∧ ∀ pid, ¬ImageFrame pid frame := by
  rw [Memory.Paging.translate_window window inside] at mapped
  obtain rfl := Option.some.inj mapped
  have low : i % pagingCount / pagingCount = 0 := Nat.div_eq_of_lt (Nat.mod_lt _ (by decide))
  unfold KernelFrame ImageFrame
  rw [low]
  exact ⟨by decide, fun pid => by omega⟩

/-- Each of the first 1024 frames, video memory among them, is behind four pages of
the window. -/
theorem window_aliased (window : Windowed l p) (frame k : Nat) (small : frame < pagingCount)
    (low : k < Memory.kmallocPdeCount) :
    translate l p (windowPage (frame + pagingCount * k)) = some frame := by
  have inside : frame + pagingCount * k < windowPages := by
    simp only [pagingCount, Memory.kmallocPdeCount, windowPages, Memory.kmallocSize] at small low ⊢
    omega
  rw [Memory.Paging.translate_window window inside, Nat.add_mul_mod_self_left, Nat.mod_eq_of_lt small]

theorem window_shared (window : Windowed l p) : ¬Separated l p := by
  intro separated
  have first : translate l p (windowPage 0) = some 0 :=
    window_aliased window 0 0 (by decide) (by decide)
  have second : translate l p (windowPage pagingCount) = some 0 :=
    window_aliased window 0 1 (by decide) (by decide)
  exact separated.distinct 0 pagingCount 0 (by decide) (by decide) (by decide) first second

end

/-- **The window never has frames of its own**: not after the two initialisers and
not in any state of any run, wherever the linker puts the tables. -/
theorem never_separated (l : Layout) (m₀ m : Machine) (magic : Nat → UInt8) (booted : m₀.Booted)
    (started : m₀.initiateShells magic = some (m, true)) (run : List SystemEvent) :
    ¬Separated l (bootPaging l) ∧ ¬Separated l (m.paging l) ∧
      Every systemStep (fun _ _ m' => ¬Separated l (m'.paging l)) m run := by
  obtain rfl := initiateShells_some started
  have boot := bootPaging_windowed l
  have start : Windowed l (m₀.mapTerminals.startShells.paging l) := by
    rw [← start_paging l booted]
    exact windowed_call boot .initiateShells
  refine ⟨window_shared boot, window_shared start, ?_⟩
  apply every_of_invariant (fun m => Scheduled m.sessions ∧ Windowed l (m.paging l))
  · rintro m e m' ⟨sched, window⟩ step
    obtain ⟨calls, stored⟩ := paging_step (l := l) sched step
    have window' : Windowed l (m'.paging l) := by
      rw [stored]
      exact windowed_calls calls window
    exact ⟨⟨scheduled_system sched step, window'⟩, window_shared window'⟩
  · exact ⟨scheduled_start booted, start⟩

/-- One place the linker can put the tables in. -/
def tablesLast : Layout where
  kernelVidmem := 2042
  userVidmem := 2043
  kmalloc := 2044
  kernelVidmem_inside := by decide
  userVidmem_inside := by decide
  kmalloc_inside := by decide
  tables_apart := by decide
  kernel_apart := by decide
  user_apart := by decide

/-- The first shell runs a program, and the tick comes. -/
theorem shells_never_separated : ¬Separated tablesLast (bootPaging tablesLast) ∧
    ¬Separated tablesLast (shells.paging tablesLast) ∧
      Every systemStep (fun _ _ m' => ¬Separated tablesLast (m'.paging tablesLast)) shells
        [.iret, .call 0x7FFF00 (.kernel (.execute (some shellName) fun _ => 0)),
          .call 0x7F9F00 (.kernel (.pitHandler fun _ => 0))] :=
  never_separated tablesLast (mounted shellFs) shells (fun _ => 0) (mounted_booted shellFs)
    shells_started _

/-- Two pages of the window that are 4 MB apart have one frame, and a third one has
the display's. -/
theorem window_overlaps : ¬Separated tablesLast (shells.paging tablesLast) ∧
    translate tablesLast (shells.paging tablesLast) (windowPage 0) = some 0 ∧
    translate tablesLast (shells.paging tablesLast) (windowPage 1024) = some 0 ∧
    translate tablesLast (shells.paging tablesLast) (windowPage vidmemIndex) = some vidmemIndex := by
  have start : Windowed tablesLast (shells.paging tablesLast) := by
    rw [show shells = (mounted shellFs).mapTerminals.startShells from rfl,
      ← start_paging tablesLast (mounted_booted shellFs)]
    exact windowed_call (bootPaging_windowed tablesLast) .initiateShells
  refine ⟨window_shared start, ?_, ?_, ?_⟩
  · exact window_aliased start 0 0 (by decide) (by decide)
  · exact window_aliased start 0 1 (by decide) (by decide)
  · exact window_aliased start vidmemIndex 0 (by decide) (by decide)

end Illinix.Kernel
