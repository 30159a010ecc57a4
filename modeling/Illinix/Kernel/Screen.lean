/-
# Kernel.Screen -- putc, echo and clear on the paged kernel

`putc` ends by publishing the cursor of the shown terminal when the current
process is the one that terminal runs.  `echo` draws a key on the shown terminal:
directly when the active process is on it, else through the second mapping of the
display at page `VIDMEM_INDEX + 1`, with the cursor pair swapped for the call.
-/
import Illinix.Kernel.State

namespace Illinix.Kernel

open Illinix.Console Illinix.FileSys Illinix.Theory

set_option autoImplicit false

/-- The bytes of an ASCII text. -/
def text (s : String) : List UInt8 := s.toList.map Char.toUInt8

namespace Machine

def setCursorPos (m : Machine) (x y : Int) : Machine :=
  { m with cursorPos := (numCols * y + x) % 2 ^ 16 }

def setCursor (m : Machine) (t : Nat) (x y : Int) : Machine :=
  m.setTerm t { m.terms t with cursorX := x, cursorY := y }

/-- The end of `putc`. -/
def showCursor (m : Machine) : Option Machine := do
  let curr ← m.getCurrentPcb
  if (m.pcbs curr).pid = (m.terms m.shownTermId).pid then
    some ((m.setCursor m.shownTermId m.screen.screenX m.screen.screenY).setCursorPos
      m.screen.screenX m.screen.screenY)
  else some m

def putc (m : Machine) (c : UInt8) : Option Machine := do
  let (screen, updates) ← Console.putc c m.screen
  if updates then showCursor { m with screen := screen } else some { m with screen := screen }

/-- `printf` of a text without conversions, and the loop of `terminal_write`. -/
def puts : List UInt8 → Machine → Option Machine
  | [], m => some m
  | c :: rest, m => do
      let m ← m.putc c
      puts rest m

def setVideoMem (m : Machine) (page : Nat) : Machine :=
  { m with screen := { m.screen with vid := { m.screen.vid with videoMem := page } } }

def setScreenCoordinate (m : Machine) (x y : Int) : Machine :=
  { m with screen := { m.screen with screenX := x, screenY := y } }

def echo (m : Machine) (c : UInt8) : Option Machine :=
  if m.activeTermId = m.shownTermId then m.putc c
  else do
    let cacheX := m.screen.screenX
    let cacheY := m.screen.screenY
    let shown := m.terms m.shownTermId
    let m := m.setScreenCoordinate shown.cursorX shown.cursorY
    let m := m.setVideoMem (vidmemIndex + 1)
    let m ← m.putc c
    let m := m.setVideoMem vidmemIndex
    let m := m.setCursor m.shownTermId m.screen.screenX m.screen.screenY
    let m := m.setCursorPos m.screen.screenX m.screen.screenY
    some (m.setScreenCoordinate cacheX cacheY)

def clear (m : Machine) : Option Machine := do
  let vid ← clearCells m.screen.vid
  let m := { m with screen := { m.screen with vid := vid } }
  let m := m.setCursor m.shownTermId 0 0
  some (if m.shownTermId = m.activeTermId then m.setScreenCoordinate 0 0 else m)

def terminalWrite (m : Machine) (buf : Option (Nat → UInt8)) (count : Nat) :
    Option (Machine × Int) :=
  match buf with
  | none => some (m, 0)
  | some buf =>
      if count = 0 then some (m, 0)
      else do
        let m ← puts ((List.range count).map buf) m
        let t := m.activeTermId
        some (m.setTerm t { m.terms t with length := 0 }, i32 count)

/-! ## What the console leaves alone -/

/-- The machine without its console: the display, the cursors and the input
lines are left out. -/
structure Context where
  fs : Fs
  pcbs : Nat → Pcb
  pids : Nat → Nat
  shownTermId : Nat
  activeTermId : Nat
  kernelVidmem : Nat → Pte
  userVidmem : Pte
  userPage : Nat
  tssEsp0 : Nat
  esp : Nat
  userMode : Bool
  exceptionOccurred : Bool

def context (m : Machine) : Context where
  fs := m.fs
  pcbs := m.pcbs
  pids t := (m.terms t).pid
  shownTermId := m.shownTermId
  activeTermId := m.activeTermId
  kernelVidmem := m.screen.vid.kernelVidmem
  userVidmem := m.userVidmem
  userPage := m.userPage
  tssEsp0 := m.tssEsp0
  esp := m.esp
  userMode := m.userMode
  exceptionOccurred := m.exceptionOccurred

/-- Only the console changed. -/
def Drawn (m m' : Machine) : Prop := m'.context = m.context

section

variable {m m' m'' : Machine}

theorem Drawn.refl (m : Machine) : Drawn m m := rfl

theorem Drawn.trans (first : Drawn m m') (second : Drawn m' m'') : Drawn m m'' :=
  Eq.trans second first

theorem Drawn.fs (drawn : Drawn m m') : m'.fs = m.fs := congrArg Context.fs drawn

theorem Drawn.pcbs (drawn : Drawn m m') : m'.pcbs = m.pcbs := congrArg Context.pcbs drawn

@[simp] theorem setCursorPos_context (m : Machine) (x y : Int) :
    (m.setCursorPos x y).context = m.context := rfl

@[simp] theorem setVideoMem_context (m : Machine) (page : Nat) :
    (m.setVideoMem page).context = m.context := rfl

@[simp] theorem setScreenCoordinate_context (m : Machine) (x y : Int) :
    (m.setScreenCoordinate x y).context = m.context := rfl

/-- A terminal record with the same process. -/
theorem setTerm_drawn (m : Machine) {t : Nat} {term : Terminal}
    (same : term.pid = (m.terms t).pid) : Drawn m (m.setTerm t term) := by
  have pids : (fun u => ((m.setTerm t term).terms u).pid) = fun u => (m.terms u).pid := by
    funext u
    by_cases here : u = t
    · subst here
      simp [setTerm, same]
    · simp [setTerm, here]
  simp only [Drawn, context, pids]
  rfl

@[simp] theorem setCursor_context (m : Machine) (t : Nat) (x y : Int) :
    (m.setCursor t x y).context = m.context := setTerm_drawn m rfl

/-- A new screen with the page table unchanged. -/
theorem setScreen_drawn (m : Machine) {screen : Screen Bus}
    (same : screen.vid.kernelVidmem = m.screen.vid.kernelVidmem) :
    Drawn m { m with screen := screen } := by
  simp only [Drawn, context, same]

/-- No store changes the page table. -/
theorem store_kernelVidmem {b b' : Bus} {i : Int} {c : Cell} (stored : Video.store b i c = some b') :
    b'.kernelVidmem = b.kernelVidmem := by
  obtain ⟨_, _, rfl⟩ := Option.map_eq_some_iff.1 stored
  rfl

theorem showCursor_drawn (shown : m.showCursor = some m') : Drawn m m' := by
  simp only [showCursor, Option.bind_eq_bind, Option.bind_eq_some_iff] at shown
  obtain ⟨curr, _, shown⟩ := shown
  split_ifs at shown
  · obtain rfl := Option.some.inj shown
    simp [Drawn]
  · obtain rfl := Option.some.inj shown
    exact Drawn.refl m

theorem putc_drawn {c : UInt8} (drew : m.putc c = some m') : Drawn m m' := by
  simp only [putc, Option.bind_eq_bind, Option.bind_eq_some_iff] at drew
  obtain ⟨⟨screen, updates⟩, put, drew⟩ := drew
  have pages : screen.vid.kernelVidmem = m.screen.vid.kernelVidmem :=
    putc_keep (fun _ _ _ _ stored same => (store_kernelVidmem stored).trans same) put rfl
  cases updates with
  | false =>
      obtain rfl := Option.some.inj drew
      exact setScreen_drawn m pages
  | true => exact (setScreen_drawn m pages).trans (showCursor_drawn drew)

theorem puts_drawn (bytes : List UInt8) : ∀ {m m' : Machine}, puts bytes m = some m' →
    Drawn m m' := by
  induction bytes with
  | nil =>
      intro m m' drew
      obtain rfl := Option.some.inj drew
      exact Drawn.refl m
  | cons c rest ih =>
      intro m m' drew
      obtain ⟨mid, first, later⟩ := Option.bind_eq_some_iff.1 drew
      exact (putc_drawn first).trans (ih later)

theorem echo_drawn {c : UInt8} (drew : m.echo c = some m') : Drawn m m' := by
  simp only [echo] at drew
  split_ifs at drew
  · exact putc_drawn drew
  · obtain ⟨mid, put, drew⟩ := Option.bind_eq_some_iff.1 drew
    obtain rfl := Option.some.inj drew
    have drawn := putc_drawn put
    simpa [Drawn] using drawn

theorem clear_drawn (cleared : m.clear = some m') : Drawn m m' := by
  simp only [clear, Option.bind_eq_bind, Option.bind_eq_some_iff] at cleared
  obtain ⟨vid, filled, cleared⟩ := cleared
  have pages : vid.kernelVidmem = m.screen.vid.kernelVidmem :=
    clearCells_keep (fun _ _ _ _ stored same => (store_kernelVidmem stored).trans same) filled rfl
  generalize blank : ({ m with screen := { m.screen with vid := vid } } : Machine) = mid at cleared
  have drawn : Drawn m mid := blank ▸ setScreen_drawn m pages
  obtain rfl := Option.some.inj cleared
  split_ifs <;> simpa [Drawn] using drawn

theorem terminalWrite_drawn {buf : Option (Nat → UInt8)} {count : Nat} {r : Int}
    (wrote : m.terminalWrite buf count = some (m', r)) : Drawn m m' := by
  cases buf with
  | none =>
      cases wrote
      exact Drawn.refl m
  | some buf =>
      simp only [terminalWrite] at wrote
      split_ifs at wrote
      · cases wrote
        exact Drawn.refl m
      · obtain ⟨mid, drew, wrote⟩ := Option.bind_eq_some_iff.1 wrote
        cases wrote
        exact (puts_drawn _ drew).trans (setTerm_drawn mid rfl)

end

end Machine

end Illinix.Kernel
