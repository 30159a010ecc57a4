/-
# Kernel.Sched -- the timer tick, switching terminals, and vidmap

`pit_handler` and `switch_terminal` end alike: the frame pointer and `esp0` of
the current process go into its PCB, the next one's come out of its own
(`switchTo`), and the next process goes on where it was left.  They differ in
what they do with the screen, and in that only the tick looks at `to_be_halt`.
-/
import Illinix.Kernel.Process

namespace Illinix.Kernel

open Illinix.FileSys Illinix.Theory

set_option autoImplicit false

namespace Machine

/-- Both page table entries of the video page. -/
def mapVidmem (m : Machine) (frame : Nat) : Machine :=
  let pages := m.screen.vid.kernelVidmem
  { m with
    screen := { m.screen with vid := { m.screen.vid with
      kernelVidmem := Function.update pages vidmemIndex { pages vidmemIndex with base := frame } } }
    userVidmem := { m.userVidmem with base := frame } }

/-- The current process is left with the frame pointer in `esp`, and process
`next` is the running one. -/
def switchTo (m : Machine) (curr next : Nat) : Machine :=
  let m := m.setPcb curr { m.pcbs curr with ebp := m.esp, esp0 := m.tssEsp0 }
  { m with
    tssEsp0 := (m.pcbs next).esp0
    userPage := 2 + (m.pcbs next).pid
    userVidmem := { m.userVidmem with present := (m.pcbs next).vidmap } }

/-- The screen part of the tick, for the terminal whose turn it is. -/
def turnScreen (m : Machine) (nextId : Nat) : Machine :=
  let m := m.setCursor m.activeTermId m.screen.screenX m.screen.screenY
  let next := m.terms nextId
  let m := if nextId = m.shownTermId then
      (m.mapVidmem vidmemIndex).setCursorPos next.cursorX next.cursorY
    else m.mapVidmem (vidmemIndex + nextId + 2)
  m.setScreenCoordinate next.cursorX next.cursorY

def pitHandler (m : Machine) (magic : Nat → UInt8) : Switch := do
  let nextId := (m.activeTermId + 1) % terminalCount
  let m := m.turnScreen nextId
  let m := { m with activeTermId := nextId }
  let curr ← m.getCurrentPcb
  let next := (m.terms nextId).pid
  if next < maxProcess then
    let m := m.switchTo curr next
    if (m.terms nextId).toBeHalt then
      let m := { m with esp := (m.pcbs next).ebp }
      m.halt 6 magic
    else some (m.leaveRet (m.pcbs next).ebp, .resumed)
  else none

/-- `memcpy` of one page of cells to another, through the page table. -/
def copyPage (m : Machine) (dst src : Nat) : Option Machine :=
  let vid := m.screen.vid
  if (vid.kernelVidmem dst).present ∧ (vid.kernelVidmem src).present then
    let frames := Function.update vid.frames (vid.kernelVidmem dst).base
      (vid.frames (vid.kernelVidmem src).base)
    some { m with screen := { m.screen with vid := { vid with frames := frames } } }
  else none

/-- The screen part of `switch_terminal`: the display goes to the shown
terminal's buffer, the next one's buffer to the display. -/
def swapScreens (m : Machine) (nextId : Nat) : Option Machine := do
  let m ← m.copyPage (vidmemIndex + (m.shownTermId + 2)) (vidmemIndex + 1)
  let m ← m.copyPage (vidmemIndex + 1) (vidmemIndex + (nextId + 2))
  let m := m.setCursor m.activeTermId m.screen.screenX m.screen.screenY
  let m := m.mapVidmem vidmemIndex
  let next := m.terms nextId
  let m := m.setScreenCoordinate next.cursorX next.cursorY
  some (m.setCursorPos next.cursorX next.cursorY)

def switchTerminal (m : Machine) (nextId : Nat) : Switch :=
  if nextId = m.shownTermId then some (m, .returned 0)
  else do
    let m ← m.swapScreens nextId
    let curr ← m.getCurrentPcb
    let next := (m.terms nextId).pid
    let m := { m with activeTermId := nextId, shownTermId := nextId }
    if next < maxProcess then
      let m := m.switchTo curr next
      some (m.leaveRet (m.pcbs next).ebp, .resumed)
    else none

def userEntry : Nat := 32

/-- `start` is the user's pointer, 0 for NULL; the address stored there is left
out. -/
def vidmap (m : Machine) (start : Nat) : Call :=
  if start = 0 ∨ start / 2 ^ 22 ≠ userEntry then some (m, -1)
  else do
    let curr ← m.getCurrentPcb
    let m := m.setPcb curr { m.pcbs curr with vidmap := true }
    let base := if m.activeTermId = m.shownTermId then vidmemIndex
      else vidmemIndex + (m.pcbs curr).pid + 2
    some ({ m with userVidmem := ⟨true, base⟩ }, 0)

/-! ## The screen parts and the rest of the machine -/

section

variable {m m' : Machine}

theorem turnScreen_context (m : Machine) (nextId : Nat) :
    (m.turnScreen nextId).context = (m.mapVidmem (if nextId = m.shownTermId then vidmemIndex
      else vidmemIndex + nextId + 2)).context := by
  have cursor := setCursor_context m m.activeTermId m.screen.screenX m.screen.screenY
  have mapped : ∀ frame, ((m.setCursor m.activeTermId m.screen.screenX m.screen.screenY).mapVidmem
      frame).context = (m.mapVidmem frame).context := by
    intro frame
    have pids := congrArg Context.pids cursor
    simp only [context, mapVidmem] at pids ⊢
    rw [pids]
    rfl
  simp only [turnScreen, setScreenCoordinate_context]
  split_ifs <;> first | exact mapped _ | contradiction

theorem copyPage_drawn {dst src : Nat} (copied : m.copyPage dst src = some m') : Drawn m m' := by
  simp only [copyPage] at copied
  split_ifs at copied
  obtain rfl := Option.some.inj copied
  rfl

theorem mapVidmem_drawn (drawn : Drawn m m') (frame : Nat) :
    Drawn (m.mapVidmem frame) (m'.mapVidmem frame) := by
  have whole : ∀ m : Machine, (m.mapVidmem frame).context = { m.context with
      kernelVidmem := Function.update m.context.kernelVidmem vidmemIndex
        { m.context.kernelVidmem vidmemIndex with base := frame }
      userVidmem := { m.context.userVidmem with base := frame } } := fun _ => rfl
  simp only [Drawn, whole]
  rw [show m'.context = m.context from drawn]

theorem swapScreens_context {nextId : Nat} (swapped : m.swapScreens nextId = some m') :
    m'.context = (m.mapVidmem vidmemIndex).context := by
  simp only [swapScreens, Option.bind_eq_bind, Option.bind_eq_some_iff] at swapped
  obtain ⟨first, one, second, two, done⟩ := swapped
  obtain rfl := Option.some.inj done
  rw [setCursorPos_context, setScreenCoordinate_context]
  exact mapVidmem_drawn (((copyPage_drawn one).trans (copyPage_drawn two)).trans
    (setCursor_context _ _ _ _)) vidmemIndex

end

end Machine

end Illinix.Kernel
