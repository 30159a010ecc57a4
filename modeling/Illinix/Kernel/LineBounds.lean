/-
# Kernel.LineBounds -- the input lines stay inside their buffers

`content` has room for `MAX_TERMINAL` bytes, and `length` follows it in memory.
The handler checks the length before it stores a visible key, and before it takes
one back; before it stores a tab it does not.  A tab on a full line is therefore
stored behind the buffer, into the length, and this is the only way out:
`line_bounds_iff`.
-/
import Illinix.Kernel.Lines

namespace Illinix.Kernel

open Illinix.FileSys Illinix.Theory Machine

set_option autoImplicit false

/-- The index of `content` that the handler stores a key at, for the shown
terminal: it appends a tab at any length. -/
def Machine.storeIndex (m : Machine) (scancode : Nat) : Option Nat :=
  let length := (m.terms m.shownTermId).length
  match m.keyOf scancode with
  | some (.char _) => if scancode = scTab ∨ length < maxTerminal then some length else none
  | some .backspace => if 0 < length then some (length - 1) else none
  | some .enter | none => none

/-- The lengths are in bounds before the event and after it, and so is the store
the event makes. -/
structure LineBounds (m : Machine) (e : SystemEvent) : Prop where
  before : ∀ t, (m.terms t).length ≤ maxTerminal
  after : ∀ m', systemStep m e = some m' → ∀ t, (m'.terms t).length ≤ maxTerminal
  store : ∀ ebp scancode i, e = .call ebp (.kernel (.keyboardHandler scancode)) →
    m.storeIndex scancode = some i → i < maxTerminal

/-- The event is not a tab on a full line. -/
def TabFits (m : Machine) (e : SystemEvent) : Prop :=
  ∀ ebp, e = .call ebp (.kernel (.keyboardHandler scTab)) →
    (m.terms m.shownTermId).length ≠ maxTerminal

section

variable {m m' : Machine} {e : SystemEvent}

/-! ## What is stored where -/

/-- A key changes the content at one index. -/
theorem Key.apply_content {k : Key} {line : Line} {i : Nat}
    (changed : (k.apply line).content i ≠ line.content i) :
    (∃ c, k = .char c ∧ line.length < maxTerminal ∧ i = line.length) ∨
      (k = .backspace ∧ 0 < line.length ∧ i = line.length - 1) := by
  cases k with
  | char c =>
      unfold Key.apply at changed
      dsimp only at changed
      split_ifs at changed with room
      · refine Or.inl ⟨c, rfl, room, ?_⟩
        by_contra other
        exact changed (Function.update_of_ne other c line.content)
      · exact absurd rfl changed
  | backspace =>
      unfold Key.apply at changed
      dsimp only at changed
      split_ifs at changed with some'
      · refine Or.inr ⟨rfl, some', ?_⟩
        by_contra other
        exact changed (Function.update_of_ne other 0 line.content)
      · exact absurd rfl changed
  | enter => exact absurd rfl changed

/-- **The handler stores at `storeIndex` only**, in the content of the shown
terminal. -/
theorem keyboardHandler_stores {scancode : Nat} {ended : Ended}
    (ran : m.keyboardHandler scancode = some (m', ended)) {t i : Nat}
    (stored : (m'.terms t).content i ≠ (m.terms t).content i) :
    t = m.shownTermId ∧ m.storeIndex scancode = some i := by
  have line : (m'.terms t).content = _ := congrArg Line.content (keyboardHandler_line ran t)
  rw [line] at stored
  by_cases shown : t = m.shownTermId
  · refine ⟨shown, ?_⟩
    rw [if_pos shown, shown] at stored
    unfold storeIndex
    dsimp only
    cases typed : m.keyOf scancode with
    | none =>
        rw [typed] at stored
        exact absurd rfl stored
    | some k =>
        rw [typed] at stored
        rcases Key.apply_content stored with ⟨c, rfl, room, rfl⟩ | ⟨rfl, some', rfl⟩
        · exact if_pos (Or.inr room)
        · exact if_pos some'
  · rw [if_neg shown] at stored
    exact absurd rfl stored

theorem keyOf_tab (m : Machine) : m.keyOf scTab = some (.char '\t'.toUInt8) := by
  have plain : ¬(scF1 ≤ scTab ∧ scTab ≤ scF3 ∨ (m.modifierKey scTab).isSome) := by
    simp [modifierKey, scF1, scF3, scTab, scLeftShift, scRightShift, scLeftShiftRel,
      scRightShiftRel, scCapsLock, scLeftAlt, scLeftControl, scLeftControlRel]
  unfold keyOf
  rw [if_neg plain, if_pos rfl]

theorem storeIndex_tab (m : Machine) :
    m.storeIndex scTab = some (m.terms m.shownTermId).length := by
  unfold storeIndex
  rw [keyOf_tab]
  exact if_pos (Or.inl rfl)

/-- The store of any other key is in bounds if the length is. -/
theorem storeIndex_lt {scancode i : Nat} (bounds : (m.terms m.shownTermId).length ≤ maxTerminal)
    (other : scancode ≠ scTab) (stores : m.storeIndex scancode = some i) : i < maxTerminal := by
  unfold storeIndex at stores
  dsimp only at stores
  split at stores
  · split_ifs at stores with room
    obtain rfl := Option.some.inj stores
    exact room.resolve_left other
  · split_ifs at stores
    obtain rfl := Option.some.inj stores
    omega
  · cases stores
  · cases stores

/-! ## Lengths -/

theorem LineOp.apply_length (op : LineOp) {line : Line} (bounds : line.length ≤ maxTerminal) :
    (op.apply line).length ≤ maxTerminal := by
  cases op with
  | key k =>
      cases k with
      | char c =>
          unfold LineOp.apply Key.apply
          dsimp only
          split_ifs with room
          · exact room
          · exact bounds
      | backspace =>
          unfold LineOp.apply Key.apply
          dsimp only
          split_ifs
          · exact (Nat.sub_le _ _).trans bounds
          · exact bounds
      | enter => exact bounds
  | start => exact bounds
  | take | flush => exact Nat.zero_le maxTerminal

/-- No step takes a length out of bounds. -/
theorem lengths_step (bounds : ∀ t, (m.terms t).length ≤ maxTerminal)
    (step : systemStep m e = some m') (t : Nat) : (m'.terms t).length ≤ maxTerminal := by
  have line : (m'.terms t).length = _ := congrArg Line.length (lines_step step t)
  rw [line]
  cases m.lineOp t e with
  | none => exact bounds t
  | some op => exact op.apply_length (bounds t)

theorem lineBounds_iff (bounds : ∀ t, (m.terms t).length ≤ maxTerminal) :
    LineBounds m e ↔ TabFits m e := by
  constructor
  · rintro good ebp rfl full
    have inside := good.store ebp scTab _ rfl (storeIndex_tab m)
    omega
  · intro fits
    refine ⟨bounds, fun m' step => lengths_step bounds step, ?_⟩
    rintro ebp scancode i rfl stores
    by_cases filler : scancode = scTab
    · subst filler
      obtain rfl := Option.some.inj ((storeIndex_tab m).symm.trans stores)
      exact lt_of_le_of_ne (bounds _) (fits ebp rfl)
    · exact storeIndex_lt (bounds _) filler stores

end

theorem start_length (fs : Fs) (t : Nat) :
    ((mounted fs).mapTerminals.startShells.terms t).length = 0 := by
  by_cases low : t < terminalCount
  · simp only [terminalCount] at low
    obtain rfl | rfl | rfl : t = 0 ∨ t = 1 ∨ t = 2 := by omega
    all_goals rfl
  · simp only [terminalCount] at low
    have apart : t ≠ 0 ∧ t ≠ 1 ∧ t ≠ 2 := by omega
    simp [startShells, setUpShell, leaveRet, setScreenCoordinate, setPcb, setTerm, apart,
      mapTerminals, mounted]

/-- **The input lines, exactly.** In every run from boot on, the lengths are at
most `MAX_TERMINAL` and the handler's stores inside `content`, if and only if no
tab is typed on a terminal whose line is full. -/
theorem line_bounds_iff (fs : Fs) (m : Machine) (magic : Nat → UInt8)
    (started : (mounted fs).initiateShells magic = some (m, true)) (run : List SystemEvent) :
    Meets systemStep LineBounds m run ↔ Meets systemStep TabFits m run := by
  obtain rfl := initiateShells_some started
  refine meets_congr (fun m => ∀ t, (m.terms t).length ≤ maxTerminal) ?_ ?_ run _ fun t => ?_
  · exact fun m e bounds => lineBounds_iff bounds
  · exact fun m e m' bounds step => lengths_step bounds step
  · rw [start_length]
    exact Nat.zero_le maxTerminal

/-- The key "a", with the first shell in user mode. -/
def typeA : SystemEvent := .call 0x7FFF00 (.kernel (.keyboardHandler 0x1E))

def typeTab : SystemEvent := .call 0x7FFF00 (.kernel (.keyboardHandler scTab))

/-- After 128 letters a tab is stored behind the buffer. -/
theorem tab_at_128 : ¬Meets systemStep LineBounds shells
    ((.iret :: List.replicate 128 typeA) ++ [typeTab]) := by
  intro meets
  have state : (after systemStep shells (.iret :: List.replicate 128 typeA)).map
      (fun m => m.storeIndex scTab) = some (some 128) := by
    decide +kernel
  obtain ⟨m, reached, stores⟩ := Option.map_eq_some_iff.1 state
  have good := meets_at _ _ m meets reached
  exact absurd (good.store _ _ _ rfl stores) (by decide)

theorem letters_and_tab : Meets systemStep LineBounds shells [.iret, typeA, typeA, typeTab] ↔
    Meets systemStep TabFits shells [.iret, typeA, typeA, typeTab] :=
  line_bounds_iff shellFs shells (fun _ => 0) shells_started _

end Illinix.Kernel
