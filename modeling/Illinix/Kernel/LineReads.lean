/-
# Kernel.LineReads -- the line that terminal_read returns

A process blocked in `terminal_read` waits for `in_progress` to become 0.  Enter
does that, but takes no copy of the line: keys typed between Enter and the moment
the reader runs again still reach the buffer, and the reader gets the line they
leave.

`typingStep` is a step of the system that also collects the keys typed on
terminal `t` since the read began.  `line_delivered_iff` is exact: the reader gets
the line edited up to Enter if and only if the keys after it change nothing and
none was lost at the end of the buffer.
-/
import Illinix.Kernel.Lines
import Illinix.Kernel.Coherence

namespace Illinix.Kernel

open Illinix.FileSys Illinix.Theory Machine

set_option autoImplicit false

/-! ## Editing -/

/-- One key of the line as edited. -/
def edit (line : List UInt8) : Key → List UInt8
  | .char c => line ++ [c]
  | .backspace => line.dropLast
  | .enter => line

/-- The line the keys up to the first Enter make. -/
def editedLine (keys : List Key) : List UInt8 := (keys.takeWhile (· ≠ .enter)).foldl edit []

/-- One key of the line in a buffer of `MAX_TERMINAL` bytes: on a full line a
character is lost. -/
def editBuffer (line : List UInt8) : Key → List UInt8
  | .char c => if line.length < maxTerminal then line ++ [c] else line
  | .backspace => line.dropLast
  | .enter => line

/-- The line all the keys make in the buffer. -/
def bufferedLine (keys : List Key) : List UInt8 := keys.foldl editBuffer []

/-! ## A read and the keys since -/

/-- A step of the system, with the keys typed on terminal `t` since the read
began; nothing once the read has returned. -/
def typingStep (t : Nat) (s : Machine × Option (List Key)) (e : SystemEvent) :
    Option (Machine × Option (List Key)) :=
  (systemStep s.1 e).map fun m' =>
    (m', if s.1.lineOp t e = some .take then none
      else s.2.map fun keys => keys ++ (s.1.typed t e).toList)

section

variable (t : Nat) (fd : Int) (buf : Nat → UInt8) (count : Nat)

/-- While the read is on, the process of terminal `t` makes no other call on its
descriptors. -/
def Blocked (s : Machine × Option (List Key)) (e : SystemEvent) : Prop :=
  s.2.isSome → s.1.activeTermId = t → ∀ ebp body, e = .call ebp body →
    (∃ call, body = .kernel call) ∨ body = .rtcHandler ∨ body = .resume fd (some buf) count

/-- The reader goes once more round the loop of `terminal_read`, having the keys
`keys` before it. -/
structure Polls (s : Machine × Option (List Key)) (e : SystemEvent) (keys : List Key) : Prop where
  event : ∃ ebp, e = .call ebp (.resume fd (some buf) count) ∧ s.1.Frame ebp ∧
    (s.1.entered ebp).blockedIn fd = some .stdin
  active : s.1.activeTermId = t
  since : s.2 = some keys

/-- The reader gets the line edited up to Enter; before Enter, nothing. -/
def DeliversLine (s : Machine × Option (List Key)) (e : SystemEvent) : Prop :=
  ∀ keys, Polls t fd buf count s e keys →
    if .enter ∈ keys then ∃ m' got, e.run s.1 =
        some (m', .reading (.returned (editedLine keys).length (some got))) ∧
      firsts got (editedLine keys).length = editedLine keys
    else ∃ m', e.run s.1 = some (m', .reading .waiting)

/-- When the reader polls after Enter, the keys have left that line in the buffer. -/
def KeepsLine (s : Machine × Option (List Key)) (e : SystemEvent) : Prop :=
  ∀ keys, Polls t fd buf count s e keys → .enter ∈ keys → bufferedLine keys = editedLine keys

end

/-- The line holds what the keys make of it. -/
structure Holds (keys : List Key) (line : Line) : Prop where
  content : firsts line.content line.length = bufferedLine keys
  inProgress : line.inProgress = decide (.enter ∉ keys)

section

variable {t count : Nat} {fd : Int} {buf : Nat → UInt8} {m m' : Machine} {e : SystemEvent}
  {s s' : Machine × Option (List Key)} {keys : List Key} {line : Line}

/-! ## The buffer -/

theorem Holds.length (holds : Holds keys line) : line.length = (bufferedLine keys).length := by
  rw [← holds.content, firsts_length]

theorem bufferedLine_snoc (keys : List Key) (k : Key) :
    bufferedLine (keys ++ [k]) = editBuffer (bufferedLine keys) k := by
  simp [bufferedLine]

theorem bufferedLine_length (keys : List Key) : (bufferedLine keys).length ≤ maxTerminal := by
  induction keys using List.reverseRecOn with
  | nil => exact Nat.zero_le maxTerminal
  | append_singleton keys k ih =>
      rw [bufferedLine_snoc]
      cases k with
      | char c =>
          unfold editBuffer
          dsimp only
          split_ifs with room
          · rw [List.length_append]
            exact room
          · exact ih
      | backspace =>
          refine le_trans (le_of_eq List.length_dropLast) ?_
          exact (Nat.sub_le _ 1).trans ih
      | enter => exact ih

/-- **One key** does to the line in the buffer what it does to the list. -/
theorem Holds.key (holds : Holds keys line) (k : Key) : Holds (keys ++ [k]) (k.apply line) := by
  have length := holds.length
  have content := holds.content
  have inProgress := holds.inProgress
  cases k with
  | char c =>
      have still : decide (Key.enter ∉ keys ++ [Key.char c]) = decide (Key.enter ∉ keys) := by simp
      unfold Key.apply
      dsimp only
      split_ifs with room
      · refine ⟨?_, inProgress.trans still.symm⟩
        rw [bufferedLine_snoc, editBuffer, if_pos (length ▸ room), ← content]
        exact firsts_update line.content line.length c
      · refine ⟨?_, inProgress.trans still.symm⟩
        rw [bufferedLine_snoc, editBuffer, if_neg (length ▸ room)]
        exact content
  | backspace =>
      have still : decide (Key.enter ∉ keys ++ [Key.backspace]) = decide (Key.enter ∉ keys) := by
        simp
      unfold Key.apply
      dsimp only
      split_ifs with some'
      · refine ⟨?_, inProgress.trans still.symm⟩
        rw [bufferedLine_snoc, editBuffer, ← content]
        exact firsts_update_pred line.content line.length 0
      · refine ⟨?_, inProgress.trans still.symm⟩
        rw [bufferedLine_snoc, editBuffer, ← content, Nat.eq_zero_of_not_pos some']
        rfl
  | enter =>
      refine ⟨?_, ?_⟩
      · rw [bufferedLine_snoc]
        exact content
      · simp [Key.apply]

theorem editedLine_snoc_enter {before : List Key} (open' : .enter ∉ before) (rest : List Key) :
    editedLine (before ++ .enter :: rest) = before.foldl edit [] := by
  simp only [editedLine]
  rw [List.takeWhile_append_of_pos, List.takeWhile_cons_of_neg, List.append_nil]
  · simp
  · intro k mem
    have other : k ≠ .enter := fun same => open' (same ▸ mem)
    simpa using other

/-- The line is kept if no more than `MAX_TERMINAL` characters are in it at any
time and no key that edits comes after Enter. -/
theorem bufferedLine_kept {before rest : List Key} (open' : .enter ∉ before)
    (fits : ∀ n, ((before.take n).foldl edit []).length ≤ maxTerminal)
    (idle : ∀ k, k ∈ rest → k = .enter) :
    bufferedLine (before ++ .enter :: rest) = editedLine (before ++ .enter :: rest) := by
  rw [editedLine_snoc_enter open']
  have idle' : ∀ {rest : List Key} (line : List UInt8), (∀ k, k ∈ rest → k = .enter) →
      rest.foldl editBuffer line = line := by
    intro rest line idle
    induction rest with
    | nil => rfl
    | cons k rest ih =>
        obtain rfl := idle k List.mem_cons_self
        exact ih fun k mem => idle k (List.mem_cons_of_mem _ mem)
  have kept : before.foldl editBuffer [] = before.foldl edit [] := by
    clear open'
    induction before using List.reverseRecOn with
    | nil => rfl
    | append_singleton before k ih =>
        have fits' : ∀ n, ((before.take n).foldl edit []).length ≤ maxTerminal := by
          intro n
          have short := fits (min n before.length)
          rwa [← List.take_take, List.take_left] at short
        have whole := fits (before ++ [k]).length
        rw [List.take_length, List.foldl_append] at whole
        rw [List.foldl_append, List.foldl_append, ih fits']
        cases k with
        | char c =>
            have room : (before.foldl edit []).length < maxTerminal := by
              rw [List.foldl_cons, List.foldl_nil, edit, List.length_append] at whole
              exact whole
            exact if_pos room
        | backspace | enter => rfl
  simp only [bufferedLine]
  rw [List.foldl_append, List.foldl_cons, kept]
  exact idle' _ idle

/-! ## A step -/

/-- What a step does to the line while the process of `t` is blocked: a key, the
end of the read, or nothing. -/
theorem blocked_op (blocked : Blocked t fd buf count s e) (on : s.2 = some keys) :
    s.1.lineOp t e = some .take ∨ s.1.lineOp t e = (s.1.typed t e).map .key := by
  cases e with
  | iret => exact Or.inr rfl
  | call ebp body =>
      by_cases active : s.1.activeTermId = t
      · have on' : s.2.isSome := by rw [on]; rfl
        rcases blocked on' active ebp body rfl with ⟨call, rfl⟩ | rfl | rfl
        · exact Or.inr rfl
        · exact Or.inr (ite_self none)
        · unfold lineOp driverOp
          dsimp only
          split_ifs
          · exact Or.inl rfl
          · exact Or.inr rfl
          · exact Or.inr rfl
      · cases body with
        | kernel call => exact Or.inr rfl
        | file _ | read _ _ _ | resume _ _ _ | rtcHandler => exact Or.inr (if_neg (Ne.symm active))

theorem holds_step (blocked : Blocked t fd buf count s e)
    (holds : ∀ keys, s.2 = some keys → Holds keys (s.1.terms t).line)
    (step : typingStep t s e = some s') (keys : List Key) (on : s'.2 = some keys) :
    Holds keys (s'.1.terms t).line := by
  obtain ⟨m', stepped, rfl⟩ := Option.map_eq_some_iff.1 step
  dsimp only at on ⊢
  split_ifs at on with took
  obtain ⟨before, since, rfl⟩ := Option.map_eq_some_iff.1 on
  have line := lines_step stepped t
  rw [(blocked_op blocked since).resolve_left took] at line
  rw [line]
  cases s.1.typed t e with
  | none =>
      rw [Option.toList_none, List.append_nil]
      exact holds before since
  | some k => exact (holds before since).key k

/-- The last round of the loop, for a buffer the line fits in. -/
theorem terminalPoll_line (buf : Nat → UInt8) (big : maxTerminal ≤ count)
    (fits : (m.terms m.activeTermId).length ≤ maxTerminal)
    (ended : (m.terms m.activeTermId).inProgress = false) : ∃ mid got,
      m.terminalPoll buf count =
        some (mid, .returned (m.terms m.activeTermId).length (some got)) ∧
      firsts got (m.terms m.activeTermId).length =
        firsts (m.terms m.activeTermId).content (m.terms m.activeTermId).length := by
  generalize same : m.terms m.activeTermId = line at fits ended ⊢
  have clipped : (if line.length < count then line.length else count) = line.length := by
    split_ifs <;> omega
  have small : line.length < 2 ^ 31 := lt_of_le_of_lt fits (by decide)
  unfold terminalPoll
  dsimp only
  rw [same, if_neg (by rw [ended]; exact Bool.false_ne_true), clipped, if_pos fits, i32_of_lt small]
  exact ⟨_, _, rfl, firsts_blit _ _ _⟩

/-- **One poll.** Once Enter is typed the reader gets what the keys have left in
the buffer. -/
theorem Polls.run (big : maxTerminal ≤ count) (polls : Polls t fd buf count s e keys)
    (holds : Holds keys (s.1.terms t).line) :
    if .enter ∈ keys then ∃ m' got, e.run s.1 =
        some (m', .reading (.returned (bufferedLine keys).length (some got))) ∧
      firsts got (bufferedLine keys).length = bufferedLine keys
    else ∃ m', e.run s.1 = some (m', .reading .waiting) := by
  obtain ⟨⟨ebp, rfl, frame, blocked⟩, rfl, since⟩ := polls
  obtain ⟨p, current, ops⟩ := Option.map_eq_some_iff.1 blocked
  have length : ((s.1.entered ebp).terms (s.1.entered ebp).activeTermId).length =
      (bufferedLine keys).length := holds.length
  have polled : ∀ {mid reading}, (s.1.entered ebp).terminalPoll buf count = some (mid, reading) →
      (s.1.entered ebp).resume fd (some buf) count = some (mid.advance p fd.toNat reading) := by
    intro mid reading polled
    rw [Machine.resume, current]
    simp only [Option.bind_eq_bind, Option.bind_some, opsPoll, ops, polled]
  split_ifs with ends
  · have ended : ((s.1.entered ebp).terms (s.1.entered ebp).activeTermId).inProgress = false :=
      holds.inProgress.trans (by simpa using ends)
    obtain ⟨mid, got, ran, spelled⟩ := terminalPoll_line buf big
      (le_of_eq_of_le length (bufferedLine_length keys)) ended
    rw [length] at ran spelled
    have resumed := polled ran
    rw [advance_moves (Int.natCast_nonneg _)] at resumed
    refine ⟨_, got, run_call.2 ⟨frame, Option.map_eq_some_iff.2 ⟨_, resumed, rfl⟩⟩, ?_⟩
    rw [spelled, ← length]
    exact holds.content
  · have waits : ((s.1.entered ebp).terms (s.1.entered ebp).activeTermId).inProgress = true :=
      holds.inProgress.trans (by simpa using ends)
    have ran : (s.1.entered ebp).terminalPoll buf count = some (s.1.entered ebp, .waiting) := by
      unfold terminalPoll
      dsimp only
      rw [if_pos waits]
    exact ⟨_, run_call.2 ⟨frame, Option.map_eq_some_iff.2 ⟨_, polled ran, rfl⟩⟩⟩

theorem delivers_iff_keeps (big : maxTerminal ≤ count)
    (holds : ∀ keys, s.2 = some keys → Holds keys (s.1.terms t).line) :
    DeliversLine t fd buf count s e ↔ KeepsLine t fd buf count s e := by
  refine forall_congr' fun keys => forall_congr' fun polls => ?_
  have ran := polls.run big (holds keys polls.since)
  split_ifs at ran ⊢ with ends
  · obtain ⟨m', got, ran, spelled⟩ := ran
    constructor
    · rintro ⟨m₁, got₁, ran₁, spelled₁⟩ _
      have same := Option.some.inj (ran.symm.trans ran₁)
      simp only [Prod.mk.injEq, Outcome.reading.injEq, Reading.returned.injEq, Nat.cast_inj,
        Option.some.injEq] at same
      obtain ⟨_, length, rfl⟩ := same
      rw [← spelled, ← spelled₁, length]
    · intro kept
      rw [← kept ends]
      exact ⟨m', got, ran, spelled⟩
  · exact iff_of_true ran fun ends' => absurd ends' ends

end

/-- **The line that is read, exactly.** A process starts to read the empty line of
its terminal into a buffer of at least `MAX_TERMINAL` bytes.  In every run in which
it makes no other call meanwhile, it gets the line edited up to the Enter that
released it if and only if, when it polls, the keys typed on its terminal have
left that line in the buffer. -/
theorem line_delivered_iff {m₀ m : Machine} {fd : Int} {buf : Nat → UInt8} {count : Nat}
    (big : maxTerminal ≤ count) (stdin : m₀.opsOf fd = some .stdin)
    (empty : (m₀.terms m₀.activeTermId).length = 0)
    (started : m₀.read fd (some buf) count = some (m, .waiting)) (run : List SystemEvent)
    (blocked : Every (typingStep m₀.activeTermId)
      (fun s e _ => Blocked m₀.activeTermId fd buf count s e) (m, some []) run) :
    Meets (typingStep m₀.activeTermId) (DeliversLine m₀.activeTermId fd buf count)
        (m, some []) run ↔
      Meets (typingStep m₀.activeTermId) (KeepsLine m₀.activeTermId fd buf count)
        (m, some []) run := by
  refine meets_congr_of (fun s => ∀ keys, s.2 = some keys →
    Holds keys (s.1.terms m₀.activeTermId).line) ?_ ?_ run _ ?_ blocked
  · exact fun s e holds => delivers_iff_keeps big holds
  · exact fun s e s' holds _ step blocked => holds_step blocked holds step
  · intro keys on
    obtain rfl := Option.some.inj on
    have op : m₀.driverOp (.read fd (some buf) count) = some .start :=
      if_pos ⟨stdin, by simp only [maxTerminal] at big; omega⟩
    have line := read_does started m₀.activeTermId
    rw [if_pos rfl, op] at line
    rw [line]
    refine ⟨?_, rfl⟩
    change firsts _ (m₀.terms m₀.activeTermId).length = []
    rw [empty]
    rfl

def tick (ebp : Nat) : SystemEvent := .call ebp (.kernel (.pitHandler fun _ => 0))

def press (ebp scancode : Nat) : SystemEvent := .call ebp (.kernel (.keyboardHandler scancode))

/-- The first shell waits for a line. -/
def shellReads : Machine :=
  (shells.entered 0x7FFF00).setTerm 0 { shells.terms 0 with inProgress := true }

theorem shell_reads : (shells.entered 0x7FFF00).read 0 (some fun _ => 0) 128 =
    some (shellReads, .waiting) := rfl

def pollsAgain : SystemEvent := .call 0x7FFE80 (.resume 0 (some fun _ => 0) 128)

/-- While the second shell runs, "a", Enter and "b" are typed on the first
terminal; two ticks later the first shell runs. -/
def typedAfterEnter : List SystemEvent :=
  [tick 0x7FFE00, press 0x7FDF00 0x1E, press 0x7FDF00 scEnter, press 0x7FDF00 0x30,
    tick 0x7FDF00, tick 0x7FBF00]

theorem typedAfterEnter_blocked : Every (typingStep 0)
    (fun s e _ => Blocked 0 0 (fun _ => 0) 128 s e) (shellReads, some [])
      (typedAfterEnter ++ [pollsAgain]) := by
  refine every_of_forall _ (fun e mem s s' _ _ _ ebp body same => ?_) _
  simp only [typedAfterEnter, List.cons_append, List.nil_append, List.mem_cons, List.not_mem_nil,
    or_false] at mem
  rcases mem with rfl | rfl | rfl | rfl | rfl | rfl | rfl
  all_goals cases same
  on_goal 7 => exact Or.inr (Or.inr rfl)
  all_goals exact Or.inl ⟨_, rfl⟩

def Outcome.value : Outcome → Option Int
  | .reading (.returned value _) => some value
  | _ => none

/-- The shell gets "ab", two characters. -/
theorem typed_after_enter :
    (shells.entered 0x7FFF00).read 0 (some fun _ => 0) 128 = some (shellReads, .waiting) ∧
      Every (typingStep 0) (fun s e _ => Blocked 0 0 (fun _ => 0) 128 s e) (shellReads, some [])
        (typedAfterEnter ++ [pollsAgain]) ∧
      ¬Meets (typingStep 0) (DeliversLine 0 0 (fun _ => 0) 128) (shellReads, some [])
        (typedAfterEnter ++ [pollsAgain]) := by
  refine ⟨shell_reads, typedAfterEnter_blocked, fun meets => ?_⟩
  have state : (after (typingStep 0) (shellReads, some []) typedAfterEnter).map (fun s =>
      (decide (s.1.Frame 0x7FFE80), (s.1.entered 0x7FFE80).blockedIn 0, s.1.activeTermId)) =
        some (true, some .stdin, 0) := by
    decide +kernel
  have result : (after (typingStep 0) (shellReads, some []) typedAfterEnter).map (fun s =>
      (s.2, (pollsAgain.run s.1).map fun r => r.2.value)) =
        some (some [.char 97, .enter, .char 98], some (some 2)) := by
    decide +kernel
  obtain ⟨s, reached, facts⟩ := Option.map_eq_some_iff.1 state
  rw [reached] at result
  obtain ⟨typed, returned⟩ := Prod.mk.inj (Option.some.inj result)
  simp only [Prod.mk.injEq, decide_eq_true_eq] at facts
  obtain ⟨frame, blocked, active⟩ := facts
  have delivers := meets_at _ _ s meets reached _ ⟨⟨_, rfl, frame, blocked⟩, active, typed⟩
  rw [if_pos (by decide)] at delivers
  obtain ⟨m', got, ran, _⟩ := delivers
  rw [ran] at returned
  exact absurd (Option.some.inj (Option.some.inj returned)) (by decide)

theorem typed_after_enter_iff : Meets (typingStep 0) (DeliversLine 0 0 (fun _ => 0) 128)
      (shellReads, some []) (typedAfterEnter ++ [pollsAgain]) ↔
    Meets (typingStep 0) (KeepsLine 0 0 (fun _ => 0) 128) (shellReads, some [])
      (typedAfterEnter ++ [pollsAgain]) :=
  line_delivered_iff (le_refl maxTerminal) (by decide +kernel) rfl shell_reads _
    typedAfterEnter_blocked

end Illinix.Kernel
