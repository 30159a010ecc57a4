/-
# Kernel.Rtc -- the RTC handler and the timing of its virtual clocks

Each of the processes 3, 4 and 5 has a clock of its own: `rtc_curr` counts the
interrupts down, `rtc_fired` says that it has come to the end, and the handler
leaves a clock alone while that is pending.  `rtc_read` drops a pending fire,
waits for the next and starts the count again.

`Pcb.rtcTick_iterate` is the clock after any number of interrupts.  The driver
runs with interrupts on, so its stores are steps of their own here; the whole
calls of `Kernel.Files` are these steps in a row (`rtcOpen_stores`,
`rtcRead_stores`, `rtcPoll_stores`).  An interrupt between taking a fire and
starting the count again leaves a new fire pending, and the clock stands until
the next read: `rtc_timing_iff` says that this is all that can go wrong.
-/
import Illinix.Kernel.Files
import Illinix.Theory.Run

namespace Illinix.Kernel

open Illinix.FileSys Illinix.Theory

set_option autoImplicit false

/-! ## rtc_handler -/

/-- What the handler does to one process. -/
def Pcb.rtcTick (pcb : Pcb) : Pcb :=
  if pcb.present ∧ pcb.rtc ∧ pcb.rtcFired = 0 then
    if pcb.rtcCurr ≤ 1 then { pcb with rtcFired := pcb.rtcFired + 1 }
    else { pcb with rtcCurr := pcb.rtcCurr - 1 }
  else pcb

def Machine.rtcTick (m : Machine) (p : Nat) : Machine := m.setPcb p (m.pcbs p).rtcTick

def Machine.rtcHandler (m : Machine) : Machine := ((m.rtcTick 3).rtcTick 4).rtcTick 5

/-- The handler's loop is over these processes. -/
def HasClock (p : Nat) : Prop := p = 3 ∨ p = 4 ∨ p = 5

instance (p : Nat) : Decidable (HasClock p) := inferInstanceAs (Decidable (_ ∨ _))

theorem rtcHandler_pcbs (m : Machine) {p : Nat} (clock : HasClock p) :
    m.rtcHandler.pcbs p = (m.pcbs p).rtcTick := by
  rcases clock with rfl | rfl | rfl <;> simp [Machine.rtcHandler, Machine.rtcTick, Machine.setPcb]

/-! ## A clock left alone -/

section

variable {pcb : Pcb}

theorem Pcb.rtcTick_pending (pending : pcb.rtcFired ≠ 0) : pcb.rtcTick = pcb := by
  simp [Pcb.rtcTick, pending]

/-- While a fire is pending, nothing moves. -/
theorem Pcb.rtcTick_frozen (pending : pcb.rtcFired ≠ 0) (k : Nat) : Pcb.rtcTick^[k] pcb = pcb :=
  Function.iterate_fixed (Pcb.rtcTick_pending pending) k

/-- **The clock after `k` interrupts**: still counting, or stopped with a fire
pending from interrupt `max rtc_curr 1` on. -/
theorem Pcb.rtcTick_iterate (present : pcb.present = true) (rtc : pcb.rtc = true)
    (running : pcb.rtcFired = 0) (k : Nat) :
    Pcb.rtcTick^[k] pcb = if k < max pcb.rtcCurr 1 then { pcb with rtcCurr := pcb.rtcCurr - k }
      else { pcb with rtcFired := 1, rtcCurr := min pcb.rtcCurr 1 } := by
  induction k with
  | zero => simp
  | succ k ih =>
      rw [Function.iterate_succ_apply', ih]
      by_cases counting : k < max pcb.rtcCurr 1
      · rw [if_pos counting]
        unfold Pcb.rtcTick
        rw [if_pos ⟨present, rtc, running⟩]
        dsimp only
        by_cases last : pcb.rtcCurr - k ≤ 1
        · rw [if_pos last, if_neg (by omega), running]
          congr 1
          omega
        · rw [if_neg last, if_pos (by omega)]
          congr 1
      · rw [if_neg counting, if_neg (by omega)]
        exact Pcb.rtcTick_pending Nat.one_ne_zero

/-- What the handler leaves alone. -/
theorem Pcb.rtcTick_kept (k : Nat) : (Pcb.rtcTick^[k] pcb).present = pcb.present ∧
    (Pcb.rtcTick^[k] pcb).rtc = pcb.rtc ∧ (Pcb.rtcTick^[k] pcb).rtcRate = pcb.rtcRate := by
  induction k with
  | zero => exact ⟨rfl, rfl, rfl⟩
  | succ k ih =>
      rw [Function.iterate_succ_apply']
      obtain ⟨present, rtc, rate⟩ := ih
      rw [← present, ← rtc, ← rate]
      unfold Pcb.rtcTick
      split_ifs
      · exact ⟨rfl, rfl, rfl⟩
      · exact ⟨rfl, rfl, rfl⟩
      · exact ⟨rfl, rfl, rfl⟩

/-- A clock that is counting, for a process that is there. -/
structure Counting (pcb : Pcb) (R : Nat) : Prop where
  present : pcb.present = true
  rtc : pcb.rtc = true
  curr : pcb.rtcCurr = R

theorem Counting.ticked {R : Nat} (counting : Counting pcb R) (running : pcb.rtcFired = 0)
    (k : Nat) : Pcb.rtcTick^[k] pcb = if k < max R 1 then { pcb with rtcCurr := R - k }
      else { pcb with rtcFired := 1, rtcCurr := min R 1 } := by
  rw [Pcb.rtcTick_iterate counting.present counting.rtc running, counting.curr]

theorem Counting.running {R : Nat} (counting : Counting pcb R) (running : pcb.rtcFired = 0)
    (k : Nat) : (Pcb.rtcTick^[k] pcb).rtcFired = 0 ↔ k < max R 1 := by
  rw [counting.ticked running]
  split_ifs with early
  · exact iff_of_true running early
  · exact iff_of_false (by simp) early

end

/-! ## What the driver's functions can do -/

/-- The frequency `rtc_write` takes from its buffer. -/
def validFreq (buf : Option (Nat → UInt8)) (count : Nat) : Option Int :=
  buf.bind fun buf =>
    let freq := i32 (leWord buf 0)
    if count = 4 ∧ rtcMinFreq ≤ freq ∧ freq ≤ rtcMaxFreq ∧ Machine.powerOfTwo freq then some freq else none

namespace Machine

variable {m m' : Machine} {buf : Option (Nat → UInt8)} {r : Reading} {v : Int}

theorem rtcOpen_some (opened : m.rtcOpen = some (m', v)) : ∃ p, m.getCurrentPcb = some p ∧ v = 0 ∧
    m' = m.setPcb p { m.pcbs p with rtc := true, rtcFired := 0, rtcCurr := 512, rtcRate := 512 } := by
  obtain ⟨p, current, opened⟩ := Option.bind_eq_some_iff.1 opened
  cases opened
  exact ⟨p, current, rfl, rfl⟩

theorem rtcClose_some (closed : m.rtcClose = some (m', v)) : ∃ p, m.getCurrentPcb = some p ∧ v = 0 ∧
    m' = m.setPcb p { m.pcbs p with rtc := false } := by
  obtain ⟨p, current, closed⟩ := Option.bind_eq_some_iff.1 closed
  cases closed
  exact ⟨p, current, rfl, rfl⟩

theorem rtcWrite_some {count : Nat} (wrote : m.rtcWrite buf count = some (m', v)) :
    (m' = m ∧ v = -1 ∧ (validFreq buf count = none ∨
      ∃ p, m.getCurrentPcb = some p ∧ (m.pcbs p).rtc = false)) ∨ ∃ p freq, m.getCurrentPcb = some p ∧ validFreq buf count = some freq ∧
      (m.pcbs p).rtc = true ∧ v = 0 ∧ m' = m.setPcb p
        { m.pcbs p with rtcCurr := (rtcMaxFreq / freq).toNat, rtcRate := (rtcMaxFreq / freq).toNat } := by
  cases buf with
  | none =>
      cases wrote
      exact Or.inl ⟨rfl, rfl, Or.inl rfl⟩
  | some buf =>
      simp only [rtcWrite] at wrote
      split_ifs at wrote with size range
      · cases wrote
        exact Or.inl ⟨rfl, rfl, Or.inl (if_neg fun valid => size valid.1)⟩
      · cases wrote
        refine Or.inl ⟨rfl, rfl, Or.inl (if_neg ?_)⟩
        rintro ⟨_, low, high, power⟩
        rcases range with below | above | odd
        · exact absurd below (Int.not_lt.2 low)
        · exact absurd above (Int.not_lt.2 high)
        · exact Bool.false_ne_true (odd.symm.trans power)
      obtain ⟨p, current, wrote⟩ := Option.bind_eq_some_iff.1 wrote
      split_ifs at wrote with off
      · cases wrote
        exact Or.inl ⟨rfl, rfl, Or.inr ⟨p, current, off⟩⟩
      · cases wrote
        simp only [not_or, Int.not_lt, Bool.not_eq_false] at range
        have valid : validFreq (some buf) count = some (i32 (leWord buf 0)) :=
          if_pos ⟨not_not.1 size, range⟩
        exact Or.inr ⟨p, _, current, valid, by simpa using off, rfl, rfl⟩

/-- One round of the loop: the flag is off, a fire is taken, or it goes on. -/
theorem rtcPoll_some (polled : m.rtcPoll buf = some (m', r)) : ∃ p, m.getCurrentPcb = some p ∧
    (((m.pcbs p).rtc = false ∧ m' = m ∧ r = .returned (-1) buf) ∨
      ((m.pcbs p).rtc = true ∧ 0 < (m.pcbs p).rtcFired ∧ r = .returned 0 buf ∧ m' = m.setPcb p
        { m.pcbs p with rtcFired := (m.pcbs p).rtcFired - 1, rtcCurr := (m.pcbs p).rtcRate }) ∨
      ((m.pcbs p).rtc = true ∧ (m.pcbs p).rtcFired = 0 ∧ m' = m ∧ r = .waiting)) := by
  obtain ⟨p, current, polled⟩ := Option.bind_eq_some_iff.1 polled
  refine ⟨p, current, ?_⟩
  dsimp only at polled
  split_ifs at polled with off fired
  · cases polled
    exact Or.inl ⟨off, rfl, rfl⟩
  · cases polled
    exact Or.inr (Or.inl ⟨by simpa using off, fired, rfl, rfl⟩)
  · cases polled
    exact Or.inr (Or.inr ⟨by simpa using off, by omega, rfl, rfl⟩)

/-- `rtc_read` drops a pending fire, and its first test finds none. -/
theorem rtcRead_some (started : m.rtcRead buf = some (m', r)) : ∃ p, m.getCurrentPcb = some p ∧
    m' = m.setPcb p { m.pcbs p with rtcFired := 0 } ∧
      r = if (m.pcbs p).rtc then .waiting else .returned (-1) buf := by
  obtain ⟨p, current, started⟩ := Option.bind_eq_some_iff.1 started
  obtain ⟨q, current', ended⟩ := rtcPoll_some started
  obtain rfl : p = q := Option.some.inj (current.symm.trans current')
  refine ⟨p, current, ?_⟩
  rw [setPcb_same] at ended
  dsimp only at ended
  rcases ended with ⟨off, rfl, rfl⟩ | ⟨_, fired, _⟩ | ⟨on, _, rfl, rfl⟩
  · exact ⟨rfl, by simp [off]⟩
  · exact absurd fired (Nat.lt_irrefl 0)
  · exact ⟨rfl, by simp [on]⟩

end Machine

/-! ## The driver, store by store -/

/-- What a round of the loop of `rtc_read` finds: the clock off, a fire, which it
takes, or neither. -/
inductive Round where
  | off
  | taken
  | again

namespace Machine

/-- A store to the PCB of the current process. -/
def storePcb (m : Machine) (store : Pcb → Pcb) : Option Machine := do
  let curr ← m.getCurrentPcb
  some (m.setPcb curr (store (m.pcbs curr)))

/-- `rtc = 1`, in `rtc_open`. -/
def rtcEnable (m : Machine) : Option Machine := m.storePcb fun pcb => { pcb with rtc := true }

/-- `rtc_fired = 0`, in `rtc_open` and at the start of `rtc_read`. -/
def rtcDrop (m : Machine) : Option Machine := m.storePcb fun pcb => { pcb with rtcFired := 0 }

/-- `rtc_curr = rtc_rate = rate`, in `rtc_open` and `rtc_write`.  The handler does
not look at `rtc_rate`, so an interrupt between these two is one before both. -/
def rtcSetRate (m : Machine) (rate : Nat) : Option Machine :=
  m.storePcb fun pcb => { pcb with rtcCurr := rate, rtcRate := rate }

/-- `rtc_curr = rtc_rate`, before `rtc_read` returns. -/
def rtcReload (m : Machine) : Option Machine :=
  m.storePcb fun pcb => { pcb with rtcCurr := pcb.rtcRate }

/-- A round of the loop of `rtc_read`, up to `--rtc_fired`. -/
def rtcRound (m : Machine) : Option (Machine × Round) := do
  let curr ← m.getCurrentPcb
  let pcb := m.pcbs curr
  if pcb.rtc = false then some (m, .off)
  else if 0 < pcb.rtcFired then
    some (m.setPcb curr { pcb with rtcFired := pcb.rtcFired - 1 }, .taken)
  else some (m, .again)

/-- What follows a round. -/
def rtcFinish (m : Machine) (buf : Option (Nat → UInt8)) : Round → Option (Machine × Reading)
  | .off => some (m, .returned (-1) buf)
  | .taken => m.rtcReload.map fun m => (m, .returned 0 buf)
  | .again => some (m, .waiting)

variable {m m' : Machine} {p : Nat}

theorem storePcb_current (own : m.getCurrentPcb = some p) (store : Pcb → Pcb) :
    m.storePcb store = some (m.setPcb p (store (m.pcbs p))) := by
  simp only [storePcb, own, Option.bind_eq_bind, Option.bind_some]

theorem setPcb_setPcb (m : Machine) (p : Nat) (pcb pcb' : Pcb) :
    (m.setPcb p pcb).setPcb p pcb' = m.setPcb p pcb' := by
  simp [setPcb]

theorem storePcb_storePcb (store store' : Pcb → Pcb) :
    ((m.storePcb store).bind fun m => m.storePcb store') = m.storePcb fun pcb => store' (store pcb) := by
  cases own : m.getCurrentPcb with
  | none => simp [storePcb, own]
  | some p =>
      have own' : (m.setPcb p (store (m.pcbs p))).getCurrentPcb = some p := own
      rw [storePcb_current own, Option.bind_some, storePcb_current own', storePcb_current own,
        setPcb_same, setPcb_setPcb]

/-- `rtc_open` is its three stores in a row. -/
theorem rtcOpen_stores (m : Machine) :
    m.rtcOpen = (((m.rtcEnable.bind rtcDrop).bind fun m => m.rtcSetRate 512).map fun m => (m, 0)) := by
  have stores : ((m.rtcEnable.bind rtcDrop).bind fun m => m.rtcSetRate 512) =
      m.storePcb fun pcb => { pcb with rtc := true, rtcFired := 0, rtcCurr := 512, rtcRate := 512 } := by
    rw [rtcEnable, show rtcDrop = fun m => m.storePcb fun pcb => { pcb with rtcFired := 0 } from rfl,
      storePcb_storePcb]
    exact storePcb_storePcb _ _
  rw [stores]
  cases own : m.getCurrentPcb with
  | none => simp [rtcOpen, storePcb, own]
  | some p =>
      rw [storePcb_current own]
      simp only [rtcOpen, own, Option.bind_eq_bind, Option.bind_some, Option.map_some]
      rfl

/-- `rtc_read` drops a pending fire and goes into its loop. -/
theorem rtcRead_stores (m : Machine) (buf : Option (Nat → UInt8)) :
    m.rtcRead buf = m.rtcDrop.bind fun m => m.rtcPoll buf := by
  cases own : m.getCurrentPcb with
  | none => simp [rtcRead, rtcDrop, storePcb, own]
  | some p =>
      rw [rtcDrop, storePcb_current own]
      simp only [rtcRead, own, Option.bind_eq_bind, Option.bind_some]

/-- A round of the loop and what follows, with nothing in between. -/
theorem rtcPoll_stores (m : Machine) (buf : Option (Nat → UInt8)) :
    m.rtcPoll buf = m.rtcRound.bind fun r => r.1.rtcFinish buf r.2 := by
  cases own : m.getCurrentPcb with
  | none => simp [rtcPoll, rtcRound, own]
  | some p =>
      simp only [rtcPoll, rtcRound, own, Option.bind_eq_bind, Option.bind_some]
      split_ifs with off fired
      · rfl
      · have own' : (m.setPcb p { m.pcbs p with rtcFired := (m.pcbs p).rtcFired - 1 }).getCurrentPcb =
            some p := own
        simp only [Option.bind_some, rtcFinish, rtcReload, storePcb_current own', Option.map_some,
          setPcb_same, setPcb_setPcb]
      · rfl

theorem storePcb_some {store : Pcb → Pcb} (stored : m.storePcb store = some m') :
    ∃ q, m.getCurrentPcb = some q ∧ m' = m.setPcb q (store (m.pcbs q)) := by
  obtain ⟨q, current, same⟩ := Option.bind_eq_some_iff.1 stored
  exact ⟨q, current, (Option.some.inj same).symm⟩

theorem rtcRound_some {found : Round} (ran : m.rtcRound = some (m', found)) :
    ∃ q, m.getCurrentPcb = some q ∧
      (((m.pcbs q).rtc = false ∧ m' = m ∧ found = .off) ∨
        ((m.pcbs q).rtc = true ∧ 0 < (m.pcbs q).rtcFired ∧ found = .taken ∧
          m' = m.setPcb q { m.pcbs q with rtcFired := (m.pcbs q).rtcFired - 1 }) ∨
        ((m.pcbs q).rtc = true ∧ (m.pcbs q).rtcFired = 0 ∧ m' = m ∧ found = .again)) := by
  obtain ⟨q, current, ran⟩ := Option.bind_eq_some_iff.1 ran
  refine ⟨q, current, ?_⟩
  dsimp only at ran
  split_ifs at ran with off fired
  · cases ran
    exact Or.inl ⟨off, rfl, rfl⟩
  · cases ran
    exact Or.inr (Or.inl ⟨by simpa using off, fired, rfl, rfl⟩)
  · cases ran
    exact Or.inr (Or.inr ⟨by simpa using off, by omega, rfl, rfl⟩)

/-- A round takes a fire if one is pending. -/
theorem rtcRound_taken (own : m.getCurrentPcb = some p) (rtc : (m.pcbs p).rtc = true) :
    ∃ m' found, m.rtcRound = some (m', found) ∧ found ≠ .off ∧
      (found = .taken ↔ 0 < (m.pcbs p).rtcFired) := by
  obtain ⟨m', found, ran⟩ : ∃ m' found, m.rtcRound = some (m', found) := by
    unfold rtcRound
    rw [own, Option.bind_eq_bind, Option.bind_some]
    dsimp only
    split_ifs <;> exact ⟨_, _, rfl⟩
  refine ⟨m', found, ran, ?_⟩
  obtain ⟨q, current, ended⟩ := rtcRound_some ran
  obtain rfl : p = q := Option.some.inj (own.symm.trans current)
  rcases ended with ⟨off, _⟩ | ⟨_, fired, rfl, _⟩ | ⟨_, none', _, rfl⟩
  · rw [rtc] at off
    cases off
  · exact ⟨nofun, iff_of_true rfl fired⟩
  · exact ⟨nofun, iff_of_false nofun (by omega)⟩

end Machine

/-! ## Runs of the driver -/

/-- A step of the driver: a store of `rtc_open` or `rtc_read`, a round of the loop
of `rtc_read`, or an `rtc_write`, whose one assignment is its last step. -/
inductive RtcCall where
  | enable
  | drop
  | set
  | round
  | reload
  | write (buf : Option (Nat → UInt8)) (count : Nat)

def RtcCall.run (m : Machine) : RtcCall → Option Machine
  | .enable => m.rtcEnable
  | .drop => m.rtcDrop
  | .set => m.rtcSetRate (rtcMaxFreq / rtcMinFreq).toNat
  | .round => m.rtcRound.map Prod.fst
  | .reload => m.rtcReload
  | .write buf count => (m.rtcWrite buf count).map Prod.fst

/-- An interrupt of the RTC, or a step of the driver on the kernel stack that
holds `esp`. -/
inductive RtcEvent where
  | interrupt
  | call (esp : Nat) (call : RtcCall)

def rtcStep (m : Machine) : RtcEvent → Option Machine
  | .interrupt => some m.rtcHandler
  | .call esp call => call.run { m with esp := esp }

/-- The event is a step of process `p`. -/
def RtcEvent.By (p : Nat) (m : Machine) : RtcEvent → Prop
  | .interrupt => False
  | .call esp _ => ({ m with esp := esp } : Machine).getCurrentPcb = some p

/-- The interrupts among the events. -/
def interrupts : List RtcEvent → Nat
  | [] => 0
  | .interrupt :: rest => interrupts rest + 1
  | .call _ _ :: rest => interrupts rest

theorem interrupts_append (run run' : List RtcEvent) :
    interrupts (run ++ run') = interrupts run + interrupts run' := by
  induction run with
  | nil => simp [interrupts]
  | cons e rest ih =>
      cases e with
      | interrupt => simp only [List.cons_append, interrupts, ih]; omega
      | call esp call => simpa only [List.cons_append, interrupts] using ih

theorem interrupts_replicate (k : Nat) : interrupts (List.replicate k .interrupt) = k := by
  induction k with
  | zero => rfl
  | succ k ih => rw [List.replicate_succ, interrupts, ih]

/-- Process `p` takes the step. -/
def Does (p : Nat) (m : Machine) (call : RtcCall) (m' : Machine) : Prop :=
  ∃ esp, ({ m with esp := esp } : Machine).getCurrentPcb = some p ∧
    call.run { m with esp := esp } = some m'

/-- Process `p` takes a round of the loop of `rtc_read`. -/
def Finds (p : Nat) (m : Machine) (found : Round) (m' : Machine) : Prop :=
  ∃ esp, ({ m with esp := esp } : Machine).getCurrentPcb = some p ∧
    ({ m with esp := esp } : Machine).rtcRound = some (m', found)

/-- Process `p` does nothing. -/
def Rests (p : Nat) (m : Machine) (e : RtcEvent) : Prop := ¬e.By p m

/-- Process `p` is in the loop of `rtc_read`: all it does is one more round. -/
def Spins (p : Nat) (m : Machine) (e : RtcEvent) : Prop :=
  e.By p m → ∃ esp m', e = .call esp .round ∧
    ({ m with esp := esp } : Machine).rtcRound = some (m', .again)

/-- The run leads from `m` to `m'`, and process `p` spins in it. -/
structure Spinning (p : Nat) (m : Machine) (run : List RtcEvent) (m' : Machine) : Prop where
  spins : Meets rtcStep (Spins p) m run
  reached : after rtcStep m run = some m'

/-- The run leads from `m` to `m'`, and process `p` rests in it. -/
structure Resting (p : Nat) (m : Machine) (run : List RtcEvent) (m' : Machine) : Prop where
  rests : Meets rtcStep (Rests p) m run
  reached : after rtcStep m run = some m'

theorem Resting.spinning {p : Nat} {m m' : Machine} {run : List RtcEvent}
    (resting : Resting p m run m') : Spinning p m run m' :=
  ⟨meets_mono (fun _ _ rests own => absurd own rests) run m resting.rests, resting.reached⟩

/-! ## One step -/

section

variable {m m' : Machine} {p : Nat}

/-- **No step of the driver changes the clock of another process.** -/
theorem rtcCall_others {call : RtcCall} (other : m.getCurrentPcb ≠ some p)
    (ran : call.run m = some m') : m'.pcbs p = m.pcbs p := by
  have apart : ∀ {q : Nat} {pcb : Pcb}, m.getCurrentPcb = some q →
      (m.setPcb q pcb).pcbs p = m.pcbs p := by
    intro q pcb current
    exact setPcb_other m pcb fun same => other (same ▸ current)
  cases call with
  | enable | drop | set | reload =>
      simp only [RtcCall.run, Machine.rtcEnable, Machine.rtcDrop, Machine.rtcSetRate,
        Machine.rtcReload] at ran
      obtain ⟨q, current, rfl⟩ := Machine.storePcb_some ran
      exact apart current
  | round =>
      obtain ⟨⟨mid, found⟩, found', same⟩ := Option.map_eq_some_iff.1 ran
      obtain rfl : mid = m' := same
      obtain ⟨q, current, ⟨_, rfl, _⟩ | ⟨_, _, _, rfl⟩ | ⟨_, _, rfl, _⟩⟩ :=
        Machine.rtcRound_some found'
      · rfl
      · exact apart current
      · rfl
  | write buf count =>
      obtain ⟨⟨mid, v⟩, wrote, same⟩ := Option.map_eq_some_iff.1 ran
      cases same
      rcases Machine.rtcWrite_some wrote with ⟨rfl, _⟩ | ⟨q, freq, current, _, _, _, rfl⟩
      · rfl
      · exact apart current

/-- What a step does to the clock of a process that rests or spins. -/
theorem rtcStep_pcbs {e : RtcEvent} (clock : HasClock p) (spins : Spins p m e)
    (step : rtcStep m e = some m') :
    m'.pcbs p = Pcb.rtcTick^[interrupts [e]] (m.pcbs p) := by
  cases e with
  | interrupt =>
      obtain rfl := Option.some.inj step
      exact rtcHandler_pcbs m clock
  | call esp call =>
      by_cases own : ({ m with esp := esp } : Machine).getCurrentPcb = some p
      · obtain ⟨esp', m₁, shape, waits⟩ := spins own
        obtain ⟨rfl, rfl⟩ := RtcEvent.call.inj shape
        obtain ⟨⟨mid, found⟩, ran, same⟩ := Option.map_eq_some_iff.1 step
        obtain rfl : mid = m' := same
        obtain ⟨rfl, rfl⟩ := Prod.mk.inj (Option.some.inj (waits.symm.trans ran))
        obtain ⟨q, _, ⟨_, _, wrong⟩ | ⟨_, _, wrong, _⟩ | ⟨_, _, rfl, _⟩⟩ := Machine.rtcRound_some waits
        · exact nomatch wrong
        · exact nomatch wrong
        · rfl
      · exact rtcCall_others (m := { m with esp := esp }) own step

theorem pcbs_after (clock : HasClock p) (run : List RtcEvent) : ∀ {m m' : Machine},
    Spinning p m run m' → m'.pcbs p = Pcb.rtcTick^[interrupts run] (m.pcbs p) := by
  induction run with
  | nil =>
      rintro m m' ⟨_, reached⟩
      obtain rfl := Option.some.inj reached
      rfl
  | cons e rest ih =>
      rintro m m' ⟨spins, reached⟩
      obtain ⟨mid, stepped, later⟩ := Option.bind_eq_some_iff.1 reached
      have split : interrupts (e :: rest) = interrupts rest + interrupts [e] := by
        rw [Nat.add_comm, ← interrupts_append]
        rfl
      rw [ih ⟨spins.2 mid stepped, later⟩, rtcStep_pcbs clock spins.1 stepped, split,
        Function.iterate_add_apply]

/-- What a store of process `p` does to its PCB. -/
theorem stored_pcbs (store : Pcb → Pcb) {esp : Nat}
    (own : ({ m with esp := esp } : Machine).getCurrentPcb = some p)
    (ran : ({ m with esp := esp } : Machine).storePcb store = some m') :
    m'.pcbs p = store (m.pcbs p) := by
  rw [Machine.storePcb_current own] at ran
  obtain rfl := Option.some.inj ran
  exact setPcb_same ..

theorem Does.enable (does : Does p m .enable m') : m'.pcbs p = { m.pcbs p with rtc := true } := by
  obtain ⟨esp, own, ran⟩ := does
  exact stored_pcbs (fun pcb => { pcb with rtc := true }) own ran

theorem Does.drop (does : Does p m .drop m') : m'.pcbs p = { m.pcbs p with rtcFired := 0 } := by
  obtain ⟨esp, own, ran⟩ := does
  exact stored_pcbs (fun pcb => { pcb with rtcFired := 0 }) own ran

theorem Does.set (does : Does p m .set m') :
    m'.pcbs p = { m.pcbs p with rtcCurr := 512, rtcRate := 512 } := by
  obtain ⟨esp, own, ran⟩ := does
  exact stored_pcbs (fun pcb => { pcb with rtcCurr := 512, rtcRate := 512 }) own ran

theorem Does.reload (does : Does p m .reload m') :
    m'.pcbs p = { m.pcbs p with rtcCurr := (m.pcbs p).rtcRate } := by
  obtain ⟨esp, own, ran⟩ := does
  exact stored_pcbs (fun pcb => { pcb with rtcCurr := pcb.rtcRate }) own ran

theorem Finds.taken (finds : Finds p m .taken m') : (m.pcbs p).rtc = true ∧
    0 < (m.pcbs p).rtcFired ∧ m'.pcbs p = { m.pcbs p with rtcFired := (m.pcbs p).rtcFired - 1 } := by
  obtain ⟨esp, own, ran⟩ := finds
  obtain ⟨q, current, ⟨_, _, wrong⟩ | ⟨on, fired, _, rfl⟩ | ⟨_, _, _, wrong⟩⟩ :=
    Machine.rtcRound_some ran
  · exact nomatch wrong
  · obtain rfl : p = q := Option.some.inj (own.symm.trans current)
    exact ⟨on, fired, setPcb_same ..⟩
  · exact nomatch wrong

end

/-! ## Timing -/

/-- `rtc_open`, or a whole `rtc_read` that has returned, of process `p` set its
counter to `R` and took the machine from `m` to `m'`.  `gap` interrupts came
between the store that left no fire pending and the store of the counter, and
`limit` of them are enough for a new fire. -/
inductive Restarts (p : Nat) : (R gap limit : Nat) → (m m' : Machine) → Prop where
  | opened {m m₁ m₂ m₃ m₄ m' : Machine} {early mid : List RtcEvent}
      (enabled : Does p m .enable m₁) (waited : Resting p m₁ early m₂)
      (dropped : Does p m₂ .drop m₃) (paused : Resting p m₃ mid m₄) (set : Does p m₄ .set m') :
      Restarts p 512 (interrupts mid) (max (m₂.pcbs p).rtcCurr 1) m m'
  | returned {m m₁ m₂ m₃ m₄ m' : Machine} {run mid : List RtcEvent}
      (dropped : Does p m .drop m₁) (waited : Spinning p m₁ run m₂) (taken : Finds p m₂ .taken m₃)
      (paused : Resting p m₃ mid m₄) (reloaded : Does p m₄ .reload m') :
      Restarts p (m.pcbs p).rtcRate (interrupts mid) 1 m m'

/-- `rtc_write` of process `p` took a valid frequency, and set its counter to `R`. -/
structure Rewrites (p R : Nat) (m m' : Machine) : Prop where
  own : m.getCurrentPcb = some p
  ran : ∃ buf count freq, m.rtcWrite buf count = some (m', 0) ∧ validFreq buf count = some freq ∧
    R = (rtcMaxFreq / freq).toNat

/-- Process `p` rests through `pre`, issues `rtc_read` and spins through `post`. -/
def ReadRun (p : Nat) (m : Machine) (pre post : List RtcEvent) (n : Machine) : Prop :=
  ∃ m₁ m₂, Resting p m pre m₁ ∧ Does p m₁ .drop m₂ ∧ Spinning p m₂ post n

/-- The next `rtc_read` returns only after `R` interrupts. -/
def AtLeast (p R : Nat) (m : Machine) : Prop :=
  ∀ pre post n n', ReadRun p m pre post n → Finds p n .taken n' → R ≤ interrupts (pre ++ post)

/-- The next `rtc_read` returns from interrupt `R` on, or from the first one after
it was issued if `R` of them came before that: a round of its loop takes a fire
exactly then. -/
def Exactly (p R : Nat) (m : Machine) : Prop :=
  ∀ pre post n esp, ReadRun p m pre post n → ({ n with esp := esp } : Machine).getCurrentPcb = some p →
    ∃ n' found, ({ n with esp := esp } : Machine).rtcRound = some (n', found) ∧ found ≠ .off ∧
      (found = .taken ↔ max R (interrupts pre + 1) ≤ interrupts (pre ++ post))

section

variable {m m' : Machine} {p R gap limit : Nat}

/-- What no run changes in which the process rests or spins. -/
theorem kept_after {run : List RtcEvent} (clock : HasClock p) (spinning : Spinning p m run m') :
    (m'.pcbs p).present = (m.pcbs p).present ∧ (m'.pcbs p).rtc = (m.pcbs p).rtc ∧
      (m'.pcbs p).rtcRate = (m.pcbs p).rtcRate := by
  rw [pcbs_after clock run spinning]
  exact Pcb.rtcTick_kept _

theorem Counting.after {run : List RtcEvent} (counting : Counting (m.pcbs p) R) (clock : HasClock p)
    (running : (m.pcbs p).rtcFired = 0) (spinning : Spinning p m run m') :
    (m'.pcbs p).rtcFired = 0 ↔ interrupts run < max R 1 := by
  rw [pcbs_after clock run spinning]
  exact counting.running running _

/-- The counter is set, and a fire is pending if the gap was long enough. -/
theorem restarts_pcb (clock : HasClock p) (present : (m.pcbs p).present = true)
    (restarts : Restarts p R gap limit m m') :
    Counting (m'.pcbs p) R ∧ ((m'.pcbs p).rtcFired = 0 ↔ gap < limit) := by
  cases restarts with
  | @opened _ m₁ m₂ m₃ m₄ _ early mid enabled waited dropped paused set =>
      obtain ⟨there, rtc, _⟩ := kept_after clock waited.spinning
      rw [enabled.enable] at there rtc
      have counting : Counting (m₃.pcbs p) (m₂.pcbs p).rtcCurr := by
        rw [dropped.drop]
        exact ⟨there.trans present, rtc, rfl⟩
      have running := counting.after clock (by rw [dropped.drop]) paused.spinning
      obtain ⟨there', rtc', _⟩ := kept_after clock paused.spinning
      rw [set.set]
      exact ⟨⟨there'.trans counting.present, rtc'.trans counting.rtc, rfl⟩, running⟩
  | @returned _ m₁ m₂ m₃ m₄ _ run mid dropped waited taken paused reloaded =>
      obtain ⟨on, fired, took⟩ := taken.taken
      obtain ⟨there, rtc, rate⟩ := kept_after clock waited
      rw [dropped.drop] at there rtc rate
      -- the fire came from counting down, so one is left of the count, or none
      have started : Counting (m₁.pcbs p) (m.pcbs p).rtcCurr := by
        rw [dropped.drop]
        exact ⟨present, rtc.symm.trans on, rfl⟩
      have stopped : (m₂.pcbs p).rtcFired = 1 ∧ (m₂.pcbs p).rtcCurr ≤ 1 := by
        have spun := pcbs_after clock run waited
        rw [started.ticked (by rw [dropped.drop])] at spun
        split_ifs at spun
        · rw [spun, dropped.drop] at fired
          exact absurd fired (Nat.lt_irrefl 0)
        · rw [spun]
          exact ⟨rfl, Nat.min_le_right _ _⟩
      have counting : Counting (m₃.pcbs p) (m₂.pcbs p).rtcCurr := by
        rw [took]
        exact ⟨there.trans present, on, rfl⟩
      have running := counting.after clock (by rw [took, stopped.1]) paused.spinning
      rw [Nat.max_eq_right stopped.2] at running
      obtain ⟨there', rtc', rate'⟩ := kept_after clock paused.spinning
      rw [took] at rate'
      rw [reloaded.reload]
      exact ⟨⟨there'.trans counting.present, rtc'.trans counting.rtc, rate'.trans rate⟩, running⟩

theorem rewrites_counting (present : (m.pcbs p).present = true) (rewrites : Rewrites p R m m') :
    Counting (m'.pcbs p) R := by
  obtain ⟨own, buf, count, freq, wrote, valid, rfl⟩ := rewrites
  rcases Machine.rtcWrite_some wrote with ⟨_, wrong, _⟩ | ⟨q, freq', current, valid', rtc, _, rfl⟩
  · simp at wrong
  · obtain rfl : p = q := Option.some.inj (own.symm.trans current)
    obtain rfl : freq = freq' := Option.some.inj (valid.symm.trans valid')
    rw [setPcb_same]
    exact ⟨present, rtc, rfl⟩

/-- The counter of a process that rests, after `k` interrupts. -/
def remaining (R k : Nat) : Nat := if k < max R 1 then R - k else min R 1

/-- What the counter stands at when a read is issued after `k` interrupts: with a
fire pending it has not moved. -/
def leftOver (pcb : Pcb) (R k : Nat) : Nat := if pcb.rtcFired = 0 then remaining R k else R

theorem rests_counting {run : List RtcEvent} (clock : HasClock p) (counting : Counting (m.pcbs p) R)
    (resting : Resting p m run m') :
    Counting (m'.pcbs p) (leftOver (m.pcbs p) R (interrupts run)) := by
  rw [pcbs_after clock run resting.spinning]
  simp only [leftOver, remaining]
  by_cases running : (m.pcbs p).rtcFired = 0
  · rw [counting.ticked running, if_pos running]
    split_ifs
    · exact ⟨counting.present, counting.rtc, rfl⟩
    · exact ⟨counting.present, counting.rtc, rfl⟩
  · rw [Pcb.rtcTick_frozen running, if_neg running]
    exact counting

/-- A round of the loop takes a fire once the count that was left is over. -/
theorem reads_taken {n : Machine} {pre post : List RtcEvent} {esp : Nat} (clock : HasClock p)
    (counting : Counting (m.pcbs p) R) (reads : ReadRun p m pre post n)
    (own : ({ n with esp := esp } : Machine).getCurrentPcb = some p) :
    ∃ n' found, ({ n with esp := esp } : Machine).rtcRound = some (n', found) ∧ found ≠ .off ∧
      (found = .taken ↔ max (leftOver (m.pcbs p) R (interrupts pre)) 1 ≤ interrupts post) := by
  obtain ⟨m₁, m₂, resting, dropped, spinning⟩ := reads
  have counting₁ := rests_counting clock counting resting
  have counting₂ : Counting (m₂.pcbs p) (leftOver (m.pcbs p) R (interrupts pre)) := by
    rw [dropped.drop]
    exact ⟨counting₁.present, counting₁.rtc, counting₁.curr⟩
  have fired := counting₂.after clock (by rw [dropped.drop]) spinning
  obtain ⟨_, rtc, _⟩ := kept_after clock spinning
  obtain ⟨n', found, ran, on, taken⟩ := Machine.rtcRound_taken own (rtc.trans counting₂.rtc)
  refine ⟨n', found, ran, on, taken.trans ?_⟩
  dsimp only
  omega

theorem atLeast_of_counting (clock : HasClock p) (counting : Counting (m.pcbs p) R) :
    AtLeast p R m := by
  rintro pre post n n' reads ⟨esp, own, ran⟩
  obtain ⟨_, found, ran', _, taken⟩ := reads_taken clock counting reads own
  obtain ⟨rfl, rfl⟩ := Prod.mk.inj (Option.some.inj (ran.symm.trans ran'))
  have enough := taken.1 rfl
  rw [interrupts_append]
  simp only [leftOver, remaining] at enough
  split_ifs at enough <;> omega

/-- With no fire pending the next read is on time. -/
theorem exactly_of_running (clock : HasClock p) (counting : Counting (m.pcbs p) R)
    (running : (m.pcbs p).rtcFired = 0) : Exactly p R m := by
  intro pre post n esp reads own
  obtain ⟨n', found, ran, on, taken⟩ := reads_taken clock counting reads own
  refine ⟨n', found, ran, on, taken.trans ?_⟩
  rw [interrupts_append, leftOver, if_pos running]
  simp only [remaining]
  split_ifs <;> omega

theorem resting_interrupts (p k : Nat) (m : Machine) :
    ∃ m', Resting p m (List.replicate k .interrupt) m' := by
  induction k generalizing m with
  | zero => exact ⟨m, trivial, rfl⟩
  | succ k ih =>
      obtain ⟨m', rests, reached⟩ := ih m.rtcHandler
      refine ⟨m', ⟨fun own => own, fun t stepped => ?_⟩, reached⟩
      obtain rfl := Option.some.inj stepped
      exact rests

/-- With a fire pending the clock stands: a read issued one interrupt later takes
`R` more. -/
theorem exactly_of_pending {esp : Nat} (clock : HasClock p) (counting : Counting (m.pcbs p) R)
    (pending : (m.pcbs p).rtcFired ≠ 0)
    (own : ({ m with esp := esp } : Machine).getCurrentPcb = some p) :
    Exactly p R m ↔ R ≤ 1 := by
  have on : ∀ n : Machine, ({ n with esp := esp } : Machine).getCurrentPcb = some p := fun n =>
    (getCurrentPcb_congr rfl).trans own
  constructor
  · intro exact'
    by_contra long
    obtain ⟨m₁, resting⟩ := resting_interrupts p 1 m
    have dropped := Machine.storePcb_current (on m₁) fun pcb => { pcb with rtcFired := 0 }
    obtain ⟨n, spinning⟩ := resting_interrupts p (R - 1)
      (({ m₁ with esp := esp } : Machine).setPcb p { m₁.pcbs p with rtcFired := 0 })
    have reads : ReadRun p m (List.replicate 1 .interrupt) (List.replicate (R - 1) .interrupt) n :=
      ⟨m₁, _, resting, ⟨esp, on m₁, dropped⟩, spinning.spinning⟩
    obtain ⟨_, found, ran, _, due⟩ := exact' _ _ n esp reads (on n)
    obtain ⟨_, found', ran', _, taken⟩ := reads_taken clock counting reads (on n)
    obtain ⟨_, rfl⟩ := Prod.mk.inj (Option.some.inj (ran.symm.trans ran'))
    rw [interrupts_append, interrupts_replicate, interrupts_replicate] at due
    rw [leftOver, if_neg pending, interrupts_replicate] at taken
    have early := taken.1 (due.2 (by omega))
    omega
  · intro short pre post n esp' reads own'
    obtain ⟨n', found, ran, on, taken⟩ := reads_taken clock counting reads own'
    refine ⟨n', found, ran, on, taken.trans ?_⟩
    rw [interrupts_append, leftOver, if_neg pending]
    omega

end

/-- The stack process `p` was on when it set its counter. -/
theorem restarts_own {p R gap limit : Nat} {m m' : Machine} (restarts : Restarts p R gap limit m m') :
    ∃ esp, ({ m' with esp := esp } : Machine).getCurrentPcb = some p := by
  cases restarts with
  | opened _ _ _ _ set =>
      obtain ⟨esp, own, _⟩ := set
      exact ⟨esp, (getCurrentPcb_congr rfl).trans own⟩
  | returned _ _ _ _ reloaded =>
      obtain ⟨esp, own, _⟩ := reloaded
      exact ⟨esp, (getCurrentPcb_congr rfl).trans own⟩

/-- **Virtual RTC timing, exactly.** After `rtc_open` or a returned `rtc_read` of
process `p` sets its counter to `R`, its next `rtc_read` is on time, however
interrupts and the other processes' calls come, if and only if fewer interrupts
than make a new fire come between the store that left none pending and the store
of the counter, or `R` is 1.  After `rtc_write` it returns only after `R`
interrupts.  And no step of the driver changes the clock of another process. -/
theorem rtc_timing_iff {p R : Nat} {m m' : Machine} (clock : HasClock p)
    (present : (m.pcbs p).present = true) :
    (∀ gap limit, Restarts p R gap limit m m' →
      (AtLeast p R m' ∧ Exactly p R m' ↔ gap < limit ∨ R ≤ 1)) ∧
    (Rewrites p R m m' → AtLeast p R m') ∧
    ∀ (n n' : Machine) (esp : Nat) (call : RtcCall), rtcStep n (.call esp call) = some n' →
      ¬(RtcEvent.call esp call).By p n → n'.pcbs p = n.pcbs p := by
  refine ⟨fun gap limit restarts => ?_, fun rewrites => ?_, fun n n' esp call step other => ?_⟩
  · obtain ⟨counting, running⟩ := restarts_pcb clock present restarts
    obtain ⟨esp, own⟩ := restarts_own restarts
    rw [and_iff_right (atLeast_of_counting clock counting)]
    by_cases quick : gap < limit
    · exact iff_of_true (exactly_of_running clock counting (running.2 quick)) (Or.inl quick)
    · rw [exactly_of_pending clock counting (fun none' => quick (running.1 none')) own,
        or_iff_right quick]
  · exact atLeast_of_counting clock (rewrites_counting present rewrites)
  · exact rtcCall_others (m := { n with esp := esp }) other step

/-! ## A read at 512 Hz -/

/-- Process 3 in the kernel, its clock at 512 Hz with one interrupt left. -/
def halfClock : Machine :=
  { (Machine.mounted Fs.empty).setPcb 3 { (Machine.mounted Fs.empty).pcbs 3 with
      present := true
      rtc := true
      rtcCurr := 1
      rtcRate := 2 } with esp := 0x7F9F00 }

/-- `halfClock` when its read has taken the fire of the next interrupt. -/
def halfClockTaken : Machine :=
  let m := (halfClock.setPcb 3 { halfClock.pcbs 3 with rtcFired := 0 }).rtcHandler
  m.setPcb 3 { m.pcbs 3 with rtcFired := 0 }

/-- The machine when process 3 has started its count again. -/
def Machine.reloaded (m : Machine) : Machine :=
  m.setPcb 3 { m.pcbs 3 with rtcCurr := (m.pcbs 3).rtcRate }

theorem resting_interrupt (m : Machine) : Resting 3 m [.interrupt] m.rtcHandler :=
  ⟨⟨fun own => own, fun _ _ => trivial⟩, rfl⟩

theorem onStack_current (m : Machine) :
    ({ m with esp := 0x7F9F00 } : Machine).getCurrentPcb = some 3 :=
  getCurrentPcb_of_onStack (show OnStack 3 0x7F9F00 by decide)

theorem halfClock_restarts {m : Machine} {mid : List RtcEvent} (paused : Resting 3 halfClockTaken mid m)
    (same : m.esp = 0x7F9F00) : Restarts 3 2 (interrupts mid) 1 halfClock m.reloaded := by
  have on : m.getCurrentPcb = some 3 := (getCurrentPcb_congr same).trans (onStack_current m)
  have dropped : Does 3 halfClock .drop (halfClock.setPcb 3 { halfClock.pcbs 3 with rtcFired := 0 }) :=
    ⟨0x7F9F00, onStack_current _, rfl⟩
  have taken : Finds 3 (halfClock.setPcb 3 { halfClock.pcbs 3 with rtcFired := 0 }).rtcHandler .taken
      halfClockTaken := ⟨0x7F9F00, onStack_current _, rfl⟩
  have reloaded : Does 3 m .reload m.reloaded :=
    ⟨m.esp, on, Machine.storePcb_current on fun pcb => { pcb with rtcCurr := pcb.rtcRate }⟩
  exact .returned dropped (resting_interrupt _).spinning taken paused reloaded

/-- With no interrupt in between, the next read is on time. -/
theorem halfClock_on_time :
    AtLeast 3 2 halfClockTaken.reloaded ∧ Exactly 3 2 halfClockTaken.reloaded := by
  have paused : Resting 3 halfClockTaken [] halfClockTaken := ⟨trivial, rfl⟩
  exact ((rtc_timing_iff (Or.inl rfl) rfl).1 0 1 (halfClock_restarts paused rfl)).2
    (Or.inl Nat.one_pos)

/-- The machine with the next read of process 3 issued. -/
def Machine.dropped (m : Machine) : Machine :=
  { m with esp := 0x7F9F00 }.setPcb 3 { m.pcbs 3 with rtcFired := 0 }

/-- An interrupt between `--rtc_fired` and the store of the counter; then one, the
next read, and one more. -/
def halfClockAgain : Machine :=
  halfClockTaken.rtcHandler.reloaded.rtcHandler.dropped.rtcHandler

/-- Two interrupts after its counter was set to 2 the process is still waiting. -/
theorem halfClock_late : Restarts 3 2 1 1 halfClock halfClockTaken.rtcHandler.reloaded ∧
    ¬Exactly 3 2 halfClockTaken.rtcHandler.reloaded := by
  refine ⟨halfClock_restarts (resting_interrupt _) rfl, fun exact' => ?_⟩
  have dropped : Does 3 halfClockTaken.rtcHandler.reloaded.rtcHandler .drop
      halfClockTaken.rtcHandler.reloaded.rtcHandler.dropped := ⟨0x7F9F00, onStack_current _, rfl⟩
  have reads : ReadRun 3 halfClockTaken.rtcHandler.reloaded [.interrupt] [.interrupt] halfClockAgain :=
    ⟨_, _, resting_interrupt _, dropped, (resting_interrupt _).spinning⟩
  have waits : ({ halfClockAgain with esp := 0x7F9F00 } : Machine).rtcRound.map Prod.snd =
      some .again := rfl
  obtain ⟨_, found, ran, _, due⟩ := exact' _ _ halfClockAgain 0x7F9F00 reads (onStack_current _)
  rw [ran] at waits
  obtain rfl : found = .again := Option.some.inj waits
  exact absurd (due.2 (by decide)) nofun

end Illinix.Kernel
