import Studix.CpuSetup.IdleLoop

/-!
# What becomes of the requests for interrupts

Over a sequence of events in the idle loop: the requests are served in the order of their priority,
`milli_uptime` counts the ticks of the timer but those that come while one is waiting, and a
scancode that comes while another one is waiting takes its place.

## Main definitions

* `Event.op`, `keys`: what an event is for the arbiter; the scancodes of a sequence of events.
* `Board.scancodes`: the scancodes that the keyboard's handler was called for, and the one waiting.
* `directCallee`: machine code of the C functions that touches nothing else.

## Main results

* `runLoop_setUp`: from the setup on, the machine does what the board does.
* `polls_serve`: looking at the interrupt line serves the requests in the order of priority.
* `milliUptime_eq`: the uptime falls behind by the ticks that were merged and the one waiting.
* `keyboard_eq_iff`: no scancode is lost exactly when none comes while one is waiting.
-/

namespace Studix.CpuSetup

open Ia32 Studix.Devices Studix.I8259

/-- What an event is for the arbiter. -/
def Event.op : Event → Option (Arbiter.Op ℕ)
  | .request i => some (.request i.val.val)
  | .key _ => some (.request 1)
  | .poll => some .grant
  | .exception _ => none

/-- The scancode of an event. -/
def Event.scancode? : Event → Option Byte
  | .key s => some s
  | _ => none

/-- What the events are for the arbiter. -/
def ops (es : List Event) : List (Arbiter.Op ℕ) := es.filterMap Event.op

/-- The scancodes of the events. -/
def keys (es : List Event) : List Byte := es.filterMap Event.scancode?

/-- No event is an exception. -/
def NoException (es : List Event) : Prop := ∀ x, .exception x ∉ es

namespace Board

variable {tables : Tables} {b b' : Board} {e : Event} {es : List Event}

/-- The scancodes that the keyboard's handler was called for, and the one that is waiting. -/
def scancodes (b : Board) : List Byte :=
  b.typed ++ if b.arbiter.pending 1 then [b.scancode] else []

theorem step_arbiter (h : b.step tables e = .ok b') : ∃ op, e.op = some op ∧
    b'.arbiter = b.arbiter.step Pics.priority op := by
  cases e with
  | exception x => cases h
  | request i =>
    cases h
    exact ⟨_, rfl, rfl⟩
  | key s =>
    cases h
    exact ⟨_, rfl, rfl⟩
  | poll =>
    cases h
    exact ⟨_, rfl, rfl⟩

/-- The arbiter of the board runs on its own. -/
theorem run_arbiter (h : b.run tables es = .ok b') :
    b'.arbiter = b.arbiter.run Pics.priority (ops es) := by
  induction es generalizing b with
  | nil =>
    cases h
    rfl
  | cons e es ih =>
    rw [run, List.foldlM_cons] at h
    cases hstep : b.step tables e with
    | error stop =>
      rw [hstep] at h
      cases h
    | ok b₁ =>
      rw [hstep] at h
      obtain ⟨op, hop, harbiter⟩ := step_arbiter hstep
      rw [ih h, harbiter, ops, ops, List.filterMap_cons_some hop]
      rfl

/-- Only an exception stops the board. -/
theorem run_ok (hes : NoException es) (b : Board) : ∃ b', b.run tables es = .ok b' := by
  induction es generalizing b with
  | nil => exact ⟨b, rfl⟩
  | cons e es ih =>
    have hrest : NoException es := fun x hx => hes x (List.mem_cons_of_mem e hx)
    cases e with
    | exception x => exact absurd (List.mem_cons_self ..) (hes x)
    | request i => exact ih hrest _
    | key s => exact ih hrest _
    | poll => exact ih hrest _

/-- **One event**: a scancode that comes while another is waiting takes its place, and any other is
added. -/
theorem step_scancodes (h : b.step tables e = .ok b') : b'.scancodes =
    match e.scancode? with
    | some s => (if b.arbiter.pending 1 then b.typed else b.scancodes) ++ [s]
    | none => b.scancodes := by
  cases e with
  | exception x => cases h
  | request i =>
    cases h
    have hne : (1 : ℕ) ≠ i.val.val := fun heq => i.property.1 (Fin.ext heq.symm)
    simp [scancodes, Arbiter.request, Event.scancode?, Function.update_of_ne hne]
  | key s =>
    cases h
    cases hpending : b.arbiter.pending 1 <;>
      simp [scancodes, Arbiter.request, Event.scancode?, hpending]
  | poll =>
    cases h
    change _ = b.scancodes
    cases hnext : b.arbiter.next Pics.priority with
    | none => simp [scancodes, Arbiter.grant, hnext]
    | some i =>
      rcases eq_or_ne i 1 with rfl | hne
      · have hpending : b.arbiter.pending 1 = true := List.find?_some hnext
        simp [scancodes, Arbiter.grant, hnext, Arbiter.serve, hpending]
      · simp [scancodes, Arbiter.grant, hnext, Arbiter.serve, hne, Function.update_of_ne hne.symm]

/-- Only a scancode is a request on the line of the keyboard. -/
theorem op_eq_request_one {op : Arbiter.Op ℕ} (h : e.op = some op) :
    op = .request 1 ↔ e.scancode?.isSome := by
  cases e with
  | exception x => cases h
  | request i =>
    cases h
    have hne : i.val.val ≠ 1 := fun heq => i.property.1 (Fin.ext heq)
    simpa [Event.scancode?] using hne
  | key s =>
    cases h
    simp [Event.scancode?]
  | poll =>
    cases h
    simp [Event.scancode?]

/-- The scancodes of the board, those that were replaced, and those of the events. -/
theorem run_length_scancodes (h : b.run tables es = .ok b') :
    b'.scancodes.length + Arbiter.merged Pics.priority 1 b.arbiter (ops es) =
      b.scancodes.length + (keys es).length := by
  induction es generalizing b with
  | nil =>
    cases h
    rfl
  | cons e es ih =>
    rw [run, List.foldlM_cons] at h
    cases hstep : b.step tables e with
    | error stop =>
      rw [hstep] at h
      cases h
    | ok b₁ =>
      rw [hstep] at h
      obtain ⟨op, hop, harbiter⟩ := step_arbiter hstep
      have hrest := ih h
      have hscancodes := step_scancodes hstep
      have hone := op_eq_request_one hop
      rw [ops, List.filterMap_cons_some hop, Arbiter.merged, ← harbiter, ← ops]
      cases hs : e.scancode? with
      | none =>
        rw [hs] at hone hscancodes
        have hop' : op ≠ .request 1 := fun heq => Bool.false_ne_true (hone.mp heq)
        rw [keys, List.filterMap_cons_none hs, ← keys, if_neg fun hboth => hop' hboth.1, zero_add,
          hrest, hscancodes]
      | some s =>
        rw [hs] at hone hscancodes
        have hlength : b₁.scancodes.length + (if b.arbiter.pending 1 then 1 else 0) =
            b.scancodes.length + 1 := by
          rw [hscancodes]
          cases hpending : b.arbiter.pending 1 <;> simp [scancodes, hpending]
        rw [keys, List.filterMap_cons_some hs, ← keys, List.length_cons]
        simp only [hone.mpr rfl, true_and]
        omega

/-- **The scancodes of the board are those of the events** exactly when none was replaced. -/
theorem run_scancodes_iff (h : b.run tables es = .ok b') : b'.scancodes = b.scancodes ++ keys es ↔
    Arbiter.merged Pics.priority 1 b.arbiter (ops es) = 0 := by
  constructor
  · intro hsame
    have hlength := run_length_scancodes h
    rw [hsame, List.length_append] at hlength
    omega
  · intro hmerged
    induction es generalizing b with
    | nil =>
      cases h
      exact (List.append_nil _).symm
    | cons e es ih =>
      rw [run, List.foldlM_cons] at h
      cases hstep : b.step tables e with
      | error stop =>
        rw [hstep] at h
        cases h
      | ok b₁ =>
        rw [hstep] at h
        obtain ⟨op, hop, harbiter⟩ := step_arbiter hstep
        have hone := op_eq_request_one hop
        have hscancodes := step_scancodes hstep
        rw [ops, List.filterMap_cons_some hop, Arbiter.merged, ← harbiter, ← ops] at hmerged
        rw [ih h (Nat.eq_zero_of_add_eq_zero_left hmerged), hscancodes]
        cases hs : e.scancode? with
        | none => rw [keys, keys, List.filterMap_cons_none hs]
        | some s =>
          have hpending : ¬b.arbiter.pending 1 := by
            intro hpending
            rw [if_pos ⟨hone.mpr (hs ▸ rfl), hpending⟩] at hmerged
            omega
          simp [keys, List.filterMap_cons_some hs, hpending]

end Board

/-! ### A machine in the idle loop -/

/-- Machine code of the C functions that does nothing but what they do to the kernel's state. -/
def directCallee (tables : Tables) (f : Handlers) (m : Machine World) :
    Except Stop (Machine World) :=
  (handlerFn tables f (argument m) m.world).map fun w => { m with world := w }

theorem directCallee_callsC (tables : Tables) :
    CallsC (directCallee tables) (handlerFn tables) where
  returns f m w h := by
    refine ⟨{ m with world := w }, ?_, rfl, rfl, rfl, fun _ _ _ => rfl⟩
    rw [directCallee, h]
    rfl
  stops f m e h := by
    rw [directCallee, h]
    rfl

/-- The tables of the code with nothing behind them. -/
def paddedTables : Tables where
  toKeyTables := zeroPadded
  name n := interruptNames.getD n ""
  name_eq n h := by simp [h]

/-- A controller before its setup. -/
def rawChip : Chip := ⟨fun _ => true, fun _ => true, 0xFF, 0, 0, false, .ready⟩

/-- The state of the kernel when it starts. -/
def rawWorld : World where
  pics := ⟨rawChip, rawChip⟩
  handlers _ := none
  milliUptime := 0
  keyboard := .boot (.boot fun _ => 0)
  scancode := 0

/-- The kernel in its loop. -/
def loopMachine : Machine World where
  reg r := if r = .esp then 0x8000 else 7
  seg s := if s = .cs then kernelCs else 0x10
  eip := 0x100000
  eflags := 0x202
  mem _ := 0
  world := setUp rawWorld

theorem loopMachine_idle : Idle loopMachine where
  room := ⟨by decide, by decide⟩
  enabled := rfl
  es := rfl
  fs := rfl
  gs := rfl

/-! ### From the setup on -/

section

variable {callee : Handlers → Machine World → Except Stop (Machine World)} {tables : Tables}
  {ret : BitVec 32} {fuel : ℕ} {m : Machine World} {w₀ w : World} {b : Board} {es : List Event}

/-- **The kernel in its idle loop does what the board does**, over every sequence of events from the
setup on: it stops with the board at an exception, and otherwise its state is that of the board and
the loop goes on with its registers as they were. -/
theorem runLoop_setUp (hc : CallsC callee (handlerFn tables)) (hfuel : 22 ≤ fuel) (hidle : Idle m)
    (hw : w.handlers = fun _ => none) (hm : m.world = setUp w) (es : List Event) :
    Simulates tables (setUp w) m (runLoop callee ret fuel es m)
      (Board.run tables (.boot w.scancode) es) :=
  runLoop_simulates hc hfuel hidle (hm ▸ shows_setUp tables hw) es

/-- The sample machine, at a key and a tick of the timer. -/
theorem runLoop_setUp_sample : Simulates paddedTables (setUp rawWorld) loopMachine
    (runLoop (directCallee paddedTables) 0 22
      [.key 0x1E, .request ⟨0, by decide⟩, .poll, .poll] loopMachine)
    (Board.run paddedTables (.boot 0) [.key 0x1E, .request ⟨0, by decide⟩, .poll, .poll]) :=
  runLoop_setUp (directCallee_callsC paddedTables) le_rfl loopMachine_idle rfl rfl _

/-- Without an exception the kernel does not stop. -/
theorem runLoop_ok (hc : CallsC callee (handlerFn tables)) (hfuel : 22 ≤ fuel) (hidle : Idle m)
    (h : Shows tables w₀ m.world b) (hes : NoException es) : ∃ m' b',
      runLoop callee ret fuel es m = some (.ok m') ∧ Restored m m' ∧
        b.run tables es = .ok b' ∧ Shows tables w₀ m'.world b' := by
  obtain ⟨b', hb'⟩ : ∃ b', b.run tables es = .ok b' := Board.run_ok hes b
  have hrun : Simulates tables w₀ m (runLoop callee ret fuel es m) (b.run tables es) :=
    runLoop_simulates hc hfuel hidle h es
  rw [hb'] at hrun
  obtain ⟨m', hm', hrestored, hshows⟩ := hrun
  exact ⟨m', b', hm', hrestored, hb', hshows⟩

/-- **Looking at the interrupt line** `n` times without a further request serves the first `n` lines
with a request, in the order of their priority, and leaves the others. -/
theorem polls_serve (hc : CallsC callee (handlerFn tables)) (hfuel : 22 ≤ fuel) (hidle : Idle m)
    (h : Shows tables w₀ m.world b) (n : ℕ) : ∃ m' b',
      runLoop callee ret fuel (List.replicate n .poll) m = some (.ok m') ∧ Restored m m' ∧
        b.run tables (List.replicate n .poll) = .ok b' ∧ Shows tables w₀ m'.world b' ∧
        b'.arbiter.served = b.arbiter.served ++ (Pics.priority.filter m.world.pics.pending).take n ∧
        Pics.priority.filter m'.world.pics.pending =
          (Pics.priority.filter m.world.pics.pending).drop n := by
  have hes : NoException (List.replicate n .poll) := by
    intro x hx
    cases List.eq_of_mem_replicate hx
  obtain ⟨m', b', hrun, hrestored, hb', hshows⟩ : ∃ m' b',
      runLoop callee ret fuel (List.replicate n .poll) m = some (.ok m') ∧ Restored m m' ∧
        b.run tables (List.replicate n .poll) = .ok b' ∧ Shows tables w₀ m'.world b' :=
    runLoop_ok hc hfuel hidle h hes
  have hops : ops (List.replicate n .poll) = List.replicate n .grant := by
    exact List.filterMap_replicate_of_some rfl
  have harbiter := Board.run_arbiter hb'
  rw [hops, Arbiter.run_replicate_grant] at harbiter
  refine ⟨m', b', hrun, hrestored, hb', hshows, ?_, ?_⟩
  · rw [harbiter, h.pending, Arbiter.grants_served (by decide)]
  · rw [hshows.pending, h.pending, harbiter, Arbiter.grants_pending (by decide)]

/-- The sample machine with requests on the lines 3 and 12. -/
def requestMachine : Machine World :=
  { loopMachine with world := (loopMachine.world.request 3).request 12 }

/-- Its board. -/
def requestBoard : Board :=
  { Board.boot 0 with arbiter := ((Board.boot 0).arbiter.request 3).request 12 }

theorem requestBoard_shows :
    Shows paddedTables (setUp rawWorld) requestMachine.world requestBoard := by
  have hboot : Shows paddedTables (setUp rawWorld) (setUp rawWorld) (.boot rawWorld.scancode) :=
    shows_setUp paddedTables rfl
  exact (hboot.request (by decide)).request (by decide)

theorem requestMachine_idle : Idle requestMachine :=
  loopMachine_idle.of_restored ⟨rfl, rfl, rfl, rfl⟩

/-- The first look at the interrupt line is for line 12, which is in front of line 3. -/
theorem polls_serve_sample : ∃ m' b',
    runLoop (directCallee paddedTables) 0 22 (List.replicate 1 .poll) requestMachine =
        some (.ok m') ∧
      Restored requestMachine m' ∧
      requestBoard.run paddedTables (List.replicate 1 .poll) = .ok b' ∧
      Shows paddedTables (setUp rawWorld) m'.world b' ∧ b'.arbiter.served = [12] ∧
      Pics.priority.filter m'.world.pics.pending = [3] :=
  polls_serve (directCallee_callsC paddedTables) le_rfl requestMachine_idle requestBoard_shows 1

/-- **The uptime** falls behind the ticks of the timer by those that were merged with one before,
and by the one that is waiting. -/
theorem milliUptime_eq (hc : CallsC callee (handlerFn tables)) (hfuel : 22 ≤ fuel) (hidle : Idle m)
    (hw : w.handlers = fun _ => none) (hm : m.world = setUp w) (hes : NoException es) : ∃ m',
      runLoop callee ret fuel es m = some (.ok m') ∧
        m'.world.milliUptime + BitVec.ofNat 32 ((m'.world.pics.pending 0).toNat +
            Arbiter.merged Pics.priority 0 ⟨fun _ => false, []⟩ (ops es)) =
          w.milliUptime + BitVec.ofNat 32 ((ops es).count (.request 0)) := by
  obtain ⟨m', b', hrun, -, hb', hshows⟩ : ∃ m' b', runLoop callee ret fuel es m = some (.ok m') ∧
      Restored m m' ∧ Board.run tables (.boot w.scancode) es = .ok b' ∧
        Shows tables (setUp w) m'.world b' :=
    runLoop_ok hc hfuel hidle (hm ▸ shows_setUp tables hw) hes
  have hcount := Arbiter.run_count Pics.priority (Board.boot w.scancode).arbiter (ops es) 0
  rw [← Board.run_arbiter hb', ← hshows.pending] at hcount
  refine ⟨m', hrun, ?_⟩
  rw [hshows.milliUptime, BitVec.add_assoc, ← BitVec.ofNat_add, ← add_assoc]
  have hzero : (Board.boot w.scancode).arbiter.served.count 0 +
      ((Board.boot w.scancode).arbiter.pending 0).toNat = 0 := rfl
  rw [hzero, zero_add] at hcount
  rw [← hcount]
  rfl

/-- The sample machine, at two ticks of the timer before it looks at its interrupt line. -/
theorem milliUptime_eq_sample : ∃ m',
    runLoop (directCallee paddedTables) 0 22
        [.request ⟨0, by decide⟩, .request ⟨0, by decide⟩, .poll] loopMachine = some (.ok m') ∧
      m'.world.milliUptime + BitVec.ofNat 32 ((m'.world.pics.pending 0).toNat +
          Arbiter.merged Pics.priority 0 ⟨fun _ => false, []⟩
            (ops [.request ⟨0, by decide⟩, .request ⟨0, by decide⟩, .poll])) =
        rawWorld.milliUptime + BitVec.ofNat 32
          ((ops [.request ⟨0, by decide⟩, .request ⟨0, by decide⟩, .poll]).count (.request 0)) :=
  milliUptime_eq (directCallee_callsC paddedTables) le_rfl loopMachine_idle rfl rfl
    (by simp [NoException])

/-- **The keyboard's handler** has been called for the scancodes that the board has in `typed`. With
the one that is waiting, they are those that came, in their order, exactly when none of them came
while another was waiting. -/
theorem keyboard_eq_iff (hc : CallsC callee (handlerFn tables)) (hfuel : 22 ≤ fuel) (hidle : Idle m)
    (hw : w.handlers = fun _ => none) (hm : m.world = setUp w) (hes : NoException es) : ∃ m' b',
      runLoop callee ret fuel es m = some (.ok m') ∧
        Board.run tables (.boot w.scancode) es = .ok b' ∧
        m'.world.keyboard = deliver tables.toKeyTables w.keyboard b'.typed ∧
        (b'.typed ++ (if m'.world.pics.pending 1 then [m'.world.scancode] else []) = keys es ↔
          Arbiter.merged Pics.priority 1 ⟨fun _ => false, []⟩ (ops es) = 0) := by
  obtain ⟨m', b', hrun, -, hb', hshows⟩ : ∃ m' b', runLoop callee ret fuel es m = some (.ok m') ∧
      Restored m m' ∧ Board.run tables (.boot w.scancode) es = .ok b' ∧
        Shows tables (setUp w) m'.world b' :=
    runLoop_ok hc hfuel hidle (hm ▸ shows_setUp tables hw) hes
  refine ⟨m', b', hrun, hb', hshows.keyboard, ?_⟩
  rw [hshows.pending, hshows.scancode]
  exact Board.run_scancodes_iff hb'

/-- The sample machine, at two keys before it looks at its interrupt line: one of them is lost. -/
theorem keyboard_eq_iff_sample : ∃ m' b',
    runLoop (directCallee paddedTables) 0 22 [.key 0x1E, .key 0x30, .poll] loopMachine =
        some (.ok m') ∧
      Board.run paddedTables (.boot 0) [.key 0x1E, .key 0x30, .poll] = .ok b' ∧
      m'.world.keyboard = deliver paddedTables.toKeyTables rawWorld.keyboard b'.typed ∧
      b'.typed ++ (if m'.world.pics.pending 1 then [m'.world.scancode] else []) ≠ [0x1E, 0x30] := by
  have hes : NoException [.key 0x1E, .key 0x30, .poll] := by simp [NoException]
  have hidle : Idle loopMachine := loopMachine_idle
  have hsetUp : loopMachine.world = setUp rawWorld := rfl
  obtain ⟨m', b', hrun, hb', hkeyboard, hiff⟩ :=
    keyboard_eq_iff (directCallee_callsC paddedTables) le_rfl hidle rfl hsetUp hes
  exact ⟨m', b', hrun, hb', hkeyboard, fun hsame => absurd (hiff.mp hsame) (by decide)⟩

end

end Studix.CpuSetup
