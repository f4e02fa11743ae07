import Studix.Base.Arbiter
import Studix.CpuSetup.Interrupt

/-!
# The kernel in its idle loop

When `kernel_main` has returned, `src/boot.s` puts the processor into an infinite loop with
interrupts enabled, and all that the kernel does from there on it does in interrupts. A sequence of
events drives the machine: the devices make requests, the processor looks at its interrupt line
between two instructions of the loop, and there may be an exception.

The board says what comes of the events without a word about registers, stacks and ports: an arbiter
of the lines, the last scancode, and the scancodes that the keyboard's handler has been called for.

## Main definitions

* `Event`, `act`, `runLoop`: the machine.
* `Board`, `Board.step`, `Board.run`: what it is for.
* `Shows`, `Idle`: the state of the kernel is that of the board; the machine is in the loop.

## Main results

* `runLoop_simulates`: the machine does what the board does, and the loop goes on as before.
-/

namespace Studix.CpuSetup

open Ia32 Studix.Devices Studix.I8259

/-! ### Events -/

/-- The lines of the controllers other than those of the keyboard and of the second controller. -/
abbrev Line := {i : Fin 16 // i ≠ 1 ∧ i ≠ 2}

/-- An exception, with the error code of the processor. -/
structure Exception where
  num : Fin 48
  err : Option (BitVec 32)
  num_lt : num.val < 32
  err_iff : err.isSome ↔ PushesErr num

/-- What happens while the processor is in the loop. -/
inductive Event
  /-- A device makes a request on its line. -/
  | request (i : Line)
  /-- The keyboard's controller puts a scancode into its data port, and makes a request. It may keep
  what is typed to itself until the port has been read; such a controller makes no such event
  before. -/
  | key (scancode : Byte)
  /-- The processor looks at its interrupt line. -/
  | poll
  | exception (x : Exception)

/-! ### The machine -/

/-- A device makes a request. -/
def World.request (w : World) (i : ℕ) : World := { w with pics := w.pics.raise i }

/-- A scancode comes to the data port of the keyboard's controller, in place of the last one. -/
def World.key (w : World) (s : Byte) : World := { w.request 1 with scancode := s }

section

variable (callee : Handlers → Machine World → Except Stop (Machine World))
  (ret : BitVec 32) (fuel : ℕ)

/-- Between two instructions of the loop: with interrupts enabled, the processor takes the interrupt
that the controllers pass on. A vector without a gate is left open. -/
def poll (m : Machine World) : Option (Except Stop (Machine World)) :=
  if m.eflags.getLsbD 9 then
    match m.world.pics.acknowledge with
    | none => some (.ok m)
    | some (v, p) =>
      if h : v < 48 then
        takeInterrupt callee ret fuel ⟨v, h⟩ none { m with world := { m.world with pics := p } }
      else none
  else some (.ok m)

/-- One event. -/
def act (m : Machine World) : Event → Option (Except Stop (Machine World))
  | .request i => some (.ok { m with world := m.world.request i.val.val })
  | .key s => some (.ok { m with world := m.world.key s })
  | .poll => poll callee ret fuel m
  | .exception x => takeInterrupt callee ret fuel x.num x.err m

/-- A sequence of events, up to the first one that stops the kernel. -/
def runLoop : List Event → Machine World → Option (Except Stop (Machine World))
  | [], m => some (.ok m)
  | e :: es, m =>
    match act callee ret fuel m e with
    | some (.ok m') => runLoop es m'
    | result => result

end

/-! ### The board -/

/-- The lines, the last scancode, and those the keyboard's handler was called for. -/
structure Board where
  arbiter : Arbiter ℕ
  scancode : Byte
  typed : List Byte

namespace Board

/-- The board without a request. -/
def boot (scancode : Byte) : Board := ⟨⟨fun _ => false, []⟩, scancode, []⟩

/-- One event. -/
def step (tables : Tables) (b : Board) : Event → Except Stop Board
  | .request i => .ok { b with arbiter := b.arbiter.request i.val.val }
  | .key s => .ok { b with arbiter := b.arbiter.request 1, scancode := s }
  | .poll => .ok { b with
      arbiter := b.arbiter.grant Pics.priority
      typed := if b.arbiter.next Pics.priority = some 1 then b.typed ++ [b.scancode] else b.typed }
  | .exception x =>
    .error (.panic (if x.num.val = 14 then "Page fault!" else tables.name x.num.val))

/-- A sequence of events. -/
def run (tables : Tables) (b : Board) (es : List Event) : Except Stop Board :=
  es.foldlM (step tables) b

end Board

/-! ### The board and the machine -/

/-- The state of the kernel is that of the board; `w₀` is the state at the start. -/
structure Shows (tables : Tables) (w₀ w : World) (b : Board) : Prop where
  armed : Armed w.pics
  handlers : w.handlers = kernelHandlers
  pending : w.pics.pending = b.arbiter.pending
  milliUptime : w.milliUptime = w₀.milliUptime + BitVec.ofNat 32 (b.arbiter.served.count 0)
  keyboard : w.keyboard = deliver tables.toKeyTables w₀.keyboard b.typed
  scancode : w.scancode = b.scancode

/-- The machine is in the loop: interrupts are enabled, the stack has room for one, and the data
segments are the kernel's. -/
structure Idle {σ : Type} (m : Machine σ) : Prop where
  room : StackRoom m
  enabled : m.eflags.getLsbD 9 = true
  es : m.seg .es = m.seg .ds
  fs : m.seg .fs = m.seg .ds
  gs : m.seg .gs = m.seg .ds

section

variable {σ : Type} {m m' m'' : Machine σ}

theorem Restored.refl (m : Machine σ) : Restored m m := ⟨rfl, rfl, rfl, rfl⟩

theorem Restored.trans (h : Restored m m') (h' : Restored m' m'') : Restored m m'' :=
  ⟨h'.reg.trans h.reg, h'.seg.trans h.seg, h'.eip.trans h.eip, h'.eflags.trans h.eflags⟩

/-- The loop goes on as before. -/
theorem Idle.of_restored (h : Idle m) (hm : Restored m m') : Idle m' where
  room := ⟨hm.reg ▸ h.room.below, hm.reg ▸ h.room.above⟩
  enabled := hm.eflags ▸ h.enabled
  es := hm.seg ▸ h.es
  fs := hm.seg ▸ h.fs
  gs := hm.seg ▸ h.gs

end

/-! ### One event -/

section

variable {callee : Handlers → Machine World → Except Stop (Machine World)} {tables : Tables}
  {ret : BitVec 32} {fuel : ℕ} {m : Machine World} {w₀ w : World} {b : Board} {i : ℕ}

theorem Armed.raise {p : Pics} (h : Armed p) (hi : i ≠ 2) : Armed (p.raise i) := by
  refine ⟨h.ready.raise hi, ?_, ?_⟩ <;> rw [Pics.raise] <;> split_ifs
  · exact h.master_base
  · exact h.master_base
  · exact h.slave_base
  · exact h.slave_base

theorem Armed.withdraw {p : Pics} (h : Armed p) (i : ℕ) : Armed (p.withdraw i) := by
  refine ⟨h.ready.withdraw i, ?_, ?_⟩ <;> rw [Pics.withdraw] <;> split_ifs
  · exact h.master_base
  · exact h.master_base
  · exact h.slave_base
  · exact h.slave_base

theorem Shows.request (h : Shows tables w₀ w b) (hi : i ≠ 2) :
    Shows tables w₀ (w.request i) { b with arbiter := b.arbiter.request i } where
  armed := h.armed.raise hi
  handlers := h.handlers
  pending := by rw [World.request, Pics.pending_raise, h.pending, Arbiter.request]
  milliUptime := h.milliUptime
  keyboard := h.keyboard
  scancode := h.scancode

theorem Shows.key (h : Shows tables w₀ w b) (s : Byte) :
    Shows tables w₀ (w.key s) { b with arbiter := b.arbiter.request 1, scancode := s } :=
  have hrequest := h.request (i := 1) (by decide)
  { hrequest with scancode := rfl }

/-- **A line is served**: the kernel does what the line is for, and the request is gone. -/
theorem Shows.serve (h : Shows tables w₀ w b) (i : ℕ) :
    Shows tables w₀ (World.serve tables { w with pics := w.pics.withdraw i } i) { b with
      arbiter := b.arbiter.serve i
      typed := if i = 1 then b.typed ++ [b.scancode] else b.typed } := by
  have hpending : (w.pics.withdraw i).pending = (b.arbiter.serve i).pending := by
    rw [Pics.pending_withdraw, h.pending, Arbiter.serve]
  rcases eq_or_ne i 0 with rfl | hzero
  · refine ⟨h.armed.withdraw 0, h.handlers, hpending, ?_, h.keyboard, h.scancode⟩
    change w.milliUptime + 1 = _
    simp [Arbiter.serve, h.milliUptime, BitVec.ofNat_add, BitVec.add_assoc]
  have hcount : (b.arbiter.serve i).served.count 0 = b.arbiter.served.count 0 := by
    simp [Arbiter.serve, hzero]
  rcases eq_or_ne i 1 with rfl | hone
  · refine ⟨h.armed.withdraw 1, h.handlers, hpending, ?_, ?_, h.scancode⟩
    · exact hcount ▸ h.milliUptime
    · change Devices.ps2Handler tables.toKeyTables w.keyboard w.scancode = _
      rw [if_pos rfl, deliver_append_singleton, h.keyboard, h.scancode]
  · rw [World.serve, if_neg hzero, if_neg hone, if_neg hone]
    exact ⟨h.armed.withdraw i, h.handlers, hpending, hcount ▸ h.milliUptime, h.keyboard, h.scancode⟩

/-- The line that the controllers pass on is that of the board, with the vectors behind those of the
exceptions. -/
theorem Shows.acknowledge_eq (h : Shows tables w₀ w b) : w.pics.acknowledge =
    (b.arbiter.next Pics.priority).map fun i => (32 + i, w.pics.accept i) := by
  rw [h.armed.ready.acknowledge_eq, h.pending]
  congr 1
  funext i
  rw [Pics.vector, h.armed.master_base, h.armed.slave_base]
  split_ifs with hi
  · rfl
  · rw [show 40 + (i - 8) = 32 + i by omega]

theorem mem_priority (h : i ∈ Pics.priority) : i < 16 ∧ i ≠ 2 := by
  revert i
  decide

/-- The number of the vector is in the argument of the handler. -/
theorem intNo_entryRegisters {σ : Type} (m : Machine σ) (num : Fin 48) (err : Option (BitVec 32)) :
    (entryRegisters m num err).intNo.toNat = num.val := by
  have hnum : (entryRegisters m num err).intNo = BitVec.ofNat 32 num.val := by
    rw [entryRegisters]
    split_ifs <;> rfl
  rw [hnum, BitVec.toNat_ofNat, Nat.mod_eq_of_lt (by omega)]

/-- **One look at the interrupt line.** -/
theorem poll_spec (hc : CallsC callee (handlerFn tables)) (hfuel : 22 ≤ fuel) (hidle : Idle m)
    (h : Shows tables w₀ m.world b) : ∃ b' m', b.step tables .poll = .ok b' ∧
      poll callee ret fuel m = some (.ok m') ∧ Restored m m' ∧ Shows tables w₀ m'.world b' := by
  rw [poll, if_pos hidle.enabled, h.acknowledge_eq]
  cases hnext : b.arbiter.next Pics.priority with
  | none =>
    refine ⟨b, m, ?_, rfl, .refl m, h⟩
    simp [Board.step, Arbiter.grant, hnext]
  | some i =>
    obtain ⟨hlt, hne⟩ := mem_priority (List.mem_of_find?_eq_some hnext)
    obtain ⟨m₁, hm₁⟩ : ∃ m₁,
        m₁ = { m with world := { m.world with pics := m.world.pics.accept i } } :=
      ⟨_, rfl⟩
    have hsame : Restored m m₁ := hm₁ ▸ ⟨rfl, rfl, rfl, rfl⟩
    have hidle' : Idle m₁ := hidle.of_restored hsame
    have hnum : 32 + i < 48 := by omega
    have hfn : handlerFn tables (handlerOf ⟨32 + i, hnum⟩)
        (entryRegisters m₁ ⟨32 + i, hnum⟩ none) m₁.world =
        .ok (World.serve tables { m.world with pics := m.world.pics.withdraw i } i) := by
      rw [handlerOf, if_pos (by rw [Fin.le_def]; exact Nat.le_add_right 32 i), hm₁]
      exact irqHandler_spec h.handlers h.armed.ready hlt rfl (intNo_entryRegisters ..)
    have houtcome : Outcome (takeInterrupt callee ret fuel ⟨32 + i, hnum⟩ none m₁) _ _ :=
      takeInterrupt_spec hc hidle'.room (by
        simp only [PushesErr, HasErrStub, Fin.ext_iff, Fin.le_def, Option.isSome_none]
        simp
        omega) hfuel
    rw [hfn] at houtcome
    obtain ⟨m', hrun, hworld, hrestored⟩ := houtcome
    refine ⟨_, m', rfl, ?_, hsame.trans (hrestored.mpr ⟨?_, hidle'.es, hidle'.fs, hidle'.gs⟩), ?_⟩
    · simp only [Option.map_some, dif_pos hnum, ← hm₁, hrun]
    · simp [Fin.ext_iff]
      omega
    · rw [hworld, hnext, Arbiter.grant, hnext]
      have hserve := h.serve i
      simpa using hserve

/-- **An exception** stops the kernel. -/
theorem exception_spec (hc : CallsC callee (handlerFn tables)) (hfuel : 22 ≤ fuel) (hidle : Idle m)
    (h : Shows tables w₀ m.world b) (x : Exception) : takeInterrupt callee ret fuel x.num x.err m =
      some (.error (.panic (if x.num.val = 14 then "Page fault!" else tables.name x.num.val))) := by
  have houtcome : Outcome (takeInterrupt callee ret fuel x.num x.err m) _ _ :=
    takeInterrupt_spec hc hidle.room x.err_iff hfuel
  have hlt : ¬32 ≤ x.num := by
    rw [Fin.le_def]
    exact Nat.not_le.mpr x.num_lt
  rw [handlerOf, if_neg hlt] at houtcome
  have hfn : handlerFn tables .isrHandler (entryRegisters m x.num x.err) m.world = _ :=
    isrHandler_spec h.handlers x.num_lt (intNo_entryRegisters ..)
  rw [hfn] at houtcome
  exact houtcome

/-! ### A sequence of events -/

/-- The machine does what the board does: it stops with it, or the loop goes on as before in a state
that is that of the board. -/
def Simulates (tables : Tables) (w₀ : World) (m : Machine World)
    (run : Option (Except Stop (Machine World))) (result : Except Stop Board) : Prop :=
  match result with
  | .error stop => run = some (.error stop)
  | .ok b => ∃ m', run = some (.ok m') ∧ Restored m m' ∧ Shows tables w₀ m'.world b

/-- **One event.** -/
theorem act_simulates (hc : CallsC callee (handlerFn tables)) (hfuel : 22 ≤ fuel) (hidle : Idle m)
    (h : Shows tables w₀ m.world b) (e : Event) :
    Simulates tables w₀ m (act callee ret fuel m e) (b.step tables e) := by
  cases e with
  | request i =>
    have hne : i.val.val ≠ 2 := fun heq => i.property.2 (Fin.ext heq)
    exact ⟨_, rfl, ⟨rfl, rfl, rfl, rfl⟩, h.request hne⟩
  | key s => exact ⟨_, rfl, ⟨rfl, rfl, rfl, rfl⟩, h.key s⟩
  | poll =>
    obtain ⟨b', m', hstep, hpoll, hrestored, hshows⟩ : ∃ b' m', b.step tables .poll = .ok b' ∧
        poll callee ret fuel m = some (.ok m') ∧ Restored m m' ∧ Shows tables w₀ m'.world b' :=
      poll_spec hc hfuel hidle h
    rw [hstep]
    exact ⟨m', hpoll, hrestored, hshows⟩
  | exception x => exact exception_spec hc hfuel hidle h x

/-- **The machine simulates the board** over a sequence of events. -/
theorem runLoop_simulates (hc : CallsC callee (handlerFn tables)) (hfuel : 22 ≤ fuel)
    (hidle : Idle m) (h : Shows tables w₀ m.world b) (es : List Event) :
    Simulates tables w₀ m (runLoop callee ret fuel es m) (b.run tables es) := by
  induction es generalizing m b with
  | nil => exact ⟨m, rfl, .refl m, h⟩
  | cons e es ih =>
    have hact : Simulates tables w₀ m (act callee ret fuel m e) (b.step tables e) :=
      act_simulates hc hfuel hidle h e
    rw [Board.run, List.foldlM_cons, runLoop]
    cases hstep : b.step tables e with
    | error stop =>
      rw [hstep] at hact
      rw [show act callee ret fuel m e = some (.error stop) from hact]
      rfl
    | ok b' =>
      rw [hstep] at hact
      obtain ⟨m', hrun, hrestored, hshows⟩ := hact
      have hrest := ih (hidle.of_restored hrestored) hshows
      simp only [hrun]
      change Simulates tables w₀ m (runLoop callee ret fuel es m') (b'.run tables es)
      cases hboard : b'.run tables es with
      | error stop =>
        rw [hboard] at hrest
        exact hrest
      | ok b'' =>
        rw [hboard] at hrest
        obtain ⟨m'', hrun', hrestored', hshows'⟩ := hrest
        exact ⟨m'', hrun', hrestored.trans hrestored', hshows'⟩

/-- The state of the kernel after the setup is that of the board without a request. -/
theorem shows_setUp (tables : Tables) (hw : w.handlers = fun _ => none) :
    Shows tables (setUp w) (setUp w) (.boot w.scancode) where
  armed := setUp_pics w ▸ (remapIrq_armed w).1
  handlers := setUp_handlers hw
  pending := funext (setUp_pics w ▸ (remapIrq_armed w).2)
  milliUptime := by simp [Board.boot]
  keyboard := rfl
  scancode := rfl

end

end Studix.CpuSetup
