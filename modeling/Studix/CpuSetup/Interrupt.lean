import Studix.Base.I8259
import Studix.CpuSetup.Isrs
import Studix.Devices.Ps2
import Studix.Misc.Panic

/-!
# The kernel's interrupts

Model of `src/cpu_setup/interrupt.c`, of `remap_irq` of `src/cpu_setup/idt.c`, and of the interrupt
handlers of the timer, the keyboard and the page faults. The two interrupt controllers are those of
`Studix.Base.I8259`; the other ports that the code writes to belong to devices that are not part of
the state.

A handler for IRQs ends the interrupt before it looks for a registered handler, so a line that no
one has registered a handler for does not block the lines below it.

## Main definitions

* `World`: the state that interrupt handlers work on.
* `remapIrq`, `registerInterruptHandler`, `irqHandler`, `isrHandler`: the code.
* `setUp`: what the kernel does about interrupts while it boots.

## Main results

* `remapIrq_armed`: the controllers are ready after `remapIrq`, whatever state they were in.
* `irqHandler_spec`: the handler for IRQs withdraws the request and does what the line is for.
-/

namespace Studix.CpuSetup

open Studix.Devices Studix.I8259

/-! ### The state -/

/-- The functions that are registered as handlers. -/
inductive Handler
  | pageFaultHandler
  | timerHandler
  | ps2Handler
  deriving DecidableEq

/-- The state that interrupt handlers work on. -/
structure World where
  pics : Pics
  /-- `handlers`. -/
  handlers : ℕ → Option Handler
  /-- `milli_uptime`. -/
  milliUptime : BitVec 32
  keyboard : Keyboard
  /-- The scancode at the data port of the keyboard's controller. -/
  scancode : Byte

/-- `outb`. -/
def World.outb (w : World) (port : ℕ) (v : Byte) : World := { w with pics := w.pics.outb port v }

/-- `IRQ0`. -/
def irq0 : ℕ := 32

/-- `IRQ1`. -/
def irq1 : ℕ := 33

/-- `IRQ8`. -/
def irq8 : ℕ := 40

/-! ### The code -/

/-- `remap_irq`. -/
def remapIrq (w : World) : World :=
  let w := w.outb 0x20 0x11
  let w := w.outb 0xA0 0x11
  let w := w.outb 0x21 0x20
  let w := w.outb 0xA1 0x28
  let w := w.outb 0x21 0x04
  let w := w.outb 0xA1 0x02
  let w := w.outb 0x21 0x01
  let w := w.outb 0xA1 0x01
  let w := w.outb 0x21 0x00
  w.outb 0xA1 0x00

/-- `register_interrupt_handler`. -/
def registerInterruptHandler (w : World) (i : Byte) (handler : Handler) : World :=
  { w with handlers := Function.update w.handlers i.toNat (some handler) }

/-- The divisor for the frequency of the timer, `BASE_FREQUENCY / MILLISECOND_FREQ`. -/
def divisor : BitVec 16 := BitVec.ofNat 16 (1193180 / 1000)

/-- `init_timer`. -/
def initTimer (w : World) : World :=
  let w := registerInterruptHandler w (BitVec.ofNat 8 irq0) .timerHandler
  let w := w.outb 0x43 0x36
  let w := w.outb 0x40 ((divisor &&& 0xFF).setWidth 8)
  w.outb 0x40 ((divisor >>> 8).setWidth 8)

/-- `init_ps2`. -/
def initPs2 (w : World) : World := registerInterruptHandler w (BitVec.ofNat 8 irq1) .ps2Handler

/-- What the kernel does about interrupts while it boots: `init_idt`, `init_timer`, `init_paging`
and `init_ps2`. -/
def setUp (w : World) : World :=
  initPs2 (registerInterruptHandler (initTimer (remapIrq w)) 14 .pageFaultHandler)

/-- `interrupt_names`. -/
def interruptNames : List String :=
  ["Division by zero", "Debug exception", "Non-maskable interrupt", "Breakpoint exception",
    "Overflow", "Out of bounds exception", "Invalid opcode", "No coprocessor", "Double fault",
    "Coprocessor segment overrun", "Bad TSS", "Segment not present", "Stack fault",
    "General Protection Fault", "Page fault", "Unknown interrupt exception", "Coprocessor fault",
    "Alignment check exception", "Machine check exception"]

/-- What the code reads outside of its tables: it does not check the index into `interrupt_names`,
nor those into the tables of characters. -/
structure Tables extends KeyTables where
  /-- `interrupt_names[i]`. -/
  name : ℕ → String
  name_eq : ∀ i (h : i < interruptNames.length), name i = interruptNames[i]

/-- A registered handler. The handler for page faults prints what it knows about the fault and then
stops the kernel. -/
def Handler.call (tables : Tables) (w : World) : Handler → Except Stop World
  | .pageFaultHandler => .error (.panic "Page fault!")
  | .timerHandler => .ok { w with milliUptime := w.milliUptime + 1 }
  | .ps2Handler =>
    .ok { w with keyboard := Devices.ps2Handler tables.toKeyTables w.keyboard w.scancode }

/-- `irq_handler`. -/
def irqHandler (tables : Tables) (regs : Registers) (w : World) : Except Stop World :=
  let w := if irq8 ≤ regs.intNo.toNat then w.outb 0xA0 0x20 else w
  let w := w.outb 0x20 0x20
  match w.handlers regs.intNo.toNat with
  | some handler => handler.call tables w
  | none => .ok w

/-- `isr_handler`. -/
def isrHandler (tables : Tables) (regs : Registers) (w : World) : Except Stop World :=
  match w.handlers regs.intNo.toNat with
  | some handler => handler.call tables w
  | none => .error (.panic (tables.name regs.intNo.toNat))

/-- The two functions that the service routines call. -/
def handlerFn (tables : Tables) : Handlers → Registers → World → Except Stop World
  | .isrHandler => isrHandler tables
  | .irqHandler => irqHandler tables

/-! ### The setup -/

/-- The controllers have no line in service, and their vectors follow those of the exceptions. -/
structure Armed (p : Pics) : Prop where
  ready : p.Ready
  master_base : p.master.base = 32
  slave_base : p.slave.base = 40

/-- The handlers that the kernel registers. -/
def kernelHandlers (n : ℕ) : Option Handler :=
  if n = 14 then some .pageFaultHandler
  else if n = irq0 then some .timerHandler
  else if n = irq1 then some .ps2Handler
  else none

theorem kernelHandlers_eq_none {n : ℕ} (h14 : n ≠ 14) (h32 : n ≠ 32) (h33 : n ≠ 33) :
    kernelHandlers n = none := by
  simp [kernelHandlers, irq0, irq1, h14, h32, h33]

/-- **Remapping leaves the controllers ready**, whatever state they were in, and without a
request. -/
theorem remapIrq_armed (w : World) :
    Armed (remapIrq w).pics ∧ ∀ i, (remapIrq w).pics.pending i = false := by
  have hpics : (remapIrq w).pics =
      ⟨((((w.pics.master.command 0x11).data 0x20).data 0x04).data 0x01).data 0x00,
        ((((w.pics.slave.command 0x11).data 0x28).data 0x02).data 0x01).data 0x00⟩ := rfl
  rw [hpics, Chip.setup_eq, Chip.setup_eq]
  refine ⟨⟨⟨rfl, rfl, rfl, rfl, rfl, rfl, rfl, rfl, rfl⟩, rfl, rfl⟩, fun i => ?_⟩
  simp [Pics.pending]

/-- The controllers ignore the ports of the timer. -/
theorem setUp_pics (w : World) : (setUp w).pics = (remapIrq w).pics := rfl

theorem setUp_handlers {w : World} (h : w.handlers = fun _ => none) :
    (setUp w).handlers = kernelHandlers := by
  funext n
  simp only [setUp, initPs2, initTimer, registerInterruptHandler, World.outb, remapIrq, h,
    Function.update_apply, kernelHandlers, irq0, irq1]
  split_ifs <;> first | rfl | simp_all

/-! ### The handler for IRQs -/

/-- What the kernel does for a line of the controllers, apart from the end of the interrupt. -/
def World.serve (tables : Tables) (w : World) (i : ℕ) : World :=
  if i = 0 then { w with milliUptime := w.milliUptime + 1 }
  else if i = 1 then
    { w with keyboard := Devices.ps2Handler tables.toKeyTables w.keyboard w.scancode }
  else w

section

variable {tables : Tables} {regs : Registers} {w : World} {p : Pics} {i : ℕ}

theorem call_kernelHandlers (hw : w.handlers = kernelHandlers) (hi : i < 16) :
    (match w.handlers (32 + i) with
      | some handler => handler.call tables w
      | none => .ok w) = Except.ok (w.serve tables i) := by
  rw [hw]
  rcases Nat.lt_or_ge i 2 with hlt | hge
  · interval_cases i <;> rfl
  · rw [kernelHandlers_eq_none (by omega) (by omega) (by omega), World.serve, if_neg (by omega),
      if_neg (by omega)]

/-- The words for the end of an interrupt, by the number of the vector. -/
theorem endOfInterrupt_eq (hp : p.Ready) (hi : i < 16) :
    (if irq8 ≤ 32 + i then (p.accept i).outb 0xA0 0x20 else p.accept i).outb 0x20 0x20 =
      p.withdraw i := by
  rcases Nat.lt_or_ge i 8 with hlt | hge
  · rw [if_neg (by simp only [irq8]; omega)]
    exact hp.endOfInterrupt_master hlt
  · rw [if_pos (by simp only [irq8]; omega)]
    exact hp.endOfInterrupt_slave hge hi

/-- **The handler for IRQs**, called when a line has been taken into service: the interrupt is ended
and the request is gone, whether or not a handler is registered for the line. -/
theorem irqHandler_spec (hw : w.handlers = kernelHandlers) (hp : p.Ready) (hi : i < 16)
    (hpics : w.pics = p.accept i) (hregs : regs.intNo.toNat = 32 + i) :
    irqHandler tables regs w = .ok (World.serve tables { w with pics := p.withdraw i } i) := by
  have hend : (if irq8 ≤ 32 + i then w.outb 0xA0 0x20 else w).outb 0x20 0x20 =
      { w with pics := p.withdraw i } := by
    rw [← endOfInterrupt_eq hp hi, ← hpics]
    split_ifs <;> rfl
  rw [irqHandler, hregs, hend]
  exact call_kernelHandlers hw hi

/-- **The handler for exceptions** does not return. -/
theorem isrHandler_spec (hw : w.handlers = kernelHandlers) {n : ℕ} (hn : n < 32)
    (hregs : regs.intNo.toNat = n) : isrHandler tables regs w =
      .error (.panic (if n = 14 then "Page fault!" else tables.name n)) := by
  rw [isrHandler, hregs, hw]
  by_cases h : n = 14
  · subst h
    rfl
  · rw [kernelHandlers_eq_none h (by omega) (by omega), if_neg h]

end

end Studix.CpuSetup
