import Studix.Base.Ia32

/-!
# Interrupt service routines

The assembly of `src/cpu_setup/isrs.s`. Each of the 48 vectors has a stub, which puts the number of
the vector on the stack and jumps to the code that all exceptions, or all IRQs, have in common. That
code saves the general registers and `ds`, calls the handler, for which the stack is a `Registers`,
and restores what it saved.

A stub for a vector without an error code puts a zero in its place. The processor also pushes an
error code for vector 17, the alignment check, which has such a stub: the stack is then one word
higher than the common code takes it to be. Of the segment registers only `ds` is saved, and all
four data segment registers are restored from it.

## Main definitions

* `stub`, `isrCommon`, `irqCommon`: the code.
* `Registers`, `CallsC`: the argument of a handler, and what the code relies on in a handler.
* `takeInterrupt`: an interrupt from its delivery to the return to the interrupted code.

## Main results

* `takeInterrupt_spec`: the handler is called for the vector and the interrupted registers.
* `restored_iff`: what the interrupted code finds in its registers.
-/

namespace Studix.CpuSetup

open Ia32

/-! ### The code -/

/-- The labels of the code. -/
inductive Label
  | isr (num : Fin 48)
  | isrCommon
  | irqCommon
  deriving DecidableEq

/-- The C functions that the code calls. -/
inductive Handlers
  | isrHandler
  | irqHandler
  deriving DecidableEq

/-- Load the data segments from `ax`. -/
def loadSegments : List (Instr Label Handlers) :=
  [.movAxSeg .ds, .movAxSeg .es, .movAxSeg .fs, .movAxSeg .gs]

/-- Save the registers and load the kernel's segments. -/
def saveRegisters : List (Instr Label Handlers) :=
  [.pusha, .movSegAx .ds, .pushReg .eax, .movImmAx 0x10] ++ loadSegments

/-- Restore the registers and take the vector and the error code off the stack. -/
def restoreRegisters : List (Instr Label Handlers) :=
  .popReg .eax :: loadSegments ++ [.popa, .addImm 8 .esp, .sti]

/-- The code from `pusha` to `iret` around the call of a handler. -/
def common (handler : Handlers) : List (Instr Label Handlers) :=
  saveRegisters ++ .call handler :: (restoreRegisters ++ [.iret])

/-- `isr_common`. -/
def isrCommon : List (Instr Label Handlers) := common .isrHandler

/-- `irq_common`. -/
def irqCommon : List (Instr Label Handlers) := common .irqHandler

/-- `ISR_NO_ERR num`. -/
def isrNoErr (num : Fin 48) : List (Instr Label Handlers) :=
  [.cli, .pushImm 0, .pushImm (BitVec.ofNat 32 num.val), .jmp .isrCommon]

/-- `ISR_ERR num`. -/
def isrErr (num : Fin 48) : List (Instr Label Handlers) :=
  [.cli, .pushImm (BitVec.ofNat 32 num.val), .jmp .isrCommon]

/-- `IRQ num`. -/
def irq (num : Fin 48) : List (Instr Label Handlers) :=
  [.cli, .pushImm 0, .pushImm (BitVec.ofNat 32 num.val), .jmp .irqCommon]

/-- The vectors whose stub leaves the error code to the processor: 8, and 10 to 14. -/
def HasErrStub (num : Fin 48) : Prop := num = 8 ∨ 10 ≤ num ∧ num ≤ 14

instance (num : Fin 48) : Decidable (HasErrStub num) := inferInstanceAs (Decidable (_ ∨ _))

/-- The stub of a vector. -/
def stub (num : Fin 48) : List (Instr Label Handlers) :=
  if 32 ≤ num then irq num else if HasErrStub num then isrErr num else isrNoErr num

/-- The code at a label. -/
def code : Label → List (Instr Label Handlers)
  | .isr num => stub num
  | .isrCommon => isrCommon
  | .irqCommon => irqCommon

/-- The function that the stub of a vector leads to. -/
def handlerOf (num : Fin 48) : Handlers := if 32 ≤ num then .irqHandler else .isrHandler

/-! ### Handlers -/

/-- `Registers`: the stack of a handler, as its argument. -/
structure Registers where
  ds : BitVec 32
  edi : BitVec 32
  esi : BitVec 32
  ebp : BitVec 32
  esp : BitVec 32
  ebx : BitVec 32
  edx : BitVec 32
  ecx : BitVec 32
  eax : BitVec 32
  intNo : BitVec 32
  err : BitVec 32
  eip : BitVec 32
  cs : BitVec 32
  eflags : BitVec 32
  useresp : BitVec 32
  ss : BitVec 32
  deriving DecidableEq

/-- The 32-bit value at an address. -/
def wordAt (mem : Memory) (a : ℕ) : BitVec 32 := BitVec.ofNat 32 (load32 mem a)

/-- A `Registers` in memory. -/
def Registers.load (mem : Memory) (a : ℕ) : Registers where
  ds := wordAt mem a
  edi := wordAt mem (a + 4)
  esi := wordAt mem (a + 8)
  ebp := wordAt mem (a + 12)
  esp := wordAt mem (a + 16)
  ebx := wordAt mem (a + 20)
  edx := wordAt mem (a + 24)
  ecx := wordAt mem (a + 28)
  eax := wordAt mem (a + 32)
  intNo := wordAt mem (a + 36)
  err := wordAt mem (a + 40)
  eip := wordAt mem (a + 44)
  cs := wordAt mem (a + 48)
  eflags := wordAt mem (a + 52)
  useresp := wordAt mem (a + 56)
  ss := wordAt mem (a + 60)

section

variable {σ : Type} {ε : Type*}

/-- The argument of a called function, above the return address. -/
def argument (m : Machine σ) : Registers := Registers.load m.mem ((m.reg .esp).toNat + 4)

/-- What a called function leaves as it was: the stack pointer, the segment registers, the return
address and its argument up to the flags. -/
structure Kept (m m' : Machine σ) : Prop where
  esp : m'.reg .esp = m.reg .esp
  seg : m'.seg = m.seg
  mem : ∀ x, (m.reg .esp).toNat ≤ x → x < (m.reg .esp).toNat + 60 → m'.mem x = m.mem x

/-- **The machine code of the C functions** `fn` keeps to the calling convention, and a function
does not assign to its argument. Whatever else it does to the registers and to the memory is left
open. -/
structure CallsC (callee : Handlers → Machine σ → Except ε (Machine σ))
    (fn : Handlers → Registers → σ → Except ε σ) : Prop where
  returns : ∀ f m w, fn f (argument m) m.world = .ok w →
    ∃ m', callee f m = .ok m' ∧ m'.world = w ∧ Kept m m'
  stops : ∀ f m e, fn f (argument m) m.world = .error e → callee f m = .error e

/-- The selector of the kernel's code segment. -/
def kernelCs : BitVec 16 := 0x08

/-- An interrupt with the vector `num`, from its delivery on. -/
def takeInterrupt (callee : Handlers → Machine σ → Except ε (Machine σ)) (ret : BitVec 32)
    (fuel : ℕ) (num : Fin 48) (err : Option (BitVec 32)) (m : Machine σ) :
    Option (Except ε (Machine σ)) :=
  exec code callee ret fuel (code (.isr num)) (interrupt m kernelCs err)

/-- A run does what the C function does: it stops with it, or returns with its result in a machine
with the property `P`. -/
def Outcome (run : Option (Except ε (Machine σ))) (result : Except ε σ) (P : Machine σ → Prop) :
    Prop :=
  match result with
  | .error stop => run = some (.error stop)
  | .ok w => ∃ m', run = some (.ok m') ∧ m'.world = w ∧ P m'

theorem Outcome.mono {run : Option (Except ε (Machine σ))} {result : Except ε σ}
    {P Q : Machine σ → Prop} (h : Outcome run result P) (hPQ : ∀ m', P m' → Q m') :
    Outcome run result Q := by
  cases result with
  | error stop => exact h
  | ok w =>
    obtain ⟨m', hrun, hworld, hP⟩ := h
    exact ⟨m', hrun, hworld, hPQ m' hP⟩

/-! ### Saving and restoring -/

/-- The segment registers with a selector in the data segments. -/
def dataSegments (seg : Seg → BitVec 16) (v : BitVec 16) : Seg → BitVec 16
  | .cs => seg .cs
  | .ss => seg .ss
  | _ => v

/-- The argument of a handler: the registers, and the words that are on the stack before they are
saved. `mov %ds, %ax` leaves the high half of `eax` in the field `ds`. -/
def savedRegisters (m : Machine σ) (n e a c fl u s : BitVec 32) : Registers where
  ds := withLow (m.reg .eax) (m.seg .ds)
  edi := m.reg .edi
  esi := m.reg .esi
  ebp := m.reg .ebp
  esp := m.reg .esp
  ebx := m.reg .ebx
  edx := m.reg .edx
  ecx := m.reg .ecx
  eax := m.reg .eax
  intNo := n
  err := e
  eip := a
  cs := c
  eflags := fl
  useresp := u
  ss := s

theorem setWidth_withLow (v : BitVec 32) (w : BitVec 16) : (withLow v w).setWidth 16 = w := by
  ext i hi
  have hbit := BitVec.getLsbD_append (x := v.extractLsb' 16 16) (y := w) (i := i)
  rw [if_pos hi] at hbit
  simpa [withLow, hi] using hbit

variable {callee : Handlers → Machine σ → Except ε (Machine σ)}
  {fn : Handlers → Registers → σ → Except ε σ} {ret : BitVec 32} {fuel : ℕ} {num : Fin 48}
  {err : Option (BitVec 32)} {m : Machine σ}
  {ds edi esi ebp esp ebx edx ecx eax n e a c fl u s : BitVec 32} {vs : List (BitVec 32)}

theorem foldl_loadSegments (m : Machine σ) : loadSegments.foldl Instr.step m =
    m.withSegs (dataSegments m.seg ((m.reg .eax).setWidth 16)) := by
  refine Machine.ext rfl ?_ rfl rfl rfl rfl
  funext s
  cases s <;> simp [loadSegments, Instr.step, dataSegments, Machine.withSegs]

/-- **Saving** puts the general registers on the stack and `ds` below them. -/
theorem saveRegisters_spec (h : m.Stack vs) (hroom : 36 ≤ (m.reg .esp).toNat) :
    (saveRegisters.foldl Instr.step m).Stack
        (withLow (m.reg .eax) (m.seg .ds) :: m.reg .edi :: m.reg .esi :: m.reg .ebp :: m.reg .esp ::
          m.reg .ebx :: m.reg .edx :: m.reg .ecx :: m.reg .eax :: vs) ∧
      (saveRegisters.foldl Instr.step m).reg .esp = m.reg .esp - 36 ∧
      (saveRegisters.foldl Instr.step m).seg .ss = m.seg .ss ∧
      (saveRegisters.foldl Instr.step m).world = m.world := by
  obtain ⟨hstack, hreg⟩ := h.pushAll [m.reg .eax, m.reg .ecx, m.reg .edx, m.reg .ebx,
    m.reg .esp, m.reg .ebp, m.reg .esi, m.reg .edi] (by simp; omega)
  rw [← Machine.pusha_eq_pushAll] at hstack hreg
  have hesp : m.pusha.reg .esp = m.reg .esp - 32 := by simp [hreg]
  have heax : m.pusha.reg .eax = m.reg .eax := by simp [hreg]
  have hds : m.pusha.seg .ds = m.seg .ds := rfl
  have hax : (m.pusha.setReg .eax (withLow (m.reg .eax) (m.seg .ds))).Stack _ :=
    hstack.congr (by simp) fun _ _ _ => rfl
  have hpush := hax.push (by simp [hesp]; bv_omega) (withLow (m.reg .eax) (m.seg .ds))
  rw [saveRegisters, List.foldl_append, foldl_loadSegments]
  simp only [List.foldl, Instr.step, heax, hds]
  refine ⟨hpush.congr (by simp) fun _ _ _ => by simp, ?_, rfl, rfl⟩
  simp only [Machine.reg_withSegs, Machine.reg_setReg, Machine.reg_push, Function.update_self,
    ne_eq, reduceCtorEq, not_false_eq_true, Function.update_of_ne, hesp, BitVec.sub_sub]
  rfl

/-- **A handler's stack is its argument.** -/
theorem argument_of_stack
    (h : m.Stack [ret, ds, edi, esi, ebp, esp, ebx, edx, ecx, eax, n, e, a, c, fl, u, s]) :
    argument m = ⟨ds, edi, esi, ebp, esp, ebx, edx, ecx, eax, n, e, a, c, fl, u, s⟩ := by
  have hwords := h.2
  simp only [OnStack, Nat.add_assoc, Nat.reduceAdd] at hwords
  simp only [argument, Registers.load, wordAt, Nat.add_assoc, Nat.reduceAdd, hwords]

/-- The end of the common code: the vector and the error code are passed over. -/
theorem return_spec (h : m.Stack (n :: e :: a :: c :: fl :: vs)) :
    (Instr.step (Instr.step m (.addImm 8 .esp : Instr Label Handlers))
        (.sti : Instr Label Handlers)).iret =
      { m with
        reg := Function.update m.reg .esp (m.reg .esp + 20)
        seg := Function.update m.seg .cs (c.setWidth 16)
        eip := a
        eflags := fl } := by
  have hargs : (Instr.step (Instr.step m (.addImm 8 .esp : Instr Label Handlers))
      (.sti : Instr Label Handlers)).Stack (a :: c :: fl :: vs) :=
    h.drop.drop.congr (by simp [Instr.step, BitVec.add_assoc]) fun _ _ _ => rfl
  rw [hargs.iret_eq]
  refine Machine.ext ?_ rfl rfl rfl rfl rfl
  simp [Instr.step, BitVec.add_assoc]

/-- **Restoring** loads what was saved, and returns to the interrupted code. -/
theorem restoreRegisters_spec
    (h : m.Stack (ds :: edi :: esi :: ebp :: esp :: ebx :: edx :: ecx :: eax :: n :: e :: a :: c ::
      fl :: vs)) :
    (restoreRegisters.foldl Instr.step m).iret = { m with
      reg := Machine.popRegs edi esi ebp ebx edx ecx eax (m.reg .esp + 56)
      seg := Function.update (dataSegments m.seg (ds.setWidth 16)) .cs (c.setWidth 16)
      eip := a
      eflags := fl } := by
  have heax : (m.pop .eax).reg .eax = ds := by
    rw [h.pop_eq, Machine.reg_setReg, Function.update_self]
  have hesp : (m.pop .eax).reg .esp = m.reg .esp + 4 := by
    rw [h.pop_eq]
    simp
  have hsegs : ((m.pop .eax).withSegs (dataSegments m.seg (ds.setWidth 16))).Stack
      (edi :: esi :: ebp :: esp :: ebx :: edx :: ecx :: eax :: n :: e :: a :: c :: fl :: vs) :=
    (h.pop (r := .eax) (by decide)).congr rfl fun _ _ _ => rfl
  obtain ⟨hpopa, hstack⟩ := hsegs.popa_eq
  have hrun : restoreRegisters.foldl Instr.step m = Instr.step (Instr.step
      ((m.pop .eax).withSegs (dataSegments m.seg (ds.setWidth 16))).popa
        (.addImm 8 .esp : Instr Label Handlers)) (.sti : Instr Label Handlers) := by
    rw [restoreRegisters, List.cons_append, List.foldl_cons, List.foldl_append, foldl_loadSegments]
    simp only [Instr.step, List.foldl, heax]
    rfl
  rw [hrun, return_spec hstack, hpopa]
  refine Machine.ext ?_ rfl rfl rfl rfl rfl
  funext r
  cases r <;> simp [Machine.popRegs, hesp, BitVec.add_assoc]

/-- What the interrupted code finds after the common code: `c` and `fl` are the words for `cs` and
for the flags. -/
structure Resumed (m m' : Machine σ) (a c fl : BitVec 32) : Prop where
  reg : m'.reg = Function.update m.reg .esp (m.reg .esp + 20)
  seg : m'.seg = Function.update (dataSegments m.seg (m.seg .ds)) .cs (c.setWidth 16)
  eip : m'.eip = a
  eflags : m'.eflags = fl

/-- **The common code** calls the handler for the saved registers and the words on the stack. If the
handler returns, the general registers are as they were before, without the five words. -/
theorem exec_common (hc : CallsC callee fn) (f : Handlers) (h : m.Stack [n, e, a, c, fl, u, s])
    (hroom : 40 ≤ (m.reg .esp).toNat) (hfuel : 18 ≤ fuel) :
    Outcome (exec code callee ret fuel (common f) m)
      (fn f (savedRegisters m n e a c fl u s) m.world)
      fun m' => Resumed m m' a c fl := by
  obtain ⟨k, rfl⟩ := Nat.exists_eq_add_of_le hfuel
  obtain ⟨hsaved, hesp, hss, hworld⟩ := saveRegisters_spec h (by omega)
  obtain ⟨m₁, hm₁⟩ : ∃ m₁, m₁ = saveRegisters.foldl Instr.step m := ⟨_, rfl⟩
  rw [← hm₁] at hsaved hesp hss hworld
  have hcall := hsaved.push (by rw [hesp]; bv_omega) ret
  have harg : argument (m₁.push ret) = savedRegisters m n e a c fl u s := argument_of_stack hcall
  have hrun : exec code callee ret (18 + k) (common f) m =
      exec code callee ret (k + 10) (.call f :: (restoreRegisters ++ [.iret])) m₁ := by
    rw [common,
      show 18 + k = saveRegisters.length + (k + 10) by simp [saveRegisters, loadSegments]; omega,
      exec_append rfl, ← hm₁]
  rw [hrun]
  cases hfn : fn f (savedRegisters m n e a c fl u s) m.world with
  | error stop =>
    rw [← harg, ← hworld] at hfn
    exact exec_call_error (hc.stops f (m₁.push ret) stop hfn) _ _
  | ok w =>
    rw [← harg, ← hworld] at hfn
    obtain ⟨m₂, hcallee, hw, hkept⟩ := hc.returns f (m₁.push ret) w hfn
    have hstack : m₂.Stack [ret, withLow (m.reg .eax) (m.seg .ds), m.reg .edi, m.reg .esi,
        m.reg .ebp, m.reg .esp, m.reg .ebx, m.reg .edx, m.reg .ecx, m.reg .eax, n, e, a, c, fl] :=
      (Machine.Stack.append_left _ hcall).congr hkept.esp hkept.mem
    have hesp' : m₂.drop.reg .esp = m.reg .esp - 36 := by
      rw [Machine.reg_drop, Function.update_self, hkept.esp, Machine.reg_push, Function.update_self,
        hesp, BitVec.sub_add_cancel]
    have hexit : exec code callee ret (k + 9) (restoreRegisters ++ [.iret]) m₂.drop =
        some (.ok (restoreRegisters.foldl Instr.step m₂.drop).iret) := by
      rw [show k + 9 = restoreRegisters.length + (k + 1) by
          simp [restoreRegisters, loadSegments]; omega,
        exec_append rfl]
      rfl
    have hiret := restoreRegisters_spec hstack.drop
    refine ⟨(restoreRegisters.foldl Instr.step m₂.drop).iret,
      (exec_call_ok hcallee _ _).trans hexit, ?_, ⟨?_, ?_, ?_, ?_⟩⟩
    all_goals rw [hiret]
    · exact hw
    · have hsp : m.reg .esp - 36 + 56 = m.reg .esp + 20 := by bv_omega
      funext r
      cases r <;> simp [Machine.popRegs, hesp']
      exact hsp
    · have hseg : m₂.drop.seg .ss = m.seg .ss := (congrFun hkept.seg .ss).trans hss
      funext r
      cases r <;> simp [dataSegments, setWidth_withLow, hseg]

/-! ### An interrupt -/

/-- The processor pushes an error code for these vectors: 8, 10 to 14, and 17. -/
def PushesErr (num : Fin 48) : Prop := HasErrStub num ∨ num = 17

instance (num : Fin 48) : Decidable (PushesErr num) := inferInstanceAs (Decidable (_ ∨ _))

/-- The argument of the handler for a vector. The stack is one word higher for the alignment check,
and the error code is then in the place of `eip`. -/
def entryRegisters (m : Machine σ) (num : Fin 48) (err : Option (BitVec 32)) : Registers :=
  let n := BitVec.ofNat 32 num.val
  let u := wordAt m.mem (m.reg .esp).toNat
  let s := wordAt m.mem ((m.reg .esp).toNat + 4)
  if num = 17 then
    { savedRegisters m n 0 (err.getD 0) m.eip ((m.seg .cs).setWidth 32) m.eflags u with
      esp := m.reg .esp - 24 }
  else
    { savedRegisters m n (err.getD 0) m.eip ((m.seg .cs).setWidth 32) m.eflags u s with
      esp := m.reg .esp - 20 }

/-- The stack has room for an interrupt, and does not end right behind its top. -/
structure StackRoom (m : Machine σ) : Prop where
  below : 64 ≤ (m.reg .esp).toNat
  above : (m.reg .esp).toNat + 8 < 2 ^ 32

/-- The interrupted code finds its registers as they were. -/
structure Restored (m m' : Machine σ) : Prop where
  reg : m'.reg = m.reg
  seg : m'.seg = m.seg
  eip : m'.eip = m.eip
  eflags : m'.eflags = m.eflags

/-- The words that the stub of a vector pushes. -/
def stubWords (num : Fin 48) : List (BitVec 32) :=
  (if HasErrStub num then [] else [0]) ++ [BitVec.ofNat 32 num.val]

/-- A stub pushes its words and goes on with the common code. -/
theorem stub_eq (num : Fin 48) : stub num = (.cli :: (stubWords num).map .pushImm) ++
    [.jmp (if 32 ≤ num then .irqCommon else .isrCommon)] := by
  rw [stub, stubWords]
  split_ifs with h₁ h₂ h₂
  · rcases h₂ with rfl | h₂ <;> omega
  all_goals rfl

/-- The machine at the start of the common code. -/
def entryMachine (m : Machine σ) (num : Fin 48) (err : Option (BitVec 32)) : Machine σ :=
  (Instr.step (interrupt m kernelCs err) (.cli : Instr Label Handlers)).pushAll (stubWords num)

theorem takeInterrupt_eq (callee : Handlers → Machine σ → Except ε (Machine σ)) (ret : BitVec 32)
    (num : Fin 48) (err : Option (BitVec 32)) (m : Machine σ) (hfuel : 22 ≤ fuel) : ∃ k, 18 ≤ k ∧
    takeInterrupt callee ret fuel num err m =
      exec code callee ret k (common (handlerOf num)) (entryMachine m num err) := by
  have hlen : (stubWords num).length ≤ 2 := by
    rw [stubWords]
    split_ifs <;> simp
  have hcode : code (if 32 ≤ num then .irqCommon else .isrCommon) = common (handlerOf num) := by
    rw [handlerOf]
    split_ifs <;> rfl
  obtain ⟨k, rfl⟩ : ∃ k, fuel =
      (.cli :: (stubWords num).map .pushImm : List (Instr Label Handlers)).length + (k + 1) :=
    ⟨fuel - (stubWords num).length - 2, by simp; omega⟩
  refine ⟨k, by simp at hfuel; omega, ?_⟩
  rw [takeInterrupt, code, stub_eq, exec_append (by simp [Instr.Straight]), exec, hcode,
    List.foldl_cons, List.foldl_map]
  rfl

/-- The machine at the start of the common code: the words of the stub and of the processor are on
the stack. -/
theorem entryMachine_spec (hroom : StackRoom m) (num : Fin 48) (err : Option (BitVec 32)) :
    (entryMachine m num err).Stack ((stubWords num).reverse ++ (err.toList ++ [m.eip,
        (m.seg .cs).setWidth 32, m.eflags, wordAt m.mem (m.reg .esp).toNat,
        wordAt m.mem ((m.reg .esp).toNat + 4)])) ∧
      (entryMachine m num err).reg = Function.update m.reg .esp (m.reg .esp -
        BitVec.ofNat 32 (4 * (3 + err.toList.length + (stubWords num).length))) ∧
      (entryMachine m num err).seg = Function.update m.seg .cs kernelCs ∧
      (entryMachine m num err).world = m.world := by
  have hlen : (stubWords num).length ≤ 2 := by
    rw [stubWords]
    split_ifs <;> simp
  have herr : err.toList.length ≤ 1 := by cases err <;> simp
  have hbelow := hroom.below
  have htop : m.Stack [wordAt m.mem (m.reg .esp).toNat, wordAt m.mem ((m.reg .esp).toNat + 4)] :=
    ⟨hroom.above, rfl, rfl, trivial⟩
  obtain ⟨hstack, hreg, hseg, hworld⟩ := interrupt_spec htop (by omega) kernelCs err
  have hcli : (Instr.step (interrupt m kernelCs err) (.cli : Instr Label Handlers)).Stack _ :=
    hstack.congr rfl fun _ _ _ => rfl
  have hesp : (m.reg .esp - BitVec.ofNat 32 (4 * (3 + err.toList.length))).toNat =
      (m.reg .esp).toNat - 4 * (3 + err.toList.length) := by
    rw [BitVec.toNat_sub_of_le (by rw [BitVec.le_def, BitVec.toNat_ofNat]; omega),
      BitVec.toNat_ofNat, Nat.mod_eq_of_lt (by omega)]
  obtain ⟨hstack', hreg'⟩ := hcli.pushAll (stubWords num) (by
    change _ ≤ ((interrupt m kernelCs err).reg .esp).toNat
    rw [hreg, Function.update_self, hesp]
    omega)
  obtain ⟨hseg', -, hworld'⟩ := (Instr.step (interrupt m kernelCs err)
    (.cli : Instr Label Handlers)).pushAll_fields (stubWords num)
  refine ⟨hstack', hreg'.trans ?_, hseg'.trans hseg, hworld'.trans hworld⟩
  change Function.update (interrupt m kernelCs err).reg .esp
    ((interrupt m kernelCs err).reg .esp - _) = _
  rw [hreg, Function.update_self, Function.update_idem, BitVec.sub_sub, ← BitVec.ofNat_add,
    ← Nat.mul_add]

/-- With the five words of an interrupt on the stack, all registers are restored but the data
segments that are not `ds`. -/
theorem restored_iff_of_resumed {m₁ m' : Machine σ}
    (h : Resumed m₁ m' m.eip ((m.seg .cs).setWidth 32) m.eflags)
    (hreg : m₁.reg = Function.update m.reg .esp (m.reg .esp - 20))
    (hseg : m₁.seg = Function.update m.seg .cs kernelCs) :
    Restored m m' ↔ m.seg .es = m.seg .ds ∧ m.seg .fs = m.seg .ds ∧ m.seg .gs = m.seg .ds := by
  have hreg' : m'.reg = m.reg := by
    rw [h.reg, hreg, Function.update_self, Function.update_idem, BitVec.sub_add_cancel,
      Function.update_eq_self]
  have hseg' : m'.seg = Function.update (dataSegments m.seg (m.seg .ds)) .cs (m.seg .cs) := by
    rw [h.seg, hseg]
    funext r
    cases r <;> simp [dataSegments]
  constructor
  · intro hrestored
    have hsame := hseg'.symm.trans hrestored.seg
    exact ⟨(congrFun hsame .es).symm, (congrFun hsame .fs).symm, (congrFun hsame .gs).symm⟩
  · rintro ⟨hes, hfs, hgs⟩
    refine ⟨hreg', hseg'.trans ?_, h.eip, h.eflags⟩
    funext r
    cases r <;> simp [dataSegments, hes, hfs, hgs]

/-- An interrupt, from the seven words on top of the stack at the start of the common code. -/
theorem takeInterrupt_of_stack {p : ℕ} (hc : CallsC callee fn) (hroom : StackRoom m)
    (hfuel : 22 ≤ fuel)
    (h : (entryMachine m num err).Stack (n :: e :: a :: c :: fl :: u :: s :: vs))
    (hesp : (entryMachine m num err).reg .esp = m.reg .esp - BitVec.ofNat 32 p) (hp : p ≤ 24) :
    Outcome (takeInterrupt callee ret fuel num err m)
      (fn (handlerOf num) (savedRegisters (entryMachine m num err) n e a c fl u s) m.world)
      fun m' => Resumed (entryMachine m num err) m' a c fl := by
  obtain ⟨k, hk, hrun⟩ := takeInterrupt_eq callee ret num err m hfuel
  obtain ⟨-, -, -, hworld⟩ := entryMachine_spec hroom num err
  have hbelow := hroom.below
  have hroom' : 40 ≤ ((entryMachine m num err).reg .esp).toNat := by
    rw [hesp, BitVec.toNat_sub_of_le (by rw [BitVec.le_def, BitVec.toNat_ofNat]; omega),
      BitVec.toNat_ofNat]
    omega
  rw [hrun, ← hworld]
  exact exec_common hc (handlerOf num) (Machine.Stack.append_left [_, _, _, _, _, _, _] h) hroom' hk

/-- **An interrupt**: the handler is called for the vector, and if it returns, the interrupted code
goes on. -/
theorem takeInterrupt_spec (hc : CallsC callee fn) (hroom : StackRoom m)
    (herr : err.isSome ↔ PushesErr num) (hfuel : 22 ≤ fuel) :
    Outcome (takeInterrupt callee ret fuel num err m)
      (fn (handlerOf num) (entryRegisters m num err) m.world) fun m' =>
        (Restored m m' ↔
          num ≠ 17 ∧ m.seg .es = m.seg .ds ∧ m.seg .fs = m.seg .ds ∧ m.seg .gs = m.seg .ds) := by
  obtain ⟨hstack, hreg, hseg, -⟩ := entryMachine_spec hroom num err
  by_cases h17 : num = 17
  · -- The word behind the zero of the stub is the error code of the processor.
    subst h17
    obtain ⟨e, rfl⟩ := Option.isSome_iff_exists.mp (herr.mpr (.inr rfl))
    have hesp : (entryMachine m 17 (some e)).reg .esp = m.reg .esp - BitVec.ofNat 32 24 := by
      rw [hreg, Function.update_self]
      rfl
    have hregs : entryRegisters m 17 (some e) = savedRegisters (entryMachine m 17 (some e)) 17 0 e
        m.eip ((m.seg .cs).setWidth 32) m.eflags (wordAt m.mem (m.reg .esp).toNat) := by
      simp [savedRegisters, entryRegisters, hreg, hseg, stubWords, HasErrStub]
    rw [hregs]
    refine (takeInterrupt_of_stack (p := 24) hc hroom hfuel hstack hesp le_rfl).mono
      fun m' hresumed => ?_
    refine iff_of_false (fun hrestored => ?_) fun h => h.1 rfl
    have hsame := congrFun (hresumed.reg.symm.trans hrestored.reg) .esp
    rw [Function.update_self, hesp] at hsame
    bv_omega
  · rw [and_iff_right h17]
    have hpushes : err.isSome ↔ HasErrStub num := herr.trans (or_iff_left h17)
    obtain ⟨e, herr', hlen⟩ : ∃ e, err.getD 0 = e ∧ (stubWords num).reverse ++ err.toList =
        [BitVec.ofNat 32 num.val, e] := by
      by_cases hstub : HasErrStub num
      · obtain ⟨e, rfl⟩ := Option.isSome_iff_exists.mp (hpushes.mpr hstub)
        exact ⟨e, rfl, by simp [stubWords, hstub]⟩
      · obtain rfl := Option.not_isSome_iff_eq_none.mp (hpushes.not.mpr hstub)
        exact ⟨0, rfl, by simp [stubWords, hstub]⟩
    rw [← List.append_assoc, hlen] at hstack
    have hwords : 3 + err.toList.length + (stubWords num).length = 5 := by
      have := congrArg List.length hlen
      simp at this
      omega
    rw [hwords] at hreg
    have hesp : (entryMachine m num err).reg .esp = m.reg .esp - BitVec.ofNat 32 20 := by
      rw [hreg, Function.update_self]
    have hregs : entryRegisters m num err = savedRegisters (entryMachine m num err)
        (BitVec.ofNat 32 num.val) e m.eip ((m.seg .cs).setWidth 32) m.eflags
        (wordAt m.mem (m.reg .esp).toNat) (wordAt m.mem ((m.reg .esp).toNat + 4)) := by
      simp [savedRegisters, entryRegisters, hreg, hseg, h17]
      exact herr'
    rw [hregs]
    exact (takeInterrupt_of_stack (p := 20) hc hroom hfuel hstack hesp (by decide)).mono
      fun m' hresumed => restored_iff_of_resumed hresumed hreg hseg

end

/-! ### A machine that records its interrupts -/

/-- The C functions record the number of the vector. -/
def recordVector (_ : Handlers) (regs : Registers) (w : List (BitVec 32)) :
    Except Unit (List (BitVec 32)) :=
  .ok (regs.intNo :: w)

/-- Their machine code leaves nothing in `eax`. -/
def recordCallee (f : Handlers) (m : Machine (List (BitVec 32))) :
    Except Unit (Machine (List (BitVec 32))) :=
  (recordVector f (argument m) m.world).map fun w => { m.setReg .eax 0 with world := w }

theorem recordCallee_callsC : CallsC recordCallee recordVector where
  returns _ _ _ h := ⟨_, congrArg (Except.map _) h, rfl, rfl, rfl, fun _ _ _ => rfl⟩
  stops _ _ _ h := congrArg (Except.map _) h

/-- The kernel, interrupted with its stack at `0x8000`. -/
def recordMachine : Machine (List (BitVec 32)) where
  reg r := if r = .esp then 0x8000 else 7
  seg s := if s = .cs then kernelCs else 0x10
  eip := 0x100000
  eflags := 0x202
  mem _ := 0
  world := []

section

variable {σ : Type} {ε : Type*} {callee : Handlers → Machine σ → Except ε (Machine σ)}
  {fn : Handlers → Registers → σ → Except ε σ} {ret : BitVec 32} {fuel : ℕ} {num : Fin 48}
  {err : Option (BitVec 32)} {m : Machine σ}

/-- **The handler sees the interrupt**: for every vector but the alignment check it is called with
the number of the vector, the error code of the processor or zero, and the interrupted registers. -/
theorem handler_called (hc : CallsC callee fn) (hroom : StackRoom m)
    (herr : err.isSome ↔ PushesErr num) (hfuel : 22 ≤ fuel) :
    (takeInterrupt callee ret fuel num err m).map (Except.map Machine.world) =
      some (fn (handlerOf num) (entryRegisters m num err) m.world) := by
  have houtcome : Outcome (takeInterrupt callee ret fuel num err m) _ _ :=
    takeInterrupt_spec hc hroom herr hfuel
  cases hfn : fn (handlerOf num) (entryRegisters m num err) m.world with
  | error stop =>
    rw [hfn] at houtcome
    rw [show takeInterrupt callee ret fuel num err m = some (.error stop) from houtcome]
    rfl
  | ok w =>
    rw [hfn] at houtcome
    obtain ⟨m', hrun, rfl, -⟩ := houtcome
    rw [hrun]
    rfl

/-- The timer interrupt, taken by the sample machine. -/
theorem handler_called_timer :
    (takeInterrupt recordCallee 0 22 32 none recordMachine).map (Except.map Machine.world) =
      some (.ok [32]) :=
  handler_called recordCallee_callsC ⟨by decide, by decide⟩ (by decide) le_rfl

/-- **The interrupted code finds its registers as they were** exactly when the vector is not that of
the alignment check, and the data segments are all that of `ds`. -/
theorem restored_iff (hc : CallsC callee fn) (hroom : StackRoom m)
    (herr : err.isSome ↔ PushesErr num) (hfuel : 22 ≤ fuel) {m' : Machine σ}
    (hrun : takeInterrupt callee ret fuel num err m = some (.ok m')) :
    Restored m m' ↔
      num ≠ 17 ∧ m.seg .es = m.seg .ds ∧ m.seg .fs = m.seg .ds ∧ m.seg .gs = m.seg .ds := by
  have houtcome : Outcome (takeInterrupt callee ret fuel num err m) _ _ :=
    takeInterrupt_spec hc hroom herr hfuel
  cases hfn : fn (handlerOf num) (entryRegisters m num err) m.world with
  | error stop =>
    rw [hfn] at houtcome
    cases hrun.symm.trans houtcome
  | ok w =>
    rw [hfn] at houtcome
    obtain ⟨m₁, hrun₁, -, hiff⟩ := houtcome
    cases hrun.symm.trans hrun₁
    exact hiff

end

/-- The sample machine goes on behind the timer interrupt. -/
theorem restored_timer : ∃ m',
    takeInterrupt recordCallee 0 22 32 none recordMachine = some (.ok m') ∧
      Restored recordMachine m' := by
  obtain ⟨m', hrun⟩ : ∃ m', takeInterrupt recordCallee 0 22 32 none recordMachine =
      some (.ok m') := ⟨_, rfl⟩
  exact ⟨m', hrun, (restored_iff recordCallee_callsC ⟨by decide, by decide⟩ (by decide) le_rfl
    hrun).mpr ⟨by decide, rfl, rfl, rfl⟩⟩

end Studix.CpuSetup
