import Studix.Base.Memory

/-!
# The stack instructions of IA-32

A 32-bit protected-mode processor with flat segments, as far as interrupt stubs use it: the general
and the segment registers, the stack, calls and the return from an interrupt. Code is a list of
instructions for each label; a called function is given by what it does to the machine. `world` is
the rest of the computer, on which only called functions act.

The top of the stack is a list of double words: `push` puts a word in front of it and `drop` takes
one away, so a straight line of instructions is followed on the list. Arithmetic flags are not
modelled: of `eflags`, an instruction of this subset changes the interrupt flag only, or loads it
whole.

## Main definitions

* `Machine`, `Instr`, `exec`: the processor and its code.
* `Machine.Stack`: the words on top of the stack.
* `interrupt`: what the processor does for an interrupt.

## Main results

* `Machine.Stack.push`, `Machine.Stack.drop`: the stack as a list.
* `exec_append`: a straight line of instructions, run as one step.
* `exec_call_ok`, `exec_call_error`: a call of a function that returns, or does not.
-/

namespace Studix.Ia32

variable {σ : Type} {ε L F : Type*}

/-- The general registers. -/
inductive Reg
  | eax | ecx | edx | ebx | esp | ebp | esi | edi
  deriving DecidableEq

/-- The segment registers. -/
inductive Seg
  | cs | ds | es | fs | gs | ss
  deriving DecidableEq

/-- The processor, the memory and the rest of the computer. -/
@[ext] structure Machine (σ : Type) where
  reg : Reg → BitVec 32
  seg : Seg → BitVec 16
  eip : BitVec 32
  eflags : BitVec 32
  mem : Memory
  world : σ

/-- The interrupt flag of `eflags`. -/
def interruptFlag : BitVec 32 := 1 <<< 9

namespace Machine

variable (m : Machine σ)

def setReg (r : Reg) (v : BitVec 32) : Machine σ := { m with reg := Function.update m.reg r v }

def setSeg (s : Seg) (v : BitVec 16) : Machine σ := { m with seg := Function.update m.seg s v }

def withRegs (reg : Reg → BitVec 32) : Machine σ := { m with reg := reg }

def withSegs (seg : Seg → BitVec 16) : Machine σ := { m with seg := seg }

/-- The double word on top of the stack. -/
def top : BitVec 32 := BitVec.ofNat 32 (load32 m.mem (m.reg .esp).toNat)

/-- The stack without its top. -/
def drop : Machine σ := m.setReg .esp (m.reg .esp + 4)

/-- `pushl`. -/
def push (v : BitVec 32) : Machine σ :=
  { m.setReg .esp (m.reg .esp - 4) with
    mem := store32 m.mem (m.reg .esp - 4).toNat v.toNat }

/-- `popl`. -/
def pop (r : Reg) : Machine σ := m.drop.setReg r m.top

/-- `pusha`: the stack pointer is pushed as it was before. -/
def pusha : Machine σ :=
  (((((((m.push (m.reg .eax)).push (m.reg .ecx)).push (m.reg .edx)).push (m.reg .ebx)).push
    (m.reg .esp)).push (m.reg .ebp)).push (m.reg .esi)).push (m.reg .edi)

/-- `popa`: the stack pointer on the stack is passed over. -/
def popa : Machine σ :=
  (((((((m.pop .edi).pop .esi).pop .ebp).drop).pop .ebx).pop .edx).pop .ecx).pop .eax

/-- `iret`, without a change of privilege. -/
def iret : Machine σ :=
  let m₁ := { m.drop with eip := m.top }
  let m₂ := m₁.drop.setSeg .cs (m₁.top.setWidth 16)
  { m₂.drop with eflags := m₂.top }

end Machine

/-! ### Code -/

/-- The instructions, in the order of the operands of the assembler: the destination is the last.
`L` are the labels of the code and `F` the functions that it calls. -/
inductive Instr (L F : Type*)
  | cli
  | sti
  | pushImm (v : BitVec 32)
  | pushReg (r : Reg)
  | popReg (r : Reg)
  | pusha
  | popa
  /-- `mov %s, %ax`. -/
  | movSegAx (s : Seg)
  /-- `mov $v, %ax`. -/
  | movImmAx (v : BitVec 16)
  /-- `mov %ax, %s`. -/
  | movAxSeg (s : Seg)
  /-- `addl $v, %r`. -/
  | addImm (v : BitVec 32) (r : Reg)
  | jmp (l : L)
  | call (f : F)
  | iret

/-- A double word with another low half. -/
def withLow (v : BitVec 32) (w : BitVec 16) : BitVec 32 := v.extractLsb' 16 16 ++ w

/-- The instructions that go on with the next one. -/
def Instr.Straight : Instr L F → Bool
  | .jmp _ | .call _ | .iret => false
  | _ => true

/-- One instruction that goes on with the next one. -/
def Instr.step (m : Machine σ) : Instr L F → Machine σ
  | .cli => { m with eflags := m.eflags &&& ~~~interruptFlag }
  | .sti => { m with eflags := m.eflags ||| interruptFlag }
  | .pushImm v => m.push v
  | .pushReg r => m.push (m.reg r)
  | .popReg r => m.pop r
  | .pusha => m.pusha
  | .popa => m.popa
  | .movSegAx s => m.setReg .eax (withLow (m.reg .eax) (m.seg s))
  | .movImmAx v => m.setReg .eax (withLow (m.reg .eax) v)
  | .movAxSeg s => m.setSeg s ((m.reg .eax).setWidth 16)
  | .addImm v r => m.setReg r (m.reg r + v)
  | .jmp _ | .call _ | .iret => m

/-- Run code up to its `iret`, within a bound on the instructions. `callee` is what a function does
between its entry, with the return address `ret` on the stack, and its `ret`; a function that does
not return stops the run. -/
def exec (code : L → List (Instr L F)) (callee : F → Machine σ → Except ε (Machine σ))
    (ret : BitVec 32) : ℕ → List (Instr L F) → Machine σ → Option (Except ε (Machine σ))
  | 0, _, _ => none
  | _ + 1, [], _ => none
  | n + 1, .jmp l :: _, m => exec code callee ret n (code l) m
  | _ + 1, .iret :: _, m => some (.ok m.iret)
  | n + 1, .call f :: is, m =>
    match callee f (m.push ret) with
    | .error e => some (.error e)
    | .ok m' => exec code callee ret n is m'.drop
  | n + 1, i :: is, m => exec code callee ret n is (i.step m)

/-- The processor takes an interrupt through a gate of the interrupt type, without a change of
privilege: it pushes the flags, the address of the code and, for some interrupts, an error code, and
clears the interrupt flag. -/
def interrupt (m : Machine σ) (selector : BitVec 16) (err : Option (BitVec 32)) : Machine σ :=
  let m₁ := ((m.push m.eflags).push ((m.seg .cs).setWidth 32)).push m.eip
  let m₂ := match err with
    | some e => m₁.push e
    | none => m₁
  { m₂.setSeg .cs selector with eflags := m₂.eflags &&& ~~~interruptFlag }

/-! ### What an instruction changes -/

namespace Machine

variable (m : Machine σ) (v : BitVec 32)

@[simp] theorem reg_setReg (r : Reg) : (m.setReg r v).reg = Function.update m.reg r v := rfl

@[simp] theorem seg_setReg (r : Reg) : (m.setReg r v).seg = m.seg := rfl

@[simp] theorem eflags_setReg (r : Reg) : (m.setReg r v).eflags = m.eflags := rfl

@[simp] theorem eip_setReg (r : Reg) : (m.setReg r v).eip = m.eip := rfl

@[simp] theorem mem_setReg (r : Reg) : (m.setReg r v).mem = m.mem := rfl

@[simp] theorem world_setReg (r : Reg) : (m.setReg r v).world = m.world := rfl

@[simp] theorem reg_setSeg (s : Seg) (w : BitVec 16) : (m.setSeg s w).reg = m.reg := rfl

@[simp] theorem seg_setSeg (s : Seg) (w : BitVec 16) :
    (m.setSeg s w).seg = Function.update m.seg s w := rfl

@[simp] theorem eflags_setSeg (s : Seg) (w : BitVec 16) : (m.setSeg s w).eflags = m.eflags := rfl

@[simp] theorem mem_setSeg (s : Seg) (w : BitVec 16) : (m.setSeg s w).mem = m.mem := rfl

@[simp] theorem world_setSeg (s : Seg) (w : BitVec 16) : (m.setSeg s w).world = m.world := rfl

@[simp] theorem reg_push : (m.push v).reg = Function.update m.reg .esp (m.reg .esp - 4) := rfl

@[simp] theorem seg_push : (m.push v).seg = m.seg := rfl

@[simp] theorem eflags_push : (m.push v).eflags = m.eflags := rfl

@[simp] theorem eip_push : (m.push v).eip = m.eip := rfl

@[simp] theorem world_push : (m.push v).world = m.world := rfl

theorem mem_push : (m.push v).mem = store32 m.mem (m.reg .esp - 4).toNat v.toNat := rfl

@[simp] theorem reg_withRegs (reg : Reg → BitVec 32) : (m.withRegs reg).reg = reg := rfl

@[simp] theorem reg_withSegs (seg : Seg → BitVec 16) : (m.withSegs seg).reg = m.reg := rfl

@[simp] theorem mem_withSegs (seg : Seg → BitVec 16) : (m.withSegs seg).mem = m.mem := rfl

@[simp] theorem reg_drop : m.drop.reg = Function.update m.reg .esp (m.reg .esp + 4) := rfl

end Machine

/-! ### The stack as a list -/

/-- The double words at an address. -/
def OnStack (mem : Memory) : ℕ → List (BitVec 32) → Prop
  | _, [] => True
  | a, v :: vs => BitVec.ofNat 32 (load32 mem a) = v ∧ OnStack mem (a + 4) vs

/-- The top of the stack holds the words `vs`. -/
def Machine.Stack (m : Machine σ) (vs : List (BitVec 32)) : Prop :=
  (m.reg .esp).toNat + 4 * vs.length < 2 ^ 32 ∧ OnStack m.mem (m.reg .esp).toNat vs

section

variable {mem mem' : Memory} {a : ℕ} {m : Machine σ} {v : BitVec 32} {vs ws : List (BitVec 32)}

theorem OnStack.congr (h : OnStack mem a vs)
    (heq : ∀ x, a ≤ x → x < a + 4 * vs.length → mem' x = mem x) : OnStack mem' a vs := by
  induction vs generalizing a with
  | nil => trivial
  | cons v vs ih =>
    rw [List.length_cons] at heq
    have hload : load32 mem' a = load32 mem a := by
      refine load32_congr fun x hx => ?_
      have hx := Set.mem_Ico.mp hx
      exact heq x hx.1 (by omega)
    exact ⟨by rw [hload]; exact h.1, ih h.2 fun x hx hx' => heq x (by omega) (by omega)⟩

/-- The words below the first ones. -/
theorem OnStack.append_left (h : OnStack mem a (vs ++ ws)) : OnStack mem a vs := by
  induction vs generalizing a with
  | nil => trivial
  | cons v vs ih => exact ⟨h.1, ih h.2⟩

theorem toNat_sub_four (h : 4 ≤ v.toNat) : (v - 4).toNat = v.toNat - 4 := by
  bv_omega

theorem toNat_add_four (h : v.toNat + 4 < 2 ^ 32) : (v + 4).toNat = v.toNat + 4 := by
  bv_omega

namespace Machine

/-- **A push puts a word in front.** -/
theorem Stack.push (h : m.Stack vs) (hroom : 4 ≤ (m.reg .esp).toNat) (v : BitVec 32) :
    (m.push v).Stack (v :: vs) := by
  have hesp : ((m.push v).reg .esp).toNat = (m.reg .esp).toNat - 4 := toNat_sub_four hroom
  have haddr : (m.reg .esp - 4).toNat = (m.reg .esp).toNat - 4 := toNat_sub_four hroom
  have hbound := h.1
  refine ⟨by rw [hesp, List.length_cons]; omega, ?_, ?_⟩
  · rw [hesp, mem_push, haddr, load32_store32 v.isLt, BitVec.ofNat_toNat, BitVec.setWidth_eq]
  · rw [hesp, Nat.sub_add_cancel hroom]
    refine h.2.congr fun x hx _ => ?_
    rw [mem_push, haddr, store32_apply_of_notMem (by omega)]

theorem Stack.top_eq (h : m.Stack (v :: vs)) : m.top = v := h.2.1

/-- **A pop takes the word in front away.** -/
theorem Stack.drop (h : m.Stack (v :: vs)) : m.drop.Stack vs := by
  have hbound := h.1
  rw [List.length_cons] at hbound
  have hesp : (m.drop.reg .esp).toNat = (m.reg .esp).toNat + 4 := toNat_add_four (by omega)
  refine ⟨by omega, ?_⟩
  rw [hesp]
  exact h.2.2

/-- The first words of the stack. -/
theorem Stack.append_left (vs : List (BitVec 32)) (h : m.Stack (vs ++ ws)) : m.Stack vs := by
  have hbound := h.1
  rw [List.length_append] at hbound
  exact ⟨by omega, h.2.append_left⟩

/-- The stack depends on the stack pointer and on the memory that it lies in. -/
theorem Stack.congr {m' : Machine σ} (h : m.Stack vs) (hesp : m'.reg .esp = m.reg .esp)
    (hmem : ∀ x, (m.reg .esp).toNat ≤ x → x < (m.reg .esp).toNat + 4 * vs.length →
      m'.mem x = m.mem x) : m'.Stack vs :=
  ⟨by rw [hesp]; exact h.1, by rw [hesp]; exact h.2.congr hmem⟩

theorem Stack.pop_eq (h : m.Stack (v :: vs)) (r : Reg) : m.pop r = m.drop.setReg r v := by
  rw [Machine.pop, h.top_eq]

theorem Stack.pop (h : m.Stack (v :: vs)) {r : Reg} (hr : r ≠ .esp) : (m.pop r).Stack vs := by
  refine h.drop.congr ?_ fun _ _ _ => rfl
  rw [h.pop_eq, reg_setReg, Function.update_of_ne hr.symm]

end Machine

end

/-! ### The composed instructions -/

namespace Machine

variable {m : Machine σ} {vs : List (BitVec 32)}
  {eax ecx edx ebx esp ebp esi edi a c fl : BitVec 32}

/-- The registers in the order in which `popa` takes them from the stack. -/
def popRegs (edi esi ebp ebx edx ecx eax esp : BitVec 32) : Reg → BitVec 32
  | .eax => eax
  | .ecx => ecx
  | .edx => edx
  | .ebx => ebx
  | .esp => esp
  | .ebp => ebp
  | .esi => esi
  | .edi => edi

/-- Several pushes, the first word first. -/
def pushAll (m : Machine σ) (ws : List (BitVec 32)) : Machine σ := ws.foldl Machine.push m

theorem pushAll_cons (m : Machine σ) (w : BitVec 32) (ws : List (BitVec 32)) :
    m.pushAll (w :: ws) = (m.push w).pushAll ws := rfl

/-- **Several pushes** put the words in front, the last one on top. -/
theorem Stack.pushAll (h : m.Stack vs) (ws : List (BitVec 32))
    (hroom : 4 * ws.length ≤ (m.reg .esp).toNat) :
    (m.pushAll ws).Stack (ws.reverse ++ vs) ∧
      (m.pushAll ws).reg =
        Function.update m.reg .esp (m.reg .esp - BitVec.ofNat 32 (4 * ws.length)) := by
  induction ws generalizing m vs with
  | nil => exact ⟨h, by simp [Machine.pushAll]⟩
  | cons w ws ih =>
    rw [List.length_cons] at hroom
    have hesp : ((m.push w).reg .esp).toNat = (m.reg .esp).toNat - 4 := toNat_sub_four (by omega)
    obtain ⟨hstack, hreg⟩ := ih (h.push (by omega) w) (by omega)
    rw [pushAll_cons, List.reverse_cons, List.append_assoc]
    refine ⟨hstack, hreg.trans ?_⟩
    rw [reg_push, Function.update_self, Function.update_idem, BitVec.sub_sub, List.length_cons,
      Nat.mul_succ, Nat.add_comm, BitVec.ofNat_add]
    rfl

theorem pusha_eq_pushAll (m : Machine σ) : m.pusha = m.pushAll [m.reg .eax, m.reg .ecx, m.reg .edx,
    m.reg .ebx, m.reg .esp, m.reg .ebp, m.reg .esi, m.reg .edi] := rfl

theorem pushAll_fields (m : Machine σ) (ws : List (BitVec 32)) :
    (m.pushAll ws).seg = m.seg ∧ (m.pushAll ws).eflags = m.eflags ∧
      (m.pushAll ws).world = m.world := by
  induction ws generalizing m with
  | nil => exact ⟨rfl, rfl, rfl⟩
  | cons w ws ih => exact ih (m.push w)

/-- **`popa`** loads the general registers but the stack pointer from the stack. -/
theorem Stack.popa_eq (h : m.Stack (edi :: esi :: ebp :: esp :: ebx :: edx :: ecx :: eax :: vs)) :
    m.popa = m.withRegs (popRegs edi esi ebp ebx edx ecx eax (m.reg .esp + 32)) ∧
      m.popa.Stack vs := by
  have h₁ := h.pop (r := .edi) (by decide)
  have h₂ := h₁.pop (r := .esi) (by decide)
  have h₃ := h₂.pop (r := .ebp) (by decide)
  have h₄ := h₃.drop
  have h₅ := h₄.pop (r := .ebx) (by decide)
  have h₆ := h₅.pop (r := .edx) (by decide)
  have h₇ := h₆.pop (r := .ecx) (by decide)
  have h₈ := h₇.pop (r := .eax) (by decide)
  have hreg : m.popa.reg = popRegs edi esi ebp ebx edx ecx eax (m.reg .esp + 32) := by
    funext r
    rw [Machine.popa, h₇.pop_eq, h₆.pop_eq, h₅.pop_eq, h₄.pop_eq, h₂.pop_eq, h₁.pop_eq, h.pop_eq]
    cases r <;> simp [popRegs, BitVec.add_assoc]
  exact ⟨Machine.ext hreg rfl rfl rfl rfl rfl, h₈⟩

/-- **`iret`** loads the address of the code and the flags from the stack. -/
theorem Stack.iret_eq (h : m.Stack (a :: c :: fl :: vs)) :
    m.iret = { m with
      reg := Function.update m.reg .esp (m.reg .esp + 12)
      seg := Function.update m.seg .cs (c.setWidth 16)
      eip := a
      eflags := fl } := by
  have h₁ := h.drop
  have h₂ := h₁.drop
  have hreg : m.iret.reg = Function.update m.reg .esp (m.reg .esp + 12) := by
    simp [Machine.iret, Machine.drop, BitVec.add_assoc]
  refine Machine.ext hreg ?_ h.top_eq ?_ rfl rfl
  · exact congrArg (fun v : BitVec 32 => Function.update m.seg .cs (v.setWidth 16)) h₁.top_eq
  · exact h₂.top_eq

end Machine

theorem interrupt_eq (m : Machine σ) (selector : BitVec 16) (err : Option (BitVec 32)) :
    interrupt m selector err =
      { (m.pushAll ([m.eflags, (m.seg .cs).setWidth 32, m.eip] ++ err.toList)).setSeg .cs selector
        with eflags := m.eflags &&& ~~~interruptFlag } := by
  cases err <;> rfl

/-- **What the processor leaves on the stack for an interrupt.** -/
theorem interrupt_spec {m : Machine σ} {vs : List (BitVec 32)} (h : m.Stack vs)
    (hroom : 16 ≤ (m.reg .esp).toNat) (selector : BitVec 16) (err : Option (BitVec 32)) :
    (interrupt m selector err).Stack
        (err.toList ++ m.eip :: (m.seg .cs).setWidth 32 :: m.eflags :: vs) ∧
      (interrupt m selector err).reg = Function.update m.reg .esp
        (m.reg .esp - BitVec.ofNat 32 (4 * (3 + err.toList.length))) ∧
      (interrupt m selector err).seg = Function.update m.seg .cs selector ∧
      (interrupt m selector err).world = m.world := by
  have hlen : err.toList.length ≤ 1 := by cases err <;> simp
  obtain ⟨hstack, hreg⟩ :=
    h.pushAll ([m.eflags, (m.seg .cs).setWidth 32, m.eip] ++ err.toList) (by simp; omega)
  obtain ⟨hseg, -, hworld⟩ := m.pushAll_fields
    ([m.eflags, (m.seg .cs).setWidth 32, m.eip] ++ err.toList)
  rw [interrupt_eq]
  refine ⟨?_, ?_, ?_, hworld⟩
  · have hwords : ([m.eflags, (m.seg .cs).setWidth 32, m.eip] ++ err.toList).reverse ++ vs =
        err.toList ++ m.eip :: (m.seg .cs).setWidth 32 :: m.eflags :: vs := by
      cases err <;> rfl
    rw [hwords] at hstack
    exact hstack.congr rfl fun _ _ _ => rfl
  · refine hreg.trans ?_
    rw [List.length_append]
    rfl
  · exact congrArg (fun seg => Function.update seg .cs selector) hseg

/-! ### Straight lines -/

/-- **A straight line of instructions is one step.** -/
theorem exec_append {code : L → List (Instr L F)} {callee : F → Machine σ → Except ε (Machine σ)}
    {ret : BitVec 32} {is : List (Instr L F)} (h : is.all Instr.Straight = true) (n : ℕ)
    (rest : List (Instr L F)) (m : Machine σ) :
    exec code callee ret (is.length + n) (is ++ rest) m =
      exec code callee ret n rest (is.foldl Instr.step m) := by
  induction is generalizing m with
  | nil => simp
  | cons i is ih =>
    rw [List.all_cons, Bool.and_eq_true] at h
    rw [List.length_cons, Nat.add_right_comm, List.cons_append, List.foldl_cons, ← ih h.2]
    cases i <;> first | rfl | simp [Instr.Straight] at h

/-! ### Calls -/

section

variable {code : L → List (Instr L F)} {callee : F → Machine σ → Except ε (Machine σ)}
  {ret : BitVec 32} {f : F} {m : Machine σ}

/-- A function that does not return stops the run. -/
theorem exec_call_error {e : ε} (h : callee f (m.push ret) = .error e) (n : ℕ)
    (rest : List (Instr L F)) :
    exec code callee ret (n + 1) (.call f :: rest) m = some (.error e) := by
  rw [exec, h]

/-- A function that returns takes the return address from the stack. -/
theorem exec_call_ok {m' : Machine σ} (h : callee f (m.push ret) = .ok m') (n : ℕ)
    (rest : List (Instr L F)) :
    exec code callee ret (n + 1) (.call f :: rest) m = exec code callee ret n rest m'.drop := by
  rw [exec, h]

end

end Studix.Ia32
