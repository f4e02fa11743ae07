import Studix.Base.Memory

/-!
# A pair of 8259A interrupt controllers

Two interrupt controllers with eight lines each, the second one behind line 2 of the first. A
request on a line is kept until the processor acknowledges it; the controller then takes the line
into service, and no line of the same or a lower priority is passed on until the end of the
interrupt. The controllers are set up by a sequence of command words.

The lines are edge-triggered: a request that was made is not withdrawn. Of the operation commands,
the two that end an interrupt are modelled; the others rotate priorities or select what is read
back.

## Main definitions

* `Chip`, `Chip.command`, `Chip.data`: one controller and its two ports.
* `Pics`, `Pics.raise`, `Pics.acknowledge`, `Pics.outb`: the pair.
* `Pics.Ready`: the pair is set up, and no line is masked or in service.

## Main results

* `Pics.Ready.acknowledge_eq`: the line that is passed on, by `priority`.
* `Pics.Ready.endOfInterrupt`: the end of an interrupt leaves the pair without the request.
-/

namespace Studix.I8259

/-- What the controller takes the next word at its data port for. -/
inductive Phase
  /-- The base of the vectors; whether there is one controller only, and whether a last word
  comes. -/
  | icw2 (single icw4 : Bool)
  /-- The lines with another controller, or the number of the line that this one is behind. -/
  | icw3 (icw4 : Bool)
  /-- The mode. -/
  | icw4
  /-- The mask of the lines. -/
  | ready
  deriving DecidableEq

/-- A controller: the requests, the lines in service, the mask, the first vector, the word for the
cascade, and the automatic end of interrupts. -/
structure Chip where
  irr : ℕ → Bool
  isr : ℕ → Bool
  imr : Byte
  base : ℕ
  cascade : Byte
  autoEoi : Bool
  phase : Phase

namespace Chip

/-- The line in service with the highest priority is taken out of service. -/
def endOfInterrupt (c : Chip) : Chip :=
  match (List.range 8).find? c.isr with
  | some j => { c with isr := Function.update c.isr j false }
  | none => c

/-- A word at the command port: bit 4 starts the setup, and without it and bit 3 the three high bits
are an operation. -/
def command (c : Chip) (v : Byte) : Chip :=
  if v.getLsbD 4 then
    { c with
      irr := fun _ => false
      isr := fun _ => false
      imr := 0
      autoEoi := false
      phase := .icw2 (v.getLsbD 1) (v.getLsbD 0) }
  else if v.getLsbD 3 then c
  else if v.toNat / 32 = 1 then c.endOfInterrupt
  else if v.toNat / 32 = 3 then { c with isr := Function.update c.isr (v.toNat % 8) false }
  else c

/-- A word at the data port. -/
def data (c : Chip) (v : Byte) : Chip :=
  match c.phase with
  | .icw2 single icw4 =>
    { c with
      base := v.toNat / 8 * 8
      phase := if single then (if icw4 then .icw4 else .ready) else .icw3 icw4 }
  | .icw3 icw4 => { c with cascade := v, phase := if icw4 then .icw4 else .ready }
  | .icw4 => { c with autoEoi := v.getLsbD 1, phase := .ready }
  | .ready => { c with imr := v }

/-- The line that the controller passes on: the first one with a request, not masked, with no line
in service up to it. -/
def serve (c : Chip) (lines : ℕ → Bool) : Option ℕ :=
  (List.range 8).find? fun j =>
    lines j && !c.imr.getLsbD j && (List.range (j + 1)).all fun i => !c.isr i

/-- The line is taken into service. -/
def accept (c : Chip) (j : ℕ) : Chip :=
  { c with
    irr := Function.update c.irr j false
    isr := Function.update c.isr j !c.autoEoi }

def raise (c : Chip) (j : ℕ) : Chip := { c with irr := Function.update c.irr j true }

end Chip

/-- The pair. -/
structure Pics where
  master : Chip
  slave : Chip

namespace Pics

/-- The slave is behind the line. -/
def onCascade (p : Pics) (j : ℕ) : Bool :=
  p.master.cascade.getLsbD j && p.slave.cascade.toNat % 8 == j

/-- The lines of the master with a request. -/
def masterLines (p : Pics) (j : ℕ) : Bool :=
  p.master.irr j || p.onCascade j && (p.slave.serve p.slave.irr).isSome

/-- A device requests an interrupt on one of the sixteen lines. -/
def raise (p : Pics) (i : ℕ) : Pics :=
  if i < 8 then { p with master := p.master.raise i } else { p with slave := p.slave.raise (i - 8) }

/-- The processor acknowledges an interrupt: it gets the vector of the line that is passed on. -/
def acknowledge (p : Pics) : Option (ℕ × Pics) :=
  match p.master.serve p.masterLines with
  | none => none
  | some j =>
    match if p.onCascade j then p.slave.serve p.slave.irr else none with
    | some k => some (p.slave.base + k, ⟨p.master.accept j, p.slave.accept k⟩)
    | none => some (p.master.base + j, ⟨p.master.accept j, p.slave⟩)

/-- A byte at one of the ports of the pair. -/
def outb (p : Pics) (port : ℕ) (v : Byte) : Pics :=
  if port = 0x20 then { p with master := p.master.command v }
  else if port = 0x21 then { p with master := p.master.data v }
  else if port = 0xA0 then { p with slave := p.slave.command v }
  else if port = 0xA1 then { p with slave := p.slave.data v }
  else p

/-! ### The pair without an interrupt in service -/

/-- The pair is set up with the slave behind line 2, and no line is masked or in service. Line 2 of
the master has no device. -/
structure Ready (p : Pics) : Prop where
  master_imr : p.master.imr = 0
  slave_imr : p.slave.imr = 0
  master_isr : p.master.isr = fun _ => false
  slave_isr : p.slave.isr = fun _ => false
  master_eoi : p.master.autoEoi = false
  slave_eoi : p.slave.autoEoi = false
  master_cascade : p.master.cascade = 4
  slave_cascade : p.slave.cascade = 2
  line_two : p.master.irr 2 = false

/-- The lines with a request. -/
def pending (p : Pics) (i : ℕ) : Bool := if i < 8 then p.master.irr i else p.slave.irr (i - 8)

/-- The lines in the order of their priority: those of the slave are in the place of line 2. -/
def priority : List ℕ := [0, 1] ++ (List.range 8).map (8 + ·) ++ [3, 4, 5, 6, 7]

/-- The line of a device is taken into service. -/
def accept (p : Pics) (i : ℕ) : Pics :=
  if i < 8 then { p with master := p.master.accept i }
  else ⟨p.master.accept 2, p.slave.accept (i - 8)⟩

/-- The vector of a line. -/
def vector (p : Pics) (i : ℕ) : ℕ :=
  if i < 8 then p.master.base + i else p.slave.base + (i - 8)

/-- The pair without the request on a line. -/
def withdraw (p : Pics) (i : ℕ) : Pics :=
  if i < 8 then { p with master := { p.master with irr := Function.update p.master.irr i false } }
  else { p with slave := { p.slave with irr := Function.update p.slave.irr (i - 8) false } }

end Pics

/-- A controller with no line masked or in service passes on the first line with a request. -/
theorem Chip.serve_eq {c : Chip} (hmask : c.imr = 0) (hservice : c.isr = fun _ => false)
    (lines : ℕ → Bool) : c.serve lines = (List.range 8).find? lines := by
  have hidle : ∀ j : ℕ, ((List.range (j + 1)).all fun _ => !false) = true := by
    intro j
    simp
  simp only [Chip.serve, hmask, hservice, hidle]
  simp

/-- **The setup of a controller**: with another one, with a last word, which leaves the end of
interrupts to the processor, and no line masked. -/
theorem Chip.setup_eq (c : Chip) (base cascade : Byte) :
    ((((c.command 0x11).data base).data cascade).data 0x01).data 0x00 =
      { irr := fun _ => false
        isr := fun _ => false
        imr := 0
        base := base.toNat / 8 * 8
        cascade := cascade
        autoEoi := false
        phase := .ready } := rfl

/-- The word that ends an interrupt. -/
def endOfInterrupt : Byte := 0x20

theorem command_endOfInterrupt (c : Chip) : c.command endOfInterrupt = c.endOfInterrupt := rfl

/-- With no other line in service, the end of an interrupt leaves only the request withdrawn. -/
theorem Chip.endOfInterrupt_accept {c : Chip} (hservice : c.isr = fun _ => false)
    (hauto : c.autoEoi = false) {j : ℕ} (hj : j < 8) :
    (c.accept j).endOfInterrupt = { c with irr := Function.update c.irr j false } := by
  have hfind : (List.range 8).find? (c.accept j).isr = some j := by
    rw [List.find?_eq_some_iff_getElem]
    refine ⟨by simp [accept, hauto], j, by simpa using hj, by simp, fun k hk => ?_⟩
    simp [accept, hservice, Nat.ne_of_lt hk]
  rw [endOfInterrupt, hfind]
  simp [accept, hservice]

namespace Pics.Ready

variable {p : Pics} {i : ℕ}

theorem onCascade_iff (h : p.Ready) (j : ℕ) : p.onCascade j = decide (j = 2) := by
  rw [onCascade, h.master_cascade, h.slave_cascade]
  by_cases hj : j = 2
  · subst hj
    rfl
  · have hne : ((2 : Byte).toNat % 8 == j) = false := by
      rw [beq_eq_false_iff_ne]
      exact fun heq => hj heq.symm
    rw [hne, Bool.and_false, decide_eq_false hj]

/-- The slave passes on its first line with a request. -/
theorem find_slave (h : p.Ready) : ((List.range 8).map (8 + ·)).find? p.pending =
    (p.slave.serve p.slave.irr).map (8 + ·) := by
  rw [Chip.serve_eq h.slave_imr h.slave_isr, List.find?_map]
  congr 2
  funext k
  simp [pending]

/-- A line of the master other than that of the slave is passed on with its own vector. -/
theorem acknowledge_master (h : p.Ready) {j : ℕ} (hj : j < 8) (hne : j ≠ 2)
    (hserve : p.master.serve p.masterLines = some j) :
    p.acknowledge = some (p.vector j, p.accept j) := by
  simp only [acknowledge, hserve, h.onCascade_iff, decide_eq_false hne, Bool.false_eq_true,
    if_false, vector, accept, if_pos hj]

/-- The lines of the master have a request exactly when they are pending. -/
theorem find_master {l : List ℕ} (hl : ∀ j ∈ l, j < 8) :
    l.find? p.pending = l.find? p.master.irr := by
  refine List.find?_congr fun j hj => ?_
  rw [pending, if_pos (hl j hj)]

/-- **The line that is passed on** is the first one with a request in the order of priority. -/
theorem acknowledge_eq (h : p.Ready) : p.acknowledge =
    (priority.find? p.pending).map fun i => (p.vector i, p.accept i) := by
  have hlines : p.master.serve p.masterLines = ([0, 1].find? p.master.irr).or
      ((if (p.slave.serve p.slave.irr).isSome then some 2 else none).or
        ([3, 4, 5, 6, 7].find? p.master.irr)) := by
    rw [Chip.serve_eq h.master_imr h.master_isr]
    simp only [show List.range 8 = [0, 1, 2, 3, 4, 5, 6, 7] from rfl, List.find?_cons,
      List.find?_nil, masterLines, h.onCascade_iff, h.line_two]
    cases p.master.irr 0 <;> cases p.master.irr 1 <;>
      cases (p.slave.serve p.slave.irr).isSome <;> simp
  rw [priority, List.find?_append, List.find?_append, h.find_slave, find_master (by decide),
    find_master (by decide)]
  cases hfirst : [0, 1].find? p.master.irr with
  | some j =>
    have hj : j ∈ [0, 1] := List.mem_of_find?_eq_some hfirst
    rw [hfirst, Option.some_or] at hlines
    have hlt : j < 8 ∧ j ≠ 2 := by
      simp only [List.mem_cons, List.not_mem_nil, or_false] at hj
      omega
    rw [h.acknowledge_master hlt.1 hlt.2 hlines]
    rfl
  | none =>
    rw [hfirst, Option.none_or] at hlines
    cases hslave : p.slave.serve p.slave.irr with
    | some k =>
      rw [hslave, Option.isSome_some, if_pos rfl, Option.some_or] at hlines
      simp [acknowledge, hlines, h.onCascade_iff, hslave, vector, accept]
    | none =>
      rw [hslave, Option.isSome_none, if_neg Bool.false_ne_true, Option.none_or] at hlines
      cases hlast : [3, 4, 5, 6, 7].find? p.master.irr with
      | some j =>
        have hj : j ∈ [3, 4, 5, 6, 7] := List.mem_of_find?_eq_some hlast
        rw [hlast] at hlines
        have hlt : j < 8 ∧ j ≠ 2 := by
          simp only [List.mem_cons, List.not_mem_nil, or_false] at hj
          omega
        rw [h.acknowledge_master hlt.1 hlt.2 hlines]
        rfl
      | none =>
        rw [hlast] at hlines
        rw [acknowledge, hlines]
        rfl

theorem withdraw (h : p.Ready) (i : ℕ) : (p.withdraw i).Ready := by
  rw [Pics.withdraw]
  split_ifs
  · refine ⟨h.master_imr, h.slave_imr, h.master_isr, h.slave_isr, h.master_eoi, h.slave_eoi,
      h.master_cascade, h.slave_cascade, ?_⟩
    rcases eq_or_ne i 2 with rfl | hne
    · exact Function.update_self 2 false p.master.irr
    · exact (Function.update_of_ne hne.symm false p.master.irr).trans h.line_two
  · exact ⟨h.master_imr, h.slave_imr, h.master_isr, h.slave_isr, h.master_eoi, h.slave_eoi,
      h.master_cascade, h.slave_cascade, h.line_two⟩

theorem raise (h : p.Ready) (hi : i ≠ 2) : (p.raise i).Ready := by
  have htwo : Function.update p.master.irr i true 2 = false := by
    rw [Function.update_of_ne hi.symm]
    exact h.line_two
  rw [Pics.raise]
  split_ifs
  · exact ⟨h.master_imr, h.slave_imr, h.master_isr, h.slave_isr, h.master_eoi, h.slave_eoi,
      h.master_cascade, h.slave_cascade, htwo⟩
  · exact ⟨h.master_imr, h.slave_imr, h.master_isr, h.slave_isr, h.master_eoi, h.slave_eoi,
      h.master_cascade, h.slave_cascade, h.line_two⟩

/-- **The end of an interrupt on a line of the master.** -/
theorem endOfInterrupt_master (h : p.Ready) (hi : i < 8) :
    (p.accept i).outb 0x20 endOfInterrupt = p.withdraw i := by
  simp only [accept, if_pos hi, outb, Pics.withdraw, if_true, command_endOfInterrupt]
  rw [Chip.endOfInterrupt_accept h.master_isr h.master_eoi hi]

/-- **The end of an interrupt on a line of the slave** takes a word for each of the two. -/
theorem endOfInterrupt_slave (h : p.Ready) (hi : 8 ≤ i) (hi' : i < 16) :
    ((p.accept i).outb 0xA0 endOfInterrupt).outb 0x20 endOfInterrupt = p.withdraw i := by
  have hmaster : Function.update p.master.irr 2 false = p.master.irr := by
    rw [← h.line_two, Function.update_eq_self]
  simp only [accept, if_neg (Nat.not_lt.mpr hi), outb, Pics.withdraw, command_endOfInterrupt,
    Nat.reduceEqDiff, if_true, if_false]
  rw [Chip.endOfInterrupt_accept h.master_isr h.master_eoi (by omega),
    Chip.endOfInterrupt_accept h.slave_isr h.slave_eoi (by omega), hmaster]

end Pics.Ready

/-! ### Requests -/

namespace Pics

theorem pending_raise (p : Pics) (i : ℕ) :
    (p.raise i).pending = Function.update p.pending i true := by
  funext j
  rcases Nat.lt_or_ge i 8 with hi | hi <;> rcases Nat.lt_or_ge j 8 with hj | hj
  all_goals simp only [raise, pending, Chip.raise, hi, hj, Nat.not_lt.mpr, if_true, if_false,
    Function.update_apply]
  all_goals grind

theorem pending_withdraw (p : Pics) (i : ℕ) :
    (p.withdraw i).pending = Function.update p.pending i false := by
  funext j
  rcases Nat.lt_or_ge i 8 with hi | hi <;> rcases Nat.lt_or_ge j 8 with hj | hj
  all_goals simp only [withdraw, pending, hi, hj, Nat.not_lt.mpr, if_true, if_false,
    Function.update_apply]
  all_goals grind

end Pics

end Studix.I8259
