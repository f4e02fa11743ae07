import Mathlib

/-!
# Segments and gates of the IA-32 architecture

The descriptors of segments and of interrupt gates are packed into eight bytes each; they are taken
here as 64-bit values, the byte at the lowest address in the lowest bits. A segment maps the offsets
up to its limit to linear addresses. An interrupt is delivered through the gate of its vector, which
names a code segment and an offset in it.

## Main definitions

* `Segment`, `Segment.ofBits`, `Segment.linear`.
* `Gate`, `Gate.ofBits`.
* `DescriptorTable`, `DescriptorTable.segment`.
* `enter`: the delivery of an interrupt.
-/

namespace Studix.Ia32

/-- A segment descriptor: the access byte is the type, whether it is for code or data, the privilege
level and whether the segment is present, from the low bits up. -/
structure Segment where
  base : BitVec 32
  limit : BitVec 20
  access : BitVec 8
  flags : BitVec 4
  deriving DecidableEq

namespace Segment

def ofBits (q : BitVec 64) : Segment where
  base := (q.extractLsb' 56 8).setWidth 32 <<< 24 ||| (q.extractLsb' 16 24).setWidth 32
  limit := (q.extractLsb' 48 4).setWidth 20 <<< 16 ||| (q.extractLsb' 0 16).setWidth 20
  access := q.extractLsb' 40 8
  flags := q.extractLsb' 52 4

/-- The segment is present, and for code or data. -/
def Usable (s : Segment) : Prop := s.access.getLsbD 7 = true ∧ s.access.getLsbD 4 = true

instance (s : Segment) : Decidable s.Usable := inferInstanceAs (Decidable (_ ∧ _))

def privilege (s : Segment) : ℕ := (s.access.extractLsb' 5 2).toNat

/-- The segment is for code that takes no higher privilege from its caller. -/
def NonconformingCode (s : Segment) : Prop :=
  s.Usable ∧ s.access.getLsbD 3 = true ∧ s.access.getLsbD 2 = false

instance (s : Segment) : Decidable s.NonconformingCode := inferInstanceAs (Decidable (_ ∧ _))

/-- The segment is for data, and can be written. -/
def WritableData (s : Segment) : Prop :=
  s.Usable ∧ s.access.getLsbD 3 = false ∧ s.access.getLsbD 1 = true

instance (s : Segment) : Decidable s.WritableData := inferInstanceAs (Decidable (_ ∧ _))

/-- The limit in bytes: the flag for the granularity makes the limit one of pages. -/
def lastOffset (s : Segment) : ℕ :=
  if s.flags.getLsbD 3 then s.limit.toNat * 4096 + 4095 else s.limit.toNat

/-- A data segment that grows down has the offsets behind the limit. -/
def ExpandsDown (s : Segment) : Prop := s.access.getLsbD 3 = false ∧ s.access.getLsbD 2 = true

instance (s : Segment) : Decidable s.ExpandsDown := inferInstanceAs (Decidable (_ ∧ _))

/-- The offset is in the segment. -/
def Contains (s : Segment) (offset : BitVec 32) : Prop :=
  if s.ExpandsDown then
    s.lastOffset < offset.toNat ∧ (s.flags.getLsbD 2 = true ∨ offset.toNat < 2 ^ 16)
  else offset.toNat ≤ s.lastOffset

instance (s : Segment) (offset : BitVec 32) : Decidable (s.Contains offset) := by
  unfold Contains
  infer_instance

/-- The linear address of an offset in a segment. -/
def linear (s : Segment) (offset : BitVec 32) : Option (BitVec 32) :=
  if s.Usable ∧ s.Contains offset then some (s.base + offset) else none

end Segment

/-- A descriptor of the interrupt table; `kind` has the type in the low four bits. -/
structure Gate where
  offset : BitVec 32
  selector : BitVec 16
  kind : BitVec 5
  privilege : BitVec 2
  present : Bool
  deriving DecidableEq

def Gate.ofBits (q : BitVec 64) : Gate where
  offset := (q.extractLsb' 48 16).setWidth 32 <<< 16 ||| (q.extractLsb' 0 16).setWidth 32
  selector := q.extractLsb' 16 16
  kind := q.extractLsb' 40 5
  privilege := q.extractLsb' 45 2
  present := q.getLsbD 47

/-- A table of descriptors with its limit, which is the offset of its last byte. -/
structure DescriptorTable where
  limit : BitVec 16
  entry : ℕ → BitVec 64

namespace DescriptorTable

/-- The descriptor is in the table. -/
def Has (t : DescriptorTable) (i : ℕ) : Prop := 8 * i + 7 ≤ t.limit.toNat

instance (t : DescriptorTable) (i : ℕ) : Decidable (t.Has i) := inferInstanceAs (Decidable (_ ≤ _))

/-- The segment of a selector in the global table: bits 0 and 1 are a privilege level, bit 2 is for
another table, and the first entry is not used. -/
def segment (t : DescriptorTable) (selector : BitVec 16) : Option Segment :=
  let i := selector.toNat / 8
  if selector.getLsbD 2 = false ∧ i ≠ 0 ∧ t.Has i then some (.ofBits (t.entry i)) else none

end DescriptorTable

/-- Where the code of an interrupt starts: its selector and its linear address; and whether further
interrupts are off. -/
structure Entry where
  selector : BitVec 16
  address : BitVec 32
  masked : Bool
  deriving DecidableEq

/-- **The delivery of an interrupt** to code of the privilege `cpl`, through an interrupt or a trap
gate of 32 bits, to a service routine of the same privilege. `none` leaves open what else the
processor does: it raises an exception, or changes the privilege and with it the stack. -/
def enter (gdt idt : DescriptorTable) (cpl vector : ℕ) : Option Entry :=
  let gate := Gate.ofBits (idt.entry vector)
  if idt.Has vector ∧ gate.present ∧ (gate.kind = 0xE ∨ gate.kind = 0xF) then
    match gdt.segment gate.selector with
    | none => none
    | some s =>
      if s.NonconformingCode ∧ s.privilege = cpl then
        (s.linear gate.offset).map fun address => ⟨gate.selector, address, gate.kind == 0xE⟩
      else none
  else none

end Studix.Ia32
