import Studix.Base.Descriptor
import Studix.CpuSetup.IdleLoop

/-!
# The global and the interrupt descriptor table

Model of `src/cpu_setup/gdt.c` and of `init_idt` of `src/cpu_setup/idt.c`. The fields of the packed
structures lie one behind the other, the first one in the lowest bits of the descriptor that the
processor reads. The tables have no task state segment, so they serve the interrupts of the kernel's
own code only.

## Main definitions

* `GdtEntry`, `setGdtEntry`, `initGdt`; `IdtEntry`, `setIdtEntry`, `initIdt`.
* `throughGates`: an interrupt by way of the two tables.

## Main results

* `ofBits_setGdtEntry`: the processor reads from a segment descriptor what was put into it.
* `segment_initGdt`: all selectors of the table name segments in which an offset is its linear
  address.
* `enter_initIdt`: an interrupt of the kernel enters the service routine of its vector, for the
  first 48 vectors.
* `poll_eq_throughGates`: the idle loop takes its interrupts by way of the tables.
-/

namespace Studix.CpuSetup

open Ia32

/-! ### Segments -/

/-- `GDT_entry`. -/
structure GdtEntry where
  limitLow : BitVec 16
  baseLow : BitVec 16
  baseMid : BitVec 8
  access : BitVec 8
  gran : BitVec 8
  baseHigh : BitVec 8

/-- The eight bytes of an entry. -/
def GdtEntry.bits (e : GdtEntry) : BitVec 64 :=
  e.limitLow.setWidth 64 ||| e.baseLow.setWidth 64 <<< 16 ||| e.baseMid.setWidth 64 <<< 32 |||
    e.access.setWidth 64 <<< 40 ||| e.gran.setWidth 64 <<< 48 ||| e.baseHigh.setWidth 64 <<< 56

/-- `set_gdt_entry`, as the entry that it stores. -/
def setGdtEntry (base limit : BitVec 32) (access gran : BitVec 8) : GdtEntry where
  baseLow := (base &&& 0xFFFF).setWidth 16
  baseMid := ((base >>> 16) &&& 0xFF).setWidth 8
  baseHigh := (base >>> 24).setWidth 8
  limitLow := (limit &&& 0xFFFF).setWidth 16
  gran := ((limit >>> 16) &&& 0xF).setWidth 8 ||| (gran &&& 0xF0)
  access := access

/-- `gdt_entries` after `init_gdt`. -/
def gdtEntries : List GdtEntry :=
  [setGdtEntry 0 0 0 0,
    setGdtEntry 0 0xFFFFFFFF 0x9A 0xCF,
    setGdtEntry 0 0xFFFFFFFF 0x92 0xCF,
    setGdtEntry 0 0xFFFFFFFF 0xFA 0xCF,
    setGdtEntry 0 0xFFFFFFFF 0xF2 0xCF]

/-- `init_gdt`: the table, with what lies behind it. -/
def initGdt (behind : ℕ → BitVec 64) : DescriptorTable where
  limit := BitVec.ofNat 16 (8 * gdtEntries.length - 1)
  entry i := match gdtEntries[i]? with
    | some e => e.bits
    | none => behind i

theorem setWidth_and_0xFFFF (v : BitVec 32) : (v &&& 0xFFFF).setWidth 16 = v.setWidth 16 := by
  rw [BitVec.setWidth_and]
  exact BitVec.and_allOnes

theorem setWidth_and_0xFF (v : BitVec 32) : (v &&& 0xFF).setWidth 8 = v.setWidth 8 := by
  rw [BitVec.setWidth_and]
  exact BitVec.and_allOnes

/-- The byte for the granularity has the high bits of the limit below the flags. -/
theorem getLsbD_gran (limit : BitVec 32) (gran : BitVec 8) {i : ℕ} (hi : i < 8) :
    (((limit >>> 16) &&& 0xF).setWidth 8 ||| (gran &&& 0xF0)).getLsbD i =
      if i < 4 then limit.getLsbD (16 + i) else gran.getLsbD i := by
  interval_cases i <;> simp

/-- **A segment descriptor is read as it was put**: the limit without its twelve high bits, and of
the granularity the four high bits. -/
theorem ofBits_setGdtEntry (base limit : BitVec 32) (access gran : BitVec 8) :
    Segment.ofBits (setGdtEntry base limit access gran).bits =
      { base, limit := limit.setWidth 20, access, flags := gran.extractLsb' 4 4 } := by
  have hgran : ∀ i < 8, (setGdtEntry base limit access gran).gran.getLsbD i =
      if i < 4 then limit.getLsbD (16 + i) else gran.getLsbD i := fun i => getLsbD_gran limit gran
  simp only [Segment.ofBits, GdtEntry.bits, Segment.mk.injEq]
  generalize hbyte : (setGdtEntry base limit access gran).gran = byte at *
  simp only [setGdtEntry, setWidth_and_0xFFFF, setWidth_and_0xFF]
  refine ⟨?_, ?_, ?_, ?_⟩
  all_goals
    refine BitVec.eq_of_getLsbD_eq fun i hi => ?_
    simp only [BitVec.getLsbD_or, BitVec.getLsbD_shiftLeft, BitVec.getLsbD_setWidth,
      BitVec.getLsbD_extractLsb', BitVec.getLsbD_ushiftRight, hi]
    grind

/-- The segments of the table: the kernel's and the user's code and data. -/
def kernelSegment (access : BitVec 8) : Segment :=
  { base := 0, limit := 0xFFFFF, access, flags := 0xC }

/-- The access bytes of the table, behind that of the null segment. -/
def accessBytes : List (BitVec 8) := [0x9A, 0x92, 0xFA, 0xF2]

/-- The table by selectors. -/
theorem segment_initGdt_eq (behind : ℕ → BitVec 64) (selector : BitVec 16) :
    (initGdt behind).segment selector =
      if selector.getLsbD 2 = false ∧ selector.toNat / 8 ≠ 0 then
        (accessBytes[selector.toNat / 8 - 1]?).map kernelSegment
      else none := by
  rw [DescriptorTable.segment]
  by_cases hused : selector.getLsbD 2 = false ∧ selector.toNat / 8 ≠ 0
  · rw [if_pos hused]
    rcases Nat.lt_or_ge (selector.toNat / 8) 5 with hlt | hge
    · have hhas : (initGdt behind).Has (selector.toNat / 8) := by
        change _ ≤ 39
        omega
      rw [if_pos ⟨hused.1, hused.2, hhas⟩]
      generalize selector.toNat / 8 = i at *
      have hi := hused.2
      interval_cases i
      · exact absurd rfl hi
      all_goals simp [initGdt, gdtEntries, ofBits_setGdtEntry, accessBytes, kernelSegment]
    · have hhas : ¬(initGdt behind).Has (selector.toNat / 8) := by
        change ¬_ ≤ 39
        omega
      rw [if_neg fun h => hhas h.2.2, List.getElem?_eq_none (by simp [accessBytes]; omega)]
      rfl
  · rw [if_neg hused, if_neg fun h => hused ⟨h.1, h.2.1⟩]

/-- Every offset is in such a segment, at its own address. -/
theorem linear_kernelSegment {access : BitVec 8} (h : access ∈ accessBytes) (offset : BitVec 32) :
    (kernelSegment access).linear offset = some offset := by
  have hoffset := offset.isLt
  obtain ⟨husable, hup, hlast⟩ : (kernelSegment access).Usable ∧
      ¬(kernelSegment access).ExpandsDown ∧ (kernelSegment access).lastOffset = 2 ^ 32 - 1 := by
    revert access
    decide
  have hcontains : (kernelSegment access).Contains offset := by
    rw [Segment.Contains, if_neg hup, hlast]
    omega
  rw [Segment.linear, if_pos ⟨husable, hcontains⟩]
  exact congrArg some (BitVec.zero_add offset)

/-! ### Gates -/

/-- `IDT_entry`. -/
structure IdtEntry where
  baseLow : BitVec 16
  selector : BitVec 16
  zero : BitVec 8
  flags : BitVec 8
  baseHigh : BitVec 16

/-- The eight bytes of an entry. -/
def IdtEntry.bits (e : IdtEntry) : BitVec 64 :=
  e.baseLow.setWidth 64 ||| e.selector.setWidth 64 <<< 16 ||| e.zero.setWidth 64 <<< 32 |||
    e.flags.setWidth 64 <<< 40 ||| e.baseHigh.setWidth 64 <<< 48

/-- What `set_idt_entry` stores. -/
def idtEntry (base : BitVec 32) (selector : BitVec 16) (flags : BitVec 8) : IdtEntry where
  baseLow := (base &&& 0xFFFF).setWidth 16
  baseHigh := (base >>> 16).setWidth 16
  selector := selector
  zero := 0
  flags := flags

/-- `set_idt_entry`. -/
def setIdtEntry (t : ℕ → IdtEntry) (i : BitVec 8) (base : BitVec 32) (selector : BitVec 16)
    (flags : BitVec 8) : ℕ → IdtEntry :=
  Function.update t i.toNat (idtEntry base selector flags)

/-- `SET_IDT(n)`. -/
def setIdt (isr : Fin 48 → BitVec 32) (t : ℕ → IdtEntry) (n : Fin 48) : ℕ → IdtEntry :=
  setIdtEntry t (BitVec.ofNat 8 n.val) (isr n) 0x08 0x8E

/-- `NUM_IDT_ENTRIES`. -/
def numIdtEntries : ℕ := 256

/-- `init_idt`: the table with the service routines at the addresses `isr`, after the `memset`. -/
def initIdt (isr : Fin 48 → BitVec 32) : DescriptorTable where
  limit := BitVec.ofNat 16 (8 * numIdtEntries - 1)
  entry i := ((List.finRange 48).foldl (setIdt isr) (fun _ => ⟨0, 0, 0, 0, 0⟩) i).bits

/-- **A gate is read as it was put.** -/
theorem ofBits_idtEntry (base : BitVec 32) (selector : BitVec 16) (flags : BitVec 8) :
    Gate.ofBits (idtEntry base selector flags).bits =
      { offset := base, selector, kind := flags.extractLsb' 0 5,
        privilege := flags.extractLsb' 5 2, present := flags.getLsbD 7 } := by
  simp only [Gate.ofBits, IdtEntry.bits, idtEntry, setWidth_and_0xFFFF, Gate.mk.injEq]
  refine ⟨?_, ?_, ?_, ?_, by simp⟩
  all_goals
    refine BitVec.eq_of_getLsbD_eq fun i hi => ?_
    simp only [BitVec.getLsbD_or, BitVec.getLsbD_shiftLeft, BitVec.getLsbD_setWidth,
      BitVec.getLsbD_extractLsb', BitVec.getLsbD_ushiftRight, hi]
    grind

section

variable {isr : Fin 48 → BitVec 32} {t : ℕ → IdtEntry} {v : ℕ}

/-- One gate is set, and the others stay. -/
theorem setIdt_apply (isr : Fin 48 → BitVec 32) (t : ℕ → IdtEntry) (n : Fin 48) (v : ℕ) :
    setIdt isr t n v = if v = n.val then idtEntry (isr n) 0x08 0x8E else t v := by
  have hn : (BitVec.ofNat 8 n.val).toNat = n.val := by
    rw [BitVec.toNat_ofNat, Nat.mod_eq_of_lt (by omega)]
  rw [setIdt, setIdtEntry, hn, Function.update_apply]

/-- The gates of a list of vectors are set. -/
theorem foldl_setIdt (isr : Fin 48 → BitVec 32) (ns : List (Fin 48)) (t : ℕ → IdtEntry) (v : ℕ) :
    ns.foldl (setIdt isr) t v =
      if h : ∃ hv : v < 48, ⟨v, hv⟩ ∈ ns then idtEntry (isr ⟨v, h.1⟩) 0x08 0x8E else t v := by
  induction ns generalizing t with
  | nil => simp
  | cons n ns ih =>
    rw [List.foldl_cons, ih, setIdt_apply]
    by_cases hmem : ∃ hv : v < 48, ⟨v, hv⟩ ∈ ns
    · obtain ⟨hv, hvmem⟩ := hmem
      rw [dif_pos ⟨hv, hvmem⟩, dif_pos ⟨hv, List.mem_cons_of_mem n hvmem⟩]
    · rw [dif_neg hmem]
      split_ifs with heq hmem' hmem'
      · subst heq
        rfl
      · exact absurd ⟨heq ▸ n.isLt, List.mem_cons.mpr (.inl (Fin.ext heq))⟩ hmem'
      · obtain ⟨hv, hvmem⟩ := hmem'
        rcases List.mem_cons.mp hvmem with hn | hns
        · exact absurd (congrArg Fin.val hn) heq
        · exact absurd ⟨hv, hns⟩ hmem
      · rfl

theorem entry_initIdt (isr : Fin 48 → BitVec 32) (v : ℕ) : (initIdt isr).entry v =
    if h : v < 48 then (idtEntry (isr ⟨v, h⟩) 0x08 0x8E).bits else 0 := by
  change (((List.finRange 48).foldl (setIdt isr) _ v).bits) = _
  rw [foldl_setIdt]
  by_cases h : v < 48
  · rw [dif_pos ⟨h, List.mem_finRange _⟩, dif_pos h]
  · rw [dif_neg fun hmem => h hmem.1, dif_neg h]
    rfl

end

/-! ### The two tables -/

/-- **All segments of the table are flat**: a selector names one exactly when it is for entry 1 to 4
of this table, and then every offset is its own linear address. The first two are the kernel's, and
entries 1 and 3 are for code. -/
theorem gdt_flat (behind : ℕ → BitVec 64) (selector : BitVec 16) :
    ((∃ s, (initGdt behind).segment selector = some s) ↔
        selector.getLsbD 2 = false ∧ 8 ≤ selector.toNat ∧ selector.toNat < 40) ∧
      ∀ s, (initGdt behind).segment selector = some s →
        (∀ offset, s.linear offset = some offset) ∧
        s.privilege = (if selector.toNat < 24 then 0 else 3) ∧
        (s.NonconformingCode ↔ selector.toNat / 8 % 2 = 1) ∧
        (s.WritableData ↔ selector.toNat / 8 % 2 = 0) := by
  rw [segment_initGdt_eq]
  by_cases hused : selector.getLsbD 2 = false ∧ selector.toNat / 8 ≠ 0
  · rw [if_pos hused]
    obtain ⟨i, hi⟩ : ∃ i, selector.toNat / 8 = i + 1 := Nat.exists_eq_succ_of_ne_zero hused.2
    rw [hi, Nat.add_sub_cancel]
    rcases Nat.lt_or_ge i 4 with hlt | hge
    · have hkernel : selector.toNat < 24 ↔ i < 2 := by omega
      simp only [hkernel]
      refine ⟨iff_of_true ?_ ⟨hused.1, by omega, by omega⟩, fun s hs => ?_⟩
      · rw [List.getElem?_eq_getElem hlt]
        exact ⟨_, rfl⟩
      · obtain ⟨access, haccess, rfl⟩ := Option.map_eq_some_iff.mp hs
        refine ⟨linear_kernelSegment (List.mem_of_getElem? haccess), ?_⟩
        revert haccess access
        interval_cases i <;> simp [accessBytes] <;> decide
    · rw [List.getElem?_eq_none hge]
      refine ⟨iff_of_false (fun h => ?_) fun h => by omega, fun s hs => ?_⟩
      · obtain ⟨s, hs⟩ := h
        cases hs
      · cases hs
  · rw [if_neg hused]
    refine ⟨iff_of_false (fun h => ?_) fun h => hused ⟨h.1, by omega⟩, ?_⟩
    · obtain ⟨s, hs⟩ := h
      cases hs
    · intro s hs
      cases hs

/-- **An interrupt of the kernel enters the service routine of its vector**, with interrupts off,
for the first 48 vectors; there is no gate for the others. -/
theorem enter_initIdt (behind : ℕ → BitVec 64) (isr : Fin 48 → BitVec 32) (v : ℕ) :
    enter (initGdt behind) (initIdt isr) 0 v =
      if h : v < 48 then some ⟨0x08, isr ⟨v, h⟩, true⟩ else none := by
  by_cases h : v < 48
  · have hgate : Gate.ofBits ((initIdt isr).entry v) =
        { offset := isr ⟨v, h⟩, selector := 0x08, kind := 0xE, privilege := 0,
          present := true } := by
      rw [entry_initIdt, dif_pos h, ofBits_idtEntry]
      rfl
    have hhas : (initIdt isr).Has v := by
      change _ ≤ 2047
      omega
    have hsegment : (initGdt behind).segment 0x08 = some (kernelSegment 0x9A) := by
      rw [segment_initGdt_eq]
      rfl
    have hcode : (kernelSegment 0x9A).NonconformingCode ∧ (kernelSegment 0x9A).privilege = 0 := by
      decide
    simp only [enter, hgate, hhas, hsegment, linear_kernelSegment (List.mem_cons_self ..), hcode, h]
    rfl
  · have hgate : Gate.ofBits ((initIdt isr).entry v) =
        { offset := 0, selector := 0, kind := 0, privilege := 0, present := false } := by
      rw [entry_initIdt, dif_neg h]
      rfl
    simp [enter, hgate, h]

/-! ### Interrupts by way of the tables -/

section

variable {σ : Type} {ε : Type*}

/-- An interrupt with the vector `v`, from its delivery on: the code at the address in its gate
runs, for the selector in the gate. The service routines are at the addresses `isr`, and the low two
bits of `cs` are the privilege of the interrupted code. -/
def throughGates (gdt idt : DescriptorTable) (isr : Fin 48 → BitVec 32)
    (callee : Handlers → Machine σ → Except ε (Machine σ)) (ret : BitVec 32) (fuel v : ℕ)
    (err : Option (BitVec 32)) (m : Machine σ) : Option (Except ε (Machine σ)) :=
  (enter gdt idt ((m.seg .cs).toNat % 4) v).bind fun entry =>
    ((List.finRange 48).find? fun num => isr num = entry.address).bind fun num =>
      if entry.masked then
        exec code callee ret fuel (code (.isr num)) (interrupt m entry.selector err)
      else none

variable {callee : Handlers → Machine σ → Except ε (Machine σ)} {isr : Fin 48 → BitVec 32}
  {ret : BitVec 32} {fuel v : ℕ} {err : Option (BitVec 32)} {m : Machine σ}

/-- The service routines have different addresses. -/
theorem find?_isr (hisr : Function.Injective isr) (num : Fin 48) :
    ((List.finRange 48).find? fun n => isr n = isr num) = some num := by
  cases hfind : (List.finRange 48).find? fun n => isr n = isr num with
  | none =>
    have hnone := List.find?_eq_none.mp hfind num (List.mem_finRange num)
    simp at hnone
  | some n =>
    have hsome := List.find?_some hfind
    rw [hisr (of_decide_eq_true hsome)]

/-- **The tables lead to the code of `takeInterrupt`**, for an interrupt of the kernel's code, and
nowhere for a vector without a gate. -/
theorem throughGates_eq (behind : ℕ → BitVec 64) (hisr : Function.Injective isr)
    (hcs : m.seg .cs = kernelCs) :
    throughGates (initGdt behind) (initIdt isr) isr callee ret fuel v err m =
      if h : v < 48 then takeInterrupt callee ret fuel ⟨v, h⟩ err m else none := by
  have hcpl : (m.seg .cs).toNat % 4 = 0 := by
    rw [hcs]
    rfl
  rw [throughGates, hcpl, enter_initIdt]
  by_cases h : v < 48
  · rw [dif_pos h, dif_pos h, Option.bind_some, find?_isr hisr]
    rfl
  · rw [dif_neg h, dif_neg h]
    rfl

end

/-- **The idle loop takes its interrupts by way of the tables.** -/
theorem poll_eq_throughGates {callee : Handlers → Machine World → Except Stop (Machine World)}
    {isr : Fin 48 → BitVec 32} {ret : BitVec 32} {fuel : ℕ} {m : Machine World}
    (behind : ℕ → BitVec 64) (hisr : Function.Injective isr) (hcs : m.seg .cs = kernelCs) :
    poll callee ret fuel m =
      if m.eflags.getLsbD 9 then
        match m.world.pics.acknowledge with
        | none => some (.ok m)
        | some (v, p) => throughGates (initGdt behind) (initIdt isr) isr callee ret fuel v none
            { m with world := { m.world with pics := p } }
      else some (.ok m) := by
  rw [poll]
  congr 1
  cases m.world.pics.acknowledge with
  | none => rfl
  | some vector =>
    obtain ⟨v, p⟩ := vector
    have hcs' : ({ m with world := { m.world with pics := p } } : Machine World).seg .cs =
        kernelCs := hcs
    exact (throughGates_eq behind hisr hcs').symm

end Studix.CpuSetup
