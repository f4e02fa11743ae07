import Studix.Term.Vga

/-!
# The PS/2 keyboard

Model of `src/devices/ps2.c`. The interrupt handler takes one scancode from the controller. A
scancode with the high bit set is the release of the key whose press is the scancode without it. The
shift keys set and clear one flag between them, so the flag follows the last of their events,
whichever key that event is from.

## Main definitions

* `KeyTables`, `getChar`, `capitalize`, `ps2Handler`: the code.
* `deliver`: the handler over a sequence of scancodes.
* `Held`: a key is held after a sequence of scancodes.

## Main results

* `deliver_shiftDown`: the flag after a sequence is that of the last event of a shift key.
* `shiftDown_iff_held`: the flag says whether a shift key is held exactly when the last event is not
  the release of one of them while the other is held.
-/

namespace Studix.Devices

open Studix.Term

/-! ### Scancodes -/

/-- `LSHIFT_DOWN`. -/
def lshiftDown : Byte := 0x2A

/-- `LSHIFT_UP`. -/
def lshiftUp : Byte := 0xAA

/-- `RSHIFT_DOWN`. -/
def rshiftDown : Byte := 0x36

/-- `RSHIFT_UP`. -/
def rshiftUp : Byte := 0xB6

/-- `ENTER_DOWN`. -/
def enterDown : Byte := 0x1C

/-- `BACKSPACE_DOWN`. -/
def backspaceDown : Byte := 0x0E

/-- `CASE_DIFF`. -/
def caseDiff : Byte := 32

/-- `pressedp`. -/
def pressedp (scancode : Byte) : Bool := scancode.toNat ≤ 0x58

/-- `SCANCODE_SET1`, with its terminating zero. -/
def scancodeSet1 : List Byte :=
  [0, 0, 49, 50, 51, 52, 53, 54, 55, 56, 57, 48, 45, 61, 8, 9,
    113, 119, 101, 114, 116, 121, 117, 105, 111, 112, 91, 93, 0, 0,
    97, 115, 100, 102, 103, 104, 106, 107, 108, 59, 39, 96, 0, 92,
    122, 120, 99, 118, 98, 110, 109, 44, 46, 47, 0, 0, 0, 32, 0]

/-- `UPPERCASE_SYMBOLS`, with its terminating zero. The string is continued on a second line, which
starts with a tab and a space. -/
def uppercaseSymbols : List Byte :=
  [34, 0, 0, 0, 0, 60, 95, 62, 63, 41, 33, 64, 35, 36, 37, 94, 38, 42, 40, 0, 58, 0, 43] ++
    List.replicate 16 0 ++ [9, 32] ++ List.replicate 11 0 ++ [123, 124, 125, 0, 0, 126, 0]

/-- `SYMBOL_START`. -/
def symbolStart : Byte := 39

/-- What an access to the two tables of characters reads. The code does not check its indices, so an
access may lie outside of a table; it then reads what the compiler has put there. -/
structure KeyTables where
  /-- `SCANCODE_SET1[i]`. -/
  scancode : ℕ → Byte
  /-- `UPPERCASE_SYMBOLS[i]`. -/
  symbol : ℤ → Byte
  scancode_eq : ∀ i (h : i < scancodeSet1.length), scancode i = scancodeSet1[i]
  symbol_eq : ∀ i (h : i < uppercaseSymbols.length), symbol i = uppercaseSymbols[i]

/-! ### The handler -/

/-- `get_char`. -/
def getChar (tables : KeyTables) (scancode : Byte) : Byte :=
  if 0x81 ≤ scancode.toNat then tables.scancode (scancode.toNat - 0x80)
  else tables.scancode scancode.toNat

/-- `capitalize`; a `char` is signed. -/
def capitalize (tables : KeyTables) (c : Byte) : Byte :=
  if 97 ≤ c.toInt ∧ c.toInt ≤ 122 then c - caseDiff
  else tables.symbol (c.toInt - symbolStart.toInt)

/-- The terminal and `shift_down`. -/
structure Keyboard where
  term : Terminal
  shiftDown : Bool

/-- `ps2_handler`, with the scancode that it reads from the controller. -/
def ps2Handler (tables : KeyTables) (kb : Keyboard) (s : Byte) : Keyboard :=
  if s = lshiftDown ∨ s = rshiftDown then { kb with shiftDown := true }
  else if s = lshiftUp ∨ s = rshiftUp then { kb with shiftDown := false }
  else if s = enterDown then { kb with term := termPutchar kb.term 10 }
  else if s = backspaceDown then { kb with term := updateCursor (termPutsn kb.term [8, 32, 8, 0]) }
  else
    let c := getChar tables s
    let c := if kb.shiftDown then capitalize tables c else c
    if pressedp s then { kb with term := updateCursor (termPutchar kb.term c) } else kb

/-- The keyboard before the first scancode. -/
def Keyboard.boot (t : Terminal) : Keyboard := ⟨t, false⟩

/-- The handler is called for one scancode after the other. -/
def deliver (tables : KeyTables) (kb : Keyboard) (scancodes : List Byte) : Keyboard :=
  scancodes.foldl (ps2Handler tables) kb

@[simp] theorem deliver_append_singleton (tables : KeyTables) (kb : Keyboard) (ss : List Byte)
    (s : Byte) : deliver tables kb (ss ++ [s]) = ps2Handler tables (deliver tables kb ss) s := by
  simp [deliver]

/-! ### Events -/

/-- A scancode is the press or the release of a key. -/
def IsEvent (down up s : Byte) : Prop := s = down ∨ s = up

instance (down up s : Byte) : Decidable (IsEvent down up s) := inferInstanceAs (Decidable (_ ∨ _))

/-- The last scancode that is the press or the release of a key. -/
def lastEvent (down up : Byte) (scancodes : List Byte) : Option Byte :=
  (scancodes.filter (IsEvent down up ·)).getLast?

/-- The key is held: its last event is a press. -/
def Held (down up : Byte) (scancodes : List Byte) : Prop :=
  lastEvent down up scancodes = some down

instance (down up : Byte) (scancodes : List Byte) : Decidable (Held down up scancodes) :=
  inferInstanceAs (Decidable (_ = _))

/-- A shift key is held. -/
def ShiftHeld (scancodes : List Byte) : Prop :=
  Held lshiftDown lshiftUp scancodes ∨ Held rshiftDown rshiftUp scancodes

instance (scancodes : List Byte) : Decidable (ShiftHeld scancodes) :=
  inferInstanceAs (Decidable (_ ∨ _))

/-- A scancode of a shift key. -/
def IsShift (s : Byte) : Prop := IsEvent lshiftDown lshiftUp s ∨ IsEvent rshiftDown rshiftUp s

instance (s : Byte) : Decidable (IsShift s) := inferInstanceAs (Decidable (_ ∨ _))

/-- The last scancode of a shift key. -/
def lastShift (scancodes : List Byte) : Option Byte := (scancodes.filter (IsShift ·)).getLast?

/-- The last event of a shift key is the release of one of them while the other is held. -/
def ReleasedBesideHeld (scancodes : List Byte) : Prop :=
  lastShift scancodes = some lshiftUp ∧ Held rshiftDown rshiftUp scancodes ∨
    lastShift scancodes = some rshiftUp ∧ Held lshiftDown lshiftUp scancodes

instance (scancodes : List Byte) : Decidable (ReleasedBesideHeld scancodes) :=
  inferInstanceAs (Decidable (_ ∨ _))

/-! ### The flag -/

section

variable {tables : KeyTables} {kb : Keyboard} {ss : List Byte} {s down up : Byte}

/-- **The flag after one scancode.** -/
theorem ps2Handler_shiftDown (tables : KeyTables) (kb : Keyboard) (s : Byte) :
    (ps2Handler tables kb s).shiftDown =
      if IsShift s then decide (s = lshiftDown ∨ s = rshiftDown) else kb.shiftDown := by
  by_cases hdown : s = lshiftDown ∨ s = rshiftDown
  · have hshift : IsShift s := hdown.imp .inl .inl
    rw [ps2Handler, if_pos hdown, if_pos hshift, decide_eq_true hdown]
  by_cases hup : s = lshiftUp ∨ s = rshiftUp
  · have hshift : IsShift s := hup.imp .inr .inr
    rw [ps2Handler, if_neg hdown, if_pos hup, if_pos hshift, decide_eq_false hdown]
  · have hshift : ¬IsShift s := by
      rintro ((h | h) | (h | h))
      · exact hdown (.inl h)
      · exact hup (.inl h)
      · exact hdown (.inr h)
      · exact hup (.inr h)
    rw [ps2Handler, if_neg hdown, if_neg hup, if_neg hshift]
    split_ifs <;> rfl

theorem lastShift_append_singleton (ss : List Byte) (s : Byte) :
    lastShift (ss ++ [s]) = if IsShift s then some s else lastShift ss := by
  rw [lastShift, List.filter_append]
  split_ifs with hs
  · rw [List.filter_singleton, decide_eq_true hs]
    simp
  · rw [List.filter_singleton, decide_eq_false hs]
    simp [lastShift]

/-- **The flag after a sequence of scancodes** is that of the last event of a shift key. -/
theorem deliver_shiftDown (tables : KeyTables) (kb : Keyboard) (ss : List Byte) :
    (deliver tables kb ss).shiftDown = match lastShift ss with
      | none => kb.shiftDown
      | some s => decide (s = lshiftDown ∨ s = rshiftDown) := by
  induction ss using List.reverseRecOn with
  | nil => rfl
  | append_singleton ss s ih =>
    rw [deliver_append_singleton, ps2Handler_shiftDown, lastShift_append_singleton]
    split_ifs
    · rfl
    · exact ih

/-- The last event of a shift key is the last event of that key. -/
theorem lastEvent_of_lastShift (hshift : ∀ x, IsEvent down up x → IsShift x)
    (hlast : lastShift ss = some s) (hs : IsEvent down up s) : lastEvent down up ss = some s := by
  obtain ⟨xs, hxs⟩ := List.getLast?_eq_some_iff.mp hlast
  have hfilter : ss.filter (IsEvent down up ·) =
      (ss.filter (IsShift ·)).filter (IsEvent down up ·) := by
    rw [List.filter_filter]
    refine List.filter_congr fun x _ => ?_
    by_cases hx : IsEvent down up x
    · simp [hx, hshift x hx]
    · simp [hx]
  rw [lastEvent, hfilter, hxs, List.filter_append]
  simp [hs]

theorem not_held_of_lastShift_eq_none (hshift : IsShift down) (hlast : lastShift ss = none) :
    ¬Held down up ss := by
  intro hheld
  have hmem : down ∈ ss := (List.mem_filter.mp (List.mem_of_getLast? hheld)).1
  have hnil : ss.filter (IsShift ·) = [] := List.getLast?_eq_none_iff.mp hlast
  have hdown := List.filter_eq_nil_iff.mp hnil down hmem
  exact hdown (decide_eq_true hshift)

end

/-- **The flag says whether a shift key is held** after a sequence of scancodes exactly when the
last event of a shift key is not the release of one of them while the other is held. -/
theorem shiftDown_iff_held (tables : KeyTables) (t : Terminal) (ss : List Byte) :
    ((deliver tables (.boot t) ss).shiftDown = true ↔ ShiftHeld ss) ↔ ¬ReleasedBesideHeld ss := by
  have hleft : ∀ x, IsEvent lshiftDown lshiftUp x → IsShift x := fun _ => .inl
  have hright : ∀ x, IsEvent rshiftDown rshiftUp x → IsShift x := fun _ => .inr
  rw [deliver_shiftDown, ReleasedBesideHeld, ShiftHeld]
  cases hlast : lastShift ss with
  | none =>
    -- No shift key has been touched.
    have hnotLeft : ¬Held lshiftDown lshiftUp ss :=
      not_held_of_lastShift_eq_none (hleft _ (.inl rfl)) hlast
    have hnotRight : ¬Held rshiftDown rshiftUp ss :=
      not_held_of_lastShift_eq_none (hright _ (.inl rfl)) hlast
    simp [hnotLeft, hnotRight, Keyboard.boot]
  | some s =>
    have hs : IsShift s := by
      have hmem := (List.mem_filter.mp (List.mem_of_getLast? hlast)).2
      exact of_decide_eq_true hmem
    rcases hs with hs | hs
    · have hlastLeft := lastEvent_of_lastShift hleft hlast hs
      rcases hs with rfl | rfl
      · have hheld : Held lshiftDown lshiftUp ss := hlastLeft
        simp [hheld, show lshiftDown ≠ lshiftUp by decide, show lshiftDown ≠ rshiftUp by decide]
      · have hnot : ¬Held lshiftDown lshiftUp ss := by
          rw [Held, hlastLeft]
          decide
        simp [hnot, show lshiftUp ≠ lshiftDown by decide, show lshiftUp ≠ rshiftDown by decide]
    · have hlastRight := lastEvent_of_lastShift hright hlast hs
      rcases hs with rfl | rfl
      · have hheld : Held rshiftDown rshiftUp ss := hlastRight
        simp [hheld, show rshiftDown ≠ lshiftUp by decide, show rshiftDown ≠ rshiftUp by decide]
      · have hnot : ¬Held rshiftDown rshiftUp ss := by
          rw [Held, hlastRight]
          decide
        simp [hnot, show rshiftUp ≠ lshiftDown by decide, show rshiftUp ≠ rshiftDown by decide]

/-- The tables of characters with zeros around them. -/
def zeroPadded : KeyTables where
  scancode i := scancodeSet1.getD i 0
  symbol i := if i < 0 then 0 else uppercaseSymbols.getD i.toNat 0
  scancode_eq i h := by simp [h]
  symbol_eq i h := by simp [h]

/-- The left shift key is released while the right one is held. -/
theorem shift_flag_misses_right_key :
    ¬((deliver zeroPadded (.boot (.boot fun _ => 0)) [lshiftDown, rshiftDown, lshiftUp]).shiftDown =
      true ↔ ShiftHeld [lshiftDown, rshiftDown, lshiftUp]) := by
  rw [deliver_shiftDown]
  decide

end Studix.Devices
