import Studix.Base.Memory

/-!
# The VGA text terminal

The terminal of `src/term/vga.c`. The screen is the text buffer at `0xB8000`, `VGA_HEIGHT` rows of
`VGA_WIDTH` 16-bit entries, each a character byte under an attribute byte. `term_putchar` writes at
the cursor and moves it: a newline scrolls at the bottom row, a character in the last column wraps
by the newline path, a carriage return goes to the first column and a backspace one position back.

The cursor coordinates are values of `size_t`, so their increments and decrements wrap modulo
`2 ^ 32`, and so does the index `y * VGA_WIDTH + x`. The state also records every index of the
buffer that was written (`Terminal.writes`).

## Main definitions

* `Terminal`, `initTerm`, `termPutEntry`, `termScroll`, `termPutchar`, `termPutsn`, `termPuts`.
* `Terminal.OnScreen`: the cursor is on the screen and no write left the buffer.
* `Terminal.BackspaceAtOrigin`: a backspace with the cursor in the top left corner.

## Main results

* `termScroll_termBuffer`: scrolling moves every row up by one and blanks the last.
* `onScreen_termPutchar`: a character keeps the cursor on the screen unless it is a backspace in
  the top left corner.
* `onScreen_iff_no_backspace_at_origin`: over whole texts, the cursor stays on the screen exactly
  when no backspace is printed in the top left corner.
-/

namespace Studix.Term

/-- `VGA_WIDTH`. -/
def vgaWidth : ℕ := 80

/-- `VGA_HEIGHT`. -/
def vgaHeight : ℕ := 25

/-- `enum VGAColor`, the hardware text mode colors. -/
inductive VGAColor
  | black | blue | green | cyan | red | magenta | brown | lightGrey
  | darkGrey | lightBlue | lightGreen | lightCyan | lightRed | lightMagenta | lightBrown | white
  deriving DecidableEq, Repr

/-- The numeric value of a color. -/
def VGAColor.code : VGAColor → BitVec 8
  | black => 0
  | blue => 1
  | green => 2
  | cyan => 3
  | red => 4
  | magenta => 5
  | brown => 6
  | lightGrey => 7
  | darkGrey => 8
  | lightBlue => 9
  | lightGreen => 10
  | lightCyan => 11
  | lightRed => 12
  | lightMagenta => 13
  | lightBrown => 14
  | white => 15

/-- `make_color`. -/
def makeColor (fg bg : VGAColor) : BitVec 8 := fg.code ||| bg.code <<< 4

/-- `make_vga_entry`. The character is a signed `char`, so it is sign extended into the entry. -/
def makeVgaEntry (c : Byte) (color : BitVec 8) : BitVec 16 :=
  c.signExtend 16 ||| color.setWidth 16 <<< 8

/-- The static variables of the terminal and the text buffer it drives. -/
structure Terminal where
  /-- `curr_y`. -/
  currY : ℕ
  /-- `curr_x`. -/
  currX : ℕ
  /-- `term_buffer`, by index. -/
  termBuffer : ℕ → BitVec 16
  /-- `term_color`. -/
  termColor : BitVec 8
  /-- The position last sent to the CRT controller. -/
  crtcCursor : BitVec 16
  /-- The indices of `term_buffer` written so far, the latest first. -/
  writes : List ℕ

/-- The terminal before `init_term`: zeroed static variables over any contents of the buffer. -/
def Terminal.boot (vram : ℕ → BitVec 16) : Terminal :=
  { currY := 0, currX := 0, termBuffer := vram, termColor := 0, crtcCursor := 0, writes := [] }

/-- The 32-bit index `y * VGA_WIDTH + x`. -/
def entryIndex (x y : ℕ) : ℕ := (y * vgaWidth + x) % 2 ^ 32

/-- The store `term_buffer[i] = e`. -/
def Terminal.setEntry (t : Terminal) (i : ℕ) (e : BitVec 16) : Terminal :=
  { t with termBuffer := Function.update t.termBuffer i e, writes := i :: t.writes }

/-- `term_put_entry`. -/
def termPutEntry (t : Terminal) (c : Byte) (color : BitVec 8) (x y : ℕ) : Terminal :=
  t.setEntry (entryIndex x y) (makeVgaEntry c color)

/-- `init_term`. -/
def initTerm (t : Terminal) : Terminal :=
  let t := { t with termColor := makeColor .white .black }
  forLoop (fun y => forLoop (fun x t => termPutEntry t 32 t.termColor x y) vgaWidth) vgaHeight t

/-- `entry_at`. -/
def entryAt (t : Terminal) (x y : ℕ) : BitVec 16 := t.termBuffer (entryIndex x y)

/-- The first loops of `term_scroll`: every row takes the entries of the row below it. -/
def moveRowsUp (t : Terminal) : Terminal :=
  forLoop (fun y => forLoop (fun x t => t.setEntry (entryIndex x y) (entryAt t x (y + 1)))
    vgaWidth) (vgaHeight - 1) t

/-- The last loop of `term_scroll`: the bottom row is filled with spaces. -/
def blankLastRow (t : Terminal) : Terminal :=
  forLoop (fun x t => termPutEntry t 32 (makeColor .black .black) x (vgaHeight - 1)) vgaWidth t

/-- `term_scroll`. -/
def termScroll (t : Terminal) : Terminal :=
  { blankLastRow (moveRowsUp t) with currX := 0, currY := vgaHeight - 1 }

/-- `update_cursor`: the low and the high byte of the position go to the CRT controller. -/
def updateCursor (t : Terminal) : Terminal :=
  { t with crtcCursor := BitVec.ofNat 16 (t.currY * vgaWidth + t.currX) }

@[simp] theorem updateCursor_currX (t : Terminal) : (updateCursor t).currX = t.currX := rfl

@[simp] theorem updateCursor_currY (t : Terminal) : (updateCursor t).currY = t.currY := rfl

@[simp] theorem entryAt_updateCursor (t : Terminal) (x y : ℕ) :
    entryAt (updateCursor t) x y = entryAt t x y := rfl

@[simp] theorem updateCursor_writes (t : Terminal) : (updateCursor t).writes = t.writes := rfl

/-- The case `'\n'` of `term_putchar`. -/
def termNewline (t : Terminal) : Terminal :=
  let t := { t with currX := 0, currY := (t.currY + 1) % 2 ^ 32 }
  updateCursor (if t.currY = vgaHeight then termScroll t else t)

/-- The case `'\b'` of `term_putchar`. -/
def termBackspace (t : Terminal) : Terminal :=
  if t.currX = 0 then
    { t with currX := vgaWidth - 1, currY := (t.currY + (2 ^ 32 - 1)) % 2 ^ 32 }
  else { t with currX := (t.currX + (2 ^ 32 - 1)) % 2 ^ 32 }

/-- The default case of `term_putchar`. The recursive call is on `'\n'`, so it is `termNewline`. -/
def termPrint (t : Terminal) (c : Byte) : Terminal :=
  let t := termPutEntry t c t.termColor t.currX t.currY
  let t := { t with currX := (t.currX + 1) % 2 ^ 32 }
  if t.currX = vgaWidth then termNewline t else t

/-- `term_putchar`; `'\n'`, `'\r'` and `'\b'` are 10, 13 and 8. -/
def termPutchar (t : Terminal) (c : Byte) : Terminal :=
  if c = 10 then termNewline t
  else if c = 13 then { t with currX := 0 }
  else if c = 8 then termBackspace t
  else termPrint t c

/-- `term_putsn`: the characters of `str` up to its terminating zero. -/
def termPutsn (t : Terminal) : List Byte → Terminal
  | [] => t
  | c :: str => if c = 0 then t else termPutsn (termPutchar t c) str

/-- `term_puts`. -/
def termPuts (t : Terminal) (str : List Byte) : Terminal := termPutchar (termPutsn t str) 10

/-- The terminal after the characters `cs` were passed to `term_putchar` one by one. -/
def putChars (t : Terminal) (cs : List Byte) : Terminal := cs.foldl termPutchar t

/-! ### Entries of the buffer -/

/-- The character byte of an entry. -/
def charByte (e : BitVec 16) : Byte := e.setWidth 8

@[simp] theorem charByte_makeVgaEntry (c : Byte) (color : BitVec 8) :
    charByte (makeVgaEntry c color) = c := by
  ext i hi
  simp [charByte, makeVgaEntry, BitVec.getElem_signExtend, hi, show i < 16 by omega]

theorem entryIndex_eq {x y : ℕ} (hx : x < vgaWidth) (hy : y < vgaHeight) :
    entryIndex x y = y * vgaWidth + x := by
  simp only [entryIndex, vgaWidth, vgaHeight] at *
  omega

theorem entryIndex_lt {x y : ℕ} (hx : x < vgaWidth) (hy : y < vgaHeight) :
    entryIndex x y < vgaWidth * vgaHeight := by
  rw [entryIndex_eq hx hy]
  simp only [vgaWidth, vgaHeight] at *
  omega

/-! ### Scrolling -/

/-- The rows above index `n` have been moved up by one row. -/
private structure Shifted (t : Terminal) (n : ℕ) (t' : Terminal) : Prop where
  buffer : ∀ i, t'.termBuffer i = if i < n then t.termBuffer (i + vgaWidth) else t.termBuffer i
  color : t'.termColor = t.termColor
  writes : ∀ i ∈ t'.writes, i < vgaWidth * vgaHeight ∨ i ∈ t.writes

private theorem Shifted.step {t t' : Terminal} {x y : ℕ} (hx : x < vgaWidth)
    (hy : y < vgaHeight - 1) (h : Shifted t (y * vgaWidth + x) t') :
    Shifted t (y * vgaWidth + (x + 1))
      (t'.setEntry (entryIndex x y) (entryAt t' x (y + 1))) := by
  have hsrc : entryIndex x (y + 1) = y * vgaWidth + x + vgaWidth := by
    rw [entryIndex_eq hx (by omega)]
    ring
  have hdst := entryIndex_eq hx (show y < vgaHeight by omega)
  refine ⟨fun i => ?_, h.color, fun i hi => ?_⟩
  · simp only [Terminal.setEntry, entryAt, hsrc, hdst, Function.update_apply, h.buffer]
    simp only [vgaWidth]
    grind
  · rcases List.mem_cons.mp hi with rfl | hi
    · exact Or.inl (entryIndex_lt hx (by omega))
    · exact h.writes i hi

/-- The rows from the top have been moved up and the first `n` cells of the last row blanked. -/
private structure Blanked (t : Terminal) (n : ℕ) (t' : Terminal) : Prop where
  buffer : ∀ i, t'.termBuffer i =
    if i < vgaWidth * (vgaHeight - 1) then t.termBuffer (i + vgaWidth)
    else if i < vgaWidth * (vgaHeight - 1) + n then makeVgaEntry 32 (makeColor .black .black)
    else t.termBuffer i
  color : t'.termColor = t.termColor
  writes : ∀ i ∈ t'.writes, i < vgaWidth * vgaHeight ∨ i ∈ t.writes

private theorem Blanked.step {t t' : Terminal} {x : ℕ} (hx : x < vgaWidth) (h : Blanked t x t') :
    Blanked t (x + 1) (termPutEntry t' 32 (makeColor .black .black) x (vgaHeight - 1)) := by
  have hdst := entryIndex_eq hx (show vgaHeight - 1 < vgaHeight by decide)
  refine ⟨fun i => ?_, h.color, fun i hi => ?_⟩
  · simp only [termPutEntry, Terminal.setEntry, hdst, Function.update_apply, h.buffer]
    simp only [vgaWidth, vgaHeight]
    grind
  · rcases List.mem_cons.mp hi with rfl | hi
    · exact Or.inl (entryIndex_lt hx (by decide))
    · exact h.writes i hi

private theorem shifted_moveRowsUp (t : Terminal) :
    Shifted t (vgaWidth * (vgaHeight - 1)) (moveRowsUp t) := by
  rw [Nat.mul_comm]
  refine forLoop_invariant (fun y t' => Shifted t (y * vgaWidth) t') ⟨by simp, rfl, by tauto⟩
    fun y t' hy h => ?_
  rw [Nat.succ_mul]
  exact forLoop_invariant (fun x t' => Shifted t (y * vgaWidth + x) t') h
    fun x t' hx h => h.step hx hy

private theorem blanked_blankLastRow (t : Terminal) :
    Blanked t vgaWidth (blankLastRow (moveRowsUp t)) := by
  have h := shifted_moveRowsUp t
  refine forLoop_invariant (fun x t' => Blanked t x t') ⟨fun i => ?_, h.color, h.writes⟩
    fun x t' hx h => h.step hx
  rw [h.buffer]
  grind

/-- **Scrolling moves every row up by one and blanks the last.** -/
theorem termScroll_termBuffer (t : Terminal) {i : ℕ} (hi : i < vgaWidth * vgaHeight) :
    (termScroll t).termBuffer i = if i < vgaWidth * (vgaHeight - 1) then
      t.termBuffer (i + vgaWidth) else makeVgaEntry 32 (makeColor .black .black) := by
  have h := (blanked_blankLastRow t).buffer i
  simp only [termScroll, h]
  simp only [vgaWidth, vgaHeight] at hi ⊢
  grind

theorem termScroll_charByte (t : Terminal) {x y : ℕ} (hx : x < vgaWidth) (hy : y < vgaHeight) :
    charByte (entryAt (termScroll t) x y) =
      if y + 1 < vgaHeight then charByte (entryAt t x (y + 1)) else 32 := by
  rw [entryAt, termScroll_termBuffer t (entryIndex_lt hx hy), entryIndex_eq hx hy]
  split_ifs with hidx hrow hrow
  · rw [entryAt, entryIndex_eq hx hrow]
    ring_nf
  · simp only [vgaWidth, vgaHeight] at *
    omega
  · simp only [vgaWidth, vgaHeight] at *
    omega
  · exact charByte_makeVgaEntry 32 _

@[simp] theorem termScroll_termColor (t : Terminal) : (termScroll t).termColor = t.termColor := by
  simp only [termScroll, (blanked_blankLastRow t).color]

@[simp] theorem termScroll_currX (t : Terminal) : (termScroll t).currX = 0 := rfl

@[simp] theorem termScroll_currY (t : Terminal) : (termScroll t).currY = vgaHeight - 1 := rfl

theorem termScroll_writes (t : Terminal) :
    ∀ i ∈ (termScroll t).writes, i < vgaWidth * vgaHeight ∨ i ∈ t.writes := by
  simpa only [termScroll] using (blanked_blankLastRow t).writes

/-! ### The cleared screen -/

/-- The first `n` entries of the buffer are spaces; the rest of the terminal is as in `t`. -/
private structure Cleared (t : Terminal) (n : ℕ) (t' : Terminal) : Prop where
  buffer : ∀ i < n, charByte (t'.termBuffer i) = 32
  currX : t'.currX = t.currX
  currY : t'.currY = t.currY
  writes : ∀ i ∈ t'.writes, i < vgaWidth * vgaHeight ∨ i ∈ t.writes

private theorem Cleared.step {t t' : Terminal} {x y : ℕ} (hx : x < vgaWidth) (hy : y < vgaHeight)
    (h : Cleared t (y * vgaWidth + x) t') :
    Cleared t (y * vgaWidth + (x + 1)) (termPutEntry t' 32 t'.termColor x y) := by
  refine ⟨fun i hi => ?_, h.currX, h.currY, fun i hi => ?_⟩
  · simp only [termPutEntry, Terminal.setEntry, Function.update_apply, entryIndex_eq hx hy]
    split_ifs with hne
    · exact charByte_makeVgaEntry 32 _
    · exact h.buffer i (by omega)
  · rcases List.mem_cons.mp hi with rfl | hi
    · exact Or.inl (entryIndex_lt hx hy)
    · exact h.writes i hi

private theorem cleared_initTerm (t : Terminal) :
    Cleared t (vgaHeight * vgaWidth) (initTerm t) := by
  simp only [initTerm]
  refine forLoop_invariant (fun y t' => Cleared t (y * vgaWidth) t') ⟨by simp, rfl, rfl, by tauto⟩
    fun y t' hy h => ?_
  rw [Nat.succ_mul]
  exact forLoop_invariant (fun x t' => Cleared t (y * vgaWidth + x) t') h
    fun x t' hx h => h.step hx hy

@[simp] theorem initTerm_currX (t : Terminal) : (initTerm t).currX = t.currX :=
  (cleared_initTerm t).currX

@[simp] theorem initTerm_currY (t : Terminal) : (initTerm t).currY = t.currY :=
  (cleared_initTerm t).currY

theorem initTerm_charByte (t : Terminal) {x y : ℕ} (hx : x < vgaWidth) (hy : y < vgaHeight) :
    charByte (entryAt (initTerm t) x y) = 32 := by
  rw [entryAt]
  refine (cleared_initTerm t).buffer _ ?_
  rw [Nat.mul_comm]
  exact entryIndex_lt hx hy

theorem initTerm_writes (t : Terminal) :
    ∀ i ∈ (initTerm t).writes, i < vgaWidth * vgaHeight ∨ i ∈ t.writes :=
  (cleared_initTerm t).writes

/-! ### The cursor stays on the screen -/

/-- The cursor is on the screen, and every write so far was inside the buffer. -/
structure Terminal.OnScreen (t : Terminal) : Prop where
  currX_lt : t.currX < vgaWidth
  currY_lt : t.currY < vgaHeight
  writes_lt : ∀ i ∈ t.writes, i < vgaWidth * vgaHeight

/-- The character `c` is a backspace and the cursor is in the top left corner. -/
def Terminal.BackspaceAtOrigin (t : Terminal) (c : Byte) : Prop :=
  c = 8 ∧ t.currX = 0 ∧ t.currY = 0

/-- The cursor of the booted terminal starts on the screen. -/
theorem onScreen_initTerm (vram : ℕ → BitVec 16) : (initTerm (.boot vram)).OnScreen where
  currX_lt := by simp [Terminal.boot, vgaWidth]
  currY_lt := by simp [Terminal.boot, vgaHeight]
  writes_lt i hi := by simpa [Terminal.boot] using initTerm_writes _ i hi

/-- A newline needs no bound on the column: the wrap calls it with the cursor past the edge. -/
theorem onScreen_termNewline {t : Terminal} (hy : t.currY < vgaHeight)
    (hw : ∀ i ∈ t.writes, i < vgaWidth * vgaHeight) : (termNewline t).OnScreen := by
  have hsucc : (t.currY + 1) % 2 ^ 32 = t.currY + 1 := by
    simp only [vgaHeight] at hy
    omega
  simp only [termNewline, hsucc]
  split_ifs with h
  · refine ⟨by simp [vgaWidth], by simp [vgaHeight], fun i hi => ?_⟩
    rw [updateCursor_writes] at hi
    rcases termScroll_writes _ i hi with hi | hi
    · exact hi
    · exact hw i hi
  · exact ⟨by simp [vgaWidth], Nat.lt_of_le_of_ne hy h, hw⟩

theorem onScreen_termBackspace {t : Terminal} (h : t.OnScreen)
    (hne : ¬(t.currX = 0 ∧ t.currY = 0)) : (termBackspace t).OnScreen := by
  obtain ⟨hx, hy, hw⟩ := h
  simp only [vgaWidth, vgaHeight] at hx hy
  rw [termBackspace]
  split_ifs with h0
  · exact ⟨by simp [vgaWidth], by simp only [vgaHeight]; omega, hw⟩
  · exact ⟨by simp only [vgaWidth]; omega, hy, hw⟩

theorem onScreen_termPrint {t : Terminal} (h : t.OnScreen) (c : Byte) :
    (termPrint t c).OnScreen := by
  obtain ⟨hx, hy, hw⟩ := h
  have hsucc : (t.currX + 1) % 2 ^ 32 = t.currX + 1 := by
    simp only [vgaWidth] at hx
    omega
  have hw' : ∀ i ∈ (entryIndex t.currX t.currY :: t.writes), i < vgaWidth * vgaHeight := by
    rintro i (_ | ⟨_, hi⟩)
    · exact entryIndex_lt hx hy
    · exact hw i hi
  simp only [termPrint, termPutEntry, Terminal.setEntry, hsucc]
  split_ifs with hedge
  · exact onScreen_termNewline hy hw'
  · exact ⟨Nat.lt_of_le_of_ne hx hedge, hy, hw'⟩

/-- **One character keeps the cursor on the screen**, unless it is a backspace in the top left
corner. -/
theorem onScreen_termPutchar {t : Terminal} (h : t.OnScreen) {c : Byte}
    (hc : ¬t.BackspaceAtOrigin c) : (termPutchar t c).OnScreen := by
  rw [termPutchar]
  split_ifs with hn hr hb
  · exact onScreen_termNewline h.currY_lt h.writes_lt
  · exact ⟨by simp [vgaWidth], h.currY_lt, h.writes_lt⟩
  · exact onScreen_termBackspace h fun h0 => hc ⟨hb, h0⟩
  · exact onScreen_termPrint h c

/-- A backspace in the top left corner takes the cursor off the screen: `curr_y` wraps. -/
theorem not_onScreen_of_backspaceAtOrigin {t : Terminal} {c : Byte} (hc : t.BackspaceAtOrigin c) :
    ¬(termPutchar t c).OnScreen := by
  obtain ⟨rfl, hx, hy⟩ := hc
  intro h
  have := h.currY_lt
  simp [termPutchar, termBackspace, hx, hy, vgaHeight] at this

@[simp] theorem putChars_append_singleton (t : Terminal) (cs : List Byte) (c : Byte) :
    putChars t (cs ++ [c]) = termPutchar (putChars t cs) c := by
  simp [putChars]

/-- **The cursor stays on the screen over a whole text exactly when no backspace is printed in the
top left corner.** After `init_term`, for every sequence of characters: the cursor is on the screen
and every write was inside the buffer after each of its prefixes, if and only if none of its
characters is a backspace that finds the cursor in the top left corner. -/
theorem onScreen_iff_no_backspace_at_origin (vram : ℕ → BitVec 16) (cs : List Byte) :
    (∀ pre, pre <+: cs → (putChars (initTerm (.boot vram)) pre).OnScreen) ↔
      ∀ pre c, pre ++ [c] <+: cs →
        ¬(putChars (initTerm (.boot vram)) pre).BackspaceAtOrigin c := by
  constructor
  · intro h pre c hpre hc
    refine not_onScreen_of_backspaceAtOrigin hc ?_
    rw [← putChars_append_singleton]
    exact h _ hpre
  · intro h pre hpre
    induction pre using List.reverseRecOn with
    | nil => exact onScreen_initTerm vram
    | append_singleton pre c ih =>
      rw [putChars_append_singleton]
      exact onScreen_termPutchar (ih ((List.prefix_append pre [c]).trans hpre)) (h pre c hpre)

/-- A backspace as the first character leaves the screen. -/
theorem first_backspace_leaves_screen :
    ¬∀ pre, pre <+: [8] → (putChars (initTerm (.boot fun _ => 0)) pre).OnScreen := by
  intro h
  have hc : (initTerm (.boot fun _ => 0)).BackspaceAtOrigin 8 :=
    ⟨rfl, initTerm_currX _, initTerm_currY _⟩
  have hput := h [8] (List.prefix_refl _)
  rw [putChars, List.foldl_cons, List.foldl_nil] at hput
  exact not_onScreen_of_backspaceAtOrigin hc hput

end Studix.Term
