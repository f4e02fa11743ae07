import Studix.Term.Vga

/-!
# The screen shows the tail of the text

The abstract terminal is an unbounded list of rows: `breakRows` breaks a text at its newlines and
immediately after every `VGA_WIDTH`-th character of a row. The buffer of `src/term/vga.c` keeps the
last `VGA_HEIGHT` of them. `Shows t done row` relates a terminal to the rows already ended and the
row in progress; every printed character carries it from one list of rows to the next, the scroll
of the buffer being the step that forgets the top row.

## Main definitions

* `breakRows`: the rows of a text.
* `displayed`: the contents of the screen for a list of rows.
* `Shows`: the simulation relation.

## Main results

* `Shows.termNewline`, `Shows.termPrint`: one character of the text.
* `Shows.putChars`: a whole text.
* `termPutsn_displays_tail`: after `term_putsn` the screen is the tail of the text.
-/

namespace Studix.Term

/-! ### Rows of a text -/

/-- The rows of `text` after the row in progress `row`: broken at newlines and immediately after
every `VGA_WIDTH`-th character of a row. -/
def breakRows (row : List Byte) : List Byte → List (List Byte)
  | [] => [row]
  | c :: text =>
    if c = 10 then row :: breakRows [] text
    else if row.length + 1 = vgaWidth then (row ++ [c]) :: breakRows [] text
    else breakRows (row ++ [c]) text

/-- A row padded with spaces to the width of the screen. -/
def padRow (row : List Byte) : List Byte := row ++ List.replicate (vgaWidth - row.length) 32

/-- The screen for the rows `rows`: the last `VGA_HEIGHT` of them, or all of them from the top. -/
def displayed (rows : List (List Byte)) : List (List Byte) :=
  (rows.drop (rows.length - vgaHeight)).map padRow ++
    List.replicate (vgaHeight - rows.length) (padRow [])

/-- The character bytes of the screen, row by row. -/
def screenRows (t : Terminal) : List (List Byte) :=
  (List.range vgaHeight).map fun y => (List.range vgaWidth).map fun x => charByte (entryAt t x y)

theorem breakRows_ne_nil (row text : List Byte) : breakRows row text ≠ [] := by
  induction text generalizing row with
  | nil => simp [breakRows]
  | cons c text ih =>
    rw [breakRows]
    split_ifs
    · simp
    · simp
    · exact ih _

theorem length_le_of_mem_breakRows {row text : List Byte} (hrow : row.length < vgaWidth) :
    ∀ r ∈ breakRows row text, r.length ≤ vgaWidth := by
  induction text generalizing row with
  | nil => simpa [breakRows] using hrow.le
  | cons c text ih =>
    have hnew := @ih [] (by simp [vgaWidth])
    rw [breakRows]
    split_ifs with hc hw
    · exact List.forall_mem_cons.mpr ⟨hrow.le, hnew⟩
    · exact List.forall_mem_cons.mpr ⟨by simp [hw], hnew⟩
    · refine ih ?_
      simp only [List.length_append, List.length_singleton]
      omega

/-! ### The simulation relation -/

/-- The character at column `x` of row `i`; a row that is missing or too short shows a space. -/
def rowChar (rows : List (List Byte)) (x i : ℕ) : Byte := (rows[i]?.getD [])[x]?.getD 32

theorem rowChar_of_length_le {rows : List (List Byte)} {i : ℕ} (x : ℕ) (h : rows.length ≤ i) :
    rowChar rows x i = 32 := by
  simp [rowChar, List.getElem?_eq_none h]

/-- An empty last row shows nothing. -/
@[simp] theorem rowChar_append_nil (rows : List (List Byte)) (x i : ℕ) :
    rowChar (rows ++ [[]]) x i = rowChar rows x i := by
  rcases lt_trichotomy i rows.length with h | rfl | h
  · simp [rowChar, List.getElem?_append_left h]
  · simp [rowChar]
  · rw [rowChar_of_length_le x h.le, rowChar_of_length_le x (by simpa using h)]

/-- Appending a character to the last row changes one cell. -/
theorem rowChar_append_char (done : List (List Byte)) (row : List Byte) (c : Byte) (x i : ℕ) :
    rowChar (done ++ [row ++ [c]]) x i =
      if x = row.length ∧ i = done.length then c else rowChar (done ++ [row]) x i := by
  rcases lt_trichotomy i done.length with h | rfl | h
  · simp [rowChar, List.getElem?_append_left h, h.ne]
  · rcases lt_trichotomy x row.length with hx | rfl | hx
    · simp [rowChar, List.getElem?_append_left hx, hx.ne]
    · simp [rowChar]
    · have hlen : (row ++ [c]).length ≤ x := by simpa using hx
      simp [rowChar, List.getElem?_eq_none hlen, List.getElem?_eq_none hx.le, hx.ne']
  · rw [rowChar_of_length_le x (by simpa using h), rowChar_of_length_le x (by simpa using h)]
    simp [h.ne']

/-- The terminal `t` shows the ended rows `done` and the row in progress `row`, with the cursor at
the end of `row`. -/
structure Shows (t : Terminal) (done : List (List Byte)) (row : List Byte) : Prop where
  cells : ∀ x y, x < vgaWidth → y < vgaHeight →
    charByte (entryAt t x y) = rowChar (done ++ [row]) x (done.length + 1 - vgaHeight + y)
  currX : t.currX = row.length
  currY : t.currY = min done.length (vgaHeight - 1)

theorem shows_initTerm (vram : ℕ → BitVec 16) : Shows (initTerm (.boot vram)) [] [] where
  cells x y hx hy := by
    rw [initTerm_charByte _ hx hy, rowChar]
    rcases y with _ | y <;> simp [vgaHeight]
  currX := by simp [Terminal.boot]
  currY := by simp [Terminal.boot]

theorem Shows.termNewline {t : Terminal} {done : List (List Byte)} {row : List Byte}
    (h : Shows t done row) : Shows (termNewline t) (done ++ [row]) [] := by
  have hy := h.currY
  have hsucc : (t.currY + 1) % 2 ^ 32 = t.currY + 1 := by
    simp only [vgaHeight] at hy
    omega
  rw [Term.termNewline]
  simp only [hsucc]
  split_ifs with hscroll
  · -- The cursor was on the bottom row: the screen moves one row down the list.
    have hdone : vgaHeight ≤ done.length + 1 := by
      simp only [vgaHeight] at *
      omega
    refine ⟨fun x y hx hy' => ?_, by simp, ?_⟩
    · rw [entryAt_updateCursor, termScroll_charByte _ hx hy', rowChar_append_nil]
      split_ifs with hlast
      · have hcell := h.cells x (y + 1) hx hlast
        have htop : done.length + 1 - vgaHeight + (y + 1) =
            (done ++ [row]).length + 1 - vgaHeight + y := by
          simp only [List.length_append, List.length_singleton]
          omega
        rw [entryAt] at hcell ⊢
        rw [hcell, htop]
      · rw [rowChar_of_length_le]
        simp only [List.length_append, List.length_singleton]
        omega
    · simp only [updateCursor_currY, termScroll_currY, List.length_append, List.length_singleton,
        vgaHeight] at *
      omega
  · have hdone : done.length + 1 < vgaHeight := by
      simp only [vgaHeight] at *
      omega
    refine ⟨fun x y hx hy' => ?_, by simp, ?_⟩
    · have hcell := h.cells x y hx hy'
      have htop : done.length + 1 - vgaHeight + y =
          (done ++ [row]).length + 1 - vgaHeight + y := by
        simp only [List.length_append, List.length_singleton]
        omega
      rw [entryAt_updateCursor, rowChar_append_nil]
      rw [entryAt] at hcell ⊢
      rw [hcell, htop]
    · simp only [updateCursor_currY, List.length_append, List.length_singleton, vgaHeight] at *
      omega

/-- The entry written by the default case, before the cursor wraps. -/
theorem Shows.putEntry {t : Terminal} {done : List (List Byte)} {row : List Byte}
    (h : Shows t done row) (hrow : row.length < vgaWidth) (c : Byte) :
    Shows { termPutEntry t c t.termColor t.currX t.currY with currX := row.length + 1 } done
      (row ++ [c]) := by
  have hy := h.currY
  have hylt : t.currY < vgaHeight := by
    simp only [vgaHeight] at *
    omega
  refine ⟨fun x y hx hy' => ?_, by simp, hy⟩
  have hcell : entryIndex x y = entryIndex t.currX t.currY ↔ x = row.length ∧ y = t.currY := by
    rw [h.currX, entryIndex_eq hx hy', entryIndex_eq hrow hylt]
    simp only [vgaWidth] at *
    omega
  have hlast : done.length + 1 - vgaHeight + y = done.length ↔ y = t.currY := by
    rw [hy]
    simp only [vgaHeight] at *
    omega
  rw [rowChar_append_char, ← h.cells x y hx hy']
  simp only [hlast, entryAt, termPutEntry, Terminal.setEntry, Function.update_apply, hcell]
  split_ifs
  · exact charByte_makeVgaEntry c _
  · rfl

/-- A character in the last column ends its row through the newline path. -/
theorem Shows.termPrint {t : Terminal} {done : List (List Byte)} {row : List Byte}
    (h : Shows t done row) (hrow : row.length < vgaWidth) (c : Byte) :
    if row.length + 1 = vgaWidth then Shows (termPrint t c) (done ++ [row ++ [c]]) []
    else Shows (termPrint t c) done (row ++ [c]) := by
  have hsucc : (t.currX + 1) % 2 ^ 32 = row.length + 1 := by
    rw [h.currX]
    simp only [vgaWidth] at hrow
    omega
  have hput := h.putEntry hrow c
  have hx : (termPutEntry t c t.termColor t.currX t.currY).currX = t.currX := rfl
  rw [Term.termPrint]
  simp only [hx, hsucc]
  split_ifs
  · exact hput.termNewline
  · exact hput

/-- **A whole text.** Printing `text` takes the rows on the screen to those of `breakRows`. -/
theorem Shows.putChars {t : Terminal} {done : List (List Byte)} {row text : List Byte}
    (h : Shows t done row) (hrow : row.length < vgaWidth) (htext : ∀ c ∈ text, c ≠ 13 ∧ c ≠ 8) :
    ∃ done' row', breakRows row text = done' ++ [row'] ∧
      Shows (putChars t text) (done ++ done') row' := by
  induction text generalizing t done row with
  | nil => exact ⟨[], row, rfl, by simpa [Term.putChars] using h⟩
  | cons c text ih =>
    obtain ⟨⟨hr, hb⟩, htext⟩ := List.forall_mem_cons.mp htext
    have hzero : ([] : List Byte).length < vgaWidth := by simp [vgaWidth]
    rw [breakRows]
    by_cases hn : c = 10
    · have hstep : Shows (termPutchar t c) (done ++ [row]) [] := by
        simpa [termPutchar, hn] using h.termNewline
      obtain ⟨done', row', heq, hshows⟩ := ih hstep hzero htext
      refine ⟨row :: done', row', by simp [hn, heq], ?_⟩
      simpa [Term.putChars] using hshows
    · have hput : termPutchar t c = Term.termPrint t c := by
        rw [termPutchar, if_neg hn, if_neg hr, if_neg hb]
      have hstep := h.termPrint hrow c
      rw [← hput] at hstep
      split_ifs at hstep with hedge
      · obtain ⟨done', row', heq, hshows⟩ := ih hstep hzero htext
        refine ⟨(row ++ [c]) :: done', row', by rw [if_neg hn, if_pos hedge, heq]; rfl, ?_⟩
        simpa [Term.putChars] using hshows
      · have hlt : (row ++ [c]).length < vgaWidth := by
          simp only [List.length_append, List.length_singleton]
          omega
        obtain ⟨done', row', heq, hshows⟩ := ih hstep hlt htext
        exact ⟨done', row', by rw [if_neg hn, if_neg hedge, heq], hshows⟩

/-! ### The screen as a list of rows -/

theorem padRow_eq_map {row : List Byte} (h : row.length ≤ vgaWidth) :
    padRow row = (List.range vgaWidth).map fun x => row[x]?.getD 32 := by
  refine List.ext_getElem? fun x => ?_
  rw [padRow]
  rcases lt_or_ge x row.length with hx | hx
  · rw [List.getElem?_append_left hx, List.getElem?_map,
      List.getElem?_range (lt_of_lt_of_le hx h)]
    simp [hx]
  · rw [List.getElem?_append_right hx, List.getElem?_replicate, List.getElem?_map]
    split_ifs with hlt
    · rw [List.getElem?_range (by omega)]
      simp [hx]
    · rw [List.getElem?_eq_none (by simp only [List.length_range]; omega)]
      rfl

theorem displayed_eq_map (rows : List (List Byte)) :
    displayed rows = (List.range vgaHeight).map fun y =>
      padRow (rows[rows.length - vgaHeight + y]?.getD []) := by
  refine List.ext_getElem? fun y => ?_
  have hlen : ((rows.drop (rows.length - vgaHeight)).map padRow).length =
      min rows.length vgaHeight := by
    simp only [List.length_map, List.length_drop]
    omega
  rw [displayed]
  rcases lt_or_ge y (min rows.length vgaHeight) with hy | hy
  · have hy' : y < vgaHeight := by omega
    have hidx : rows.length - vgaHeight + y < rows.length := by omega
    rw [List.getElem?_append_left (hlen ▸ hy), List.getElem?_map, List.getElem?_drop,
      List.getElem?_map, List.getElem?_range hy', Option.map_some,
      List.getElem?_eq_getElem hidx]
    rfl
  · rw [List.getElem?_append_right (hlen ▸ hy), hlen, List.getElem?_replicate, List.getElem?_map]
    split_ifs with hlt
    · rw [List.getElem?_range (by omega), Option.map_some,
        List.getElem?_eq_none (by omega : rows.length ≤ rows.length - vgaHeight + y)]
      rfl
    · rw [List.getElem?_eq_none (by simp only [List.length_range]; omega)]
      rfl

/-- A terminal that shows some rows has them on its screen. -/
theorem Shows.screenRows {t : Terminal} {done : List (List Byte)} {row : List Byte}
    (h : Shows t done row) (hlen : ∀ r ∈ done ++ [row], r.length ≤ vgaWidth) :
    screenRows t = displayed (done ++ [row]) := by
  rw [displayed_eq_map, Term.screenRows]
  refine List.map_congr_left fun y hy => ?_
  have hrow : ((done ++ [row])[(done ++ [row]).length - vgaHeight + y]?.getD []).length ≤
      vgaWidth := by
    rcases hget : (done ++ [row])[(done ++ [row]).length - vgaHeight + y]? with _ | r
    · simp
    · exact hlen r (List.mem_of_getElem? hget)
  rw [padRow_eq_map hrow]
  refine List.map_congr_left fun x hx => ?_
  rw [h.cells x y (List.mem_range.mp hx) (List.mem_range.mp hy), rowChar]
  simp

theorem termPutsn_eq_putChars {text : List Byte} (htext : ∀ c ∈ text, c ≠ 0) (t : Terminal) :
    termPutsn t text = putChars t text := by
  induction text generalizing t with
  | nil => rfl
  | cons c text ih =>
    obtain ⟨hc, htext⟩ := List.forall_mem_cons.mp htext
    rw [termPutsn, if_neg hc, ih htext]
    rfl

/-- **The screen shows the tail of the text.** After `init_term`, printing a text without carriage
return and backspace with `term_putsn` leaves on the screen the last `VGA_HEIGHT` rows of the text,
or all of them from the top when there are fewer, each padded with spaces, and the cursor at the
end of the last row. -/
theorem termPutsn_displays_tail (vram : ℕ → BitVec 16) (text : List Byte)
    (htext : ∀ c ∈ text, c ≠ 0 ∧ c ≠ 13 ∧ c ≠ 8) :
    let t := termPutsn (initTerm (.boot vram)) text
    let rows := breakRows [] text
    screenRows t = displayed rows ∧
      t.currX = (rows.getLast (breakRows_ne_nil [] text)).length ∧
      t.currY = min rows.length vgaHeight - 1 := by
  intro t rows
  have hzero : ([] : List Byte).length < vgaWidth := by simp [vgaWidth]
  obtain ⟨done, row, hrows, hshows⟩ :=
    (shows_initTerm vram).putChars hzero fun c hc => (htext c hc).2
  have ht : t = putChars (initTerm (.boot vram)) text :=
    termPutsn_eq_putChars (fun c hc => (htext c hc).1) _
  rw [List.nil_append, ← ht] at hshows
  have hlen : ∀ r ∈ done ++ [row], r.length ≤ vgaWidth := by
    rw [← hrows]
    exact length_le_of_mem_breakRows hzero
  have hlast : rows.getLast (breakRows_ne_nil [] text) = row := by
    simp only [rows, hrows, List.getLast_append_singleton]
  refine ⟨?_, ?_, ?_⟩
  · rw [show rows = done ++ [row] from hrows]
    exact hshows.screenRows hlen
  · rw [hlast]
    exact hshows.currX
  · rw [hshows.currY, show rows = done ++ [row] from hrows, List.length_append,
      List.length_singleton]
    simp only [vgaHeight]
    omega

/-- The two-row text `hi⏎!`. -/
theorem termPutsn_displays_tail_two_rows :
    (∀ c ∈ ([104, 105, 10, 33] : List Byte), c ≠ 0 ∧ c ≠ 13 ∧ c ≠ 8) ∧
      screenRows (termPutsn (initTerm (.boot fun _ => 0)) [104, 105, 10, 33]) =
        displayed [[104, 105], [33]] := by
  have htext : ∀ c ∈ ([104, 105, 10, 33] : List Byte), c ≠ 0 ∧ c ≠ 13 ∧ c ≠ 8 := by decide
  exact ⟨htext, (termPutsn_displays_tail (fun _ => 0) [104, 105, 10, 33] htext).1⟩

end Studix.Term
