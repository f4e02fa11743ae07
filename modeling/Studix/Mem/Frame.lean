import Studix.Base.Memory
import Studix.Misc.Panic

/-!
# Physical frames

The frame bitmap of `src/mem/page.c` and the operations on it. Bit `n` of the bitmap stands for the
physical frame at address `n * PAGE_SIZE`; a page table entry that holds the frame number `0` counts
as having no frame. `set_frame` and `clear_frame` take a frame *address*, `first_frame` returns a
frame *number*, and `free_frame` passes the number to `clear_frame`.

## Main definitions

* `PageEntry`, `Frames`, `frameBit`.
* `setFrame`, `clearFrame`, `firstFrame`, `allocFrame`, `freeFrame`.

## Main results

* `frameBit_setFrame`, `frameBit_clearFrame`: the bit updates, on every bit.
* `firstFrame_of_clear`, `firstFrame_of_full`: the search, with and without a clear bit in the words
  it scans.
* `firstFrame_setFrame_exact`: the search and the updates number the frames alike.
-/

namespace Studix.Mem

/-- `PAGE_SIZE`. -/
def pageSize : ℕ := 0x1000

/-- `Page_entry`, field by field. -/
structure PageEntry where
  present : Bool
  rw : Bool
  user : Bool
  accessed : Bool
  dirty : Bool
  unused : BitVec 7
  frame : BitVec 20
  deriving DecidableEq, Repr

/-- An entry of a zeroed page table. -/
def PageEntry.zero : PageEntry := ⟨false, false, false, false, false, 0#7, 0#20⟩

/-- The array `frames` of the bitmap, by word. -/
abbrev Frames := ℕ → BitVec 32

/-- `BIT_INDEX`. -/
def bitIndex (a : ℕ) : ℕ := a / (8 * 4)

/-- `BIT_OFFSET`. -/
def bitOffset (a : ℕ) : ℕ := a % (8 * 4)

/-- Bit `n` of the bitmap. -/
def frameBit (frames : Frames) (n : ℕ) : Bool := (frames (bitIndex n)).getLsbD (bitOffset n)

/-- `set_frame`. -/
def setFrame (frames : Frames) (frameAddr : ℕ) : Frames :=
  let frame := frameAddr / pageSize
  let index := bitIndex frame
  Function.update frames index (frames index ||| 1#32 <<< bitOffset frame)

/-- `clear_frame`. -/
def clearFrame (frames : Frames) (frameAddr : ℕ) : Frames :=
  let frame := frameAddr / pageSize
  let index := bitIndex frame
  Function.update frames index (frames index &&& ~~~(1#32 <<< bitOffset frame))

/-- The inner loop of `first_frame`: the first clear bit of a word. -/
def firstClearBit (w : BitVec 32) : Option ℕ :=
  (List.range 32).find? fun j => w &&& 1#32 <<< j = 0#32

/-- The outer loop of `first_frame`, with `n` words to go from word `i`. -/
def firstFrameFrom (frames : Frames) : ℕ → ℕ → ℕ
  | 0, i => i
  | n + 1, i =>
    if frames i = 0xFFFFFFFF#32 then firstFrameFrom frames n (i + 1)
    else match firstClearBit (frames i) with
      | some j => i * 8 * 4 + j
      | none => firstFrameFrom frames n (i + 1)

/-- `first_frame`. -/
def firstFrame (numFrames : ℕ) (frames : Frames) : ℕ :=
  firstFrameFrom frames (bitIndex numFrames) 0

/-- `alloc_frame`. -/
def allocFrame (numFrames : ℕ) (frames : Frames) (page : PageEntry) (kernel writeable : Bool) :
    Except Stop (Frames × PageEntry) :=
  if page.frame ≠ 0#20 then .ok (frames, page)
  else
    let index := firstFrame numFrames frames
    if index = 2 ^ 32 - 1 then .error (.panic "No free frames!")
    else .ok (setFrame frames (index * pageSize % 2 ^ 32),
      { page with present := true, rw := writeable, user := !kernel, frame := .ofNat 20 index })

/-- `free_frame`. -/
def freeFrame (frames : Frames) (page : PageEntry) : Frames × PageEntry :=
  if page.frame = 0#20 then (frames, page)
  else (clearFrame frames page.frame.toNat, { page with frame := 0#20 })

/-! ### Single bits -/

theorem bitIndex_eq_and_bitOffset_eq_iff {n k : ℕ} :
    bitIndex n = bitIndex k ∧ bitOffset n = bitOffset k ↔ n = k := by
  simp only [bitIndex, bitOffset]
  omega

theorem bitOffset_lt (n : ℕ) : bitOffset n < 32 := Nat.mod_lt n (by decide)

private theorem getLsbD_one_shiftLeft {i j : ℕ} (hi : i < 32) :
    (1#32 <<< j).getLsbD i = decide (i = j) := by
  simp only [BitVec.getLsbD_shiftLeft, hi, decide_true, Bool.true_and, BitVec.getLsbD_one]
  grind

/-- **`set_frame` sets exactly the bit of its address.** -/
theorem frameBit_setFrame (frames : Frames) (a n : ℕ) :
    frameBit (setFrame frames a) n = (frameBit frames n || decide (n = a / pageSize)) := by
  have hbit := (bitIndex_eq_and_bitOffset_eq_iff (n := n) (k := a / pageSize)).symm
  simp only [frameBit, setFrame, Function.update_apply, hbit]
  split_ifs with h
  · simp [getLsbD_one_shiftLeft (bitOffset_lt n), h]
  · simp [h]

/-- **`clear_frame` clears exactly the bit of its address.** -/
theorem frameBit_clearFrame (frames : Frames) (a n : ℕ) :
    frameBit (clearFrame frames a) n = (frameBit frames n && !decide (n = a / pageSize)) := by
  have hbit := (bitIndex_eq_and_bitOffset_eq_iff (n := n) (k := a / pageSize)).symm
  simp only [frameBit, clearFrame, Function.update_apply, hbit]
  split_ifs with h
  · rw [BitVec.getLsbD_and, BitVec.getLsbD_not, getLsbD_one_shiftLeft (bitOffset_lt n), h]
    simp [bitOffset_lt n]
  · simp [h]

/-! ### The search for a clear bit -/

private theorem and_one_shiftLeft_eq_zero {w : BitVec 32} {j : ℕ} (hj : j < 32) :
    w &&& 1#32 <<< j = 0#32 ↔ w.getLsbD j = false := by
  constructor
  · intro h
    have hbit := congrArg (fun v => BitVec.getLsbD v j) h
    simpa [getLsbD_one_shiftLeft hj] using hbit
  · intro h
    refine BitVec.eq_of_getLsbD_eq fun i hi => ?_
    rw [BitVec.getLsbD_and, getLsbD_one_shiftLeft hi]
    by_cases hij : i = j
    · subst hij
      simp [h]
    · simp [hij]

/-- The word scan finds the least clear bit, and finds none only in a full word. -/
theorem firstClearBit_eq_some {w : BitVec 32} {j : ℕ} (h : firstClearBit w = some j) :
    j < 32 ∧ w.getLsbD j = false ∧ ∀ i < j, w.getLsbD i = true := by
  obtain ⟨hj, hmem, hbefore⟩ := List.find?_range_eq_some.mp h
  have hj32 := List.mem_range.mp hmem
  refine ⟨hj32, (and_one_shiftLeft_eq_zero hj32).mp (of_decide_eq_true hj), fun i hi => ?_⟩
  have hset := hbefore i hi
  simpa [and_one_shiftLeft_eq_zero (hi.trans hj32)] using hset

theorem firstClearBit_eq_none {w : BitVec 32} (h : firstClearBit w = none) {i : ℕ} (hi : i < 32) :
    w.getLsbD i = true := by
  have := List.find?_eq_none.mp h i (List.mem_range.mpr hi)
  simpa [and_one_shiftLeft_eq_zero hi] using this

theorem getLsbD_of_full {w : BitVec 32} (h : w = 0xFFFFFFFF#32) {i : ℕ} (hi : i < 32) :
    w.getLsbD i = true := by
  have hones : (0xFFFFFFFF#32) = BitVec.allOnes 32 := by decide
  rw [h, hones, BitVec.getLsbD_allOnes, decide_eq_true hi]

/-- The words scanned so far are full. -/
theorem frameBit_of_words_full {frames : Frames} {k n : ℕ}
    (h : ∀ i < k, ∀ j < 32, (frames i).getLsbD j = true) (hn : n < 32 * k) :
    frameBit frames n = true := by
  refine h _ ?_ _ (bitOffset_lt n)
  rw [bitIndex]
  omega

/-- The search from word `i` over `n` words: it stops at the least clear bit, or past the last
word when all of them are full. -/
theorem firstFrameFrom_spec (frames : Frames) (n i : ℕ)
    (hbefore : ∀ k < i, ∀ j < 32, (frames k).getLsbD j = true) :
    (frameBit frames (firstFrameFrom frames n i) = false ∧
        firstFrameFrom frames n i < 32 * (i + n) ∧
        ∀ m < firstFrameFrom frames n i, frameBit frames m = true) ∨
      (firstFrameFrom frames n i = i + n ∧ ∀ m < 32 * (i + n), frameBit frames m = true) := by
  induction n generalizing i with
  | zero => exact Or.inr ⟨rfl, fun m hm => frameBit_of_words_full hbefore hm⟩
  | succ n ih =>
    have hnext (hfull : ∀ j < 32, (frames i).getLsbD j = true) := ih (i + 1) fun k hk => by
      rcases Nat.lt_succ_iff_lt_or_eq.mp hk with hk | rfl
      · exact hbefore k hk
      · exact hfull
    rw [firstFrameFrom, show i + (n + 1) = i + 1 + n by omega]
    split_ifs with hword
    · exact hnext fun j hj => getLsbD_of_full hword hj
    · split
      · rename_i j hj
        obtain ⟨hj32, hclear, hset⟩ := firstClearBit_eq_some hj
        have hindex : bitIndex (i * 8 * 4 + j) = i := by rw [bitIndex]; omega
        have hoffset : bitOffset (i * 8 * 4 + j) = j := by rw [bitOffset]; omega
        refine Or.inl ⟨by rw [frameBit, hindex, hoffset, hclear], by omega, fun m hm => ?_⟩
        rcases Nat.lt_or_ge m (32 * i) with hlt | hge
        · exact frameBit_of_words_full hbefore hlt
        · have hm' : bitIndex m = i := by rw [bitIndex]; omega
          rw [frameBit, hm']
          exact hset _ (by rw [bitOffset]; omega)
      · rename_i hnone
        exact hnext fun j hj => firstClearBit_eq_none hnone hj

/-- The number of frames in the words that `first_frame` scans. -/
def scannedFrames (numFrames : ℕ) : ℕ := 32 * bitIndex numFrames

/-- **`first_frame` finds the least free frame** when a scanned word has a clear bit. -/
theorem firstFrame_of_clear {numFrames : ℕ} {frames : Frames}
    (h : ∃ n < scannedFrames numFrames, frameBit frames n = false) :
    frameBit frames (firstFrame numFrames frames) = false ∧
      firstFrame numFrames frames < scannedFrames numFrames ∧
      ∀ n < firstFrame numFrames frames, frameBit frames n = true := by
  rcases firstFrameFrom_spec frames (bitIndex numFrames) 0 (by simp) with hfound | ⟨-, hfull⟩
  · simpa [firstFrame, scannedFrames] using hfound
  · obtain ⟨n, hn, hclear⟩ := h
    rw [hfull n (by simpa [scannedFrames] using hn)] at hclear
    exact absurd hclear (by simp)

/-- When every scanned word is full, `first_frame` returns the number of words. -/
theorem firstFrame_of_full {numFrames : ℕ} {frames : Frames}
    (h : ∀ n < scannedFrames numFrames, frameBit frames n = true) :
    firstFrame numFrames frames = bitIndex numFrames := by
  rcases firstFrameFrom_spec frames (bitIndex numFrames) 0 (by simp) with ⟨hclear, hlt, -⟩ | hfull
  · rw [h _ (by simpa [scannedFrames] using hlt)] at hclear
    exact absurd hclear (by simp)
  · simpa [firstFrame] using hfull.1

theorem firstFrame_le (numFrames : ℕ) (frames : Frames) :
    firstFrame numFrames frames ≤ numFrames := by
  rcases firstFrameFrom_spec frames (bitIndex numFrames) 0 (by simp) with ⟨-, hlt, -⟩ | ⟨heq, -⟩
  · rw [firstFrame]
    simp only [bitIndex] at *
    omega
  · rw [firstFrame, heq, bitIndex]
    omega

/-- With whole words of frames and a clear bit, `first_frame` returns the least free frame. -/
theorem isLeast_firstFrame {numFrames : ℕ} {frames : Frames} (hwords : 32 ∣ numFrames)
    (hclear : ∃ n < numFrames, frameBit frames n = false) :
    IsLeast {n | n < numFrames ∧ frameBit frames n = false} (firstFrame numFrames frames) := by
  have hscanned : scannedFrames numFrames = numFrames := Nat.mul_div_cancel' hwords
  rw [← hscanned] at hclear
  obtain ⟨hbit, hlt, hbefore⟩ := firstFrame_of_clear hclear
  refine ⟨⟨hlt.trans_eq hscanned, hbit⟩, fun n ⟨_, hfree⟩ => ?_⟩
  by_contra! hless
  exact absurd ((hbefore n hless).symm.trans hfree) (by decide)

/-- The number of a frame whose address has 32 bits. -/
theorem frame_of_addr {frame : ℕ} (haddr : frame * pageSize < 2 ^ 32) :
    frame * pageSize % 2 ^ 32 / pageSize = frame := by
  rw [Nat.mod_eq_of_lt haddr, Nat.mul_div_cancel _ (by decide)]

/-- **The search and the updates agree on the numbering of the frames.** For every number of frames
in whole words and every bitmap with a clear bit among them, `first_frame` returns the least frame
whose bit is clear; and for every frame whose address has 32 bits, `set_frame` and `clear_frame` on
that address change the bit of the frame and no other. -/
theorem firstFrame_setFrame_exact (numFrames : ℕ) (frames : Frames) :
    (32 ∣ numFrames → (∃ n < numFrames, frameBit frames n = false) →
      IsLeast {n | n < numFrames ∧ frameBit frames n = false} (firstFrame numFrames frames)) ∧
    ∀ frame < numFrames, frame * pageSize < 2 ^ 32 →
      (frameBit (setFrame frames (frame * pageSize % 2 ^ 32)) frame = true ∧
        ∀ n ≠ frame, frameBit (setFrame frames (frame * pageSize % 2 ^ 32)) n = frameBit frames n) ∧
      frameBit (clearFrame frames (frame * pageSize % 2 ^ 32)) frame = false ∧
        ∀ n ≠ frame, frameBit (clearFrame frames (frame * pageSize % 2 ^ 32)) n =
          frameBit frames n := by
  refine ⟨isLeast_firstFrame, fun frame _ haddr => ⟨⟨?_, fun n hn => ?_⟩, ?_, fun n hn => ?_⟩⟩
  · rw [frameBit_setFrame, frame_of_addr haddr, decide_eq_true rfl, Bool.or_true]
  · rw [frameBit_setFrame, frame_of_addr haddr, decide_eq_false hn, Bool.or_false]
  · rw [frameBit_clearFrame, frame_of_addr haddr, decide_eq_true rfl, Bool.not_true, Bool.and_false]
  · rw [frameBit_clearFrame, frame_of_addr haddr, decide_eq_false hn, Bool.not_false, Bool.and_true]

end Studix.Mem
