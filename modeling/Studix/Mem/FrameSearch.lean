import Studix.Mem.Frame

/-!
# What the search for a frame and its caller agree on

`alloc_frame` takes the value `(uint32_t)-1` of `first_frame` for "no free frame" and a frame number
other than `0` in the entry for "already allocated". `first_frame` never returns the first of these
values: over full words it returns the number of words. It can return frame `0`, which leaves an
entry that the next call takes for one without a frame.

## Main definitions

* `ExhaustionDetected`: what `alloc_frame` owes its caller when the frames run out.
* `allocFrameTwice`.

## Main results

* `allocFrame_of_zero`: an entry without a frame always gets what `first_frame` returns.
* `exhaustionDetected_iff`: the states in which exhaustion is detected.
* `allocFrameTwice_eq_iff`: the states in which a second call changes nothing.
-/

namespace Studix.Mem

/-- The panic on a bitmap in which every frame is taken, and no frame given out twice. -/
structure ExhaustionDetected (numFrames : ℕ) (frames : Frames) (page : PageEntry)
    (kernel writeable : Bool) : Prop where
  panics : (∀ n < numFrames, frameBit frames n = true) →
    allocFrame numFrames frames page kernel writeable = .error (.panic "No free frames!")
  fresh : ∀ frames' page', allocFrame numFrames frames page kernel writeable =
    .ok (frames', page') → frameBit frames page'.frame.toNat = false

/-- `alloc_frame` twice on one entry. -/
def allocFrameTwice (numFrames : ℕ) (frames : Frames) (page : PageEntry) (kernel writeable : Bool) :
    Except Stop (Frames × PageEntry) := do
  let (frames, page) ← allocFrame numFrames frames page kernel writeable
  allocFrame numFrames frames page kernel writeable

/-- The entry that `alloc_frame` leaves when it takes the frame `index`. -/
def PageEntry.take (page : PageEntry) (kernel writeable : Bool) (index : ℕ) : PageEntry :=
  { page with present := true, rw := writeable, user := !kernel, frame := .ofNat 20 index }

@[simp] theorem PageEntry.toNat_frame_take (page : PageEntry) (kernel writeable : Bool)
    (index : ℕ) :
    (page.take kernel writeable index).frame.toNat = index % 2 ^ 20 :=
  BitVec.toNat_ofNat index 20

theorem PageEntry.frame_eq_zero_iff {page : PageEntry} :
    page.frame = 0#20 ↔ page.frame.toNat = 0 := by
  rw [← BitVec.toNat_inj, BitVec.toNat_zero]

/-- **An entry without a frame always gets one**: `first_frame` never returns the value that
`alloc_frame` takes for exhaustion. -/
theorem allocFrame_of_zero {numFrames : ℕ} (hnum : numFrames < 2 ^ 32) (frames : Frames)
    {page : PageEntry} (hframe : page.frame = 0#20) (kernel writeable : Bool) :
    allocFrame numFrames frames page kernel writeable =
      .ok (setFrame frames (firstFrame numFrames frames * pageSize % 2 ^ 32),
        page.take kernel writeable (firstFrame numFrames frames)) := by
  have hne : ¬firstFrame numFrames frames = 2 ^ 32 - 1 := by
    intro heq
    by_cases hclear : ∃ n < scannedFrames numFrames, frameBit frames n = false
    · have hlt := (firstFrame_of_clear hclear).2.1
      simp only [scannedFrames, bitIndex] at hlt
      omega
    · rw [firstFrame_of_full (by simpa using hclear), bitIndex] at heq
      omega
  rw [allocFrame, if_neg (not_not.mpr hframe), if_neg hne]
  rfl

theorem allocFrame_of_ne_zero {page : PageEntry} (hframe : page.frame ≠ 0#20) (numFrames : ℕ)
    (frames : Frames) (kernel writeable : Bool) :
    allocFrame numFrames frames page kernel writeable = .ok (frames, page) := by
  rw [allocFrame, if_pos hframe]

/-! ### Exhaustion -/

/-- The bit of the frame that an entry without a frame gets. -/
theorem frameBit_firstFrame_mod {numFrames : ℕ} (hnum : numFrames < 2 ^ 32) (frames : Frames) :
    frameBit frames (firstFrame numFrames frames % 2 ^ 20) = false ↔
      (∃ n < scannedFrames numFrames, n < 2 ^ 20 ∧ frameBit frames n = false) ∨
        (numFrames < 32 ∧ frameBit frames 0 = false) := by
  by_cases hclear : ∃ n < scannedFrames numFrames, frameBit frames n = false
  · obtain ⟨hbit, hlt, hbefore⟩ := firstFrame_of_clear hclear
    have hlarge : ¬numFrames < 32 := by
      simp only [scannedFrames, bitIndex] at hlt
      omega
    constructor
    · intro hmod
      refine Or.inl ⟨firstFrame numFrames frames, hlt, ?_, hbit⟩
      by_contra hge
      -- A frame from `2 ^ 20` on loses its high bits in the entry, and the frame left is taken.
      rw [hbefore _ (by omega)] at hmod
      exact absurd hmod (by simp)
    · rintro (⟨n, -, hn, hn'⟩ | ⟨hsmall, -⟩)
      · have hle : firstFrame numFrames frames ≤ n := by
          by_contra hgt
          rw [hbefore n (by omega)] at hn'
          exact absurd hn' (by simp)
        rwa [Nat.mod_eq_of_lt (by omega)]
      · exact absurd hsmall hlarge
  · have hfull : ∀ n < scannedFrames numFrames, frameBit frames n = true := by simpa using hclear
    have hnone : ¬∃ n < scannedFrames numFrames, n < 2 ^ 20 ∧ frameBit frames n = false := by
      rintro ⟨n, hn, -, hn'⟩
      exact hclear ⟨n, hn, hn'⟩
    rw [firstFrame_of_full hfull, or_iff_right hnone]
    rcases Nat.lt_or_ge numFrames 32 with hsmall | hlarge
    · rw [bitIndex, Nat.div_eq_of_lt (by omega)]
      simp [hsmall]
    · have hset : frameBit frames (bitIndex numFrames % 2 ^ 20) = true := by
        refine hfull _ (lt_of_le_of_lt (Nat.mod_le _ _) ?_)
        simp only [scannedFrames, bitIndex]
        omega
      rw [hset]
      simp [Nat.not_lt.mpr hlarge]

/-- **When exhaustion is detected.** For every bitmap and every entry without a frame, `alloc_frame`
does what it owes its caller exactly when a frame in the words it scans is free, so that the frames
have not run out at all (with fewer than one word of frames nothing is scanned, and it comes down to
frame `0`). On a full bitmap it never does. -/
theorem exhaustionDetected_iff {numFrames : ℕ} (hnum : numFrames < 2 ^ 32) (frames : Frames)
    {page : PageEntry} (hframe : page.frame = 0#20) (kernel writeable : Bool) :
    ExhaustionDetected numFrames frames page kernel writeable ↔
      (∃ n < scannedFrames numFrames, n < 2 ^ 20 ∧ frameBit frames n = false) ∨
        (0 < numFrames ∧ numFrames < 32 ∧ frameBit frames 0 = false) := by
  have halloc := allocFrame_of_zero hnum frames hframe kernel writeable
  have hmod := frameBit_firstFrame_mod hnum frames
  constructor
  · intro h
    have hbit := h.fresh _ _ halloc
    rw [PageEntry.toNat_frame_take] at hbit
    rcases hmod.mp hbit with hclear | ⟨hsmall, hzero⟩
    · exact Or.inl hclear
    · refine Or.inr ⟨Nat.pos_of_ne_zero fun hnone => ?_, hsmall, hzero⟩
      rw [h.panics fun n hn => absurd hn (by omega)] at halloc
      cases halloc
  · intro h
    refine ⟨fun hfull => ?_, fun frames' page' hok => ?_⟩
    · rcases h with ⟨n, hn, -, hclear⟩ | ⟨hpos, -, hclear⟩
      · rw [hfull n (by simp only [scannedFrames, bitIndex] at hn; omega)] at hclear
        exact absurd hclear (by simp)
      · rw [hfull 0 hpos] at hclear
        exact absurd hclear (by simp)
    · rw [halloc] at hok
      obtain ⟨-, rfl⟩ := Prod.mk.inj (Except.ok.inj hok)
      rw [PageEntry.toNat_frame_take]
      exact hmod.mpr (h.imp_right fun h => h.2)

/-- The zeroed bitmap of a machine with 64 MiB. -/
theorem exhaustionDetected_zeroed :
    ExhaustionDetected 0x4000 (fun _ => 0#32) .zero false false :=
  (exhaustionDetected_iff (by decide) _ rfl false false).mpr
    (Or.inl ⟨0, by decide, by decide, by decide⟩)

/-- With every frame of 64 MiB taken, `alloc_frame` hands out frame 512 once more. -/
theorem taken_frame_handed_out :
    ¬ExhaustionDetected 0x4000 (fun _ => 0xFFFFFFFF#32) .zero false false := by
  intro h
  have hnum : 0x4000 < 2 ^ 32 := by decide
  have hzero : PageEntry.zero.frame = 0#20 := rfl
  have halloc := allocFrame_of_zero hnum (fun _ => 0xFFFFFFFF#32) hzero false false
  rw [h.panics fun n _ => getLsbD_of_full rfl (bitOffset_lt n)] at halloc
  cases halloc

/-! ### A second call on the same entry -/

theorem setFrame_setFrame (frames : Frames) (a : ℕ) :
    setFrame (setFrame frames a) a = setFrame frames a := by
  rw [setFrame]
  simp [setFrame, BitVec.or_assoc]

theorem firstFrame_lt_of_le {numFrames : ℕ} (hnum : numFrames ≤ 2 ^ 20) (frames : Frames) :
    firstFrame numFrames frames < 2 ^ 20 := by
  by_cases hclear : ∃ n < scannedFrames numFrames, frameBit frames n = false
  · have hlt := (firstFrame_of_clear hclear).2.1
    simp only [scannedFrames, bitIndex] at hlt
    omega
  · rw [firstFrame_of_full (by simpa using hclear), bitIndex]
    omega

/-- The search returns frame `0` only when its bit is clear or there is no word to scan. -/
theorem firstFrame_eq_zero_iff (numFrames : ℕ) (frames : Frames) :
    firstFrame numFrames frames = 0 ↔ numFrames < 32 ∨ frameBit frames 0 = false := by
  by_cases hclear : ∃ n < scannedFrames numFrames, frameBit frames n = false
  · obtain ⟨hbit, hlt, hbefore⟩ := firstFrame_of_clear hclear
    have hlarge : ¬numFrames < 32 := by
      simp only [scannedFrames, bitIndex] at hlt
      omega
    rw [or_iff_right hlarge]
    constructor
    · intro hzero
      rwa [hzero] at hbit
    · intro hzero
      by_contra hpos
      rw [hbefore 0 (Nat.pos_of_ne_zero hpos)] at hzero
      exact absurd hzero (by simp)
  · have hfull : ∀ n < scannedFrames numFrames, frameBit frames n = true := by simpa using hclear
    rw [firstFrame_of_full hfull, bitIndex]
    constructor
    · intro hzero
      exact Or.inl (by omega)
    · rintro (hsmall | hzero)
      · omega
      · by_contra hpos
        rw [hfull 0 (by simp only [scannedFrames, bitIndex]; omega)] at hzero
        exact absurd hzero (by simp)

/-- After frame `0` was handed out, the search goes on behind it. -/
private theorem firstFrame_setFrame_zero {numFrames : ℕ} (hlarge : 32 ≤ numFrames)
    (frames : Frames) :
    firstFrame numFrames (setFrame frames 0) ≠ 0 := by
  rw [Ne, firstFrame_eq_zero_iff, frameBit_setFrame]
  simp [hlarge, pageSize]

/-- **When a second call changes nothing.** For every bitmap and every entry, `alloc_frame` twice
does what it does once exactly when the entry has a frame, or frame `0` is taken, so that the entry
gets another frame than `0` (or there is no whole word of frames, and both calls give out frame
`0`). -/
theorem allocFrameTwice_eq_iff {numFrames : ℕ} (hnum : numFrames ≤ 2 ^ 20) (frames : Frames)
    (page : PageEntry) (kernel writeable : Bool) :
    allocFrameTwice numFrames frames page kernel writeable =
        allocFrame numFrames frames page kernel writeable ↔
      page.frame ≠ 0#20 ∨ frameBit frames 0 = true ∨ numFrames < 32 := by
  have htwice {frames' : Frames} {page' : PageEntry}
      (h : allocFrame numFrames frames page kernel writeable = .ok (frames', page')) :
      allocFrameTwice numFrames frames page kernel writeable =
        allocFrame numFrames frames' page' kernel writeable := by
    rw [allocFrameTwice, h]
    rfl
  by_cases hframe : page.frame = 0#20
  swap
  · have hsame := allocFrame_of_ne_zero hframe numFrames frames kernel writeable
    exact iff_of_true (htwice hsame) (Or.inl hframe)
  have hnum32 : numFrames < 2 ^ 32 := by omega
  have hone := allocFrame_of_zero hnum32 frames hframe kernel writeable
  have hlt := firstFrame_lt_of_le hnum frames
  rw [htwice hone, or_iff_right (not_not.mpr hframe)]
  by_cases hzero : firstFrame numFrames frames = 0
  · -- The entry keeps the number `0`: the second call searches again, behind frame `0`.
    rw [hzero, Nat.zero_mul, Nat.zero_mod] at hone ⊢
    have htaken : (page.take kernel writeable 0).frame = 0#20 := rfl
    have hagain := allocFrame_of_zero hnum32 (setFrame frames 0) htaken kernel writeable
    have hlt' := firstFrame_lt_of_le hnum (setFrame frames 0)
    rw [hagain, hone]
    rcases Nat.lt_or_ge numFrames 32 with hsmall | hlarge
    · have hzero' : firstFrame numFrames (setFrame frames 0) = 0 :=
        (firstFrame_eq_zero_iff numFrames _).mpr (Or.inl hsmall)
      rw [hzero', Nat.zero_mul, Nat.zero_mod, setFrame_setFrame]
      exact iff_of_true rfl (Or.inr hsmall)
    · have hclear : frameBit frames 0 = false :=
        ((firstFrame_eq_zero_iff numFrames frames).mp hzero).resolve_left (by omega)
      refine iff_of_false (fun heq => ?_) (by simp [hclear, hlarge])
      have hpage := congrArg (fun r : Frames × PageEntry => r.2.frame.toNat) (Except.ok.inj heq)
      simp only [PageEntry.toNat_frame_take] at hpage
      rw [Nat.mod_eq_of_lt hlt'] at hpage
      exact firstFrame_setFrame_zero hlarge frames hpage
  · have hkept : (page.take kernel writeable (firstFrame numFrames frames)).frame ≠ 0#20 := by
      rw [Ne, PageEntry.frame_eq_zero_iff, PageEntry.toNat_frame_take, Nat.mod_eq_of_lt hlt]
      exact hzero
    rw [allocFrame_of_ne_zero hkept, hone]
    rw [firstFrame_eq_zero_iff, not_or, Bool.not_eq_false] at hzero
    exact iff_of_true rfl (Or.inl hzero.2)

/-- A bitmap in which frame `0` alone is taken. -/
theorem allocFrameTwice_of_zero_taken :
    allocFrameTwice 0x4000 (fun i => if i = 0 then 1#32 else 0#32) .zero true true =
      allocFrame 0x4000 (fun i => if i = 0 then 1#32 else 0#32) .zero true true :=
  (allocFrameTwice_eq_iff (by decide) _ _ true true).mpr (Or.inr (Or.inl (by decide)))

/-- On the zeroed bitmap the second call takes frame `1` as well. -/
theorem second_call_takes_frame :
    (∃ m < 0x4000, ∃ n < 0x4000, m ≠ n ∧ frameBit (fun _ => 0#32) m = false ∧
      frameBit (fun _ => 0#32) n = false) ∧
    allocFrameTwice 0x4000 (fun _ => 0#32) .zero true true ≠
      allocFrame 0x4000 (fun _ => 0#32) .zero true true := by
  refine ⟨⟨0, by decide, 1, by decide, by decide, by decide, by decide⟩, fun heq => ?_⟩
  have hframe := congrArg (fun r => r.toOption.map fun r => r.2.frame) heq
  exact absurd hframe (by decide +kernel)

end Studix.Mem
