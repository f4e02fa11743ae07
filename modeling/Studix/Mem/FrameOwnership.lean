import Studix.Mem.Frame

/-!
# Ownership of physical frames

A run of `alloc_frame` and `free_frame` over any collection of page entries. Ownership says that no
two entries hold the same non-zero frame and that a bit of the bitmap is set exactly when some entry
holds its frame. An allocation keeps it when `first_frame` finds a clear bit in the words it scans.
A release of a held frame breaks it at once: `free_frame` hands the frame *number* to `clear_frame`,
which divides it by the page size, so the bit of the released frame stays set.

## Main definitions

* `FrameState`, `FrameOp`, `frameStep`, `runFrames`.
* `FrameOwnership`: the property.
* `FrameStepOk`: the condition on a step.

## Main results

* `frameOwnership_iff_steps_ok`: over whole runs, ownership holds in every state reached exactly
  when every step meets the condition.
-/

namespace Studix.Mem

variable {ι : Type} [DecidableEq ι]

/-- The bitmap and the page entries that draw on it. -/
structure FrameState (ι : Type) where
  frames : Frames
  entries : ι → PageEntry

/-- The zeroed bitmap over zeroed page entries. -/
def FrameState.init : FrameState ι := ⟨fun _ => 0, fun _ => .zero⟩

/-- The calls of a run. -/
inductive FrameOp (ι : Type)
  | alloc (page : ι) (kernel writeable : Bool)
  | free (page : ι)

/-- One call on a page entry. -/
def frameStep (numFrames : ℕ) (s : FrameState ι) : FrameOp ι → Except Stop (FrameState ι)
  | .alloc page kernel writeable => do
    let (frames, entry) ← allocFrame numFrames s.frames (s.entries page) kernel writeable
    .ok ⟨frames, Function.update s.entries page entry⟩
  | .free page =>
    let (frames, entry) := freeFrame s.frames (s.entries page)
    .ok ⟨frames, Function.update s.entries page entry⟩

/-- The calls `ops` one after the other. -/
def runFrames (numFrames : ℕ) (s : FrameState ι) (ops : List (FrameOp ι)) :
    Except Stop (FrameState ι) :=
  ops.foldlM (frameStep numFrames) s

/-- No two entries hold the same non-zero frame, and the bit of a non-zero frame is set exactly when
some entry holds it. -/
structure FrameOwnership (numFrames : ℕ) (s : FrameState ι) : Prop where
  unique : ∀ p q, (s.entries p).frame ≠ 0#20 → (s.entries p).frame = (s.entries q).frame → p = q
  bit_iff : ∀ n, 0 < n → n < numFrames →
    (frameBit s.frames n = true ↔ ∃ p, (s.entries p).frame.toNat = n)

/-- The condition on a call: an allocation that needs a frame finds a clear bit in the words that
`first_frame` scans (with fewer than one word of frames it scans none, and only ever returns frame
`0`); a release is of an entry that holds no frame. -/
def FrameStepOk (numFrames : ℕ) (s : FrameState ι) : FrameOp ι → Prop
  | .alloc page _ _ => (s.entries page).frame ≠ 0#20 ∨ numFrames < 32 ∨
      ∃ n < scannedFrames numFrames, frameBit s.frames n = false
  | .free page => (s.entries page).frame = 0#20

/-! ### The inductive invariant -/

/-- Ownership without the bound on the frame number, with the bound on held frames. -/
private structure Owned (numFrames : ℕ) (s : FrameState ι) : Prop where
  unique : ∀ p q, (s.entries p).frame ≠ 0#20 → (s.entries p).frame = (s.entries q).frame → p = q
  bit_iff : ∀ n, 0 < n → (frameBit s.frames n = true ↔ ∃ p, (s.entries p).frame.toNat = n)
  held_lt : ∀ p, (s.entries p).frame.toNat < scannedFrames numFrames ∨ (s.entries p).frame = 0#20

omit [DecidableEq ι] in
private theorem Owned.frameOwnership {numFrames : ℕ} {s : FrameState ι} (h : Owned numFrames s) :
    FrameOwnership numFrames s :=
  ⟨h.unique, fun n hn _ => h.bit_iff n hn⟩

omit [DecidableEq ι] in
private theorem owned_init (numFrames : ℕ) : Owned numFrames (.init : FrameState ι) where
  unique p q hp := absurd rfl hp
  bit_iff n hn := by
    simp only [FrameState.init, frameBit, PageEntry.zero, exists_const_iff]
    simp [hn.ne]
  held_lt p := Or.inr rfl

private theorem frameStep_alloc_of_held {numFrames : ℕ} {s : FrameState ι} {p : ι}
    (h : (s.entries p).frame ≠ 0#20) (kernel writeable : Bool) :
    frameStep numFrames s (.alloc p kernel writeable) = .ok s := by
  simp [frameStep, allocFrame, h, bind, Except.bind]

/-- The state after an allocation that takes the frame `index`. -/
private def FrameState.take (s : FrameState ι) (p : ι) (kernel writeable : Bool) (index : ℕ) :
    FrameState ι :=
  ⟨setFrame s.frames (index * pageSize % 2 ^ 32),
    Function.update s.entries p { s.entries p with
      present := true, rw := writeable, user := !kernel, frame := .ofNat 20 index }⟩

private theorem frameStep_alloc_of_not_held {numFrames : ℕ} (hnum : numFrames ≤ 2 ^ 20)
    {s : FrameState ι} {p : ι} (h : (s.entries p).frame = 0#20) (kernel writeable : Bool) :
    frameStep numFrames s (.alloc p kernel writeable) =
      .ok (s.take p kernel writeable (firstFrame numFrames s.frames)) := by
  have hle := firstFrame_le numFrames s.frames
  have hne : ¬firstFrame numFrames s.frames = 2 ^ 32 - 1 := by omega
  rw [frameStep, allocFrame, if_neg (not_not.mpr h), if_neg hne]
  rfl

private theorem frameStep_free_of_not_held {numFrames : ℕ} {s : FrameState ι} {p : ι}
    (h : (s.entries p).frame = 0#20) : frameStep numFrames s (.free p) = .ok s := by
  simp [frameStep, freeFrame, h]

/-- The state after the release of a held frame. -/
private def FrameState.release (s : FrameState ι) (p : ι) : FrameState ι :=
  ⟨clearFrame s.frames (s.entries p).frame.toNat,
    Function.update s.entries p { s.entries p with frame := 0#20 }⟩

private theorem frameStep_free_of_held {numFrames : ℕ} {s : FrameState ι} {p : ι}
    (h : (s.entries p).frame ≠ 0#20) : frameStep numFrames s (.free p) = .ok (s.release p) := by
  rw [frameStep, freeFrame, if_neg h]
  rfl

/-- No call of a run stops. -/
private theorem frameStep_ok {numFrames : ℕ} (hnum : numFrames ≤ 2 ^ 20) (s : FrameState ι)
    (op : FrameOp ι) : ∃ s', frameStep numFrames s op = .ok s' := by
  cases op with
  | alloc p kernel writeable =>
    by_cases h : (s.entries p).frame = 0#20
    · exact ⟨_, frameStep_alloc_of_not_held hnum h kernel writeable⟩
    · exact ⟨_, frameStep_alloc_of_held h kernel writeable⟩
  | free p => exact ⟨_, rfl⟩

private theorem toNat_frame_take {index : ℕ} (h : index < 2 ^ 20) (s : FrameState ι) (p q : ι)
    (kernel writeable : Bool) :
    ((s.take p kernel writeable index).entries q).frame.toNat =
      if q = p then index else (s.entries q).frame.toNat := by
  simp only [FrameState.take, Function.update_apply]
  split_ifs
  · exact Nat.mod_eq_of_lt h
  · rfl

private theorem frameBit_take {index : ℕ} (h : index < 2 ^ 20) (s : FrameState ι) (p : ι)
    (kernel writeable : Bool) (n : ℕ) :
    frameBit (s.take p kernel writeable index).frames n =
      (frameBit s.frames n || decide (n = index)) := by
  have haddr : index * pageSize % 2 ^ 32 / pageSize = index := by
    simp only [pageSize]
    omega
  rw [FrameState.take, frameBit_setFrame, haddr]

/-- Taking a frame whose bit is clear keeps ownership; so does taking frame `0`. -/
private theorem Owned.take {numFrames : ℕ} (hnum : numFrames ≤ 2 ^ 20) {s : FrameState ι}
    (h : Owned numFrames s) {p : ι} (hp : (s.entries p).frame = 0#20) {index : ℕ}
    (hindex : index = 0 ∨ (frameBit s.frames index = false ∧ index < scannedFrames numFrames))
    (kernel writeable : Bool) : Owned numFrames (s.take p kernel writeable index) := by
  have hlt : index < 2 ^ 20 := by
    simp only [scannedFrames, bitIndex] at hindex
    omega
  have hfree (q : ι) (hq : (s.entries q).frame.toNat = index) : index = 0 := by
    rcases hindex with h0 | ⟨hclear, -⟩
    · exact h0
    · by_contra h0
      rw [(h.bit_iff index (by omega)).mpr ⟨q, hq⟩] at hclear
      exact absurd hclear (by simp)
  have hp0 : (s.entries p).frame.toNat = 0 := by simp [hp]
  refine ⟨fun q r hq hqr => ?_, fun n hn => ?_, fun q => ?_⟩
  · have hq' : ((s.take p kernel writeable index).entries q).frame.toNat ≠ 0 := fun h0 =>
      hq (BitVec.eq_of_toNat_eq h0)
    have hqr' := congrArg BitVec.toNat hqr
    rw [toNat_frame_take hlt] at hq' hqr'
    rw [toNat_frame_take hlt] at hqr'
    split_ifs at hq' hqr' with hqp hrp hrp
    · rw [hqp, hrp]
    · exact absurd (hfree r hqr'.symm) hq'
    · exact absurd (hqr'.trans (hfree q hqr')) hq'
    · exact h.unique q r (fun h0 => hq' (by simp [h0])) (BitVec.eq_of_toNat_eq hqr')
  · rw [frameBit_take hlt, Bool.or_eq_true, decide_eq_true_eq, h.bit_iff n hn]
    simp only [toNat_frame_take hlt]
    constructor
    · rintro (⟨q, hq⟩ | rfl)
      · have hqp : q ≠ p := by
          rintro rfl
          omega
        exact ⟨q, by rw [if_neg hqp, hq]⟩
      · exact ⟨p, if_pos rfl⟩
    · rintro ⟨q, hq⟩
      split_ifs at hq with hqp
      · exact Or.inr hq.symm
      · exact Or.inl ⟨q, hq⟩
  · by_cases hqp : q = p
    · subst hqp
      rcases hindex with rfl | ⟨-, hscan⟩
      · exact Or.inr (BitVec.eq_of_toNat_eq (by rw [toNat_frame_take hlt, if_pos rfl]; rfl))
      · exact Or.inl (by rw [toNat_frame_take hlt, if_pos rfl]; exact hscan)
    · have hsame : (s.take p kernel writeable index).entries q = s.entries q :=
        Function.update_of_ne hqp _ _
      rw [hsame]
      exact h.held_lt q

private theorem firstFrame_eq_zero_of_lt {numFrames : ℕ} (h : numFrames < 32) (frames : Frames) :
    firstFrame numFrames frames = 0 := by
  have hwords : bitIndex numFrames = 0 := by
    rw [bitIndex]
    omega
  rw [firstFrame, hwords, firstFrameFrom]

/-- **A step that meets the condition keeps ownership.** -/
private theorem Owned.step {numFrames : ℕ} (hnum : numFrames ≤ 2 ^ 20) {s s' : FrameState ι}
    (h : Owned numFrames s) {op : FrameOp ι} (hok : FrameStepOk numFrames s op)
    (hs : frameStep numFrames s op = .ok s') : Owned numFrames s' := by
  cases op with
  | alloc p kernel writeable =>
    by_cases hp : (s.entries p).frame = 0#20
    · rw [frameStep_alloc_of_not_held hnum hp] at hs
      obtain rfl := Except.ok.inj hs
      refine h.take hnum hp ?_ kernel writeable
      rcases hok with hheld | hsmall | hclear
      · exact absurd hp hheld
      · exact Or.inl (firstFrame_eq_zero_of_lt hsmall s.frames)
      · obtain ⟨hbit, hlt, -⟩ := firstFrame_of_clear hclear
        exact Or.inr ⟨hbit, hlt⟩
    · rw [frameStep_alloc_of_held hp] at hs
      obtain rfl := Except.ok.inj hs
      exact h
  | free p =>
    rw [frameStep_free_of_not_held hok] at hs
    obtain rfl := Except.ok.inj hs
    exact h

/-- The release of a held frame breaks ownership: its bit stays set. -/
private theorem Owned.not_frameOwnership_release {numFrames : ℕ} {s : FrameState ι}
    (h : Owned numFrames s) {p : ι} (hp : (s.entries p).frame ≠ 0#20) :
    ¬FrameOwnership numFrames (s.release p) := by
  intro hown
  set n := (s.entries p).frame.toNat with hn
  have hpos : 0 < n := Nat.pos_of_ne_zero fun h0 => hp (BitVec.eq_of_toNat_eq h0)
  have hlt : n < numFrames := by
    have := (h.held_lt p).resolve_right hp
    simp only [scannedFrames, bitIndex] at this
    omega
  have hset : frameBit (s.release p).frames n = true := by
    have hother : n ≠ n / pageSize := by
      simp only [pageSize]
      omega
    rw [FrameState.release, frameBit_clearFrame, (h.bit_iff n hpos).mpr ⟨p, rfl⟩]
    simp [← hn, hother]
  obtain ⟨q, hq⟩ := (hown.bit_iff n hpos hlt).mp hset
  simp only [FrameState.release, Function.update_apply] at hq
  split_ifs at hq with hqp
  · simp only [BitVec.toNat_zero] at hq
    omega
  · exact hqp (h.unique p q hp (BitVec.eq_of_toNat_eq (hn.symm.trans hq.symm))).symm

/-- An allocation over full words hands out a frame that another entry holds. -/
private theorem Owned.not_frameOwnership_take {numFrames : ℕ} (hnum : numFrames ≤ 2 ^ 20)
    {s : FrameState ι} (h : Owned numFrames s) {p : ι} (hp : (s.entries p).frame = 0#20)
    (hlarge : 32 ≤ numFrames) (hfull : ∀ n < scannedFrames numFrames, frameBit s.frames n = true)
    (kernel writeable : Bool) :
    ¬FrameOwnership numFrames (s.take p kernel writeable (firstFrame numFrames s.frames)) := by
  intro hown
  set k := bitIndex numFrames with hk
  have hk' : k = numFrames / 32 := hk
  have hlt : k < 2 ^ 20 := by omega
  rw [firstFrame_of_full hfull] at hown
  obtain ⟨q, hq⟩ := (h.bit_iff k (by omega)).mp
    (hfull k (by simp only [scannedFrames, ← hk]; omega))
  have hqp : q ≠ p := by
    rintro rfl
    simp only [hp, BitVec.toNat_zero] at hq
    omega
  have hqk : ((s.take p kernel writeable k).entries q).frame.toNat = k := by
    rw [toNat_frame_take hlt, if_neg hqp, hq]
  have hpk : ((s.take p kernel writeable k).entries p).frame.toNat = k := by
    rw [toNat_frame_take hlt, if_pos rfl]
  refine hqp (hown.unique q p (fun h0 => ?_) (BitVec.eq_of_toNat_eq (hqk.trans hpk.symm)))
  rw [h0, BitVec.toNat_zero] at hqk
  omega

/-- **A step that does not meet the condition breaks ownership.** -/
private theorem Owned.stepOk_of_frameOwnership {numFrames : ℕ} (hnum : numFrames ≤ 2 ^ 20)
    {s s' : FrameState ι} (h : Owned numFrames s) {op : FrameOp ι}
    (hs : frameStep numFrames s op = .ok s') (hown : FrameOwnership numFrames s') :
    FrameStepOk numFrames s op := by
  cases op with
  | alloc p kernel writeable =>
    by_contra hok
    simp only [FrameStepOk, not_or, not_not, not_lt, not_exists, not_and, Bool.not_eq_false] at hok
    obtain ⟨hp, hlarge, hfull⟩ := hok
    rw [frameStep_alloc_of_not_held hnum hp] at hs
    obtain rfl := Except.ok.inj hs
    exact h.not_frameOwnership_take hnum hp hlarge hfull kernel writeable hown
  | free p =>
    by_contra hp
    rw [frameStep_free_of_held hp] at hs
    obtain rfl := Except.ok.inj hs
    exact h.not_frameOwnership_release hp hown

/-! ### Whole runs -/

theorem runFrames_append_singleton (numFrames : ℕ) (s : FrameState ι) (ops : List (FrameOp ι))
    (op : FrameOp ι) :
    runFrames numFrames s (ops ++ [op]) = runFrames numFrames s ops >>=
      (frameStep numFrames · op) := by
  simp [runFrames]

private theorem owned_of_steps_ok {numFrames : ℕ} (hnum : numFrames ≤ 2 ^ 20)
    {ops : List (FrameOp ι)} {s : FrameState ι}
    (hok : ∀ pre op t, pre ++ [op] <+: ops → runFrames numFrames .init pre = .ok t →
      FrameStepOk numFrames t op)
    (hs : runFrames numFrames .init ops = .ok s) : Owned numFrames s := by
  induction ops using List.reverseRecOn generalizing s with
  | nil =>
    obtain rfl := Except.ok.inj hs
    exact owned_init numFrames
  | append_singleton ops op ih =>
    rw [runFrames_append_singleton] at hs
    obtain ⟨t, ht, hstep⟩ := except_bind_eq_ok.mp hs
    have hown : Owned numFrames t :=
      ih (fun pre op' u hpre => hok pre op' u (hpre.trans (List.prefix_append ops [op]))) ht
    exact hown.step hnum (hok ops op t (List.prefix_refl _) ht) hstep

/-- **Frame ownership over whole runs.** For every run of `alloc_frame` and `free_frame` from the
zeroed bitmap and zeroed page entries, ownership holds in every state reached exactly when every
call meets `FrameStepOk` in the state it is made in: no held frame is released, and every allocation
that needs a frame has a clear bit in the scanned words. -/
theorem frameOwnership_iff_steps_ok {numFrames : ℕ} (hnum : numFrames ≤ 2 ^ 20)
    (ops : List (FrameOp ι)) :
    (∀ pre s, pre <+: ops → runFrames numFrames .init pre = .ok s → FrameOwnership numFrames s) ↔
      ∀ pre op s, pre ++ [op] <+: ops → runFrames numFrames .init pre = .ok s →
        FrameStepOk numFrames s op := by
  constructor
  · -- By induction on the prefix: the calls before it met the condition, so the inductive
    -- invariant holds there, and a call that does not meet it would break ownership.
    intro hown pre
    induction hlen : pre.length using Nat.strong_induction_on generalizing pre with
    | _ len ih =>
      intro op s hpre hs
      have hprev : Owned numFrames s := by
        refine owned_of_steps_ok hnum (fun pre' op' t hpre' ht => ?_) hs
        have hlt : pre'.length < len := by
          have := hpre'.length_le
          simp only [List.length_append, List.length_singleton] at this
          omega
        exact ih _ hlt pre' rfl op' t
          (hpre'.trans ((List.prefix_append pre [op]).trans hpre)) ht
      obtain ⟨s', hstep⟩ := frameStep_ok hnum s op
      refine hprev.stepOk_of_frameOwnership hnum hstep (hown _ s' hpre ?_)
      rw [runFrames_append_singleton, hs]
      exact hstep
  · intro hok pre s hpre hs
    exact (owned_of_steps_ok hnum
      (fun pre' op t hpre' => hok pre' op t (hpre'.trans hpre)) hs).frameOwnership

/-- Two allocations over a bitmap of two words. -/
theorem frameOwnership_two_allocations :
    64 ≤ 2 ^ 20 ∧ ∀ pre s, pre <+: [FrameOp.alloc true false false, .alloc false false false] →
      runFrames 64 .init pre = .ok s → FrameOwnership 64 s := by
  refine ⟨by decide, (frameOwnership_iff_steps_ok (by decide) _).mpr fun pre op s hpre hs => ?_⟩
  have hclear : ∃ n < scannedFrames 64, frameBit s.frames n = false := by
    refine ⟨63, by decide, ?_⟩
    obtain ⟨rest, hrest⟩ := hpre
    rcases pre with _ | ⟨a, _ | ⟨b, pre⟩⟩
    · obtain rfl := Except.ok.inj hs
      rfl
    · obtain rfl : a = .alloc true false false := by simpa using congrArg List.head? hrest
      obtain rfl := Except.ok.inj hs
      decide
    · have := congrArg List.length hrest
      simp at this
  cases op with
  | alloc p kernel writeable => exact Or.inr (Or.inr hclear)
  | free p =>
    have hmem : FrameOp.free p ∈ [FrameOp.alloc true false false, .alloc false false false] :=
      hpre.subset (by simp)
    simp at hmem

/-- After two allocations and the release of the second entry, frame `1` is marked used and no entry
holds it. -/
theorem release_leaves_frame_marked :
    ¬∀ pre s, pre <+: [FrameOp.alloc true false false, .alloc false false false, .free false] →
      runFrames 64 .init pre = .ok s → FrameOwnership 64 s := by
  intro h
  have hown := h _ _ (List.prefix_refl _) rfl
  obtain ⟨p, hp⟩ := (hown.bit_iff 1 (by decide) (by decide)).mp (by decide)
  cases p <;> exact absurd hp (by decide)

end Studix.Mem
