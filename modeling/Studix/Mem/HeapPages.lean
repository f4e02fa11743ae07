import Studix.Mem.HeapBounds

/-!
# The pages of the heap

`expand` maps the pages that the heap gets, `contract` is meant to unmap those that it gives up.
`expand` passes the flag `readonly` for the parameter `writeable` of `alloc_frame`, so a page is
writeable exactly when it should not be. `free_frame` leaves the entry present, and the loop of
`contract` stops above the first page behind the new end.

## Main definitions

* `freeFrames`: the frames that `first_frame` can return.
* `MapsPages`, `UnmapsExactly`: what is meant.
* `Expandable`: a heap that can grow without a new page table.

## Main results

* `expand_maps`: what `expand` does to the pages.
* `mapsNewPages_iff`, `unmapsExactly_iff`: it is what is meant when there are no such pages only.
-/

namespace Studix.Mem

variable {heap : Heap} {k k' t t' : Kernel} {alloc : Alloc} {n j newSize : ℕ} {ref ref' : PageRef}
  {page : PageEntry}

/-! ### Entries and frames -/

/-- The entries after one is replaced. -/
theorem entry_setEntry (k : Kernel) (frames : Frames) (ref ref' : PageRef) (page : PageEntry) :
    ({ k with frames, kernelDir := k.kernelDir.setEntry ref page } : Kernel).entry ref' =
      if ref' = ref then (k.entry ref).map fun _ => page else k.entry ref' := by
  obtain ⟨table, i⟩ := ref
  obtain ⟨table', i'⟩ := ref'
  simp only [Kernel.entry, PageDir.setEntry]
  by_cases htable : table' = table
  · subst htable
    rw [Function.update_self, Option.map_map]
    by_cases hi : i' = i
    · subst hi
      rw [if_pos rfl, Option.map_map]
      exact congrArg (Option.map · _) (funext fun t => Function.update_self ..)
    · rw [if_neg fun h => hi (congrArg Prod.snd h)]
      exact congrArg (Option.map · _) (funext fun t => Function.update_of_ne hi ..)
  · rw [Function.update_of_ne htable, if_neg fun h => htable (congrArg Prod.fst h)]

/-- The frames that `first_frame` can return. -/
def freeFrames (k : Kernel) : Finset ℕ :=
  (Finset.range (scannedFrames k.numFrames)).filter fun f => frameBit k.frames f = false

theorem mem_freeFrames {f : ℕ} :
    f ∈ freeFrames k ↔ f < scannedFrames k.numFrames ∧ frameBit k.frames f = false := by
  rw [freeFrames, Finset.mem_filter, Finset.mem_range]

/-- **`alloc_frame` gives a free frame to an entry without one.** -/
theorem allocFrameAt_fresh {kernel writeable : Bool} (hentry : t.entry ref = some page)
    (hzero : page.frame = 0#20) (hnum : t.numFrames ≤ 2 ^ 20) (hfree : (freeFrames t).Nonempty)
    (h : allocFrameAt t (some ref) kernel writeable = .ok t') :
    t'.heap = t.heap ∧ t'.numFrames = t.numFrames ∧ ∃ f ∈ freeFrames t,
      (∀ ref', t'.entry ref' = if ref' = ref then
        some { page with present := true, rw := writeable, user := !kernel, frame := .ofNat 20 f }
        else t.entry ref') ∧
      (BitVec.ofNat 20 f).toNat = f ∧
      ∀ b, frameBit t'.frames b = (frameBit t.frames b || decide (b = f)) := by
  obtain ⟨f₀, hf₀⟩ := hfree
  obtain ⟨hlt₀, hclear₀⟩ := mem_freeFrames.mp hf₀
  obtain ⟨hclear, hlt, -⟩ := firstFrame_of_clear ⟨f₀, hlt₀, hclear₀⟩
  have hle := firstFrame_le t.numFrames t.frames
  have hscanned : scannedFrames t.numFrames ≤ t.numFrames := by
    simp only [scannedFrames, bitIndex]
    omega
  simp only [allocFrameAt, hentry, allocFrame, hzero, ne_eq, not_true_eq_false, if_false] at h
  rw [if_neg (by omega), except_ok_bind] at h
  rw [← Except.ok.inj h]
  refine ⟨rfl, rfl, _, mem_freeFrames.mpr ⟨hlt, hclear⟩, fun ref' => ?_, ?_, fun b => ?_⟩
  · rw [entry_setEntry, hentry]
    rfl
  · rw [BitVec.toNat_ofNat, Nat.mod_eq_of_lt (by omega)]
  · have haddr : firstFrame t.numFrames t.frames * pageSize % 2 ^ 32 / pageSize =
        firstFrame t.numFrames t.frames := by
      rw [Nat.mod_eq_of_lt (by simp only [pageSize]; omega), Nat.mul_div_cancel _ (by decide)]
    rw [frameBit_setFrame, haddr]

/-! ### What `expand` maps -/

/-- The entry of the `j`-th page behind the end of the heap. -/
def newPage (heap : Heap) (j : ℕ) : PageRef := pageRef (heap.endAddr + pageSize * j)

/-- The number of pages that a heap gets when it grows to `newSize` bytes. -/
def newPages (heap : Heap) (newSize : ℕ) : ℕ :=
  (alignUp newSize - (heap.endAddr - heap.startAddr)) / pageSize

/-- The first `count` pages behind the end of the heap of `k` are mapped in `k'`, each to a frame of
its own that was free, and the other entries are the same. -/
structure MapsPages (k k' : Kernel) (count : ℕ) (writeable user : Bool) : Prop where
  mapped : ∀ j < count, ∃ page, k'.entry (newPage k.heap j) = some page ∧ page.present = true ∧
    page.rw = writeable ∧ page.user = user ∧ frameBit k.frames page.frame.toNat = false
  distinct : ∀ i j page page', i < j → j < count → k'.entry (newPage k.heap i) = some page →
    k'.entry (newPage k.heap j) = some page' → page.frame ≠ page'.frame
  others : ∀ ref, (∀ j < count, ref ≠ newPage k.heap j) → k'.entry ref = k.entry ref

/-- A heap that can grow to `newSize` bytes: its bounds are whole pages, the page tables are there,
the new pages have no frame, and there are enough free frames. -/
structure Expandable (k : Kernel) (newSize : ℕ) : Prop where
  start_pages : k.heap.startAddr % pageSize = 0
  end_pages : k.heap.endAddr % pageSize = 0
  start_le : k.heap.startAddr ≤ k.heap.endAddr
  end_lt : k.heap.endAddr < 2 ^ 32
  size_lt : newSize < 2 ^ 32
  tables : NoNewTable k newSize
  fresh : ∀ j < newPages k.heap newSize, ∀ page, k.entry (newPage k.heap j) = some page →
    page.frame = 0#20
  frames : newPages k.heap newSize ≤ (freeFrames k).card
  numFrames : k.numFrames ≤ 2 ^ 20

/-- The state of `expand` after `count` pages. -/
structure Mapping (k : Kernel) (total count : ℕ) (t : Kernel) : Prop where
  heap : t.heap = k.heap
  numFrames : t.numFrames = k.numFrames
  tables : ∀ i, (t.kernelDir.tables i).isSome = (k.kernelDir.tables i).isSome
  maps : MapsPages k t count k.heap.readonly !k.heap.supervisor
  taken : ∀ j < count, ∀ page, t.entry (newPage k.heap j) = some page →
    frameBit t.frames page.frame.toNat = true
  keeps : ∀ f, frameBit k.frames f = true → frameBit t.frames f = true
  enough : total ≤ (freeFrames t).card + count

theorem newPage_injective {i : ℕ} (h : newPage heap i = newPage heap j) : i = j := by
  have hpage : (heap.endAddr + pageSize * i) / pageSize =
      (heap.endAddr + pageSize * j) / pageSize := by
    have hfst := congrArg Prod.fst h
    have hsnd := congrArg Prod.snd h
    simp only [newPage, pageRef] at hfst hsnd
    omega
  rw [Nat.add_mul_div_left _ _ (by decide), Nat.add_mul_div_left _ _ (by decide)] at hpage
  omega

/-- One more page. -/
theorem Mapping.step {total : ℕ} (h : Mapping k total j t) (hj : j < total)
    (hnum : k.numFrames ≤ 2 ^ 20) (hentry : t.entry (newPage k.heap j) = some page)
    (hzero : page.frame = 0#20)
    (halloc : allocFrameAt t (some (newPage k.heap j)) t.heap.supervisor t.heap.readonly = .ok t') :
    Mapping k total (j + 1) t' := by
  have henough := h.enough
  have hfree : (freeFrames t).Nonempty := Finset.card_pos.mp (by omega)
  obtain ⟨hheap, hnum', f, hf, hentries, htoNat, hbits⟩ :=
    allocFrameAt_fresh hentry hzero (h.numFrames ▸ hnum) hfree halloc
  obtain ⟨hflt, hclear⟩ := mem_freeFrames.mp hf
  have hne : ∀ i < j, newPage k.heap i ≠ newPage k.heap j := fun i hi heq =>
    hi.ne (newPage_injective heq)
  have hold : ∀ i < j, t'.entry (newPage k.heap i) = t.entry (newPage k.heap i) := fun i hi => by
    rw [hentries, if_neg (hne i hi)]
  have hnew := hentries (newPage k.heap j)
  rw [if_pos rfl, h.heap] at hnew
  refine ⟨hheap.trans h.heap, hnum'.trans h.numFrames,
    fun i => (allocFrameAt_tables halloc i).trans (h.tables i), ⟨fun i hi => ?_,
      fun i i' p p' hlt hi' hp hp' => ?_, fun ref' hother => ?_⟩, fun i hi p hp => ?_,
    fun b hb => ?_, ?_⟩
  · rcases Nat.lt_succ_iff_lt_or_eq.mp hi with hi | rfl
    · rw [hold i hi]
      exact h.maps.mapped i hi
    · refine ⟨_, hnew, rfl, rfl, rfl, ?_⟩
      rw [htoNat]
      by_contra hset
      rw [h.keeps f (by simpa using hset)] at hclear
      exact absurd hclear (by decide)
  · rcases Nat.lt_succ_iff_lt_or_eq.mp hi' with hi' | rfl
    · rw [hold i (by omega)] at hp
      rw [hold i' hi'] at hp'
      exact h.maps.distinct i i' p p' hlt hi' hp hp'
    · -- The frame of an earlier page was taken, the new one was free.
      rw [hold i hlt] at hp
      have htaken := h.taken i hlt p hp
      have hframe := congrArg PageEntry.frame (Option.some.inj (hnew.symm.trans hp'))
      intro heq
      rw [heq, ← hframe, htoNat, hclear] at htaken
      exact absurd htaken (by decide)
  · rw [hentries, if_neg (hother j (Nat.lt_succ_self j))]
    exact h.maps.others ref' fun i hi => hother i (by omega)
  · rw [hbits]
    rcases Nat.lt_succ_iff_lt_or_eq.mp hi with hi | rfl
    · rw [hold i hi] at hp
      rw [h.taken i hi p hp, Bool.true_or]
    · have hframe := congrArg PageEntry.frame (Option.some.inj (hnew.symm.trans hp))
      rw [← hframe, htoNat, decide_eq_true rfl, Bool.or_true]
  · rw [hbits, h.keeps b hb, Bool.true_or]
  · have herase : freeFrames t' = (freeFrames t).erase f := by
      ext b
      rw [Finset.mem_erase, mem_freeFrames, mem_freeFrames, hbits, hnum']
      simp only [Bool.or_eq_false_iff, decide_eq_false_iff_not]
      tauto
    have hcard := Finset.card_erase_add_one hf
    rw [herase]
    omega

/-- The new pages lie below the end of memory. -/
theorem Expandable.new_end (hk : Expandable k newSize) (hadmits : ExpandAdmits k.heap newSize) :
    k.heap.endAddr - k.heap.startAddr ≤ newSize ∧ alignUp newSize % pageSize = 0 ∧
      k.heap.startAddr + alignUp newSize ≤ 2 ^ 32 := by
  have hstart := hk.start_pages
  have hle := hk.start_le
  have hend := hk.end_lt
  have hsize := hk.size_lt
  have hfirst := hadmits.1
  rw [alignUp_eq_mod hsize]
  simp only [wadd, pageSize] at *
  omega

/-- **What `expand` does to the pages**: it maps the new ones, writeable exactly when the heap is
readonly. -/
theorem expand_maps (hk : Expandable k newSize) (h : expand alloc k newSize = .ok k') :
    MapsPages k k' (newPages k.heap newSize) k.heap.readonly !k.heap.supervisor := by
  obtain ⟨hle, hpages, hlt⟩ := hk.new_end (expand_admits h)
  have hstart := hk.start_le
  have hold : wsub k.heap.endAddr k.heap.startAddr = k.heap.endAddr - k.heap.startAddr :=
    wsub_eq hk.start_le hk.end_lt
  obtain ⟨_, -, h⟩ := except_bind_eq_ok.mp h
  obtain ⟨_, -, h⟩ := except_bind_eq_ok.mp h
  obtain ⟨k₁, hloop, h⟩ := except_bind_eq_ok.mp h
  have hcount :
      (alignUp newSize - (k.heap.endAddr - k.heap.startAddr) + (pageSize - 1)) / pageSize =
        newPages k.heap newSize := by
    have hs := hk.start_pages
    have he := hk.end_pages
    rw [newPages]
    simp only [pageSize] at *
    omega
  rw [hold, hcount] at hloop
  have hmapping : Mapping k (newPages k.heap newSize) (newPages k.heap newSize) k₁ := by
    refine forLoopM_invariant (Mapping k (newPages k.heap newSize)) ⟨rfl, rfl, fun _ => rfl,
      ⟨fun j hj => absurd hj (Nat.not_lt_zero j), fun i j _ _ _ hj => absurd hj (Nat.not_lt_zero j),
        fun _ _ => rfl⟩, fun j hj => absurd hj (Nat.not_lt_zero j), fun _ hf => hf, hk.frames⟩
          ?_ hloop
    intro j t t' hj ht hbody
    have hj' : k.heap.endAddr - k.heap.startAddr + pageSize * j < alignUp newSize := by
      rw [newPages] at hj
      simp only [pageSize] at *
      omega
    have haddr : wadd k.heap.startAddr (k.heap.endAddr - k.heap.startAddr + pageSize * j) =
        k.heap.endAddr + pageSize * j := by
      rw [wadd_eq (by omega)]
      omega
    have htable := hk.tables j hj'
    rw [haddr, ← ht.tables] at htable
    have haddr' : wadd t.heap.startAddr (k.heap.endAddr - k.heap.startAddr + pageSize * j) =
        k.heap.endAddr + pageSize * j := by rw [ht.heap, haddr]
    rw [expandPage, haddr', getPage_of_table htable, except_ok_bind, ← newPage] at hbody
    obtain ⟨table, htable⟩ := Option.isSome_iff_exists.mp htable
    have hentry : t.entry (newPage k.heap j) = some (table.pages (newPage k.heap j).2) := by
      rw [Kernel.entry, newPage, htable]
      rfl
    refine ht.step hj hk.numFrames hentry (hk.fresh j hj _ ?_) hbody
    rw [← hentry]
    exact (ht.maps.others _ fun i hi heq => hi.ne' (newPage_injective heq)).symm
  rw [← Except.ok.inj h]
  exact ⟨hmapping.maps.mapped, hmapping.maps.distinct, hmapping.maps.others⟩

/-- **The new pages get the heap's permissions** only when there is none. -/
theorem mapsNewPages_iff (hk : Expandable k newSize) (h : expand alloc k newSize = .ok k') :
    MapsPages k k' (newPages k.heap newSize) (!k.heap.readonly) (!k.heap.supervisor) ↔
      alignUp newSize ≤ k.heap.endAddr - k.heap.startAddr := by
  obtain ⟨-, hpages, -⟩ := hk.new_end (expand_admits h)
  have hstart := hk.start_pages
  have hend := hk.end_pages
  have hmaps := expand_maps hk h
  constructor
  · intro hmeant
    by_contra hlt
    have hcount : 0 < newPages k.heap newSize := by
      rw [newPages]
      simp only [pageSize] at *
      omega
    obtain ⟨page, hentry, -, hrw, -⟩ := hmaps.mapped 0 hcount
    obtain ⟨page', hentry', -, hrw', -⟩ := hmeant.mapped 0 hcount
    rw [Option.some.inj (hentry.symm.trans hentry'), hrw'] at hrw
    cases hro : k.heap.readonly <;> simp [hro] at hrw
  · intro hle
    have hcount : newPages k.heap newSize = 0 := by
      rw [newPages, Nat.sub_eq_zero_of_le hle, Nat.zero_div]
    rw [hcount] at hmaps ⊢
    exact ⟨fun j hj => absurd hj (Nat.not_lt_zero j),
      fun i j _ _ _ hj => absurd hj (Nat.not_lt_zero j), hmaps.others⟩

/-- The kernel with page tables and free frames for all of memory. -/
def Kernel.withFrames (k : Kernel) : Kernel :=
  { k.withTables with frames := fun _ => 0, numFrames := 16384 }

theorem freeFrames_withFrames (k : Kernel) : 1 ≤ (freeFrames k.withFrames).card :=
  Finset.card_pos.mpr ⟨0, mem_freeFrames.mpr ⟨show 0 < scannedFrames 16384 by decide,
    show frameBit (fun _ => 0) 0 = false by decide⟩⟩

/-- A heap that starts at address zero and is asked for all of memory: the new size is rounded up to
zero, and there is no new page. -/
theorem no_new_page_at_zero : ∃ k k', Expandable k (2 ^ 32 - 1) ∧
    expand (Mem.alloc 0) k (2 ^ 32 - 1) = .ok k' ∧
    MapsPages k k' (newPages k.heap (2 ^ 32 - 1)) (!k.heap.readonly) (!k.heap.supervisor) := by
  have hrun : returns sampleHeap (fun k => returns (expand (Mem.alloc 0) { k.withFrames with
      heap := { k.heap with startAddr := 0 } } (2 ^ 32 - 1)) fun _ => true) = true := by
    decide +kernel
  obtain ⟨k, hk, hrun⟩ := exists_of_returns hrun
  obtain ⟨k', hexpand, -⟩ := exists_of_returns hrun
  have hfirst := firstHeap_of_sampleHeap hk
  have hzero : alignUp (2 ^ 32 - 1) = 0 := by decide
  have hnone : ∀ heap, newPages heap (2 ^ 32 - 1) = 0 := fun heap => by
    rw [newPages, hzero, Nat.zero_sub, Nat.zero_div]
  have hexpandable : Expandable { k.withFrames with heap := { k.heap with startAddr := 0 } }
      (2 ^ 32 - 1) :=
    { start_pages := rfl
      end_pages := by
        simp only [hfirst.end_eq]
        decide
      start_le := Nat.zero_le _
      end_lt := hfirst.inv.bounds.end_lt
      size_lt := by decide
      tables := fun _ _ => rfl
      fresh := fun _ _ _ hpage => by rw [← Option.some.inj hpage]; rfl
      frames := by rw [hnone]; exact Nat.zero_le _
      numFrames := show 16384 ≤ 2 ^ 20 by decide }
  exact ⟨_, k', hexpandable, hexpand,
    (mapsNewPages_iff hexpandable hexpand).mpr (by rw [hzero]; exact Nat.zero_le _)⟩

/-- **The first new page of the first heap is not writeable**, although the heap is not readonly. -/
theorem new_page_not_writeable : ∃ k k', Expandable k (firstHole.size + 1) ∧
    expand (Mem.alloc 0) k (firstHole.size + 1) = .ok k' ∧
    ¬MapsPages k k' (newPages k.heap (firstHole.size + 1)) (!k.heap.readonly)
      (!k.heap.supervisor) := by
  have hrun : returns sampleHeap (fun k => decide (k.heap.readonly = false) &&
      returns (expand (Mem.alloc 0) k.withFrames (firstHole.size + 1)) fun _ => true) = true := by
    decide +kernel
  obtain ⟨k, hk, hrun⟩ := exists_of_returns hrun
  simp only [Bool.and_eq_true, decide_eq_true_eq] at hrun
  obtain ⟨k', hexpand, -⟩ := exists_of_returns hrun.2
  have hfirst := firstHeap_of_sampleHeap hk
  have hone : newPages k.withFrames.heap (firstHole.size + 1) = 1 := by
    rw [newPages, Kernel.withFrames, Kernel.withTables, hfirst.start_eq, hfirst.end_eq]
    decide
  have hexpandable : Expandable k.withFrames (firstHole.size + 1) :=
    { start_pages := by
        rw [Kernel.withFrames, Kernel.withTables, hfirst.start_eq]
        decide
      end_pages := by
        rw [Kernel.withFrames, Kernel.withTables, hfirst.end_eq]
        decide
      start_le := hfirst.inv.tiles.le
      end_lt := hfirst.inv.bounds.end_lt
      size_lt := by decide
      tables := fun _ _ => rfl
      fresh := fun _ _ _ hpage => by rw [← Option.some.inj hpage]; rfl
      frames := by rw [hone]; exact freeFrames_withFrames k
      numFrames := show 16384 ≤ 2 ^ 20 by decide }
  refine ⟨k.withFrames, k', hexpandable, hexpand, fun hmeant => ?_⟩
  have hmaps := expand_maps hexpandable hexpand
  rw [hone] at hmeant hmaps
  obtain ⟨page, hentry, -, hrw, -⟩ := hmaps.mapped 0 Nat.one_pos
  obtain ⟨page', hentry', -, hrw', -⟩ := hmeant.mapped 0 Nat.one_pos
  rw [Option.some.inj (hentry.symm.trans hentry'), hrw'] at hrw
  have hro : k.withFrames.heap.readonly = false := hrun.1
  simp [hro] at hrw

/-! ### What `contract` unmaps -/

/-- What is meant: the pages that the heap gives up have no frame and are not present, and their
frames are free; the pages that it keeps stay, and so do their frames. -/
structure UnmapsExactly (k k' : Kernel) : Prop where
  unmapped : ∀ a, k'.heap.endAddr ≤ a → a < k.heap.endAddr →
    ∀ page, k.entry (pageRef a) = some page →
    frameBit k'.frames page.frame.toNat = false ∧ ∃ page', k'.entry (pageRef a) = some page' ∧
      page'.frame = 0#20 ∧ page'.present = false
  kept : ∀ a, k.heap.startAddr ≤ a → a < k'.heap.endAddr →
    k'.entry (pageRef a) = k.entry (pageRef a) ∧ ∀ page, k.entry (pageRef a) = some page →
      frameBit k'.frames page.frame.toNat = frameBit k.frames page.frame.toNat

/-- A heap of whole pages that are mapped. -/
structure MappedHeap (k : Kernel) : Prop where
  start_pages : k.heap.startAddr % pageSize = 0
  end_pages : k.heap.endAddr % pageSize = 0
  start_lt : k.heap.startAddr < k.heap.endAddr
  end_lt : k.heap.endAddr < 2 ^ 32
  mapped : ∀ a, k.heap.startAddr ≤ a → a < k.heap.endAddr →
    ∃ page, k.entry (pageRef a) = some page ∧ page.present = true ∧ page.frame ≠ 0#20

/-- The entries have the same present bits. -/
def SamePresent (k k' : Kernel) : Prop :=
  ∀ ref, (k'.entry ref).map PageEntry.present = (k.entry ref).map PageEntry.present

/-- **`free_frame` leaves the entry present.** -/
theorem freeFrameAt_samePresent {ref : Option PageRef} (h : freeFrameAt t ref = .ok t') :
    SamePresent t t' := by
  obtain ⟨r, page, -, hentry, rfl⟩ := freeFrameAt_cases h
  intro ref'
  rw [entry_setEntry, hentry]
  by_cases hsame : ref' = r
  · rw [if_pos hsame, hsame, hentry, freeFrame]
    split_ifs
    · rfl
    · rfl
  · rw [if_neg hsame]

theorem contractLoop_samePresent {fuel i : ℕ} (h : contractLoop alloc newSize fuel i t = .ok t') :
    SamePresent t t' := by
  induction fuel generalizing i t with
  | zero => cases h
  | succ fuel ih =>
    rw [contractLoop] at h
    split at h
    · obtain ⟨⟨ref, t₁⟩, hpage, h⟩ := except_bind_eq_ok.mp h
      obtain ⟨t₂, hframe, hloop⟩ := except_bind_eq_ok.mp h
      obtain rfl := getPage_false_eq_ok hpage
      exact fun ref => (ih hloop ref).trans (freeFrameAt_samePresent hframe ref)
    · rw [← Except.ok.inj h]
      exact fun _ => rfl

/-- The length of the heap that `contract` computes. -/
def contractedSize (newSize : ℕ) : ℕ := max (alignUp newSize) heapMinSize

theorem contract_samePresent {length : ℕ} (h : contract alloc k newSize = .ok (length, k')) :
    SamePresent k k' := by
  obtain ⟨_, -, h⟩ := except_bind_eq_ok.mp h
  obtain ⟨k₁, hloop, h⟩ := except_bind_eq_ok.mp h
  have hk' := (Prod.mk.inj (Except.ok.inj h)).2.symm
  intro ref
  rw [hk']
  exact contractLoop_samePresent hloop ref

/-- When no page is given up the loop does nothing. -/
theorem contract_keeps {length : ℕ} (hk : MappedHeap k)
    (hkeep : k.heap.endAddr ≤ wadd k.heap.startAddr (contractedSize newSize))
    (h : contract alloc k newSize = .ok (length, k')) :
    k'.kernelDir = k.kernelDir ∧ k'.frames = k.frames := by
  have hlt := hk.start_lt
  have hend := hk.end_lt
  have hs := hk.start_pages
  have he := hk.end_pages
  obtain ⟨_, -, h⟩ := except_bind_eq_ok.mp h
  obtain ⟨k₁, hloop, h⟩ := except_bind_eq_ok.mp h
  have hsize : (if alignUp newSize < heapMinSize then heapMinSize else alignUp newSize) =
      contractedSize newSize := by
    rw [contractedSize]
    split_ifs <;> omega
  have hlast : wsub (wsub k.heap.endAddr k.heap.startAddr) pageSize =
      k.heap.endAddr - k.heap.startAddr - pageSize := by
    rw [wsub_eq hlt.le hend, wsub_eq (by simp only [pageSize] at *; omega) (by omega)]
  have hdone : ¬contractedSize newSize < k.heap.endAddr - k.heap.startAddr - pageSize := by
    simp only [wadd] at hkeep
    omega
  rw [hsize, hlast, contractLoop, if_neg hdone] at hloop
  have hk' := (Prod.mk.inj (Except.ok.inj h)).2.symm
  rw [hk', ← Except.ok.inj hloop]
  exact ⟨rfl, rfl⟩

/-- A page that is given up stays present. -/
theorem not_unmapsExactly {length : ℕ} (hk : MappedHeap k)
    (h : contract alloc k newSize = .ok (length, k')) (hgives : k'.heap.endAddr < k.heap.endAddr) :
    ¬UnmapsExactly k k' := by
  intro hmeant
  have hlt := hk.start_lt
  obtain ⟨a, ha, ha', ha''⟩ : ∃ a, k.heap.startAddr ≤ a ∧ k'.heap.endAddr ≤ a ∧
      a < k.heap.endAddr :=
    ⟨max k.heap.startAddr k'.heap.endAddr, le_max_left _ _, le_max_right _ _, by omega⟩
  obtain ⟨page, hentry, hpresent, -⟩ := hk.mapped a ha ha''
  obtain ⟨-, page', hentry', -, hnot⟩ := hmeant.unmapped a ha' ha'' page hentry
  have hsame := contract_samePresent h (pageRef a)
  rw [hentry, hentry'] at hsame
  have heq := Option.some.inj hsame
  rw [hpresent, hnot] at heq
  exact absurd heq (by decide)

/-- **`contract` unmaps exactly what it gives up** only when it gives up no page. -/
theorem unmapsExactly_iff {length : ℕ} (hk : MappedHeap k)
    (h : contract alloc k newSize = .ok (length, k')) :
    UnmapsExactly k k' ↔ k.heap.endAddr ≤ wadd k.heap.startAddr (contractedSize newSize) := by
  obtain ⟨hlength, -, -, hheap⟩ := contract_spec h
  have hend' : k'.heap.endAddr = wadd k.heap.startAddr (contractedSize newSize) := by
    rw [hheap, hlength, contractedSize]
  rw [← hend']
  refine ⟨fun hmeant => le_of_not_gt fun hgives => not_unmapsExactly hk h hgives hmeant,
    fun hkeep => ?_⟩
  obtain ⟨hdir, hframes⟩ := contract_keeps hk (hend' ▸ hkeep) h
  refine ⟨fun a ha ha' => absurd ha (by omega), fun a _ _ => ⟨?_, fun page _ => by rw [hframes]⟩⟩
  rw [Kernel.entry, hdir, Kernel.entry]

/-- The kernel with every page mapped to the frame of its own number. -/
def Kernel.identityMapped (k : Kernel) : Kernel :=
  { k with
    frames := fun _ => 0xFFFFFFFF
    numFrames := 2 ^ 20
    kernelDir := ⟨0, fun i => some ⟨0, fun p => mappedEntry (1024 * i + p)⟩, fun _ => 0⟩ }

theorem mappedHeap_first {k : Kernel} (hfirst : FirstHeap k) : MappedHeap k.identityMapped where
  start_pages := by
    rw [Kernel.identityMapped, hfirst.start_eq]
    decide
  end_pages := by
    rw [Kernel.identityMapped, hfirst.end_eq]
    decide
  start_lt := by
    rw [Kernel.identityMapped, hfirst.start_eq, hfirst.end_eq]
    decide
  end_lt := hfirst.inv.bounds.end_lt
  mapped a ha ha' := by
    have hlt := hfirst.inv.bounds.end_lt
    rw [Kernel.identityMapped, hfirst.start_eq] at ha
    simp only [Kernel.identityMapped] at ha'
    have hle : pageSize ≤ firstHole.addr := by decide
    refine ⟨mappedEntry (1024 * (pageRef a).1 + (pageRef a).2), rfl, rfl, fun hzero => ?_⟩
    have hframe := congrArg BitVec.toNat hzero
    rw [mappedEntry, BitVec.toNat_ofNat, BitVec.toNat_ofNat] at hframe
    simp only [pageRef, pageSize] at hframe hle
    omega

/-- The first heap is contracted by less than a page. -/
theorem first_heap_keeps_pages : ∃ k k' length, MappedHeap k ∧
    contract (Mem.alloc 0) k (firstHole.size - 1) = .ok (length, k') ∧ UnmapsExactly k k' := by
  have hrun : returns sampleHeap (fun k => returns (contract (Mem.alloc 0) k.identityMapped
      (firstHole.size - 1)) fun _ => true) = true := by
    decide +kernel
  obtain ⟨k, hk, hrun⟩ := exists_of_returns hrun
  obtain ⟨⟨length, k'⟩, hcontract, -⟩ := exists_of_returns hrun
  have hfirst := firstHeap_of_sampleHeap hk
  refine ⟨k.identityMapped, k', length, mappedHeap_first hfirst, hcontract,
    (unmapsExactly_iff (mappedHeap_first hfirst) hcontract).mpr ?_⟩
  rw [Kernel.identityMapped, hfirst.start_eq, hfirst.end_eq]
  decide

/-- **The first heap is contracted to its least size**: the pages that it gives up stay present. -/
theorem contracted_pages_present : ∃ k k' length, MappedHeap k ∧
    contract (Mem.alloc 0) k 0 = .ok (length, k') ∧ ¬UnmapsExactly k k' := by
  have hrun : returns sampleHeap (fun k => returns (contract (Mem.alloc 0) k.identityMapped 0)
      fun r => decide (r.2.heap.endAddr < heapStart + heapInitSize)) = true := by
    decide +kernel
  obtain ⟨k, hk, hrun⟩ := exists_of_returns hrun
  obtain ⟨⟨length, k'⟩, hcontract, hend⟩ := exists_of_returns hrun
  have hfirst := firstHeap_of_sampleHeap hk
  refine ⟨k.identityMapped, k', length, mappedHeap_first hfirst, hcontract,
    not_unmapsExactly (mappedHeap_first hfirst) hcontract ?_⟩
  rw [Kernel.identityMapped, hfirst.end_eq]
  exact of_decide_eq_true hend

end Studix.Mem
