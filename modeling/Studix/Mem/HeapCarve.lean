import Studix.Mem.HeapSafety

/-!
# A block carved from a hole

What an allocation without alignment does to the bytes of the heap. The index may lie anywhere
before the heap and nothing is asked of the memory behind its last entry, so nothing is said about
the index after the allocation. The hole is cut into the block and at most one hole behind it; all
other bytes of the heap stay.

## Main definitions

* `Carves`: a hole and what it is cut into.

## Main results

* `placeBlock_carves`: the block and the hole behind it.
* `alloc_carves`: the allocation.
-/

namespace Studix.Mem

variable {m m' : Memory} {heap : Heap} {index : OrderedArray} {blocks rest xs ys : List Block}
  {B H : Block} {total : ℕ} {k : Kernel}

/-- The hole `H` is cut into the block `B` in use, of at least `total` bytes, and the holes `rest`,
at most one. -/
structure Carves (H : Block) (total : ℕ) (B : Block) (rest : List Block) : Prop where
  addr : B.addr = H.addr
  used : B.tag = false
  size : total ≤ B.size
  tiles : Tiles minBlock H.addr H.end_ (B :: rest)
  holes : ∀ A ∈ rest, A.tag = true
  length : rest.length ≤ 1

/-- The bytes of the heap beside a block stay. -/
def KeepsBeside (heap : Heap) (H : Block) (m m' : Memory) : Prop :=
  ∀ x, heap.startAddr ≤ x → x < heap.endAddr → ¬(H.addr ≤ x ∧ x < H.end_) → m' x = m x

/-! ### The index -/

theorem orderedArrayRemove_above {a : OrderedArray} {i start : ℕ} (hi : i < a.size)
    (hstart : a.array + 4 * a.size ≤ start) {x : ℕ} (hx : start ≤ x) :
    (orderedArrayRemove m a i).1 x = m x :=
  (orderedArrayRemove_spec hi.le).2.2 x (.inr (hstart.trans hx))

theorem orderedArrayInsert_above {a : OrderedArray} {item start : ℕ} (m : Memory)
    (hcomparer : a.comparer.isSome) (hitem : item < 2 ^ 32)
    (hstart : a.array + 4 * (a.size + 1) ≤ start) :
    ∃ m', orderedArrayInsert m a item = .ok (m', { a with size := a.size + 1 }) ∧
      ∀ x, start ≤ x → m' x = m x := by
  obtain ⟨m', -, hinsert, -, -, hframe⟩ := orderedArrayInsert_spec m a item hcomparer hitem
  exact ⟨m', hinsert, fun x hx => hframe x (.inr (hstart.trans hx))⟩

/-! ### The block -/

/-- The new block ends with its footer. -/
theorem makeBlock_footerAt (m : Memory) {a n : ℕ} (hn : minBlock ≤ n) (hlt : a + n < 2 ^ 32) :
    FooterAt (makeBlock m a n) ⟨a, n, false⟩ := by
  rw [makeBlock, wadd_eq hlt, wsub_sizeofFooter hn hlt]
  exact footerAt_makeFooter _ ⟨a, n, false⟩ (by simp only; omega)

/-- The footer of a block beside the memory that changes stays. -/
theorem SameBeside.footerAt {a b : ℕ} (hsame : SameBeside heap a b m m') (h : FooterAt m B)
    (harray : heap.index.array ≤ B.addr) (hsize : minBlock ≤ B.size) (hend : B.end_ ≤ heap.endAddr)
    (hbeside : B.end_ ≤ a ∨ b ≤ B.addr) : FooterAt m' B := by
  simp only [minBlock, sizeofHeader, sizeofFooter, Tile.end_] at hsize hend hbeside
  refine h.congr (by simp only [sizeofFooter, Tile.end_]; omega) fun x hx hx' => ?_
  simp only [sizeofFooter, Tile.end_] at hx hx'
  exact hsame x (by omega) (by omega) (by omega)

theorem SameBeside.keepsBeside {a : ℕ} (hsame : SameBeside heap a H.end_ m m')
    (harray : heap.index.array ≤ heap.startAddr) (ha : H.addr ≤ a) : KeepsBeside heap H m m' :=
  fun x hx hlt hout => hsame x (harray.trans hx) hlt (by omega)

theorem KeepsBeside.trans {m'' : Memory} (h : KeepsBeside heap H m m')
    (h' : KeepsBeside heap H m' m'') : KeepsBeside heap H m m'' :=
  fun x hx hlt hout => (h' x hx hlt hout).trans (h x hx hlt hout)

/-- The header of another block stays. -/
theorem KeepsBeside.headerAt (hkeeps : KeepsBeside heap H m m') (h : HeaderAt m B)
    (hstart : heap.startAddr ≤ B.addr) (hsize : minBlock ≤ B.size) (hend : B.end_ ≤ heap.endAddr)
    (hbeside : B.end_ ≤ H.addr ∨ H.end_ ≤ B.addr) : HeaderAt m' B := by
  simp only [minBlock] at hsize
  simp only [Tile.end_] at hend hbeside
  refine h.congr fun x hx hx' => hkeeps x (hstart.trans hx) (by omega) ?_
  simp only [Tile.end_]
  omega

/-- **The block and the hole behind it.** -/
theorem placeBlock_carves (mem : Memory) (hcomparer : index.comparer.isSome)
    (hroom : index.array + 4 * (index.size + 1) ≤ k.heap.startAddr)
    (harray : k.heap.index.array ≤ k.heap.startAddr) (hstart : k.heap.startAddr ≤ H.addr)
    (hend : H.end_ ≤ k.heap.endAddr) (hlt : k.heap.endAddr < 2 ^ 32) (htotal : minBlock ≤ total)
    (hcut : total = H.size ∨ total + minBlock ≤ H.size) :
    ∃ mem' index' rest, placeBlock k mem index H.addr H.size total =
        .ok (H.addr + sizeofHeader, k.setIndex mem' index') ∧
      Carves H total ⟨H.addr, total, false⟩ rest ∧
      (∀ A ∈ ⟨H.addr, total, false⟩ :: rest, HeaderAt mem' A) ∧
      FooterAt mem' ⟨H.addr, total, false⟩ ∧ KeepsBeside k.heap H mem mem' := by
  have hmin : 0 < minBlock := by decide
  have hH : H.end_ = H.addr + H.size := rfl
  have hptr : wadd H.addr sizeofHeader = H.addr + sizeofHeader := by
    simp only [minBlock] at htotal
    exact wadd_eq (by omega)
  obtain ⟨hheader, hsame⟩ := makeBlock_spec k.heap mem (a := H.addr) htotal (by omega)
  have hfooter := makeBlock_footerAt mem (a := H.addr) htotal (by omega)
  have hsameBlock : SameBeside k.heap H.addr H.end_ mem (makeBlock mem H.addr total) :=
    hsame.mono le_rfl (by omega)
  have hkeeps := hsameBlock.keepsBeside harray le_rfl
  rw [placeBlock, hptr]
  rcases hcut with rfl | hsplit
  · -- The hole is taken whole.
    rw [if_neg (lt_irrefl _)]
    exact ⟨_, _, [], rfl, ⟨rfl, rfl, le_rfl, ⟨rfl, htotal, rfl⟩, by simp, by simp⟩,
      by simpa using hheader, hfooter, hkeeps⟩
  · have hnew : wadd H.addr total = H.addr + total := wadd_eq (by omega)
    have hleft : wsub H.size total = H.size - total := wsub_eq (by omega) (by omega)
    obtain ⟨hrest, hsame'⟩ := makeRest_spec k.heap (makeBlock mem H.addr total)
      (a := H.addr + total) (n := H.size - total) (by omega) (by omega)
    have hbehind : H.addr + total + (H.size - total) = H.end_ := by omega
    rw [hbehind] at hsame'
    obtain ⟨mem', hinsert, habove⟩ := orderedArrayInsert_above
      (makeRest (makeBlock mem H.addr total) k.heap (H.addr + total) (H.size - total)) hcomparer
      (show H.addr + total < 2 ^ 32 by omega) hroom
    rw [if_pos (by omega), hnew, hleft]
    simp only [hinsert]
    refine ⟨_, _, [⟨H.addr + total, H.size - total, true⟩], rfl,
      ⟨rfl, rfl, le_rfl, ⟨rfl, htotal, rfl, ?_, hbehind⟩, by simp, by simp⟩, fun A hA => ?_, ?_, ?_⟩
    · simp only
      omega
    · rcases List.mem_cons.mp hA with rfl | hA
      · refine (hheader.congr fun x hx hx' => ?_).congr fun x hx _ => habove x (hstart.trans hx)
        simp only [minBlock] at htotal
        exact hsame' x (by simp only at hx; omega) (by simp only at hx'; omega)
          (.inl (by simp only at hx'; omega))
      · obtain rfl := List.mem_singleton.mp hA
        exact hrest.congr fun x hx _ => habove x (by simp only at hx; omega)
    · have hfooter' := hsame'.footerAt hfooter (harray.trans hstart) htotal
        (by simp only [Tile.end_] at *; omega) (.inl le_rfl)
      simp only [minBlock, sizeofHeader, sizeofFooter] at htotal
      refine hfooter'.congr ?_ fun x hx _ => habove x ?_
      · simp only [sizeofFooter, Tile.end_]
        omega
      · simp only [sizeofFooter, Tile.end_] at hx
        omega
    · refine (hkeeps.trans (hsame'.keepsBeside harray (by omega))).trans fun x hx _ _ => ?_
      exact habove x hx

/-! ### The allocation -/

/-- The search finds a hole when there is one that fits. -/
theorem ExactHeap.exists_find (h : ExactHeap m heap blocks) (hH : H ∈ blocks) (htag : H.tag = true)
    (hfits : total ≤ H.size) :
    ∃ i, findSmallestHole m heap total false = some i := by
  refine Option.isSome_iff_exists.mp (List.find?_isSome.mpr ?_)
  obtain ⟨i, hi, hslot⟩ := h.exists_slot hH htag
  refine ⟨i, List.mem_range.mpr hi, ?_⟩
  have hsize := (h.headers H hH).size
  simpa [holeFits, hslot, hsize] using hfits

/-- **A block carved from a hole.** An allocation without alignment, of a size that some hole has
room for, returns the payload of a block that takes the place of a hole; what is left of the hole is
one hole, and nothing else in the heap changes. -/
theorem alloc_carves {size : ℕ} (depth : ℕ) (h : ExactHeap k.mem k.heap blocks)
    (hroom : k.heap.index.size + 2 ≤ k.heap.index.maxSize) (hsize : size + minBlock < 2 ^ 32)
    (hfits : ∃ H ∈ blocks, H.tag = true ∧ size + minBlock ≤ H.size) :
    ∃ xs H ys B rest k', blocks = xs ++ H :: ys ∧ H.tag = true ∧
      alloc (depth + 1) k size false = .ok (H.addr + sizeofHeader, k') ∧
      Carves H (size + minBlock) B rest ∧
      k'.heap.startAddr = k.heap.startAddr ∧ k'.heap.endAddr = k.heap.endAddr ∧
      Tiles minBlock k.heap.startAddr k.heap.endAddr (xs ++ B :: (rest ++ ys)) ∧
      (∀ A ∈ xs ++ B :: (rest ++ ys), HeaderAt k'.mem A) ∧ FooterAt k'.mem B ∧
      KeepsBeside k.heap H k.mem k'.mem := by
  obtain ⟨F, hF, hFtag, hFsize⟩ := hfits
  obtain ⟨i, hfind⟩ := h.exists_find hF hFtag hFsize
  obtain ⟨hi, hfit⟩ := findSmallestHole_eq_some hfind
  obtain ⟨H, hH, htag, haddr⟩ := h.exists_hole hi
  obtain ⟨xs, ys, rfl, hxs, hmin, hys⟩ := h.tiles.exists_eq_append hH
  have hheader : headerSize k.mem H.addr = H.size := (h.headers H hH).size
  have hstart : k.heap.startAddr ≤ H.addr := hxs.le
  have hend : H.end_ ≤ k.heap.endAddr := hys.le
  have hlt := h.end_lt
  have hstorage := h.storage
  have hfit : size + minBlock ≤ H.size := by
    simpa [holeFits, ← haddr, hheader] using hfit
  -- The block takes what would be left of the hole when that has no room for a header and a footer.
  obtain ⟨n, hn⟩ : ∃ n, (if H.size - (size + minBlock) < sizeofHeader + sizeofFooter then H.size
    else size + minBlock) = n := ⟨_, rfl⟩
  have hblock : minBlock = sizeofHeader + sizeofFooter := rfl
  have hcut : n = H.size ∨ n + minBlock ≤ H.size := by
    rw [← hn]
    split_ifs <;> omega
  have htotal : size + minBlock ≤ n := by
    rw [← hn]
    split_ifs <;> omega
  have habove : ∀ x, k.heap.startAddr ≤ x →
      (orderedArrayRemove k.mem k.heap.index i).1 x = k.mem x := fun x hx =>
    orderedArrayRemove_above hi (by omega) hx
  have hroom' : k.heap.index.array + 4 * (k.heap.index.size + 1 + 1) ≤ k.heap.startAddr := by omega
  obtain ⟨mem', index', rest, hplace, hcarves, hheaders, hfooter, hkeeps⟩ :=
    placeBlock_carves (orderedArrayRemove k.mem k.heap.index i).1
      (show (orderedArrayRemove k.mem k.heap.index i).2.comparer.isSome from h.comparer)
      hroom' (by omega) hstart hend hlt ((Nat.le_add_left _ _).trans htotal) hcut
  have hkeeps' : KeepsBeside k.heap H k.mem mem' := fun x hx hlt' hout =>
    (hkeeps x hx hlt' hout).trans (habove x hx)
  have hlost : wsub H.size (size + minBlock) = H.size - (size + minBlock) :=
    wsub_eq hfit (by simp only [Tile.end_] at hend; omega)
  have hfrom : allocFrom k (size + minBlock) false i =
      .ok (H.addr + sizeofHeader, k.setIndex mem' index') := by
    rw [allocFrom, orderedArrayLookup_eq hi, except_ok_bind, ← haddr]
    simp only [hheader, hlost, hn, Bool.false_eq_true, false_and, if_false]
    exact hplace
  have halloc : alloc (depth + 1) k size false =
      .ok (H.addr + sizeofHeader, k.setIndex mem' index') := by
    simpa only [alloc, total_eq hsize, hfind] using hfrom
  refine ⟨xs, H, ys, ⟨H.addr, n, false⟩, rest, _, rfl, htag, halloc,
    { hcarves with size := htotal }, rfl, rfl, ?_, fun A hA => ?_, hfooter, hkeeps'⟩
  · refine tiles_append.mpr ⟨H.addr, hxs, ?_⟩
    exact tiles_append.mpr ⟨H.end_, hcarves.tiles, hys⟩
  · simp only [List.mem_append, List.mem_cons] at hA
    rcases hA with hA | hA | hA | hA
    · obtain ⟨h₁, h₂, h₃⟩ := hxs.bounds hA
      exact hkeeps'.headerAt (h.headers A (List.mem_append_left _ hA)) h₁ h₂
        (h₃.trans (by simp only [Tile.end_] at hend; omega)) (.inl h₃)
    · exact hheaders A (hA ▸ List.mem_cons_self)
    · exact hheaders A (List.mem_cons_of_mem _ hA)
    · obtain ⟨h₁, h₂, h₃⟩ := hys.bounds hA
      exact hkeeps'.headerAt (h.headers A (List.mem_append_right _ (List.mem_cons_of_mem _ hA)))
        (by simp only [Tile.end_] at h₁; omega) h₂ h₃ (.inr h₁)

/-- An allocation of 100 bytes from the first heap. -/
theorem alloc_carves_first_hole : ∃ k k' H, sampleHeap = .ok k ∧
    alloc 1 k 100 false = .ok (H.addr + sizeofHeader, k') ∧ KeepsBeside k.heap H k.mem k'.mem := by
  obtain ⟨k, hk, hfirst⟩ := sampleHeap_first
  obtain ⟨_, H, _, _, _, k', -, -, halloc, -, -, -, -, -, -, hkeeps⟩ :=
    alloc_carves 0 hfirst.exact (by rw [hfirst.size, hfirst.maxSize]; decide)
      (show 100 + minBlock < 2 ^ 32 by decide)
      ⟨firstHole, List.mem_singleton.mpr rfl, rfl, by decide⟩
  exact ⟨k, k', H, hk, halloc, hkeeps⟩

end Studix.Mem
