import Studix.Mem.HeapCalls

/-!
# Whether a resized heap keeps its bounds

`expand` calls `alloc` for the page tables that its new pages do not have, so it returns exactly
when these calls do; `contract` makes no page tables, and needs those of the pages that it gives up.
While a call of `expand` runs, the end of the heap is moved only where a nested call of `expand`
returns.

## Main definitions

* `NeedsTable`, `tableCall`: the calls for page tables.
* `ExpandStops`: a failed check with the end of the heap where it was.
* `ExpandKeepsBounds`, `ContractKeepsBounds`: what is meant.

## Main results

* `expand_returns_iff`, `contract_returns_iff`: which calls return.
* `expandStops_iff`: which calls fail a check before the end of the heap has moved.
* `boundsKept_iff`: which calls keep the bounds.
-/

namespace Studix.Mem

variable {k k' s s' : Kernel} {a : Alloc} {n i depth : ℕ}

/-! ### The calls for page tables -/

/-- The length of the heap. -/
def oldLength (heap : Heap) : ℕ := wsub heap.endAddr heap.startAddr

/-- The number of pages that `expand` adds. -/
def addedPages (heap : Heap) (n : ℕ) : ℕ := (alignUp n - oldLength heap + (pageSize - 1)) / pageSize

/-- The page table of the `i`-th new page. -/
def addedTable (heap : Heap) (i : ℕ) : ℕ :=
  (pageRef (wadd heap.startAddr (oldLength heap + pageSize * i))).1

/-- The state of `expand` after the first `i` new pages. -/
def AddsPages (k : Kernel) (i : ℕ) (s : Kernel) : Prop :=
  ∃ depth, forLoopM (expandPage (alloc depth) (oldLength k.heap)) i k = .ok s

/-- `expand(heap, n)` comes to the `i`-th new page, in the state `s`, and there is no page table for
it. -/
structure NeedsTable (k : Kernel) (n i : ℕ) (s : Kernel) : Prop where
  admits : ExpandAdmits k.heap n
  lt : i < addedPages k.heap n
  adds : AddsPages k i s
  missing : s.kernelDir.tables (addedTable k.heap i) = none

/-- Each call of `kmalloc_ap` for a page table returns. -/
def TablesReturn (k : Kernel) (n : ℕ) : Prop :=
  ∀ i s, NeedsTable k n i s → ∃ depth r, kmallocAp (alloc depth) s pageTableSize = .ok r

/-- The call of `alloc` for a page table. -/
def tableCall (s : Kernel) : Call := ⟨s, pageTableSize, true⟩

theorem AddsPages.sameFrame (h : AddsPages k i s) : SameFrame k s :=
  Call.Adds.sameFrame (c := ⟨k, 0, true⟩) h

/-- The state after the new pages does not depend on the bound on the nested calls. -/
theorem AddsPages.eq (h : AddsPages k i s) {depth : ℕ}
    (hends : Ends Stop.unfinished
      (forLoopM (expandPage (alloc depth) (oldLength k.heap)) i k)) :
    forLoopM (expandPage (alloc depth) (oldLength k.heap)) i k = .ok s :=
  Call.Adds.eq (c := ⟨k, 0, true⟩) h hends

theorem AddsPages.unique (h : AddsPages k i s) (h' : AddsPages k i s') : s' = s := by
  obtain ⟨depth, h'⟩ := h'
  have hends : Ends Stop.unfinished
      (forLoopM (expandPage (alloc depth) (oldLength k.heap)) i k) := by
    rw [h']
    exact ends_ok _ _
  exact Except.ok.inj (h'.symm.trans (h.eq hends))

/-- A page that has no page table is added by a call for one, and then gets its frame. -/
theorem expandPage_eq {oldSize : ℕ}
    (hnone : s.kernelDir.tables (pageRef (wadd s.heap.startAddr (oldSize + pageSize * i))).1 =
      none) :
    expandPage a oldSize i s = kmallocAp a s pageTableSize >>= fun r =>
      let ref := pageRef (wadd s.heap.startAddr (oldSize + pageSize * i))
      let t : Kernel := { r.2.2 with
        mem := memset r.2.2.mem r.1 0 pageSize
        kernelDir := r.2.2.kernelDir.addTable ref.1 r.1 r.2.1 }
      allocFrameAt t (some ref) t.heap.supervisor t.heap.readonly := by
  simp only [expandPage, getPage, hnone, Option.isSome_none, Bool.false_eq_true, if_false, if_true]
  cases kmallocAp a s pageTableSize <;> rfl

/-- The page gets its frame when there is a page table for it. -/
theorem expandPage_returns {oldSize : ℕ} (hnum : s.numFrames < 2 ^ 32)
    (h : s.kernelDir.tables (pageRef (wadd s.heap.startAddr (oldSize + pageSize * i))).1 = none →
      ∃ r, kmallocAp (alloc depth) s pageTableSize = .ok r) :
    ∃ t, expandPage (alloc depth) oldSize i s = .ok t := by
  obtain ⟨ref, href⟩ : ∃ ref, ref = pageRef (wadd s.heap.startAddr (oldSize + pageSize * i)) :=
    ⟨_, rfl⟩
  cases htable : s.kernelDir.tables ref.1 with
  | none =>
    obtain ⟨⟨table, physAddr, t⟩, hr⟩ := h (href ▸ htable)
    have hframe : SameFrame s t := kmallocAp_sameFrame (alloc_sameFrame depth) hr
    obtain ⟨u, hu⟩ : ∃ u : Kernel, u = { t with
        mem := memset t.mem table 0 pageSize
        kernelDir := t.kernelDir.addTable ref.1 table physAddr } := ⟨_, rfl⟩
    have hadded : (u.kernelDir.tables ref.1).isSome := by
      rw [hu]
      simp [PageDir.addTable]
    have hnum' : u.numFrames < 2 ^ 32 := by
      rw [hu]
      exact hframe.2.1 ▸ hnum
    obtain ⟨t', ht', -⟩ := exists_allocFrameAt hnum' hadded u.heap.supervisor u.heap.readonly
    refine ⟨t', ?_⟩
    rw [expandPage_eq (href ▸ htable), hr, except_ok_bind, ← href, ← ht', hu]
  | some table =>
    have hsome : (s.kernelDir.tables ref.1).isSome := by
      rw [htable]
      rfl
    obtain ⟨t, ht, -⟩ := exists_allocFrameAt hnum hsome s.heap.supervisor s.heap.readonly
    refine ⟨t, ?_⟩
    rw [expandPage, getPage_of_table (href ▸ hsome), except_ok_bind, ← href]
    exact ht

/-- The loop over the new pages returns when the calls for page tables do. -/
theorem exists_addsPages (hnum : k.numFrames < 2 ^ 32) (hadmits : ExpandAdmits k.heap n)
    (h : TablesReturn k n) (hi : i ≤ addedPages k.heap n) : ∃ s, AddsPages k i s := by
  induction i with
  | zero => exact ⟨k, 0, rfl⟩
  | succ i ih =>
    obtain ⟨s, hs⟩ := ih (Nat.le_of_succ_le hi)
    obtain ⟨depth, hloop⟩ := id hs
    have hframe := hs.sameFrame
    -- The page table is made within a bound of its own.
    obtain ⟨d, hpage⟩ : ∃ d, s.kernelDir.tables (pageRef (wadd s.heap.startAddr
        (oldLength k.heap + pageSize * i))).1 = none →
        ∃ r, kmallocAp (alloc d) s pageTableSize = .ok r := by
      by_cases hnone : s.kernelDir.tables (addedTable k.heap i) = none
      · obtain ⟨d, r, hr⟩ := h i s ⟨hadmits, hi, hs, hnone⟩
        exact ⟨d, fun _ => ⟨r, hr⟩⟩
      · refine ⟨0, fun hnone' => absurd ?_ hnone⟩
        rwa [hframe.startAddr] at hnone'
    obtain ⟨t, ht⟩ := expandPage_returns (hframe.2.1 ▸ hnum) hpage
    refine ⟨t, max depth d, ?_⟩
    have hends : Ends Stop.unfinished
        (forLoopM (expandPage (alloc depth) (oldLength k.heap)) i k) := by
      rw [hloop]
      exact ends_ok _ _
    have hends' : Ends Stop.unfinished (expandPage (alloc d) (oldLength k.heap) i s) := by
      rw [ht]
      exact ends_ok _ _
    rw [forLoopM, expandPages_approx (alloc_approx (le_max_left depth d)) _ _ _ hends, hloop,
      except_ok_bind, expandPage_approx (alloc_approx (le_max_right depth d)) _ _ _ hends', ht]

/-- A page without a table that the loop has passed has got one by a call that returned. -/
theorem NeedsTable.kmallocAp_ok (h : NeedsTable k n i s) {j : ℕ} (hlt : i < j) {u : Kernel}
    (hloop : forLoopM (expandPage (alloc depth) (oldLength k.heap)) j k = .ok u) :
    ∃ r, kmallocAp (alloc depth) s pageTableSize = .ok r := by
  obtain ⟨t, t', hbefore, hpage⟩ := forLoopM_body_ok hloop hlt
  obtain rfl := h.adds.unique ⟨depth, hbefore⟩
  have hnone := h.missing
  rw [addedTable, ← h.adds.sameFrame.startAddr] at hnone
  rw [expandPage_eq hnone] at hpage
  obtain ⟨r, hr, -⟩ := except_bind_eq_ok.mp hpage
  exact ⟨r, hr⟩

/-- **Which calls of `expand` return**: those that it admits, and for which the calls for page
tables return. -/
theorem expand_returns_iff (hnum : k.numFrames < 2 ^ 32) :
    (∃ depth k', expand (alloc depth) k n = .ok k') ↔ ExpandAdmits k.heap n ∧ TablesReturn k n := by
  constructor
  · rintro ⟨depth, k', h⟩
    have hadmits := expand_admits h
    refine ⟨hadmits, fun i s hneeds => ⟨depth, ?_⟩⟩
    rw [Call.expand_eq _ hadmits] at h
    obtain ⟨u, hloop, -⟩ := except_bind_eq_ok.mp h
    exact hneeds.kmallocAp_ok hneeds.lt hloop
  · rintro ⟨hadmits, h⟩
    obtain ⟨s, depth, hloop⟩ := exists_addsPages hnum hadmits h le_rfl
    refine ⟨depth, { s with heap := { s.heap with endAddr := wadd s.heap.startAddr (alignUp n) } },
      ?_⟩
    rw [Call.expand_eq _ hadmits]
    change forLoopM (expandPage (alloc depth) (oldLength k.heap)) (addedPages k.heap n) k >>= _ = _
    rw [hloop, except_ok_bind]

/-- New pages that have a page table need no calls. -/
theorem tablesReturn_of_tables (hnum : k.numFrames < 2 ^ 32)
    (htables : ∀ i < addedPages k.heap n, (k.kernelDir.tables (addedTable k.heap i)).isSome) :
    TablesReturn k n := by
  intro i s hneeds
  obtain ⟨t, hloop, hkeeps⟩ : ∃ t, forLoopM (expandPage (alloc 0) (oldLength k.heap)) i k = .ok t ∧
      KeepsTables k t :=
    Call.exists_expandPages (c := ⟨k, 0, true⟩) hnum
      (fun j hj => htables j (hj.trans hneeds.lt)) (alloc 0)
  obtain rfl := hneeds.adds.unique ⟨0, hloop⟩
  have hsome := htables i hneeds.lt
  rw [← hkeeps.tables, hneeds.missing] at hsome
  cases hsome

/-! ### Failed checks -/

/-- A nested call of `expand` returns: it moves the end of the heap. -/
def MovesEnd (k : Kernel) (n : ℕ) : Prop :=
  ∃ i s c, NeedsTable k n i s ∧ s.kheap = true ∧ Relation.ReflTransGen Call.Next (tableCall s) c ∧
    c.find = none ∧ ∃ depth k', expand (alloc depth) c.state c.newSize = .ok k'

/-- `expand` stops at a failed `ASSERT`, its own or one in a nested call, and the end of the heap is
where it was. -/
def ExpandStops (k : Kernel) (n : ℕ) : Prop :=
  (∃ depth expr, expand (alloc depth) k n = .error (.assertFailed expr)) ∧ ¬MovesEnd k n

/-- A call fails a check before it changes anything: the index of the holes is full, or the heap
must not get longer. -/
def Call.Refused (c : Call) : Prop :=
  (∃ j expr, c.find = some j ∧
    allocFrom c.state (totalBlockSize c.size) c.align j = .error (.assertFailed expr)) ∨
  c.find = none ∧ ¬ExpandAdmits c.state.heap c.newSize

/-- The call for the page table of a new page is refused, and those before it have found a hole. -/
def TableRefused (k : Kernel) (n : ℕ) : Prop :=
  ∃ i s, NeedsTable k n i s ∧ s.kheap = true ∧ (tableCall s).Refused ∧
    ∀ j s', j < i → NeedsTable k n j s' → (tableCall s').find ≠ none

theorem Call.Refused.alloc_succ {c : Call} (h : c.Refused) (depth : ℕ) :
    ∃ expr, alloc (depth + 1) c.state c.size c.align = .error (.assertFailed expr) := by
  rcases h with ⟨j, expr, hfind, hfrom⟩ | ⟨hfind, hadmits⟩
  · refine ⟨expr, ?_⟩
    rw [Call.find] at hfind
    rw [Mem.alloc_succ, hfind]
    exact hfrom
  · obtain ⟨expr, hstops⟩ : ∃ expr, expand (alloc depth) c.state c.newSize =
        .error (.assertFailed expr) := expand_stops hadmits
    have hspace : makeSpace (alloc depth) c.state (totalBlockSize c.size) =
        .error (.assertFailed expr) := by
      rw [makeSpace]
      exact congrArg (· >>= _) hstops
    refine ⟨expr, ?_⟩
    rw [Call.alloc_of_none hfind, hspace]
    rfl

theorem Call.Refused.not_ok {c : Call} (h : c.Refused) (depth : ℕ) (r : ℕ × Kernel) :
    alloc depth c.state c.size c.align ≠ .ok r := by
  intro hok
  cases depth with
  | zero => cases hok
  | succ depth =>
    obtain ⟨expr, hstops⟩ := h.alloc_succ depth
    rw [hstops] at hok
    cases hok

/-- A call that finds a hole makes no other call that finds none. -/
theorem Call.find_ne_none_of_reach {c c' : Call} (hfound : c.find ≠ none)
    (hreach : Relation.ReflTransGen Call.Next c c') : c'.find ≠ none := by
  obtain rfl | ⟨c₁, hnext, -⟩ := hreach.cases_head
  · exact hfound
  · cases hnext with
    | table hgrows => exact absurd hgrows.1 hfound
    | again hfind => exact absurd hfind hfound

/-- A refused call makes no other call that moves the end of the heap. -/
theorem Call.Refused.not_expands {c c' : Call} (h : c.Refused)
    (hreach : Relation.ReflTransGen Call.Next c c') (hfind' : c'.find = none) {depth : ℕ} :
    expand (alloc depth) c'.state c'.newSize ≠ .ok k' := by
  intro hexpand
  rcases h with ⟨j, expr, hfind, -⟩ | ⟨hfind, hadmits⟩
  · have hfound : c.find ≠ none := hfind ▸ Option.some_ne_none j
    exact Call.find_ne_none_of_reach hfound hreach hfind'
  · obtain rfl | ⟨c₁, hnext, -⟩ := hreach.cases_head
    · exact hadmits (expand_admits hexpand)
    · cases hnext with
      | table hgrows => exact hadmits hgrows.2
      | again _ hspace =>
        obtain ⟨k₁, hexpand₁, -⟩ := except_bind_eq_ok.mp hspace
        exact hadmits (expand_admits hexpand₁)

/-- **A call for a page table that fails a check** is refused, unless the end of the heap has moved
before: a call that needs a page table itself never comes to a check. -/
theorem Call.refused_of_stops {c : Call} {expr : String} (hsize : c.size = pageTableSize)
    (halign : c.align = true) (hkheap : c.state.kheap = true) (hnum : c.state.numFrames < 2 ^ 32)
    (h : alloc depth c.state c.size c.align = .error (.assertFailed expr))
    (hstays : c.find = none → ∀ depth k', expand (alloc depth) c.state c.newSize ≠ .ok k') :
    c.Refused := by
  have hends : Ends Stop.unfinished (alloc depth c.state c.size c.align) := by simp [h]
  cases depth with
  | zero => exact absurd rfl hends
  | succ depth =>
    cases hfind : c.find with
    | some j =>
      refine .inl ⟨j, expr, hfind, ?_⟩
      rw [Call.find] at hfind
      rw [Mem.alloc_succ, hfind] at h
      exact h
    | none =>
      refine .inr ⟨hfind, fun hadmits => ?_⟩
      cases hexpand : expand (alloc depth) c.state c.newSize with
      | ok k' => exact hstays hfind depth k' hexpand
      | error e =>
        rw [Call.expand_eq _ hadmits] at hexpand
        obtain ⟨i, hi, t, hloop, hpage⟩ : ∃ i < c.newPages, ∃ t,
            forLoopM (expandPage (alloc depth) c.oldSize) i c.state = .ok t ∧
              expandPage (alloc depth) c.oldSize i t = .error e := by
          rcases except_bind_eq_error.mp hexpand with hloop | ⟨t, -, hok⟩
          · exact forLoopM_eq_error_iff.mp hloop
          · cases hok
        -- Some page up to the one where the loop stops has no page table.
        have hmissing : ∃ j < c.newPages, c.state.kernelDir.tables (c.tableIndex j) = none := by
          by_contra hall
          push Not at hall
          obtain ⟨u, hu, -⟩ := Call.exists_expandPages (n := i + 1) hnum
            (fun j hj => Option.isSome_iff_ne_none.mpr (hall j (by omega))) (alloc depth)
          have hstops := forLoopM_eq_error_iff.mpr ⟨i, Nat.lt_succ_self i, t, hloop, hpage⟩
          rw [hu] at hstops
          cases hstops
        obtain ⟨j, hj, hnone⟩ := hmissing
        have hstuck : c.Stuck := ⟨hsize, halign, ⟨hfind, hadmits⟩, j, hj, hnone⟩
        exact hstuck.not_finishes hkheap hnum ⟨depth + 1, hends⟩

/-- A call of `kmalloc_ap` that fails a check is one of `alloc`. -/
theorem kmallocAp_assertFailed {size : ℕ} {expr : String}
    (h : kmallocAp a s size = .error (.assertFailed expr)) :
    s.kheap = true ∧ a s size true = .error (.assertFailed expr) := by
  rw [kmallocAp] at h
  by_cases hkheap : s.kheap = true
  · refine ⟨hkheap, ?_⟩
    simp only [kmallocAux, hkheap, if_true] at h
    rcases except_bind_eq_error.mp h with halloc | ⟨r, -, h⟩
    · exact halloc
    · split at h <;> cases h
  · rw [kmallocAux_placement (Bool.eq_false_iff.mpr hkheap)] at h
    cases h

/-- A call of `kmalloc_ap` that returns, with a heap, has made a call of `alloc` that returns. -/
theorem alloc_of_kmallocAp {size : ℕ} {r : ℕ × ℕ × Kernel} (hkheap : s.kheap = true)
    (h : kmallocAp a s size = .ok r) : ∃ r', a s size true = .ok r' := by
  simp only [kmallocAp, kmallocAux, hkheap, if_true] at h
  obtain ⟨r', halloc, -⟩ := except_bind_eq_ok.mp h
  exact ⟨r', halloc⟩

/-- A new page at which `expand` fails a check is one whose page table is not made. -/
theorem stops_at_table {expr : String} (hnum : k.numFrames < 2 ^ 32)
    (hadmits : ExpandAdmits k.heap n)
    (h : expand (alloc depth) k n = .error (.assertFailed expr)) :
    ∃ i s, forLoopM (expandPage (alloc depth) (oldLength k.heap)) i k = .ok s ∧
      NeedsTable k n i s ∧ s.kheap = true ∧
      alloc depth s pageTableSize true = .error (.assertFailed expr) := by
  rw [Call.expand_eq _ hadmits] at h
  change forLoopM (expandPage (alloc depth) (oldLength k.heap)) (addedPages k.heap n) k >>=
    _ = _ at h
  have hloop : forLoopM (expandPage (alloc depth) (oldLength k.heap)) (addedPages k.heap n) k =
      .error (.assertFailed expr) := by
    rcases except_bind_eq_error.mp h with hloop | ⟨t, -, hok⟩
    · exact hloop
    · cases hok
  obtain ⟨i, hi, s, hbefore, hpage⟩ := forLoopM_eq_error_iff.mp hloop
  have hadds : AddsPages k i s := ⟨depth, hbefore⟩
  have hframe := hadds.sameFrame
  have hnum' : s.numFrames < 2 ^ 32 := hframe.2.1 ▸ hnum
  have hnot : ¬∃ t, expandPage (alloc depth) (oldLength k.heap) i s = .ok t := by
    rintro ⟨t, ht⟩
    rw [ht] at hpage
    cases hpage
  obtain ⟨hnone, hfails⟩ : s.kernelDir.tables (pageRef (wadd s.heap.startAddr
      (oldLength k.heap + pageSize * i))).1 = none ∧
        ¬∃ r, kmallocAp (alloc depth) s pageTableSize = .ok r := by
    by_contra hall
    exact hnot (expandPage_returns hnum' fun hnone => by_contra fun hfails => hall ⟨hnone, hfails⟩)
  rw [expandPage_eq hnone] at hpage
  have hmalloc : kmallocAp (alloc depth) s pageTableSize = .error (.assertFailed expr) := by
    rcases except_bind_eq_error.mp hpage with hmalloc | ⟨r, hr, -⟩
    · exact hmalloc
    · exact absurd ⟨r, hr⟩ hfails
  obtain ⟨hkheap, halloc⟩ := kmallocAp_assertFailed hmalloc
  rw [hframe.startAddr] at hnone
  exact ⟨i, s, hbefore, ⟨hadmits, hi, hadds, hnone⟩, hkheap, halloc⟩

/-- A refused call for a page table stops `expand`. -/
theorem TableRefused.stops (h : TableRefused k n) :
    ∃ depth expr, expand (alloc depth) k n = .error (.assertFailed expr) := by
  obtain ⟨i, s, hneeds, hkheap, hrefused, -⟩ := h
  obtain ⟨depth, hbefore⟩ := hneeds.adds
  have hends : Ends Stop.unfinished
      (forLoopM (expandPage (alloc depth) (oldLength k.heap)) i k) := by
    rw [hbefore]
    exact ends_ok _ _
  have hbefore' := expandPages_approx (alloc_approx (Nat.le_succ depth)) _ _ _ hends
  rw [hbefore] at hbefore'
  obtain ⟨expr, hstops⟩ : ∃ expr, alloc (depth + 1) s pageTableSize true =
      .error (.assertFailed expr) := hrefused.alloc_succ depth
  have hmalloc : kmallocAp (alloc (depth + 1)) s pageTableSize = .error (.assertFailed expr) := by
    simp only [kmallocAp, kmallocAux, hkheap, if_true, hstops]
    rfl
  have hnone := hneeds.missing
  rw [addedTable, ← hneeds.adds.sameFrame.startAddr] at hnone
  have hpage : expandPage (alloc (depth + 1)) (oldLength k.heap) i s =
      .error (.assertFailed expr) := by
    rw [expandPage_eq hnone, hmalloc]
    rfl
  have hloop := forLoopM_eq_error_iff.mpr ⟨i, hneeds.lt, s, hbefore', hpage⟩
  refine ⟨depth + 1, expr, ?_⟩
  rw [Call.expand_eq _ hneeds.admits]
  change forLoopM (expandPage (alloc (depth + 1)) (oldLength k.heap)) (addedPages k.heap n) k >>=
    _ = _
  rw [hloop]
  rfl

/-- The end of the heap does not move before the refused call, in it or behind it. -/
theorem TableRefused.not_movesEnd (h : TableRefused k n) : ¬MovesEnd k n := by
  obtain ⟨i, s, hneeds, hkheap, hrefused, hearly⟩ := h
  rintro ⟨j, s', c, hneeds', -, hreach, hfind, d, k', hexpand⟩
  rcases Nat.lt_trichotomy j i with hlt | rfl | hgt
  · exact Call.find_ne_none_of_reach (hearly j s' hlt hneeds') hreach hfind
  · obtain rfl := hneeds.adds.unique hneeds'.adds
    exact hrefused.not_expands hreach hfind hexpand
  · -- A later page is not reached.
    obtain ⟨d', hlater⟩ := hneeds'.adds
    obtain ⟨r, hr⟩ := hneeds.kmallocAp_ok hgt hlater
    obtain ⟨r', halloc⟩ := alloc_of_kmallocAp hkheap hr
    exact hrefused.not_ok d' r' halloc

/-- **Which calls of `expand` fail a check with the end of the heap where it was**: those that it
does not admit, and those for which the call for a page table is refused. -/
theorem expandStops_iff (hnum : k.numFrames < 2 ^ 32) :
    ExpandStops k n ↔ ¬ExpandAdmits k.heap n ∨ TableRefused k n := by
  constructor
  · rintro ⟨⟨depth, expr, h⟩, hstays⟩
    by_cases hadmits : ExpandAdmits k.heap n
    · obtain ⟨i, s, hbefore, hneeds, hkheap, halloc⟩ := stops_at_table hnum hadmits h
      have hframe := hneeds.adds.sameFrame
      refine .inr ⟨i, s, hneeds, hkheap, ?_, fun j s' hj hneeds' hfind => ?_⟩
      · refine Call.refused_of_stops rfl rfl hkheap (hframe.2.1 ▸ hnum) halloc
          fun hfind d k' hexpand => hstays ?_
        exact ⟨i, s, tableCall s, hneeds, hkheap, .refl, hfind, d, k', hexpand⟩
      · -- An earlier call that finds no hole has made space.
        obtain ⟨r, hr⟩ := hneeds'.kmallocAp_ok hj hbefore
        have hkheap' : s'.kheap = true :=
          hneeds'.adds.sameFrame.1.trans (hframe.1.symm.trans hkheap)
        obtain ⟨⟨p, k₁⟩, halloc'⟩ := alloc_of_kmallocAp hkheap' hr
        cases depth with
        | zero => cases halloc'
        | succ depth =>
          rcases alloc_cases halloc' with ⟨-, k₂, hspace, -⟩ | ⟨l, hfound, -⟩
          · obtain ⟨k₃, hexpand, -⟩ := except_bind_eq_ok.mp hspace
            exact hstays ⟨j, s', tableCall s', hneeds', hkheap', .refl, hfind, depth, k₃, hexpand⟩
          · exact Option.some_ne_none l (hfound.symm.trans hfind)
    · exact .inl hadmits
  · rintro (hadmits | hrefused)
    · obtain ⟨expr, hstops⟩ : ∃ expr, expand (alloc 0) k n = .error (.assertFailed expr) :=
        expand_stops hadmits
      refine ⟨⟨0, expr, hstops⟩, ?_⟩
      rintro ⟨i, s, c, hneeds, -⟩
      exact hadmits hneeds.admits
    · exact ⟨hrefused.stops, hrefused.not_movesEnd⟩

/-! ### `contract` -/

/-- The pages that `contract(heap, n)` gives up have page tables. -/
def ReleasedTables (k : Kernel) (n : ℕ) : Prop :=
  ∀ offset, max (alignUp n) heapMinSize < offset → offset < k.heap.endAddr - k.heap.startAddr →
    offset % pageSize = 0 →
    (k.kernelDir.tables (pageRef (wadd k.heap.startAddr offset)).1).isSome

/-- An entry loses its frame, if there is a table with it. -/
theorem exists_freeFrameAt {ref : PageRef} (htable : (k.kernelDir.tables ref.1).isSome) :
    ∃ k', freeFrameAt k (some ref) = .ok k' ∧ KeepsTables k k' := by
  obtain ⟨table, htable⟩ := Option.isSome_iff_exists.mp htable
  have hentry : k.entry ref = some (table.pages ref.2) := by
    rw [Kernel.entry, htable, Option.map_some]
  obtain ⟨k', h⟩ : ∃ k', freeFrameAt k (some ref) = .ok k' :=
    ⟨_, by simp only [freeFrameAt, hentry]; rfl⟩
  obtain ⟨r, page, -, -, rfl⟩ := freeFrameAt_cases h
  refine ⟨_, h, rfl, rfl, rfl, rfl, fun j => ?_⟩
  rcases eq_or_ne j r.1 with rfl | hne
  · simp [PageDir.setEntry]
  · simp [PageDir.setEntry, Function.update_of_ne hne]

/-- The loop of `contract` returns exactly when the pages it comes to have page tables, by induction
on the pages that are left. -/
theorem contractLoop_returns_iff {size fuel : ℕ} (hsize : pageSize ≤ size) (hi : i < 2 ^ 32)
    (hfuel : i ≤ size + pageSize * fuel) : (∃ k', contractLoop a size (fuel + 1) i k = .ok k') ↔
      ∀ m, size + pageSize * m < i →
        (k.kernelDir.tables (pageRef (wadd k.heap.startAddr (i - pageSize * m))).1).isSome := by
  induction fuel generalizing i k with
  | zero =>
    rw [contractLoop, if_neg (by omega)]
    exact iff_of_true ⟨k, rfl⟩ fun m hm => absurd hm (by omega)
  | succ fuel ih =>
    by_cases hlt : size < i
    · have hwsub : wsub i pageSize = i - pageSize := wsub_eq (by omega) hi
      rw [contractLoop, if_pos hlt]
      by_cases htable : (k.kernelDir.tables (pageRef (wadd k.heap.startAddr i)).1).isSome
      · obtain ⟨k₁, hfree, hkeeps⟩ := exists_freeFrameAt htable
        rw [getPage_of_table htable, except_ok_bind]
        dsimp only
        rw [hfree, except_ok_bind, hwsub,
          ih (Nat.lt_of_le_of_lt (Nat.sub_le i pageSize) hi) (by rw [Nat.mul_succ] at hfuel; omega)]
        simp only [hkeeps.tables, hkeeps.heap]
        constructor
        · intro hall m hm
          cases m with
          | zero => simpa using htable
          | succ m =>
            have hrest := hall m (by rw [Nat.mul_succ] at hm; omega)
            rwa [Nat.sub_sub, Nat.add_comm, ← Nat.mul_succ] at hrest
        · intro hall m hm
          have hrest := hall (m + 1) (by rw [Nat.mul_succ]; omega)
          rwa [Nat.mul_succ, Nat.add_comm, ← Nat.sub_sub] at hrest
      · refine iff_of_false ?_ fun hall => htable (by simpa using hall 0 (by omega))
        rintro ⟨k', hloop⟩
        simp only [getPage, if_neg htable, Bool.false_eq_true, if_false] at hloop
        cases hloop
    · rw [contractLoop, if_neg hlt]
      exact iff_of_true ⟨k, rfl⟩ fun m hm => absurd hm (by omega)

/-- **Which calls of `contract` return**: those for which the pages that are given up have page
tables. -/
theorem contract_returns_iff (hb : PagedBounds k.heap)
    (hlt : n < k.heap.endAddr - k.heap.startAddr) :
    (∃ length k', contract a k n = .ok (length, k')) ↔ ReleasedTables k n := by
  have hstart := hb.start_pages
  have hend_pages := hb.end_pages
  have hmin := hb.min_le
  have hend := hb.end_le
  have hmax := hb.max_lt
  obtain ⟨hle, hpages⟩ := hb.contractedLength hlt
  obtain ⟨size, hsize⟩ : ∃ size, size = max (alignUp n) heapMinSize := ⟨_, rfl⟩
  have hsizeMin : heapMinSize ≤ size := hsize ▸ le_max_right _ _
  have hclamp : (if alignUp n < heapMinSize then heapMinSize else alignUp n) = size := by
    rw [hsize]
    split_ifs <;> omega
  have hcheck : wadd k.heap.startAddr n < k.heap.endAddr := by
    rw [wadd_eq (by omega)]
    omega
  have hold : wsub k.heap.endAddr k.heap.startAddr = k.heap.endAddr - k.heap.startAddr :=
    wsub_eq (by omega) (by omega)
  have hfirst : wsub (k.heap.endAddr - k.heap.startAddr) pageSize =
      k.heap.endAddr - k.heap.startAddr - pageSize :=
    wsub_eq (by simp only [pageSize, heapMinSize] at *; omega) (by omega)
  rw [← hsize] at hle hpages
  have hloop : (∃ length k', contract a k n = .ok (length, k')) ↔
      ∃ k', contractLoop a size (2 ^ 20 + 1) (k.heap.endAddr - k.heap.startAddr - pageSize) k =
        .ok k' := by
    rw [contract, decide_eq_true hcheck, assert_true_bind]
    dsimp only
    rw [hclamp, hold, hfirst]
    cases contractLoop a size (2 ^ 20 + 1) (k.heap.endAddr - k.heap.startAddr - pageSize) k with
    | error e => exact iff_of_false (by rintro ⟨_, _, h⟩; cases h) (by rintro ⟨_, h⟩; cases h)
    | ok k' => exact iff_of_true ⟨_, _, rfl⟩ ⟨k', rfl⟩
  rw [hloop, contractLoop_returns_iff (by simp only [pageSize, heapMinSize] at *; omega) (by omega)
    (by simp only [pageSize] at *; omega), ReleasedTables, ← hsize]
  constructor
  · intro hall offset hgt hlt' hoffset
    obtain ⟨m, hm⟩ : ∃ m, offset + pageSize * m =
        k.heap.endAddr - k.heap.startAddr - pageSize :=
      ⟨(k.heap.endAddr - k.heap.startAddr - pageSize - offset) / pageSize, by
        simp only [pageSize] at *; omega⟩
    have htable := hall m (by omega)
    rwa [← hm, Nat.add_sub_cancel] at htable
  · intro hall m hm
    exact hall _ (by omega) (by simp only [pageSize] at *; omega)
      (by simp only [pageSize] at *; omega)

/-- The loop of `contract` checks nothing. -/
theorem contractLoop_ne_assertFailed {size fuel : ℕ} (expr : String) :
    contractLoop a size fuel i k ≠ .error (.assertFailed expr) := by
  induction fuel generalizing i k with
  | zero =>
    rw [contractLoop]
    rintro ⟨⟩
  | succ fuel ih =>
    rw [contractLoop]
    split_ifs with hlt
    · by_cases htable : (k.kernelDir.tables (pageRef (wadd k.heap.startAddr i)).1).isSome
      · obtain ⟨k₁, hfree, -⟩ := exists_freeFrameAt htable
        rw [getPage_of_table htable, except_ok_bind]
        dsimp only
        rw [hfree, except_ok_bind]
        exact ih
      · simp only [getPage, if_neg htable, Bool.false_eq_true, if_false]
        rintro ⟨⟩
    · rintro ⟨⟩

/-! ### The bounds -/

/-- `expand` stops at a failed `ASSERT` with the end of the heap where it was, or returns with the
end within the bounds. -/
def ExpandKeepsBounds (k : Kernel) (n : ℕ) : Prop :=
  ExpandStops k n ∨ ∃ depth k', expand (alloc depth) k n = .ok k' ∧ BoundsKept k.heap k'.heap

/-- `contract` stops at a failed `ASSERT`, which it makes before it changes anything, or returns
with the end within the bounds. -/
def ContractKeepsBounds (k : Kernel) (n : ℕ) : Prop :=
  (∃ depth expr, contract (alloc depth) k n = .error (.assertFailed expr)) ∨
    ∃ depth length k', contract (alloc depth) k n = .ok (length, k') ∧ BoundsKept k.heap k'.heap

theorem expandKeepsBounds_iff (hb : PagedBounds k.heap) (hn : n < 2 ^ 32)
    (hnum : k.numFrames < 2 ^ 32) : ExpandKeepsBounds k n ↔
      ¬ExpandAdmits k.heap n ∨ TableRefused k n ∨ TablesReturn k n ∧ ¬InLastPage k.heap n := by
  rw [ExpandKeepsBounds, expandStops_iff hnum, or_assoc]
  constructor
  · rintro (hadmits | hrefused | ⟨depth, k', h, hkept⟩)
    · exact .inl hadmits
    · exact .inr (.inl hrefused)
    · exact .inr (.inr ⟨((expand_returns_iff hnum).mp ⟨depth, k', h⟩).2,
        (hb.boundsKept_expand_iff hn h).mp hkept⟩)
  · rintro (hadmits | hrefused | ⟨htables, hlast⟩)
    · exact .inl hadmits
    · exact .inr (.inl hrefused)
    · by_cases hadmits : ExpandAdmits k.heap n
      · obtain ⟨depth, k', h⟩ := (expand_returns_iff hnum).mpr ⟨hadmits, htables⟩
        exact .inr (.inr ⟨depth, k', h, (hb.boundsKept_expand_iff hn h).mpr hlast⟩)
      · exact .inl hadmits

theorem contractKeepsBounds_iff (hb : PagedBounds k.heap)
    (hlt : n < k.heap.endAddr - k.heap.startAddr) :
    ContractKeepsBounds k n ↔ ReleasedTables k n := by
  have hmin := hb.min_le
  have hend := hb.end_le
  have hmax := hb.max_lt
  constructor
  · rintro (⟨depth, expr, h⟩ | ⟨depth, length, k', h, -⟩)
    · have hcheck : wadd k.heap.startAddr n < k.heap.endAddr := by
        rw [wadd_eq (by omega)]
        omega
      rw [contract, decide_eq_true hcheck, assert_true_bind] at h
      rcases except_bind_eq_error.mp h with hloop | ⟨t, -, hok⟩
      · exact absurd hloop (contractLoop_ne_assertFailed expr)
      · cases hok
    · exact (contract_returns_iff hb hlt).mp ⟨length, k', h⟩
  · intro htables
    obtain ⟨length, k', h⟩ := (contract_returns_iff hb hlt).mpr htables
    exact .inr ⟨0, length, k', h, hb.boundsKept_contract hlt h⟩

/-- **When `expand` and `contract` keep the bounds.** A call of `expand` stops at its own checks or
at those of a call for a page table, or these calls return and the new end does not lie inside the
last page. For `contract`, the pages that it gives up have page tables. -/
theorem boundsKept_iff (hb : PagedBounds k.heap) (hn : n < 2 ^ 32) (hnum : k.numFrames < 2 ^ 32) :
    (ExpandKeepsBounds k n ↔
        ¬ExpandAdmits k.heap n ∨ TableRefused k n ∨ TablesReturn k n ∧ ¬InLastPage k.heap n) ∧
      (n < k.heap.endAddr - k.heap.startAddr → (ContractKeepsBounds k n ↔ ReleasedTables k n)) :=
  ⟨expandKeepsBounds_iff hb hn hnum, contractKeepsBounds_iff hb⟩

/-- The first heap grows by a page, and is cut to the least length. -/
theorem boundsKept_first_heap : ∃ k, PagedBounds k.heap ∧
    ExpandKeepsBounds k (firstHole.size + 1) ∧ ContractKeepsBounds k 0 := by
  have hrun : returns sampleHeap (fun k => decide (PagedBounds k.withTables.heap) &&
      decide (¬2 ^ 32 < k.withTables.heap.startAddr + (firstHole.size + 1) + pageSize) &&
      decide (k.withTables.numFrames < 2 ^ 32) &&
      decide (0 < k.withTables.heap.endAddr - k.withTables.heap.startAddr)) = true := by
    decide +kernel
  obtain ⟨k, -, hrun⟩ := exists_of_returns hrun
  simp only [Bool.and_eq_true, decide_eq_true_eq] at hrun
  obtain ⟨⟨⟨hb, hlast⟩, hnum⟩, hpos⟩ := hrun
  have htables : TablesReturn k.withTables (firstHole.size + 1) :=
    tablesReturn_of_tables hnum fun _ _ => rfl
  refine ⟨k.withTables, hb,
    (boundsKept_iff hb (by decide) hnum).1.mpr (.inr (.inr ⟨htables, fun h => hlast h.1⟩)),
    ((boundsKept_iff hb (by decide) hnum).2 hpos).mpr fun _ _ _ _ => rfl⟩

/-- A heap that takes all memory up to the last page. -/
def Kernel.toLastPage (k : Kernel) : Kernel :=
  { k.withTables with
    heap := { k.heap with endAddr := 2 ^ 32 - pageSize, maxAddr := 2 ^ 32 - pageSize } }

/-- **A heap that ends inside the last page** is rounded up to one that ends at zero. -/
theorem expand_wraps_to_zero : ∃ k n, PagedBounds k.heap ∧ n < 2 ^ 32 ∧ ¬ExpandKeepsBounds k n := by
  have hrun : returns sampleHeap (fun k => decide (PagedBounds k.toLastPage.heap) &&
      returns (expand (alloc 0) k.toLastPage (2 ^ 32 - 1 - firstHole.addr)) fun k' =>
        decide (k'.heap.endAddr = 0)) = true := by
    decide +kernel
  obtain ⟨k, -, hrun⟩ := exists_of_returns hrun
  simp only [Bool.and_eq_true, decide_eq_true_eq] at hrun
  obtain ⟨k', hexpand, hend⟩ := exists_of_returns hrun.2
  -- The run is the same with any bound on the nested calls.
  have hsame : ∀ depth, expand (alloc depth) k.toLastPage (2 ^ 32 - 1 - firstHole.addr) =
      .ok k' := by
    intro depth
    rw [← hexpand]
    refine expand_approx (alloc_approx (Nat.zero_le depth)) _ _ ?_
    rw [hexpand]
    exact ends_ok _ _
  refine ⟨k.toLastPage, 2 ^ 32 - 1 - firstHole.addr, hrun.1, by decide, ?_⟩
  rintro (⟨⟨depth, expr, hstops⟩, -⟩ | ⟨depth, k'', hreturns, hkept⟩)
  · rw [hsame] at hstops
    cases hstops
  · rw [hsame] at hreturns
    have hmin := hkept.min_le
    rw [← Except.ok.inj hreturns, of_decide_eq_true hend] at hmin
    exact absurd hmin (by simp [heapMinSize])

end Studix.Mem
