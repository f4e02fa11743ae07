import Studix.Mem.HeapContract

/-!
# The fields that a release accesses

`free` and the functions it calls are run again with a record of the header and footer fields that
`free`, `unify_left` and `unify_right` read and write, by their addresses; the record is kept when
the run stops. The index and the page tables are not recorded, nor what `header_comparer` reads when
the hole is listed. `unify_right` reads what lies behind the block without asking whether the heap
goes on there.

## Main definitions

* `Probed`: a run with the record.
* `freeP`: `free` with the record.

## Main results

* `freeP_result`: it is `free`.
* `WellFormed.fieldsBelow_iff`: when all fields lie below the end of the heap.
-/

namespace Studix.Mem

variable {m m' mem : Memory} {heap : Heap} {blocks : List Block} {B : Block} {k k' : Kernel}
  {alloc : Alloc} {header footer x : ℕ} {α β : Type}

/-! ### Runs with a record -/

/-- A run: how it ends, and the addresses of the fields that it accessed. -/
structure Probed (α : Type) where
  result : Except Stop α
  fields : List ℕ

/-- Access fields. -/
def probe (fields : List ℕ) : Probed Unit := ⟨.ok (), fields⟩

/-- A run that accesses no field. -/
def Probed.lift (x : Except Stop α) : Probed α := ⟨x, []⟩

/-- One run behind another. It is not unfolded, so that the runs are not evaluated. -/
@[irreducible] def Probed.bind (x : Probed α) (f : α → Probed β) : Probed β :=
  match x.result with
  | .ok a => ⟨(f a).result, x.fields ++ (f a).fields⟩
  | .error e => ⟨.error e, x.fields⟩

instance : Monad Probed where
  pure a := ⟨.ok a, []⟩
  bind := Probed.bind

@[simp] theorem Probed.result_pure (a : α) : (pure a : Probed α).result = .ok a := rfl

@[simp] theorem Probed.fields_pure (a : α) : (pure a : Probed α).fields = [] := rfl

@[simp] theorem Probed.result_lift (x : Except Stop α) : (Probed.lift x).result = x := rfl

@[simp] theorem Probed.fields_lift (x : Except Stop α) : (Probed.lift x).fields = [] := rfl

@[simp] theorem result_probe (fields : List ℕ) : (probe fields).result = .ok () := rfl

@[simp] theorem fields_probe (fields : List ℕ) : (probe fields).fields = fields := rfl

@[simp] theorem Probed.result_bind (x : Probed α) (f : α → Probed β) :
    (x >>= f).result = x.result >>= fun a => (f a).result := by
  obtain ⟨result, fields⟩ := x
  cases result <;> simp only [Bind.bind, Probed.bind, Except.bind]

theorem Probed.result_bind_congr {x : Probed α} {y : Except Stop α} {f : α → Probed β}
    {g : α → Except Stop β} (h : x.result = y) (hfg : ∀ a, (f a).result = g a) :
    (x >>= f).result = y >>= g := by
  rw [Probed.result_bind, h]
  exact congrArg _ (funext hfg)

/-- The fields of a run behind another. -/
theorem Probed.mem_fields_bind {x : Probed α} {f : α → Probed β} {a : ℕ} :
    a ∈ (x >>= f).fields ↔ a ∈ x.fields ∨ ∃ b, x.result = .ok b ∧ a ∈ (f b).fields := by
  obtain ⟨result, fields⟩ := x
  cases result with
  | error e => simp [Bind.bind, Probed.bind]
  | ok b => simp [Bind.bind, Probed.bind]

theorem Probed.mem_fields_bind_of_ok {x : Probed α} {f : α → Probed β} {a : ℕ} {b : α}
    (h : x.result = .ok b) : a ∈ (x >>= f).fields ↔ a ∈ x.fields ∨ a ∈ (f b).fields := by
  rw [Probed.mem_fields_bind]
  refine or_congr_right ⟨fun ⟨c, hc, hmem⟩ => ?_, fun hmem => ⟨b, h, hmem⟩⟩
  rwa [Except.ok.inj (h.symm.trans hc)]

/-! ### `free` with the record -/

/-- `unify_left` with the record. -/
def unifyLeftP (m : Memory) (header footer : ℕ) : Probed (Memory × ℕ) := do
  let potentialFooter := wsub header sizeofHeader
  probe [potentialFooter]
  if footerMagic m potentialFooter = heapMagic then
    let left := footerHeader m potentialFooter
    probe [potentialFooter + 4, left + 4]
    if headerIsHole m left then
      probe [header + 8, potentialFooter + 4, footer + 4, left + 8]
      let currSize := headerSize m header
      let m := setFooterHeader m footer left
      pure (setHeaderSize m left (wadd (headerSize m left) currSize), left)
    else pure (m, header)
  else pure (m, header)

/-- `unify_right` with the record. -/
def unifyRightP (k : Kernel) (header footer : ℕ) : Probed (Kernel × ℕ) := do
  let potentialHeader := wadd footer sizeofFooter
  probe [potentialHeader]
  if headerMagic k.mem potentialHeader = heapMagic then
    probe [potentialHeader + 4]
    if headerIsHole k.mem potentialHeader then
      probe [header + 8, potentialHeader + 8]
      let mem := setHeaderSize k.mem header
        (wadd (headerSize k.mem header) (headerSize k.mem potentialHeader))
      let footer := wsub (wadd potentialHeader (headerSize mem potentialHeader)) sizeofFooter
      match findHeaderIndex mem k.heap potentialHeader with
      | none => Probed.lift (.error (.assertFailed "i != -1"))
      | some i =>
        let (mem, index) := orderedArrayRemove mem k.heap.index i
        pure (k.setIndex mem index, footer)
    else pure (k, footer)
  else pure (k, footer)

/-- What `free` does with the hole after the heap has become shorter by `loss`, with the record. -/
def resizeOrDropP (k : Kernel) (header loss : ℕ) : Probed Kernel := do
  probe [header + 8]
  if loss < headerSize k.mem header then
    let size := wsub (headerSize k.mem header) loss
    let newFooter := assocFooter (setHeaderSize k.mem header size) header
    probe [header + 8, newFooter + 4, newFooter]
    pure { k with mem := resizeBlock k.mem header size }
  else
    match findHeaderIndex k.mem k.heap header with
    | none => pure k
    | some i =>
      let (mem, index) := orderedArrayRemove k.mem k.heap.index i
      pure (k.setIndex mem index)

/-- The end of `free` with the record. -/
def freeContractP (alloc : Alloc) (k : Kernel) (header footer : ℕ) : Probed Kernel :=
  if wadd footer sizeofFooter = k.heap.endAddr then
    Probed.lift (contract alloc k (wsub header k.heap.startAddr)) >>= fun r =>
      resizeOrDropP r.2 header (wsub (wsub k.heap.endAddr k.heap.startAddr) r.1)
  else pure k

/-- `free` behind its sanity checks, with the record. -/
def freeBlockP (alloc : Alloc) (k : Kernel) (origHeader footer : ℕ) : Probed Kernel := do
  probe [origHeader + 4]
  let left ← unifyLeftP (setHeaderIsHole k.mem origHeader true) origHeader footer
  let (k, footer) ← unifyRightP { k with mem := left.1 } left.2 footer
  let k ← freeContractP alloc k left.2 footer
  if left.2 = origHeader then do
    let (mem, index) ← Probed.lift (orderedArrayInsert k.mem k.heap.index left.2)
    pure (k.setIndex mem index)
  else pure k

/-- The sanity checks of `free` with the record. -/
def freeChecksP (m : Memory) (header footer : ℕ) : Probed Unit := do
  probe [footer + 4]
  Probed.lift (assert (footerHeader m footer = header) "footer->header == header")
  probe [header]
  Probed.lift (assert (headerMagic m header = heapMagic) "header->magic == HEAP_MAGIC")
  probe [footer]
  Probed.lift (assert (footerMagic m footer = heapMagic) "footer->magic == HEAP_MAGIC")

/-- `free` with the record. -/
def freeP (alloc : Alloc) (k : Kernel) (ptr : ℕ) : Probed Kernel :=
  if ptr = 0 then pure k
  else do
    let origHeader := headerFor ptr
    probe [origHeader + 8]
    let footer := assocFooter k.mem origHeader
    freeChecksP k.mem origHeader footer
    freeBlockP alloc k origHeader footer

/-! ### It is `free` -/

theorem unifyLeftP_result (m : Memory) (header footer : ℕ) :
    (unifyLeftP m header footer).result = .ok (unifyLeft m header footer) := by
  simp only [unifyLeftP, unifyLeft, Probed.result_bind, result_probe, except_ok_bind]
  split_ifs <;> simp_all

theorem unifyRightP_result (k : Kernel) (header footer : ℕ) :
    (unifyRightP k header footer).result = unifyRight k header footer := by
  simp only [unifyRightP, unifyRight, Probed.result_bind, result_probe, except_ok_bind]
  by_cases hmagic : headerMagic k.mem (wadd footer sizeofFooter) = heapMagic
  · by_cases hhole : headerIsHole k.mem (wadd footer sizeofFooter) = true
    · simp only [hmagic, hhole, if_true, and_self, Probed.result_bind, result_probe, except_ok_bind]
      split <;> simp_all
    · simp [hmagic, hhole]
  · simp [hmagic]

theorem resizeOrDropP_result (k : Kernel) (header loss : ℕ) :
    (resizeOrDropP k header loss).result =
      if loss < headerSize k.mem header then
        .ok { k with mem := resizeBlock k.mem header (wsub (headerSize k.mem header) loss) }
      else
        match findHeaderIndex k.mem k.heap header with
        | none => .ok k
        | some i =>
          .ok (k.setIndex (orderedArrayRemove k.mem k.heap.index i).1
            (orderedArrayRemove k.mem k.heap.index i).2) := by
  unfold resizeOrDropP
  generalize wsub (headerSize k.mem header) loss = size
  by_cases hkeep : loss < headerSize k.mem header
  · simp only [if_pos hkeep, Probed.result_bind, result_probe, except_ok_bind, Probed.result_pure]
  · simp only [if_neg hkeep, Probed.result_bind, result_probe, except_ok_bind]
    cases findHeaderIndex k.mem k.heap header with
    | none => exact Probed.result_pure _
    | some i => exact Probed.result_pure _

theorem freeContractP_result (alloc : Alloc) (k : Kernel) (header footer : ℕ) :
    (freeContractP alloc k header footer).result = freeContract alloc k header footer := by
  unfold freeContractP freeContract
  by_cases hend : wadd footer sizeofFooter = k.heap.endAddr
  · simp only [if_pos hend]
    refine Probed.result_bind_congr rfl fun r => ?_
    obtain ⟨newLength, k₁⟩ := r
    exact resizeOrDropP_result _ _ _
  · simp only [if_neg hend]
    rfl

theorem freeBlockP_result (alloc : Alloc) (k : Kernel) (origHeader footer : ℕ) :
    (freeBlockP alloc k origHeader footer).result = freeBlock alloc k origHeader footer := by
  unfold freeBlockP freeBlock
  rw [Probed.result_bind, result_probe, except_ok_bind, Probed.result_bind, unifyLeftP_result,
    except_ok_bind]
  generalize unifyLeft (setHeaderIsHole k.mem origHeader true) origHeader footer = left
  obtain ⟨mem, header⟩ := left
  refine Probed.result_bind_congr (unifyRightP_result _ _ _) fun r => ?_
  obtain ⟨k₁, footer'⟩ := r
  dsimp only
  refine Probed.result_bind_congr (freeContractP_result _ _ _ _) fun k₂ => ?_
  by_cases hlist : header = origHeader
  · simp only [if_pos hlist]
    refine Probed.result_bind_congr (Probed.result_lift _) fun r => ?_
    exact Probed.result_pure _
  · simp only [if_neg hlist]
    exact Probed.result_pure _

theorem freeChecksP_result (m : Memory) (header footer : ℕ) :
    (freeChecksP m header footer).result = freeChecks m header footer := by
  simp only [freeChecksP, freeChecks, Probed.result_bind, result_probe, except_ok_bind,
    Probed.result_lift]

/-- **The run with the record is `free`.** -/
theorem freeP_result (alloc : Alloc) (k : Kernel) (ptr : ℕ) :
    (freeP alloc k ptr).result = free alloc k ptr := by
  unfold freeP free
  by_cases hptr : ptr = 0
  · simp only [if_pos hptr]
    rfl
  · simp only [if_neg hptr]
    rw [Probed.result_bind, result_probe, except_ok_bind, Probed.result_bind, freeChecksP_result]
    simp only [freeBlockP_result]

/-! ### The fields -/

/-- The fields that `unify_left` accesses. -/
theorem mem_unifyLeftP {m : Memory} {header footer a : ℕ}
    (h : a ∈ (unifyLeftP m header footer).fields) :
    a = wsub header sizeofHeader ∨
      footerMagic m (wsub header sizeofHeader) = heapMagic ∧
        (a = wsub header sizeofHeader + 4 ∨
          a = footerHeader m (wsub header sizeofHeader) + 4 ∨ a = header + 8 ∨ a = footer + 4 ∨
          a = footerHeader m (wsub header sizeofHeader) + 8) := by
  unfold unifyLeftP at h
  generalize wsub header sizeofHeader = potentialFooter at h ⊢
  dsimp only at h
  generalize footerHeader m potentialFooter = left at h ⊢
  rcases Probed.mem_fields_bind.mp h with h | ⟨-, -, h⟩
  · exact .inl (List.mem_singleton.mp h)
  split_ifs at h with hmagic hhole
  · refine .inr ⟨hmagic, ?_⟩
    rcases Probed.mem_fields_bind.mp h with h | ⟨-, -, h⟩
    · simp only [fields_probe, List.mem_cons, List.not_mem_nil, or_false] at h
      exact h.imp_right .inl
    rcases Probed.mem_fields_bind.mp h with h | ⟨-, -, h⟩
    · simp only [fields_probe, List.mem_cons, List.not_mem_nil, or_false] at h
      rcases h with h | h | h | h
      · exact .inr (.inr (.inl h))
      · exact .inl h
      · exact .inr (.inr (.inr (.inl h)))
      · exact .inr (.inr (.inr (.inr h)))
    · exact absurd h List.not_mem_nil
  · refine .inr ⟨hmagic, ?_⟩
    rcases Probed.mem_fields_bind.mp h with h | ⟨-, -, h⟩
    · simp only [fields_probe, List.mem_cons, List.not_mem_nil, or_false] at h
      exact h.imp_right .inl
    · exact absurd h List.not_mem_nil
  · exact absurd h List.not_mem_nil

/-- The fields that `unify_right` accesses: it always looks behind the block. -/
theorem mem_unifyRightP {k : Kernel} {header footer a : ℕ}
    (h : a ∈ (unifyRightP k header footer).fields) :
    a = wadd footer sizeofFooter ∨ a = wadd footer sizeofFooter + 4 ∨
      a = wadd footer sizeofFooter + 8 ∨ a = header + 8 := by
  unfold unifyRightP at h
  generalize wadd footer sizeofFooter = potentialHeader at h ⊢
  dsimp only at h
  rcases Probed.mem_fields_bind.mp h with h | ⟨-, -, h⟩
  · exact .inl (List.mem_singleton.mp h)
  split_ifs at h with hmagic hhole
  · rcases Probed.mem_fields_bind.mp h with h | ⟨-, -, h⟩
    · exact .inr (.inl (List.mem_singleton.mp h))
    rcases Probed.mem_fields_bind.mp h with h | ⟨-, -, h⟩
    · simp only [fields_probe, List.mem_cons, List.not_mem_nil, or_false] at h
      exact .inr (.inr h.symm)
    · split at h <;> exact absurd h List.not_mem_nil
  · rcases Probed.mem_fields_bind.mp h with h | ⟨-, -, h⟩
    · exact .inr (.inl (List.mem_singleton.mp h))
    · exact absurd h List.not_mem_nil
  · exact absurd h List.not_mem_nil

theorem behind_mem_unifyRightP (k : Kernel) (header footer : ℕ) :
    wadd footer sizeofFooter ∈ (unifyRightP k header footer).fields :=
  Probed.mem_fields_bind.mpr (.inl (List.mem_singleton.mpr rfl))

/-- The fields that are accessed for the hole at the end: its footer is written when it keeps some
of its size. -/
theorem mem_resizeOrDropP {k : Kernel} {header loss a : ℕ} :
    a ∈ (resizeOrDropP k header loss).fields ↔ a = header + 8 ∨
      loss < headerSize k.mem header ∧ ∃ newFooter,
        newFooter = wsub (wadd header (wsub (headerSize k.mem header) loss)) sizeofFooter ∧
          (a = newFooter ∨ a = newFooter + 4) := by
  unfold resizeOrDropP
  dsimp only
  have hlt : wsub (headerSize k.mem header) loss < 2 ^ 32 := wsub_lt _ _
  generalize wsub (headerSize k.mem header) loss = size at hlt ⊢
  rw [assocFooter, headerSize_setHeaderSize hlt]
  generalize wsub (wadd header size) sizeofFooter = newFooter
  refine (Probed.mem_fields_bind_of_ok (result_probe _)).trans ?_
  rw [fields_probe, List.mem_singleton]
  by_cases hkeep : loss < headerSize k.mem header
  · rw [if_pos hkeep, Probed.mem_fields_bind_of_ok (result_probe _), fields_probe,
      Probed.fields_pure]
    simp only [List.mem_cons, List.not_mem_nil, or_false, hkeep, true_and, exists_eq_left]
    tauto
  · rw [if_neg hkeep]
    refine or_congr_right (iff_of_false ?_ fun h => hkeep h.1)
    split <;> exact List.not_mem_nil

/-- The fields that the end of `free` accesses. -/
theorem mem_freeContractP {k : Kernel} {header footer a : ℕ} :
    a ∈ (freeContractP alloc k header footer).fields ↔ wadd footer sizeofFooter = k.heap.endAddr ∧
      ∃ r, contract alloc k (wsub header k.heap.startAddr) = .ok r ∧
        a ∈ (resizeOrDropP r.2 header (wsub (wsub k.heap.endAddr k.heap.startAddr)
          r.1)).fields := by
  rw [freeContractP]
  by_cases hend : wadd footer sizeofFooter = k.heap.endAddr
  · rw [if_pos hend, Probed.mem_fields_bind, and_iff_right hend, Probed.fields_lift,
      Probed.result_lift]
    exact or_iff_right List.not_mem_nil
  · rw [if_neg hend, Probed.fields_pure]
    exact iff_of_false List.not_mem_nil fun h => hend h.1

theorem mem_freeContractP_of_ok {k k₁ : Kernel} {header footer length a : ℕ}
    (hcontract : contract alloc k (wsub header k.heap.startAddr) = .ok (length, k₁)) :
    a ∈ (freeContractP alloc k header footer).fields ↔ wadd footer sizeofFooter = k.heap.endAddr ∧
      a ∈ (resizeOrDropP k₁ header (wsub (wsub k.heap.endAddr k.heap.startAddr)
        length)).fields := by
  refine mem_freeContractP.trans (and_congr_right fun _ =>
    ⟨fun ⟨r, hr, h⟩ => ?_, fun h => ⟨_, hcontract, h⟩⟩)
  have heq := Except.ok.inj (hcontract.symm.trans hr)
  rwa [← heq] at h

/-- The fields that the sanity checks access when they pass. -/
theorem mem_freeChecksP {m : Memory} {header footer a : ℕ}
    (hheader : footerHeader m footer = header) (hmagic : headerMagic m header = heapMagic) :
    a ∈ (freeChecksP m header footer).fields ↔ a = footer + 4 ∨ a = header ∨ a = footer := by
  have hfirst : (Probed.lift (assert (footerHeader m footer = header)
      "footer->header == header")).result = .ok () := by simp [hheader]
  have hsecond : (Probed.lift (assert (headerMagic m header = heapMagic)
      "header->magic == HEAP_MAGIC")).result = .ok () := by simp [hmagic]
  rw [freeChecksP, Probed.mem_fields_bind_of_ok (result_probe _),
    Probed.mem_fields_bind_of_ok hfirst, Probed.mem_fields_bind_of_ok (result_probe _),
    Probed.mem_fields_bind_of_ok hsecond, Probed.mem_fields_bind_of_ok (result_probe _)]
  simp

/-- The fields that `free` accesses behind its sanity checks. -/
theorem mem_freeBlockP {k : Kernel} {header footer a : ℕ} {left : Memory × ℕ}
    (hleft : unifyLeft (setHeaderIsHole k.mem header true) header footer = left) :
    a ∈ (freeBlockP alloc k header footer).fields ↔ a = header + 4 ∨
      a ∈ (unifyLeftP (setHeaderIsHole k.mem header true) header footer).fields ∨
      a ∈ (unifyRightP { k with mem := left.1 } left.2 footer).fields ∨
      ∃ r, unifyRight { k with mem := left.1 } left.2 footer = .ok r ∧
        a ∈ (freeContractP alloc r.1 left.2 r.2).fields := by
  have hresult : (unifyLeftP (setHeaderIsHole k.mem header true) header footer).result = .ok left :=
    (unifyLeftP_result _ _ _).trans (congrArg _ hleft)
  obtain ⟨mem, header'⟩ := left
  unfold freeBlockP
  refine (Probed.mem_fields_bind_of_ok (result_probe _)).trans (or_congr (by simp) ?_)
  refine (Probed.mem_fields_bind_of_ok hresult).trans (or_congr_right ?_)
  dsimp only
  refine Probed.mem_fields_bind.trans (or_congr_right (exists_congr fun r => ?_))
  rw [unifyRightP_result]
  refine and_congr_right fun _ => ?_
  obtain ⟨k₁, footer'⟩ := r
  dsimp only
  refine Probed.mem_fields_bind.trans (or_iff_left ?_)
  rintro ⟨k₂, -, hlast⟩
  by_cases hlist : header' = header
  · rw [if_pos hlist] at hlast
    obtain hinsert | ⟨_, _, hrest⟩ := Probed.mem_fields_bind.mp hlast
    · exact absurd hinsert List.not_mem_nil
    · exact absurd hrest List.not_mem_nil
  · rw [if_neg hlist] at hlast
    exact absurd hlast List.not_mem_nil

/-! ### Fields below the end of the heap -/

/-- The bytes by which the heap becomes shorter when it is contracted to the magic number. -/
def lossToMagic (heap : Heap) : ℕ :=
  wsub (wsub heap.endAddr heap.startAddr) (contractLength heap heapMagic)

/-- The size behind the magic number after `unify_left` and `unify_right`. -/
def leftTotal (m : Memory) (B : Block) : ℕ :=
  if IsHoleAt m B.end_ then wadd (leftSize m B) (headerSize m B.end_) else leftSize m B

/-- The place of the footer that is written for the magic number. -/
def strayFooter (m : Memory) (heap : Heap) (B : Block) : ℕ :=
  wsub (wadd heapMagic (wsub (leftTotal m B) (lossToMagic heap))) sizeofFooter

/-- The magic number is taken for the header of a hole at the end of the heap, and the footer
written for it does not lie below the end of the heap. -/
def WritesBeyond (m : Memory) (heap : Heap) (B : Block) : Prop :=
  IsLeftFooter m B.addr ∧ AtEnd m heap B.addr ∧ lossToMagic heap < leftTotal m B ∧
    heap.endAddr ≤ strayFooter m heap B + 4

/-- The fields that a release accesses lie below the end of the heap. -/
def FieldsBelow (alloc : Alloc) (k : Kernel) (ptr : ℕ) : Prop :=
  ∀ a ∈ (freeP alloc k ptr).fields, a < k.heap.endAddr

/-- A contraction that gives up no page. -/
theorem contract_of_le {newSize length : ℕ}
    (hassert : wadd k.heap.startAddr newSize < k.heap.endAddr)
    (hlength : length = max (alignUp newSize) heapMinSize)
    (hle : wsub (wsub k.heap.endAddr k.heap.startAddr) pageSize ≤ length) :
    contract alloc k newSize = .ok (length,
      { k with heap := { k.heap with endAddr := wadd k.heap.startAddr length } }) := by
  unfold contract
  dsimp only
  generalize wsub (wsub k.heap.endAddr k.heap.startAddr) pageSize = last at hle ⊢
  refine assert_bind_eq_ok.mpr ⟨decide_eq_true hassert, ?_⟩
  have hclamp : (if alignUp newSize < heapMinSize then heapMinSize else alignUp newSize) =
      length := by
    rw [hlength]
    split_ifs <;> omega
  rw [hclamp, contractLoop, if_neg (not_lt.mpr hle), except_ok_bind]

section Fields

variable (hw : WellFormed k.mem k.heap blocks) (hB : B ∈ blocks)

include hw

/-- Contracting the heap to the magic number gives up no page. -/
theorem WellFormed.contract_magic {k₁ : Kernel} (hstart₁ : k₁.heap.startAddr = k.heap.startAddr)
    (hend₁ : k₁.heap.endAddr = k.heap.endAddr) : ∃ k₂,
    contract alloc k₁ (wsub heapMagic k₁.heap.startAddr) =
      .ok (contractLength k.heap heapMagic, k₂) ∧ k₂.mem = k₁.mem := by
  have hstart := hw.layout.start
  have hend := hw.layout.end_le
  have hmin := hw.inv.bounds.min_le
  have hlt := hw.inv.bounds.end_lt
  have hbase := hw.start_lt
  have hmagic : wadd k.heap.startAddr (wsub heapMagic k.heap.startAddr) = heapMagic := by
    rw [hstart]
    decide
  have hlength : contractLength k.heap heapMagic = 0xFEE7B000 := by
    rw [contractLength, hstart]
    decide
  have hold : wsub (wsub k.heap.endAddr k.heap.startAddr) pageSize =
      k.heap.endAddr - k.heap.startAddr - pageSize := by
    simp only [heapMinSize, pageSize] at hmin ⊢
    rw [wsub_eq (by omega) hlt, wsub_eq (by omega) (by omega)]
  refine ⟨_, contract_of_le ?_ (by rw [hstart₁, contractLength]) ?_, rfl⟩
  · rw [hstart₁, hend₁, hmagic]
    omega
  · rw [hstart₁, hend₁, hold, hlength]
    simp only [heapStart, heapMaxSize, heapIndexSize] at hstart hend
    omega

include hB

/-- `unify_right` returns when the block does not end where the heap ends. -/
theorem WellFormed.exists_unifyRight {mem : Memory} (hne : B.end_ ≠ k.heap.endAddr)
    (hstore : ∀ x, k.heap.index.array ≤ x → x < k.heap.startAddr → mem x = k.mem x)
    (hbehind : ∀ x, B.end_ ≤ x → mem x = k.mem x)
    (haway : header + sizeofHeader ≤ k.heap.index.array ∨
      k.heap.startAddr ≤ header ∧ header + sizeofHeader ≤ B.end_) :
    ∃ r, unifyRight { k with mem } header (B.end_ - sizeofFooter) = .ok r := by
  have hstorage := hw.inv.bounds.storage
  have hmax := hw.inv.index.size_le
  have hlt := hw.inv.bounds.end_lt
  obtain ⟨hstart, hsize, hend⟩ := hw.inv.of_mem hB
  have hB_end : B.end_ = B.addr + B.size := rfl
  simp only [minBlock, sizeofHeader, sizeofFooter] at hsize haway
  have hnext : wadd (B.end_ - sizeofFooter) sizeofFooter = B.end_ := by
    rw [sizeofFooter, wadd_eq (by omega)]
    omega
  unfold unifyRight
  dsimp only
  rw [hnext]
  by_cases hright : headerMagic mem B.end_ = heapMagic ∧ headerIsHole mem B.end_ = true
  · rw [if_pos hright]
    generalize wadd (headerSize mem header) (headerSize mem B.end_) = size
    -- The block behind is a hole, so the index lists it.
    obtain ⟨C, hC, haddr⟩ := hw.exists_right hB hne
    have htag : C.tag = true := by
      rw [← (hw.inv.headers C hC).isHole, haddr, headerIsHole, ← hbehind _ (by omega),
        ← headerIsHole]
      exact hright.2
    have hlisted : B.end_ ∈ elems k.mem k.heap.index := by
      have hmem := hw.inv.index.perm.symm.subset (mem_holes.mpr ⟨C, hC, htag, haddr⟩)
      exact (List.mem_filter.mp hmem).1
    obtain ⟨i, hi, hslot⟩ := mem_elems.mp hlisted
    have hslot' : slot (setHeaderSize mem header size) k.heap.index i = B.end_ := by
      rw [← hslot]
      refine slot_congr fun x hx hx' => ?_
      rw [setHeaderSize_apply_of_notMem (by omega), hstore x (by omega) (by omega)]
    cases hfind : findHeaderIndex (setHeaderSize mem header size) k.heap B.end_ with
    | none =>
      have hnot := List.find?_eq_none.mp hfind i (List.mem_range.mpr hi)
      simp [hslot'] at hnot
    | some j => exact ⟨_, rfl⟩
  · rw [if_neg hright]
    exact ⟨_, rfl⟩

/-- The fields that the release of a block in use accesses. -/
theorem WellFormed.mem_freeP (htag : B.tag = false) {left : Memory × ℕ} {a : ℕ}
    (hleft : unifyLeft (setHeaderIsHole k.mem B.addr true) B.addr (B.end_ - sizeofFooter) = left) :
    a ∈ (freeP alloc k (B.addr + sizeofHeader)).fields ↔
      (a = B.addr + 8 ∨ a = B.end_ - sizeofFooter + 4 ∨ a = B.addr ∨ a = B.end_ - sizeofFooter ∨
        a = B.addr + 4) ∨
      a ∈ (unifyLeftP (setHeaderIsHole k.mem B.addr true) B.addr (B.end_ - sizeofFooter)).fields ∨
      a ∈ (unifyRightP { k with mem := left.1 } left.2 (B.end_ - sizeofFooter)).fields ∨
      ∃ r, unifyRight { k with mem := left.1 } left.2 (B.end_ - sizeofFooter) = .ok r ∧
        a ∈ (freeContractP alloc r.1 left.2 r.2).fields := by
  have hlt := hw.inv.bounds.end_lt
  obtain ⟨hstart, hsize, hend⟩ := hw.inv.of_mem hB
  have hB_end : B.end_ = B.addr + B.size := rfl
  have hpos := hw.inv.bounds.start_pos
  have hfooterAt := hw.footers B hB (.inl htag)
  simp only [minBlock, sizeofHeader, sizeofFooter] at hsize
  have hfooter : assocFooter k.mem B.addr = B.end_ - sizeofFooter := by
    rw [assocFooter, hw.headerSize_eq hB, wadd_eq (by omega), hB_end, sizeofFooter,
      wsub_eq (by omega) (by omega)]
  have hptr : headerFor (B.addr + sizeofHeader) = B.addr :=
    headerFor_eq (by simp only [sizeofHeader]; omega)
  have hne : B.addr + sizeofHeader ≠ 0 := Nat.succ_ne_zero _
  have hchecks : (freeChecksP k.mem B.addr (B.end_ - sizeofFooter)).result = .ok () :=
    (freeChecksP_result _ _ _).trans (freeChecks_eq_ok.mpr
      ⟨hfooterAt.header, (hw.inv.headers B hB).magic, hfooterAt.magic⟩)
  have hfields := mem_freeChecksP (a := a) hfooterAt.header (hw.inv.headers B hB).magic
  unfold freeP
  rw [if_neg hne]
  dsimp only
  rw [hptr, hfooter]
  refine (Probed.mem_fields_bind_of_ok (result_probe _)).trans ?_
  refine (or_congr_right ((Probed.mem_fields_bind_of_ok hchecks).trans
    (or_congr hfields (mem_freeBlockP hleft)))).trans ?_
  rw [fields_probe, List.mem_singleton]
  simp only [or_assoc]

/-- The fields that `unify_left` accesses lie below the end of the heap. -/
theorem WellFormed.unifyLeftP_below {a : ℕ}
    (h : a ∈ (unifyLeftP (setHeaderIsHole k.mem B.addr true) B.addr
      (B.end_ - sizeofFooter)).fields) : a < k.heap.endAddr := by
  obtain ⟨hstart, hsize, hend⟩ := hw.inv.of_mem hB
  have hbase := hw.start_lt
  have hlt := hw.end_lt
  have hB_end : B.end_ = B.addr + B.size := rfl
  simp only [minBlock, sizeofHeader, sizeofFooter] at hsize hbase
  obtain ⟨hmagic, hheader⟩ := hw.left_mark hB
  have hloc : wsub B.addr sizeofHeader = B.addr - 12 := by
    rw [sizeofHeader, wsub_eq (by omega) (by omega)]
  have hcases := mem_unifyLeftP h
  rw [hmagic, hheader] at hcases
  rcases hcases with h | ⟨hleft, h⟩
  · omega
  · rw [(hw.left_footer hB hleft).1, hloc] at h
    simp only [sizeofFooter] at h
    omega

/-- So do those that `unify_right` accesses when the heap goes on behind the block. -/
theorem WellFormed.unifyRightP_below {mem : Memory} {a : ℕ} (hne : B.end_ ≠ k.heap.endAddr)
    (hheader : header + sizeofHeader ≤ B.end_)
    (h : a ∈ (unifyRightP { k with mem } header (B.end_ - sizeofFooter)).fields) :
    a < k.heap.endAddr := by
  obtain ⟨C, hC, haddr⟩ := hw.exists_right hB hne
  obtain ⟨hstart, hsize, hend⟩ := hw.inv.of_mem hC
  have hlt := hw.end_lt
  have hbase := hw.start_lt
  simp only [minBlock, sizeofHeader, sizeofFooter] at hsize hheader hbase
  have hnext : wadd (B.end_ - sizeofFooter) sizeofFooter = B.end_ := by
    rw [sizeofFooter, wadd_eq (by omega)]
    omega
  have hcases := mem_unifyRightP h
  rw [hnext] at hcases
  omega

/-- And those that the end of `free` accesses when nothing is merged on the left. -/
theorem WellFormed.freeContractP_below {k₁ : Kernel} {footer' a : ℕ}
    (hunify : unifyRight { k with mem := setHeaderIsHole k.mem B.addr true } B.addr
      (B.end_ - sizeofFooter) = .ok (k₁, footer'))
    (h : a ∈ (freeContractP alloc k₁ B.addr footer').fields) : a < k.heap.endAddr := by
  obtain ⟨-, hfooter, hle, hge, hstart₁, hend₁, -, hmem₁, -, -⟩ := hw.unifyRight_quiet hB hunify
  obtain ⟨hstart, hsize, hend⟩ := hw.inv.of_mem hB
  obtain ⟨hle', hmin, hle''⟩ := hw.contractedEnd_bounds hB
  have hlt := hw.inv.bounds.end_lt
  have hstorage := hw.inv.bounds.storage
  have hmax := hw.inv.index.size_le
  simp only [minBlock, sizeofHeader, sizeofFooter, heapMinSize] at hsize hmin
  obtain ⟨hend', ⟨newLength, k₂⟩, hcontract, h⟩ := mem_freeContractP.mp h
  obtain ⟨hlength, hmem₂, -, -⟩ := contract_spec hcontract
  rw [hstart₁, wsub_eq hstart (by omega), ← contractedLength] at hlength
  rcases mem_resizeOrDropP.mp h with h | ⟨hkeep, newFooter, hnewFooter, h⟩
  · omega
  have hsize₂ : headerSize k₂.mem B.addr = mergedSize k.mem B.addr := by
    rw [hmem₂, headerSize_congr fun x hx _ => hmem₁ x (by omega), headerSize_mergedMem (by omega)]
  rw [hsize₂, hend₁, hstart₁] at hkeep hnewFooter
  simp only at hkeep hnewFooter hlength
  rw [hlength] at hkeep hnewFooter
  have hnewEnd : contractedEnd k.heap B.addr = k.heap.startAddr + contractedLength k.heap B.addr :=
    rfl
  have hatEnd : B.addr + mergedSize k.mem B.addr = k.heap.endAddr := by
    rw [← hend₁, ← hend', wadd_eq (by omega), hfooter]
  have hloss : wsub (wsub k.heap.endAddr k.heap.startAddr) (contractedLength k.heap B.addr) =
      k.heap.endAddr - contractedEnd k.heap B.addr := by
    rw [wsub_eq (by omega) hlt, wsub_eq (by omega) (by omega)]
    omega
  rw [hloss] at hkeep hnewFooter
  rw [wsub_eq hkeep.le (by omega), wadd_eq (by omega), sizeofFooter,
    wsub_eq (by omega) (by omega)] at hnewFooter
  omega

/-- The state after `unify_right` when the magic number was taken for a header. -/
theorem WellFormed.unifyRight_magic (htag : B.tag = false) {k₁ : Kernel} {footer' : ℕ}
    (h : unifyRight { k with mem := setHeaderSize (leftMem k.mem B) heapMagic (leftSize k.mem B) }
      heapMagic (B.end_ - sizeofFooter) = .ok (k₁, footer')) :
    (wadd footer' sizeofFooter = k.heap.endAddr ↔ AtEnd k.mem k.heap B.addr) ∧
      k₁.heap.startAddr = k.heap.startAddr ∧ k₁.heap.endAddr = k.heap.endAddr ∧
      headerSize k₁.mem heapMagic = leftTotal k.mem B := by
  have hmagic := heapMagic_add_lt_heapStart
  have hlt := hw.inv.bounds.end_lt
  have harray := hw.layout.array
  simp only [sizeofHeader] at hmagic
  have hmem : ∀ x, heapStart ≤ x →
      setHeaderSize (leftMem k.mem B) heapMagic (leftSize k.mem B) x =
        leftMem k.mem B x := fun x hx =>
    setHeaderSize_apply_of_notMem (by omega)
  obtain ⟨hfooter, hle, hstart₁, hend₁, -⟩ := hw.unifyRight_left hB htag hmem h
  refine ⟨by rw [wadd_eq (by omega), hfooter, AtEnd], hstart₁, hend₁, ?_⟩
  have hbase := hw.start_lt
  have hstorage := hw.inv.bounds.storage
  obtain ⟨hstart, hsize, hend⟩ := hw.inv.of_mem hB
  have hB_end : B.end_ = B.addr + B.size := rfl
  have hown : headerSize (setHeaderSize (leftMem k.mem B) heapMagic (leftSize k.mem B)) heapMagic =
      leftSize k.mem B := headerSize_setHeaderSize (wadd_lt _ _)
  simp only [sizeofHeader] at hbase
  rw [leftTotal]
  rcases hw.unifyRight_effect hB
      (fun x hx hx' => (hmem x (by omega)).trans (leftMem_apply_of_lt hw hB (by omega)))
      (fun x hx => (hmem x (by omega)).trans (leftMem_apply_of_le hw hB hx))
      (.inl (by simp only [sizeofHeader]; omega)) h with
    ⟨hright, R, hR, -, haddr, -, mem', i, hmem', hi, -, -, hk₁, -⟩ | ⟨hright, hk₁, -, -⟩
  · have hRsize : headerSize k.mem B.end_ = R.size := haddr ▸ (hw.inv.headers R hR).size
    rw [if_pos hright, hRsize, hk₁, headerSize_congr fun x _ hx =>
      (orderedArrayRemove_spec hi.le).2.2 x (.inl (by omega)), hmem', hown]
    exact headerSize_setHeaderSize (wadd_lt _ _)
  · rw [if_neg hright, hk₁, hown]

/-- The fields behind `unify_right` when the magic number was taken for a header. -/
theorem WellFormed.mem_freeContractP_magic (htag : B.tag = false) {m₁ : Memory} {a : ℕ}
    (hne : B.end_ ≠ k.heap.endAddr)
    (hm₁ : m₁ = setHeaderSize (leftMem k.mem B) heapMagic (leftSize k.mem B)) :
    (∃ r, unifyRight { k with mem := m₁ } heapMagic (B.end_ - sizeofFooter) = .ok r ∧
        a ∈ (freeContractP alloc r.1 heapMagic r.2).fields) ↔
      AtEnd k.mem k.heap B.addr ∧ (a = heapMagic + 8 ∨ lossToMagic k.heap < leftTotal k.mem B ∧
        (a = strayFooter k.mem k.heap B ∨ a = strayFooter k.mem k.heap B + 4)) := by
  have hmagic := heapMagic_add_lt_heapStart
  have harray := hw.layout.array
  have hbase := hw.start_lt
  obtain ⟨hstart, hsize, hend⟩ := hw.inv.of_mem hB
  have hstorage := hw.inv.bounds.storage
  have hB_end : B.end_ = B.addr + B.size := rfl
  have hmem : ∀ x, heapStart ≤ x → m₁ x = leftMem k.mem B x := fun x hx => by
    rw [hm₁, setHeaderSize_apply_of_notMem (by simp only [sizeofHeader] at hmagic; omega)]
  have haway : heapMagic + sizeofHeader ≤ k.heap.index.array ∨
      k.heap.startAddr ≤ heapMagic ∧ heapMagic + sizeofHeader ≤ B.end_ := .inl (by omega)
  obtain ⟨⟨k₁, footer'⟩, hunify⟩ := hw.exists_unifyRight hB hne
    (fun x hx hx' => (hmem x (by omega)).trans (leftMem_apply_of_lt hw hB (by omega)))
    (fun x hx => (hmem x (by omega)).trans (leftMem_apply_of_le hw hB hx)) haway
  have hstate := hw.unifyRight_magic hB htag (hm₁ ▸ hunify)
  obtain ⟨hatEnd, hstart₁, hend₁, hsize₁⟩ := hstate
  obtain ⟨k₂, hcontract, hmem₂⟩ : ∃ k₂, contract alloc k₁ (wsub heapMagic k₁.heap.startAddr) =
      .ok (contractLength k.heap heapMagic, k₂) ∧ k₂.mem = k₁.mem := hw.contract_magic hstart₁ hend₁
  have hfields : a ∈ (freeContractP alloc k₁ heapMagic footer').fields ↔
      AtEnd k.mem k.heap B.addr ∧ (a = heapMagic + 8 ∨ lossToMagic k.heap < leftTotal k.mem B ∧
        (a = strayFooter k.mem k.heap B ∨ a = strayFooter k.mem k.heap B + 4)) := by
    refine (mem_freeContractP_of_ok hcontract).trans (and_congr (by rw [hend₁, hatEnd]) ?_)
    rw [hend₁, hstart₁, ← lossToMagic, mem_resizeOrDropP, hmem₂, hsize₁, ← strayFooter,
      exists_eq_left]
  refine Iff.trans ⟨?_, fun h => ⟨_, hunify, h⟩⟩ hfields
  rintro ⟨r, hr, h⟩
  obtain rfl := Except.ok.inj (hunify.symm.trans hr)
  exact h

/-- The release of a block that ends where the heap ends reads what lies behind the heap. -/
theorem WellFormed.not_fieldsBelow_of_end (htag : B.tag = false) (hend : B.end_ = k.heap.endAddr) :
    ¬FieldsBelow alloc k (B.addr + sizeofHeader) := by
  intro hbelow
  obtain ⟨-, hsize, -⟩ := hw.inv.of_mem hB
  have hlt := hw.inv.bounds.end_lt
  have hB_end : B.end_ = B.addr + B.size := rfl
  simp only [minBlock, sizeofHeader, sizeofFooter] at hsize
  have hnext : wadd (B.end_ - sizeofFooter) sizeofFooter = B.end_ := by
    rw [sizeofFooter, wadd_eq (by omega)]
    omega
  have hbehind := behind_mem_unifyRightP
    { k with mem := (unifyLeft (setHeaderIsHole k.mem B.addr true) B.addr
      (B.end_ - sizeofFooter)).1 }
    (unifyLeft (setHeaderIsHole k.mem B.addr true) B.addr (B.end_ - sizeofFooter)).2
    (B.end_ - sizeofFooter)
  have hfield := hbelow _ ((hw.mem_freeP hB htag rfl).mpr (.inr (.inr (.inl hbehind))))
  omega

/-- **The fields that a release accesses lie below the end of the heap** exactly when the block does
not end there, and no footer is written beyond it. -/
theorem WellFormed.fieldsBelow_iff (htag : B.tag = false) :
    FieldsBelow alloc k (B.addr + sizeofHeader) ↔
      B.end_ ≠ k.heap.endAddr ∧ ¬WritesBeyond k.mem k.heap B := by
  obtain ⟨hstart, hsize, hend⟩ := hw.inv.of_mem hB
  have hbase := hw.start_lt
  have hlt := hw.inv.bounds.end_lt
  have hB_end : B.end_ = B.addr + B.size := rfl
  simp only [minBlock, sizeofHeader, sizeofFooter] at hsize hbase
  by_cases hne : B.end_ = k.heap.endAddr
  · exact iff_of_false (hw.not_fieldsBelow_of_end hB htag hne) fun hcond => hcond.1 hne
  rw [ne_eq, and_iff_right hne]
  by_cases hleft : IsLeftFooter k.mem B.addr
  · -- The magic number is taken for the header of the hole on the left.
    have hfree : ∀ a, a ∈ (freeP alloc k (B.addr + sizeofHeader)).fields ↔ _ := fun a =>
      (hw.mem_freeP hB htag (hw.unifyLeft_magic hB hleft)).trans (or_congr_right (or_congr_right
        (or_congr_right (hw.mem_freeContractP_magic hB htag hne rfl))))
    refine ⟨fun hbelow hwrites => ?_, fun hnot a ha => ?_⟩
    · obtain ⟨-, hatEnd, hloss, hbeyond⟩ := hwrites
      have hfield := hbelow _ ((hfree _).mpr (.inr (.inr (.inr ⟨hatEnd, .inr ⟨hloss, .inr rfl⟩⟩))))
      omega
    rcases (hfree a).mp ha with h | h | h | ⟨hatEnd, h⟩
    · simp only [sizeofFooter] at h
      omega
    · exact hw.unifyLeftP_below hB h
    · exact hw.unifyRightP_below hB hne (by simp only [sizeofHeader]; omega) h
    · rcases h with h | ⟨hloss, h⟩
      · omega
      · by_contra hbeyond
        exact hnot ⟨hleft, hatEnd, hloss, by omega⟩
  · refine iff_of_true (fun a ha => ?_) fun hwrites => hleft hwrites.1
    have hunifyLeft : unifyLeft (setHeaderIsHole k.mem B.addr true) B.addr
        (B.end_ - sizeofFooter) = (setHeaderIsHole k.mem B.addr true, B.addr) :=
      unifyLeft_of_not fun hmark => hleft ((hw.isLeftFooter_mark hB).mp hmark)
    rcases (hw.mem_freeP hB htag hunifyLeft).mp ha with h | h | h | ⟨⟨k₁, footer'⟩, hunify, h⟩
    · simp only [sizeofFooter] at h
      omega
    · exact hw.unifyLeftP_below hB h
    · exact hw.unifyRightP_below hB hne (by simp only [sizeofHeader]; omega) h
    · exact hw.freeContractP_below hB hunify h

end Fields

/-- The release of the first of two small blocks accesses fields below the end of the heap. -/
theorem fieldsBelow_two_blocks : ∃ k B, WellFormed k.mem k.heap twoBlocks ∧ B ∈ twoBlocks ∧
    B.tag = false ∧ FieldsBelow (Mem.alloc 0) k (B.addr + sizeofHeader) := by
  obtain ⟨k, k', hw, hfree, htest⟩ := @exists_release twoBlocks ⟨firstHole.addr, 120, false⟩
    [(100, false), (100, false)]
    (fun k _ => decide (k.heap.endAddr ≠ firstHole.addr + 120) &&
      decide (¬IsLeftFooter k.mem firstHole.addr)) (by decide +kernel)
  simp only [Bool.and_eq_true, decide_eq_true_eq] at htest
  have hB : (⟨firstHole.addr, 120, false⟩ : Block) ∈ twoBlocks := List.mem_cons_self
  exact ⟨k, ⟨firstHole.addr, 120, false⟩, hw, hB, rfl,
    (hw.fieldsBelow_iff hB rfl).mpr ⟨htest.1.symm, fun hwrites => htest.2 hwrites.1⟩⟩

/-- The first heap with all of it in use. -/
def wholeHeap : List Block := [⟨firstHole.addr, firstHole.size, false⟩]

/-- **What lies behind the heap is read** when the last block is released. -/
theorem free_looks_behind_heap : ∃ k blocks B, WellFormed k.mem k.heap blocks ∧ B ∈ blocks ∧
    B.tag = false ∧ ¬FieldsBelow (Mem.alloc 0) k (B.addr + sizeofHeader) := by
  obtain ⟨k, k', hw, -, htest⟩ := @exists_release wholeHeap ⟨firstHole.addr, firstHole.size, false⟩
    [(firstHole.size - minBlock, false)]
    (fun k _ => decide (firstHole.addr + firstHole.size = k.heap.endAddr)) (by decide +kernel)
  have hB : (⟨firstHole.addr, firstHole.size, false⟩ : Block) ∈ wholeHeap := List.mem_cons_self
  exact ⟨k, wholeHeap, _, hw, hB, rfl, hw.not_fieldsBelow_of_end hB rfl (of_decide_eq_true htest)⟩

end Studix.Mem
