import Studix.Mem.Heap

/-!
# The allocator

Model of `src/mem/alloc.c`. `alloc` takes a hole of the index, splits it and writes the headers and
footers of the pieces; when no hole is large enough it makes the heap grow and calls itself again.
The growth may need a page table, which is allocated by a nested call, so `alloc` is run with a
bound on the depth of its calls.

## Main definitions

* `makeSpace`, `alloc`, `free`.
-/

namespace Studix.Mem

/-- Write an index and a memory back to the state. -/
def Kernel.setIndex (k : Kernel) (mem : Memory) (index : OrderedArray) : Kernel :=
  { k with mem, heap := { k.heap with index } }

@[simp] theorem Kernel.setIndex_mem (k : Kernel) (mem : Memory) (index : OrderedArray) :
    (k.setIndex mem index).mem = mem := rfl

@[simp] theorem Kernel.setIndex_heap (k : Kernel) (mem : Memory) (index : OrderedArray) :
    (k.setIndex mem index).heap = { k.heap with index } := rfl

/-- The loop of `make_space` over the index: `header_index` and `value` after its first `n`
entries; `none` stands for -1. -/
def lastHeader (m : Memory) (index : OrderedArray) : ℕ → Option ℕ × ℕ
  | 0 => (none, 0)
  | n + 1 =>
    let (headerIndex, value) := lastHeader m index n
    let tmp := slot m index n
    if value < tmp then (some (headerIndex.elim 0 (· + 1)), tmp) else (headerIndex, value)

/-- Give a block another size and write the footer at its new end. -/
def resizeBlock (m : Memory) (header size : ℕ) : Memory :=
  let m := setHeaderSize m header size
  makeFooter m (assocFooter m header) header

/-- Make a hole of new memory. -/
def makeHole (m : Memory) (loc size : ℕ) : Memory :=
  let m := makeHeader m loc size true
  makeFooter m (wsub (wadd loc (headerSize m loc)) sizeofFooter) loc

/-- The end of `make_space`: the last header gets the new memory, or there is a new hole. -/
def addSpace (k : Kernel) (oldEndAddr growth : ℕ) : Except Stop Kernel :=
  match (lastHeader k.mem k.heap.index k.heap.index.size).1 with
  | some headerIndex => do
    let header ← orderedArrayLookup k.mem k.heap.index headerIndex
    .ok { k with mem := resizeBlock k.mem header (wadd (headerSize k.mem header) growth) }
  | none => do
    let mem := makeHole k.mem oldEndAddr growth
    let (mem, index) ← orderedArrayInsert mem k.heap.index oldEndAddr
    .ok (k.setIndex mem index)

/-- `make_space`. -/
def makeSpace (alloc : Alloc) (k : Kernel) (neededSize : ℕ) : Except Stop Kernel := do
  let oldEndAddr := k.heap.endAddr
  let oldLength := wsub oldEndAddr k.heap.startAddr
  let k ← expand alloc k (wadd oldLength neededSize)
  let newLength := wsub k.heap.endAddr k.heap.startAddr
  addSpace k oldEndAddr (wsub newLength oldLength)

/-- The location at which `alloc` puts an aligned block in a hole. -/
def newHoleLoc (origHolePos : ℕ) : ℕ :=
  wsub (wsub (wadd origHolePos pageSize) (origHolePos &&& 0xFFF)) sizeofHeader

/-- Make a new hole of the gap in front of an aligned block. -/
def makeGap (m : Memory) (origHolePos loc : ℕ) : Memory :=
  let m := makeHeader m origHolePos (wsub loc origHolePos) true
  makeFooter m (wsub loc sizeofFooter) origHolePos

/-- The header and the footer of the new block. -/
def makeBlock (m : Memory) (pos totalBlockSize : ℕ) : Memory :=
  let m := makeHeader m pos totalBlockSize false
  makeFooter m (wsub (wadd pos totalBlockSize) sizeofFooter) pos

/-- Make a hole of what is left behind the block. It gets a footer unless it ends at the end of the
heap. -/
def makeRest (m : Memory) (heap : Heap) (pos size : ℕ) : Memory :=
  let m := makeHeader m pos size true
  let footer := assocFooter m pos
  if wadd footer sizeofFooter < heap.endAddr then
    store32 (store32 m footer heapMagic) (footer + 4) pos
  else m

/-- `alloc` from the place of the new block on: write the block, and make a hole of what is left of
the memory behind it. -/
def placeBlock (k : Kernel) (mem : Memory) (index : OrderedArray)
    (pos holeSize totalBlockSize : ℕ) : Except Stop (ℕ × Kernel) :=
  let mem := makeBlock mem pos totalBlockSize
  if totalBlockSize < holeSize then do
    let newHole := wadd pos totalBlockSize
    let mem := makeRest mem k.heap newHole (wsub holeSize totalBlockSize)
    let (mem, index) ← orderedArrayInsert mem index newHole
    .ok (wadd pos sizeofHeader, k.setIndex mem index)
  else .ok (wadd pos sizeofHeader, k.setIndex mem index)

/-- `alloc` from the hole with index `i` on. -/
def allocFrom (k : Kernel) (totalBlockSize : ℕ) (align : Bool) (i : ℕ) :
    Except Stop (ℕ × Kernel) := do
  let origHolePos ← orderedArrayLookup k.mem k.heap.index i
  let origHoleSize := headerSize k.mem origHolePos
  -- Don't split the hole if the other half wouldn't be big enough. The size of the payload is
  -- adjusted too, but not used any more.
  let totalBlockSize :=
    if wsub origHoleSize totalBlockSize < sizeofHeader + sizeofFooter then origHoleSize
    else totalBlockSize
  if align ∧ ¬aligned (wadd origHolePos sizeofHeader) then
    -- The gap in front of an aligned block takes the place of the hole in the index.
    let loc := newHoleLoc origHolePos
    let mem := makeGap k.mem origHolePos loc
    placeBlock k mem k.heap.index loc (wsub origHoleSize (headerSize mem origHolePos))
      totalBlockSize
  else
    let (mem, index) := orderedArrayRemove k.mem k.heap.index i
    placeBlock k mem index origHolePos origHoleSize totalBlockSize

/-- `alloc`, with calls nested at most `depth` deep. -/
def alloc : ℕ → Alloc
  | 0 => fun _ _ _ => .error .unfinished
  | depth + 1 => fun k size align =>
    let totalBlockSize := wadd (wadd size sizeofHeader) sizeofFooter
    match findSmallestHole k.mem k.heap totalBlockSize align with
    | none => do
      let k ← makeSpace (alloc depth) k totalBlockSize
      alloc depth k size align
    | some i => allocFrom k totalBlockSize align i

/-- `unify_left`: the memory and the header. -/
def unifyLeft (m : Memory) (header footer : ℕ) : Memory × ℕ :=
  let potentialFooter := wsub header sizeofHeader
  if footerMagic m potentialFooter = heapMagic ∧
      headerIsHole m (footerHeader m potentialFooter) then
    let currSize := headerSize m header
    let header := footerHeader m potentialFooter
    let m := setFooterHeader m footer header
    (setHeaderSize m header (wadd (headerSize m header) currSize), header)
  else (m, header)

/-- `unify_right`: the state and the footer. -/
def unifyRight (k : Kernel) (header footer : ℕ) : Except Stop (Kernel × ℕ) :=
  let potentialHeader := wadd footer sizeofFooter
  if headerMagic k.mem potentialHeader = heapMagic ∧ headerIsHole k.mem potentialHeader then
    let mem := setHeaderSize k.mem header
      (wadd (headerSize k.mem header) (headerSize k.mem potentialHeader))
    let footer := wsub (wadd potentialHeader (headerSize mem potentialHeader)) sizeofFooter
    match findHeaderIndex mem k.heap potentialHeader with
    | none => .error (.assertFailed "i != -1")
    | some i =>
      let (mem, index) := orderedArrayRemove mem k.heap.index i
      .ok (k.setIndex mem index, footer)
  else .ok (k, footer)

/-- The end of `free`: contract the heap if the hole is at its end. -/
def freeContract (alloc : Alloc) (k : Kernel) (header footer : ℕ) : Except Stop Kernel :=
  if wadd footer sizeofFooter = k.heap.endAddr then do
    let oldLength := wsub k.heap.endAddr k.heap.startAddr
    let (newLength, k) ← contract alloc k (wsub header k.heap.startAddr)
    if wsub oldLength newLength < headerSize k.mem header then
      .ok { k with
        mem := resizeBlock k.mem header
          (wsub (headerSize k.mem header) (wsub oldLength newLength)) }
    else
      match findHeaderIndex k.mem k.heap header with
      | none => .ok k
      | some i =>
        let (mem, index) := orderedArrayRemove k.mem k.heap.index i
        .ok (k.setIndex mem index)
  else .ok k

/-- `free` behind its sanity checks. -/
def freeBlock (alloc : Alloc) (k : Kernel) (origHeader footer : ℕ) : Except Stop Kernel := do
  let left := unifyLeft (setHeaderIsHole k.mem origHeader true) origHeader footer
  let (k, footer) ← unifyRight { k with mem := left.1 } left.2 footer
  let k ← freeContract alloc k left.2 footer
  if left.2 = origHeader then do
    let (mem, index) ← orderedArrayInsert k.mem k.heap.index left.2
    .ok (k.setIndex mem index)
  else .ok k

/-- The sanity checks of `free`. -/
def freeChecks (m : Memory) (header footer : ℕ) : Except Stop Unit := do
  assert (footerHeader m footer = header) "footer->header == header"
  assert (headerMagic m header = heapMagic) "header->magic == HEAP_MAGIC"
  assert (footerMagic m footer = heapMagic) "footer->magic == HEAP_MAGIC"

/-- `free`. -/
def free (alloc : Alloc) (k : Kernel) (ptr : ℕ) : Except Stop Kernel :=
  if ptr = 0 then .ok k
  else
    let origHeader := headerFor ptr
    let footer := assocFooter k.mem origHeader
    freeChecks k.mem origHeader footer >>= fun _ => freeBlock alloc k origHeader footer

end Studix.Mem
