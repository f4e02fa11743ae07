import Studix.Base.Loop

/-!
# Flat byte memory

Memory is a map from addresses to bytes. One operation changes it: `blit m a n f` writes the `n`
bytes `f 0, …, f (n - 1)` at address `a`; `memset`, `memcpy` and the little-endian stores are blits.
Multi-byte values are read by `loadLE` and written by `storeLE`, low byte first.

A statement that a computation keeps a range of memory is `Set.EqOn m m' (Set.Ico a b)`.

## Main definitions

* `Memory`, `blit`, `memset`, `memcpy`, `readBytes`.
* `loadLE`, `storeLE` and their four-byte cases `load32`, `store32`; `leBytes`.
* `Traced`: a memory that records what is accessed.

## Main results

* `loadLE_storeLE`: a load at the address of a store gives the stored value.
* `loadLE_blit_of_disjoint`, `eqOn_blit`: a blit keeps what lies beside it.
* `loadLE_congr`: a load depends only on the bytes it reads.
-/

namespace Studix

/-- A byte of memory. -/
abbrev Byte := BitVec 8

/-- A flat memory. -/
abbrev Memory := ℕ → Byte

/-- Write the `n` bytes `f 0, …, f (n - 1)` at address `a`. -/
def blit (m : Memory) (a n : ℕ) (f : ℕ → Byte) : Memory :=
  fun x => if a ≤ x ∧ x < a + n then f (x - a) else m x

/-- `memset(a, c, n)`. -/
def memset (m : Memory) (a : ℕ) (c : Byte) (n : ℕ) : Memory := blit m a n fun _ => c

/-- `memcpy(dest, src, n)` between ranges that do not overlap. -/
def memcpy (m : Memory) (dest src n : ℕ) : Memory := blit m dest n fun i => m (src + i)

/-- The `n` bytes at address `a`. -/
def readBytes (m : Memory) (a n : ℕ) : List Byte := (List.range n).map fun i => m (a + i)

/-- The `n`-byte little-endian value at address `a`. -/
def loadLE (m : Memory) (a : ℕ) : ℕ → ℕ
  | 0 => 0
  | n + 1 => (m a).toNat + 256 * loadLE m (a + 1) n

/-- Write the low `n` bytes of `v` at address `a`, low byte first. -/
def storeLE (m : Memory) (a n v : ℕ) : Memory := blit m a n fun i => BitVec.ofNat 8 (v / 256 ^ i)

/-- The `n` low bytes of `v`, low byte first. -/
def leBytes (n v : ℕ) : List Byte := (List.range n).map fun i => BitVec.ofNat 8 (v / 256 ^ i)

/-- The 32-bit value at address `a`. -/
def load32 (m : Memory) (a : ℕ) : ℕ := loadLE m a 4

/-- Write the 32-bit value `v` at address `a`. -/
def store32 (m : Memory) (a v : ℕ) : Memory := storeLE m a 4 v

/-- A memory with the record of its accesses, the latest first. -/
structure Traced (α : Type*) where
  mem : Memory
  log : List α

/-! ### Blits -/

section Blit

variable (m : Memory) (f : ℕ → Byte) {a n x b k : ℕ}

theorem blit_apply_of_mem (h : a ≤ x ∧ x < a + n) : blit m a n f x = f (x - a) := by
  simp [blit, h]

theorem blit_apply_of_notMem (h : x < a ∨ a + n ≤ x) : blit m a n f x = m x := by
  have hx : ¬(a ≤ x ∧ x < a + n) := by omega
  simp [blit, hx]

@[simp] theorem blit_apply_add (h : b < n) : blit m a n f (a + b) = f b := by
  rw [blit_apply_of_mem m f (by omega), Nat.add_sub_cancel_left]

/-- A byte after a blit depends on that byte before it. -/
theorem blit_congr_apply {m m' : Memory} (h : m x = m' x) : blit m a n f x = blit m' a n f x := by
  simp only [blit, h]

/-- A blit keeps every range beside it. -/
theorem eqOn_blit (h : b ≤ a ∨ a + n ≤ k) : Set.EqOn (blit m a n f) m (Set.Ico k b) := by
  intro x hx
  have hx := Set.mem_Ico.mp hx
  exact blit_apply_of_notMem m f (by omega)

end Blit

/-! ### Little-endian values -/

section LittleEndian

variable {m m' : Memory} {a b n k v : ℕ}

/-- Equal bytes are loaded as equal values, wherever they lie. -/
theorem loadLE_eq_of_bytes (h : ∀ i < n, m (a + i) = m' (b + i)) :
    loadLE m a n = loadLE m' b n := by
  induction n generalizing a b with
  | zero => rfl
  | succ n ih =>
    have hhead : m a = m' b := h 0 (Nat.succ_pos n)
    have htail : loadLE m (a + 1) n = loadLE m' (b + 1) n := by
      refine ih fun i hi => ?_
      rw [Nat.add_assoc, Nat.add_assoc, Nat.add_comm 1 i]
      exact h (i + 1) (Nat.succ_lt_succ hi)
    rw [loadLE, loadLE, hhead, htail]

/-- A load depends only on the bytes it reads. -/
theorem loadLE_congr (h : Set.EqOn m m' (Set.Ico a (a + n))) : loadLE m a n = loadLE m' a n :=
  loadLE_eq_of_bytes fun _ hi => h (Set.mem_Ico.mpr ⟨Nat.le_add_right _ _, by omega⟩)

/-- A load of more bytes, by its low and its high part. -/
theorem loadLE_add (m : Memory) (a n k : ℕ) :
    loadLE m a (n + k) = loadLE m a n + 256 ^ n * loadLE m (a + n) k := by
  induction n generalizing a with
  | zero => simp [loadLE]
  | succ n ih =>
    rw [Nat.succ_add, loadLE, loadLE, ih, pow_succ', show a + 1 + n = a + (n + 1) by omega]
    ring

theorem loadLE_lt (m : Memory) (a n : ℕ) : loadLE m a n < 256 ^ n := by
  induction n generalizing a with
  | zero => simp [loadLE]
  | succ n ih =>
    have hhead := (m a).isLt
    have htail := ih (a + 1)
    rw [loadLE, pow_succ]
    omega

theorem loadLE_blit_of_disjoint (f : ℕ → Byte) (h : a + n ≤ b ∨ b + k ≤ a) :
    loadLE (blit m b k f) a n = loadLE m a n :=
  loadLE_congr (eqOn_blit m f h)

theorem loadLE_bytes (h : ∀ i < n, m (a + i) = BitVec.ofNat 8 (v / 256 ^ i)) :
    loadLE m a n = v % 256 ^ n := by
  induction n generalizing a v with
  | zero => simp [loadLE, Nat.mod_one]
  | succ n ih =>
    have hhead : m a = BitVec.ofNat 8 v := by simpa using h 0 (Nat.succ_pos n)
    have htail : loadLE m (a + 1) n = v / 256 % 256 ^ n := by
      refine ih fun i hi => ?_
      rw [show a + 1 + i = a + (i + 1) by omega, h (i + 1) (by omega), pow_succ',
        Nat.div_div_eq_div_mul]
    have hsplit : v % 256 ^ (n + 1) = v % 256 + 256 * (v / 256 % 256 ^ n) := by
      rw [pow_succ', Nat.mod_mul]
    rw [loadLE, hhead, htail, hsplit]
    rfl

/-- **A load at the address of a store gives the stored value.** -/
theorem loadLE_storeLE : loadLE (storeLE m a n v) a n = v % 256 ^ n :=
  loadLE_bytes fun _ hi => blit_apply_add m _ hi

theorem load32_eq_zero (h : ∀ i < 4, m (a + i) = 0) : load32 m a = 0 := by
  rw [load32, loadLE_bytes (v := 0) fun i hi => by simpa using h i hi, Nat.zero_mod]

theorem load32_congr (h : Set.EqOn m m' (Set.Ico a (a + 4))) : load32 m a = load32 m' a :=
  loadLE_congr h

theorem load32_lt (m : Memory) (a : ℕ) : load32 m a < 2 ^ 32 := loadLE_lt m a 4

theorem store32_apply_add {i : ℕ} (hi : i < 4) :
    store32 m a v (a + i) = BitVec.ofNat 8 (v / 256 ^ i) := by
  rw [store32, storeLE, blit_apply_add m _ hi]

/-- A byte of a 32-bit value. -/
theorem toNat_byte (m : Memory) (a : ℕ) {i : ℕ} (hi : i < 4) :
    (m (a + i)).toNat = load32 m a / 256 ^ i % 256 := by
  simp only [load32, loadLE]
  have h₀ := (m a).isLt
  have h₁ := (m (a + 1)).isLt
  have h₂ := (m (a + 1 + 1)).isLt
  have h₃ := (m (a + 1 + 1 + 1)).isLt
  obtain rfl | rfl | rfl | rfl : i = 0 ∨ i = 1 ∨ i = 2 ∨ i = 3 := by omega
  all_goals simp only [Nat.add_zero, Nat.add_assoc, Nat.reduceAdd, Nat.reducePow] at *; omega

/-- A byte of a 32-bit value is not larger than the value. -/
theorem toNat_le_load32 (m : Memory) (a : ℕ) {i : ℕ} (hi : i < 4) :
    (m (a + i)).toNat ≤ load32 m a := by
  simp only [load32, loadLE]
  obtain rfl | rfl | rfl | rfl : i = 0 ∨ i = 1 ∨ i = 2 ∨ i = 3 := by omega
  all_goals simp only [Nat.add_zero, Nat.add_assoc, Nat.reduceAdd]; omega

theorem load32_store32 (hv : v < 2 ^ 32) : load32 (store32 m a v) a = v := by
  rw [load32, store32, loadLE_storeLE]
  exact Nat.mod_eq_of_lt hv

theorem load32_store32_of_disjoint (h : a + 4 ≤ b ∨ b + 4 ≤ a) :
    load32 (store32 m b v) a = load32 m a :=
  loadLE_blit_of_disjoint _ h

theorem store32_apply_of_notMem {x : ℕ} (h : x < a ∨ a + 4 ≤ x) : store32 m a v x = m x := by
  rw [store32, storeLE, blit_apply_of_notMem m _ h]

theorem store32_congr_apply {x : ℕ} (h : m x = m' x) : store32 m a v x = store32 m' a v x := by
  simp only [store32, storeLE]
  exact blit_congr_apply _ h

end LittleEndian

/-! ### Ranges of bytes -/

@[simp] theorem length_readBytes (m : Memory) (a n : ℕ) : (readBytes m a n).length = n := by
  simp [readBytes]

theorem readBytes_congr {m m' : Memory} {a b n : ℕ} (h : ∀ i < n, m (a + i) = m' (b + i)) :
    readBytes m a n = readBytes m' b n :=
  List.map_congr_left fun i hi => h i (List.mem_range.mp hi)

theorem getElem_readBytes (m : Memory) (a n : ℕ) {i : ℕ} (h : i < (readBytes m a n).length) :
    (readBytes m a n)[i] = m (a + i) := by
  simp [readBytes]

theorem readBytes_add (m : Memory) (a n k : ℕ) :
    readBytes m a (n + k) = readBytes m a n ++ readBytes m (a + n) k := by
  simp [readBytes, List.range_add, Function.comp_def, Nat.add_assoc]

/-- A range of bytes that reads as two lists, one behind the other. -/
theorem readBytes_eq_append {m : Memory} {a n : ℕ} {xs ys : List Byte}
    (h : readBytes m a n = xs ++ ys) :
    readBytes m a xs.length = xs ∧ readBytes m (a + xs.length) (n - xs.length) = ys := by
  have hlen : n = xs.length + (n - xs.length) := by
    have := congrArg List.length h
    simp only [length_readBytes, List.length_append] at this
    omega
  rw [hlen, readBytes_add] at h
  exact List.append_inj h (by simp)

@[simp] theorem length_leBytes (n v : ℕ) : (leBytes n v).length = n := by
  simp [leBytes]

/-- Bytes that read as an encoded value are loaded as that value. -/
theorem loadLE_of_readBytes {m : Memory} {a n v : ℕ} (h : readBytes m a n = leBytes n v) :
    loadLE m a n = v % 256 ^ n := by
  refine loadLE_bytes fun i hi => ?_
  have hbyte := getElem_readBytes m a n (i := i) (by simpa using hi)
  simp only [h, leBytes, List.getElem_map, List.getElem_range] at hbyte
  exact hbyte.symm

end Studix
