import Mathlib

/-!
# Tilings of an interval

A list of tiles, each starting where the one before it ends, covers an interval of the natural
numbers. Every tile has at least a given size. A tile can be cut out of the list: what stands before
it tiles the interval up to its start, and what stands behind it the interval from its end on.

## Main definitions

* `Tile`, `Tiles`.

## Main results

* `tiles_append`: a tiling in two parts.
* `Tiles.beside`: two tiles are equal or one lies beside the other.
* `Tiles.exists_eq_append`: a tile and what stands before and behind it.
-/

namespace Studix

/-- A tile: an interval with a tag. -/
@[ext] structure Tile (τ : Type*) where
  addr : ℕ
  size : ℕ
  tag : τ

variable {τ : Type*} {μ a b c : ℕ} {t u : Tile τ} {ts us : List (Tile τ)}

/-- The end of a tile. -/
def Tile.end_ (t : Tile τ) : ℕ := t.addr + t.size

/-- The tiles cover the interval from `a` to `b`, one behind the other, each at least `μ` long. -/
def Tiles (μ : ℕ) : ℕ → ℕ → List (Tile τ) → Prop
  | a, b, [] => a = b
  | a, b, t :: ts => t.addr = a ∧ μ ≤ t.size ∧ Tiles μ t.end_ b ts

@[simp] theorem tiles_nil : Tiles μ a b ([] : List (Tile τ)) ↔ a = b := Iff.rfl

@[simp] theorem tiles_cons :
    Tiles μ a b (t :: ts) ↔ t.addr = a ∧ μ ≤ t.size ∧ Tiles μ t.end_ b ts := Iff.rfl

/-- A tiling in two parts. -/
theorem tiles_append : Tiles μ a c (ts ++ us) ↔ ∃ b, Tiles μ a b ts ∧ Tiles μ b c us := by
  induction ts generalizing a with
  | nil => simp
  | cons t ts ih => simp only [List.cons_append, tiles_cons, ih, exists_and_left, and_assoc]

instance decidableTiles (μ a b : ℕ) : (ts : List (Tile τ)) → Decidable (Tiles μ a b ts)
  | [] => inferInstanceAs (Decidable (a = b))
  | t :: ts =>
    have : Decidable (Tiles μ t.end_ b ts) := decidableTiles μ t.end_ b ts
    inferInstanceAs (Decidable (t.addr = a ∧ μ ≤ t.size ∧ Tiles μ t.end_ b ts))

theorem Tiles.le (h : Tiles μ a b ts) : a ≤ b := by
  induction ts generalizing a with
  | nil => exact h.le
  | cons t ts ih =>
    have hle := ih h.2.2
    rw [Tile.end_, h.1] at hle
    omega

/-- The tiles determine the end of the interval. -/
theorem Tiles.end_unique (h : Tiles μ a b ts) (h' : Tiles μ a c ts) : b = c := by
  induction ts generalizing a with
  | nil => exact (tiles_nil.mp h).symm.trans (tiles_nil.mp h')
  | cons t ts ih => exact ih h.2.2 h'.2.2

/-- The tiles determine the start of the interval, when its end is given. -/
theorem Tiles.start_unique (h : Tiles μ a c ts) (h' : Tiles μ b c ts) : a = b := by
  cases ts with
  | nil => exact (tiles_nil.mp h).trans (tiles_nil.mp h').symm
  | cons t ts => exact h.1.symm.trans h'.1

/-- A tile lies in the interval. -/
theorem Tiles.bounds (h : Tiles μ a b ts) (ht : t ∈ ts) :
    a ≤ t.addr ∧ μ ≤ t.size ∧ t.end_ ≤ b := by
  obtain ⟨xs, ys, rfl⟩ := List.append_of_mem ht
  obtain ⟨c, hxs, hc, hsize, hys⟩ := tiles_append.mp h
  exact ⟨hc ▸ hxs.le, hsize, hys.le⟩

/-- A tile, with the tilings before and behind it. -/
theorem Tiles.exists_eq_append (h : Tiles μ a b ts) (ht : t ∈ ts) :
    ∃ xs ys, ts = xs ++ t :: ys ∧ Tiles μ a t.addr xs ∧ μ ≤ t.size ∧ Tiles μ t.end_ b ys := by
  obtain ⟨xs, ys, rfl⟩ := List.append_of_mem ht
  obtain ⟨c, hxs, rfl, hsize, hys⟩ := tiles_append.mp h
  exact ⟨xs, ys, rfl, hxs, hsize, hys⟩

/-- **Two tiles are equal, or one lies beside the other.** -/
theorem Tiles.beside (h : Tiles μ a b ts) (ht : t ∈ ts) (hu : u ∈ ts) :
    t = u ∨ t.end_ ≤ u.addr ∨ u.end_ ≤ t.addr := by
  obtain ⟨xs, ys, rfl, hxs, -, hys⟩ := h.exists_eq_append ht
  rcases List.mem_append.mp hu with hu | hu
  · exact .inr (.inr (hxs.bounds hu).2.2)
  rcases List.mem_cons.mp hu with rfl | hu
  · exact .inl rfl
  · exact .inr (.inl (hys.bounds hu).1)

/-- A tile is determined by its start. -/
theorem Tiles.eq_of_addr (h : Tiles μ a b ts) (hμ : 0 < μ) (ht : t ∈ ts) (hu : u ∈ ts)
    (heq : t.addr = u.addr) : t = u := by
  have htsize := (h.bounds ht).2.1
  have husize := (h.bounds hu).2.1
  refine (h.beside ht hu).resolve_right ?_
  simp only [Tile.end_]
  omega

/-- The addresses of the tiles are distinct. -/
theorem Tiles.nodup_addr (h : Tiles μ a b ts) (hμ : 0 < μ) : (ts.map Tile.addr).Nodup := by
  induction ts generalizing a with
  | nil => exact List.nodup_nil
  | cons t ts ih =>
    refine List.nodup_cons.mpr ⟨fun hmem => ?_, ih h.2.2⟩
    obtain ⟨u, hu, heq⟩ := List.mem_map.mp hmem
    have hsize := h.2.1
    have hle := (h.2.2.bounds hu).1
    rw [Tile.end_, heq] at hle
    omega

/-- An empty interval has no tiles. -/
theorem Tiles.eq_nil (h : Tiles μ a a ts) (hμ : 0 < μ) : ts = [] := by
  cases ts with
  | nil => rfl
  | cons t ts =>
    have hsize := h.2.1
    have hle := h.2.2.le
    rw [Tile.end_, h.1] at hle
    omega

/-- The tile that starts where the interval starts is the first. -/
theorem Tiles.eq_cons (h : Tiles μ a b ts) (hμ : 0 < μ) (hu : u ∈ ts) (haddr : u.addr = a) :
    ∃ us, ts = u :: us ∧ Tiles μ u.end_ b us := by
  obtain ⟨xs, ys, rfl, hxs, -, hys⟩ := h.exists_eq_append hu
  rw [haddr] at hxs
  obtain rfl := hxs.eq_nil hμ
  exact ⟨ys, rfl, hys⟩

end Studix
