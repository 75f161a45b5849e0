import Mathlib.Algebra.Ring.Nat
import Mathlib.Data.Fin.Basic
import Mathlib.Order.Nat

/-!
# Machinery/Bytes — byte-addressed memories

    blit dst d src s n :   dst⟦d, d+n⟧ ← src⟦s, s+n⟧,      every other byte of dst kept

A memory is a function from addresses to bytes. `SameOff lo hi m m'` is the frame condition — the
two memories agree off `[lo, hi)` — and composes along a run of writes; words are little-endian and
read back what was written.
-/

/-- An octet. -/
abbrev Byte := Fin 256

instance neZero_byte : NeZero 256 := ⟨by decide⟩

/-- A byte-addressed memory. -/
abbrev Mem := ℕ → Byte

namespace Mem

open List

/-! ## Copies and frames -/

/-- Copy `n` bytes of `src` from `s` over those of `dst` from `d`. -/
def blit (dst : Mem) (d : ℕ) (src : Mem) (s n : ℕ) : Mem :=
  fun a => if d ≤ a ∧ a < d + n then src (s + (a - d)) else dst a

variable {src m m' dst : Mem} {d s n a lo hi v b : ℕ}

theorem blit_in (h : d ≤ a) (h' : a < d + n) :
    blit dst d src s n a = src (s + (a - d)) := if_pos ⟨h, h'⟩

theorem blit_off (h : a < d ∨ d + n ≤ a) : blit dst d src s n a = dst a := if_neg (by omega)

/-- The two memories agree off `[lo, hi)`. -/
def SameOff (lo hi : ℕ) (m m' : Mem) : Prop := ∀ a, a < lo ∨ hi ≤ a → m' a = m a

theorem SameOff.refl (lo hi : ℕ) (m : Mem) : SameOff lo hi m m := fun _ _ => rfl

theorem sameOff_blit : SameOff d (d + n) m (blit m d src s n) :=
  fun _ ha => blit_off ha

/-! ## Words -/

/-- The little-endian word of four bytes at `a`. -/
def getWord (m : Mem) (a : ℕ) : ℕ :=
  (m a).val + 2 ^ 8 * (m (a + 1)).val + 2 ^ 16 * (m (a + 2)).val + 2 ^ 24 * (m (a + 3)).val

/-- The bytes of a word. -/
def wordBytes (v : ℕ) : Mem := fun i => ⟨v / 2 ^ (8 * i) % 256, Nat.mod_lt _ (by decide)⟩

/-- Write the word `v` at `a`. -/
def putWord (m : Mem) (a v : ℕ) : Mem := blit m a (wordBytes v) 0 4

theorem sameOff_putWord : SameOff a (a + 4) m (putWord m a v) := sameOff_blit

theorem getWord_congr (h : ∀ i < 4, m (a + i) = m' (b + i)) : getWord m a = getWord m' b := by
  have h0 := h 0 (by decide)
  have h1 := h 1 (by decide)
  have h2 := h 2 (by decide)
  have h3 := h 3 (by decide)
  simp only [Nat.add_zero] at h0
  rw [getWord, getWord, h0, h1, h2, h3]

theorem getWord_of_sameOff (h : SameOff lo hi m m') (ha : a + 4 ≤ lo ∨ hi ≤ a) :
    getWord m' a = getWord m a :=
  getWord_congr fun _ _ => h _ (by omega)

theorem getWord_lt (m : Mem) (a : ℕ) : getWord m a < 2 ^ 32 := by
  have h0 := (m a).isLt
  have h1 := (m (a + 1)).isLt
  have h2 := (m (a + 2)).isLt
  have h3 := (m (a + 3)).isLt
  unfold getWord
  omega

theorem getWord_wordBytes (hv : v < 2 ^ 32) : getWord (wordBytes v) 0 = v := by
  simp only [getWord, wordBytes]
  omega

theorem eq_of_getWord_eq (h : getWord m a = getWord m' b) : ∀ i < 4, m (a + i) = m' (b + i) := by
  unfold getWord at h
  intro i hi
  refine Fin.ext ?_
  obtain rfl | rfl | rfl | rfl : i = 0 ∨ i = 1 ∨ i = 2 ∨ i = 3 := by omega
  · rw [Nat.add_zero, Nat.add_zero]
    omega
  · omega
  · omega
  · omega

/-- **A word reads back.** -/
theorem getWord_putWord (hv : v < 2 ^ 32) : getWord (putWord m a v) a = v := by
  have h : ∀ i < 4, putWord m a v (a + i) = wordBytes v (0 + i) := fun i hi => by
    rw [putWord, blit_in (by omega) (by omega)]
    congr 1
    omega
  rw [getWord_congr h, getWord_wordBytes hv]

/-- The bytes from `a` on, as a list. -/
def readBytes (m : Mem) (a n : ℕ) : List Byte := (List.range n).map fun i => m (a + i)

@[simp] theorem length_readBytes (m : Mem) (a n : ℕ) : (readBytes m a n).length = n := by
  simp [readBytes]

theorem getD_readBytes {k : ℕ} (hk : k < n) (d : Byte) :
    (readBytes m a n).getD k d = m (a + k) := by
  simp [readBytes, getD_eq_getElem?_getD, hk]

theorem readBytes_congr (h : ∀ i < n, m (a + i) = m' (b + i)) :
    readBytes m a n = readBytes m' b n :=
  map_congr_left fun i hi => h i (mem_range.mp hi)

end Mem
