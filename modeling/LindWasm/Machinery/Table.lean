import Mathlib.Data.List.Basic

/-!
# Machinery/Table — a finite table with one value per key

The table is its list of rows, so that it can be asked whether it is empty. Reading is
`List.lookup`; `insert` puts the row in front and drops the older one, `mapVal` rewrites every
value with its key in hand, and `merge` is a loop over the rows of one table that updates another.
-/

variable {K V : Type*} [DecidableEq K] {k k' : K} {v : V} {t : List (K × V)}

namespace Table

open List

def erase (t : List (K × V)) (k : K) : List (K × V) := t.filter fun row => row.1 ≠ k

def insert (t : List (K × V)) (k : K) (v : V) : List (K × V) := (k, v) :: erase t k

def mapVal (f : K → V → V) (t : List (K × V)) : List (K × V) :=
  t.map fun row => (row.1, f row.1 row.2)

theorem lookup_row {row : K × V} :
    (row :: t).lookup k = if k = row.1 then some row.2 else t.lookup k := by
  by_cases h : k = row.1
  · rw [lookup_cons, beq_iff_eq.mpr h, if_pos h]
  · rw [lookup_cons, beq_eq_false_iff_ne.mpr h, if_neg h]

theorem lookup_erase : (erase t k).lookup k' = if k' = k then none else t.lookup k' := by
  induction t with
  | nil => simp [erase]
  | cons row t ih =>
    rw [erase, filter_cons, lookup_row]
    by_cases hj : row.1 = k
    · rw [if_neg (by simpa using hj), ← erase, ih]
      split <;> simp_all
    · rw [if_pos (by simpa using hj), lookup_row, ← erase, ih]
      split <;> simp_all

theorem lookup_insert : (insert t k v).lookup k' = if k' = k then some v else t.lookup k' := by
  rw [insert, lookup_row, lookup_erase]
  split <;> rfl

@[simp] theorem lookup_erase_self : (erase t k).lookup k = none := lookup_erase.trans (if_pos rfl)

@[simp] theorem lookup_erase_of_ne (h : k' ≠ k) : (erase t k).lookup k' = t.lookup k' :=
  lookup_erase.trans (if_neg h)

@[simp] theorem lookup_insert_self : (insert t k v).lookup k = some v :=
  lookup_insert.trans (if_pos rfl)

@[simp] theorem lookup_insert_of_ne (h : k' ≠ k) : (insert t k v).lookup k' = t.lookup k' :=
  lookup_insert.trans (if_neg h)

theorem insert_insert {v' : V} : insert (insert t k v) k v' = insert t k v' := by
  simp [insert, erase]

/-- A table in which nothing is found is empty. -/
theorem eq_nil_iff : t = [] ↔ ∀ k, t.lookup k = none := by
  cases t with
  | nil => simp
  | cons row t => exact iff_of_false (cons_ne_nil _ _) fun h => by simpa using h row.1

theorem lookup_ne_none : t.lookup k ≠ none ↔ ∃ v, (k, v) ∈ t := by
  simp [lookup_eq_none_iff]

@[simp] theorem lookup_mapVal (f : K → V → V) : (mapVal f t).lookup k = (t.lookup k).map (f k) := by
  induction t with
  | nil => rfl
  | cons row t ih =>
    rw [mapVal, map_cons, lookup_row, lookup_row, ← mapVal, ih]
    split <;> simp_all

/-! ## Loops over a table -/

/-- The rows a loop over the table meets: one for each key. -/
def rows : List (K × V) → List (K × V)
  | [] => []
  | row :: t => row :: erase (rows t) row.1

theorem lookup_rows (t : List (K × V)) : (rows t).lookup k = t.lookup k := by
  induction t with
  | nil => rfl
  | cons row t ih =>
    rw [rows, lookup_row, lookup_row, lookup_erase, ih]
    split <;> rfl

theorem pairwise_rows (t : List (K × V)) : (rows t).Pairwise (·.1 ≠ ·.1) := by
  induction t with
  | nil => exact .nil
  | cons row t ih =>
    refine pairwise_cons.mpr ⟨fun r hr => ?_, ih.filter _⟩
    exact Ne.symm (of_decide_eq_true (mem_filter.mp hr).2)

/-- The loop that works each row of `l` into what the table has for its key. -/
def merge (f : Option V → V → V) (t l : List (K × V)) : List (K × V) :=
  (rows l).foldl (fun t row => insert t row.1 (f (t.lookup row.1) row.2)) t

/-- **Each key is worked on once**, whatever the order of the rows. -/
theorem lookup_merge (f : Option V → V → V) (t l : List (K × V)) :
    (merge f t l).lookup k = ((l.lookup k).map (f (t.lookup k))).or (t.lookup k) := by
  rw [← lookup_rows l, merge]
  generalize rows l = l, pairwise_rows l = hl
  induction l generalizing t with
  | nil => simp
  | cons row l ih =>
    obtain ⟨hrow, hl⟩ := pairwise_cons.mp hl
    rw [foldl_cons, ih _ hl, lookup_insert, lookup_row]
    by_cases hk : k = row.1
    · have hnone : l.lookup k = none :=
        lookup_eq_none_iff.mpr fun r hr => by simpa [hk] using hrow r hr
      simp [hk ▸ hnone, hk]
    · simp [hk]

end Table
