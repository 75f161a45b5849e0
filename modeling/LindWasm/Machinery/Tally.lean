import Mathlib.Data.List.AList
import Mathlib.Algebra.Order.BigOperators.Group.List
import Mathlib.Algebra.Order.Ring.Nat
import Mathlib.Data.List.Perm.Subperm

/-!
# Machinery/Tally — counters that are absent at zero, and sums over a finite map

    t counts f :   t.lookup a = some (f a)   if f a ≠ 0,     none   if f a = 0

`Counts t f` ties a table of counters to the function it keeps: raising or lowering a counter is an
update of the function, and a counter that reaches zero is erased. `AList.total` is the other side
of such a table — the sum, over the rows of a finite map, of what each row contributes — with the
one law a change of a row needs (`total_erase_add`).
-/

variable {α : Type*}

/-! ## Tables of positive counters -/

section Counts

variable [DecidableEq α] {t : AList fun _ : α => ℕ} {f : α → ℕ}

/-- The table holds `f a` at `a`, and nothing where `f a = 0`. -/
def Counts (t : AList fun _ : α => ℕ) (f : α → ℕ) : Prop :=
  ∀ a, t.lookup a = if f a = 0 then none else some (f a)

theorem counts_empty : Counts (∅ : AList fun _ : α => ℕ) fun _ => 0 := fun _ => rfl

theorem Counts.insert (h : Counts t f) (a : α) {n : ℕ} (hn : n ≠ 0) :
    Counts (t.insert a n) (Function.update f a n) := by
  intro b
  by_cases hb : b = a
  · subst hb
    simp [hn]
  · rw [AList.lookup_insert_ne hb, Function.update_of_ne hb, h b]

theorem Counts.erase (h : Counts t f) (a : α) : Counts (t.erase a) (Function.update f a 0) := by
  intro b
  by_cases hb : b = a
  · subst hb
    simp
  · rw [AList.lookup_erase_ne hb, Function.update_of_ne hb, h b]

theorem Counts.congr {g : α → ℕ} (h : Counts t f) (hfg : ∀ a, f a = g a) : Counts t g :=
  (funext hfg : f = g) ▸ h

end Counts

/-! ## Sums over a finite map -/

namespace AList

open List

variable {β : Type*}

/-- The sum of `w` over the rows of the map. -/
def total (t : AList fun _ : α => β) (w : β → ℕ) : ℕ := (t.entries.map fun x => w x.2).sum

variable [DecidableEq α]

/-- What the row at `a`, if any, contributes. -/
def weightAt (t : AList fun _ : α => β) (w : β → ℕ) (a : α) : ℕ := (t.lookup a).elim 0 w

variable {t : AList fun _ : α => β} {w : β → ℕ} {a : α} {b : β}

theorem sum_kerase_add (l : List (Sigma fun _ : α => β)) (a : α) :
    ((l.kerase a).map fun x => w x.2).sum + (l.dlookup a).elim 0 w
      = (l.map fun x => w x.2).sum := by
  induction l with
  | nil => rfl
  | cons x l ih =>
    by_cases hx : a = x.1
    · obtain ⟨k, v⟩ := x
      obtain rfl : a = k := hx
      simp [Nat.add_comm]
    · rw [kerase_cons_ne hx, dlookup_cons_ne l x hx, map_cons, map_cons,
        sum_cons, sum_cons, Nat.add_assoc, ih]

/-- **Erasing a row takes away what it contributes.** -/
theorem total_erase_add (t : AList fun _ : α => β) (w : β → ℕ) (a : α) :
    total (t.erase a) w + t.weightAt w a = total t w := sum_kerase_add t.entries a

/-- **Inserting a row replaces what the old one contributed.** -/
theorem total_insert_add : total (t.insert a b) w + t.weightAt w a = total t w + w b := by
  have h : total (t.insert a b) w = w b + total (t.erase a) w := rfl
  rw [h, Nat.add_assoc, total_erase_add, Nat.add_comm]

theorem weightAt_of_lookup (h : t.lookup a = some b) : t.weightAt w a = w b := by
  rw [weightAt, h]
  rfl

theorem weightAt_of_lookup_none (h : t.lookup a = none) : t.weightAt w a = 0 := by
  rw [weightAt, h]
  rfl

theorem total_le {bound : ℕ} (h : ∀ a b, t.lookup a = some b → w b ≤ bound) :
    total t w ≤ t.entries.length * bound := by
  have hle : ∀ n ∈ t.entries.map fun x => w x.2, n ≤ bound := by
    intro n hn
    obtain ⟨⟨a, b⟩, hmem, rfl⟩ := mem_map.mp hn
    exact h a b (AList.mem_lookup_iff.mpr hmem)
  have hsum := sum_le_card_nsmul _ bound hle
  rwa [length_map, nsmul_eq_mul, Nat.cast_id] at hsum

theorem length_entries_le {l : List α} (h : ∀ a b, t.lookup a = some b → a ∈ l) :
    t.entries.length ≤ l.length := by
  have hsub : t.entries.keys ⊆ l := by
    intro a ha
    obtain ⟨b, hb⟩ := List.exists_of_mem_keys ha
    exact h a b (AList.mem_lookup_iff.mpr hb)
  have hlen := (List.subperm_of_subset t.nodupKeys hsub).length_le
  rwa [List.keys, List.length_map] at hlen

end AList
