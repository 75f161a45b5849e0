import Mathlib.Data.List.Perm.Basic

/-!
# Machinery/Slots — tables whose entries move through phases

    l = [ …, b, … ] --> l.set i a = [ …, a, … ]

A table of threads, calls or processes is a list in which one step changes one entry. What is read
off the table entry by entry changes with that entry alone: a `map`, a `filterMap` or a `countP` not
at all where the entry reads the same, and otherwise by one element.
-/

namespace LindWasm

open List

variable {α β : Type*} {l : List α} {i : ℕ} {b : α} (h : l[i]? = some b)
include h

theorem exists_split_of_set (a : α) :
    ∃ before after, l = before ++ b :: after ∧ l.set i a = before ++ a :: after := by
  obtain ⟨hi, rfl⟩ := List.getElem?_eq_some_iff.mp h
  obtain ⟨before, after, hl, -, hset⟩ : ∃ before after, l = before ++ l[i] :: after ∧
      before.length = i ∧ l.set i a = before ++ a :: after := List.exists_of_set hi
  exact ⟨before, after, hl, hset⟩

variable {a : α} {f : α → Option β}

theorem map_set_of_eq {f : α → β} (heq : f a = f b) : (l.set i a).map f = l.map f := by
  obtain ⟨before, after, hl, hset⟩ := exists_split_of_set h a
  rw [hset, hl, map_append, map_append, map_cons, map_cons, heq]

theorem filterMap_set_of_eq (heq : f a = f b) : (l.set i a).filterMap f = l.filterMap f := by
  obtain ⟨before, after, hl, hset⟩ := exists_split_of_set h a
  rw [hset, hl, filterMap_append, filterMap_append, filterMap_cons,
    filterMap_cons, heq]

/-- An entry that begins to be read is one more element, … -/
theorem filterMap_set_perm {z : β} (hb : f b = none) (ha : f a = some z) :
    ((l.set i a).filterMap f).Perm (z :: l.filterMap f) := by
  obtain ⟨before, after, hl, hset⟩ := exists_split_of_set h a
  rw [hset, hl, filterMap_append, filterMap_append, filterMap_cons_some ha,
    filterMap_cons_none hb]
  exact perm_middle

/-- … and one that ceases to be read one less. -/
theorem perm_filterMap_set {z : β} (hb : f b = some z) (ha : f a = none) :
    (l.filterMap f).Perm (z :: (l.set i a).filterMap f) := by
  obtain ⟨before, after, hl, hset⟩ := exists_split_of_set h a
  rw [hset, hl, filterMap_append, filterMap_append, filterMap_cons_some hb,
    filterMap_cons_none ha]
  exact perm_middle

variable {p : α → Bool}

/-- What counts after a change of one entry. -/
theorem countP_set_add (a : α) : (l.set i a).countP p + (p b).toNat = l.countP p + (p a).toNat := by
  obtain ⟨before, after, hl, hset⟩ := exists_split_of_set h a
  rw [hset, hl, countP_append, countP_append, countP_cons, countP_cons]
  cases p a <;> cases p b <;> simp only [Bool.toNat_true, Bool.toNat_false] <;> grind

theorem countP_set_of_eq (heq : p a = p b) : (l.set i a).countP p = l.countP p := by
  have hadd := countP_set_add (p := p) h a
  rw [heq] at hadd
  exact Nat.add_right_cancel hadd

/-- … and one that ceases to count is one less. -/
theorem countP_set_of_neg (hb : p b = true) (ha : p a = false) :
    (l.set i a).countP p = l.countP p - 1 := by
  have hadd := countP_set_add (p := p) h a
  rw [hb, ha] at hadd
  exact Nat.eq_sub_of_add_eq hadd

end LindWasm
