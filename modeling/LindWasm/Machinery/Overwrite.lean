import Mathlib.Data.List.Induction
import Mathlib.Data.List.Nodup

/-!
# Machinery/Overwrite — repeated writes, where the first or the last one wins

    m --setNew k v--> m'                   the old value of k, v where there was none
    [(k₁, v₁), (k₂, v₂), …] --> map        the value of the last pair under the key
    [(i₁, b₁), (i₂, b₂), …] --> list       the cell at `i` as the last write to it left it

A key once defined keeps its value under `setNew`, so what a sequence of such definitions leaves
behind is ordered by `Keeps`. A loop that inserts into a hash map, or writes into an array, leaves
behind what it wrote last. A value that is found was written (`eq_or_mem_of_overwriteAll`,
`getElem?_writeAll`), and where no cell is written twice, every write is seen (`countP_writeAll`).
-/

namespace LindWasm

open Function Option List

/-! ## Maps -/

section Map

variable {K V : Type*} [DecidableEq K]

/-- Define `k` unless it is defined already. -/
def setNew (m : K → Option V) (k : K) (v : V) : K → Option V := fun k' =>
  if k' = k then some ((m k).getD v) else m k'

/-- Every key `m` defines has the same value in `m'`. -/
def Keeps (m m' : K → Option V) : Prop := ∀ k v, m k = some v → m' k = some v

variable {m m' m'' : K → Option V} {l : List (K × V)} {k k' : K} {v w : V}

omit [DecidableEq K] in
theorem Keeps.refl (m : K → Option V) : Keeps m m := fun _ _ h => h

omit [DecidableEq K] in
theorem Keeps.trans (h : Keeps m m') (h' : Keeps m' m'') : Keeps m m'' :=
  fun k v hk => h' k v (h k v hk)

theorem setNew_of_ne (h : k' ≠ k) : setNew m k v k' = m k' := if_neg h

theorem setNew_self_of_none (h : m k = none) : setNew m k v k = some v := by simp [setNew, h]

theorem setNew_self_of_some (h : m k = some w) : setNew m k v k = some w := by simp [setNew, h]

theorem setNew_eq_self (h : m k = some w) : setNew m k v = m := by
  funext k'
  by_cases hk : k' = k
  · rw [hk, setNew_self_of_some h, h]
  · exact setNew_of_ne hk

theorem keeps_setNew (m : K → Option V) (k : K) (v : V) : Keeps m (setNew m k v) := by
  intro k' w hw
  by_cases hk : k' = k
  · subst hk
    exact setNew_self_of_some hw
  · rwa [setNew_of_ne hk]

/-- A value found after `setNew` was there before, or is the new one. -/
theorem eq_or_of_setNew (h : setNew m k v k' = some w) : m k' = some w ∨ k' = k ∧ w = v := by
  by_cases hk : k' = k
  · subst hk
    cases hm : m k' with
    | none => exact .inr ⟨rfl, (Option.some.inj ((setNew_self_of_none hm).symm.trans h)).symm⟩
    | some u =>
      rw [setNew_self_of_some hm] at h
      exact .inl h
  · rw [setNew_of_ne hk] at h
    exact .inl h

/-- A definition stands before a list of definitions to come. -/
theorem setNew_or_lookup (l : List (K × V)) :
    (setNew m k v k').or (l.lookup k') = (m k').or (((k, v) :: l).lookup k') := by
  by_cases hk : k' = k
  · subst hk
    cases hm : m k' with
    | none => simp [setNew_self_of_none hm]
    | some w => simp [setNew_self_of_some hm]
  · rw [setNew_of_ne hk, List.lookup_cons, beq_eq_false_iff_ne.mpr hk]

/-- Insert the pairs in their order. -/
def overwriteAll (m : K → Option V) (l : List (K × V)) : K → Option V :=
  l.foldl (fun m x => update m x.1 (some x.2)) m

theorem overwriteAll_concat (m : K → Option V) (l : List (K × V)) (x : K × V) :
    overwriteAll m (l ++ [x]) = update (overwriteAll m l) x.1 (some x.2) :=
  foldl_concat ..

theorem eq_or_mem_of_overwriteAll (h : overwriteAll m l k = some v) :
    m k = some v ∨ (k, v) ∈ l := by
  induction l using reverseRecOn with
  | nil => exact .inl h
  | append_singleton l x ih =>
    rw [overwriteAll_concat] at h
    by_cases hk : k = x.1
    · subst hk
      rw [update_self] at h
      refine .inr (mem_append_right _ (mem_singleton.mpr ?_))
      exact Prod.ext rfl (some.inj h).symm
    · rw [update_of_ne hk] at h
      exact (ih h).imp_right (mem_append_left _)

theorem exists_overwriteAll_of_mem (m : K → Option V) (h : (k, v) ∈ l) :
    ∃ w, overwriteAll m l k = some w := by
  induction l using reverseRecOn with
  | nil => exact absurd h not_mem_nil
  | append_singleton l x ih =>
    rw [overwriteAll_concat]
    by_cases hk : k = x.1
    · subst hk
      exact ⟨x.2, update_self ..⟩
    · rw [update_of_ne hk]
      refine ih ((mem_append.mp h).resolve_right fun hx => hk ?_)
      rw [← mem_singleton.mp hx]

end Map

/-! ## Lists -/

section List

variable {α β : Type*} (f : α → β → α)

/-- Make the writes in their order; a write past the end does nothing. -/
def writeAll (l : List α) (ws : List (ℕ × β)) : List α :=
  ws.foldl (fun l w => l.modify w.1 (f · w.2)) l

variable {f} {l : List α} {ws : List (ℕ × β)} {i : ℕ} {a : α}

theorem writeAll_append (f : α → β → α) (l : List α) (ws ws' : List (ℕ × β)) :
    writeAll f l (ws ++ ws') = writeAll f (writeAll f l ws) ws' := foldl_append ..

@[simp] theorem length_writeAll (f : α → β → α) (l : List α) (ws : List (ℕ × β)) :
    (writeAll f l ws).length = l.length := by
  induction ws generalizing l with
  | nil => rfl
  | cons w ws ih => exact (ih _).trans (length_modify ..)

/-- **A cell is as one of the writes to it left it**, or as it was where there is none. -/
theorem getElem?_writeAll (hf : ∀ a b b', f (f a b) b' = f a b') (h : l[i]? = some a) :
    ((∀ w ∈ ws, w.1 ≠ i) ∧ (writeAll f l ws)[i]? = some a) ∨
      ∃ b, (i, b) ∈ ws ∧ (writeAll f l ws)[i]? = some (f a b) := by
  induction ws using reverseRecOn with
  | nil => exact .inl ⟨by simp, h⟩
  | append_singleton ws w ih =>
    have hlast : (writeAll f l (ws ++ [w]))[i]?
        = (writeAll f l ws)[i]?.map fun a => if w.1 = i then f a w.2 else a := by
      rw [writeAll_append]
      refine (getElem?_modify ..).trans ?_
      split <;> rfl
    by_cases hi : w.1 = i
    · refine .inr ⟨w.2, mem_append_right _ (by simp [← hi]), ?_⟩
      rcases ih with ⟨-, hcell⟩ | ⟨b, -, hcell⟩
      · rw [hlast, hcell, map_some, if_pos hi]
      · rw [hlast, hcell, map_some, if_pos hi, hf]
    · rcases ih with ⟨hno, hcell⟩ | ⟨b, hb, hcell⟩
      · refine .inl ⟨?_, by rw [hlast, hcell, map_some, if_neg hi]⟩
        exact forall_mem_append.mpr ⟨hno, forall_mem_singleton.mpr hi⟩
      · exact .inr ⟨b, mem_append_left _ hb, by rw [hlast, hcell, map_some, if_neg hi]⟩

variable {p : α → Bool}

theorem countP_modify {g : α → α} (h : l[i]? = some a) (ha : p a = false) (hg : p (g a) = true) :
    (l.modify i g).countP p = l.countP p + 1 := by
  induction l generalizing i with
  | nil => cases h
  | cons x l ih =>
    cases i with
    | zero =>
      cases h
      rw [modify_zero_cons, countP_cons_of_pos hg, countP_cons_of_neg (by simp [ha])]
    | succ i =>
      rw [modify_succ_cons, countP_cons, countP_cons, ih h]
      omega

/-- **Writes to different cells are all counted**, where each turns a cell into one that counts. -/
theorem countP_writeAll (hnodup : (ws.map Prod.fst).Nodup)
    (h : ∀ w ∈ ws, ∃ a, l[w.1]? = some a ∧ p a = false ∧ p (f a w.2) = true) :
    (writeAll f l ws).countP p = l.countP p + ws.length := by
  induction ws generalizing l with
  | nil => rfl
  | cons w ws ih =>
    rw [map_cons, nodup_cons] at hnodup
    obtain ⟨⟨a, ha, hno, hyes⟩, hrest⟩ := forall_mem_cons.mp h
    have hnext := ih hnodup.2 (l := l.modify w.1 (f · w.2)) fun w' hw' => by
      have hne : w.1 ≠ w'.1 := fun heq => hnodup.1 (heq ▸ mem_map_of_mem hw')
      rw [getElem?_modify_ne _ _ hne]
      exact hrest w' hw'
    calc (writeAll f l (w :: ws)).countP p
        = (l.modify w.1 (f · w.2)).countP p + ws.length := hnext
      _ = l.countP p + 1 + ws.length := by rw [countP_modify ha hno hyes]
      _ = l.countP p + (w :: ws).length := by rw [length_cons]; omega

/-- A loop writes each cell once, if the cell tells the turn's key and no key comes twice. -/
theorem nodup_fst_filterMap {γ κ : Type*} {g : γ → Option (ℕ × β)} {key : γ → κ} {turns : List γ}
    (hnodup : (turns.map key).Nodup)
    (hkey : ∀ x ∈ turns, ∀ y ∈ turns, ∀ i b b', g x = some (i, b) → g y = some (i, b') →
      key x = key y) : ((turns.filterMap g).map Prod.fst).Nodup := by
  rw [List.Nodup, pairwise_map, pairwise_filterMap]
  refine (pairwise_map.mp hnodup).imp_of_mem fun hx hy hne b hb b' hb' heq => hne ?_
  exact hkey _ hx _ hy b.1 b.2 b'.2 hb (by rw [hb', heq])

/-- Only one of the keys contributes, so a loop over the keys is that key's turn. -/
theorem nodup_flatMap_ite {κ : Type*} [DecidableEq κ] {c : κ} {l : List α} {keys : List κ}
    (hkeys : keys.Nodup) (hl : l.Nodup) :
    (keys.flatMap fun k => if k = c then l else []).Nodup := by
  refine nodup_flatMap.mpr ⟨fun k _ => ?_, hkeys.imp fun {k k'} hne => ?_⟩
  · split
    · exact hl
    · exact nodup_nil
  · show List.Disjoint (if k = c then l else []) (if k' = c then l else [])
    split
    · next hk => rw [if_neg fun hk' => hne (hk.trans hk'.symm)]; exact disjoint_nil_right _
    · exact disjoint_nil_left _

end List

end LindWasm
