import LindWasm.FdTables.Count
import LindWasm.FdTables.Vanilla

/-!
# FdTables/Alike — the array and the hash map answer alike

    row  : Fin FD_PER_PROCESS_MAX → Option entry       gone through by index
    map  : fd ↦ entry                                  gone through in any order

Going through a row in another order tells each pair the same counts (`Same.decrementAll`), so the
two tables give the same results and make the same handler calls — until a call panics, which ends
the hash map and not the array. `tables_alike` is the equivalence.
-/

namespace LindWasm.FdTables

open Function Option List AList

/-! ## Calls and answers -/

inductive TableRequest where
  | op (op : Op)
  | translateVirtualFd (cageid virtualfd : ℕ)

/-- What a call returns. -/
inductive TableAnswer where
  | done
  | unit (r : Except FdError Unit)
  | fd (r : Except FdError ℕ)
  | entry (r : Except FdError FDTableEntry)
  deriving DecidableEq

/-- The virtual descriptors a call names are below the limit. -/
def TableRequest.InRange : TableRequest → Prop
  | .op (.getSpecificVirtualFd _ r _ _ _ _) => r < fdPerProcessMax
  | .op (.setCloexec _ v _) => v < fdPerProcessMax
  | .op (.setPerfdinfo _ v _) => v < fdPerProcessMax
  | .op (.closeVirtualfd _ v) => v < fdPerProcessMax
  | .translateVirtualFd _ v => v < fdPerProcessMax
  | _ => True

/-- The handlers a call registers return `Ok`. -/
def TableRequest.HandlersOk : TableRequest → Prop
  | .op o => o.HandlersOk
  | .translateVirtualFd _ _ => True

/-- A call with descriptors in range and handlers that return `Ok`, and the order in which a hash
map is gone through during it. -/
structure Call where
  request : TableRequest
  order : Vanilla.IterOrder
  inRange : request.InRange
  handlersOk : request.HandlersOk

variable (s : State) {α β : Type}

/-- What a call on the array returns. -/
def run : TableRequest → Except Panic (TableAnswer × State)
  | .translateVirtualFd c v => (translateVirtualFd s c v).map fun r => (.entry r, s)
  | .op (.initEmptyCage c) => (initEmptyCage s c).map (Prod.map .unit id)
  | .op (.getUnusedVirtualFd c k u x i) => (getUnusedVirtualFd s c k u x i).map (Prod.map .fd id)
  | .op (.getUnusedVirtualFdFromStartfd c k u x i a) =>
      (getUnusedVirtualFdFromStartfd s c k u x i a).map (Prod.map .fd id)
  | .op (.getSpecificVirtualFd c r k u x i) =>
      (getSpecificVirtualFd s c r k u x i).map (Prod.map .unit id)
  | .op (.setCloexec c v x) => (setCloexec s c v x).map (Prod.map .unit id)
  | .op (.setPerfdinfo c v i) => (setPerfdinfo s c v i).map (Prod.map .unit id)
  | .op (.copyFdtableForCage src new) => (copyFdtableForCage s src new).map (Prod.map .unit id)
  | .op (.removeCageFromFdtable c) => (removeCageFromFdtable s c).map (Prod.mk .done)
  | .op (.emptyFdsForExec c) => (emptyFdsForExec s c).map (Prod.mk .done)
  | .op (.closeVirtualfd c v) => (closeVirtualfd s c v).map (Prod.map .unit id)
  | .op (.registerCloseHandlers k h) => .ok (.done, registerCloseHandlers s k h)

/-- …and on the hash map. -/
def Vanilla.run (order : IterOrder) (v : State) : TableRequest → Except Panic (TableAnswer × State)
  | .translateVirtualFd c fd => (translateVirtualFd v c fd).map fun r => (.entry r, v)
  | .op (.initEmptyCage c) => (initEmptyCage v c).map (Prod.map .unit id)
  | .op (.getUnusedVirtualFd c k u x i) => (getUnusedVirtualFd v c k u x i).map (Prod.map .fd id)
  | .op (.getUnusedVirtualFdFromStartfd c k u x i a) =>
      (getUnusedVirtualFdFromStartfd v c k u x i a).map (Prod.map .fd id)
  | .op (.getSpecificVirtualFd c r k u x i) =>
      (getSpecificVirtualFd v c r k u x i).map (Prod.map .unit id)
  | .op (.setCloexec c fd x) => (setCloexec v c fd x).map (Prod.map .unit id)
  | .op (.setPerfdinfo c fd i) => (setPerfdinfo v c fd i).map (Prod.map .unit id)
  | .op (.copyFdtableForCage src new) =>
      (copyFdtableForCage order v src new).map (Prod.map .unit id)
  | .op (.removeCageFromFdtable c) => (removeCageFromFdtable order v c).map (Prod.mk .done)
  | .op (.emptyFdsForExec c) => (emptyFdsForExec order v c).map (Prod.mk .done)
  | .op (.closeVirtualfd c fd) => (closeVirtualfd v c fd).map (Prod.map .unit id)
  | .op (.registerCloseHandlers k h) => .ok (.done, registerCloseHandlers v k h)

/-- The handler calls made since, by pair and count told. -/
def closed (before after : List CloseCall) : Multiset ((ℕ × ℕ) × ℕ) :=
  (after.drop before.length).map CloseCall.key

/-- What a caller and the handlers see of a call; nothing if it panics. -/
abbrev Response := Option (TableAnswer × Multiset ((ℕ × ℕ) × ℕ))

/-- A call on the array; one that panics does so before it has changed anything. -/
def arrayStep (call : Call) : State × Response :=
  match run s call.request with
  | .ok (a, s') => (s', some (a, closed s.calls s'.calls))
  | .error _ => (s, none)

/-- The calls that take the lock of the table. -/
def TableRequest.Locks : TableRequest → Prop
  | .op (.registerCloseHandlers _ _) => False
  | .op (.closeVirtualfd _ v) => v < fdPerProcessMax
  | _ => True

instance : DecidablePred TableRequest.Locks
  | .translateVirtualFd _ _ => isTrue trivial
  | .op op => by cases op <;> dsimp only [TableRequest.Locks] <;> infer_instance

/-- A call on the hash map: a poisoned lock is a panic for all that take it, and a panic under the
lock poisons it. -/
def vanillaStep (v : Vanilla.State) (call : Call) : Vanilla.State × Response :=
  if v.poisoned ∧ call.request.Locks then (v, none)
  else
    match Vanilla.run call.order v call.request with
    | .ok (a, v') => (v', some (a, closed v.calls v'.calls))
    | .error _ => ({ v with poisoned := true }, none)

/-! ## Where they agree -/

/-- The call names a cage that is not there, or a new one that is: it panics. -/
def Misused : TableRequest → Prop
  | .translateVirtualFd c _ => c ∉ s.fdtable
  | .op (.initEmptyCage c) => c ∈ s.fdtable
  | .op (.getUnusedVirtualFd c _ _ _ _) => c ∉ s.fdtable
  | .op (.getUnusedVirtualFdFromStartfd c _ _ _ _ _) => c ∉ s.fdtable
  | .op (.getSpecificVirtualFd c _ _ _ _ _) => c ∉ s.fdtable
  | .op (.setCloexec c _ _) => c ∉ s.fdtable
  | .op (.setPerfdinfo c _ _) => c ∉ s.fdtable
  | .op (.copyFdtableForCage src new) => src ∉ s.fdtable ∨ new ∈ s.fdtable
  | .op (.removeCageFromFdtable _) => False
  | .op (.emptyFdsForExec c) => c ∉ s.fdtable
  | .op (.closeVirtualfd c _) => c ∉ s.fdtable
  | .op (.registerCloseHandlers _ _) => False

/-- In this state the two answer alike: the lock is not poisoned, or not taken, or the call panics
with the array too. -/
def Agrees (p : State × Vanilla.State) (call : Call) : Prop :=
  p.2.poisoned → call.request.Locks → Misused p.1 call.request

/-! ## Rows and maps -/

/-- The map holds the row. -/
def Holds (row : FdRow) (m : Vanilla.FdMap) : Prop :=
  ∀ fd, m.lookup fd = if h : fd < fdPerProcessMax then row ⟨fd, h⟩ else none

section Holds

variable {row : FdRow} {m : Vanilla.FdMap} {fd : ℕ} (order : Vanilla.IterOrder)

theorem Holds.lookup (h : Holds row m) (hfd : fd < fdPerProcessMax) :
    m.lookup fd = row ⟨fd, hfd⟩ := (h fd).trans (dif_pos hfd)

theorem holds_empty : Holds (fun _ => none) ∅ := by
  intro fd
  rw [dite_eq_ite, ite_self]
  rfl

section

variable (h : Holds row m) (hfd : fd < fdPerProcessMax)
include h

theorem Holds.update {e : Option FDTableEntry} {m' : Vanilla.FdMap} (hself : m'.lookup fd = e)
    (hne : ∀ fd' ≠ fd, m'.lookup fd' = m.lookup fd') :
    Holds (Function.update row ⟨fd, hfd⟩ e) m' := by
  intro fd'
  by_cases heq : fd' = fd
  · subst heq
    rw [hself, dif_pos hfd, update_self]
  · rw [hne fd' heq, h fd']
    refine dite_congr rfl (fun hlt => ?_) fun _ => rfl
    rw [update_of_ne fun h => heq (Fin.mk.inj_iff.mp h)]

theorem Holds.insert (e : FDTableEntry) :
    Holds (Function.update row ⟨fd, hfd⟩ (some e)) (m.insert fd e) :=
  h.update hfd (lookup_insert m) fun _ => lookup_insert_ne

theorem Holds.erase : Holds (Function.update row ⟨fd, hfd⟩ none) (m.erase fd) :=
  h.update hfd (lookup_erase fd m) fun _ => lookup_erase_ne

end

/-- The entries of a row, each with its descriptor. -/
def rowPairs (row : FdRow) : List (Sigma fun _ : ℕ => FDTableEntry) :=
  (List.finRange fdPerProcessMax).filterMap fun fd => (row fd).map (Sigma.mk fd.val)

theorem mem_rowPairs {x : Sigma fun _ : ℕ => FDTableEntry} :
    x ∈ rowPairs row ↔ ∃ h : x.1 < fdPerProcessMax, row ⟨x.1, h⟩ = some x.2 := by
  rw [rowPairs, mem_filterMap]
  constructor
  · rintro ⟨fd, -, hfd⟩
    obtain ⟨e, he, rfl⟩ := map_eq_some_iff.mp hfd
    exact ⟨fd.isLt, he⟩
  · rintro ⟨h, hx⟩
    exact ⟨⟨x.1, h⟩, mem_finRange _, map_eq_some_iff.mpr ⟨x.2, hx, rfl⟩⟩

theorem nodup_rowPairs : (rowPairs row).Nodup := by
  refine (nodup_finRange _).filterMap fun fd fd' x hx hx' => ?_
  obtain ⟨e, -, rfl⟩ := map_eq_some_iff.mp hx
  obtain ⟨e', -, heq⟩ := map_eq_some_iff.mp hx'
  exact (Fin.ext (congrArg Sigma.fst heq)).symm

theorem map_snd_rowPairs : (rowPairs row).map Sigma.snd = rowEntries row := by
  rw [rowPairs, map_filterMap, rowEntries]
  refine congrArg (filterMap · _) (funext fun fd => ?_)
  cases row fd <;> rfl

/-- **A map that holds a row has its entries**, in some order. -/
theorem Holds.perm_rowPairs (h : Holds row m) : m.entries.Perm (rowPairs row) := by
  refine (perm_ext_iff_of_nodup m.nodupKeys.nodup nodup_rowPairs).mpr fun x => ?_
  obtain ⟨fd, e⟩ := x
  rw [← mem_lookup_iff, h fd, mem_rowPairs]
  by_cases hfd : fd < fdPerProcessMax
  · rw [dif_pos hfd]
    exact ⟨fun he => ⟨hfd, he⟩, fun he => he.2⟩
  · rw [dif_neg hfd]
    exact iff_of_false (not_mem_none e) fun he => hfd he.1

theorem Holds.perm_values (h : Holds row m) : (order.values m).Perm (rowEntries row) := by
  rw [← map_snd_rowPairs]
  exact ((order.perm m).trans h.perm_rowPairs).map _

theorem Holds.firstVacant_eq (h : Holds row m) (start : ℕ) :
    Vanilla.firstVacant m start = (firstUnused row start).map Fin.val := by
  rw [Vanilla.firstVacant, firstUnused, ← map_coe_finRange_eq_range, find?_map]
  refine congrArg (Option.map _) (congrArg (find? · _) (funext fun fd => ?_))
  show decide (start ≤ fd.val ∧ m.lookup fd.val = none) = decide (start ≤ fd.val ∧ row fd = none)
  rw [h.lookup fd.isLt]

/-! ### Going through a map at exec -/

variable (l : List (Sigma fun _ : ℕ => FDTableEntry))

theorem drain_snd (hm : Vanilla.FdMap) (vec : List FDTableEntry) :
    (Vanilla.drain l hm vec).2 = vec ++ (l.map Sigma.snd).filter (·.shouldCloexec) := by
  induction l generalizing hm vec with
  | nil => exact (append_nil vec).symm
  | cons x l ih =>
    rw [Vanilla.drain, map_cons]
    by_cases hx : x.2.shouldCloexec = true
    · rw [if_pos hx, ih, filter_cons_of_pos hx, append_assoc, singleton_append]
    · rw [if_neg hx, ih, filter_cons_of_neg hx]

/-- The map of those to keep has the entry of a key that came up, if it is to be kept. -/
theorem lookup_drain_fst (hl : l.NodupKeys) (hm : Vanilla.FdMap) (vec : List FDTableEntry)
    (fd : ℕ) (hfd : fd ∈ l.keys → hm.lookup fd = none) :
    (Vanilla.drain l hm vec).1.lookup fd
      = ((l.dlookup fd).filter (!·.shouldCloexec)).or (hm.lookup fd) := by
  induction l generalizing hm vec with
  | nil => rfl
  | cons x l ih =>
    obtain ⟨k, e⟩ := x
    obtain ⟨hk, hrest⟩ := nodupKeys_cons.mp hl
    rw [Vanilla.drain]
    by_cases hx : e.shouldCloexec = true
    · rw [if_pos hx, ih hrest hm _ fun hmem => hfd (mem_cons_of_mem _ hmem)]
      by_cases hne : fd = k
      · subst hne
        have hgone : Option.filter (!·.shouldCloexec) (some e) = none := by simp [hx]
        rw [dlookup_cons_eq, dlookup_eq_none.mpr hk]
        exact congrArg (Option.or · (hm.lookup fd)) hgone.symm
      · rw [dlookup_cons_ne _ _ hne]
    · rw [if_neg hx]
      by_cases hne : fd = k
      · subst hne
        have hkept : Option.filter (!·.shouldCloexec) (some e) = some e := by simp [hx]
        rw [ih hrest _ _ fun hmem => absurd hmem hk, dlookup_cons_eq,
          dlookup_eq_none.mpr hk, lookup_insert]
        exact congrArg (Option.or · (hm.lookup fd)) hkept.symm
      · rw [ih hrest _ _ fun hmem => (lookup_insert_ne hne).trans
          (hfd (mem_cons_of_mem _ hmem)), dlookup_cons_ne _ _ hne,
          lookup_insert_ne hne]

/-- **At exec the map keeps what the row keeps**, … -/
theorem Holds.drain (h : Holds row m) :
    Holds (fun fd => (row fd).filter (!·.shouldCloexec))
      (Vanilla.drain (order.entries m) ∅ []).1 := by
  intro fd
  have hkeys : (order.entries m).NodupKeys := (perm_nodupKeys (order.perm m)).mpr m.nodupKeys
  have hlook : (order.entries m).dlookup fd = m.lookup fd :=
    perm_dlookup fd hkeys (order.perm m)
  rw [lookup_drain_fst _ hkeys ∅ [] fd fun _ => rfl, hlook, h fd, lookup_empty,
    or_none]
  by_cases hfd : fd < fdPerProcessMax
  · rw [dif_pos hfd, dif_pos hfd]
  · rw [dif_neg hfd, dif_neg hfd]
    rfl

/-- … and what it closes the row closes. -/
theorem Holds.drain_perm (h : Holds row m) :
    (Vanilla.drain (order.entries m) ∅ []).2.Perm
      ((rowEntries row).filter (·.shouldCloexec)) := by
  rw [drain_snd, nil_append]
  exact (h.perm_values order).filter _

end Holds

/-! ## The count of the hash map -/

namespace Vanilla

variable {v : State}

theorem incrementFdcount_eq (v : State) (e : FDTableEntry) :
    ∃ c, incrementFdcount v e = { v with fdcount := c } ∧
      ∀ f, Counts v.fdcount f → Counts c fun p => f p + slotRefs p (some e) := by
  obtain ⟨c, hc, hcount⟩ := FdTables.incrementFdcount_eq v.common e
  exact ⟨c, by rw [incrementFdcount, hc]; rfl, hcount⟩

theorem incrementAll_eq (v : State) (l : List FDTableEntry) :
    ∃ c, incrementAll v l = { v with fdcount := c } ∧
      ∀ f, Counts v.fdcount f → Counts c fun p => f p + listRefs p l := by
  induction l generalizing v with
  | nil => exact ⟨v.fdcount, rfl, fun f hf => hf⟩
  | cons e l ih =>
    obtain ⟨c, hc, hcount⟩ := incrementFdcount_eq v e
    obtain ⟨c', hc', hcount'⟩ := ih { v with fdcount := c }
    refine ⟨c', by rw [incrementAll, foldl_cons, hc, ← incrementAll, hc'], fun f hf => ?_⟩
    exact (hcount' _ (hcount f hf)).congr fun p => by rw [listRefs_cons, Nat.add_assoc]

variable {f : ℕ × ℕ → ℕ}

theorem decrementFdcount_eq (e : FDTableEntry)
    (h : Counts v.fdcount fun p => f p + slotRefs p (some e)) :
    ∃ r c new, FdTables.decrementFdcount v.common e
        = .ok (r, { v.common with fdcount := c, calls := new }) ∧
      decrementFdcount v e = .ok (r, { v with fdcount := c, calls := new }) ∧ Counts c f := by
  obtain ⟨r, c, call, hdec, hc, -⟩ := decrementFdcount_spec (s := v.common) e h
  exact ⟨r, c, _, hdec, by rw [decrementFdcount, hdec]; rfl, hc⟩

theorem decrementAll_eq (l : List FDTableEntry) (h : Counts v.fdcount fun p => f p + listRefs p l) :
    decrementAll v l = (FdTables.decrementAll v.common l).map v.recount := by
  induction l generalizing v with
  | nil => rfl
  | cons e l ih =>
    have h' : Counts v.fdcount fun p => (f p + listRefs p l) + slotRefs p (some e) :=
      h.congr fun p => by rw [listRefs_cons]; omega
    obtain ⟨r, c, new, hcommon, hdec, hc⟩ := decrementFdcount_eq e h'
    rw [decrementAll, FdTables.decrementAll, hcommon, hdec]
    cases r with
    | error errno => rfl
    | ok => exact ih hc

/-- With handlers that return `Ok`, dropping one is dropping a list of one. -/
theorem decrementOne_eq_all {e : FDTableEntry} (hh : v.common.HandlersOk)
    (h : Counts v.fdcount fun p => f p + slotRefs p (some e)) :
    decrementOne v e = (decrementAll v [e]).map (Prod.mk (.ok ())) := by
  obtain ⟨r, c, call, hdec, -, -, -, -, hr⟩ := decrementFdcount_spec (s := v.common) e h
  obtain rfl := hr hh
  rw [decrementOne, decrementAll, decrementFdcount, hdec]
  rfl

end Vanilla

/-! ## One call -/

/-- The two tables hold the same. -/
structure Same (v : Vanilla.State) : Prop where
  rows : ∀ c, Option.Rel Holds (s.fdtable.lookup c) (v.fdtable.lookup c)
  counts : ∀ p, s.fdcount.lookup p = v.fdcount.lookup p
  handlers : s.closehandlertable = v.closehandlertable

/-- Both calls panic, where `P`, or else return the same, make the same handler calls and leave the
same. -/
inductive Alike (s : State) (v : Vanilla.State) (P : Prop) :
    Except Panic (TableAnswer × State) → Except Panic (TableAnswer × Vanilla.State) → Prop where
  | ok {a : TableAnswer} {s' : State} {v' : Vanilla.State} (hP : ¬ P) (hsame : Same s' v')
      (hclosed : closed s.calls s'.calls = closed v.calls v'.calls) :
      Alike s v P (.ok (a, s')) (.ok (a, v'))
  | panic {p q : Panic} (hP : P) : Alike s v P (.error p) (.error q)

theorem map_map_mk {γ : Type} (x : Except Panic α) (b : β) (g : β → γ) :
    (x.map (Prod.mk b)).map (Prod.map g id) = x.map (Prod.mk (g b)) := by
  cases x <;> rfl

theorem closed_append (before new : List CloseCall) :
    closed before (before ++ new) = (new.map CloseCall.key : List _) := by
  rw [closed, drop_left]

theorem closed_self (calls : List CloseCall) : closed calls calls = 0 := by
  rw [closed, drop_length]
  rfl

section Alike

variable {s : State} {v : Vanilla.State} {c : ℕ} {a : TableAnswer} {P : Prop}

theorem Alike.quiet {s' : State} {v' : Vanilla.State} (hP : ¬ P) (hsame : Same s' v')
    (hs : s'.calls = s.calls) (hv : v'.calls = v.calls) : Alike s v P (.ok (a, s')) (.ok (a, v')) :=
  .ok hP hsame (by rw [hs, hv, closed_self, closed_self])

theorem Alike.drop {t : State} {w : Vanilla.State} (hP : ¬ P) (hs : t.calls = s.calls)
    (hv : w.calls = v.calls) {x : Except Panic State} {y : Except Panic Vanilla.State}
    (h : ∃ t' w', x = .ok t' ∧ y = .ok w' ∧ Same t' w' ∧
      closed t.calls t'.calls = closed w.calls w'.calls) :
    Alike s v P (x.map (Prod.mk a)) (y.map (Prod.mk a)) := by
  obtain ⟨t', w', rfl, rfl, hsame, hclosed⟩ := h
  exact .ok hP hsame (by rw [← hs, ← hv, hclosed])

variable {f : ℕ × ℕ → ℕ} {fd : ℕ}

section

variable (h : Same s v) (hinv : s.Inv) (order : Vanilla.IterOrder)
include h

theorem Same.counts_of (hf : Counts s.fdcount f) :
    Counts v.fdcount f := fun p => (h.counts p).symm.trans (hf p)

theorem Same.cases (c : ℕ) :
    (c ∉ s.fdtable ∧ s.fdtable.lookup c = none ∧ v.fdtable.lookup c = none) ∨
      ∃ row m, ¬ c ∉ s.fdtable ∧ s.fdtable.lookup c = some row ∧ v.fdtable.lookup c = some m ∧
        Holds row m := by
  have hc := h.rows c
  cases hs : s.fdtable.lookup c with
  | none =>
    rw [hs] at hc
    refine .inl ⟨lookup_eq_none.mp hs, rfl, ?_⟩
    generalize v.fdtable.lookup c = w at hc ⊢
    cases hc
    rfl
  | some row =>
    rw [hs] at hc
    have hmem : ¬ c ∉ s.fdtable := not_not.mpr (lookup_isSome.mp (by rw [hs]; rfl))
    generalize hw : v.fdtable.lookup c = w at hc ⊢
    cases hc with
    | some hrow => exact .inr ⟨row, _, hmem, rfl, rfl, hrow⟩

theorem Same.setRow (c : ℕ) {row : FdRow} {m : Vanilla.FdMap} (hrow : Holds row m) :
    Same (setRow s c row) (Vanilla.setMap v c m) := by
  refine ⟨fun c' => ?_, h.counts, h.handlers⟩
  show Option.Rel Holds ((s.fdtable.insert c row).lookup c') ((v.fdtable.insert c m).lookup c')
  by_cases hc : c' = c
  · subst hc
    rw [lookup_insert, lookup_insert]
    exact .some hrow
  · rw [lookup_insert_ne hc, lookup_insert_ne hc]
    exact h.rows c'

theorem Same.erase (c : ℕ) :
    Same { s with fdtable := s.fdtable.erase c } { v with fdtable := v.fdtable.erase c } := by
  refine ⟨fun c' => ?_, h.counts, h.handlers⟩
  by_cases hc : c' = c
  · subst hc
    rw [lookup_erase, lookup_erase]
    exact .none
  · rw [lookup_erase_ne hc, lookup_erase_ne hc]
    exact h.rows c'

/-- The counts are the same again once both are counted for the same. -/
theorem Same.recount {d d' : AList fun _ : ℕ × ℕ => ℕ} (hd : Counts d f)
    (hd' : Counts d' f) (calls calls' : List CloseCall) :
    Same { s with fdcount := d, calls := calls } { v with fdcount := d', calls := calls' } :=
  ⟨h.rows, fun p => (hd p).trans (hd' p).symm, h.handlers⟩

theorem Same.incrementFdcount (hf : Counts s.fdcount f) (e : FDTableEntry) :
    ∃ d d', FdTables.incrementFdcount s e = { s with fdcount := d } ∧
      Vanilla.incrementFdcount v e = { v with fdcount := d' } ∧
      Counts d (fun p => f p + slotRefs p (some e)) ∧
      Same { s with fdcount := d } { v with fdcount := d' } := by
  obtain ⟨d, hd, hcount⟩ := incrementFdcount_eq s e
  obtain ⟨d', hd', hcount'⟩ := Vanilla.incrementFdcount_eq v e
  exact ⟨d, d', hd, hd', hcount f hf, h.recount (hcount f hf) (hcount' f (h.counts_of hf)) _ _⟩

/-- **Dropping the same entries in any order** tells each pair the same counts and leaves the
same. -/
theorem Same.decrementAll (hh : s.HandlersOk) {l l' : List FDTableEntry}
    (hf : Counts s.fdcount fun p => f p + listRefs p l) (hl : l'.Perm l) :
    ∃ s' v', FdTables.decrementAll s l = .ok s' ∧ Vanilla.decrementAll v l' = .ok v' ∧
      Same s' v' ∧ closed s.calls s'.calls = closed v.calls v'.calls := by
  have hrefs : ∀ p, listRefs p l' = listRefs p l := fun p => hl.countP_eq _
  have hv : Counts v.fdcount fun p => f p + listRefs p l' :=
    (h.counts_of hf).congr fun p => by rw [hrefs]
  have hhv : v.common.HandlersOk := fun k hs hk => hh k hs ((congrFun h.handlers k).trans hk)
  obtain ⟨d, new, hdec, hd, -, hkeys⟩ := decrementAll_spec hh l hf
  obtain ⟨d', new', hdec', hd', -, hkeys'⟩ := decrementAll_spec hhv l' hv
  refine ⟨_, _, hdec, by rw [Vanilla.decrementAll_eq l' hv, hdec']; rfl, h.recount hd hd' _ _, ?_⟩
  show closed s.calls (s.calls ++ new) = closed v.calls (v.calls ++ new')
  rw [closed_append, closed_append]
  refine Multiset.coe_eq_coe.mpr (perm_iff_count.mpr fun x => ?_)
  obtain ⟨p, n⟩ := x
  rw [hkeys, hkeys', hrefs]

/-! ### The operations -/

theorem alike_initEmptyCage (c : ℕ) :
    Alike s v (c ∈ s.fdtable) ((initEmptyCage s c).map (Prod.map .unit id))
      ((Vanilla.initEmptyCage v c).map (Prod.map .unit id)) := by
  rw [initEmptyCage, Vanilla.initEmptyCage]
  obtain ⟨hc, hs, hv⟩ | ⟨row, m, hc, hs, hv, -⟩ := h.cases c
  · rw [hs, hv]
    exact .quiet hc (h.setRow c holds_empty) rfl rfl
  · rw [hs, hv]
    exact .panic (not_not.mp hc)

theorem alike_translateVirtualFd (c : ℕ) (hfd : fd < fdPerProcessMax) :
    Alike s v (c ∉ s.fdtable) ((translateVirtualFd s c fd).map fun r => (.entry r, s))
      ((Vanilla.translateVirtualFd v c fd).map fun r => (.entry r, v)) := by
  rw [translateVirtualFd, Vanilla.translateVirtualFd, getRow, Vanilla.getMap]
  obtain ⟨hc, hs, hv⟩ | ⟨row, m, hc, hs, hv, hrow⟩ := h.cases c
  · rw [hs, hv]
    exact .panic hc
  · rw [hs, hv]
    dsimp only
    rw [dif_pos hfd, if_neg (Nat.not_le.mpr hfd), hrow.lookup hfd]
    cases row ⟨fd, hfd⟩ <;> exact .quiet hc h rfl rfl

theorem Same.registerCloseHandlers (k : ℕ) (handlers : CloseHandlers) :
    Same (registerCloseHandlers s k handlers) (Vanilla.registerCloseHandlers v k handlers) := by
  refine ⟨h.rows, h.counts, ?_⟩
  show update s.closehandlertable k _ = update v.closehandlertable k _
  rw [h.handlers]

theorem alike_modifyEntry (c : ℕ) (hfd : fd < fdPerProcessMax) (f : FDTableEntry → FDTableEntry) :
    Alike s v (c ∉ s.fdtable) ((modifyEntry s c fd f).map (Prod.map .unit id))
      ((Vanilla.modifyEntry v c fd f).map (Prod.map .unit id)) := by
  rw [modifyEntry, Vanilla.modifyEntry, getRow, Vanilla.getMap]
  obtain ⟨hc, hs, hv⟩ | ⟨row, m, hc, hs, hv, hrow⟩ := h.cases c
  · rw [hs, hv]
    exact .panic hc
  · rw [hs, hv]
    dsimp only
    rw [dif_pos hfd, hrow.lookup hfd]
    cases row ⟨fd, hfd⟩ with
    | none => exact .quiet hc h rfl rfl
    | some e => exact .quiet hc (h.setRow c (hrow.insert hfd (f e))) rfl rfl

include hinv

theorem alike_allocateFrom (c : ℕ) (e : FDTableEntry) (start : ℕ) :
    Alike s v (c ∉ s.fdtable) ((allocateFrom s c e start).map (Prod.map .fd id))
      ((Vanilla.allocateFrom v c e start).map (Prod.map .fd id)) := by
  rw [allocateFrom, Vanilla.allocateFrom, getRow, Vanilla.getMap]
  obtain ⟨hc, hs, hv⟩ | ⟨row, m, hc, hs, hv, hrow⟩ := h.cases c
  · rw [hs, hv]
    exact .panic hc
  · rw [hs, hv]
    dsimp only
    rw [hrow.firstVacant_eq start]
    cases firstUnused row start with
    | none => exact .quiet hc h rfl rfl
    | some fd =>
      obtain ⟨d, d', hd, hd', -, hsame⟩ :=
        (h.setRow c (hrow.insert fd.isLt e)).incrementFdcount hinv.counts e
      dsimp only [Option.map]
      rw [hd, hd']
      exact .quiet hc hsame rfl rfl

theorem alike_copyFdtableForCage (src new : ℕ) :
    Alike s v (src ∉ s.fdtable ∨ new ∈ s.fdtable)
      ((copyFdtableForCage s src new).map (Prod.map .unit id))
      ((Vanilla.copyFdtableForCage order v src new).map (Prod.map .unit id)) := by
  rw [copyFdtableForCage, Vanilla.copyFdtableForCage, getRow, Vanilla.getMap]
  obtain ⟨hc, hs, hv⟩ | ⟨row, m, hc, hs, hv, hrow⟩ := h.cases src
  · rw [hs, hv]
    exact .panic (.inl hc)
  · rw [hs, hv]
    obtain ⟨hnew, hs', hv'⟩ | ⟨_, _, hnew, hs', hv', -⟩ := h.cases new
    · rw [hs', hv']
      dsimp only
      obtain ⟨d, hd, hcount⟩ := foldl_incrementFdcount_eq s (rowEntries row)
      obtain ⟨d', hd', hcount'⟩ := Vanilla.incrementAll_eq v (order.values m)
      have hrefs : ∀ p, listRefs p (order.values m) = listRefs p (rowEntries row) :=
        fun p => (hrow.perm_values order).countP_eq _
      have hcounted : Counts d' fun p => s.refs p + listRefs p (rowEntries row) :=
        (hcount' s.refs (h.counts_of hinv.counts)).congr fun p => by rw [hrefs]
      rw [hd, hd']
      refine .quiet (fun hbad => hbad.elim hc hnew) (Same.setRow ?_ new hrow) rfl rfl
      exact h.recount (hcount s.refs hinv.counts) hcounted _ _
    · rw [hs', hv']
      exact .panic (.inr (not_not.mp hnew))

theorem alike_getSpecificVirtualFd (c : ℕ) {r : ℕ}
    (hr : r < fdPerProcessMax) (k u : ℕ) (x : Bool) (i : ℕ) :
    Alike s v (c ∉ s.fdtable) ((getSpecificVirtualFd s c r k u x i).map (Prod.map .unit id))
      ((Vanilla.getSpecificVirtualFd v c r k u x i).map (Prod.map .unit id)) := by
  rw [getSpecificVirtualFd, Vanilla.getSpecificVirtualFd, getRow, Vanilla.getMap]
  obtain ⟨hc, hs, hv⟩ | ⟨row, m, hc, hs, hv, hrow⟩ := h.cases c
  · rw [hs, hv]
    exact .panic hc
  · rw [hs, hv]
    dsimp only
    rw [if_neg (Nat.not_lt.mpr hr.le), if_neg (Nat.not_lt.mpr hr.le), dif_pos hr]
    generalize ({ fdkind := k, underfd := u, shouldCloexec := x, perfdinfo := i }
      : FDTableEntry) = e
    obtain ⟨d, d', hd, hd', hcount, hsame⟩ := h.incrementFdcount hinv.counts e
    rw [hd, hd', hrow.lookup hr]
    have hstored := hsame.setRow c (hrow.insert hr e)
    cases hslot : row ⟨r, hr⟩ with
    | none => exact .quiet hc hstored rfl rfl
    | some old =>
      -- the new entry is stored and counted; the old one is counted and no longer stored
      have hrefs : ∀ p, (setRow s c (update row ⟨r, hr⟩ (some e))).refs p
          + slotRefs p (some old) = s.refs p + slotRefs p (some e) := fun p => by
        rw [← hslot]
        exact refs_setRow_update hs ⟨r, hr⟩ (some e)
      have hdrop := hcount.congr fun p => (hrefs p).symm
      dsimp only
      rw [decrementOne_eq_all (t := setRow { s with fdcount := d } c _) hinv.handlers hdrop,
        map_map_mk, map_map_mk]
      simp only [← listRefs_singleton] at hdrop
      exact .drop hc rfl rfl
        (hstored.decrementAll hinv.handlers hdrop (List.Perm.refl [old]))

theorem alike_closeVirtualfd (c : ℕ) (hfd : fd < fdPerProcessMax) :
    Alike s v (c ∉ s.fdtable) ((closeVirtualfd s c fd).map (Prod.map .unit id))
      ((Vanilla.closeVirtualfd v c fd).map (Prod.map .unit id)) := by
  rw [closeVirtualfd, Vanilla.closeVirtualfd, dif_pos hfd, if_neg (Nat.not_le.mpr hfd), getRow,
    Vanilla.getMap]
  obtain ⟨hc, hs, hv⟩ | ⟨row, m, hc, hs, hv, hrow⟩ := h.cases c
  · rw [hs, hv]
    exact .panic hc
  · rw [hs, hv]
    dsimp only
    rw [hrow.lookup hfd]
    cases hslot : row ⟨fd, hfd⟩ with
    | none => exact .quiet hc h rfl rfl
    | some old =>
      have hrefs : ∀ p, (setRow s c (update row ⟨fd, hfd⟩ none)).refs p
          + slotRefs p (some old) = s.refs p := fun p => by
        rw [← hslot]
        exact refs_setRow_update hs ⟨fd, hfd⟩ none
      have hstored := h.setRow c (hrow.erase hfd)
      have hdrop := hinv.counts.congr fun p => (hrefs p).symm
      have hdrop' := h.counts_of hdrop
      have hh : v.common.HandlersOk := fun k hs hk =>
        hinv.handlers k hs ((congrFun h.handlers k).trans hk)
      dsimp only
      rw [decrementOne_eq_all (t := setRow _ c _) hinv.handlers hdrop,
        Vanilla.decrementOne_eq_all (v := Vanilla.setMap _ c _) hh hdrop', map_map_mk,
        map_map_mk]
      simp only [← listRefs_singleton] at hdrop
      exact .drop hc rfl rfl
        (hstored.decrementAll hinv.handlers hdrop (List.Perm.refl [old]))

theorem alike_removeCageFromFdtable (c : ℕ) :
    Alike s v False ((removeCageFromFdtable s c).map (Prod.mk .done))
      ((Vanilla.removeCageFromFdtable order v c).map (Prod.mk .done)) := by
  rw [removeCageFromFdtable, Vanilla.removeCageFromFdtable]
  obtain ⟨-, hs, hv⟩ | ⟨row, m, -, hs, hv, hrow⟩ := h.cases c
  · rw [hs, hv]
    exact .quiet id h rfl rfl
  · rw [hs, hv]
    have hdrop := hinv.counts.congr fun p =>
      (refs_erase hs).trans (congrArg _ (listRefs_rowEntries (p := p) row).symm)
    exact .drop id rfl rfl
      ((h.erase c).decrementAll hinv.handlers hdrop (hrow.perm_values order))

theorem alike_emptyFdsForExec (c : ℕ) :
    Alike s v (c ∉ s.fdtable) ((emptyFdsForExec s c).map (Prod.mk .done))
      ((Vanilla.emptyFdsForExec order v c).map (Prod.mk .done)) := by
  rw [emptyFdsForExec, Vanilla.emptyFdsForExec, getRow, Vanilla.getMap]
  obtain ⟨hc, hs, hv⟩ | ⟨row, m, hc, hs, hv, hrow⟩ := h.cases c
  · rw [hs, hv]
    exact .panic hc
  · rw [hs, hv]
    have hdrop := hinv.counts.congr fun p => refs_eq_kept_add_closed hs
    exact .drop hc rfl rfl ((h.setRow c (hrow.drain order)).decrementAll
      hinv.handlers hdrop (hrow.drain_perm order))

/-- **Every call** in range is alike on tables that hold the same. -/
theorem alike_run {r : TableRequest}
    (hr : r.InRange) : Alike s v (Misused s r) (run s r) (Vanilla.run order v r) := by
  cases r with
  | translateVirtualFd c fd => exact alike_translateVirtualFd h c hr
  | op o =>
    cases o with
    | initEmptyCage => exact alike_initEmptyCage h _
    | getUnusedVirtualFd => exact alike_allocateFrom h hinv _ _ _
    | getUnusedVirtualFdFromStartfd => exact alike_allocateFrom h hinv _ _ _
    | getSpecificVirtualFd => exact alike_getSpecificVirtualFd h hinv _ hr _ _ _ _
    | setCloexec => exact alike_modifyEntry h _ hr _
    | setPerfdinfo => exact alike_modifyEntry h _ hr _
    | copyFdtableForCage => exact alike_copyFdtableForCage h hinv order _ _
    | removeCageFromFdtable => exact alike_removeCageFromFdtable h hinv order _
    | emptyFdsForExec => exact alike_emptyFdsForExec h hinv order _
    | closeVirtualfd => exact alike_closeVirtualfd h hinv _ hr
    | registerCloseHandlers => exact .quiet id (h.registerCloseHandlers _ _) rfl rfl

end

end Alike

/-! ## Runs -/

section Runs

variable {s : State} {v : Vanilla.State}

theorem map_snd_map (x : Except Panic (α × State)) (g : α → β) :
    (x.map (Prod.map g id)).map Prod.snd = x.map Prod.snd := by
  cases x <;> rfl

theorem map_snd_mk (x : Except Panic State) (a : α) : (x.map (Prod.mk a)).map Prod.snd = x := by
  cases x <;> rfl

theorem map_snd_run (s : State) (o : Op) : (run s (.op o)).map Prod.snd = exec s o := by
  cases o with
  | removeCageFromFdtable | emptyFdsForExec => exact map_snd_mk _ _
  | registerCloseHandlers => rfl
  | _ => exact map_snd_map _ _

theorem inv_arrayStep (hinv : s.Inv) (call : Call) : (arrayStep s call).1.Inv := by
  obtain ⟨r, order, hr, hok⟩ := call
  rw [arrayStep]
  cases hrun : run s r with
  | error p => exact hinv
  | ok x =>
    cases r with
    | translateVirtualFd c fd =>
      change (translateVirtualFd s c fd).map _ = _ at hrun
      cases htr : translateVirtualFd s c fd with
      | error p =>
        rw [htr] at hrun
        cases hrun
      | ok res =>
        rw [htr] at hrun
        exact (Except.ok.inj hrun) ▸ hinv
    | op o =>
      have hgood := good_exec hinv hok
      rw [← map_snd_run, hrun] at hgood
      exact hgood.1

/-- The lock is poisoned, and taken: only the array can answer. -/
theorem response_iff_misused (h : Same s v) (hinv : s.Inv) (call : Call) :
    (arrayStep s call).2 = none ↔ Misused s call.request := by
  have halike := alike_run h hinv call.order call.inRange
  rw [arrayStep]
  generalize run s call.request = x at halike ⊢
  generalize Vanilla.run call.order v call.request = y at halike
  cases halike with
  | ok hP => exact iff_of_false (some_ne_none _) hP
  | panic hP => exact iff_of_true rfl hP

/-- **Call for call the answers are the same exactly where the tables agree.** -/
theorem response_eq_iff (h : Same s v) (hinv : s.Inv) (call : Call) :
    (arrayStep s call).2 = (vanillaStep v call).2 ↔ Agrees (s, v) call := by
  rw [vanillaStep, Agrees]
  by_cases hp : v.poisoned = true ∧ call.request.Locks
  · rw [if_pos hp]
    refine (response_iff_misused h hinv call).trans ⟨fun hbad _ _ => hbad, fun hbad => ?_⟩
    exact hbad hp.1 hp.2
  · rw [if_neg hp]
    refine iff_of_true ?_ fun hpoison hlocks => absurd ⟨hpoison, hlocks⟩ hp
    have halike := alike_run h hinv call.order call.inRange
    rw [arrayStep]
    generalize run s call.request = x at halike ⊢
    generalize Vanilla.run call.order v call.request = y at halike ⊢
    cases halike with
    | ok hP hsame hclosed => exact congrArg (fun z => some (_, z)) hclosed
    | panic hP => rfl

theorem same_step (h : Same s v) (hinv : s.Inv) {call : Call} (hok : Agrees (s, v) call) :
    Same (arrayStep s call).1 (vanillaStep v call).1 := by
  have halike := alike_run h hinv call.order call.inRange
  rw [arrayStep, vanillaStep]
  generalize run s call.request = x at halike ⊢
  generalize Vanilla.run call.order v call.request = y at halike ⊢
  by_cases hp : v.poisoned = true ∧ call.request.Locks
  · rw [if_pos hp]
    cases halike with
    | ok hP => exact absurd (hok hp.1 hp.2) hP
    | panic hP => exact h
  · rw [if_neg hp]
    cases halike with
    | ok hP hsame => exact hsame
    | panic hP => exact ⟨h.rows, h.counts, h.handlers⟩

theorem same_init : Same State.init Vanilla.State.init := ⟨fun _ => .none, fun _ => rfl, rfl⟩

end Runs

/-- **The array and the hash map.**  A sequence of calls, with descriptors in range and handlers
that return `Ok`, gets the same results and makes the same handler calls with both, however the hash
maps are gone through, exactly if after a panic all that take the lock panic with the array too. -/
theorem tables_alike (calls : List Call) :
    answers arrayStep State.init calls = answers vanillaStep Vanilla.State.init calls ↔
      StepsOk (bothStep arrayStep vanillaStep) Agrees (State.init, Vanilla.State.init) calls := by
  rw [← forall₂_eq_eq_eq]
  refine forall₂_answers_iff (R := fun s v => s.Inv ∧ Same s v) ?_ ?_ ⟨inv_init, same_init⟩ calls
  · exact fun s v call h => response_eq_iff h.2 h.1 call
  · exact fun s v call h hok => ⟨inv_arrayStep h.1 call, same_step h.2 h.1 hok⟩

/-- Ask for a descriptor of a cage that was never there, then for one of a cage that is. -/
def strayThenSound : List Call :=
  [⟨.op (.initEmptyCage 1), .stored, trivial, trivial⟩,
   ⟨.translateVirtualFd 9 0, .stored, Nat.succ_pos 1023, trivial⟩,
   ⟨.translateVirtualFd 1 0, .stored, Nat.succ_pos 1023, trivial⟩]

/-- **A panic is the end of the hash map**: the next call panics with it, and is answered by the
array. -/
theorem not_tables_alike :
    answers arrayStep State.init strayThenSound
      = [some (.unit (.ok ()), 0), none, some (.entry (.error (.errno .EBADFD)), 0)] ∧
    answers vanillaStep Vanilla.State.init strayThenSound
      = [some (.unit (.ok ()), 0), none, none] :=
  ⟨rfl, rfl⟩

end LindWasm.FdTables
