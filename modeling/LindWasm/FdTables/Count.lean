import LindWasm.FdTables.Basic

/-!
# FdTables/Count — the global count is the number of references

    fdcount (k, u)  =  #{ (cage, fd) | row cage fd holds (k, u) },   absent at zero

The count and the rows are edited at different moments of an operation, so the two are tied by
`Counts` with the references still to be dropped on the side; `decrementAll_spec` drops them one by
one, and calls `last` for a pair exactly when its final reference goes. `fdcount_eq_refs` carries
this through every run.
-/

namespace LindWasm.FdTables

open Function Option List AList

/-! ## References -/

/-- The references to `p` in one slot. -/
def slotRefs (p : ℕ × ℕ) (slot : Option FDTableEntry) : ℕ :=
  slot.elim 0 fun e => if e.pair = p then 1 else 0

/-- The references to `p` in one row. -/
def rowRefs (p : ℕ × ℕ) (row : FdRow) : ℕ := ∑ fd, slotRefs p (row fd)

/-- The references to `p` in a list of entries. -/
def listRefs (p : ℕ × ℕ) (l : List FDTableEntry) : ℕ := l.countP (·.pair = p)

variable (s : State)

/-- The number of slots, over all cages, that hold `p`. -/
def State.refs (p : ℕ × ℕ) : ℕ := s.fdtable.total (rowRefs p)

variable {p : ℕ × ℕ} {s' : State} {l : List FDTableEntry} {op : Op}

@[simp] theorem slotRefs_none : slotRefs p none = 0 := rfl

theorem listRefs_cons (e : FDTableEntry) (l : List FDTableEntry) :
    listRefs p (e :: l) = slotRefs p (some e) + listRefs p l := by
  simp [listRefs, slotRefs, countP_cons, Nat.add_comm]

/-- **The entries of a row carry its references.** -/
theorem listRefs_rowEntries (row : FdRow) : listRefs p (rowEntries row) = rowRefs p row := by
  rw [rowRefs, Fin.sum_univ_def, rowEntries]
  induction finRange fdPerProcessMax with
  | nil => rfl
  | cons fd l ih =>
    rw [map_cons, sum_cons, ← ih]
    cases h : row fd with
    | none => rw [filterMap_cons_none h, slotRefs_none, Nat.zero_add]
    | some e => rw [filterMap_cons_some h, listRefs_cons]

theorem rowRefs_update (row : FdRow) (fd : Fin fdPerProcessMax) (slot : Option FDTableEntry) :
    rowRefs p (update row fd slot) + slotRefs p (row fd)
      = rowRefs p row + slotRefs p slot := by
  have h : (fun i => slotRefs p (update row fd slot i))
      = update (fun i => slotRefs p (row i)) fd (slotRefs p slot) := by
    funext i
    by_cases hi : i = fd
    · subst hi
      simp
    · simp [hi]
  rw [rowRefs, rowRefs, h, Finset.sum_update_of_mem (Finset.mem_univ fd),
    ← Finset.sum_erase_add _ _ (Finset.mem_univ fd), Finset.sdiff_singleton_eq_erase]
  omega

theorem rowRefs_filter (row : FdRow) (q : FDTableEntry → Bool) :
    rowRefs p (fun fd => (row fd).filter fun e => !q e) + listRefs p ((rowEntries row).filter q)
      = rowRefs p row := by
  have h : rowEntries (fun fd => (row fd).filter fun e => !q e)
      = (rowEntries row).filter fun e => !q e := by
    simp only [rowEntries, filter_filterMap]
  rw [← listRefs_rowEntries, ← listRefs_rowEntries, h, Nat.add_comm]
  exact (countP_eq_countP_filter_add _ _ _).symm

section Rows

variable {s : State} {cageid : ℕ} {row : FdRow}

theorem refs_setRow (h : s.fdtable.lookup cageid = some row) (row' : FdRow) :
    (setRow s cageid row').refs p + rowRefs p row = s.refs p + rowRefs p row' := by
  rw [← weightAt_of_lookup (w := rowRefs p) h]
  exact total_insert_add

theorem refs_setRow_new (h : s.fdtable.lookup cageid = none) (row' : FdRow) :
    (setRow s cageid row').refs p = s.refs p + rowRefs p row' := by
  have := total_insert_add (t := s.fdtable) (a := cageid) (b := row') (w := rowRefs p)
  rwa [weightAt_of_lookup_none h, Nat.add_zero] at this

section

variable (h : s.fdtable.lookup cageid = some row)
include h

theorem refs_setRow_update (fd : Fin fdPerProcessMax) (slot : Option FDTableEntry) :
    (setRow s cageid (update row fd slot)).refs p + slotRefs p (row fd)
      = s.refs p + slotRefs p slot := by
  have h1 := refs_setRow (p := p) h (update row fd slot)
  have h2 := rowRefs_update (p := p) row fd slot
  omega

theorem refs_erase :
    s.refs p = ({ s with fdtable := s.fdtable.erase cageid } : State).refs p + rowRefs p row := by
  rw [← weightAt_of_lookup (w := rowRefs p) h]
  exact (total_erase_add s.fdtable (rowRefs p) cageid).symm

/-- At exec the references are those kept and those to close. -/
theorem refs_eq_kept_add_closed :
    s.refs p = (setRow s cageid fun fd => (row fd).filter (!·.shouldCloexec)).refs p
      + listRefs p ((rowEntries row).filter (·.shouldCloexec)) := by
  have h1 := refs_setRow (p := p) h fun fd => (row fd).filter (!·.shouldCloexec)
  have h2 := rowRefs_filter (p := p) row (·.shouldCloexec)
  omega

theorem slotRefs_le_refs (fd : Fin fdPerProcessMax) : slotRefs p (row fd) ≤ s.refs p := by
  have := refs_setRow_update (p := p) h fd none
  rw [slotRefs_none] at this
  omega

end

theorem getRow_cases (s : State) (cageid : ℕ) :
    (s.fdtable.lookup cageid = none ∧ getRow s cageid = .error .unknownCage) ∨
      ∃ row, s.fdtable.lookup cageid = some row ∧ getRow s cageid = .ok row := by
  unfold getRow
  cases s.fdtable.lookup cageid with
  | none => exact .inl ⟨rfl, rfl⟩
  | some row => exact .inr ⟨row, rfl, rfl⟩

end Rows

/-! ## One count up, one count down -/

section Counting

variable {s : State} {f : ℕ × ℕ → ℕ}

/-- Every registered handler returns `Ok`. -/
def State.HandlersOk (s : State) : Prop :=
  ∀ k h, s.closehandlertable k = some h → ∀ e n, h.intermediate e n = .ok () ∧ h.last e n = .ok ()

theorem State.HandlersOk.handlersOf (h : s.HandlersOk) (e : FDTableEntry) (n : ℕ) :
    (handlersOf s e).intermediate e n = .ok () ∧ (handlersOf s e).last e n = .ok () := by
  unfold FdTables.handlersOf
  cases hk : s.closehandlertable e.fdkind with
  | none => exact ⟨rfl, rfl⟩
  | some hs => exact h _ hs hk e n

/-- Counting an entry touches the count alone. -/
theorem incrementFdcount_eq (s : State) (e : FDTableEntry) :
    ∃ c, incrementFdcount s e = { s with fdcount := c } ∧
      ∀ f, Counts s.fdcount f → Counts c fun p => f p + slotRefs p (some e) := by
  have key : ∀ f : ℕ × ℕ → ℕ, ∀ p, update f e.pair (f e.pair + 1) p
      = f p + slotRefs p (some e) := by
    intro f p
    by_cases hp : p = e.pair
    · subst hp
      simp [slotRefs]
    · rw [update_of_ne hp]
      simp [slotRefs, Ne.symm hp]
  unfold incrementFdcount
  cases hl : s.fdcount.lookup e.pair with
  | none =>
    refine ⟨_, rfl, fun f hf => (hf.insert e.pair one_ne_zero).congr fun p => ?_⟩
    have h0 : f e.pair = 0 := by
      by_contra h0
      exact absurd ((hf e.pair).symm.trans hl) (by simp [h0])
    rw [← key f p, h0, Nat.zero_add]
  | some n =>
    refine ⟨_, rfl, fun f hf => (hf.insert e.pair n.succ_ne_zero).congr fun p => ?_⟩
    have hn : f e.pair = n := by
      have := (hf e.pair).symm.trans hl
      split at this
      · exact absurd this (by simp)
      · exact some.inj this
    rw [← key f p, hn]

theorem foldl_incrementFdcount_eq (s : State) (l : List FDTableEntry) :
    ∃ c, l.foldl incrementFdcount s = { s with fdcount := c } ∧
      ∀ f, Counts s.fdcount f → Counts c fun p => f p + listRefs p l := by
  induction l generalizing s with
  | nil => exact ⟨s.fdcount, rfl, fun f hf => hf⟩
  | cons e l ih =>
    obtain ⟨c, hc, hcount⟩ := incrementFdcount_eq s e
    obtain ⟨c', hc', hcount'⟩ := ih { s with fdcount := c }
    refine ⟨c', by rw [foldl_cons, hc, hc'], fun f hf => ?_⟩
    exact (hcount' _ (hcount f hf)).congr fun p => by rw [listRefs_cons, Nat.add_assoc]

/-- The `last` calls for `p`. -/
def lastCalls (p : ℕ × ℕ) (calls : List CloseCall) : ℕ :=
  calls.countP fun c => c.last ∧ c.entry.pair = p

/-- The pair a call is about, and the count it is told. -/
def CloseCall.key (c : CloseCall) : (ℕ × ℕ) × ℕ := (c.entry.pair, c.count)

/-- **Dropping a counted entry does not panic**, and calls `last` just when nothing remains. -/
theorem decrementFdcount_spec (e : FDTableEntry)
    (h : Counts s.fdcount fun p => f p + slotRefs p (some e)) :
    ∃ r c call, decrementFdcount s e
        = .ok (r, { s with fdcount := c, calls := s.calls ++ [call] }) ∧
      Counts c f ∧ call.entry = e ∧ call.count = f e.pair ∧ (call.last ↔ f e.pair = 0) ∧
      (s.HandlersOk → r = .ok ()) := by
  have hself : slotRefs e.pair (some e) = 1 := by simp [slotRefs]
  have hl : s.fdcount.lookup e.pair = some (f e.pair + 1) := by
    have := h e.pair
    simpa [hself] using this
  have key : ∀ p,
      update (fun p => f p + slotRefs p (some e)) e.pair (f e.pair) p = f p := by
    intro p
    by_cases hp : p = e.pair
    · subst hp
      simp
    · rw [update_of_ne hp]
      simp [slotRefs, Ne.symm hp]
  unfold decrementFdcount
  rw [hl]
  dsimp only
  by_cases hpos : 0 < f e.pair
  · rw [if_pos hpos]
    refine ⟨_, _, _, rfl, (h.insert e.pair hpos.ne').congr key, rfl, rfl, ?_,
      fun hh => (hh.handlersOf e _).1⟩
    simp [hpos.ne']
  · rw [if_neg hpos]
    have h0 : f e.pair = 0 := Nat.eq_zero_of_not_pos hpos
    refine ⟨_, _, _, rfl, (h.erase e.pair).congr fun p => ?_, rfl, h0.symm, ?_,
      fun hh => (hh.handlersOf e _).2⟩
    · rw [← key p, h0]
    · simp [h0]

/-- **Dropping counted entries one by one**: no panic; each pair is told every count on the way down
once, and `last` is called once for each pair that is dropped and of which nothing remains. -/
theorem decrementAll_spec (hh : s.HandlersOk) (l : List FDTableEntry)
    (h : Counts s.fdcount fun p => f p + listRefs p l) :
    ∃ c new, decrementAll s l = .ok { s with fdcount := c, calls := s.calls ++ new } ∧
      Counts c f ∧ (∀ p, lastCalls p new = if 0 < listRefs p l ∧ f p = 0 then 1 else 0) ∧
      ∀ p n, (new.map CloseCall.key).count (p, n)
        = if f p ≤ n ∧ n < f p + listRefs p l then 1 else 0 := by
  induction l generalizing s with
  | nil =>
    refine ⟨s.fdcount, [], by simp [decrementAll], h, fun p => by simp [lastCalls, listRefs],
      fun p n => (if_neg ?_).symm⟩
    exact fun hn => Nat.not_lt.mpr hn.1 hn.2
  | cons e l ih =>
    have h' : Counts s.fdcount fun p => (f p + listRefs p l) + slotRefs p (some e) :=
      h.congr fun p => by rw [listRefs_cons]; omega
    obtain ⟨r, c, call, hdec, hc, hentry, hcall, hlast, hr⟩ := decrementFdcount_spec e h'
    obtain rfl := hr hh
    obtain ⟨c', new, hall, hc', hnew, hkeys⟩ := ih (s := { s with fdcount := c, calls := _ }) hh hc
    refine ⟨c', call :: new, ?_, hc', fun p => ?_, fun p n => ?_⟩
    · rw [decrementAll, hdec]
      dsimp only
      rw [hall]
      simp
    · have hp := hnew p
      rw [lastCalls, countP_cons, ← lastCalls, hp, listRefs_cons, hentry]
      by_cases hpe : e.pair = p
      · subst hpe
        simp only [hlast, slotRefs, Option.elim, if_true]
        grind
      · simp [slotRefs, hpe]
    · -- the count told now is the one above all that are told later
      have hkey : call.key = (e.pair, f e.pair + listRefs e.pair l) := by
        rw [CloseCall.key, hentry, hcall]
      rw [map_cons, count_cons, hkeys p n, hkey, listRefs_cons]
      by_cases hpe : e.pair = p
      · subst hpe
        simp only [slotRefs, Option.elim, if_true, beq_iff_eq, Prod.mk.injEq, true_and]
        grind
      · simp [slotRefs, hpe]

/-- A run of drops that ends leaves the count of what remains, whatever the handlers answered. -/
theorem counts_of_decrementAll (h : Counts s.fdcount fun p => f p + listRefs p l)
    (hd : decrementAll s l = .ok s') : Counts s'.fdcount f ∧ s'.fdtable = s.fdtable := by
  induction l generalizing s with
  | nil =>
    cases hd
    exact ⟨h, rfl⟩
  | cons e l ih =>
    have h' : Counts s.fdcount fun p => (f p + listRefs p l) + slotRefs p (some e) :=
      h.congr fun p => by rw [listRefs_cons]; omega
    obtain ⟨r, c, call, hdec, hc, -⟩ := decrementFdcount_spec e h'
    rw [decrementAll, hdec] at hd
    cases r with
    | error _ => cases hd
    | ok _ => exact ih (s := { s with fdcount := c, calls := _ }) hc hd

end Counting

/-! ## The operations -/

/-- The count is the number of references. -/
def State.Counted : Prop := Counts s.fdcount s.refs

/-- The count is the number of references, and handlers return `Ok`. -/
structure State.Inv : Prop where
  counts : Counts s.fdcount s.refs
  handlers : s.HandlersOk

/-- **`last` is called once for each pair whose final reference goes, and for no other.** -/
def LastOnDrop (s' : State) : Prop :=
  ∃ new, s'.calls = s.calls ++ new ∧
    ∀ p, lastCalls p new = if 0 < s.refs p ∧ s'.refs p = 0 then 1 else 0

/-- The panics that an operation's caller provokes: a wrong cage, a wrong index. -/
def Panic.OfCaller : Panic → Prop
  | .unknownCage | .knownCage | .indexOutOfBounds => True
  | .fdcountUnderflow | .fdcountMissing | .closeHandlerFailed _ => False

/-- An operation from `s` that keeps the invariant and calls `last` as it should, or was misused. -/
def Good : Except Panic State → Prop
  | .ok s' => s'.Inv ∧ LastOnDrop s s'
  | .error p => p.OfCaller

/-- An operation from `s` that keeps the count; and that with handlers that return `Ok`, if it is
given only such (`Q`), leaves such handlers, calls `last` as it should, or was misused. -/
def Kept (Q : Prop) : Except Panic State → Prop
  | .ok s' => s'.Counted ∧ (s.HandlersOk → Q → s'.HandlersOk ∧ LastOnDrop s s')
  | .error p => s.HandlersOk → p.OfCaller

section Operations

variable {s t : State} {Q : Prop} {e : FDTableEntry}

/-- An operation that calls no handler and drops no pair. -/
theorem kept_of_calls_eq (hcounted : s'.Counted) (hh : s.HandlersOk → Q → s'.HandlersOk)
    (hcalls : s'.calls = s.calls) (hrefs : ∀ p, s.refs p ≤ s'.refs p) : Kept s Q (.ok s') := by
  refine ⟨hcounted, fun hs hQ => ⟨hh hs hQ, [], by rw [hcalls, append_nil], fun p => ?_⟩⟩
  have := hrefs p
  rw [if_neg (by omega)]
  rfl

theorem kept_self (h : s.Counted) : Kept s Q (.ok s) :=
  kept_of_calls_eq h (fun hs _ => hs) rfl fun _ => le_rfl

/-- **Dropping entries that are counted but no longer stored.** -/
theorem kept_decrementAll (t : State) (hh : s.HandlersOk → t.HandlersOk)
    (hcalls : t.calls = s.calls) (hcount : Counts t.fdcount fun p => t.refs p + listRefs p l)
    (hle : ∀ p, s.refs p ≤ t.refs p + listRefs p l) (hstored : ∀ p, listRefs p l ≤ s.refs p) :
    Kept s Q (decrementAll t l) := by
  cases hd : decrementAll t l with
  | error p =>
    intro hs
    obtain ⟨c, new, hdec, -⟩ := decrementAll_spec (hh hs) l hcount
    cases hd.symm.trans hdec
  | ok s' =>
    obtain ⟨hc, htable⟩ := counts_of_decrementAll hcount hd
    have hrefs : ∀ p, s'.refs p = t.refs p := fun p => by rw [State.refs, State.refs, htable]
    refine ⟨hc.congr fun p => (hrefs p).symm, fun hs _ => ?_⟩
    obtain ⟨c, new, hdec, -, hnew, -⟩ := decrementAll_spec (hh hs) l hcount
    obtain rfl := Except.ok.inj (hd.symm.trans hdec)
    refine ⟨hh hs, new, by rw [hcalls], fun p => ?_⟩
    rw [hnew p, hrefs p]
    have h1 := hle p
    have h2 := hstored p
    exact if_congr (by omega) rfl rfl

theorem listRefs_singleton (e : FDTableEntry) : listRefs p [e] = slotRefs p (some e) :=
  listRefs_cons e []

/-- With handlers that return `Ok`, dropping one is dropping a list of one. -/
theorem decrementOne_eq_all {f : ℕ × ℕ → ℕ} (hh : t.HandlersOk)
    (hcount : Counts t.fdcount fun p => f p + slotRefs p (some e)) :
    decrementOne t e = (decrementAll t [e]).map (Prod.mk (.ok ())) := by
  obtain ⟨r, c, call, hdec, -, -, -, -, hr⟩ := decrementFdcount_spec e hcount
  obtain rfl := hr hh
  rw [decrementOne, decrementAll, hdec]
  rfl

/-- …and so it keeps the count as the list does; without them it still does. -/
theorem kept_decrementOne (hh : s.HandlersOk → t.HandlersOk)
    (hcalls : t.calls = s.calls) (hcount : Counts t.fdcount fun p => t.refs p + slotRefs p (some e))
    (hle : ∀ p, s.refs p ≤ t.refs p + slotRefs p (some e))
    (hstored : ∀ p, slotRefs p (some e) ≤ s.refs p) :
    Kept s Q ((decrementOne t e).map Prod.snd) := by
  by_cases hs : s.HandlersOk
  · have heq : (decrementOne t e).map Prod.snd = decrementAll t [e] := by
      rw [decrementOne_eq_all (hh hs) hcount]
      cases decrementAll t [e] <;> rfl
    simp only [← listRefs_singleton] at hcount hle hstored
    rw [heq]
    exact kept_decrementAll t hh hcalls hcount hle hstored
  · obtain ⟨r, c, call, hdec, hc, -⟩ := decrementFdcount_spec e hcount
    rw [decrementOne, hdec]
    cases r <;> exact ⟨hc, fun hs' => absurd hs' hs⟩

section

variable (h : s.Counted)
include h

theorem kept_allocateFrom (cageid : ℕ) (e : FDTableEntry) (start : ℕ) :
    Kept s Q ((allocateFrom s cageid e start).map Prod.snd) := by
  unfold allocateFrom
  rcases getRow_cases s cageid with ⟨-, hrow⟩ | ⟨row, hlook, hrow⟩ <;> rw [hrow]
  · exact fun _ => trivial
  · dsimp only
    cases hfd : firstUnused row start with
    | none => exact kept_self h
    | some fd =>
      have hnone : row fd = none := by
        have := find?_some hfd
        simp only [decide_eq_true_iff] at this
        exact this.2
      obtain ⟨c, hc, hcount⟩ :=
        incrementFdcount_eq (setRow s cageid (update row fd (some e))) e
      have hrefs : ∀ p, (setRow s cageid (update row fd (some e))).refs p
          = s.refs p + slotRefs p (some e) := fun p => by
        have := refs_setRow_update (p := p) hlook fd (some e)
        rwa [hnone, slotRefs_none, Nat.add_zero] at this
      dsimp only [Except.map]
      rw [hc]
      refine kept_of_calls_eq ((hcount _ h).congr fun p => (hrefs p).symm) (fun hs _ => hs) rfl
        fun p => (Nat.le_add_right _ _).trans_eq (hrefs p).symm

theorem kept_getSpecificVirtualFd (cageid requestedVirtualfd fdkind underfd : ℕ)
    (shouldCloexec : Bool) (perfdinfo : ℕ) :
    Kept s Q ((getSpecificVirtualFd s cageid requestedVirtualfd fdkind underfd shouldCloexec
      perfdinfo).map Prod.snd) := by
  unfold getSpecificVirtualFd
  rcases getRow_cases s cageid with ⟨-, hrow⟩ | ⟨row, hlook, hrow⟩ <;> rw [hrow]
  · exact fun _ => trivial
  · dsimp only
    split
    · exact kept_self h
    · generalize ({ fdkind, underfd, shouldCloexec, perfdinfo } : FDTableEntry) = e
      obtain ⟨c, hc, hcount⟩ := incrementFdcount_eq s e
      rw [hc]
      split
      · next hlt =>
        -- the new entry is stored and counted; the old one is no longer stored
        have hrefs : ∀ p, _ := fun p =>
          refs_setRow_update (p := p) hlook ⟨requestedVirtualfd, hlt⟩ (some e)
        have hc' := hcount _ h
        cases hslot : row ⟨requestedVirtualfd, hlt⟩ with
        | none =>
          simp only [hslot, slotRefs_none, Nat.add_zero] at hrefs
          refine kept_of_calls_eq (hc'.congr fun p => (hrefs p).symm) (fun hs _ => hs) rfl
            fun p => (Nat.le_add_right _ _).trans_eq (hrefs p).symm
        | some old =>
          simp only [hslot] at hrefs
          exact kept_decrementOne id rfl (hc'.congr fun p => (hrefs p).symm)
            (fun p => (Nat.le_add_right _ _).trans_eq (hrefs p).symm)
            fun p => hslot ▸ slotRefs_le_refs hlook ⟨requestedVirtualfd, hlt⟩
      · exact fun _ => trivial

theorem kept_closeVirtualfd (cageid virtfd : ℕ) :
    Kept s Q ((closeVirtualfd s cageid virtfd).map Prod.snd) := by
  unfold closeVirtualfd
  split
  · next hlt =>
    rcases getRow_cases s cageid with ⟨-, hrow⟩ | ⟨row, hlook, hrow⟩ <;> rw [hrow]
    · exact fun _ => trivial
    · dsimp only
      cases hslot : row ⟨virtfd, hlt⟩ with
      | none => exact kept_self h
      | some old =>
        have hrefs : ∀ p, (setRow s cageid (update row ⟨virtfd, hlt⟩ none)).refs p
            + slotRefs p (some old) = s.refs p := fun p => by
          have := refs_setRow_update (p := p) hlook ⟨virtfd, hlt⟩ none
          rwa [hslot] at this
        exact kept_decrementOne id rfl (h.congr fun p => (hrefs p).symm)
          (fun p => (hrefs p).ge) fun p => (Nat.le_add_left _ _).trans_eq (hrefs p)
  · exact kept_self h

theorem kept_modifyEntry (cageid virtualfd : ℕ) {f : FDTableEntry → FDTableEntry}
    (hf : ∀ e, (f e).pair = e.pair) :
    Kept s Q ((modifyEntry s cageid virtualfd f).map Prod.snd) := by
  unfold modifyEntry
  rcases getRow_cases s cageid with ⟨-, hrow⟩ | ⟨row, hlook, hrow⟩ <;> rw [hrow]
  · exact fun _ => trivial
  · dsimp only
    split
    · next hlt =>
      cases hslot : row ⟨virtualfd, hlt⟩ with
      | none => exact kept_self h
      | some e =>
        have hsame : ∀ p, slotRefs p (some (f e)) = slotRefs p (some e) := fun p => by
          simp [slotRefs, hf]
        have hrefs : ∀ p, (setRow s cageid (update row ⟨virtualfd, hlt⟩
            (some (f e)))).refs p = s.refs p := fun p => by
          have := refs_setRow_update (p := p) hlook ⟨virtualfd, hlt⟩ (some (f e))
          rw [hslot, hsame] at this
          exact Nat.add_right_cancel this
        exact kept_of_calls_eq (h.congr fun p => (hrefs p).symm) (fun hs _ => hs) rfl
          fun p => (hrefs p).ge
    · exact fun _ => trivial

theorem kept_copyFdtableForCage (srccageid newcageid : ℕ) :
    Kept s Q ((copyFdtableForCage s srccageid newcageid).map Prod.snd) := by
  unfold copyFdtableForCage
  rcases getRow_cases s srccageid with ⟨-, hrow⟩ | ⟨row, -, hrow⟩ <;> rw [hrow]
  · exact fun _ => trivial
  · dsimp only
    cases hnew : s.fdtable.lookup newcageid with
    | some _ => exact fun _ => trivial
    | none =>
      obtain ⟨c, hc, hcount⟩ := foldl_incrementFdcount_eq s (rowEntries row)
      have hrefs : ∀ p, (setRow s newcageid row).refs p = s.refs p + listRefs p (rowEntries row) :=
        fun p => by rw [refs_setRow_new hnew, listRefs_rowEntries]
      dsimp only [Except.map]
      rw [hc]
      exact kept_of_calls_eq ((hcount _ h).congr fun p => (hrefs p).symm) (fun hs _ => hs) rfl
        fun p => (Nat.le_add_right _ _).trans_eq (hrefs p).symm

theorem kept_removeCageFromFdtable (cageid : ℕ) : Kept s Q (removeCageFromFdtable s cageid) := by
  unfold removeCageFromFdtable
  cases hlook : s.fdtable.lookup cageid with
  | none => exact kept_self h
  | some row =>
    have hrefs : ∀ p, s.refs p = ({ s with fdtable := s.fdtable.erase cageid } : State).refs p
        + listRefs p (rowEntries row) := fun p => by rw [refs_erase hlook, listRefs_rowEntries]
    dsimp only
    generalize rowEntries row = l at hrefs ⊢
    refine kept_decrementAll { s with fdtable := s.fdtable.erase cageid } id rfl
      (h.congr hrefs) (fun p => (hrefs p).le) ?_
    exact fun p => (Nat.le_add_left _ _).trans_eq (hrefs p).symm

theorem kept_emptyFdsForExec (cageid : ℕ) : Kept s Q (emptyFdsForExec s cageid) := by
  unfold emptyFdsForExec
  rcases getRow_cases s cageid with ⟨-, hrow⟩ | ⟨row, hlook, hrow⟩ <;> rw [hrow]
  · exact fun _ => trivial
  · have hrefs : ∀ p, s.refs p
        = (setRow s cageid fun fd => (row fd).filter (!·.shouldCloexec)).refs p
          + listRefs p ((rowEntries row).filter (·.shouldCloexec)) := fun p =>
      refs_eq_kept_add_closed hlook
    dsimp only
    generalize (rowEntries row).filter (·.shouldCloexec) = l at hrefs ⊢
    refine kept_decrementAll (setRow s cageid fun fd => (row fd).filter (!·.shouldCloexec))
      id rfl (h.congr hrefs) (fun p => (hrefs p).le) ?_
    exact fun p => (Nat.le_add_left _ _).trans_eq (hrefs p).symm

theorem kept_initEmptyCage (cageid : ℕ) : Kept s Q ((initEmptyCage s cageid).map Prod.snd) := by
  unfold initEmptyCage
  cases hlook : s.fdtable.lookup cageid with
  | some _ => exact fun _ => trivial
  | none =>
    have hrefs : ∀ p, (setRow s cageid fun _ => none).refs p = s.refs p := fun p => by
      rw [refs_setRow_new hlook]
      simp [rowRefs]
    exact kept_of_calls_eq (h.congr fun p => (hrefs p).symm) (fun hs _ => hs) rfl
      fun p => (hrefs p).ge

end

/-- The handlers an operation registers return `Ok`. -/
def Op.HandlersOk : Op → Prop
  | .registerCloseHandlers _ h => ∀ e n, h.intermediate e n = .ok () ∧ h.last e n = .ok ()
  | _ => True

theorem kept_registerCloseHandlers (h : s.Counted) (fdkind : ℕ) (handlers : CloseHandlers) :
    Kept s (Op.HandlersOk (.registerCloseHandlers fdkind handlers))
      (.ok (registerCloseHandlers s fdkind handlers)) := by
  refine kept_of_calls_eq h (fun hold hok k hs hk => ?_) rfl fun _ => le_rfl
  by_cases hkf : k = fdkind
  · subst hkf
    obtain rfl : handlers = hs := by simpa [registerCloseHandlers] using hk
    exact hok
  · exact hold k hs ((update_of_ne hkf _ _).symm.trans hk)

/-- **Every operation** keeps the count, whatever its handlers answer. -/
theorem kept_exec (h : s.Counted) (op : Op) : Kept s op.HandlersOk (exec s op) := by
  cases op with
  | initEmptyCage => exact kept_initEmptyCage h _
  | getUnusedVirtualFd => exact kept_allocateFrom h _ _ _
  | getUnusedVirtualFdFromStartfd => exact kept_allocateFrom h _ _ _
  | getSpecificVirtualFd => exact kept_getSpecificVirtualFd h _ _ _ _ _ _
  | setCloexec => exact kept_modifyEntry h _ _ fun _ => rfl
  | setPerfdinfo => exact kept_modifyEntry h _ _ fun _ => rfl
  | copyFdtableForCage => exact kept_copyFdtableForCage h _ _
  | removeCageFromFdtable => exact kept_removeCageFromFdtable h _
  | emptyFdsForExec => exact kept_emptyFdsForExec h _
  | closeVirtualfd => exact kept_closeVirtualfd h _ _
  | registerCloseHandlers => exact kept_registerCloseHandlers h _ _

/-- With handlers that return `Ok`, it calls `last` on the final drop, and panics only for its
caller's mistakes. -/
theorem good_exec (h : s.Inv) (hop : op.HandlersOk) : Good s (exec s op) := by
  have hkept := kept_exec h.counts op
  cases he : exec s op with
  | error p =>
    rw [he] at hkept
    exact hkept h.handlers
  | ok s' =>
    rw [he] at hkept
    obtain ⟨hcounted, hrest⟩ := hkept
    obtain ⟨hh, hlast⟩ := hrest h.handlers hop
    exact ⟨⟨hcounted, hh⟩, hlast⟩

end Operations

/-! ## Runs -/

theorem inv_init : State.init.Inv := ⟨counts_empty, fun _ _ h => absurd h (by simp [State.init])⟩

theorem good_step {s : State} (h : s.Inv) (hop : op.HandlersOk) (hs : step s op = some s') :
    s'.Inv ∧ LastOnDrop s s' := by
  have hgood := good_exec h hop
  unfold step at hs
  cases he : exec s op with
  | error p => exact absurd hs (by simp [he, Except.toOption])
  | ok t =>
    rw [he] at hs hgood
    obtain rfl : t = s' := some.inj hs
    exact hgood

/-- How many lifetimes of `p` end in a run: the steps that drop its final reference. -/
def lifetimesEnded (p : ℕ × ℕ) : State → List Op → ℕ
  | _, [] => 0
  | s, op :: ops =>
      match step s op with
      | none => 0
      | some s' => (if 0 < s.refs p ∧ s'.refs p = 0 then 1 else 0) + lifetimesEnded p s' ops

/-- **The invariant and the `last` calls of a whole run.** -/
theorem inv_run {s t : State} (h : s.Inv) {ops : List Op} (hops : ∀ op ∈ ops, op.HandlersOk)
    (hrun : runSteps step s ops = some t) :
    t.Inv ∧ ∀ p, lastCalls p t.calls = lastCalls p s.calls + lifetimesEnded p s ops := by
  induction ops generalizing s with
  | nil =>
    cases hrun
    exact ⟨h, fun p => rfl⟩
  | cons op ops ih =>
    obtain ⟨hop, hops⟩ := forall_mem_cons.mp hops
    obtain ⟨s', hs, hrest⟩ := runSteps_cons_eq_some.mp hrun
    obtain ⟨hinv, new, hcalls, hnew⟩ := good_step h hop hs
    obtain ⟨ht, hlast⟩ := ih hinv hops hrest
    refine ⟨ht, fun p => ?_⟩
    rw [hlast p, lifetimesEnded, hs, hcalls, lastCalls, countP_append, ← lastCalls,
      ← lastCalls, hnew p, Nat.add_assoc]

/-- **The count is the number of references** along every run with handlers that return `Ok`: it is
absent exactly at zero, no operation panics on it, and `last` is called once for each lifetime of a
pair, by the operation that drops the final reference. -/
theorem fdcount_eq_refs {s : State} (ops : List Op) (hops : ∀ op ∈ ops, op.HandlersOk)
    (hrun : runSteps step State.init ops = some s) :
    (∀ p, s.fdcount.lookup p = if s.refs p = 0 then none else some (s.refs p)) ∧
    (∀ p, lastCalls p s.calls = lifetimesEnded p State.init ops) ∧
    ∀ op : Op, op.HandlersOk →
      (∀ panic, exec s op = .error panic → panic.OfCaller) ∧
      ∀ s', exec s op = .ok s' → LastOnDrop s s' := by
  obtain ⟨hinv, hlast⟩ := inv_run inv_init hops hrun
  refine ⟨hinv.counts, fun p => ?_, fun op hop => ⟨fun panic he => ?_, fun s' he => ?_⟩⟩
  · rw [hlast p]
    exact Nat.zero_add _
  · have := good_exec hinv hop
    rwa [he] at this
  · have := good_exec hinv hop
    rw [he] at this
    exact this.2

/-- Open a descriptor in two cages by a fork, replace one by its own pair, and close both. -/
def forkAndClose : List Op :=
  [.initEmptyCage 1, .getUnusedVirtualFd 1 5 7 false 0, .copyFdtableForCage 1 2,
   .getSpecificVirtualFd 2 0 5 7 false 0, .closeVirtualfd 1 0, .removeCageFromFdtable 2]

theorem fdcount_eq_refs_forkAndClose :
    ∃ s, runSteps step State.init forkAndClose = some s ∧
      (∀ p, s.fdcount.lookup p = if s.refs p = 0 then none else some (s.refs p)) ∧
      (∀ p, lastCalls p s.calls = lifetimesEnded p State.init forkAndClose) ∧
      ∀ op : Op, op.HandlersOk →
        (∀ panic, exec s op = .error panic → panic.OfCaller) ∧
        ∀ s', exec s op = .ok s' → LastOnDrop s s' := by
  have hsome : (runSteps step State.init forkAndClose).isSome := by decide +kernel
  obtain ⟨s, hs⟩ := isSome_iff_exists.mp hsome
  exact ⟨s, hs, fdcount_eq_refs forkAndClose (by simp [forkAndClose, Op.HandlersOk]) hs⟩

end LindWasm.FdTables
