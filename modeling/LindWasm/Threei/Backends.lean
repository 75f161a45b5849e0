import LindWasm.Machinery.Run
import LindWasm.Threei.Handlers

/-!
# Threei/Backends — the two implementations of the handler table

    hashmap :  Mutex⟨cage ↦ call ↦ grate ↦ address⟩      dashmap :  cage ↦ call ↦ grate ↦ address

One map behind a lock, or a concurrent one. They differ in three places: only the first drops the
table of a cage with its last call, only the second panics on a call whose handlers are gone, and a
panic under the lock poisons the first for good. `backends_agree` says which sequences of calls
get the same answers of both.
-/

namespace LindWasm.Threei

open Option List Table

/-! ## Calls and answers -/

/-- A call of the handler table. -/
inductive TableOp where
  | register (srccage targetcallnum handlefunccage addr : ℕ)
  | copy (srccage targetcage : ℕ)
  | rmGrate (grateid : ℕ)
  | rmCage (cageid : ℕ)
  | checkExists (cageid : ℕ)
  | get (selfCageid syscallNum targetCageid : ℕ)

/-- What the caller gets. -/
inductive TableAnswer where
  | code (n : ℕ)
  | done
  | flag (b : Bool)
  | handler (dest : Option (ℕ × ℕ))
  | panic
  deriving DecidableEq

def elindApiAborted : ℕ := 0xE0010001

variable (t : CageHandlerTable)

/-- The answer to a copy, and the table after it. -/
def copied (srccage targetcage : ℕ) : CageHandlerTable × TableAnswer :=
  match copyHandlerTableToCageImpl t srccage targetcage with
  | some t' => (t', .code 0)
  | none => (t, .code elindApiAborted)

/-! ## The hashmap -/

/-- The map, and whether its lock is poisoned. -/
structure HashTable where
  table : CageHandlerTable
  poisoned : Bool

def HashTable.empty : HashTable := ⟨[], false⟩

variable (s : HashTable)

/-- `_get_handler` holds the lock while it panics. -/
def HashTable.get (c n : ℕ) : HashTable × TableAnswer :=
  match getHandler s.table c n with
  | .ok dest => (s, .handler dest)
  | .error _ => ({ s with poisoned := true }, .panic)

/-- One call, with the lock taken. -/
def HashTable.locked : TableOp → HashTable × TableAnswer
  | .register c n h addr => (⟨registerHandlerImpl s.table c n h addr, s.poisoned⟩, .code 0)
  | .copy src dst => (⟨(copied s.table src dst).1, s.poisoned⟩, (copied s.table src dst).2)
  | .rmGrate g => (⟨rmGrateFromHandler s.table g, s.poisoned⟩, .done)
  | .rmCage c => (⟨rmCageFromHandler s.table c, s.poisoned⟩, .done)
  | .checkExists c => (s, .flag (s.table.lookup c).isSome)
  | .get c n _ => s.get c n

/-- Every call panics on a poisoned lock. -/
def HashTable.step (op : TableOp) : HashTable × TableAnswer :=
  if s.poisoned then (s, .panic) else s.locked op

/-! ## The dashmap -/

/-- `register_handler_impl`: a cage keeps its table when its last call goes. -/
def dashRegisterHandlerImpl (srccage targetcallnum handlefunccage addr : ℕ) :
    CageHandlerTable :=
  if handlefunccage = threeiDeregister then
    match t.lookup srccage with
    | none => t
    | some callMap => Table.insert t srccage (Table.erase callMap targetcallnum)
  else
    let callMap := (t.lookup srccage).getD []
    Table.insert t srccage (Table.insert callMap targetcallnum [(handlefunccage, addr)])

/-- `_get_handler`: a call whose handlers are gone panics too. -/
def dashGetHandler (c n : ℕ) : TableAnswer :=
  match getHandler t c n with
  | .ok (some dest) => .handler (some dest)
  | .ok none => .panic
  | .error _ => .panic

def dashStep (op : TableOp) : CageHandlerTable × TableAnswer :=
  match op with
  | .register c n h addr => (dashRegisterHandlerImpl t c n h addr, .code 0)
  | .copy src dst => copied t src dst
  | .rmGrate g => (rmGrateFromHandler t g, .done)
  | .rmCage c => (rmCageFromHandler t c, .done)
  | .checkExists c => (t, .flag (t.lookup c).isSome)
  | .get c n _ => (t, dashGetHandler t c n)

/-! ## Where they agree -/

variable (d : CageHandlerTable)

/-- The call finds no handler in the dashmap, and panics. -/
def Panics : TableOp → Prop
  | .get c n _ => ∀ m, targets d c n = some m → m = []
  | _ => False

/-- The call does not ask for a call whose handlers are gone, nor for a cage whose calls are. -/
def Plain : TableOp → Prop
  | .get c n _ => targets d c n ≠ some []
  | .checkExists c => d.lookup c ≠ some []
  | .copy src _ => d.lookup src ≠ some []
  | _ => True

/-- In this state the two answer alike: a plain call does, and with the lock poisoned one that
panics anyway. -/
def Agrees (p : HashTable × CageHandlerTable) (op : TableOp) : Prop :=
  if p.1.poisoned then Panics p.2 op else Plain p.2 op

/-! ## The tables behind them -/

/-- The two tables hold the same: the hashmap has each table of the dashmap that is not empty. -/
def SameTables : Prop :=
  ∀ c, t.lookup c = if d.lookup c = some [] then none else d.lookup c

section SameTables

variable {t d : CageHandlerTable} {c n : ℕ}

section

variable (h : SameTables t d)
include h

theorem SameTables.lookup_of_ne (hc : d.lookup c ≠ some []) :
    t.lookup c = d.lookup c := (h c).trans (if_neg hc)

theorem SameTables.lookup_of_empty (hc : d.lookup c = some []) :
    t.lookup c = none := (h c).trans (if_pos hc)

/-- They have the same innermost maps, … -/
theorem SameTables.targets_eq (c n : ℕ) : targets t c n = targets d c n := by
  rw [targets, targets]
  by_cases hc : d.lookup c = some []
  · rw [h.lookup_of_empty hc, hc]
    rfl
  · rw [h.lookup_of_ne hc]

/-- … and the same to start a registration from. -/
theorem SameTables.getD_lookup (c : ℕ) : (t.lookup c).getD [] = (d.lookup c).getD [] := by
  by_cases hc : d.lookup c = some []
  · rw [h.lookup_of_empty hc, hc]
    rfl
  · rw [h.lookup_of_ne hc]

theorem SameTables.insert (c : ℕ) {m : CallnumMap} (hm : m ≠ []) :
    SameTables (Table.insert t c m) (Table.insert d c m) := by
  intro c'
  rw [lookup_insert, lookup_insert]
  split
  · exact (if_neg fun heq => hm (some.inj heq)).symm
  · exact h c'

/-- A table dropped on one side and left empty on the other. -/
theorem SameTables.erase_insert (c : ℕ) : SameTables (Table.erase t c) (Table.insert d c []) := by
  intro c'
  rw [lookup_erase, lookup_insert]
  split
  · exact (if_pos rfl).symm
  · exact h c'

theorem SameTables.rmCage (c : ℕ) : SameTables (rmCageFromHandler t c) (rmCageFromHandler d c) := by
  intro c'
  rw [rmCageFromHandler, rmCageFromHandler, lookup_erase, lookup_erase]
  split
  · exact (if_neg (some_ne_none _).symm).symm
  · exact h c'

theorem SameTables.rmGrate (g : ℕ) :
    SameTables (rmGrateFromHandler t g) (rmGrateFromHandler d g) := by
  intro c
  rw [rmGrateFromHandler, rmGrateFromHandler, lookup_mapVal, lookup_mapVal, h c]
  cases d.lookup c with
  | none => rfl
  | some m => cases m <;> rfl

theorem SameTables.deregister (c n addr : ℕ) :
    SameTables (registerHandlerImpl t c n threeiDeregister addr)
      (dashRegisterHandlerImpl d c n threeiDeregister addr) := by
  rw [registerHandlerImpl, dashRegisterHandlerImpl, if_pos rfl, if_pos rfl]
  cases hd : d.lookup c with
  | none =>
    rw [h.lookup_of_ne (by rw [hd]; exact (some_ne_none _).symm), hd]
    exact h
  | some m =>
    by_cases hm : m = []
    · subst hm
      rw [h.lookup_of_empty hd]
      -- the empty table is put back as it was
      intro c'
      rw [lookup_insert]
      by_cases hc : c' = c
      · rw [if_pos hc, hc]
        exact (h.lookup_of_empty hd).trans (if_pos rfl).symm
      · rw [if_neg hc]
        exact h c'
    · have hne : d.lookup c ≠ some [] := fun heq => hm (mem_unique hd heq)
      rw [h.lookup_of_ne hne, hd]
      dsimp only
      split
      · next hempty =>
        rw [hempty]
        exact h.erase_insert c
      · next hleft => exact h.insert c hleft

/-- **A registration keeps the tables the same.** -/
theorem SameTables.register (c n handler addr : ℕ) :
    SameTables (registerHandlerImpl t c n handler addr)
      (dashRegisterHandlerImpl d c n handler addr) := by
  by_cases hreg : handler = threeiDeregister
  · subst hreg
    exact h.deregister c n addr
  · rw [registerHandlerImpl, dashRegisterHandlerImpl, if_neg hreg, if_neg hreg]
    rw [h.getD_lookup]
    exact h.insert c (cons_ne_nil _ _)

/-- …and so does a copy of a table that is not empty, with the same answer. -/
theorem SameTables.copied {src : ℕ} (dst : ℕ) (hsrc : d.lookup src ≠ some []) :
    SameTables (copied t src dst).1 (copied d src dst).1 ∧
      (copied t src dst).2 = (copied d src dst).2 := by
  rw [Threei.copied, Threei.copied, copyHandlerTableToCageImpl_eq, copyHandlerTableToCageImpl_eq,
    h.lookup_of_ne hsrc]
  cases hd : d.lookup src with
  | none => exact ⟨h, rfl⟩
  | some m => exact ⟨h.insert dst fun hm => hsrc (copyCalls_eq_nil.mp hm ▸ hd), rfl⟩

end

end SameTables

/-! ## Answers -/

section Answers

variable {s : HashTable} {d : CageHandlerTable} {c n : ℕ}

/-- A call panics where there is no innermost map, … -/
theorem getHandler_eq (t : CageHandlerTable) (c n : ℕ) :
    (∃ e, targets t c n = none ∧ getHandler t c n = .error e) ∨
      ∃ m, targets t c n = some m ∧ getHandler t c n = .ok m.head? := by
  cases hm : targets t c n with
  | some m => exact .inr ⟨m, rfl, getHandler_of_targets hm⟩
  | none =>
    rw [getHandler]
    cases hc : t.lookup c with
    | none => exact .inl ⟨.noTable, rfl, rfl⟩
    | some callMap =>
      have hn : callMap.lookup n = none := by
        rw [targets, hc] at hm
        exact hm
      refine .inl ⟨.noCall, rfl, ?_⟩
      dsimp only
      rw [hn]

/-- … and with the dashmap also where it is empty. -/
theorem dashGetHandler_eq_panic :
    dashGetHandler d c n = .panic ↔ ∀ m, targets d c n = some m → m = [] := by
  rw [dashGetHandler]
  obtain ⟨e, hnone, hget⟩ | ⟨m, hm, hget⟩ := getHandler_eq d c n
  · rw [hget]
    exact iff_of_true rfl fun m hm => absurd (hnone.symm.trans hm).symm (some_ne_none m)
  · rw [hget, hm]
    cases m with
    | nil => exact iff_of_true rfl fun m' hm' => (some.inj hm').symm
    | cons x m =>
      exact iff_of_false (by simp) fun h => absurd (h _ rfl) (cons_ne_nil x m)

theorem get_eq_dashGetHandler (h : targets s.table c n = targets d c n) :
    (s.get c n).2 = dashGetHandler d c n ↔ targets d c n ≠ some [] := by
  rw [HashTable.get, dashGetHandler]
  obtain ⟨e, hnone, hget⟩ | ⟨m, hm, hget⟩ := getHandler_eq d c n
  · obtain ⟨e', -, hget'⟩ | ⟨m', hm', -⟩ := getHandler_eq s.table c n
    · rw [hget, hget', hnone]
      exact iff_of_true rfl (some_ne_none _).symm
    · exact absurd (hnone.symm.trans (h.symm.trans hm')).symm (some_ne_none m')
  · rw [getHandler_of_targets (h.trans hm), hget, hm]
    cases m with
    | nil => exact iff_of_false (by simp) fun hne => hne rfl
    | cons x m => exact iff_of_true rfl fun heq => cons_ne_nil x m (some.inj heq)

/-- **Step for step the answers are the same exactly where the backends agree.** -/
theorem answer_eq_iff (h : SameTables s.table d) (op : TableOp) :
    (s.step op).2 = (dashStep d op).2 ↔ Agrees (s, d) op := by
  rw [HashTable.step, Agrees]
  by_cases hp : s.poisoned = true
  · rw [if_pos hp, if_pos hp]
    cases op with
    | get c n target => exact eq_comm.trans dashGetHandler_eq_panic
    | copy src dst =>
      rw [dashStep, copied]
      cases copyHandlerTableToCageImpl d src dst <;> exact iff_of_false (by simp) id
    | register | rmGrate | rmCage | checkExists => exact iff_of_false (by simp [dashStep]) id
  · rw [if_neg hp, if_neg hp]
    cases op with
    | register | rmGrate | rmCage => exact iff_of_true rfl trivial
    | get c n target => exact get_eq_dashGetHandler (h.targets_eq c n)
    | checkExists c =>
      show TableAnswer.flag _ = TableAnswer.flag _ ↔ d.lookup c ≠ some []
      by_cases hc : d.lookup c = some []
      · rw [h.lookup_of_empty hc, hc]
        exact iff_of_false (by simp) fun hne => hne rfl
      · rw [h.lookup_of_ne hc]
        exact iff_of_true rfl hc
    | copy src dst =>
      show (copied s.table src dst).2 = (copied d src dst).2 ↔ d.lookup src ≠ some []
      by_cases hsrc : d.lookup src = some []
      · rw [copied, copied, copyHandlerTableToCageImpl_eq, copyHandlerTableToCageImpl_eq,
          h.lookup_of_empty hsrc, hsrc]
        have hne : TableAnswer.code elindApiAborted ≠ .code 0 := by decide
        exact iff_of_false hne fun hne => hne rfl
      · exact iff_of_true (h.copied dst hsrc).2 hsrc

theorem sameTables_step (h : SameTables s.table d) {op : TableOp} (hok : Agrees (s, d) op) :
    SameTables (s.step op).1.table (dashStep d op).1 := by
  rw [Agrees] at hok
  rw [HashTable.step]
  by_cases hp : s.poisoned = true
  · rw [if_pos hp] at hok ⊢
    cases op with
    | get c n target => exact h
    | register | rmGrate | rmCage | checkExists | copy => exact absurd hok id
  · rw [if_neg hp] at hok ⊢
    cases op with
    | register c n handler addr => exact h.register c n handler addr
    | rmGrate g => exact h.rmGrate g
    | rmCage c => exact h.rmCage c
    | checkExists c => exact h
    | copy src dst => exact (h.copied dst hok).1
    | get c n target =>
      show SameTables (s.get c n).1.table d
      rw [HashTable.get]
      cases getHandler s.table c n <;> exact h

end Answers

/-- **The two backends.**  A sequence of calls from an empty table gets the same answers of both,
and panics at the same calls, exactly if they agree at each call of it. -/
theorem backends_agree (ops : List TableOp) :
    answers HashTable.step HashTable.empty ops = answers dashStep [] ops ↔
      StepsOk (bothStep HashTable.step dashStep) Agrees (HashTable.empty, []) ops := by
  rw [← forall₂_eq_eq_eq]
  refine forall₂_answers_iff (R := fun s d => SameTables s.table d) ?_ ?_ ?_ ops
  · exact fun s d op h => answer_eq_iff h op
  · exact fun s d op h hok => sameTables_step h hok
  · exact fun c => (if_neg (some_ne_none _).symm).symm

/-- **A cage whose last call is taken back still counts with the dashmap, a call whose grate is gone
panics there, and a panic is the end of the hashmap.** -/
theorem not_backends_agree :
    (answers HashTable.step HashTable.empty
        [.register 1 5 2 0x40, .register 1 5 threeiDeregister 0, .checkExists 1, .copy 1 3]
        = [.code 0, .code 0, .flag false, .code elindApiAborted] ∧
      answers dashStep []
        [.register 1 5 2 0x40, .register 1 5 threeiDeregister 0, .checkExists 1, .copy 1 3]
        = [.code 0, .code 0, .flag true, .code 0]) ∧
    (answers HashTable.step HashTable.empty [.register 1 5 2 0x40, .rmGrate 2, .get 1 5 1]
        = [.code 0, .done, .handler none] ∧
      answers dashStep [] [.register 1 5 2 0x40, .rmGrate 2, .get 1 5 1]
        = [.code 0, .done, .panic]) ∧
    answers HashTable.step HashTable.empty [.get 1 5 1, .checkExists 1] = [.panic, .panic] ∧
      answers dashStep [] [.get 1 5 1, .checkExists 1] = [.panic, .flag false] := by
  decide

/-! ## One handler for each call

The maps are iterated in no particular order; where none has two entries it does not matter which
one is the first. -/

/-- No innermost map of the cage's table has two entries. -/
def Sparse (callMap : CallnumMap) : Prop := ∀ n m, callMap.lookup n = some m → m.length ≤ 1

/-- …in any cage's table. -/
def Single : Prop := ∀ c callMap, t.lookup c = some callMap → Sparse callMap

section Single

variable {t : CageHandlerTable} {callMap : CallnumMap}

theorem Sparse.insert (h : Sparse callMap) (n handler addr : ℕ) :
    Sparse (Table.insert callMap n [(handler, addr)]) := by
  intro n' m hm
  rw [lookup_insert] at hm
  split at hm
  · exact (some.inj hm) ▸ Nat.le_refl 1
  · exact h n' m hm

theorem Sparse.erase (h : Sparse callMap) (n : ℕ) : Sparse (Table.erase callMap n) := by
  intro n' m hm
  rw [lookup_erase] at hm
  split at hm
  · cases hm
  · exact h n' m hm

theorem Sparse.copyCalls (h : Sparse callMap) : Sparse (copyCalls [] callMap) := by
  intro n m hm
  rw [lookup_copyCalls] at hm
  obtain ⟨m', hm', rfl⟩ := map_eq_some_iff.mp hm
  rw [copyTargets_of_length (h n m' hm')]
  exact h n m' hm'

section

variable (h : Single t)
include h

theorem Single.insert (c : ℕ) (hm : Sparse callMap) : Single (Table.insert t c callMap) := by
  intro c' m' hm'
  rw [lookup_insert] at hm'
  split at hm'
  · exact (some.inj hm') ▸ hm
  · exact h c' m' hm'

theorem Single.erase (c : ℕ) : Single (Table.erase t c) := by
  intro c' m' hm'
  rw [lookup_erase] at hm'
  split at hm'
  · cases hm'
  · exact h c' m' hm'

theorem Single.rmGrate (g : ℕ) : Single (rmGrateFromHandler t g) := by
  intro c m hm n l hl
  rw [rmGrateFromHandler, lookup_mapVal] at hm
  obtain ⟨m', hm', rfl⟩ := map_eq_some_iff.mp hm
  rw [lookup_mapVal] at hl
  obtain ⟨l', hl', rfl⟩ := map_eq_some_iff.mp hl
  exact Nat.le_trans (length_filter_le _ l') (h c m' hm' n l' hl')

theorem Single.copied (src dst : ℕ) : Single (copied t src dst).1 := by
  rw [Threei.copied, copyHandlerTableToCageImpl_eq]
  cases hsrc : t.lookup src with
  | none => exact h
  | some m => exact h.insert dst (h src m hsrc).copyCalls

theorem sparse_getD (c : ℕ) : Sparse ((t.lookup c).getD []) := by
  cases hc : t.lookup c with
  | none => exact fun n m hm => absurd hm.symm (some_ne_none m)
  | some m => exact h c m hc

theorem Single.register (c n handler addr : ℕ) :
    Single (registerHandlerImpl t c n handler addr) := by
  rw [registerHandlerImpl]
  split
  · cases hc : t.lookup c with
    | none => exact h
    | some m =>
      dsimp only
      split
      · exact h.erase c
      · exact h.insert c ((h c m hc).erase n)
  · exact h.insert c ((sparse_getD h c).insert n handler addr)

theorem Single.dashRegister (c n handler addr : ℕ) :
    Single (dashRegisterHandlerImpl t c n handler addr) := by
  rw [dashRegisterHandlerImpl]
  split
  · cases hc : t.lookup c with
    | none => exact h
    | some m => exact h.insert c ((h c m hc).erase n)
  · exact h.insert c ((sparse_getD h c).insert n handler addr)

end

theorem single_step {s : HashTable} (h : Single s.table) (op : TableOp) :
    Single (s.step op).1.table := by
  rw [HashTable.step]
  split
  · exact h
  · cases op with
    | register c n handler addr => exact h.register c n handler addr
    | copy src dst => exact h.copied src dst
    | rmGrate g => exact h.rmGrate g
    | rmCage c => exact h.erase c
    | checkExists c => exact h
    | get c n target =>
      show Single (s.get c n).1.table
      rw [HashTable.get]
      cases getHandler s.table c n <;> exact h

theorem single_dashStep (h : Single t) (op : TableOp) : Single (dashStep t op).1 := by
  cases op with
  | register c n handler addr => exact h.dashRegister c n handler addr
  | copy src dst => exact h.copied src dst
  | rmGrate g => exact h.rmGrate g
  | rmCage c => exact h.erase c
  | checkExists c => exact h
  | get c n target => exact h

theorem single_nil : Single [] := fun _ m hm => absurd hm.symm (some_ne_none m)

/-- **Each call has at most one handler, in every table either backend comes to.** -/
theorem single_run (ops : List TableOp) :
    Single (ops.foldl (fun s op => (HashTable.step s op).1) HashTable.empty).table ∧
      Single (ops.foldl (fun t op => (dashStep t op).1) []) :=
  ⟨foldlRecOn (motive := fun s : HashTable => Single s.table) ops _ single_nil
      fun _ h op _ => single_step h op,
    foldlRecOn (motive := Single) ops _ single_nil fun _ h op _ => single_dashStep h op⟩

end Single

end LindWasm.Threei
