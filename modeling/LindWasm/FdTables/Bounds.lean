import LindWasm.FdTables.Count
import LindWasm.FdTables.Guest

/-!
# FdTables/Bounds — which descriptor numbers bring the runtime down

    translate, close      : every number is served
    get_specific          : all but  fdPerProcessMax          (the test is `>`, the row ends at it)
    set_cloexec, …, poll  : only     v < fdPerProcessMax      (the row is indexed untested)

Close handlers decide what an operation returns and never what it stores, so the count of
references survives any handler (`counted_exec`). With the count, `handled_iff` says for each
request whether it is served.
-/

namespace LindWasm.FdTables

open Function Option List

variable {s s' : State} {e : FDTableEntry} {α : Type} {t t' : Tables} {v k : ℕ}

/-! ## The count, whatever the handlers answer -/

theorem map_snd_eq_ok {o : Outcome α} : o.map Prod.snd = .ok s' ↔ ∃ r, o = .ok (r, s') := by
  cases o with
  | error p => simp [Except.map]
  | ok x =>
    obtain ⟨r, t⟩ := x
    simp [Except.map]

/-- **Every operation keeps the count**, whatever its handlers answer. -/
theorem counted_exec (op : Op) (h : s.Counted) (he : exec s op = .ok s') : s'.Counted := by
  have hkept := kept_exec h op
  rw [he] at hkept
  exact hkept.1

theorem eq_ok_of_toOption {ε : Type} {x : Except ε α} {a : α} (h : x.toOption = some a) :
    x = .ok a := by
  cases x with
  | error _ => cases h
  | ok b => exact congrArg _ (some.inj h)

theorem counted_step {op : Op} (h : s.Counted) (hs : step s op = some s') : s'.Counted :=
  counted_exec op h (eq_ok_of_toOption hs)

theorem epollAddUnderfd_fds {c u : ℕ} {r : Except EpollErrno Unit}
    (h : epollAddUnderfd t c v k u = .ok (r, t')) : t'.fds = t.fds := by
  unfold epollAddUnderfd at h
  split at h
  · cases h
  · cases h
    rfl
  · split at h
    · cases h
    · split at h
      · cases h
      · cases h
        rfl

theorem counted_tablesStep {op : TablesOp} (h : t.fds.Counted) (hs : t.step op = some t') :
    t'.fds.Counted := by
  cases op with
  | fd op =>
    obtain ⟨s', hs', rfl⟩ := map_eq_some_iff.mp hs
    exact counted_step h hs'
  | epollCreateEmpty c x =>
    have key : ∀ r fds, getUnusedVirtualFd t.fds c fdtKindepoll t.ept.highestneverusedentry x 0
        = .ok (r, fds) → fds.Counted := fun r fds hu =>
      counted_exec (.getUnusedVirtualFd c fdtKindepoll t.ept.highestneverusedentry x 0) h
        (map_snd_eq_ok.mpr ⟨r, hu⟩)
    simp only [Tables.step, epollCreateEmpty] at hs
    cases hu : getUnusedVirtualFd t.fds c fdtKindepoll t.ept.highestneverusedentry x 0 with
    | error p => simp [hu, Except.toOption] at hs
    | ok y =>
      obtain ⟨r, fds⟩ := y
      cases r <;> simp only [hu] at hs <;> obtain rfl := some.inj hs <;>
        exact key _ _ hu
  | epollAddUnderfd c v k u =>
    obtain ⟨⟨r, t''⟩, ht, rfl⟩ := map_eq_some_iff.mp hs
    rw [epollAddUnderfd_fds (eq_ok_of_toOption ht)]
    exact h

theorem counted_run (ops : List TablesOp) (hrun : runSteps Tables.step Tables.init ops = some t) :
    t.fds.Counted :=
  have h0 : Tables.init.fds.Counted := inv_init.counts
  inv_of_runSteps (fun (t : Tables) _ _ (h : t.fds.Counted) hs => counted_tablesStep h hs) h0 hrun

/-- **The count is the number of references whatever the close handlers answer**, after every run of
calls on the two tables. -/
theorem fdcount_eq_refs_tables (ops : List TablesOp)
    (hrun : runSteps Tables.step Tables.init ops = some t) (p : ℕ × ℕ) :
    t.fds.fdcount.lookup p = if t.fds.refs p = 0 then none else some (t.fds.refs p) :=
  counted_run ops hrun p

/-- Two references under handlers that fail, of which one is closed. -/
def failingClose : List TablesOp :=
  [.fd (.registerCloseHandlers 5 ⟨fun _ _ => .error 9, fun _ _ => .error 9⟩),
   .fd (.initEmptyCage 1), .fd (.getUnusedVirtualFd 1 5 7 false 0),
   .fd (.copyFdtableForCage 1 2), .epollCreateEmpty 2 true, .fd (.closeVirtualfd 1 0)]

theorem fdcount_eq_refs_failingClose : ∃ t, runSteps Tables.step Tables.init failingClose = some t ∧
    ∀ p, t.fds.fdcount.lookup p = if t.fds.refs p = 0 then none else some (t.fds.refs p) := by
  obtain ⟨t, ht⟩ := isSome_iff_exists.mp
    (show (runSteps Tables.step Tables.init failingClose).isSome by decide +kernel)
  exact ⟨t, ht, fdcount_eq_refs_tables failingClose ht⟩

/-! ## The operations on an existing cage -/

section Row

variable {c v : ℕ} {row : FdRow} {vs : List ℕ}

theorem slotAt_of_lt (h : v < fdPerProcessMax) : slotAt row v = row ⟨v, h⟩ := dif_pos h

theorem slotAt_of_ge (h : fdPerProcessMax ≤ v) : slotAt row v = none := dif_neg h.not_gt

theorem lt_of_slotAt (h : slotAt row v = some e) : v < fdPerProcessMax := by
  by_contra hge
  rw [slotAt_of_ge (Nat.le_of_not_lt hge)] at h
  cases h

/-- What the close handler answers when an entry is dropped. -/
def closeResult (s : State) (entry : FDTableEntry) : Except ℤ Unit :=
  match s.fdcount.lookup entry.pair with
  | some (newcount + 1) =>
      if 0 < newcount then (handlersOf s entry).intermediate entry newcount
      else (handlersOf s entry).last entry 0
  | _ => .ok ()

/-- **Dropping a counted entry** answers with its close handler. -/
theorem decrementOne_eq {f : ℕ × ℕ → ℕ} (h : Counts s.fdcount fun p => f p + slotRefs p (some e)) :
    ∃ s', decrementOne s e = .ok ((closeResult s e).mapError FdError.handler, s') := by
  obtain ⟨r, cnt, call, hdec, -⟩ := decrementFdcount_spec e h
  have hr : r = closeResult s e := by
    unfold decrementFdcount at hdec
    unfold closeResult
    split at hdec
    · cases hdec
    · cases hdec
    · next n hn =>
      rw [hn]
      dsimp only
      split at hdec <;> rename_i hpos <;> obtain ⟨rfl, -⟩ := Prod.mk.inj (Except.ok.inj hdec)
      · rw [if_pos hpos]
      · rw [if_neg hpos]
  rw [decrementOne, hdec, ← hr]
  cases r <;> exact ⟨_, rfl⟩

theorem mem_insert_rethashmap {p : PollFds} {x : ℕ × FDTableEntry} (hx : x ∈ p.rethashmap k)
    (w : ℕ) (entry : FDTableEntry) : x ∈ (p.insert w entry).rethashmap k := by
  by_cases hk : k = entry.fdkind
  · subst hk
    simp [PollFds.insert, hx]
  · simpa [PollFds.insert, update_of_ne hk] using hx

theorem mem_insert_self (p : PollFds) (w : ℕ) (entry : FDTableEntry) :
    (w, entry) ∈ (p.insert w entry).rethashmap entry.fdkind := by
  simp [PollFds.insert]

theorem insertVirtualfds_cons (h : v < fdPerProcessMax) (p : PollFds) (vs : List ℕ) :
    insertVirtualfds row p (v :: vs)
      = insertVirtualfds row (p.insert v ((slotAt row v).getD (invalidEntry v))) vs := by
  rw [insertVirtualfds, dif_pos h, slotAt_of_lt h]
  cases row ⟨v, h⟩ <;> rfl

/-- **The loop over numbers that are in the row** keeps what it has and lists each descriptor that
is not open as invalid. -/
theorem insertVirtualfds_of_lt (row : FdRow) (h : ∀ v ∈ vs, v < fdPerProcessMax) (p : PollFds) :
    ∃ p', insertVirtualfds row p vs = .ok p' ∧
      (∀ k, ∀ x ∈ p.rethashmap k, x ∈ p'.rethashmap k) ∧
      ∀ v ∈ vs, slotAt row v = none → (v, invalidEntry v) ∈ p'.rethashmap fdtInvalidFd := by
  induction vs generalizing p with
  | nil => exact ⟨p, rfl, fun _ _ hx => hx, fun v hv => absurd hv not_mem_nil⟩
  | cons v vs ih =>
    obtain ⟨hv, hvs⟩ := forall_mem_cons.mp h
    obtain ⟨p', hp', hkeep, hinv⟩ := ih hvs (p.insert v ((slotAt row v).getD (invalidEntry v)))
    refine ⟨p', (insertVirtualfds_cons hv p vs).trans hp', fun k x hx =>
      hkeep k x (mem_insert_rethashmap hx v _), forall_mem_cons.mpr ⟨fun hnone => ?_, hinv⟩⟩
    rw [hnone] at hkeep
    exact hkeep _ _ (mem_insert_self p v (invalidEntry v))

theorem insertVirtualfds_of_ge (h : ¬ ∀ v ∈ vs, v < fdPerProcessMax) (p : PollFds) :
    insertVirtualfds row p vs = .error .indexOutOfBounds := by
  induction vs generalizing p with
  | nil => exact absurd (fun v hv => absurd hv not_mem_nil) h
  | cons v vs ih =>
    by_cases hv : v < fdPerProcessMax
    · rw [insertVirtualfds_cons hv]
      exact ih (fun hvs => h (forall_mem_cons.mpr ⟨hv, hvs⟩)) _
    · rw [insertVirtualfds, dif_neg hv]

section

variable (hrow : s.fdtable.lookup c = some row)
include hrow

theorem getRow_eq : getRow s c = .ok row := by
  rw [getRow, hrow]

theorem translateVirtualFd_eq (v : ℕ) :
    translateVirtualFd s c v
      = .ok ((slotAt row v).elim (.error (.errno .EBADFD)) .ok) := by
  rw [translateVirtualFd, getRow_eq hrow, slotAt]
  dsimp only
  split
  · cases row ⟨v, _⟩ <;> rfl
  · rfl

theorem modifyEntry_eq (h : v < fdPerProcessMax) (f : FDTableEntry → FDTableEntry) :
    modifyEntry s c v f = .ok ((slotAt row v).elim (.error (.errno .EBADFD), s) fun entry =>
      (.ok (), setRow s c (update row ⟨v, h⟩ (some (f entry))))) := by
  rw [modifyEntry, getRow_eq hrow, slotAt_of_lt h]
  dsimp only
  rw [dif_pos h]
  cases row ⟨v, h⟩ <;> rfl

theorem modifyEntry_of_ge (h : fdPerProcessMax ≤ v)
    (f : FDTableEntry → FDTableEntry) : modifyEntry s c v f = .error .indexOutOfBounds := by
  rw [modifyEntry, getRow_eq hrow]
  exact dif_neg h.not_gt

theorem closeVirtualfd_of_none (h : slotAt row v = none) :
    closeVirtualfd s c v = .ok (.error (.errno .EBADFD), s) := by
  unfold closeVirtualfd
  split
  · next hlt =>
    rw [slotAt_of_lt hlt] at h
    rw [getRow_eq hrow]
    dsimp only
    rw [h]
  · rfl

theorem closeVirtualfd_of_some (hcount : s.Counted)
    (h : slotAt row v = some e) : ∃ r s', closeVirtualfd s c v = .ok (r, s') := by
  have hlt := lt_of_slotAt h
  rw [slotAt_of_lt hlt] at h
  rw [closeVirtualfd, dif_pos hlt, getRow_eq hrow]
  dsimp only
  rw [h]
  have hrefs : ∀ p, s.refs p
      = (setRow s c (update row ⟨v, hlt⟩ none)).refs p + slotRefs p (some e) := fun p => by
    have := refs_setRow_update (p := p) hrow ⟨v, hlt⟩ none
    rw [h] at this
    exact this.symm
  obtain ⟨s', hs'⟩ := decrementOne_eq (s := setRow s c (update row ⟨v, hlt⟩ none))
    (Counts.congr hcount hrefs)
  exact ⟨_, s', hs'⟩

theorem getSpecificVirtualFd_of_lt (hcount : s.Counted)
    (h : v < fdPerProcessMax) (k u : ℕ) (x : Bool) (i : ℕ) :
    ∃ s', getSpecificVirtualFd s c v k u x i = .ok ((slotAt row v).elim (.ok ()) fun old =>
      (closeResult (incrementFdcount s ⟨k, u, x, i⟩) old).mapError FdError.handler, s') := by
  rw [getSpecificVirtualFd, getRow_eq hrow, slotAt_of_lt h]
  dsimp only
  rw [if_neg (Nat.not_lt_of_le h.le), dif_pos h]
  generalize (⟨k, u, x, i⟩ : FDTableEntry) = new
  cases hslot : row ⟨v, h⟩ with
  | none => exact ⟨_, rfl⟩
  | some old =>
    obtain ⟨cnt, hc, hcounts⟩ := incrementFdcount_eq s new
    have hrefs : ∀ p, s.refs p + slotRefs p (some new)
        = (setRow s c (update row ⟨v, h⟩ (some new))).refs p + slotRefs p (some old) :=
      fun p => by
        have := refs_setRow_update (p := p) hrow ⟨v, h⟩ (some new)
        rw [hslot] at this
        exact this.symm
    rw [hc]
    obtain ⟨s', hs'⟩ := decrementOne_eq
      (s := setRow { s with fdcount := cnt } c (update row ⟨v, h⟩ (some new)))
      ((hcounts _ hcount).congr hrefs)
    exact ⟨s', hs'⟩

theorem getSpecificVirtualFd_of_gt (h : fdPerProcessMax < v) (k u : ℕ) (x : Bool) (i : ℕ) :
    getSpecificVirtualFd s c v k u x i = .ok (.error (.errno .EBADF), s) := by
  rw [getSpecificVirtualFd, getRow_eq hrow]
  exact if_pos h

theorem getSpecificVirtualFd_max (k u : ℕ) (x : Bool)
    (i : ℕ) : getSpecificVirtualFd s c fdPerProcessMax k u x i = .error .indexOutOfBounds := by
  rw [getSpecificVirtualFd, getRow_eq hrow]
  dsimp only
  rw [if_neg (lt_irrefl _), dif_neg (lt_irrefl _)]

theorem convertVirtualfdsForPoll_eq (vs : List ℕ) :
    convertVirtualfdsForPoll s c vs = insertVirtualfds row .empty vs := by
  rw [convertVirtualfdsForPoll, getRow_eq hrow]

end

end Row

/-! ## Which requests are served -/

/-- An error of the tables. -/
def Answer.IsError : Answer → Prop
  | .error _ => True
  | _ => False

/-- **What an invalid descriptor must lead to**: an error and untouched tables, and for `poll` an
entry among the invalid ones. A descriptor that is to be taken need not be open. -/
def Reports (row : FdRow) (s s' : State) (a : Answer) : Request → Prop
  | .translateVirtualFd v | .setCloexec v _ | .setPerfdinfo v _ | .closeVirtualfd v =>
      slotAt row v = none → a.IsError ∧ s' = s
  | .getSpecificVirtualFd v _ _ _ _ => fdPerProcessMax ≤ v → a.IsError ∧ s' = s
  | .convertVirtualfdsForPoll vs =>
      s' = s ∧ ∃ p, a = .polled p ∧
        ∀ v ∈ vs, slotAt row v = none → (v, invalidEntry v) ∈ p.rethashmap fdtInvalidFd
  | .dup2 _ _ | .fcntl _ _ _ _ | .poll _ | .epollCtl _ _ _ _ _ => True

/-- The request is answered without a crash, and an invalid descriptor in it is reported. -/
def Handled (t : Tables) (cageid : ℕ) (row : FdRow) (r : Request) : Prop :=
  ∃ a s', serve t cageid r = .ok (a, s') ∧ Reports row t.fds s' a r

/-- The number names an epoll descriptor with a kernel descriptor under it. -/
def IsKernelEpoll (t : Tables) (row : FdRow) (epfd : ℕ) : Prop :=
  ∃ e, slotAt row epfd = some e ∧ e.fdkind = fdtKindepoll ∧
    ∃ myhm, t.ept.thisepolltable e.underfd = some myhm ∧ (myhm fdkindKernel).isSome

/-- **The numbers a request may carry.** -/
def Request.InRange (t : Tables) (row : FdRow) : Request → Prop
  | .translateVirtualFd _ | .closeVirtualfd _ | .fcntl _ _ _ _ => True
  | .getSpecificVirtualFd v _ _ _ _ => v ≠ fdPerProcessMax
  | .setCloexec v _ | .setPerfdinfo v _ => v < fdPerProcessMax
  | .convertVirtualfdsForPoll vs => ∀ v ∈ vs, v < fdPerProcessMax
  | .dup2 old new => ∀ e, slotAt row old = some e → old ≠ new →
      new ≠ fdPerProcessMax ∧ ∀ replaced, slotAt row new = some replaced →
        closeResult (incrementFdcount t.fds { e with shouldCloexec := false }) replaced = .ok ()
  | .poll fds => fds.length ≤ fdPerProcessMax → ∀ fd ∈ fds, fd < fdPerProcessMax
  | .epollCtl epfd _ _ _ _ => IsKernelEpoll t row epfd

section Requests

variable {t : Tables} {c : ℕ} {row : FdRow}

theorem handled_iff_exists {r : Request} (h : ∀ s' a, Reports row t.fds s' a r) :
    Handled t c row r ↔ ∃ x, serve t c r = .ok x :=
  ⟨fun ⟨a, s', hs, _⟩ => ⟨(a, s'), hs⟩, fun ⟨(a, s'), hs⟩ => ⟨a, s', hs, h s' a⟩⟩

theorem forall_pollVirtualFds_lt_iff {fds : List ℤ} :
    (∀ v ∈ pollVirtualFds fds, v < fdPerProcessMax) ↔ ∀ fd ∈ fds, fd < fdPerProcessMax := by
  simp only [pollVirtualFds, List.mem_dedup, List.mem_map, List.mem_filter, decide_eq_true_eq]
  constructor
  · intro h fd hfd
    by_cases hpos : 0 ≤ fd
    · have := h fd.toNat ⟨fd, ⟨hfd, hpos⟩, rfl⟩
      omega
    · omega
  · rintro h v ⟨fd, ⟨hfd, hpos⟩, rfl⟩
    have := h fd hfd
    omega

variable (hrow : t.fds.fdtable.lookup c = some row)
include hrow

theorem handled_translateVirtualFd (v : ℕ) : Handled t c row (.translateVirtualFd v) := by
  simp only [Handled, serve]
  rw [translateVirtualFd_eq hrow]
  cases h : slotAt row v with
  | none => exact ⟨_, _, rfl, fun _ => ⟨trivial, rfl⟩⟩
  | some e => exact ⟨_, _, rfl, fun hnone => absurd (h.symm.trans hnone) (by simp)⟩

theorem handled_closeVirtualfd (hcount : t.fds.Counted)
    (v : ℕ) : Handled t c row (.closeVirtualfd v) := by
  simp only [Handled, serve]
  cases h : slotAt row v with
  | none =>
    rw [closeVirtualfd_of_none hrow h]
    exact ⟨_, _, rfl, fun _ => ⟨trivial, rfl⟩⟩
  | some e =>
    obtain ⟨r, s', hs⟩ := closeVirtualfd_of_some hrow hcount h
    rw [hs]
    cases r <;> exact ⟨_, _, rfl, fun hnone => absurd (h.symm.trans hnone) (by simp)⟩

/-- The flag and the info of a descriptor are set by one and the same edit. -/
theorem handled_modifyEntry_iff (v : ℕ) (f : FDTableEntry → FDTableEntry) :
    (∃ a s', ofOutcome (modifyEntry t.fds c v f) = .ok (a, s') ∧
      (slotAt row v = none → a.IsError ∧ s' = t.fds)) ↔ v < fdPerProcessMax := by
  by_cases hv : v < fdPerProcessMax
  · rw [modifyEntry_eq hrow hv]
    refine iff_of_true ?_ hv
    cases h : slotAt row v with
    | none => exact ⟨_, _, rfl, fun _ => ⟨trivial, rfl⟩⟩
    | some e => exact ⟨_, _, rfl, fun hnone => absurd hnone (by simp)⟩
  · rw [modifyEntry_of_ge hrow (Nat.le_of_not_lt hv)]
    exact iff_of_false (fun ⟨_, _, h, _⟩ => by cases h) hv

theorem handled_setCloexec_iff (v : ℕ) (x : Bool) :
    Handled t c row (.setCloexec v x) ↔ v < fdPerProcessMax := handled_modifyEntry_iff hrow v _

theorem handled_getSpecificVirtualFd_iff (hcount : t.fds.Counted) (v k u : ℕ) (x : Bool) (i : ℕ) :
    Handled t c row (.getSpecificVirtualFd v k u x i) ↔ v ≠ fdPerProcessMax := by
  simp only [Handled, serve]
  rcases lt_trichotomy v fdPerProcessMax with hv | rfl | hv
  · obtain ⟨s', hs⟩ := getSpecificVirtualFd_of_lt hrow hcount hv k u x i
    rw [hs]
    refine iff_of_true ?_ hv.ne
    generalize (slotAt row v).elim _ _ = r
    cases r <;> exact ⟨_, _, rfl, fun hge => absurd hv hge.not_gt⟩
  · rw [getSpecificVirtualFd_max hrow]
    exact iff_of_false (fun ⟨_, _, h, _⟩ => by cases h) fun h => h rfl
  · rw [getSpecificVirtualFd_of_gt hrow hv]
    exact iff_of_true ⟨_, _, rfl, fun _ => ⟨trivial, rfl⟩⟩ hv.ne'

theorem handled_convertVirtualfdsForPoll_iff (vs : List ℕ) :
    Handled t c row (.convertVirtualfdsForPoll vs) ↔ ∀ v ∈ vs, v < fdPerProcessMax := by
  simp only [Handled, serve]
  rw [convertVirtualfdsForPoll_eq hrow]
  by_cases hvs : ∀ v ∈ vs, v < fdPerProcessMax
  · obtain ⟨p, hp, -, hinv⟩ := insertVirtualfds_of_lt row hvs .empty
    rw [hp]
    exact iff_of_true ⟨_, _, rfl, rfl, p, rfl, hinv⟩ hvs
  · rw [insertVirtualfds_of_ge hvs]
    exact iff_of_false (fun ⟨_, _, h, _⟩ => by cases h) hvs

theorem handled_poll_iff (fds : List ℤ) :
    Handled t c row (.poll fds)
      ↔ (fds.length ≤ fdPerProcessMax → ∀ fd ∈ fds, fd < fdPerProcessMax) := by
  refine Iff.trans (handled_iff_exists fun _ _ => trivial) ?_
  simp only [serve, pollSyscall]
  split
  · next hlen => exact iff_of_true ⟨_, rfl⟩ fun hle => absurd hlen hle.not_gt
  · next hlen =>
    rw [← forall_pollVirtualFds_lt_iff]
    simp only [Nat.le_of_not_lt hlen, true_imp_iff]
    split
    · next h0 =>
      obtain rfl := length_eq_zero_iff.mp h0
      exact iff_of_true ⟨_, rfl⟩ (by simp [pollVirtualFds])
    · split
      · next hnil =>
        rw [hnil]
        exact iff_of_true ⟨_, rfl⟩ (by simp)
      · rw [convertVirtualfdsForPoll_eq hrow]
        by_cases hvs : ∀ v ∈ pollVirtualFds fds, v < fdPerProcessMax
        · obtain ⟨p, hp, -⟩ := insertVirtualfds_of_lt row hvs .empty
          rw [hp]
          exact iff_of_true ⟨_, rfl⟩ hvs
        · rw [insertVirtualfds_of_ge hvs]
          exact iff_of_false (fun ⟨_, h⟩ => by cases h) hvs

/-- **A number up to the end of the row is taken** unless it is the end itself, or what it named
fails to close. -/
theorem exists_getSpecificVirtualFd_ok_iff (hcount : t.fds.Counted) {new : ℕ}
    (hnew : new ≤ fdPerProcessMax) (e : FDTableEntry) :
    (∃ s', getSpecificVirtualFd t.fds c new e.fdkind e.underfd false e.perfdinfo
        = .ok (.ok (), s')) ↔
      new ≠ fdPerProcessMax ∧ ∀ replaced, slotAt row new = some replaced →
        closeResult (incrementFdcount t.fds { e with shouldCloexec := false }) replaced
          = .ok () := by
  rcases hnew.lt_or_eq with hlt | rfl
  · obtain ⟨s', hs⟩ := getSpecificVirtualFd_of_lt hrow hcount hlt e.fdkind e.underfd false
      e.perfdinfo
    rw [hs, and_iff_right hlt.ne]
    cases slotAt row new with
    | none => simp
    | some replaced =>
      simp only [Option.elim, Option.some.injEq, forall_eq', Except.ok.injEq, Prod.mk.injEq,
        exists_and_left, exists_eq', and_true]
      cases closeResult _ replaced <;> simp [Except.mapError]
  · rw [getSpecificVirtualFd_max hrow]
    simp

theorem handled_dup2_iff (hcount : t.fds.Counted) (old new : ℕ) :
    Handled t c row (.dup2 old new) ↔ Request.InRange t row (.dup2 old new) := by
  refine Iff.trans (handled_iff_exists fun _ _ => trivial) ?_
  simp only [serve, dup2Syscall, Request.InRange]
  split
  · next hbig =>
    refine iff_of_true ⟨_, rfl⟩ fun e he _ => ?_
    have hold := lt_of_slotAt he
    have hnew : fdPerProcessMax < new := by
      simp only [maxfd, fdPerProcessMax] at hbig hold ⊢
      omega
    rw [slotAt_of_ge hnew.le]
    exact ⟨hnew.ne', fun _ h => absurd h (by simp)⟩
  · next hsmall =>
    have hnew : new ≤ fdPerProcessMax := by
      simp only [maxfd, fdPerProcessMax] at hsmall ⊢
      omega
    split
    · next heq => exact iff_of_true ⟨_, rfl⟩ fun _ _ hne => absurd heq hne
    · next hne =>
      rw [translateVirtualFd_eq hrow]
      cases he : slotAt row old with
      | none => exact iff_of_true ⟨_, rfl⟩ fun _ h => absurd h (by simp)
      | some e =>
        simp only [Option.elim, Option.some.injEq, forall_eq', ne_eq, hne, not_false_eq_true,
          true_imp_iff]
        refine Iff.trans ?_ (exists_getSpecificVirtualFd_ok_iff hrow hcount hnew e)
        generalize getSpecificVirtualFd _ _ _ _ _ _ _ = answer
        rcases answer with _ | ⟨_ | _, _⟩ <;> simp

theorem exists_fcntlWith {command : FDTableEntry → Served}
    (hcommand : ∀ e, slotAt row v = some e → ∃ x, command e = .ok x) :
    ∃ x, fcntlWith t.fds c v command = .ok x := by
  rw [fcntlWith, fcntlHelper]
  split
  · next h =>
    split at h
    · cases h
    · rw [translateVirtualFd_eq hrow] at h
      cases hs : slotAt row v <;> simp [hs] at h
  · exact ⟨_, rfl⟩
  · next e h =>
    split at h
    · cases h
    · rw [translateVirtualFd_eq hrow] at h
      cases hs : slotAt row v with
      | none => simp [hs] at h
      | some e' =>
        obtain rfl : e' = e := by simpa [hs] using h
        exact hcommand _ hs

theorem handled_fcntl (v : ℕ) (cmd arg ret : ℤ) : Handled t c row (.fcntl v cmd arg ret) := by
  have hdup : ∀ x, ∃ y, fcntlDup t.fds c v x arg = .ok y := fun x =>
    exists_fcntlWith hrow fun e _ => by
      rw [getUnusedVirtualFdFromStartfd, allocateFrom, getRow_eq hrow]
      dsimp only
      cases firstUnused row _ <;> exact ⟨_, rfl⟩
  have hset : ∃ y, fcntlSetfd t.fds c v arg ret = .ok y :=
    exists_fcntlWith hrow fun e he => by
      split
      · exact ⟨_, rfl⟩
      · rw [setCloexec, modifyEntry_eq hrow (lt_of_slotAt he), he]
        exact ⟨_, rfl⟩
  refine Iff.mpr (handled_iff_exists fun _ _ => trivial) ?_
  simp only [serve, fcntlSyscall]
  split
  · exact hdup false
  split
  · exact hdup true
  split
  · exact exists_fcntlWith hrow fun _ _ => ⟨_, rfl⟩
  split
  · exact hset
  split
  · exact ⟨_, rfl⟩
  split
  · exact ⟨_, rfl⟩
  · exact exists_fcntlWith hrow fun _ _ => by split <;> exact ⟨_, rfl⟩

theorem epollGetUnderfdHashmap_eq_ok (epfd : ℕ) (myhm : Underfdhashmap) :
    epollGetUnderfdHashmap t c epfd = .ok (.ok myhm) ↔
      ∃ e, slotAt row epfd = some e ∧ e.fdkind = fdtKindepoll ∧
        t.ept.thisepolltable e.underfd = some myhm := by
  rw [epollGetUnderfdHashmap, getEpollEntrynumOrError, getRow_eq hrow]
  dsimp only
  by_cases hlt : epfd < fdPerProcessMax
  · rw [dif_pos hlt, slotAt_of_lt hlt]
    cases row ⟨epfd, hlt⟩ with
    | none => simp
    | some e =>
      by_cases hk : e.fdkind = fdtKindepoll
      · cases ht : t.ept.thisepolltable e.underfd <;> simp [hk, ht]
      · simp [hk]
  · rw [dif_neg hlt, slotAt_of_ge (Nat.le_of_not_lt hlt)]
    simp

theorem handled_epollCtl_iff (epfd : ℕ) (op : ℤ) (fd : ℕ) (eventOk : Bool) (ret : ℤ) :
    Handled t c row (.epollCtl epfd op fd eventOk ret) ↔ IsKernelEpoll t row epfd := by
  refine Iff.trans (handled_iff_exists fun _ _ => trivial) ?_
  have hok : IsKernelEpoll t row epfd ↔ ∃ myhm, epollGetUnderfdHashmap t c epfd = .ok (.ok myhm) ∧
      (myhm fdkindKernel).isSome := by
    simp only [IsKernelEpoll, epollGetUnderfdHashmap_eq_ok hrow]
    grind
  rw [hok]
  simp only [serve, epollCtlSyscall]
  rcases epollGetUnderfdHashmap t c epfd with crash | errno | myhm
  · exact iff_of_false (fun ⟨_, h⟩ => by cases h) fun ⟨_, h, _⟩ => by cases h
  · exact iff_of_false (fun ⟨_, h⟩ => by cases h) fun ⟨_, h, _⟩ => by cases h
  · simp only [Except.ok.injEq, exists_eq_left']
    cases myhm fdkindKernel with
    | none => exact iff_of_false (fun ⟨_, h⟩ => by cases h) (by simp)
    | some _ =>
      refine iff_of_true ?_ rfl
      dsimp only
      split
      · exact ⟨_, rfl⟩
      · rw [translateVirtualFd_eq hrow]
        cases slotAt row fd with
        | none => exact ⟨_, rfl⟩
        | some e =>
          dsimp only [Option.elim]
          split
          · exact ⟨_, rfl⟩
          · split <;> exact ⟨_, rfl⟩

end Requests

/-- **A request is served just when its numbers are in range**: after any calls, on any existing
cage, with whatever handlers are registered. -/
theorem handled_iff {t : Tables} (ops : List TablesOp)
    (hrun : runSteps Tables.step Tables.init ops = some t) {cageid : ℕ} {row : FdRow}
    (hrow : t.fds.fdtable.lookup cageid = some row) (r : Request) :
    Handled t cageid row r ↔ r.InRange t row := by
  have hcount := counted_run ops hrun
  cases r with
  | translateVirtualFd v => exact iff_of_true (handled_translateVirtualFd hrow v) trivial
  | getSpecificVirtualFd v k u x i => exact handled_getSpecificVirtualFd_iff hrow hcount v k u x i
  | setCloexec v x => exact handled_setCloexec_iff hrow v x
  | setPerfdinfo v i => exact handled_modifyEntry_iff hrow v _
  | closeVirtualfd v => exact iff_of_true (handled_closeVirtualfd hrow hcount v) trivial
  | convertVirtualfdsForPoll vs => exact handled_convertVirtualfdsForPoll_iff hrow vs
  | dup2 old new => exact handled_dup2_iff hrow hcount old new
  | fcntl v cmd arg ret => exact iff_of_true (handled_fcntl hrow v cmd arg ret) trivial
  | poll fds => exact handled_poll_iff hrow fds
  | epollCtl epfd op fd eventOk ret => exact handled_epollCtl_iff hrow epfd op fd eventOk ret

/-- A cage with one descriptor open. -/
def oneOpen : List TablesOp :=
  [.fd (.initEmptyCage 1), .fd (.getSpecificVirtualFd 1 0 fdkindKernel 7 false 0)]

/-- Replacing the descriptor by itself is served. -/
theorem handled_getSpecific_oneOpen :
    ∃ t row, runSteps Tables.step Tables.init oneOpen = some t ∧
      t.fds.fdtable.lookup 1 = some row ∧
      Handled t 1 row (.getSpecificVirtualFd 0 fdkindKernel 7 true 0) :=
  ⟨_, _, rfl, rfl, (handled_iff oneOpen rfl rfl _).mpr
    (show 0 ≠ fdPerProcessMax by decide)⟩

/-- **The first number past the row** gets through the bound test of `dup2` and of the tables, and
the index panics; the number is not tested at all for the flag, for `poll` and for `epoll_ctl`. -/
theorem not_handled_oneOpen :
    ∃ t row, runSteps Tables.step Tables.init oneOpen = some t ∧
      t.fds.fdtable.lookup 1 = some row ∧
      ¬ Handled t 1 row (.getSpecificVirtualFd 1024 fdkindKernel 7 false 0) ∧
      ¬ Handled t 1 row (.dup2 0 1024) ∧ ¬ Handled t 1 row (.setCloexec 1024 true) ∧
      ¬ Handled t 1 row (.poll [5000]) ∧ ¬ Handled t 1 row (.epollCtl 0 1 0 true 0) := by
  refine ⟨_, _, rfl, rfl, ?_, ?_, ?_, ?_, ?_⟩
  · exact fun h => (handled_getSpecificVirtualFd_iff rfl (counted_run oneOpen rfl) ..).mp h
      rfl
  · intro h
    have hrange := (handled_dup2_iff rfl (counted_run oneOpen rfl) 0 1024).mp h
    exact (hrange _ rfl (by decide)).1 rfl
  · exact fun h => absurd ((handled_setCloexec_iff rfl ..).mp h) (by decide)
  · intro h
    have := (handled_poll_iff rfl _).mp h (by decide) 5000 (by simp)
    exact absurd this (by decide)
  · intro h
    obtain ⟨e, he, hk, -⟩ := (handled_epollCtl_iff rfl ..).mp h
    cases he
    exact absurd hk (by decide)

end LindWasm.FdTables
