import LindWasm.FdTables.Bounds
import LindWasm.Machinery.Overwrite

/-!
# FdTables/Poll — `poll` through three hash maps

    entry --fd--> virtual fd --row--> (kind, underfd) --> host's entry
      ▴                                                      │ revents
      └--vfd_to_index-- virtual fd <--mapping_table----------┘

The three maps are keyed by descriptor or by kernel number, and each keeps what was put in last.
The loops of the call only add to the host's array and write `revents` at indices, so a call that is
not refused is one list of writes over the guest's array (`pollArray_eq`, `fromHost_of_ready`).
-/

namespace LindWasm.FdTables

open Function Option List

/-! ## The call -/

/-- `fd` is an `i32`. -/
structure Pollfd where
  fd : ℤ
  events : BitVec 16
  revents : BitVec 16
  deriving DecidableEq

def Pollfd.mark (e : Pollfd) (revents : BitVec 16) : Pollfd := { e with revents }

def pollin : BitVec 16 := 0x1

def pollout : BitVec 16 := 0x4

def pollerr : BitVec 16 := 0x8

def pollnval : BitVec 16 := 0x20

/-- `i as u64` for an `i32`. -/
def asU64 (i : ℤ) : ℕ := (BitVec.ofInt 64 i).toNat

/-- The orders in which the hash containers of one call are walked: any. -/
structure HashOrder where
  fds : List ℕ → List ℕ
  kinds : List ℕ → List ℕ
  entries : List (ℕ × FDTableEntry) → List (ℕ × FDTableEntry)
  fds_perm : ∀ l, (fds l).Perm l
  kinds_perm : ∀ l, (kinds l).Perm l
  entries_perm : ∀ l, (entries l).Perm l

/-- The order of insertion. -/
def HashOrder.inserted : HashOrder :=
  ⟨fun l => l, fun l => l, fun l => l, .refl, .refl, .refl⟩

def vfdToIndex (fdsSlice : List Pollfd) : ℤ → Option ℕ :=
  overwriteAll (fun _ => none) (fdsSlice.zipIdx.map fun x => (x.1.fd, x.2))

def vfdToEvents (fdsSlice : List Pollfd) : ℤ → Option (BitVec 16) :=
  overwriteAll (fun _ => none) (fdsSlice.map fun e => (e.fd, e.events))

/-- The guest's array, the host's array and the count, as the loops go through them. -/
structure Polling where
  fdsSlice : List Pollfd
  allKernelPollfds : List Pollfd
  totalReady : ℕ

/-- Write a descriptor's `revents`, to the one index kept for it. -/
def Polling.report (index : ℤ → Option ℕ) (st : Polling) (vfd : ℤ) (revents : BitVec 16) :
    Polling :=
  match index vfd with
  | none => st
  | some i =>
      { st with
        fdsSlice := st.fdsSlice.modify i (·.mark revents)
        totalReady := st.totalReady + 1 }

/-- What the host is asked for a descriptor. -/
def kernelPollfd (events : ℤ → Option (BitVec 16)) (x : ℕ × FDTableEntry) : Pollfd :=
  ⟨asI32 x.2.underfd, (events (asI32 x.1)).getD 0, 0⟩

/-- The descriptors of one kind; a kind that is neither the kernel's nor invalid is refused. -/
def Polling.collectKind (o : HashOrder) (index : ℤ → Option ℕ) (events : ℤ → Option (BitVec 16))
    (p : PollFds) (st : Polling) (fdkind : ℕ) : Option Polling :=
  let fdSet := o.entries (p.rethashmap fdkind)
  if fdkind = fdkindKernel then
    some { st with allKernelPollfds := st.allKernelPollfds ++ fdSet.map (kernelPollfd events) }
  else if fdkind = fdtInvalidFd then
    some (fdSet.foldl (fun st x => st.report index (asI32 x.1) pollnval) st)
  else none

/-- One call of the host's `poll`: an error, or its return value and the `revents` it leaves at
each place of the array, with what the timer and the signal check then say. -/
inductive PollRound where
  | error
  | answer (ret : ℕ) (revents : ℕ → BitVec 16) (elapsed signalled : Bool)

inductive PollWait where
  | ready (revents : ℕ → BitVec 16)
  | hostFailed
  | interrupted
  | waiting

def pollWait : List PollRound → PollWait
  | [] => .waiting
  | .error :: _ => .hostFailed
  | .answer ret revents elapsed signalled :: rest =>
      if ret > 0 ∨ elapsed then .ready revents
      else if signalled then .interrupted
      else pollWait rest

/-- The host's array after its answer. -/
def answered (kernel : List Pollfd) (revents : ℕ → BitVec 16) : List Pollfd :=
  kernel.zipIdx.map fun x => x.1.mark (revents x.2)

/-- One entry of the host's array on its way back. -/
def Polling.convertBack (index : ℤ → Option ℕ) (mappingtable : ℕ × ℕ → Option ℕ) (st : Polling)
    (kernelPollfd : Pollfd) : Polling :=
  if kernelPollfd.revents = 0 then st
  else
    match mappingtable (fdkindKernel, asU64 kernelPollfd.fd) with
    | none => st
    | some convertedVfd => st.report index (asI32 convertedVfd) kernelPollfd.revents

/-- What the guest gets, and the host's array as the host left it. -/
inductive Polled where
  | returned (ret : ℕ) (fdsSlice kernel : List Pollfd)
  | failed (errno : SysErrno) (call message : String)
  | hostFailed (call : String)
  | waiting
  deriving DecidableEq

/-- From the host's answer back to the guest's array. -/
def Polling.finish (st : Polling) (index : ℤ → Option ℕ) (mappingtable : ℕ × ℕ → Option ℕ)
    (rounds : List PollRound) : Polled :=
  if st.allKernelPollfds = [] then .returned st.totalReady st.fdsSlice []
  else
    match pollWait rounds with
    | .waiting => .waiting
    | .hostFailed => .hostFailed "poll_syscall"
    | .interrupted => .failed .EINTR "poll_syscall" "interrupted"
    | .ready revents =>
        let kernel := answered st.allKernelPollfds revents
        let st := kernel.foldl (Polling.convertBack index mappingtable) st
        .returned st.totalReady st.fdsSlice kernel

/-- The entry a descriptor is polled by. -/
def pollEntry (row : FdRow) (v : ℕ) : FDTableEntry := (slotAt row v).getD (invalidEntry v)

/-- The kinds that are met. -/
def pollKinds (row : FdRow) (vs : List ℕ) : List ℕ :=
  (vs.map fun v => (pollEntry row v).fdkind).dedup

/-- The array with its `revents` cleared. -/
def cleared (fds : List Pollfd) : List Pollfd := fds.map (·.mark 0)

/-- The descriptors of an array that are looked at. -/
def lookedAt (fds : List Pollfd) : List ℕ := pollVirtualFds ((cleared fds).map Pollfd.fd)

/-- `poll` on the whole array, as the hash containers are walked in the order `o`. -/
def pollArray (o : HashOrder) (s : State) (cageid : ℕ) (fds : List Pollfd)
    (rounds : List PollRound) : Except Panic Polled :=
  if fds.length > fdPerProcessMax then
    .ok (.failed .EINVAL "poll_syscall" "Too many file descriptors")
  else if fds.length = 0 then .ok (.returned 0 fds [])
  else
    let fdsSlice := cleared fds
    let index := vfdToIndex fdsSlice
    let events := vfdToEvents fdsSlice
    if lookedAt fds = [] then .ok (.returned 0 fdsSlice [])
    else
      match getRow s cageid with
      | .error p => .error p
      | .ok row =>
          match insertVirtualfds row .empty (o.fds (lookedAt fds)) with
          | .error p => .error p
          | .ok p =>
              match (o.kinds (pollKinds row (lookedAt fds))).foldlM
                (Polling.collectKind o index events p) ⟨fdsSlice, [], 0⟩ with
              | none => .ok (.failed .EBADFD "poll_syscall" "Invalid fdkind")
              | some st => .ok (st.finish index p.mappingtable rounds)

/-! ## What a guest is promised -/

/-- **One entry's answer**: nothing for a negative descriptor, `POLLNVAL` for one that is not open,
and otherwise what the host reports for the entry's own kernel number and events. -/
def ReventsRight (row : FdRow) (kernel : List Pollfd) (e : Pollfd) (revents : BitVec 16) : Prop :=
  if e.fd < 0 then revents = 0
  else
    match slotAt row e.fd.toNat with
    | none => revents = pollnval
    | some x => ⟨x.underfd, e.events, revents⟩ ∈ kernel

/-- … and nothing else of the entry changes. -/
def EntryRight (row : FdRow) (kernel : List Pollfd) (e e' : Pollfd) : Prop :=
  e' = e.mark e'.revents ∧ ReventsRight row kernel e e'.revents

/-- A reply that answers each entry, and counts the entries that report something. A call that
fails reports nothing. -/
def Polled.Right (row : FdRow) (fds : List Pollfd) : Polled → Prop
  | .returned ret fdsSlice kernel =>
      List.Forall₂ (EntryRight row kernel) fds fdsSlice ∧
        ret = fdsSlice.countP (·.revents ≠ 0)
  | _ => True

/-- **The array is answered whatever the host says.** -/
def PollsRight (o : HashOrder) (s : State) (cageid : ℕ) (row : FdRow) (fds : List Pollfd) : Prop :=
  ∀ rounds, ∃ r, pollArray o s cageid fds rounds = .ok r ∧ r.Right row fds

/-! ## The maps -/

section Maps

variable {l : List Pollfd} {fd : ℤ} {i n : ℕ} {e : Pollfd}

/-- The index kept for a descriptor is that of one of its entries. -/
theorem fd_of_vfdToIndex (h : vfdToIndex l fd = some i) : ∃ e, l[i]? = some e ∧ e.fd = fd := by
  obtain ⟨x, hx, heq⟩ := mem_map.mp ((eq_or_mem_of_overwriteAll h).resolve_left nofun)
  rw [Prod.mk.injEq] at heq
  exact ⟨x.1, heq.2 ▸ mem_zipIdx_iff_getElem?.mp hx, heq.1⟩

theorem exists_vfdToIndex (h : e ∈ l) : ∃ i, vfdToIndex l e.fd = some i := by
  obtain ⟨j, hj⟩ := getElem?_of_mem h
  have hmem : (e, j) ∈ l.zipIdx := mem_zipIdx_iff_getElem?.mpr hj
  exact exists_overwriteAll_of_mem _ (mem_map.mpr ⟨(e, j), hmem, rfl⟩)

theorem events_of_vfdToEvents {ev : BitVec 16} (h : vfdToEvents l fd = some ev) :
    ∃ e ∈ l, e.fd = fd ∧ e.events = ev := by
  obtain ⟨e, he, heq⟩ := mem_map.mp ((eq_or_mem_of_overwriteAll h).resolve_left nofun)
  rw [Prod.mk.injEq] at heq
  exact ⟨e, he, heq.1, heq.2⟩

theorem exists_vfdToEvents (h : e ∈ l) : ∃ ev, vfdToEvents l e.fd = some ev :=
  exists_overwriteAll_of_mem _ (mem_map.mpr ⟨e, h, rfl⟩)

theorem asI32_of_lt (h : n < 2 ^ 31) : asI32 n = n := by
  rw [asI32, BitVec.toInt_eq_toNat_cond, BitVec.toNat_ofNat]
  omega

theorem asI32_lt (n : ℕ) : asI32 n < 2 ^ 31 := by
  have := BitVec.toInt_lt (x := BitVec.ofNat 32 n)
  simpa [asI32] using this

theorem asU64_natCast (h : n < 2 ^ 31) : asU64 (n : ℤ) = n := by
  rw [asU64, BitVec.ofInt_natCast, BitVec.toNat_ofNat]
  omega

end Maps

/-! ## The conversion

The descriptors are listed by kind, in the order they come, and the map back keeps the last one
over a kernel number. -/

section Conversion

variable {row : FdRow} {vs : List ℕ} {v : ℕ}

/-- What the conversion returns. -/
def pollFdsOf (row : FdRow) (vs : List ℕ) : PollFds where
  rethashmap k := (vs.map fun v => (v, pollEntry row v)).filter (·.2.fdkind = k)
  mappingtable := overwriteAll (fun _ => none) (vs.map fun v => ((pollEntry row v).pair, v))

theorem pollFdsOf_concat (row : FdRow) (vs : List ℕ) (v : ℕ) :
    pollFdsOf row (vs ++ [v]) = (pollFdsOf row vs).insert v (pollEntry row v) := by
  have hkinds (k : ℕ) : (pollFdsOf row (vs ++ [v])).rethashmap k
      = ((pollFdsOf row vs).insert v (pollEntry row v)).rethashmap k := by
    by_cases hk : k = (pollEntry row v).fdkind
    · subst hk
      simp [pollFdsOf, PollFds.insert]
    · simp [pollFdsOf, PollFds.insert, update_of_ne hk, Ne.symm hk]
  have hback : (pollFdsOf row (vs ++ [v])).mappingtable
      = ((pollFdsOf row vs).insert v (pollEntry row v)).mappingtable := by
    simp [pollFdsOf, PollFds.insert, overwriteAll_concat]
  exact congrArg₂ PollFds.mk (funext hkinds) hback

theorem insertVirtualfds_append (hlt : ∀ v ∈ vs, v < fdPerProcessMax) (done : List ℕ) :
    insertVirtualfds row (pollFdsOf row done) vs = .ok (pollFdsOf row (done ++ vs)) := by
  induction vs generalizing done with
  | nil => rw [append_nil]; rfl
  | cons v vs ih =>
    obtain ⟨hv, hvs⟩ := forall_mem_cons.mp hlt
    rw [insertVirtualfds_cons hv, append_cons, ← ih hvs, pollFdsOf_concat]
    rfl

/-- **The conversion of numbers that are in the row.** -/
theorem insertVirtualfds_empty (hlt : ∀ v ∈ vs, v < fdPerProcessMax) :
    insertVirtualfds row .empty vs = .ok (pollFdsOf row vs) :=
  insertVirtualfds_append hlt []

theorem mem_rethashmap {k : ℕ} {x : ℕ × FDTableEntry} :
    x ∈ (pollFdsOf row vs).rethashmap k
      ↔ x.1 ∈ vs ∧ x.2 = pollEntry row x.1 ∧ x.2.fdkind = k := by
  rw [pollFdsOf, List.mem_filter, List.mem_map, decide_eq_true_eq]
  constructor
  · rintro ⟨⟨v, hv, rfl⟩, hk⟩
    exact ⟨hv, rfl, hk⟩
  · rintro ⟨hv, heq, hk⟩
    exact ⟨⟨x.1, hv, Prod.ext rfl heq.symm⟩, hk⟩

/-- A number the map leads back to stands over the pair asked for. -/
theorem pair_of_mappingtable {q : ℕ × ℕ} (h : (pollFdsOf row vs).mappingtable q = some v) :
    v ∈ vs ∧ (pollEntry row v).pair = q := by
  obtain ⟨w, hw, heq⟩ := mem_map.mp ((eq_or_mem_of_overwriteAll h).resolve_left nofun)
  rw [Prod.mk.injEq] at heq
  obtain ⟨hq, rfl⟩ := heq
  exact ⟨hw, hq⟩

theorem exists_mappingtable (row : FdRow) (h : v ∈ vs) :
    ∃ w, (pollFdsOf row vs).mappingtable (pollEntry row v).pair = some w :=
  exists_overwriteAll_of_mem _ (mem_map.mpr ⟨v, h, rfl⟩)

end Conversion

/-! ## The loops

Each loop only adds to the host's array and writes `revents` at indices: a run of them is one list
of each. -/

section Loops

variable {index : ℤ → Option ℕ} {o : HashOrder} {events : ℤ → Option (BitVec 16)} {p : PollFds}
  {mappingtable : ℕ × ℕ → Option ℕ} {ks : List ℕ} {k : ℕ}

/-- The state after some more entries for the host and some more writes. -/
def Polling.after (st : Polling) (kernel : List Pollfd) (writes : List (ℕ × BitVec 16)) : Polling :=
  ⟨writeAll Pollfd.mark st.fdsSlice writes, st.allKernelPollfds ++ kernel,
    st.totalReady + writes.length⟩

variable (st : Polling)

theorem Polling.after_nil : st.after [] [] = st := by
  rw [Polling.after, append_nil]
  rfl

theorem Polling.after_after (k k' : List Pollfd) (w w' : List (ℕ × BitVec 16)) :
    (st.after k w).after k' w' = st.after (k ++ k') (w ++ w') := by
  simp only [Polling.after, writeAll_append, append_assoc, length_append, Nat.add_assoc]

/-- The write a report makes. -/
def reportWrite (index : ℤ → Option ℕ) (vfd : ℤ) (revents : BitVec 16) : Option (ℕ × BitVec 16) :=
  (index vfd).map (·, revents)

theorem Polling.report_eq (vfd : ℤ) (revents : BitVec 16) :
    st.report index vfd revents = st.after [] (reportWrite index vfd revents).toList := by
  rw [Polling.report, reportWrite]
  cases index vfd with
  | none => exact (Polling.after_nil st).symm
  | some i => rw [Polling.after, append_nil]; rfl

theorem Polling.foldl_eq_after {α : Type} {f : Polling → α → Polling}
    {write : α → Option (ℕ × BitVec 16)} (hf : ∀ st a, f st a = st.after [] (write a).toList)
    (l : List α) (st : Polling) : l.foldl f st = st.after [] (l.filterMap write) := by
  induction l generalizing st with
  | nil => exact (Polling.after_nil st).symm
  | cons a l ih =>
    rw [foldl_cons, ih, hf, Polling.after_after, filterMap_cons]
    cases write a <;> rfl

/-- The write for a descriptor that is not open. -/
def invalidWrite (index : ℤ → Option ℕ) (x : ℕ × FDTableEntry) : Option (ℕ × BitVec 16) :=
  reportWrite index (asI32 x.1) pollnval

/-- What a kind adds to the host's array. -/
def kindKernel (o : HashOrder) (events : ℤ → Option (BitVec 16)) (p : PollFds) (fdkind : ℕ) :
    List Pollfd :=
  if fdkind = fdkindKernel then (o.entries (p.rethashmap fdkind)).map (kernelPollfd events) else []

/-- The writes a kind makes. -/
def kindWrites (o : HashOrder) (index : ℤ → Option ℕ) (p : PollFds) (fdkind : ℕ) :
    List (ℕ × BitVec 16) :=
  if fdkind = fdtInvalidFd then
    (o.entries (p.rethashmap fdkind)).filterMap (invalidWrite index)
  else []

/-- The kinds that are not refused. -/
def PollKind (fdkind : ℕ) : Prop := fdkind = fdkindKernel ∨ fdkind = fdtInvalidFd

theorem Polling.collectKind_eq (hk : PollKind k) (st : Polling) : st.collectKind o index events p k
      = some (st.after (kindKernel o events p k) (kindWrites o index p k)) := by
  rcases hk with rfl | rfl
  · rw [Polling.collectKind, if_pos rfl, kindKernel, if_pos rfl, kindWrites, if_neg (by decide)]
    rfl
  · rw [Polling.collectKind, if_neg (by decide), if_pos rfl, kindKernel, if_neg (by decide),
      kindWrites, if_pos rfl]
    exact congrArg some
      (Polling.foldl_eq_after (fun st x => st.report_eq (asI32 x.1) pollnval) _ st)

theorem Polling.collectKind_of_not (hk : ¬ PollKind k) (st : Polling) :
    st.collectKind o index events p k = none := by
  rw [Polling.collectKind, if_neg fun h => hk (.inl h), if_neg fun h => hk (.inr h)]

/-- **The loop over the kinds.** -/
theorem Polling.foldlM_collectKind (hks : ∀ k ∈ ks, PollKind k) (st : Polling) :
    ks.foldlM (Polling.collectKind o index events p) st
      = some (st.after (ks.flatMap (kindKernel o events p))
        (ks.flatMap (kindWrites o index p))) := by
  induction ks generalizing st with
  | nil => exact congrArg some st.after_nil.symm
  | cons k ks ih =>
    obtain ⟨hk, hrest⟩ := forall_mem_cons.mp hks
    rw [foldlM_cons, Polling.collectKind_eq hk, bind_eq_bind, bind_some,
      ih hrest, Polling.after_after, flatMap_cons, flatMap_cons]

/-- … and it refuses the call at the first kind that is not pollable. -/
theorem Polling.foldlM_collectKind_none (hks : ∃ k ∈ ks, ¬ PollKind k)
    (st : Polling) : ks.foldlM (Polling.collectKind o index events p) st = none := by
  induction ks generalizing st with
  | nil => obtain ⟨k, hk, -⟩ := hks; cases hk
  | cons k ks ih =>
    rw [foldlM_cons]
    by_cases hk : PollKind k
    · rw [Polling.collectKind_eq hk]
      exact ih (((exists_mem_cons_iff ..).mp hks).resolve_left (not_not_intro hk)) _
    · rw [Polling.collectKind_of_not hk]
      rfl

/-- The write the host's answer for one of its entries leads to. -/
def backWrite (index : ℤ → Option ℕ) (mappingtable : ℕ × ℕ → Option ℕ) (k : Pollfd) :
    Option (ℕ × BitVec 16) :=
  if k.revents = 0 then none
  else (mappingtable (fdkindKernel, asU64 k.fd)).bind fun v => reportWrite index (asI32 v) k.revents

theorem Polling.convertBack_eq (k : Pollfd) :
    st.convertBack index mappingtable k = st.after [] (backWrite index mappingtable k).toList := by
  rw [Polling.convertBack, backWrite]
  split
  · exact st.after_nil.symm
  · cases mappingtable (fdkindKernel, asU64 k.fd) with
    | none => exact st.after_nil.symm
    | some v => exact st.report_eq ..

theorem Polling.foldl_convertBack (kernel : List Pollfd) (st : Polling) :
    kernel.foldl (Polling.convertBack index mappingtable) st
      = st.after [] (kernel.filterMap (backWrite index mappingtable)) :=
  Polling.foldl_eq_after (fun st k => st.convertBack_eq k) kernel st

end Loops

/-! ## The reply -/

section Reply

variable {o : HashOrder} {row : FdRow} {fds : List Pollfd} {revents : ℕ → BitVec 16}

/-- The descriptors as they are converted. -/
def converted (o : HashOrder) (row : FdRow) (fds : List Pollfd) : PollFds :=
  pollFdsOf row (o.fds (lookedAt fds))

/-- The array the host is called with. -/
def hostArray (o : HashOrder) (row : FdRow) (fds : List Pollfd) : List Pollfd :=
  (o.kinds (pollKinds row (lookedAt fds))).flatMap
    (kindKernel o (vfdToEvents (cleared fds)) (converted o row fds))

/-- The writes for descriptors that are not open. -/
def invalidWrites (o : HashOrder) (row : FdRow) (fds : List Pollfd) : List (ℕ × BitVec 16) :=
  (o.kinds (pollKinds row (lookedAt fds))).flatMap
    (kindWrites o (vfdToIndex (cleared fds)) (converted o row fds))

/-- The writes for what the host answers. -/
def hostWrites (o : HashOrder) (row : FdRow) (fds : List Pollfd) (revents : ℕ → BitVec 16) :
    List (ℕ × BitVec 16) :=
  (answered (hostArray o row fds) revents).filterMap
    (backWrite (vfdToIndex (cleared fds)) (converted o row fds).mappingtable)

def pollWrites (o : HashOrder) (row : FdRow) (fds : List Pollfd) (revents : ℕ → BitVec 16) :
    List (ℕ × BitVec 16) :=
  invalidWrites o row fds ++ hostWrites o row fds revents

/-- The array the guest gets back. -/
def reported (o : HashOrder) (row : FdRow) (fds : List Pollfd) (revents : ℕ → BitVec 16) :
    List Pollfd :=
  writeAll Pollfd.mark (cleared fds) (pollWrites o row fds revents)

/-- The reply to a call that is not refused. -/
def pollReply (o : HashOrder) (row : FdRow) (fds : List Pollfd) (revents : ℕ → BitVec 16) :
    Polled :=
  .returned (pollWrites o row fds revents).length (reported o row fds revents)
    (answered (hostArray o row fds) revents)

/-- The state in which the host is called. -/
def beforeHost (o : HashOrder) (row : FdRow) (fds : List Pollfd) : Polling :=
  (⟨cleared fds, [], 0⟩ : Polling).after (hostArray o row fds) (invalidWrites o row fds)

/-- The call with the host's array and the maps in place. -/
def fromHost (o : HashOrder) (row : FdRow) (fds : List Pollfd) (rounds : List PollRound) : Polled :=
  (beforeHost o row fds).finish (vfdToIndex (cleared fds)) (converted o row fds).mappingtable rounds

/-- With nothing to ask, the host is not called and its answer does not matter. -/
theorem fromHost_of_nil (hnil : hostArray o row fds = []) (rounds : List PollRound) :
    fromHost o row fds rounds = pollReply o row fds revents := by
  rw [fromHost, Polling.finish, pollReply, reported, pollWrites, hostWrites, hnil,
    if_pos (show (beforeHost o row fds).allKernelPollfds = [] from hnil)]
  simp [beforeHost, Polling.after, answered]

theorem fromHost_of_ready {rounds : List PollRound} (h : pollWait rounds = .ready revents) :
    fromHost o row fds rounds = pollReply o row fds revents := by
  by_cases hnil : hostArray o row fds = []
  · exact fromHost_of_nil hnil rounds
  · rw [fromHost, Polling.finish,
      if_neg (show (beforeHost o row fds).allKernelPollfds ≠ [] from hnil), h]
    dsimp only
    rw [Polling.foldl_convertBack, beforeHost, Polling.after_after]
    simp [Polling.after, pollReply, reported, pollWrites, hostWrites]

/-- **However the waiting goes**, the call gives the reply to some answer or reports nothing. -/
theorem fromHost_cases (o : HashOrder) (row : FdRow) (fds : List Pollfd) (rounds : List PollRound) :
    (∃ revents, fromHost o row fds rounds = pollReply o row fds revents) ∨
      (fromHost o row fds rounds).Right row fds := by
  by_cases hnil : hostArray o row fds = []
  · exact .inl ⟨fun _ => 0, fromHost_of_nil hnil rounds⟩
  · cases h : pollWait rounds with
    | ready revents => exact .inl ⟨revents, fromHost_of_ready h⟩
    | _ =>
      right
      rw [fromHost, Polling.finish,
        if_neg (show (beforeHost o row fds).allKernelPollfds ≠ [] from hnil), h]
      trivial

variable {s : State} {c : ℕ} {rounds : List PollRound}

theorem fromHost_of_lookedAt_nil (h : lookedAt fds = []) (rounds : List PollRound) :
    fromHost o row fds rounds = .returned 0 (cleared fds) [] := by
  have hkinds : o.kinds (pollKinds row (lookedAt fds)) = [] := by
    rw [h]
    exact (o.kinds_perm []).eq_nil
  have hhost : hostArray o row fds = [] := by rw [hostArray, hkinds, flatMap_nil]
  have hwrites : pollWrites o row fds (fun _ => 0) = [] := by
    rw [pollWrites, invalidWrites, hostWrites, hkinds, hhost]
    rfl
  rw [fromHost_of_nil hhost, pollReply, reported, hwrites, hhost]
  rfl

section

variable (hrow : s.fdtable.lookup c = some row) (hlen : fds.length ≤ fdPerProcessMax)
include hrow hlen

theorem pollArray_of_ge (hge : ¬ ∀ v ∈ lookedAt fds, v < fdPerProcessMax) :
    pollArray o s c fds rounds = .error .indexOutOfBounds := by
  have hne : lookedAt fds ≠ [] := fun h => hge (by simp [h])
  have h0 : fds.length ≠ 0 := fun h => hne (by rw [length_eq_zero_iff.mp h]; rfl)
  have hge' : ¬ ∀ v ∈ o.fds (lookedAt fds), v < fdPerProcessMax :=
    fun h => hge fun v hv => h v ((o.fds_perm _).mem_iff.mpr hv)
  rw [pollArray, if_neg hlen.not_gt, if_neg h0]
  rw [if_neg hne, getRow_eq hrow]
  dsimp only
  rw [insertVirtualfds_of_ge hge']

variable (hlt : ∀ v ∈ lookedAt fds, v < fdPerProcessMax)
include hlt

/-- **A call whose kinds can all be polled.** -/
theorem pollArray_eq (hkinds : ∀ k ∈ pollKinds row (lookedAt fds), PollKind k) :
    pollArray o s c fds rounds = .ok (fromHost o row fds rounds) := by
  rw [pollArray, if_neg hlen.not_gt]
  by_cases h0 : fds.length = 0
  · obtain rfl := length_eq_zero_iff.mp h0
    rw [if_pos h0, fromHost_of_lookedAt_nil rfl]
    rfl
  rw [if_neg h0]
  by_cases hnil : lookedAt fds = []
  · rw [if_pos hnil, fromHost_of_lookedAt_nil hnil]
  have hlt' : ∀ v ∈ o.fds (lookedAt fds), v < fdPerProcessMax :=
    fun v hv => hlt v ((o.fds_perm _).mem_iff.mp hv)
  have hkinds' : ∀ k ∈ o.kinds (pollKinds row (lookedAt fds)), PollKind k :=
    fun k hk => hkinds k ((o.kinds_perm _).mem_iff.mp hk)
  rw [if_neg hnil, getRow_eq hrow]
  dsimp only
  rw [insertVirtualfds_empty hlt']
  dsimp only
  rw [Polling.foldlM_collectKind hkinds']
  rfl

theorem pollArray_refused (hkinds : ∃ k ∈ pollKinds row (lookedAt fds), ¬ PollKind k) :
    pollArray o s c fds rounds = .ok (.failed .EBADFD "poll_syscall" "Invalid fdkind") := by
  obtain ⟨k, hk, hodd⟩ := hkinds
  have hne : lookedAt fds ≠ [] := fun h => by simp [h, pollKinds] at hk
  have h0 : fds.length ≠ 0 := fun h => hne (by rw [length_eq_zero_iff.mp h]; rfl)
  have hlt' : ∀ v ∈ o.fds (lookedAt fds), v < fdPerProcessMax :=
    fun v hv => hlt v ((o.fds_perm _).mem_iff.mp hv)
  rw [pollArray, if_neg hlen.not_gt, if_neg h0]
  rw [if_neg hne, getRow_eq hrow]
  dsimp only
  rw [insertVirtualfds_empty hlt']
  dsimp only
  rw [Polling.foldlM_collectKind_none ⟨k, (o.kinds_perm _).mem_iff.mpr hk, hodd⟩]

/-- **Only the host's last answer matters** to a call that is not refused. -/
theorem pollsRight_iff_reply (hkinds : ∀ k ∈ pollKinds row (lookedAt fds), PollKind k) :
    PollsRight o s c row fds ↔ ∀ revents, (pollReply o row fds revents).Right row fds := by
  constructor
  · intro h revents
    obtain ⟨r, hr, hright⟩ := h [.answer 1 revents false false]
    rw [pollArray_eq hrow hlen hlt hkinds, fromHost_of_ready rfl] at hr
    exact Except.ok.inj hr ▸ hright
  · intro h rounds
    refine ⟨_, pollArray_eq hrow hlen hlt hkinds, ?_⟩
    obtain ⟨revents, hreply⟩ | hright := fromHost_cases o row fds rounds
    · exact hreply ▸ h revents
    · exact hright

end

end Reply

end LindWasm.FdTables
