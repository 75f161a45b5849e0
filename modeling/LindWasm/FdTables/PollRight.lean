import LindWasm.FdTables.Poll

/-!
# FdTables/PollRight — which arrays `poll` answers

    entries --> descriptors --> kernel numbers       each arrow one to one:  every entry answered
       ⟍ ⟋         ⟍ ⟋                              two into one:  all but one come back silent

Neither the descriptor nor the kernel's number names an entry of the guest's array: a map keyed by
one of them keeps a single entry, and the others come back silent. `pollsRight_iff` says for which
arrays every entry is answered whatever the host reports.
-/

namespace LindWasm.FdTables

open Option List

/-! ## What is written -/

/-- A descriptor the array asks about. -/
def Asks (fds : List Pollfd) (v : ℕ) : Prop := ∃ e ∈ fds, e.fd = v

section Writes

variable {o : HashOrder} {row : FdRow} {fds : List Pollfd} {revents : ℕ → BitVec 16} {v i kind : ℕ}
  {b : BitVec 16} {k e : Pollfd} {index : ℤ → Option ℕ}

theorem getElem?_cleared (fds : List Pollfd) (i : ℕ) :
    (cleared fds)[i]? = fds[i]?.map (·.mark 0) := getElem?_map

theorem mem_lookedAt : v ∈ lookedAt fds ↔ Asks fds v := by
  simp only [lookedAt, pollVirtualFds, cleared, List.mem_dedup, List.mem_map, List.mem_filter,
    decide_eq_true_eq]
  constructor
  · rintro ⟨fd, ⟨⟨-, ⟨e, he, rfl⟩, rfl⟩, hpos⟩, rfl⟩
    exact ⟨e, he, (Int.toNat_of_nonneg hpos).symm⟩
  · rintro ⟨e, he, hfd⟩
    exact ⟨e.fd, ⟨⟨_, ⟨e, he, rfl⟩, rfl⟩, by omega⟩, by omega⟩

theorem mem_pollKinds {vs : List ℕ} :
    kind ∈ pollKinds row vs ↔ ∃ v ∈ vs, (pollEntry row v).fdkind = kind := by
  rw [pollKinds, List.mem_dedup, List.mem_map]

theorem mem_converted {x : ℕ × FDTableEntry} : x ∈ o.entries ((converted o row fds).rethashmap kind)
      ↔ x.1 ∈ lookedAt fds ∧ x.2 = pollEntry row x.1 ∧ x.2.fdkind = kind := by
  rw [(o.entries_perm _).mem_iff, converted, mem_rethashmap, (o.fds_perm _).mem_iff]

theorem nodup_converted (o : HashOrder) (row : FdRow) (fds : List Pollfd) (kind : ℕ) :
    ((o.entries ((converted o row fds).rethashmap kind)).map Prod.fst).Nodup := by
  have hvs : (o.fds (lookedAt fds)).Nodup := (o.fds_perm _).nodup_iff.mpr (List.nodup_dedup _)
  rw [((o.entries_perm _).map Prod.fst).nodup_iff]
  refine hvs.sublist ?_
  have hsub := (List.filter_sublist (p := fun x : ℕ × FDTableEntry => decide (x.2.fdkind = kind))
    (l := (o.fds (lookedAt fds)).map fun v => (v, pollEntry row v))).map Prod.fst
  rwa [List.map_map, List.map_id''] at hsub
  exact fun _ => rfl

theorem nodup_kinds (o : HashOrder) (row : FdRow) (fds : List Pollfd) :
    (o.kinds (pollKinds row (lookedAt fds))).Nodup :=
  (o.kinds_perm _).nodup_iff.mpr (nodup_dedup _)

theorem mem_hostArray :
    k ∈ hostArray o row fds ↔ ∃ v ∈ lookedAt fds, (pollEntry row v).fdkind = fdkindKernel ∧
      k = kernelPollfd (vfdToEvents (cleared fds)) (v, pollEntry row v) := by
  simp only [hostArray, kindKernel, mem_flatMap, (o.kinds_perm _).mem_iff, mem_pollKinds]
  constructor
  · rintro ⟨kind, -, hk⟩
    split at hk
    · next hkind =>
      obtain ⟨x, hx, rfl⟩ := mem_map.mp hk
      obtain ⟨hv, heq, hker⟩ := mem_converted.mp hx
      exact ⟨x.1, hv, heq ▸ hkind ▸ hker, by rw [← heq]⟩
    · cases hk
  · rintro ⟨v, hv, hker, rfl⟩
    refine ⟨fdkindKernel, ⟨v, hv, hker⟩, ?_⟩
    rw [if_pos rfl]
    exact mem_map_of_mem (mem_converted.mpr ⟨hv, rfl, hker⟩)

theorem reportWrite_eq_some {fd : ℤ} {r : BitVec 16} :
    reportWrite index fd r = some (i, b) ↔ index fd = some i ∧ r = b := by
  simp [reportWrite]

theorem mem_invalidWrites :
    (i, b) ∈ invalidWrites o row fds ↔ ∃ v ∈ lookedAt fds,
      (pollEntry row v).fdkind = fdtInvalidFd ∧ vfdToIndex (cleared fds) (asI32 v) = some i ∧
        pollnval = b := by
  simp only [invalidWrites, kindWrites, mem_flatMap, (o.kinds_perm _).mem_iff, mem_pollKinds]
  constructor
  · rintro ⟨kind, -, hw⟩
    split at hw
    · next hkind =>
      obtain ⟨x, hx, hwrite⟩ := mem_filterMap.mp hw
      obtain ⟨hv, heq, hinv⟩ := mem_converted.mp hx
      exact ⟨x.1, hv, heq ▸ hkind ▸ hinv, reportWrite_eq_some.mp hwrite⟩
    · cases hw
  · rintro ⟨v, hv, hinv, hwrite⟩
    refine ⟨fdtInvalidFd, ⟨v, hv, hinv⟩, ?_⟩
    rw [if_pos rfl]
    exact mem_filterMap.mpr
      ⟨(v, pollEntry row v), mem_converted.mpr ⟨hv, rfl, hinv⟩, reportWrite_eq_some.mpr hwrite⟩

theorem backWrite_eq_some {mappingtable : ℕ × ℕ → Option ℕ} :
    backWrite index mappingtable k = some (i, b) ↔ k.revents ≠ 0 ∧ k.revents = b ∧
      ∃ v, mappingtable (fdkindKernel, asU64 k.fd) = some v ∧ index (asI32 v) = some i := by
  rw [backWrite]
  split
  · next h0 => exact iff_of_false (some_ne_none _).symm fun h => h.1 h0
  · next h0 =>
    simp only [bind_eq_some_iff, reportWrite_eq_some]
    constructor
    · rintro ⟨v, hv, hi, hb⟩
      exact ⟨h0, hb, v, hv, hi⟩
    · rintro ⟨-, hb, v, hv, hi⟩
      exact ⟨v, hv, hi, hb⟩

theorem mem_answered {kernel : List Pollfd} :
    k ∈ answered kernel revents
      ↔ ∃ (j : ℕ) (k₀ : Pollfd), kernel[j]? = some k₀ ∧ k = k₀.mark (revents j) := by
  simp only [answered, List.mem_map, Prod.exists, List.mem_zipIdx_iff_getElem?]
  constructor
  · rintro ⟨k₀, j, h, heq⟩
    exact ⟨j, k₀, h, heq.symm⟩
  · rintro ⟨j, k₀, h, heq⟩
    exact ⟨k₀, j, h, heq.symm⟩

theorem map_fd_answered (kernel : List Pollfd) (revents : ℕ → BitVec 16) :
    (answered kernel revents).map Pollfd.fd = kernel.map Pollfd.fd := by
  rw [answered, List.map_map]
  calc kernel.zipIdx.map (Pollfd.fd ∘ fun x => x.1.mark (revents x.2))
      = (kernel.zipIdx.map Prod.fst).map Pollfd.fd := by rw [List.map_map]; rfl
    _ = kernel.map Pollfd.fd := by rw [List.zipIdx_map_fst]

theorem eq_of_vfdToIndex {l : List Pollfd} {w : ℕ} (hv : v < 2 ^ 31) (hw : w < 2 ^ 31)
    (hi : vfdToIndex l (asI32 v) = some i) (hi' : vfdToIndex l (asI32 w) = some i) : v = w := by
  rw [asI32_of_lt hv] at hi
  rw [asI32_of_lt hw] at hi'
  obtain ⟨e, he, hfd⟩ := fd_of_vfdToIndex hi
  obtain ⟨e', he', hfd'⟩ := fd_of_vfdToIndex hi'
  obtain rfl := mem_unique he he'
  omega

/-- A write for what the host answers comes from a descriptor over the host's number. -/
theorem exists_of_mem_hostWrites (h : (i, b) ∈ hostWrites o row fds revents) :
    ∃ v ∈ lookedAt fds, (pollEntry row v).fdkind = fdkindKernel ∧
      vfdToIndex (cleared fds) (asI32 v) = some i := by
  obtain ⟨k, -, hwrite⟩ := mem_filterMap.mp h
  obtain ⟨-, -, v, hback, hi⟩ := backWrite_eq_some.mp hwrite
  obtain ⟨hv, hpair⟩ := pair_of_mappingtable hback
  exact ⟨v, (o.fds_perm _).mem_iff.mp hv, congrArg Prod.fst hpair, hi⟩

/-- A descriptor that is not open is written once, … -/
theorem nodup_invalidWrites (hlt : ∀ v ∈ lookedAt fds, v < 2 ^ 31) :
    ((invalidWrites o row fds).map Prod.fst).Nodup := by
  have hkind (kind : ℕ) :
      (kindWrites o (vfdToIndex (cleared fds)) (converted o row fds) kind).map Prod.fst
        = if kind = fdtInvalidFd then
            ((o.entries ((converted o row fds).rethashmap fdtInvalidFd)).filterMap
              (invalidWrite (vfdToIndex (cleared fds)))).map Prod.fst
          else [] := by
    rw [kindWrites]
    split
    · next hk => rw [hk]
    · rfl
  rw [invalidWrites, map_flatMap, funext hkind]
  refine nodup_flatMap_ite (nodup_kinds o row fds)
    (nodup_fst_filterMap (nodup_converted o row fds _) ?_)
  intro x hx y hy i b b' hxi hyi
  exact eq_of_vfdToIndex (hlt _ (mem_converted.mp hx).1) (hlt _ (mem_converted.mp hy).1)
    (reportWrite_eq_some.mp hxi).1 (reportWrite_eq_some.mp hyi).1

/-- … and none of them is written for what the host answers. -/
theorem disjoint_writes (hlt : ∀ v ∈ lookedAt fds, v < 2 ^ 31) {b' : BitVec 16}
    (h : (i, b) ∈ invalidWrites o row fds) (h' : (i, b') ∈ hostWrites o row fds revents) :
    False := by
  obtain ⟨v, hv, hinv, hi, -⟩ := mem_invalidWrites.mp h
  obtain ⟨w, hw, hker, hi'⟩ := exists_of_mem_hostWrites h'
  obtain rfl := eq_of_vfdToIndex (hlt v hv) (hlt w hw) hi hi'
  exact absurd (hinv.symm.trans hker) (by decide)

/-- **What may be written for a descriptor**: `POLLNVAL` if it is polled as invalid, and what the
host reports at its number if it is the one the map leads back to. -/
def MayWrite (o : HashOrder) (row : FdRow) (fds : List Pollfd) (revents : ℕ → BitVec 16) (v : ℕ)
    (b : BitVec 16) : Prop :=
  ((pollEntry row v).fdkind = fdtInvalidFd ∧ b = pollnval) ∨
    ((pollEntry row v).fdkind = fdkindKernel ∧ b ≠ 0 ∧
      (converted o row fds).mappingtable (pollEntry row v).pair = some v ∧
      ∃ k ∈ answered (hostArray o row fds) revents,
        k.revents = b ∧ asU64 k.fd = (pollEntry row v).underfd)

section

variable (hlt : ∀ v, Asks fds v → v < fdPerProcessMax)
  (h : (i, b) ∈ pollWrites o row fds revents)
include hlt h

/-- A write goes to the index kept for its descriptor. -/
theorem exists_of_mem_pollWrites :
    ∃ (e : Pollfd) (v : ℕ), fds[i]? = some e ∧ vfdToIndex (cleared fds) e.fd = some i ∧ e.fd = v ∧
      MayWrite o row fds revents v b := by
  have hindex {v : ℕ} (hv : v ∈ lookedAt fds)
      (hi : vfdToIndex (cleared fds) (asI32 v) = some i) :
      ∃ e, fds[i]? = some e ∧ vfdToIndex (cleared fds) e.fd = some i ∧ e.fd = v := by
    rw [asI32_of_lt ((hlt v (mem_lookedAt.mp hv)).trans (by decide))] at hi
    obtain ⟨e', he', hfd⟩ := fd_of_vfdToIndex hi
    rw [getElem?_cleared, map_eq_some_iff] at he'
    obtain ⟨e, he, rfl⟩ := he'
    exact ⟨e, he, hfd ▸ hi, hfd⟩
  rcases mem_append.mp h with h | h
  · obtain ⟨v, hv, hinv, hi, hb⟩ := mem_invalidWrites.mp h
    obtain ⟨e, he, hie, hfd⟩ := hindex hv hi
    exact ⟨e, v, he, hie, hfd, .inl ⟨hinv, hb.symm⟩⟩
  · obtain ⟨k, hk, hwrite⟩ := mem_filterMap.mp h
    obtain ⟨h0, hb, v, hback, hi⟩ := backWrite_eq_some.mp hwrite
    obtain ⟨hv, hpair⟩ := pair_of_mappingtable hback
    obtain ⟨e, he, hie, hfd⟩ := hindex ((o.fds_perm _).mem_iff.mp hv) hi
    exact ⟨e, v, he, hie, hfd, .inr ⟨congrArg Prod.fst hpair, hb ▸ h0, hpair ▸ hback, k, hk, hb,
      (congrArg Prod.snd hpair).symm⟩⟩

/-- … so what is written to an entry is what may be written for its descriptor. -/
theorem mayWrite_of_mem_pollWrites (he : fds[i]? = some e) :
    ∃ v : ℕ, e.fd = v ∧ vfdToIndex (cleared fds) e.fd = some i ∧
      MayWrite o row fds revents v b := by
  obtain ⟨e', v, he', hi, hv, hmay⟩ := exists_of_mem_pollWrites hlt h
  obtain rfl := mem_unique he he'
  exact ⟨v, hv, hi, hmay⟩

end

/-- An entry comes back with one of the writes to it, or with nothing. -/
theorem getElem?_reported (o : HashOrder) (row : FdRow) (revents : ℕ → BitVec 16)
    (he : fds[i]? = some e) :
    ((∀ w ∈ pollWrites o row fds revents, w.1 ≠ i) ∧
      (reported o row fds revents)[i]? = some (e.mark 0)) ∨
    ∃ b, (i, b) ∈ pollWrites o row fds revents ∧
      (reported o row fds revents)[i]? = some (e.mark b) := by
  have hcell : (cleared fds)[i]? = some (e.mark 0) := by rw [getElem?_cleared, he]; rfl
  exact getElem?_writeAll (fun _ _ _ => rfl) hcell

theorem length_reported : (reported o row fds revents).length = fds.length :=
  (length_writeAll ..).trans (length_map _)

theorem right_pollReply_iff :
    (pollReply o row fds revents).Right row fds ↔
      (∀ (i : ℕ) (e : Pollfd), fds[i]? = some e → ∃ b,
        (reported o row fds revents)[i]? = some (e.mark b) ∧
          ReventsRight row (answered (hostArray o row fds) revents) e b) ∧
      (pollWrites o row fds revents).length
        = (reported o row fds revents).countP (·.revents ≠ 0) := by
  refine and_congr_left fun _ => ?_
  rw [List.forall₂_iff_get]
  constructor
  · rintro ⟨hlen, h⟩ i e he
    obtain ⟨hi, rfl⟩ := List.getElem?_eq_some_iff.mp he
    have hentry := h i hi (hlen ▸ hi)
    exact ⟨_, (List.getElem?_eq_getElem (hlen ▸ hi)).trans (congrArg some hentry.1), hentry.2⟩
  · intro h
    refine ⟨length_reported.symm, fun i h₁ h₂ => ?_⟩
    obtain ⟨b, hcell, hright⟩ := h i _ (List.getElem?_eq_getElem h₁)
    have heq := (List.getElem?_eq_some_iff.mp hcell).2
    rw [EntryRight, List.get_eq_getElem, List.get_eq_getElem, heq]
    exact ⟨rfl, hright⟩

end Writes

/-! ## When every entry is answered -/

/-- An open descriptor of a kind `poll` refuses. -/
def AsksRefused (row : FdRow) (fds : List Pollfd) : Prop :=
  ∃ v, Asks fds v ∧ ∃ x, slotAt row v = some x ∧ ¬ PollKind x.fdkind

/-- **One entry to a descriptor and one descriptor to a kernel number**, and the kernel's numbers
are those of an `i32`. -/
structure Unambiguous (row : FdRow) (fds : List Pollfd) : Prop where
  once : ∀ (i j : ℕ) (e e' : Pollfd), fds[i]? = some e → fds[j]? = some e' → 0 ≤ e.fd →
    e.fd = e'.fd → i = j
  kernel : ∀ v, Asks fds v → ∀ x, slotAt row v = some x →
    x.fdkind = fdkindKernel ∧ x.underfd < 2 ^ 31
  apart : ∀ v w, Asks fds v → Asks fds w → ∀ x y, slotAt row v = some x → slotAt row w = some y →
    x.underfd = y.underfd → v = w

/-- **Arrays that are answered.** -/
def Answerable (row : FdRow) (fds : List Pollfd) : Prop :=
  (∀ v, Asks fds v → v < fdPerProcessMax) ∧ (AsksRefused row fds ∨ Unambiguous row fds)

section Pollable

variable {o : HashOrder} {row : FdRow} {fds : List Pollfd} {revents : ℕ → BitVec 16} {v i : ℕ}
  {e : Pollfd} {x : FDTableEntry} {b : BitVec 16} {k : Pollfd}

theorem pollEntry_of_some (h : slotAt row v = some x) : pollEntry row v = x := by
  rw [pollEntry, h]
  rfl

theorem pollEntry_of_none (h : slotAt row v = none) : pollEntry row v = invalidEntry v := by
  rw [pollEntry, h]
  rfl

theorem exists_slotAt_of_kernel (h : (pollEntry row v).fdkind = fdkindKernel) :
    ∃ x, slotAt row v = some x := by
  cases hx : slotAt row v with
  | some x => exact ⟨x, rfl⟩
  | none =>
    rw [pollEntry_of_none hx] at h
    exact absurd h (show fdtInvalidFd ≠ fdkindKernel by decide)

theorem asks_of_getElem? (he : fds[i]? = some e) (hv : e.fd = v) : Asks fds v :=
  ⟨e, mem_of_getElem? he, hv⟩

theorem exists_not_pollKind_iff :
    (∃ k ∈ pollKinds row (lookedAt fds), ¬ PollKind k) ↔ AsksRefused row fds := by
  constructor
  · rintro ⟨k, hk, hodd⟩
    obtain ⟨v, hv, rfl⟩ := mem_pollKinds.mp hk
    refine ⟨v, mem_lookedAt.mp hv, ?_⟩
    cases hx : slotAt row v with
    | some x => exact ⟨x, rfl, pollEntry_of_some hx ▸ hodd⟩
    | none => exact absurd (.inr (by rw [pollEntry_of_none hx]; rfl)) hodd
  · rintro ⟨v, hv, x, hx, hodd⟩
    refine ⟨_, mem_pollKinds.mpr ⟨v, mem_lookedAt.mpr hv, rfl⟩, ?_⟩
    rwa [pollEntry_of_some hx]

namespace Unambiguous

variable (h : Unambiguous row fds)

include h

theorem vfdToIndex_eq (he : fds[i]? = some e) (hpos : 0 ≤ e.fd) :
    vfdToIndex (cleared fds) e.fd = some i := by
  have hmem : e.mark 0 ∈ cleared fds := mem_map_of_mem (mem_of_getElem? he)
  obtain ⟨j, hj⟩ := exists_vfdToIndex hmem
  obtain ⟨e', he', hfd⟩ := fd_of_vfdToIndex hj
  rw [getElem?_cleared, map_eq_some_iff] at he'
  obtain ⟨e'', he'', rfl⟩ := he'
  obtain rfl := h.once i j e e'' he he'' hpos hfd.symm
  exact hj

variable (hlt : ∀ v, Asks fds v → v < fdPerProcessMax)

section

variable (he : fds[i]? = some e) (hv : e.fd = v) (hx : slotAt row v = some x)

include he hv hx

theorem kernelPollfd_eq (hlt : v < fdPerProcessMax) :
    kernelPollfd (vfdToEvents (cleared fds)) (v, x) = ⟨x.underfd, e.events, 0⟩ := by
  have hunder := (h.kernel v (asks_of_getElem? he hv) x hx).2
  have hmem : e.mark 0 ∈ cleared fds := mem_map_of_mem (mem_of_getElem? he)
  obtain ⟨ev, hev⟩ := exists_vfdToEvents hmem
  obtain ⟨e', he', hfd, hevents⟩ := events_of_vfdToEvents hev
  obtain ⟨j, hj⟩ := getElem?_of_mem he'
  rw [getElem?_cleared, map_eq_some_iff] at hj
  obtain ⟨e'', he'', rfl⟩ := hj
  obtain rfl := h.once i j e e'' he he'' (by omega) hfd.symm
  obtain rfl := mem_unique he he''
  have hkept : vfdToEvents (cleared fds) v = some e.events := by
    rw [← hv]
    exact hev.trans (congrArg some hevents.symm)
  rw [kernelPollfd, asI32_of_lt hunder, asI32_of_lt (hlt.trans (by decide)), hkept]
  rfl

/-- The map leads back from an open descriptor's number to the descriptor. -/
theorem mappingtable_eq :
    (converted o row fds).mappingtable (fdkindKernel, x.underfd) = some v := by
  have hasks := asks_of_getElem? he hv
  have hpair : (pollEntry row v).pair = (fdkindKernel, x.underfd) := by
    rw [pollEntry_of_some hx, FDTableEntry.pair, (h.kernel v hasks x hx).1]
  obtain ⟨w, hw⟩ := exists_mappingtable row
    ((o.fds_perm _).mem_iff.mpr (mem_lookedAt.mpr hasks))
  rw [hpair] at hw
  obtain ⟨hwmem, hwpair⟩ := pair_of_mappingtable hw
  obtain ⟨y, hy⟩ := exists_slotAt_of_kernel (congrArg Prod.fst hwpair)
  rw [pollEntry_of_some hy] at hwpair
  have hwasks := mem_lookedAt.mp ((o.fds_perm _).mem_iff.mp hwmem)
  obtain rfl := h.apart v w hasks hwasks x y hx hy (congrArg Prod.snd hwpair).symm
  exact hw

/-- Two open descriptors with one kernel number are one entry. -/
theorem index_eq {j w : ℕ} {e' : Pollfd} {y : FDTableEntry} (he' : fds[j]? = some e')
    (hw : e'.fd = w) (hy : slotAt row w = some y) (hunder : x.underfd = y.underfd) : i = j := by
  have hvw := h.apart v w (asks_of_getElem? he hv) (asks_of_getElem? he' hw) x y hx hy hunder
  exact h.once i j e e' he he' (by omega) (by omega)

omit he hv hx in
theorem nodup_hostArray (o : HashOrder) : ((hostArray o row fds).map Pollfd.fd).Nodup := by
  have hkind (kind : ℕ) :
      (kindKernel o (vfdToEvents (cleared fds)) (converted o row fds) kind).map Pollfd.fd
        = if kind = fdkindKernel then
            (o.entries ((converted o row fds).rethashmap fdkindKernel)).map fun x =>
              asI32 x.2.underfd
          else [] := by
    rw [kindKernel]
    split
    · next hk => rw [hk, List.map_map]; rfl
    · rfl
  rw [hostArray, List.map_flatMap, funext hkind]
  refine nodup_flatMap_ite (nodup_kinds o row fds) (List.pairwise_map.mpr ?_)
  refine (List.pairwise_map.mp (nodup_converted o row fds _)).imp_of_mem ?_
  intro x y hx hy hne heq
  obtain ⟨hxv, hxe, hxk⟩ := mem_converted.mp hx
  obtain ⟨hyv, hye, hyk⟩ := mem_converted.mp hy
  obtain ⟨x', hx'⟩ := exists_slotAt_of_kernel (hxe ▸ hxk)
  obtain ⟨y', hy'⟩ := exists_slotAt_of_kernel (hye ▸ hyk)
  rw [hxe, hye, pollEntry_of_some hx', pollEntry_of_some hy',
    asI32_of_lt (h.kernel _ (mem_lookedAt.mp hxv) _ hx').2,
    asI32_of_lt (h.kernel _ (mem_lookedAt.mp hyv) _ hy').2] at heq
  exact hne (h.apart _ _ (mem_lookedAt.mp hxv) (mem_lookedAt.mp hyv) _ _ hx' hy' (by omega))

include hlt

omit he hv hx in
/-- What the host is asked, for the open descriptors of the array. -/
theorem exists_of_mem_answered (hk : k ∈ answered (hostArray o row fds) revents) :
    ∃ (i : ℕ) (e : Pollfd) (v : ℕ) (x : FDTableEntry), fds[i]? = some e ∧ e.fd = v ∧
      slotAt row v = some x ∧ k = ⟨x.underfd, e.events, k.revents⟩ := by
  obtain ⟨j, k₀, hk₀, rfl⟩ := mem_answered.mp hk
  obtain ⟨v, hv, hkind, rfl⟩ := mem_hostArray.mp (mem_of_getElem? hk₀)
  obtain ⟨x, hx⟩ := exists_slotAt_of_kernel hkind
  have hasks := mem_lookedAt.mp hv
  obtain ⟨e, he, hfd⟩ := hasks
  obtain ⟨i, hi⟩ := getElem?_of_mem he
  refine ⟨i, e, v, x, hi, hfd, hx, ?_⟩
  rw [pollEntry_of_some hx, h.kernelPollfd_eq hi hfd hx (hlt v ⟨e, he, hfd⟩)]
  rfl

/-- **What the host reports for an open descriptor is written to its entry.** -/
theorem mem_pollWrites_of_answered (hk : k ∈ answered (hostArray o row fds) revents)
    (hfd : k.fd = x.underfd) (h0 : k.revents ≠ 0) :
    (i, k.revents) ∈ pollWrites o row fds revents := by
  have hasks := asks_of_getElem? he hv
  refine mem_append_right _ (mem_filterMap.mpr ⟨k, hk, backWrite_eq_some.mpr
    ⟨h0, rfl, v, ?_, ?_⟩⟩)
  · rw [hfd, asU64_natCast (h.kernel v hasks x hx).2]
    exact h.mappingtable_eq he hv hx
  · rw [asI32_of_lt ((hlt v hasks).trans (by decide)), ← hv]
    exact h.vfdToIndex_eq he (by omega)

theorem exists_mem_answered (o : HashOrder) (revents : ℕ → BitVec 16) :
    ∃ k ∈ answered (hostArray o row fds) revents, k = ⟨x.underfd, e.events, k.revents⟩ := by
  have hasks := asks_of_getElem? he hv
  have hkind : (pollEntry row v).fdkind = fdkindKernel := by
    rw [pollEntry_of_some hx, (h.kernel v hasks x hx).1]
  obtain ⟨j, hj⟩ := getElem?_of_mem
    (mem_hostArray.mpr ⟨v, mem_lookedAt.mpr hasks, hkind, rfl⟩ : _ ∈ hostArray o row fds)
  rw [pollEntry_of_some hx, h.kernelPollfd_eq he hv hx (hlt v hasks)] at hj
  exact ⟨_, mem_answered.mpr ⟨j, _, hj, rfl⟩, rfl⟩

omit hx in
theorem reported_of_none (hx : slotAt row v = none) :
    (reported o row fds revents)[i]? = some (e.mark pollnval) := by
  have hasks := asks_of_getElem? he hv
  have hkind : (pollEntry row v).fdkind = fdtInvalidFd := by rw [pollEntry_of_none hx]; rfl
  have hindex : vfdToIndex (cleared fds) (asI32 v) = some i := by
    rw [asI32_of_lt ((hlt v hasks).trans (by decide)), ← hv]
    exact h.vfdToIndex_eq he (by omega)
  have hwrite : (i, pollnval) ∈ pollWrites o row fds revents := mem_append_left _
    (mem_invalidWrites.mpr ⟨v, mem_lookedAt.mpr hasks, hkind, hindex, rfl⟩)
  rcases getElem?_reported o row revents he with ⟨hno, -⟩ | ⟨b, hb, hcell⟩
  · exact absurd rfl (hno _ hwrite)
  · obtain ⟨w, hw, -, hmay⟩ := mayWrite_of_mem_pollWrites hlt hb he
    obtain rfl : v = w := by omega
    rcases hmay with ⟨-, rfl⟩ | ⟨hker, -⟩
    · exact hcell
    · exact absurd (hkind.symm.trans hker) (by decide)

theorem reported_of_some :
    ∃ b, (reported o row fds revents)[i]? = some (e.mark b) ∧
      ⟨x.underfd, e.events, b⟩ ∈ answered (hostArray o row fds) revents := by
  have hasks := asks_of_getElem? he hv
  rcases getElem?_reported o row revents he with ⟨hno, hcell⟩ | ⟨b, hb, hcell⟩
  · -- nothing is written, so the host reported nothing
    obtain ⟨k, hk, heq⟩ := h.exists_mem_answered hlt he hv hx o revents
    have h0 : k.revents = 0 := by
      by_contra h0
      exact hno _ (h.mem_pollWrites_of_answered hlt he hv hx hk (by rw [heq]) h0) rfl
    exact ⟨0, hcell, h0 ▸ heq ▸ hk⟩
  · refine ⟨b, hcell, ?_⟩
    obtain ⟨w, hw, -, hmay⟩ := mayWrite_of_mem_pollWrites hlt hb he
    obtain rfl : v = w := by omega
    rcases hmay with ⟨hinv, -⟩ | ⟨-, -, -, k, hk, rfl, hfd⟩
    · rw [pollEntry_of_some hx, (h.kernel v hasks x hx).1] at hinv
      exact absurd hinv (by decide)
    · obtain ⟨j, e', w, y, he', hw', hy, heq⟩ := h.exists_of_mem_answered hlt hk
      have hunder : x.underfd = y.underfd := by
        rw [← pollEntry_of_some hx, ← hfd, heq]
        exact asU64_natCast (h.kernel w (asks_of_getElem? he' hw') y hy).2
      obtain rfl := h.index_eq he hv hx he' hw' hy hunder
      obtain rfl := mem_unique he he'
      rw [hunder]
      exact heq ▸ hk

end

include hlt

/-- **Each entry is answered.** -/
theorem exists_reventsRight (he : fds[i]? = some e) :
    ∃ b, (reported o row fds revents)[i]? = some (e.mark b) ∧
      ReventsRight row (answered (hostArray o row fds) revents) e b := by
  by_cases hneg : e.fd < 0
  · rcases getElem?_reported o row revents he with ⟨-, hcell⟩ | ⟨b, hb, -⟩
    · exact ⟨0, hcell, by rw [ReventsRight, if_pos hneg]⟩
    · obtain ⟨v, hv, -⟩ := mayWrite_of_mem_pollWrites hlt hb he
      omega
  · have hv : e.fd = e.fd.toNat := (Int.toNat_of_nonneg (by omega)).symm
    cases hx : slotAt row e.fd.toNat with
    | none =>
      exact ⟨pollnval, h.reported_of_none hlt he hv hx, by rw [ReventsRight, if_neg hneg, hx]⟩
    | some x =>
      obtain ⟨b, hcell, hmem⟩ := h.reported_of_some hlt he hv hx
      exact ⟨b, hcell, by rw [ReventsRight, if_neg hneg, hx]; exact hmem⟩

/-- The host's numbers are told apart as they come back. -/
theorem fd_of_asU64 {k' : Pollfd} (hk : k ∈ answered (hostArray o row fds) revents)
    (hk' : k' ∈ answered (hostArray o row fds) revents) (heq : asU64 k.fd = asU64 k'.fd) :
    k.fd = k'.fd := by
  obtain ⟨i, e, v, x, he, hv, hx, hkx⟩ := h.exists_of_mem_answered hlt hk
  obtain ⟨j, e', w, y, he', hw, hy, hky⟩ := h.exists_of_mem_answered hlt hk'
  rw [hkx, hky] at heq ⊢
  rw [asU64_natCast (h.kernel v (asks_of_getElem? he hv) x hx).2,
    asU64_natCast (h.kernel w (asks_of_getElem? he' hw) y hy).2] at heq
  exact congrArg Nat.cast heq

theorem nodup_hostWrites : ((hostWrites o row fds revents).map Prod.fst).Nodup := by
  have hlt' : ∀ v ∈ o.fds (lookedAt fds), v < 2 ^ 31 := fun v hv =>
    (hlt v (mem_lookedAt.mp ((o.fds_perm _).mem_iff.mp hv))).trans (by decide)
  refine nodup_fst_filterMap (map_fd_answered .. ▸ h.nodup_hostArray o) ?_
  intro k hk k' hk' i b b' hki hki'
  obtain ⟨-, -, v, hback, hi⟩ := backWrite_eq_some.mp hki
  obtain ⟨-, -, w, hback', hi'⟩ := backWrite_eq_some.mp hki'
  obtain ⟨hv, hpair⟩ := pair_of_mappingtable hback
  obtain ⟨hw, hpair'⟩ := pair_of_mappingtable hback'
  obtain rfl := eq_of_vfdToIndex (hlt' v hv) (hlt' w hw) hi hi'
  exact h.fd_of_asU64 hlt hk hk' (congrArg Prod.snd (hpair.symm.trans hpair'))

/-- **No entry is written twice.** -/
theorem nodup_pollWrites : ((pollWrites o row fds revents).map Prod.fst).Nodup := by
  have hlt' : ∀ v ∈ lookedAt fds, v < 2 ^ 31 :=
    fun v hv => (hlt v (mem_lookedAt.mp hv)).trans (by decide)
  rw [pollWrites, map_append]
  refine nodup_append.mpr ⟨nodup_invalidWrites hlt', h.nodup_hostWrites hlt, ?_⟩
  intro i hi i' hi' heq
  obtain ⟨w, hw, rfl⟩ := mem_map.mp hi
  obtain ⟨w', hw', rfl⟩ := mem_map.mp hi'
  exact disjoint_writes hlt' hw (by rw [heq]; exact hw')

/-- **The count is that of the entries that report something.** -/
theorem countP_reported :
    (reported o row fds revents).countP (·.revents ≠ 0) =
      (pollWrites o row fds revents).length := by
  have hnone : (cleared fds).countP (·.revents ≠ 0) = 0 :=
    countP_eq_zero.mpr fun e he => by
      obtain ⟨e', -, rfl⟩ := mem_map.mp he
      simp [Pollfd.mark]
  rw [reported, countP_writeAll (h.nodup_pollWrites hlt), hnone, Nat.zero_add]
  rintro ⟨i, b⟩ hw
  obtain ⟨e, v, he, -, -, hmay⟩ := exists_of_mem_pollWrites hlt hw
  refine ⟨e.mark 0, by rw [getElem?_cleared, he]; rfl, by simp [Pollfd.mark], ?_⟩
  have hb : b ≠ 0 := by
    rcases hmay with ⟨-, rfl⟩ | ⟨-, hb, -⟩
    · decide
    · exact hb
  exact decide_eq_true hb

end Unambiguous

/-! Conversely let the host report an error on everything it is asked about: every entry with a
descriptor is then written, so the maps must keep all of them. -/

section Errors

/-- The host reports an error everywhere. -/
def allErrors : ℕ → BitVec 16 := fun _ => pollerr

theorem of_mem_answered_allErrors (hk : k ∈ answered (hostArray o row fds) allErrors) :
    k.revents = pollerr ∧ k.fd < 2 ^ 31 := by
  obtain ⟨j, k₀, hk₀, rfl⟩ := mem_answered.mp hk
  obtain ⟨w, -, -, rfl⟩ := mem_hostArray.mp (mem_of_getElem? hk₀)
  exact ⟨rfl, asI32_lt _⟩

variable (hlt : ∀ v, Asks fds v → v < fdPerProcessMax)
  (h : (pollReply o row fds allErrors).Right row fds)

include hlt h

/-- What an entry with a descriptor comes back with was written to it. -/
theorem exists_mayWrite (he : fds[i]? = some e) (hv : e.fd = v) :
    ∃ b, ReventsRight row (answered (hostArray o row fds) allErrors) e b ∧
      vfdToIndex (cleared fds) e.fd = some i ∧ MayWrite o row fds allErrors v b := by
  obtain ⟨b, hcell, hright⟩ := (right_pollReply_iff.mp h).1 i e he
  have hb : b ≠ 0 := by
    rw [ReventsRight, if_neg (by omega)] at hright
    cases hx : slotAt row e.fd.toNat with
    | none =>
      rw [hx] at hright
      rw [hright]
      decide
    | some x =>
      rw [hx] at hright
      rw [show b = pollerr from (of_mem_answered_allErrors hright).1]
      decide
  refine ⟨b, hright, ?_⟩
  rcases getElem?_reported o row allErrors he with ⟨-, hcell'⟩ | ⟨b', hb', hcell'⟩
  · have heq := mem_unique hcell hcell'
    exact absurd (congrArg Pollfd.revents heq) hb
  · have heq := mem_unique hcell hcell'
    obtain rfl : b = b' := congrArg Pollfd.revents heq
    obtain ⟨w, hw, hi, hmay⟩ := mayWrite_of_mem_pollWrites hlt hb' he
    obtain rfl : v = w := by omega
    exact ⟨hi, hmay⟩

theorem kernel_of_right (hasks : Asks fds v) (hx : slotAt row v = some x) :
    x.fdkind = fdkindKernel ∧ x.underfd < 2 ^ 31 ∧
      (converted o row fds).mappingtable (fdkindKernel, x.underfd) = some v := by
  obtain ⟨e, he, hv⟩ := hasks
  obtain ⟨i, hi⟩ := getElem?_of_mem he
  obtain ⟨b, hright, -, hmay⟩ := exists_mayWrite hlt h hi hv
  rw [ReventsRight, if_neg (by omega), hv, Int.toNat_natCast, hx] at hright
  obtain ⟨hb, hfd⟩ := of_mem_answered_allErrors hright
  obtain rfl : b = pollerr := hb
  rcases hmay with ⟨-, hinv⟩ | ⟨hker, -, hback, -⟩
  · exact absurd hinv (by decide)
  · rw [pollEntry_of_some hx] at hker hback
    rw [FDTableEntry.pair, hker] at hback
    refine ⟨hker, ?_, hback⟩
    dsimp only at hfd
    omega

theorem unambiguous_of_right : Unambiguous row fds where
  once i j e e' he he' hpos hfd := by
    have hv : e.fd = e.fd.toNat := (Int.toNat_of_nonneg hpos).symm
    obtain ⟨-, -, hi, -⟩ := exists_mayWrite hlt h he hv
    obtain ⟨-, -, hj, -⟩ := exists_mayWrite hlt h he' (hfd ▸ hv)
    rw [hfd, hj] at hi
    exact (some.inj hi).symm
  kernel v hasks x hx :=
    have hkernel := kernel_of_right hlt h hasks hx
    ⟨hkernel.1, hkernel.2.1⟩
  apart v w hv hw x y hx hy hunder := by
    have hback := (kernel_of_right hlt h hv hx).2.2
    rw [hunder, (kernel_of_right hlt h hw hy).2.2] at hback
    exact (some.inj hback).symm

end Errors

end Pollable

/-- **An array is answered, whatever the host says, just when its descriptors are in the row and it
names each descriptor and each kernel number once**, or names a kind that makes the call fail. -/
theorem pollsRight_iff (o : HashOrder) {s : State} {cageid : ℕ} {row : FdRow} {fds : List Pollfd}
    (hrow : s.fdtable.lookup cageid = some row) (hlen : fds.length ≤ fdPerProcessMax) :
    PollsRight o s cageid row fds ↔ Answerable row fds := by
  by_cases hlt : ∀ v, Asks fds v → v < fdPerProcessMax
  swap
  · refine iff_of_false (fun h => ?_) fun h => hlt h.1
    obtain ⟨r, hr, -⟩ := h []
    rw [pollArray_of_ge hrow hlen fun h' => hlt fun v hv => h' v (mem_lookedAt.mpr hv)] at hr
    cases hr
  have hlt' : ∀ v ∈ lookedAt fds, v < fdPerProcessMax := fun v hv => hlt v (mem_lookedAt.mp hv)
  by_cases hodd : AsksRefused row fds
  · refine iff_of_true (fun rounds => ?_) ⟨hlt, .inl hodd⟩
    exact ⟨_, pollArray_refused hrow hlen hlt' (exists_not_pollKind_iff.mpr hodd), trivial⟩
  have hkinds : ∀ k ∈ pollKinds row (lookedAt fds), PollKind k := by
    by_contra hex
    push Not at hex
    exact hodd (exists_not_pollKind_iff.mp hex)
  rw [pollsRight_iff_reply hrow hlen hlt' hkinds]
  constructor
  · exact fun h => ⟨hlt, .inr (unambiguous_of_right hlt (h allErrors))⟩
  · rintro ⟨-, hun⟩ revents
    have hun := hun.resolve_left hodd
    exact right_pollReply_iff.mpr
      ⟨fun i e he => hun.exists_reventsRight hlt he, (hun.countP_reported hlt).symm⟩

/-- A cage with descriptors 0 and 1 over one kernel number and 2 over another. -/
def dupedRun : List Op :=
  [.initEmptyCage 1, .getSpecificVirtualFd 1 0 fdkindKernel 7 false 0,
    .getSpecificVirtualFd 1 1 fdkindKernel 7 false 0,
    .getSpecificVirtualFd 1 2 fdkindKernel 8 false 0]

/-- An open descriptor, a negative one and one that is not open. -/
def plainArray : List Pollfd := [⟨2, pollin, 0⟩, ⟨-1, pollin, 0⟩, ⟨5, pollin, 0⟩]

theorem pollsRight_plainArray :
    ∃ s row, runSteps step State.init dupedRun = some s ∧ s.fdtable.lookup 1 = some row ∧
      PollsRight .inserted s 1 row plainArray := by
  have hasks {v : ℕ} (h : Asks plainArray v) : v = 2 ∨ v = 5 := by
    simp only [Asks, plainArray, List.mem_cons, List.not_mem_nil, or_false, exists_eq_or_imp,
      exists_eq_left] at h
    omega
  refine ⟨_, _, rfl, rfl, (pollsRight_iff .inserted rfl (by decide)).mpr ⟨?_, .inr ⟨?_, ?_, ?_⟩⟩⟩
  · intro v hv
    rcases hasks hv with rfl | rfl <;> decide
  · intro i j e e' he he' _ hfd
    have hi : i < (plainArray.map Pollfd.fd).length := (List.getElem?_eq_some_iff.mp he).1
    refine (List.getElem?_inj hi (by decide)).mp ?_
    rw [List.getElem?_map, List.getElem?_map, he, he', map_some, map_some, hfd]
  · intro v hv x hx
    rcases hasks hv with rfl | rfl
    · cases hx
      decide
    · cases hx
  · intro v w hv hw x y hx hy _
    rcases hasks hv with rfl | rfl
    · rcases hasks hw with rfl | rfl
      · rfl
      · cases hy
    · cases hx

/-- An array that asks for the two directions of one descriptor separately. -/
def twiceArray : List Pollfd := [⟨0, pollin, 0⟩, ⟨0, pollout, 0⟩]

/-- An array with two descriptors over one kernel number. -/
def dupArray : List Pollfd := [⟨0, pollin, 0⟩, ⟨1, pollin, 0⟩]

/-- **Half an array comes back silent**: the host is only asked for the second entry's events, and
of two descriptors over one number only one is told, and counted twice. -/
theorem not_pollsRight_duped :
    ∃ s row, runSteps step State.init dupedRun = some s ∧ s.fdtable.lookup 1 = some row ∧
      ¬ PollsRight .inserted s 1 row twiceArray ∧ ¬ PollsRight .inserted s 1 row dupArray := by
  refine ⟨_, _, rfl, rfl, fun h => ?_, fun h => ?_⟩
  · obtain ⟨r, hr, hright⟩ := h [.answer 1 (fun _ => pollout) false false]
    obtain rfl : .returned 1 [⟨0, pollin, 0⟩, ⟨0, pollout, pollout⟩] [⟨7, pollout, pollout⟩] = r :=
      Except.ok.inj hr
    have hfirst : (⟨7, pollin, 0⟩ : Pollfd) ∈ [⟨7, pollout, pollout⟩] :=
      (forall₂_cons.mp hright.1).1.2
    exact absurd hfirst (by decide)
  · obtain ⟨r, hr, hright⟩ := h [.answer 2 (fun _ => pollin) false false]
    obtain rfl : .returned 2 [⟨0, pollin, 0⟩, ⟨1, pollin, pollin⟩]
        [⟨7, pollin, pollin⟩, ⟨7, pollin, pollin⟩] = r := Except.ok.inj hr
    exact absurd hright.2 (by decide)

end LindWasm.FdTables
