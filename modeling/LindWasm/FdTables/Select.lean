import LindWasm.FdTables.Bounds

/-!
# FdTables/Select — `select` through one reverse map

    read  -┐                                     ┌- read
    write -┼-> kernel bits --select--> answer -->┼- write      back by  (kind, underfd) ↦ virtual fd
    except ┘                                     └- except

The way back is by kernel number, and several virtual descriptors may stand over one: each scan
keeps the highest it met (`Scanned`), and the three scans are merged into one map, a later set
winning. `select_reports` says what comes back when the sets agree on that choice.
-/

namespace LindWasm.FdTables

open Function Option Finset

/-! ## The tables of one set -/

/-- The bits that are set. -/
abbrev FdSet := Finset ℕ

def fdSetsize : ℕ := 1024

/-- The panics on the way of a `select`. -/
inductive SelectPanic where
  | table (p : Panic)
  | fdSetIndex
  | nfdsAssertion
  | missingKey
  deriving DecidableEq

/-- Why a preparation stops. -/
inductive Stop where
  | panic (p : SelectPanic)
  | errno (e : SysErrno)
  deriving DecidableEq

structure SelectTables where
  retbittable : ℕ → Option (ℕ × FdSet)
  retunparsedtable : ℕ → List FDTableEntry
  mappingtable : ℕ × ℕ → Option ℕ

def SelectTables.empty : SelectTables := ⟨fun _ => none, fun _ => [], fun _ => none⟩

/-- The bits to select on for a kind; none if the kind was not met. -/
def SelectTables.fds (tb : SelectTables) (fdkind : ℕ) : FdSet :=
  (tb.retbittable fdkind).elim ∅ Prod.snd

def SelectTables.nfds (tb : SelectTables) (fdkind : ℕ) : ℕ :=
  (tb.retbittable fdkind).elim 0 Prod.fst

/-- An entry of a kind that is not selected on. -/
def SelectTables.addUnparsed (tb : SelectTables) (entry : FDTableEntry) (pos : ℕ) : SelectTables :=
  { tb with
    retunparsedtable := update tb.retunparsedtable entry.fdkind
      ((tb.retunparsedtable entry.fdkind).insert entry)
    mappingtable := update tb.mappingtable entry.pair (some pos) }

/-- An entry of a kind that is selected on; `FD_SET` indexes the set by the kernel's number. -/
def SelectTables.addBit (tb : SelectTables) (entry : FDTableEntry) (pos : ℕ) :
    Except Stop SelectTables :=
  let starting := (tb.retbittable entry.fdkind).getD (1, ∅)
  if entry.underfd < fdSetsize then
    .ok { tb with
      retbittable := update tb.retbittable entry.fdkind
        (some (max starting.1 (entry.underfd + 1), insert entry.underfd starting.2))
      mappingtable := update tb.mappingtable entry.pair (some pos) }
  else .error (.panic .fdSetIndex)

/-- One bit of the set. -/
def scanBit (myfdrow : FdRow) (fdkinds infdset : Finset ℕ) (tb : SelectTables) (bit : ℕ) :
    Except Stop SelectTables :=
  if bit ∈ infdset then
    match slotAt myfdrow bit with
    | none => .error (.errno .EBADF)
    | some entry =>
        if entry.fdkind ∉ fdkinds then .ok (tb.addUnparsed entry bit) else tb.addBit entry bit
  else .ok tb

/-- The bits below `nfds`, in order. -/
def scanBits (myfdrow : FdRow) (fdkinds infdset : Finset ℕ) : ℕ → Except Stop SelectTables
  | 0 => .ok .empty
  | bit + 1 =>
      match scanBits myfdrow fdkinds infdset bit with
      | .error e => .error e
      | .ok tb => scanBit myfdrow fdkinds infdset tb bit

def getBitmaskForSelect (s : State) (cageid nfds : ℕ) (bits : Option FdSet) (fdkinds : Finset ℕ) :
    Except Stop SelectTables :=
  if nfds ≥ fdPerProcessMax then .error (.errno .EINVAL)
  else
    match getRow s cageid with
    | .error p => .error (.panic (.table p))
    | .ok myfdrow =>
        match bits with
        | none => .ok .empty
        | some infdset => scanBits myfdrow fdkinds infdset nfds

/-! ## The three sets -/

inductive SetName where
  | read
  | write
  | except
  deriving DecidableEq

/-- The tables of the three sets, with one map back. -/
structure Prepared where
  tables : SetName → SelectTables
  mappingtable : ℕ × ℕ → Option ℕ

def prepareBitmasksForSelect (s : State) (cageid nfds : ℕ) (bits : SetName → Option FdSet)
    (fdkinds : Finset ℕ) : Except Stop Prepared :=
  match getBitmaskForSelect s cageid nfds (bits .read) fdkinds with
  | .error e => .error e
  | .ok rresult =>
      match getBitmaskForSelect s cageid nfds (bits .write) fdkinds with
      | .error e => .error e
      | .ok wresult =>
          match getBitmaskForSelect s cageid nfds (bits .except) fdkinds with
          | .error e => .error e
          | .ok eresult =>
              .ok {
                tables := fun
                  | .read => rresult
                  | .write => wresult
                  | .except => eresult
                -- each `extend` overwrites
                mappingtable := fun p => (eresult.mappingtable p).or
                  ((wresult.mappingtable p).or (rresult.mappingtable p)) }

/-- The bits of an answer below `nfds`, in order: how many virtual bits it sets, and which. -/
def collectBits (fdkind : ℕ) (mappingtable : ℕ × ℕ → Option ℕ) (inset retbits : FdSet) :
    ℕ → Except SelectPanic (ℕ × FdSet)
  | 0 => .ok (0, retbits)
  | pos + 1 =>
      match collectBits fdkind mappingtable inset retbits pos with
      | .error p => .error p
      | .ok (flagsset, retbits) =>
          if pos ∈ inset then
            match mappingtable (fdkind, pos) with
            | none => .error .missingKey
            | some virtfd =>
                if virtfd ∈ retbits then .ok (flagsset, retbits)
                else .ok (flagsset + 1, insert virtfd retbits)
          else .ok (flagsset, retbits)

/-- Virtual bits that were found ready without the kernel. -/
def addUnprocessed : ℕ × FdSet → List ℕ → ℕ × FdSet
  | x, [] => x
  | (flagsset, retbits), virtfd :: rest =>
      if virtfd ∈ retbits then addUnprocessed (flagsset, retbits) rest
      else addUnprocessed (flagsset + 1, insert virtfd retbits) rest

def getOneVirtualBitmaskFromSelectResult (fdkind nfds : ℕ) (bits : Option FdSet)
    (unprocessedset : List ℕ) (startingbits : Option FdSet) (mappingtable : ℕ × ℕ → Option ℕ) :
    Except SelectPanic (ℕ × Option FdSet) :=
  if nfds < fdPerProcessMax then
    if bits = none ∧ unprocessedset = [] then .ok (0, none)
    else
      let retbits := startingbits.getD ∅
      match bits.elim (.ok (0, retbits)) fun inset =>
          collectBits fdkind mappingtable inset retbits nfds with
      | .error p => .error p
      | .ok x =>
          let (flagsset, retbits) := addUnprocessed x unprocessedset
          .ok (flagsset, some retbits)
  else .error .nfdsAssertion

/-! ## The call -/

/-- One call of the host's `select`: an error, or its return value and the descriptors it found
ready, with what the timer and the signal check then say. -/
inductive KernelRound where
  | error
  | answer (ret : ℕ) (ready : SetName → FdSet) (elapsed signalled : Bool)

/-- How the waiting ends. -/
inductive Wait where
  | ready (answer : SetName → FdSet)
  | hostFailed
  | interrupted
  | waiting

def kernelWait : List KernelRound → Wait
  | [] => .waiting
  | .error :: _ => .hostFailed
  | .answer ret ready elapsed signalled :: rest =>
      if ret > 0 ∨ elapsed then .ready ready
      else if signalled then .interrupted
      else kernelWait rest

/-- What the guest gets: the sets are those written to its memory. -/
inductive Selected where
  | returned (ret : ℕ) (out : SetName → Option FdSet)
  | failed (errno : SysErrno) (call message : String)
  | hostFailed (call : String)
  | waiting

/-- The host clears the bits it was not asked about. -/
def Prepared.realFds (p : Prepared) (answer : SetName → FdSet) (name : SetName) : FdSet :=
  (p.tables name).fds fdkindKernel ∩ answer name

def Prepared.realnewnfds (p : Prepared) : ℕ :=
  max (max ((p.tables .read).nfds fdkindKernel) ((p.tables .write).nfds fdkindKernel))
    ((p.tables .except).nfds fdkindKernel)

/-- One set on the way back. -/
def Prepared.virtualBitmask (p : Prepared) (answer : SetName → FdSet) (name : SetName) :
    Except SelectPanic (ℕ × Option FdSet) :=
  getOneVirtualBitmaskFromSelectResult fdkindKernel p.realnewnfds (some (p.realFds answer name)) []
    none p.mappingtable

/-- The way back for all three; a set that was not passed is not written. -/
def Prepared.finish (p : Prepared) (sets : SetName → Option FdSet) (answer : SetName → FdSet) :
    Except SelectPanic Selected :=
  match p.virtualBitmask answer .read with
  | .error e => .error e
  | .ok (readFlags, readResult) =>
      match p.virtualBitmask answer .write with
      | .error e => .error e
      | .ok (writeFlags, writeResult) =>
          match p.virtualBitmask answer .except with
          | .error e => .error e
          | .ok (errorFlags, errorResult) =>
              .ok (.returned (readFlags + writeFlags + errorFlags) fun
                | .read => (sets .read).bind fun _ => readResult
                | .write => (sets .write).bind fun _ => writeResult
                | .except => (sets .except).bind fun _ => errorResult)

/-- `nfds` is the guest's number read as an unsigned one, so that a negative one is huge. -/
def selectSyscall (s : State) (cageid nfds : ℕ) (sets : SetName → Option FdSet)
    (rounds : List KernelRound) : Except SelectPanic Selected :=
  match prepareBitmasksForSelect s cageid nfds sets {fdkindKernel} with
  | .error (.panic p) => .error p
  | .error (.errno _) => .ok (.failed .EINVAL "select_syscall" "Failed to prepare bitmasks")
  | .ok prepared =>
      match kernelWait rounds with
      | .waiting => .ok .waiting
      | .hostFailed => .ok (.hostFailed "select_syscall")
      | .interrupted => .ok (.failed .EINTR "select_syscall" "interrupted")
      | .ready answer => prepared.finish sets answer

/-! ## What a scan finds -/

/-- The pair a descriptor number stands for. -/
def pairAt (row : FdRow) (v : ℕ) : Option (ℕ × ℕ) := (slotAt row v).map FDTableEntry.pair

section Scan

variable {row : FdRow} {kinds bits : Finset ℕ} {n : ℕ} {tb : SelectTables}

/-- **The tables after the first `n` bits**: a kernel number is listed if a bit stands over it, and
the map leads back to the highest such bit. -/
structure Scanned (row : FdRow) (kinds bits : Finset ℕ) (n : ℕ) (tb : SelectTables) : Prop where
  mapping : ∀ p v, tb.mappingtable p = some v ↔
    (v < n ∧ v ∈ bits ∧ pairAt row v = some p) ∧
      ∀ w < n, w ∈ bits → pairAt row w = some p → w ≤ v
  fds : ∀ k u, u ∈ tb.fds k ↔ k ∈ kinds ∧ ∃ v < n, v ∈ bits ∧ pairAt row v = some (k, u)
  lt_nfds : ∀ k u, u ∈ tb.fds k → u < tb.nfds k
  nfds_le : ∀ k m, 0 < m → (∀ u ∈ tb.fds k, u < m) → tb.nfds k ≤ m

theorem scanned_zero : Scanned row kinds bits 0 .empty where
  mapping := by simp [SelectTables.empty]
  fds := by simp [SelectTables.empty, SelectTables.fds]
  lt_nfds := by simp [SelectTables.empty, SelectTables.fds]
  nfds_le := by simp [SelectTables.empty, SelectTables.nfds]

section

variable (h : Scanned row kinds bits n tb) {e : FDTableEntry}
include h

theorem Scanned.succ_of_notMem (hn : n ∉ bits) : Scanned row kinds bits (n + 1) tb where
  mapping p v := by
    rw [h.mapping]
    grind
  fds k u := by
    rw [h.fds]
    grind
  lt_nfds := h.lt_nfds
  nfds_le := h.nfds_le

theorem Scanned.mapping_update (hn : n ∈ bits) {p : ℕ × ℕ} (hp : pairAt row n = some p) (q : ℕ × ℕ)
    (v : ℕ) : update tb.mappingtable p (some n) q = some v ↔
      (v < n + 1 ∧ v ∈ bits ∧ pairAt row v = some q) ∧
        ∀ w < n + 1, w ∈ bits → pairAt row w = some q → w ≤ v := by
  by_cases hq : q = p
  · subst hq
    rw [update_self]
    grind
  · rw [update_of_ne hq, h.mapping]
    grind

theorem Scanned.succ_addUnparsed (hn : n ∈ bits) (he : slotAt row n = some e)
    (hk : e.fdkind ∉ kinds) : Scanned row kinds bits (n + 1) (tb.addUnparsed e n) := by
  have hp : pairAt row n = some e.pair := by rw [pairAt, he]; rfl
  refine ⟨h.mapping_update hn hp, fun k u => ?_, h.lt_nfds, h.nfds_le⟩
  have hne : k ∈ kinds → pairAt row n ≠ some (k, u) := fun hkk heq => by
    rw [hp] at heq
    obtain rfl : e.fdkind = k := congrArg Prod.fst (some.inj heq)
    exact hk hkk
  change u ∈ tb.fds k ↔ _
  rw [h.fds]
  grind

theorem Scanned.starting (k : ℕ) : ((tb.retbittable k).getD (1, ∅)).2 = tb.fds k ∧
    (∀ u ∈ tb.fds k, u < ((tb.retbittable k).getD (1, ∅)).1) ∧
    ∀ m, 0 < m → (∀ u ∈ tb.fds k, u < m) → ((tb.retbittable k).getD (1, ∅)).1 ≤ m := by
  have hlt := h.lt_nfds k
  have hle := h.nfds_le k
  unfold SelectTables.fds SelectTables.nfds at *
  cases hk : tb.retbittable k with
  | none => exact ⟨rfl, fun u hu => absurd hu (by simp), fun m hm _ => hm⟩
  | some x =>
    rw [hk] at hlt hle
    exact ⟨rfl, hlt, hle⟩

theorem Scanned.succ_addBit (hn : n ∈ bits) (he : slotAt row n = some e)
    (hk : e.fdkind ∈ kinds) (hu : e.underfd < fdSetsize) :
    ∃ tb', tb.addBit e n = .ok tb' ∧ Scanned row kinds bits (n + 1) tb' := by
  have hp : pairAt row n = some (e.fdkind, e.underfd) := by rw [pairAt, he]; rfl
  obtain ⟨hset, hlt, hle⟩ := h.starting e.fdkind
  refine ⟨_, if_pos hu, h.mapping_update hn hp, fun k u => ?_, fun k u => ?_, fun k m => ?_⟩
  all_goals
    simp only [SelectTables.fds, SelectTables.nfds]
    by_cases hke : k = e.fdkind
  · subst hke
    rw [update_self, Option.elim, hset, Finset.mem_insert, h.fds]
    grind
  · rw [update_of_ne hke]
    change u ∈ tb.fds k ↔ _
    rw [h.fds]
    grind
  · subst hke
    rw [update_self, Option.elim, Option.elim, hset, Finset.mem_insert]
    rintro (rfl | hmem)
    · exact lt_max_of_lt_right (Nat.lt_succ_self _)
    · exact lt_max_of_lt_left (hlt u hmem)
  · rw [update_of_ne hke]
    exact h.lt_nfds k u
  · subst hke
    rw [update_self, Option.elim, Option.elim, hset]
    intro hm hall
    exact max_le (hle m hm fun u hu => hall u (Finset.mem_insert_of_mem hu))
      (hall _ (Finset.mem_insert_self _ _))
  · rw [update_of_ne hke]
    exact h.nfds_le k m

end

/-- **A scan** of open descriptors finds what is there; one that meets another stops. -/
theorem scanBits_spec
    (hlow : ∀ v < n, v ∈ bits → ∀ k ∈ kinds, ∀ u, pairAt row v = some (k, u) → u < fdSetsize) :
    (∃ tb, scanBits row kinds bits n = .ok tb ∧ Scanned row kinds bits n tb ∧
        ∀ v, v < n ∧ v ∈ bits → slotAt row v ≠ none) ∨
      (scanBits row kinds bits n = .error (.errno .EBADF) ∧
        ∃ v, (v < n ∧ v ∈ bits) ∧ slotAt row v = none) := by
  induction n with
  | zero => exact .inl ⟨_, rfl, scanned_zero, by simp⟩
  | succ n ih =>
    rw [scanBits]
    obtain ⟨tb, htb, hscan, hopen⟩ | ⟨herr, v, hv, hnone⟩ :=
      ih fun v hv => hlow v (Nat.lt_succ_of_lt hv)
    · rw [htb]
      dsimp only [scanBit]
      split
      · next hmem =>
        cases he : slotAt row n with
        | none => exact .inr ⟨rfl, n, ⟨n.lt_succ_self, hmem⟩, he⟩
        | some e =>
          have hopen' : ∀ v, v < n + 1 ∧ v ∈ bits → slotAt row v ≠ none := by grind
          dsimp only
          split
          · next hk => exact .inl ⟨_, rfl, hscan.succ_addUnparsed hmem he hk, hopen'⟩
          · next hk =>
            have hu := hlow n n.lt_succ_self hmem _ (not_not.mp hk) _ (by rw [pairAt, he]; rfl)
            obtain ⟨tb', htb', hscan'⟩ := hscan.succ_addBit hmem he (not_not.mp hk) hu
            exact .inl ⟨tb', htb', hscan', hopen'⟩
      · next hmem => exact .inl ⟨tb, rfl, hscan.succ_of_notMem hmem, by grind⟩
    · rw [herr]
      exact .inr ⟨rfl, v, ⟨Nat.lt_succ_of_lt hv.1, hv.2⟩, hnone⟩

end Scan

/-! ## What the three scans find -/

/-- The descriptor is among those a set asks about. -/
def Asked (nfds : ℕ) (bits : Option FdSet) (v : ℕ) : Prop := v < nfds ∧ v ∈ bits.getD ∅

/-- The descriptor stands over the kernel's `u`. -/
def OverKernel (row : FdRow) (v u : ℕ) : Prop := pairAt row v = some (fdkindKernel, u)

/-- **The highest descriptor a set asks about over the kernel's `u`.** -/
def Chosen (row : FdRow) (nfds : ℕ) (bits : Option FdSet) (u v : ℕ) : Prop :=
  (Asked nfds bits v ∧ OverKernel row v u) ∧
    ∀ w, Asked nfds bits w → OverKernel row w u → w ≤ v

section Prepare

variable {s : State} {cageid nfds v u : ℕ} {row : FdRow} {sets : SetName → Option FdSet}
  {bits : Option FdSet} {kinds : Finset ℕ} {tb : SelectTables}

theorem Scanned.chosen_iff (h : Scanned row kinds (bits.getD ∅) nfds tb)
    (u v : ℕ) : tb.mappingtable (fdkindKernel, u) = some v ↔ Chosen row nfds bits u v := by
  rw [h.mapping]
  simp only [Chosen, Asked, OverKernel, and_assoc, and_imp]

theorem scanned_of_none (n : ℕ) : Scanned row kinds ∅ n .empty := by
  induction n with
  | zero => exact scanned_zero
  | succ n ih => exact ih.succ_of_notMem (notMem_empty n)

/-- No kernel number asked about is beyond what a set holds. -/
def LowFds (row : FdRow) (nfds : ℕ) (bits : Option FdSet) : Prop :=
  ∀ v, Asked nfds bits v → ∀ u, OverKernel row v u → u + 1 < fdPerProcessMax

theorem LowFds.lt_fdSetsize {bits : FdSet} (h : LowFds row nfds (some bits)) :
    ∀ v < nfds, v ∈ bits → ∀ k ∈ ({fdkindKernel} : Finset ℕ), ∀ u,
      pairAt row v = some (k, u) → u < fdSetsize := by
  intro v hv hmem k hk u hp
  obtain rfl := mem_singleton.mp hk
  exact Nat.lt_of_succ_lt (h v ⟨hv, hmem⟩ u hp)

/-- What a preparation that goes through has found. -/
structure Prepared.Sound (row : FdRow) (nfds : ℕ) (sets : SetName → Option FdSet)
    (p : Prepared) : Prop where
  scanned : ∀ name, Scanned row {fdkindKernel} ((sets name).getD ∅) nfds (p.tables name)
  mapping : ∀ q, p.mappingtable q = ((p.tables .except).mappingtable q).or
    (((p.tables .write).mappingtable q).or ((p.tables .read).mappingtable q))

section

variable (hrow : s.fdtable.lookup cageid = some row) (hn : nfds < fdPerProcessMax)
include hrow hn

theorem getBitmaskForSelect_of_lt (bits : Option FdSet) (kinds : Finset ℕ) :
    getBitmaskForSelect s cageid nfds bits kinds
      = bits.elim (.ok .empty) fun infdset => scanBits row kinds infdset nfds := by
  rw [getBitmaskForSelect, if_neg (Nat.not_le_of_lt hn), getRow_eq hrow]
  cases bits <;> rfl

theorem getBitmaskForSelect_spec (hlow : LowFds row nfds bits) :
    (∃ tb, getBitmaskForSelect s cageid nfds bits {fdkindKernel} = .ok tb ∧
        Scanned row {fdkindKernel} (bits.getD ∅) nfds tb ∧
        ∀ v, Asked nfds bits v → slotAt row v ≠ none) ∨
      (getBitmaskForSelect s cageid nfds bits {fdkindKernel} = .error (.errno .EBADF) ∧
        ∃ v, Asked nfds bits v ∧ slotAt row v = none) := by
  rw [getBitmaskForSelect_of_lt hrow hn]
  cases bits with
  | none => exact .inl ⟨_, rfl, scanned_of_none nfds, fun v hv => absurd hv.2 (notMem_empty v)⟩
  | some bits => exact scanBits_spec hlow.lt_fdSetsize

/-- **A preparation** goes through, unless a set asks about a descriptor that is not open. -/
theorem prepare_spec (hlow : ∀ name, LowFds row nfds (sets name)) :
    (∃ p, prepareBitmasksForSelect s cageid nfds sets {fdkindKernel} = .ok p ∧
        p.Sound row nfds sets ∧ ∀ name v, Asked nfds (sets name) v → slotAt row v ≠ none) ∨
      (∃ e, prepareBitmasksForSelect s cageid nfds sets {fdkindKernel} = .error (.errno e)) ∧
        ∃ name v, Asked nfds (sets name) v ∧ slotAt row v = none := by
  have key := fun name => getBitmaskForSelect_spec hrow hn (hlow name)
  unfold prepareBitmasksForSelect
  obtain ⟨r, hr, hrs, hro⟩ | ⟨hr, hnone⟩ := key .read <;> rw [hr]
  · obtain ⟨w, hw, hws, hwo⟩ | ⟨hw, hnone⟩ := key .write <;> rw [hw]
    · obtain ⟨e, he, hes, heo⟩ | ⟨he, hnone⟩ := key .except <;> rw [he]
      · refine .inl ⟨_, rfl, ⟨fun name => ?_, fun q => rfl⟩, fun name => ?_⟩
        · cases name <;> assumption
        · cases name <;> assumption
      · exact .inr ⟨⟨_, rfl⟩, _, hnone⟩
    · exact .inr ⟨⟨_, rfl⟩, _, hnone⟩
  · exact .inr ⟨⟨_, rfl⟩, _, hnone⟩

end

/-- **The sets agree** on the descriptor to report for each kernel number. -/
def SetsAgree (row : FdRow) (nfds : ℕ) (sets : SetName → Option FdSet) : Prop :=
  ∀ name name' u v v', Chosen row nfds (sets name) u v → Chosen row nfds (sets name') u v' → v = v'

theorem or_eq_some_of {x y : Option ℕ} (hx : ∀ a, x = some a → a = v)
    (h : x = some v ∨ y = some v) : x.or y = some v := by
  cases x with
  | none => simpa using h
  | some a => rw [some_or, hx a rfl]

/-- Then the merged map is each set's own. -/
theorem Prepared.Sound.mapping_of_chosen {p : Prepared} (h : p.Sound row nfds sets)
    (hagree : SetsAgree row nfds sets) {name : SetName}
    (hv : Chosen row nfds (sets name) u v) : p.mappingtable (fdkindKernel, u) = some v := by
  have hsame : ∀ name' v', (p.tables name').mappingtable (fdkindKernel, u) = some v' → v' = v :=
    fun name' v' hv' => hagree _ _ _ _ _ (((h.scanned name').chosen_iff u v').mp hv') hv
  have hown := ((h.scanned name).chosen_iff u v).mpr hv
  rw [h.mapping]
  cases name
  · exact or_eq_some_of (hsame .except) (.inr (or_eq_some_of (hsame .write) (.inr hown)))
  · exact or_eq_some_of (hsame .except) (.inr (or_eq_some_of (hsame .write) (.inl hown)))
  · exact or_eq_some_of (hsame .except) (.inl hown)

/-- …and a bit found ready is always mapped. -/
theorem Scanned.exists_chosen (h : Scanned row {fdkindKernel} (bits.getD ∅) nfds tb)
    (hu : u ∈ tb.fds fdkindKernel) :
    ∃ v, Chosen row nfds bits u v := by
  classical
  obtain ⟨-, v, hv, hmem, hp⟩ := (h.fds _ u).mp hu
  let sharing := (Finset.range nfds).filter fun w =>
    w ∈ bits.getD ∅ ∧ pairAt row w = some (fdkindKernel, u)
  have hne : sharing.Nonempty := ⟨v, by simp [sharing, hv, hmem, hp]⟩
  have hmax := sharing.max'_mem hne
  simp only [sharing, mem_filter, mem_range] at hmax
  refine ⟨sharing.max' hne, ⟨⟨hmax.1, hmax.2.1⟩, hmax.2.2⟩, fun w hw hwu => sharing.le_max' w ?_⟩
  simp only [sharing, mem_filter, mem_range]
  exact ⟨hw.1, hw.2, hwu⟩

end Prepare

/-! ## The way back -/

/-- **What an answer sets**: the descriptors its bits are mapped to, each counted once. -/
theorem collectBits_spec {k n : ℕ} {m : ℕ × ℕ → Option ℕ} {inset : FdSet}
    (hmap : ∀ u < n, u ∈ inset → ∃ v, m (k, u) = some v) :
    ∃ ret : FdSet, collectBits k m inset ∅ n = .ok (ret.card, ret) ∧
      ∀ v, v ∈ ret ↔ ∃ u < n, u ∈ inset ∧ m (k, u) = some v := by
  induction n with
  | zero => exact ⟨∅, rfl, by simp⟩
  | succ n ih =>
    obtain ⟨ret, hret, hmem⟩ := ih fun u hu => hmap u (Nat.lt_succ_of_lt hu)
    rw [collectBits, hret]
    dsimp only
    split
    · next hn =>
      obtain ⟨v, hv⟩ := hmap n n.lt_succ_self hn
      rw [hv]
      dsimp only
      split
      · next hin =>
        refine ⟨ret, rfl, fun w => ?_⟩
        rw [hmem]
        grind
      · next hin =>
        refine ⟨insert v ret, by rw [card_insert_of_notMem hin], fun w => ?_⟩
        rw [mem_insert, hmem]
        grind
    · next hn =>
      refine ⟨ret, rfl, fun w => ?_⟩
      rw [hmem]
      grind

/-- The number of bits in the sets that were written. -/
def bitCount (out : SetName → Option FdSet) : ℕ :=
  ((out .read).getD ∅).card + ((out .write).getD ∅).card + ((out .except).getD ∅).card

/-- **What `select` should report**: a descriptor is in an output set just when it was asked about
in that set and the kernel found what lies under it ready there. -/
def ReportsReady (row : FdRow) (nfds : ℕ) (sets : SetName → Option FdSet)
    (answer : SetName → FdSet) : Except SelectPanic Selected → Prop
  | .ok (.returned ret out) =>
      (∀ name v, v ∈ (out name).getD ∅ ↔
        Asked nfds (sets name) v ∧ ∃ u, OverKernel row v u ∧ u ∈ answer name) ∧
      ret = bitCount out
  | _ => False

/-- **What `select` reports by design**: of several descriptors over one kernel number, the highest
that the set asks about. -/
def ReportsChosen (row : FdRow) (nfds : ℕ) (sets : SetName → Option FdSet)
    (answer : SetName → FdSet) : Except SelectPanic Selected → Prop
  | .ok (.returned ret out) =>
      (∀ name v, v ∈ (out name).getD ∅ ↔ ∃ u ∈ answer name, Chosen row nfds (sets name) u v) ∧
      ret = bitCount out
  | _ => False

section Finish

variable {row : FdRow} {nfds : ℕ} {sets : SetName → Option FdSet} {p : Prepared}

theorem Prepared.nfds_le_realnewnfds (p : Prepared) (name : SetName) :
    (p.tables name).nfds fdkindKernel ≤ p.realnewnfds := by
  cases name
  · exact (le_max_left _ _).trans (le_max_left _ _)
  · exact (le_max_right _ _).trans (le_max_left _ _)
  · exact le_max_right _ _

variable (h : p.Sound row nfds sets) (hlow : ∀ name, LowFds row nfds (sets name))
include h hlow

/-- The numbers asked about leave room for the assertion. -/
theorem Prepared.Sound.realnewnfds_lt : p.realnewnfds < fdPerProcessMax := by
  have hle : ∀ name, (p.tables name).nfds fdkindKernel ≤ fdPerProcessMax - 1 := fun name =>
    (h.scanned name).nfds_le _ _ (by decide) fun u hu => by
      obtain ⟨-, v, hv, hmem, hp⟩ := ((h.scanned name).fds _ u).mp hu
      exact Nat.lt_sub_of_add_lt (hlow name v ⟨hv, hmem⟩ u hp)
  have hmax : p.realnewnfds ≤ fdPerProcessMax - 1 :=
    max_le (max_le (hle .read) (hle .write)) (hle .except)
  exact Nat.lt_of_le_of_lt hmax (by decide)

variable (hagree : SetsAgree row nfds sets) (answer : SetName → FdSet)
include hagree

/-- **One set on the way back**: the chosen descriptor of each kernel number found ready. -/
theorem Prepared.Sound.virtualBitmask (name : SetName) :
    ∃ ret : FdSet, p.virtualBitmask answer name = .ok (ret.card, some ret) ∧
      ∀ v, v ∈ ret ↔ ∃ u ∈ answer name, Chosen row nfds (sets name) u v := by
  have hscan := h.scanned name
  have hmap : ∀ u ∈ p.realFds answer name, ∃ v, Chosen row nfds (sets name) u v ∧
      p.mappingtable (fdkindKernel, u) = some v := fun u hu => by
    obtain ⟨v, hv⟩ := hscan.exists_chosen (mem_inter.mp hu).1
    exact ⟨v, hv, h.mapping_of_chosen hagree hv⟩
  obtain ⟨ret, hret, hmem⟩ := collectBits_spec (n := p.realnewnfds)
    (m := p.mappingtable) fun u _ hu => (hmap u hu).imp fun v hv => hv.2
  refine ⟨ret, ?_, fun v => ?_⟩
  · rw [Prepared.virtualBitmask, getOneVirtualBitmaskFromSelectResult,
      if_pos (h.realnewnfds_lt hlow), if_neg (by simp)]
    simp only [getD_none, elim_some, hret, addUnprocessed]
  · rw [hmem]
    constructor
    · rintro ⟨u, -, hu, hv⟩
      obtain ⟨w, hw, hwm⟩ := hmap u hu
      obtain rfl := mem_unique hwm hv
      exact ⟨u, (mem_inter.mp hu).2, hw⟩
    · rintro ⟨u, hu, hv⟩
      have hmemfds : u ∈ (p.tables name).fds fdkindKernel :=
        (hscan.fds _ u).mpr ⟨mem_singleton_self _, v, hv.1.1.1, hv.1.1.2, hv.1.2⟩
      exact ⟨u, (hscan.lt_nfds _ u hmemfds).trans_le (p.nfds_le_realnewnfds name),
        mem_inter.mpr ⟨hmemfds, hu⟩, h.mapping_of_chosen hagree hv⟩

theorem Prepared.Sound.reportsChosen :
    ReportsChosen row nfds sets answer (p.finish sets answer) := by
  choose ret hret hmem using h.virtualBitmask hlow hagree answer
  -- a set that was not passed has nothing ready
  have hout : ∀ name, ((sets name).bind fun _ => some (ret name)).getD ∅ = ret name := by
    intro name
    cases hset : sets name with
    | some _ => rfl
    | none =>
      refine (eq_empty_of_forall_notMem fun v hv => ?_).symm
      obtain ⟨u, -, hu⟩ := (hmem name v).mp hv
      rw [hset] at hu
      exact notMem_empty v hu.1.1.2
  rw [Prepared.finish, hret .read, hret .write, hret .except]
  refine ⟨fun name v => ?_, ?_⟩
  · rw [← hmem, ← hout name]
    cases name <;> rfl
  · simp only [bitCount, hout]

end Finish

/-- **`select` reports what is ready**, where it accepts the call: a refused call — too many
descriptors, or one that is not open — is an error and writes nothing.  Two things are asked of the
sets: that no kernel number is beyond the assertion of the way back, without which a set may not
even be read to the end, and that they agree on the descriptor to report for each. -/
theorem select_reports {s : State} {cageid : ℕ} {row : FdRow}
    (hrow : s.fdtable.lookup cageid = some row) (nfds : ℕ) (sets : SetName → Option FdSet)
    (rounds : List KernelRound) :
    (fdPerProcessMax ≤ nfds → selectSyscall s cageid nfds sets rounds
        = .ok (.failed .EINVAL "select_syscall" "Failed to prepare bitmasks")) ∧
    ((∀ name, LowFds row nfds (sets name)) →
      ((∃ name v, Asked nfds (sets name) v ∧ slotAt row v = none) →
        selectSyscall s cageid nfds sets rounds
          = .ok (.failed .EINVAL "select_syscall" "Failed to prepare bitmasks")) ∧
      ((nfds < fdPerProcessMax ∧ ∀ name v, Asked nfds (sets name) v → slotAt row v ≠ none) →
        SetsAgree row nfds sets → ∀ answer, kernelWait rounds = .ready answer →
        ReportsChosen row nfds sets answer (selectSyscall s cageid nfds sets rounds))) := by
  rw [selectSyscall]
  rcases Nat.lt_or_ge nfds fdPerProcessMax with hn | hge
  · refine ⟨fun hge => absurd hn hge.not_gt, fun hlow => ?_⟩
    obtain ⟨p, hp, hsound, hopen⟩ | ⟨⟨e, he⟩, name, v, hv, hnone⟩ := prepare_spec hrow hn hlow
    · refine ⟨fun ⟨name, v, hv, hnone⟩ => absurd hnone (hopen name v hv), ?_⟩
      intro _ hagree answer hwait
      rw [hp, hwait]
      exact hsound.reportsChosen hlow hagree answer
    · rw [he]
      exact ⟨fun _ => rfl, fun hok => absurd hnone (hok.2 name v hv)⟩
  · rw [prepareBitmasksForSelect, getBitmaskForSelect, if_pos hge]
    exact ⟨fun _ => rfl, fun _ => ⟨fun _ => rfl, fun hok => absurd hok.1 hge.not_gt⟩⟩

/-- Two descriptors over one kernel number, as after `dup`. -/
def duplicated : List Op :=
  [.initEmptyCage 1, .getSpecificVirtualFd 1 3 fdkindKernel 7 false 0,
    .getSpecificVirtualFd 1 5 fdkindKernel 7 false 0]

theorem duplicated_slots :
    ∃ s row, runSteps step State.init duplicated = some s ∧ s.fdtable.lookup 1 = some row ∧
      slotAt row 3 = some ⟨fdkindKernel, 7, false, 0⟩ ∧
      slotAt row 5 = some ⟨fdkindKernel, 7, false, 0⟩ := ⟨_, _, rfl, rfl, rfl, rfl⟩

/-- Both are asked about for reading. -/
def bothForReading : SetName → Option FdSet
  | .read => some {3, 5}
  | .write | .except => none

/-- The kernel finds what lies under them ready. -/
def sevenReadable : SetName → FdSet
  | .read => {7}
  | .write | .except => ∅

/-- The two at once, with only the higher reported. -/
theorem select_reports_duplicated :
    ∃ s row, runSteps step State.init duplicated = some s ∧ s.fdtable.lookup 1 = some row ∧
      ReportsChosen row 6 bothForReading sevenReadable
        (selectSyscall s 1 6 bothForReading [.answer 1 sevenReadable false false]) := by
  obtain ⟨s, row, hs, hrow, h3, h5⟩ := duplicated_slots
  have hpair : ∀ name v, Asked 6 (bothForReading name) v →
      name = .read ∧ slotAt row v = some ⟨fdkindKernel, 7, false, 0⟩ := by
    intro name v hv
    cases name with
    | read =>
      obtain rfl | rfl : v = 3 ∨ v = 5 := by simpa [bothForReading] using hv.2
      · exact ⟨rfl, h3⟩
      · exact ⟨rfl, h5⟩
    | write => exact absurd hv.2 (notMem_empty v)
    | except => exact absurd hv.2 (notMem_empty v)
  refine ⟨s, row, hs, hrow, ((select_reports hrow 6 bothForReading _).2 fun name v hv u hu => ?_).2
    ⟨by decide, fun name v hv => ?_⟩ (fun name name' u v v' hv hv' => ?_) _ rfl⟩
  · rw [OverKernel, pairAt, (hpair name v hv).2] at hu
    obtain rfl : 7 = u := congrArg Prod.snd (some.inj hu)
    decide
  · rw [(hpair name v hv).2]
    exact some_ne_none _
  · obtain ⟨rfl, -⟩ := hpair name v hv.1.1
    obtain ⟨rfl, -⟩ := hpair name' v' hv'.1.1
    exact Nat.le_antisymm (hv'.2 v hv.1.1 hv.1.2) (hv.2 v' hv'.1.1 hv'.1.2)

/-- **Of two descriptors over one kernel number one is reported**, and a call with as many
descriptors as a cage may have is refused. -/
theorem not_reportsReady_duplicated :
    ∃ s row, runSteps step State.init duplicated = some s ∧ s.fdtable.lookup 1 = some row ∧
      ¬ ReportsReady row 6 bothForReading sevenReadable
        (selectSyscall s 1 6 bothForReading [.answer 1 sevenReadable false false]) ∧
      ¬ ReportsReady row 1024 bothForReading sevenReadable
        (selectSyscall s 1 1024 bothForReading [.answer 1 sevenReadable false false]) := by
  refine ⟨_, _, rfl, rfl, ?_, ?_⟩
  · rintro ⟨h, -⟩
    have h3 := (h .read 3).mpr ⟨⟨by decide, by decide⟩, 7, rfl, by decide⟩
    exact absurd h3 (by decide)
  · exact fun h => h

-- where the sets do not agree, the set that is read back last names the descriptor for the others
example : ∃ s out, runSteps step State.init duplicated = some s ∧
    selectSyscall s 1 6 (fun | .read => some {3} | .write => some {5} | .except => none)
      [.answer 1 sevenReadable false false] = .ok (.returned 1 out) ∧ out .read = some {5} :=
  ⟨_, _, rfl, rfl, by decide⟩

end LindWasm.FdTables
