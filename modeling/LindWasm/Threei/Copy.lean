import Mathlib.Data.List.Range
import LindWasm.Machinery.Bytes
import LindWasm.Memory.Sync
import LindWasm.Threei.Backends
import LindWasm.Vmmap.Address

/-!
# Threei/Copy — `copy_data_between_cages`

    source  ├----------▓▓▓▓------┤            scan, translate, check, check, copy
                        ╲
    destination    ├-----▓▓▓▓-----------┤

Bytes are copied from one cage's region into another's, a given number of them or up to a NUL.
Nothing is written before both ranges have passed the check of their cage's map, so the copy
happens as a whole or not at all. That the ranges end where the regions do is left to the maps:
one that holds a page past the region lets the copy run over the edge
(`copy_allOrNothing_iff`).
-/

namespace LindWasm.Threei

open Vmmap Relation Function Option List

/-! ## The copy -/

def maxLinearMemorySize : ℕ := 0xFFFFFFFF

inductive CopyType where
  | rawMemcpy
  | strncpy
  deriving DecidableEq

/-- `CopyType::try_from`. -/
def CopyType.tryFrom : ℕ → Except ℕ CopyType
  | 0 => .ok .rawMemcpy
  | 1 => .ok .strncpy
  | v => .error v

/-- The live cages' maps, and the bytes at host addresses. -/
structure Host (M : Type*) where
  vmmaps : ℕ → Option (Vmmap M)
  mem : Mem

/-- What a copy returns and leaves, with the host addresses it dereferenced. -/
structure Reply (M : Type*) where
  ret : ℕ
  host : Host M
  reads : List ℕ
  writes : List ℕ

variable {M : Type*}

/-- `_ensure_host_addr`. -/
def Host.ensureHostAddr (h : Host M) (cageid addr : ℕ) : ℕ :=
  Vmmap.ensureHostAddr ((h.vmmaps cageid).bind Vmmap.baseAddress) addr

def Host.put (h : Host M) (cageid : ℕ) (vm : Vmmap M) : Host M :=
  { h with vmmaps := update h.vmmaps cageid (some vm) }

def abort (h : Host M) (reads : List ℕ) : Reply M := ⟨elindApiAborted, h, reads, []⟩

/-- `copy_nonoverlapping`; `none` where it is undefined. -/
def copyNonoverlapping (mem : Mem) (src dst count : ℕ) : Option Mem :=
  if src + count ≤ dst ∨ dst + count ≤ src then some (mem.blit dst mem src count) else none

variable [IntervalMap M VmmapEntry]

/-- The check of a cage's map, of which the callers see whether it fails; `none` when it panics. -/
def Host.check (access : Access) (profile : Profile) (h : Host M) (cageid addr length : ℕ) :
    Option (Bool × Host M) :=
  match h.vmmaps cageid with
  | none => some (false, h)
  | some vm => (access.check profile vm addr length).map fun r => (r.1, h.put cageid r.2)

/-- The loop of `_strlen_in_cage`, with the bytes still to scan: where the NUL is, and the addresses
read. -/
def strlenFrom (profile : Profile) (cageid hostAddr : ℕ) :
    ℕ → ℕ → Host M → Option (Option ℕ × Host M × List ℕ)
  | 0, _, h => some (none, h, [])
  | n + 1, i, h =>
      match checkedAdd64 hostAddr i with
      | none => some (none, h, [])
      | some addr =>
        -- validate this byte before dereference
        (h.check .read profile cageid addr 1).bind fun
          | (false, h) => some (none, h, [])
          | (true, h) =>
            if h.mem addr = 0 then some (some i, h, [addr])
            else (strlenFrom profile cageid hostAddr n (i + 1) h).map fun r =>
              (r.1, r.2.1, addr :: r.2.2)

variable (profile : Profile) {vm' : Vmmap M} {k : ℕ} {r : Reply M}

/-- `_strlen_in_cage`. -/
def strlenInCage (h : Host M) (cageid srcaddr maxLen : ℕ) :
    Option (Option ℕ × Host M × List ℕ) :=
  if h.ensureHostAddr cageid srcaddr = 0 then some (none, h, [])
  else strlenFrom profile cageid (h.ensureHostAddr cageid srcaddr) maxLen 0 h

/-- How many bytes are to be copied, if any. -/
def copyLen (h : Host M) (srcaddr srccage len copytype : ℕ) :
    Option (Option ℕ × Host M × List ℕ) :=
  match CopyType.tryFrom copytype with
  | .ok .rawMemcpy => some (some len, h, [])
  | .ok .strncpy =>
      if srcaddr = 0 then some (none, h, [])
      else (strlenInCage profile h srccage srcaddr len).map fun r => (r.1.map (· + 1), r.2)
  | .error _ => some (none, h, [])

/-- Translate, check and copy `n` bytes; `reads` are the addresses read so far. -/
def transfer (h : Host M) (srcaddr srccage destaddr destcage n : ℕ)
    (reads : List ℕ) : Option (Reply M) :=
  let hostSrcAddr := h.ensureHostAddr srccage srcaddr
  let hostDestAddr := h.ensureHostAddr destcage destaddr
  if hostSrcAddr = 0 ∨ hostDestAddr = 0 then some (abort h reads)
  else
    (h.check .read profile srccage hostSrcAddr n).bind fun
      | (false, h) => some (abort h reads)
      | (true, h) =>
        (h.check .rw profile destcage hostDestAddr n).bind fun
          | (false, h) => some (abort h reads)
          | (true, h) =>
            if checkedAdd64 hostSrcAddr n = none ∨ checkedAdd64 hostDestAddr n = none then
              some (abort h reads)
            else
              (copyNonoverlapping h.mem hostSrcAddr hostDestAddr n).map fun mem =>
                ⟨destaddr, { h with mem }, reads ++ List.range' hostSrcAddr n,
                  List.range' hostDestAddr n⟩

/-- `copy_data_between_cages`; `none` when it panics. -/
def copyDataBetweenCages (h : Host M)
    (srcaddr srccage destaddr destcage len copytype : ℕ) : Option (Reply M) :=
  if srccage = destcage then some (abort h [])
  else if maxLinearMemorySize < len then some (abort h [])
  -- no dynamic allocation
  else if destaddr = 0 then none
  else
    (copyLen profile h srcaddr srccage len copytype).bind fun
      | (none, h, reads) => some (abort h reads)
      | (some n, h, reads) => transfer profile h srcaddr srccage destaddr destcage n reads

/-! ## All or nothing -/

/-- A string of `k` bytes and its NUL among the first `len` bytes from `addr`, all readable. -/
structure IsString (vm : Vmmap M) (base : ℕ) (mem : Mem) (addr len k : ℕ) : Prop where
  lt : k < len
  readable : ∀ i ≤ k, vm.SafeRange base Access.read.prot (addr + i) 1
  plain : ∀ i < k, mem (addr + i) ≠ 0
  nul : mem (addr + k) = 0

/-- The number of bytes a copy is to have copied. -/
def ToCopy (vm : Vmmap M) (base : ℕ) (mem : Mem) (addr len copytype n : ℕ) : Prop :=
  match CopyType.tryFrom copytype with
  | .ok .rawMemcpy => n = len
  | .ok .strncpy => ∃ k, IsString vm base mem addr len k ∧ n = k + 1
  | .error _ => False

/-- A copy of `n` bytes that nothing speaks against: there is what is to be copied, and both ranges
are the cages' to read and to write. -/
structure Proper (src dst : Vmmap M) (srcBase dstBase : ℕ) (mem : Mem)
    (srcaddr destaddr len copytype n : ℕ) : Prop where
  toCopy : ToCopy src srcBase mem (srcaddr + srcBase) len copytype n
  len_le : len ≤ maxLinearMemorySize
  src_ne_zero : CopyType.tryFrom copytype = .ok .strncpy → srcaddr ≠ 0
  readable : 0 < n → src.SafeRange srcBase Access.read.prot (srcaddr + srcBase) n
  writable : 0 < n → dst.SafeRange dstBase Access.rw.prot (destaddr + dstBase) n

/-- **All or nothing**: the copy fails and no byte has changed, or exactly the bytes asked for have
been copied, as they are whenever nothing speaks against it; and what was read and written was the
cages' to read and write. -/
structure AllOrNothing (src dst : Vmmap M) (srcBase dstBase : ℕ) (mem : Mem)
    (srcaddr destaddr len copytype : ℕ) (r : Reply M) : Prop where
  outcome : (r.ret = elindApiAborted ∧ r.host.mem = mem ∧
      ∀ n, ¬ Proper src dst srcBase dstBase mem srcaddr destaddr len copytype n) ∨
    (r.ret = destaddr ∧ ∃ n, ToCopy src srcBase mem (srcaddr + srcBase) len copytype n ∧
      r.host.mem = mem.blit (destaddr + dstBase) mem (srcaddr + srcBase) n)
  reads : ∀ a ∈ r.reads, src.SafeRange srcBase Access.read.prot a 1
  writes : ∀ a ∈ r.writes, dst.SafeRange dstBase Access.rw.prot a 1

/-! ## Over the edge -/

/-- The map after a read check of each of the bytes from `addr` on. -/
def readChecks (profile : Profile) (vm : Vmmap M) (addr : ℕ) : ℕ → Vmmap M
  | 0 => vm
  | m + 1 =>
      match checkAddrRead profile (readChecks profile vm addr m) (addr + m) 1 with
      | some (_, vm') => vm'
      | none => readChecks profile vm addr m

/-- The byte is readable and not a NUL. -/
def PlainByte (vm : Vmmap M) (base : ℕ) (mem : Mem) (a : ℕ) : Prop :=
  vm.SafeRange base Access.read.prot a 1 ∧ mem a ≠ 0

/-- The scan runs over the edge of the region: no NUL and no refusal before it, and the first byte
past it is granted. -/
structure ScansPast (src : Vmmap M) (srcBase : ℕ) (mem : Mem)
    (srcaddr len : ℕ) : Prop where
  long : 2 ^ 32 < srcaddr + len
  plain : ∀ i < 2 ^ 32 - srcaddr, PlainByte src srcBase mem (srcaddr + srcBase + i)
  granted : Granted profile (readChecks profile src (srcaddr + srcBase) (2 ^ 32 - srcaddr)) .read
    (srcBase + 2 ^ 32) 1

/-- **The checks let the copy run over the edge** of a region: both ranges are granted and one of
them leaves its region, or the scan for the NUL does. -/
def Overruns (src dst : Vmmap M) (srcBase dstBase : ℕ) (mem : Mem)
    (srcaddr destaddr len copytype : ℕ) : Prop :=
  len ≤ maxLinearMemorySize ∧
    match CopyType.tryFrom copytype with
    | .ok .rawMemcpy =>
        Granted profile src .read (srcaddr + srcBase) len ∧
          Granted profile dst .rw (destaddr + dstBase) len ∧
          (2 ^ 32 < srcaddr + len ∨ 2 ^ 32 < destaddr + len)
    | .ok .strncpy =>
        srcaddr ≠ 0 ∧ (ScansPast profile src srcBase mem srcaddr len ∨
          ∃ k, IsString src srcBase mem (srcaddr + srcBase) len k ∧
            Granted profile dst .rw (destaddr + dstBase) (k + 1) ∧ 2 ^ 32 < destaddr + (k + 1))
    | .error _ => False

/-- A live cage: its memory is somewhere in the host's, and its checks answer correctly there. -/
structure Live (h : Host M) (cageid : ℕ) (vm : Vmmap M) (base : ℕ) : Prop where
  vmmap : h.vmmaps cageid = some vm
  base_eq : vm.baseAddress = some base
  base_pos : 0 < base
  fits : base + 2 ^ 33 ≤ 2 ^ 64
  answers : AnswersInside profile vm base

/-- The regions of the two cages do not meet. -/
def RegionsApart (srcBase dstBase : ℕ) : Prop :=
  srcBase + 2 ^ 32 ≤ dstBase ∨ dstBase + 2 ^ 32 ≤ srcBase

/-- Two live cages, with a guest address in each. -/
structure Between (h : Host M) (srccage destcage : ℕ) (src dst : Vmmap M)
    (srcBase dstBase srcaddr destaddr : ℕ) : Prop where
  src : Live profile h srccage src srcBase
  dst : Live profile h destcage dst dstBase
  ne : srccage ≠ destcage
  apart : RegionsApart srcBase dstBase
  src_lt : srcaddr < 2 ^ 32
  dest_lt : destaddr < 2 ^ 32

/-! ## One check, one byte -/

section Steps

variable {profile : Profile} {h : Host M} {cageid base addr n : ℕ} {vm vm' : Vmmap M}

section

omit [IntervalMap M VmmapEntry]

theorem put_put (h : Host M) (cageid : ℕ) (vm vm' : Vmmap M) :
    (h.put cageid vm).put cageid vm' = h.put cageid vm' := by
  unfold Host.put
  rw [update_idem]

theorem put_self (hv : h.vmmaps cageid = some vm) : h.put cageid vm = h := by
  unfold Host.put
  rw [← hv, update_eq_self]

theorem vmmaps_put_of_ne {cageid' : ℕ} (hne : cageid' ≠ cageid) (hv : h.vmmaps cageid' = some vm')
    (vm : Vmmap M) : (h.put cageid vm).vmmaps cageid' = some vm' :=
  (update_of_ne hne _ _).trans hv

theorem ensureHostAddr_eq (hv : h.vmmaps cageid = some vm) (hb : vm.baseAddress = some base)
    (hpos : 0 < base) (haddr : addr < 2 ^ 32) : h.ensureHostAddr cageid addr = addr + base := by
  unfold Host.ensureHostAddr Vmmap.ensureHostAddr
  rw [hv, bind_some, hb, if_pos haddr, getD_some, if_neg hpos.ne']

end

theorem check_eq (access : Access) (hv : h.vmmaps cageid = some vm) :
    h.check access profile cageid addr n
      = (access.check profile vm addr n).map fun r => (r.1, h.put cageid r.2) := by
  unfold Host.check
  rw [hv]

theorem check_put (access : Access) :
    (h.put cageid vm).check access profile cageid addr n
      = (access.check profile vm addr n).map fun r => (r.1, h.put cageid r.2) := by
  rw [check_eq access (update_self ..)]
  simp only [put_put]

theorem Live.exists_check (hl : Live profile h cageid vm base)
    (hasked : ReflTransGen (Asked profile) vm vm') (access : Access) (hle : base ≤ addr)
    (hfar : addr + n < base + 2 ^ 33) :
    ∃ b vm'', access.check profile vm' addr n = some (b, vm'') ∧
      ReflTransGen (Asked profile) vm vm'' ∧ (b = true ↔ Granted profile vm' access addr n) := by
  have hb : vm'.baseAddress = some base := by rw [asked_eq_some hasked, hl.base_eq]
  have hfits := hl.fits
  obtain ⟨b, vm'', h⟩ := exists_checkAddr access.prot profile hb
    (show addr < 2 ^ 64 by omega) hle (show addr + n ≤ base + 2 ^ 43 by omega)
  rw [← access.check_eq] at h
  refine ⟨b, vm'', h, hasked.tail ⟨access, addr, n, b, h⟩, fun hb => ⟨vm'', hb ▸ h⟩, ?_⟩
  rintro ⟨u, hu⟩
  rw [h] at hu
  exact (Prod.mk.inj (some.inj hu)).1

theorem strlenFrom_succ {i : ℕ} (hfit : addr + i < 2 ^ 64) :
    strlenFrom profile cageid addr (n + 1) i (h.put cageid vm)
      = (Access.read.check profile vm (addr + i) 1).bind fun r =>
          if r.1 then
            if h.mem (addr + i) = 0 then some (some i, h.put cageid r.2, [addr + i])
            else (strlenFrom profile cageid addr n (i + 1) (h.put cageid r.2)).map fun q =>
              (q.1, q.2.1, (addr + i) :: q.2.2)
          else some (none, h.put cageid r.2, []) := by
  rw [strlenFrom, checkedAdd64, if_pos hfit]
  dsimp only
  rw [check_put, bind_map]
  congr 1
  funext r
  obtain ⟨b, u⟩ := r
  cases b <;> rfl

end Steps

/-! ## The scan for the NUL -/

section Scan

variable {profile : Profile} {h : Host M} {cageid base addr len : ℕ} {vm : Vmmap M}

variable {m : ℕ}

theorem readChecks_succ {b : Bool}
    (hcheck : Access.read.check profile (readChecks profile vm addr m) (addr + m) 1
      = some (b, vm')) : readChecks profile vm addr (m + 1) = vm' := by
  rw [readChecks, show checkAddrRead profile _ _ _ = _ from hcheck]

/-- **The scan passes over plain bytes**, one check at a time. -/
theorem Live.scan_plain (hl : Live profile h cageid vm base)
    (hplain : ∀ i < m, PlainByte vm base h.mem (addr + i)) :
    ReflTransGen (Asked profile) vm (readChecks profile vm addr m) ∧
      ∀ n, strlenFrom profile cageid addr (m + n) 0 h
        = (strlenFrom profile cageid addr n m (h.put cageid (readChecks profile vm addr m))).map
          fun q => (q.1, q.2.1, List.range' addr m ++ q.2.2) := by
  induction m with
  | zero =>
    refine ⟨.refl, fun n => ?_⟩
    rw [Nat.zero_add, readChecks, put_self hl.vmmap]
    exact Option.map_id'.symm
  | succ m ih =>
    obtain ⟨hasked, hscan⟩ := ih fun i hi => hplain i (by omega)
    obtain ⟨hsafe, hne⟩ := hplain m (Nat.lt_succ_self m)
    obtain ⟨hle, hend⟩ := hsafe.1
    have hfits := hl.fits
    obtain ⟨b, vm', hcheck, hasked', hb⟩ :=
      hl.exists_check hasked .read hle (show addr + m + 1 < base + 2 ^ 33 by omega)
    obtain rfl := hb.mpr ((hl.answers _ hasked .read _ 1 one_pos hsafe.1).mpr hsafe)
    rw [readChecks_succ hcheck]
    refine ⟨hasked', fun n => ?_⟩
    rw [show m + 1 + n = m + (n + 1) by omega, hscan, strlenFrom_succ (by omega), hcheck,
      Option.bind_some, if_pos rfl, if_neg hne, Option.map_map, range'_concat]
    simp [Function.comp_def]

theorem Live.scan_string (hl : Live profile h cageid vm base)
    (hk : IsString vm base h.mem addr len k) :
    ∃ vm', ReflTransGen (Asked profile) vm vm' ∧
      strlenFrom profile cageid addr len 0 h
        = some (some k, h.put cageid vm', List.range' addr (k + 1)) := by
  obtain ⟨hasked, hscan⟩ := hl.scan_plain fun i hi => ⟨hk.readable i hi.le, hk.plain i hi⟩
  have hsafe := hk.readable k le_rfl
  obtain ⟨hle, hend⟩ := hsafe.1
  have hfits := hl.fits
  obtain ⟨b, vm', hcheck, hasked', hb⟩ :=
    hl.exists_check hasked .read hle (show addr + k + 1 < base + 2 ^ 33 by omega)
  obtain rfl := hb.mpr ((hl.answers _ hasked .read _ 1 one_pos hsafe.1).mpr hsafe)
  obtain ⟨n, rfl⟩ := Nat.exists_eq_add_of_lt hk.lt
  refine ⟨vm', hasked', ?_⟩
  rw [show k + n + 1 = k + (n + 1) by omega, hscan, strlenFrom_succ (by omega), hcheck,
    bind_some, if_pos rfl, if_pos hk.nul, map_some, range'_concat]
  simp

/-- The scan gives up after `m` plain bytes: they are all it may read, or the next one is
refused. -/
structure GivesUp (profile : Profile) (vm : Vmmap M) (base : ℕ) (mem : Mem) (addr len m : ℕ) :
    Prop where
  le : m ≤ len
  plain : ∀ i < m, PlainByte vm base mem (addr + i)
  stop : m < len → ¬ Granted profile (readChecks profile vm addr m) .read (addr + m) 1

section

variable (hl : Live profile h cageid vm base) {srcaddr : ℕ}
include hl

theorem Live.scan_givesUp (hle : base ≤ addr) (hfar : addr + m + 1 < base + 2 ^ 33)
    (hm : GivesUp profile vm base h.mem addr len m) : ∃ vm', ReflTransGen (Asked profile) vm vm' ∧
      strlenFrom profile cageid addr len 0 h =
        some (none, h.put cageid vm', List.range' addr m) := by
  obtain ⟨hasked, hscan⟩ := hl.scan_plain hm.plain
  have hfits := hl.fits
  obtain ⟨n, rfl⟩ := Nat.exists_eq_add_of_le hm.le
  rw [hscan]
  cases n with
  | zero => exact ⟨_, hasked, by simp [strlenFrom]⟩
  | succ n =>
    obtain ⟨b, vm', hcheck, hasked', hb⟩ :=
      hl.exists_check hasked .read (hle.trans (Nat.le_add_right _ _)) hfar
    obtain rfl : b = false := Bool.eq_false_iff.mpr fun h => hm.stop (by omega) (hb.mp h)
    refine ⟨vm', hasked', ?_⟩
    rw [strlenFrom_succ (by omega), hcheck]
    simp

theorem Live.scan_past (hsrc : srcaddr < 2 ^ 32)
    (hp : ScansPast profile vm base h.mem srcaddr len) {r : Option ℕ × Host M × List ℕ}
    (hr : strlenFrom profile cageid (srcaddr + base) len 0 h = some r) : base + 2 ^ 32 ∈ r.2.2 := by
  obtain ⟨-, hscan⟩ := hl.scan_plain hp.plain
  have hlong := hp.long
  have hfits := hl.fits
  obtain ⟨n, rfl⟩ : ∃ n, len = 2 ^ 32 - srcaddr + (n + 1) := ⟨srcaddr + len - 2 ^ 32 - 1, by omega⟩
  have hedge : srcaddr + base + (2 ^ 32 - srcaddr) = base + 2 ^ 32 := by omega
  obtain ⟨vm', hcheck⟩ := hp.granted
  rw [hscan, strlenFrom_succ (by omega), hedge, hcheck, bind_some, if_pos rfl] at hr
  obtain ⟨q, hq, rfl⟩ := map_eq_some_iff.mp hr
  refine mem_append_right _ ?_
  split at hq
  · cases hq
    exact mem_singleton_self _
  · obtain ⟨q', -, rfl⟩ := map_eq_some_iff.mp hq
    exact mem_cons_self

/-- **A scan from inside the region** finds a string, gives up, or runs over the edge. -/
theorem Live.scan_cases (hsrc : srcaddr < 2 ^ 32) (len : ℕ) :
    (∃ k, IsString vm base h.mem (srcaddr + base) len k) ∨
      ScansPast profile vm base h.mem srcaddr len ∨
      ∃ m ≤ 2 ^ 32 - srcaddr, GivesUp profile vm base h.mem (srcaddr + base) len m := by
  classical
  -- the first byte that is not plain, if there is one before the end of the region
  have hex : ∃ m, m = min len (2 ^ 32 - srcaddr) ∨ ¬ PlainByte vm base h.mem (srcaddr + base + m) :=
    ⟨_, .inl rfl⟩
  obtain ⟨m, hm, hfirst⟩ : ∃ m, (m = min len (2 ^ 32 - srcaddr) ∨
      ¬ PlainByte vm base h.mem (srcaddr + base + m)) ∧ ∀ i < m, ¬ (i = min len (2 ^ 32 - srcaddr) ∨
        ¬ PlainByte vm base h.mem (srcaddr + base + i)) :=
    ⟨Nat.find hex, Nat.find_spec hex, fun _ => Nat.find_min hex⟩
  have hle : m ≤ min len (2 ^ 32 - srcaddr) := Nat.le_of_not_lt fun hlt => hfirst _ hlt (.inl rfl)
  have hplain : ∀ i < m, PlainByte vm base h.mem (srcaddr + base + i) := fun i hi =>
    not_not.mp fun hno => hfirst i hi (.inr hno)
  obtain ⟨hasked, -⟩ := hl.scan_plain hplain
  by_cases hgrant : m < len ∧ Granted profile (readChecks profile vm (srcaddr + base) m) .read
      (srcaddr + base + m) 1
  · rcases Nat.lt_or_ge m (2 ^ 32 - srcaddr) with hin | hout
    · -- inside, a granted byte that is not plain is a NUL
      have hsafe := (hl.answers _ hasked .read _ 1 one_pos ⟨by omega, by omega⟩).mp hgrant.2
      have hnot : ¬ PlainByte vm base h.mem (srcaddr + base + m) := by
        rcases hm with hm | hm
        · omega
        · exact hm
      refine .inl ⟨m, hgrant.1, fun i hi => ?_, fun i hi => (hplain i hi).2,
        not_not.mp fun hne => hnot ⟨hsafe, hne⟩⟩
      rcases Nat.lt_or_eq_of_le hi with hi | rfl
      · exact (hplain i hi).1
      · exact hsafe
    · obtain rfl : m = 2 ^ 32 - srcaddr := by omega
      have hedge : srcaddr + base + (2 ^ 32 - srcaddr) = base + 2 ^ 32 := by omega
      rw [hedge] at hgrant
      exact .inr (.inl ⟨by omega, hplain, hgrant.2⟩)
  · exact .inr (.inr ⟨m, by omega, by omega, hplain, fun hlt hg => hgrant ⟨hlt, hg⟩⟩)

theorem Live.not_isString (hm : GivesUp profile vm base h.mem addr len m)
    (hk : IsString vm base h.mem addr len k) : False := by
  rcases Nat.lt_or_ge k m with hlt | hge
  · exact (hm.plain k hlt).2 hk.nul
  · obtain ⟨hasked, -⟩ := hl.scan_plain hm.plain
    have hsafe := hk.readable m hge
    exact hm.stop (hge.trans_lt hk.lt) ((hl.answers _ hasked .read _ 1 one_pos hsafe.1).mpr hsafe)

end

end Scan

/-! ## Translate, check, copy -/

section Transfer

variable {profile : Profile} {h : Host M} {srcaddr srccage destaddr destcage srcBase dstBase n : ℕ}
  {src dst vm : Vmmap M}

/-- **The copy happens just when both checks grant their range.**  The map of the source is as the
scan has left it. -/
theorem transfer_cases
    (hb : Between profile h srccage destcage src dst srcBase dstBase srcaddr destaddr)
    (hn : n ≤ maxLinearMemorySize) (hasked : ReflTransGen (Asked profile) src vm) (reads : List ℕ) :
    (Granted profile vm .read (srcaddr + srcBase) n ∧
        Granted profile dst .rw (destaddr + dstBase) n ∧
        ∃ vmmaps, transfer profile (h.put srccage vm) srcaddr srccage destaddr destcage n reads
          = (copyNonoverlapping h.mem (srcaddr + srcBase) (destaddr + dstBase) n).map fun mem =>
            ⟨destaddr, ⟨vmmaps, mem⟩, reads ++ List.range' (srcaddr + srcBase) n,
              List.range' (destaddr + dstBase) n⟩) ∨
      (¬ (Granted profile vm .read (srcaddr + srcBase) n ∧
          Granted profile dst .rw (destaddr + dstBase) n) ∧
        ∃ h', h'.mem = h.mem ∧ transfer profile (h.put srccage vm) srcaddr srccage destaddr destcage
          n reads = some (abort h' reads)) := by
  obtain ⟨hs, hd, hne, -, hsrc, hdest⟩ := hb
  have hbase : vm.baseAddress = some srcBase := by rw [asked_eq_some hasked, hs.base_eq]
  have hsfits := hs.fits
  have hdfits := hd.fits
  have hspos := hs.base_pos
  have hdpos := hd.base_pos
  unfold maxLinearMemorySize at hn
  unfold transfer
  rw [ensureHostAddr_eq (update_self ..) hbase hs.base_pos hsrc,
    ensureHostAddr_eq (vmmaps_put_of_ne hne.symm hd.vmmap vm) hd.base_eq hd.base_pos hdest]
  rw [if_neg (by omega), check_put]
  obtain ⟨b, vm', hcheck, -, hgrant⟩ := hs.exists_check hasked .read
    (show srcBase ≤ srcaddr + srcBase by omega)
    (show srcaddr + srcBase + n < srcBase + 2 ^ 33 by omega)
  rw [hcheck, map_some, bind_some]
  cases b with
  | false =>
    exact .inr ⟨fun hg => Bool.false_ne_true (hgrant.mpr hg.1), h.put srccage vm', rfl, rfl⟩
  | true =>
    obtain ⟨b, dst', hcheck', -, hgrant'⟩ := hd.exists_check .refl .rw
      (show dstBase ≤ destaddr + dstBase by omega)
      (show destaddr + dstBase + n < dstBase + 2 ^ 33 by omega)
    dsimp only
    rw [check_eq .rw (vmmaps_put_of_ne hne.symm hd.vmmap vm'), hcheck', map_some,
      bind_some]
    cases b with
    | false =>
      exact .inr ⟨fun hg => Bool.false_ne_true (hgrant'.mpr hg.2),
        (h.put srccage vm').put destcage dst', rfl, rfl⟩
    | true =>
      have hover : ¬ (checkedAdd64 (srcaddr + srcBase) n = none ∨
          checkedAdd64 (destaddr + dstBase) n = none) := by
        unfold checkedAdd64
        rw [if_pos (by omega), if_pos (by omega)]
        simp
      dsimp only
      rw [if_neg hover]
      exact .inl ⟨hgrant.mp rfl, hgrant'.mp rfl, _, rfl⟩

variable {base addr len : ℕ} {mem : Mem}

theorem Live.granted {cageid : ℕ} {vm : Vmmap M} (hl : Live profile h cageid vm base)
    (hasked : ReflTransGen (Asked profile) vm vm') (access : Access)
    (hsafe : 0 < n → vm.SafeRange base access.prot addr n) : Granted profile vm' access addr n := by
  rcases Nat.eq_zero_or_pos n with rfl | hn
  · refine ⟨vm', ?_⟩
    rw [access.check_eq]
    exact if_pos rfl
  · exact (hl.answers _ hasked access _ n hn (hsafe hn).1).mpr (hsafe hn)

theorem IsString.unique {k' : ℕ} (hk : IsString vm base mem addr len k)
    (hk' : IsString vm base mem addr len k') : k = k' := by
  rcases Nat.lt_trichotomy k k' with hlt | heq | hlt
  · exact absurd hk.nul (hk'.plain k hlt)
  · exact heq
  · exact absurd hk'.nul (hk.plain k' hlt)

theorem ToCopy.unique {copytype n n' : ℕ} (hn : ToCopy vm base mem addr len copytype n)
    (hn' : ToCopy vm base mem addr len copytype n') : n = n' := by
  unfold ToCopy at hn hn'
  cases htype : CopyType.tryFrom copytype with
  | error =>
    rw [htype] at hn
    exact hn.elim
  | ok type =>
    rw [htype] at hn hn'
    cases type with
    | rawMemcpy => exact hn.trans hn'.symm
    | strncpy =>
      obtain ⟨k, hk, rfl⟩ := hn
      obtain ⟨k', hk', rfl⟩ := hn'
      rw [hk.unique hk']

theorem reads_transfer {reads : List ℕ}
    (hr : transfer profile h srcaddr srccage destaddr destcage n reads = some r) :
    ∀ a ∈ reads, a ∈ r.reads := by
  intro a ha
  unfold transfer at hr
  dsimp only at hr
  split at hr
  · cases hr
    exact ha
  · obtain ⟨⟨b, h'⟩, -, hr⟩ := bind_eq_some_iff.mp hr
    cases b with
    | false =>
      cases hr
      exact ha
    | true =>
      obtain ⟨⟨b, h''⟩, -, hr⟩ := bind_eq_some_iff.mp hr
      cases b with
      | false =>
        cases hr
        exact ha
      | true =>
        dsimp only at hr
        split at hr
        · cases hr
          exact ha
        · obtain ⟨mem, -, rfl⟩ := map_eq_some_iff.mp hr
          exact mem_append_left _ ha

theorem IsString.safeRange (hk : IsString vm base mem addr len k) :
    vm.SafeRange base Access.read.prot addr (k + 1) := by
  have hfirst := (hk.readable 0 (Nat.zero_le k)).1.1
  have hlast := (hk.readable k le_rfl).1.2
  refine ⟨⟨hfirst, hlast⟩, fun x hx hx' => ?_⟩
  exact (hk.readable (x - (addr - base)) (by omega)).2 x (by omega) (by omega)

theorem safeRange_byte {a : ℕ} {prot : BitVec 32} (hsafe : vm.SafeRange base prot addr len)
    (hle : addr ≤ a) (hlt : a < addr + len) : vm.SafeRange base prot a 1 := by
  obtain ⟨⟨hbase, hend⟩, hpages⟩ := hsafe
  refine ⟨⟨by omega, by omega⟩, fun x hx hx' => hpages x (by omega) (by omega)⟩

end Transfer

/-! ## All or nothing, unless over the edge -/

section Main

variable {profile : Profile} {h : Host M} {srcaddr srccage destaddr destcage srcBase dstBase : ℕ}
  {src dst vm : Vmmap M} {len copytype n : ℕ} {reads : List ℕ}
  (hb : Between profile h srccage destcage src dst srcBase dstBase srcaddr destaddr)

include hb

section

variable (hn : n ≤ maxLinearMemorySize) (hasked : ReflTransGen (Asked profile) src vm)
include hn hasked

/-- **A transfer that stays inside is all or nothing.** -/
theorem transfer_allOrNothing
    (hcopy : ToCopy src srcBase h.mem (srcaddr + srcBase) len copytype n)
    (hreads : ∀ a ∈ reads, src.SafeRange srcBase Access.read.prot a 1)
    (hin : Granted profile vm .read (srcaddr + srcBase) n →
      Granted profile dst .rw (destaddr + dstBase) n →
        srcaddr + n ≤ 2 ^ 32 ∧ destaddr + n ≤ 2 ^ 32) :
    ∃ r, transfer profile (h.put srccage vm) srcaddr srccage destaddr destcage n reads = some r ∧
      AllOrNothing src dst srcBase dstBase h.mem srcaddr destaddr len copytype r := by
  rcases transfer_cases hb hn hasked reads with ⟨hgs, hgd, vmmaps, heq⟩ | ⟨hno, h', hmem, heq⟩
  · obtain ⟨hsin, hdin⟩ := hin hgs hgd
    have hcopied : copyNonoverlapping h.mem (srcaddr + srcBase) (destaddr + dstBase) n
        = some (h.mem.blit (destaddr + dstBase) h.mem (srcaddr + srcBase) n) := by
      refine if_pos ?_
      rcases hb.apart with hapart | hapart
      · exact .inl (by omega)
      · exact .inr (by omega)
    rw [hcopied, map_some] at heq
    refine ⟨_, heq, .inr ⟨rfl, n, hcopy, rfl⟩, fun a ha => ?_, fun a ha => ?_⟩
    · rcases mem_append.mp ha with ha | ha
      · exact hreads a ha
      · obtain ⟨hle, hlt⟩ := mem_range'_1.mp ha
        refine safeRange_byte ?_ hle hlt
        exact (hb.src.answers _ hasked .read _ n (by omega) ⟨by omega, by omega⟩).mp hgs
    · obtain ⟨hle, hlt⟩ := mem_range'_1.mp ha
      refine safeRange_byte ?_ hle hlt
      exact (hb.dst.answers _ .refl .rw _ n (by omega) ⟨by omega, by omega⟩).mp hgd
  · refine ⟨_, heq, .inl ⟨rfl, hmem, fun n' hp => hno ?_⟩, hreads, nofun⟩
    obtain rfl := hcopy.unique hp.toCopy
    exact ⟨hb.src.granted hasked .read hp.readable, hb.dst.granted .refl .rw hp.writable⟩

/-- A transfer that is granted a range over an edge is not: it touches what is not the cages'. -/
theorem not_allOrNothing_transfer (hgs : Granted profile vm .read (srcaddr + srcBase) n)
    (hgd : Granted profile dst .rw (destaddr + dstBase) n)
    (hout : 2 ^ 32 < srcaddr + n ∨ 2 ^ 32 < destaddr + n)
    (hr : transfer profile (h.put srccage vm) srcaddr srccage destaddr destcage n reads = some r) :
    ¬ AllOrNothing src dst srcBase dstBase h.mem srcaddr destaddr len copytype r := by
  have hsrc := hb.src_lt
  have hdest := hb.dest_lt
  rcases transfer_cases hb hn hasked reads with ⟨-, -, vmmaps, heq⟩ | ⟨hno, -⟩
  · rw [hr] at heq
    obtain ⟨mem, -, rfl⟩ := map_eq_some_iff.mp heq.symm
    intro hall
    rcases hout with hout | hout
    · have hmem : srcBase + 2 ^ 32 ∈ reads ++ range' (srcaddr + srcBase) n :=
        mem_append_right _ (mem_range'_1.mpr ⟨by omega, by omega⟩)
      have hsafe := (hall.reads _ hmem).1.2
      omega
    · have hmem : dstBase + 2 ^ 32 ∈ range' (destaddr + dstBase) n :=
        mem_range'_1.mpr ⟨by omega, by omega⟩
      have hsafe := (hall.writes _ hmem).1.2
      omega
  · exact absurd ⟨hgs, hgd⟩ hno

end

omit hb in
/-- A failure that nothing could have prevented, and that has read only what it may, is all or
nothing. -/
theorem allOrNothing_abort {h' : Host M} (hmem : h'.mem = h.mem)
    (hno : ∀ n, ¬ Proper src dst srcBase dstBase h.mem srcaddr destaddr len copytype n)
    (hreads : ∀ a ∈ reads, src.SafeRange srcBase Access.read.prot a 1) :
    AllOrNothing src dst srcBase dstBase h.mem srcaddr destaddr len copytype (abort h' reads) :=
  ⟨.inl ⟨rfl, hmem, hno⟩, hreads, nofun⟩

theorem raw_allOrNothing_iff (hlen : len ≤ maxLinearMemorySize)
    (hraw : CopyType.tryFrom copytype = .ok .rawMemcpy) :
    (∃ r, transfer profile h srcaddr srccage destaddr destcage len [] = some r ∧
        AllOrNothing src dst srcBase dstBase h.mem srcaddr destaddr len copytype r) ↔
      ¬ (Granted profile src .read (srcaddr + srcBase) len ∧
          Granted profile dst .rw (destaddr + dstBase) len ∧
          (2 ^ 32 < srcaddr + len ∨ 2 ^ 32 < destaddr + len)) := by
  have hself : h.put srccage src = h := put_self hb.src.vmmap
  constructor
  · rintro ⟨r, hr, hall⟩ ⟨hgs, hgd, hout⟩
    rw [← hself] at hr
    exact not_allOrNothing_transfer hb hlen .refl hgs hgd hout hr hall
  · intro hno
    have hcopy : ToCopy src srcBase h.mem (srcaddr + srcBase) len copytype len := by
      rw [ToCopy, hraw]
    rw [← hself]
    refine transfer_allOrNothing hb hlen .refl hcopy nofun fun hgs hgd => ?_
    by_contra hout
    exact hno ⟨hgs, hgd, by omega⟩

/-- What becomes of a scan from the source address: a failure, or a transfer of what it has found
and the NUL. -/
def afterScan (profile : Profile) (srcaddr srccage destaddr destcage : ℕ)
    (r : Option ℕ × Host M × List ℕ) : Option (Reply M) :=
  match (r.1.map (· + 1), r.2) with
  | (none, h, reads) => some (abort h reads)
  | (some n, h, reads) => transfer profile h srcaddr srccage destaddr destcage n reads

theorem not_allOrNothing_scansPast (hpast : ScansPast profile src srcBase h.mem srcaddr len)
    {q : Option ℕ × Host M × List ℕ}
    (hscan : strlenFrom profile srccage (srcaddr + srcBase) len 0 h = some q)
    (hr : afterScan profile srcaddr srccage destaddr destcage q = some r) :
    ¬ AllOrNothing src dst srcBase dstBase h.mem srcaddr destaddr len copytype r := by
  intro hall
  have hread : srcBase + 2 ^ 32 ∈ r.reads := by
    have hmem := hb.src.scan_past hb.src_lt hpast hscan
    obtain ⟨k, h', reads⟩ := q
    cases k with
    | none =>
      cases hr
      exact hmem
    | some k => exact reads_transfer hr _ hmem
  have hsafe := (hall.reads _ hread).1.2
  omega

section

variable (hstr : CopyType.tryFrom copytype = .ok .strncpy)
include hstr

/-- A string that is found is copied whole, or for a reason not at all. -/
theorem string_allOrNothing (hlen : len ≤ maxLinearMemorySize)
    (hk : IsString src srcBase h.mem (srcaddr + srcBase) len k)
    (hin : Granted profile dst .rw (destaddr + dstBase) (k + 1) → destaddr + (k + 1) ≤ 2 ^ 32) :
    ∃ r, (strlenFrom profile srccage (srcaddr + srcBase) len 0 h).bind
        (afterScan profile srcaddr srccage destaddr destcage) = some r ∧
      AllOrNothing src dst srcBase dstBase h.mem srcaddr destaddr len copytype r := by
  obtain ⟨vm', hasked, hscan⟩ := hb.src.scan_string hk
  rw [hscan, bind_some]
  dsimp only [afterScan, map_some]
  have hend := hk.safeRange.1.2
  have hcopy : ToCopy src srcBase h.mem (srcaddr + srcBase) len copytype (k + 1) := by
    rw [ToCopy, hstr]
    exact ⟨k, hk, rfl⟩
  refine transfer_allOrNothing hb (Nat.le_trans hk.lt hlen) hasked hcopy (fun a ha => ?_)
    fun _ hgd => ⟨by omega, hin hgd⟩
  obtain ⟨hle, hlt⟩ := mem_range'_1.mp ha
  exact safeRange_byte hk.safeRange hle hlt

theorem givesUp_allOrNothing {m : ℕ} (hm : srcaddr + m ≤ 2 ^ 32)
    (hstop : GivesUp profile src srcBase h.mem (srcaddr + srcBase) len m) :
    ∃ r, (strlenFrom profile srccage (srcaddr + srcBase) len 0 h).bind
        (afterScan profile srcaddr srccage destaddr destcage) = some r ∧
      AllOrNothing src dst srcBase dstBase h.mem srcaddr destaddr len copytype r := by
  obtain ⟨vm', -, hscan⟩ := hb.src.scan_givesUp (Nat.le_add_left _ _) (by omega) hstop
  rw [hscan, bind_some]
  refine ⟨_, rfl, allOrNothing_abort rfl (fun n hp => ?_) fun a ha => ?_⟩
  · have hcopy := hp.toCopy
    rw [ToCopy, hstr] at hcopy
    obtain ⟨k, hk, -⟩ := hcopy
    exact hb.src.not_isString hstop hk
  · obtain ⟨hle, hlt⟩ := mem_range'_1.mp ha
    have hplain := hstop.plain (a - (srcaddr + srcBase)) (by omega)
    rw [Nat.add_sub_cancel' hle] at hplain
    exact hplain.1

theorem string_allOrNothing_iff (hlen : len ≤ maxLinearMemorySize) :
    (∃ r, (strlenFrom profile srccage (srcaddr + srcBase) len 0 h).bind
          (afterScan profile srcaddr srccage destaddr destcage) = some r ∧
        AllOrNothing src dst srcBase dstBase h.mem srcaddr destaddr len copytype r) ↔
      ¬ (ScansPast profile src srcBase h.mem srcaddr len ∨
          ∃ k, IsString src srcBase h.mem (srcaddr + srcBase) len k ∧
            Granted profile dst .rw (destaddr + dstBase) (k + 1) ∧
            2 ^ 32 < destaddr + (k + 1)) := by
  constructor
  · rintro ⟨r, hr, hall⟩ (hpast | ⟨k, hk, hgd, hout⟩)
    · obtain ⟨q, hscan, hr⟩ := bind_eq_some_iff.mp hr
      exact not_allOrNothing_scansPast hb hpast hscan hr hall
    · obtain ⟨vm', hasked, hscan⟩ := hb.src.scan_string hk
      rw [hscan, bind_some] at hr
      have hgs := (hb.src.answers _ hasked .read _ _ k.succ_pos hk.safeRange.1).mpr hk.safeRange
      exact not_allOrNothing_transfer hb (Nat.le_trans hk.lt hlen) hasked hgs hgd (.inr hout) hr
        hall
  · intro hno
    rcases hb.src.scan_cases hb.src_lt len with ⟨k, hk⟩ | hpast | ⟨m, hm, hstop⟩
    · refine string_allOrNothing hb hstr hlen hk fun hgd => ?_
      by_contra hout
      exact hno (.inr ⟨k, hk, hgd, by omega⟩)
    · exact absurd (.inl hpast) hno
    · have hsrc := hb.src_lt
      exact givesUp_allOrNothing hb hstr (by omega) hstop

end

omit hb in
/-- **All or nothing.**  Between two live cages, at guest addresses, the copy is all or nothing just
when no check lets it run over the edge of a region. -/
theorem copy_allOrNothing_iff (hs : Live profile h srccage src srcBase)
    (hd : Live profile h destcage dst dstBase) (hne : srccage ≠ destcage)
    (hapart : RegionsApart srcBase dstBase) (hsrc : srcaddr < 2 ^ 32) (hdest : destaddr < 2 ^ 32)
    (hdest0 : destaddr ≠ 0) (len copytype : ℕ) :
    (∃ r, copyDataBetweenCages profile h srcaddr srccage destaddr destcage len copytype = some r ∧
        AllOrNothing src dst srcBase dstBase h.mem srcaddr destaddr len copytype r) ↔
      ¬ Overruns profile src dst srcBase dstBase h.mem srcaddr destaddr len copytype := by
  have hb : Between profile h srccage destcage src dst srcBase dstBase srcaddr destaddr :=
    ⟨hs, hd, hne, hapart, hsrc, hdest⟩
  unfold copyDataBetweenCages Overruns
  rw [if_neg hne]
  rcases Nat.lt_or_ge maxLinearMemorySize len with hlong | hlen
  · rw [if_pos hlong]
    exact iff_of_true
      ⟨_, rfl, allOrNothing_abort rfl (fun n hp => absurd hp.len_le (by omega)) nofun⟩
      fun ho => absurd ho.1 (by omega)
  · rw [if_neg (Nat.not_lt_of_le hlen), if_neg hdest0, copyLen, and_iff_right hlen]
    cases htype : CopyType.tryFrom copytype with
    | error =>
      refine iff_of_true ⟨_, rfl, allOrNothing_abort rfl (fun n hp => ?_) nofun⟩ not_false
      have hcopy := hp.toCopy
      rwa [ToCopy, htype] at hcopy
    | ok type =>
      cases type with
      | rawMemcpy => exact raw_allOrNothing_iff hb hlen htype
      | strncpy =>
        by_cases hsrc0 : srcaddr = 0
        · rw [if_pos hsrc0]
          exact iff_of_true ⟨_, rfl,
            allOrNothing_abort rfl (fun n hp => hp.src_ne_zero htype hsrc0) nofun⟩
            fun ho => ho.1 hsrc0
        · have haddr := ensureHostAddr_eq hs.vmmap hs.base_eq hs.base_pos hsrc
          rw [if_neg hsrc0, strlenInCage, haddr, if_neg (by omega), and_iff_right hsrc0,
            bind_map]
          exact string_allOrNothing_iff hb htype hlen

end Main

/-! ## Two cages -/

/-- A host with one cage of one page at 16 GiB, and another one at 4 GiB. -/
def twoCages (vm : Vmmap (SortedList VmmapEntry)) (mem : Mem) : Host (SortedList VmmapEntry) where
  vmmaps
    | 1 => some (onePage.setBaseAddress (2 ^ 34))
    | 2 => some vm
    | _ => none
  mem

theorem live_firstCage (profile : Profile) (vm : Vmmap (SortedList VmmapEntry)) (mem : Mem) :
    Live profile (twoCages vm mem) 1 (onePage.setBaseAddress (2 ^ 34)) (2 ^ 34) where
  vmmap := rfl
  base_eq := rfl
  base_pos := by decide
  fits := by decide
  answers := Honest.answersInside
    ⟨⟨honest_onePage.key, honest_onePage.fits⟩, honest_onePage.allows⟩ rfl (by decide)

theorem live_secondCage (profile : Profile) {vm : Vmmap (SortedList VmmapEntry)} (mem : Mem)
    (hh : vm.Honest) (hb : vm.baseAddress = some (2 ^ 32)) :
    Live profile (twoCages vm mem) 2 vm (2 ^ 32) where
  vmmap := rfl
  base_eq := hb
  base_pos := by decide
  fits := by decide
  answers := hh.answersInside hb (by decide)

/-- A string of two bytes at address 5 of the first cage. -/
def twoLetters : Mem := fun a => if a = 2 ^ 34 + 5 ∨ a = 2 ^ 34 + 6 then 97 else 0

/-- The string and its NUL are copied, and nothing else is. -/
theorem copy_allOrNothing_twoLetters :
    (copyDataBetweenCages .release (twoCages onePage twoLetters) 5 1 8 2 10 1).map
        (fun r => (r.ret, r.reads, r.writes))
      = some (8, [2 ^ 34 + 5, 2 ^ 34 + 6, 2 ^ 34 + 7, 2 ^ 34 + 5, 2 ^ 34 + 6, 2 ^ 34 + 7],
          [2 ^ 32 + 8, 2 ^ 32 + 9, 2 ^ 32 + 10]) ∧
      ∃ r, copyDataBetweenCages .release (twoCages onePage twoLetters) 5 1 8 2 10 1 = some r ∧
        AllOrNothing (onePage.setBaseAddress (2 ^ 34)) onePage (2 ^ 34) (2 ^ 32) twoLetters 5 8 10 1
          r := by
  refine ⟨by decide +kernel, (copy_allOrNothing_iff (live_firstCage .release onePage twoLetters)
    (live_secondCage .release twoLetters honest_onePage rfl) (by decide) (.inr (by decide))
    (by decide) (by decide) (by decide) 10 1).mpr ?_⟩
  rintro ⟨-, -, hpast | ⟨k, hk, -, hout⟩⟩
  · exact absurd hpast.long (by decide)
  · have hlt := hk.lt
    omega

/-- A cage after a `brk` that was refused and an `mmap` of all that is left of its memory. -/
def pastCage : Option (Memory.State (SortedList VmmapEntry)) :=
  runSteps Memory.step (Memory.State.fresh Memory.sampleRegion 256 2 fun _ => none)
    [.brk 0x80000000, .mmap 0x100000 0xFFF00000 3 50 (-1) 0 ⟨none, 0⟩]

/-- Its map. -/
def pastMap : Vmmap (SortedList VmmapEntry) := (pastCage.map Memory.State.vm).getD new

theorem honest_pastMap : pastMap.Honest := by
  let start : Vmmap (SortedList VmmapEntry) :=
    { new with baseAddress := some (2 ^ 32), heapStart := 256 }
  have hstart : start.Honest :=
    ⟨⟨honest_new.key, honest_new.fits⟩, honest_new.allows⟩
  -- what the two calls do to the map
  let ops : List Vmmap.Op :=
    [.addEntryWithOverwrite 256 4294442752 3 3 50 .anonymous 0 0 2,
      .addEntryWithOverwrite 256 0xFFF00 3 3 50 .anonymous 0 0xFFF00000 2]
  have hok : StepsOk Vmmap.step KeepsRights start ops := by decide +kernel
  exact inv_of_stepsOk (fun _ _ _ hh hok h => hh.step hok h) hstart hok
    (show runSteps Vmmap.step start ops = some pastMap by rfl)

/-- **A copy runs over the edge.**  The refused `brk` has left its heap in the map, far past the
region; every page inside is what the `mmap` says.  A copy of 32 bytes to the last 16 of the region
is granted and done. -/
theorem not_allOrNothing_pastEdge :
    Live .release (twoCages pastMap twoLetters) 1 (onePage.setBaseAddress (2 ^ 34)) (2 ^ 34) ∧
      Live .release (twoCages pastMap twoLetters) 2 pastMap (2 ^ 32) ∧
      (copyDataBetweenCages .release (twoCages pastMap twoLetters) 5 1 0xFFFFFFF0 2 32 0).map
        Reply.ret = some 0xFFFFFFF0 ∧
      ¬ ∃ r, copyDataBetweenCages .release (twoCages pastMap twoLetters) 5 1 0xFFFFFFF0 2 32 0
          = some r ∧
        AllOrNothing (onePage.setBaseAddress (2 ^ 34)) pastMap (2 ^ 34) (2 ^ 32) twoLetters 5
          0xFFFFFFF0 32 0 r := by
  have hwrites : (copyDataBetweenCages .release (twoCages pastMap twoLetters) 5 1 0xFFFFFFF0 2 32
      0).map (fun r => decide (2 ^ 32 + 2 ^ 32 ∈ r.writes)) = some true := by decide +kernel
  refine ⟨live_firstCage .release pastMap twoLetters,
    live_secondCage .release twoLetters honest_pastMap rfl, by decide +kernel, ?_⟩
  rintro ⟨r, hr, hall⟩
  rw [hr, map_some, some_inj, decide_eq_true_eq] at hwrites
  exact absurd (hall.writes _ hwrites).1.2 (by decide)

end LindWasm.Threei
