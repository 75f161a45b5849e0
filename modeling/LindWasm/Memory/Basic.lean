import LindWasm.Vmmap.Place
import Mathlib.Data.BitVec

/-!
# Memory/Basic — the memory syscalls of one cage

    syscall -->  vmmap of the cage        (what the runtime believes)
           └-->  pages of the host        (what the hardware enforces)

Six syscalls change a cage's memory, each by one or more host calls and one or more updates of the
vmmap, in an order of its own and with early returns in between. A host call is assumed to succeed
and to change exactly the pages it names; a panic of the runtime is `none`.
-/

namespace LindWasm.Memory

open IntervalMap List

/-! ## Constants and rounding -/

def mapShared : BitVec 32 := 1
def mapPrivate : BitVec 32 := 2
def mapFixed : BitVec 32 := 16
def mapAnonymous : BitVec 32 := 32
def mapHugetlb : BitVec 32 := 262144
def shmRdonly : BitVec 32 := 0o10000

/-- Up to a multiple of the page size, in 64 bits. -/
def roundUpPage (length : ℕ) : ℕ :=
  if length % pageSize = 0 then length else ((length / pageSize + 1) * pageSize) % 2 ^ 64

/-! ## The host -/

/-- What a shared page is a page of. -/
inductive MemObject where
  | anonymous (id : ℕ)
  | file (id : ℕ)
  | segment (shmid : BitVec 32)
  deriving DecidableEq

/-- A page of the host: its protection and, if it is mapped shared, the object and the page of the
object it shows. -/
structure HostPage where
  prot : BitVec 32
  shared : Option (MemObject × ℕ)
  deriving DecidableEq

/-- The pages of the host, by number. -/
abbrev Host := ℕ → HostPage

namespace Host

/-- `mmap` with `MAP_FIXED` over `npages` pages. -/
def map (h : Host) (page npages : ℕ) (prot : BitVec 32) (object : Option (MemObject × ℕ)) : Host :=
  fun p => if page ≤ p ∧ p < page + npages then
      ⟨prot, object.map fun o => (o.1, o.2 + (p - page))⟩
    else h p

/-- `mprotect` over `npages` pages. -/
def protect (h : Host) (page npages : ℕ) (prot : BitVec 32) : Host :=
  fun p => if page ≤ p ∧ p < page + npages then { h p with prot := prot } else h p

end Host

/-! ## System V segments -/

/-- A System V segment. `shmget` rounds its size to pages, and its backing file has that length. -/
structure ShmSegment where
  size : ℕ
  size_aligned : size % pageSize = 0
  size_lt : size < 2 ^ 63
  nattch : ℕ
  rmid : Bool
  /-- How often each cage has it attached, 0 where the table has no entry. -/
  attachedCages : ℕ → ℕ

namespace ShmSegment

/-- The counters after one more attachment. -/
def attach (segment : ShmSegment) (cageid : ℕ) : ShmSegment :=
  { segment with
    nattch := (segment.nattch + 1) % 2 ^ 32
    attachedCages := Function.update segment.attachedCages cageid
      (segment.attachedCages cageid + 1) }

/-- The counters after one detachment; panics if the cage is not attached. -/
def detach (segment : ShmSegment) (cageid : ℕ) : Option ShmSegment :=
  if segment.attachedCages cageid = 0 then none
  else some
    { segment with
      nattch := (segment.nattch + (2 ^ 32 - 1)) % 2 ^ 32
      attachedCages := Function.update segment.attachedCages cageid
        (segment.attachedCages cageid - 1) }

end ShmSegment

/-! ## States, answers, refusals -/

/-- A cage's memory: its map, the host's pages, the segment table and the cage's attachments. -/
structure State (M : Type*) where
  vm : Vmmap M
  host : Host
  shmtable : BitVec 32 → Option ShmSegment
  /-- Host address and id of every attached segment. -/
  revShm : List (ℕ × BitVec 32)
  /-- The next anonymous object the host makes. -/
  nextObject : ℕ
  cageId : ℕ

inductive Errno where
  | EINVAL
  | ENOMEM
  deriving DecidableEq

/-- Why a syscall fails. -/
inductive SyscallError where
  | refused (errno : Errno) (syscall message : String)
  /-- Whatever `errno` holds at that moment. -/
  | errno (syscall : String)
  deriving DecidableEq

/-- What a syscall returns, with the state it leaves; `none` when it panics. -/
abbrev Outcome (M : Type*) := Option (Except SyscallError (BitVec 32) × State M)

/-- What the descriptor table and `F_GETFL` answer for the descriptor of an `mmap`. -/
structure FdView where
  file : Option ℕ
  getfl : BitVec 32
  deriving DecidableEq

variable {M : Type*}

/-- Fail, in the state reached so far. -/
def refuse (s : State M) (errno : Errno) (syscall message : String) : Outcome M :=
  some (.error (.refused errno syscall message), s)

/-- Return an address. -/
def answer (s : State M) (address : ℕ) : Outcome M := some (.ok (BitVec.ofNat 32 address), s)

/-! ## `mmap` -/

/-- The object a mapping with these flags shows, from byte `off` on. -/
def mapObject (s : State M) (flags : BitVec 32) (file : Option ℕ) (off : ℕ) :
    Option (MemObject × ℕ) :=
  if flags &&& mapShared = 0 then none
  else
    match file with
    | some f => some (.file f, off / pageSize)
    | none => some (.anonymous s.nextObject, 0)

/-- The host's `mmap` behind the descriptor translation; `none` if the descriptor is bad. -/
def mmapInner (s : State M) (addr len : ℕ) (prot flags vfd : BitVec 32) (off : ℕ)
    (fd : FdView) : Option (State M) :=
  (if vfd = -1 then some none else fd.file.map some).map fun file =>
    { s with
      host := s.host.map (addr / pageSize) (len / pageSize) prot (mapObject s flags file off)
      nextObject := s.nextObject + 1 }

variable [IntervalMap M VmmapEntry]

/-- The user address of a mapping: the one asked for if it is fixed, else free space at or above
it. The outer `none` is a panic. -/
def mapAddress (s : State M) (addr : ℕ) (flags : BitVec 32) (roundedLength : ℕ) :
    Option (Option ℕ) :=
  let useraddr := addr % 2 ^ 32
  if flags &&& mapFixed = 0 then
    let numPages := roundedLength / pageSize % 2 ^ 32
    let result := if useraddr = 0 then s.vm.findMapSpace numPages 1
      else s.vm.findMapSpaceWithHint numPages 1 (useraddr / pageSize)
    result.map fun space => space.map fun i => i.start * pageSize % 2 ^ 32
  else some (some useraddr)

/-- The vmmap's entry of a mapping; a refused one is dropped in silence. -/
def addMapping (s : State M) (useraddr len roundedLength : ℕ) (prot maxprot flags : BitVec 32)
    (backing : MemoryBackingType) (off : BitVec 64) : State M :=
  { s with
    vm := s.vm.orKeep (s.vm.addEntryWithOverwrite (useraddr / pageSize)
      (roundedLength / pageSize % 2 ^ 32) prot maxprot flags backing off.toInt
      (BitVec.ofNat 64 len).toInt s.cageId) }

/-- The mapping itself, at an address that passed the checks. -/
def mapAt (s : State M) (useraddr sysaddr len roundedLength : ℕ)
    (prot flags fildes : BitVec 32) (off : BitVec 64) (fd : FdView) : Outcome M :=
  let anonymous : Prop := flags &&& mapAnonymous ≠ 0
  let fildes := if anonymous then -1 else fildes
  match mmapInner s sysaddr roundedLength prot flags fildes off.toNat fd with
  | none => some (.error (.errno "mmap"), s)
  | some s =>
    (s.vm.sysToUser sysaddr).bind fun result =>
      if result ≠ useraddr then none
      else if anonymous then
        answer (addMapping s useraddr len roundedLength prot (protRead ||| protWrite) flags
          .anonymous off) useraddr
      -- the host has the mapping by now, the vmmap never gets it
      else if fd.getfl.toInt < 0 then refuse s .EINVAL "mmap" "invalid file descriptor"
      else
        answer (addMapping s useraddr len roundedLength prot
          ((protRead ||| protWrite) &&& fd.getfl) flags
          (.fileDescriptor (fildes.signExtend 64).toNat) off) useraddr

/-- `mmap_syscall`. -/
def mmap (s : State M) (addr len : BitVec 64) (prot flags fildes : BitVec 32) (off : BitVec 64)
    (fd : FdView) : Outcome M :=
  if flags &&& mapHugetlb ≠ 0 then refuse s .EINVAL "mmap" "MAP_HUGETLB not supported"
  else if roundUpPage addr.toNat ≠ addr.toNat then
    refuse s .EINVAL "mmap" "address it not aligned"
  else if off.toInt < 0 then refuse s .EINVAL "mmap" "offset cannot be negative"
  else if roundUpPage off.toNat ≠ off.toNat then refuse s .EINVAL "mmap" "offset it not aligned"
  else
    let roundedLength := roundUpPage len.toNat
    (mapAddress s addr.toNat flags roundedLength).bind fun
      | none => refuse s .ENOMEM "mmap" "no memory"
      | some useraddr =>
        if 2 ^ 32 < (useraddr + roundedLength) % 2 ^ 64 then
          refuse s .EINVAL "mmap" "address range overflows 32-bit space"
        else
          let flags := flags ||| mapFixed
          if flags &&& mapPrivate = 0 ↔ flags &&& mapShared = 0 then
            refuse s .EINVAL "mmap" "invalid flags"
          else
            (s.vm.userToSys useraddr).bind fun sysaddr =>
              if roundedLength = 0 then answer s useraddr
              else mapAt s useraddr sysaddr len.toNat roundedLength prot flags fildes off fd

/-! ## `munmap` -/

/-- The host calls of an unmap, one per range. -/
def unmapRanges (vm : Vmmap M) (host : Host) (ranges : List (ℕ × ℕ)) : Option Host :=
  ranges.foldlM
    (fun host r => (vm.userToSys (r.1 * pageSize % 2 ^ 32)).map fun sysaddr =>
      host.map (sysaddr / pageSize) (r.2 - r.1) protNone none)
    host

/-- `munmap_syscall`. -/
def munmap (s : State M) (addr len : BitVec 64) : Outcome M :=
  if len = 0 then refuse s .EINVAL "munmap" "length cannot be zero"
  else if roundUpPage addr.toNat ≠ addr.toNat then
    refuse s .EINVAL "munmap" "address it not aligned"
  else
    (s.vm.sysToUser addr.toNat).bind fun useraddr =>
      let reqStart := useraddr / pageSize
      let pageCount := roundUpPage len.toNat / pageSize % 2 ^ 32
      match checkedAdd32 reqStart pageCount with
      | none => refuse s .EINVAL "munmap" "address range overflows 32-bit space"
      | some reqEnd =>
        (unmapRanges s.vm s.host (s.vm.findUnmappableRanges reqStart reqEnd)).bind fun host =>
          -- the whole request is removed, segments that were left alone on the host included
          let vm := s.vm.orKeep (s.vm.removeEntry reqStart (reqEnd - reqStart))
          answer { s with vm := vm, host := host } 0

/-! ## `mprotect` -/

/-- `mprotect_syscall`. -/
def mprotect (s : State M) (addr len : BitVec 64) (prot : BitVec 32) : Outcome M :=
  if prot &&& ~~~(protRead ||| protWrite ||| protExec ||| protNone) ≠ 0 then
    refuse s .EINVAL "mprotect" "Invalid protection flags"
  else if prot &&& protExec ≠ 0 then refuse s .EINVAL "mprotect" "PROT_EXEC is not allowed"
  else
    let roundedLength := roundUpPage len.toNat
    -- the host's own refusal
    if addr.toNat % pageSize ≠ 0 then refuse s .EINVAL "mprotect" "Invalid argument"
    else
      let s' := { s with
        host := s.host.protect (addr.toNat / pageSize) (roundedLength / pageSize) prot }
      if roundedLength = 0 then answer s' 0
      else
        (s.vm.sysToUser addr.toNat).bind fun userAddr =>
          (s.vm.changeProt (userAddr / pageSize) (roundedLength / pageSize % 2 ^ 32) prot).bind
            fun vm => answer { s' with vm := vm } 0

/-! ## `brk` -/

/-- The entry at the heap's first page, or an empty one. -/
def heapEntry (s : State M) : VmmapEntry :=
  (s.vm.findPage s.vm.heapStart).getD
    { pageNum := s.vm.heapStart
      npages := 0
      prot := protRead ||| protWrite
      maxprot := protRead ||| protWrite
      flags := mapPrivate ||| mapAnonymous ||| mapFixed
      removed := false
      fileOffset := 0
      fileSize := 0
      cageId := s.cageId
      backing := .anonymous }

/-- One past the last page the heap's entry says it maps. -/
def oldBrkPage (s : State M) : ℕ := ((heapEntry s).pageNum + (heapEntry s).npages) % 2 ^ 32

/-- The page of a new break, a signed 32-bit address. -/
def brkPage (brk : BitVec 32) : ℕ :=
  roundUpPage (brk.signExtend 64).toNat / pageSize % 2 ^ 32

/-- The map with the heap's entry ending at `newBrk`. -/
def resizeHeap (s : State M) (newBrk : ℕ) : Vmmap M :=
  let heap := heapEntry s
  let vm := s.vm.orKeep (s.vm.removeEntry heap.pageNum heap.npages)
  vm.orKeep (vm.addEntryWithOverwrite heap.pageNum (newBrk - heap.pageNum) heap.prot heap.maxprot
    heap.flags heap.backing heap.fileOffset heap.fileSize heap.cageId)

/-- The host calls of a moved break, after the vmmap has changed. -/
def moveBreak (s : State M) (oldBrk newBrk : ℕ) (heap : VmmapEntry) : Option (State M) :=
  (s.vm.userToSys (oldBrk * pageSize)).bind fun oldHeapEnd =>
    (s.vm.userToSys (newBrk * pageSize)).bind fun newHeapEnd =>
      if oldBrk < newBrk then
        mmapInner s oldHeapEnd ((newBrk - oldBrk) * pageSize % 2 ^ 32) heap.prot
          (heap.flags ||| mapFixed) (-1) 0 ⟨none, 0⟩
      else if newBrk < oldBrk then
        mmapInner s newHeapEnd ((oldBrk - newBrk) * pageSize % 2 ^ 32) protNone
          (mapPrivate ||| mapAnonymous ||| mapFixed) (-1) 0 ⟨none, 0⟩
      else some s

/-- `brk_syscall`. -/
def brk (s : State M) (newBrk : BitVec 32) : Outcome M :=
  let heap := heapEntry s
  if heap.pageNum ≠ s.vm.heapStart then none
  else if newBrk = 0 then answer s (pageSize * oldBrkPage s)
  else if brkPage newBrk < s.vm.heapStart then refuse s .ENOMEM "brk" "no memory"
  else
    let taken := if oldBrkPage s < brkPage newBrk then
        s.vm.checkExistingMapping (oldBrkPage s) (brkPage newBrk - oldBrkPage s) 0
      else some false
    taken.bind fun
      | true => refuse s .ENOMEM "brk" "no memory"
      | false =>
        let s' := { s with vm := resizeHeap s (brkPage newBrk) }
        -- too late: the vmmap has the new heap already
        if u32Max < oldBrkPage s * pageSize ∨ u32Max < brkPage newBrk * pageSize then
          refuse s' .ENOMEM "brk" "heap end address overflows 32-bit space"
        else
          (moveBreak s' (oldBrkPage s) (brkPage newBrk) heap).bind fun s' =>
            answer s' (pageSize * brkPage newBrk)

/-! ## `shmat` and `shmdt` -/

/-- The protection an attachment asks for. -/
def shmProt (shmflg : BitVec 32) : BitVec 32 :=
  if shmflg &&& shmRdonly ≠ 0 then protRead else protRead ||| protWrite

/-- Record the attachment and map the segment at `shmaddr`. -/
def shmatHelper (s : State M) (shmaddr : ℕ) (shmflg shmid : BitVec 32) (segment : ShmSegment) :
    State M :=
  { s with
    host := s.host.map (shmaddr / pageSize) (segment.size / pageSize) (shmProt shmflg)
      (some (.segment shmid, 0))
    shmtable := Function.update s.shmtable shmid (some (segment.attach s.cageId))
    revShm := s.revShm ++ [(shmaddr, shmid)] }

/-- `shmat_syscall`. -/
def shmat (s : State M) (shmid shmaddr shmflg : BitVec 32) : Outcome M :=
  match s.shmtable shmid with
  | none => refuse s .EINVAL "shmat" "invalid shmid"
  | some segment =>
    let useraddr := shmaddr.toNat
    let roundedLength := roundUpPage segment.size
    if roundUpPage useraddr ≠ useraddr then refuse s .EINVAL "shmat" "address is not aligned"
    else
      let result := if useraddr = 0 then
          s.vm.findMapSpace (roundedLength / pageSize % 2 ^ 32) 1
        else s.vm.findMapSpaceWithHint (roundedLength % 2 ^ 32 / pageSize) 1 (useraddr / pageSize)
      result.bind fun
        | none => refuse s .ENOMEM "shmat" "no memory"
        | some space =>
          let useraddr := space.start * pageSize % 2 ^ 32
          if 2 ^ 32 < (useraddr + roundedLength) % 2 ^ 64 then
            refuse s .EINVAL "shmat" "address range overflows 32-bit space"
          else
            (s.vm.userToSys useraddr).bind fun sysaddr =>
              let s := shmatHelper s sysaddr shmflg shmid segment
              (s.vm.sysToUser sysaddr).bind fun result =>
                if result ≠ useraddr then none
                else
                  match s.vm.addEntryWithOverwrite (useraddr / pageSize)
                    (roundedLength / pageSize % 2 ^ 32) (shmProt shmflg) (shmProt shmflg) 0
                    (.sharedMemory (shmid.signExtend 64).toNat) 0 segment.size s.cageId with
                  | .error _ => none
                  | .ok vm => answer { s with vm := vm } useraddr

/-- `Vec::swap_remove`: the last element takes the place of the removed one. -/
def swapRemove {α : Type*} (l : List α) (index : ℕ) : List α :=
  match l.getLast? with
  | none => l
  | some x => (l.set index x).dropLast

/-- …which is the removal up to order. -/
theorem swapRemove_perm {α : Type*} {l : List α} {index : ℕ} (h : index < l.length) :
    (swapRemove l index).Perm (l.eraseIdx index) := by
  rcases eq_nil_or_concat l with rfl | ⟨init, x, rfl⟩
  · exact absurd h (Nat.not_lt_zero _)
  · rw [concat_eq_append] at *
    rw [swapRemove, getLast?_concat]
    dsimp only
    rcases Nat.lt_or_ge index init.length with hlt | hge
    · rw [set_append_left _ _ hlt, eraseIdx_append_of_lt_length hlt, dropLast_concat]
      exact (set_perm_cons_eraseIdx hlt x).trans (perm_append_singleton x _).symm
    · obtain rfl : index = init.length := by simp at h; omega
      rw [eraseIdx_append_of_length_le le_rfl, set_append_right _ _ le_rfl]
      simp

theorem perm_cons_swapRemove {α : Type*} {l : List α} {index : ℕ} {x : α}
    (h : l[index]? = some x) : l.Perm (x :: swapRemove l index) := by
  obtain ⟨hlt, rfl⟩ := List.getElem?_eq_some_iff.mp h
  exact (List.getElem_cons_eraseIdx_perm hlt).symm.trans ((swapRemove_perm hlt).symm.cons _)

/-- Take the segment at `shmaddr` away from the host and from the tables; its length in bytes, as a
signed 32-bit number. -/
def shmdtHelper (s : State M) (shmaddr : ℕ) : Outcome M :=
  match s.revShm.findIdx? fun val => val.1 = shmaddr with
  | none => refuse s .EINVAL "shmdt" "No shared memory segment at shmaddr"
  | some index =>
    s.revShm[index]?.bind fun val =>
      (s.shmtable val.2).bind fun segment =>
        (segment.detach s.cageId).map fun segment' =>
          let rm : Prop := segment'.rmid = true ∧ segment'.nattch = 0
          (.ok (BitVec.ofNat 32 segment.size),
            { s with
              host := s.host.map (shmaddr / pageSize) (segment.size / pageSize) protNone none
              revShm := swapRemove s.revShm index
              shmtable := Function.update s.shmtable val.2 (if rm then none else some segment') })

/-- `shmdt_syscall`. -/
def shmdt (s : State M) (shmaddr : BitVec 64) : Outcome M :=
  if shmaddr.toNat % pageSize ≠ 0 then refuse s .EINVAL "shmdt" "address is not aligned"
  else
    (shmdtHelper s shmaddr.toNat).bind fun
      | (.error e, s) => some (.error e, s)
      | (.ok length, s) =>
        -- a length that does not fit in 31 bits is taken for an error
        if length.toInt < 0 then some (.ok length, s)
        else
          (s.vm.sysToUser shmaddr.toNat).bind fun useraddr =>
            match s.vm.removeEntry (useraddr / pageSize) (length.toNat / pageSize) with
            | .error _ => none
            | .ok vm => answer { s with vm := vm } 0

/-! ## Runs -/

/-- The memory syscalls, with the answers of the descriptor table an `mmap` meets. -/
inductive Syscall where
  | mmap (addr len : BitVec 64) (prot flags fildes : BitVec 32) (off : BitVec 64) (fd : FdView)
  | munmap (addr len : BitVec 64)
  | mprotect (addr len : BitVec 64) (prot : BitVec 32)
  | brk (newBrk : BitVec 32)
  | shmat (shmid shmaddr shmflg : BitVec 32)
  | shmdt (shmaddr : BitVec 64)

/-- One syscall, with what it returns. -/
def call (s : State M) : Syscall → Outcome M
  | .mmap addr len prot flags fildes off fd => mmap s addr len prot flags fildes off fd
  | .munmap addr len => munmap s addr len
  | .mprotect addr len prot => mprotect s addr len prot
  | .brk newBrk => brk s newBrk
  | .shmat shmid shmaddr shmflg => shmat s shmid shmaddr shmflg
  | .shmdt shmaddr => shmdt s shmaddr

/-- One syscall; `none` when it panics. -/
def step (s : State M) (c : Syscall) : Option (State M) := (call s c).map Prod.snd

/-! ## A new cage -/

/-- The reserved 4 GiB a cage's memory lives in. -/
structure Region where
  base : ℕ
  base_aligned : base % pageSize = 0
  fits : base + 2 ^ 32 ≤ 2 ^ 64

/-- The host's page behind page `q` of the cage. -/
def Region.page (r : Region) (q : ℕ) : ℕ := r.base / pageSize + q

/-- A cage with nothing mapped, beside whatever segments exist. -/
def State.fresh (r : Region) (heapStart : BitVec 32) (cageId : ℕ)
    (shmtable : BitVec 32 → Option ShmSegment) : State M :=
  { vm := { (Vmmap.new : Vmmap M) with
      baseAddress := some r.base
      heapStart := heapStart.toNat }
    host := fun _ => ⟨protNone, none⟩
    shmtable
    revShm := []
    nextObject := 0
    cageId }

end LindWasm.Memory
