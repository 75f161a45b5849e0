import LindWasm.Memory.Basic

/-!
# Memory/Refusing — the syscalls over a host that may refuse

    granted   the host's answer to the call (for `munmap`: how many of its calls succeed)

Where the host refuses, a syscall returns what `errno` says, in the state it has reached: `mmap` and
`mprotect` have changed nothing yet, `munmap` has taken some pages away on the host, `brk` has moved
the heap's entry already. With every call granted these are the syscalls of `Memory/Basic`
(`mmapIf_true` and its companions).
-/

namespace LindWasm.Memory

open IntervalMap

variable {M : Type*}

/-! ## `mmap` -/

section Syscalls

variable [IntervalMap M VmmapEntry]

/-- The mapping itself; refused, it ends before the vmmap changes. -/
def mapAtIf (granted : Bool) (s : State M) (useraddr sysaddr len roundedLength : ℕ)
    (prot flags fildes : BitVec 32) (off : BitVec 64) (fd : FdView) : Outcome M :=
  if granted then mapAt s useraddr sysaddr len roundedLength prot flags fildes off fd
  else some (.error (.errno "mmap"), s)

/-- `mmap_syscall`. -/
def mmapIf (granted : Bool) (s : State M) (addr len : BitVec 64) (prot flags fildes : BitVec 32)
    (off : BitVec 64) (fd : FdView) : Outcome M :=
  if flags &&& mapHugetlb ≠ 0 then refuse s .EINVAL "mmap" "MAP_HUGETLB not supported"
  else if roundUpPage addr.toNat ≠ addr.toNat then
    refuse s .EINVAL "mmap" "address it not aligned"
  else if off.toInt < 0 then refuse s .EINVAL "mmap" "offset cannot be negative"
  else if roundUpPage off.toNat ≠ off.toNat then refuse s .EINVAL "mmap" "offset it not aligned"
  else
    let roundedLength := roundUpPage len.toNat
    (mapAddress s addr.toNat flags roundedLength).bind fun
      | none => refuse s .ENOMEM "mmap" "no memory"
      | some useraddr =>
        if 2 ^ 32 < (useraddr + roundedLength) % 2 ^ 64 then
          refuse s .EINVAL "mmap" "address range overflows 32-bit space"
        else
          let flags := flags ||| mapFixed
          if flags &&& mapPrivate = 0 ↔ flags &&& mapShared = 0 then
            refuse s .EINVAL "mmap" "invalid flags"
          else
            (s.vm.userToSys useraddr).bind fun sysaddr =>
              if roundedLength = 0 then answer s useraddr
              else mapAtIf granted s useraddr sysaddr len.toNat roundedLength prot flags fildes off
                fd

/-- The user address of a mapping that passes the checks of `mmap`. -/
def mapsAt (s : State M) (addr len : BitVec 64) (flags : BitVec 32) (off : BitVec 64) : Option ℕ :=
  if flags &&& mapHugetlb ≠ 0 ∨ roundUpPage addr.toNat ≠ addr.toNat ∨ off.toInt < 0 ∨
      roundUpPage off.toNat ≠ off.toNat then none
  else
    (mapAddress s addr.toNat flags (roundUpPage len.toNat)).join.filter fun useraddr =>
      (useraddr + roundUpPage len.toNat) % 2 ^ 64 ≤ 2 ^ 32 ∧
        ¬ ((flags ||| mapFixed) &&& mapPrivate = 0 ↔ (flags ||| mapFixed) &&& mapShared = 0)

/-! ## `munmap` -/

/-- The host calls of an unmap up to the first that is refused, and whether none was. -/
def unmapSome (vm : Vmmap M) : ℕ → Host → List (ℕ × ℕ) → Option (Host × Bool)
  | _, host, [] => some (host, true)
  | granted, host, x :: ranges =>
    (vm.userToSys (x.1 * pageSize % 2 ^ 32)).bind fun sysaddr =>
      match granted with
      | 0 => some (host, false)
      | n + 1 =>
        unmapSome vm n (host.map (sysaddr / pageSize) (x.2 - x.1) protNone none) ranges

/-- `munmap_syscall`. -/
def munmapIf (granted : ℕ) (s : State M) (addr len : BitVec 64) : Outcome M :=
  if len = 0 then refuse s .EINVAL "munmap" "length cannot be zero"
  else if roundUpPage addr.toNat ≠ addr.toNat then
    refuse s .EINVAL "munmap" "address it not aligned"
  else
    (s.vm.sysToUser addr.toNat).bind fun useraddr =>
      let reqStart := useraddr / pageSize
      let pageCount := roundUpPage len.toNat / pageSize % 2 ^ 32
      match checkedAdd32 reqStart pageCount with
      | none => refuse s .EINVAL "munmap" "address range overflows 32-bit space"
      | some reqEnd =>
        (unmapSome s.vm granted s.host (s.vm.findUnmappableRanges reqStart reqEnd)).bind fun
          | (host, false) => some (.error (.errno "munmap"), { s with host := host })
          | (host, true) =>
            let vm := s.vm.orKeep (s.vm.removeEntry reqStart (reqEnd - reqStart))
            answer { s with vm := vm, host := host } 0

/-! ## `mprotect` -/

/-- `mprotect_syscall`. -/
def mprotectIf (granted : Bool) (s : State M) (addr len : BitVec 64) (prot : BitVec 32) :
    Outcome M :=
  if prot &&& ~~~(protRead ||| protWrite ||| protExec ||| protNone) ≠ 0 then
    refuse s .EINVAL "mprotect" "Invalid protection flags"
  else if prot &&& protExec ≠ 0 then refuse s .EINVAL "mprotect" "PROT_EXEC is not allowed"
  else if granted then mprotect s addr len prot
  else some (.error (.errno "mprotect"), s)

/-! ## `brk` -/

/-- `brk_syscall`. -/
def brkIf (granted : Bool) (s : State M) (newBrk : BitVec 32) : Outcome M :=
  let heap := heapEntry s
  if heap.pageNum ≠ s.vm.heapStart then none
  else if newBrk = 0 then answer s (pageSize * oldBrkPage s)
  else if brkPage newBrk < s.vm.heapStart then refuse s .ENOMEM "brk" "no memory"
  else
    let taken := if oldBrkPage s < brkPage newBrk then
        s.vm.checkExistingMapping (oldBrkPage s) (brkPage newBrk - oldBrkPage s) 0
      else some false
    taken.bind fun
      | true => refuse s .ENOMEM "brk" "no memory"
      | false =>
        let s' := { s with vm := resizeHeap s (brkPage newBrk) }
        if u32Max < oldBrkPage s * pageSize ∨ u32Max < brkPage newBrk * pageSize then
          refuse s' .ENOMEM "brk" "heap end address overflows 32-bit space"
        else
          (moveBreak s' (oldBrkPage s) (brkPage newBrk) heap).bind fun s'' =>
            -- refused, the host keeps its pages; the vmmap has the new heap
            if granted = false ∧ oldBrkPage s ≠ brkPage newBrk then
              some (.error (.errno "brk"), s')
            else answer s'' (pageSize * brkPage newBrk)

/-! ## Every call granted -/

variable (s : State M)

variable (addr len : BitVec 64) (prot : BitVec 32)

theorem mmapIf_true (flags fildes : BitVec 32) (off : BitVec 64) (fd : FdView) :
    mmapIf true s addr len prot flags fildes off fd
      = mmap s addr len prot flags fildes off fd := rfl

theorem mprotectIf_true : mprotectIf true s addr len prot = mprotect s addr len prot := by
  unfold mprotectIf
  split
  · unfold mprotect
    rw [if_pos ‹_›]
  · split
    · unfold mprotect
      rw [if_neg ‹_›, if_pos ‹_›]
    · rfl

theorem brkIf_true (newBrk : BitVec 32) : brkIf true s newBrk = brk s newBrk := rfl

omit [IntervalMap M VmmapEntry] in
theorem unmapSome_all (vm : Vmmap M) {granted : ℕ} (host : Host) (ranges : List (ℕ × ℕ))
    (h : ranges.length ≤ granted) :
    unmapSome vm granted host ranges = (unmapRanges vm host ranges).map (·, true) := by
  induction ranges generalizing granted host with
  | nil => simp [unmapSome, unmapRanges]
  | cons x ranges ih =>
    obtain ⟨n, rfl⟩ : ∃ n, granted = n + 1 := ⟨granted - 1, by simp at h; omega⟩
    unfold unmapSome unmapRanges
    rw [List.foldlM_cons]
    cases vm.userToSys (x.1 * pageSize % 2 ^ 32) with
    | none => rfl
    | some sysaddr => exact ih _ (by simpa using h)

theorem munmapIf_all {granted : ℕ}
    (h : ∀ reqStart reqEnd, (s.vm.findUnmappableRanges reqStart reqEnd).length ≤ granted) :
    munmapIf granted s addr len = munmap s addr len := by
  unfold munmapIf munmap
  simp only [unmapSome_all _ _ _ (h _ _), Option.bind_map]
  rfl

end Syscalls

end LindWasm.Memory
