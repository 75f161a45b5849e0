import LindWasm.FdTables.Bounds

/-!
# FdTables/Create — calls that open a kernel descriptor and then name it

    host opens --> get_unused_virtual_fd --> answer
                        │ table full
                        ▾
         open, openat: kernel fd left open     pipe, pipe2: kernel fds closed, first name kept
         dup, epoll_create, epoll_create1: unwrap

Each call is followed with a ledger of the kernel descriptors it has opened and not closed again.
`undone_create_iff` says when a call that fails leaves the tables and the ledger as they were, and
fails rather than panics on a full table.
-/

namespace LindWasm.FdTables

open Function Option List

/-! ## The calls -/

inductive CreateErrno where
  | EBADF
  | EFAULT
  | EINVAL
  | EMFILE
  | ENAMETOOLONG
  deriving DecidableEq

/-- What a call answers; `hostErrno` is a number passed through `handle_errno`. -/
inductive Created where
  | returned (ret : ℕ)
  | failed (errno : CreateErrno) (call message : String)
  | hostErrno (errno : ℤ) (call : String)
  deriving DecidableEq

/-- The answer, the tables after it, and the kernel descriptors opened by the call that are still
open. -/
abbrev CreateResult := Except Crash (Created × Tables × List ℕ)

/-- What the host answers: an errno, or what it opened. -/
abbrev HostAnswer (α : Type) := Except ℤ α

def oNonblock : BitVec 32 := 0o4000#32

def oCloexec : BitVec 32 := 0o2000000#32

def epollCloexec : BitVec 32 := 0o2000000#32

def atFdcwd : ℤ := -100

def ebadf : ℤ := 9

/-- The host fails, or what it opened is named. -/
def afterHost {α : Type} (call : String) (t : Tables) (host : HostAnswer α)
    (name : α → CreateResult) : CreateResult :=
  match host with
  | .error errno => .ok (.hostErrno errno call, t, [])
  | .ok opened => name opened

/-- The common end of `open` and `openat`. -/
def nameKernelFd (call : String) (t : Tables) (cageid kernelFd : ℕ) (oflag : BitVec 32) :
    CreateResult :=
  let shouldCloexec := oflag &&& oCloexec ≠ 0
  match getUnusedVirtualFd t.fds cageid fdkindKernel kernelFd shouldCloexec 0 with
  | .error p => .error (.table p)
  | .ok (.ok vfd, fds) => .ok (.returned vfd, { t with fds }, [kernelFd])
  | .ok (.error _, fds) =>
      .ok (.failed .EMFILE call "Too many files opened", { t with fds }, [kernelFd])

variable (t : Tables) (cageid : ℕ)

/-- `path` is what converting the path gives, `host` what `libc::open` answers. -/
def openSyscall (path : Except CreateErrno Unit) (oflag : BitVec 32)
    (host : HostAnswer ℕ) : CreateResult :=
  match path with
  | .error e => .ok (.failed e "open" "path conversion failed", t, [])
  | .ok () =>
      afterHost "open_syscall" t host fun kernelFd =>
        nameKernelFd "open_syscall" t cageid kernelFd oflag

def convertFdToHost (s : State) (cageid virtualFd : ℕ) : Except Panic ℤ :=
  match translateVirtualFd s cageid virtualFd with
  | .error p => .error p
  | .ok (.error _) => .ok (-ebadf)
  | .ok (.ok vfd) => .ok (asI32 vfd.underfd)

/-- `rawPath` tells whether the path as it stands is a C string. A negative descriptor is looked up
as the huge number it is as a `u64`. -/
def openatSyscall (dirfd : ℤ) (path : Except CreateErrno Unit)
    (rawPath : Bool) (oflag : BitVec 32) (host : HostAnswer ℕ) : CreateResult :=
  match path with
  | .error e => .ok (.failed e "open" "path conversion failed", t, [])
  | .ok () =>
      if dirfd = atFdcwd then openSyscall t cageid path oflag host
      else
        match convertFdToHost t.fds cageid (dirfd % 2 ^ 64).toNat with
        | .error p => .error (.table p)
        | .ok hostFd =>
            if hostFd < 0 then .ok (.hostErrno (-hostFd) "openat", t, [])
            else if rawPath = false then .ok (.failed .EINVAL "openat" "invalid path", t, [])
            else
              afterHost "openat_syscall" t host fun kernelFd =>
                nameKernelFd "openat_syscall" t cageid kernelFd oflag

/-- The two ends of a pipe are named one after the other; a failure closes both kernel ends. -/
def namePipe (call : String) (t : Tables) (cageid : ℕ) (kernelFds : ℕ × ℕ) (shouldCloexec : Bool) :
    CreateResult :=
  let closed : List ℕ := ([kernelFds.1, kernelFds.2].erase kernelFds.1).erase kernelFds.2
  match getUnusedVirtualFd t.fds cageid fdkindKernel kernelFds.1 shouldCloexec 0 with
  | .error p => .error (.table p)
  | .ok (.error _, fds) =>
      .ok (.failed .EMFILE call "Failed to get virtual file descriptor", { t with fds }, closed)
  | .ok (.ok _, fds) =>
      match getUnusedVirtualFd fds cageid fdkindKernel kernelFds.2 shouldCloexec 0 with
      | .error p => .error (.table p)
      | .ok (.error _, fds) =>
          .ok (.failed .EMFILE call "Failed to get virtual file descriptor", { t with fds }, closed)
      | .ok (.ok _, fds) => .ok (.returned 0, { t with fds }, [kernelFds.1, kernelFds.2])

/-- `addr` tells whether the array's address can be converted. -/
def pipeSyscall (addr : Bool) (host : HostAnswer (ℕ × ℕ)) :
    CreateResult :=
  if addr = false then .ok (.failed .EFAULT "pipe" "Invalid address", t, [])
  else
    afterHost "pipe_syscall" t host fun kernelFds =>
      namePipe "pipe_syscall" t cageid kernelFds false

def pipe2Syscall (addr : Bool) (flags : BitVec 32)
    (host : HostAnswer (ℕ × ℕ)) : CreateResult :=
  if flags &&& ~~~(oNonblock ||| oCloexec) ≠ 0 then
    .ok (.failed .EINVAL "pipe2_syscall" "Invalid flags", t, [])
  else if addr = false then .ok (.failed .EFAULT "pipe2" "Invalid address", t, [])
  else
    afterHost "pipe2_syscall" t host fun kernelFds =>
      namePipe "pipe2_syscall" t cageid kernelFds (flags &&& oCloexec ≠ 0)

/-- The answer of `libc::dup` as a `u64`; it is not looked at, and a failure is the number `-1`. -/
def dupNumber : HostAnswer ℕ → ℕ
  | .ok kernelFd => kernelFd
  | .error _ => 2 ^ 64 - 1

def dupSyscall (vfdArg : ℕ) (host : HostAnswer ℕ) : CreateResult :=
  match translateVirtualFd t.fds cageid vfdArg with
  | .error p => .error (.table p)
  | .ok (.error _) => .ok (.failed .EBADF "dup" "Bad File Descriptor", t, [])
  | .ok (.ok vfd) =>
      match getUnusedVirtualFd t.fds cageid vfd.fdkind (dupNumber host) false 0 with
      | .error p => .error (.table p)
      | .ok (.error _, _) => .error .unwrap
      | .ok (.ok retVfd, fds) => .ok (.returned retVfd, { t with fds }, host.toOption.toList)

/-- The common end of `epoll_create` and `epoll_create1`; the answer of `epoll_add_underfd` is
dropped. -/
def nameEpoll (kernelFd : ℕ) (shouldCloexec : Bool) : CreateResult :=
  match epollCreateEmpty t cageid shouldCloexec with
  | .error p => .error (.table p)
  | .ok (.error _, _) => .error .unwrap
  | .ok (.ok virtualEpfd, t) =>
      match epollAddUnderfd t cageid virtualEpfd fdkindKernel kernelFd with
      | .error c => .error c
      | .ok (_, t) => .ok (.returned virtualEpfd, t, [kernelFd])

def epollCreateSyscall (host : HostAnswer ℕ) : CreateResult :=
  afterHost "epoll_create_syscall" t host fun kernelFd => nameEpoll t cageid kernelFd false

def epollCreate1Syscall (flags : BitVec 32) (host : HostAnswer ℕ) :
    CreateResult :=
  if flags &&& ~~~epollCloexec ≠ 0 then
    .ok (.failed .EINVAL "epoll_create1_syscall" "Invalid flags", t, [])
  else
    afterHost "epoll_create1_syscall" t host fun kernelFd =>
      nameEpoll t cageid kernelFd (flags &&& epollCloexec ≠ 0)

inductive CreateCall where
  | openPath (path : Except CreateErrno Unit) (oflag : BitVec 32) (host : HostAnswer ℕ)
  | openat (dirfd : ℤ) (path : Except CreateErrno Unit) (rawPath : Bool) (oflag : BitVec 32)
      (host : HostAnswer ℕ)
  | pipe (addr : Bool) (host : HostAnswer (ℕ × ℕ))
  | pipe2 (addr : Bool) (flags : BitVec 32) (host : HostAnswer (ℕ × ℕ))
  | dup (vfdArg : ℕ) (host : HostAnswer ℕ)
  | epollCreate (host : HostAnswer ℕ)
  | epollCreate1 (flags : BitVec 32) (host : HostAnswer ℕ)

def create : CreateCall → CreateResult
  | .openPath path oflag host => openSyscall t cageid path oflag host
  | .openat dirfd path rawPath oflag host => openatSyscall t cageid dirfd path rawPath oflag host
  | .pipe addr host => pipeSyscall t cageid addr host
  | .pipe2 addr flags host => pipe2Syscall t cageid addr flags host
  | .dup vfdArg host => dupSyscall t cageid vfdArg host
  | .epollCreate host => epollCreateSyscall t cageid host
  | .epollCreate1 flags host => epollCreate1Syscall t cageid flags host

/-! ## What a failed call leaves -/

def Created.IsError : Created → Prop
  | .returned _ => False
  | .failed .. => True
  | .hostErrno .. => True

/-- The cage's descriptors and all the counts are as before. -/
structure SameFds (s s' : State) (cageid : ℕ) : Prop where
  row : s'.fdtable.lookup cageid = s.fdtable.lookup cageid
  count : ∀ p, s'.fdcount.lookup p = s.fdcount.lookup p

variable (row : FdRow)

/-- Every descriptor is in use. -/
def Full : Prop := ∀ fd, row fd ≠ none

/-- One descriptor is left. -/
def OneLeft : Prop := ∃ fd, row fd = none ∧ ∀ fd', row fd' = none → fd' = fd

/-- **A call that fails undoes what it did**, and on a full table it fails rather than panics. -/
structure Undone (r : CreateResult) : Prop where
  undone : ∀ a t' opened, r = .ok (a, t', opened) → a.IsError →
    SameFds t.fds t'.fds cageid ∧ opened = []
  refused : Full row → ∃ a t' opened, r = .ok (a, t', opened) ∧ a.IsError

/-- The calls that do. -/
def CreateCall.Undoable : CreateCall → Prop
  | .openPath path _ host => Full row → ¬ (path.isOk ∧ host.isOk)
  | .openat dirfd path rawPath _ host => Full row → ¬ (path.isOk ∧ host.isOk ∧
      (dirfd = atFdcwd ∨ rawPath ∧ ∃ x, slotAt row (dirfd % 2 ^ 64).toNat = some x ∧
        0 ≤ asI32 x.underfd))
  | .pipe addr host => OneLeft row → ¬ (addr ∧ host.isOk)
  | .pipe2 addr flags host =>
      OneLeft row → ¬ (flags &&& ~~~(oNonblock ||| oCloexec) = 0 ∧ addr ∧ host.isOk)
  | .dup vfdArg _ => Full row → slotAt row vfdArg = none
  | .epollCreate host => Full row → ¬ host.isOk
  | .epollCreate1 flags host => Full row → ¬ (flags &&& ~~~epollCloexec = 0 ∧ host.isOk)

section Undo

variable {t : Tables} {c : ℕ} {row : FdRow} {s : State} {fd : Fin fdPerProcessMax}
  {e : FDTableEntry}

theorem firstUnused_of_full (h : Full row) : firstUnused row 0 = none :=
  find?_eq_none.mpr fun fd _ => by simp [h fd]

theorem exists_firstUnused (h : ¬ Full row) :
    ∃ fd, firstUnused row 0 = some fd ∧ row fd = none := by
  cases hfd : firstUnused row 0 with
  | some fd =>
    have hfree := find?_some hfd
    exact ⟨fd, rfl, (of_decide_eq_true hfree).2⟩
  | none =>
    refine absurd (fun fd hfree => ?_) h
    have hused := find?_eq_none.mp hfd fd (mem_finRange fd)
    exact hused (decide_eq_true ⟨Nat.zero_le _, hfree⟩)

theorem getUnusedVirtualFd_of_full (hrow : s.fdtable.lookup c = some row) (h : Full row) (k u : ℕ)
    (x : Bool) (i : ℕ) : getUnusedVirtualFd s c k u x i = .ok (.error (.errno .EMFILE), s) := by
  rw [getUnusedVirtualFd, allocateFrom, getRow_eq hrow]
  dsimp only
  rw [firstUnused_of_full h]

theorem lookup_incrementFdcount (s : State) (e : FDTableEntry) (c : ℕ) :
    (incrementFdcount s e).fdtable.lookup c = s.fdtable.lookup c := by
  rw [incrementFdcount]
  split <;> rfl

theorem getUnusedVirtualFd_of_not_full (hrow : s.fdtable.lookup c = some row) (h : ¬ Full row)
    (k u : ℕ) (x : Bool) (i : ℕ) :
    ∃ fd s', getUnusedVirtualFd s c k u x i = .ok (.ok fd.val, s') ∧ row fd = none ∧
      s'.fdtable.lookup c = some (update row fd (some ⟨k, u, x, i⟩)) := by
  obtain ⟨fd, hfd, hfree⟩ := exists_firstUnused h
  refine ⟨fd, incrementFdcount (setRow s c (update row fd (some ⟨k, u, x, i⟩)))
    ⟨k, u, x, i⟩, ?_, hfree, (lookup_incrementFdcount ..).trans (AList.lookup_insert _)⟩
  rw [getUnusedVirtualFd, allocateFrom, getRow_eq hrow]
  dsimp only
  rw [hfd]

theorem full_update_of_oneLeft (h : OneLeft row)
    (hfree : row fd = none) : Full (update row fd (some e)) := by
  obtain ⟨fd₀, -, honly⟩ := h
  intro fd' hfree'
  by_cases heq : fd' = fd
  · rw [heq, update_self] at hfree'
    cases hfree'
  · rw [update_of_ne heq] at hfree'
    exact heq ((honly fd' hfree').trans (honly fd hfree).symm)

theorem not_full_update (h : ¬ OneLeft row)
    (hfree : row fd = none) : ¬ Full (update row fd (some e)) := by
  refine fun hfull => h ⟨fd, hfree, fun fd' hfree' => ?_⟩
  by_contra hne
  exact hfull fd' (by rw [update_of_ne hne, hfree'])

theorem not_full_of_oneLeft (h : OneLeft row) : ¬ Full row :=
  fun hfull => h.elim fun fd hfd => hfull fd hfd.1

theorem undone_of_error {a : Created} (ha : a.IsError) : Undone t c row (.ok (a, t, [])) where
  undone a' t' opened heq _ := by
    cases heq
    exact ⟨⟨rfl, fun _ => rfl⟩, rfl⟩
  refused _ := ⟨a, t, [], rfl, ha⟩

theorem undone_of_returned {ret : ℕ} {t' : Tables} {opened : List ℕ} (h : ¬ Full row) :
    Undone t c row (.ok (.returned ret, t', opened)) where
  undone a' t'' opened' heq ha := by
    cases heq
    exact ha.elim
  refused hfull := absurd hfull h

theorem not_undone_of_crash {crash : Crash} (h : Full row) : ¬ Undone t c row (.error crash) := by
  intro hun
  obtain ⟨a, t', opened, heq, -⟩ := hun.refused h
  cases heq

/-- What the host does not open need not be undone. -/
theorem undone_afterHost_iff {α : Type} {call : String} {host : HostAnswer α}
    {name : α → CreateResult} {P : Prop} (hname : ∀ x, Undone t c row (name x) ↔ ¬ P) :
    Undone t c row (afterHost call t host name) ↔ (P → ¬ host.isOk) := by
  cases host with
  | error errno => exact iff_of_true (undone_of_error trivial) fun _ => Bool.false_ne_true
  | ok x => exact (hname x).trans (forall_congr' fun _ => iff_of_false not_false fun h => h rfl)

variable (hrow : t.fds.fdtable.lookup c = some row)

include hrow

variable (addr shouldCloexec : Bool) (flags oflag : BitVec 32) (call : String) (kernelFd : ℕ)
  (path : Except CreateErrno Unit)

/-- **`open` and `openat` leave the kernel descriptor open on a full table.** -/
theorem undone_nameKernelFd_iff :
    Undone t c row (nameKernelFd call t c kernelFd oflag) ↔ ¬ Full row := by
  by_cases hfull : Full row
  · refine iff_of_false (fun h => ?_) (not_not_intro hfull)
    rw [nameKernelFd, getUnusedVirtualFd_of_full hrow hfull] at h
    exact cons_ne_nil _ _ (h.undone _ _ _ rfl trivial).2
  · refine iff_of_true ?_ hfull
    obtain ⟨fd, s', heq, -⟩ := getUnusedVirtualFd_of_not_full hrow hfull fdkindKernel kernelFd
      (oflag &&& oCloexec ≠ 0) 0
    rw [nameKernelFd, heq]
    exact undone_of_returned hfull

/-- **`pipe` and `pipe2` leave the first end named when there is room for one only.** -/
theorem undone_namePipe_iff (kernelFds : ℕ × ℕ) :
    Undone t c row (namePipe call t c kernelFds shouldCloexec) ↔ ¬ OneLeft row := by
  have hclosed : ([kernelFds.1, kernelFds.2].erase kernelFds.1).erase kernelFds.2 = [] := by
    rw [erase_cons_head, erase_cons_head]
  by_cases hfull : Full row
  · refine iff_of_true ?_ fun hone => not_full_of_oneLeft hone hfull
    rw [namePipe, getUnusedVirtualFd_of_full hrow hfull, hclosed]
    exact undone_of_error trivial
  · obtain ⟨fd, s', heq, hfree, hrow'⟩ := getUnusedVirtualFd_of_not_full hrow hfull fdkindKernel
      kernelFds.1 shouldCloexec 0
    rw [namePipe, heq]
    dsimp only
    by_cases hone : OneLeft row
    · refine iff_of_false (fun h => ?_) (not_not_intro hone)
      rw [getUnusedVirtualFd_of_full hrow' (full_update_of_oneLeft hone hfree)] at h
      have hsame := (h.undone _ _ _ rfl trivial).1.row
      rw [hrow, hrow', some.injEq] at hsame
      have := congrFun hsame fd
      rw [update_self, hfree] at this
      cases this
    · refine iff_of_true ?_ hone
      obtain ⟨fd', s'', heq', -⟩ := getUnusedVirtualFd_of_not_full hrow'
        (not_full_update hone hfree)
        fdkindKernel kernelFds.2 shouldCloexec 0
      rw [heq']
      exact undone_of_returned hfull

/-- **`epoll_create` and `epoll_create1` panic on a full table.** -/
theorem undone_nameEpoll_iff :
    Undone t c row (nameEpoll t c kernelFd shouldCloexec) ↔ ¬ Full row := by
  by_cases hfull : Full row
  · refine iff_of_false (fun h => ?_) (not_not_intro hfull)
    rw [nameEpoll, epollCreateEmpty, getUnusedVirtualFd_of_full hrow hfull] at h
    exact not_undone_of_crash hfull h
  · refine iff_of_true ⟨?_, fun h => absurd h hfull⟩ hfull
    intro a t' opened heq ha
    rw [nameEpoll] at heq
    split at heq
    · cases heq
    · cases heq
    · split at heq
      · cases heq
      · cases heq
        exact ha.elim

theorem undone_dup_iff (vfdArg : ℕ) (host : HostAnswer ℕ) :
    Undone t c row (dupSyscall t c vfdArg host) ↔ (Full row → slotAt row vfdArg = none) := by
  rw [dupSyscall, translateVirtualFd_eq hrow]
  cases hslot : slotAt row vfdArg with
  | none => exact iff_of_true (undone_of_error trivial) fun _ => rfl
  | some vfd =>
    rw [elim_some]
    dsimp only
    by_cases hfull : Full row
    · rw [getUnusedVirtualFd_of_full hrow hfull]
      exact iff_of_false (not_undone_of_crash hfull) fun h => absurd (h hfull) nofun
    · refine iff_of_true ?_ fun h => absurd h hfull
      obtain ⟨fd, s', heq, -⟩ := getUnusedVirtualFd_of_not_full hrow hfull vfd.fdkind
        (dupNumber host) false 0
      rw [heq]
      exact undone_of_returned hfull

theorem undone_open_iff (host : HostAnswer ℕ) :
    Undone t c row (openSyscall t c path oflag host)
      ↔ (Full row → ¬ (path.isOk ∧ host.isOk)) := by
  cases path with
  | error e => exact iff_of_true (undone_of_error trivial) fun _ h => Bool.false_ne_true h.1
  | ok =>
    refine (undone_afterHost_iff fun _ => undone_nameKernelFd_iff hrow ..).trans ?_
    exact forall_congr' fun _ => not_congr (and_iff_right rfl).symm

theorem convertFdToHost_eq (v : ℕ) :
    convertFdToHost t.fds c v = .ok ((slotAt row v).elim (-ebadf) fun x => asI32 x.underfd) := by
  rw [convertFdToHost, translateVirtualFd_eq hrow]
  cases slotAt row v <;> rfl

/-- Below a directory the descriptor must be one the host knows. -/
theorem undone_openat_iff (dirfd : ℤ) (rawPath : Bool) (host : HostAnswer ℕ) :
    Undone t c row (openatSyscall t c dirfd path rawPath oflag host)
      ↔ CreateCall.Undoable row (.openat dirfd path rawPath oflag host) := by
  cases path with
  | error e => exact iff_of_true (undone_of_error trivial) fun _ h => Bool.false_ne_true h.1
  | ok =>
    dsimp only [openatSyscall]
    by_cases hcwd : dirfd = atFdcwd
    · rw [if_pos hcwd, undone_open_iff hrow]
      exact forall_congr' fun _ => not_congr
        (and_congr_right fun _ => (and_iff_left (.inl hcwd)).symm)
    rw [if_neg hcwd, convertFdToHost_eq hrow]
    dsimp only
    have hskip (hno : ¬ (rawPath ∧ ∃ x, slotAt row (dirfd % 2 ^ 64).toNat = some x ∧
        0 ≤ asI32 x.underfd)) :
        CreateCall.Undoable row (.openat dirfd (.ok ()) rawPath oflag host) :=
      fun _ h => h.2.2.elim hcwd hno
    cases hslot : slotAt row (dirfd % 2 ^ 64).toNat with
    | none =>
      refine iff_of_true (undone_of_error trivial) (hskip fun ⟨_, x, hx, _⟩ => ?_)
      rw [hslot] at hx
      cases hx
    | some x =>
      rw [elim_some]
      by_cases hneg : asI32 x.underfd < 0
      · rw [if_pos hneg]
        refine iff_of_true (undone_of_error trivial) (hskip fun ⟨_, y, hy, hpos⟩ => ?_)
        obtain rfl := mem_unique hslot hy
        omega
      · rw [if_neg hneg]
        cases rawPath with
        | false =>
          exact iff_of_true (undone_of_error trivial) (hskip fun h => Bool.false_ne_true h.1)
        | true =>
          refine (undone_afterHost_iff fun _ => undone_nameKernelFd_iff hrow ..).trans ?_
          refine forall_congr' fun _ => not_congr ⟨fun h => ?_, fun h => h.2.1⟩
          exact ⟨rfl, h, .inr ⟨rfl, x, hslot, by omega⟩⟩

theorem undone_pipe_iff (host : HostAnswer (ℕ × ℕ)) :
    Undone t c row (pipeSyscall t c addr host) ↔ (OneLeft row → ¬ (addr ∧ host.isOk)) := by
  cases addr with
  | false => exact iff_of_true (undone_of_error trivial) fun _ h => Bool.false_ne_true h.1
  | true =>
    refine (undone_afterHost_iff fun _ => undone_namePipe_iff hrow ..).trans ?_
    exact forall_congr' fun _ => not_congr (and_iff_right rfl).symm

theorem undone_pipe2_iff (host : HostAnswer (ℕ × ℕ)) :
    Undone t c row (pipe2Syscall t c addr flags host)
      ↔ CreateCall.Undoable row (.pipe2 addr flags host) := by
  rw [pipe2Syscall]
  by_cases hflags : flags &&& ~~~(oNonblock ||| oCloexec) = 0
  swap
  · rw [if_pos hflags]
    exact iff_of_true (undone_of_error trivial) fun _ h => hflags h.1
  rw [if_neg (not_not_intro hflags)]
  cases addr with
  | false => exact iff_of_true (undone_of_error trivial) fun _ h => Bool.false_ne_true h.2.1
  | true =>
    refine (undone_afterHost_iff fun _ => undone_namePipe_iff hrow ..).trans ?_
    exact forall_congr' fun _ => not_congr ⟨fun h => ⟨hflags, rfl, h⟩, fun h => h.2.2⟩

theorem undone_epollCreate1_iff (host : HostAnswer ℕ) :
    Undone t c row (epollCreate1Syscall t c flags host)
      ↔ CreateCall.Undoable row (.epollCreate1 flags host) := by
  rw [epollCreate1Syscall]
  by_cases hflags : flags &&& ~~~epollCloexec = 0
  · rw [if_neg (not_not_intro hflags)]
    refine (undone_afterHost_iff fun _ => undone_nameEpoll_iff hrow ..).trans ?_
    exact forall_congr' fun _ => not_congr (and_iff_right hflags).symm
  · rw [if_pos hflags]
    exact iff_of_true (undone_of_error trivial) fun _ h => hflags h.1

end Undo

/-- **A call that fails undoes what it did just when** the table has room, or the call fails before
the host opens anything; `pipe` and `pipe2` cope with a full table and not with one descriptor
left. -/
theorem undone_create_iff {t : Tables} {cageid : ℕ} {row : FdRow}
    (hrow : t.fds.fdtable.lookup cageid = some row) (call : CreateCall) :
    Undone t cageid row (create t cageid call) ↔ call.Undoable row := by
  cases call with
  | openPath path oflag host => exact undone_open_iff hrow oflag path host
  | openat dirfd path rawPath oflag host =>
    exact undone_openat_iff hrow oflag path dirfd rawPath host
  | pipe addr host => exact undone_pipe_iff hrow addr host
  | pipe2 addr flags host => exact undone_pipe2_iff hrow addr flags host
  | dup vfdArg host => exact undone_dup_iff hrow vfdArg host
  | epollCreate host => exact undone_afterHost_iff fun _ => undone_nameEpoll_iff hrow ..
  | epollCreate1 flags host => exact undone_epollCreate1_iff hrow flags host

/-- A cage whose descriptors are `row`, with `n` of them over kernel descriptor 7. -/
def tablesOver (n : ℕ) : Tables where
  fds := { setRow .init 1 row with fdcount := AList.insert (fdkindKernel, 7) n ∅ }
  ept := .init

/-- A descriptor over kernel descriptor 7. -/
def overSeven : FDTableEntry := ⟨fdkindKernel, 7, false, 0⟩

def fullRow : FdRow := fun _ => some overSeven

/-- Only the last descriptor is left. -/
def oneLeftRow : FdRow := update fullRow (Fin.last 1023) none

theorem lookup_tablesOver (row : FdRow) (n : ℕ) :
    (tablesOver row n).fds.fdtable.lookup 1 = some row := AList.lookup_insert _

/-- A full table refuses a pipe, and the two kernel ends are closed again. -/
theorem undone_pipe_fullRow :
    Undone (tablesOver fullRow 1024) 1 fullRow
      (create (tablesOver fullRow 1024) 1 (.pipe true (.ok (8, 9)))) :=
  (undone_create_iff (lookup_tablesOver ..) _).mpr fun hone =>
    absurd (fun _ => nofun) (not_full_of_oneLeft hone)

/-- **What is left undone**: `open` keeps its kernel descriptor, `dup` and `epoll_create` panic, and
a pipe with one descriptor left keeps the name of its first end. -/
theorem not_undone_create :
    create (tablesOver fullRow 1024) 1 (.openPath (.ok ()) 0 (.ok 9))
      = .ok (.failed .EMFILE "open_syscall" "Too many files opened", tablesOver fullRow 1024, [9]) ∧
    create (tablesOver fullRow 1024) 1 (.dup 0 (.ok 9)) = .error .unwrap ∧
    create (tablesOver fullRow 1024) 1 (.epollCreate (.ok 9)) = .error .unwrap ∧
    ¬ Undone (tablesOver oneLeftRow 1023) 1 oneLeftRow
      (create (tablesOver oneLeftRow 1023) 1 (.pipe true (.ok (8, 9)))) := by
  have hfull : Full fullRow := fun _ => nofun
  have hrow := lookup_tablesOver fullRow 1024
  refine ⟨?_, ?_, ?_, fun h => ?_⟩
  · rw [create, openSyscall, afterHost, nameKernelFd, getUnusedVirtualFd_of_full hrow hfull]
  · have hslot : slotAt fullRow 0 = some overSeven := slotAt_of_lt (by decide)
    rw [create, dupSyscall, translateVirtualFd_eq hrow, hslot, elim_some]
    dsimp only
    rw [getUnusedVirtualFd_of_full hrow hfull]
  · rw [create, epollCreateSyscall, afterHost, nameEpoll, epollCreateEmpty,
      getUnusedVirtualFd_of_full hrow hfull]
  · refine (undone_pipe_iff (lookup_tablesOver ..) ..).mp h ⟨Fin.last 1023, ?_, ?_⟩ ⟨rfl, rfl⟩
    · exact update_self ..
    · intro fd hfree
      by_contra hne
      rw [oneLeftRow, update_of_ne hne] at hfree
      cases hfree

end LindWasm.FdTables
