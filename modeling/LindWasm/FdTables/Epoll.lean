import LindWasm.FdTables.Create
import LindWasm.Machinery.Table

/-!
# FdTables/Epoll — events back to virtual descriptors

    epoll_ctl --> kernel registration  (epoll fd, fd, file) ↦ data = underfd
        └-------> REAL_EPOLL_MAP       (epoll fd, fd)       ↦ virtual fd
    close     --> kernel only
    epoll_wait : data --REAL_EPOLL_MAP--> the virtual fd, in place of the program's own data

The kernel keys a registration by number and open file, the map by number alone, and only
`epoll_ctl` touches the map. As long as no number is given out again over a live registration the
map has an entry for every registration, with the descriptor last passed for it (`waitsRight_run`).
-/

namespace LindWasm.FdTables

open Function Option List

/-! ## The kernel's side -/

/-- A registration. The kernel keeps `data` for the caller; `vfd` and `userData` are what the
program passed to the `epoll_ctl` that last set it, kept here to speak about them. -/
structure Registration where
  epfd : ℕ
  fd : ℤ
  file : ℕ
  data : ℕ
  vfd : ℕ
  userData : ℕ
  deriving DecidableEq

/-- What the kernel keys a registration by. -/
def Registration.key (r : Registration) : ℕ × ℤ × ℕ := (r.epfd, r.fd, r.file)

/-- The open numbers with the open file behind each, and the registrations. -/
structure EpollKernel where
  files : List (ℤ × ℕ)
  regs : List Registration

/-- Give out numbers that are not in use, each with an open file behind it. -/
def EpollKernel.openAll (k : EpollKernel) (file : ℕ → ℕ) : List ℕ → Option EpollKernel
  | [] => some k
  | n :: rest =>
      if k.files.lookup (asI32 n) = none then
        { k with files := Table.insert k.files (asI32 n) (file n) }.openAll file rest
      else none

variable (k : EpollKernel)

/-- The last number of a file takes the file's registrations with it, and an epoll instance its
own. -/
def EpollKernel.close (n : ℤ) : EpollKernel :=
  match k.files.lookup n with
  | none => k
  | some file =>
      let files := Table.erase k.files n
      { files
        regs := k.regs.filter fun r => (r.file ≠ file ∨ ∃ row ∈ files, row.2 = file) ∧ r.epfd ≠ n }

def EpollKernel.closeAll (ns : List ℤ) : EpollKernel := ns.foldl .close k

/-- The host's `epoll_ctl`; `none` if it fails. -/
def EpollKernel.ctl (op : ℤ) (r : Registration) : Option EpollKernel :=
  match k.files.lookup r.fd with
  | none => none
  | some file =>
      let r := { r with file }
      if op = epollCtlAdd then
        if ∃ r' ∈ k.regs, r'.key = r.key then none else some { k with regs := k.regs ++ [r] }
      else if ¬ ∃ r' ∈ k.regs, r'.key = r.key then none
      else if op = epollCtlMod then
        some { k with regs := k.regs.map fun r' => if r'.key = r.key then r else r' }
      else some { k with regs := k.regs.filter fun r' => r'.key ≠ r.key }

/-! ## The calls -/

/-- The descriptor tables, the kernel, and `REAL_EPOLL_MAP`. That an inner map is dropped when it
gets empty cannot be seen by a lookup. -/
structure EpollWorld where
  tables : Tables
  kernel : EpollKernel
  realEpollMap : ℕ → ℤ → Option ℕ

def EpollWorld.init : EpollWorld := ⟨.init, ⟨[], []⟩, fun _ _ => none⟩

/-- The kernel numbers that `kernel_close` closes between two states of the tables: those whose
last reference goes, but for the standard streams. -/
def closedNumbers (s s' : State) : List ℤ :=
  ((s'.calls.drop s.calls.length).filter fun call =>
    call.last ∧ call.entry.fdkind = fdkindKernel ∧ asI32 call.entry.underfd ∉ [0, 1, 2]).map
    fun call => asI32 call.entry.underfd

variable (w : EpollWorld) (cageid : ℕ) (epfdArg : ℕ)

/-- `event` is the program's data, or `none` if its address cannot be converted; `refused` if the
host fails for reasons of its own. -/
def EpollWorld.epollCtl (op : ℤ) (fdArg : ℕ)
    (event : Option ℕ) (refused : Bool) : Except Crash (Answer × EpollWorld) :=
  match epollGetUnderfdHashmap w.tables cageid epfdArg with
  | .error c => .error c
  | .ok (.error _) => .error .unwrap
  | .ok (.ok underfds) =>
      match underfds fdkindKernel with
      | none => .error .unwrap
      | some epfd =>
          if op ≠ epollCtlAdd ∧ op ≠ epollCtlMod ∧ op ≠ epollCtlDel then
            .ok (.failed .EINVAL "epoll_ctl_syscall" "Invalid operation", w)
          else
            match translateVirtualFd w.tables.fds cageid fdArg with
            | .error p => .error (.table p)
            | .ok (.error _) => .ok (.failed .EBADF "epoll_ctl_syscall" "Bad File Descriptor", w)
            | .ok (.ok vfd) =>
                if event = none ∧ op ≠ epollCtlDel then
                  .ok (.failed .EFAULT "epoll_ctl_syscall" "Invalid address", w)
                else
                  let fd := asI32 vfd.underfd
                  let r : Registration := ⟨epfd, fd, 0, vfd.underfd, fdArg, event.getD 0⟩
                  match if refused then none else w.kernel.ctl op r with
                  | none => .ok (.hostFailed "epoll_ctl_syscall", w)
                  | some kernel =>
                      let entry := if op = epollCtlDel then none else some fdArg
                      let fdmap := update (w.realEpollMap epfd) fd entry
                      .ok (.returned 0,
                        { w with kernel, realEpollMap := update w.realEpollMap epfd fdmap })

/-- `dup` gives a number over its source's open file. -/
def sharesFile (file : ℕ → ℕ) : CreateCall → Bool
  | .dup vfdArg (.ok n) =>
      match translateVirtualFd w.tables.fds cageid vfdArg with
      | .ok (.ok vfd) => w.kernel.files.lookup (asI32 vfd.underfd) == some (file n)
      | _ => true
  | _ => true

/-- What happens: a call that opens descriptors, with the open file behind each number the host
gives; an `epoll_ctl`; or any other operation on the tables, such as `close`, those of `dup2`, a
fork, an exec or the end of a cage. -/
inductive EpollOp where
  | create (cageid : ℕ) (call : CreateCall) (file : ℕ → ℕ)
  | fd (op : Op)
  | epollCtl (cageid epfd : ℕ) (op : ℤ) (fd : ℕ) (event : Option ℕ) (refused : Bool)

def EpollWorld.step (w : EpollWorld) : EpollOp → Option EpollWorld
  | .create cageid call file =>
      match FdTables.create w.tables cageid call with
      | .error _ => none
      | .ok (_, tables, opened) =>
          if sharesFile w cageid file call then
            (w.kernel.openAll file opened).map fun kernel => { w with tables, kernel }
          else none
  | .fd op =>
      (FdTables.step w.tables.fds op).map fun fds =>
        { w with
          tables := { w.tables with fds }
          kernel := w.kernel.closeAll (closedNumbers w.tables.fds fds) }
  | .epollCtl cageid epfd op fd event refused =>
      (w.epollCtl cageid epfd op fd event refused).toOption.map Prod.snd

/-! ## Waiting -/

/-- One call of the host's `epoll_wait`: an error, or the registrations it finds ready with their
event masks, and what the timer and the signal check then say. -/
inductive EpollRound where
  | error
  | answer (ready : List (Registration × ℕ)) (elapsed signalled : Bool)

/-- What the guest gets; an event is its data and its mask. -/
inductive Waited where
  | returned (events : List (ℕ × ℕ))
  | failed (errno : SysErrno) (call message : String)
  | hostFailed (call : String)
  | waiting
  deriving DecidableEq

/-- The events on their way back: the kernel's `data` is translated by the map. -/
def translateEvents (kernelMap : ℤ → Option ℕ) : List (ℕ × ℕ) → Option (List (ℕ × ℕ))
  | [] => some []
  | (retKernelfd, mask) :: rest =>
      match kernelMap (asI32 retKernelfd) with
      | none => none
      | some retVirtualfd =>
          (translateEvents kernelMap rest).map fun events => (retVirtualfd, mask) :: events

def finishWait (kernelMap : ℤ → Option ℕ) : List EpollRound → Waited
  | [] => .waiting
  | .error :: _ => .hostFailed "epoll"
  | .answer ready elapsed signalled :: rest =>
      if ready.length > 0 ∨ elapsed then
        match translateEvents kernelMap (ready.map fun x => (x.1.data, x.2)) with
        | none => .failed .EBADF "epoll" "could not translate kernel fd to virtual fd"
        | some events => .returned events
      else if signalled then .failed .EINTR "epoll" "interrupted"
      else finishWait kernelMap rest

/-- `eventsOk` tells whether the array's address can be converted. -/
def EpollWorld.epollWait (maxevents : ℤ) (eventsOk : Bool)
    (rounds : List EpollRound) : Except Crash Waited :=
  match epollGetUnderfdHashmap w.tables cageid epfdArg with
  | .error c => .error c
  | .ok (.error _) => .ok (.failed .EBADF "epoll_wait_syscall" "invalid epoll fd")
  | .ok (.ok fdMap) =>
      match fdMap fdkindKernel with
      | none => .ok (.failed .EBADF "epoll_wait_syscall" "missing kernel epoll fd")
      | some epfd =>
          if maxevents ≤ 0 then
            .ok (.failed .EINVAL "epoll_wait_syscall" "maxevents must be positive")
          else if eventsOk = false then
            .ok (.failed .EFAULT "epoll_wait_syscall" "Invalid address")
          else .ok (finishWait (w.realEpollMap epfd) rounds)

/-! ## What a program is promised -/

/-- The host reports registrations of the epoll descriptor it is asked about. -/
def EpollRound.Live (epfd : ℕ) : EpollRound → Prop
  | .error => True
  | .answer ready _ _ => ∀ x ∈ ready, x.1 ∈ w.kernel.regs ∧ x.1.epfd = epfd

variable (carried : Registration → ℕ)

/-- The events of some round, with the data a registration should carry; and no registration that
cannot be translated. -/
def Waited.Right (rounds : List EpollRound) : Waited → Prop
  | .returned events => ∃ ready elapsed signalled, .answer ready elapsed signalled ∈ rounds ∧
      events = ready.map fun x => (carried x.1, x.2)
  | .failed errno _ message =>
      ¬ (errno = .EBADF ∧ message = "could not translate kernel fd to virtual fd")
  | _ => True

/-- The kernel's epoll descriptor under a virtual one. -/
def EpollWorld.kernelEpfd : Option ℕ :=
  match epollGetUnderfdHashmap w.tables cageid epfdArg with
  | .ok (.ok underfds) => underfds fdkindKernel
  | _ => none

/-- **Every wait on every epoll descriptor is right.** -/
def WaitsRight (w : EpollWorld) : Prop :=
  ∀ cageid epfdArg epfd, w.kernelEpfd cageid epfdArg = some epfd →
    ∀ maxevents eventsOk rounds, (∀ x ∈ rounds, x.Live w epfd) →
    ∀ reply, w.epollWait cageid epfdArg maxevents eventsOk rounds = .ok reply →
      reply.Right carried rounds

/-- The map knows every registration. -/
def Mapped : Prop :=
  ∀ r ∈ w.kernel.regs, ∃ v, w.realEpollMap r.epfd r.fd = some v

/-- The numbers the host gives out for a call. -/
def CreateCall.numbers : CreateCall → List ℕ
  | .openPath _ _ host => host.toOption.toList
  | .openat _ _ _ _ host => host.toOption.toList
  | .pipe _ host => host.toOption.toList.flatMap fun x => [x.1, x.2]
  | .pipe2 _ _ host => host.toOption.toList.flatMap fun x => [x.1, x.2]
  | .dup _ host => host.toOption.toList
  | .epollCreate host => host.toOption.toList
  | .epollCreate1 _ host => host.toOption.toList

/-- No number is given out while a registration made under it is still there. -/
def EpollOp.Fresh : EpollOp → Prop
  | .create _ call _ => ∀ n ∈ call.numbers, ∀ r ∈ w.kernel.regs, r.fd ≠ asI32 n
  | _ => True

instance decidableFresh (w : EpollWorld) : (op : EpollOp) → Decidable (op.Fresh w) :=
  fun op => by cases op <;> dsimp only [EpollOp.Fresh] <;> infer_instance

/-! ## The invariant -/

/-- **The map follows the kernel**: a number stands for one registration of an epoll descriptor,
and the map has the descriptor last passed for it. -/
structure Follows (files : List (ℤ × ℕ)) (regs : List Registration)
    (map : ℕ → ℤ → Option ℕ) : Prop where
  mapped : ∀ r ∈ regs, map r.epfd r.fd = some r.vfd
  data : ∀ r ∈ regs, asI32 r.data = r.fd
  file : ∀ r ∈ regs, ∀ f, files.lookup r.fd = some f → f = r.file
  once : regs.Pairwise fun r r' => (r.epfd, r.fd) ≠ (r'.epfd, r'.fd)

section Kernel

variable {k k' : EpollKernel} {map : ℕ → ℤ → Option ℕ} {r r' : Registration} {op : ℤ}

section

variable (h : Follows k.files k.regs map)
include h

theorem Follows.close (n : ℤ) : Follows (k.close n).files (k.close n).regs map := by
  rw [EpollKernel.close]
  cases k.files.lookup n with
  | none => exact h
  | some file =>
    refine ⟨fun r hr => h.mapped r (mem_filter.mp hr).1,
      fun r hr => h.data r (mem_filter.mp hr).1, fun r hr f hf => ?_, h.once.filter _⟩
    by_cases hn : r.fd = n
    · subst hn
      rw [Table.lookup_erase_self] at hf
      cases hf
    · rw [Table.lookup_erase_of_ne hn] at hf
      exact h.file r (mem_filter.mp hr).1 f hf

theorem Follows.closeAll (ns : List ℤ) :
    Follows (k.closeAll ns).files (k.closeAll ns).regs map := by
  induction ns generalizing k with
  | nil => exact h
  | cons n ns ih => exact ih (h.close n)

theorem Follows.openAll {file : ℕ → ℕ} {ns : List ℕ}
    (hfresh : ∀ n ∈ ns, ∀ r ∈ k.regs, r.fd ≠ asI32 n) (hk : k.openAll file ns = some k') :
    Follows k'.files k'.regs map := by
  induction ns generalizing k with
  | nil => exact some.inj hk ▸ h
  | cons n ns ih =>
    obtain ⟨hn, hns⟩ := forall_mem_cons.mp hfresh
    rw [EpollKernel.openAll] at hk
    split at hk
    · refine ih (k := { k with files := Table.insert k.files (asI32 n) (file n) })
        ⟨h.mapped, h.data, fun r hr f hf => ?_, h.once⟩ hns hk
      rw [Table.lookup_insert_of_ne (hn r hr)] at hf
      exact h.file r hr f hf
    · cases hk

/-- The registrations under the number of a new one are the new one's own. -/
theorem Follows.key_eq {file : ℕ} (hfile : k.files.lookup r.fd = some file) (hr' : r' ∈ k.regs)
    (hep : r'.epfd = r.epfd) (hfd : r'.fd = r.fd) :
    r'.key = ({ r with file } : Registration).key := by
  have hf : file = r'.file := h.file r' hr' file (hfd ▸ hfile)
  rw [Registration.key, Registration.key, hep, hfd, ← hf]

end

/-- The map after an `epoll_ctl`. -/
def mapAfter (map : ℕ → ℤ → Option ℕ) (op : ℤ) (r : Registration) : ℕ → ℤ → Option ℕ :=
  update map r.epfd
    (update (map r.epfd) r.fd (if op = epollCtlDel then none else some r.vfd))

theorem mapAfter_of_ne (h : (r'.epfd, r'.fd) ≠ (r.epfd, r.fd)) :
    mapAfter map op r r'.epfd r'.fd = map r'.epfd r'.fd := by
  rw [mapAfter]
  by_cases hep : r'.epfd = r.epfd
  · have hfd : r'.fd ≠ r.fd := fun hfd => h (by rw [hep, hfd])
    rw [hep, update_self, update_of_ne hfd]
  · rw [update_of_ne hep]

theorem mapAfter_self (hop : op ≠ epollCtlDel) : mapAfter map op r r.epfd r.fd = some r.vfd := by
  rw [mapAfter, update_self, update_self, if_neg hop]

section Ctl

variable {r : Registration} {file : ℕ} (h : Follows k.files k.regs map)
  (hdata : asI32 r.data = r.fd) (hfile : k.files.lookup r.fd = some file)

include h hdata hfile

theorem Follows.add (hnew : ¬ ∃ r' ∈ k.regs, r'.key = ({ r with file } : Registration).key) :
    Follows k.files (k.regs ++ [{ r with file }]) (mapAfter map epollCtlAdd r) := by
  have hne {r'} (hr' : r' ∈ k.regs) : (r'.epfd, r'.fd) ≠ (r.epfd, r.fd) := fun heq =>
    hnew ⟨r', hr', h.key_eq hfile hr' (congrArg Prod.fst heq) (congrArg Prod.snd heq)⟩
  refine ⟨forall_mem_append.mpr ⟨fun r' hr' => ?_, forall_mem_singleton.mpr ?_⟩,
    forall_mem_append.mpr ⟨h.data, forall_mem_singleton.mpr hdata⟩,
    forall_mem_append.mpr ⟨h.file, forall_mem_singleton.mpr fun f hf => ?_⟩,
    pairwise_append.mpr ⟨h.once, pairwise_singleton .., fun r' hr' r'' hr'' => ?_⟩⟩
  · rw [mapAfter_of_ne (hne hr')]
    exact h.mapped r' hr'
  · exact mapAfter_self (by decide)
  · exact mem_unique hf hfile
  · rw [mem_singleton.mp hr'']
    exact hne hr'

theorem Follows.mod :
    Follows k.files (k.regs.map fun r' =>
      if r'.key = ({ r with file } : Registration).key then { r with file } else r')
      (mapAfter map epollCtlMod r) := by
  have hsame {r' : Registration} (hk : r'.key = ({ r with file } : Registration).key) :
      (r.epfd, r.fd) = (r'.epfd, r'.fd) := by
    rw [Registration.key, Registration.key, Prod.mk.injEq, Prod.mk.injEq] at hk
    rw [hk.1, hk.2.1]
  refine ⟨forall_mem_map.mpr fun r' hr' => ?_, forall_mem_map.mpr fun r' hr' => ?_,
    forall_mem_map.mpr fun r' hr' => ?_, pairwise_map.mpr (h.once.imp fun hne => ?_)⟩
  · split
    · exact mapAfter_self (by decide)
    · next hk =>
      rw [mapAfter_of_ne fun heq =>
        hk (h.key_eq hfile hr' (congrArg Prod.fst heq) (congrArg Prod.snd heq))]
      exact h.mapped r' hr'
  · split
    · exact hdata
    · exact h.data r' hr'
  · split
    · exact fun f hf => mem_unique hf hfile
    · exact h.file r' hr'
  · split <;> split
    · next hk hk' => exact absurd ((hsame hk).symm.trans (hsame hk')) hne
    · next hk _ => rw [hsame hk]; exact hne
    · next _ hk' => rw [hsame hk']; exact hne
    · exact hne

omit hdata in
theorem Follows.del :
    Follows k.files (k.regs.filter fun r' => r'.key ≠ ({ r with file } : Registration).key)
      (mapAfter map epollCtlDel r) := by
  refine ⟨fun r' hr' => ?_, fun r' hr' => h.data r' (mem_filter.mp hr').1,
    fun r' hr' => h.file r' (mem_filter.mp hr').1, h.once.filter _⟩
  obtain ⟨hmem, hk⟩ := mem_filter.mp hr'
  rw [mapAfter_of_ne fun heq => of_decide_eq_true hk
    (h.key_eq hfile hmem (congrArg Prod.fst heq) (congrArg Prod.snd heq))]
  exact h.mapped r' hmem

end Ctl

/-- **An `epoll_ctl` that the host accepts.** -/
theorem Follows.ctl (h : Follows k.files k.regs map) (hdata : asI32 r.data = r.fd)
    (hk : k.ctl op r = some k') (hop : op = epollCtlAdd ∨ op = epollCtlMod ∨ op = epollCtlDel) :
    Follows k'.files k'.regs (mapAfter map op r) := by
  rw [EpollKernel.ctl] at hk
  cases hfile : k.files.lookup r.fd with
  | none =>
    rw [hfile] at hk
    cases hk
  | some file =>
    rw [hfile] at hk
    dsimp only at hk
    rcases hop with rfl | rfl | rfl
    · rw [if_pos rfl] at hk
      split at hk
      · cases hk
      · next hnew => exact some.inj hk ▸ h.add hdata hfile hnew
    · rw [if_neg (by decide)] at hk
      split at hk
      · cases hk
      · exact some.inj hk ▸ h.mod hdata hfile
    · rw [if_neg (by decide)] at hk
      split at hk
      · cases hk
      · exact some.inj hk ▸ h.del hfile

end Kernel

/-! ## The steps -/

section Opened

/-- What a call leaves open is among the numbers. -/
def Opens (numbers : List ℕ) : CreateResult → Prop
  | .error _ => True
  | .ok (_, _, opened) => opened ⊆ numbers

variable {t : Tables} {c n : ℕ} {call : String} {oflag : BitVec 32} {host : HostAnswer ℕ}
  {path : Except CreateErrno Unit} {x : Bool}

theorem opens_nameKernelFd : Opens [n] (nameKernelFd call t c n oflag) := by
  rw [nameKernelFd]
  split
  · trivial
  · exact List.Subset.refl _
  · exact List.Subset.refl _

theorem opens_namePipe {n : ℕ × ℕ} : Opens [n.1, n.2] (namePipe call t c n x) := by
  have hclosed : ([n.1, n.2].erase n.1).erase n.2 = [] := by
    rw [erase_cons_head, erase_cons_head]
  rw [namePipe, hclosed]
  split
  · trivial
  · exact nil_subset _
  split
  · trivial
  · exact nil_subset _
  · exact List.Subset.refl _

theorem opens_nameEpoll : Opens [n] (nameEpoll t c n x) := by
  rw [nameEpoll]
  split
  · trivial
  · trivial
  split
  · trivial
  · exact List.Subset.refl _

theorem opens_afterHost {α : Type} {host : HostAnswer α} {name : α → CreateResult}
    {numbers : α → List ℕ} (hname : ∀ x, Opens (numbers x) (name x)) :
    Opens (host.toOption.toList.flatMap numbers) (afterHost call t host name) := by
  cases host with
  | error errno => exact nil_subset _
  | ok x =>
    have hx : (Except.toOption (.ok x : HostAnswer α)).toList.flatMap numbers = numbers x :=
      append_nil _
    exact hx ▸ hname x

theorem opens_afterHost_one {name : ℕ → CreateResult} (hname : ∀ n, Opens [n] (name n)) :
    Opens host.toOption.toList (afterHost call t host name) := by
  rw [← flatMap_singleton' host.toOption.toList]
  exact opens_afterHost hname

theorem opens_openSyscall : Opens host.toOption.toList (openSyscall t c path oflag host) := by
  cases path with
  | error e => exact nil_subset _
  | ok => exact opens_afterHost_one fun _ => opens_nameKernelFd

theorem opens_openatSyscall {dirfd : ℤ} {rawPath : Bool} :
    Opens host.toOption.toList (openatSyscall t c dirfd path rawPath oflag host) := by
  cases path with
  | error e => exact nil_subset _
  | ok =>
    dsimp only [openatSyscall]
    split
    · exact opens_openSyscall
    split
    · trivial
    split
    · exact nil_subset _
    split
    · exact nil_subset _
    · exact opens_afterHost_one fun _ => opens_nameKernelFd

theorem opens_dupSyscall {vfdArg : ℕ} :
    Opens host.toOption.toList (dupSyscall t c vfdArg host) := by
  rw [dupSyscall]
  split
  · trivial
  · exact nil_subset _
  split
  · trivial
  · trivial
  · exact List.Subset.refl _

/-- **What a call leaves open the host gave out for it.** -/
theorem opens_create (call : CreateCall) : Opens call.numbers (create t c call) := by
  cases call with
  | openPath path oflag host => exact opens_openSyscall
  | openat dirfd path rawPath oflag host => exact opens_openatSyscall
  | pipe addr host =>
    rw [create, pipeSyscall]
    split
    · exact nil_subset _
    · exact opens_afterHost fun _ => opens_namePipe
  | pipe2 addr flags host =>
    rw [create, pipe2Syscall]
    split
    · exact nil_subset _
    split
    · exact nil_subset _
    · exact opens_afterHost fun _ => opens_namePipe
  | dup vfdArg host => exact opens_dupSyscall
  | epollCreate host => exact opens_afterHost_one fun _ => opens_nameEpoll
  | epollCreate1 flags host =>
    rw [create, epollCreate1Syscall]
    split
    · exact nil_subset _
    · exact opens_afterHost_one fun _ => opens_nameEpoll

end Opened

/-- What an `epoll_ctl` does: nothing, or what the host did and the map's entry. -/
theorem epollCtl_cases {w w' : EpollWorld} {c epfdArg fdArg : ℕ} {op : ℤ} {event : Option ℕ}
    {refused : Bool} {a : Answer} (h : w.epollCtl c epfdArg op fdArg event refused = .ok (a, w')) :
    w' = w ∨ ∃ r kernel, (op = epollCtlAdd ∨ op = epollCtlMod ∨ op = epollCtlDel) ∧
      asI32 r.data = r.fd ∧ w.kernel.ctl op r = some kernel ∧
      w' = { w with kernel, realEpollMap := mapAfter w.realEpollMap op r } := by
  rw [EpollWorld.epollCtl] at h
  split at h
  · cases h
  · cases h
  split at h
  · cases h
  next epfd _ =>
  split at h
  · cases h
    exact .inl rfl
  next hop =>
  split at h
  · cases h
  · cases h
    exact .inl rfl
  next vfd _ =>
  split at h
  · cases h
    exact .inl rfl
  dsimp only at h
  split at h
  · cases h
    exact .inl rfl
  next kernel hctl =>
  cases h
  have hop' : op = epollCtlAdd ∨ op = epollCtlMod ∨ op = epollCtlDel := by
    by_contra hno
    push Not at hno
    exact hop hno
  cases refused with
  | true => cases hctl
  | false =>
    exact .inr ⟨⟨epfd, asI32 vfd.underfd, 0, vfd.underfd, fdArg, event.getD 0⟩, kernel, hop', rfl,
      hctl, rfl⟩

/-- **The invariant of a world.** -/
def EpollWorld.Inv : Prop := Follows w.kernel.files w.kernel.regs w.realEpollMap

theorem EpollWorld.inv_step {w w' : EpollWorld} {op : EpollOp} (h : w.Inv) (hok : op.Fresh w)
    (hs : w.step op = some w') : w'.Inv := by
  cases op with
  | create c call file =>
    rw [EpollWorld.step] at hs
    split at hs
    · cases hs
    · next tables opened hcreate =>
      split at hs
      · obtain ⟨kernel, hk, rfl⟩ := map_eq_some_iff.mp hs
        have hopened := opens_create (t := w.tables) (c := c) call
        rw [hcreate] at hopened
        exact Follows.openAll h (fun n hn => hok n (hopened hn)) hk
      · cases hs
  | fd op =>
    obtain ⟨fds, -, rfl⟩ := map_eq_some_iff.mp hs
    exact Follows.closeAll h _
  | epollCtl c epfd op fd event refused =>
    obtain ⟨⟨a, w''⟩, hctl, rfl⟩ := map_eq_some_iff.mp hs
    obtain rfl | ⟨r, kernel, hop, hdata, hk, rfl⟩ := epollCtl_cases (eq_ok_of_toOption hctl)
    · exact h
    · exact Follows.ctl h hdata hk hop

/-! ## Waiting is right -/

section Wait

variable {w : EpollWorld} {epfd : ℕ} {rounds : List EpollRound}

/-- What is registered is translated to the descriptor last passed. -/
theorem EpollWorld.Inv.translateEvents (h : w.Inv) {ready : List (Registration × ℕ)}
    (hready : ∀ x ∈ ready, x.1 ∈ w.kernel.regs ∧ x.1.epfd = epfd) :
    translateEvents (w.realEpollMap epfd) (ready.map fun x => (x.1.data, x.2))
      = some (ready.map fun x => (x.1.vfd, x.2)) := by
  induction ready with
  | nil => rfl
  | cons x ready ih =>
    obtain ⟨⟨hx, hep⟩, hrest⟩ := forall_mem_cons.mp hready
    have hmap : w.realEpollMap epfd (asI32 x.1.data) = some x.1.vfd := by
      rw [h.data x.1 hx, ← hep]
      exact h.mapped x.1 hx
    rw [map_cons, FdTables.translateEvents, hmap, ih hrest]
    rfl

theorem Waited.Right.cons {carried : Registration → ℕ} {reply : Waited}
    (h : reply.Right carried rounds) (round : EpollRound) :
    reply.Right carried (round :: rounds) := by
  cases reply with
  | returned events =>
    obtain ⟨ready, elapsed, signalled, hmem, hevents⟩ := h
    exact ⟨ready, elapsed, signalled, mem_cons_of_mem _ hmem, hevents⟩
  | failed errno call message => exact h
  | hostFailed call => trivial
  | waiting => trivial

theorem EpollWorld.Inv.finishWait (h : w.Inv) (hlive : ∀ x ∈ rounds, x.Live w epfd) :
    (finishWait (w.realEpollMap epfd) rounds).Right Registration.vfd rounds := by
  induction rounds with
  | nil => trivial
  | cons round rounds ih =>
    obtain ⟨hround, hrest⟩ := forall_mem_cons.mp hlive
    cases round with
    | error => trivial
    | answer ready elapsed signalled =>
      rw [FdTables.finishWait]
      split
      · rw [h.translateEvents hround]
        exact ⟨ready, elapsed, signalled, mem_cons_self, rfl⟩
      split
      · exact fun hbad => absurd hbad.1 (by decide)
      · exact (ih hrest).cons _

theorem EpollWorld.Inv.waitsRight (h : w.Inv) : WaitsRight Registration.vfd w := by
  intro c epfdArg epfd hep maxevents eventsOk rounds hlive reply hreply
  rw [EpollWorld.kernelEpfd] at hep
  split at hep
  swap
  · cases hep
  next underfds hget =>
  rw [EpollWorld.epollWait, hget] at hreply
  dsimp only at hreply
  rw [hep] at hreply
  dsimp only at hreply
  split at hreply
  · cases hreply
    exact fun hbad => absurd hbad.1 (by decide)
  split at hreply
  · cases hreply
    exact fun hbad => absurd hbad.1 (by decide)
  · cases hreply
    exact h.finishWait hlive

end Wait

theorem EpollWorld.inv_init : EpollWorld.init.Inv :=
  ⟨nofun, nofun, nofun, List.Pairwise.nil⟩

/-- **Events carry the descriptor last passed for their registration, and none is lost to the map**,
as long as no number is given out over a live registration. -/
theorem waitsRight_run {ops : List EpollOp} {w : EpollWorld}
    (hok : StepsOk EpollWorld.step (fun w op => op.Fresh w) .init ops)
    (hrun : runSteps EpollWorld.step .init ops = some w) :
    WaitsRight Registration.vfd w ∧ Mapped w := by
  have hinv : w.Inv := inv_of_stepsOk (fun _ _ _ h hfresh hs => EpollWorld.inv_step h hfresh hs)
    EpollWorld.inv_init hok hrun
  exact ⟨hinv.waitsRight, fun r hr => ⟨r.vfd, hinv.mapped r hr⟩⟩

/-- A descriptor watched by an epoll descriptor, with data of the program's own. -/
def watchRun : List EpollOp :=
  [.fd (.initEmptyCage 1), .create 1 (.openPath (.ok ()) 0 (.ok 5)) (fun _ => 0),
    .create 1 (.epollCreate (.ok 6)) (fun _ => 1), .epollCtl 1 1 epollCtlAdd 0 (some 77) false]

theorem waitsRight_watchRun : ∃ w, runSteps EpollWorld.step .init watchRun = some w ∧
    WaitsRight Registration.vfd w ∧ Mapped w := by
  have hsome : (runSteps EpollWorld.step .init watchRun).isSome := by decide +kernel
  obtain ⟨w, hw⟩ := isSome_iff_exists.mp hsome
  exact ⟨w, hw, waitsRight_run (by decide +kernel) hw⟩

/-- The watched descriptor closed. -/
def closedRun : List EpollOp := watchRun ++ [.fd (.closeVirtualfd 1 0)]

/-- The watched descriptor duplicated and closed, its number given to another file, and that file
watched and dropped again. -/
def reusedRun : List EpollOp :=
  watchRun ++ [.create 1 (.dup 0 (.ok 7)) (fun _ => 0), .fd (.closeVirtualfd 1 0),
    .create 1 (.openPath (.ok ()) 0 (.ok 5)) (fun _ => 2),
    .epollCtl 1 1 epollCtlAdd 0 (some 88) false, .epollCtl 1 1 epollCtlDel 0 none false]

/-- The first registration of these runs. -/
def watched : Registration := ⟨6, 5, 0, 5, 0, 77⟩

/-- A round in which it is ready. -/
def watchedReady : List EpollRound := [.answer [(watched, 1)] false false]

/-- **What the program passed as data does not come back**: the event carries the descriptor.  A
number given to another file loses the first file's registration, and a registration that ends with
its file stays in the map. -/
theorem not_waitsRight_userData :
    (∃ w, StepsOk EpollWorld.step (fun w op => op.Fresh w) .init watchRun ∧
      runSteps EpollWorld.step .init watchRun = some w ∧ ¬ WaitsRight Registration.userData w) ∧
    (∃ w, runSteps EpollWorld.step .init reusedRun = some w ∧ watched ∈ w.kernel.regs ∧
      w.epollWait 1 1 1 true watchedReady
        = .ok (.failed .EBADF "epoll" "could not translate kernel fd to virtual fd")) ∧
    ∃ w, runSteps EpollWorld.step .init closedRun = some w ∧ w.kernel.regs = [] ∧
      w.realEpollMap 6 5 = some 0 := by
  refine ⟨?_, ?_, ?_⟩
  · have hmap : (runSteps EpollWorld.step .init watchRun).map (fun w => (w.kernel.regs,
        w.kernelEpfd 1 1, w.epollWait 1 1 1 true watchedReady))
          = some ([watched], some 6, .ok (.returned [(0, 1)])) := by decide +kernel
    obtain ⟨w, hw, heq⟩ := map_eq_some_iff.mp hmap
    rw [Prod.mk.injEq, Prod.mk.injEq] at heq
    obtain ⟨hregs, hep, hwait⟩ := heq
    refine ⟨w, by decide +kernel, hw, fun h => ?_⟩
    have hlive : ∀ x ∈ watchedReady, x.Live w 6 := by
      intro x hx
      rw [mem_singleton.mp hx]
      intro y hy
      rw [mem_singleton.mp hy, hregs]
      exact ⟨mem_singleton_self _, rfl⟩
    obtain ⟨ready, elapsed, signalled, hmem, hevents⟩ :=
      h 1 1 6 hep 1 true watchedReady hlive _ hwait
    cases mem_singleton.mp hmem
    cases hevents
  · have hmap : (runSteps EpollWorld.step .init reusedRun).map (fun w => (w.kernel.regs,
        w.epollWait 1 1 1 true watchedReady)) = some ([watched],
          .ok (.failed .EBADF "epoll" "could not translate kernel fd to virtual fd")) := by
      decide +kernel
    obtain ⟨w, hw, heq⟩ := map_eq_some_iff.mp hmap
    rw [Prod.mk.injEq] at heq
    exact ⟨w, hw, heq.1 ▸ mem_singleton_self _, heq.2⟩
  · have hmap : (runSteps EpollWorld.step .init closedRun).map (fun w => (w.kernel.regs,
        w.realEpollMap 6 5)) = some ([], some 0) := by decide +kernel
    obtain ⟨w, hw, heq⟩ := map_eq_some_iff.mp hmap
    rw [Prod.mk.injEq] at heq
    exact ⟨w, hw, heq.1, heq.2⟩

end LindWasm.FdTables
