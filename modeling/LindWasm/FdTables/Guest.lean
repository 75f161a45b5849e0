import LindWasm.FdTables.Basic

/-!
# FdTables/Guest — the descriptor numbers a guest passes down

    dup2, fcntl, poll, epoll_ctl --> fdtables --> row[virtualfd]

A guest names descriptors by arbitrary numbers, and the row has `fdPerProcessMax` slots. Each call
is followed from its arguments to the host call it makes; the host's answer is an argument. A
panic of the tables and an `unwrap` of an error end the runtime (`Crash`).
-/

namespace LindWasm.FdTables

def fdkindKernel : ℕ := 0

def fdtInvalidFd : ℕ := 0xff000001

def fdtKindepoll : ℕ := 0xff000002

def maxfd : ℕ := 1024

def defaultGid : ℤ := 1000

/-- `n as i32`. -/
def asI32 (n : ℕ) : ℤ := (BitVec.ofNat 32 n).toInt

/-- What a descriptor number names in a row: nothing past the end of it. -/
def slotAt (row : FdRow) (virtualfd : ℕ) : Option FDTableEntry :=
  if h : virtualfd < fdPerProcessMax then row ⟨virtualfd, h⟩ else none

/-! ## Descriptors for `poll` -/

/-- The descriptors to poll by kind, and the way back to their virtual numbers. -/
structure PollFds where
  rethashmap : ℕ → List (ℕ × FDTableEntry)
  mappingtable : ℕ × ℕ → Option ℕ

def PollFds.empty : PollFds := ⟨fun _ => [], fun _ => none⟩

def PollFds.insert (p : PollFds) (virtfd : ℕ) (entry : FDTableEntry) : PollFds where
  rethashmap :=
    Function.update p.rethashmap entry.fdkind (p.rethashmap entry.fdkind ++ [(virtfd, entry)])
  mappingtable := Function.update p.mappingtable entry.pair (some virtfd)

/-- What stands in for a descriptor that is not open. -/
def invalidEntry (virtfd : ℕ) : FDTableEntry := ⟨fdtInvalidFd, virtfd, false, fdtInvalidFd⟩

/-- The loop over the requested descriptors; the row is indexed by the number as it comes. -/
def insertVirtualfds (thefdrow : FdRow) : PollFds → List ℕ → Except Panic PollFds
  | p, [] => .ok p
  | p, virtfd :: rest =>
      if h : virtfd < fdPerProcessMax then
        match thefdrow ⟨virtfd, h⟩ with
        | some entry => insertVirtualfds thefdrow (p.insert virtfd entry) rest
        | none => insertVirtualfds thefdrow (p.insert virtfd (invalidEntry virtfd)) rest
      else .error .indexOutOfBounds

def convertVirtualfdsForPoll (s : State) (cageid : ℕ) (virtualfds : List ℕ) :
    Except Panic PollFds :=
  match getRow s cageid with
  | .error p => .error p
  | .ok thefdrow => insertVirtualfds thefdrow .empty virtualfds

/-! ## The epoll table -/

/-- The kernel's epoll descriptors of one epoll descriptor, by kind. -/
abbrev Underfdhashmap := ℕ → Option ℕ

structure EPollTable where
  highestneverusedentry : ℕ
  thisepolltable : ℕ → Option Underfdhashmap

def EPollTable.init : EPollTable := ⟨0, fun _ => none⟩

/-- The descriptor tables with the epoll table beside them. -/
structure Tables where
  fds : State
  ept : EPollTable

def Tables.init : Tables := ⟨.init, .init⟩

inductive EpollErrno where
  | EBADF
  | EINVAL
  deriving DecidableEq

def getEpollEntrynumOrError (s : State) (cageid epfd : ℕ) :
    Except Panic (Except EpollErrno ℕ) :=
  match getRow s cageid with
  | .error p => .error p
  | .ok row =>
      if h : epfd < fdPerProcessMax then
        match row ⟨epfd, h⟩ with
        | none => .ok (.error .EBADF)
        | some tableentry =>
            if tableentry.fdkind = fdtKindepoll then .ok (.ok tableentry.underfd)
            else .ok (.error .EINVAL)
      else .error .indexOutOfBounds

def epollCreateEmpty (t : Tables) (cageid : ℕ) (shouldCloexec : Bool) :
    Except Panic (Except FdError ℕ × Tables) :=
  let newentrynum := t.ept.highestneverusedentry
  match getUnusedVirtualFd t.fds cageid fdtKindepoll newentrynum shouldCloexec 0 with
  | .error p => .error p
  | .ok (.error e, fds) => .ok (.error e, { t with fds })
  | .ok (.ok newepollfd, fds) =>
      let thisepolltable := Function.update t.ept.thisepolltable newentrynum
        (some ((t.ept.thisepolltable newentrynum).getD fun _ => none))
      .ok (.ok newepollfd,
        { fds, ept := { highestneverusedentry := newentrynum + 1, thisepolltable } })

/-- A failed call of the tables as the runtime sees it. -/
inductive Crash where
  | table (p : Panic)
  | unwrap
  | duplicateUnderfd
  deriving DecidableEq

def epollAddUnderfd (t : Tables) (cageid virtepollfd fdkind underfd : ℕ) :
    Except Crash (Except EpollErrno Unit × Tables) :=
  match getEpollEntrynumOrError t.fds cageid virtepollfd with
  | .error p => .error (.table p)
  | .ok (.error e) => .ok (.error e, t)
  | .ok (.ok epentrynum) =>
      match t.ept.thisepolltable epentrynum with
      | none => .error .unwrap
      | some myhm =>
          match myhm fdkind with
          | some _ => .error .duplicateUnderfd
          | none =>
              let myhm := Function.update myhm fdkind (some underfd)
              let thisepolltable := Function.update t.ept.thisepolltable epentrynum (some myhm)
              .ok (.ok (), { t with ept := { t.ept with thisepolltable } })

def epollGetUnderfdHashmap (t : Tables) (cageid virtepollfd : ℕ) :
    Except Crash (Except EpollErrno Underfdhashmap) :=
  match getEpollEntrynumOrError t.fds cageid virtepollfd with
  | .error p => .error (.table p)
  | .ok (.error e) => .ok (.error e)
  | .ok (.ok epentrynum) =>
      match t.ept.thisepolltable epentrynum with
      | none => .error .unwrap
      | some myhm => .ok (.ok myhm)

/-! ## Calls of a guest -/

inductive SysErrno where
  | EBADF
  | EBADFD
  | EINVAL
  | EFAULT
  | EINTR
  deriving DecidableEq

/-- What a call answers. -/
inductive Answer where
  | done
  | entry (e : FDTableEntry)
  | error (e : FdError)
  | polled (p : PollFds)
  | returned (ret : ℤ)
  | failed (errno : SysErrno) (call message : String)
  | hostFailed (call : String)

/-- The answer with the descriptor tables after it, or a crash. -/
abbrev Served := Except Crash (Answer × State)

def dup2Syscall (s : State) (cageid oldVfd newVfd : ℕ) : Served :=
  if oldVfd > maxfd ∨ newVfd > maxfd then .ok (.failed .EBADF "dup2" "Bad File Descriptor", s)
  else if oldVfd = newVfd then .ok (.returned newVfd, s)
  else
    match translateVirtualFd s cageid oldVfd with
    | .error p => .error (.table p)
    | .ok (.error _) => .ok (.failed .EBADF "dup2" "Bad File Descriptor", s)
    | .ok (.ok old) =>
        match getSpecificVirtualFd s cageid newVfd old.fdkind old.underfd false old.perfdinfo with
        | .error p => .error (.table p)
        | .ok (.error _, _) => .error .unwrap
        | .ok (.ok (), s') => .ok (.returned newVfd, s')

def fDupfd : ℤ := 0

def fGetfd : ℤ := 1

def fSetfd : ℤ := 2

def fSetown : ℤ := 8

def fGetown : ℤ := 9

def fDupfdCloexec : ℤ := 1030

def fcntlHelper (s : State) (cageid vfd : ℕ) : Except Panic (Except SysErrno FDTableEntry) :=
  if vfd > maxfd then .ok (.error .EBADF)
  else
    match translateVirtualFd s cageid vfd with
    | .error p => .error p
    | .ok (.error _) => .ok (.error .EBADF)
    | .ok (.ok entry) => .ok (.ok entry)

/-- A command that needs the descriptor's entry first. -/
def fcntlWith (s : State) (cageid vfd : ℕ) (command : FDTableEntry → Served) : Served :=
  match fcntlHelper s cageid vfd with
  | .error p => .error (.table p)
  | .ok (.error e) => .ok (.failed e "fcntl" "Bad File Descriptor", s)
  | .ok (.ok entry) => command entry

/-- `F_DUPFD` and `F_DUPFD_CLOEXEC`; a negative start wraps to one no descriptor reaches. -/
def fcntlDup (s : State) (cageid vfd : ℕ) (shouldCloexec : Bool) (arg : ℤ) : Served :=
  fcntlWith s cageid vfd fun entry =>
    match getUnusedVirtualFdFromStartfd s cageid entry.fdkind entry.underfd shouldCloexec 0
      (arg % 2 ^ 64).toNat with
    | .error p => .error (.table p)
    | .ok (.error _, s') => .ok (.failed .EBADF "fcntl" "Bad File Descriptor", s')
    | .ok (.ok newVfd, s') => .ok (.returned newVfd, s')

def fcntlSetfd (s : State) (cageid vfd : ℕ) (arg hostRet : ℤ) : Served :=
  fcntlWith s cageid vfd fun _ =>
    if hostRet < 0 then .ok (.hostFailed "fcntl", s)
    else
      match setCloexec s cageid vfd (arg ≠ 0) with
      | .error p => .error (.table p)
      | .ok (.error _, s') => .ok (.failed .EBADF "fcntl" "Bad File Descriptor", s')
      | .ok (.ok (), s') => .ok (.returned 0, s')

/-- `hostRet` is what the host's `fcntl` returns, where it is called. -/
def fcntlSyscall (s : State) (cageid vfd : ℕ) (cmd arg hostRet : ℤ) : Served :=
  if cmd = fDupfd then fcntlDup s cageid vfd false arg
  else if cmd = fDupfdCloexec then fcntlDup s cageid vfd true arg
  else if cmd = fGetfd then
    fcntlWith s cageid vfd fun entry => .ok (.returned (if entry.shouldCloexec then 1 else 0), s)
  else if cmd = fSetfd then fcntlSetfd s cageid vfd arg hostRet
  else if cmd = fGetown then .ok (.returned defaultGid, s)
  else if cmd = fSetown ∧ arg ≥ 0 then .ok (.returned 0, s)
  else
    fcntlWith s cageid vfd fun _ =>
      if hostRet < 0 then .ok (.hostFailed "fcntl", s) else .ok (.returned hostRet, s)

/-- The descriptors of a `pollfd` array that are looked at. -/
def pollVirtualFds (fds : List ℤ) : List ℕ := ((fds.filter (0 ≤ ·)).map Int.toNat).dedup

/-- `poll` down to its descriptors; `fds` are the `fd` fields of the guest's array. -/
def pollSyscall (s : State) (cageid : ℕ) (fds : List ℤ) : Served :=
  if fds.length > fdPerProcessMax then
    .ok (.failed .EINVAL "poll_syscall" "Too many file descriptors", s)
  else if fds.length = 0 then .ok (.returned 0, s)
  else if pollVirtualFds fds = [] then .ok (.returned 0, s)
  else
    match convertVirtualfdsForPoll s cageid (pollVirtualFds fds) with
    | .error p => .error (.table p)
    | .ok p => .ok (.polled p, s)

def epollCtlAdd : ℤ := 1

def epollCtlDel : ℤ := 2

def epollCtlMod : ℤ := 3

/-- `eventOk` tells whether the event's address can be read, `hostRet` what the host's `epoll_ctl`
returns. The epoll descriptor is unwrapped before anything is checked. -/
def epollCtlSyscall (t : Tables) (cageid epfd : ℕ) (op : ℤ) (fd : ℕ) (eventOk : Bool)
    (hostRet : ℤ) : Served :=
  match epollGetUnderfdHashmap t cageid epfd with
  | .error c => .error c
  | .ok (.error _) => .error .unwrap
  | .ok (.ok underfds) =>
      match underfds fdkindKernel with
      | none => .error .unwrap
      | some _ =>
          if op ≠ epollCtlAdd ∧ op ≠ epollCtlMod ∧ op ≠ epollCtlDel then
            .ok (.failed .EINVAL "epoll_ctl_syscall" "Invalid operation", t.fds)
          else
            match translateVirtualFd t.fds cageid fd with
            | .error p => .error (.table p)
            | .ok (.error _) =>
                .ok (.failed .EBADF "epoll_ctl_syscall" "Bad File Descriptor", t.fds)
            | .ok (.ok _) =>
                if eventOk = false ∧ op ≠ epollCtlDel then
                  .ok (.failed .EFAULT "epoll_ctl_syscall" "Invalid address", t.fds)
                else if hostRet < 0 then .ok (.hostFailed "epoll_ctl_syscall", t.fds)
                else .ok (.returned hostRet, t.fds)

/-! ## Requests

A request is a call with a descriptor number in it, made for a cage. -/

inductive Request where
  | translateVirtualFd (virtualfd : ℕ)
  | getSpecificVirtualFd (requestedVirtualfd fdkind underfd : ℕ) (shouldCloexec : Bool)
      (perfdinfo : ℕ)
  | setCloexec (virtualfd : ℕ) (isCloexec : Bool)
  | setPerfdinfo (virtualfd perfdinfo : ℕ)
  | closeVirtualfd (virtfd : ℕ)
  | convertVirtualfdsForPoll (virtualfds : List ℕ)
  | dup2 (oldVfd newVfd : ℕ)
  | fcntl (vfd : ℕ) (cmd arg hostRet : ℤ)
  | poll (fds : List ℤ)
  | epollCtl (epfd : ℕ) (op : ℤ) (fd : ℕ) (eventOk : Bool) (hostRet : ℤ)

/-- A call of the tables, served as it is. -/
def ofOutcome : Outcome Unit → Served
  | .error p => .error (.table p)
  | .ok (.error e, s') => .ok (.error e, s')
  | .ok (.ok (), s') => .ok (.done, s')

def serve (t : Tables) (cageid : ℕ) : Request → Served
  | .translateVirtualFd v =>
      match translateVirtualFd t.fds cageid v with
      | .error p => .error (.table p)
      | .ok (.error e) => .ok (.error e, t.fds)
      | .ok (.ok entry) => .ok (.entry entry, t.fds)
  | .getSpecificVirtualFd v k u x i => ofOutcome (getSpecificVirtualFd t.fds cageid v k u x i)
  | .setCloexec v x => ofOutcome (setCloexec t.fds cageid v x)
  | .setPerfdinfo v i => ofOutcome (setPerfdinfo t.fds cageid v i)
  | .closeVirtualfd v => ofOutcome (closeVirtualfd t.fds cageid v)
  | .convertVirtualfdsForPoll vs =>
      match convertVirtualfdsForPoll t.fds cageid vs with
      | .error p => .error (.table p)
      | .ok p => .ok (.polled p, t.fds)
  | .dup2 old new => dup2Syscall t.fds cageid old new
  | .fcntl v cmd arg ret => fcntlSyscall t.fds cageid v cmd arg ret
  | .poll fds => pollSyscall t.fds cageid fds
  | .epollCtl epfd op fd eventOk ret => epollCtlSyscall t cageid epfd op fd eventOk ret

/-! ## Runs -/

/-- The calls that fill the tables. -/
inductive TablesOp where
  | fd (op : Op)
  | epollCreateEmpty (cageid : ℕ) (shouldCloexec : Bool)
  | epollAddUnderfd (cageid virtepollfd fdkind underfd : ℕ)

/-- One call of a run; a crash stops the run. -/
def Tables.step (t : Tables) : TablesOp → Option Tables
  | .fd op => (FdTables.step t.fds op).map fun fds => { t with fds }
  | .epollCreateEmpty c x => (FdTables.epollCreateEmpty t c x).toOption.map Prod.snd
  | .epollAddUnderfd c v k u => (FdTables.epollAddUnderfd t c v k u).toOption.map Prod.snd

end LindWasm.FdTables
