import LindWasm.Machinery.Tally
import LindWasm.Memory.Basic

/-!
# Shm/Basic — System V segments over the life of many cages

    shmtable : shmid ↦ segment (nattch, attached_cages)     rev_shm of a cage : [(address, shmid)]

An attachment is written down three times: in the counter of the segment, in the segment's table of
cages, and in the reverse list of the cage. `shmat` and `shmdt` write all three; `fork`, `exec`
and `exit` touch the reverse list alone. Where a segment goes in a cage is the vmmap's answer and
an argument here.
-/

namespace LindWasm.Shm

open LindWasm.Memory (roundUpPage swapRemove)

/-! ## Segments -/

abbrev Shmid := BitVec 32

def ipcCreat : BitVec 32 := 0o1000

def ipcExcl : BitVec 32 := 0o2000

def shmmin : ℕ := 1

def shmmax : ℕ := 4278190079

structure Segment where
  key : BitVec 32
  size : ℕ
  nattch : ℕ
  rmid : Bool
  attachedCages : AList fun _ : ℕ => ℕ

namespace Segment

def new (key : BitVec 32) (size : ℕ) : Segment := ⟨key, size, 0, false, ∅⟩

/-- The counters `map_shm` leaves, whether or not the host's `mmap` succeeds. -/
def mapShm (segment : Segment) (cageid : ℕ) : Segment :=
  { segment with
    nattch := segment.nattch + 1
    attachedCages := match segment.attachedCages.lookup cageid with
      | some n => segment.attachedCages.insert cageid (n + 1)
      | none => segment.attachedCages.insert cageid 1 }

/-- The counters `unmap_shm` leaves; it panics for a cage that is not in the table. -/
def unmapShm (segment : Segment) (cageid : ℕ) : Option Segment :=
  (segment.attachedCages.lookup cageid).map fun n =>
    { segment with
      nattch := segment.nattch - 1
      attachedCages :=
        if n - 1 = 0 then segment.attachedCages.erase cageid
        else segment.attachedCages.insert cageid (n - 1) }

end Segment

/-! ## The system -/

/-- What a cage knows of its attachments: where its memory starts, and the reverse list. -/
structure Cage where
  base : ℕ
  revShm : List (ℕ × Shmid)

structure System where
  nextid : Shmid
  shmkeyidtable : BitVec 32 → Option Shmid
  shmtable : Shmid → Option Segment
  cages : AList fun _ : ℕ => Cage

inductive Errno where
  | EEXIST
  | ENOENT
  | EINVAL
  deriving DecidableEq

/-- Why a call fails. -/
inductive ShmError where
  | refused (errno : Errno) (call message : String)
  /-- The vmmap has no place for the segment, or the address does not suit. -/
  | noPlace
  /-- The host's `mmap` failed. -/
  | host (call : String)
  deriving DecidableEq

/-- What a call returns, with the system after it; `none` when it panics. -/
abbrev Outcome := Option (Except ShmError (BitVec 32) × System)

namespace System

variable (sys : System) (shmid : Shmid)

/-- A segment that is gone takes its key along. -/
def remove (key : BitVec 32) : System :=
  { sys with
    shmtable := Function.update sys.shmtable shmid none
    shmkeyidtable := Function.update sys.shmkeyidtable key none }

def setSegment (segment : Segment) : System :=
  { sys with shmtable := Function.update sys.shmtable shmid (some segment) }

/-- `backed` tells whether the file behind a new segment can be made; it is unwrapped. -/
def shmget (sys : System) (key : BitVec 32) (size : ℕ) (shmflg : BitVec 32) (backed : Bool) :
    Outcome :=
  let roundedSize := roundUpPage size
  match sys.shmkeyidtable key with
  | some shmid =>
      if shmflg &&& (ipcCreat ||| ipcExcl) = ipcCreat ||| ipcExcl then
        some (.error (.refused .EEXIST "shmget"
          "key already exists and IPC_CREAT and IPC_EXCL were used"), sys)
      else some (.ok shmid, sys)
  | none =>
      if shmflg &&& ipcCreat = 0 then
        some (.error (.refused .ENOENT "shmget"
          "tried to use a key that did not exist, and IPC_CREAT was not specified"), sys)
      else if roundedSize % 2 ^ 32 < shmmin ∨ roundedSize % 2 ^ 32 > shmmax then
        some
          (.error (.refused .EINVAL "shmget" "Size is less than SHMMIN or more than SHMMAX"), sys)
      else if backed then
        let shmid := sys.nextid
        some (.ok shmid, { sys with
          nextid := sys.nextid + 1
          shmkeyidtable := Function.update sys.shmkeyidtable key (some shmid)
          shmtable := Function.update sys.shmtable shmid (some (.new key roundedSize)) })
      else none

/-- `place` is the address the vmmap gives, `mapped` whether the host's `mmap` succeeds; the lists
are written before it is called and stay as they are when it fails. -/
def shmat (sys : System) (cageid : ℕ) (shmid : Shmid) (place : Option ℕ) (mapped : Bool) :
    Outcome :=
  (sys.cages.lookup cageid).bind fun cage =>
    match sys.shmtable shmid with
    | none => some (.error (.refused .EINVAL "shmat" "invalid shmid"), sys)
    | some segment =>
        match place with
        | none => some (.error .noPlace, sys)
        | some useraddr =>
            let cage := { cage with revShm := cage.revShm ++ [(cage.base + useraddr, shmid)] }
            let sys := { sys.setSegment shmid (segment.mapShm cageid) with
              cages := sys.cages.insert cageid cage }
            if mapped then some (.ok (BitVec.ofNat 32 useraddr), sys)
            else some (.error (.host "shmat"), sys)

/-- The address is one of the host, as the reverse list has it. -/
def shmdt (sys : System) (cageid sysaddr : ℕ) : Outcome :=
  (sys.cages.lookup cageid).bind fun cage =>
    if sysaddr % pageSize ≠ 0 then
      some (.error (.refused .EINVAL "shmdt" "address is not aligned"), sys)
    else
      match cage.revShm.findIdx? fun val => val.1 = sysaddr with
      | none =>
          some (.error (.refused .EINVAL "shmdt" "No shared memory segment at shmaddr"), sys)
      | some index =>
          cage.revShm[index]?.bind fun val =>
            (sys.shmtable val.2).bind fun segment =>
              (segment.unmapShm cageid).map fun segment' =>
                let sys := { sys with
                  cages := sys.cages.insert cageid
                    { cage with revShm := swapRemove cage.revShm index } }
                (.ok (BitVec.ofNat 32 segment.size),
                  if segment'.rmid ∧ segment'.nattch = 0 then sys.remove val.2 segment.key
                  else sys.setSegment val.2 segment')

/-- `shmctl` with `IPC_RMID`. -/
def shmctlRmid : Outcome :=
  match sys.shmtable shmid with
  | none => some (.error (.refused .EINVAL "shmctl" "Invalid identifier"), sys)
  | some segment =>
      some (.ok 0, if segment.nattch = 0 then sys.remove shmid segment.key
        else sys.setSegment shmid { segment with rmid := true })

/-- The child gets a clone of the vmmap and an empty reverse list. -/
def fork (parent child base : ℕ) : Option System :=
  match sys.cages.lookup parent, sys.cages.lookup child with
  | some _, none => some { sys with cages := sys.cages.insert child ⟨base, []⟩ }
  | _, _ => none

/-- The reverse list is cleared; the segments are not told. -/
def exec (cageid base : ℕ) : Option System :=
  (sys.cages.lookup cageid).map fun _ =>
    { sys with cages := sys.cages.insert cageid ⟨base, []⟩ }

/-- The cage leaves the table; the segments are not told. -/
def exit (cageid : ℕ) : Option System :=
  (sys.cages.lookup cageid).map fun _ => { sys with cages := sys.cages.erase cageid }

end System

/-! ## Runs -/

inductive Action where
  | shmget (key : BitVec 32) (size : ℕ) (shmflg : BitVec 32) (backed : Bool)
  | shmat (cageid : ℕ) (shmid : Shmid) (place : Option ℕ) (mapped : Bool)
  | shmdt (cageid sysaddr : ℕ)
  | shmctlRmid (shmid : Shmid)
  | fork (parent child base : ℕ)
  | exec (cageid base : ℕ)
  | exit (cageid : ℕ)

/-- One action; `none` when it panics. -/
def System.step (sys : System) : Action → Option System
  | .shmget key size shmflg backed => (sys.shmget key size shmflg backed).map Prod.snd
  | .shmat c shmid place mapped => (sys.shmat c shmid place mapped).map Prod.snd
  | .shmdt c sysaddr => (sys.shmdt c sysaddr).map Prod.snd
  | .shmctlRmid shmid => (sys.shmctlRmid shmid).map Prod.snd
  | .fork parent child base => sys.fork parent child base
  | .exec c base => sys.exec c base
  | .exit c => sys.exit c

/-- No segments, and cages without attachments. -/
def System.boot (cages : List (ℕ × ℕ)) : System :=
  ⟨1, fun _ => none, fun _ => none,
    cages.foldl (fun t c => t.insert c.1 ⟨c.2, []⟩) ∅⟩

/-! ## What is attached

An attachment is at an address of the guest's own memory, so that a child has its parent's. -/

/-- What a cage has attached, by address. -/
abbrev Attachments := AList fun _ : ℕ => Shmid

/-- How often a segment is attached. -/
def Attachments.count (h : Attachments) (shmid : Shmid) : ℕ :=
  AList.total h fun x => if x = shmid then 1 else 0

/-- What each live cage has attached. -/
abbrev Holdings := AList fun _ : ℕ => Attachments

/-- **How often a segment is attached, over all live cages.** -/
def Holdings.count (held : Holdings) (shmid : Shmid) : ℕ :=
  AList.total held fun h => h.count shmid

/-- The system beside what is attached. -/
structure World where
  sys : System
  held : Holdings

/-- Change what one cage has attached. -/
def Holdings.modify (held : Holdings) (cageid : ℕ) (f : Attachments → Attachments) : Holdings :=
  match held.lookup cageid with
  | some h => held.insert cageid (f h)
  | none => held

/-- **What is attached after an action**: a successful `shmat` attaches and a `shmdt` detaches, a
child has what its parent has, and an `exec` or an exit ends everything. -/
def World.heldAfter (w : World) : Action → Holdings
  | .shmget .. | .shmctlRmid _ => w.held
  | .shmat c shmid place mapped =>
      match place with
      | some useraddr =>
          if mapped = true ∧ (w.sys.shmtable shmid).isSome then
            w.held.modify c fun h => h.insert useraddr shmid
          else w.held
      | none => w.held
  | .shmdt c sysaddr =>
      match w.sys.cages.lookup c with
      | some cage =>
          if sysaddr % pageSize = 0 ∧ cage.base ≤ sysaddr then
            w.held.modify c fun h => h.erase (sysaddr - cage.base)
          else w.held
      | none => w.held
  | .fork parent child _ =>
      match w.held.lookup parent with
      | some h => w.held.insert child h
      | none => w.held
  | .exec c _ => w.held.insert c ∅
  | .exit c => w.held.erase c

/-- A place the vmmap gives is free: nothing the cage has attached is there. -/
def World.Placed (w : World) : Action → Prop
  | .shmat c _ (some useraddr) _ => ∀ h, w.held.lookup c = some h → h.lookup useraddr = none
  | _ => True

instance World.decidablePlaced (w : World) : (a : Action) → Decidable (w.Placed a)
  | .shmat c _ (some useraddr) _ =>
      inferInstanceAs (Decidable (∀ h ∈ w.held.lookup c, h.lookup useraddr = none))
  | .shmat _ _ none _ | .shmget .. | .shmdt .. | .shmctlRmid _ | .fork .. | .exec .. | .exit _ =>
      isTrue trivial

def World.step (w : World) (a : Action) : Option World :=
  if w.Placed a then (w.sys.step a).map fun sys => ⟨sys, w.heldAfter a⟩ else none

def World.boot (cages : List (ℕ × ℕ)) : World :=
  ⟨.boot cages, cages.foldl (fun t c => t.insert c.1 ∅) ∅⟩

end LindWasm.Shm
