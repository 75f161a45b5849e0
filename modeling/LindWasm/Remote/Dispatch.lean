import LindWasm.Machinery.Traced
import LindWasm.Remote.Protocol

/-!
# Remote/Dispatch — a remote call and the caller's memory

    raw args --sizes--> pointers --read--> request ⇝ server ⇝ response --write--> memory

`dispatch_remote_call` takes pointers and sizes as the guest passes them, and writes back as much as
the server answers. Nothing is checked on the way; every range it reads or writes is in the trace,
and `dispatch_memorySafe` says exactly which calls and answers keep it where it should be.
-/

namespace LindWasm.Remote

open Option List Traced

/-! ## Guest values and guest memory -/

/-- A value passed to a wrapped function. -/
inductive Val where
  | i32 (x : BitVec 32)
  | i64 (x : BitVec 64)
  | f32 (bits : BitVec 32)
  | f64 (bits : BitVec 64)
  | other

/-- The wrapper's conversion; an `i32` is sign-extended. -/
def Val.raw : Val → BitVec 64
  | .i32 x => x.signExtend 64
  | .i64 x => x
  | .f32 bits => bits.setWidth 64
  | .f64 bits => bits
  | .other => 0

/-- Where the host has the linear memory, which is always 4 GiB. -/
structure Linear where
  base : ℕ
  fits : base + 2 ^ 32 ≤ 2 ^ 64

variable (g : Linear)

/-- The host address of the `k`-th byte from `mem_base.add(ptr)`. -/
def Linear.host (ptr k : ℕ) : ℕ := (g.base + ptr + k) % 2 ^ 64

/-- `n` bytes from `ptr` on. -/
def Linear.peek (mem : Mem) (ptr n : ℕ) : List Byte :=
  (List.range n).map fun k => mem (g.host ptr k)

/-- The memory with `bytes` written from `ptr` on. -/
def Linear.poke (mem : Mem) (ptr : ℕ) (bytes : List Byte) : Mem := fun a =>
  if a < 2 ^ 64 then (bytes[(a + 2 ^ 64 - g.host ptr 0) % 2 ^ 64]?).getD (mem a) else mem a

/-! ## Pointer arguments -/

/-- A pointer argument: its index, its direction, the pointer and the resolved size. -/
structure PtrInfo where
  index : ℕ
  direction : Direction
  ptr : ℕ
  size : ℕ
  deriving DecidableEq

/-- A range read, or written for an argument. -/
inductive Access where
  | read (ptr len : ℕ)
  | write (arg : PtrInfo) (len : ℕ)
  deriving DecidableEq

def Access.ptr : Access → ℕ
  | .read ptr _ => ptr
  | .write arg _ => arg.ptr

def Access.len : Access → ℕ
  | .read _ len => len
  | .write _ len => len

def maxScan : ℕ := 4096

/-- The bytes up to the terminator and with it, no more than `MAX_SCAN`; as many are looked at. -/
def scanLen (mem : Mem) (ptr : ℕ) : ℕ :=
  (((g.peek mem ptr maxScan).findIdx? fun b => b = 0).map (· + 1)).getD maxScan

section Resolve

variable (raw : List (BitVec 64)) (g : Linear) (mem : Mem)

/-- The first pass at one argument: sizes given by an argument or by a terminator. -/
def firstSize : ArgSpec × ℕ → Traced Access (Option ℕ)
  | (.scalar, _) => .pure none
  | (.ptr _ size, i) =>
      (Traced.ofOption raw[i]?).bind fun p =>
        match size with
        | .arg j => (Traced.ofOption raw[j]?).map fun n => some n.toNat
        | .nullTerminated =>
            .emit (.read p.toNat (scanLen g mem p.toNat)) (some (scanLen g mem p.toNat))
        | .sameAsPtrArg _ => .pure none

/-- The second pass, in order: a size taken over may have been taken over itself. -/
def secondPass (args : List (ArgSpec × ℕ)) (resolved : List (Option ℕ)) : List (Option ℕ) :=
  args.foldl (fun resolved x =>
    match x.1 with
    | .ptr _ (.sameAsPtrArg j) => resolved.set x.2 (resolved[j]?).join
    | _ => resolved) resolved

/-- The pointers with their sizes; one that has none stops the call. -/
def ptrInfos (resolved : List (Option ℕ)) : List (ArgSpec × ℕ) → Option (List PtrInfo)
  | [] => some []
  | (.scalar, _) :: rest => ptrInfos resolved rest
  | (.ptr d _, i) :: rest =>
      (raw[i]?).bind fun p => (resolved[i]?).join.bind fun n =>
        (ptrInfos resolved rest).map (⟨i, d, p.toNat, n⟩ :: ·)

/-- The pointer arguments of a call with their resolved sizes. -/
def resolve (m : FunctionMeta) : Traced Access (List PtrInfo) :=
  (Traced.each (firstSize raw g mem) m.args.zipIdx).bind fun resolved =>
    .ofOption (ptrInfos raw (secondPass m.args.zipIdx resolved) m.args.zipIdx)

end Resolve

/-! ## The call -/

/-- The largest slice there is: a longer one cannot be copied. -/
def isizeMax : ℕ := 2 ^ 63 - 1

/-- The payload of a pointer argument. -/
def ptrBuf (mem : Mem) (x : PtrInfo) : Traced Access PtrBuf :=
  if x.direction ≠ .dirOut then
    if isizeMax < x.size then .stop
    else .emit (.read x.ptr x.size) ⟨x.direction, BitVec.ofNat 32 x.size, g.peek mem x.ptr x.size⟩
  else .pure ⟨x.direction, BitVec.ofNat 32 x.size, []⟩

/-- What a call has ready to send: the pointers, and the payloads. -/
structure Prepared where
  infos : List PtrInfo
  bufs : List PtrBuf

def prepare (raw : List (BitVec 64)) (g : Linear) (mem : Mem) (m : FunctionMeta) :
    Traced Access Prepared :=
  (resolve raw g mem m).bind fun infos => (Traced.each (ptrBuf g mem) infos).map (Prepared.mk infos)

/-- The arguments with the pointers zeroed out. -/
def scalarArgs (raw : List (BitVec 64)) (infos : List PtrInfo) : List (BitVec 64) :=
  infos.foldl (fun args x => args.set x.index 0) raw

def Prepared.request (x : Prepared) (callId : BitVec 32) (raw : List (BitVec 64)) : List Byte :=
  rpcCallWithPtrs callId (scalarArgs raw x.infos) x.bufs

def PtrInfo.comesBack (x : PtrInfo) : Bool := x.direction = .dirOut ∨ x.direction = .dirInOut

/-- The output buffers, each written for the next argument that takes one. -/
def writeBack (g : Linear) : List PtrInfo → List (List Byte) → Mem → Traced Access Mem
  | [], _, mem => .pure mem
  | x :: xs, outBufs, mem =>
      if x.comesBack then
        match outBufs with
        | [] => writeBack g xs [] mem
        | buf :: outBufs =>
            (Traced.emit (.write x buf.length) (g.poke mem x.ptr buf)).bind
              (writeBack g xs outBufs)
      else writeBack g xs outBufs mem

/-- `dispatch_remote_call`, with a server that answers as it likes: the result, and the memory. -/
def dispatchRemoteCall (st : RoutingState) (callId : BitVec 32) (symbol : String)
    (raw : List (BitVec 64)) (g : Linear) (server : List Byte → List Byte) (mem : Mem) :
    Traced Access (BitVec 64 × Mem) :=
  match st.getMeta symbol with
  | some m =>
      (prepare raw g mem m).bind fun x =>
        (Traced.ofOption (readResponseWithPtrs (server (x.request callId raw)))).bind fun r =>
          (writeBack g x.infos r.1.2.2 mem).map fun mem => (r.1.1, mem)
  | none =>
      (Traced.ofOption (readResponse (server (rpcCall callId raw)))).map fun r => (r.1.1, mem)

/-- What the call sends, if it comes to that. -/
def request (st : RoutingState) (callId : BitVec 32) (symbol : String) (raw : List (BitVec 64))
    (g : Linear) (mem : Mem) : Option (List Byte) :=
  match st.getMeta symbol with
  | some m => (prepare raw g mem m).value.map fun x => x.request callId raw
  | none => some (rpcCall callId raw)

/-! ## Memory safety -/

/-- Every byte of the range lies in the guest's memory. -/
def Linear.Covers (ptr len : ℕ) : Prop :=
  ∀ k < len, g.base ≤ g.host ptr k ∧ g.host ptr k < g.base + 2 ^ 32

/-- The access stays inside the guest's memory and, if it is a write, inside the buffer of an OUT or
INOUT argument of the call. -/
structure Access.Safe (infos : Option (List PtrInfo)) (a : Access) : Prop where
  inside : g.Covers a.ptr a.len
  write : ∀ x len, a = .write x len →
    (∃ l, infos = some l ∧ x ∈ l) ∧ x.comesBack ∧ len ≤ x.size

/-- Everything the call reads and writes is safe. -/
def MemorySafe (st : RoutingState) (callId : BitVec 32) (symbol : String)
    (raw : List (BitVec 64)) (g : Linear) (server : List Byte → List Byte) (mem : Mem) : Prop :=
  (dispatchRemoteCall st callId symbol raw g server mem).All
    (Access.Safe g ((st.getMeta symbol).bind fun m => (resolve raw g mem m).value))

/-- A range lies in the guest's memory just if it ends there and does not start beyond. -/
theorem Linear.covers_iff (g : Linear) {ptr : ℕ} (hptr : ptr < 2 ^ 64) (len : ℕ) :
    g.Covers ptr len ↔ len = 0 ∨ ptr + len ≤ 2 ^ 32 := by
  have hfits := g.fits
  constructor
  · intro h
    by_contra hno
    have hfirst := h 0 (by omega)
    rw [Linear.host] at hfirst
    have hlow : ptr < 2 ^ 32 := by omega
    -- the first byte past the end of the memory
    have hpast := h (2 ^ 32 - ptr) (by omega)
    rw [Linear.host] at hpast
    omega
  · rintro (rfl | h) k hk
    · omega
    · rw [Linear.host]
      omega

/-- The first pass gets by an argument: a pointer is passed, and so is the argument that gives its
size. -/
def Passed (raw : List (BitVec 64)) : ArgSpec × ℕ → Prop
  | (.scalar, _) => True
  | (.ptr _ size, i) => raw[i]? ≠ none ∧ ∀ j, size = .arg j → raw[j]? ≠ none

/-- The payload can be made: what is sent is no longer than a slice can be. -/
def PtrInfo.Copyable (x : PtrInfo) : Prop := x.direction ≠ .dirOut → x.size ≤ isizeMax

/-- Every string the first pass comes to ends in the guest's memory. -/
def ScansFit (raw : List (BitVec 64)) (g : Linear) (mem : Mem) (m : FunctionMeta) : Prop :=
  ∀ before i d after p, m.args.zipIdx = before ++ (.ptr d .nullTerminated, i) :: after →
    (∀ y ∈ before, Passed raw y) → raw[i]? = some p → p.toNat + scanLen g mem p.toNat ≤ 2 ^ 32

/-- Every payload the call comes to ends in the guest's memory. -/
def ReadsFit (raw : List (BitVec 64)) (g : Linear) (mem : Mem) (m : FunctionMeta) : Prop :=
  ∀ infos, (resolve raw g mem m).value = some infos → ∀ before x after,
    infos = before ++ x :: after → (∀ y ∈ before, y.Copyable) →
    x.direction ≠ .dirOut → x.size ≤ isizeMax → x.size = 0 ∨ x.ptr + x.size ≤ 2 ^ 32

/-- The pointers, the sizes and the answer of a call fit the memory, and the answer fits the sizes:
what is scanned or sent ends in the guest's memory, and so does what comes back, which is no longer
than the argument it comes back for. -/
structure Fits (callId : BitVec 32) (raw : List (BitVec 64)) (g : Linear)
    (server : List Byte → List Byte) (mem : Mem) (m : FunctionMeta) : Prop where
  scans : ScansFit raw g mem m
  reads : ReadsFit raw g mem m
  writes : ∀ x, (prepare raw g mem m).value = some x →
    ∀ r, readResponseWithPtrs (server (x.request callId raw)) = some r →
    ∀ y ∈ (x.infos.filter PtrInfo.comesBack).zip r.1.2.2,
      y.2.length ≤ y.1.size ∧ (y.2.length = 0 ∨ y.1.ptr + y.2.length ≤ 2 ^ 32)

section Safety

variable {raw : List (BitVec 64)} {g : Linear} {mem : Mem} {m : FunctionMeta} {infos : List PtrInfo}
  {x : PtrInfo}

theorem scanLen_pos (g : Linear) (mem : Mem) (ptr : ℕ) : 0 < scanLen g mem ptr := by
  rw [scanLen]
  cases (g.peek mem ptr maxScan).findIdx? fun b => b = 0 with
  | none => exact Nat.succ_pos 4095
  | some k => exact Nat.succ_pos k

theorem ptr_of_ptrInfos {resolved : List (Option ℕ)} {args : List (ArgSpec × ℕ)}
    (h : ptrInfos raw resolved args = some infos) (hx : x ∈ infos) :
    ∃ p, raw[x.index]? = some p ∧ x.ptr = p.toNat := by
  induction args generalizing infos with
  | nil =>
    cases h
    exact absurd hx not_mem_nil
  | cons a args ih =>
    obtain ⟨_ | ⟨d, size⟩, i⟩ := a
    · exact ih h hx
    · obtain ⟨p, hp, h⟩ := bind_eq_some_iff.mp h
      obtain ⟨n, -, h⟩ := bind_eq_some_iff.mp h
      obtain ⟨rest, hrest, rfl⟩ := map_eq_some_iff.mp h
      rcases mem_cons.mp hx with rfl | hx
      · exact ⟨p, hp, rfl⟩
      · exact ih hrest hx

theorem ptr_of_resolve (h : (resolve raw g mem m).value = some infos)
    (hx : x ∈ infos) : ∃ p, raw[x.index]? = some p ∧ x.ptr = p.toNat := by
  rw [resolve, value_bind] at h
  obtain ⟨resolved, -, h⟩ := bind_eq_some_iff.mp h
  rw [value_ofOption] at h
  exact ptr_of_ptrInfos h hx

theorem ptr_lt_of_resolve (h : (resolve raw g mem m).value = some infos)
    (hx : x ∈ infos) : x.ptr < 2 ^ 64 := by
  obtain ⟨p, -, hp⟩ := ptr_of_resolve h hx
  rw [hp]
  exact p.isLt

variable {P : Access → Prop} {outBufs : List (List Byte)}

theorem all_firstSize {s : ArgSpec} {i : ℕ} :
    (firstSize raw g mem (s, i)).All P ↔ ∀ d p, s = .ptr d .nullTerminated → raw[i]? = some p →
      P (.read p.toNat (scanLen g mem p.toNat)) := by
  obtain _ | ⟨d, size⟩ := s
  · exact iff_of_true (Traced.all_pure none) fun d p hs => absurd hs (by simp)
  · rw [firstSize, Traced.all_bind, and_iff_right (Traced.all_ofOption _), Traced.value_ofOption]
    constructor
    · intro h d' p hs hp
      obtain ⟨rfl, rfl⟩ : d = d' ∧ size = .nullTerminated := by simpa using hs
      exact (Traced.all_emit _).mp (h p hp)
    · intro h p hp
      cases size with
      | arg j => exact (Traced.all_map _ _).mpr (Traced.all_ofOption _)
      | sameAsPtrArg j => exact Traced.all_pure none
      | nullTerminated => exact (Traced.all_emit _).mpr (h d p rfl hp)

theorem firstSize_ne_none {y : ArgSpec × ℕ} :
    (firstSize raw g mem y).value ≠ none ↔ Passed raw y := by
  obtain ⟨_ | ⟨d, size⟩, i⟩ := y
  · exact iff_of_true (some_ne_none _) trivial
  · rw [firstSize, value_bind, value_ofOption, Passed]
    cases raw[i]? with
    | none => simp
    | some p => cases size <;> simp [Traced.map, Traced.pure, Traced.emit]

theorem ptrBuf_ne_none : (ptrBuf g mem x).value ≠ none ↔ x.Copyable := by
  rw [ptrBuf, PtrInfo.Copyable]
  split_ifs <;> simp_all [Traced.stop, Traced.emit, Traced.pure]

theorem all_ptrBuf : (ptrBuf g mem x).All P ↔
      (x.direction ≠ .dirOut → x.size ≤ isizeMax → P (.read x.ptr x.size)) := by
  rw [ptrBuf]
  by_cases hd : x.direction ≠ .dirOut
  · rw [if_pos hd, forall_prop_of_true hd]
    by_cases hs : isizeMax < x.size
    · rw [if_pos hs]
      exact iff_of_true all_stop fun hle => absurd hs (not_lt.mpr hle)
    · rw [if_neg hs, all_emit, forall_prop_of_true (not_lt.mp hs)]
  · rw [if_neg hd]
    exact iff_of_true (all_pure _) fun h => absurd h hd

/-- **The way back writes each buffer for the next argument that takes one.** -/
theorem all_writeBack {xs : List PtrInfo} {mem : Mem} : (writeBack g xs outBufs mem).All P ↔
      ∀ y ∈ (xs.filter PtrInfo.comesBack).zip outBufs, P (.write y.1 y.2.length) := by
  induction xs generalizing outBufs mem with
  | nil => exact iff_of_true (Traced.all_pure _) (by simp)
  | cons x xs ih =>
    by_cases hx : x.comesBack = true
    · rw [filter_cons_of_pos hx]
      cases outBufs with
      | nil =>
        have hnext : writeBack g (x :: xs) [] mem = writeBack g xs [] mem := if_pos hx
        rw [hnext, ih, zip_nil_right, zip_nil_right]
      | cons buf outBufs =>
        have hnext : writeBack g (x :: xs) (buf :: outBufs) mem
            = (Traced.emit (.write x buf.length) (g.poke mem x.ptr buf)).bind
              (writeBack g xs outBufs) := if_pos hx
        rw [hnext, zip_cons_cons, forall_mem_cons, Traced.all_bind, Traced.all_emit]
        refine and_congr_right fun _ => ?_
        constructor
        · exact fun h => ih.mp (h _ rfl)
        · exact fun h _ _ => ih.mpr h
    · have hnext : writeBack g (x :: xs) outBufs mem = writeBack g xs outBufs mem := if_neg hx
      rw [hnext, filter_cons_of_neg hx]
      exact ih

theorem safe_read {ptr len : ℕ} (l : Option (List PtrInfo)) (hptr : ptr < 2 ^ 64) :
    Access.Safe g l (.read ptr len) ↔ len = 0 ∨ ptr + len ≤ 2 ^ 32 := by
  rw [← g.covers_iff hptr]
  constructor
  · exact fun h => h.inside
  · exact fun h => ⟨h, fun x n hx => absurd hx (by simp)⟩

theorem safe_write {len : ℕ} (hx : x ∈ infos) (hptr : x.ptr < 2 ^ 64) (hback : x.comesBack) :
    Access.Safe g (some infos) (.write x len) ↔
      len ≤ x.size ∧ (len = 0 ∨ x.ptr + len ≤ 2 ^ 32) := by
  rw [← g.covers_iff hptr]
  constructor
  · exact fun h => ⟨(h.write x len rfl).2.2, h.inside⟩
  · rintro ⟨hlen, hcovers⟩
    refine ⟨hcovers, fun x' len' heq => ?_⟩
    obtain ⟨rfl, rfl⟩ : x = x' ∧ len = len' := by simpa using heq
    exact ⟨⟨infos, rfl, hx⟩, hback, hlen⟩

/-- **What a call reads** before it sends its request, or on the way to a panic. -/
theorem all_prepare (l : Option (List PtrInfo)) :
    (prepare raw g mem m).All (Access.Safe g l) ↔ ScansFit raw g mem m ∧ ReadsFit raw g mem m := by
  have hscans : (resolve raw g mem m).All (Access.Safe g l) ↔ ScansFit raw g mem m := by
    rw [resolve, Traced.all_bind, and_iff_left fun _ _ => all_ofOption _, all_each]
    simp only [firstSize_ne_none]
    constructor
    · intro h before i d after p hsplit hbefore hp
      have hread := all_firstSize.mp (h before _ after hsplit hbefore) d p rfl hp
      exact ((safe_read l p.isLt).mp hread).resolve_left (scanLen_pos g mem p.toNat).ne'
    · rintro h before ⟨s, i⟩ after hsplit hbefore
      refine all_firstSize.mpr fun d p hs hp => (safe_read l p.isLt).mpr (.inr ?_)
      exact h before i d after p (hs ▸ hsplit) hbefore hp
  rw [prepare, Traced.all_bind, hscans]
  refine and_congr_right fun _ => forall₂_congr fun infos hinfos => ?_
  rw [Traced.all_map, all_each]
  simp only [ptrBuf_ne_none, all_ptrBuf]
  refine forall₃_congr fun before x after => forall₂_congr fun hsplit _ => ?_
  exact forall₂_congr fun _ _ => safe_read l (ptr_lt_of_resolve hinfos (by simp [hsplit]))

theorem all_writeBack_iff (hinfos : (resolve raw g mem m).value = some infos)
    (outBufs : List (List Byte)) :
    (writeBack g infos outBufs mem).All (Access.Safe g (resolve raw g mem m).value) ↔
      ∀ y ∈ (infos.filter PtrInfo.comesBack).zip outBufs,
        y.2.length ≤ y.1.size ∧ (y.2.length = 0 ∨ y.1.ptr + y.2.length ≤ 2 ^ 32) := by
  rw [all_writeBack, hinfos]
  refine forall₂_congr fun y hy => ?_
  obtain ⟨hmem, hback⟩ := mem_filter.mp (of_mem_zip hy).1
  exact safe_write hmem (ptr_lt_of_resolve hinfos hmem) hback

theorem resolve_of_prepare {x : Prepared} (hv : (prepare raw g mem m).value = some x) :
    (resolve raw g mem m).value = some x.infos := by
  rw [prepare, value_bind] at hv
  obtain ⟨infos, hinfos, hv⟩ := bind_eq_some_iff.mp hv
  obtain ⟨bufs, -, rfl⟩ := map_eq_some_iff.mp hv
  exact hinfos

end Safety

/-- **Memory safety of remote calls.**  Everything a call reads and writes lies in the guest's
memory, and every write in the buffer of an OUT or INOUT argument, exactly when what it scans, sends
and gets back fits. -/
theorem dispatch_memorySafe (st : RoutingState) (callId : BitVec 32) (symbol : String)
    (params : List Val) (g : Linear) (server : List Byte → List Byte) (mem : Mem) :
    MemorySafe st callId symbol (params.map Val.raw) g server mem ↔
      ∀ m, st.getMeta symbol = some m → Fits callId (params.map Val.raw) g server mem m := by
  generalize params.map Val.raw = raw
  rw [MemorySafe, dispatchRemoteCall]
  cases hmeta : st.getMeta symbol with
  | none => exact iff_of_true ((all_map _ _).mpr (all_ofOption _)) nofun
  | some m =>
    dsimp only [bind_some]
    rw [Traced.all_bind, all_prepare]
    have hwrites (x : Prepared) (hx : (prepare raw g mem m).value = some x)
        (r : (BitVec 64 × BitVec 32 × List (List Byte)) × List Byte) :=
      all_writeBack_iff (resolve_of_prepare hx) r.1.2.2
    constructor
    · rintro ⟨⟨hscans, hreads⟩, hrest⟩ m' hm'
      cases hm'
      refine ⟨hscans, hreads, fun x hx r hr => (hwrites x hx r).mp ?_⟩
      exact ((all_bind _ _).mp (hrest x hx)).2 r (by rw [value_ofOption, hr])
    · intro h
      obtain ⟨hscans, hreads, hback⟩ := h m rfl
      refine ⟨⟨hscans, hreads⟩, fun x hx => (all_bind _ _).mpr ⟨all_ofOption _, fun r hr => ?_⟩⟩
      exact (hwrites x hx r).mpr (hback x hx r ((value_ofOption _).symm.trans hr))

/-! ## Calls that do not keep to the memory -/

/-- A client that has the given arguments for every function. -/
def clientWith (args : List ArgSpec) : RoutingState :=
  ⟨fun _ => none, fun _ _ => none, fun _ => some ⟨args⟩⟩

theorem smallLinear_fits : 2 ^ 32 + 2 ^ 32 ≤ 2 ^ 64 := by decide

/-- A memory at 4 GiB. -/
def smallLinear : Linear := ⟨2 ^ 32, smallLinear_fits⟩

/-- `fill(buf, n)`: an OUT pointer, and its size. -/
def fillArgs : List ArgSpec := [.ptr .dirOut (.arg 1), .scalar]

/-- `puts(s)`: a string. -/
def putsArgs : List ArgSpec := [.ptr .dirIn .nullTerminated]

/-- **The server writes where it likes, and the guest reads below its memory**: a buffer of 4 bytes
gets the 8 the server answers, and a string at 0x80000000 is read 2³¹ bytes below the base. -/
theorem not_memorySafe_longAnswer :
    ¬ MemorySafe (clientWith fillArgs) 1 "fill" ([Val.i32 0x100, Val.i32 4].map Val.raw)
        smallLinear (fun _ => writeResponseWithPtrs 0 0 [[1, 2, 3, 4, 5, 6, 7, 8]]) (fun _ => 0) ∧
      ¬ MemorySafe (clientWith putsArgs) 2 "puts" ([Val.i32 0x80000000].map Val.raw)
        smallLinear (fun _ => writeResponseWithPtrs 0 0 []) fun _ => 0 := by
  refine ⟨fun h => ?_, fun h => ?_⟩
  · have hsafe := h (.write ⟨0, .dirOut, 0x100, 4⟩ 8) (by decide +kernel)
    exact absurd (hsafe.write _ _ rfl).2.2 (by decide)
  · have hsafe := h (.read 0xffffffff80000000 1) (by decide +kernel)
    exact absurd (hsafe.inside 0 (by decide)).1 (by decide)

end LindWasm.Remote
