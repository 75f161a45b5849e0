import LindWasm.Machinery.Wire
import LindWasm.Remote.Config

/-!
# Remote/Protocol — the wire protocol of remote library calls

    request :   call id │ count │ args │ [ count │ size │ data … ]
    response :  result │ errno │ [ count │ size │ data … ]

Each side has its writer and its reader; the parts in brackets are those of the extended framing.
Counts and sizes are words of 32 bits, and the writers cut them to that. `wire_roundTrip` reads back
whatever fits.
-/

namespace LindWasm.Remote

open Option List

/-! ## Words -/

def writeU32 (x : BitVec 32) : List Byte := leBytes 4 x.toNat
def writeU64 (x : BitVec 64) : List Byte := leBytes 8 x.toNat
def readU32 : Reader (BitVec 32) := Reader.word 4 32
def readU64 : Reader (BitVec 64) := Reader.word 8 64

/-- A length, cut to 32 bits. -/
def writeLen (n : ℕ) : List Byte := writeU32 (BitVec.ofNat 32 n)

theorem reads_u32 (x : BitVec 32) : Reads readU32 (writeU32 x) x := by
  have h := reads_word (n := 4) (w := 32) (by decide) x.toNat
  rwa [BitVec.ofNat_toNat, BitVec.setWidth_eq] at h

theorem reads_u64 (x : BitVec 64) : Reads readU64 (writeU64 x) x := by
  have h := reads_word (n := 8) (w := 64) (by decide) x.toNat
  rwa [BitVec.ofNat_toNat, BitVec.setWidth_eq] at h

theorem toNat_ofNat_of_lt {n : ℕ} (h : n < 2 ^ 32) : (BitVec.ofNat 32 n).toNat = n := by
  rw [BitVec.toNat_ofNat, Nat.mod_eq_of_lt h]

/-! ## Requests -/

/-- One pointer argument payload for an extended request. -/
structure PtrBuf where
  direction : Direction
  allocSize : BitVec 32
  data : List Byte

variable (callId : BitVec 32) (args : List (BitVec 64))

/-- Call id and scalar arguments. -/
def writeHeader : List Byte :=
  writeU32 callId ++ (writeLen args.length ++ args.flatMap writeU64)

/-- What `rpc_call` writes. -/
def rpcCall : List Byte := writeHeader callId args

def PtrBuf.write (b : PtrBuf) : List Byte :=
  writeU32 b.allocSize ++ if b.direction ≠ .dirOut then b.data else []

/-- What `rpc_call_with_ptrs` writes. -/
def rpcCallWithPtrs (ptrBufs : List PtrBuf) :
    List Byte :=
  writeHeader callId args ++ (writeLen ptrBufs.length ++ ptrBufs.flatMap PtrBuf.write)

def readCallId : Reader (BitVec 32) := readU32

def readScalarArgs : Reader (List (BitVec 64)) :=
  readU32.bind fun n => Reader.times (fun _ => readU64) 0 n.toNat

variable (ptrDirections : List Direction)

/-- One section, of the pointer argument at index `i`. -/
def readPtrSection (i : ℕ) : Reader PtrBuf :=
  readU32.bind fun allocSize =>
    let direction := (ptrDirections[i]?).getD .dirIn
    if direction ≠ .dirOut then
      (Reader.bytes allocSize.toNat).map fun data => ⟨direction, allocSize, data⟩
    else Reader.pure ⟨direction, allocSize, []⟩

def readPtrSections : Reader (List PtrBuf) :=
  readU32.bind fun n => Reader.times (readPtrSection ptrDirections) 0 n.toNat

/-! ## Responses -/

/-- `write_response`. -/
def writeResponse (result : BitVec 64) (errno : BitVec 32) : List Byte :=
  writeU64 result ++ writeU32 errno

/-- `write_response_with_ptrs`. -/
def writeResponseWithPtrs (result : BitVec 64) (errno : BitVec 32) (outBufs : List (List Byte)) :
    List Byte :=
  writeResponse result errno ++
    (writeLen outBufs.length ++ outBufs.flatMap fun buf => writeLen buf.length ++ buf)

/-- What `rpc_call` reads. -/
def readResponse : Reader (BitVec 64 × BitVec 32) :=
  readU64.bind fun result => readU32.map fun errno => (result, errno)

/-- What `rpc_call_with_ptrs` reads. -/
def readResponseWithPtrs : Reader (BitVec 64 × BitVec 32 × List (List Byte)) :=
  readResponse.bind fun r =>
    (readU32.bind fun n =>
      Reader.times (fun _ => readU32.bind fun size => Reader.bytes size.toNat) 0 n.toNat).map
        fun outBufs => (r.1, r.2, outBufs)

/-! ## What is read back -/

variable {args : List (BitVec 64)} {bufs : List PtrBuf}

theorem reads_scalarArgs (h : args.length < 2 ^ 32) :
    Reads readScalarArgs (writeLen args.length ++ args.flatMap writeU64) args := by
  refine (reads_u32 _).bind ?_
  rw [toNat_ofNat_of_lt h]
  exact reads_times fun _ a _ => reads_u64 a

/-- The payload is as long as its size says, and there is one exactly for what goes to the
server. -/
structure PtrBuf.Sized (b : PtrBuf) : Prop where
  data : b.direction ≠ .dirOut → b.data.length = b.allocSize.toNat
  out : b.direction = .dirOut → b.data = []

theorem reads_ptrSection {dirs : List Direction} {i : ℕ} {b : PtrBuf}
    (hdir : dirs[i]? = some b.direction) (hb : b.Sized) :
    Reads (readPtrSection dirs i) b.write b := by
  obtain ⟨d, alloc, data⟩ := b
  refine (reads_u32 alloc).bind ?_
  rw [hdir]
  dsimp only [getD_some]
  by_cases hd : d ≠ .dirOut
  · rw [if_pos hd, if_pos hd]
    have hdata := (reads_bytes data).map (PtrBuf.mk d alloc)
    rwa [hb.data hd] at hdata
  · rw [if_neg hd, if_neg hd]
    obtain rfl : data = [] := hb.out (not_not.mp hd)
    exact reads_pure _

theorem reads_ptrSections (hlen : bufs.length < 2 ^ 32) (hb : ∀ b ∈ bufs, b.Sized) :
    Reads (readPtrSections (bufs.map PtrBuf.direction))
      (writeLen bufs.length ++ bufs.flatMap PtrBuf.write) bufs := by
  refine (reads_u32 _).bind ?_
  rw [toNat_ofNat_of_lt hlen]
  refine reads_times fun j b hj => reads_ptrSection ?_ (hb b (mem_of_getElem? hj))
  rw [Nat.zero_add, getElem?_map, hj]
  rfl

variable (result : BitVec 64) (errno : BitVec 32)

theorem reads_response : Reads readResponse (writeResponse result errno) (result, errno) :=
  (reads_u64 result).bind ((reads_u32 errno).map _)

variable {outBufs : List (List Byte)}

theorem reads_responseWithPtrs (hlen : outBufs.length < 2 ^ 32)
    (hb : ∀ buf ∈ outBufs, buf.length < 2 ^ 32) :
    Reads readResponseWithPtrs (writeResponseWithPtrs result errno outBufs)
      (result, errno, outBufs) := by
  refine (reads_response result errno).bind (Reads.map _ ((reads_u32 _).bind ?_))
  rw [toNat_ofNat_of_lt hlen]
  refine reads_times fun j buf hj => (reads_u32 _).bind ?_
  rw [toNat_ofNat_of_lt (hb buf (mem_of_getElem? hj))]
  exact reads_bytes buf

theorem reads_header (callId : BitVec 32) (h : args.length < 2 ^ 32) :
    Reads (readCallId.bind fun callId => readScalarArgs.map fun args => (callId, args))
      (writeHeader callId args) (callId, args) :=
  (reads_u32 callId).bind ((reads_scalarArgs h).map _)

/-! ## The round trip -/

/-- An extended request, read by a server that knows the directions. -/
def readExtended :
    Reader (BitVec 32 × List (BitVec 64) × List PtrBuf) :=
  (readCallId.bind fun callId => readScalarArgs.map fun args => (callId, args)).bind fun x =>
    (readPtrSections ptrDirections).map fun bufs => (x.1, x.2, bufs)

/-- **What was written is read back, and nothing is left over** — a request with fewer than 2³²
arguments and pointers, each with as much data as its size says and none for an OUT pointer, and a
response with fewer than 2³² buffers, each of fewer than 2³² bytes. -/
theorem wire_roundTrip :
    (∀ (callId : BitVec 32) (args : List (BitVec 64)) (bufs : List PtrBuf),
      args.length < 2 ^ 32 → bufs.length < 2 ^ 32 → (∀ b ∈ bufs, b.Sized) →
      readExtended (bufs.map PtrBuf.direction) (rpcCallWithPtrs callId args bufs)
        = some ((callId, args, bufs), [])) ∧
    ∀ (result : BitVec 64) (errno : BitVec 32) (outBufs : List (List Byte)),
      outBufs.length < 2 ^ 32 → (∀ buf ∈ outBufs, buf.length < 2 ^ 32) →
      readResponseWithPtrs (writeResponseWithPtrs result errno outBufs)
        = some ((result, errno, outBufs), []) := by
  constructor
  · intro callId args bufs hargs hlen hb
    exact ((reads_header callId hargs).bind ((reads_ptrSections hlen hb).map _)).whole
  · intro result errno outBufs hlen hb
    exact (reads_responseWithPtrs result errno hlen hb).whole

/-- A request with an OUT, an IN and an empty INOUT pointer comes through, and so does its
answer. -/
theorem wire_roundTrip_three :
    readExtended [.dirOut, .dirIn, .dirInOut]
      (rpcCallWithPtrs 7 [0, 0, 5] [⟨.dirOut, 9, []⟩, ⟨.dirIn, 2, [104, 105]⟩, ⟨.dirInOut, 0, []⟩])
      = some ((7, [0, 0, 5],
        [⟨.dirOut, 9, []⟩, ⟨.dirIn, 2, [104, 105]⟩, ⟨.dirInOut, 0, []⟩]), []) ∧
    readResponseWithPtrs (writeResponseWithPtrs 5 2 [[111, 107], []])
      = some ((5, 2, [[111, 107], []]), []) := by
  refine ⟨wire_roundTrip.1 7 [0, 0, 5] [⟨.dirOut, 9, []⟩, ⟨.dirIn, 2, [104, 105]⟩,
    ⟨.dirInOut, 0, []⟩] (by decide) (by decide) fun b hb => ?_,
    wire_roundTrip.2 5 2 [[111, 107], []] (by decide) (by decide)⟩
  simp only [mem_cons, not_mem_nil, or_false] at hb
  rcases hb with rfl | rfl | rfl
  · exact ⟨fun h => absurd rfl h, fun _ => rfl⟩
  · exact ⟨fun _ => rfl, fun h => absurd h (by decide)⟩
  · exact ⟨fun _ => rfl, fun _ => rfl⟩

/-- Of 2³² items none is read: their number is written as 0. -/
theorem reads_count_zero {α : Type} {r : ℕ → Reader α} {n : ℕ} (h : n = 2 ^ 32) :
    Reads (readU32.bind fun k => Reader.times r 0 k.toNat) (writeLen n) [] := by
  rw [← append_nil (writeLen n)]
  refine (reads_u32 _).bind ?_
  rw [h]
  exact reads_pure []

theorem readExtended_of_length_eq (callId : BitVec 32) (dirs : List Direction)
    (h : bufs.length = 2 ^ 32) : readExtended dirs (rpcCallWithPtrs callId [] bufs)
      = some ((callId, [], []), bufs.flatMap PtrBuf.write) := by
  have hnone : Reads (readPtrSections dirs) (writeLen bufs.length) [] := reads_count_zero h
  rw [rpcCallWithPtrs, ← append_assoc]
  exact (reads_header callId (by decide)).bind (hnone.map _) _

theorem readResponseWithPtrs_of_length_eq (h : outBufs.length = 2 ^ 32) :
    readResponseWithPtrs (writeResponseWithPtrs result errno outBufs)
      = some ((result, errno, []), outBufs.flatMap fun buf => writeLen buf.length ++ buf) := by
  rw [writeResponseWithPtrs, ← append_assoc]
  exact (reads_response result errno).bind ((reads_count_zero h).map _) _

/-- **What does not fit is lost without a word**: 2³² pointers are sent as none, and so are 2³²
output buffers; and the data of an OUT pointer does not go over the wire. -/
theorem not_wire_roundTrip :
    (∃ bufs : List PtrBuf,
      (∀ b ∈ bufs, b.direction ≠ .dirOut → b.data.length = b.allocSize.toNat) ∧
      readExtended (bufs.map PtrBuf.direction) (rpcCallWithPtrs 1 [] bufs)
        ≠ some ((1, [], bufs), [])) ∧
    (∃ b : PtrBuf, (b.direction ≠ .dirOut → b.data.length = b.allocSize.toNat) ∧
      readExtended [b.direction] (rpcCallWithPtrs 1 [] [b]) ≠ some ((1, [], [b]), [])) ∧
    ∃ outBufs : List (List Byte), (∀ buf ∈ outBufs, buf.length < 2 ^ 32) ∧
      readResponseWithPtrs (writeResponseWithPtrs 0 0 outBufs) ≠ some ((0, 0, outBufs), []) := by
  have hne : ∀ {α : Type} (a : α), replicate (2 ^ 32) a ≠ [] := fun a h => by
    have hlen := congrArg length h
    rw [length_replicate, length_nil] at hlen
    exact absurd hlen (by decide)
  refine ⟨⟨replicate (2 ^ 32) ⟨.dirIn, 0, []⟩, fun b hb _ => ?_, fun h => ?_⟩,
    ⟨⟨.dirOut, 1, [7]⟩, fun h => absurd rfl h, fun h => ?_⟩,
    replicate (2 ^ 32) [], fun buf hb => ?_, fun h => ?_⟩
  · rw [eq_of_mem_replicate hb]
    rfl
  · rw [readExtended_of_length_eq 1 _ length_replicate] at h
    exact hne _ (congrArg (fun x => x.1.2.2) (some.inj h)).symm
  · have hout : readExtended [.dirOut] (rpcCallWithPtrs 1 [] [⟨.dirOut, 1, [7]⟩])
        = some ((1, [], [⟨.dirOut, 1, []⟩]), []) := rfl
    have heq := congrArg (fun x => x.1.2.2.map PtrBuf.data) (mem_unique hout h)
    exact absurd heq (by decide)
  · rw [eq_of_mem_replicate hb]
    decide
  · rw [readResponseWithPtrs_of_length_eq 0 0 length_replicate] at h
    exact hne _ (congrArg (fun x => x.1.2.2) (some.inj h)).symm

end LindWasm.Remote
