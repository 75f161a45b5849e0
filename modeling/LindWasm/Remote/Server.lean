import LindWasm.Remote.Dispatch

/-!
# Remote/Server — whether the two sides agree on the framing

    client :  extended framing if it has metadata       server :  if there is a pointer among it

A server that has the arguments of a function reads what the client sends and answers; each side
picks the framing by a test of its own. `framing_inSync` says when all that is sent is read, both
ways, and nothing is waited for: the tests differ on a list of scalars.
-/

namespace LindWasm.Remote

open Option List

/-! ## The native call -/

/-- What a native function leaves: its result, `errno`, and the bytes of the buffers it was
given. -/
structure NativeResult where
  raw : BitVec 64
  errno : BitVec 32
  byte : ℕ → ℕ → Byte

/-- A native function, called with its arguments and the buffers they point to. -/
abbrev Native := List (BitVec 64) → List (List Byte) → NativeResult

/-- The server's process: where it has its buffers, and the `errno` of its last call. -/
structure Process where
  addr : ℕ → BitVec 64
  errno : BitVec 32

/-- The buffers with the bytes the function has left in them. -/
def NativeResult.bufs (r : NativeResult) (bufs : List (List Byte)) : List (List Byte) :=
  bufs.zipIdx.map fun x => (List.range x.1.length).map (r.byte x.2)

variable (h : Process) (fn : LoadedFn Native) (args : List (BitVec 64)) {bufs : List PtrBuf}

/-- `call_scalar_native` and what is read after it; more than six arguments are not passed on. -/
def callScalarNative (bufs : List (List Byte)) : BitVec 64 × BitVec 32 × List (List Byte) :=
  if 6 < args.length then (0, h.errno, bufs)
  else
    let r := fn.ptr args bufs
    (if fn.ret = "void" then 0 else r.raw, r.errno, r.bufs bufs)

/-! ## Requests -/

/-- `handle_scalar_request`: the response. -/
def handleScalarRequest : Reader (List Byte) :=
  readScalarArgs.map fun args =>
    let r := callScalarNative h fn args []
    writeResponse r.1 r.2.1

/-- The buffer allocated for a received pointer. -/
def PtrBuf.native (b : PtrBuf) : List Byte :=
  let zeros := List.replicate b.allocSize.toNat 0
  if b.direction ≠ .dirOut then
    b.data.take b.allocSize.toNat ++ zeros.drop b.data.length
  else zeros

/-- A buffer for each pointer, and the arguments with their addresses; none if a pointer has not
been received. -/
def allocNative (h : Process) :
    List (ParsedArgSpec × ℕ) → List PtrBuf → List (BitVec 64) →
      Option (List (List Byte) × List (BitVec 64))
  | [], _, args => some ([], args)
  | (.scalar, _) :: specs, bufs, args => allocNative h specs bufs args
  | (.ptr _ _, _) :: _, [], _ => none
  | (.ptr _ _, i) :: specs, b :: bufs, args =>
      (allocNative h specs bufs (args.set i (h.addr i))).map fun x => (b.native :: x.1, x.2)

/-- The buffers that go back. -/
def collectOut : List ParsedArgSpec → List (List Byte) → List (List Byte)
  | .scalar :: specs, bufs => collectOut specs bufs
  | .ptr d _ :: specs, buf :: bufs =>
      if d = .dirOut ∨ d = .dirInOut then buf :: collectOut specs bufs else collectOut specs bufs
  | _, _ => []

def LoadedFn.ptrDirections : List Direction :=
  fn.argSpecs.filterMap ParsedArgSpec.direction

/-- The response to the arguments and pointers of a request. -/
def respondWithPtrs (bufs : List PtrBuf) : Option (List Byte) :=
  (allocNative h fn.argSpecs.zipIdx bufs args).map fun x =>
    let r := callScalarNative h fn x.2 x.1
    writeResponseWithPtrs r.1 r.2.1 (collectOut fn.argSpecs r.2.2)

/-- `handle_ptr_request`: the response. -/
def handlePtrRequest : Reader (List Byte) :=
  readScalarArgs.bind fun args => (readPtrSections fn.ptrDirections).bind fun bufs =>
    Reader.lift (respondWithPtrs h fn args bufs)

/-- `handle_request`. -/
def handleRequest (registry : BitVec 32 → Option (LoadedFn Native)) :
    Reader (List Byte) :=
  readCallId.bind fun callId =>
    match registry callId with
    | none => Reader.fail
    | some fn =>
        if hasPtrs fn.argList then handlePtrRequest h fn else handleScalarRequest h fn

/-! ## Both sides together -/

/-- What the client takes for the response: the result. -/
def awaitResponse (st : RoutingState) (symbol : String) : Reader (BitVec 64) :=
  match st.getMeta symbol with
  | some _ => readResponseWithPtrs.map fun r => r.1
  | none => readResponse.map fun r => r.1

/-- All of the request is read, and all of the response; neither side waits for more. -/
def InSync (st : RoutingState) (symbol : String) (h : Process)
    (registry : BitVec 32 → Option (LoadedFn Native)) (req : List Byte) : Prop :=
  ∃ resp result, handleRequest h registry req = some (resp, []) ∧
    awaitResponse st symbol resp = some (result, [])

/-! ## What the client sends -/

section Client

variable {raw : List (BitVec 64)} {g : Linear} {mem : Mem} {m : FunctionMeta} {infos : List PtrInfo}
  {x : Prepared} {resolved : List (Option ℕ)} {args : List ArgSpec} {k : ℕ}

theorem length_ptrInfos
    (h : ptrInfos raw resolved (args.zipIdx k) = some infos) : infos.length ≤ raw.length - k := by
  induction args generalizing infos k with
  | nil =>
    cases h
    exact Nat.zero_le _
  | cons s args ih =>
    obtain _ | ⟨d, size⟩ := s
    · exact (ih h).trans (by omega)
    · obtain ⟨p, hp, h⟩ := bind_eq_some_iff.mp h
      obtain ⟨n, -, h⟩ := bind_eq_some_iff.mp h
      obtain ⟨rest, hrest, rfl⟩ := map_eq_some_iff.mp h
      have hk := (List.getElem?_eq_some_iff.mp hp).1
      have hlen := ih hrest
      rw [List.length_cons]
      omega

theorem directions_ptrInfos (h : ptrInfos raw resolved (args.zipIdx k) = some infos) :
    infos.map PtrInfo.direction = args.filterMap ArgSpec.direction := by
  induction args generalizing infos k with
  | nil =>
    cases h
    rfl
  | cons s args ih =>
    obtain _ | ⟨d, size⟩ := s
    · exact ih h
    · obtain ⟨p, -, h⟩ := bind_eq_some_iff.mp h
      obtain ⟨n, -, h⟩ := bind_eq_some_iff.mp h
      obtain ⟨rest, hrest, rfl⟩ := map_eq_some_iff.mp h
      exact congrArg (d :: ·) (ih hrest)

/-- The payload of a pointer that is not too large is as long as it says. -/
theorem sized_ptrBuf {i : PtrInfo} {b : PtrBuf} (h : (ptrBuf g mem i).value = some b)
    (hi : i.direction ≠ .dirOut → i.size < 2 ^ 32) : b.direction = i.direction ∧ b.Sized := by
  rw [ptrBuf] at h
  by_cases hd : i.direction ≠ .dirOut
  · rw [if_pos hd] at h
    split at h
    · cases h
    · cases h
      refine ⟨rfl, fun _ => ?_, fun hout => absurd hout hd⟩
      rw [toNat_ofNat_of_lt (hi hd), Linear.peek, length_map, length_range]
  · rw [if_neg hd] at h
    cases h
    exact ⟨rfl, fun hin => absurd hin hd, fun _ => rfl⟩

/-- …and so are all payloads, each with the direction of its pointer. -/
theorem sized_ptrBufs (h : List.Forall₂ (fun i b => (ptrBuf g mem i).value = some b) infos bufs)
    (hsize : ∀ i ∈ infos, i.direction ≠ .dirOut → i.size < 2 ^ 32) :
    bufs.map PtrBuf.direction = infos.map PtrInfo.direction ∧ ∀ b ∈ bufs, b.Sized := by
  induction h with
  | nil => exact ⟨rfl, forall_mem_nil _⟩
  | cons hb _ ih =>
    obtain ⟨hi, hrest⟩ := forall_mem_cons.mp hsize
    obtain ⟨hdir, hsized⟩ := sized_ptrBuf hb hi
    obtain ⟨hdirs, hall⟩ := ih hrest
    refine ⟨?_, forall_mem_cons.mpr ⟨hsized, hall⟩⟩
    rw [map_cons, map_cons, hdir, hdirs]

theorem length_scalarArgs (raw : List (BitVec 64)) (infos : List PtrInfo) :
    (scalarArgs raw infos).length = raw.length := by
  induction infos generalizing raw with
  | nil => rfl
  | cons i infos ih =>
    rw [scalarArgs, foldl_cons]
    exact (ih _).trans length_set

/-- What is ready to be sent: no more pointers than arguments, with the directions of the list, and
each with its payload. -/
structure Ready (raw : List (BitVec 64)) (m : FunctionMeta) (x : Prepared) : Prop where
  count : x.bufs.length ≤ raw.length
  directions : x.bufs.map PtrBuf.direction = m.args.filterMap ArgSpec.direction
  sized : ∀ b ∈ x.bufs, b.Sized

theorem ready_of_prepare (h : (prepare raw g mem m).value = some x)
    (hsize : ∀ i ∈ x.infos, i.direction ≠ .dirOut → i.size < 2 ^ 32) : Ready raw m x := by
  rw [prepare, Traced.value_bind] at h
  obtain ⟨infos, hinfos, h⟩ := bind_eq_some_iff.mp h
  obtain ⟨bufs, hbufs, rfl⟩ := map_eq_some_iff.mp h
  rw [resolve, Traced.value_bind] at hinfos
  obtain ⟨resolved, -, hinfos⟩ := bind_eq_some_iff.mp hinfos
  rw [Traced.value_ofOption] at hinfos
  have hall := Traced.value_each_eq_some.mp hbufs
  obtain ⟨hdirs, hsized⟩ := sized_ptrBufs hall hsize
  refine ⟨?_, hdirs.trans (directions_ptrInfos hinfos), hsized⟩
  rw [← hall.length_eq]
  exact length_ptrInfos hinfos

end Client

/-! ## What the server answers -/

section Answer

variable {h : Process} {fn : LoadedFn Native} {bufs : List PtrBuf}

theorem length_native (b : PtrBuf) : b.native.length = b.allocSize.toNat := by
  rw [PtrBuf.native]
  split
  · rw [length_append, length_take, length_drop, length_replicate]
    omega
  · exact length_replicate

/-- A buffer that the protocol can carry. -/
abbrev Small (buf : List Byte) : Prop := buf.length < 2 ^ 32

theorem allocNative_eq_some {specs : List ParsedArgSpec} (args : List (BitVec 64)) (k : ℕ)
    (hlen : (specs.filterMap ParsedArgSpec.direction).length ≤ bufs.length) :
    ∃ x, allocNative h (specs.zipIdx k) bufs args = some x ∧ x.1.length ≤ bufs.length ∧
      ∀ buf ∈ x.1, Small buf := by
  induction specs generalizing bufs args k with
  | nil => exact ⟨([], args), rfl, Nat.zero_le _, forall_mem_nil _⟩
  | cons s specs ih =>
    obtain _ | ⟨d, size⟩ := s
    · exact ih args (k + 1) hlen
    · cases bufs with
      | nil => exact absurd hlen (by simp [ParsedArgSpec.direction])
      | cons b bufs =>
        obtain ⟨x, hx, hcount, hsmall⟩ := ih (args.set k (h.addr k)) (k + 1)
          (Nat.le_of_succ_le_succ hlen)
        refine ⟨(b.native :: x.1, x.2), ?_, Nat.succ_le_succ hcount, ?_⟩
        · exact map_eq_some_iff.mpr ⟨x, hx, rfl⟩
        · refine forall_mem_cons.mpr ⟨?_, hsmall⟩
          rw [Small, length_native]
          exact b.allocSize.isLt

theorem bufs_callScalarNative (h : Process) (fn : LoadedFn Native) (args : List (BitVec 64))
    {bufs : List (List Byte)} (hsmall : ∀ buf ∈ bufs, Small buf) :
    (callScalarNative h fn args bufs).2.2.length = bufs.length ∧
      ∀ buf ∈ (callScalarNative h fn args bufs).2.2, Small buf := by
  rw [callScalarNative]
  split
  · exact ⟨rfl, hsmall⟩
  · dsimp only [NativeResult.bufs]
    refine ⟨by rw [length_map, length_zipIdx], fun buf hbuf => ?_⟩
    obtain ⟨y, hy, rfl⟩ := mem_map.mp hbuf
    rw [Small, length_map, length_range]
    exact hsmall _ (fst_mem_of_mem_zipIdx hy)

theorem collectOut_sublist (specs : List ParsedArgSpec) (bufs : List (List Byte)) :
    (collectOut specs bufs).Sublist bufs := by
  induction specs generalizing bufs with
  | nil => exact nil_sublist bufs
  | cons s specs ih =>
    obtain _ | ⟨d, size⟩ := s
    · exact ih bufs
    · cases bufs with
      | nil => exact nil_sublist []
      | cons buf bufs =>
        rw [collectOut]
        split
        · exact (ih bufs).cons_cons buf
        · exact (ih bufs).cons buf

/-- **The response fits the protocol**, if as many pointers were received as the server has. -/
theorem respondWithPtrs_eq_some (h : Process) (args : List (BitVec 64))
    (hlen : fn.ptrDirections.length ≤ bufs.length) (hcount : bufs.length < 2 ^ 32) :
    ∃ result errno outBufs, outBufs.length < 2 ^ 32 ∧ (∀ buf ∈ outBufs, Small buf) ∧
      respondWithPtrs h fn args bufs = some (writeResponseWithPtrs result errno outBufs) := by
  obtain ⟨x, hx, hle, hsmall⟩ := allocNative_eq_some args 0 hlen
  obtain ⟨hsame, hsmall'⟩ := bufs_callScalarNative h fn x.2 hsmall
  have hsub := collectOut_sublist fn.argSpecs (callScalarNative h fn x.2 x.1).2.2
  refine ⟨(callScalarNative h fn x.2 x.1).1, (callScalarNative h fn x.2 x.1).2.1, _, ?_,
    fun buf hbuf => hsmall' buf (hsub.subset hbuf), ?_⟩
  · have hout := hsub.length_le
    rw [hsame] at hout
    exact lt_of_le_of_lt (hout.trans hle) hcount
  · rw [respondWithPtrs, hx]
    rfl

end Answer

/-! ## Agreement -/

section Agreement

variable {h : Process} {registry : BitVec 32 → Option (LoadedFn Native)} {fn : LoadedFn Native}
  {callId : BitVec 32} {raw : List (BitVec 64)}

section

variable (raw : List (BitVec 64)) (hfn : registry callId = some fn) (hraw : raw.length < 2 ^ 32)
include hfn hraw

/-- A plain request to a function without pointers is read and answered. -/
theorem reads_scalarRequest (hno : hasPtrs fn.argList = false) :
    ∃ result errno, Reads (handleRequest h registry) (writeHeader callId raw)
      (writeResponse result errno) := by
  have hbody : Reads (handleScalarRequest h fn) (writeLen raw.length ++ raw.flatMap writeU64)
      (writeResponse (callScalarNative h fn raw []).1 (callScalarNative h fn raw []).2.1) :=
    (reads_scalarArgs hraw).map _
  refine ⟨(callScalarNative h fn raw []).1, (callScalarNative h fn raw []).2.1,
    (reads_u32 callId).bind ?_⟩
  rw [hfn]
  dsimp only
  rwa [if_neg (by rw [hno]; exact Bool.false_ne_true)]

/-- An extended request with the server's own directions is read and answered. -/
theorem reads_ptrRequest (hptrs : hasPtrs fn.argList = true) (hcount : bufs.length < 2 ^ 32)
    (hdirs : bufs.map PtrBuf.direction = fn.ptrDirections) (hsized : ∀ b ∈ bufs, b.Sized) :
    ∃ result errno outBufs, outBufs.length < 2 ^ 32 ∧ (∀ buf ∈ outBufs, Small buf) ∧
      Reads (handleRequest h registry) (rpcCallWithPtrs callId raw bufs)
        (writeResponseWithPtrs result errno outBufs) := by
  have hlen : fn.ptrDirections.length ≤ bufs.length := by
    rw [← hdirs, length_map]
  obtain ⟨result, errno, outBufs, hout, hsmall, hresp⟩ :=
    respondWithPtrs_eq_some h raw hlen hcount
  refine ⟨result, errno, outBufs, hout, hsmall, ?_⟩
  have hsections := reads_ptrSections hcount hsized
  rw [hdirs] at hsections
  have hbody : Reads (handlePtrRequest h fn) ((writeLen raw.length ++ raw.flatMap writeU64) ++
      (writeLen bufs.length ++ bufs.flatMap PtrBuf.write))
      (writeResponseWithPtrs result errno outBufs) := by
    refine (reads_scalarArgs hraw).bind ?_
    rw [← append_nil (writeLen bufs.length ++ bufs.flatMap PtrBuf.write)]
    exact hsections.bind (reads_lift hresp)
  rw [rpcCallWithPtrs, writeHeader, append_assoc]
  refine (reads_u32 callId).bind ?_
  rw [hfn]
  dsimp only
  rwa [if_pos hptrs]

end

theorem ptrDirections_eq (fn : LoadedFn Native) : fn.ptrDirections = fn.argList.filterMap id := by
  rw [LoadedFn.ptrDirections, LoadedFn.argList, filterMap_map]
  rfl

theorem filterMap_eq_nil_of_hasPtrs {args : List (Option Direction)} (h : hasPtrs args = false) :
    args.filterMap id = [] := by
  rw [filterMap_eq_nil_iff]
  intro d hd
  exact not_isSome_iff_eq_none.mp (any_eq_false.mp h d hd)

variable {st : RoutingState} {symbol : String}

theorem argList_of_getMeta {m : FunctionMeta} (hmeta : st.getMeta symbol = some m) :
    st.argList symbol = m.args.map ArgSpec.direction := by
  rw [RoutingState.argList, hmeta]
  rfl

variable (hfn : registry callId = some fn) (hsame : fn.argList = st.argList symbol)
  (hraw : raw.length < 2 ^ 32)
include hfn hsame hraw

/-- Without metadata both sides use the plain framing. -/
theorem inSync_of_noMeta (hmeta : st.getMeta symbol = none) :
    InSync st symbol h registry (rpcCall callId raw) := by
  have hno : hasPtrs fn.argList = false := by
    rw [hsame, RoutingState.argList, hmeta]
    rfl
  obtain ⟨result, errno, hreads⟩ := reads_scalarRequest raw hfn hraw hno
  refine ⟨_, result, hreads.whole, ?_⟩
  rw [awaitResponse, hmeta]
  exact ((reads_response result errno).map _).whole

variable {m : FunctionMeta} {x : Prepared} (hmeta : st.getMeta symbol = some m)
  (hready : Ready raw m x)
include hmeta hready

/-- With a pointer in the list both sides use the extended one. -/
theorem inSync_of_hasPtrs (hptrs : hasPtrs (st.argList symbol) = true) :
    InSync st symbol h registry (x.request callId raw) := by
  have hdirs : x.bufs.map PtrBuf.direction = fn.ptrDirections := by
    rw [hready.directions, ptrDirections_eq, hsame, argList_of_getMeta hmeta, filterMap_map]
    rfl
  obtain ⟨result, errno, outBufs, hout, hsmall, hreads⟩ :=
    reads_ptrRequest (scalarArgs raw x.infos) hfn (by rw [length_scalarArgs]; exact hraw)
      (by rw [hsame]; exact hptrs) (lt_of_le_of_lt hready.count hraw) hdirs hready.sized
  refine ⟨_, result, hreads.whole, ?_⟩
  rw [awaitResponse, hmeta]
  exact ((reads_responseWithPtrs result errno hout hsmall).map _).whole

/-- With metadata but no pointer in it the client sends a count of pointers that the server does not
read. -/
theorem not_inSync_of_scalars (hno : hasPtrs (st.argList symbol) = false) :
    ¬ InSync st symbol h registry (x.request callId raw) := by
  rintro ⟨resp, result, hserved, -⟩
  have hbufs : x.bufs = [] := by
    have hdirs := hready.directions
    have hnil := filterMap_eq_nil_of_hasPtrs hno
    rw [argList_of_getMeta hmeta, filterMap_map] at hnil
    exact map_eq_nil_iff.mp (hdirs.trans hnil)
  obtain ⟨result', errno', hreads⟩ := reads_scalarRequest
    (scalarArgs raw x.infos) hfn (by rw [length_scalarArgs]; exact hraw)
    (by rw [hsame]; exact hno)
  rw [Prepared.request, rpcCallWithPtrs, hreads, hbufs] at hserved
  have hleft : writeLen 0 ++ [] = ([] : List Byte) := congrArg Prod.snd (some.inj hserved)
  exact absurd hleft (by decide)

end Agreement

/-- **The two framings.**  Let client and server have the same list of arguments for a call, of
which fewer than 2³² are passed, and every buffer sent be shorter than 2³² bytes.  Then all that the
call sends is read by the server and all it answers by the client exactly if the list is empty or
has a pointer in it. -/
theorem framing_inSync (file : Option RoutingConfigFile) (dlsym : String → Option Native)
    (functions : List FunctionEntry) (h : Process) (g : Linear) (mem : Mem) {symbol : String}
    {callId : BitVec 32} {raw : List (BitVec 64)} {fn : LoadedFn Native} {req : List Byte}
    (hfn : buildRegistry dlsym functions callId = some fn)
    (hsame : fn.argList = (buildRoutingState file).argList symbol)
    (hraw : raw.length < 2 ^ 32)
    (hsize : ∀ m infos, (buildRoutingState file).getMeta symbol = some m →
      (resolve raw g mem m).value = some infos →
      ∀ i ∈ infos, i.direction ≠ .dirOut → i.size < 2 ^ 32)
    (hreq : request (buildRoutingState file) callId symbol raw g mem = some req) :
    InSync (buildRoutingState file) symbol h (buildRegistry dlsym functions) req ↔
      (buildRoutingState file).argList symbol = [] ∨
        hasPtrs ((buildRoutingState file).argList symbol) = true := by
  rw [request] at hreq
  cases hmeta : (buildRoutingState file).getMeta symbol with
  | none =>
    rw [hmeta] at hreq
    cases hreq
    refine iff_of_true (inSync_of_noMeta hfn hsame hraw hmeta) (.inl ?_)
    rw [RoutingState.argList, hmeta]
    rfl
  | some m =>
    rw [hmeta] at hreq
    obtain ⟨x, hx, rfl⟩ := map_eq_some_iff.mp hreq
    have hready := ready_of_prepare hx (hsize m x.infos hmeta (resolve_of_prepare hx))
    have hne : (buildRoutingState file).argList symbol ≠ [] := by
      rw [argList_of_getMeta hmeta]
      exact mt map_eq_nil_iff.mp (nonemptyMeta_buildRoutingState file symbol m hmeta)
    rw [or_iff_right hne]
    constructor
    · intro hsync
      by_contra hno
      exact not_inSync_of_scalars hfn hsame hraw hmeta hready (Bool.eq_false_iff.mpr hno) hsync
    · exact fun hptrs => inSync_of_hasPtrs hfn hsame hraw hmeta hready hptrs

/-! ## Two configurations -/

/-- A client that calls `symbol` remotely, with the given arguments. -/
def clientFile (symbol : String) (args : List ArgSpecConfig) : Option RoutingConfigFile :=
  some ⟨fun _ => none, [{ symbol, route := "remote", callId := some 1, args }]⟩

/-- A function that does nothing. -/
def idle : Native := fun _ _ => ⟨0, 0, fun _ _ => 0⟩

/-- A server that has it under the same symbol, with the same arguments. -/
def serverRegistry (symbol : String) (args : List ArgSpecConfig) :
    BitVec 32 → Option (LoadedFn Native) :=
  buildRegistry (fun _ => some idle) [⟨1, symbol, "i32", args⟩]

def someProcess : Process := ⟨fun _ => 0, 0⟩

/-- A buffer to be filled and its size, as both files have it. -/
def fillConfig : List ArgSpecConfig :=
  [{ ty := "ptr", direction := some "out", sizeArg := some 1 }, { ty := "scalar" }]

/-- A call that fills a buffer stays in step. -/
theorem framing_inSync_fill : ∃ fn req,
    serverRegistry "fill" fillConfig 1 = some fn ∧
      fn.argList = (buildRoutingState (clientFile "fill" fillConfig)).argList "fill" ∧
      request (buildRoutingState (clientFile "fill" fillConfig)) 1 "fill" [0x100, 4] smallLinear
        (fun _ => 0) = some req ∧
      InSync (buildRoutingState (clientFile "fill" fillConfig)) "fill" someProcess
        (serverRegistry "fill" fillConfig) req := by
  have hlen : ([0x100, 4] : List (BitVec 64)).length < 2 ^ 32 := by decide
  refine ⟨_, _, rfl, rfl, rfl, (framing_inSync (clientFile "fill" fillConfig) (fun _ => some idle)
    [⟨1, "fill", "i32", fillConfig⟩] someProcess smallLinear (fun _ => 0) rfl rfl hlen
    (fun m infos hm hinfos i hi hd => ?_) rfl).mpr (.inr rfl)⟩
  obtain rfl : (⟨[.ptr .dirOut (.arg 1), .scalar]⟩ : FunctionMeta) = m := some.inj hm
  obtain rfl : [⟨0, .dirOut, 0x100, 4⟩] = infos := some.inj hinfos
  obtain rfl := mem_singleton.mp hi
  exact absurd rfl hd

/-- **Listed scalars break the call**: both files list two scalars for `add`; the client sends a
count of pointers, which the server leaves unread, and waits for a count of buffers, which does not
come. -/
theorem not_inSync_add : ∃ fn req resp,
    serverRegistry "add" [{}, {}] 1 = some fn ∧
      fn.argList = (buildRoutingState (clientFile "add" [{}, {}])).argList "add" ∧
      request (buildRoutingState (clientFile "add" [{}, {}])) 1 "add" [2, 3] smallLinear
        (fun _ => 0) = some req ∧
      handleRequest someProcess (serverRegistry "add" [{}, {}]) req
        = some (resp, [0, 0, 0, 0]) ∧
      awaitResponse (buildRoutingState (clientFile "add" [{}, {}])) "add" resp = none ∧
      ¬ InSync (buildRoutingState (clientFile "add" [{}, {}])) "add" someProcess
        (serverRegistry "add" [{}, {}]) req := by
  have hserved : handleRequest someProcess (serverRegistry "add" [{}, {}])
      (rpcCallWithPtrs 1 [2, 3] []) = some (writeResponse 0 0, [0, 0, 0, 0]) := rfl
  refine ⟨_, rpcCallWithPtrs 1 [2, 3] [], writeResponse 0 0, rfl, rfl, rfl, hserved, rfl, ?_⟩
  rintro ⟨resp, result, hall, -⟩
  have hleft : [0, 0, 0, 0] = ([] : List Byte) :=
    congrArg (fun x => x.2) (mem_unique hserved hall)
  exact absurd hleft (by decide)

end LindWasm.Remote
