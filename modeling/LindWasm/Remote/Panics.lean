import LindWasm.Remote.Server

/-!
# Remote/Panics — malformed metadata and malformed requests

    client :  size of i  =  an argument  │  a terminator  │  the size of j
    server :  pointers of the function  --index-->  sections of the request

The client unwraps every argument and size that its metadata speaks of, and the server takes as many
sections as its own list has pointers. `noPanic_iff` says exactly when both come through: what is
malformed is not answered with an error.
-/

namespace LindWasm.Remote

open List Option Traced

/-! ## The client -/

section Sizes

variable (raw : List (BitVec 64)) (g : Linear) (mem : Mem) (args : List ArgSpec)

/-- The size of a pointer argument that has its own. -/
def ownSize (i : ℕ) : Option ℕ :=
  match args[i]? with
  | some (.ptr _ (.arg j)) => raw[j]?.map BitVec.toNat
  | some (.ptr _ .nullTerminated) => raw[i]?.map fun p => scanLen g mem p.toNat
  | _ => none

/-- The size of a pointer argument: one that is taken over is that of an argument before, or one
that the other has of its own. -/
def sizeAt (i : ℕ) : Option ℕ :=
  match args[i]? with
  | some (.ptr _ (.sameAsPtrArg j)) => if j < i then sizeAt j else ownSize raw g mem args j
  | _ => ownSize raw g mem args i

/-- Every pointer argument is passed and has a size, which a slice can have if it is to be read. -/
def Sound : Prop :=
  ∀ i d size, args[i]? = some (.ptr d size) → raw[i]? ≠ none ∧
    ∃ n, sizeAt raw g mem args i = some n ∧ (d ≠ .dirOut → n ≤ isizeMax)

variable {args} {resolved : List (Option ℕ)} {i : ℕ}

theorem sizeAt_eq_ownSize (h : ∀ d j, args[i]? ≠ some (.ptr d (.sameAsPtrArg j))) :
    sizeAt raw g mem args i = ownSize raw g mem args i := by
  rw [sizeAt]
  split
  · exact absurd ‹_› (h _ _)
  · rfl

/-- The first pass finds the sizes the arguments have of their own, or stops. -/
theorem firstSize_eq {s : ArgSpec} (hs : args[i]? = some s) :
    (firstSize raw g mem (s, i)).value = some (ownSize raw g mem args i) ∨
      (firstSize raw g mem (s, i)).value = none ∧ ∃ d size, s = .ptr d size ∧
        (raw[i]? = none ∨ sizeAt raw g mem args i = none) := by
  obtain _ | ⟨d, size⟩ := s
  · exact .inl (by simp [firstSize, ownSize, hs, Traced.pure])
  · cases hp : raw[i]? with
    | none => exact .inr ⟨by simp [firstSize, hp, value_bind], d, size, rfl, .inl rfl⟩
    | some p =>
      rw [firstSize, hp, value_bind, value_ofOption, bind_some]
      cases size with
      | arg j =>
        have hown : ownSize raw g mem args i = raw[j]?.map BitVec.toNat := by rw [ownSize, hs]
        dsimp only [Traced.map]
        rw [sizeAt_eq_ownSize raw g mem (by simp [hs]), hown, value_ofOption]
        cases raw[j]? with
        | none => exact .inr ⟨rfl, d, _, rfl, .inr rfl⟩
        | some n => exact .inl rfl
      | nullTerminated =>
        refine .inl ?_
        rw [ownSize, hs, hp]
        rfl
      | sameAsPtrArg j =>
        refine .inl ?_
        rw [ownSize, hs]
        rfl

/-- The second pass, from argument `k` on: the arguments before have their sizes. -/
theorem secondPass_eq {rest : List ArgSpec} {k : ℕ} (hrest : args.drop k = rest)
    (hlen : resolved.length = args.length)
    (h : ∀ i, (resolved[i]?).join
      = if i < k then sizeAt raw g mem args i else ownSize raw g mem args i) (i : ℕ) :
    ((secondPass (rest.zipIdx k) resolved)[i]?).join = sizeAt raw g mem args i := by
  induction rest generalizing k resolved with
  | nil =>
    change (resolved[i]?).join = _
    rw [h]
    split
    · rfl
    · have hi := (drop_eq_nil_iff.mp hrest).trans (not_lt.mp ‹_›)
      exact (sizeAt_eq_ownSize raw g mem (by simp [hi])).symm
  | cons s rest ih =>
    have hs : args[k]? = some s := by
      rw [← head?_drop, hrest]
      rfl
    have hdrop : args.drop (k + 1) = rest := by
      rw [← drop_drop, hrest]
      rfl
    have hnext (i : ℕ) (hi : i ≠ k) : (resolved[i]?).join
        = if i < k + 1 then sizeAt raw g mem args i else ownSize raw g mem args i := by
      rw [h]
      exact if_congr (by omega) rfl rfl
    have hk : k < resolved.length := hlen ▸ (List.getElem?_eq_some_iff.mp hs).1
    by_cases hown : ∀ d j, args[k]? ≠ some (.ptr d (.sameAsPtrArg j))
    · have hstep : secondPass ((s :: rest).zipIdx k) resolved
          = secondPass (rest.zipIdx (k + 1)) resolved := by
        obtain _ | ⟨d, _ | _ | j⟩ := s
        · rfl
        · rfl
        · rfl
        · exact absurd hs (hown d j)
      rw [hstep]
      refine ih hdrop hlen fun i => ?_
      rcases eq_or_ne i k with rfl | hi
      · rw [h, if_neg (lt_irrefl i), if_pos (Nat.lt_succ_self i), sizeAt_eq_ownSize raw g mem hown]
      · exact hnext i hi
    · push Not at hown
      obtain ⟨d, j, hj⟩ := hown
      obtain rfl := mem_unique hs hj
      refine ih hdrop (length_set.trans hlen) fun i => ?_
      rcases eq_or_ne i k with rfl | hi
      · rw [getElem?_set_self hk, join_some, h, if_pos (Nat.lt_succ_self i)]
        conv_rhs => rw [sizeAt, hs]
      · rw [getElem?_set_ne hi.symm]
        exact hnext i hi

variable {raw g mem}

/-- There are infos, all of them `P`, just if every pointer has one. -/
theorem ptrInfos_eq_some {P : PtrInfo → Prop} (raw : List (BitVec 64))
    (resolved : List (Option ℕ)) (l : List (ArgSpec × ℕ)) :
    (∃ infos, ptrInfos raw resolved l = some infos ∧ ∀ x ∈ infos, P x) ↔
      ∀ i d size, (.ptr d size, i) ∈ l → ∃ p n, raw[i]? = some p ∧
        (resolved[i]?).join = some n ∧ P ⟨i, d, p.toNat, n⟩ := by
  induction l with
  | nil => simp [ptrInfos]
  | cons a l ih =>
    obtain ⟨_ | ⟨d, size⟩, i⟩ := a
    · rw [ptrInfos, ih]
      simp
    · simp only [ptrInfos, bind_eq_some_iff, map_eq_some_iff]
      constructor
      · rintro ⟨_, ⟨p, hp, n, hn, infos, hinfos, rfl⟩, hP⟩ i' d' size' hmem
        obtain ⟨hx, hP⟩ := forall_mem_cons.mp hP
        rcases mem_cons.mp hmem with heq | hmem
        · cases heq
          exact ⟨p, n, hp, hn, hx⟩
        · exact ih.mp ⟨infos, hinfos, hP⟩ i' d' size' hmem
      · intro h
        obtain ⟨p, n, hp, hn, hx⟩ := h i d size mem_cons_self
        obtain ⟨infos, hinfos, hP⟩ := ih.mpr fun i' d' size' hmem =>
          h i' d' size' (mem_cons_of_mem _ hmem)
        exact ⟨_, ⟨p, hp, n, hn, infos, hinfos, rfl⟩, forall_mem_cons.mpr ⟨hx, hP⟩⟩

/-- **The client comes to its request just if its metadata is sound.** -/
theorem prepare_ne_none_iff {m : FunctionMeta} :
    (prepare raw g mem m).value ≠ none ↔ Sound raw g mem m.args := by
  rw [prepare, resolve, value_bind, value_bind]
  cases hfirst : (Traced.each (firstSize raw g mem) m.args.zipIdx).value with
  | none =>
    refine iff_of_false (fun h => h rfl) fun hsound => ?_
    refine value_each_ne_none.mpr ?_ hfirst
    rintro ⟨s, i⟩ hs hnone
    have hs := mem_zipIdx_iff_getElem?.mp hs
    obtain h | ⟨-, d, size, rfl, h⟩ := firstSize_eq raw g mem hs
    · simp [h] at hnone
    · obtain ⟨hraw, n, hn, -⟩ := hsound i d size hs
      simp_all
  | some resolved =>
    have hresolved := eq_map_of_value_each hfirst
      fun x hx o ho => by
        obtain h | ⟨h, -⟩ := firstSize_eq raw g mem
          (mem_zipIdx_iff_getElem?.mp hx)
        · exact mem_unique ho h
        · simp [ho] at h
    have hlen : resolved.length = m.args.length := by simp [hresolved]
    have hsize := secondPass_eq raw g mem m.args.drop_zero hlen fun i => by
        rw [if_neg (Nat.not_lt_zero i), hresolved, getElem?_map, getElem?_zipIdx]
        cases hi : m.args[i]? with
        | none => simp [ownSize, hi]
        | some s => simp
    have hinfos := ptrInfos_eq_some (P := PtrInfo.Copyable) raw
      (secondPass m.args.zipIdx resolved) m.args.zipIdx
    simp only [hsize, mem_zipIdx_iff_getElem?, PtrInfo.Copyable] at hinfos
    have hsound : Sound raw g mem m.args ↔ ∀ i d size, m.args[i]? = some (.ptr d size) → ∃ p n,
        raw[i]? = some p ∧ sizeAt raw g mem m.args i = some n ∧ (d ≠ .dirOut → n ≤ isizeMax) := by
      simp only [Sound, ne_none_iff_exists', exists_and_left, exists_and_right]
    rw [hsound, ← hinfos, bind_some, value_ofOption]
    cases ptrInfos raw (secondPass m.args.zipIdx resolved) m.args.zipIdx with
    | none => simp
    | some infos =>
      have hbufs : (Traced.each (ptrBuf g mem) infos).value ≠ none ↔ _ := value_each_ne_none
      simp only [ptrBuf_ne_none, PtrInfo.Copyable] at hbufs
      simp [← hbufs, Traced.map]

end Sizes

/-! ## The server -/

variable (registry : BitVec 32 → Option (LoadedFn Native))

/-- What a stream asks for: the function, its arguments, and the sections of its pointers. -/
def readRequest :
    Reader (LoadedFn Native × List (BitVec 64) × List PtrBuf) :=
  readCallId.bind fun callId =>
    match registry callId with
    | none => Reader.fail
    | some fn => readScalarArgs.bind fun args =>
        if hasPtrs fn.argList then (readPtrSections fn.ptrDirections).map fun bufs =>
          (fn, args, bufs)
        else Reader.pure (fn, args, [])

/-- The answer to it; there is none if the index of a section panics. -/
def respond (h : Process) (fn : LoadedFn Native) (args : List (BitVec 64)) (bufs : List PtrBuf) :
    Option (List Byte) :=
  if hasPtrs fn.argList then respondWithPtrs h fn args bufs
  else
    let r := callScalarNative h fn args []
    some (writeResponse r.1 r.2.1)

/-- How a request ends: a reader fails, or it is answered, or not even that. -/
inductive RequestEnd where
  | failed
  | answered (response : List Byte)
  | panicked

def requestEnd (h : Process) (registry : BitVec 32 → Option (LoadedFn Native))
    (stream : List Byte) : RequestEnd :=
  match readRequest registry stream with
  | none => .failed
  | some ((fn, args, bufs), _) =>
      match respond h fn args bufs with
      | none => .panicked
      | some response => .answered response

/-- The request has too few sections for the pointers of its function, or too many arguments. -/
def Malformed (stream : List Byte) : Prop :=
  ∃ fn args bufs rest, readRequest registry stream = some ((fn, args, bufs), rest) ∧
    (bufs.length < fn.ptrDirections.length ∨ 6 < args.length)

section Server

variable {h : Process} {registry : BitVec 32 → Option (LoadedFn Native)} {stream : List Byte}
  {bufs : List PtrBuf}

theorem handleRequest_eq : handleRequest h registry stream
    = (readRequest registry).bind (fun x => Reader.lift (respond h x.1 x.2.1 x.2.2)) stream := by
  rw [handleRequest, readRequest, Reader.bind, Reader.bind, Reader.bind]
  cases readCallId stream with
  | none => rfl
  | some x =>
    dsimp only [bind_some]
    cases registry x.1 with
    | none => rfl
    | some fn =>
      by_cases hp : hasPtrs fn.argList
      · cases hargs : readScalarArgs x.2 with
        | none => simp [hp, handlePtrRequest, Reader.bind, hargs]
        | some y =>
          cases hbufs : readPtrSections fn.ptrDirections y.2 <;>
            simp [hp, handlePtrRequest, Reader.bind, Reader.map, Reader.pure, hargs, hbufs, respond]
      · cases hargs : readScalarArgs x.2 <;>
          simp [hp, handleScalarRequest, Reader.bind, Reader.map, Reader.pure, hargs, respond,
            Reader.lift]

theorem allocNative_eq_none {specs : List ParsedArgSpec} (args : List (BitVec 64)) (k : ℕ)
    (hlen : bufs.length < (specs.filterMap ParsedArgSpec.direction).length) :
    allocNative h (specs.zipIdx k) bufs args = none := by
  induction specs generalizing bufs args k with
  | nil => exact absurd hlen (Nat.not_lt_zero _)
  | cons s specs ih =>
    obtain _ | ⟨d, size⟩ := s
    · exact ih args (k + 1) hlen
    · cases bufs with
      | nil => rfl
      | cons b bufs =>
        exact map_eq_none_iff.mpr (ih _ (k + 1) (Nat.lt_of_succ_lt_succ hlen))

theorem respond_eq_none_iff {fn : LoadedFn Native} {args : List (BitVec 64)} :
    respond h fn args bufs = none ↔ bufs.length < fn.ptrDirections.length := by
  rw [respond]
  by_cases hp : hasPtrs fn.argList
  · rw [if_pos hp, respondWithPtrs, map_eq_none_iff]
    constructor
    · intro hnone
      by_contra hle
      obtain ⟨x, hx, -⟩ := allocNative_eq_some args 0 (not_lt.mp hle)
      exact absurd (hx.symm.trans hnone) (some_ne_none x)
    · exact allocNative_eq_none args 0
  · rw [if_neg hp, ptrDirections_eq, filterMap_eq_nil_of_hasPtrs (Bool.eq_false_iff.mpr hp)]
    exact iff_of_false (some_ne_none _) (Nat.not_lt_zero _)

/-- Once it is read, a request does not fail any more. -/
theorem graceful_iff :
    requestEnd h registry stream ≠ .panicked ∧
      (Malformed registry stream → requestEnd h registry stream = .failed) ↔
    ¬ Malformed registry stream := by
  constructor
  · rintro ⟨-, hfails⟩ ⟨fn, args, bufs, rest, hreq, hbad⟩
    have hfailed := hfails ⟨fn, args, bufs, rest, hreq, hbad⟩
    rw [requestEnd, hreq] at hfailed
    cases hr : respond h fn args bufs <;> simp [hr] at hfailed
  · refine fun hgood => ⟨fun hpanic => hgood ?_, fun hbad => absurd hbad hgood⟩
    rw [requestEnd] at hpanic
    cases hreq : readRequest registry stream with
    | none => simp [hreq] at hpanic
    | some x =>
      cases hr : respond h x.1.1 x.1.2.1 x.1.2.2 with
      | none => exact ⟨_, _, _, _, hreq, .inl (respond_eq_none_iff.mp hr)⟩
      | some r => simp [hreq, hr] at hpanic

end Server

/-! ## Both sides -/

/-- The client panics: what can stop it before the request is sent is an unwrap, or a slice that is
too long to copy. -/
def ClientPanics (st : RoutingState) (callId : BitVec 32) (symbol : String)
    (raw : List (BitVec 64)) (g : Linear) (mem : Mem) : Prop :=
  request st callId symbol raw g mem = none

/-- **Panics.**  The client does not panic just if every pointer in its metadata is passed and has a
size; the server does not panic, and lets malformed requests fail, just if the request is not
malformed. The client has no error for metadata that it can follow, and such metadata is not
malformed: a size taken over from an earlier pointer, which may have taken over its own, and
specifications of scalars past the last argument. -/
theorem noPanic_iff (file : Option RoutingConfigFile) (callId : BitVec 32) (symbol : String)
    (params : List Val) (g : Linear) (mem : Mem) (h : Process) (dlsym : String → Option Native)
    (functions : List FunctionEntry) (stream : List Byte) :
    ¬ ClientPanics (buildRoutingState file) callId symbol (params.map Val.raw) g mem ∧
      requestEnd h (buildRegistry dlsym functions) stream ≠ .panicked ∧
      (Malformed (buildRegistry dlsym functions) stream →
        requestEnd h (buildRegistry dlsym functions) stream = .failed) ↔
    (∀ m, (buildRoutingState file).getMeta symbol = some m →
      Sound (params.map Val.raw) g mem m.args) ∧
    ¬ Malformed (buildRegistry dlsym functions) stream := by
  refine and_congr ?_ graceful_iff
  rw [ClientPanics, request]
  cases (buildRoutingState file).getMeta symbol with
  | none => exact iff_of_true (some_ne_none _) fun m hm => absurd hm.symm (by simp)
  | some m => simp [← prepare_ne_none_iff]

/-- **Malformed is not an error**: a size that is the sixth argument of one panics, as does a
request without the section its function needs; a call with seven arguments is answered with 0. -/
theorem panics_sixthArg :
    ClientPanics (buildRoutingState (clientFile "put" [{ ty := "ptr", sizeArg := some 5 }])) 1 "put"
        ([Val.i32 0x100].map Val.raw) smallLinear (fun _ => 0) ∧
      requestEnd someProcess (serverRegistry "fill" fillConfig) (rpcCallWithPtrs 1 [0, 4] [])
        = .panicked ∧
      requestEnd someProcess (serverRegistry "add" []) (rpcCall 1 (List.replicate 7 1))
        = .answered (writeResponse 0 0) := by
  exact ⟨rfl, rfl, rfl⟩

end LindWasm.Remote
