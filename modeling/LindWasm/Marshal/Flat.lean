import Mathlib.Data.List.Forall2
import Mathlib.Data.List.Pairwise
import LindWasm.Marshal.Dispatch
import LindWasm.Marshal.Total

/-!
# Marshal/Flat — interposing a function of scalars and buffers

    source buffers --copy-in--> shadows --handler--> shadows --copy-back--> source buffers
          └---------------------- the function itself --------------------------┘

For arguments that are scalars or pointers to plain bytes, marshalling is transparent: if the
handler computes a function of its scalars and of the bytes in its buffers, the dispatch has the
effect of that function on the caller's own buffers (`dispatch_transparent`) — unless a buffer that
goes back starts at the one address that reads as a failed copy.
-/

namespace LindWasm.Marshal

open Option List Mem

variable {c : Call} {s : ArgSpec} {p n : ℕ}

/-! ## Flat arguments -/

/-- A scalar, or a pointer to plain bytes that is read, of a size a flat pointer can have. -/
def ArgSpec.Flat (s : ArgSpec) : Prop :=
  s.kind = .scalar ∨ s.kind = .ptr ∧ s.layout = none ∧ s.copiesIn ∧ s.outPtrIntoArg1 = 0 ∧
    (s.sizeKind = .const ∨ s.sizeKind = .fromArg ∨ s.sizeKind = .cstr)

/-- A buffer of `n` bytes at `p` that can be read, and written if it goes back; a string is read in
chunks, so its last one has to be readable as a whole. -/
structure BufferOk (c : Call) (s : ArgSpec) (p n : ℕ) : Prop extends Sized c true s p n where
  readable : 0 < n → CopyAllowed c c.source.readable p n
  writable : 0 < n → s.ptrDirection = .ptrInout → CopyAllowed c c.source.writable p n

/-! ## One argument -/

/-- The argument is a buffer: a pointer that is not null. -/
def IsBuffer (c : Call) (i : ℕ) (s : ArgSpec) : Prop := s.kind = .ptr ∧ c.rawArgs i ≠ 0
deriving Decidable

/-- The bytes of the argument's buffer; none if it is not one. -/
def bufferLen (c : Call) (i : ℕ) (s : ArgSpec) : ℕ :=
  if IsBuffer c i s then (declSize c true s (c.rawArgs i)).getD 0 else 0

/-- The record of a flat buffer. -/
def flatRecord (c : Call) (i : ℕ) (s : ArgSpec) (used n : ℕ) : Shadow :=
  ⟨i, c.rawArgs i, c.grate.arena + used, n, s.ptrDirection, c.sourceCage, c.grateCage, none, []⟩

variable {i j used : ℕ} {st : PreState} {ss : List ArgSpec} {args : List ℕ} {shadows : List Shadow}
  {as : ArgSpec} {sh : Shadow} {mem : Mem}

/-- **A buffer gets its shadow**, and its bytes. -/
theorem preArg_buffer (hs : s.Flat) (hbuf : IsBuffer c i s) (hb : BufferOk c s (c.rawArgs i) n)
    (hne : u32 (c.rawArgs i) ≠ c.grate.arena + st.used) (hmod : st.used % 8 = 0)
    (hfit : st.used + space n ≤ arenaSize) :
    preArg c i s st = some (c.grate.arena + st.used, some (flatRecord c i s st.used n),
      st.shadowed c (c.rawArgs i) n) := by
  obtain ⟨hptr, hraw⟩ := hbuf
  obtain ⟨hlayout, hcopies, -, hsk⟩ := (hs.resolve_left (by rw [hptr]; decide)).2
  have harray : s.sizeKind ≠ .ptrArray := by rcases hsk with h | h | h <;> rw [h] <;> decide
  have hsize : ptrSize c s (some c.rawArgs) st.mem (c.rawArgs i) = some n := hb.ptrSize_eq st.mem
  have hshadow := hb.shadowSize_eq hlayout (st.shadowed c (c.rawArgs i) n).mem
  have halloc := allocShadow_eq (c := c) hfit
  have hcopy := copyIn_eq hmod hcopies hb.readable
  have hpre : prePtr c s (some c.rawArgs) (c.rawArgs i) st
      = some (c.grate.arena + st.used, [], st.shadowed c (c.rawArgs i) n) := by
    rw [prePtr_buffer harray, if_neg hraw, preBuffer]
    simp only [hsize, bind_some, allocSizeOf, hlayout, halloc, hcopy]
  simp only [preArg, hptr, if_neg hraw, hpre, bind_some, hshadow, map_some, hlayout,
    if_neg hne.symm, flatRecord]

theorem preArg_other (hs : s.Flat) (hbuf : ¬ IsBuffer c i s) :
    preArg c i s st = some (c.rawArgs i, none, st) := by
  rcases hs with hk | ⟨hk, -⟩
  · simp only [preArg, hk]
  · have hzero : c.rawArgs i = 0 := not_not.mp fun hne => hbuf ⟨hk, hne⟩
    simp only [preArg, hk, hzero, if_pos]

/-! ## All arguments -/

/-- What the call must be like, argument by argument, with the arena filled up to `used`: every
argument is flat, its buffer can be read and written, is not where its shadow will be, and the
arena has room for it. -/
def FlatFrom (c : Call) : ℕ → List ArgSpec → ℕ → Prop
  | _, [], _ => True
  | i, s :: ss, used =>
      s.Flat ∧ (IsBuffer c i s → BufferOk c s (c.rawArgs i) (bufferLen c i s) ∧
        u32 (c.rawArgs i) ≠ c.grate.arena + used) ∧
      used + space (bufferLen c i s) ≤ arenaSize ∧
      FlatFrom c (i + 1) ss (used + space (bufferLen c i s))

/-- The handler's arguments, the records and the state, for flat arguments. -/
def flatPre (c : Call) : ℕ → List ArgSpec → PreState → List ℕ × List Shadow × PreState
  | _, [], st => ([], [], st)
  | i, s :: ss, st =>
      if IsBuffer c i s then
        let n := bufferLen c i s
        let rest := flatPre c (i + 1) ss (st.shadowed c (c.rawArgs i) n)
        ((c.grate.arena + st.used) :: rest.1, flatRecord c i s st.used n :: rest.2.1, rest.2.2)
      else
        let rest := flatPre c (i + 1) ss st
        (c.rawArgs i :: rest.1, rest.2.1, rest.2.2)

/-- **Flat arguments never trap.** -/
theorem preArgs_flat (h : FlatFrom c i ss st.used) (hmod : st.used % 8 = 0) :
    preArgs c i ss st = some (flatPre c i ss st) := by
  induction ss generalizing i st with
  | nil => rfl
  | cons s ss ih =>
    obtain ⟨hs, hbuffer, hfit, hrest⟩ := h
    rw [preArgs, flatPre]
    split
    · next hbuf =>
      obtain ⟨hb, hne⟩ := hbuffer hbuf
      have hmod' : (st.shadowed c (c.rawArgs i) (bufferLen c i s)).used % 8 = 0 := by
        have := space_mod (bufferLen c i s)
        rw [shadowed_used]
        omega
      rw [preArg_buffer hs hbuf hb hne hmod hfit]
      simp only [bind_some]
      rw [ih hrest hmod']
      rfl
    · next hbuf =>
      rw [preArg_other hs hbuf]
      have hzero : bufferLen c i s = 0 := if_neg hbuf
      rw [hzero] at hrest
      simp only [bind_some]
      rw [ih hrest hmod]
      rfl

/-! ## What the handler is given -/

/-- An argument as the function means it. -/
inductive Arg where
  | scalar (v : ℕ)
  | null
  | buffer (bytes : List Byte)

/-- The argument as the caller passes it. -/
def view (c : Call) (i : ℕ) (s : ArgSpec) : Arg :=
  if IsBuffer c i s then
    .buffer (c.source.bytes.readBytes (ensureHostAddr c.source.base (c.rawArgs i))
      (bufferLen c i s))
  else if s.kind = .ptr then .null
  else .scalar (c.rawArgs i)

def views (c : Call) : ℕ → List ArgSpec → List Arg
  | _, [] => []
  | i, s :: ss => view c i s :: views c (i + 1) ss

/-- The value `a` stands for the argument, in the memory `mem`. -/
def Holds (mem : Mem) : Arg → ℕ → Prop
  | .scalar v, a => a = v
  | .null, a => a = 0
  | .buffer bytes, a => a ≠ 0 ∧ mem.readBytes a bytes.length = bytes

/-- Two buffers share no byte. -/
def BuffersApart : Arg × ℕ → Arg × ℕ → Prop
  | (.buffer bytes, a), (.buffer bytes', a') => a + bytes.length ≤ a' ∨ a' + bytes'.length ≤ a
  | _, _ => True

/-- The values stand for the arguments, with buffers of their own. -/
structure Presents (xs : List Arg) (args : List ℕ) (mem : Mem) : Prop where
  holds : List.Forall₂ (Holds mem) xs args
  apart : (xs.zip args).Pairwise BuffersApart

theorem flatPre_keeps : st.used ≤ (flatPre c i ss st).2.2.used ∧
      ∀ a, a < c.grate.arena + st.used → (flatPre c i ss st).2.2.mem a = st.mem a := by
  induction ss generalizing i st with
  | nil => exact ⟨le_rfl, fun _ _ => rfl⟩
  | cons s ss ih =>
    rw [flatPre]
    split
    · obtain ⟨hused, hmem⟩ := @ih (i + 1) (st.shadowed c (c.rawArgs i) (bufferLen c i s))
      rw [shadowed_used] at hused hmem
      refine ⟨by dsimp only; omega, fun a ha => (hmem a (by omega)).trans ?_⟩
      exact blit_off (.inl ha)
    · exact ih

/-- A buffer of the handler lies in the arena, from `lo` on. -/
def InArena (lo : ℕ) : Arg × ℕ → Prop
  | (.buffer _, a) => lo ≤ a
  | _ => True

theorem InArena.mono {lo lo' : ℕ} {x : Arg × ℕ} (h : InArena lo x) (hle : lo' ≤ lo) :
    InArena lo' x := by
  obtain ⟨x, a⟩ := x
  cases x with
  | scalar | null => trivial
  | buffer bytes => exact hle.trans h

/-- **The handler is given the caller's arguments.** -/
theorem flatPre_presents :
    Presents (views c i ss) (flatPre c i ss st).1 (flatPre c i ss st).2.2.mem ∧
      ∀ x ∈ (views c i ss).zip (flatPre c i ss st).1, InArena (c.grate.arena + st.used) x := by
  induction ss generalizing i st with
  | nil => exact ⟨⟨.nil, .nil⟩, by simp [views]⟩
  | cons s ss ih =>
    rw [flatPre, views, view]
    split
    · obtain ⟨hpres, hin⟩ := @ih (i + 1) (st.shadowed c (c.rawArgs i) (bufferLen c i s))
      obtain ⟨hused, hmem⟩ := @flatPre_keeps c (i + 1)
        (st.shadowed c (c.rawArgs i) (bufferLen c i s)) ss
      rw [shadowed_used] at hin hmem
      have hspace := le_space (bufferLen c i s)
      refine ⟨⟨.cons ⟨?_, ?_⟩ hpres.holds, pairwise_cons.mpr ⟨fun x hx => ?_, hpres.apart⟩⟩,
        forall_mem_cons.mpr ⟨le_rfl, fun x hx => (hin x hx).mono (by omega)⟩⟩
      · have := c.grate.arena_pos
        omega
      · rw [length_readBytes]
        refine readBytes_congr fun k hk => (hmem _ (by omega)).trans ?_
        rw [shadowed_mem, shadowMem, blit_in (by omega) (by omega), Nat.add_sub_cancel_left]
      · obtain ⟨x, a⟩ := x
        cases x with
        | scalar | null => trivial
        | buffer bytes =>
          have : _ ≤ a := hin _ hx
          rw [BuffersApart, length_readBytes]
          exact .inl (by omega)
    · next hbuf =>
      obtain ⟨hpres, hin⟩ := @ih (i + 1) st
      split
      · next hk =>
        have hzero : c.rawArgs i = 0 := not_not.mp fun hne => hbuf ⟨hk, hne⟩
        exact ⟨⟨.cons hzero hpres.holds, pairwise_cons.mpr ⟨fun _ _ => trivial, hpres.apart⟩⟩,
          forall_mem_cons.mpr ⟨trivial, hin⟩⟩
      · exact ⟨⟨.cons rfl hpres.holds, pairwise_cons.mpr ⟨fun _ _ => trivial, hpres.apart⟩⟩,
          forall_mem_cons.mpr ⟨trivial, hin⟩⟩

/-! ## What is recorded -/

/-- A record of a flat argument: its place among the arguments, and what it says. -/
structure FlatShadow (c : Call) (i : ℕ) (ss : List ArgSpec) (args : List ℕ) (s : Shadow) (j : ℕ)
    (as : ArgSpec) : Prop where
  index : s.argIndex = i + j
  spec : ss[j]? = some as
  buffer : IsBuffer c (i + j) as
  sourcePtr : s.sourcePtr = c.rawArgs (i + j)
  size : s.size = bufferLen c (i + j) as
  direction : s.direction = as.ptrDirection
  layout : s.layout = none
  arg : args[j]? = some s.shadowPtr
  view : (views c i ss)[j]? = some (.buffer (c.source.bytes.readBytes
    (ensureHostAddr c.source.base s.sourcePtr) s.size))

theorem flatPre_shadows :
    ∀ s ∈ (flatPre c i ss st).2.1, ∃ j as, FlatShadow c i ss (flatPre c i ss st).1 s j as := by
  induction ss generalizing i st with
  | nil => simp [flatPre]
  | cons as ss ih =>
    -- a record of the rest is one of the whole, one place further on
    have hnext : ∀ {st a} {s : Shadow}, s ∈ (flatPre c (i + 1) ss st).2.1 →
        ∃ j as', FlatShadow c i (as :: ss) (a :: (flatPre c (i + 1) ss st).1) s j as' := by
      intro st a s hs
      obtain ⟨j, as', h⟩ := ih s hs
      have hij : i + 1 + j = i + (j + 1) := by omega
      exact ⟨j + 1, as', by rw [h.index, hij], h.spec, hij ▸ h.buffer, hij ▸ h.sourcePtr,
        hij ▸ h.size, h.direction, h.layout, h.arg, h.view⟩
    rw [flatPre]
    split
    · next hbuf =>
      refine forall_mem_cons.mpr ⟨⟨0, as, rfl, rfl, hbuf, rfl, rfl, rfl, rfl, rfl, ?_⟩,
        fun s hs => hnext hs⟩
      rw [views, view, if_pos hbuf]
      rfl
    · exact fun s hs => hnext hs

/-- The bytes of the caller an argument refers to. -/
structure Range where
  index : ℕ
  host : ℕ
  len : ℕ
  inout : Bool
  deriving DecidableEq

def Range.Contains (r : Range) (a : ℕ) : Prop := r.host ≤ a ∧ a < r.host + r.len
deriving Decidable

def Range.Apart (r r' : Range) : Prop := r.host + r.len ≤ r'.host ∨ r'.host + r'.len ≤ r.host

instance : Std.Symm Range.Apart := ⟨fun _ _ h => h.symm⟩

/-- The buffers of the call. -/
def ranges (c : Call) : ℕ → List ArgSpec → List Range
  | _, [] => []
  | i, s :: ss =>
      if IsBuffer c i s then
        ⟨i, ensureHostAddr c.source.base (c.rawArgs i), bufferLen c i s,
          s.ptrDirection = .ptrInout⟩ :: ranges c (i + 1) ss
      else ranges c (i + 1) ss

/-- The range of a record. -/
def Shadow.range (c : Call) (s : Shadow) : Range :=
  ⟨s.argIndex, ensureHostAddr c.source.base s.sourcePtr, s.size, s.direction = .ptrInout⟩

theorem map_range_flatPre : (flatPre c i ss st).2.1.map (Shadow.range c) = ranges c i ss := by
  induction ss generalizing i st with
  | nil => rfl
  | cons s ss ih =>
    rw [flatPre, ranges]
    split
    · rw [map_cons, ih]
      rfl
    · exact ih

/-! ## The way back -/

/-- The buffer goes back. -/
def Shadow.Goes (s : Shadow) : Prop := 0 < s.size ∧ s.direction = .ptrInout
deriving Decidable

/-- …with what the handler left in its shadow. -/
def Shadow.back (mem : Mem) (s : Shadow) : Write :=
  ⟨.buffer none, s.sourcePtr, s.size, bytesFrom mem s.shadowPtr⟩

/-- A record on the way back. -/
structure GoesBack (c : Call) (spec : MarshalSpec) (s : Shadow) : Prop where
  spec : ∃ as, spec.args[s.argIndex]? = some as ∧ as.outPtrIntoArg1 = 0
  layout : s.layout = none
  direction : s.direction ≠ .ptrOut
  writable : s.Goes → CopyAllowed c c.source.writable s.sourcePtr s.size

section Back

variable {spec : MarshalSpec} {shadows ss : List Shadow} {post : PostState}

theorem postShadow_flat {as : ArgSpec} {sh : Shadow} (has : as.outPtrIntoArg1 = 0)
    (h : GoesBack c spec sh) :
    postShadow c as shadows sh post = if sh.Goes then
      if ReadsAborted sh.sourcePtr then .error (post.writes ++ [sh.back post.mem])
      else .ok { post with writes := post.writes ++ [sh.back post.mem] }
    else .ok post := by
  have hgoes : (0 < sh.size ∧ (sh.direction = .ptrOut ∨ sh.direction = .ptrInout)) ↔ sh.Goes :=
    and_congr_right fun _ => or_iff_right h.direction
  rw [postShadow, if_neg (not_not.mpr has), h.layout]
  simp only [isSome_none, Bool.false_eq_true, if_false, hgoes]
  split
  · next hg =>
    rw [copyOut, if_pos (h.writable hg)]
    rfl
  · rfl

/-- **Every buffer goes back**, in the order of the arguments — unless one of them starts where a
copy reads as failed: then the dispatch traps. -/
theorem postShadows_flat (h : ∀ s ∈ ss, GoesBack c spec s) :
    if ∀ s ∈ ss, s.Goes → ¬ ReadsAborted s.sourcePtr then
      postShadows c spec shadows ss post
        = .ok { post with writes := post.writes ++ (ss.filter (·.Goes)).map (·.back post.mem) }
    else ∃ ws, postShadows c spec shadows ss post = .error ws := by
  induction ss generalizing post with
  | nil => simp [postShadows]
  | cons sh ss ih =>
    obtain ⟨hsh, h⟩ := forall_mem_cons.mp h
    obtain ⟨as, has, hslot⟩ := hsh.spec
    simp only [postShadows, has, postShadow_flat hslot hsh, forall_mem_cons, filter_cons]
    by_cases hg : sh.Goes
    · by_cases ha : ReadsAborted sh.sourcePtr
      · simp [hg, ha]
      · simpa [hg, ha] using @ih { post with writes := post.writes ++ [sh.back post.mem] } h
    · simpa [hg] using ih h

end Back

/-! ## The caller's memory -/

section Apply

variable {cage : Cage} {ws : List Write} {a : ℕ}

theorem foldl_apply_off
    (h : ∀ w ∈ ws, a < ensureHostAddr cage.base w.dest ∨
      ensureHostAddr cage.base w.dest + w.len ≤ a) :
    (ws.foldl Write.apply cage).bytes a = cage.bytes a := by
  induction ws generalizing cage with
  | nil => rfl
  | cons w ws ih =>
    obtain ⟨hw, h⟩ := forall_mem_cons.mp h
    exact (@ih (w.apply cage) h).trans (blit_off hw)

/-- **In the range of one of several writes apart from each other**, it is what was written. -/
theorem foldl_apply_in
    (hapart : ws.Pairwise fun w w' => ensureHostAddr cage.base w.dest + w.len
        ≤ ensureHostAddr cage.base w'.dest ∨
      ensureHostAddr cage.base w'.dest + w'.len ≤ ensureHostAddr cage.base w.dest)
    {w : Write} (hw : w ∈ ws) (hlo : ensureHostAddr cage.base w.dest ≤ a)
    (hhi : a < ensureHostAddr cage.base w.dest + w.len) :
    (ws.foldl Write.apply cage).bytes a = w.data (a - ensureHostAddr cage.base w.dest) := by
  induction ws generalizing cage with
  | nil => exact absurd hw (by simp)
  | cons w' ws ih =>
    obtain ⟨hapart', hapart⟩ := pairwise_cons.mp hapart
    rcases mem_cons.mp hw with rfl | hw
    · refine (@foldl_apply_off (w.apply cage) ws a fun w'' hw'' => ?_).trans ?_
      · have := hapart' w'' hw''
        change a < ensureHostAddr cage.base w''.dest ∨ ensureHostAddr cage.base w''.dest + _ ≤ a
        omega
      · exact (blit_in hlo hhi).trans (by rw [Nat.zero_add])
    · exact @ih (w'.apply cage) hapart hw hlo hhi

end Apply

/-! ## Transparency -/

/-- What a function does: its result, and the new bytes of the buffer of each argument. -/
structure Effect where
  ret : ℕ
  bytes : ℕ → List Byte

/-- Given `xs`, wherever they lie, the handler returns what `F` returns and leaves in its buffers
what `F` leaves there. -/
def Realizes (handler : Handler) (F : List Arg → Effect) (xs : List Arg) : Prop :=
  ∀ args mem, Presents xs args mem →
    (handler (handlerArgs args) mem).ret = (F xs).ret ∧
      ∀ (i : ℕ) bytes a, xs[i]? = some (.buffer bytes) → args[i]? = some a →
        (handler (handlerArgs args) mem).mem.readBytes a bytes.length = (F xs).bytes i

/-- The caller's memory once the effect is applied to its own buffers. -/
def directBytes (c : Call) (ss : List ArgSpec) (e : Effect) : Mem := fun a =>
  match (ranges c 0 ss).find? fun r => r.inout ∧ r.Contains a with
  | some r => (e.bytes r.index).getD (a - r.host) 0
  | none => c.source.bytes a

/-- The value the caller gets. -/
def directResult (ret : ReturnSpec) (e : Effect) : ℕ := if ret.kind = .void then 0 else e.ret

/-- A flat call: at most six flat arguments with buffers apart from each other, and a plain
result. -/
structure FlatCall (c : Call) (spec : MarshalSpec) (nargs : ℕ) : Prop where
  nargs_le : spec.nargs ≤ rawArgsMax
  args : FlatFrom c 0 (spec.args.take nargs) 0
  apart : (ranges c 0 (spec.args.take nargs)).Pairwise Range.Apart
  ret : spec.ret.kind = .scalar ∨ spec.ret.kind = .void

theorem FlatFrom.arg (h : FlatFrom c i ss used) (hs : ss[j]? = some s) :
    s.Flat ∧ (IsBuffer c (i + j) s → BufferOk c s (c.rawArgs (i + j)) (bufferLen c (i + j) s)) := by
  induction ss generalizing i used j with
  | nil => exact absurd hs (by simp)
  | cons s' ss ih =>
    obtain ⟨hflat, hbuf, -, hrest⟩ := h
    cases j with
    | zero =>
      obtain rfl : s' = s := some.inj hs
      exact ⟨hflat, fun hb => (hbuf hb).1⟩
    | succ j =>
      have := ih hrest hs
      rwa [show i + 1 + j = i + (j + 1) by omega] at this

theorem FlatShadow.goesBack {spec : MarshalSpec} {nargs : ℕ}
    (hargs : FlatFrom c 0 (spec.args.take nargs) used)
    (h : FlatShadow c 0 (spec.args.take nargs) args sh j as) : GoesBack c spec sh := by
  obtain ⟨hflat, hbuf⟩ := hargs.arg h.spec
  obtain ⟨-, -, hcopies, hslot, -⟩ := hflat.resolve_left (by rw [h.buffer.1]; decide)
  have hspec := (ite_none_right_eq_some.mp (getElem?_take.symm.trans h.spec)).2
  refine ⟨⟨as, by rw [h.index, Nat.zero_add, hspec], hslot⟩, h.layout, fun hout => ?_, fun hg => ?_⟩
  · rw [h.direction] at hout
    simp [ArgSpec.copiesIn, hout] at hcopies
  · rw [h.sourcePtr, h.size]
    exact (hbuf h.buffer).writable (h.size ▸ hg.1) (h.direction ▸ hg.2)

theorem FlatShadow.bytes {handler : Handler} {F : List Arg → Effect} {k : ℕ}
    (hF : Realizes handler F (views c 0 ss))
    (hpres : Presents (views c 0 ss) args mem) (h : FlatShadow c 0 ss args sh j as)
    (hk : k < sh.size) : ((F (views c 0 ss)).bytes sh.argIndex).getD k 0
      = (handler (handlerArgs args) mem).mem (sh.shadowPtr + k) := by
  have hbytes := (hF args mem hpres).2 j _ sh.shadowPtr h.view h.arg
  rw [length_readBytes] at hbytes
  rw [h.index, Nat.zero_add, ← hbytes, getD_readBytes hk]

variable {e : Effect} {d : PtrDirection}

/-- **The copies back are the effect on the caller's own buffers.** -/
theorem foldl_back_eq_direct (hranges : shadows.map (Shadow.range c) = ranges c 0 ss)
    (hapart : (ranges c 0 ss).Pairwise Range.Apart) (hbytes : ∀ sh ∈ shadows, ∀ k < sh.size,
      (e.bytes sh.argIndex).getD k 0 = mem (sh.shadowPtr + k)) :
    (((shadows.filter (·.Goes)).map (·.back mem)).foldl Write.apply c.source).bytes
      = directBytes c ss e := by
  funext a
  rw [directBytes]
  have hmem : ∀ {r}, r ∈ ranges c 0 ss ↔ ∃ sh ∈ shadows, sh.range c = r := fun {r} => by
    rw [← hranges, List.mem_map]
  split
  · next r hr =>
    have hin := find?_some hr
    simp only [decide_eq_true_eq] at hin
    obtain ⟨hinout, hlo, hhi⟩ := hin
    obtain ⟨sh, hsh, rfl⟩ := hmem.mp (mem_of_find?_eq_some hr)
    have hgoes : sh.Goes :=
      ⟨by simp only [Shadow.range] at hlo hhi; omega, of_decide_eq_true hinout⟩
    have hpair : ((shadows.filter (·.Goes)).map (·.back mem)).Pairwise fun w w' =>
        ensureHostAddr c.source.base w.dest + w.len ≤ ensureHostAddr c.source.base w'.dest ∨
        ensureHostAddr c.source.base w'.dest + w'.len ≤ ensureHostAddr c.source.base w.dest := by
      rw [← hranges, pairwise_map] at hapart
      exact pairwise_map.mpr (hapart.filter _)
    rw [foldl_apply_in hpair (mem_map_of_mem (mem_filter.mpr ⟨hsh, by simpa using hgoes⟩))
      hlo hhi]
    exact (hbytes sh hsh _ (by simp only [Shadow.range, Shadow.back] at hlo hhi ⊢; omega)).symm
  · next hnone =>
    refine foldl_apply_off fun w hw => ?_
    obtain ⟨sh, hsh, rfl⟩ := mem_map.mp hw
    obtain ⟨hsh, hgoes⟩ := mem_filter.mp hsh
    have hgoes := of_decide_eq_true hgoes
    have hno := find?_eq_none.mp hnone (sh.range c) (hmem.mpr ⟨sh, hsh, rfl⟩)
    simp only [Shadow.range, Range.Contains, hgoes.2, decide_true, true_and, decide_eq_true_eq,
      not_and] at hno
    simp only [Shadow.back]
    omega

theorem directBytes_in (hapart : (ranges c 0 ss).Pairwise Range.Apart) {r : Range}
    (hr : r ∈ ranges c 0 ss) (hin : r.inout = false) {a : ℕ} (ha : r.Contains a) :
    directBytes c ss e a = c.source.bytes a := by
  rw [directBytes]
  split
  · next r' hr' =>
    have hin' := find?_some hr'
    simp only [decide_eq_true_eq] at hin'
    have hne : r' ≠ r := fun heq => by simp [heq, hin] at hin'
    have hapart' := hapart.forall (mem_of_find?_eq_some hr') hr hne
    unfold Range.Apart at hapart'
    unfold Range.Contains at *
    omega
  · rfl

theorem translateReturn_flat {ret : ReturnSpec} {r : HandlerResult}
    (hret : ret.kind = .scalar ∨ ret.kind = .void) (hr : r.ret = e.ret) :
    translateReturn c ret shadows r = some (directResult ret e) := by
  rcases hret with hk | hk
  · simp [translateReturn, directResult, hk, hr]
  · simp [translateReturn, directResult, hk]

/-- No buffer that goes back reads as failed: on the ranges, and on the records of them. -/
theorem forall_ranges_iff (hranges : shadows.map (Shadow.range c) = ranges c 0 ss)
    (hrecords : ∀ sh ∈ shadows, ∃ j as, FlatShadow c 0 ss args sh j as) :
    (∀ r ∈ ranges c 0 ss, r.inout → 0 < r.len → ¬ ReadsAborted (c.rawArgs r.index)) ↔
      ∀ sh ∈ shadows, sh.Goes → ¬ ReadsAborted sh.sourcePtr := by
  rw [← hranges, List.forall_mem_map]
  refine forall₂_congr fun sh hsh => ?_
  obtain ⟨j, as, h⟩ := hrecords sh hsh
  have hraw : c.rawArgs sh.argIndex = sh.sourcePtr := by rw [h.index, h.sourcePtr]
  simp only [Shadow.range, Shadow.Goes, decide_eq_true_eq, hraw]
  tauto

/-- **Marshalling a flat call is transparent**, exactly when no buffer that goes back starts where
a finished copy reads as failed.  The caller's memory is then that of the function applied to its
own buffers, its IN buffers are as they were, and so is the result. -/
theorem dispatch_transparent {spec : MarshalSpec} {nargs : ℕ} (hcall : FlatCall c spec nargs)
    (handler : Handler) (F : List Arg → Effect)
    (hF : Realizes handler F (views c 0 (spec.args.take nargs))) (mem : Mem) :
    ((((dispatch c spec nargs handler mem).cageAfter c).bytes
        = directBytes c (spec.args.take nargs) (F (views c 0 (spec.args.take nargs)))) ∧
      (∀ r ∈ ranges c 0 (spec.args.take nargs), r.inout = false → ∀ a, r.Contains a →
        ((dispatch c spec nargs handler mem).cageAfter c).bytes a = c.source.bytes a) ∧
      (dispatch c spec nargs handler mem).result
        = some (directResult spec.ret (F (views c 0 (spec.args.take nargs))))) ↔
    ∀ r ∈ ranges c 0 (spec.args.take nargs), r.inout → 0 < r.len →
      ¬ ReadsAborted (c.rawArgs r.index) := by
  generalize hss : spec.args.take nargs = ss at *
  have hpre : preCall c spec nargs mem = some (flatPre c 0 ss ⟨0, mem, []⟩) := by
    rw [preCall, if_neg (Nat.not_lt.mpr hcall.nargs_le), hss]
    exact preArgs_flat (hss ▸ hcall.args) rfl
  have hranges := @map_range_flatPre c 0 ⟨0, mem, []⟩ ss
  have hrecords := @flatPre_shadows c 0 ⟨0, mem, []⟩ ss
  have hpres := (@flatPre_presents c 0 ⟨0, mem, []⟩ ss).1
  rw [dispatch, hpre]
  generalize flatPre c 0 ss ⟨0, mem, []⟩ = pre at *
  obtain ⟨args, shadows, st⟩ := pre
  dsimp only at *
  have hback : ∀ sh ∈ shadows, GoesBack c spec sh := fun sh hsh => by
    obtain ⟨j, as, h⟩ := hrecords sh hsh
    subst hss
    exact h.goesBack hcall.args
  rw [forall_ranges_iff hranges hrecords]
  have hpost := fun post => @postShadows_flat c spec shadows shadows post hback
  by_cases hok : ∀ sh ∈ shadows, sh.Goes → ¬ ReadsAborted sh.sourcePtr
  · rw [(if_pos hok).mp (hpost _)]
    refine iff_of_true ?_ hok
    have hapart : (ranges c 0 ss).Pairwise Range.Apart := hss ▸ hcall.apart
    have hbytes : _ = directBytes c ss (F (views c 0 ss)) :=
      foldl_back_eq_direct hranges hapart fun sh hsh k hk => by
        obtain ⟨j, as, h⟩ := hrecords sh hsh
        exact h.bytes hF hpres hk
    rw [nil_append, Outcome.cageAfter, hbytes]
    exact ⟨rfl, fun r hr hin a ha => directBytes_in hapart hr hin ha,
      translateReturn_flat hcall.ret (hF args st.mem hpres).1⟩
  · obtain ⟨ws, heq⟩ := (if_neg hok).mp (hpost _)
    rw [heq]
    refine iff_of_false ?_ hok
    rintro ⟨-, -, hres⟩
    exact absurd hres (by simp)

/-! ## Two calls -/

/-- Copy two bytes from the second buffer to the first. -/
def copySpec : MarshalSpec := ⟨[bytesPtr .ptrInout 2, bytesPtr .ptrIn 2], ⟨.scalar, 0, 0, 0⟩⟩

def copyCall : Call := smallCallOf [(0x200, 0x0201)] fun i => 0x100 * (i + 1)

def copyHandler : Handler
  | a :: b :: _, mem => ⟨2, mem.blit a mem b 2, [], 1⟩
  | _, mem => ⟨0, mem, [], 1⟩

def copyEffect : List Arg → Effect
  | [_, .buffer bytes] => ⟨2, fun _ => bytes⟩
  | _ => ⟨0, fun _ => []⟩

theorem flat_bytesPtr (hd : d ≠ .ptrOut) (n : ℕ) : (bytesPtr d n).Flat := by
  refine .inr ⟨rfl, rfl, ?_, rfl, .inl rfl⟩
  cases d with
  | ptrOut => exact absurd rfl hd
  | ptrIn | ptrInout => rfl

/-- In a cage all of which can be accessed, a buffer of a constant size can. -/
theorem bufferOk_bytesPtr {words : List (ℕ × ℕ)} (raw : ℕ → ℕ) (i : ℕ) (hraw : raw i < 2 ^ 32)
    (hne : raw i ≠ 0) : BufferOk (smallCallOf words raw) (bytesPtr d 2) (raw i)
      (bufferLen (smallCallOf words raw) i (bytesPtr d 2)) := by
  have hlen : bufferLen (smallCallOf words raw) i (bytesPtr d 2) = 2 :=
    if_pos ⟨rfl, hne⟩
  have hhost : ensureHostAddr (smallCage words).base (raw i) = raw i + 2 ^ 32 := if_pos hraw
  have hallowed : ∀ check : ℕ → ℕ → Bool, (∀ a n, check a n) →
      CopyAllowed (smallCallOf words raw) check (raw i) 2 := fun check hcheck => by
    refine ⟨nofun, by decide, ?_, hcheck _ _, ?_⟩
    · exact hhost ▸ by omega
    · exact hhost ▸ by omega
  rw [hlen]
  exact ⟨⟨rfl, nofun, nofun⟩, fun _ => hallowed _ fun _ _ => rfl,
    fun _ _ => hallowed _ fun _ _ => rfl⟩

theorem flatCall_copy : FlatCall copyCall copySpec 2 := by
  refine ⟨by decide, ?_, ?_, .inl rfl⟩
  · exact ⟨flat_bytesPtr (by decide) 2,
      fun _ => ⟨bufferOk_bytesPtr _ 0 (by decide) (by decide), by decide⟩, by decide,
      flat_bytesPtr (by decide) 2,
      fun _ => ⟨bufferOk_bytesPtr _ 1 (by decide) (by decide), by decide⟩, by decide, trivial⟩
  · refine pairwise_cons.mpr ⟨?_, pairwise_singleton _ _⟩
    exact forall_mem_singleton.mpr (.inl (by decide))

theorem views_copy : views copyCall 0 copySpec.args = [.buffer [0, 0], .buffer [1, 2]] := rfl

theorem realizes_copy : Realizes copyHandler copyEffect (views copyCall 0 copySpec.args) := by
  rw [views_copy]
  rintro args mem ⟨hholds, hapart⟩
  rcases hholds with _ | ⟨⟨-, ha⟩, _ | ⟨⟨-, hb⟩, _ | _⟩⟩
  rename_i a b
  have hapart : a + 2 ≤ b ∨ b + 2 ≤ a :=
    (pairwise_cons.mp hapart).1 _ (mem_singleton_self _)
  have ha' : (mem.blit a mem b 2).readBytes a 2 = [1, 2] := hb ▸ readBytes_congr fun k hk => by
    rw [blit_in (by omega) (by omega), Nat.add_sub_cancel_left]
  have hb' : (mem.blit a mem b 2).readBytes b 2 = [1, 2] := hb ▸ readBytes_congr fun k hk =>
    blit_off (by omega)
  refine ⟨rfl, fun i bytes x hx hargs => ?_⟩
  match i with
  | 0 =>
    obtain rfl : a = x := some.inj hargs
    obtain rfl : [0, 0] = bytes := by simpa using hx
    exact ha'
  | 1 =>
    obtain rfl : b = x := some.inj hargs
    obtain rfl : [1, 2] = bytes := by simpa using hx
    exact hb'

/-- …the caller's first buffer gets the bytes of its second. -/
theorem dispatch_transparent_copy :
    ((dispatch copyCall copySpec 2 copyHandler fun _ => 0).cageAfter copyCall).bytes
        = directBytes copyCall copySpec.args (copyEffect (views copyCall 0 copySpec.args)) ∧
      (dispatch copyCall copySpec 2 copyHandler fun _ => 0).result = some 2 := by
  have h := (dispatch_transparent flatCall_copy copyHandler copyEffect realizes_copy
    fun _ => 0).mpr (by decide)
  exact ⟨h.1, h.2.2⟩

/-- Two bytes at the one address, read and left as they are. -/
def lastSpec : MarshalSpec := ⟨[bytesPtr .ptrInout 2], ⟨.scalar, 0, 0, 0⟩⟩

def lastCall : Call := smallCallOf [] fun _ => 0xE0010001

/-- **A copy that was made reads as failed**: the call is flat and its handler does nothing, but
the dispatch traps. -/
theorem dispatch_transparent_aborted :
    FlatCall lastCall lastSpec 1 ∧
      Realizes (fun _ mem => ⟨0, mem, [], 1⟩) (fun _ => ⟨0, fun _ => [0, 0]⟩)
        (views lastCall 0 lastSpec.args) ∧
      (dispatch lastCall lastSpec 1 (fun _ mem => ⟨0, mem, [], 1⟩) fun _ => 0).result = none := by
  refine ⟨⟨by decide, ?_, pairwise_singleton _ _, .inl rfl⟩, ?_, by decide⟩
  · exact ⟨flat_bytesPtr (by decide) 2,
      fun _ => ⟨bufferOk_bytesPtr _ 0 (by decide) (by decide), by decide⟩, by decide, trivial⟩
  · rintro args mem ⟨hholds, -⟩
    rcases hholds with _ | ⟨⟨-, ha⟩, _ | _⟩
    refine ⟨rfl, fun i bytes x hx hargs => ?_⟩
    match i with
    | 0 =>
      cases hargs
      obtain rfl : [0, 0] = bytes := Arg.buffer.inj (some.inj hx)
      exact ha

end LindWasm.Marshal
