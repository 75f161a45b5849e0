import Mathlib.Data.List.Forall2
import LindWasm.Marshal.CopyBack
import LindWasm.Marshal.Overlay

/-!
# Marshal/Interference — what an earlier call leaves in the arena

    earlier call --> bytes left in the arena -- ? --> this call's copies, pointers and result

A shadow that nothing is copied into holds what the last call left there, and the way back copies
shadows whole. So a byte of an OUT buffer that the handler does not store comes from an earlier
call, possibly of another cage. For a call in which the marshaller reads only what it has stored,
`dispatch_noninterfering` says when this happens: if the handler stores every byte that goes back
and was not copied in, nothing of the arena is to be seen — and, where the call returns, only then.
-/

namespace LindWasm.Marshal

open Function Option List Patch Mem

variable {c : Call} {m m' : Mem}

/-! ## Handlers that see only what was copied in -/

/-- What a handler does: the value it returns, the bytes it stores, and the handle table. -/
structure Action where
  ret : ℕ
  stores : Patch
  handles : List HandleEntry
  nextToken : ℕ

def Action.result (x : Action) (mem : Mem) : HandlerResult :=
  ⟨x.ret, mem.patch x.stores, x.handles, x.nextToken⟩

/-- A handler as a function of its arguments and of the bytes it is shown. -/
abbrev Behaviour := List ℕ → Patch → Action

def Placement.InArena (g : Placement) (a : ℕ) : Prop := g.arena ≤ a ∧ a < g.arena + arenaSize

section Call

variable (c : Call) (spec : MarshalSpec) (nargs : ℕ)

variable (mem : Mem)

/-- The byte at `a` when the handler is called. -/
def byteAtCall (a : ℕ) : Option Byte :=
  (preCall c spec nargs mem).map fun x => x.2.2.mem a

/-- The dispatch has put a byte at `a`: whichever was there, the same one is there when the handler
is called. -/
def CopiedIn (a : ℕ) : Prop :=
  c.grate.InArena a ∧
    ∀ b, byteAtCall c spec nargs (update mem a b) a = byteAtCall c spec nargs mem a

open Classical in
/-- The bytes put into the arena before the handler is called. -/
noncomputable def copiedIn : Patch :=
  fun a => if CopiedIn c spec nargs mem a then byteAtCall c spec nargs mem a else none

/-- The byte belongs to a pointee the handler may write. -/
def OutByte (shadows : List Shadow) (a : ℕ) : Prop :=
  ∃ s ∈ shadows,
    (s.direction = .ptrOut ∨ s.direction = .ptrInout) ∧ s.shadowPtr ≤ a ∧ a < s.shadowPtr + s.size ∨
    ∃ t ∈ s.tracks, t.spec.copiesOut ∧ t.shadowStart ≤ a ∧ a < t.shadowStart + t.shadowLen

variable (h : Handler)

/-- In this call the handler `h` behaves as `b`: it reads only bytes that were copied in, and stores
only into its OUT pointees. -/
structure Confined (b : Behaviour) : Prop where
  reads : ∀ mem args shadows st, preCall c spec nargs mem = some (args, shadows, st) →
    h (handlerArgs args) st.mem = (b (handlerArgs args) (copiedIn c spec nargs mem)).result st.mem
  stores : ∀ mem args shadows st, preCall c spec nargs mem = some (args, shadows, st) →
    ∀ a, ((b (handlerArgs args) (copiedIn c spec nargs mem)).stores a).isSome → OutByte shadows a

/-! ## Two runs of one call -/

/-- The same bytes, written to the same place. -/
def Write.Alike (w w' : Write) : Prop :=
  w.dest = w'.dest ∧ w.len = w'.len ∧ ∀ k < w.len, w.data k = w'.data k

/-- The pointers a dispatch has followed: what it hands to the handler, and what it records of the
caller's pointers and of their shadows. -/
def followed : Option (List ℕ × List Shadow × List Block) :=
  (preCall c spec nargs mem).map fun x => (x.1, x.2.1, x.2.2.shadows)

/-- The two runs cannot be told apart: they follow the same pointers, copy the same bytes to the
calling cage and leave it the same, and return the same. -/
structure SameEffect (mem mem' : Mem) : Prop where
  followed : followed c spec nargs mem = followed c spec nargs mem'
  copied : List.Forall₂ Write.Alike (dispatch c spec nargs h mem).writes
    (dispatch c spec nargs h mem').writes
  memory : (dispatch c spec nargs h mem).cageAfter c = (dispatch c spec nargs h mem').cageAfter c
  result : (dispatch c spec nargs h mem).result = (dispatch c spec nargs h mem').result

/-- Whatever the arena holds, the call has the same effect. -/
def NonInterfering (mem : Mem) : Prop :=
  ∀ mem', ArenaOnly c.grate mem mem' → SameEffect c spec nargs h mem mem'

end Call

/-! ## The bytes that go back -/

/-- How much of a tracked field's shadow goes back: up to where the handler left the pointer, or its
nominal size if the pointer was not moved. -/
def backLen (s : Shadow) (mem : Mem) (t : Track) : ℕ :=
  if mem.getWord (u32 (s.shadowPtr + t.offset)) ≠ 0 ∧ t.spec.copiesOut then
    if mem.getWord (u32 (s.shadowPtr + t.offset)) = t.shadowStart then
      nominalSize s.layout t mem s.shadowPtr
    else mem.getWord (u32 (s.shadowPtr + t.offset)) - t.shadowStart
  else 0

/-- The byte at `a` goes back with the shadow `s`, given what the handler left in memory. -/
def SentBack (as : ArgSpec) (s : Shadow) (mem : Mem) (a : ℕ) : Prop :=
  if as.outPtrIntoArg1 ≠ 0 then s.shadowPtr ≤ a ∧ a < s.shadowPtr + 4
  else (s.direction = .ptrOut ∨ s.direction = .ptrInout) ∧
    (s.shadowPtr ≤ a ∧ a < s.shadowPtr + s.size ∨
      s.layout.isSome ∧ ∃ t ∈ s.tracks, t.shadowStart ≤ a ∧ a < t.shadowStart + backLen s mem t)

/-- The handler supplies what goes back: every such byte of the arena was copied in, or it stores
it. -/
def Supplied (c : Call) (spec : MarshalSpec) (nargs : ℕ) (b : Behaviour) (mem : Mem) : Prop :=
  ∀ args shadows st, preCall c spec nargs mem = some (args, shadows, st) →
    ∀ s ∈ shadows, ∀ as, spec.args[s.argIndex]? = some as → ∀ a, c.grate.InArena a →
      SentBack as s ((b (handlerArgs args) (copiedIn c spec nargs mem)).result st.mem).mem a →
      CopiedIn c spec nargs mem a ∨
        ((b (handlerArgs args) (copiedIn c spec nargs mem)).stores a).isSome

/-! ## The way back, in lockstep -/

/-- The byte does not depend on which of the two memories lies below. -/
def Fixed (q : Patch) (m m' : Mem) (a : ℕ) : Prop := (q a).isSome ∨ m a = m' a

variable {a hi : ℕ} {x x' : Post PostState} {checked : List (Track × ℕ × ℕ)} {s : Shadow}
  {t : Track}

theorem fixed_iff {q : Patch} : Fixed q m m' a ↔ m.patch q a = m'.patch q a := by
  constructor
  · rintro (h | h)
    · exact patch_eq_of_isSome h
    · exact patch_congr h
  · intro h
    by_cases hq : (q a).isSome
    · exact .inl hq
    · have hnone := not_isSome_iff_eq_none.mp hq
      rw [patch_eq_of_none hnone, patch_eq_of_none hnone] at h
      exact .inr h

/-- Two states of the way back whose memories were stored to at the places of `q`. -/
structure Twin (q : Patch) (m m' : Mem) (st st' : PostState) : Prop where
  used : st.used = st'.used
  mem : ∃ q₁ : Patch, (∀ a, (q₁ a).isSome ↔ (q a).isSome) ∧ st.mem = m.patch q₁ ∧
    st'.mem = m'.patch q₁

variable {q : Patch} {st st' : PostState} {D D' : Prop} {ws ws' : List Write} {ret : Option ℕ}
  {shadowPtr v : ℕ} {onePast : Bool} {mem mem' : Mem}

theorem Twin.eq_iff (h : Twin q m m' st st') (a : ℕ) : st.mem a = st'.mem a ↔ Fixed q m m' a := by
  obtain ⟨q₁, hdom, hmem, hmem'⟩ := h.mem
  rw [hmem, hmem', ← fixed_iff, Fixed, Fixed, hdom]

theorem Twin.getWord (h : Twin q m m' st st') (ha : q.Covers a 4) :
    st.mem.getWord a = st'.mem.getWord a :=
  getWord_congr fun i hi => (h.eq_iff _).mpr (.inl (ha i hi))

/-- Two ways to go on from the writes `ws` and `ws'` match: where `D` holds both trap or both go on,
with the same writes if they had the same so far; and if they go on with the same, `D` holds. -/
def Matched (D : Prop) (q : Patch) (m m' : Mem) (ws ws' : List Write) :
    Post PostState → Post PostState → Prop
  | .error e, .error e' => D → List.Forall₂ Write.Alike ws ws' → List.Forall₂ Write.Alike e e'
  | .ok st, .ok st' => Twin q m m' st st' ∧ (ws.length = ws'.length →
      st.writes.length = st'.writes.length ∧ (List.Forall₂ Write.Alike st.writes st'.writes ↔
        List.Forall₂ Write.Alike ws ws' ∧ D))
  | _, _ => ¬ D

theorem Matched.congr (h : Matched D q m m' ws ws' x x') (hD : D' ↔ D) :
    Matched D' q m m' ws ws' x x' := by
  rwa [propext hD]

theorem matched_abort (st st' : PostState) :
    Matched D q m m' st.writes st'.writes st.abort st'.abort := fun _ h => h

/-- One side traps; the other may have trapped as well, but only where `D` fails. -/
theorem matched_abort_left (hD : ¬ D) (st : PostState) (x' : Post PostState) :
    Matched D q m m' ws ws' st.abort x' := by
  rcases x' with e | st'
  · exact fun h => absurd h hD
  · exact hD

theorem matched_abort_right (hD : ¬ D) (x : Post PostState) (st' : PostState) :
    Matched D q m m' ws ws' x st'.abort := by
  rcases x with e | st
  · exact fun h => absurd h hD
  · exact hD

theorem matched_ok (h : Twin q m m' st st') (hD : D) :
    Matched D q m m' st.writes st'.writes (.ok st) (.ok st') :=
  ⟨h, fun hlen => ⟨hlen, (and_iff_left hD).symm⟩⟩

theorem matched_ite {p : Prop} [Decidable p] {y y' : Post PostState}
    (h : p → Matched D q m m' ws ws' x x') (h' : ¬ p → Matched D q m m' ws ws' y y') :
    Matched D q m m' ws ws' (if p then x else y) (if p then x' else y') := by
  split
  · next hp => exact h hp
  · next hp => exact h' hp

/-- **One step after another** matches if both do. -/
theorem Matched.andThen {f f' : PostState → Post PostState} (h : Matched D q m m' ws ws' x x')
    (hf : ∀ st st', x = .ok st → x' = .ok st' → Twin q m m' st st' →
      Matched D' q m m' st.writes st'.writes (f st) (f' st')) :
    Matched (D ∧ D') q m m' ws ws' (Post.andThen x f) (Post.andThen x' f') := by
  rcases x with e | st <;> rcases x' with e' | st'
  · exact fun hand => h hand.1
  · show Matched _ _ _ _ _ _ (.error e) (f' st')
    rcases f' st' with e' | st₁'
    · exact fun hand => absurd hand.1 h
    · exact fun hand => h hand.1
  · show Matched _ _ _ _ _ _ (f st) (.error e')
    rcases f st with e | st₁
    · exact fun hand => absurd hand.1 h
    · exact fun hand => h hand.1
  · have hf := hf st st' rfl rfl h.1
    show Matched _ _ _ _ _ _ (f st) (f' st')
    rcases hy : f st with e | st₁ <;> rcases hy' : f' st' with e' | st₁' <;> rw [hy, hy'] at hf
    · exact fun hand hws => hf hand.2 ((h.2 hws.length_eq).2.mpr ⟨hws, hand.1⟩)
    · exact fun hand => hf hand.2
    · exact fun hand => hf hand.2
    · refine ⟨hf.1, fun hlen => ?_⟩
      obtain ⟨hlen₁, hiff⟩ := h.2 hlen
      obtain ⟨hlen₂, hiff'⟩ := hf.2 hlen₁
      exact ⟨hlen₂, by rw [hiff', hiff, and_assoc]⟩

theorem forall₂_append_iff {α β : Type*} {R : α → β → Prop} {l₁ r₁ : List α} {l₂ r₂ : List β}
    (hlen : l₁.length = l₂.length) : List.Forall₂ R (l₁ ++ r₁) (l₂ ++ r₂) ↔
      List.Forall₂ R l₁ l₂ ∧ List.Forall₂ R r₁ r₂ := by
  induction l₁ generalizing l₂ with
  | nil =>
    obtain rfl := length_eq_zero_iff.mp hlen.symm
    rw [nil_append, nil_append, and_iff_right List.Forall₂.nil]
  | cons a l₁ ih =>
    cases l₂ with
    | nil => exact absurd hlen (Nat.succ_ne_zero _)
    | cons b l₂ =>
      rw [cons_append, cons_append, forall₂_cons, forall₂_cons,
        ih (Nat.succ.inj hlen), and_assoc]

section

variable (h : Twin q m m' st st') (role : Role) (dest len start : ℕ)
include h

/-- One copy to the calling cage: whether it is made does not depend on the bytes. -/
theorem matched_copyOut (data data' : Mem) :
    Matched (∀ k < len, data k = data' k) q m m' st.writes st'.writes
      (copyOut c st role dest len data) (copyOut c st' role dest len data') := by
  have happend : st.writes.length = st'.writes.length →
      (List.Forall₂ Write.Alike (st.writes ++ [⟨role, dest, len, data⟩])
        (st'.writes ++ [⟨role, dest, len, data'⟩]) ↔
      List.Forall₂ Write.Alike st.writes st'.writes ∧ ∀ k < len, data k = data' k) := fun hlen => by
    rw [forall₂_append_iff hlen, forall₂_cons, and_iff_left List.Forall₂.nil]
    exact and_congr_right fun _ => ⟨fun hw => hw.2.2, fun hd => ⟨rfl, rfl, hd⟩⟩
  refine matched_ite (fun _ => matched_ite (fun _ hD hws => ?_) fun _ => ?_) fun _ =>
    matched_abort st st'
  · exact (happend hws.length_eq).mpr ⟨hws, hD⟩
  · refine ⟨⟨h.used, h.mem⟩, fun hlen => ⟨?_, happend hlen⟩⟩
    rw [length_append, length_append, hlen, length_singleton, length_singleton]

/-- …of bytes of the grate's memory. -/
theorem matched_copyBytes :
    Matched (∀ k < len, Fixed q m m' (start + k)) q m m' st.writes st'.writes
      (copyOut c st role dest len (bytesFrom st.mem start))
      (copyOut c st' role dest len (bytesFrom st'.mem start)) :=
  (matched_copyOut h role dest len _ _).congr
    (forall_congr' fun k => imp_congr_right fun _ => (h.eq_iff (start + k)).symm)

/-- …if there are any. -/
theorem matched_copyNonempty :
    Matched (∀ k < len, Fixed q m m' (start + k)) q m m' st.writes st'.writes
      (if 0 < len then copyOut c st role dest len (bytesFrom st.mem start) else .ok st)
      (if 0 < len then copyOut c st' role dest len (bytesFrom st'.mem start) else .ok st') :=
  matched_ite (fun _ => matched_copyBytes h role dest len start) fun hpos =>
    matched_ok h fun k hk => absurd hk (by omega)

end

/-! ## Structs -/

theorem matched_copyChildren (h : Twin q m m' st st') :
    Matched (∀ x ∈ checked, ∀ k < x.2.1, Fixed q m m' (x.1.shadowStart + k)) q m m' st.writes
      st'.writes (copyChildren c checked st) (copyChildren c checked st') := by
  induction checked generalizing st st' with
  | nil => exact matched_ok h (by simp)
  | cons x rest ih =>
    obtain ⟨t, size, v⟩ := x
    refine Matched.congr ?_ forall_mem_cons
    refine matched_ite (fun _ => ?_) fun hpos => (ih h).congr (and_iff_right fun k hk => ?_)
    · exact (matched_copyBytes h _ _ _ _).andThen fun st st' _ _ hst => ih hst
    · exact absurd hk (by dsimp only; omega)

/-- What phase 1 finds out about a field is how much of it goes back. -/
theorem size_of_checkTrack {size : ℕ} (h : checkTrack c s mem t = some (size, v)) :
    size = backLen s mem t := by
  rw [backLen]
  obtain ⟨-, h⟩ := ite_none_left_eq_some.mp h
  dsimp only at h
  split at h
  · next hzero =>
    cases h
    rw [if_neg fun hand => hand.1 hzero]
  · next hcur =>
    obtain ⟨offset, hoff, h⟩ := bind_eq_some_iff.mp h
    obtain ⟨-, h⟩ := ite_none_left_eq_some.mp h
    obtain ⟨-, h⟩ := ite_none_left_eq_some.mp h
    cases h
    have heq := (validateShadowOffset_eq_some.mp hoff).2.2
    by_cases hout : t.spec.copiesOut = true
    · have hmoved : mem.getWord (u32 (s.shadowPtr + t.offset)) ≠ 0 ∧ t.spec.copiesOut = true :=
        ⟨hcur, hout⟩
      rw [if_pos hout, if_pos hmoved]
      by_cases hzero : offset = 0
      · rw [if_pos hzero, if_pos (by omega)]
      · rw [if_neg hzero, if_neg (by omega)]
        omega
    · rw [if_neg hout, if_neg fun hand => hout hand.2]

/-- The nominal size of a field depends on the word of the sibling that counts it. -/
theorem nominalSize_congr {layout : Option Layout}
    (h : ∀ l f, layout = some l → t.spec.sizeKind = .fromArg →
      l.fields[t.spec.sizeArgIndex]? = some f →
      mem.getWord (u32 (shadowPtr + f.offset)) = mem'.getWord (u32 (shadowPtr + f.offset))) :
    nominalSize layout t mem shadowPtr = nominalSize layout t mem' shadowPtr := by
  cases layout with
  | none => rfl
  | some l =>
    rw [nominalSize, nominalSize]
    by_cases hsib : (l.fields.any fun f => f.offset = t.offset) ∧ t.spec.sizeKind = .fromArg
    · rw [if_pos hsib, if_pos hsib]
      cases hf : l.fields[t.spec.sizeArgIndex]? with
      | none => rfl
      | some f =>
        dsimp only
        rw [h l f rfl hsib.2 hf]
    · rw [if_neg hsib, if_neg hsib]

theorem checkTrack_twin (h : Twin q m m' st st') (hk : t.Known q s.layout s.shadowPtr hi) :
    checkTrack c s st.mem t = checkTrack c s st'.mem t := by
  rw [checkTrack, checkTrack]
  rw [h.getWord hk.slot.covers,
    nominalSize_congr fun l f hl hs hf => h.getWord (hk.sibling l f hl hs hf).covers]

theorem checkTracks_twin {ts : List Track} (h : Twin q m m' st st')
    (hk : ∀ t ∈ ts, t.Known q s.layout s.shadowPtr hi) :
    checkTracks c s st.mem ts = checkTracks c s st'.mem ts := by
  induction ts with
  | nil => rfl
  | cons t ts ih =>
    obtain ⟨hhead, htail⟩ := forall_mem_cons.mp hk
    rw [checkTracks, checkTracks, checkTrack_twin h hhead, ih htail]

theorem exists_sanitize (hcov : ∀ x ∈ checked, q.Covers (u32 (shadowPtr + x.1.offset)) 4) :
    ∃ q₁ : Patch, (∀ a, (q₁ a).isSome ↔ (q a).isSome) ∧
      ∀ m : Mem, sanitize shadowPtr (m.patch q) checked = m.patch q₁ := by
  induction checked generalizing q with
  | nil => exact ⟨q, fun _ => Iff.rfl, fun _ => rfl⟩
  | cons x rest ih =>
    obtain ⟨hhead, htail⟩ := forall_mem_cons.mp hcov
    have hdom : ∀ a, ((Patch.word (u32 (shadowPtr + x.1.offset)) x.2.2).atop q a).isSome ↔
        (q a).isSome := fun a => by
      rw [isSome_atop, or_iff_right_iff_imp, isSome_word]
      rintro ⟨hlo, hhi⟩
      have := hhead (a - u32 (shadowPtr + x.1.offset)) (by omega)
      rwa [Nat.add_sub_cancel' hlo] at this
    obtain ⟨q₁, hq₁, hmem⟩ := ih fun y hy => (htail y hy).mono fun b hb => (hdom b).mpr hb
    refine ⟨q₁, fun a => (hq₁ a).trans (hdom a), fun m => ?_⟩
    rw [← hmem m, patch_atop, ← putWord_eq_patch]
    rfl

theorem Twin.sanitize (h : Twin q m m' st st')
    (hcov : ∀ x ∈ checked, q.Covers (u32 (s.shadowPtr + x.1.offset)) 4) (used : ℕ) :
    Twin q m m' { st with used, mem := sanitize s.shadowPtr st.mem checked }
      { st' with used, mem := sanitize s.shadowPtr st'.mem checked } := by
  obtain ⟨q₁, hdom, hmem, hmem'⟩ := h.mem
  obtain ⟨q₂, hdom₂, hsan⟩ := exists_sanitize fun x hx =>
    (hcov x hx).mono fun b hb => (hdom b).mpr hb
  refine ⟨rfl, q₂, fun a => (hdom₂ a).trans (hdom a), ?_, ?_⟩
  · dsimp only
    rw [hmem, hsan]
  · dsimp only
    rw [hmem', hsan]

/-- The struct's bytes, and what its tracked fields lead to. -/
def StructFixed (q : Patch) (m m' : Mem) (s : Shadow) (mem : Mem) : Prop :=
  (∀ t ∈ s.tracks, ∀ k < backLen s mem t, Fixed q m m' (t.shadowStart + k)) ∧
    ∀ k < s.size, Fixed q m m' (s.shadowPtr + k)

/-- …which are those of the checked fields. -/
theorem structFixed_iff (hchecked : checkTracks c s mem s.tracks = some checked) :
    StructFixed q m m' s mem ↔
      (∀ x ∈ checked, ∀ k < x.2.1, Fixed q m m' (x.1.shadowStart + k)) ∧
        ∀ k < s.size, Fixed q m m' (s.shadowPtr + k) := by
  obtain ⟨hof, hall⟩ := checkTracks_spec hchecked
  have hsize : ∀ x ∈ checked, x.2.1 = backLen s mem x.1 := fun x hx =>
    size_of_checkTrack (hall x hx).2
  refine and_congr_left fun _ => ⟨fun hD x hx => ?_, fun hD t ht => ?_⟩
  · rw [hsize x hx]
    exact hD x.1 (hall x hx).1
  · obtain ⟨x, hx, rfl⟩ := hof t ht
    rw [← hsize x hx]
    exact hD x hx

/-- **The way back of a struct**: both trap for the same reason, or neither does. -/
theorem matched_postStruct (h : Twin q m m' st st')
    (hknown : ∀ t ∈ s.tracks, t.Known q s.layout s.shadowPtr hi) :
    Matched ((s.direction = .ptrOut ∨ s.direction = .ptrInout) → StructFixed q m m' s st.mem)
      q m m' st.writes st'.writes (postStruct c s st) (postStruct c s st') := by
  rw [postStruct, postStruct, ← h.used, ← checkTracks_twin h hknown]
  refine matched_ite (fun hdir => matched_ok h fun hor => absurd hor (not_or.mpr hdir))
    fun hdir => matched_ite (fun _ => matched_abort st st') fun _ => ?_
  cases allocScratch c st.used s.tracks.length with
  | none => exact matched_abort st st'
  | some used =>
    cases hchecked : checkTracks c s st.mem s.tracks with
    | none => exact matched_abort st st'
    | some checked =>
      have hcov : ∀ x ∈ checked, q.Covers (u32 (s.shadowPtr + x.1.offset)) 4 := fun x hx =>
        (hknown x.1 ((checkTracks_spec hchecked).2 x hx).1).slot.covers
      have hor : s.direction = .ptrOut ∨ s.direction = .ptrInout := by tauto
      refine Matched.congr ?_ ((forall_prop_of_true hor).trans (structFixed_iff hchecked))
      exact (matched_copyChildren (h.sanitize hcov used)).andThen fun st₁ st₁' _ _ h₁ =>
        matched_copyNonempty h₁ _ _ _ _

/-! ## Slots -/

section Shadows

variable {as : ArgSpec} {spec : MarshalSpec} {shadows : List Shadow} {s : Shadow} {hi : ℕ}

/-- A translated slot tells what the callee had written. -/
theorem slotValue_injective (hne : ∀ s ∈ shadows, s.sourcePtr ≠ 0) {x x' : ℕ}
    (h : slotValue c as shadows x = some v) (h' : slotValue c as shadows x' = some v) : x = x' := by
  have hcases : ∀ y, slotValue c as shadows y = some v → y = 0 ∧ v = 0 ∨
      ∃ t, findShadow shadows (as.outPtrIntoArg1 - 1) = some t ∧ v ≠ 0 ∧
        t.shadowPtr + v = t.sourcePtr + y := fun y hv => by
    obtain ⟨hy, hv⟩ | ⟨-, hv⟩ := ite_eq_iff.mp hv
    · exact .inl ⟨hy, (some.inj hv).symm⟩
    · obtain ⟨t, ht, hv⟩ := bind_eq_some_iff.mp hv
      obtain ⟨-, hv⟩ := ite_none_right_eq_some.mp hv
      have := hne t (mem_of_find?_eq_some ht)
      rcases translateShadowPtr_eq_some.mp hv with h | ⟨-, -, -, ⟨hle, -⟩, hv, -⟩
      · exact .inl h
      · exact .inr ⟨t, ht, by omega, by omega⟩
  rcases hcases x h with ⟨rfl, rfl⟩ | ⟨t, ht, hpos, hv⟩
  · rcases hcases x' h' with ⟨rfl, -⟩ | ⟨-, -, hpos, -⟩
    · rfl
    · exact absurd rfl hpos
  · rcases hcases x' h' with ⟨-, rfl⟩ | ⟨t', ht', -, hv'⟩
    · exact absurd rfl hpos
    · obtain rfl := mem_unique ht ht'
      omega

theorem Twin.getWord_eq_iff (h : Twin q m m' st st') (a : ℕ) :
    st.mem.getWord a = st'.mem.getWord a ↔ ∀ k < 4, Fixed q m m' (a + k) := by
  constructor
  · exact fun heq k hk => (h.eq_iff _).mp (eq_of_getWord_eq heq k hk)
  · exact fun hD => getWord_congr fun k hk => (h.eq_iff _).mpr (hD k hk)

/-! ## All shadows -/

variable {a : ℕ} {mem : Mem}

theorem sanitize_above {shadowPtr : ℕ} {checked : List (Track × ℕ × ℕ)}
    (h : ∀ x ∈ checked, u32 (shadowPtr + x.1.offset) + 4 ≤ a) :
    sanitize shadowPtr mem checked a = mem a := by
  induction checked generalizing mem with
  | nil => rfl
  | cons x rest ih =>
    obtain ⟨hhead, htail⟩ := forall_mem_cons.mp h
    rw [sanitize, foldl_cons]
    exact (ih htail).trans (sameOff_putWord a (.inr hhead))

/-- The way back of a shadow keeps what lies above its tracked fields. -/
theorem postShadow_above {st₁ : PostState} (h : postShadow c as shadows s st = .ok st₁)
    (ha : ∀ t ∈ s.tracks, u32 (s.shadowPtr + t.offset) + 4 ≤ a) : st₁.mem a = st.mem a := by
  have hback : Ensures (fun _ => True) _ (postShadow c as shadows s st) :=
    ensures_postShadow (fun _ _ => trivial) (fun _ _ _ _ => trivial)
      (fun _ _ _ _ _ => ⟨fun _ _ _ _ => trivial, fun _ => trivial⟩) fun _ _ _ => trivial
  rw [h] at hback
  rcases hback.2 with hmem | ⟨checked, hchecked, hmem⟩
  · rw [hmem]
  · rw [hmem]
    exact sanitize_above fun x hx => ha x.1 ((checkTracks_spec hchecked).2 x hx).1

/-- How much of a field goes back is read above the struct's start. -/
theorem backLen_congr {t : Track} (hk : t.Known q s.layout s.shadowPtr hi)
    (heq : ∀ a, s.shadowPtr ≤ a → mem a = mem' a) : backLen s mem t = backLen s mem' t := by
  have hword : ∀ b, WordIn q s.shadowPtr hi b → mem.getWord b = mem'.getWord b := fun b hb =>
    getWord_congr fun i _ => heq _ (hb.lo_le.trans (Nat.le_add_right _ _))
  rw [backLen, backLen, hword _ hk.slot,
    nominalSize_congr fun l f hl hs hf => hword _ (hk.sibling l f hl hs hf)]

theorem sentBack_congr (hk : ∀ t ∈ s.tracks, t.Known q s.layout s.shadowPtr hi)
    (heq : ∀ a, s.shadowPtr ≤ a → mem a = mem' a) (a : ℕ) :
    SentBack as s mem a ↔ SentBack as s mem' a := by
  have hlen : (∃ t ∈ s.tracks, t.shadowStart ≤ a ∧ a < t.shadowStart + backLen s mem t) ↔
      ∃ t ∈ s.tracks, t.shadowStart ≤ a ∧ a < t.shadowStart + backLen s mem' t :=
    exists_congr fun t => and_congr_right fun ht => by rw [backLen_congr (hk t ht) heq]
  rw [SentBack, SentBack, hlen]

variable (hsrc : ∀ s ∈ shadows, s.sourcePtr = c.rawArgs s.argIndex)
  (hne : ∀ s ∈ shadows, s.sourcePtr ≠ 0)
include hsrc hne

/-- Translated slots of the same bytes translate the same word. -/
theorem slotValue_eq_iff {x x' v' : ℕ} (hv : slotValue c as shadows x = some v)
    (hv' : slotValue c as shadows x' = some v') :
    x = x' ↔ ∀ k < 4, Mem.wordBytes v k = Mem.wordBytes v' k := by
  constructor
  · rintro rfl
    obtain rfl := mem_unique hv hv'
    exact fun _ _ => rfl
  · intro hbytes
    have heq : v = v' := by
      rw [← getWord_wordBytes (translated_of_found hsrc hv).1,
        ← getWord_wordBytes (translated_of_found hsrc hv').1]
      exact getWord_congr fun k hk => by rw [Nat.zero_add]; exact hbytes k hk
    exact slotValue_injective hne hv (heq ▸ hv')

/-- **The slot of an OUT pointer-to-pointer**: what goes back is a translation of its word. -/
theorem matched_postSlot (h : Twin q m m' st st') (has : as.outPtrIntoArg1 ≠ 0) :
    Matched (∀ k < 4, Fixed q m m' (s.shadowPtr + k)) q m m' st.writes st'.writes
      (postShadow c as shadows s st) (postShadow c as shadows s st') := by
  rw [postShadow, postShadow, if_pos has, if_pos has]
  refine Matched.congr ?_ (h.getWord_eq_iff s.shadowPtr).symm
  generalize st.mem.getWord s.shadowPtr = x
  generalize st'.mem.getWord s.shadowPtr = x'
  cases hv : slotValue c as shadows x with
  | none =>
    cases hv' : slotValue c as shadows x' with
    | none => exact matched_abort st st'
    | some v' =>
      refine matched_abort_left (fun heq => ?_) st _
      exact some_ne_none v' (hv'.symm.trans (heq ▸ hv))
  | some v =>
    cases hv' : slotValue c as shadows x' with
    | none =>
      refine matched_abort_right (fun heq => ?_) _ st'
      exact some_ne_none v (hv.symm.trans (heq ▸ hv'))
    | some v' =>
      exact (matched_copyOut h .slot s.sourcePtr 4 _ _).congr (slotValue_eq_iff hsrc hne hv hv')

/-- **The way back of one shadow.** -/
theorem matched_postShadow (h : Twin q m m' st st')
    (hknown : ∀ t ∈ s.tracks, t.Known q s.layout s.shadowPtr hi) :
    Matched (∀ a, SentBack as s st.mem a → Fixed q m m' a) q m m' st.writes st'.writes
      (postShadow c as shadows s st) (postShadow c as shadows s st') := by
  have hrange : ∀ start len, (∀ a, start ≤ a ∧ a < start + len → Fixed q m m' a) ↔
      ∀ k < len, Fixed q m m' (start + k) := fun start len => by
    constructor
    · exact fun hD k hk => hD _ (by omega)
    · rintro hD a ⟨hlo, hhi⟩
      have := hD (a - start) (by omega)
      rwa [Nat.add_sub_cancel' hlo] at this
  by_cases has : as.outPtrIntoArg1 ≠ 0
  · refine (matched_postSlot hsrc hne h has).congr ?_
    simp only [SentBack, if_pos has, hrange]
  · simp only [SentBack, if_neg has]
    by_cases hl : s.layout.isSome = true
    · rw [postShadow, postShadow, if_neg has, if_neg has, if_pos hl, if_pos hl]
      refine (matched_postStruct h hknown).congr ?_
      simp only [hl, true_and, StructFixed, ← hrange]
      constructor
      · exact fun hD hdir => ⟨fun t ht a ha => hD a ⟨hdir, .inr ⟨t, ht, ha⟩⟩,
          fun a ha => hD a ⟨hdir, .inl ha⟩⟩
      · rintro hD a ⟨hdir, ha | ⟨t, ht, ha⟩⟩
        · exact (hD hdir).2 a ha
        · exact (hD hdir).1 t ht a ha
    · rw [postShadow, postShadow, if_neg has, if_neg has, if_neg hl, if_neg hl]
      refine matched_ite (fun hback => ?_) fun hback => matched_ok h ?_
      · refine (matched_copyBytes h _ _ _ _).congr ?_
        simp only [hback.2, hl, true_and, Bool.false_eq_true, false_and, or_false, hrange]
      · rintro a ⟨hdir, ha | ha⟩
        · exact absurd ⟨by omega, hdir⟩ hback
        · exact absurd ha.1 hl

/-- **The way back of them all**, from memories that go on from `mem`. -/
theorem matched_postShadows {rest : List Shadow} (h : Twin q m m' st st')
    (hargs : ∀ s ∈ rest, ∃ as, spec.args[s.argIndex]? = some as)
    (hknown : ∀ s ∈ rest, ∀ t ∈ s.tracks, t.Known q s.layout s.shadowPtr hi)
    (hord : rest.Pairwise (Before q)) (hmem : ∀ s ∈ rest, ∀ a, s.shadowPtr ≤ a → st.mem a = mem a) :
    Matched (∀ s ∈ rest, ∀ as, spec.args[s.argIndex]? = some as → ∀ a, SentBack as s mem a →
      Fixed q m m' a) q m m' st.writes st'.writes (postShadows c spec shadows rest st)
      (postShadows c spec shadows rest st') := by
  induction rest generalizing st st' with
  | nil => exact matched_ok h (by simp)
  | cons s rest ih =>
    obtain ⟨⟨as, has⟩, hargs⟩ := forall_mem_cons.mp hargs
    obtain ⟨hk, hknown⟩ := forall_mem_cons.mp hknown
    obtain ⟨hbefore, hord⟩ := pairwise_cons.mp hord
    obtain ⟨hm, hmem⟩ := forall_mem_cons.mp hmem
    rw [postShadows, postShadows, has]
    refine ((matched_postShadow hsrc hne h hk).andThen fun st₁ st₁' hst₁ _ h₁ =>
      ih h₁ hargs hknown hord fun s' hs' a ha => ?_).congr ?_
    · -- the fields of `s` lie below the later shadows
      rw [postShadow_above hst₁ fun t ht => (hbefore s' hs' t ht).slot.le_hi.trans ha]
      exact hmem s' hs' a ha
    · rw [forall_mem_cons]
      refine and_congr_left fun _ => ?_
      constructor
      · exact fun hD a ha => hD as has a ((sentBack_congr hk hm a).mp ha)
      · rintro hD as' has' a ha
        obtain rfl := mem_unique has has'
        exact hD a ((sentBack_congr hk hm a).mpr ha)

end Shadows

/-! ## The whole dispatch -/

theorem foldl_apply_of_alike {ws ws' : List Write} (h : List.Forall₂ Write.Alike ws ws')
    (cage : Cage) : ws.foldl Write.apply cage = ws'.foldl Write.apply cage := by
  induction h generalizing cage with
  | nil => rfl
  | @cons w w' ws ws' hw _ ih =>
    obtain ⟨hdest, hlen, hdata⟩ := hw
    have happly : Write.apply cage w = Write.apply cage w' := by
      rw [Write.apply, Write.apply, ← hdest, ← hlen]
      refine congrArg (Cage.mk _ · _ _) (funext fun a => ?_)
      rw [Mem.blit, Mem.blit]
      split
      · next ha => exact hdata _ (by omega)
      · rfl
    rw [foldl_cons, foldl_cons, happly, ih]

/-- The outcome of a dispatch, from how the way back ends and what it returns if it does. -/
def outcomeOf (x : Post PostState) (ret : Option ℕ) : Outcome :=
  match x with
  | .error writes => ⟨writes, none⟩
  | .ok post => ⟨post.writes, ret⟩

/-- The ends of two ways back that match are alike if the bytes that go back are the same. -/
theorem Matched.outcome (hx : Matched D q m m' [] [] x x') (hD : D) :
    List.Forall₂ Write.Alike (outcomeOf x ret).writes (outcomeOf x' ret).writes ∧
      (outcomeOf x ret).result = (outcomeOf x' ret).result := by
  rcases x with e | st <;> rcases x' with e' | st'
  · exact ⟨hx hD .nil, rfl⟩
  · exact absurd hD hx
  · exact absurd hD hx
  · exact ⟨(hx.2 rfl).2.mpr ⟨.nil, hD⟩, rfl⟩

/-- …and only then, if they return. -/
theorem Matched.of_outcome (hx : Matched D q m m' [] [] x x')
    (hret : (outcomeOf x ret).result ≠ none)
    (heq : (outcomeOf x ret).result = (outcomeOf x' ret).result)
    (hw : List.Forall₂ Write.Alike (outcomeOf x ret).writes (outcomeOf x' ret).writes) : D := by
  rcases x with e | st
  · exact absurd rfl hret
  · rcases x' with e' | st'
    · exact absurd heq hret
    · exact ((hx.2 rfl).2.mp hw).2

theorem arenaOnly_update (ha : c.grate.InArena a) (hm : ArenaOnly c.grate m m') (v : Byte) :
    ArenaOnly c.grate m (update m' a v) := fun x hx => by
  have hne : x ≠ a := by
    rintro rfl
    rcases hx with hx | hx
    · exact absurd ha.1 (not_le.mpr hx)
    · exact absurd ha.2 (not_lt.mpr hx)
  rw [update_of_ne hne]
  exact hm x hx

section Whole

variable {spec : MarshalSpec} {nargs : ℕ} {h : Handler} {b : Behaviour} {mem mem' : Mem}
  {args : List ℕ} {shadows : List Shadow} {o : Overlay}

/-- Whatever the arena holds, the call reaches its handler with these arguments, and these bytes
stored. -/
structure ReachesWith (c : Call) (spec : MarshalSpec) (nargs : ℕ) (mem : Mem) (args : List ℕ)
    (shadows : List Shadow) (o : Overlay) : Prop where
  pre : ∀ m', ArenaOnly c.grate mem m' → preCall c spec nargs m' = some (args, shadows, o.on m')
  marshalled : Marshalled c ⟨0, fun _ => none, []⟩ (args, shadows, o)

namespace ReachesWith

variable (hin : ReachesWith c spec nargs mem args shadows o)

include hin

theorem pre_self : preCall c spec nargs mem = some (args, shadows, o.on mem) :=
  hin.pre mem (Mem.SameOff.refl _ _ _)

theorem copiedIn_iff (hm : ArenaOnly c.grate mem mem') (a : ℕ) :
    CopiedIn c spec nargs mem' a ↔ (o.stored a).isSome := by
  have hbyte : ∀ m₁, ArenaOnly c.grate mem m₁ →
      byteAtCall c spec nargs m₁ a = some ((o.stored a).getD (m₁ a)) := fun m₁ h₁ => by
    rw [byteAtCall, hin.pre m₁ h₁]
    rfl
  constructor
  · rintro ⟨ha, hsame⟩
    by_contra hno
    obtain ⟨v, hv⟩ := exists_ne (mem' a)
    have h := hsame v
    rw [hbyte _ (arenaOnly_update ha hm v), hbyte _ hm, not_isSome_iff_eq_none.mp hno,
      update_self] at h
    exact hv (some.inj h)
  · intro hsome
    have hwf := hin.marshalled.grows.wf
    have ha : c.grate.InArena a := by
      have hlt := hwf.inside a hsome
      have hle := hwf.used_le
      exact ⟨hlt.1, by omega⟩
    obtain ⟨w, hw⟩ := isSome_iff_exists.mp hsome
    refine ⟨ha, fun v => ?_⟩
    rw [hbyte _ (arenaOnly_update ha hm v), hbyte _ hm, hw]
    rfl

theorem copiedIn_eq (hm : ArenaOnly c.grate mem mem') : copiedIn c spec nargs mem' = o.stored := by
  funext a
  rw [copiedIn]
  by_cases ha : CopiedIn c spec nargs mem' a
  · obtain ⟨w, hw⟩ := isSome_iff_exists.mp ((hin.copiedIn_iff hm a).mp ha)
    rw [if_pos ha, byteAtCall, hin.pre mem' hm, hw]
    show some ((o.stored a).getD (mem' a)) = _
    rw [hw]
    rfl
  · rw [if_neg ha]
    exact (not_isSome_iff_eq_none.mp fun hs => ha ((hin.copiedIn_iff hm a).mpr hs)).symm

theorem dispatch_eq (hh : Confined c spec nargs h b) (hm : ArenaOnly c.grate mem mem') :
    dispatch c spec nargs h mem' = outcomeOf (postShadows c spec shadows shadows
        ⟨o.used, mem'.patch ((b (handlerArgs args) o.stored).stores.atop o.stored), []⟩)
      (translateReturn c spec.ret shadows
        ((b (handlerArgs args) o.stored).result fun _ => 0)) := by
  have hr := hh.reads mem' args shadows _ (hin.pre mem' hm)
  rw [hin.copiedIn_eq hm] at hr
  rw [dispatch, hin.pre mem' hm]
  dsimp only
  rw [hr, patch_atop]
  rfl

/-- Two runs, with a handler that does `x`, in lockstep. -/
theorem matched (x : Action) (mem' : Mem) :
    Matched (∀ s ∈ shadows, ∀ as, spec.args[s.argIndex]? = some as → ∀ a,
        SentBack as s (x.result (o.on mem).mem).mem a → Fixed (x.stores.atop o.stored) mem mem' a)
      (x.stores.atop o.stored) mem mem' [] []
      (postShadows c spec shadows shadows ⟨o.used, mem.patch (x.stores.atop o.stored), []⟩)
      (postShadows c spec shadows shadows ⟨o.used, mem'.patch (x.stores.atop o.stored), []⟩) := by
  have hrec := preCall_recorded False nofun hin.pre_self
  have hover : ∀ a, (o.stored a).isSome → (x.stores.atop o.stored a).isSome := fun a ha =>
    isSome_atop.mpr (.inr ha)
  have hknown : ∀ s ∈ shadows, ∀ t ∈ s.tracks, t.Known (x.stores.atop o.stored) s.layout
      s.shadowPtr (c.grate.arena + o.used) := fun s hs t ht =>
    ((hin.marshalled.placed s hs).known t ht).mono hover le_rfl
  refine matched_postShadows (fun s hs => ?_) (fun s hs => ?_) ⟨rfl, _, fun _ => Iff.rfl, rfl, rfl⟩
    (fun s hs => ?_) hknown ?_ fun s _ a _ => ?_
  · exact (hrec s hs).elim fun _ hr => hr.2.sourcePtr
  · obtain ⟨as, -, hr⟩ := hrec s hs
    rw [hr.sourcePtr]
    exact hr.raw
  · obtain ⟨as, has, -⟩ := hrec s hs
    exact ⟨as, (ite_none_right_eq_some.mp (getElem?_take.symm.trans has)).2⟩
  · exact hin.marshalled.ordered.imp fun hbefore t ht => (hbefore t ht).mono hover le_rfl
  · rw [patch_atop]
    rfl

/-- **Where the handler supplies what goes back**, the arena is not to be seen. -/
theorem noninterfering (hh : Confined c spec nargs h b) (hs : Supplied c spec nargs b mem) :
    NonInterfering c spec nargs h mem := by
  intro mem' hm
  have hself := Mem.SameOff.refl c.grate.arena (c.grate.arena + arenaSize) mem
  have hfixed : ∀ s ∈ shadows, ∀ as, spec.args[s.argIndex]? = some as → ∀ a,
      SentBack as s ((b (handlerArgs args) o.stored).result (o.on mem).mem).mem a →
      Fixed ((b (handlerArgs args) o.stored).stores.atop o.stored) mem mem' a := by
    intro s hmem as has a hback
    by_cases ha : c.grate.InArena a
    · have hsup := hs args shadows _ hin.pre_self s hmem as has a ha
      rw [hin.copiedIn_eq hself, hin.copiedIn_iff hself] at hsup
      exact .inl (isSome_atop.mpr (hsup hback).symm)
    · -- off the arena the two memories agree
      refine .inr (hm a ?_).symm
      by_contra hoff
      exact ha ⟨by omega, by omega⟩
  obtain ⟨hw, hres⟩ := (hin.matched _ mem').outcome hfixed
  rw [← hin.dispatch_eq hh hself, ← hin.dispatch_eq hh hm] at hw hres
  refine ⟨?_, hw, foldl_apply_of_alike hw c.source, hres⟩
  rw [followed, followed, hin.pre_self, hin.pre mem' hm]
  rfl

/-- …and a call that returns shows every byte that is not supplied. -/
theorem supplied (hh : Confined c spec nargs h b)
    (hret : (dispatch c spec nargs h mem).result ≠ none)
    (hni : NonInterfering c spec nargs h mem) : Supplied c spec nargs b mem := by
  intro args' shadows' st' hpre s hs as has a ha hback
  have hself := Mem.SameOff.refl c.grate.arena (c.grate.arena + arenaSize) mem
  obtain ⟨rfl, rfl, rfl⟩ : args = args' ∧ shadows = shadows' ∧ o.on mem = st' := by
    simpa using hin.pre_self.symm.trans hpre
  rw [hin.copiedIn_eq hself] at hback ⊢
  rw [hin.copiedIn_iff hself]
  -- another byte in its place would be seen
  obtain ⟨v, hv⟩ := exists_ne (mem a)
  have hm := arenaOnly_update ha hself v
  have hsame := hni _ hm
  have hres := hsame.result
  have hw := hsame.copied
  rw [hin.dispatch_eq hh hself] at hret
  rw [hin.dispatch_eq hh hself, hin.dispatch_eq hh hm] at hres hw
  rcases (hin.matched _ _).of_outcome hret hres hw s hs as has a hback with h | h
  · exact (isSome_atop.mp h).symm
  · rw [update_self] at h
    exact absurd h.symm hv

end ReachesWith

theorem sameEffect_of_none (hpre : preCall c spec nargs mem = none)
    (hpre' : preCall c spec nargs mem' = none) : SameEffect c spec nargs h mem mem' := by
  have hd : dispatch c spec nargs h mem = ⟨[], none⟩ := by rw [dispatch, hpre]
  have hd' : dispatch c spec nargs h mem' = ⟨[], none⟩ := by rw [dispatch, hpre']
  refine ⟨?_, ?_, ?_, ?_⟩
  · rw [followed, followed, hpre, hpre']
  · rw [hd, hd']
    exact .nil
  · rw [hd, hd']
  · rw [hd, hd']

/-- **Non-interference.**  For a call in which, if it gets to the handler at all, the marshaller
reads nothing of the arena that it has not stored, and a handler that reads only bytes that were
copied in: if it stores every byte that goes back and was not copied in, then whatever an earlier
call left in the arena, the same pointers are followed, the same bytes are copied to the calling
cage and the same value is returned; and if the call returns, only then. -/
theorem dispatch_noninterfering (hh : Confined c spec nargs h b) (mem : Mem)
    (hown : (∃ mem', ArenaOnly c.grate mem mem' ∧ preCall c spec nargs mem' ≠ none) →
      CallWalksOwn c spec nargs) :
    (Supplied c spec nargs b mem → NonInterfering c spec nargs h mem) ∧
      ((dispatch c spec nargs h mem).result ≠ none → NonInterfering c spec nargs h mem →
        Supplied c spec nargs b mem) := by
  by_cases hreach : ∃ mem', ArenaOnly c.grate mem mem' ∧ preCall c spec nargs mem' ≠ none
  · obtain ⟨r, hr, hmarshalled⟩ := uniform_preCall (hown hreach)
    obtain ⟨mem', hm, hreach⟩ := hreach
    cases r with
    | none => exact absurd (hr mem' hm) hreach
    | some x =>
      have hin : ReachesWith c spec nargs mem x.1 x.2.1 x.2.2 := ⟨hr, hmarshalled x rfl⟩
      exact ⟨hin.noninterfering hh, hin.supplied hh⟩
  · push Not at hreach
    have hnone : preCall c spec nargs mem = none := hreach mem (Mem.SameOff.refl _ _ _)
    refine ⟨fun _ mem' hm => sameEffect_of_none hnone (hreach mem' hm), fun _ _ => ?_⟩
    intro args shadows st hpre
    exact absurd (hnone.symm.trans hpre).symm (some_ne_none _)

end Whole

/-! ## A read that is cut short -/

/-- A function that fills a buffer of 8 bytes and returns how many it has filled. -/
def readSpec : MarshalSpec := ⟨[bytesPtr .ptrOut 8], ⟨.scalar, 0, 0, 0⟩⟩

def readCall : Call := smallCall [] 0x100

/-- A read of `n` bytes. -/
def reading (n : ℕ) : Behaviour := fun args _ =>
  ⟨n, Patch.window (args.headD 0) (fun _ => 0x41) 0 n, [], 0⟩

def readHandler (n : ℕ) : Handler := fun args mem => (reading n args fun _ => none).result mem

theorem reading_stores (n : ℕ) (p : Patch) :
    (reading n (handlerArgs [4096]) p).stores = Patch.window 4096 (fun _ => 0x41) 0 n := rfl

theorem preCall_readCall (mem : Mem) : preCall readCall readSpec 1 mem =
    some ([4096], [⟨0, 0x100, 4096, 8, .ptrOut, 1, 2, none, []⟩], ⟨8, mem, [⟨4096, 8⟩]⟩) := rfl

theorem confined_reading {n : ℕ} (hn : n ≤ 8) :
    Confined readCall readSpec 1 (readHandler n) (reading n) := by
  refine ⟨fun mem args shadows st _ => rfl, fun mem args shadows st hpre a ha => ?_⟩
  obtain ⟨rfl, rfl, -⟩ := by simpa using (preCall_readCall mem).symm.trans hpre
  refine ⟨_, mem_singleton_self _, .inl ⟨.inl rfl, ?_⟩⟩
  rw [reading_stores, isSome_window] at ha
  exact ⟨ha.1, by dsimp only; omega⟩

theorem callWalksOwn_readCall : CallWalksOwn readCall readSpec 1 := by
  intro i s hs _ _
  cases i with
  | succ i => exact absurd hs (by simp [readSpec])
  | zero =>
    obtain rfl : bytesPtr .ptrOut 8 = s := some.inj hs
    exact ⟨fun htop => absurd htop (by decide), fun l hl => absurd hl.symm (some_ne_none l)⟩

/-- A handler that fills the whole buffer lets nothing through. -/
theorem dispatch_noninterfering_fullRead : CallWalksOwn readCall readSpec 1 ∧
    Confined readCall readSpec 1 (readHandler 8) (reading 8) ∧
    NonInterfering readCall readSpec 1 (readHandler 8) fun _ => 0 := by
  have hconfined := confined_reading le_rfl
  refine ⟨callWalksOwn_readCall, hconfined,
    (dispatch_noninterfering hconfined _ fun _ => callWalksOwn_readCall).1 ?_⟩
  intro args shadows st hpre s hs as has a _ hback
  obtain ⟨rfl, rfl, rfl⟩ := by simpa using (preCall_readCall _).symm.trans hpre
  obtain rfl := mem_singleton.mp hs
  obtain rfl : bytesPtr .ptrOut 8 = as := some.inj has
  obtain ⟨-, hin | ⟨hnone, -⟩⟩ := hback
  · rw [reading_stores, isSome_window]
    exact .inr hin
  · exact absurd hnone (by decide)

/-- Cage 3 has passed a secret to the same grate. -/
def secretCall : Call :=
  { smallCall [(0x300, 0x200), (0x304, 0x53454352)] 0x300 with sourceCage := 3 }

/-- The grate's memory as that call leaves it. -/
def leftBySecret : Mem :=
  ((preCall secretCall ⟨[bytesPtr .ptrIn 8], voidReturn⟩ 1 fun _ => 0).map
    fun x => x.2.2.mem).getD fun _ => 0

theorem leftBySecret_eq : leftBySecret =
    Mem.blit (fun _ => 0) 4096 secretCall.source.bytes (2 ^ 32 + 0x300) 8 := rfl

/-- A function that fills a struct with a pointer in it. -/
def fillSpec : MarshalSpec := ⟨[structPtr .ptrOut 8 [(0, bytesPtr .ptrIn 4)]], voidReturn⟩

/-- **The secret of another cage goes to the caller**: of a read of 2 bytes out of 8, the last four
are what cage 3 had passed; and a struct that is only to be filled is walked with what that call
left in it, so that a word of cage 3 is taken for a pointer of the caller. -/
theorem not_noninterfering_shortRead :
    Confined readCall readSpec 1 (readHandler 2) (reading 2) ∧
      ArenaOnly readCall.grate (fun _ => 0) leftBySecret ∧
      ((dispatch readCall readSpec 1 (readHandler 2) fun _ => 0).cageAfter
        readCall).bytes.getWord (2 ^ 32 + 0x104) = 0 ∧
      ((dispatch readCall readSpec 1 (readHandler 2) leftBySecret).cageAfter
        readCall).bytes.getWord (2 ^ 32 + 0x104) = 0x53454352 ∧
      ¬ NonInterfering readCall readSpec 1 (readHandler 2) (fun _ => 0) ∧
      ((followed readCall fillSpec 1 fun _ => 0).map fun x =>
        x.2.1.map fun s => s.tracks.map fun t => t.origSrcPtr) = some [[]] ∧
      ((followed readCall fillSpec 1 leftBySecret).map fun x =>
        x.2.1.map fun s => s.tracks.map fun t => t.origSrcPtr) = some [[0x200]] := by
  have harena : ArenaOnly readCall.grate (fun _ => 0) leftBySecret := by
    intro a ha
    have hoff : a < 4096 ∨ 4096 + arenaSize ≤ a := ha
    rw [leftBySecret_eq]
    exact blit_off (hoff.imp_right fun hle => le_trans (by decide) hle)
  have hclear : ((dispatch readCall readSpec 1 (readHandler 2) fun _ => 0).cageAfter
      readCall).bytes.getWord (2 ^ 32 + 0x104) = 0 := by decide +kernel
  have hleak : ((dispatch readCall readSpec 1 (readHandler 2) leftBySecret).cageAfter
      readCall).bytes.getWord (2 ^ 32 + 0x104) = 0x53454352 := by decide +kernel
  refine ⟨confined_reading (by decide), harena, hclear, hleak, fun hni => ?_, by decide +kernel,
    by decide +kernel⟩
  rw [(hni _ harena).memory, hleak] at hclear
  exact absurd hclear (by decide)

end LindWasm.Marshal
