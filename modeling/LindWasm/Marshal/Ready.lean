import LindWasm.Marshal.Total

/-!
# Marshal/Ready — marshalling what the runtime supports

    ready p --> a shadow of the declared size, and one for each pointer behind it

`PtrReady` is what a pointer must be like for the marshaller to take it in: everything that is
copied can be read, every size is declared in a way that is computed, every walked field lies in
its struct. With room for all of it (`need`) a buffer and the fields of its struct do not trap
(`preBuffer_ready`), and each pointer of them reaches the handler as a shadow of the declared size
(`preBuffer_reached`).
-/

namespace LindWasm.Marshal

open Option List

variable {c : Call} {st st' : PreState} {l : Layout} {f : Field} {p n shadow alloc : ℕ}

instance (f : Field) : Decidable f.TouchedPtr := inferInstanceAs (Decidable (_ ∧ _))

/-! ## What a pointer must be like -/

/-- The pointee of a field, `n` bytes at `q`. -/
structure ChildReady (c : Call) (l : Layout) (s : ArgSpec) (p alloc q n : ℕ) : Prop where
  size : fieldSize c l s p q = some n
  kept : SiblingKept l s
  inside : s.sizeKind = .fromArg → ∀ sibling, l.fields[s.sizeArgIndex]? = some sibling →
    sibling.offset + 4 ≤ alloc
  copy : 0 < n → s.copiesIn → CopyAllowed c c.source.readable q n

/-- A struct of `alloc` bytes at `p`. -/
structure StructReady (c : Call) (s : ArgSpec) (l : Layout) (p alloc : ℕ) : Prop
    extends l.Sound where
  copies : ∀ f ∈ l.fields, f.Walked → s.copiesIn
  inside : ∀ f ∈ l.fields, f.Walked → f.offset + 4 ≤ alloc
  handle : ∀ f ∈ l.fields, f.touched → f.spec.kind = .handle → c.wordAt p f.offset ≠ 0 →
    (translateHandle c.handles f.spec.handleClass (c.wordAt p f.offset)).isSome
  child : ∀ f ∈ l.fields, f.TouchedPtr → c.wordAt p f.offset ≠ 0 →
    ∃ n, ChildReady c l f.spec p alloc (c.wordAt p f.offset) n

/-- A buffer of the declared size `n` at `p`. -/
structure BufferReady (c : Call) (top : Bool) (s : ArgSpec) (p n : ℕ) : Prop
    extends Sized c top s p n where
  copy : 0 < allocSizeOf s n → s.copiesIn → CopyAllowed c c.source.readable p (allocSizeOf s n)
  struct : ∀ l, s.layout = some l → l.kind = .struct → StructReady c s l p (allocSizeOf s n)

/-- Any pointer: the elements of an array can be read up to its null, and are ready in turn. -/
def PtrReady (c : Call) : Bool → ArgSpec → ℕ → Prop
  | _, .mk _ _ .ptrArray _ _ _ none _ _ _, p => ∃ ps, readElems c p ptrArrayMax 0 = some ps
  | _, .mk _ _ .ptrArray _ _ _ (some e) _ _ _, p =>
      ∃ ps, readElems c p ptrArrayMax 0 = some ps ∧ ∀ q ∈ ps, PtrReady c false e q
  | top, s, p => ∃ n, BufferReady c top s p n

/-! ## The room it takes -/

/-- The shadow of a field's pointee. -/
def fieldNeed (c : Call) (l : Layout) (p : ℕ) (f : Field) : ℕ :=
  if f.TouchedPtr ∧ c.wordAt p f.offset ≠ 0 then
    space ((fieldSize c l f.spec p (c.wordAt p f.offset)).getD 0)
  else 0

/-- The table of a struct's fields, and their pointees. -/
def structNeed (c : Call) (s : ArgSpec) (p : ℕ) : ℕ :=
  match s.layout with
  | some l =>
      if l.kind = .struct then
        space (l.fields.length * trackSize) + (l.fields.map (fieldNeed c l p)).sum
      else 0
  | none => 0

/-- All that marshalling a pointer takes of the arena. -/
def need (c : Call) : Bool → ArgSpec → ℕ → ℕ
  | _, .mk _ _ .ptrArray _ _ _ none _ _ _, p =>
      space ((((readElems c p ptrArrayMax 0).getD []).length + 1) * 4)
  | _, .mk _ _ .ptrArray _ _ _ (some e) _ _ _, p =>
      let ps := (readElems c p ptrArrayMax 0).getD []
      space ((ps.length + 1) * 4) + (ps.map (need c false e)).sum
  | top, s, p => space (allocSizeOf s ((declSize c top s p).getD 0)) + structNeed c s p

/-! ## The walk does not trap -/

/-- The struct's shadow holds the caller's bytes, off the slots of `fs`. -/
def Untouched (c : Call) (shadow alloc p : ℕ) (fs : List Field) (mem : Mem) : Prop :=
  ∀ i < alloc, OffSlots (fun _ => False) shadow fs (shadow + i) →
    mem (shadow + i) = c.source.bytes (ensureHostAddr c.source.base p + i)

theorem childSize_of_ready {s : ArgSpec} {mem : Mem} {q : ℕ}
    (h : ChildReady c l s p alloc q n) (hfit : shadow + alloc < 2 ^ 32)
    (hmem : Untouched c shadow alloc p l.fields mem) :
    childSize c l s mem shadow alloc q = some n := by
  have hsize := h.size
  rw [fieldSize] at hsize
  rw [childSize]
  cases hsk : s.sizeKind with
  | cstr | const | fromArgPointee | ptrArray | none => rw [hsk] at hsize; exact hsize
  | fromArg =>
    simp only [hsk] at hsize ⊢
    obtain ⟨sibling, hsib, rfl⟩ := map_eq_some_iff.mp hsize
    obtain ⟨hoff, hapart⟩ := h.kept hsk sibling hsib
    have hin := h.inside hsk sibling hsib
    have hrange : ¬ OutOfRange sibling.offset alloc := by unfold OutOfRange u32; omega
    rw [hsib]
    simp only [if_neg hrange, some.injEq]
    rw [(slot_eq hrange hoff hfit).2]
    refine Mem.getWord_congr fun i hi => ?_
    rw [Nat.add_assoc, Nat.add_assoc]
    refine hmem _ (by omega) fun f hf _ hw => ?_
    have := hapart f hf hw
    omega

theorem Untouched.getWord {fs : List Field} {mem : Mem} (h : Untouched c shadow alloc p fs mem)
    (hin : f.offset + 4 ≤ alloc) (hw : f.Walked) (hapart : ∀ f' ∈ fs, f'.Apart f) :
    mem.getWord (shadow + f.offset) = c.wordAt p f.offset :=
  Mem.getWord_congr fun i hi => by
    rw [Nat.add_assoc, Nat.add_assoc]
    refine h _ (by omega) fun f' hf' _ hw' => ?_
    have := hapart f' hf' hw' hw
    omega

section Walk

variable {s : ArgSpec} (ts : List Track)

/-- A field that is no touched pointer takes nothing of the arena. -/
theorem fieldNeed_of_not_touchedPtr (h : ¬ f.TouchedPtr) : fieldNeed c l p f = 0 :=
  if_neg fun hptr => h hptr.1

section

variable (hready : StructReady c s l p alloc) (hf : f ∈ l.fields)
include hready hf

section

variable (hslot : u32 (shadow + f.offset) = shadow + f.offset)
  (hword : st.mem.getWord (shadow + f.offset) = c.wordAt p f.offset)
include hslot hword

theorem walkHandleField_ready (ht : f.touched) (hk : f.spec.kind = .handle) :
    ∃ st', walkHandleField c shadow f st = some st' ∧ st'.used = st.used := by
  rw [walkHandleField, hslot, hword]
  split
  · exact ⟨st, rfl, rfl⟩
  · next hne =>
    obtain ⟨real, hreal⟩ := isSome_iff_exists.mp (hready.handle f hf ht hk hne)
    rw [hreal]
    exact ⟨_, rfl, rfl⟩

theorem walkPtrField_ready (hptr : f.TouchedPtr) (hmod : st.used % 8 = 0)
    (hroom : st.used + fieldNeed c l p f ≤ arenaSize) (hfit : shadow + alloc < 2 ^ 32)
    (hmem : Untouched c shadow alloc p l.fields st.mem) :
    ∃ st' ts', walkPtrField c l shadow alloc f st ts = some (st', ts') ∧
      st'.used = st.used + fieldNeed c l p f := by
  rw [walkPtrField, hslot, hword]
  split
  · next hzero =>
    have hneed : fieldNeed c l p f = 0 := if_neg fun h => h.2 hzero
    exact ⟨st, ts, rfl, by rw [hneed]; rfl⟩
  · next hne =>
    obtain ⟨n, hchild⟩ := hready.child f hf hptr hne
    have hneed : fieldNeed c l p f = space n := by
      rw [fieldNeed, if_pos ⟨hptr, hne⟩, hchild.size]
      rfl
    rw [hneed] at hroom ⊢
    obtain ⟨st₂, hcopy, hused⟩ := exists_copyIn hmod hchild.copy
    rw [childSize_of_ready hchild hfit hmem, bind_some, allocShadow_eq hroom,
      bind_some]
    dsimp only
    rw [hcopy]
    exact ⟨_, _, rfl, hused⟩

end

/-- **One field does not trap**, and takes its share of the arena. -/
theorem walkField_ready (hmod : st.used % 8 = 0) (hroom : st.used + fieldNeed c l p f ≤ arenaSize)
    (hfit : shadow + alloc < 2 ^ 32)
    (hword : f.Walked → st.mem.getWord (shadow + f.offset) = c.wordAt p f.offset)
    (hmem : f.Walked → Untouched c shadow alloc p l.fields st.mem) :
    ∃ st' ts', walkField c l shadow alloc f st ts = some (st', ts') ∧
      st'.used = st.used + fieldNeed c l p f := by
  by_cases ht : f.touched
  swap
  · have hneed := fieldNeed_of_not_touchedPtr (c := c) (l := l) (p := p) fun h => ht h.1
    exact ⟨st, ts, by rw [walkField, if_pos ht], by rw [hneed]; rfl⟩
  have hslot (hw : f.Walked) : ¬ OutOfRange f.offset alloc ∧
      u32 (shadow + f.offset) = shadow + f.offset := by
    have hin := hready.inside f hf hw
    have hoff := hready.offsets f hf hw
    have hrange : ¬ OutOfRange f.offset alloc := by unfold OutOfRange u32; omega
    exact ⟨hrange, (slot_eq hrange hoff hfit).2⟩
  rw [walkField, if_neg (not_not.mpr ht)]
  cases hk : f.spec.kind with
  | scalar =>
    rw [fieldNeed_of_not_touchedPtr fun h => absurd (hk.symm.trans h.2) (by decide)]
    exact ⟨st, ts, rfl, rfl⟩
  | handle =>
    have hw : f.Walked := ⟨ht, by rw [hk]; decide⟩
    obtain ⟨hrange, hslot⟩ := hslot hw
    obtain ⟨st', heq, hused⟩ := walkHandleField_ready hready hf hslot (hword hw) ht hk
    rw [fieldNeed_of_not_touchedPtr fun h => absurd (hk.symm.trans h.2) (by decide)]
    simp only [if_neg hrange, heq]
    exact ⟨st', ts, rfl, hused⟩
  | ptr =>
    have hptr : f.TouchedPtr := ⟨ht, hk⟩
    have hw := hptr.walked
    obtain ⟨hrange, hslot⟩ := hslot hw
    simp only [if_neg hrange]
    exact walkPtrField_ready ts hready hf hslot (hword hw) hptr hmod hroom hfit (hmem hw)

end

theorem fieldNeed_mod (c : Call) (l : Layout) (p : ℕ) (f : Field) : fieldNeed c l p f % 8 = 0 := by
  unfold fieldNeed
  split
  · exact space_mod _
  · rfl

variable (hready : StructReady c s l p alloc) (hwf : st.WF c.grate) (hmod : st.used % 8 = 0)
  (hbelow : shadow + alloc ≤ c.grate.arena + st.used)
include hready hwf hmod hbelow

/-- **The walk does not trap.** -/
theorem walkFields_ready (done rest : List Field) (hfs : l.fields = done ++ rest)
    (hroom : st.used + (rest.map (fieldNeed c l p)).sum ≤ arenaSize)
    (hmem : s.copiesIn → Untouched c shadow alloc p done st.mem) :
    ∃ st' ts', walkFields c l shadow alloc rest st ts = some (st', ts') ∧
      st'.used = st.used + (rest.map (fieldNeed c l p)).sum := by
  induction rest generalizing done st ts with
  | nil => exact ⟨st, ts, rfl, rfl⟩
  | cons f rest ih =>
    have hf : f ∈ l.fields := hfs ▸ mem_append_right _ mem_cons_self
    have hapart := hready.apart
    rw [hfs] at hapart
    have hdone : ∀ f' ∈ done, f'.Apart f := fun f' hf' =>
      (pairwise_append.mp hapart).2.2 f' hf' f mem_cons_self
    have hfit : shadow + alloc < 2 ^ 32 := by
      have := c.grate.arena_fits
      have := hwf.used_le
      omega
    rw [map_cons, sum_cons] at hroom ⊢
    obtain ⟨st₁, ts₁, h₁, hused₁⟩ := walkField_ready ts hready hf hmod (by omega) hfit
      (fun hw => (hmem (hready.copies f hf hw)).getWord (hready.inside f hf hw) hw hdone)
      fun hw i hi hoff => hmem (hready.copies f hf hw) i hi fun f' hf' =>
        hoff f' (hfs ▸ mem_append_left _ hf')
    obtain ⟨hgrow, -⟩ := walkField_spec hwf hbelow (hready.offsets f hf) h₁
    have hmod₁ := fieldNeed_mod c l p f
    obtain ⟨st', ts', h', hused'⟩ := ih ts₁ (hgrow.wf hwf) (by omega) (by omega)
      (done ++ [f]) (by rw [hfs]; simp) (by omega) fun hcopies i hi hoff => by
        have hoffs := forall_mem_append.mp hoff
        rw [hgrow.mem _ (by omega) (hoffs.2 f mem_cons_self id)]
        exact hmem hcopies i hi hoffs.1
    exact ⟨st', ts', by rw [walkFields, h₁]; exact h', by omega⟩

/-- …and neither does the table it keeps. -/
theorem walkStruct_ready
    (hroom : st.used + (space (l.fields.length * trackSize)
      + (l.fields.map (fieldNeed c l p)).sum) ≤ arenaSize)
    (hmem : s.copiesIn → Untouched c shadow alloc p [] st.mem) :
    ∃ st' ts', walkStruct c l shadow alloc st = some (st', ts') ∧
      st'.used = st.used + (space (l.fields.length * trackSize)
        + (l.fields.map (fieldNeed c l p)).sum) := by
  have hspace := le_space (l.fields.length * trackSize)
  have hmod' := space_mod (l.fields.length * trackSize)
  have hlen : ¬ l.fields.length > (2 ^ 32 - 1) / trackSize := by
    unfold arenaSize trackSize at *
    omega
  have htable : marshalAlloc c.grate st.used (l.fields.length * trackSize) =
      some (c.grate.arena + st.used, st.used + space (l.fields.length * trackSize)) :=
    marshalAlloc_eq (by omega)
  have hgrow := grows_alloc (fun _ => True) hwf htable
  obtain ⟨st', ts', h, hused⟩ := walkFields_ready [] hready (hgrow.wf hwf)
    (by dsimp only; omega) (by dsimp only; omega) [] l.fields rfl (by dsimp only; omega) hmem
  refine ⟨st', ts', ?_, ?_⟩
  · rw [walkStruct, if_neg hlen, htable]
    exact h
  · rw [hused]
    dsimp only
    omega

end Walk

/-! ## What reaches the handler -/

/-- The word of a touched pointer field: null if the caller's is, else a shadow of the declared
size. -/
def FieldReached (c : Call) (lo : ℕ) (st : PreState) (l : Layout) (p v : ℕ) (f : Field) : Prop :=
  let q := c.wordAt p f.offset
  let x := st.mem.getWord (v + f.offset)
  q = 0 ∧ x = 0 ∨ q ≠ 0 ∧ lo ≤ x ∧ ∃ n, fieldSize c l f.spec p q = some n ∧ ⟨x, n⟩ ∈ st.shadows

/-- The shadow of a buffer, and of each pointee of its struct. -/
def BufferReached (c : Call) (lo : ℕ) (st : PreState) (top : Bool) (s : ArgSpec) (p v : ℕ) : Prop :=
  lo ≤ v ∧ ∃ n, declSize c top s p = some n ∧ ⟨v, allocSizeOf s n⟩ ∈ st.shadows ∧
    ∀ l, s.layout = some l → l.kind = .struct → ∀ f ∈ l.fields, f.TouchedPtr →
      f.offset + 4 ≤ allocSizeOf s n ∧ FieldReached c lo st l p v f

/-- The pointer `p` reached the handler as `v`: a shadow from `lo` on, and so did all that the spec
describes behind it. -/
def Reached (c : Call) (lo : ℕ) (st : PreState) : Bool → ArgSpec → ℕ → ℕ → Prop
  | _, .mk _ _ .ptrArray _ _ _ element _ _ _, p, v =>
      lo ≤ v ∧ ∃ ps, readElems c p ptrArrayMax 0 = some ps ∧ ⟨v, (ps.length + 1) * 4⟩ ∈ st.shadows ∧
        match element with
        | none => True
        | some e => ∀ (k : ℕ) q, ps[k]? = some q →
            Reached c lo st false e q (st.mem.getWord (v + 4 * k))
  | top, s, p, v => BufferReached c lo st top s p v

section Reached

variable {s : ArgSpec} {top : Bool} {lo v : ℕ}

theorem reached_array (hs : s.sizeKind = .ptrArray) :
    Reached c lo st top s p v ↔ lo ≤ v ∧ ∃ ps, readElems c p ptrArrayMax 0 = some ps ∧
      ⟨v, (ps.length + 1) * 4⟩ ∈ st.shadows ∧
        match s.element with
        | none => True
        | some e => ∀ (k : ℕ) q, ps[k]? = some q →
            Reached c lo st false e q (st.mem.getWord (v + 4 * k)) := by
  obtain ⟨_, _, _, _, _, _, el, _⟩ := s
  cases hs
  cases el <;> exact Iff.rfl

theorem reached_buffer (hs : s.sizeKind ≠ .ptrArray) :
    Reached c lo st top s p v ↔ BufferReached c lo st top s p v := by
  obtain ⟨_, _, sk, _⟩ := s
  cases sk with
  | ptrArray => exact absurd rfl hs
  | none | const | fromArg | fromArgPointee | cstr => exact Iff.rfl

theorem Reached.isShadow (h : Reached c lo st top s p v) : st.IsShadow v := by
  by_cases hs : s.sizeKind = .ptrArray
  · obtain ⟨-, ps, -, hblock, -⟩ := (reached_array hs).mp h
    exact ⟨_, hblock, rfl⟩
  · obtain ⟨-, n, -, hblock, -⟩ := (reached_buffer hs).mp h
    exact ⟨_, hblock, rfl⟩

/-- **What was reached stays so** as long as the memory of its shadows is kept. -/
theorem Reached.mono {lo' : ℕ} (h : Reached c lo st top s p v) (hle : lo' ≤ lo)
    (hkeep : Keeps lo st st') : Reached c lo' st' top s p v := by
  induction s using ArgSpec.elementInduction generalizing top p v with
  | buffer s hs =>
    rw [reached_buffer hs] at h ⊢
    obtain ⟨hlo, n, hn, hblock, hfields⟩ := h
    refine ⟨by omega, n, hn, hkeep.shadows _ hblock, fun l hl hk f hf hp => ?_⟩
    obtain ⟨hin, hfield⟩ := hfields l hl hk f hf hp
    rw [FieldReached, hkeep.getWord hlo hblock hin]
    exact ⟨hin, hfield.imp_right fun ⟨hne, hx, m, hm, hb⟩ =>
      ⟨hne, by omega, m, hm, hkeep.shadows _ hb⟩⟩
  | raw s hs hel =>
    rw [reached_array hs, hel] at h ⊢
    obtain ⟨hlo, ps, hps, hblock, -⟩ := h
    exact ⟨by omega, ps, hps, hkeep.shadows _ hblock, trivial⟩
  | element s e hs hel ih =>
    rw [reached_array hs, hel] at h ⊢
    obtain ⟨hlo, ps, hps, hblock, hall⟩ := h
    refine ⟨by omega, ps, hps, hkeep.shadows _ hblock, fun k q hq => ?_⟩
    have hk := (List.getElem?_eq_some_iff.mp hq).1
    rw [hkeep.getWord hlo hblock (by omega)]
    exact ih (hall k q hq)

end Reached

/-! ## A pointer that is not an array -/

section Buffer

variable {s : ArgSpec} {top : Bool} {lo v : ℕ} {ts : List Track}

section Walk

variable {st₀ : PreState} (hready : StructReady c s l p alloc)
  (hbelow : shadow + alloc ≤ c.grate.arena + st₀.used)
  (hbytes : s.copiesIn → ∀ i < alloc, st₀.mem (shadow + i)
    = c.source.bytes (ensureHostAddr c.source.base p + i))
include hready hbelow hbytes

/-- **One field**: those before it stay as they arrived, and a pointer in it arrives. -/
theorem fieldReached_step {done : List Field} {ts' : List Track} (hf : f ∈ l.fields)
    (hapart : ∀ g ∈ done, g ∈ l.fields ∧ g.Apart f) (hw : f.Walked) (hwf : st.WF c.grate)
    (hgrow : Grows c.grate (OffSlots (fun _ => False) shadow done) st₀ st)
    (hI : ∀ g ∈ done, g.TouchedPtr → FieldReached c (c.grate.arena + st₀.used) st l p shadow g)
    (h : walkField c l shadow alloc f st ts = some (st', ts')) :
    ∀ g ∈ done ++ [f], g.TouchedPtr →
      FieldReached c (c.grate.arena + st₀.used) st' l p shadow g := by
  have hused := hgrow.used
  have hbytes := hbytes (hready.copies f hf hw)
  have hfits := hwf.fits hbelow hused
  obtain ⟨hgrowf, -, hfill, -⟩ := walkField_spec hwf (by omega) (hready.offsets f hf) h
  intro g hg hptr
  rcases mem_append.mp hg with hg | hg
  · obtain ⟨hmem, hapart⟩ := hapart g hg
    have hin := hready.inside g hmem hptr.walked
    have hoff := hapart hptr.walked hw
    rw [FieldReached, hgrowf.getWord (by omega) fun i hi _ => by omega]
    refine (hI g hg hptr).imp_right fun ⟨hne, hlo, n, hn, hblock⟩ => ?_
    exact ⟨hne, hlo, n, hn, hgrowf.mem_shadows hblock⟩
  · obtain rfl := mem_singleton.mp hg
    have hin := hready.inside g hf hw
    have hword : st.mem.getWord (shadow + g.offset) = c.wordAt p g.offset :=
      (hgrow.word_eq hbelow hin fun f' hf' hw' _ => (hapart f' hf').2 hw' hw).trans
        (getWord_eq_wordAt hbytes hin)
    rcases hfill hptr with ⟨hzero, rfl, -⟩ | ⟨t, -, ht⟩
    · exact .inl ⟨hword.symm.trans hzero, hzero⟩
    · have hq : t.origSrcPtr = c.wordAt p g.offset := ht.src.trans hword
      obtain ⟨n, hchild⟩ := hready.child g hf hptr (hq ▸ ht.src_ne)
      have hfresh := ht.fresh
      rw [FieldReached, ht.slot, ← hq]
      refine .inr ⟨ht.src_ne, by omega, t.shadowLen, fieldSize_of_childSize hfits
        (fun hsk sibling hget => ?_) ht.sized, ht.block⟩
      obtain ⟨hoff, hkept⟩ := hchild.kept hsk sibling hget
      refine ⟨hoff, fun hin => ?_⟩
      rw [hgrow.word_eq hbelow hin fun f' hf' hw' _ => (hkept f' (hapart f' hf').1 hw').symm]
      exact getWord_eq_wordAt hbytes hin

/-- **The whole walk**: every touched pointer arrives. -/
theorem walkFields_reached (hwf : st₀.WF c.grate)
    (h : walkFields c l shadow alloc l.fields st₀ [] = some (st', ts)) :
    Grows c.grate (· < shadow) st₀ st' ∧ ∀ f ∈ l.fields, f.TouchedPtr →
      FieldReached c (c.grate.arena + st₀.used) st' l p shadow f := by
  obtain ⟨hgrow, hall⟩ := walkFields_rule
    (I := fun done st _ => ∀ g ∈ done, g.TouchedPtr →
      FieldReached c (c.grate.arena + st₀.used) st l p shadow g) hbelow
        (fun _ => False) hready.offsets nofun hready.apart (by simp)
    (fun hI hnull g hg hptr => (mem_append.mp hg).elim (fun hg => hI g hg hptr) fun hg =>
      absurd (hnull (mem_singleton.mp hg ▸ hptr.walked)).1 id)
    (fun hf hdone hw _ hwf hgrow hI hstep =>
      fieldReached_step hready hbelow hbytes hf hdone hw hwf hgrow hI hstep)
    [] l.fields rfl hwf (Grows.refl _ _) nofun h
  exact ⟨hgrow.mono fun a _ ha f _ _ _ => .inl (by omega), hall⟩

end Walk

/-- **A ready buffer does not trap**, and takes what it needs of the arena. -/
theorem preBuffer_ready (hready : BufferReady c top s p n) (hwf : st.WF c.grate)
    (hmod : st.used % 8 = 0)
    (hroom : st.used + (space (allocSizeOf s n) + structNeed c s p) ≤ arenaSize) :
    ∃ v ts st', preBuffer c s (rawOf c top) p st = some (v, ts, st') ∧
      st'.used = st.used + (space (allocSizeOf s n) + structNeed c s p) := by
  have ha : allocShadow c st (allocSizeOf s n) =
      some (c.grate.arena + st.used, st.allocated c (allocSizeOf s n)) := allocShadow_eq (by omega)
  have hmod' := space_mod (allocSizeOf s n)
  obtain ⟨st₁, hcopy, hused⟩ := exists_copyIn hmod hready.copy
  have hcopied := alloc_copyIn_spec (fun _ => True) hwf ha hcopy
  rw [preBuffer, hready.ptrSize_eq, bind_some]
  dsimp only
  rw [ha, bind_some]
  rw [hcopy, bind_some]
  rw [structNeed] at hroom ⊢
  cases hl : s.layout with
  | none => exact ⟨_, _, st₁, rfl, hused⟩
  | some l =>
    simp only [hl] at hroom ⊢
    split at hroom
    · next hk =>
      obtain ⟨st', ts, hwalk, hused'⟩ := walkStruct_ready (hready.struct l hl hk)
        (hcopied.grows.wf hwf) (by omega) hcopied.below (by omega)
        fun hcopies i hi _ => hcopied.bytes hcopies i hi
      simp only [if_pos hk, hwalk]
      exact ⟨_, _, st', rfl, by omega⟩
    · next hk =>
      simp only [if_neg hk]
      exact ⟨_, _, st₁, rfl, hused⟩

theorem preBuffer_reached (hready : BufferReady c top s p n) (hwf : st.WF c.grate)
    (h : preBuffer c s (rawOf c top) p st = some (v, ts, st')) :
    Grows c.grate (fun _ => True) st st' ∧
      BufferReached c (c.grate.arena + st.used) st' top s p v := by
  obtain ⟨size, st₁, hsize, ⟨hgrow, haddr, hblock, hbelow, hbytes, -⟩, hcase⟩ :=
    preBuffer_spec hwf h
  obtain rfl := some.inj ((hready.ptrSize_eq _).symm.trans hsize)
  have hwf₁ := hgrow.wf hwf
  rcases hcase with ⟨hplain, -, rfl⟩ | ⟨l, hl, hk, hwalk⟩
  · exact ⟨hgrow, haddr.ge, n, hready.size, hblock, fun l hl hk => absurd hk (hplain l hl)⟩
  · have hstruct := hready.struct l hl hk
    obtain ⟨hkeep, hfields⟩ := walkFields_reached hstruct hbelow hbytes hwf₁ hwalk
    have hused := hgrow.used
    refine ⟨((hgrow.mono fun _ _ _ => trivial).trans hkeep).mono fun a ha _ => by omega,
      haddr.ge, n, hready.size, hkeep.mem_shadows hblock, fun l' hl' _ f hf hp => ?_⟩
    obtain rfl := mem_unique hl hl'
    refine ⟨hstruct.inside f hf hp.walked, (hfields f hf hp).imp_right fun ⟨hne, hlo, hn⟩ => ?_⟩
    exact ⟨hne, by omega, hn⟩

end Buffer

end LindWasm.Marshal
