import LindWasm.Marshal.Frame

/-!
# Marshal/Positions — the pointees of fields and of array elements

    arg --> shadow -- touched ptr field --> shadow -- touched ptr field --> ?
     └-- array --> shadow -- element --> shadow

The marshaller gives shadows to arguments, to array elements and to the fields of their structs, but
treats the pointee of a field as bytes. Here is what the walk over a struct finds at a field
(`FoundNull`), how many bytes the pointee of a field is declared to have (`fieldSize`, `Pointee`),
and what the loop over an array leaves (`prePtrArray_spec`).
-/

namespace LindWasm.Marshal

open Option List Mem

variable {c : Call} {st st' : PreState} {b : Block}

theorem PreState.WF.fits (hwf : st.WF c.grate) {shadow size used : ℕ}
    (hbelow : shadow + size ≤ c.grate.arena + used) (hused : used ≤ st.used) :
    shadow + size < 2 ^ 32 := by
  have := c.grate.arena_fits
  have := hwf.used_le
  omega

variable {s : ArgSpec} {w v lo p allocSize len n shadow i : ℕ} {tracks : List Track}
  {raw : Option (ℕ → ℕ)} {l : Layout} {mem : Mem}

/-- `P` holds at each field of the pointee that is a `Q` and lies in its first `len` bytes. -/
def ArgSpec.FieldsIn (s : ArgSpec) (Q : Field → Prop) (len : ℕ) (P : ℕ → Prop) : Prop :=
  ∀ l, s.layout = some l → l.kind = .struct → ∀ f ∈ l.fields, Q f → f.offset + 4 ≤ len → P f.offset

/-! ## What is kept -/

/-- `st'` has the shadows of `st`, with their bytes from `lo` on. -/
structure Keeps (lo : ℕ) (st st' : PreState) : Prop where
  shadows : ∀ b ∈ st.shadows, b ∈ st'.shadows
  mem : ∀ b ∈ st.shadows, ∀ a, lo ≤ a → a < b.addr + b.len → st'.mem a = st.mem a

section Keeps

theorem Keeps.refl : Keeps lo st st := ⟨fun _ hb => hb, fun _ _ _ _ _ => rfl⟩

theorem Keeps.of_wf (hwf : st.WF c.grate)
    (hmem : ∀ a, lo ≤ a → a < c.grate.arena + st.used → st'.mem a = st.mem a)
    (hsub : ∀ b ∈ st.shadows, b ∈ st'.shadows) : Keeps lo st st' :=
  ⟨hsub, fun b hb a hlo ha => hmem a hlo (ha.trans_le (hwf.inside b hb).2)⟩

theorem Grows.keeps (h : Grows c.grate (fun _ => True) st st') (hwf : st.WF c.grate) :
    Keeps lo st st' :=
  .of_wf hwf (fun a _ ha => h.mem a ha trivial) fun _ hb => h.mem_shadows hb

variable {i : ℕ} (hkeep : Keeps lo st st') (hlo : lo ≤ v) (hb : ⟨v, len⟩ ∈ st.shadows)
include hkeep hlo hb

theorem Keeps.byte (hi : i < len) : st'.mem (v + i) = st.mem (v + i) :=
  hkeep.mem _ hb _ (by omega) (by dsimp only; omega)

theorem Keeps.getWord (hi : i + 4 ≤ len) : st'.mem.getWord (v + i) = st.mem.getWord (v + i) :=
  getWord_congr fun j hj => by
    rw [Nat.add_assoc]
    exact hkeep.byte hlo hb (by omega)

end Keeps

/-! ## What the call must be like -/

/-- The declared size of the pointee of a field, read from the struct at `p` in the source. -/
def fieldSize (c : Call) (l : Layout) (s : ArgSpec) (p q : ℕ) : Option ℕ :=
  match s.sizeKind with
  | .cstr => measureCstr c q
  | .fromArg => (l.fields[s.sizeArgIndex]?).map fun sibling => c.wordAt p sibling.offset
  | .const => some (u32 s.constSize)
  | .fromArgPointee | .ptrArray | .none => none

/-- The sibling that holds a size shares no byte with the fields the walk fills. -/
def SiblingKept (l : Layout) (s : ArgSpec) : Prop :=
  s.sizeKind = .fromArg → ∀ sibling, l.fields[s.sizeArgIndex]? = some sibling →
    sibling.offset + 4 < 2 ^ 32 ∧ ∀ f ∈ l.fields, f.Walked →
      sibling.offset + 4 ≤ f.offset ∨ f.offset + 4 ≤ sibling.offset

/-- Nothing is in the arena from `lo` on. -/
def BlankFrom (g : Placement) (lo : ℕ) (mem : Mem) : Prop :=
  ∀ a, lo ≤ a → a < g.arena + arenaSize → mem a = 0

theorem Grows.blankFrom {g : Placement} {keep : ℕ → Prop} (h : Grows g keep st st')
    (hblank : BlankFrom g (g.arena + st.used) st.mem) :
    BlankFrom g (g.arena + st'.used) st'.mem := fun a hlo hin => by
  have hused := h.used
  exact (h.above a hlo hin).trans (hblank a (by omega) hin)

section Asked

variable (c : Call) (blank : Prop) (s : ArgSpec) (l : Layout) (p : ℕ)

/-- The walk finds null in the pointee of `s` at `p`: it is copied in and holds null there, or it is
not and the arena was `blank`. -/
def FoundNull (offset : ℕ) : Prop := if s.copiesIn then c.wordAt p offset = 0 else blank

/-- The size `a` of a field's pointee is that in the source: a sibling that holds it is copied in,
and no field that may be filled lies over it. -/
def SizeKnown (a : ArgSpec) : Prop :=
  a.sizeKind = .fromArg → s.copiesIn ∧ ∀ sibling, l.fields[a.sizeArgIndex]? = some sibling →
    sibling.offset + 4 < 2 ^ 32 ∧ ∀ g ∈ l.fields, g.Walked → ¬ FoundNull c blank s p g.offset →
      g.offset + 4 ≤ sibling.offset ∨ sibling.offset + 4 ≤ g.offset

/-- The field is found null, or `P` holds of its pointer and the size of its pointee. -/
def Pointee (f : Field) (P : ℕ → ℕ → Prop) : Prop :=
  FoundNull c blank s p f.offset ∨ SizeKnown c blank s l p f.spec ∧
    ∀ q len, (s.copiesIn → q = c.wordAt p f.offset) → fieldSize c l f.spec p q = some len → P q len

end Asked

variable {blank : Prop}

/-! ## One struct -/

theorem FoundNull.getWord {q x offset : ℕ} (h : FoundNull c blank s q offset)
    (hin : offset + 4 ≤ len)
    (hbytes : s.copiesIn → ∀ i < len, mem (x + i)
      = c.source.bytes (ensureHostAddr c.source.base q + i))
    (hblank : ¬ s.copiesIn → blank → ∀ i < len, mem (x + i) = 0) :
    mem.getWord (x + offset) = 0 := by
  unfold FoundNull at h
  split at h
  · next hcopies => exact (getWord_eq_wordAt (hbytes hcopies) hin).trans h
  · next hcopies =>
    have hzero : mem.getWord (x + offset) = Mem.getWord (fun _ => 0) 0 :=
      getWord_congr fun i hi => by
      rw [Nat.add_assoc]
      exact hblank hcopies h _ (by omega)
    exact hzero

/-- The size the walk computes for a field is the declared one. -/
theorem fieldSize_of_childSize {q : ℕ} (hfit : shadow + allocSize < 2 ^ 32)
    (hsib : s.sizeKind = .fromArg → ∀ sibling, l.fields[s.sizeArgIndex]? = some sibling →
      sibling.offset + 4 < 2 ^ 32 ∧ (sibling.offset + 4 ≤ allocSize →
        mem.getWord (shadow + sibling.offset) = c.wordAt p sibling.offset))
    (h : childSize c l s mem shadow allocSize q = some n) : fieldSize c l s p q = some n := by
  rw [childSize] at h
  rw [fieldSize]
  cases hsk : s.sizeKind with
  | cstr | const | fromArgPointee | ptrArray | none => rw [hsk] at h; exact h
  | fromArg =>
    simp only [hsk] at h
    cases hget : l.fields[s.sizeArgIndex]? with
    | none => rw [hget] at h; exact absurd h (by simp)
    | some sibling =>
      obtain ⟨hoff, hword⟩ := hsib hsk sibling hget
      rw [hget] at h
      obtain ⟨hrange, h⟩ := ite_none_left_eq_some.mp h
      obtain ⟨hin, hslot⟩ := slot_eq hrange hoff hfit
      rw [← h, hslot, hword hin]
      rfl

section Struct

variable {st₀ : PreState} {f : Field} {done : List Field} {t : Track}
  (hwf : st.WF c.grate) (hbelow : shadow + allocSize ≤ c.grate.arena + st₀.used)
  (hgrow : Grows c.grate (OffSlots (FoundNull c blank s p ·.offset) shadow done) st₀ st)
  (hdone : ∀ g ∈ done, g ∈ l.fields)
include hbelow hgrow hdone

/-- A sibling that holds a size is as the walk found it. -/
theorem SizeKnown.word_eq {a : ArgSpec} (hsize : SizeKnown c blank s l p a)
    (hsk : a.sizeKind = .fromArg) {sibling : Field}
    (hget : l.fields[a.sizeArgIndex]? = some sibling) (hin : sibling.offset + 4 ≤ allocSize) :
    st.mem.getWord (shadow + sibling.offset) = st₀.mem.getWord (shadow + sibling.offset) :=
  hgrow.word_eq hbelow hin fun g hg hw hne => ((hsize hsk).2 sibling hget).2 g (hdone g hg) hw hne

include hwf

section

variable (hin : f.offset + 4 ≤ allocSize)
  (hbytes : s.copiesIn → ∀ i < allocSize, st₀.mem (shadow + i)
    = c.source.bytes (ensureHostAddr c.source.base p + i))
  (ht : IsChild c l shadow allocSize st st' f t) (hne : ¬ FoundNull c blank s p f.offset)
include hin hbytes ht hne

/-- **The pointer and the size of a tracked field** are those `Pointee` tells of. -/
theorem Pointee.of_child {P : ℕ → ℕ → Prop} (h : Pointee c blank s l p f P)
    (hoff : ∀ g ∈ done, g.Walked → ¬ FoundNull c blank s p g.offset →
      g.offset + 4 ≤ f.offset ∨ f.offset + 4 ≤ g.offset) :
    P t.origSrcPtr t.shadowLen := by
  obtain ⟨hsize, hall⟩ := h.resolve_left hne
  refine hall _ _ (fun hcopies => ?_) (fieldSize_of_childSize (hwf.fits hbelow hgrow.used)
    (fun hsk sibling hget => ⟨((hsize hsk).2 sibling hget).1, fun hin => ?_⟩) ht.sized)
  · rw [ht.src, hgrow.word_eq hbelow hin hoff]
    exact getWord_eq_wordAt (hbytes hcopies) hin
  · rw [hsize.word_eq hbelow hgrow hdone hsk hget hin]
    exact getWord_eq_wordAt (hbytes (hsize hsk).1) hin

end

end Struct

/-! ## One array -/

/-- A property of the words of an array, kept with the memory from `hi` on. -/
def Kept (g : Placement) (hi : ℕ) (P : PreState → ℕ → Prop) : Prop :=
  ∀ {st st' v}, st.WF g → P st v → (∀ a, hi ≤ a → a < g.arena + st.used → st'.mem a = st.mem a) →
    (∀ b ∈ st.shadows, b ∈ st'.shadows) → P st' v

section Array

variable {marshal : ℕ → PreState → Option (ℕ × PreState)} {P : ℕ → PreState → ℕ → Prop}
  {shadow hi i v : ℕ} {ps : List ℕ} {st₀ : PreState}

section

variable (hP : ∀ k, Kept c.grate hi (P k)) (hwf : st.WF c.grate)
  (hdone : ∀ k < i, P k st (st.mem.getWord (shadow + 4 * k)))
include hP hwf hdone

/-- A word stored in the array's shadow leaves the words before it and everything above alone. -/
theorem storeElem_spec (hv : v < 2 ^ 32) (hspace : shadow + 4 * i + 4 ≤ hi)
    (hbelow : hi ≤ c.grate.arena + st.used) (hnew : P i st v)
    (h : st' = { st with mem := st.mem.putWord (shadow + 4 * i) v }) :
    Grows c.grate (fun a => a < shadow ∨ hi ≤ a) st st' ∧
      ∀ k ≤ i, P k st' (st'.mem.getWord (shadow + 4 * k)) := by
  have hoff : Mem.SameOff (shadow + 4 * i) (shadow + 4 * i + 4) st.mem st'.mem :=
    h ▸ sameOff_putWord
  have hkeep : ∀ {k w}, P k st w → P k st' w := fun hw =>
    hP _ hwf hw (fun a ha _ => hoff a (by omega)) fun b hb => h ▸ hb
  refine ⟨h ▸ grows_putWord (fun a ha => by omega) (.inl (by omega)), fun k hk => ?_⟩
  rcases Nat.lt_or_eq_of_le hk with hlt | rfl
  · rw [getWord_of_sameOff hoff (by omega)]
    exact hkeep (hdone k hlt)
  · rw [h, getWord_putWord hv, ← h]
    exact hkeep hnew

/-- **The elements of an array**: each word is what its element was marshalled to, and that stays
good while the rest is marshalled above it; the last one is null. -/
theorem preElems_spec (hfrom : Grows c.grate (fun _ => False) st₀ st)
    (hmarshal : ∀ (k : ℕ) q, ps[k]? = some q → ∀ {st v st'}, Grows c.grate (fun _ => False) st₀ st →
      hi ≤ c.grate.arena + st.used → marshal q st = some (v, st') →
        Grows c.grate (fun _ => True) st st' ∧ P (i + k) st' v ∧ v < 2 ^ 32)
    (hnull : ∀ st, P (i + ps.length) st 0) (hspace : shadow + 4 * (i + ps.length) + 4 ≤ hi)
    (hbelow : hi ≤ c.grate.arena + st.used) (h : preElems marshal shadow i ps st = some st') :
    Grows c.grate (fun a => a < shadow ∨ hi ≤ a) st st' ∧
      ∀ k ≤ i + ps.length, P k st' (st'.mem.getWord (shadow + 4 * k)) := by
  induction ps generalizing i st with
  | nil => exact storeElem_spec hP hwf hdone (by decide) hspace hbelow (hnull _) (some.inj h).symm
  | cons p ps ih =>
    have hlen : i + (p :: ps).length = i + 1 + ps.length := by rw [length_cons]; omega
    rw [hlen] at hspace hnull ⊢
    obtain ⟨⟨v, st₁⟩, hv, hrest⟩ := bind_eq_some_iff.mp h
    obtain ⟨hgrow, hnew, hlt⟩ := hmarshal 0 p rfl hfrom hbelow hv
    dsimp only at hrest
    rw [show u32 v = v from Nat.mod_eq_of_lt hlt] at hrest
    have hused := hgrow.used
    have hwf₁ := hgrow.wf hwf
    have hdone₁ : ∀ k < i, P k st₁ (st₁.mem.getWord (shadow + 4 * k)) := fun k hk => by
      rw [hgrow.getWord (by omega) fun _ _ => trivial]
      exact hP k hwf (hdone k hk) (fun a _ ha => hgrow.mem a ha trivial)
        fun b hb => hgrow.mem_shadows hb
    obtain ⟨hgrow₁, hwords⟩ := storeElem_spec hP hwf₁ hdone₁ hlt (by omega) (by omega) hnew rfl
    have hall₁ := (hgrow.mono fun _ _ _ => trivial).trans hgrow₁
    obtain ⟨hgrow₂, hall⟩ := ih (hgrow₁.wf hwf₁) (fun k hk => hwords k (by omega))
      (hfrom.trans (hall₁.mono fun _ _ => nofun)) (fun k q hq => by
        rw [Nat.add_right_comm]
        exact hmarshal (k + 1) q hq) hnull hspace (by dsimp only; omega) hrest
    exact ⟨hall₁.trans hgrow₂, hall⟩

end

/-- **An array**: the arena grows, and its shadow holds a word for each element and a null. -/
theorem prePtrArray_spec (hwf : st.WF c.grate) {p : ℕ} {tracks : List Track}
    (hps : readElems c p ptrArrayMax 0 = some ps)
    (hhi : hi = c.grate.arena + st.used + (ps.length + 1) * 4) (hP : ∀ k, Kept c.grate hi (P k))
    (hmarshal : ∀ (k : ℕ) q, ps[k]? = some q → ∀ {st₁ v st'},
      Grows c.grate (fun _ => False) st st₁ → hi ≤ c.grate.arena + st₁.used →
      marshal q st₁ = some (v, st') →
        Grows c.grate (fun _ => True) st₁ st' ∧ P k st' v ∧ v < 2 ^ 32)
    (hnull : ∀ st, P ps.length st 0) (h : prePtrArray c marshal p st = some (v, tracks, st')) :
    Grows c.grate (fun _ => True) st st' ∧ v = c.grate.arena + st.used ∧
      ⟨v, (ps.length + 1) * 4⟩ ∈ st'.shadows ∧
      ∀ k ≤ ps.length, P k st' (st'.mem.getWord (v + 4 * k)) := by
  obtain ⟨ps', hps', h⟩ := bind_eq_some_iff.mp h
  obtain rfl := mem_unique hps hps'
  obtain ⟨⟨shadow, st₁⟩, ha, h⟩ := bind_eq_some_iff.mp h
  obtain ⟨st₂, helems, heq⟩ := map_eq_some_iff.mp h
  obtain ⟨rfl, -, rfl⟩ : shadow = v ∧ [] = tracks ∧ st₂ = st' := by simpa using heq
  obtain ⟨hgrow, rfl, -, hused, hblock⟩ := allocShadow_spec
    (fun a => a < c.grate.arena + st.used ∨ hi ≤ a) hwf ha
  obtain ⟨hgrow₁, hall⟩ := preElems_spec hP (hgrow.wf hwf) (by simp)
    (allocShadow_spec (fun _ => False) hwf ha).1
      (fun k q hq => by rw [Nat.zero_add]; exact hmarshal k q hq)
    (by rw [Nat.zero_add]; exact hnull) (by omega) (by omega) helems
  rw [Nat.zero_add] at hall
  exact ⟨(hgrow.trans hgrow₁).mono fun a ha _ => .inl ha, rfl, hgrow₁.mem_shadows hblock, hall⟩

end Array

theorem wf_init (g : Placement) (mem : Mem) : PreState.WF g ⟨0, mem, []⟩ :=
  ⟨Nat.zero_le _, by simp, by simp⟩

/-! ## A small call -/

/-- A grate for the calls below. -/
def smallGrate : Placement where
  base := 2 ^ 33
  arena := 4096
  scratch := 1024
  arena_pos := by decide
  arena_fits := by decide
  arena_aligned := by decide
  scratch_aligned := by decide

variable (words : List (ℕ × ℕ))

/-- A calling cage at 4 GiB, all of it readable and writable, with the given words in it. -/
def smallCage : Cage where
  base := 2 ^ 32
  bytes := words.foldl (fun mem w => mem.putWord (2 ^ 32 + w.1) w.2) fun _ => 0
  readable := fun _ _ => true
  writable := fun _ _ => true

def smallCallOf (raw : ℕ → ℕ) : Call :=
  ⟨1, 2, smallCage words, smallGrate, raw, []⟩

def smallCall (arg : ℕ) : Call :=
  smallCallOf words fun i => if i = 0 then arg else 0

/-- A pointer to `size` bytes with touched fields at the given offsets. -/
def structPtr (d : PtrDirection) (size : ℕ) (fields : List (ℕ × ArgSpec)) : ArgSpec :=
  .mk .ptr d .const size 0
    (some (.mk .struct (fields.map fun f => .mk f.1 f.2 true) size)) none 0 0 0

def bytesPtr (d : PtrDirection) (size : ℕ) : ArgSpec := .mk .ptr d .const size 0 none none 0 0 0

def voidReturn : ReturnSpec := ⟨.void, 0, 0, 0⟩

end LindWasm.Marshal
