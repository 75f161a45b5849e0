import LindWasm.Marshal.Positions

/-!
# Marshal/Total — when the way in does not trap

    declared size --> room in the arena --> a copy that is allowed

Each step before the handler traps when something is missing. Here is what each asks for, and what
it then does: a size is computed as it is declared (`Sized.ptrSize_eq`), an allocation needs room
(`allocShadow_eq`), and a copy the range it copies (`copyIn_eq`).
-/

namespace LindWasm.Marshal

open Option List

variable {c : Call} {s : ArgSpec} {p n addr : ℕ} {st : PreState} {copies top : Bool}

/-! ## Sizes are computed as declared -/

/-- The length of the string at `p` with its terminator, if it is shorter than the cap. -/
def cstrSize (c : Call) (p : ℕ) : Option ℕ :=
  ((List.range cstrCap).find? fun i =>
    c.source.bytes (ensureHostAddr c.source.base p + i) = 0).map (· + 1)

/-- The first `n` bytes at `p` can be read in whole chunks. -/
def Scannable (c : Call) (p n : ℕ) : Prop :=
  ∀ t < n, t % cstrChunk = 0 →
    ensureHostAddr c.source.base (u64 (p + t)) = ensureHostAddr c.source.base p + t ∧
      CopyAllowed c c.source.readable (u64 (p + t)) cstrChunk

theorem fetch_scratch {len : ℕ} (h : CopyAllowed c c.source.readable addr len) :
    fetch c addr len c.grate.scratch = some (ensureHostAddr c.source.base addr) := by
  refine if_pos ⟨h, fun habort => ?_⟩
  have halign := c.grate.scratch_aligned
  unfold ReadsAborted u32 apiAborted at habort
  omega

/-- **A string is measured as long as it is**, chunk by chunk. -/
theorem measureCstrFrom_eq {k : ℕ} (hk : k < cstrCap)
    (hend : c.source.bytes (ensureHostAddr c.source.base p + k) = 0)
    (hbefore : ∀ j < k, c.source.bytes (ensureHostAddr c.source.base p + j) ≠ 0)
    (hscan : Scannable c p (k + 1))
    {fuel total : ℕ} (htotal : total ≤ k) (hmod : total % cstrChunk = 0)
    (hfuel : k < total + fuel * cstrChunk) : measureCstrFrom c p fuel total = some (k + 1) := by
  induction fuel generalizing total with
  | zero => omega
  | succ fuel ih =>
    obtain ⟨hhost, hallowed⟩ := hscan total (by omega) hmod
    have hchunk : ¬ total + cstrChunk > cstrCap := by
      unfold cstrChunk cstrCap at *
      omega
    rw [measureCstrFrom, if_pos (by omega)]
    simp only [if_neg hchunk, fetch_scratch hallowed, bind_some, hhost, Nat.add_assoc]
    split
    · next i hi =>
      obtain ⟨hzero, -, hfirst⟩ := find?_range_eq_some.mp hi
      have hzero := of_decide_eq_true hzero
      obtain rfl : total + i = k := by
        rcases Nat.lt_trichotomy (total + i) k with hlt | heq | hgt
        · exact absurd hzero (hbefore _ hlt)
        · exact heq
        · have := hfirst (k - total) (by omega)
          rw [Nat.add_sub_cancel' htotal] at this
          simp [hend] at this
      rfl
    · next hi =>
      have hmore : total + cstrChunk ≤ k := by
        by_contra hlt
        have := find?_range_eq_none.mp hi (k - total) (by omega)
        rw [Nat.add_sub_cancel' htotal] at this
        simp [hend] at this
      refine ih hmore (by rw [Nat.add_mod_right, hmod]) ?_
      rw [Nat.succ_mul] at hfuel
      omega

theorem measureCstr_eq (h : cstrSize c p = some n) (hscan : Scannable c p n) :
    measureCstr c p = some n := by
  obtain ⟨k, hk, rfl⟩ := map_eq_some_iff.mp h
  obtain ⟨hend, hmem, hfirst⟩ := find?_range_eq_some.mp hk
  have hlt := mem_range.mp hmem
  refine measureCstrFrom_eq hlt (of_decide_eq_true hend) (fun j hj => ?_) hscan (Nat.zero_le _)
    (Nat.zero_mod _) (by unfold cstrCap cstrChunk at *; omega)
  have := hfirst j hj
  simpa using this

/-- The size a pointer declares; only an argument of the function itself can refer to another. -/
def declSize (c : Call) (top : Bool) (s : ArgSpec) (p : ℕ) : Option ℕ :=
  match s.sizeKind with
  | .const => some (u32 s.constSize)
  | .cstr => cstrSize c p
  | .fromArg =>
      if top ∧ s.sizeArgIndex < rawArgsMax then some (u32 (c.rawArgs s.sizeArgIndex)) else none
  | .fromArgPointee =>
      if top ∧ s.sizeArgIndex < rawArgsMax then some (c.wordAt (c.rawArgs s.sizeArgIndex) 0)
      else none
  | .ptrArray | .none => none

/-- A pointer of the declared size `n`, which can be computed: a string is read in chunks, and the
size behind a pointer through it. -/
structure Sized (c : Call) (top : Bool) (s : ArgSpec) (p n : ℕ) : Prop where
  size : declSize c top s p = some n
  scan : s.sizeKind = .cstr → Scannable c p n
  behind : s.sizeKind = .fromArgPointee →
    CopyAllowed c c.source.readable (c.rawArgs s.sizeArgIndex) 4

/-- What the size computation is given. -/
def rawOf (c : Call) (top : Bool) : Option (ℕ → ℕ) := if top then some c.rawArgs else none

theorem fetchWord_eq (h : CopyAllowed c c.source.readable addr 4) :
    fetchWord c addr = some (c.wordAt addr 0) := by
  rw [fetchWord, fetch_scratch h]
  rfl

theorem Sized.computeSize_eq (h : Sized c top s p n) (hs : s.sizeKind ≠ .cstr)
    (mem : Mem) : computeSize c s (rawOf c top) mem = some n := by
  have hsize := h.size
  have hbehind := h.behind
  rw [computeSize]
  cases hsk : s.sizeKind with
  | cstr => exact absurd hsk hs
  | const => simpa [declSize, hsk] using hsize
  | fromArg =>
    simp only [declSize, hsk, ite_none_right_eq_some] at hsize
    obtain ⟨⟨rfl, hidx⟩, hsize⟩ := hsize
    simpa [rawOf, rawArg, Nat.not_le.mpr hidx] using hsize
  | fromArgPointee =>
    simp only [declSize, hsk, ite_none_right_eq_some] at hsize
    obtain ⟨⟨rfl, hidx⟩, hsize⟩ := hsize
    simpa [rawOf, rawArg, Nat.not_le.mpr hidx, fetchWord_eq (hbehind hsk)] using hsize
  | ptrArray | none => simp [declSize, hsk] at hsize

theorem Sized.ptrSize_eq (h : Sized c top s p n) (mem : Mem) :
    ptrSize c s (rawOf c top) mem p = some n := by
  have hsize := h.size
  rw [ptrSize]
  split
  · next hsk => exact measureCstr_eq (by simpa [declSize, hsk] using hsize) (h.scan hsk)
  · next hsk => exact h.computeSize_eq (by rw [hsk]; decide) mem
  · next hsk => exact h.computeSize_eq (by rw [hsk]; decide) mem
  · next hsk => exact h.computeSize_eq (by rw [hsk]; decide) mem
  · next hsk => simp [declSize, hsk] at hsize
  · next hsk => simp [declSize, hsk] at hsize

/-- The size is the same when it is computed again for the way back. -/
theorem Sized.shadowSize_eq (h : Sized c true s p n) (hlayout : s.layout = none) (mem : Mem) :
    shadowSize c s mem p = some n := by
  have hsize := h.size
  by_cases hsk : s.sizeKind = .cstr
  · have hmeasure := measureCstr_eq (by simpa [declSize, hsk] using hsize) (h.scan hsk)
    simp [shadowSize, hlayout, computeSize, hsk, hmeasure]
  · have hcompute := h.computeSize_eq hsk mem
    simp only [rawOf, if_true] at hcompute
    simp [shadowSize, hlayout, hcompute, hsk]

/-! ## Room, and bytes -/

/-- What a shadow of `n` bytes takes of the arena. -/
def space (n : ℕ) : ℕ := (n + 7) / 8 * 8

theorem space_mod (n : ℕ) : space n % 8 = 0 := Nat.mul_mod_left _ _

theorem le_space (n : ℕ) : n ≤ space n := by
  unfold space
  omega

/-- The state once `n` bytes are allocated at the fill. -/
def PreState.allocated (c : Call) (st : PreState) (n : ℕ) : PreState :=
  ⟨st.used + space n, st.mem, st.shadows ++ [⟨c.grate.arena + st.used, n⟩]⟩

/-- The bytes of the caller's buffer at `p`, copied to the address `shadow`. -/
def shadowMem (c : Call) (mem : Mem) (shadow p n : ℕ) : Mem :=
  mem.blit shadow c.source.bytes (ensureHostAddr c.source.base p) n

/-- …and once they are filled with the buffer at `p`. -/
def PreState.shadowed (c : Call) (st : PreState) (p n : ℕ) : PreState :=
  { st.allocated c n with mem := shadowMem c st.mem (c.grate.arena + st.used) p n }

@[simp] theorem shadowed_used (st : PreState) (p n : ℕ) :
    (st.shadowed c p n).used = st.used + space n := rfl

@[simp] theorem shadowed_mem (st : PreState) (p n : ℕ) :
    (st.shadowed c p n).mem = shadowMem c st.mem (c.grate.arena + st.used) p n := rfl

theorem blit_zero (m src : Mem) (d s : ℕ) : m.blit d src s 0 = m :=
  funext fun a => Mem.blit_off (by omega)

theorem marshalAlloc_eq {g : Placement} {used : ℕ} (hfit : used + space n ≤ arenaSize) :
    marshalAlloc g used n = some (g.arena + used, used + space n) := by
  have hle : ¬ n > 2 ^ 32 - 1 - 7 := by unfold space arenaSize at hfit; omega
  have hroom : ¬ (n + 7) / 8 * 8 > arenaSize - used := by unfold space at hfit; omega
  rw [marshalAlloc, if_neg hle]
  simp only [if_neg hroom, space]

theorem allocShadow_eq (hfit : st.used + space n ≤ arenaSize) :
    allocShadow c st n = some (c.grate.arena + st.used, st.allocated c n) := by
  rw [allocShadow, marshalAlloc_eq hfit]
  rfl

/-- A shadow lies at a multiple of 8, so a copy into it never reads as failed. -/
theorem not_readsAborted (hmod : st.used % 8 = 0) :
    ¬ ReadsAborted (c.grate.base + (c.grate.arena + st.used)) := fun habort => by
  have halign := c.grate.arena_aligned
  unfold ReadsAborted u32 apiAborted at habort
  omega

/-- **A buffer that can be read is copied in.** -/
theorem copyIn_eq (hmod : st.used % 8 = 0) (hcopies : copies)
    (hread : 0 < n → CopyAllowed c c.source.readable p n) :
    copyIn c (st.allocated c n) copies p (c.grate.arena + st.used) n
      = some (st.shadowed c p n) := by
  rw [copyIn]
  split
  · next hpos => rw [fetch, if_pos ⟨hread hpos.1, not_readsAborted hmod⟩]; rfl
  · next hzero =>
    obtain rfl : n = 0 := Nat.eq_zero_of_not_pos fun hpos => hzero ⟨hpos, hcopies⟩
    rw [PreState.shadowed, shadowMem, blit_zero]
    rfl

/-- …and one that is not copied in needs nothing. -/
theorem exists_copyIn (hmod : st.used % 8 = 0)
    (hread : 0 < n → copies → CopyAllowed c c.source.readable p n) :
    ∃ st', copyIn c (st.allocated c n) copies p (c.grate.arena + st.used) n = some st' ∧
      st'.used = st.used + space n := by
  cases copies with
  | true => exact ⟨_, copyIn_eq hmod rfl fun hpos => hread hpos rfl, rfl⟩
  | false => exact ⟨st.allocated c n, by simp [copyIn], rfl⟩

end LindWasm.Marshal
