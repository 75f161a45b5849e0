import LindWasm.Marshal.Ready

/-!
# Marshal/Arrive — every pointer of a call that fits arrives

    ready args, room for them --> the handler is called, each pointer a shadow

Arrays marshal their elements one after another (`prePtrArray_ready`), and an element may be an
array again (`prePtr_ready`, `prePtr_reached`). Of a call whose arguments are ready and fit the
arena, none traps on the way in (`preCall_ready`).
-/

namespace LindWasm.Marshal

open Option List

variable {c : Call} {st st' : PreState} {p shadow v : ℕ}

/-! ## An array -/

theorem readElems_spec {fuel k : ℕ} {ps : List ℕ} (h : readElems c p fuel k = some ps) :
    ∀ q ∈ ps, q ≠ 0 ∧ q < 2 ^ 32 := by
  induction fuel generalizing k ps with
  | zero => obtain rfl := some.inj h; simp
  | succ fuel ih =>
    obtain ⟨q, hq, h⟩ := bind_eq_some_iff.mp h
    obtain ⟨host, -, rfl⟩ := map_eq_some_iff.mp hq
    split at h
    · cases h
      simp
    · next hne =>
      obtain ⟨qs, hqs, rfl⟩ := map_eq_some_iff.mp h
      exact forall_mem_cons.mpr ⟨⟨hne, Mem.getWord_lt _ _⟩, ih hqs⟩

/-- A way to marshal one element that takes `cost` of the arena. -/
def Marshals (c : Call) (marshal : ℕ → PreState → Option (ℕ × PreState)) (cost : ℕ → ℕ)
    (q : ℕ) : Prop :=
  ∀ st : PreState, st.WF c.grate → st.used % 8 = 0 → st.used + cost q ≤ arenaSize →
    ∃ v st', marshal q st = some (v, st') ∧ st'.used = st.used + cost q ∧ st'.WF c.grate

section Array

variable {marshal : ℕ → PreState → Option (ℕ × PreState)} {cost : ℕ → ℕ} {ps : List ℕ}
  (hmarshal : ∀ q ∈ ps, Marshals c marshal cost q) (hcost : ∀ q, cost q % 8 = 0)
  (hwf : st.WF c.grate) (hmod : st.used % 8 = 0)
include hmarshal hcost hwf hmod

/-- **The elements do not trap**, given room for each. -/
theorem preElems_ready (shadow i : ℕ) (hroom : st.used + (ps.map cost).sum ≤ arenaSize) :
    ∃ st', preElems marshal shadow i ps st = some st' ∧
      st'.used = st.used + (ps.map cost).sum := by
  induction ps generalizing i st with
  | nil => exact ⟨_, rfl, rfl⟩
  | cons q ps ih =>
    obtain ⟨hq, hqs⟩ := forall_mem_cons.mp hmarshal
    rw [map_cons, sum_cons] at hroom ⊢
    have := hcost q
    obtain ⟨v, st₁, hv, hused, hwf₁⟩ := hq st hwf hmod (by omega)
    have hwf₂ : PreState.WF c.grate
        { st₁ with mem := st₁.mem.putWord (shadow + 4 * i) (u32 v) } :=
      ⟨hwf₁.used_le, hwf₁.inside, hwf₁.unique⟩
    obtain ⟨st', h, hused'⟩ := ih hqs hwf₂ (by dsimp only; omega) (i + 1) (by dsimp only; omega)
    refine ⟨st', by rw [preElems, hv]; exact h, ?_⟩
    rw [hused']
    dsimp only
    omega

theorem prePtrArray_ready (hps : readElems c p ptrArrayMax 0 = some ps)
    (hroom : st.used + (space ((ps.length + 1) * 4) + (ps.map cost).sum) ≤ arenaSize) :
    ∃ v ts st', prePtrArray c marshal p st = some (v, ts, st') ∧
      st'.used = st.used + (space ((ps.length + 1) * 4) + (ps.map cost).sum) := by
  have hspace := space_mod ((ps.length + 1) * 4)
  have ha : allocShadow c st ((ps.length + 1) * 4) =
      some (c.grate.arena + st.used, st.allocated c ((ps.length + 1) * 4)) :=
    allocShadow_eq (by omega)
  have hused : (st.allocated c ((ps.length + 1) * 4)).used
    = st.used + space ((ps.length + 1) * 4) := rfl
  obtain ⟨hgrow, -⟩ := allocShadow_spec (fun _ => True) hwf ha
  obtain ⟨st', h, hused'⟩ := preElems_ready hmarshal hcost (hgrow.wf hwf) (by omega)
    (c.grate.arena + st.used) 0 (by omega)
  refine ⟨c.grate.arena + st.used, [], st', ?_, by omega⟩
  rw [prePtrArray, hps, bind_some, ha, bind_some]
  dsimp only
  rw [h]
  rfl

end Array

/-! ## Any pointer -/

section Pointer

variable {s : ArgSpec} {top : Bool}

theorem ptrReady_buffer (hs : s.sizeKind ≠ .ptrArray) :
    (PtrReady c top s p ↔ ∃ n, BufferReady c top s p n) ∧
      need c top s p = space (allocSizeOf s ((declSize c top s p).getD 0)) + structNeed c s p := by
  obtain ⟨_, _, sk, _⟩ := s
  cases sk with
  | ptrArray => exact absurd rfl hs
  | none | const | fromArg | fromArgPointee | cstr => exact ⟨Iff.rfl, rfl⟩

theorem ptrReady_raw (hs : s.sizeKind = .ptrArray) (hel : s.element = none) :
    (PtrReady c top s p ↔ ∃ ps, readElems c p ptrArrayMax 0 = some ps) ∧
      need c top s p = space ((((readElems c p ptrArrayMax 0).getD []).length + 1) * 4) := by
  cases s
  cases hs
  cases hel
  exact ⟨Iff.rfl, rfl⟩

theorem ptrReady_element {e : ArgSpec} (hs : s.sizeKind = .ptrArray) (hel : s.element = some e) :
    (PtrReady c top s p ↔
      ∃ ps, readElems c p ptrArrayMax 0 = some ps ∧ ∀ q ∈ ps, PtrReady c false e q) ∧
      need c top s p = space ((((readElems c p ptrArrayMax 0).getD []).length + 1) * 4)
        + (((readElems c p ptrArrayMax 0).getD []).map (need c false e)).sum := by
  cases s
  cases hs
  cases hel
  exact ⟨Iff.rfl, rfl⟩

theorem sum_map_mod {α : Type*} {g : α → ℕ} (h : ∀ a, g a % 8 = 0) (as : List α) :
    (as.map g).sum % 8 = 0 := by
  induction as with
  | nil => rfl
  | cons a as ih =>
    rw [map_cons, sum_cons]
    have := h a
    omega

theorem structNeed_mod (c : Call) (s : ArgSpec) (p : ℕ) : structNeed c s p % 8 = 0 := by
  unfold structNeed
  split
  · next l _ =>
    split
    · have := sum_map_mod (fieldNeed_mod c l p) l.fields
      have := space_mod (l.fields.length * trackSize)
      omega
    · rfl
  · rfl

theorem need_mod (c : Call) (top : Bool) (s : ArgSpec) (p : ℕ) : need c top s p % 8 = 0 := by
  induction s using ArgSpec.elementInduction generalizing top p with
  | buffer s hs =>
    rw [(ptrReady_buffer hs).2]
    have := space_mod (allocSizeOf s ((declSize c top s p).getD 0))
    have := structNeed_mod c s p
    omega
  | raw s hs hel =>
    rw [(ptrReady_raw hs hel).2]
    exact space_mod _
  | element s e hs hel ih =>
    rw [(ptrReady_element hs hel).2]
    have := sum_map_mod (ih false) ((readElems c p ptrArrayMax 0).getD [])
    have := space_mod ((((readElems c p ptrArrayMax 0).getD []).length + 1) * 4)
    omega

theorem Reached.lt {lo : ℕ} (hwf : st.WF c.grate) (h : Reached c lo st top s p v) : v < 2 ^ 32 := by
  obtain ⟨b, hb, rfl⟩ := h.isShadow
  have := c.grate.arena_fits
  have := hwf.used_le
  have := hwf.inside b hb
  omega

/-- **What a ready pointer was marshalled to has reached the handler**, with all that is behind
it. -/
theorem prePtr_reached {ts : List Track} (hp : p ≠ 0) (hready : PtrReady c top s p)
    (hwf : st.WF c.grate) (h : prePtr c s (rawOf c top) p st = some (v, ts, st')) :
    Grows c.grate (fun _ => True) st st' ∧ Reached c (c.grate.arena + st.used) st' top s p v := by
  induction s using ArgSpec.elementInduction generalizing top p v ts st st' with
  | buffer s hs =>
    obtain ⟨n, hbuffer⟩ := (ptrReady_buffer hs).1.mp hready
    rw [prePtr_buffer hs, if_neg hp] at h
    rw [reached_buffer hs]
    exact preBuffer_reached hbuffer hwf h
  | raw s hs hel =>
    obtain ⟨ps, hps⟩ := (ptrReady_raw hs hel).1.mp hready
    rw [prePtr_raw hs hel, if_neg hp] at h
    obtain ⟨hgrow, hv, hblock, -⟩ := prePtrArray_spec hwf hps rfl
      (fun _ _ _ _ _ _ _ _ => trivial) (fun k q hq st₁ w st₂ _ _ heq => by
        cases heq
        exact ⟨Grows.refl _ _, trivial, (readElems_spec hps q (List.mem_of_getElem? hq)).2⟩)
      (fun _ => trivial) h
    rw [reached_array hs, hel]
    exact ⟨hgrow, hv.ge, ps, hps, hblock, trivial⟩
  | element s e hs hel ih =>
    obtain ⟨ps, hps, hall⟩ := (ptrReady_element hs hel).1.mp hready
    rw [prePtr_element hs hel, if_neg hp] at h
    obtain ⟨hgrow, hv, hblock, hwords⟩ := prePtrArray_spec
      (P := fun k st₁ w => ∀ q, ps[k]? = some q →
        Reached c (c.grate.arena + st.used + (ps.length + 1) * 4) st₁ false e q w) hwf hps rfl
      (fun k st₁ st₂ w hwf₁ hr hmem hsub q hq => (hr q hq).mono le_rfl
        (.of_wf hwf₁ hmem hsub))
      (fun k q hq st₁ w st₂ hfrom hle hm => by
        have hwf₁ := hfrom.wf hwf
        obtain ⟨⟨w', ts', st₂'⟩, he, heq⟩ := map_eq_some_iff.mp hm
        obtain ⟨rfl, rfl⟩ : w' = w ∧ st₂' = st₂ := by simpa using heq
        have hq' := List.mem_of_getElem? hq
        obtain ⟨hgrow, hreached⟩ := ih (readElems_spec hps q hq').1 (hall q hq') hwf₁ he
        refine ⟨hgrow, fun q' hq'' => ?_, hreached.lt (hgrow.wf hwf₁)⟩
        obtain rfl := mem_unique hq hq''
        exact hreached.mono hle .refl)
      (fun _ q hq => absurd hq (by simp)) h
    rw [reached_array hs, hel]
    refine ⟨hgrow, hv.ge, ps, hps, hblock, fun k q hq => ?_⟩
    have hk := (List.getElem?_eq_some_iff.mp hq).1
    exact (hwords k hk.le q hq).mono (by omega) .refl

/-- **A ready pointer does not trap**, and takes what it needs of the arena. -/
theorem prePtr_ready (hp : p ≠ 0) (hready : PtrReady c top s p) (hwf : st.WF c.grate)
    (hmod : st.used % 8 = 0) (hroom : st.used + need c top s p ≤ arenaSize) :
    ∃ v ts st', prePtr c s (rawOf c top) p st = some (v, ts, st') ∧
      st'.used = st.used + need c top s p := by
  induction s using ArgSpec.elementInduction generalizing top p st with
  | buffer s hs =>
    obtain ⟨n, hbuffer⟩ := (ptrReady_buffer hs).1.mp hready
    rw [(ptrReady_buffer hs).2, hbuffer.size, Option.getD_some] at hroom ⊢
    rw [prePtr_buffer hs, if_neg hp]
    exact preBuffer_ready hbuffer hwf hmod hroom
  | raw s hs hel =>
    obtain ⟨ps, hps⟩ := (ptrReady_raw hs hel).1.mp hready
    rw [(ptrReady_raw hs hel).2, hps, Option.getD_some] at hroom ⊢
    have hraw : ∀ q ∈ ps, Marshals c (fun p st => some (p, st)) (fun _ => 0) q :=
      fun q _ st hwf _ _ => ⟨q, st, rfl, rfl, hwf⟩
    have hnone : (ps.map fun _ => 0).sum = 0 := by simp [map_const', sum_replicate_nat]
    obtain ⟨v, ts, st', h, hused⟩ := prePtrArray_ready hraw (fun _ => rfl) hwf hmod hps (by omega)
    rw [prePtr_raw hs hel, if_neg hp]
    exact ⟨v, ts, st', h, by omega⟩
  | element s e hs hel ih =>
    obtain ⟨ps, hps, hall⟩ := (ptrReady_element hs hel).1.mp hready
    rw [(ptrReady_element hs hel).2, hps, Option.getD_some] at hroom ⊢
    have hmarshal : ∀ q ∈ ps, Marshals c
        (fun p st => (prePtr c e none p st).map fun r => (r.1, r.2.2)) (need c false e) q :=
      fun q hq st hwf hmod hroom => by
        have hne := (readElems_spec hps q hq).1
        obtain ⟨v, ts, st', h, hused⟩ := ih hne (hall q hq) hwf hmod hroom
        obtain ⟨hgrow, -⟩ := prePtr_reached hne (hall q hq) hwf h
        exact ⟨v, st', congrArg (Option.map _) h, hused, hgrow.wf hwf⟩
    rw [prePtr_element hs hel, if_neg hp]
    exact prePtrArray_ready hmarshal (need_mod c false e) hwf hmod hps hroom

end Pointer

/-! ## The whole call -/

section Call

variable {s : ArgSpec} {i : ℕ}

/-- An argument the way in takes: a handle is a live token, a pointer is ready. -/
def ArgReady (c : Call) (i : ℕ) (s : ArgSpec) : Prop :=
  c.rawArgs i ≠ 0 →
    (s.kind = .handle → (translateHandle c.handles s.handleClass (c.rawArgs i)).isSome) ∧
      (s.kind = .ptr → PtrReady c true s (c.rawArgs i))

/-- What an argument takes of the arena. -/
def argNeed (c : Call) (i : ℕ) (s : ArgSpec) : ℕ :=
  if s.kind = .ptr ∧ c.rawArgs i ≠ 0 then need c true s (c.rawArgs i) else 0

/-- …and all of them from index `i` on. -/
def argsNeed (c : Call) : ℕ → List ArgSpec → ℕ
  | _, [] => 0
  | i, s :: ss => argNeed c i s + argsNeed c (i + 1) ss

/-- The argument as the handler has it: a pointer is null if the caller's is, else it was
reached. -/
def ArgReached (c : Call) (st : PreState) (i : ℕ) (s : ArgSpec) (v : ℕ) : Prop :=
  s.kind = .ptr → c.rawArgs i = 0 ∧ v = 0 ∨
    c.rawArgs i ≠ 0 ∧ Reached c c.grate.arena st true s (c.rawArgs i) v

theorem argNeed_mod (c : Call) (i : ℕ) (s : ArgSpec) : argNeed c i s % 8 = 0 := by
  unfold argNeed
  split
  · exact need_mod _ _ _ _
  · rfl

theorem exists_shadowSize (hready : PtrReady c true s p) (mem : Mem) :
    ∃ n, shadowSize c s mem p = some n := by
  by_cases hs : s.sizeKind = .ptrArray
  · cases hl : s.layout <;> simp [shadowSize, hl, hs, computeSize]
  · obtain ⟨n, hbuffer⟩ := (ptrReady_buffer hs).1.mp hready
    cases hl : s.layout with
    | none => exact ⟨n, hbuffer.shadowSize_eq hl mem⟩
    | some l =>
      simp only [shadowSize, hl, bind_some]
      split
      · next hsk =>
        have hmeasure := hbuffer.ptrSize_eq mem
        rw [ptrSize, hsk.1] at hmeasure
        exact ⟨n, hmeasure⟩
      · exact ⟨_, rfl⟩

/-- **A ready argument does not trap**, and reaches the handler. -/
theorem preArg_ready (hready : ArgReady c i s) (hwf : st.WF c.grate) (hmod : st.used % 8 = 0)
    (hroom : st.used + argNeed c i s ≤ arenaSize) :
    ∃ v record st', preArg c i s st = some (v, record, st') ∧
      st'.used = st.used + argNeed c i s ∧ Grows c.grate (fun _ => True) st st' ∧
      ArgReached c st' i s v := by
  rw [preArg]
  cases hk : s.kind with
  | scalar =>
    have hneed : argNeed c i s = 0 := if_neg fun h => absurd (hk.symm.trans h.1) (by decide)
    exact ⟨_, _, st, rfl, by omega, Grows.refl _ _, fun h => absurd (hk.symm.trans h) (by decide)⟩
  | handle =>
    have hneed : argNeed c i s = 0 := if_neg fun h => absurd (hk.symm.trans h.1) (by decide)
    have hptr : ∀ v, ArgReached c st i s v := fun _ h => absurd (hk.symm.trans h) (by decide)
    simp only
    split
    · exact ⟨_, _, st, rfl, by omega, Grows.refl _ _, hptr _⟩
    · next hne =>
      obtain ⟨real, hreal⟩ := isSome_iff_exists.mp ((hready hne).1 hk)
      exact ⟨real, none, st, by rw [hreal]; rfl, by omega, Grows.refl _ _, hptr _⟩
  | ptr =>
    simp only
    split
    · next hzero =>
      have hneed : argNeed c i s = 0 := if_neg fun h => h.2 hzero
      exact ⟨_, _, st, rfl, by omega, Grows.refl _ _, fun _ => .inl ⟨hzero, rfl⟩⟩
    · next hne =>
      have hneed : argNeed c i s = need c true s (c.rawArgs i) := if_pos ⟨hk, hne⟩
      have hptr := (hready hne).2 hk
      rw [hneed] at hroom ⊢
      obtain ⟨v, ts, st', h, hused⟩ := prePtr_ready hne hptr hwf hmod hroom
      obtain ⟨hgrow, hreached⟩ := prePtr_reached hne hptr hwf h
      obtain ⟨n, hn⟩ := exists_shadowSize hptr st'.mem
      rw [show some c.rawArgs = rawOf c true from rfl, h, bind_some]
      rw [hn]
      refine ⟨v, _, st', rfl, hused, hgrow, fun _ => .inr ⟨hne, ?_⟩⟩
      exact hreached.mono (by omega) .refl

theorem ArgReached.grows (hwf : st.WF c.grate) (h : ArgReached c st i s v)
    (hgrow : Grows c.grate (fun _ => True) st st') : ArgReached c st' i s v := fun hk =>
  (h hk).imp_right fun ⟨hne, hreached⟩ => ⟨hne, hreached.mono le_rfl (hgrow.keeps hwf)⟩

/-- **All the arguments.** -/
theorem preArgs_ready {ss : List ArgSpec}
    (hready : ∀ (j : ℕ) s, ss[j]? = some s → ArgReady c (i + j) s) (hwf : st.WF c.grate)
    (hmod : st.used % 8 = 0) (hroom : st.used + argsNeed c i ss ≤ arenaSize) :
    ∃ args shadows st', preArgs c i ss st = some (args, shadows, st') ∧
      Grows c.grate (fun _ => True) st st' ∧ ∀ (j : ℕ) s, ss[j]? = some s →
        ∃ v, args[j]? = some v ∧ ArgReached c st' (i + j) s v := by
  induction ss generalizing i st with
  | nil => exact ⟨[], [], st, rfl, Grows.refl _ _, by simp⟩
  | cons s ss ih =>
    rw [argsNeed] at hroom
    have := argNeed_mod c i s
    obtain ⟨v, record, st₁, h, hused, hgrow, hreached⟩ :=
      preArg_ready (hready 0 s rfl) hwf hmod (by rw [Nat.add_zero]; omega)
    rw [Nat.add_zero] at h hused hreached
    have hwf₁ := hgrow.wf hwf
    obtain ⟨args, shadows, st', hrest, hgrow', hall⟩ := @ih st₁ (i + 1) (fun j s hs => by
      rw [Nat.add_right_comm]
      exact hready (j + 1) s hs) hwf₁ (by omega) (by omega)
    refine ⟨v :: args, record.toList ++ shadows, st', ?_, hgrow.trans hgrow', fun j s' hs => ?_⟩
    · rw [preArgs, h, bind_some]
      dsimp only
      rw [hrest]
      rfl
    · cases j with
      | zero =>
        cases hs
        exact ⟨v, rfl, hreached.grows hwf₁ hgrow'⟩
      | succ j =>
        have := hall j s' hs
        rwa [Nat.add_right_comm] at this

/-- **A call that fits does not trap before the handler**, and each of its arguments reaches it. -/
theorem preCall_ready {spec : MarshalSpec} (hnargs : spec.nargs ≤ rawArgsMax)
    (hready : ∀ (i : ℕ) s, spec.args[i]? = some s → ArgReady c i s)
    (hroom : argsNeed c 0 spec.args ≤ arenaSize) (mem : Mem) :
    ∃ args shadows st, preCall c spec spec.nargs mem = some (args, shadows, st) ∧
      st.WF c.grate ∧ ∀ (i : ℕ) s, spec.args[i]? = some s →
        ∃ v, args[i]? = some v ∧ ArgReached c st i s v := by
  obtain ⟨args, shadows, st, h, hgrow, hall⟩ := preArgs_ready
    (fun j s hs => by rw [Nat.zero_add]; exact hready j s hs) (wf_init c.grate mem) rfl
    (by dsimp only; omega)
  refine ⟨args, shadows, st, ?_, hgrow.wf (wf_init c.grate mem), fun i s hs => ?_⟩
  · rw [preCall, if_neg (Nat.not_lt.mpr hnargs), MarshalSpec.nargs, take_length]
    exact h
  · obtain ⟨v, hv, hreached⟩ := hall i s hs
    rw [Nat.zero_add] at hreached
    exact ⟨v, hv, hreached⟩

end Call

end LindWasm.Marshal
