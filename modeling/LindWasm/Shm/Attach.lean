import LindWasm.Shm.Basic

/-!
# Shm/Attach — the three records of an attachment

    nattch  =  Σ attached_cages  =  #{ (cage, address) | the cage has the segment attached there }

`shmat` and `shmdt` keep the three equal. A `fork` of a cage with attachments, an `exec` or an exit
of one, and a `shmat` whose host call fails change one of them only, so `attachmentsCounted_run` is
about runs without these.
-/

namespace LindWasm.Shm

open Function Option List AList World

variable {id id' : Shmid} {h : Attachments} {held : Holdings} {a c base : ℕ}

/-! ## Counting attachments -/

theorem count_insert (ha : h.lookup a = none) (x id : Shmid) :
    Attachments.count (h.insert a x) id = h.count id + if x = id then 1 else 0 := by
  have := total_insert_add (t := h) (a := a) (b := x) (w := fun x => if x = id then 1 else 0)
  rwa [weightAt_of_lookup_none ha, Nat.add_zero] at this

variable {x : Shmid} {cage : Cage} {att : Attachments} {l : List (ℕ × Shmid)} {index y : ℕ}

theorem count_erase (ha : h.lookup a = some x) (id : Shmid) :
    Attachments.count (h.erase a) id + (if x = id then 1 else 0) = h.count id := by
  have := total_erase_add h (fun x => if x = id then 1 else 0) a
  rwa [weightAt_of_lookup ha] at this

/-- How often a cage has the segment attached. -/
def Holdings.at (held : Holdings) (id : Shmid) (c : ℕ) : ℕ := held.weightAt (·.count id) c

theorem at_of_lookup (hc : held.lookup c = some h) (id : Shmid) : held.at id c = h.count id :=
  weightAt_of_lookup hc

theorem at_of_lookup_none (hc : held.lookup c = none) (id : Shmid) : held.at id c = 0 :=
  weightAt_of_lookup_none hc

section

variable (held : Holdings) (c : ℕ) (h : Attachments) (id : Shmid)

theorem at_insert : Holdings.at (held.insert c h) id = update (held.at id) c (h.count id) := by
  funext c'
  by_cases hc : c' = c
  · subst hc
    rw [update_self, Holdings.at, weightAt_of_lookup (lookup_insert _)]
  · rw [update_of_ne hc, Holdings.at, Holdings.at, AList.weightAt, AList.weightAt,
      lookup_insert_ne hc]

theorem at_erase : Holdings.at (held.erase c) id = update (held.at id) c 0 := by
  funext c'
  by_cases hc : c' = c
  · subst hc
    rw [update_self, Holdings.at, weightAt_of_lookup_none (lookup_erase _ _)]
  · rw [update_of_ne hc, Holdings.at, Holdings.at, AList.weightAt, AList.weightAt,
      lookup_erase_ne hc]

theorem count_insert_add :
    Holdings.count (held.insert c h) id + held.at id c = held.count id + h.count id :=
  total_insert_add

theorem count_erase_add :
    Holdings.count (held.erase c) id + held.at id c = held.count id := total_erase_add _ _ _

theorem at_le_count : held.at id c ≤ held.count id := by
  have := count_erase_add held c id
  omega

end

/-! ## The reverse list -/

/-- The attachments as the reverse list has them: at the host's addresses. -/
def hostList (base : ℕ) (h : Attachments) : List (ℕ × Shmid) :=
  h.entries.map fun e => (base + e.1, e.2)

theorem hostList_insert (ha : h.lookup a = none) (base : ℕ) (x : Shmid) :
    hostList base (h.insert a x) = (base + a, x) :: hostList base h := by
  rw [hostList, entries_insert_of_notMem (lookup_eq_none.mp ha)]
  rfl

theorem mem_hostList : (y, x) ∈ hostList base h ↔ ∃ a, y = base + a ∧ h.lookup a = some x := by
  simp only [hostList, List.mem_map, Prod.mk.injEq]
  constructor
  · rintro ⟨⟨a, z⟩, hmem, rfl, rfl⟩
    exact ⟨a, rfl, mem_lookup_iff.mpr hmem⟩
  · rintro ⟨a, rfl, hmem⟩
    exact ⟨⟨a, x⟩, mem_lookup_iff.mp hmem, rfl, rfl⟩

theorem hostList_erase_perm (ha : h.lookup a = some x) :
    (hostList base h).Perm ((base + a, x) :: hostList base (h.erase a)) := by
  have hkeys : a ∈ h.entries.keys := lookup_isSome.mp (by rw [ha]; rfl)
  obtain ⟨y, l₁, l₂, -, hl, hk⟩ := exists_of_kerase hkeys
  have hy : y = x := by
    have hmem : (⟨a, y⟩ : Sigma fun _ : ℕ => Shmid) ∈ h.entries := by rw [hl]; simp
    exact some.inj ((mem_lookup_iff.mpr hmem).symm.trans ha)
  subst hy
  have herase : (h.erase a).entries = l₁ ++ l₂ := hk
  rw [hostList, hostList, hl, herase, map_append, map_append, map_cons]
  exact perm_middle

theorem swapRemove_perm_hostList (hperm : l.Perm (hostList base h))
    (hindex : l[index]? = some (base + a, x)) (ha : h.lookup a = some x) :
    (Memory.swapRemove l index).Perm (hostList base (h.erase a)) :=
  ((Memory.perm_cons_swapRemove hindex).symm.trans
    (hperm.trans (hostList_erase_perm ha))).cons_inv

/-- Nothing is attached at an address the reverse list does not have. -/
theorem lookup_eq_none_of_forall_notMem (hperm : l.Perm (hostList base h))
    (hbase : base ≤ y) (hnone : ∀ x, (y, x) ∉ l) : h.lookup (y - base) = none := by
  by_contra hne
  obtain ⟨x, hx⟩ := ne_none_iff_exists'.mp hne
  refine hnone x (hperm.mem_iff.mpr (mem_hostList.mpr ⟨_, ?_, hx⟩))
  omega

/-! ## The counters of a segment -/

variable {seg : Segment} {f : ℕ → ℕ}

theorem weightAt_attachedCages (hf : Counts seg.attachedCages f) (c : ℕ) :
    seg.attachedCages.weightAt (fun n => n) c = f c := by
  rw [AList.weightAt, hf c]
  split
  · next h0 => exact h0.symm
  · rfl

theorem mapShm_spec (hf : Counts seg.attachedCages f) (c : ℕ) :
    Counts (seg.mapShm c).attachedCages (update f c (f c + 1)) ∧
      (seg.mapShm c).attachedCages.total (fun n => n)
        = seg.attachedCages.total (fun n => n) + 1 := by
  have hinsert : (seg.mapShm c).attachedCages = seg.attachedCages.insert c (f c + 1) := by
    have hc := hf c
    rw [Segment.mapShm]
    split at hc
    · next h0 => rw [hc, h0]
    · rw [hc]
  have htotal := total_insert_add (t := seg.attachedCages) (a := c) (b := f c + 1)
    (w := fun n => n)
  rw [weightAt_attachedCages hf] at htotal
  rw [hinsert]
  exact ⟨hf.insert c (Nat.succ_ne_zero _), by omega⟩

/-- **A detachment of an attached cage** takes one off all the segment's counters. -/
theorem unmapShm_spec (hf : Counts seg.attachedCages f) (hc : f c ≠ 0) :
    ∃ seg', seg.unmapShm c = some seg' ∧ seg'.key = seg.key ∧ seg'.rmid = seg.rmid ∧
      seg'.nattch = seg.nattch - 1 ∧ Counts seg'.attachedCages (update f c (f c - 1)) ∧
      seg'.attachedCages.total (fun n => n) + 1 = seg.attachedCages.total fun n => n := by
  have hl : seg.attachedCages.lookup c = some (f c) := by rw [hf c, if_neg hc]
  have hw := weightAt_attachedCages hf c
  rw [Segment.unmapShm, hl]
  refine ⟨_, rfl, rfl, rfl, rfl, ?_⟩
  dsimp only
  split
  · next h1 =>
    have := total_erase_add seg.attachedCages (fun n => n) c
    exact ⟨by simpa [h1] using hf.erase c, by omega⟩
  · next h1 =>
    have := total_insert_add (t := seg.attachedCages) (a := c) (b := f c - 1) (w := fun n => n)
    exact ⟨hf.insert c h1, by omega⟩

/-! ## The invariant -/

/-- The reverse list of a live cage lists what it has attached, in some order. -/
def CageOk : Option Cage → Option Attachments → Prop
  | some cage, some h => cage.revShm.Perm (hostList cage.base h)
  | none, none => True
  | _, _ => False

/-- The counters of a segment count its attachments. -/
structure SegmentOk (held : Holdings) (id : Shmid) (seg : Segment) : Prop where
  nattch_total : seg.nattch = seg.attachedCages.total fun n => n
  nattch_held : seg.nattch = held.count id
  attached : Counts seg.attachedCages (held.at id)
  marked : seg.rmid = true → 0 < seg.nattch

/-- The three records agree with what is held. -/
structure World.Inv (w : World) : Prop where
  cages : ∀ c, CageOk (w.sys.cages.lookup c) (w.held.lookup c)
  segments : ∀ id seg, w.sys.shmtable id = some seg → SegmentOk w.held id seg
  present : ∀ id, 0 < w.held.count id → w.sys.shmtable id ≠ none

variable {w w' : World} {sys : System} {held' : Holdings} {key : BitVec 32} {size : ℕ}
  {seg' : Segment}

theorem SegmentOk.of_eq (hs : SegmentOk held id seg) (hcount : held'.count id = held.count id)
    (hat : held'.at id = held.at id) : SegmentOk held' id seg :=
  ⟨hs.nattch_total, hs.nattch_held.trans hcount.symm, hat ▸ hs.attached, hs.marked⟩

theorem World.Inv.liveCage (h : w.Inv) (hc : w.sys.cages.lookup c = some cage) :
    ∃ att, w.held.lookup c = some att ∧ cage.revShm.Perm (hostList cage.base att) := by
  have := h.cages c
  rw [hc] at this
  cases hh : w.held.lookup c with
  | none =>
    rw [hh] at this
    exact this.elim
  | some att =>
    rw [hh] at this
    exact ⟨att, rfl, this⟩

theorem World.Inv.count_eq_zero (h : w.Inv) (hid : w.sys.shmtable id = none) :
    w.held.count id = 0 := by
  by_contra hne
  exact h.present id (Nat.pos_of_ne_zero hne) hid

theorem World.Inv.of_counts (h : w.Inv) (hseg : sys.shmtable = w.sys.shmtable)
    (hcages : ∀ c, CageOk (sys.cages.lookup c) (held'.lookup c))
    (hcount : ∀ id, held'.count id = w.held.count id) (hat : ∀ id, held'.at id = w.held.at id) :
    World.Inv ⟨sys, held'⟩ where
  cages := hcages
  segments id seg hs := (h.segments id seg (hseg ▸ hs)).of_eq (hcount id) (hat id)
  present id hpos := by
    rw [hcount id] at hpos
    exact fun hnone => h.present id hpos (hseg ▸ hnone)

theorem count_insert_same (hatt : att.count id = held.at id c) :
    Holdings.count (held.insert c att) id = held.count id := by
  have := count_insert_add held c att id
  rw [hatt] at this
  exact Nat.add_right_cancel this

theorem at_insert_same (hatt : att.count id = held.at id c) :
    Holdings.at (held.insert c att) id = held.at id := by
  rw [at_insert, hatt, update_eq_self]

/-- One attachment more of a segment. -/
theorem SegmentOk.mapShm (hok : SegmentOk held id seg) (hatt : held.lookup c = some att)
    (hfree : att.lookup a = none) :
    SegmentOk (held.insert c (att.insert a id)) id (seg.mapShm c) := by
  have hcount := count_insert hfree id id
  have hat := at_of_lookup hatt id
  have hinsert := count_insert_add held c (att.insert a id) id
  rw [if_pos rfl] at hcount
  refine ⟨?_, ?_, ?_, fun _ => Nat.succ_pos _⟩
  · rw [(mapShm_spec hok.attached c).2, ← hok.nattch_total]
    rfl
  · have hn := hok.nattch_held
    change seg.nattch + 1 = _
    omega
  · rw [at_insert, hcount, ← hat]
    exact (mapShm_spec hok.attached c).1

/-- …and one less; a marked segment stays only while it is attached. -/
theorem SegmentOk.unmapShm (hok : SegmentOk held id seg) (hatt : held.lookup c = some att)
    (hid : att.lookup a = some id) (hun : seg.unmapShm c = some seg') :
    seg'.nattch = Holdings.count (held.insert c (att.erase a)) id ∧
      ((seg'.rmid = true → 0 < seg'.nattch) →
        SegmentOk (held.insert c (att.erase a)) id seg') := by
  have hcount := count_erase hid id
  have hat := at_of_lookup hatt id
  have hinsert := count_insert_add held c (att.erase a) id
  have hheld := hok.nattch_held
  have htotal := hok.nattch_total
  rw [if_pos rfl] at hcount
  obtain ⟨seg₁, hun', -, -, hnattch, hcounts, htotal'⟩ :=
    unmapShm_spec (c := c) hok.attached (by omega)
  obtain rfl := mem_unique hun' hun
  refine ⟨by omega, fun hmarked => ⟨by omega, by omega, ?_, hmarked⟩⟩
  rw [at_insert, Nat.eq_sub_of_add_eq (hcount.trans hat.symm)]
  exact hcounts

theorem cageOk_insert {cs : AList fun _ : ℕ => Cage} (h : ∀ c, CageOk (cs.lookup c) (held.lookup c))
    (hperm : cage.revShm.Perm (hostList cage.base att)) (c' : ℕ) :
    CageOk ((cs.insert c cage).lookup c') ((held.insert c att).lookup c') := by
  by_cases hc : c' = c
  · subst hc
    rw [lookup_insert, lookup_insert]
    exact hperm
  · rw [lookup_insert_ne hc, lookup_insert_ne hc]
    exact h c'

/-- **One segment is written**: it is checked, and the others keep their counts. -/
theorem World.Inv.write (h : w.Inv) {x : Option Segment}
    (htable : sys.shmtable = update w.sys.shmtable id x)
    (hcages : ∀ c, CageOk (sys.cages.lookup c) (held'.lookup c))
    (hcount : ∀ id' ≠ id, held'.count id' = w.held.count id')
    (hat : ∀ id' ≠ id, held'.at id' = w.held.at id')
    (hok : ∀ seg, x = some seg → SegmentOk held' id seg)
    (hgone : x = none → held'.count id = 0) : World.Inv ⟨sys, held'⟩ where
  cages := hcages
  segments id' seg hs := by
    rw [htable] at hs
    by_cases hid : id' = id
    · subst hid
      rw [update_self] at hs
      exact hok seg hs
    · rw [update_of_ne hid] at hs
      exact (h.segments id' seg hs).of_eq (hcount id' hid) (hat id' hid)
  present id' hpos hnone := by
    rw [htable] at hnone
    by_cases hid : id' = id
    · subst hid
      rw [update_self] at hnone
      exact hpos.ne' (hgone hnone)
    · rw [update_of_ne hid] at hnone
      rw [hcount id' hid] at hpos
      exact h.present id' hpos hnone

/-! ## Steps -/

theorem World.Inv.new (h : w.Inv) (hfresh : w.sys.shmtable id = none)
    (htable : sys.shmtable = update w.sys.shmtable id (some (.new key size)))
    (hcages : sys.cages = w.sys.cages) : World.Inv ⟨sys, w.held⟩ := by
  have hzero := h.count_eq_zero hfresh
  refine h.write htable (hcages ▸ h.cages) (fun _ _ => rfl) (fun _ _ => rfl) (fun seg hs => ?_)
    fun hs => by cases hs
  cases hs
  refine ⟨rfl, hzero.symm, counts_empty.congr fun c => ?_, fun hm => by cases hm⟩
  exact (Nat.le_zero.mp (hzero ▸ at_le_count w.held c _)).symm

theorem World.Inv.shmget (h : w.Inv) (hfresh : w.sys.shmtable w.sys.nextid = none)
    {key shmflg : BitVec 32} {size : ℕ} {backed : Bool}
    (hs : (w.sys.shmget key size shmflg backed).map Prod.snd = some sys) :
    World.Inv ⟨sys, w.held⟩ := by
  unfold System.shmget at hs
  dsimp only at hs
  split at hs
  · split at hs <;> obtain rfl := some.inj hs <;> exact h
  · split at hs
    · cases hs
      exact h
    split at hs
    · cases hs
      exact h
    split at hs
    · cases hs
      exact h.new hfresh rfl rfl
    · cases hs

/-- A `shmdt` of an address at which nothing is attached changes nothing. -/
theorem erase_of_lookup_none (hnone : att.lookup a = none) : att.erase a = att :=
  AList.ext (kerase_of_notMem_keys (lookup_eq_none.mp hnone))

section

variable (hw : w.Inv) (hatt : w.held.lookup c = some att)
include hw hatt

/-- **A new attachment** is counted three times. -/
theorem World.Inv.attach (hperm : cage.revShm.Perm (hostList cage.base att))
    (hfree : att.lookup a = none) (hseg : w.sys.shmtable id = some seg) :
    World.Inv ⟨{ w.sys.setSegment id (seg.mapShm c) with
        cages := w.sys.cages.insert c
          { cage with revShm := cage.revShm ++ [(cage.base + a, id)] } },
      w.held.insert c (att.insert a id)⟩ := by
  have hother : ∀ id' ≠ id, Attachments.count (att.insert a id) id' = w.held.at id' c := by
    intro id' hne
    rw [count_insert hfree, if_neg (Ne.symm hne), Nat.add_zero, at_of_lookup hatt]
  refine hw.write rfl (cageOk_insert hw.cages ?_)
    (fun id' hne => count_insert_same (hother id' hne))
    (fun id' hne => at_insert_same (hother id' hne)) ?_ fun hs => by cases hs
  · rw [hostList_insert hfree]
    exact (perm_append_singleton _ _).trans (hperm.cons _)
  · rintro _ ⟨⟩
    exact (hw.segments _ _ hseg).mapShm hatt hfree

/-- What a cage has attached is in the table, and the segment has the cage in its own. -/
theorem World.Inv.attached (hid : att.lookup a = some id) :
    ∃ seg, w.sys.shmtable id = some seg ∧ w.held.at id c ≠ 0 := by
  have hpos : w.held.at id c ≠ 0 := by
    have := count_erase hid id
    rw [if_pos rfl] at this
    rw [at_of_lookup hatt]
    omega
  have hle := at_le_count w.held c id
  obtain ⟨seg, hseg⟩ := ne_none_iff_exists'.mp (hw.present id (by omega))
  exact ⟨seg, hseg, hpos⟩

/-- **An attachment that ends** is taken off all three counts, and the last one takes a segment
that is marked with it. -/
theorem World.Inv.detach (hperm : cage.revShm.Perm (hostList cage.base att))
    (hindex : cage.revShm[index]? = some (cage.base + a, id)) (hid : att.lookup a = some id)
    (hseg : w.sys.shmtable id = some seg) (hun : seg.unmapShm c = some seg')
    (htable : sys.shmtable = update w.sys.shmtable id
      (if seg'.rmid = true ∧ seg'.nattch = 0 then none else some seg'))
    (hcages : sys.cages = w.sys.cages.insert c
      { cage with revShm := Memory.swapRemove cage.revShm index }) :
    World.Inv ⟨sys, w.held.insert c (att.erase a)⟩ := by
  have hother : ∀ id' ≠ id, Attachments.count (att.erase a) id' = w.held.at id' c := by
    intro id' hne
    rw [at_of_lookup hatt, ← count_erase hid id', if_neg (Ne.symm hne), Nat.add_zero]
  obtain ⟨hnattch, hsegment⟩ := (hw.segments _ _ hseg).unmapShm hatt hid hun
  refine hw.write htable (hcages ▸ cageOk_insert hw.cages
    (swapRemove_perm_hostList hperm hindex hid))
    (fun id' hne => count_insert_same (hother id' hne))
    (fun id' hne => at_insert_same (hother id' hne)) (fun seg hs => ?_) fun hs => ?_
  · split at hs
    · cases hs
    · next hkeep =>
      cases hs
      exact hsegment fun hm => Nat.pos_of_ne_zero fun h0 => hkeep ⟨hm, h0⟩
  · split at hs
    · next hgone => exact hnattch.symm.trans hgone.2
    · cases hs

theorem World.Inv.touch : World.Inv ⟨w.sys, w.held.insert c att⟩ := by
  have hat : ∀ id, att.count id = w.held.at id c := fun id => (at_of_lookup hatt id).symm
  refine hw.of_counts rfl (fun c' => ?_) (fun id => count_insert_same (hat id))
    fun id => at_insert_same (hat id)
  by_cases hc : c' = c
  · subst hc
    rw [lookup_insert, ← hatt]
    exact hw.cages c'
  · rw [lookup_insert_ne hc]
    exact hw.cages c'

end

/-- **What an action asks for**: a host that maps the segment, cages that fork, `exec` or exit with
nothing attached, and a segment id that is free. -/
def StepOk (w : World) : Action → Prop
  | .shmget .. => w.sys.shmtable w.sys.nextid = none
  | .shmat _ _ _ mapped => mapped = true
  | .shmdt .. | .shmctlRmid _ => True
  | .fork c _ _ | .exec c _ | .exit c =>
      ∀ cage, w.sys.cages.lookup c = some cage → cage.revShm = []

instance decidableStepOk (w : World) : (act : Action) → Decidable (StepOk w act) :=
  fun act => by cases act <;> dsimp only [StepOk] <;> infer_instance

theorem World.Inv.shmat (h : w.Inv) {place : Option ℕ}
    (hplace : w.Placed (.shmat c id place true))
    (hs : (w.sys.shmat c id place true).map Prod.snd = some sys) :
    World.Inv ⟨sys, w.heldAfter (.shmat c id place true)⟩ := by
  unfold System.shmat at hs
  cases hc : w.sys.cages.lookup c with
  | none => simp [hc] at hs
  | some cage =>
    obtain ⟨att, hatt, hperm⟩ := h.liveCage hc
    simp only [hc, bind_some] at hs
    cases hseg : w.sys.shmtable id with
    | none =>
      simp only [hseg] at hs
      cases hs
      cases place <;> simpa [heldAfter, hseg] using h
    | some seg =>
      simp only [hseg] at hs
      cases place with
      | none =>
        cases hs
        exact h
      | some a =>
        cases hs
        have hheld :
            w.heldAfter (.shmat c id (some a) true) = w.held.insert c (att.insert a id) := by
          simp [heldAfter, hseg, Holdings.modify, hatt]
        rw [hheld]
        exact h.attach hatt hperm (hplace att hatt) hseg

theorem findIdx?_cases (l : List (ℕ × Shmid)) (y : ℕ) :
    (l.findIdx? (fun val => val.1 = y) = none ∧ ∀ x, (y, x) ∉ l) ∨
      ∃ index x, l.findIdx? (fun val => val.1 = y) = some index ∧ l[index]? = some (y, x) := by
  cases hf : l.findIdx? fun val => val.1 = y with
  | none =>
    refine .inl ⟨rfl, fun x hx => ?_⟩
    simpa using findIdx?_eq_none_iff.mp hf _ hx
  | some index =>
    obtain ⟨hlt, heq, -⟩ := findIdx?_eq_some_iff_getElem.mp hf
    refine .inr ⟨index, (l.get ⟨index, hlt⟩).2, rfl, ?_⟩
    rw [getElem?_eq_getElem hlt]
    exact congrArg some (Prod.ext (of_decide_eq_true heq) rfl)

theorem World.Inv.shmdt (h : w.Inv) {sysaddr : ℕ}
    (hs : (w.sys.shmdt c sysaddr).map Prod.snd = some sys) :
    World.Inv ⟨sys, w.heldAfter (.shmdt c sysaddr)⟩ := by
  unfold System.shmdt at hs
  cases hc : w.sys.cages.lookup c with
  | none => simp [hc] at hs
  | some cage =>
    obtain ⟨att, hatt, hperm⟩ := h.liveCage hc
    simp only [hc, bind_some] at hs
    by_cases halign : sysaddr % pageSize = 0
    · simp only [halign, ne_eq, not_true_eq_false, if_false] at hs
      rcases findIdx?_cases cage.revShm sysaddr with ⟨hf, hnone⟩ | ⟨index, x, hf, hget⟩
      · -- nothing is attached there
        simp only [hf] at hs
        cases hs
        by_cases hbase : cage.base ≤ sysaddr
        · have hfree := lookup_eq_none_of_forall_notMem hperm hbase hnone
          simpa [heldAfter, hc, halign, hbase, Holdings.modify, hatt,
            erase_of_lookup_none hfree] using h.touch hatt
        · simpa [heldAfter, hc, hbase] using h
      · obtain ⟨a, rfl, hid⟩ :=
          mem_hostList.mp (hperm.mem_iff.mp (mem_of_getElem? hget))
        obtain ⟨seg, hseg, hpos⟩ := h.attached hatt hid
        obtain ⟨seg', hun, -⟩ := unmapShm_spec (h.segments _ _ hseg).attached hpos
        simp only [hf, hget, bind_some, hseg, hun, map_some] at hs
        cases hs
        have hheld : w.heldAfter (.shmdt c (cage.base + a)) = w.held.insert c (att.erase a) := by
          simp [heldAfter, hc, halign, Holdings.modify, hatt]
        rw [hheld]
        refine h.detach hatt hperm hget hid hseg hun ?_ ?_ <;> split <;> rfl
    · simp only [halign, ne_eq, not_false_eq_true, if_true] at hs
      cases hs
      simpa [heldAfter, hc, halign] using h

theorem World.Inv.shmctlRmid (h : w.Inv)
    (hs : (w.sys.shmctlRmid id).map Prod.snd = some sys) : World.Inv ⟨sys, w.held⟩ := by
  unfold System.shmctlRmid at hs
  cases hseg : w.sys.shmtable id with
  | none =>
    simp only [hseg] at hs
    cases hs
    exact h
  | some seg =>
    have hok := h.segments _ _ hseg
    simp only [hseg] at hs
    cases hs
    split
    · next h0 =>
      exact h.write rfl h.cages (fun _ _ => rfl) (fun _ _ => rfl) (fun _ hs => by cases hs)
        fun _ => hok.nattch_held.symm.trans h0
    · next h0 =>
      refine h.write rfl h.cages (fun _ _ => rfl) (fun _ _ => rfl) ?_ fun hs => by cases hs
      rintro _ ⟨⟩
      exact ⟨hok.nattch_total, hok.nattch_held, hok.attached, fun _ => Nat.pos_of_ne_zero h0⟩

theorem World.Inv.count_eq_zero_of_nil (h : w.Inv) (hc : w.sys.cages.lookup c = some cage)
    (hnil : cage.revShm = []) : w.held.lookup c = some ∅ := by
  obtain ⟨att, hatt, hperm⟩ := h.liveCage hc
  rw [hnil] at hperm
  have hentries : att.entries = [] := map_eq_nil_iff.mp hperm.nil_eq.symm
  rw [hatt]
  exact congrArg some (AList.ext hentries)

theorem count_empty (id : Shmid) : Attachments.count ∅ id = 0 := rfl

section

variable (hinv : w.Inv) (hok : ∀ cage, w.sys.cages.lookup c = some cage → cage.revShm = [])
include hinv hok

theorem World.Inv.fork {child : ℕ} (hs : w.sys.fork c child base = some sys) :
    World.Inv ⟨sys, w.heldAfter (.fork c child base)⟩ := by
  unfold System.fork at hs
  split at hs
  · next cage hc hchild =>
    cases hs
    have hempty := hinv.count_eq_zero_of_nil hc (hok _ hc)
    have hnone : w.held.lookup child = none := by
      have := hinv.cages child
      rw [hchild] at this
      cases hh : w.held.lookup child with
      | none => rfl
      | some att =>
        rw [hh] at this
        exact this.elim
    have hat : ∀ id, Attachments.count ∅ id = w.held.at id child := fun id =>
      (at_of_lookup_none hnone id).symm
    simp only [heldAfter, hempty]
    exact hinv.of_counts rfl (cageOk_insert hinv.cages (List.Perm.refl _))
      (fun id => count_insert_same (hat id)) fun id => at_insert_same (hat id)
  · cases hs

theorem World.Inv.exec (hs : w.sys.exec c base = some sys) :
    World.Inv ⟨sys, w.heldAfter (.exec c base)⟩ := by
  obtain ⟨cage, hc, rfl⟩ := map_eq_some_iff.mp hs
  have hat : ∀ id, Attachments.count ∅ id = w.held.at id c := fun id =>
    (at_of_lookup (hinv.count_eq_zero_of_nil hc (hok _ hc)) id).symm
  exact hinv.of_counts rfl (cageOk_insert hinv.cages (List.Perm.refl _))
    (fun id => count_insert_same (hat id)) fun id => at_insert_same (hat id)

theorem World.Inv.exit (hs : w.sys.exit c = some sys) : World.Inv ⟨sys, w.heldAfter (.exit c)⟩ := by
  obtain ⟨cage, hc, rfl⟩ := map_eq_some_iff.mp hs
  have hat : ∀ id, w.held.at id c = 0 := fun id =>
    at_of_lookup (hinv.count_eq_zero_of_nil hc (hok _ hc)) id
  refine hinv.of_counts rfl (fun c' => ?_) (fun id => ?_) fun id => ?_
  · change CageOk ((w.sys.cages.erase c).lookup c') ((w.held.erase c).lookup c')
    by_cases hcc : c' = c
    · subst hcc
      rw [lookup_erase, lookup_erase]
      trivial
    · rw [lookup_erase_ne hcc, lookup_erase_ne hcc]
      exact hinv.cages c'
  · have := count_erase_add w.held c id
    rwa [hat, Nat.add_zero] at this
  · change Holdings.at (w.held.erase c) id = _
    rw [at_erase, ← hat id, update_eq_self]

end

/-- **Every good step keeps the three counts.** -/
theorem inv_step {act : Action} (h : w.Inv) (hok : StepOk w act) (hs : w.step act = some w') :
    w'.Inv := by
  unfold World.step at hs
  split at hs
  · next hplace =>
    obtain ⟨sys, hsys, rfl⟩ := map_eq_some_iff.mp hs
    cases act with
    | shmget key size shmflg backed => exact h.shmget hok hsys
    | shmat c id place mapped =>
      obtain rfl : mapped = true := hok
      exact h.shmat hplace hsys
    | shmdt c sysaddr => exact h.shmdt hsys
    | shmctlRmid id => exact h.shmctlRmid hsys
    | fork c child base => exact h.fork hok hsys
    | exec c base => exact h.exec hok hsys
    | exit c => exact h.exit hok hsys
  · cases hs

/-! ## Runs -/

/-- Cages that are written down one after the other, with nothing attached. -/
theorem boot_fold (cages : List (ℕ × ℕ)) (cs : AList fun _ : ℕ => Cage) (held : Holdings)
    (h : ∀ c, CageOk (cs.lookup c) (held.lookup c)) (hzero : ∀ id, held.count id = 0) :
    (∀ c, CageOk ((cages.foldl (fun t x => t.insert x.1 ⟨x.2, []⟩) cs).lookup c)
      (AList.lookup c (cages.foldl (fun t x => t.insert x.1 ∅) held))) ∧
    ∀ id, Holdings.count (cages.foldl (fun t x => t.insert x.1 ∅) held) id = 0 := by
  induction cages generalizing cs held with
  | nil => exact ⟨h, hzero⟩
  | cons x cages ih =>
    refine ih _ _ (cageOk_insert h (List.Perm.refl _)) fun id => ?_
    have := count_insert_add held x.1 ∅ id
    rw [hzero id, count_empty] at this
    exact Nat.eq_zero_of_add_eq_zero_right this

theorem inv_boot (cages : List (ℕ × ℕ)) : (World.boot cages).Inv := by
  obtain ⟨hcages, hzero⟩ := boot_fold cages ∅ ∅ (fun _ => trivial) fun _ => rfl
  exact ⟨hcages, fun _ _ hs => (by cases hs), fun id hpos => absurd (hzero id) hpos.ne'⟩

/-- **The three records agree**, an attached segment is there, and one that is marked for removal
is attached: it goes when its last attachment does. -/
structure AttachmentsCounted (w : World) : Prop where
  counted : ∀ id seg, w.sys.shmtable id = some seg →
    seg.nattch = seg.attachedCages.total (fun n => n) ∧ seg.nattch = w.held.count id
  present : ∀ id, 0 < w.held.count id → w.sys.shmtable id ≠ none
  marked : ∀ id seg, w.sys.shmtable id = some seg → seg.rmid = true → 0 < w.held.count id

/-- **The counts along a run**: from any cages, through any actions that meet `StepOk`. -/
theorem attachmentsCounted_run (cages : List (ℕ × ℕ)) (acts : List Action)
    (hok : StepsOk World.step StepOk (World.boot cages) acts)
    (hrun : runSteps World.step (World.boot cages) acts = some w) : AttachmentsCounted w := by
  have h := inv_of_stepsOk (fun _ _ _ h hok hs => inv_step h hok hs) (inv_boot cages) hok hrun
  refine ⟨fun id seg hs => ?_, h.present, fun id seg hs hm => ?_⟩
  · exact ⟨(h.segments id seg hs).nattch_total, (h.segments id seg hs).nattch_held⟩
  · exact (h.segments id seg hs).nattch_held ▸ (h.segments id seg hs).marked hm

/-- Attach, detach, attach again, mark. -/
def attachTwice : List Action :=
  [.shmget 5 100 ipcCreat true, .shmat 1 1 (some 4096) true, .shmdt 1 69632,
    .shmat 1 1 (some 8192) true, .shmctlRmid 1]

theorem attachmentsCounted_attachTwice :
    ∃ w, runSteps World.step (World.boot [(1, 65536)]) attachTwice = some w ∧
      AttachmentsCounted w :=
  ⟨_, rfl, attachmentsCounted_run [(1, 65536)] attachTwice (by decide) rfl⟩

/-- **What is not counted**: a child's attachments, the end of those of a cage that runs another
program or exits, and a host that refuses the mapping. -/
theorem not_attachmentsCounted :
    (∃ w, runSteps World.step (World.boot [(1, 65536)]) [.shmget 5 100 ipcCreat true,
      .shmat 1 1 (some 4096) true, .fork 1 2 131072] = some w ∧ ¬ AttachmentsCounted w) ∧
    (∃ w, runSteps World.step (World.boot [(1, 65536)]) [.shmget 5 100 ipcCreat true,
      .shmat 1 1 (some 4096) true, .exec 1 65536] = some w ∧ ¬ AttachmentsCounted w) ∧
    (∃ w, runSteps World.step (World.boot [(1, 65536)]) [.shmget 5 100 ipcCreat true,
      .shmat 1 1 (some 4096) true, .exit 1] = some w ∧ ¬ AttachmentsCounted w) ∧
    ∃ w, runSteps World.step (World.boot [(1, 65536)]) [.shmget 5 100 ipcCreat true,
      .shmat 1 1 (some 4096) false] = some w ∧ ¬ AttachmentsCounted w := by
  refine ⟨⟨_, rfl, fun h => ?_⟩, ⟨_, rfl, fun h => ?_⟩, ⟨_, rfl, fun h => ?_⟩,
    ⟨_, rfl, fun h => ?_⟩⟩
  all_goals exact absurd (h.counted 1 _ rfl).2 (by decide)

end LindWasm.Shm
