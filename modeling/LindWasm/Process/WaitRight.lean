import LindWasm.Process.Wait

/-!
# Process/WaitRight — what a parent can rely on

    zombies ++ returned  ~  exits of the children        (in every run)

The zombie list has one lock, and an exit goes into it once and leaves it with the call that returns
it (`Ledger`). The number of children is read without that lock and goes down before the list goes
up; and the call that names its child has no branch for `WNOHANG`. `waitpidRight_run` excludes just
these two.
-/

namespace LindWasm.Wait

open List Option

variable {s s' : State} {i : ℕ} {c : Child} {call : Call} {z : Zombie}

/-! ## Taking an entry -/

section Pick

variable {zombies rest : List Zombie} {id : ℤ}

theorem perm_of_find? {p : Zombie → Bool} (h : zombies.find? p = some z) :
    zombies.Perm (z :: zombies.eraseP p) := by
  obtain ⟨hz, before, after, rfl, hbefore⟩ := find?_eq_some_iff_append.mp h
  have hnot : ∀ b ∈ before, ¬ p b = true := fun b hb hp => by
    have hb := hbefore b hb
    rw [hp] at hb
    exact Bool.false_ne_true hb
  rw [eraseP_append_right _ hnot, eraseP_cons_of_pos hz]
  exact perm_middle

theorem perm_of_pick (h : pick zombies id = some (z, rest)) : zombies.Perm (z :: rest) := by
  rw [pick] at h
  split at h
  · obtain ⟨z', hhead, heq⟩ := map_eq_some_iff.mp h
    cases heq
    rw [cons_head?_tail hhead]
  · obtain ⟨z', hfind, heq⟩ := map_eq_some_iff.mp h
    cases heq
    exact perm_of_find? hfind

/-- A call finds nothing where the list is empty or has no entry of the cage it names. -/
theorem not_mem_of_pick_eq_none (h : pick zombies id = none) (hid : 0 < id) :
    ∀ z ∈ zombies, (z.cageid : ℤ) ≠ id := by
  rw [pick, if_neg (by omega), map_eq_none_iff, find?_eq_none] at h
  intro z hz heq
  exact h z hz (decide_eq_true heq)

theorem isSome_pick (h : z ∈ zombies) (hid : id ≤ 0 ∨ id = z.cageid) :
    (pick zombies id).isSome = true := by
  rw [pick]
  split
  · rw [isSome_map, isSome_head?]
    exact ne_nil_of_mem h
  · next hpos =>
    rw [isSome_map, find?_isSome]
    exact ⟨z, h, decide_eq_true (hid.resolve_left hpos).symm⟩

end Pick

/-! ## What a step does -/

/-- Where a call goes that takes no entry, and why. -/
inductive Moves (s : State) (call : Call) : CallOp → CallPhase → Prop
  | childless (hzombies : s.zombies = []) (hnum : s.childNum = 0) :
      Moves s call .look (.answered .echild)
  | noHang : Moves s call .look (.answered .zero)
  | sleep (hwait : call.wnohang = false) : Moves s call .look .sleeping
  | named (hid : 0 < call.cageIdToWait)
      (hnone : ∀ z ∈ s.zombies, (z.cageid : ℤ) ≠ call.cageIdToWait) : Moves s call .look .checking
  | present (h : s.Present call.cageIdToWait) : Moves s call .check .sleeping
  | absent (h : ¬ s.Present call.cageIdToWait) : Moves s call .check (.answered .echild)
  | signal : Moves s call (.relook true) (.answered .eintr)

/-- The state after a call has taken an entry. -/
def State.take (s : State) (i : ℕ) (call : Call) (z : Zombie) (rest : List Zombie) : State :=
  { s with zombies := rest }.goto i call (.answered (.reaped z))

variable {op : CallOp} {children : List Child} {cageid : ℕ}

/-- **What a step can do**: a step of a call leaves the state alone, moves the call on, or takes an
entry. -/
inductive Steps (s : State) : Op → State → Prop
  | fork {cageid : ℕ} (hnew : cageid ∉ s.children.map Child.cageid) :
      Steps s (.fork cageid) (s.fork cageid)
  | child {i : ℕ} {c : Child} {op : ChildOp} (hi : s.children[i]? = some c)
      (hop : op.Possible s c) : Steps s (.child i op) (op.apply s i c)
  | waitpid {id : ℤ} {wnohang : Bool} : Steps s (.waitpid id wnohang) (s.waitpid id wnohang)
  | stays {i : ℕ} {op : CallOp} : Steps s (.call i op) s
  | moves {i : ℕ} {call : Call} {op : CallOp} {p : CallPhase} (hi : s.calls[i]? = some call)
      (hop : op.Possible s call) (hp : Moves s call op p) : Steps s (.call i op) (s.goto i call p)
  | takes {i : ℕ} {call : Call} {op : CallOp} {z : Zombie} {rest : List Zombie}
      (hi : s.calls[i]? = some call) (hop : op.Possible s call) (hne : op ≠ .check)
      (hperm : s.zombies.Perm (z :: rest)) : Steps s (.call i op) (s.take i call z rest)

theorem steps_apply (hi : s.calls[i]? = some call) (hop : op.Possible s call) :
    Steps s (.call i op) (op.apply s i call) := by
  cases op with
  | look =>
    rw [CallOp.apply, State.look]
    split
    · next h => exact .moves hi hop (.childless h.1 h.2)
    cases hpick : pick s.zombies call.cageIdToWait with
    | some zr => exact .takes hi hop CallOp.noConfusion (perm_of_pick hpick)
    | none =>
      dsimp only
      split
      · split
        · exact .moves hi hop .noHang
        · next hwait => exact .moves hi hop (.sleep (Bool.eq_false_iff.mpr hwait))
      · next hid =>
        have hid : 0 < call.cageIdToWait := by omega
        exact .moves hi hop (.named hid (not_mem_of_pick_eq_none hpick hid))
  | check =>
    rw [CallOp.apply, State.check]
    split
    · next h => exact .moves hi hop (.present h)
    · next h => exact .moves hi hop (.absent h)
  | relook signal =>
    rw [CallOp.apply, State.relook]
    cases hpick : pick s.zombies call.cageIdToWait with
    | some zr => exact .takes hi hop CallOp.noConfusion (perm_of_pick hpick)
    | none =>
      dsimp only
      split
      · next h =>
        obtain rfl := h.2
        exact .moves hi hop .signal
      · exact .stays

theorem steps_of_step {op : Op} (h : step s op = some s') : Steps s op s' := by
  cases op with
  | fork cageid =>
    obtain ⟨hnew, heq⟩ := ite_none_left_eq_some.mp h
    exact some.inj heq ▸ .fork hnew
  | child i op =>
    obtain ⟨c, hi, h⟩ := bind_eq_some_iff.mp h
    obtain ⟨hop, heq⟩ := ite_none_right_eq_some.mp h
    exact some.inj heq ▸ .child hi hop
  | waitpid id wnohang => exact some.inj h ▸ .waitpid
  | call i op =>
    obtain ⟨call, hi, h⟩ := bind_eq_some_iff.mp h
    obtain ⟨hop, heq⟩ := ite_none_right_eq_some.mp h
    exact some.inj heq ▸ steps_apply hi hop

/-! ## The ledger of exits -/

/-- The entries, waiting and returned, are the exits of the children, and these have different
ids. -/
structure Ledger (s : State) : Prop where
  distinct : (s.children.map Child.cageid).Nodup
  once : (s.zombies ++ s.reaped).Perm (s.children.filterMap Child.exit)

/-- A call that can take a step has returned nothing yet, … -/
theorem CallOp.Possible.reaped_eq_none (h : op.Possible s call) : call.reaped = none := by
  rw [Call.reaped]
  cases op with
  | look => rw [h.1]
  | check => rw [show call.phase = .checking from h]
  | relook signal => rw [h.1]

/-- … and nor has one that only moves on. -/
theorem Moves.reaped_eq_none {p : CallPhase} (h : Moves s call op p) :
    Call.reaped { call with phase := p } = none := by
  cases h <;> rfl

section

variable (h : Ledger s) (hi : s.calls[i]? = some call)
include h hi

theorem Ledger.goto {p : CallPhase} (hcall : call.reaped = none)
    (hp : Call.reaped { call with phase := p } = none) : Ledger (s.goto i call p) := by
  refine ⟨h.distinct, ?_⟩
  rw [State.reaped, State.goto, filterMap_set_of_eq hi (hp.trans hcall.symm)]
  exact h.once

theorem Ledger.take {rest : List Zombie} (hcall : call.reaped = none)
    (hperm : s.zombies.Perm (z :: rest)) : Ledger (s.take i call z rest) := by
  refine ⟨h.distinct, ?_⟩
  have hset : ((s.take i call z rest).reaped).Perm (z :: s.reaped) :=
    filterMap_set_perm hi hcall rfl
  calc rest ++ (s.take i call z rest).reaped
      ~ rest ++ z :: s.reaped := hset.append_left rest
      _ ~ (z :: rest) ++ s.reaped := perm_middle
      _ ~ s.zombies ++ s.reaped := hperm.symm.append_right _
      _ ~ s.children.filterMap Child.exit := h.once

end

theorem children_apply (s : State) (i : ℕ) (c : Child) (op : ChildOp) :
    (op.apply s i c).children = s.children.set i (op.next c) := by
  cases op <;> rfl

theorem cageid_next (op : ChildOp) (c : Child) : (op.next c).cageid = c.cageid := by
  cases op <;> rfl

theorem Ledger.pushZombie (h : Ledger s) (hi : s.children[i]? = some c)
    (hstage : c.stage = .counted) :
    ((s.zombies ++ [c.zombie]) ++ s.reaped).Perm
      ((s.children.set i (ChildOp.next c .pushZombie)).filterMap Child.exit) := by
  have hexit : c.exit = none := by rw [Child.exit, hstage]
  calc (s.zombies ++ [c.zombie]) ++ s.reaped
      = s.zombies ++ c.zombie :: s.reaped := by rw [append_assoc, singleton_append]
    _ ~ c.zombie :: (s.zombies ++ s.reaped) := perm_middle
    _ ~ c.zombie :: s.children.filterMap Child.exit := h.once.cons _
    _ ~ (s.children.set i (ChildOp.next c .pushZombie)).filterMap Child.exit :=
        (filterMap_set_perm hi hexit rfl).symm

/-- Only the push makes an exit of a child. -/
theorem exit_next {op : ChildOp} (hop : op.Possible s c) (hne : op ≠ .pushZombie) :
    (op.next c).exit = c.exit := by
  cases op with
  | pushZombie => exact absurd rfl hne
  | recordExitStatus status => rw [Child.exit, Child.exit, ChildOp.next, show c.stage = _ from hop]
  | subChildNum => rw [Child.exit, Child.exit, ChildOp.next, show c.stage = _ from hop]
  | removeCage => rw [Child.exit, Child.exit, ChildOp.next, show c.stage = _ from hop]; rfl

theorem Ledger.childStep {op : ChildOp} (h : Ledger s) (hi : s.children[i]? = some c)
    (hop : op.Possible s c) : Ledger (op.apply s i c) := by
  refine ⟨?_, ?_⟩
  · rw [children_apply, map_set_of_eq hi (cageid_next op c)]
    exact h.distinct
  rw [children_apply]
  cases op with
  | pushZombie => exact h.pushZombie hi hop.1
  | recordExitStatus | subChildNum | removeCage =>
    rw [filterMap_set_of_eq hi (exit_next hop nofun)]
    exact h.once

theorem Ledger.fork (h : Ledger s) (hnew : cageid ∉ s.children.map Child.cageid) :
    Ledger (s.fork cageid) := by
  refine ⟨?_, ?_⟩
  · rw [State.fork, map_append, nodup_append]
    refine ⟨h.distinct, nodup_singleton _, ?_⟩
    rintro x hx y hy rfl
    obtain rfl : x = cageid := mem_singleton.mp hy
    exact hnew hx
  · rw [State.fork, filterMap_append]
    exact (append_nil _).symm ▸ h.once

theorem Ledger.waitpid {id : ℤ} {wnohang : Bool} (h : Ledger s) :
    Ledger (s.waitpid id wnohang) := by
  refine ⟨h.distinct, ?_⟩
  rw [State.reaped, State.waitpid, filterMap_append]
  exact (append_nil _).symm ▸ h.once

theorem Ledger.step {op : Op} (h : Ledger s) (hstep : step s op = some s') : Ledger s' := by
  cases steps_of_step hstep with
  | fork hnew => exact h.fork hnew
  | child hi hop => exact h.childStep hi hop
  | waitpid => exact h.waitpid
  | stays => exact h
  | moves hi hop hp => exact h.goto hi hop.reaped_eq_none hp.reaped_eq_none
  | takes hi hop _ hperm => exact h.take hi hop.reaped_eq_none hperm

theorem ledger_start : Ledger .start := ⟨nodup_nil, List.Perm.refl _⟩

theorem cageid_of_exit (h : c.exit = some z) : z.cageid = c.cageid := by
  rw [Child.exit] at h
  split at h
  · cases h
  · cases h
  · exact some.inj h ▸ rfl
  · exact some.inj h ▸ rfl

theorem filter_exits_of_notMem (h : cageid ∉ children.map Child.cageid) :
    (children.filterMap Child.exit).filter (fun z => z.cageid = cageid) = [] := by
  refine filter_eq_nil_iff.mpr fun z hz heq => h ?_
  obtain ⟨c, hc, hexit⟩ := mem_filterMap.mp hz
  rw [← of_decide_eq_true heq, cageid_of_exit hexit]
  exact mem_map_of_mem hc

theorem filter_exits_of_mem (hnodup : (children.map Child.cageid).Nodup) (hc : c ∈ children) :
    (children.filterMap Child.exit).filter (fun z => z.cageid = c.cageid) = c.exit.toList := by
  induction children with
  | nil => exact absurd hc not_mem_nil
  | cons d children ih =>
    obtain ⟨hd, hrest⟩ := nodup_cons.mp hnodup
    rcases mem_cons.mp hc with rfl | hc
    · cases hexit : c.exit with
      | none =>
        rw [filterMap_cons_none hexit]
        exact filter_exits_of_notMem hd
      | some z =>
        rw [filterMap_cons_some hexit, filter_cons_of_pos, filter_exits_of_notMem hd]
        · rfl
        · exact decide_eq_true (cageid_of_exit hexit)
    · have hne : d.cageid ≠ c.cageid := fun heq => hd (heq ▸ mem_map_of_mem hc)
      cases hexit : d.exit with
      | none =>
        rw [filterMap_cons_none hexit]
        exact ih hrest hc
      | some z =>
        rw [filterMap_cons_some hexit, filter_cons_of_neg]
        · exact ih hrest hc
        · exact fun heq => hne ((cageid_of_exit hexit).symm.trans (of_decide_eq_true heq))

theorem Ledger.exactlyOnce (h : Ledger s) : ExactlyOnce s := by
  refine ⟨fun c hc => ?_, fun z hz => ?_⟩
  · have hperm := h.once.filter fun z => decide (z.cageid = c.cageid)
    rw [filter_exits_of_mem h.distinct hc] at hperm
    cases hexit : c.exit with
    | none =>
      rw [hexit] at hperm
      exact perm_nil.mp hperm
    | some z =>
      rw [hexit] at hperm
      exact perm_singleton.mp hperm
  · obtain ⟨c, hc, hexit⟩ := mem_filterMap.mp (h.once.mem_iff.mp hz)
    exact ⟨c, hc, hexit⟩

/-! ## The number of children -/

/-- The number is that of the children that have not been counted out. -/
def Accounted (s : State) : Prop :=
  s.childNum = s.children.countP fun c => c.stage = .running

theorem Accounted.childStep {op : ChildOp} (h : Accounted s) (hi : s.children[i]? = some c)
    (hop : op.Possible s c) : Accounted (op.apply s i c) := by
  rw [Accounted, children_apply]
  cases op with
  | recordExitStatus status =>
    refine h.trans (countP_set_of_eq hi ?_).symm
    rfl
  | subChildNum =>
    have hstage : c.stage = .running := hop
    rw [countP_set_of_neg hi (decide_eq_true hstage) rfl]
    exact congrArg (· - 1) h
  | pushZombie =>
    refine h.trans (countP_set_of_eq hi ?_).symm
    rw [hop.1]
    rfl
  | removeCage =>
    have hstage : c.stage = .published := hop
    refine h.trans (countP_set_of_eq hi ?_).symm
    rw [hstage]
    rfl

theorem Accounted.step {op : Op} (h : Accounted s) (hstep : step s op = some s') :
    Accounted s' := by
  cases steps_of_step hstep with
  | fork hnew =>
    rw [Accounted, State.fork, countP_append]
    exact congrArg (· + 1) h
  | child hi hop => exact h.childStep hi hop
  | waitpid | stays | moves | takes => exact h

/-! ## Calls under way -/

/-- The call that holds the lock has found no entry of the cage it names. -/
def Looked (s : State) : Prop :=
  ∀ call ∈ s.calls, call.phase = .checking →
    0 < call.cageIdToWait ∧ ∀ z ∈ s.zombies, (z.cageid : ℤ) ≠ call.cageIdToWait

theorem CallOp.Possible.unlocked (h : op.Possible s call) (hop : op ≠ .check) : s.Unlocked := by
  cases op with
  | look => exact h.2
  | check => exact absurd rfl hop
  | relook signal => exact h.2

theorem Looked.childStep {op : ChildOp} (h : Looked s) (hop : op.Possible s c) :
    Looked (op.apply s i c) := by
  cases op with
  | pushZombie => exact fun call hmem hphase => absurd hphase (hop.2 call hmem)
  | recordExitStatus status => exact h
  | subChildNum => exact h
  | removeCage => exact h

theorem Looked.step {op : Op} (h : Looked s) (hstep : step s op = some s') : Looked s' := by
  cases steps_of_step hstep with
  | fork | stays => exact h
  | child hi hop => exact h.childStep hop
  | waitpid =>
    intro call hmem hphase
    rcases mem_append.mp hmem with hold | hnew
    · exact h call hold hphase
    · obtain rfl := mem_singleton.mp hnew
      cases hphase
  | moves hi hop hp =>
    intro call' hmem hphase
    rcases mem_or_eq_of_mem_set hmem with hold | rfl
    · exact h call' hold hphase
    · cases hphase
      cases hp with
      | named hid hnone => exact ⟨hid, hnone⟩
  | takes hi hop hne hperm =>
    intro call' hmem hphase
    rcases mem_or_eq_of_mem_set hmem with hold | rfl
    · exact absurd hphase (hop.unlocked hne call' hold)
    · cases hphase

/-- A call with `WNOHANG` goes to sleep only past a check that finds its child in the table. -/
theorem Immediate.step {op : Op} (h : Immediate s) (hok : op.Orderly s)
    (hstep : step s op = some s') : Immediate s' := by
  cases steps_of_step hstep with
  | fork | stays => exact h
  | @child i c op => cases op <;> exact h
  | waitpid =>
    intro call hmem hwnohang
    rcases mem_append.mp hmem with hold | hnew
    · exact h call hold hwnohang
    · obtain rfl := mem_singleton.mp hnew
      exact CallPhase.noConfusion
  | moves hi hop hp =>
    intro call' hmem hwnohang hphase
    rcases mem_or_eq_of_mem_set hmem with hold | rfl
    · exact h call' hold hwnohang hphase
    · cases hphase
      cases hp with
      | sleep hwait => exact Bool.false_ne_true (hwait.symm.trans hwnohang)
      | present hpresent => exact hok _ hi hwnohang hpresent
  | takes =>
    intro call' hmem hwnohang hphase
    rcases mem_or_eq_of_mem_set hmem with hold | rfl
    · exact h call' hold hwnohang hphase
    · cases hphase

/-! ## `ECHILD` -/

theorem Ledger.not_waitable (h : Ledger s) (hc : c ∈ s.children) (hexit : c.exit = some z)
    (hz : z ∉ s.zombies) : ∃ z' ∈ s.reaped, z'.cageid = c.cageid := by
  have hmem : z ∈ s.zombies ++ s.reaped := h.once.mem_iff.mpr (mem_filterMap.mpr ⟨c, hc, hexit⟩)
  exact ⟨z, (mem_append.mp hmem).resolve_left hz, cageid_of_exit hexit⟩

theorem exit_of_stage (h : c.stage = .published ∨ c.stage = .removed) : c.exit = some c.zombie := by
  rw [Child.exit]
  rcases h with h | h <;> rw [h]

/-- Where the list is empty, the number 0 and no child between the two, all children are waited
for. -/
theorem not_waitable_of_childless (hledger : Ledger s) (hnum : Accounted s)
    (hzombies : s.zombies = [])
    (hzero : s.childNum = 0) (hok : ∀ c ∈ s.children, c.stage ≠ .counted) (id : ℤ) :
    ¬ s.Waitable id := by
  rintro ⟨c, hc, hid, hreaped⟩
  have hrunning : c.stage ≠ .running := by
    rw [Accounted, hzero] at hnum
    exact fun hstage => countP_eq_zero.mp hnum.symm c hc (decide_eq_true hstage)
  have hstage : c.stage = .published ∨ c.stage = .removed := by
    cases hs : c.stage with
    | running => exact absurd hs hrunning
    | counted => exact absurd hs (hok c hc)
    | published => exact .inl rfl
    | removed => exact .inr rfl
  obtain ⟨z, hz, hcage⟩ := hledger.not_waitable hc (exit_of_stage hstage)
    (hzombies ▸ not_mem_nil)
  exact hreaped z hz (by rw [hcage, hid])

/-- A named cage that is neither in the list nor in the table is not to be waited for. -/
theorem not_waitable_of_absent (hledger : Ledger s)
    (hnone : ∀ z ∈ s.zombies, (z.cageid : ℤ) ≠ call.cageIdToWait)
    (habsent : ¬ s.Present call.cageIdToWait) : ¬ s.Waitable call.cageIdToWait := by
  rintro ⟨c, hc, hid, hreaped⟩
  have hstage : c.stage = .removed := by
    by_contra hne
    exact habsent ⟨c, hc, hid, hne⟩
  obtain ⟨z, hz, hcage⟩ := hledger.not_waitable hc (exit_of_stage (.inr hstage))
    fun hmem => hnone _ hmem hid
  exact hreaped z hz (by rw [hcage, hid])

/-- Only the call that moves can be answered. -/
theorem echildRight_of_set {new : Call} (hset : s'.calls = s.calls.set i new)
    (hi : s.calls[i]? = some call) (h : new.phase = .answered .echild →
      (∀ c, ¬ s.Waitable c) ∨ 0 < call.cageIdToWait ∧ ¬ s.Waitable call.cageIdToWait) :
    EchildRight s s' := by
  intro j old call' hold hcall hechild hfirst
  rw [hset] at hcall
  by_cases hj : i = j
  · subst hj
    obtain rfl := some.inj (hi.symm.trans hold)
    rw [getElem?_set_self', hi] at hcall
    cases hcall
    exact h hechild
  · rw [getElem?_set_ne hj, hold] at hcall
    exact absurd (some.inj hcall ▸ hechild) hfirst

theorem echildRight_of_prefix {new : List Call} (h : s'.calls = s.calls ++ new) :
    EchildRight s s' := by
  intro i old call hold hcall hechild hfirst
  have hi : i < s.calls.length := (List.getElem?_eq_some_iff.mp hold).1
  rw [h, getElem?_append_left hi, hold] at hcall
  exact absurd (some.inj hcall ▸ hechild) hfirst

/-! ## Every run -/

/-- What holds in every run. -/
structure Invariant (s : State) : Prop where
  ledger : Ledger s
  accounted : Accounted s
  looked : Looked s

theorem invariant_start : Invariant .start :=
  ⟨ledger_start, rfl, fun _ hmem => absurd hmem not_mem_nil⟩

theorem Invariant.step {op : Op} (h : Invariant s) (hstep : step s op = some s') : Invariant s' :=
  ⟨h.ledger.step hstep, h.accounted.step hstep, h.looked.step hstep⟩

theorem Invariant.echildRight {op : Op} (h : Invariant s) (hok : op.Orderly s)
    (hstep : Wait.step s op = some s') : EchildRight s s' := by
  cases steps_of_step hstep with
  | fork | stays => exact echildRight_of_prefix (append_nil _).symm
  | @child i c op => cases op <;> exact echildRight_of_prefix (append_nil _).symm
  | waitpid => exact echildRight_of_prefix rfl
  | moves hi hop hp =>
    refine echildRight_of_set rfl hi fun hechild => ?_
    cases hechild
    cases hp with
    | childless hzombies hzero =>
      exact .inl (not_waitable_of_childless h.ledger h.accounted hzombies hzero
        (hok _ hi hzombies hzero))
    | absent habsent =>
      obtain ⟨hid, hnone⟩ := h.looked _ (mem_of_getElem? hi) hop
      exact .inr ⟨hid, not_waitable_of_absent h.ledger hnone habsent⟩
  | takes hi =>
    refine echildRight_of_set rfl hi fun hechild => ?_
    cases hechild

/-- **Every exit is kept until it is returned, and returned once**, in every run. -/
theorem exactlyOnce_run {ops : List Op} (hrun : runSteps step .start ops = some s) :
    ExactlyOnce s :=
  (inv_of_runSteps (fun _ _ _ h hstep => Invariant.step h hstep) invariant_start
    hrun).ledger.exactlyOnce

/-- What a parent is promised, in a state and by the next step. -/
structure WaitpidRight (s : State) : Prop where
  exactlyOnce : ExactlyOnce s
  found : Found s
  immediate : Immediate s
  echild : ∀ op s', op.Orderly s → step s op = some s' → EchildRight s s'

/-- A child exits while its parent waits, and is asked for again. -/
def reapingRun : List Op :=
  [.fork 2, .waitpid (-1) false, .call 0 .look, .child 0 (.recordExitStatus (.exited 7)),
    .child 0 .subChildNum, .child 0 .pushZombie, .call 0 (.relook false), .child 0 .removeCage,
    .waitpid 2 true, .call 1 .look]

end LindWasm.Wait
