import Mathlib.Data.Int.Notation
import LindWasm.Machinery.Run

/-!
# Process/CloneSlot — the return value of `fork`, handed over to its replay

    clone --set--> pending_clone_visible_retval --take--> replay of the clone, in the parent
                              ▴
           one slot for a cage, its threads and all it forks, until an exec

A clone stores what its caller is to see and unwinds the stack; when the stack is rewound, the
replayed call takes the value out again. The slot is cloned into every child, so a second clone
that comes between overwrites it. `own_iff_alone`: each replay takes what its own call stored
exactly if no clone stores while another is on its way to its replay.
-/

namespace LindWasm.Clone

open Function Option List

/-! ## Contexts -/

/-- What Asyncify does with the stack of a context: nothing, or rewind it to the call `call`, which
stored `stored`, with the result `res`. -/
inductive AsyncifyState where
  | normal
  | rewind (call : ℕ) (stored res : ℤ)
  deriving DecidableEq

/-- The context of a thread of a cage; `slot` is the slot its `Arc` points to. -/
structure LindCtx where
  cageid : ℤ
  tid : ℤ
  slot : ℕ
  asyncify : AsyncifyState
  deriving DecidableEq

/-- The context of a forked cage. Its stack is rewound to the same call with the result zero. -/
def LindCtx.forkProcess (ctx : LindCtx) (call : ℕ) (stored childCageid : ℤ) : LindCtx :=
  ⟨childCageid, 1, ctx.slot, .rewind call stored 0⟩

/-- …and that of a new thread. -/
def LindCtx.forkThread (ctx : LindCtx) (call : ℕ) (stored nextTid : ℤ) : LindCtx :=
  ⟨ctx.cageid, nextTid, ctx.slot, .rewind call stored 0⟩

/-- What the replay of a call took from the slot, with the call that had stored it. -/
structure Receipt where
  call : ℕ
  stored : ℤ
  res : ℤ
  taken : Option (ℕ × ℤ)
  deriving DecidableEq

/-- What the call returns to its caller: the value taken, if it is positive. -/
def Receipt.returned (r : Receipt) : ℤ :=
  match r.taken with
  | some (_, retval) => if 0 < retval then retval else r.res
  | none => r.res

/-- The slots, the contexts, how many calls and slots there were, and the replays so far. -/
structure Runtime where
  slots : ℕ → Option (ℕ × ℤ)
  ctxs : List LindCtx
  calls : ℕ
  arcs : ℕ
  receipts : List Receipt

/-- One cage with one thread. -/
def Runtime.init : Runtime := ⟨fun _ => none, [⟨1, 1, 0, .normal⟩], 0, 1, []⟩

/-! ## Clones and replays -/

variable (s : Runtime) (i : ℕ) {slot call : ℕ} {stored : ℤ}

/-- The normal path of a clone that goes through: the value `make_syscall` returned is stored, the
parent is to be rewound with `res`, and a child is there. -/
def Runtime.cloned (ctx child : LindCtx) (retval res : ℤ) : Runtime where
  slots := update s.slots ctx.slot (some (s.calls, retval))
  ctxs := s.ctxs.set i { ctx with asyncify := .rewind s.calls retval res } ++ [child]
  calls := s.calls + 1
  arcs := s.arcs
  receipts := s.receipts

/-- The normal path of a clone that does not unwind, refused by a grate or failed: the value is
stored all the same, and returned at once. -/
def Runtime.refused (ctx : LindCtx) (retval : ℤ) : Runtime where
  slots := update s.slots ctx.slot (some (s.calls, retval))
  ctxs := s.ctxs
  calls := s.calls + 1
  arcs := s.arcs
  receipts := s.receipts

/-- The replay: only a positive result, the parent's, looks into the slot. -/
def Runtime.replayed (ctx : LindCtx) (call : ℕ) (stored res : ℤ) : Runtime :=
  let ctxs := s.ctxs.set i { ctx with asyncify := .normal }
  if 0 < res then
    ⟨update s.slots ctx.slot none, ctxs, s.calls, s.arcs,
      s.receipts ++ [⟨call, stored, res, s.slots ctx.slot⟩]⟩
  else ⟨s.slots, ctxs, s.calls, s.arcs, s.receipts⟩

/-- A context that is being rewound comes to the call. -/
def Runtime.replay (ctx : LindCtx) : Option Runtime :=
  match ctx.asyncify with
  | .normal => none
  | .rewind call stored res => some (s.replayed i ctx call stored res)

/-- A new program gets a context of its own, with a new slot. -/
def Runtime.execed (ctx : LindCtx) : Runtime where
  slots := update s.slots s.arcs none
  ctxs := s.ctxs.set i ⟨ctx.cageid, 1, s.arcs, .normal⟩
  calls := s.calls
  arcs := s.arcs + 1
  receipts := s.receipts

inductive CloneOp where
  | fork (i : ℕ) (childCageid retval : ℤ)
  | thread (i : ℕ) (nextTid retval : ℤ)
  | refused (i : ℕ) (retval : ℤ)
  | replay (i : ℕ)
  | exec (i : ℕ)

/-- Context `i`, if its stack is not being rewound. -/
def Runtime.running : Option LindCtx :=
  s.ctxs[i]?.filter (·.asyncify = .normal)

def step : CloneOp → Option Runtime
  | .fork i childCageid retval => (s.running i).map fun ctx =>
      s.cloned i ctx (ctx.forkProcess s.calls retval childCageid) retval childCageid
  | .thread i nextTid retval => (s.running i).map fun ctx =>
      s.cloned i ctx (ctx.forkThread s.calls retval nextTid) retval nextTid
  | .refused i retval => (s.running i).map fun ctx => s.refused ctx retval
  | .replay i => s.ctxs[i]?.bind (s.replay i)
  | .exec i => (s.running i).map (s.execed i)

/-! ## Whose value a replay takes -/

/-- The replay took what its own call had stored. -/
def Receipt.Own (r : Receipt) : Prop := r.taken = some (r.call, r.stored)

instance : DecidablePred Receipt.Own := fun r =>
  inferInstanceAs (Decidable (r.taken = some (r.call, r.stored)))

/-- The context is a parent on its way to the replay of `call`. -/
def LindCtx.Awaits (ctx : LindCtx) (call : ℕ) (stored : ℤ) : Prop :=
  ∃ res, 0 < res ∧ ctx.asyncify = .rewind call stored res

/-- Nobody is on the way to a replay. -/
def Runtime.Quiet : Prop := ∀ ctx ∈ s.ctxs, ∀ call stored, ¬ ctx.Awaits call stored

/-- Nobody who shares the slot of context `i` is on the way to a replay. -/
def Runtime.Free : Prop :=
  ∀ ctx, s.ctxs[i]? = some ctx → ∀ ctx' ∈ s.ctxs, ctx'.slot = ctx.slot →
    ∀ call stored, ¬ ctx'.Awaits call stored

/-- A clone stores its value while nobody who shares the slot is on the way to a replay. -/
def Alone : CloneOp → Prop
  | .fork i _ _ | .thread i _ _ | .refused i _ => s.Free i
  | .replay _ | .exec _ => True

/-- What was stored is what is returned then, if it is positive. -/
theorem Receipt.Own.returned {r : Receipt} (h : r.Own) (hpos : 0 < r.stored) :
    r.returned = r.stored := by
  rw [Receipt.returned, h]
  exact if_pos hpos

/-! ## What a step can do -/

/-- A step, with the state it is taken from. -/
inductive Steps (s : Runtime) : CloneOp → Runtime → Prop where
  | clones {op : CloneOp} {i : ℕ} {ctx child : LindCtx} {retval res : ℤ}
      (hop : Alone s op ↔ s.Free i) (hi : s.ctxs[i]? = some ctx) (hctx : ctx.asyncify = .normal)
      (hslot : child.slot = ctx.slot) (hchild : ∀ call stored, ¬ child.Awaits call stored) :
      Steps s op (s.cloned i ctx child retval res)
  | refuses {i : ℕ} {ctx : LindCtx} {retval : ℤ} (hi : s.ctxs[i]? = some ctx)
      (hctx : ctx.asyncify = .normal) : Steps s (.refused i retval) (s.refused ctx retval)
  | replays {i : ℕ} {ctx : LindCtx} {call : ℕ} {stored res : ℤ} (hi : s.ctxs[i]? = some ctx)
      (hctx : ctx.asyncify = .rewind call stored res) :
      Steps s (.replay i) (s.replayed i ctx call stored res)
  | execs {i : ℕ} {ctx : LindCtx} (hi : s.ctxs[i]? = some ctx) (hctx : ctx.asyncify = .normal) :
      Steps s (.exec i) (s.execed i ctx)

section Steps

variable {s t : Runtime} {op : CloneOp} {ctx : LindCtx} {i : ℕ}

theorem running_eq_some {f : LindCtx → Runtime} (h : (s.running i).map f = some t) :
    ∃ ctx, s.ctxs[i]? = some ctx ∧ ctx.asyncify = .normal ∧ f ctx = t := by
  obtain ⟨ctx, hctx, heq⟩ := map_eq_some_iff.mp h
  rw [Runtime.running, filter_eq_some_iff] at hctx
  exact ⟨ctx, hctx.1, of_decide_eq_true hctx.2, heq⟩

/-- A child is rewound with the result zero, which looks into no slot. -/
theorem not_awaits_of_zero {cageid tid : ℤ} (call' : ℕ) (stored' : ℤ) :
    ¬ (LindCtx.mk cageid tid slot (.rewind call stored 0)).Awaits call' stored' := by
  rintro ⟨res, hres, heq⟩
  obtain ⟨-, -, rfl⟩ := AsyncifyState.rewind.inj heq
  exact Int.lt_irrefl 0 hres

theorem not_awaits_of_normal (h : ctx.asyncify = .normal) (call : ℕ) (stored : ℤ) :
    ¬ ctx.Awaits call stored := by
  rintro ⟨res, -, heq⟩
  exact AsyncifyState.noConfusion (h.symm.trans heq)

/-- **Every step is one of these.** -/
theorem steps_of_step (hs : step s op = some t) : Steps s op t := by
  cases op with
  | fork i childCageid retval =>
    obtain ⟨ctx, hi, hnormal, rfl⟩ := running_eq_some hs
    exact .clones Iff.rfl hi hnormal rfl not_awaits_of_zero
  | thread i nextTid retval =>
    obtain ⟨ctx, hi, hnormal, rfl⟩ := running_eq_some hs
    exact .clones Iff.rfl hi hnormal rfl not_awaits_of_zero
  | refused i retval =>
    obtain ⟨ctx, hi, hnormal, rfl⟩ := running_eq_some hs
    exact .refuses hi hnormal
  | exec i =>
    obtain ⟨ctx, hi, hnormal, rfl⟩ := running_eq_some hs
    exact .execs hi hnormal
  | replay i =>
    obtain ⟨ctx, hi, hreplay⟩ := bind_eq_some_iff.mp hs
    rw [Runtime.replay] at hreplay
    cases hctx : ctx.asyncify with
    | normal =>
      rw [hctx] at hreplay
      cases hreplay
    | rewind call stored res =>
      rw [hctx] at hreplay
      exact some.inj hreplay ▸ .replays hi hctx

end Steps

/-! ## Who is on the way to a replay -/

/-- Context `j`, on slot `slot`, is on the way to the replay of `call`. -/
def Waits (ctxs : List LindCtx) (j slot call : ℕ) (stored : ℤ) : Prop :=
  ∃ ctx, ctxs[j]? = some ctx ∧ ctx.slot = slot ∧ ctx.Awaits call stored

section Waits

variable {ctxs : List LindCtx} {i j slot call : ℕ} {stored : ℤ} {ctx child : LindCtx}

theorem waits_set_of_ne (hj : j ≠ i) (c : LindCtx) :
    Waits (ctxs.set i c) j slot call stored ↔ Waits ctxs j slot call stored := by
  rw [Waits, Waits, getElem?_set_ne hj.symm]

section

variable (hi : ctxs[i]? = some ctx)
include hi

theorem waits_iff_of_getElem? :
    Waits ctxs i slot call stored ↔ ctx.slot = slot ∧ ctx.Awaits call stored := by
  constructor
  · rintro ⟨ctx', hi', hslot, hawaits⟩
    obtain rfl := mem_unique hi hi'
    exact ⟨hslot, hawaits⟩
  · exact fun h => ⟨ctx, hi, h⟩

theorem waits_set_self (c : LindCtx) :
    Waits (ctxs.set i c) i slot call stored ↔ c.slot = slot ∧ c.Awaits call stored :=
  waits_iff_of_getElem? (List.getElem?_set_self (List.getElem?_eq_some_iff.mp hi).1)

/-- A context that waits for nothing, put in the place of another. -/
theorem waits_set_normal {c : LindCtx} (hc : c.asyncify = .normal) :
    Waits (ctxs.set i c) j slot call stored ↔ j ≠ i ∧ Waits ctxs j slot call stored := by
  by_cases hj : j = i
  · subst hj
    rw [waits_set_self hi]
    exact iff_of_false (fun h => not_awaits_of_normal hc _ _ h.2) fun h => h.1 rfl
  · rw [waits_set_of_ne hj]
    exact (and_iff_right hj).symm

theorem not_waits_of_normal (hctx : ctx.asyncify = .normal) :
    ¬ Waits ctxs i slot call stored := fun h =>
  not_awaits_of_normal hctx _ _ ((waits_iff_of_getElem? hi).mp h).2

end

variable {s : Runtime} {retval res : ℤ} (hchild : ∀ call stored, ¬ child.Awaits call stored)
include hchild

theorem waits_append :
    Waits (ctxs ++ [child]) j slot call stored ↔ Waits ctxs j slot call stored := by
  rw [Waits, Waits, List.getElem?_append]
  split
  · rfl
  · next hlen =>
    refine iff_of_false ?_ ?_
    · rintro ⟨ctx, hget, -, hawaits⟩
      rw [List.getElem?_singleton] at hget
      split at hget
      · exact hchild _ _ (some.inj hget ▸ hawaits)
      · cases hget
    · rintro ⟨ctx, hget, -⟩
      exact hlen (List.getElem?_eq_some_iff.mp hget).1

/-- Who waits after a clone: its own context, and those from before. -/
theorem waits_cloned (hi : s.ctxs[i]? = some ctx)
    (h : Waits (s.cloned i ctx child retval res).ctxs j slot call stored) :
    (j = i ∧ slot = ctx.slot ∧ call = s.calls ∧ stored = retval) ∨
      (j ≠ i ∧ Waits s.ctxs j slot call stored) := by
  have h := (waits_append hchild).mp h
  by_cases hj : j = i
  · subst hj
    obtain ⟨hslot, res', -, heq⟩ := (waits_set_self hi _).mp h
    obtain ⟨hcall, hstored, -⟩ := AsyncifyState.rewind.inj heq
    exact .inl ⟨rfl, hslot.symm, hcall.symm, hstored.symm⟩
  · exact .inr ⟨hj, (waits_set_of_ne hj _).mp h⟩

theorem waits_cloned_of_ne (hj : j ≠ i) (h : Waits s.ctxs j slot call stored) :
    Waits (s.cloned i ctx child retval res).ctxs j slot call stored :=
  (waits_append hchild).mpr ((waits_set_of_ne hj _).mpr h)

end Waits

theorem free_iff {s : Runtime} {i : ℕ} {ctx : LindCtx} (hi : s.ctxs[i]? = some ctx) :
    s.Free i ↔ ∀ j call stored, ¬ Waits s.ctxs j ctx.slot call stored := by
  constructor
  · rintro h j call stored ⟨ctx', hj, hslot, hawaits⟩
    exact h ctx hi ctx' (mem_of_getElem? hj) hslot call stored hawaits
  · intro h ctx' hi' ctx'' hmem hslot call stored hawaits
    obtain rfl := mem_unique hi hi'
    obtain ⟨j, hj⟩ := getElem?_of_mem hmem
    exact h j call stored ⟨ctx'', hj, hslot, hawaits⟩

/-! ## Own values -/

/-- What every run keeps: slots and calls are numbered in order, and a call has one caller. -/
structure Numbered : Prop where
  slot_lt : ∀ ctx ∈ s.ctxs, ctx.slot < s.arcs
  call_lt : ∀ j slot call stored, Waits s.ctxs j slot call stored → call < s.calls
  caller : ∀ j k slot slot' call stored stored', Waits s.ctxs j slot call stored →
    Waits s.ctxs k slot' call stored' → j = k

/-- Every replay so far took its own value, and those on the way find theirs in the slot. -/
structure Kept : Prop where
  own : ∀ r ∈ s.receipts, r.Own
  there : ∀ j slot call stored, Waits s.ctxs j slot call stored →
    s.slots slot = some (call, stored)

section Kept

variable {s t : Runtime} {op : CloneOp} {i : ℕ} {ctx : LindCtx}

theorem replayed_ctxs (s : Runtime) (i : ℕ) (ctx : LindCtx) (call : ℕ) (stored res : ℤ) :
    (s.replayed i ctx call stored res).ctxs = s.ctxs.set i { ctx with asyncify := .normal } := by
  rw [Runtime.replayed]
  split <;> rfl

theorem replayed_numbers (s : Runtime) (i : ℕ) (ctx : LindCtx) (call : ℕ) (stored res : ℤ) :
    (s.replayed i ctx call stored res).calls = s.calls ∧
      (s.replayed i ctx call stored res).arcs = s.arcs := by
  rw [Runtime.replayed]
  split <;> exact ⟨rfl, rfl⟩

variable {call j sl : ℕ} {stored res retval : ℤ} {child : LindCtx}

section

variable (hn : Numbered s)
include hn

section

variable (hi : s.ctxs[i]? = some ctx)
include hi

/-- A context that waits for nothing may take the place of another. -/
theorem Numbered.set_normal {ctx' : LindCtx} (hnormal : ctx'.asyncify = .normal)
    (hctxs : t.ctxs = s.ctxs.set i ctx') (hcalls : t.calls = s.calls) (harcs : s.arcs ≤ t.arcs)
    (hslot : ctx'.slot < t.arcs) : Numbered t := by
  have hbefore : ∀ {j slot call : ℕ} {stored : ℤ}, Waits t.ctxs j slot call stored →
      Waits s.ctxs j slot call stored := by
    intro j slot call stored hw
    rw [hctxs] at hw
    exact ((waits_set_normal hi hnormal).mp hw).2
  refine ⟨fun c hc => ?_, fun j slot call stored hw => ?_,
    fun j k slot slot' call st st' hj hk => ?_⟩
  · rw [hctxs] at hc
    obtain hc | rfl := mem_or_eq_of_mem_set hc
    · exact Nat.lt_of_lt_of_le (hn.slot_lt c hc) harcs
    · exact hslot
  · rw [hcalls]
    exact hn.call_lt j slot call stored (hbefore hw)
  · exact hn.caller j k slot slot' call st st' (hbefore hj) (hbefore hk)

theorem Numbered.replayed : Numbered (s.replayed i ctx call stored res) := by
  obtain ⟨hcalls, harcs⟩ := replayed_numbers s i ctx call stored res
  refine hn.set_normal hi rfl (replayed_ctxs s i ctx call stored res) hcalls
    (Nat.le_of_eq harcs.symm) ?_
  rw [harcs]
  exact hn.slot_lt ctx (mem_of_getElem? hi)

theorem Numbered.execed : Numbered (s.execed i ctx) :=
  hn.set_normal hi rfl rfl rfl (Nat.le_succ s.arcs) (Nat.lt_succ_self s.arcs)

theorem Numbered.cloned (hslot : child.slot = ctx.slot)
    (hchild : ∀ call stored, ¬ child.Awaits call stored) :
    Numbered (s.cloned i ctx child retval res) := by
  have hlt := hn.slot_lt ctx (mem_of_getElem? hi)
  refine ⟨fun c hc => ?_, fun j slot call stored hw => ?_,
    fun j k slot slot' call st st' hj hk => ?_⟩
  · obtain hc | hc := mem_append.mp hc
    · obtain hc | rfl := mem_or_eq_of_mem_set hc
      · exact hn.slot_lt c hc
      · exact hlt
    · obtain rfl := mem_singleton.mp hc
      exact hslot.symm ▸ hlt
  · obtain ⟨-, -, rfl, -⟩ | ⟨-, hw⟩ := waits_cloned hchild hi hw
    · exact Nat.lt_succ_self s.calls
    · exact Nat.lt_succ_of_lt (hn.call_lt j slot call stored hw)
  · obtain ⟨hji, -, hcall, -⟩ | ⟨-, hj⟩ := waits_cloned hchild hi hj
    · obtain ⟨hki, -⟩ | ⟨-, hk⟩ := waits_cloned hchild hi hk
      · exact hji.trans hki.symm
      · exact absurd (hcall ▸ hn.call_lt _ _ _ _ hk) (Nat.lt_irrefl _)
    · obtain ⟨-, -, hcall, -⟩ | ⟨-, hk⟩ := waits_cloned hchild hi hk
      · exact absurd (hcall ▸ hn.call_lt _ _ _ _ hj) (Nat.lt_irrefl _)
      · exact hn.caller j k slot slot' call st st' hj hk

end

theorem Numbered.step (hs : Steps s op t) : Numbered t := by
  cases hs with
  | clones hop hi hctx hslot hchild => exact hn.cloned hi hslot hchild
  | refuses hi hctx =>
    exact ⟨hn.slot_lt, fun j slot call stored hw => Nat.lt_succ_of_lt (hn.call_lt _ _ _ _ hw),
      hn.caller⟩
  | replays hi hctx => exact hn.replayed hi
  | execs hi hctx => exact hn.execed hi

/-- A value stored in a slot is not that of a call made before. -/
theorem Numbered.ne_of_waits (hw : Waits s.ctxs j slot call stored) :
    (s.calls, retval) ≠ (call, stored) := fun heq =>
  Nat.lt_irrefl call ((Prod.mk.inj heq).1 ▸ hn.call_lt j slot call stored hw)

/-- A store keeps what is there exactly if nobody waits at the slot. -/
theorem there_store_iff (slot : ℕ) (retval : ℤ)
    (hthere : ∀ j sl call stored, Waits s.ctxs j sl call stored →
      s.slots sl = some (call, stored)) :
    (∀ j sl call stored, Waits s.ctxs j sl call stored →
      update s.slots slot (some (s.calls, retval)) sl = some (call, stored)) ↔
    ∀ j call stored, ¬ Waits s.ctxs j slot call stored := by
  constructor
  · intro h j call stored hw
    have heq := h j slot call stored hw
    rw [update_self] at heq
    exact hn.ne_of_waits hw (some.inj heq)
  · intro h j sl call stored hw
    have hsl : sl ≠ slot := fun heq => h j call stored (heq ▸ hw)
    rw [update_of_ne hsl]
    exact hthere j sl call stored hw

/-- …and if it keeps it, it was there. -/
theorem there_of_store (hw : Waits s.ctxs j sl call stored)
    (h : update s.slots slot (some (s.calls, retval)) sl = some (call, stored)) :
    s.slots sl = some (call, stored) := by
  by_cases hsl : sl = slot
  · rw [hsl, update_self] at h
    exact absurd (some.inj h) (hn.ne_of_waits hw)
  · rwa [update_of_ne hsl] at h

theorem slots_execed (hw : Waits s.ctxs j sl call stored) :
    (s.execed i ctx).slots sl = s.slots sl := by
  obtain ⟨c, hj, rfl, -⟩ := hw
  exact update_of_ne (Nat.ne_of_lt (hn.slot_lt c (mem_of_getElem? hj))) _ _

end

section

variable (hi : s.ctxs[i]? = some ctx)
include hi

theorem Kept.replayed (hk : Kept s) (hn : Numbered s)
    (hctx : ctx.asyncify = .rewind call stored res) : Kept (s.replayed i ctx call stored res) := by
  rw [Runtime.replayed]
  split
  · next hres =>
    have hself : Waits s.ctxs i ctx.slot call stored := ⟨ctx, hi, rfl, res, hres, hctx⟩
    have hslot := hk.there _ _ _ _ hself
    refine ⟨fun r hr => ?_, fun j sl c st hw => ?_⟩
    · obtain hr | hr := mem_append.mp hr
      · exact hk.own r hr
      · obtain rfl := mem_singleton.mp hr
        exact hslot
    · obtain ⟨hj, hbefore⟩ := (waits_set_normal hi rfl).mp hw
      have hthere := hk.there j sl c st hbefore
      -- two calls at one slot would be one and the same
      have hsl : sl ≠ ctx.slot := fun heq => by
        have hcall := (Prod.mk.inj (some.inj (hthere.symm.trans (heq ▸ hslot)))).1
        exact hj (hn.caller _ _ _ _ _ _ _ (hcall ▸ hbefore) hself)
      exact (update_of_ne hsl _ _).trans hthere
  · exact ⟨hk.own, fun j sl c st hw => hk.there j sl c st ((waits_set_normal hi rfl).mp hw).2⟩

theorem kept_of_replayed (hctx : ctx.asyncify = .rewind call stored res)
    (hk : Kept (s.replayed i ctx call stored res)) : Kept s := by
  rw [Runtime.replayed] at hk
  split at hk
  · refine ⟨fun r hr => hk.own r (mem_append_left _ hr), fun j sl c st hw => ?_⟩
    by_cases hj : j = i
    · -- the context that is replayed: its receipt is its own
      subst hj
      obtain ⟨rfl, res', -, heq⟩ := (waits_iff_of_getElem? hi).mp hw
      obtain ⟨rfl, rfl, -⟩ := AsyncifyState.rewind.inj (hctx.symm.trans heq)
      exact hk.own _ (mem_append_right _ mem_cons_self)
    · have hthere : update s.slots ctx.slot none sl = some (c, st) :=
        hk.there j sl c st ((waits_set_normal hi rfl).mpr ⟨hj, hw⟩)
      by_cases hsl : sl = ctx.slot
      · rw [hsl, update_self] at hthere
        cases hthere
      · rwa [update_of_ne hsl] at hthere
  · next hres =>
    refine ⟨hk.own, fun j sl c st hw => ?_⟩
    have hj : j ≠ i := by
      rintro rfl
      obtain ⟨-, res', hpos, heq⟩ := (waits_iff_of_getElem? hi).mp hw
      obtain ⟨-, -, rfl⟩ := AsyncifyState.rewind.inj (hctx.symm.trans heq)
      exact hres hpos
    exact hk.there j sl c st ((waits_set_normal hi rfl).mpr ⟨hj, hw⟩)

theorem waits_execed (hctx : ctx.asyncify = .normal) :
    Waits (s.execed i ctx).ctxs j sl call stored ↔ Waits s.ctxs j sl call stored := by
  refine (waits_set_normal hi rfl).trans (and_iff_right_of_imp fun hw hj => ?_)
  exact not_waits_of_normal hi hctx (hj ▸ hw)

variable (hn : Numbered s)
include hn

theorem kept_execed_iff (hctx : ctx.asyncify = .normal) : Kept (s.execed i ctx) ↔ Kept s := by
  constructor
  · refine fun hk => ⟨hk.own, fun j sl c st hw => ?_⟩
    rw [← slots_execed hn hw]
    exact hk.there j sl c st ((waits_execed hi hctx).mpr hw)
  · refine fun hk => ⟨hk.own, fun j sl c st hw => ?_⟩
    have hw := (waits_execed hi hctx).mp hw
    rw [slots_execed hn hw]
    exact hk.there j sl c st hw

theorem kept_cloned_iff (hk : Kept s) (hctx : ctx.asyncify = .normal)
    (hchild : ∀ call stored, ¬ child.Awaits call stored) :
    Kept (s.cloned i ctx child retval res) ↔ s.Free i := by
  refine Iff.trans ?_ ((there_store_iff hn ctx.slot retval hk.there).trans (free_iff hi).symm)
  constructor
  · intro hk' j sl call stored hw
    have hj : j ≠ i := fun heq => not_waits_of_normal hi hctx (heq ▸ hw)
    exact hk'.there j sl call stored (waits_cloned_of_ne hchild hj hw)
  · refine fun hthere => ⟨hk.own, fun j sl call stored hw => ?_⟩
    obtain ⟨-, rfl, rfl, rfl⟩ | ⟨-, hw⟩ := waits_cloned hchild hi hw
    · exact update_self _ _ _
    · exact hthere j sl call stored hw

theorem kept_refused_iff (hk : Kept s) : Kept (s.refused ctx retval) ↔ s.Free i := by
  refine Iff.trans ?_ ((there_store_iff hn ctx.slot retval hk.there).trans (free_iff hi).symm)
  exact ⟨fun hk' => hk'.there, fun hthere => ⟨hk.own, hthere⟩⟩

end

/-- **A step keeps everybody's value exactly if it is alone.** -/
theorem kept_iff_alone (hn : Numbered s) (hk : Kept s) (hs : Steps s op t) :
    Kept t ↔ Alone s op := by
  cases hs with
  | clones hop hi hctx hslot hchild => exact (kept_cloned_iff hi hn hk hctx hchild).trans hop.symm
  | refuses hi hctx => exact kept_refused_iff hi hn hk
  | replays hi hctx => exact iff_of_true (hk.replayed hi hn hctx) trivial
  | execs hi hctx => exact iff_of_true ((kept_execed_iff hi hn hctx).mpr hk) trivial

/-- What is lost stays lost: values that are kept after a step were kept before. -/
theorem kept_of_steps (hn : Numbered s) (hs : Steps s op t) (hk : Kept t) : Kept s := by
  cases hs with
  | clones hop hi hctx hslot hchild =>
    refine ⟨hk.own, fun j sl call stored hw => ?_⟩
    have hj : j ≠ _ := fun heq => not_waits_of_normal hi hctx (heq ▸ hw)
    exact there_of_store hn hw (hk.there j sl call stored (waits_cloned_of_ne hchild hj hw))
  | refuses hi hctx =>
    exact ⟨hk.own, fun j sl call stored hw => there_of_store hn hw (hk.there j sl call stored hw)⟩
  | replays hi hctx => exact kept_of_replayed hi hctx hk
  | execs hi hctx => exact (kept_execed_iff hi hn hctx).mp hk

end Kept

/-! ## Runs -/

section Runs

variable {s t : Runtime} {ops : List CloneOp}

theorem not_waits_init {j : ℕ} : ¬ Waits Runtime.init.ctxs j slot call stored := by
  rintro ⟨ctx, hget, -, hawaits⟩
  obtain rfl := mem_singleton.mp (mem_of_getElem? hget)
  exact not_awaits_of_normal rfl _ _ hawaits

theorem numbered_init : Numbered Runtime.init where
  slot_lt ctx hctx := by
    obtain rfl := mem_singleton.mp hctx
    exact Nat.zero_lt_one
  call_lt _ _ _ _ hw := absurd hw not_waits_init
  caller _ _ _ _ _ _ _ hw _ := absurd hw not_waits_init

theorem kept_init : Kept Runtime.init where
  own _ hr := absurd hr not_mem_nil
  there _ _ _ _ hw := absurd hw not_waits_init

theorem numbered_run (hn : Numbered s) (hrun : runSteps step s ops = some t) : Numbered t :=
  inv_of_runSteps (fun _ _ _ hn hs => hn.step (steps_of_step hs)) hn hrun

theorem kept_of_run (hn : Numbered s) (hrun : runSteps step s ops = some t) (hk : Kept t) :
    Kept s := by
  induction ops generalizing s with
  | nil => exact some.inj hrun ▸ hk
  | cons op ops ih =>
    obtain ⟨s', hs, hrest⟩ := runSteps_cons_eq_some.mp hrun
    exact kept_of_steps hn (steps_of_step hs) (ih (hn.step (steps_of_step hs)) hrest)

/-- All values are kept at the end of a run exactly if all its steps were alone. -/
theorem kept_iff_stepsOk (hrun : runSteps step Runtime.init ops = some t) :
    Kept t ↔ StepsOk step Alone Runtime.init ops := by
  have hstep : ∀ s op s', Numbered s ∧ Kept s → step s op = some s' →
      (Numbered s' ∧ Kept s' ↔ Alone s op) := fun s op s' hinv hs =>
    (and_iff_right (hinv.1.step (steps_of_step hs))).trans
      (kept_iff_alone hinv.1 hinv.2 (steps_of_step hs))
  rw [← stepsOk_iff_forall_inv hstep ⟨numbered_init, kept_init⟩ hrun]
  constructor
  · rintro hk bs cs u rfl hu
    obtain ⟨u', hu', hrest⟩ := runSteps_append.mp hrun
    obtain rfl : u = u' := mem_unique hu hu'
    have hn := numbered_run numbered_init hu
    exact ⟨hn, kept_of_run hn hrest hk⟩
  · exact fun h => (h ops [] t (append_nil ops).symm hrun).2

/-- With nobody on the way, the receipts are all there is to keep. -/
theorem kept_iff_own (hquiet : t.Quiet) : Kept t ↔ ∀ r ∈ t.receipts, r.Own := by
  refine ⟨Kept.own, fun hown => ⟨hown, ?_⟩⟩
  rintro j slot call stored ⟨ctx, hget, -, hawaits⟩
  exact absurd hawaits (hquiet ctx (mem_of_getElem? hget) call stored)

end Runs

/-- **Each replay takes what its own call stored**, and returns it if it is positive, along every
run in which clones store alone; and in a run that leaves nobody on the way to a replay only
then. -/
theorem own_iff_alone {t : Runtime} (ops : List CloneOp)
    (hrun : runSteps step Runtime.init ops = some t) :
    (StepsOk step Alone Runtime.init ops →
      ∀ r ∈ t.receipts, r.Own ∧ (0 < r.stored → r.returned = r.stored)) ∧
    (t.Quiet → (∀ r ∈ t.receipts, r.Own) → StepsOk step Alone Runtime.init ops) := by
  refine ⟨fun hok r hr => ?_, fun hquiet hown => ?_⟩
  · have hown := ((kept_iff_stepsOk hrun).mpr hok).own r hr
    exact ⟨hown, hown.returned⟩
  · exact (kept_iff_stepsOk hrun).mp ((kept_iff_own hquiet).mpr hown)

/-- A cage forks, and then forks again while its child forks: its second fork returns the child of
its child. -/
def crossedForks : List CloneOp :=
  [.fork 0 2 2, .replay 0, .replay 1, .fork 0 3 3, .fork 1 4 4, .replay 0, .replay 1]

/-- **The parent's `fork` returns another cage's child.** -/
theorem not_own_crossedForks :
    ∃ t, runSteps step Runtime.init crossedForks = some t ∧
      t.receipts = [⟨0, 2, 2, some (0, 2)⟩, ⟨1, 3, 3, some (2, 4)⟩, ⟨2, 4, 4, none⟩] ∧
      t.receipts.map Receipt.returned = [2, 4, 4] := by
  exact ⟨_, rfl, rfl, by decide⟩

/-- Two forks of a cage one after the other, the second with a return value a grate made up. -/
def forksInTurn : List CloneOp :=
  [.fork 0 2 2, .replay 0, .replay 1, .fork 0 3 77, .replay 0, .replay 2]

theorem own_iff_alone_forksInTurn :
    ∃ t, runSteps step Runtime.init forksInTurn = some t ∧
      t.receipts.map Receipt.returned = [2, 77] ∧ StepsOk step Alone Runtime.init forksInTurn ∧
      ∀ r ∈ t.receipts, r.Own ∧ (0 < r.stored → r.returned = r.stored) := by
  refine ⟨_, rfl, by decide, ?_⟩
  obtain ⟨hown, hok⟩ := own_iff_alone forksInTurn rfl
  have hnormal : ∀ ctx ∈ ([⟨1, 1, 0, .normal⟩, ⟨2, 1, 0, .normal⟩, ⟨3, 1, 0, .normal⟩] :
      List LindCtx), ctx.asyncify = .normal := by decide
  have hok := hok (fun ctx hctx => not_awaits_of_normal (hnormal ctx hctx)) (by decide)
  exact ⟨hok, hown hok⟩

end LindWasm.Clone
