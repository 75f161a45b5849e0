import LindWasm.Marshal.Dispatch
import Mathlib.Data.List.Nodup
import Mathlib.Data.List.Perm.Basic

/-!
# Marshal/Handles — the handle table over its whole life

    register (cls, obj) --> token        translate (cls, token) --> obj        release (cls, token)

The objects of a grate never leave it: the calling cage is given tokens, counted up from 1. A slot
of the table is used again after a release, a token never is. `live` reads off the calls made which
tokens stand for an object; the entries in use are these, in some order (`Records`).
-/

namespace LindWasm.Marshal

open Option List

def handleTableSize : ℕ := 64

/-- What a lookup asks of an entry. -/
def HandleEntry.Matches (cls appToken : ℕ) (h : HandleEntry) : Prop :=
  h.inUse ∧ h.appToken = appToken ∧ h.handleClass = cls
deriving Decidable

/-- `lind_release_handle`: the first entry that matches is no longer in use. -/
def releaseHandle (cls appToken : ℕ) : List HandleEntry → List HandleEntry
  | [] => []
  | h :: hs =>
      if h.Matches cls appToken then { h with inUse := false } :: hs
      else h :: releaseHandle cls appToken hs

/-- `_lind_handle_table` and `_lind_next_token`. -/
structure HandleTable where
  entries : List HandleEntry
  nextToken : ℕ

def HandleTable.empty : HandleTable := ⟨List.replicate handleTableSize ⟨0, 0, 0, false⟩, 1⟩

inductive HandleCall where
  | register (cls realObj : ℕ)
  | translate (cls appToken : ℕ)
  | release (cls appToken : ℕ)

/-- A call and its answer: no token from a full table, no object where `*found` is 0. -/
inductive HandleEvent where
  | registered (cls realObj : ℕ) (token : Option ℕ)
  | translated (cls appToken : ℕ) (object : Option ℕ)
  | released (cls appToken : ℕ)

def HandleTable.call (t : HandleTable) : HandleCall → HandleTable × HandleEvent
  | .register cls realObj =>
      match registerHandle t.nextToken cls realObj t.entries with
      | none => (t, .registered cls realObj none)
      | some (tok, entries) =>
          (⟨entries, u64 (t.nextToken + 1)⟩, .registered cls realObj (some tok))
  | .translate cls appToken =>
      (t, .translated cls appToken (translateHandle t.entries cls appToken))
  | .release cls appToken =>
      ({ t with entries := releaseHandle cls appToken t.entries }, .released cls appToken)

def serve (s : HandleTable × List HandleEvent) (a : HandleCall) : HandleTable × List HandleEvent :=
  ((s.1.call a).1, (s.1.call a).2 :: s.2)

/-- The table after the calls, with what has happened, the latest first. -/
def serveAll (calls : List HandleCall) : HandleTable × List HandleEvent :=
  calls.foldl serve (.empty, [])

/-- The tokens given, the latest first. -/
def tokens (log : List HandleEvent) : List ℕ :=
  log.filterMap fun | .registered _ _ tok => tok | _ => none

/-- The tokens that were registered and have not been released since, with their object and
class. -/
def live : List HandleEvent → List HandleEntry
  | [] => []
  | .registered cls realObj (some tok) :: log => ⟨tok, realObj, cls, true⟩ :: live log
  | .released cls appToken :: log => (live log).filter (¬ ·.Matches cls appToken)
  | _ :: log => live log

def HandleCall.isRegister : HandleCall → Bool
  | .register .. => true
  | _ => false

/-! ## Slots -/

section Slots

variable {next cls obj tok : ℕ} {hs hs' : List HandleEntry}

/-- The entries in use. -/
def held (hs : List HandleEntry) : List HandleEntry := hs.filter (·.inUse)

theorem held_cons (h : HandleEntry) (hs : List HandleEntry) :
    held (h :: hs) = if h.inUse then h :: held hs else held hs := filter_cons

/-- A registration fails when every slot is in use. -/
theorem registerHandle_eq_none :
    registerHandle next cls obj hs = none ↔ (held hs).length = hs.length := by
  rw [held, length_filter_eq_length_iff]
  induction hs with
  | nil => simp [registerHandle]
  | cons h hs ih => cases hu : h.inUse <;> simp [registerHandle, hu, ih]

/-- …and otherwise takes a free one. -/
theorem registerHandle_perm (h : registerHandle next cls obj hs = some (tok, hs')) :
    tok = next ∧ hs'.length = hs.length ∧ (held hs').Perm (⟨next, obj, cls, true⟩ :: held hs) := by
  induction hs generalizing hs' with
  | nil => cases h
  | cons e es ih =>
    rw [registerHandle] at h
    split at h
    · next hu =>
      obtain ⟨⟨tok', es'⟩, hrest, heq⟩ := map_eq_some_iff.mp h
      cases heq
      obtain ⟨htok, hlen, hperm⟩ := ih hrest
      refine ⟨htok, congrArg (· + 1) hlen, ?_⟩
      rw [held_cons, held_cons, if_pos hu, if_pos hu]
      exact (hperm.cons e).trans (.swap _ e _)
    · next hu =>
      cases h
      rw [held_cons, held_cons, if_neg hu]
      exact ⟨rfl, rfl, .refl _⟩

theorem length_releaseHandle : (releaseHandle cls tok hs).length = hs.length := by
  induction hs with
  | nil => rfl
  | cons h hs ih =>
    rw [releaseHandle]
    split
    · rfl
    · exact congrArg (· + 1) ih

theorem releaseHandle_eq_self (h : ∀ e ∈ held hs, ¬ e.Matches cls tok) :
    releaseHandle cls tok hs = hs := by
  induction hs with
  | nil => rfl
  | cons e es ih =>
    have hno : ¬ e.Matches cls tok := fun hm =>
      h e (mem_filter.mpr ⟨mem_cons_self, hm.1⟩) hm
    rw [releaseHandle, if_neg hno, ih fun e' he' => h e' ?_]
    exact mem_filter.mpr ⟨mem_cons_of_mem _ (mem_filter.mp he').1,
      (mem_filter.mp he').2⟩

/-- Where no token is held twice, a release takes out all that matches. -/
theorem held_releaseHandle (hnd : ((held hs).map (·.appToken)).Nodup) :
    held (releaseHandle cls tok hs) = (held hs).filter (¬ ·.Matches cls tok) := by
  induction hs with
  | nil => rfl
  | cons e es ih =>
    have htail : ((held es).map (·.appToken)).Nodup :=
      (((sublist_cons_self e es).filter _).map _).nodup hnd
    by_cases hm : e.Matches cls tok
    · have hrest : (held es).filter (¬ ·.Matches cls tok) = held es := by
        rw [held_cons, if_pos hm.1, map_cons, nodup_cons] at hnd
        refine filter_eq_self.mpr fun e' he' => decide_eq_true fun hm' => hnd.1 ?_
        exact mem_map.mpr ⟨e', he', hm'.2.1.trans hm.2.1.symm⟩
      rw [releaseHandle, if_pos hm, held_cons, held_cons, if_pos hm.1,
        filter_cons_of_neg (by simpa using hm), hrest]
      rfl
    · rw [releaseHandle, if_neg hm, held_cons, held_cons, ih htail]
      split
      · rw [filter_cons_of_pos (by simpa using hm)]
      · rfl

/-- …and a translation finds the one entry of the token and class. -/
theorem translateHandle_eq_some (hnd : ((held hs).map (·.appToken)).Nodup) :
    translateHandle hs cls tok = some obj ↔ ⟨tok, obj, cls, true⟩ ∈ held hs := by
  have hfound : ∀ {h}, hs.find? (·.Matches cls tok) = some h →
      h ∈ held hs ∧ h.Matches cls tok := fun {h} hf => by
    have hm : h.Matches cls tok := by simpa using find?_some hf
    exact ⟨mem_filter.mpr ⟨mem_of_find?_eq_some hf, hm.1⟩, hm⟩
  refine map_eq_some_iff.trans ⟨?_, fun hheld => ?_⟩
  · rintro ⟨⟨tok', obj', cls', inUse⟩, hf, rfl⟩
    obtain ⟨hheld, rfl, rfl, rfl⟩ := hfound hf
    exact hheld
  · cases hf : hs.find? (·.Matches cls tok) with
    | none => simpa [HandleEntry.Matches] using find?_eq_none.mp hf _ (mem_filter.mp hheld).1
    | some h =>
      obtain ⟨hin, -, htok, -⟩ := hfound hf
      exact ⟨h, hf, congrArg HandleEntry.realObject (inj_on_of_nodup_map hnd hin hheld htok)⟩

end Slots

/-! ## The table keeps to the log -/

/-- The tokens given are among 1, …, n, each once, and the entries in use are the live ones. -/
structure Records (t : HandleTable) (log : List HandleEvent) : Prop where
  length : t.entries.length = handleTableSize
  next : t.nextToken = u64 ((tokens log).length + 1)
  given : ∀ tok ∈ tokens log, 0 < tok ∧ tok ≤ (tokens log).length
  nodup : (tokens log).Nodup
  held : (held t.entries).Perm (live log)
  live : ((live log).map (·.appToken)).Sublist (tokens log)

section Records

variable {t : HandleTable} {log : List HandleEvent}

theorem records_empty : Records .empty [] where
  length := length_replicate
  next := rfl
  given := by simp [tokens]
  nodup := .nil
  held := by simp [held, HandleTable.empty, Marshal.live]
  live := .slnil

theorem Records.nodup_held (hr : Records t log) :
    ((Marshal.held t.entries).map (·.appToken)).Nodup :=
  (hr.held.map _).nodup_iff.mpr (hr.live.nodup hr.nodup)

theorem Records.call {a : HandleCall} (hr : Records t log)
    (hlt : a.isRegister → (tokens log).length + 1 < 2 ^ 64) :
    Records (t.call a).1 ((t.call a).2 :: log) := by
  cases a with
  | translate cls tok => exact ⟨hr.length, hr.next, hr.given, hr.nodup, hr.held, hr.live⟩
  | release cls tok =>
    refine ⟨length_releaseHandle.trans hr.length, hr.next, hr.given, hr.nodup, ?_,
      (filter_sublist.map _).trans hr.live⟩
    exact (List.Perm.of_eq (held_releaseHandle hr.nodup_held)).trans (hr.held.filter _)
  | register cls obj =>
    rw [HandleTable.call]
    cases hreg : registerHandle t.nextToken cls obj t.entries with
    | none => exact ⟨hr.length, hr.next, hr.given, hr.nodup, hr.held, hr.live⟩
    | some r =>
      obtain ⟨tok, entries⟩ := r
      obtain ⟨rfl, hlen, hperm⟩ := registerHandle_perm hreg
      have hnext : t.nextToken = (tokens log).length + 1 :=
        hr.next.trans (Nat.mod_eq_of_lt (hlt rfl))
      have hfresh : t.nextToken ∉ tokens log := fun hin => by
        have := (hr.given _ hin).2
        omega
      have hpos : 0 < t.nextToken ∧ t.nextToken ≤ (tokens log).length + 1 := by omega
      refine ⟨hlen.trans hr.length, by rw [hnext]; rfl, forall_mem_cons.mpr ⟨hpos, ?_⟩,
        nodup_cons.mpr ⟨hfresh, hr.nodup⟩, hperm.trans (hr.held.cons _), hr.live.cons_cons _⟩
      exact fun tok' htok => (hr.given tok' htok).imp_right Nat.le_succ_of_le

theorem length_tokens_call (t : HandleTable) (log : List HandleEvent) (a : HandleCall) :
    (tokens ((t.call a).2 :: log)).length
      ≤ (tokens log).length + if a.isRegister then 1 else 0 := by
  cases a with
  | translate | release => exact Nat.le_refl _
  | register cls obj =>
    rw [HandleTable.call]
    cases registerHandle t.nextToken cls obj t.entries <;> simp [tokens, HandleCall.isRegister]

/-- **A run of calls** with fewer than 2^64 registrations. -/
theorem Records.serve {calls : List HandleCall} (hr : Records t log)
    (hlt : (tokens log).length + calls.countP (·.isRegister) < 2 ^ 64) :
    Records (calls.foldl serve (t, log)).1 (calls.foldl serve (t, log)).2 := by
  induction calls generalizing t log with
  | nil => exact hr
  | cons a calls ih =>
    rw [countP_cons] at hlt
    have hle := length_tokens_call t log a
    refine ih (hr.call fun ha => ?_) (by dsimp only; omega)
    rw [if_pos ha] at hlt
    omega

end Records

/-- **The handle table is a partial map.**  After any calls with fewer than 2^64 registrations: no
token is 0 and none was given twice; a token translates under a class exactly if it was registered
with it and has not been released, to the object it was registered for; a release that matches no
live token leaves the table as it is; and a registration fails exactly if 64 handles are live. -/
theorem handleTable_partialMap {calls : List HandleCall} {t : HandleTable} {log : List HandleEvent}
    (hrun : serveAll calls = (t, log)) (hlt : calls.countP (·.isRegister) < 2 ^ 64) :
    0 ∉ tokens log ∧ (tokens log).Nodup ∧
      (∀ cls tok obj, (t.call (.translate cls tok)).2 = .translated cls tok (some obj) ↔
        ⟨tok, obj, cls, true⟩ ∈ live log) ∧
      (∀ cls tok, (∀ obj, ⟨tok, obj, cls, true⟩ ∉ live log) → (t.call (.release cls tok)).1 = t) ∧
      ∀ cls obj, (t.call (.register cls obj)).2 = .registered cls obj none ↔
        (live log).length = handleTableSize := by
  have hr : Records (serveAll calls).1 (serveAll calls).2 :=
    records_empty.serve (by simpa [tokens] using hlt)
  rw [hrun] at hr
  refine ⟨fun h0 => absurd (hr.given 0 h0).1 (lt_irrefl 0), hr.nodup, fun cls tok obj => ?_,
    fun cls tok hno => ?_, fun cls obj => ?_⟩
  · rw [← hr.held.mem_iff, ← translateHandle_eq_some hr.nodup_held]
    simp [HandleTable.call]
  · have hself : releaseHandle cls tok t.entries = t.entries := by
      refine releaseHandle_eq_self fun e he hm => ?_
      obtain ⟨tok', obj, cls', inUse⟩ := e
      obtain ⟨rfl, rfl, rfl⟩ := hm
      exact hno obj (hr.held.mem_iff.mp he)
    rw [HandleTable.call, hself]
  · rw [← hr.held.length_eq, ← hr.length, ← registerHandle_eq_none, HandleTable.call]
    cases registerHandle t.nextToken cls obj t.entries <;> simp

/-- Two handles, of which the first is released and its slot taken again. -/
def reusedSlot : List HandleCall :=
  [.register 1 0x10, .register 2 0x20, .release 2 1, .release 1 1, .register 3 0x30]

/-- The released token is gone, and the new one is not it. -/
theorem handleTable_partialMap_reused : tokens (serveAll reusedSlot).2 = [3, 2, 1] ∧
    live (serveAll reusedSlot).2 = [⟨3, 0x30, 3, true⟩, ⟨2, 0x20, 2, true⟩] ∧
    ((serveAll reusedSlot).1.call (.translate 3 3)).2 = .translated 3 3 (some 0x30) :=
  ⟨rfl, by decide, ((handleTable_partialMap rfl (by decide)).2.2.1 3 3 0x30).mpr (by decide)⟩

end LindWasm.Marshal
