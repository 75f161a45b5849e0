import LindWasm.MarshalGen.Declare

/-!
# MarshalGen/Accept — what an accepted record promises of a call

    record -- emit --> spec -- interpreted --> shadows
      └-- declares sizes, pointees, fields ------┘

`ptrReady_of_node` carries what a record asks of a pointer over to the emitted spec, and
`preCall_emitted` reads the result back: every pointer node that is an argument, an element of an
array or a touched field arrives as a shadow of the declared size.
-/

namespace LindWasm.MarshalGen

open Marshal Option List

variable {c : Call} {hash : String → ℕ} {n : Node} {p q : ℕ} {top : Bool}

/-! ## Any pointer -/

section Pointer

section

variable {len : ℕ} (h : n.IsPtr) (hready : BufferNodeReady hash c top n p len)
include h hready

theorem BufferNodeReady.allocSize_eq : allocSizeOf (argSpecBody hash n) len = n.allocSize len :=
  allocSizeOf_argSpecBody h (not_isArray hready.size) (fun st hst => (hready.struct st hst).1) len

theorem BufferNodeReady.bufferReady : BufferReady c top (argSpecBody hash n) p len := by
  refine ⟨hready.sized h, ?_, fun l hl _ => ?_⟩
  · rw [hready.allocSize_eq h, copiesIn_argSpecBody h]
    exact hready.copy
  · rw [layout_argSpecBody h (not_isArray hready.size)] at hl
    obtain ⟨st, hst, rfl⟩ := map_eq_some_iff.mp hl
    rw [hready.allocSize_eq h]
    exact (hready.struct st hst).2.structReady hready.fits h

theorem BufferNodeReady.structNeed_eq :
    structNeed c (argSpecBody hash n) p = structNodeNeed c n p := by
  rw [structNeed, structNodeNeed, layout_argSpecBody h (not_isArray hready.size)]
  cases hst : n.structPointee with
  | none => rfl
  | some st =>
    simp only [map_some, if_pos (kind_emitLayout st), fields_emitLayout, List.length_map,
      List.map_map]
    congr 2
    exact List.map_congr_left fun f hf =>
      fieldNeed_emitField hready.fits (hready.struct st hst).2 hf

end

theorem nodeReady_array (harray : n.IsArray) :
    (NodeReady hash c top n p ↔ ∃ ps, readElems c p ptrArrayMax 0 = some ps ∧
      ps.length < ptrArrayMax ∧
      match n.pointee with
      | [] => True
      | e :: _ => ∀ q ∈ ps, e.IsPtr ∧ NodeReady hash c false e q) ∧
    nodeNeed c top n p = space ((((readElems c p ptrArrayMax 0).getD []).length + 1) * 4) +
      match n.pointee with
      | [] => 0
      | e :: _ => (((readElems c p ptrArrayMax 0).getD []).map (nodeNeed c false e)).sum := by
  obtain ⟨keys, pointee, fields⟩ := n
  have hsk : keys.effectiveSize = .ptrArray := harray
  cases pointee <;> simp [NodeReady, nodeNeed, hsk, Node.pointee]

theorem nodeReady_buffer (harray : ¬ n.IsArray) :
    (NodeReady hash c top n p ↔ ∃ len, BufferNodeReady hash c top n p len) ∧
      nodeNeed c top n p =
        space (n.allocSize ((ownSize c (.root top) n p).getD 0)) + structNodeNeed c n p := by
  obtain ⟨keys, pointee, fields⟩ := n
  have hsk : ¬ keys.effectiveSize = .ptrArray := harray
  cases pointee <;> simp [NodeReady, nodeNeed, hsk]

theorem ptrReady_of_buffer (h : n.IsPtr) (harray : ¬ n.IsArray)
    (hready : NodeReady hash c top n p) :
    PtrReady c top (argSpecBody hash n) p ∧
      need c top (argSpecBody hash n) p = nodeNeed c top n p := by
  obtain ⟨len, hbuffer⟩ := (nodeReady_buffer harray).1.mp hready
  have hs : (argSpecBody hash n).sizeKind ≠ .ptrArray := mt (sizeKind_eq_ptrArray h).mp harray
  rw [(ptrReady_buffer hs).1, (ptrReady_buffer hs).2, (@nodeReady_buffer c hash n p top harray).2]
  refine ⟨⟨len, hbuffer.bufferReady h⟩, ?_⟩
  rw [(hbuffer.sized h).size, hbuffer.size, getD_some, hbuffer.allocSize_eq h,
    hbuffer.structNeed_eq h]

/-- **A ready node is ready for the runtime**, which takes of the arena what the record says. -/
theorem ptrReady_of_node (h : n.IsPtr) (hready : NodeReady hash c top n p) :
    PtrReady c top (argSpecBody hash n) p ∧
      need c top (argSpecBody hash n) p = nodeNeed c top n p := by
  induction n using Node.pointeeInduction generalizing top p with
  | leaf n hleaf =>
    by_cases harray : n.IsArray
    · obtain ⟨ps, hps, -⟩ := (nodeReady_array harray).1.mp hready
      have hs : (argSpecBody hash n).sizeKind = .ptrArray := (sizeKind_eq_ptrArray h).mpr harray
      have hel : (argSpecBody hash n).element = none := by
        rw [element_argSpecBody h harray, hleaf]
        rfl
      rw [(ptrReady_raw hs hel).1, (ptrReady_raw hs hel).2,
        (@nodeReady_array c hash n p top harray).2, hleaf]
      exact ⟨⟨ps, hps⟩, rfl⟩
    · exact ptrReady_of_buffer h harray hready
  | step n e es hpointee ih =>
    by_cases harray : n.IsArray
    · obtain ⟨ps, hps, -, hall⟩ := (nodeReady_array harray).1.mp hready
      rw [hpointee] at hall
      have hs : (argSpecBody hash n).sizeKind = .ptrArray := (sizeKind_eq_ptrArray h).mpr harray
      have hel : (argSpecBody hash n).element = some (argSpecBody hash e) := by
        rw [element_argSpecBody h harray, hpointee]
        rfl
      rw [(ptrReady_element hs hel).1, (ptrReady_element hs hel).2,
        (@nodeReady_array c hash n p top harray).2, hpointee, hps]
      refine ⟨⟨ps, rfl, fun q hq => (ih (hall q hq).1 (hall q hq).2).1⟩, ?_⟩
      congr 2
      exact map_congr_left fun q hq => (ih (hall q hq).1 (hall q hq).2).2
    · exact ptrReady_of_buffer h harray hready

end Pointer

/-! ## The nodes of a record, and what they reach the handler as -/

/-- `w` is what the handler finds for the caller's pointer `q` at the pointer node `m`, which is met
from the node `n`, where it has `v` for `p`: through the elements of arrays and the fields of
structs, the touched ones or `all`. -/
inductive NodePos (c : Call) (st : PreState) (all : Bool) :
    Place → Node → ℕ → ℕ → Place → Node → ℕ → ℕ → Prop
  | here {place : Place} {n : Node} {p v : ℕ} (h : n.IsPtr) :
      NodePos c st all place n p v place n p v
  | element {place place' : Place} {n e m : Node} {es : List Node} {p v k x q w : ℕ} {ps : List ℕ}
      (h : n.IsPtr) (hp : p ≠ 0) (harray : n.IsArray) (hpointee : n.pointee = e :: es)
      (hps : readElems c p ptrArrayMax 0 = some ps) (hx : ps[k]? = some x)
      (hrest : NodePos c st all (.root false) e x (st.mem.getWord (v + 4 * k)) place' m q w) :
      NodePos c st all place n p v place' m q w
  | field {place place' : Place} {n s f m : Node} {p v q w : ℕ} (h : n.IsPtr) (hp : p ≠ 0)
      (harray : ¬ n.IsArray) (hs : n.structPointee = some s) (hf : f ∈ s.fields)
      (ht : all ∨ f.keys.touched)
      (hrest : NodePos c st all (.field s.fields p) f (c.wordAt p f.fieldOffset)
        (st.mem.getWord (v + f.fieldOffset)) place' m q w) :
      NodePos c st all place n p v place' m q w

/-- A null stays null, and any other pointer becomes a shadow of the declared size, in the arena. -/
def Arrives (c : Call) (st : PreState) (place : Place) (n : Node) (q w : ℕ) : Prop :=
  q = 0 ∧ w = 0 ∨ q ≠ 0 ∧ ∃ len, nodeSize c place n q = some len ∧ ⟨w, len⟩ ∈ st.shadows ∧
    c.grate.arena ≤ w ∧ w + len ≤ c.grate.arena + arenaSize

section Position

variable {st : PreState} {lo v w : ℕ} {place : Place} {m : Node}

theorem NodePos.isPtr {all : Bool} {place' : Place}
    (h : NodePos c st all place n p v place' m q w) : n.IsPtr := by
  cases h with
  | here h => exact h
  | element h => exact h
  | field h => exact h

theorem walkAll_iff {ns : List Node} : walkAll ns ↔ ∀ n ∈ ns, walk n := by
  induction ns with
  | nil => simp [walkAll]
  | cons n ns ih => simp [walkAll, ih]

theorem walk_iff : walk n ↔ n.keys.cursor = false ∧
    (n.IsPtr → n.keys.sizeKind ∈ supportedSize) ∧ (∀ m ∈ n.pointee, walk m) ∧
      ∀ m ∈ n.fields, walk m := by
  obtain ⟨keys, pointee, fields⟩ := n
  rw [walk, ← walkAll_iff, ← walkAll_iff, Node.IsPtr]
  simp only [Node.keys, Node.pointee, Node.fields]
  cases keys.cursor <;> by_cases hsize : keys.sizeKind ∈ supportedSize <;> simp [hsize]

/-- The pointer moves no cursor, and its size kind is one the tool knows. -/
def Node.Accepted (n : Node) : Prop :=
  n.keys.cursor = false ∧ n.keys.sizeKind ∈ supportedSize

theorem Node.mem_of_structPointee {s : Node} (h : n.structPointee = some s) : s ∈ n.pointee := by
  rw [Node.structPointee] at h
  cases hpointee : n.pointee with
  | nil => simp [hpointee] at h
  | cons s' ss =>
    simp only [hpointee, ite_none_right_eq_some] at h
    exact some.inj h.2 ▸ mem_cons_self

/-- Acceptance goes down to every pointer that is met. -/
theorem NodePos.accepted {all : Bool} {place' : Place}
    (hpos : NodePos c st all place n p v place' m q w) (h : walk n) : m.Accepted := by
  induction hpos with
  | here hptr => exact ⟨(walk_iff.mp h).1, (walk_iff.mp h).2.1 hptr⟩
  | element _ _ _ hpointee _ _ _ ih =>
    exact ih ((walk_iff.mp h).2.2.1 _ (by rw [hpointee]; exact mem_cons_self))
  | field _ _ _ hs hf _ _ ih =>
    have hs := (walk_iff.mp h).2.2.1 _ (Node.mem_of_structPointee hs)
    exact ih ((walk_iff.mp hs).2.2.2 _ hf)

theorem arrives_of_block {len : ℕ} (hwf : st.WF c.grate) (hq : q ≠ 0)
    (hsize : nodeSize c place n q = some len) (hblock : ⟨w, len⟩ ∈ st.shadows) :
    Arrives c st place n q w := by
  have hin := hwf.inside _ hblock
  have hle := hwf.used_le
  dsimp only at hin
  exact .inr ⟨hq, len, hsize, hblock, hin.1, by omega⟩

/-- **A touched field arrives**, and its pointee has no pointer of its own. -/
theorem arrives_of_fieldReached {s f : Node} {alloc : ℕ} (hwf : st.WF c.grate)
    (halloc : alloc ≤ arenaSize) (hready : StructNodeReady hash c n s p alloc)
    (hf : f ∈ s.fields) (ht : f.keys.touched)
    (hreached : FieldReached c lo st (emitLayout hash s) p v (emitField hash f))
    (hpos : NodePos c st false (.field s.fields p) f (c.wordAt p f.fieldOffset)
      (st.mem.getWord (v + f.fieldOffset)) place m q w) : Arrives c st place m q w := by
  have hptr := hpos.isPtr
  rw [FieldReached, offset_emitField halloc (hready.inside f hf ⟨ht, .inl hptr⟩)] at hreached
  cases hpos with
  | here =>
    rcases hreached with hnull | ⟨hne, -, len, hsize, hblock⟩
    · exact .inl hnull
    · obtain ⟨len', hchild⟩ := hready.child _ hf ht hptr hne
      obtain rfl := some.inj
        (hsize.symm.trans (fieldSize_emitField halloc hptr hready.few hchild))
      refine arrives_of_block hwf hne ?_ hblock
      rw [nodeSize, if_neg (not_isArray hchild.size)]
      exact hchild.size
  | element _ hne harray =>
    obtain ⟨len, hchild⟩ := hready.child f hf ht hptr hne
    exact absurd harray (not_isArray hchild.size)
  | field _ hne _ hs hf' ht' hrest =>
    obtain ⟨len, hchild⟩ := hready.child f hf ht hptr hne
    exact absurd hrest.isPtr (hchild.flat _ hs _ hf' (by simpa using ht'))

/-- **Every node behind a pointer that was reached arrives.** -/
theorem arrives_of_reached {root : Place} (hwf : st.WF c.grate) (hroot : root = .root top)
    (hp : p ≠ 0) (hready : NodeReady hash c top n p)
    (hreached : Reached c lo st top (argSpecBody hash n) p v)
    (hpos : NodePos c st false root n p v place m q w) : Arrives c st place m q w := by
  induction hpos generalizing top with
  | @here _ n p v h =>
    subst hroot
    by_cases harray : n.IsArray
    · obtain ⟨-, ps, hps, hblock, -⟩ :=
        (reached_array ((sizeKind_eq_ptrArray h).mpr harray)).mp hreached
      refine arrives_of_block hwf hp ?_ hblock
      rw [nodeSize, if_pos harray, hps]
      rfl
    · obtain ⟨len, hbuffer⟩ := (nodeReady_buffer harray).1.mp hready
      obtain ⟨-, len', hsize, hblock, -⟩ :=
        (reached_buffer (mt (sizeKind_eq_ptrArray h).mp harray)).mp hreached
      obtain rfl := Option.some.inj ((hbuffer.sized h).size.symm.trans hsize)
      rw [hbuffer.allocSize_eq h] at hblock
      refine arrives_of_block hwf hp ?_ hblock
      rw [nodeSize, if_neg harray]
      exact congrArg (Option.map _) hbuffer.size
  | @element _ place' n e m es p v k x q w ps h hp harray hpointee hps hx hrest ih =>
    obtain ⟨ps', hps', -, hall⟩ := (nodeReady_array harray).1.mp hready
    obtain rfl := Option.mem_unique hps hps'
    rw [hpointee] at hall
    obtain ⟨-, ps'', hps'', -, helems⟩ :=
      (reached_array ((sizeKind_eq_ptrArray h).mpr harray)).mp hreached
    obtain rfl := Option.mem_unique hps hps''
    rw [element_argSpecBody h harray, hpointee] at helems
    have hmem := mem_of_getElem? hx
    exact ih rfl (readElems_spec hps x hmem).1 (hall x hmem).2 (helems k x hx)
  | @field _ place' n s f m p v q w h hp harray hs hf ht hrest =>
    obtain ⟨len, hbuffer⟩ := (nodeReady_buffer harray).1.mp hready
    obtain ⟨-, len', -, -, hfields⟩ :=
      (reached_buffer (mt (sizeKind_eq_ptrArray h).mp harray)).mp hreached
    have hl : (argSpecBody hash n).layout = some (emitLayout hash s) := by
      rw [layout_argSpecBody h harray, hs]
      rfl
    have ht : f.keys.touched := by simpa using ht
    have hfield := (hfields _ hl (kind_emitLayout s) (emitField hash f)
      (by rw [fields_emitLayout]; exact mem_map_of_mem hf)
      ((touchedPtr_emitField f).mpr ⟨ht, hrest.isPtr⟩)).2
    exact arrives_of_fieldReached hwf hbuffer.fits (hbuffer.struct s hs).2 hf ht hfield hrest

end Position

/-! ## Whole calls -/

section Call

variable {i : ℕ}

/-- An argument the way in takes, as its node describes it. -/
def ArgNodeReady (hash : String → ℕ) (c : Call) (i : ℕ) (n : Node) : Prop :=
  c.rawArgs i ≠ 0 →
    (n.IsHandle → (translateHandle c.handles (handleClassId hash n.keys.handleClass)
      (c.rawArgs i)).isSome) ∧
      (n.IsPtr → NodeReady hash c true n (c.rawArgs i))

def argNodeNeed (c : Call) (i : ℕ) (n : Node) : ℕ :=
  if n.IsPtr ∧ c.rawArgs i ≠ 0 then nodeNeed c true n (c.rawArgs i) else 0

/-- What the arguments from index `i` on take of the arena. -/
def argsNodeNeed (c : Call) : ℕ → List Node → ℕ
  | _, [] => 0
  | i, n :: ns => argNodeNeed c i n + argsNodeNeed c (i + 1) ns

theorem argReady_of_node (hready : ArgNodeReady hash c i n) :
    ArgReady c i (argSpecBody hash n) ∧ argNeed c i (argSpecBody hash n) = argNodeNeed c i n := by
  refine ⟨fun hne => ⟨fun hk => ?_, fun hk => ?_⟩, ?_⟩
  · have hhandle := (kind_argSpecBody n).2.mp hk
    rw [handleClass_argSpecBody hhandle]
    exact (hready hne).1 hhandle
  · have hptr := (kind_argSpecBody n).1.mp hk
    exact (ptrReady_of_node hptr ((hready hne).2 hptr)).1
  · simp only [argNeed, argNodeNeed, (kind_argSpecBody n).1]
    split
    · next h => exact (ptrReady_of_node h.1 ((hready h.2).2 h.1)).2
    · rfl

theorem argsNeed_emitted {ns : List Node}
    (hready : ∀ (j : ℕ) n, ns[j]? = some n → ArgNodeReady hash c (i + j) n) :
    argsNeed c i (ns.map (argSpecBody hash)) = argsNodeNeed c i ns := by
  induction ns generalizing i with
  | nil => rfl
  | cons n ns ih =>
    have hrest := @ih (i + 1) fun j n hn => by
      rw [Nat.add_right_comm]
      exact hready (j + 1) n hn
    have hfirst := (argReady_of_node (hready 0 n rfl)).2
    rw [Nat.add_zero] at hfirst
    rw [map_cons, argsNeed, argsNodeNeed, hrest, hfirst]

theorem of_isMarshalable {f : FunctionRecord} (h : isMarshalable f) :
    f.args.length ≤ rawArgsMax ∧ ∀ n ∈ f.args, walk n := by
  rw [← walkAll_iff]
  simp only [isMarshalable, Bool.if_false_left, Bool.and_eq_true, Bool.not_eq_true',
    decide_eq_false_iff_not] at h
  obtain ⟨-, hlen, hargs⟩ := h
  refine ⟨not_lt.mp hlen, ?_⟩
  split at hargs
  · exact hargs
  · exact (Bool.and_eq_true_iff.mp hargs).2

/-- **What an accepted record promises.**  In a call whose pointers can be read for the sizes the
record declares and whose shadows fit the arena, the emitted spec does not trap before the handler,
and every pointer node that is an argument, an element of an array or a touched field arrives as a
shadow of the declared size, and is one the tool can size. -/
theorem preCall_emitted (f : FunctionRecord) (spec : MarshalSpec) (haccept : isMarshalable f)
    (hemit : emitFunctionSpec hash f = some spec)
    (hready : ∀ (i : ℕ) n, f.args[i]? = some n → ArgNodeReady hash c i n)
    (hroom : argsNodeNeed c 0 f.args ≤ arenaSize) (mem : Mem) :
    ∃ args shadows st, preCall c spec f.args.length mem = some (args, shadows, st) ∧
      ∀ (i : ℕ) n, f.args[i]? = some n → ∃ v, args[i]? = some v ∧
        ∀ place m q w, NodePos c st false (.root true) n (c.rawArgs i) v place m q w →
          m.Accepted ∧ Arrives c st place m q w := by
  obtain ⟨hargs, hwalk⟩ := of_isMarshalable haccept
  obtain ⟨name, -, hemit⟩ := bind_eq_some_iff.mp hemit
  obtain ⟨ret, -, rfl⟩ := map_eq_some_iff.mp hemit
  have hlen : (MarshalSpec.mk (f.args.map (argSpecBody hash)) (retSpecBody hash ret)).nargs
      = f.args.length := length_map _
  obtain ⟨args, shadows, st, h, hwf, hall⟩ := preCall_ready
    (hlen.trans_le hargs)
    (fun i s hs => by
      obtain ⟨n, hn, rfl⟩ := map_eq_some_iff.mp (getElem?_map.symm.trans hs)
      exact (argReady_of_node (hready i n hn)).1)
    ((argsNeed_emitted fun j n hn => by rw [Nat.zero_add]; exact hready j n hn).trans_le hroom) mem
  rw [hlen] at h
  refine ⟨args, shadows, st, h, fun i n hn => ?_⟩
  obtain ⟨v, hv, hreached⟩ := hall i (argSpecBody hash n) (by
    rw [getElem?_map, hn]
    rfl)
  refine ⟨v, hv, fun place m q w hpos => ?_⟩
  have hptr := hpos.isPtr
  refine ⟨hpos.accepted (hwalk n (mem_of_getElem? hn)), ?_⟩
  rcases hreached ((kind_argSpecBody n).1.mpr hptr) with ⟨hzero, rfl⟩ | ⟨hne, hreached⟩
  · -- behind a null there is nothing
    rw [hzero] at hpos
    cases hpos with
    | here => exact .inl ⟨rfl, rfl⟩
    | element _ hp => exact absurd rfl hp
    | field _ hp => exact absurd rfl hp
  · exact arrives_of_reached hwf rfl hne ((hready i n hn hne).2 hptr) hreached hpos

end Call

variable (touched : Bool)

/-- A pointer to 4 bytes, at the front of its struct. -/
def heldNode : Node :=
  .mk { kind := some .ptr, constSize := some 4, touched := touched } [] []

/-- A pointer to a struct of 8 bytes that has such a field. -/
def holderNode : Node :=
  .mk { kind := some .ptr, constSize := some 8 }
    [.mk { kind := some .struct, size := some 8 } [] [heldNode touched]] []

def holderRecord : FunctionRecord := ⟨some "holder", [holderNode touched], none⟩

theorem nodeReady_holder (touched : Bool) :
    ∀ (i : ℕ) n, (holderRecord touched).args[i]? = some n →
      ArgNodeReady (fun _ => 0) (smallCall [(0x100, 0x200)] 0x100) i n := by
  intro i n hn
  cases i with
  | succ i => exact absurd hn (by simp [holderRecord])
  | zero =>
    cases hn
    have hcopy : ∀ addr ∈ [0x100, 0x200], ∀ len ∈ [4, 8],
        CopyAllowed (smallCall [(0x100, 0x200)] 0x100) (fun _ _ => true) addr len := by decide
    refine fun _ => ⟨nofun, fun _ => ⟨8, rfl, by decide, (by decide : 8 ≤ arenaSize), nofun, nofun,
      fun _ _ => hcopy 0x100 (by decide) 8 (by decide), ?_⟩⟩
    rintro st ⟨⟩
    refine ⟨(by decide : 8 < 2 ^ 32), (by decide : 1 < 2 ^ 32), fun _ _ _ => nofun, ?_,
      pairwise_singleton _ _, ?_, ?_⟩
    · exact forall_mem_singleton.mpr fun _ => (by decide : 0 + 4 ≤ 8)
    · exact forall_mem_singleton.mpr fun _ => nofun
    · refine forall_mem_singleton.mpr fun _ _ _ => ⟨4, rfl, by decide, nofun, nofun, ?_, nofun⟩
      have hword : (smallCall [(0x100, 0x200)] 0x100).wordAt 0x100 0 = 0x200 := by decide
      exact fun _ _ => (congrArg (CopyAllowed _ _ · 4) hword).mpr
        (hcopy 0x200 (by decide) 4 (by decide))

/-- The holder with a touched field, whose pointee has a shadow of its own. -/
theorem preCall_emitted_touched : isMarshalable (holderRecord true) ∧
    ∃ spec args shadows st, emitFunctionSpec (fun _ => 0) (holderRecord true) = some spec ∧
      preCall (smallCall [(0x100, 0x200)] 0x100) spec 1 (fun _ => 0) = some (args, shadows, st) ∧
      ∀ (i : ℕ) n, (holderRecord true).args[i]? = some n → ∃ v, args[i]? = some v ∧
        ∀ place m q w, NodePos (smallCall [(0x100, 0x200)] 0x100) st false (.root true) n
          ((smallCall [(0x100, 0x200)] 0x100).rawArgs i) v place m q w →
          m.Accepted ∧ Arrives (smallCall [(0x100, 0x200)] 0x100) st place m q w := by
  have haccept : isMarshalable (holderRecord true) := by decide +kernel
  obtain ⟨args, shadows, st, h, hall⟩ := preCall_emitted (holderRecord true) _ haccept rfl
    (nodeReady_holder true) (by decide) (fun _ => 0)
  exact ⟨haccept, _, args, shadows, st, rfl, h, hall⟩

/-- **An untouched pointer is passed on**: the record is accepted and the call is ready, and the
handler finds the caller's 0x200 where the record has a pointer. -/
theorem preCall_emitted_untouched : isMarshalable (holderRecord false) ∧
    (∀ (i : ℕ) n, (holderRecord false).args[i]? = some n →
      ArgNodeReady (fun _ => 0) (smallCall [(0x100, 0x200)] 0x100) i n) ∧
    argsNodeNeed (smallCall [(0x100, 0x200)] 0x100) 0 (holderRecord false).args ≤ arenaSize ∧
    ∃ spec args shadows st, emitFunctionSpec (fun _ => 0) (holderRecord false) = some spec ∧
      preCall (smallCall [(0x100, 0x200)] 0x100) spec 1 (fun _ => 0) = some (args, shadows, st) ∧
      args[0]? = some 4096 ∧
      NodePos (smallCall [(0x100, 0x200)] 0x100) st true (.root true) (holderNode false) 0x100 4096
        (.field [heldNode false] 0x100) (heldNode false) 0x200 0x200 ∧
      ¬ Arrives (smallCall [(0x100, 0x200)] 0x100) st (.field [heldNode false] 0x100)
        (heldNode false) 0x200 0x200 := by
  refine ⟨by decide +kernel, nodeReady_holder false, by decide, _, _, _, _, rfl, rfl, rfl, ?_, ?_⟩
  · exact .field rfl (by decide) (by decide) rfl mem_cons_self (.inl rfl) (.here rfl)
  · rintro (⟨h, -⟩ | ⟨-, len, -, -, h, -⟩)
    · exact absurd h (by decide)
    · exact absurd h (by decide)

end LindWasm.MarshalGen
