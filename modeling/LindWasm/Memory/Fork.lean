import LindWasm.Memory.Backed

/-!
# Memory/Fork — the child's memory after a fork

    parent page q  --mremap-->  child page q       a `MAP_SHARED` entry: the same object
    parent page q  --copy---->  child page q       any other entry: the same bytes

`forkVmmap` walks the parent's entries and takes each one's pages from the bounds the entry itself
names, and what to do with them from its flags. Where every accessible entry names exactly its key,
and none of them is a System V segment, the child has every accessible page and nothing else
(`forked_run`).
-/

namespace LindWasm.Memory

open IntervalMap LawfulOnValid LawfulIntervalMap List Region

variable {M : Type*} {r rp rc : Region}

/-! ## Bytes -/

/-- The bytes of a page. -/
abbrev PageBytes := ℕ → BitVec 8

/-- The host with what its pages hold: a private page its own bytes, a shared one those of its
object. `reads` logs the pages that were read, successfully or not. -/
structure Machine where
  host : Host
  priv : ℕ → PageBytes
  objects : MemObject → ℕ → PageBytes
  reads : List ℕ

namespace Machine

/-- What a page holds. -/
def read (m : Machine) (p : ℕ) : PageBytes :=
  match (m.host p).shared with
  | some (o, i) => m.objects o i
  | none => m.priv p

/-- Write a whole page. -/
def store (m : Machine) (p : ℕ) (bytes : PageBytes) : Machine :=
  match (m.host p).shared with
  | some (o, i) => { m with
      objects := fun o' i' => if o' = o ∧ i' = i then bytes else m.objects o' i' }
  | none => { m with priv := fun p' => if p' = p then bytes else m.priv p' }

/-- `mremap` with an old size of 0: the pages of the shared mapping at `src` once more at `dst`; a
private one is refused. -/
def mremap (m : Machine) (src dst npages : ℕ) : Machine :=
  match (m.host src).shared with
  | some object => { m with host := m.host.map dst npages (m.host src).prot (some object) }
  | none => m

/-- `mprotect`. -/
def protect (m : Machine) (page npages : ℕ) (prot : BitVec 32) : Machine :=
  { m with host := m.host.protect page npages prot }

/-- `process_vm_writev`: page after page, up to the first one that cannot be read. -/
def writev (m : Machine) (src dst : ℕ) : ℕ → Machine
  | 0 => m
  | n + 1 =>
      let m := { m with reads := src :: m.reads }
      if (m.host src).prot = protNone then m
      else writev (m.store dst (m.read src)) (src + 1) (dst + 1) n

end Machine

/-! ## The loop over the parent's entries -/

/-- The pages a new cage reserves: inaccessible and private. -/
def reserve (r : Region) (host : Host) : Host := host.map (r.page 0) defaultVmmapSize protNone none

/-- One round of `fork_vmmap`; `none` if the copy that stands in for a failed one faults. -/
def forkEntry (parent child : Vmmap M) (m : Machine) (entry : VmmapEntry) : Option Machine :=
  if entry.prot = protNone then some m
  else
    let addrSt := entry.pageNum * pageSize % 2 ^ 32
    let addrLen := entry.npages * pageSize % 2 ^ 32
    (parent.userToSys addrSt).bind fun parentSt =>
      (child.userToSys addrSt).bind fun childSt =>
        let src := parentSt / pageSize
        let dst := childSt / pageSize
        let npages := addrLen / pageSize
        if entry.flags &&& mapShared ≠ 0 then some (m.mremap src dst npages)
        else
          let m := m.protect dst npages (protRead ||| protWrite)
          -- nothing copied is an error, and `copy_nonoverlapping` then hits the same page
          if 0 < npages ∧ (m.host src).prot = protNone then none
          else some ((m.writev src dst npages).protect dst npages entry.prot)

variable [IntervalMap M VmmapEntry]

/-- `fork_vmmap`. -/
def forkVmmap (parent child : Vmmap M) (m : Machine) : Option (Machine × Vmmap M) :=
  ((iter parent.entries).foldlM (fun m kv => forkEntry parent child m kv.2) m).map fun m =>
    (m, { child with heapStart := parent.heapStart })

/-- The two regions share no address. -/
def Region.Apart (rp rc : Region) : Prop :=
  rp.base + 2 ^ 32 ≤ rc.base ∨ rc.base + 2 ^ 32 ≤ rp.base
deriving Decidable

/-- **What a fork owes the child**, page by page: `m` is the machine before, `m'` after. -/
structure Forked (rp rc : Region) (parent : Vmmap M) (m m' : Machine) : Prop where
  /-- An accessible page has the parent's bytes… -/
  bytes : ∀ q e, parent.findPage q = some e → e.prot ≠ protNone →
    m'.read (rc.page q) = m.read (rp.page q)
  /-- …and the protection of its entry. -/
  prot : ∀ q e, parent.findPage q = some e → e.prot ≠ protNone →
    (m'.host (rc.page q)).prot = e.prot
  /-- A page of a shared mapping or of a segment shows an object, and the same one in the child. -/
  object : ∀ q e, parent.findPage q = some e → IsShared e ∨ e.backing.IsSharedMemory →
    (m.host (rp.page q)).shared.isSome ∧
      (m'.host (rc.page q)).shared = (m.host (rp.page q)).shared
  /-- …and so does any accessible page, shared or not. -/
  shared : ∀ q e, parent.findPage q = some e → e.prot ≠ protNone →
    (m'.host (rc.page q)).shared = (m.host (rp.page q)).shared
  /-- A page without an entry stays inaccessible. -/
  uncovered : ∀ q < defaultVmmapSize, parent.findPage q = none →
    (m'.host (rc.page q)).prot = protNone
  /-- No inaccessible page is read… -/
  reads : ∀ p ∈ m'.reads, (m.host p).prot ≠ protNone
  /-- …and the parent has its memory as before. -/
  kept : ∀ q < defaultVmmapSize, m'.host (rp.page q) = m.host (rp.page q) ∧
    m'.read (rp.page q) = m.read (rp.page q)

/-- No entry is a System V segment, none of the shared ones is inaccessible, and each accessible one
names exactly the pages of its key, fewer than the whole region. -/
def ForkOk (vm : Vmmap M) : Prop :=
  ∀ kv ∈ iter vm.entries, ¬ kv.2.backing.IsSharedMemory ∧
    (IsShared kv.2 → kv.2.prot ≠ protNone) ∧
    (kv.2.prot ≠ protNone → kv.2.pageNum = kv.1.start ∧
      kv.2.pageNum + kv.2.npages = kv.1.last + 1 ∧ kv.2.npages < defaultVmmapSize)
deriving Decidable

/-! ## The host calls -/

namespace Machine

variable {m m' : Machine}

variable {p src dst n page : ℕ} {prot : BitVec 32}

/-- A read depends on the page's object, its own bytes and the objects' bytes. -/
theorem read_congr (hshared : (m'.host p).shared = (m.host p).shared) (hpriv : m'.priv p = m.priv p)
    (hobj : m'.objects = m.objects) : m'.read p = m.read p := by
  unfold read
  rw [hshared, hpriv, hobj]

theorem read_of_private (h : (m.host p).shared = none) : m.read p = m.priv p := by
  unfold read
  rw [h]

/-- One page copied from a readable page to a private one. -/
def copyPage (m : Machine) (src dst : ℕ) : Machine :=
  { m with
    reads := src :: m.reads
    priv := fun p => if p = dst then m.read src else m.priv p }

theorem read_copyPage (hp : p ≠ dst) : (m.copyPage src dst).read p = m.read p :=
  read_congr rfl (if_neg hp) rfl

theorem writev_succ (hsrc : (m.host src).prot ≠ protNone) (hdst : (m.host dst).shared = none) :
    m.writev src dst (n + 1) = (m.copyPage src dst).writev (src + 1) (dst + 1) n := by
  rw [writev, if_neg hsrc, store]
  simp only [hdst]
  rfl

theorem shared_protect : ((m.protect page n prot).host p).shared = (m.host p).shared := by
  rw [protect]
  dsimp only [Host.protect]
  split <;> rfl

theorem host_protect (h : ¬ (page ≤ p ∧ p < page + n)) :
    (m.protect page n prot).host p = m.host p := if_neg h

theorem read_protect :
    (m.protect page n prot).read p = m.read p := read_congr shared_protect rfl rfl

section

variable (hacc : ∀ i < n, (m.host (src + i)).prot ≠ protNone)
  (hpriv : ∀ i < n, (m.host (dst + i)).shared = none) (hapart : src + n ≤ dst ∨ dst + n ≤ src)
include hacc hpriv hapart

/-- **A copy between readable and private pages** puts every page of the source into its place and
changes nothing else. -/
theorem writev_spec :
    (m.writev src dst n).host = m.host ∧ (m.writev src dst n).objects = m.objects ∧
      (∀ p, (m.writev src dst n).priv p
        = if dst ≤ p ∧ p < dst + n then m.read (src + (p - dst)) else m.priv p) ∧
      ∀ p ∈ (m.writev src dst n).reads, p ∈ m.reads ∨ (src ≤ p ∧ p < src + n) := by
  induction n generalizing m src dst with
  | zero =>
    refine ⟨rfl, rfl, fun p => ?_, fun p hp => .inl hp⟩
    rw [if_neg (by omega)]
    rfl
  | succ n ih =>
    obtain ⟨ihhost, ihobj, ihpriv, ihreads⟩ := @ih (m.copyPage src dst) (src + 1) (dst + 1)
      (fun i hi => by
        rw [Nat.add_right_comm, Nat.add_assoc]
        exact hacc (i + 1) (by omega))
      (fun i hi => by
        rw [Nat.add_right_comm, Nat.add_assoc]
        exact hpriv (i + 1) (by omega)) (by omega)
    have hstep : m.writev src dst (n + 1) = (m.copyPage src dst).writev (src + 1) (dst + 1) n :=
      writev_succ (hacc 0 (by omega)) (hpriv 0 (by omega))
    rw [hstep]
    refine ⟨ihhost, ihobj, fun p => ?_, fun p hp => ?_⟩
    · rw [ihpriv]
      by_cases hp : p = dst
      · subst hp
        rw [if_neg (by omega), if_pos (by omega), Nat.sub_self]
        exact if_pos rfl
      · by_cases hin : dst + 1 ≤ p ∧ p < dst + 1 + n
        · rw [if_pos hin, if_pos (by omega), read_copyPage (by omega)]
          congr 1
          omega
        · rw [if_neg hin, if_neg (by omega)]
          exact if_neg hp
    · rcases ihreads p hp with hp | hp
      · rcases mem_cons.mp hp with rfl | hp
        · exact .inr ⟨le_rfl, by omega⟩
        · exact .inl hp
      · exact .inr (by omega)

/-- **The three calls of a private entry**: the pages are opened, written and protected again. -/
theorem copy_spec {opened : BitVec 32}
    (hm' : m' = ((m.protect dst n opened).writev src dst n).protect dst n prot) :
    m'.objects = m.objects ∧
      (∀ p, dst ≤ p ∧ p < dst + n →
        m'.host p = ⟨prot, none⟩ ∧ m'.priv p = m.read (src + (p - dst))) ∧
      (∀ p, ¬ (dst ≤ p ∧ p < dst + n) → m'.host p = m.host p ∧ m'.priv p = m.priv p) ∧
      ∀ p ∈ m'.reads, p ∈ m.reads ∨ (src ≤ p ∧ p < src + n) := by
  obtain ⟨hhost, hobj, hbytes, hreads⟩ := @writev_spec (m.protect dst n opened) src dst n
    (fun i hi => by
      rw [host_protect (by omega)]
      exact hacc i hi)
    (fun i hi => by
      rw [shared_protect]
      exact hpriv i hi) hapart
  subst hm'
  refine ⟨hobj, fun p hp => ⟨(if_pos hp).trans ?_, ?_⟩, fun p hp => ⟨(if_neg hp).trans ?_, ?_⟩,
    hreads⟩
  · have hshared := hpriv (p - dst) (by omega)
    rw [Nat.add_sub_cancel' hp.1] at hshared
    rw [hhost, shared_protect, hshared]
  · exact ((hbytes p).trans (if_pos hp)).trans read_protect
  · rw [hhost, host_protect hp]
  · exact (hbytes p).trans (if_neg hp)

end

end Machine

/-! ## One round

`Copied … D m` says where the loop stands: the child's pages in `D` are done, everything else is as
it was in `m₀`. -/

/-- The child's pages in `D` show what the parent's do, with the protection `prots`; nothing else
has changed, and only parent pages in `D` were read. -/
structure Copied (rp rc : Region) (m₀ : Machine) (prots : ℕ → BitVec 32) (D : ℕ → Prop)
    (m : Machine) : Prop where
  objects : m.objects = m₀.objects
  frame : ∀ p, (∀ q, D q → p ≠ rc.page q) → m.host p = m₀.host p ∧ m.priv p = m₀.priv p
  prot : ∀ q, D q → (m.host (rc.page q)).prot = prots q
  shared : ∀ q, D q → (m.host (rc.page q)).shared = (m₀.host (rp.page q)).shared
  bytes : ∀ q, D q → m.read (rc.page q) = m₀.read (rp.page q)
  reads : ∀ p ∈ m.reads, ∃ q, D q ∧ p = rp.page q

theorem Region.page_add (r : Region) (p i : ℕ) : r.page (p + i) = r.page p + i :=
  (Nat.add_assoc ..).symm

variable {p q : ℕ}

theorem Region.page_inj : r.page p = r.page q ↔ p = q := Nat.add_left_cancel_iff

theorem Region.Apart.ranges (h : rp.Apart rc) {n k : ℕ} (hp : p + n ≤ defaultVmmapSize)
    (hq : q + k ≤ defaultVmmapSize) : rp.page p + n ≤ rc.page q ∨ rc.page q + k ≤ rp.page p := by
  have := rp.base_aligned
  have := rc.base_aligned
  unfold Region.Apart at h
  unfold Region.page
  rw [pageSize_eq] at *
  rw [defaultVmmapSize_eq] at *
  omega

theorem Region.Apart.page_ne (h : rp.Apart rc) (hp : p < defaultVmmapSize)
    (hq : q < defaultVmmapSize) : rp.page p ≠ rc.page q := by
  have := h.ranges (n := 1) (k := 1) hp hq
  omega

section Round

variable {m₀ m m' : Machine} {prots : ℕ → BitVec 32} {D : ℕ → Prop} {k : Interval}
  (hC : Copied rp rc m₀ prots D m)
include hC

/-- **A round that finishes the pages of `k`** and touches nothing else extends `D` by them. -/
theorem Copied.extend (hD : ∀ q ∈ k, ¬ D q) (hobj : m'.objects = m.objects)
    (hframe : ∀ p, (∀ q ∈ k, p ≠ rc.page q) → m'.host p = m.host p ∧ m'.priv p = m.priv p)
    (hprot : ∀ q ∈ k, (m'.host (rc.page q)).prot = prots q)
    (hshared : ∀ q ∈ k, (m'.host (rc.page q)).shared = (m₀.host (rp.page q)).shared)
    (hbytes : ∀ q ∈ k, m'.read (rc.page q) = m₀.read (rp.page q))
    (hreads : ∀ p ∈ m'.reads, p ∈ m.reads ∨ ∃ q ∈ k, p = rp.page q) :
    Copied rp rc m₀ prots (fun q => D q ∨ q ∈ k) m' := by
  -- a page of `D` is off `k`
  have hoff : ∀ q, D q → m'.host (rc.page q) = m.host (rc.page q) ∧
      m'.priv (rc.page q) = m.priv (rc.page q) := fun q hq =>
    hframe _ fun q' hq' he => hD q' hq' (page_inj.mp he ▸ hq)
  refine ⟨hobj.trans hC.objects, fun p hp => ?_, ?_, ?_, ?_, fun p hp => ?_⟩
  · obtain ⟨hh, hpr⟩ := hframe p fun q hq => hp q (.inr hq)
    obtain ⟨hh', hpr'⟩ := hC.frame p fun q hq => hp q (.inl hq)
    exact ⟨hh.trans hh', hpr.trans hpr'⟩
  · rintro q (hq | hq)
    · rw [(hoff q hq).1]
      exact hC.prot q hq
    · exact hprot q hq
  · rintro q (hq | hq)
    · rw [(hoff q hq).1]
      exact hC.shared q hq
    · exact hshared q hq
  · rintro q (hq | hq)
    · exact (Machine.read_congr (by rw [(hoff q hq).1]) (hoff q hq).2 hobj).trans (hC.bytes q hq)
    · exact hbytes q hq
  · rcases hreads p hp with hp | ⟨q, hq, rfl⟩
    · obtain ⟨q, hq, rfl⟩ := hC.reads p hp
      exact ⟨q, .inl hq, rfl⟩
    · exact ⟨q, .inr hq, rfl⟩

/-- The parent's pages are as before… -/
theorem Copied.parent (hapart : rp.Apart rc) (hD : ∀ q, D q → q < defaultVmmapSize)
    (hq : q < defaultVmmapSize) :
    m.host (rp.page q) = m₀.host (rp.page q) ∧ m.read (rp.page q) = m₀.read (rp.page q) := by
  obtain ⟨hh, hp⟩ := hC.frame (rp.page q) fun q' hq' => hapart.page_ne hq (hD q' hq')
  exact ⟨hh, Machine.read_congr (by rw [hh]) hp hC.objects⟩

/-- …and so are the child's pages off `D`. -/
theorem Copied.child (hq : ¬ D q) : m.host (rc.page q) = m₀.host (rc.page q) :=
  (hC.frame (rc.page q) fun _ hq' he => hq (page_inj.mp he ▸ hq')).1

end Round

/-- What a round needs to know of its entry: its key lies in the region, the entry names exactly the
key, and the host shows there what the entry says. -/
structure Copyable (rp rc : Region) (m₀ : Machine) (k : Interval) (e : VmmapEntry) : Prop where
  valid : k.Valid
  inside : k.last < defaultVmmapSize
  start : e.pageNum = k.start
  stop : e.pageNum + e.npages = k.last + 1
  short : e.npages < defaultVmmapSize
  accessible : e.prot ≠ protNone
  prot : ∀ q ∈ k, (m₀.host (rp.page q)).prot = e.prot
  backed : BackedAt rp m₀.host k e
  plain : ¬ e.backing.IsSharedMemory
  fresh : ∀ q ∈ k, (m₀.host (rc.page q)).shared = none

section Entry

variable {m₀ m : Machine} {prots : ℕ → BitVec 32} {D : ℕ → Prop} {k : Interval} {e : VmmapEntry}
  {parent child : Vmmap M} (hp : parent.baseAddress = some rp.base)
  (hc : child.baseAddress = some rc.base) (hapart : rp.Apart rc)
omit [IntervalMap M VmmapEntry]

include hp hc hapart in
/-- The addresses of a round: the key's first page in both regions, and its length. -/
theorem forkEntry_eq (h : Copyable rp rc m₀ k e)
    (hreadable : (m.host (rp.page k.start)).prot ≠ protNone) :
    forkEntry parent child m e = some (if IsShared e then
      m.mremap (rp.page k.start) (rc.page k.start) e.npages
    else ((m.protect (rc.page k.start) e.npages (protRead ||| protWrite)).writev (rp.page k.start)
      (rc.page k.start) e.npages).protect (rc.page k.start) e.npages e.prot) := by
  have hvalid : k.start ≤ k.last := h.valid
  have hinside := h.inside
  have hstart := h.start
  have hstop := h.stop
  have hshort := h.short
  have hfits := rp.fits
  have hfits' := rc.fits
  have hsmall : k.start * pageSize < 2 ^ 32 := by
    rw [defaultVmmapSize_eq] at hinside
    rw [pageSize_eq]
    omega
  have hlen : e.npages * pageSize % 2 ^ 32 / pageSize = e.npages := by
    rw [defaultVmmapSize_eq] at hshort
    rw [pageSize_eq]
    omega
  have hpage : k.start * pageSize / pageSize = k.start := Nat.mul_div_cancel _ (by decide)
  have hp' : parent.userToSys (k.start * pageSize) = some (k.start * pageSize + rp.base) :=
    (Vmmap.userToSys_eq_some hp).mpr ⟨by omega, rfl⟩
  have hc' : child.userToSys (k.start * pageSize) = some (k.start * pageSize + rc.base) :=
    (Vmmap.userToSys_eq_some hc).mpr ⟨by omega, rfl⟩
  unfold forkEntry
  rw [if_neg h.accessible]
  simp only [hstart, Nat.mod_eq_of_lt hsmall, hp', hc', Option.bind_some, div_pageSize,
    hpage, hlen]
  by_cases hsh : IsShared e
  · rw [if_pos hsh]
    exact if_pos hsh
  · -- the parent's page is not among the child's pages that were opened
    have hapart' := hapart.ranges (p := k.start) (q := k.start) (n := 1) (k := e.npages)
      (by omega) (by omega)
    have hsame : ((m.protect (rc.page k.start) e.npages (protRead ||| protWrite)).host
        (rp.page k.start)).prot ≠ protNone := by
      rw [Machine.host_protect (by omega)]
      exact hreadable
    rw [if_neg hsh]
    exact (if_neg hsh).trans (if_neg fun hno => hsame hno.2)

theorem Copyable.mem_range (h : Copyable rp rc m₀ k e) {p : ℕ} :
    (rc.page k.start ≤ p ∧ p < rc.page k.start + e.npages) ↔ ∃ q ∈ k, p = rc.page q := by
  have hstart := h.start
  have hstop := h.stop
  constructor
  · intro hp
    refine ⟨k.start + (p - rc.page k.start), ⟨by omega, by omega⟩, ?_⟩
    unfold Region.page at *
    omega
  · rintro ⟨q, ⟨hq, hq'⟩, rfl⟩
    exact ⟨page_le_page.mpr hq, page_lt_page_add.mpr (by omega)⟩

section

variable (h : Copyable rp rc m₀ k e) (hprots : ∀ q ∈ k, prots q = e.prot)
  (hC : Copied rp rc m₀ prots D m) (hD : ∀ q ∈ k, ¬ D q)
include h hprots hC hD

/-- `mremap` of a shared entry: the object at the key's first page runs on through the key. -/
theorem copied_mremap (hsh : IsShared e)
    (hparent : ∀ q ∈ k, m.host (rp.page q) = m₀.host (rp.page q)) :
    Copied rp rc m₀ prots (fun q => D q ∨ q ∈ k)
      (m.mremap (rp.page k.start) (rc.page k.start) e.npages) := by
  have hfirst : k.start ∈ k := ⟨le_rfl, h.valid⟩
  obtain ⟨o, i, hi⟩ := h.backed.1 hsh
  obtain ⟨m', hm'⟩ : ∃ m' : Machine, m' = { m with
    host := m.host.map (rc.page k.start) e.npages (m.host (rp.page k.start)).prot
      (some (o, i)) } := ⟨_, rfl⟩
  have hremap : m.mremap (rp.page k.start) (rc.page k.start) e.npages = m' := by
    have hobj : (m.host (rp.page k.start)).shared = some (o, i) := by
      rw [hparent _ hfirst, hi _ hfirst, Nat.sub_self, Nat.add_zero]
    rw [Machine.mremap, hobj, hm']
  have hpage : ∀ q ∈ k, m'.host (rc.page q) = ⟨e.prot, some (o, i + (q - k.start))⟩ := by
    intro q hq
    have hin := h.mem_range.mpr ⟨q, hq, rfl⟩
    rw [hm']
    dsimp only
    rw [Host.map_page, if_pos ⟨page_le_page.mp hin.1, page_lt_page_add.mp hin.2⟩,
      hparent _ hfirst, h.prot _ hfirst]
    rfl
  have hobjects : m'.objects = m₀.objects := by
    rw [hm']
    exact hC.objects
  rw [hremap]
  refine hC.extend hD (by rw [hm']) (fun p hp => ?_) (fun q hq => ?_) (fun q hq => ?_)
    (fun q hq => ?_) fun p hp => .inl (by rwa [hm'] at hp)
  · rw [hm']
    exact ⟨if_neg fun hin => (h.mem_range.mp hin).elim fun q hq => hp q hq.1 hq.2, rfl⟩
  · rw [hpage q hq, hprots q hq]
  · rw [hpage q hq, hi q hq]
  · simp only [Machine.read, hpage q hq, hi q hq, hobjects]

include hapart

theorem copied_writev (hsh : ¬ IsShared e)
    (hparent : ∀ q ∈ k, m.host (rp.page q) = m₀.host (rp.page q) ∧
      m.read (rp.page q) = m₀.read (rp.page q)) :
    Copied rp rc m₀ prots (fun q => D q ∨ q ∈ k)
      (((m.protect (rc.page k.start) e.npages (protRead ||| protWrite)).writev (rp.page k.start)
        (rc.page k.start) e.npages).protect (rc.page k.start) e.npages e.prot) := by
  have hinside := h.inside
  have hstop := h.stop
  have hstart := h.start
  have hmem : ∀ i < e.npages, k.start + i ∈ k := fun i hi => ⟨by omega, by omega⟩
  have hin : ∀ q ∈ k, rc.page k.start ≤ rc.page q ∧ rc.page q < rc.page k.start + e.npages :=
    fun q hq => h.mem_range.mpr ⟨q, hq, rfl⟩
  obtain ⟨hobj, hcopied, hkept, hreads⟩ := Machine.copy_spec
    (fun i hi => by
      rw [← page_add, (hparent _ (hmem i hi)).1, h.prot _ (hmem i hi)]
      exact h.accessible)
    (fun i hi => by
      rw [← page_add, hC.child (hD _ (hmem i hi)), h.fresh _ (hmem i hi)])
    (hapart.ranges (by omega) (by omega)) rfl
  refine hC.extend hD hobj (fun p hp => hkept p fun hp' => ?_) (fun q hq => ?_) (fun q hq => ?_)
    (fun q hq => ?_) fun p hp => (hreads p hp).imp id fun hp => ?_
  · obtain ⟨q, hq, rfl⟩ := h.mem_range.mp hp'
    exact hp q hq rfl
  · rw [(hcopied _ (hin q hq)).1, hprots q hq]
  · rw [(hcopied _ (hin q hq)).1, h.backed.2 hsh h.plain q hq]
  · have hpage : rp.page k.start + (rc.page q - rc.page k.start) = rp.page q := by
      have := hin q hq
      unfold Region.page at *
      omega
    rw [Machine.read_of_private (by rw [(hcopied _ (hin q hq)).1]), (hcopied _ (hin q hq)).2, hpage]
    exact (hparent q hq).2
  · refine ⟨k.start + (p - rp.page k.start), hmem _ (by omega), ?_⟩
    unfold Region.page at *
    omega

include hp hc

/-- **One round**: the child gets the pages of the key. -/
theorem forkEntry_copied (hDlt : ∀ q, D q → q < defaultVmmapSize) :
    ∃ m', forkEntry parent child m e = some m' ∧
      Copied rp rc m₀ prots (fun q => D q ∨ q ∈ k) m' := by
  have hfirst : k.start ∈ k := ⟨le_rfl, h.valid⟩
  have hparent : ∀ q ∈ k, m.host (rp.page q) = m₀.host (rp.page q) ∧
      m.read (rp.page q) = m₀.read (rp.page q) := fun q hq =>
    hC.parent hapart hDlt (hq.2.trans_lt h.inside)
  have hreadable : (m.host (rp.page k.start)).prot ≠ protNone := by
    rw [(hparent _ hfirst).1, h.prot _ hfirst]
    exact h.accessible
  refine ⟨_, forkEntry_eq hp hc hapart h hreadable, ?_⟩
  split
  · next hsh => exact copied_mremap h hprots hC hD hsh fun q hq => (hparent q hq).1
  · next hsh => exact copied_writev hapart h hprots hC hD hsh hparent

end

include hp hc hapart

/-- **The loop**: after it the child has the pages of every accessible entry. -/
theorem forkLoop_copied {l : List (Interval × VmmapEntry)} (hl : SortedEntries l)
    (hgood : ∀ kv ∈ l, kv.2.prot ≠ protNone →
      Copyable rp rc m₀ kv.1 kv.2 ∧ ∀ q ∈ kv.1, prots q = kv.2.prot)
    (hC : Copied rp rc m₀ prots D m) (hDlt : ∀ q, D q → q < defaultVmmapSize)
    (hD : ∀ kv ∈ l, ∀ q ∈ kv.1, ¬ D q) :
    ∃ m', l.foldlM (fun m kv => forkEntry parent child m kv.2) m = some m' ∧
      Copied rp rc m₀ prots (fun q => D q ∨ ∃ kv ∈ l, kv.2.prot ≠ protNone ∧ q ∈ kv.1) m' := by
  induction l generalizing D m with
  | nil => exact ⟨m, rfl, by simpa using hC⟩
  | cons kv l ih =>
    obtain ⟨hgood₁, hgood⟩ := forall_mem_cons.mp hgood
    obtain ⟨hD₁, hD⟩ := forall_mem_cons.mp hD
    simp only [foldlM_cons, exists_mem_cons_iff]
    by_cases hprot : kv.2.prot = protNone
    · obtain ⟨m', hm', hC'⟩ := ih hl.tail hgood hC hDlt hD
      refine ⟨m', ?_, by simpa [hprot] using hC'⟩
      rw [show forkEntry parent child m kv.2 = some m from if_pos hprot]
      exact hm'
    · obtain ⟨hcopy, hprots⟩ := hgood₁ hprot
      obtain ⟨m₁, hm₁, hC₁⟩ := forkEntry_copied hp hc hapart hcopy hprots hC hD₁ hDlt
      have hlater : ∀ kv' ∈ l, ∀ q ∈ kv'.1, ¬ (D q ∨ q ∈ kv.1) := by
        rintro kv' hkv' q hq (hDq | hqk)
        · exact hD kv' hkv' q hq hDq
        · have := (pairwise_cons.mp hl.sorted).1 kv' hkv'
          rw [Interval.mem_def] at hq hqk
          omega
      have hlt : ∀ q, D q ∨ q ∈ kv.1 → q < defaultVmmapSize := by
        rintro q (hq | hq)
        · exact hDlt q hq
        · exact hq.2.trans_lt hcopy.inside
      obtain ⟨m', hm', hC'⟩ := ih hl.tail hgood hC₁ hlt hlater
      refine ⟨m', ?_, by simpa [hprot, or_assoc] using hC'⟩
      rw [hm₁]
      exact hm'

end Entry

/-! ## The whole fork -/

section Fork

variable [LawfulIntervalMap M] {s : State M} {child : Vmmap M} {priv : ℕ → PageBytes}
  {objects : MemObject → ℕ → PageBytes} {host : Host}

/-- The machine a fork starts from: the parent's pages, and the child's newly reserved. -/
def forkStart (rc : Region) (host : Host) (priv : ℕ → PageBytes)
    (objects : MemObject → ℕ → PageBytes) : Machine :=
  { host := reserve rc host, priv, objects, reads := [] }

omit [IntervalMap M VmmapEntry] [LawfulIntervalMap M] in
theorem reserve_parent (hapart : rp.Apart rc) (hq : q < defaultVmmapSize) :
    reserve rc host (rp.page q) = host (rp.page q) := by
  have := hapart.ranges (q := 0) (n := 1) (k := defaultVmmapSize) hq (by omega)
  exact if_neg (by omega)

theorem reserve_child (hq : q < defaultVmmapSize) :
    reserve rc host (rc.page q) = ⟨protNone, none⟩ :=
  Host.map_page.trans (if_pos ⟨by omega, by omega⟩)

section

variable (hl : Laid rp s.vm) (hs : InSync rp s) (hb : Backed rp s.vm s.host) (hok : ForkOk s.vm)
  (hapart : rp.Apart rc)
include hl hs hb hok hapart

theorem copyable_of_inSync {kv : Interval × VmmapEntry}
    (hkv : kv ∈ iter s.vm.entries) (hprot : kv.2.prot ≠ protNone) :
    Copyable rp rc (forkStart rc s.host priv objects) kv.1 kv.2 := by
  obtain ⟨hplain, -, hexact⟩ := hok kv hkv
  obtain ⟨hstart, hstop, hshort⟩ := hexact hprot
  have hlt : ∀ q ∈ kv.1, q < defaultVmmapSize := fun q hq => hq.2.trans_lt (hl.keys kv hkv)
  have hparent : ∀ q ∈ kv.1, (forkStart rc s.host priv objects).host (rp.page q)
      = s.host (rp.page q) := fun q hq => reserve_parent hapart (hlt q hq)
  refine ⟨(sorted_iter _).valid kv hkv, hl.keys kv hkv, hstart, hstop, hshort, hprot,
    fun q hq => ?_, ?_, hplain, fun q hq => ?_⟩
  · rw [hparent q hq, hs q (hlt q hq), pageProt_of_findPage (getAtPoint_of_mem hkv hq)]
  · exact (hb kv hkv).mono rfl rfl le_rfl le_rfl fun q hq => by rw [hparent q hq]
  · exact congrArg HostPage.shared (reserve_child (hlt q hq))

/-- What the loop has done by its end is what a fork owes. -/
theorem forked_of_copied {m' : Machine}
    (hC : Copied rp rc (forkStart rc s.host priv objects) (pageProt s.vm)
      (fun q => False ∨ ∃ kv ∈ iter s.vm.entries, kv.2.prot ≠ protNone ∧ q ∈ kv.1) m') :
    Forked rp rc s.vm (forkStart rc s.host priv objects) m' := by
  have hdone : ∀ q e, s.vm.findPage q = some e → e.prot ≠ protNone →
      False ∨ ∃ kv ∈ iter s.vm.entries, kv.2.prot ≠ protNone ∧ q ∈ kv.1 := by
    intro q e hfind hprot
    obtain ⟨k, hk, hq⟩ := (getAtPoint_eq_some _).mp hfind
    exact .inr ⟨(k, e), hk, hprot, hq⟩
  have hlt : ∀ q, (False ∨ ∃ kv ∈ iter s.vm.entries, kv.2.prot ≠ protNone ∧ q ∈ kv.1) →
      q < defaultVmmapSize := by
    rintro q (hno | ⟨kv, hkv, -, hq⟩)
    · exact hno.elim
    · exact hq.2.trans_lt (hl.keys kv hkv)
  refine ⟨fun q e hfind hprot => hC.bytes q (hdone q e hfind hprot), fun q e hfind hprot => ?_,
    fun q e hfind hsh => ?_, fun q e hfind hprot => hC.shared q (hdone q e hfind hprot),
    fun q hq hnone => ?_, fun p hp => ?_, fun q hq => hC.parent hapart hlt hq⟩
  · rw [hC.prot q (hdone q e hfind hprot), pageProt_of_findPage hfind]
  · obtain ⟨k, hk, hq⟩ := (getAtPoint_eq_some _).mp hfind
    obtain ⟨hplain, haccessible, -⟩ := hok _ hk
    have hshared : IsShared e := hsh.resolve_right hplain
    refine ⟨?_, hC.shared q (hdone q e hfind (haccessible hshared))⟩
    obtain ⟨o, i, hi⟩ := (hb _ hk).1 hshared
    have hpage : (forkStart rc s.host priv objects).host (rp.page q) = s.host (rp.page q) :=
      reserve_parent hapart (hq.2.trans_lt (hl.keys _ hk))
    rw [hpage, hi q hq]
    rfl
  · have hnot : ¬ (False ∨ ∃ kv ∈ iter s.vm.entries, kv.2.prot ≠ protNone ∧ q ∈ kv.1) := by
      rintro (hno | ⟨kv, hkv, -, hqk⟩)
      · exact hno
      · exact getAtPoint_eq_none.mp hnone kv hkv hqk
    rw [hC.child hnot]
    exact congrArg HostPage.prot (reserve_child hq)
  · obtain ⟨q, hq, rfl⟩ := hC.reads p hp
    have hpage : (forkStart rc s.host priv objects).host (rp.page q) = s.host (rp.page q) :=
      reserve_parent hapart (hlt q hq)
    obtain ⟨kv, hkv, hprot, hqk⟩ := hq.resolve_left id
    rw [hpage, hs q (hlt q hq), pageProt_of_findPage (getAtPoint_of_mem hkv hqk)]
    exact hprot

/-- **A fork gives the child every accessible page, and nothing else**, from a state in sync whose
entries name what they cover. -/
theorem forked_of_inSync (hc : child.baseAddress = some rc.base) :
    ∃ m' child', forkVmmap s.vm child (forkStart rc s.host priv objects) = some (m', child') ∧
      Forked rp rc s.vm (forkStart rc s.host priv objects) m' := by
  have hC : Copied rp rc (forkStart rc s.host priv objects) (pageProt s.vm) (fun _ => False)
      (forkStart rc s.host priv objects) :=
    ⟨rfl, fun _ _ => ⟨rfl, rfl⟩, nofun, nofun, nofun, nofun⟩
  obtain ⟨m', hm', hC'⟩ := forkLoop_copied hl.base hc hapart (sorted_iter s.vm.entries)
    (fun kv hkv hprot => ⟨copyable_of_inSync hl hs hb hok hapart hkv hprot,
      fun q hq => pageProt_of_findPage (getAtPoint_of_mem hkv hq)⟩) hC nofun fun _ _ _ _ => id
  exact ⟨m', _, Option.map_eq_some_iff.mpr ⟨m', hm', rfl⟩,
    forked_of_copied hl hs hb hok hapart hC'⟩

end

/-- **The fork of a run**: in every state that a run from a new cage reaches by steps that keep the
two sides together and the heap private, a fork gives the child every accessible page and nothing
else — provided no entry is a System V segment, no shared one is inaccessible, and each accessible
one names exactly what it covers. -/
theorem forked_run (rp rc : Region) (heapStart : BitVec 32) (cageId : ℕ)
    (shmtable : BitVec 32 → Option ShmSegment) (calls : List Syscall)
    (hok : StepsOk step BackedOk (State.fresh rp heapStart cageId shmtable : State M) calls)
    (hrun : runSteps step (State.fresh rp heapStart cageId shmtable : State M) calls = some s)
    (hfork : ForkOk s.vm) (hapart : rp.Apart rc) (hc : child.baseAddress = some rc.base)
    (priv : ℕ → PageBytes) (objects : MemObject → ℕ → PageBytes) :
    ∃ m' child', forkVmmap s.vm child (forkStart rc s.host priv objects) = some (m', child') ∧
      Forked rp rc s.vm (forkStart rc s.host priv objects) m' := by
  have hstep : ∀ (t : State M) c t',
      ((Laid rp t.vm ∧ InSync rp t) ∧ Backed rp t.vm t.host) → BackedOk t c → step t c = some t' →
      ((Laid rp t'.vm ∧ InSync rp t') ∧ Backed rp t'.vm t'.host) := fun _ _ _ hinv hok h =>
    ⟨inSync_step hinv.1 hok.syncOk h, backed_step hinv.2 hinv.1.1 hok h⟩
  have hfresh : Backed rp (State.fresh rp heapStart cageId shmtable : State M).vm
      (State.fresh rp heapStart cageId shmtable : State M).host := by
    simp [Backed, State.fresh, Vmmap.new, iter_new]
  obtain ⟨⟨hl, hs⟩, hb⟩ := inv_of_stepsOk hstep
    ⟨⟨laid_fresh rp heapStart cageId shmtable, inSync_fresh rp heapStart cageId shmtable⟩, hfresh⟩
    hok hrun
  exact forked_of_inSync hl hs hb hfork hapart hc

end Fork

/-! ## Two forks -/

/-- A child's region above the sample one. -/
def childRegion : Region := ⟨2 ^ 33, by decide, by decide⟩

/-- The child's vmmap as the fork finds it. -/
def childVmmap : Vmmap (SortedList VmmapEntry) :=
  { (Vmmap.new : Vmmap (SortedList VmmapEntry)) with baseAddress := some childRegion.base }

/-- A private mapping, a shared one, and a protection change that splits the first. -/
def forkableCalls : List Syscall :=
  [.mmap 0x10000 0x4000 3 0x32 0 0 ⟨none, 0⟩, .mmap 0x20000 0x2000 3 0x31 0 0 ⟨none, 0⟩,
   .mprotect 0x100011000 0x1000 1, .brk 0x102000]

theorem forked_forkableCalls :
    ∃ s, runSteps step sampleCage forkableCalls = some s ∧ ∃ m' child',
      forkVmmap s.vm childVmmap (forkStart childRegion s.host (fun _ _ => 0) fun _ _ _ => 0)
        = some (m', child') ∧
      Forked sampleRegion childRegion s.vm
        (forkStart childRegion s.host (fun _ _ => 0) fun _ _ _ => 0) m' := by
  have hok : StepsOk step BackedOk sampleCage forkableCalls := by decide +kernel
  obtain ⟨s, hs, hfork⟩ : ∃ t ∈ runSteps step sampleCage forkableCalls, ForkOk t.vm := by
    decide +kernel
  exact ⟨s, hs, forked_run sampleRegion childRegion 256 1 _ forkableCalls hok hs hfork
    (by decide) rfl _ _⟩

/-- Map ten pages, then unmap two in their middle. -/
def holedCalls : List Syscall :=
  [.mmap 0x10000 0xa000 3 0x32 0 0 ⟨none, 0⟩, .munmap 0x100013000 0x2000]

/-- **A fork opens the hole**: both clones of the entry still name all ten pages, so the child's
page 19 is left accessible though nothing is mapped there. -/
theorem not_forked_holedCalls :
    ¬ ∀ s, runSteps step sampleCage holedCalls = some s → ∃ m' child',
      forkVmmap s.vm childVmmap (forkStart childRegion s.host (fun _ _ => 0) fun _ _ _ => 0)
        = some (m', child') ∧
      Forked sampleRegion childRegion s.vm
        (forkStart childRegion s.host (fun _ _ => 0) fun _ _ _ => 0) m' := by
  intro h
  obtain ⟨s, hs, hnone, hopen⟩ : ∃ t ∈ runSteps step sampleCage holedCalls,
      t.vm.findPage 19 = none ∧
        ∀ x ∈ forkVmmap t.vm childVmmap
          (forkStart childRegion t.host (fun _ _ => 0) fun _ _ _ => 0),
          (x.1.host (childRegion.page 19)).prot ≠ protNone := by decide +kernel
  obtain ⟨m', child', hm', hforked⟩ := h s hs
  exact hopen _ hm' (hforked.uncovered 19 (by decide) hnone)

end LindWasm.Memory
