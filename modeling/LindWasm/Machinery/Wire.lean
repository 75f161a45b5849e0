import LindWasm.Machinery.Bytes

/-!
# Machinery/Wire — byte streams written and read back

    value --write--> bytes ++ rest --read--> (value, rest)

A reader takes a value off the front of a stream, or none if the stream is too short. `Reads r bs a`
says that it takes exactly `bs`, whatever follows; so what is written piece by piece is read back by
the rules for the pieces, in the same order.
-/

/-! ## Words -/

/-- The `n` lowest bytes of `v`, the lowest first. -/
def leBytes : ℕ → ℕ → List Byte
  | 0, _ => []
  | n + 1, v => Fin.ofNat 256 v :: leBytes n (v / 256)

def ofLeBytes : List Byte → ℕ
  | [] => 0
  | b :: bs => b + 256 * ofLeBytes bs

@[simp] theorem length_leBytes (n v : ℕ) : (leBytes n v).length = n := by
  induction n generalizing v with
  | zero => rfl
  | succ n ih => rw [leBytes, List.length_cons, ih]

theorem ofLeBytes_leBytes (n v : ℕ) : ofLeBytes (leBytes n v) = v % 256 ^ n := by
  induction n generalizing v with
  | zero => exact (Nat.mod_one v).symm
  | succ n ih =>
    rw [leBytes, ofLeBytes, ih, Nat.pow_succ', Nat.mod_mul]
    rfl

/-! ## Readers -/

/-- What is taken off the front of a stream, and what is left of it. -/
abbrev Reader (α : Type*) := List Byte → Option (α × List Byte)

namespace Reader

variable {α β : Type*}

def pure (a : α) : Reader α := fun s => some (a, s)

/-- A reader that does not go on. -/
def fail : Reader α := fun _ => none

def lift : Option α → Reader α
  | none => fail
  | some a => pure a

def bind (r : Reader α) (f : α → Reader β) : Reader β := fun s => (r s).bind fun x => f x.1 x.2

def map (f : α → β) (r : Reader α) : Reader β := r.bind fun a => pure (f a)

/-- Exactly `n` bytes. -/
def bytes (n : ℕ) : Reader (List Byte) := fun s =>
  if n ≤ s.length then some (s.take n, s.drop n) else none

/-- A word of `w` bits in `n` bytes. -/
def word (n w : ℕ) : Reader (BitVec w) := map (fun bs => BitVec.ofNat w (ofLeBytes bs)) (bytes n)

/-- `n` values, the first one at index `i`. -/
def times (r : ℕ → Reader α) : ℕ → ℕ → Reader (List α)
  | _, 0 => pure []
  | i, n + 1 => (r i).bind fun a => (times r (i + 1) n).map (a :: ·)

end Reader

/-! ## What a reader reads -/

/-- The reader takes `a` off the front of every stream that starts with `bs`, and leaves the
rest. -/
def Reads {α : Type*} (r : Reader α) (bs : List Byte) (a : α) : Prop :=
  ∀ rest, r (bs ++ rest) = some (a, rest)

section Reads

variable {α β : Type*} {r : Reader α} {bs bs' : List Byte} {a : α}

theorem Reads.whole (h : Reads r bs a) : r bs = some (a, []) := by
  have hwhole := h []
  rwa [List.append_nil] at hwhole

theorem reads_pure (a : α) : Reads (Reader.pure a) [] a := fun _ => rfl

theorem reads_lift {o : Option α} (h : o = some a) : Reads (Reader.lift o) [] a := by
  rw [h]
  exact reads_pure a

theorem Reads.bind {f : α → Reader β} {b : β} (h : Reads r bs a) (h' : Reads (f a) bs' b) :
    Reads (r.bind f) (bs ++ bs') b := fun rest => by
  rw [Reader.bind, List.append_assoc, h, Option.bind_some]
  exact h' rest

theorem Reads.map (f : α → β) (h : Reads r bs a) : Reads (r.map f) bs (f a) := by
  have hmap := h.bind (f := fun a => Reader.pure (f a)) (reads_pure (f a))
  rwa [List.append_nil] at hmap

theorem reads_bytes (bs : List Byte) : Reads (Reader.bytes bs.length) bs bs := fun rest => by
  rw [Reader.bytes, if_pos (by rw [List.length_append]; omega), List.take_left, List.drop_left]

theorem reads_word {n w : ℕ} (hw : 256 ^ n = 2 ^ w) (v : ℕ) :
    Reads (Reader.word n w) (leBytes n v) (BitVec.ofNat w v) := by
  have h := (reads_bytes (leBytes n v)).map fun bs => BitVec.ofNat w (ofLeBytes bs)
  have hv : BitVec.ofNat w (v % 2 ^ w) = BitVec.ofNat w v := by
    apply BitVec.eq_of_toNat_eq
    rw [BitVec.toNat_ofNat, BitVec.toNat_ofNat, Nat.mod_mod]
  rw [length_leBytes, ofLeBytes_leBytes, hw, hv] at h
  exact h

/-- **A list written one by one is read one by one**, by readers that may know the index. -/
theorem reads_times {r : ℕ → Reader α} {write : α → List Byte} {as : List α} {i : ℕ}
    (h : ∀ j a, as[j]? = some a → Reads (r (i + j)) (write a) a) :
    Reads (Reader.times r i as.length) (as.flatMap write) as := by
  induction as generalizing i with
  | nil => exact reads_pure []
  | cons a as ih =>
    refine (h 0 a rfl).bind ((ih fun j b hb => ?_).map _)
    rw [Nat.add_right_comm]
    exact h (j + 1) b hb

end Reads
