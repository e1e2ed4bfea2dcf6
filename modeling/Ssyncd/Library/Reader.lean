import Mathlib.Tactic.Common
import Mathlib.Algebra.Group.Nat.Defs

/-! Readers that walk a byte memory with one moving cursor, and the rule for what they
return when the memory holds given bytes there. A reader never learns where the valid
part of the memory ends: that is for its caller to check. -/

abbrev Memory := ℕ → UInt8

/-- From a memory and a cursor, a value and the cursor after it. -/
def Reader (α : Type) := Memory → ℕ → α × ℕ

namespace Reader
variable {α β : Type}

instance : Monad Reader where
  pure a := fun _ used => (a,used)
  bind p f := fun buffer used => f (p buffer used).1 buffer (p buffer used).2

/-- One byte, and the cursor past it. -/
def next : Reader UInt8 := fun buffer used => (buffer used,used+1)

def position : Reader ℕ := fun _ used => (used,used)

/-- A loop that appends the next n bytes. -/
def bytes : ℕ → Reader (List UInt8)
  | 0 => pure []
  | n+1 => do
    let b ← next
    let bs ← bytes n
    pure (b::bs)

/-- A loop from position i on that ors n bytes into a word, each shifted to its place. -/
def orBytes {w : ℕ} (acc : BitVec w) (i : ℕ) : ℕ → Reader (BitVec w)
  | 0 => pure acc
  | n+1 => do
    let b ← next
    orBytes (acc ||| (b.toBitVec.setWidth w <<< (8*i))) (i+1) n

/-- The memory holds these bytes from the cursor on. -/
def Holds (buffer : Memory) (used : ℕ) : List UInt8 → Prop
  | [] => True
  | b::bs => buffer used = b ∧ Holds buffer (used+1) bs

theorem holds_append {buffer : Memory} {used : ℕ} {xs ys : List UInt8} :
    Holds buffer used (xs ++ ys) ↔
      Holds buffer used xs ∧ Holds buffer (used + xs.length) ys := by
  induction xs generalizing used with
  | nil => simp [Holds]
  | cons x xs ih =>
    have hlen : used + 1 + xs.length = used + (xs.length + 1) := by omega
    simp only [List.cons_append, Holds, ih, List.length_cons, hlen, and_assoc]

/-- Received bytes, with whatever the memory holds after them. -/
def memory (bs : List UInt8) (junk : Memory) : Memory := fun i => bs.getD i (junk i)

theorem memory_lt {bs : List UInt8} {i : ℕ} (h : i < bs.length) (junk : Memory) :
    memory bs junk i = bs[i] := by
  simp [memory, h]

theorem holds_of_getElem {buffer : Memory} {used : ℕ} {bs : List UInt8}
    (h : ∀ i (hi : i < bs.length), buffer (used+i) = bs[i]) : Holds buffer used bs := by
  induction bs generalizing used with
  | nil => trivial
  | cons b bs ih =>
    refine ⟨h 0 (Nat.zero_lt_succ _), ih ?_⟩
    intro i hi
    have := h (i+1) (by simpa using hi)
    rwa [List.getElem_cons_succ, show used + (i+1) = used+1+i by omega] at this

theorem holds_memory (bs rest : List UInt8) (junk : Memory) :
    Holds (memory (bs ++ rest) junk) 0 bs := by
  apply holds_of_getElem
  intro i hi
  rw [Nat.zero_add, memory_lt (by simp; omega), List.getElem_append_left hi]

/-- Wherever the memory holds exactly these bytes next, the reader takes them all and
returns this value. -/
def Reads (p : Reader α) (bs : List UInt8) (a : α) : Prop :=
  ∀ buffer used, Holds buffer used bs → p buffer used = (a,used + bs.length)

theorem reads_pure (a : α) : Reads (pure a) [] a := fun _ _ _ => rfl

theorem reads_next (b : UInt8) : Reads next [b] b := by
  intro buffer used h
  simp [next, h.1]

/-- One reader after another takes the bytes of both. -/
theorem Reads.bind {p : Reader α} {f : α → Reader β} {xs ys : List UInt8} {a : α} {b : β}
    (hp : Reads p xs a) (hf : Reads (f a) ys b) : Reads (p >>= f) (xs ++ ys) b := by
  intro buffer used h
  obtain ⟨hx,hy⟩ := holds_append.mp h
  change f (p buffer used).1 buffer (p buffer used).2 = _
  rw [hp buffer used hx, hf buffer _ hy, List.length_append, Nat.add_assoc]

theorem Reads.bind_next {f : UInt8 → Reader β} {b : UInt8} {ys : List UInt8} {c : β}
    (hf : Reads (f b) ys c) : Reads (next >>= f) (b::ys) c :=
  (reads_next b).bind hf

theorem reads_bytes (bs : List UInt8) : Reads (bytes bs.length) bs bs := by
  induction bs with
  | nil => exact reads_pure []
  | cons b bs ih =>
    have h := ih.bind (f := fun r => pure (b::r)) (reads_pure (b::bs))
    rw [List.append_nil] at h
    exact Reads.bind_next h

/-- A word written low byte first, n bytes of it. -/
def leBytes {w : ℕ} (x : BitVec w) : ℕ → List UInt8
  | 0 => []
  | n+1 => ⟨x.setWidth 8⟩ :: leBytes (x >>> 8) n

@[simp] theorem leBytes_length {w : ℕ} (x : BitVec w) (n : ℕ) : (leBytes x n).length = n := by
  induction n generalizing x with
  | zero => rfl
  | succ n ih => simp [leBytes, ih]

/-- The low k bits of one word, and zero above. -/
def LowBits {w : ℕ} (x y : BitVec w) (k : ℕ) : Prop :=
  ∀ j, j < w → y.getLsbD j = (decide (j<k) && x.getLsbD j)

theorem LowBits.step {w : ℕ} {x y : BitVec w} {i : ℕ} (h : LowBits x y (8*i)) :
    LowBits x (y ||| (((x >>> (8*i)).setWidth 8).setWidth w <<< (8*i))) (8*(i+1)) := by
  intro j hj
  simp only [BitVec.getLsbD_or, h j hj, BitVec.getLsbD_shiftLeft, BitVec.getLsbD_setWidth,
    BitVec.getLsbD_ushiftRight]
  by_cases hlow : j < 8*i
  · have h1 : j < 8*(i+1) := by omega
    simp [hlow, h1]
  · have hback : 8*i + (j - 8*i) = j := by omega
    have hsub : j - 8*i < w := by omega
    have hiff : (j - 8*i < 8) ↔ j < 8*(i+1) := by omega
    simp only [hlow, hback, hsub, hj, hiff, decide_false, decide_true, Bool.false_and,
      Bool.not_false, Bool.true_and, Bool.false_or]

theorem reads_orBytes {w : ℕ} (x : BitVec w) (n : ℕ) {acc : BitVec w} {i : ℕ}
    (hacc : LowBits x acc (8*i)) :
    ∃ y, LowBits x y (8*(i+n)) ∧ Reads (orBytes acc i n) (leBytes (x >>> (8*i)) n) y := by
  induction n generalizing acc i with
  | zero => exact ⟨acc,hacc,reads_pure acc⟩
  | succ n ih =>
    obtain ⟨y,hy,hr⟩ := ih hacc.step
    refine ⟨y,by rwa [show i + (n+1) = i+1+n by omega],?_⟩
    have hs : x >>> (8*i) >>> 8 = x >>> (8*(i+1)) := by
      rw [← BitVec.shiftRight_add]
      congr 1
    rw [leBytes, hs]
    exact Reads.bind_next hr

/-- Of a word that is too long for its bytes, the low bits are read. -/
theorem reads_lowBytes {w : ℕ} (x : BitVec w) (n : ℕ) :
    ∃ y, LowBits x y (8*n) ∧ Reads (orBytes 0 0 n) (leBytes x n) y := by
  have hzero : LowBits x 0 (8*0) := by
    intro j hj
    simp
  obtain ⟨y,hy,hr⟩ := reads_orBytes x n hzero
  rw [Nat.zero_add] at hy
  exact ⟨y,hy,by simpa using hr⟩

theorem LowBits.toNat_lt {w : ℕ} {x y : BitVec w} {k : ℕ} (h : LowBits x y k) : y.toNat < 2^k := by
  apply Nat.lt_pow_two_of_testBit
  intro j hj
  rw [BitVec.testBit_toNat]
  by_cases hw : j < w
  · rw [h j hw, decide_eq_false (by omega), Bool.false_and]
  · exact BitVec.getLsbD_of_ge y j (by omega)

theorem LowBits.eq_of_lt {w : ℕ} {x y : BitVec w} {k : ℕ} (h : LowBits x y k) (hx : x.toNat < 2^k) :
    y = x := by
  apply BitVec.eq_of_getLsbD_eq
  intro j hj
  rw [h j hj]
  by_cases hlow : j < k
  · rw [decide_eq_true hlow, Bool.true_and]
  · rw [decide_eq_false hlow, Bool.false_and, ← BitVec.testBit_toNat]
    exact (Nat.testBit_lt_two_pow
      (Nat.lt_of_lt_of_le hx (Nat.pow_le_pow_right (by omega) (Nat.le_of_not_lt hlow)))).symm

/-- Reading the low byte first is the inverse of writing it first. -/
theorem reads_leBytes {w : ℕ} (x : BitVec w) {n : ℕ} (hw : w ≤ 8*n) :
    Reads (orBytes 0 0 n) (leBytes x n) x := by
  obtain ⟨y,hy,hr⟩ := reads_lowBytes x n
  have hx : x.toNat < 2^(8*n) := Nat.lt_of_lt_of_le x.isLt (Nat.pow_le_pow_right (by omega) hw)
  rwa [hy.eq_of_lt hx] at hr

/-- A reader moves forward, and what it does depends on the bytes that it passes and no others. -/
def Sequential (p : Reader α) : Prop :=
  ∀ buffer used, used ≤ (p buffer used).2 ∧
    ∀ buffer' : Memory, (∀ i, used ≤ i → i < (p buffer used).2 → buffer' i = buffer i) →
      p buffer' used = p buffer used

theorem sequential_pure (a : α) : Sequential (pure a) :=
  fun _ _ => ⟨Nat.le_refl _,fun _ _ => rfl⟩

theorem sequential_next : Sequential next := by
  intro buffer used
  refine ⟨Nat.le_succ used,fun buffer' h => ?_⟩
  rw [next, next, h used (Nat.le_refl used) (Nat.lt_succ_self used)]

theorem Sequential.bind {p : Reader α} {f : α → Reader β} (hp : Sequential p)
    (hf : ∀ a, Sequential (f a)) : Sequential (p >>= f) := by
  intro buffer used
  obtain ⟨hle,hsame⟩ := hp buffer used
  obtain ⟨hle',hsame'⟩ := hf (p buffer used).1 buffer (p buffer used).2
  refine ⟨Nat.le_trans hle hle',fun buffer' h => ?_⟩
  change f (p buffer' used).1 buffer' (p buffer' used).2 = _
  rw [hsame buffer' fun i hi hlt => h i hi (Nat.lt_of_lt_of_le hlt hle')]
  exact hsame' buffer' fun i hi hlt => h i (Nat.le_trans hle hi) hlt

theorem Sequential.ite {c : Prop} [Decidable c] {p q : Reader α} (hp : Sequential p)
    (hq : Sequential q) : Sequential (if c then p else q) := by
  split
  · exact hp
  · exact hq

theorem sequential_bytes (n : ℕ) : Sequential (bytes n) := by
  induction n with
  | zero => exact sequential_pure []
  | succ n ih => exact sequential_next.bind fun _ => ih.bind fun _ => sequential_pure _

theorem sequential_orBytes {w : ℕ} (acc : BitVec w) (i n : ℕ) : Sequential (orBytes acc i n) := by
  induction n generalizing acc i with
  | zero => exact sequential_pure acc
  | succ n ih => exact sequential_next.bind fun _ => ih _ _

theorem bind_used (p : Reader α) (f : α → Reader β) (buffer : Memory) (used : ℕ) :
    ((p >>= f) buffer used).2 = (f (p buffer used).1 buffer (p buffer used).2).2 := rfl

theorem ite_used (c : Prop) [Decidable c] (p q : Reader α) (buffer : Memory) (used : ℕ) :
    ((if c then p else q) buffer used).2 = if c then (p buffer used).2 else (q buffer used).2 := by
  split <;> rfl

@[simp] theorem next_used (buffer : Memory) (used : ℕ) : (next buffer used).2 = used + 1 := rfl

@[simp] theorem pure_used (a : α) (buffer : Memory) (used : ℕ) :
    ((pure a : Reader α) buffer used).2 = used := rfl

/-- Where the cursor is after a fixed number of bytes. -/
theorem bytes_used (n : ℕ) (buffer : Memory) (used : ℕ) : (bytes n buffer used).2 = used + n := by
  induction n generalizing used with
  | zero => rfl
  | succ n ih =>
    rw [bytes, bind_used, bind_used, ih, next_used, pure_used, Nat.add_assoc, Nat.add_comm 1 n]

theorem orBytes_used {w : ℕ} (acc : BitVec w) (i n : ℕ) (buffer : Memory) (used : ℕ) :
    (orBytes acc i n buffer used).2 = used + n := by
  induction n generalizing acc i used with
  | zero => rfl
  | succ n ih =>
    rw [orBytes, bind_used, ih, next_used, Nat.add_assoc, Nat.add_comm 1 n]

end Reader
