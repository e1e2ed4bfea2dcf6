import Mathlib.Tactic.Common
import Mathlib.Algebra.Group.Nat.Defs

/-! Numbers in decimal text: how they are written, and how a run of digits is read. -/
namespace Decimal

def digit (d : ℕ) : UInt8 := UInt8.ofNat (48+d)

def isDigit (b : UInt8) : Bool := 48 ≤ b && b ≤ 57

/-- The digits of a number, the leading one first. -/
def text (n : ℕ) : List UInt8 := (Nat.toDigits 10 n).map (fun c => UInt8.ofNat c.toNat)

/-- The number that a run of digits stands for. -/
def value (bs : List UInt8) : ℕ := bs.foldl (fun n b => 10*n + (b.toNat - 48)) 0

theorem isDigit_digit {d : ℕ} (h : d < 10) : isDigit (digit d) = true := by
  have hall : ∀ d < 10, isDigit (digit d) = true := by decide
  exact hall d h

theorem digit_value {d : ℕ} (h : d < 10) : (digit d).toNat - 48 = d := by
  have hall : ∀ d < 10, (digit d).toNat - 48 = d := by decide
  exact hall d h

/-- The last digit comes off the end. -/
theorem text_eq (n : ℕ) :
    text n = if n < 10 then [digit n] else text (n/10) ++ [digit (n%10)] := by
  have hchar : ∀ d < 10, UInt8.ofNat (Nat.digitChar d).toNat = digit d := by decide
  unfold text
  rw [Nat.toDigits_eq_if (by omega)]
  split
  · next h => simp [hchar n h]
  · simp [hchar (n%10) (Nat.mod_lt _ (by omega))]

theorem isDigit_text (n : ℕ) : ∀ b ∈ text n, isDigit b = true := by
  induction n using Nat.strongRecOn with
  | ind n ih =>
    rw [text_eq]
    split
    · next h => simpa using isDigit_digit h
    · intro b hb
      rcases List.mem_append.mp hb with hb | hb
      · exact ih (n/10) (by omega) b hb
      · rw [List.mem_singleton.mp hb]
        exact isDigit_digit (Nat.mod_lt _ (by omega))

theorem value_append (bs : List UInt8) (b : UInt8) :
    value (bs ++ [b]) = 10 * value bs + (b.toNat - 48) := by
  simp [value]

/-- A number is read back from its text. -/
@[simp] theorem value_text (n : ℕ) : value (text n) = n := by
  induction n using Nat.strongRecOn with
  | ind n ih =>
    rw [text_eq]
    split
    · next h => simpa [value] using digit_value h
    · rw [value_append, ih (n/10) (by omega), digit_value (Nat.mod_lt _ (by omega))]
      omega

theorem text_ne_nil (n : ℕ) : text n ≠ [] := by
  simp [text]

theorem text_length_le {n k : ℕ} (hk : 0 < k) (h : n < 10^k) : (text n).length ≤ k := by
  rw [text, List.length_map]
  exact (Nat.length_toDigits_le_iff (by omega) hk).mpr h

theorem lt_text_length {n k : ℕ} (hk : 0 < k) (h : 10^k ≤ n) : k < (text n).length := by
  by_contra hle
  rw [text, List.length_map, Nat.not_lt, Nat.length_toDigits_le_iff (by omega) hk] at hle
  omega

/-- A byte that is not a digit is nowhere in a number. -/
theorem not_mem_text {b : UInt8} (h : isDigit b = false) (n : ℕ) : b ∉ text n := by
  intro hb
  rw [isDigit_text n b hb] at h
  contradiction

/-- The leading digits of a text that begins with a number and does not go on with a digit. -/
theorem takeWhile_text {n : ℕ} {rest : List UInt8} (h : ∀ b ∈ rest.head?, isDigit b = false) :
    (text n ++ rest).takeWhile isDigit = text n := by
  rw [List.takeWhile_append_of_pos (isDigit_text n)]
  cases rest with
  | nil => simp
  | cons b rest =>
    rw [List.takeWhile_cons_of_neg (by simp [h b rfl]), List.append_nil]

end Decimal
