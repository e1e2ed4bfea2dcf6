import Ssyncd.Kernel.Entry

/-! The kernel's string functions that read a write to a proc file. A C string is the bytes up
to its NUL, and a pointer that may be null is an option. -/
namespace Ssyncd
open Decimal
namespace Kernel

/-- A token, and where the rest begins; both are null once the string is. -/
def strsep (ct : UInt8) : Option Bytes → Option Bytes × Option Bytes
  | none => (none,none)
  | some s =>
    match s.dropWhile (· != ct) with
    | [] => (some s,none)
    | _::rest => (some (s.takeWhile (· != ct)),some rest)

/-- Every token until strsep returns null. -/
def strsepAll (ct : UInt8) : Option Bytes → List Bytes
  | none => []
  | some s => s.splitOn ct

/-- Whether a byte is among the first ones; none where a null pointer is read. -/
def strnchr (s : Option Bytes) (count : ℕ) (c : UInt8) : Option Bool :=
  match s with
  | some s => some ((s.take count).contains c)
  | none => if count = 0 then some false else none

def skipPlus : Bytes → Bytes
  | 43::s => s
  | s => s

/-- One sign and one end of line may stand around the digits. -/
def kstrtoull (s : Bytes) : Option ℕ :=
  let digits := (skipPlus s).takeWhile isDigit
  let rest := (skipPlus s).dropWhile isDigit
  if digits = [] then none
  else if 18446744073709551615 < value digits then none
  else if rest = [] ∨ rest = [10] then some (value digits)
  else none

def kstrtoul (s : Bytes) : Option UInt64 := (kstrtoull s).map UInt64.ofNat

def kstrtou8 (s : Bytes) : Option UInt8 :=
  (kstrtoull s).bind fun n => if n ≤ 255 then some (UInt8.ofNat n) else none

inductive Xdigit
  | digit (v : ℕ)
  | dot
  | colon
  | delim
  | unknown

def isHexLetter (c : UInt8) : Bool := (97 ≤ c && c ≤ 102) || (65 ≤ c && c ≤ 70)

/-- Without a delimiter every byte that has no meaning here is one. -/
def xdigit2bin (c : UInt8) (delim : Option UInt8) : Xdigit :=
  if some c = delim ∨ c = 0 then .delim
  else if c = 58 then .colon
  else if c = 46 then .dot
  else if isDigit c then .digit (c.toNat - 48)
  else if isHexLetter c then .unknown
  else if delim = none then .delim
  else .unknown

/-- The bytes so far, and the number that is being read. -/
def in4PtonEnd (d : Bytes) (w : Option ℕ) : Option Bytes :=
  w.bind fun w => if d.length = 3 then some (d ++ [UInt8.ofNat w]) else none

/-- The end of the string reads as NUL, which is a delimiter. -/
def in4PtonFrom (delim : Option UInt8) : Bytes → Bytes → Option ℕ → Option Bytes
  | [], d, w => in4PtonEnd d w
  | c::s, d, w =>
    match xdigit2bin c delim with
    | .unknown => none
    | .delim | .colon => in4PtonEnd d w
    | .dot => w.bind fun w => if d.length < 3 then in4PtonFrom delim s (d ++ [UInt8.ofNat w]) none else none
    | .digit v =>
      if w.getD 0 * 10 + v ≤ 255 then in4PtonFrom delim s d (some (w.getD 0 * 10 + v)) else none

def in4Pton (src : Bytes) (delim : Option UInt8) : Option NfInetAddr :=
  match in4PtonFrom delim src [] none with
  | some [a,b,c,d] => some (.ip a b c d)
  | _ => none

theorem strsep_append {ct : UInt8} {token : Bytes} (h : ct ∉ token) (rest : Bytes) :
    strsep ct (some (token ++ ct::rest)) = (some token,some rest) := by
  have hne : ∀ b ∈ token, (b != ct) = true := by
    intro b hb
    have : b ≠ ct := fun heq => h (heq ▸ hb)
    simpa using this
  rw [strsep, List.dropWhile_append_of_pos hne, List.takeWhile_append_of_pos hne,
    List.dropWhile_cons_of_neg (by simp), List.takeWhile_cons_of_neg (by simp), List.append_nil]

/-- The tokens of a text in which the separator stands behind each of them, and one more. -/
theorem strsepAll_tokens {ct : UInt8} {tokens : List Bytes} (h : ∀ token ∈ tokens, ct ∉ token)
    (rest : Bytes) : strsepAll ct (some (tokens.flatMap (fun token => token ++ [ct]) ++ rest)) =
      tokens ++ strsepAll ct (some rest) := by
  induction tokens with
  | nil => rfl
  | cons token tokens ih =>
    have hrest := ih fun t ht => h t (List.mem_cons_of_mem _ ht)
    rw [List.flatMap_cons, List.append_assoc, List.append_assoc, List.singleton_append, strsepAll,
      List.splitOn_append_cons_self_of_not_mem (h token (List.mem_cons_self ..))]
    exact congrArg (token :: ·) hrest

theorem kstrtoull_eq (n : ℕ) :
    kstrtoull (text n) = if 18446744073709551615 < n then none else some n := by
  have hplus : skipPlus (text n) = text n := by
    unfold skipPlus
    split
    · next s heq =>
      have hdigit := isDigit_text n 43 (by rw [heq]; exact List.mem_cons_self ..)
      contradiction
    · rfl
  have htake : (text n).takeWhile isDigit = text n :=
    List.takeWhile_eq_self_iff.mpr (isDigit_text n)
  have hdrop : (text n).dropWhile isDigit = [] := List.dropWhile_eq_nil_iff.mpr (isDigit_text n)
  unfold kstrtoull
  simp only [hplus, htake, hdrop, value_text]
  rw [if_neg (text_ne_nil n)]
  simp

/-- A run of digits that fits is converted whole. -/
theorem kstrtoull_text {n : ℕ} (h : n ≤ 18446744073709551615) : kstrtoull (text n) = some n := by
  rw [kstrtoull_eq, if_neg (Nat.not_lt_of_le h)]

theorem kstrtoull_large {n : ℕ} (h : 18446744073709551615 < n) : kstrtoull (text n) = none := by
  rw [kstrtoull_eq, if_pos h]

theorem kstrtoul_text (stamp : UInt64) : kstrtoul (text stamp.toNat) = some stamp := by
  have hle : stamp.toNat ≤ 18446744073709551615 := Nat.le_of_lt_succ stamp.toNat_lt
  rw [kstrtoul, kstrtoull_text hle, Option.map_some, UInt64.ofNat_toNat]

theorem kstrtou8_text (n : ℕ) (h : n ≤ 18446744073709551615) :
    kstrtou8 (text n) = if n ≤ 255 then some (UInt8.ofNat n) else none := by
  rw [kstrtou8, kstrtoull_text h, Option.bind_some]

/-- Digits are added to the number that is being read. -/
theorem in4PtonFrom_digits {delim : Option UInt8} {ds : Bytes} (hne : ds ≠ [])
    (hdigits : ∀ b ∈ ds, isDigit b = true ∧ some b ≠ delim) (rest d : Bytes) (w : Option ℕ)
    (hfits : ds.foldl (fun n b => 10*n + (b.toNat - 48)) (w.getD 0) ≤ 255) :
    in4PtonFrom delim (ds ++ rest) d w = in4PtonFrom delim rest d
      (some (ds.foldl (fun n b => 10*n + (b.toNat - 48)) (w.getD 0))) := by
  have hgrow : ∀ (ds : Bytes) n, n ≤ ds.foldl (fun n b => 10*n + (b.toNat - 48)) n := by
    intro ds
    induction ds with
    | nil => exact fun n => Nat.le_refl n
    | cons b ds ih =>
      intro n
      exact (by omega : n ≤ 10*n + (b.toNat - 48)).trans (ih _)
  induction ds generalizing w with
  | nil => contradiction
  | cons b ds ih =>
    obtain ⟨hb,hdelim⟩ := hdigits b (List.mem_cons_self ..)
    have hdigit : xdigit2bin b delim = .digit (b.toNat - 48) := by
      have h0 : b ≠ 0 := by rintro rfl; contradiction
      have h58 : b ≠ 58 := by rintro rfl; contradiction
      have h46 : b ≠ 46 := by rintro rfl; contradiction
      simp [xdigit2bin, hdelim, h0, h58, h46, hb]
    rw [List.foldl_cons] at hfits ⊢
    have hnow : w.getD 0 * 10 + (b.toNat - 48) ≤ 255 := by
      have := hgrow ds (10 * w.getD 0 + (b.toNat - 48))
      omega
    rw [List.cons_append, in4PtonFrom, hdigit]
    dsimp only
    rw [if_pos hnow, Nat.mul_comm]
    cases ds with
    | nil => rfl
    | cons b' ds =>
      exact ih (by simp) (fun b hb => hdigits b (List.mem_cons_of_mem _ hb)) _ hfits

/-- The text of a byte is read back. -/
theorem in4PtonFrom_text {delim : Option UInt8} (hdelim : ∀ b, delim = some b → isDigit b = false)
    (x : UInt8) (rest d : Bytes) :
    in4PtonFrom delim (text x.toNat ++ rest) d none = in4PtonFrom delim rest d (some x.toNat) := by
  have hfits : value (text x.toNat) ≤ 255 := by
    rw [value_text]
    exact Nat.le_of_lt_succ x.toNat_lt
  have hdigits : ∀ b ∈ text x.toNat, isDigit b = true ∧ some b ≠ delim := by
    intro b hb
    have hdigit := isDigit_text _ b hb
    refine ⟨hdigit,fun heq => ?_⟩
    rw [hdelim b heq.symm] at hdigit
    contradiction
  rw [in4PtonFrom_digits (text_ne_nil x.toNat) hdigits rest d none hfits]
  exact congrArg (fun n => in4PtonFrom delim rest d (some n)) (value_text _)

theorem in4PtonFrom_dot {delim : Option UInt8} (hdelim : delim ≠ some 46) (x : UInt8) (rest d : Bytes)
    (hd : d.length < 3) :
    in4PtonFrom delim (46::rest) d (some x.toNat) = in4PtonFrom delim rest (d ++ [x]) none := by
  have hdot : xdigit2bin 46 delim = .dot := by
    have : ¬ some 46 = delim := fun h => hdelim h.symm
    simp [xdigit2bin, this]
  rw [in4PtonFrom, hdot]
  simp [hd]

/-- An address is read back from its text. -/
theorem in4Pton_dottedQuad {delim : Option UInt8}
    (hdelim : ∀ b, delim = some b → isDigit b = false ∧ b ≠ 46) (a b c d : UInt8) :
    in4Pton (dottedQuad a b c d) delim = some (.ip a b c d) := by
  have hdigit := fun x h => (hdelim x h).1
  have hdot : delim ≠ some 46 := fun h => (hdelim 46 h).2 rfl
  have htext : dottedQuad a b c d = text a.toNat ++ (46::(text b.toNat ++
      (46::(text c.toNat ++ (46::(text d.toNat ++ [])))))) := by
    simp [dottedQuad, addressText]
  rw [in4Pton, htext, in4PtonFrom_text hdigit, in4PtonFrom_dot hdot _ _ _ (by decide),
    in4PtonFrom_text hdigit, in4PtonFrom_dot hdot _ _ _ (by simp),
    in4PtonFrom_text hdigit, in4PtonFrom_dot hdot _ _ _ (by simp), in4PtonFrom_text hdigit]
  simp [in4PtonFrom, in4PtonEnd]

/-- Four hexadecimal digits and a colon are no part of a dotted address. -/
theorem in4PtonFrom_hex {hs : Bytes} (hhex : ∀ b ∈ hs, isDigit b = true ∨ isHexLetter b = true)
    (rest : Bytes) (w : Option ℕ) : in4PtonFrom none (hs ++ 58::rest) [] w = none := by
  induction hs generalizing w with
  | nil =>
    have hcolon : xdigit2bin 58 none = .colon := rfl
    cases w with
    | none => rfl
    | some w => simp [in4PtonFrom, hcolon, in4PtonEnd]
  | cons b hs ih =>
    have hrest := fun w => ih (fun b hb => hhex b (List.mem_cons_of_mem _ hb)) w
    rw [List.cons_append, in4PtonFrom]
    rcases hhex b (List.mem_cons_self ..) with hb | hb
    · have hdigit : xdigit2bin b none = .digit (b.toNat - 48) := by
        have h0 : b ≠ 0 := by rintro rfl; contradiction
        have h58 : b ≠ 58 := by rintro rfl; contradiction
        have h46 : b ≠ 46 := by rintro rfl; contradiction
        simp [xdigit2bin, h0, h58, h46, hb]
      rw [hdigit]
      dsimp only
      split
      · exact hrest _
      · rfl
    · have hletter : xdigit2bin b none = .unknown := by
        have h0 : b ≠ 0 := by rintro rfl; contradiction
        have h58 : b ≠ 58 := by rintro rfl; contradiction
        have h46 : b ≠ 46 := by rintro rfl; contradiction
        have hnot : isDigit b = false := by grind [isDigit, isHexLetter]
        simp [xdigit2bin, h0, h58, h46, hb, hnot]
      rw [hletter]

theorem isHex_hexDigit {n : ℕ} (h : n < 16) :
    isDigit (hexDigit n) = true ∨ isHexLetter (hexDigit n) = true := by
  have hall : ∀ n < 16, isDigit (hexDigit n) = true ∨ isHexLetter (hexDigit n) = true := by decide
  exact hall n h

theorem isHex_hexText (s : UInt16) :
    ∀ b ∈ hexText s, isDigit b = true ∨ isHexLetter b = true := by
  have hs := s.toNat_lt
  simp only [hexText, List.map_cons, List.map_nil, List.mem_cons, List.not_mem_nil, or_false]
  rintro b (rfl | rfl | rfl | rfl)
  · exact isHex_hexDigit (by omega)
  · exact isHex_hexDigit (Nat.mod_lt _ (by decide))
  · exact isHex_hexDigit (Nat.mod_lt _ (by decide))
  · exact isHex_hexDigit (Nat.mod_lt _ (by decide))

/-- The bytes of an address, none of which separates the parts of a line. -/
theorem mem_text {addr : NfInetAddr} {b : UInt8} (h : b ∈ addr.text) :
    isDigit b = true ∨ isHexLetter b = true ∨ b = 46 ∨ b = 58 := by
  cases addr with
  | ip a b' c d =>
    have hquad := dottedQuad_isDottedQuad a b' c d
    rw [NfInetAddr.text, hquad.eq] at h
    rcases mem_intercalate h with h | ⟨p,hp,hb⟩
    · exact .inr (.inr (.inl h))
    · exact .inl ((hquad.digits p hp).2.1 b hb)
  | ip6 s₀ s₁ s₂ s₃ s₄ s₅ s₆ s₇ =>
    rcases mem_intercalate h with h | ⟨p,hp,hb⟩
    · exact .inr (.inr (.inr h))
    · obtain ⟨s,-,rfl⟩ := List.mem_map.mp hp
      rcases isHex_hexText s b hb with hb | hb
      · exact .inl hb
      · exact .inr (.inl hb)

theorem in4Pton_ip6 (s₀ s₁ s₂ s₃ s₄ s₅ s₆ s₇ : UInt16) :
    in4Pton (NfInetAddr.ip6 s₀ s₁ s₂ s₃ s₄ s₅ s₆ s₇).text none = none := by
  have htext : ∃ rest, (NfInetAddr.ip6 s₀ s₁ s₂ s₃ s₄ s₅ s₆ s₇).text = hexText s₀ ++ 58::rest :=
    ⟨[58].intercalate ([s₁,s₂,s₃,s₄,s₅,s₆,s₇].map hexText),by simp [NfInetAddr.text, List.intercalate]⟩
  obtain ⟨rest,hrest⟩ := htext
  rw [in4Pton, hrest, in4PtonFrom_hex (isHex_hexText s₀)]

end Kernel
end Ssyncd
