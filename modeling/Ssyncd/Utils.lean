import Ssyncd.Packet
import Ssyncd.Library.Decimal
import Mathlib.Data.List.TakeWhile

/-! The string helpers: C strings, the standard number conversions, and IPv4 addresses in text. -/
namespace Ssyncd
open Decimal

/-- What ends a call without a result. -/
inductive Fault
  | invalidArgument | outOfRange | wrongObject
  deriving DecidableEq, Repr

inductive IpFamily
  | ipv4 | ipv6
  deriving DecidableEq, Repr

def IpFamily.code : IpFamily → UInt8
  | ipv4 => 1
  | ipv6 => 2

instance : ByteEnum IpFamily where
  values := [.ipv4, .ipv6]
  code := IpFamily.code
  mem_values a := by cases a <;> decide
  code_injective a b h := by cases a <;> cases b <;> first | rfl | exact absurd h (by decide)

/-- What a C string function sees of a string. -/
def cString (s : Bytes) : Bytes := s.takeWhile (· != 0)

theorem cString_append {s : Bytes} (h : 0 ∉ s) (rest : Bytes) :
    cString (s ++ rest) = s ++ cString rest := by
  refine List.takeWhile_append_of_pos fun b hb => ?_
  have hne : b ≠ 0 := by
    rintro rfl
    exact h hb
  simpa using hne

theorem cString_eq_self {s : Bytes} (h : 0 ∉ s) : cString s = s := by
  have happend := cString_append h []
  rw [List.append_nil] at happend
  rw [happend]
  exact List.append_nil s

def isSpace (b : UInt8) : Bool := b == 32 || (9 ≤ b && b ≤ 13)

/-- The sign and the digits that strtol and strtoul convert. -/
def signedDigits (s : Bytes) : Bool × Bytes :=
  match s.dropWhile isSpace with
  | 45::rest => (true,rest.takeWhile isDigit)
  | 43::rest => (false,rest.takeWhile isDigit)
  | rest => (false,rest.takeWhile isDigit)

def stoi (s : Bytes) : Except Fault Int :=
  let (negative,digits) := signedDigits s
  let n : Int := if negative then -value digits else value digits
  if digits = [] then .error .invalidArgument
  else if -2147483648 ≤ n ∧ n ≤ 2147483647 then .ok n
  else .error .outOfRange

def stoul (s : Bytes) : Except Fault UInt64 :=
  let (negative,digits) := signedDigits s
  let n := UInt64.ofNat (value digits)
  if digits = [] then .error .invalidArgument
  else if value digits ≤ 18446744073709551615 then .ok (if negative then 0-n else n)
  else .error .outOfRange

theorem isSpace_of_isDigit {b : UInt8} (h : isDigit b = true) : isSpace b = false := by
  grind [isDigit, isSpace]

/-- A run of digits has no space and no sign in front of it. -/
theorem signedDigits_of_isDigit {s : Bytes} (hne : s ≠ []) (h : ∀ b ∈ s, isDigit b = true) :
    signedDigits s = (false,s) := by
  cases s with
  | nil => contradiction
  | cons b s =>
    have hb : isDigit b = true := h b (List.mem_cons_self ..)
    have hall : (b::s).takeWhile isDigit = b::s := List.takeWhile_eq_self_iff.mpr h
    unfold signedDigits
    rw [List.dropWhile_cons_of_neg (by simp [isSpace_of_isDigit hb])]
    split
    · next heq => cases heq; exact absurd hb (by decide)
    · next heq => cases heq; exact absurd hb (by decide)
    · rw [hall]

theorem stoi_digits {s : Bytes} (hne : s ≠ []) (h : ∀ b ∈ s, isDigit b = true)
    (hlt : value s ≤ 2147483647) : stoi s = .ok (value s) := by
  simp only [stoi, signedDigits_of_isDigit hne h, hne, if_false, Bool.false_eq_true]
  rw [if_pos]
  omega

theorem stoi_text {n : ℕ} (h : n ≤ 2147483647) : stoi (text n) = .ok n := by
  rw [stoi_digits (text_ne_nil n) (isDigit_text n) (by simpa using h), value_text]

theorem stoul_digits {s : Bytes} (hne : s ≠ []) (h : ∀ b ∈ s, isDigit b = true)
    (hlt : value s ≤ 18446744073709551615) : stoul s = .ok (UInt64.ofNat (value s)) := by
  rw [stoul, signedDigits_of_isDigit hne h]
  exact (if_neg hne).trans (if_pos hlt)

theorem stoul_text {n : ℕ} (h : n ≤ 18446744073709551615) : stoul (text n) = .ok (UInt64.ofNat n) := by
  have hv : value (text n) ≤ 18446744073709551615 := by rwa [value_text]
  rw [stoul_digits (text_ne_nil n) (isDigit_text n) hv, value_text]

/-- One char for each part between dots, the low byte of its number. -/
def getIpAddressV4 (ipStr : Bytes) : Except Fault Bytes :=
  ((cString ipStr).splitOn 46).mapM fun token => return UInt8.ofInt (← stoi token)

/-- The bytes of an address in text, with a dot between them. -/
def addressText : Bytes → Bytes
  | [] => []
  | part::parts => text part.toNat ++ parts.flatMap fun p => 46 :: text p.toNat

def dottedQuad (a b c d : UInt8) : Bytes := addressText [a,b,c,d]

/-- Four runs of digits between dots, each below 256; leading zeros are allowed. -/
structure DottedQuad (src : Bytes) (parts : List Bytes) : Prop where
  eq : src = [46].intercalate parts
  length : parts.length = 4
  digits : ∀ p ∈ parts, p ≠ [] ∧ (∀ b ∈ p, isDigit b = true) ∧ value p < 256

theorem mem_intercalate {sep b : UInt8} {parts : List Bytes} (h : b ∈ [sep].intercalate parts) :
    b = sep ∨ ∃ p ∈ parts, b ∈ p := by
  induction parts with
  | nil => simp at h
  | cons p parts ih =>
    cases parts with
    | nil => exact .inr ⟨p,by simp,by simpa using h⟩
    | cons q parts =>
      rw [List.intercalate_cons_cons] at h
      simp only [List.mem_append, List.mem_singleton] at h
      rcases h with (h | h) | h
      · exact .inr ⟨p,by simp,h⟩
      · exact .inl h
      · rcases ih h with h | ⟨r,hr,hb⟩
        · exact .inl h
        · exact .inr ⟨r,List.mem_cons_of_mem _ hr,hb⟩

@[simp] theorem ofInt_natCast (n : ℕ) : UInt8.ofInt n = UInt8.ofNat n := by
  have h : ((n:Int) % 2^8).toNat = n % 2^8 := by omega
  rw [← UInt8.toNat_inj, UInt8.ofInt, h, UInt8.toNat_ofNat', UInt8.toNat_ofNat', Nat.mod_mod]

theorem mapM_ok {α β ε : Type} {f : α → Except ε β} {g : α → β} {xs : List α}
    (h : ∀ x ∈ xs, f x = .ok (g x)) : xs.mapM f = .ok (xs.map g) := by
  induction xs with
  | nil => rfl
  | cons x xs ih =>
    rw [List.mapM_cons, h x (List.mem_cons_self ..), ih fun y hy => h y (List.mem_cons_of_mem _ hy)]
    rfl

/-- The address of a dotted quad can be written, one byte for each part. -/
theorem DottedQuad.getIpAddressV4 {src : Bytes} {parts : List Bytes} (h : DottedQuad src parts) :
    getIpAddressV4 src = .ok (parts.map fun p => UInt8.ofNat (value p)) := by
  have hdot : ∀ p ∈ parts, (46 : UInt8) ∉ p := by
    intro p hp hb
    have := (h.digits p hp).2.1 46 hb
    contradiction
  have hnul : (0 : UInt8) ∉ src := by
    intro hb
    rw [h.eq] at hb
    rcases mem_intercalate hb with hb | ⟨p,hp,hb⟩
    · contradiction
    · have := (h.digits p hp).2.1 0 hb
      contradiction
  have hne : parts ≠ [] := by
    rintro rfl
    exact absurd h.length (by decide)
  rw [Ssyncd.getIpAddressV4, cString_eq_self hnul, h.eq, List.splitOn_intercalate 46 hdot hne]
  apply mapM_ok
  intro p hp
  obtain ⟨hpne,hdig,hlt⟩ := h.digits p hp
  rw [stoi_digits hpne hdig (by omega), ← ofInt_natCast]
  rfl

theorem dottedQuad_isDottedQuad (a b c d : UInt8) :
    DottedQuad (dottedQuad a b c d) ([a,b,c,d].map fun x => text x.toNat) where
  eq := by simp [dottedQuad, addressText, List.intercalate]
  length := rfl
  digits p hp := by
    obtain ⟨x,-,rfl⟩ := List.mem_map.mp hp
    exact ⟨text_ne_nil _,isDigit_text _,by rw [value_text]; exact x.toNat_lt⟩

@[simp] theorem getIpAddressV4_dottedQuad (a b c d : UInt8) :
    getIpAddressV4 (dottedQuad a b c d) = .ok [a,b,c,d] := by
  rw [(dottedQuad_isDottedQuad a b c d).getIpAddressV4]
  simp

end Ssyncd
