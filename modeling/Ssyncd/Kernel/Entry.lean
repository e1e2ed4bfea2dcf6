import Ssyncd.Utils

/-! Entries of the patched kernel module, and the row that it prints for each of them. -/
namespace Ssyncd
open Decimal

/-- The bytes of a text. -/
def ascii (s : String) : Bytes := s.toList.map fun c => UInt8.ofNat c.toNat

namespace Kernel

/-- A family and an address of it. -/
inductive NfInetAddr
  | ip (a b c d : UInt8)
  | ip6 (s₀ s₁ s₂ s₃ s₄ s₅ s₆ s₇ : UInt16)
  deriving DecidableEq

def NfInetAddr.IsIpv4 : NfInetAddr → Prop
  | ip .. => True
  | ip6 .. => False

instance (addr : NfInetAddr) : Decidable addr.IsIpv4 :=
  match addr with
  | .ip .. => isTrue trivial
  | .ip6 .. => isFalse id

def hexDigit (n : ℕ) : UInt8 := UInt8.ofNat (if n < 10 then 48+n else 87+n)

/-- Four digits for sixteen bits. -/
def hexText (s : UInt16) : Bytes :=
  [s.toNat/4096,s.toNat/256%16,s.toNat/16%16,s.toNat%16].map hexDigit

/-- What `%pI4` and `%pI6` print. -/
def NfInetAddr.text : NfInetAddr → Bytes
  | ip a b c d => dottedQuad a b c d
  | ip6 s₀ s₁ s₂ s₃ s₄ s₅ s₆ s₇ => [58].intercalate ([s₀,s₁,s₂,s₃,s₄,s₅,s₆,s₇].map hexText)

/-- An entry of a table with this mask: its ring of stamps has the size that the mask gives, and
the first nstamps of them are in use. -/
structure RecentEntry (nstampsMaxMask : UInt8) where
  addr : NfInetAddr
  ttl : UInt8
  index : UInt8
  nstamps : UInt16
  stamps : List UInt64
  stamps_length : stamps.length = nstampsMaxMask.toNat + 1
  nstamps_pos : 0 < nstamps.toNat
  nstamps_le : nstamps.toNat ≤ nstampsMaxMask.toNat + 1
  deriving DecidableEq

variable {nstampsMaxMask : UInt8}

/-- The stamps that are printed. -/
def RecentEntry.visible (e : RecentEntry nstampsMaxMask) : List UInt64 :=
  e.stamps.take e.nstamps.toNat

@[simp] theorem RecentEntry.length_visible (e : RecentEntry nstampsMaxMask) :
    e.visible.length = e.nstamps.toNat := by
  rw [visible, List.length_take, e.stamps_length, Nat.min_eq_left e.nstamps_le]

theorem RecentEntry.visible_ne_nil (e : RecentEntry nstampsMaxMask) : e.visible ≠ [] := by
  intro h
  have hlen := e.length_visible
  rw [h] at hlen
  exact absurd hlen (Nat.ne_of_lt e.nstamps_pos)

def showStamps (sep : Bytes) : List UInt64 → Bytes
  | [] => []
  | stamp::stamps => sep ++ ascii " " ++ text stamp.toNat ++ showStamps (ascii ",") stamps

/-- A printed row, without its end of line. -/
def row (e : RecentEntry nstampsMaxMask) : Bytes :=
  let i := ((e.index - 1) &&& nstampsMaxMask).toNat
  ascii "src=" ++ e.addr.text ++ ascii " ttl: " ++ text e.ttl.toNat ++
    ascii " last_seen: " ++ text (e.stamps.getD i 0).toNat ++
    ascii " oldest_pkt: " ++ text e.index.toNat ++ showStamps [] e.visible

def recentSeqShow (e : RecentEntry nstampsMaxMask) : Bytes :=
  row e ++ ascii "\n"

/-- A table: its entries in the order in which they are printed. -/
structure RecentTable where
  name : Bytes
  nstampsMaxMask : UInt8
  entries : List (RecentEntry nstampsMaxMask)

/-- What a reader of the table's proc file gets. -/
def RecentTable.file (t : RecentTable) : Bytes := t.entries.flatMap recentSeqShow

end Kernel
end Ssyncd
