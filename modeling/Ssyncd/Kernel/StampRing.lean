import Ssyncd.Kernel.Entry
import Ssyncd.Library.Ring

/-! What the update of an entry reads and writes: the ring of its stamps, with a byte for the index of
the next cell and sixteen bits for the number of cells in use. -/
namespace Ssyncd
namespace Kernel

structure StampRing where
  index : UInt8
  nstamps : UInt16
  stamps : List UInt64

namespace StampRing

def visible (e : StampRing) : List UInt64 := e.stamps.take e.nstamps.toNat

/-- A write to a cell: the index becomes the next one, in a byte. -/
def write (e : StampRing) (i : UInt8) (nstamp : UInt64) : StampRing :=
  let index := i + 1
  { index
    stamps := e.stamps.set i.toNat nstamp
    nstamps := if e.nstamps.toNat < index.toNat then index.toUInt16 else e.nstamps }

variable {e : StampRing} {i : UInt8} {nstamp : UInt64}

@[simp] theorem length_stamps_write : (e.write i nstamp).stamps.length = e.stamps.length :=
  List.length_set

theorem nstamps_write :
    (e.write i nstamp).nstamps.toNat = max e.nstamps.toNat (e.write i nstamp).index.toNat := by
  rw [write]
  dsimp only
  split
  · next hlt => rw [UInt8.toNat_toUInt16, Nat.max_eq_right (Nat.le_of_lt hlt)]
  · next hle => rw [Nat.max_eq_left (Nat.le_of_not_lt hle)]

theorem index_write (hfits : i.toNat + 1 < 256) : (e.write i nstamp).index.toNat = i.toNat + 1 := by
  rw [write]
  dsimp only
  rw [UInt8.toNat_add]
  exact Nat.mod_eq_of_lt hfits

/-- The stamps of a ring, oldest first. -/
def History (e : StampRing) (history : List UInt64) : Prop :=
  Ring.Holds e.stamps e.index.toNat e.nstamps.toNat history

section History
variable {history : List UInt64}

theorem History.length (h : e.History history) : history.length = e.nstamps.toNat := Ring.Holds.length h

theorem History.perm (h : e.History history) : e.visible.Perm history := Ring.Holds.perm h

/-- The cell before the next one holds the last stamp. -/
theorem History.last (h : e.History history) (hindex : e.index.toNat ≠ 0) :
    e.stamps[e.index.toNat - 1]? = history.getLast? := by
  obtain ⟨before,hbefore⟩ := Nat.exists_eq_succ_of_ne_zero hindex
  have hholds : Ring.Holds e.stamps (before + 1) e.nstamps.toNat history := by
    rw [← Nat.succ_eq_add_one, ← hbefore]
    exact h
  rw [hbefore]
  exact hholds.last.symm

/-- While the byte of the index is wide enough, a write is one to the ring. -/
theorem History.write (h : e.History history) {capacity : ℕ}
    (hlen : e.stamps.length = capacity) (hpos : 0 < capacity)
    (hcell : i.toNat = e.index.toNat % capacity) (hfits : i.toNat + 1 < 256) (nstamp : UInt64) :
    (e.write i nstamp).History (Ring.push capacity history nstamp) := by
  have hwrite := Ring.Holds.write h (hlen ▸ hpos) nstamp
  rw [hlen, ← hcell] at hwrite
  rw [History, nstamps_write, index_write hfits]
  exact hwrite

end History

end StampRing

def RecentEntry.ring {nstampsMaxMask : UInt8} (e : RecentEntry nstampsMaxMask) : StampRing where
  index := e.index
  nstamps := e.nstamps
  stamps := e.stamps

end Kernel
end Ssyncd
