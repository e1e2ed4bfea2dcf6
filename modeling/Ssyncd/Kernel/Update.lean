import Ssyncd.Kernel.StampRing

/-! How the kernel module makes an entry and writes the next stamp of it. -/
namespace Ssyncd
namespace Kernel

variable {nstampsMaxMask : UInt8}

theorem toNat_and_le (index : UInt8) : (index &&& nstampsMaxMask).toNat ≤ nstampsMaxMask.toNat := by
  rw [UInt8.toNat_and]
  exact Nat.and_le_right

theorem toNat_succ_le (i : UInt8) : (i + 1).toNat ≤ i.toNat + 1 := by
  rw [UInt8.toNat_add]
  exact Nat.mod_le _ _

/-- The first stamp is the time, or the stamp that was given. What the allocation leaves
uninitialised is zero here. -/
def recentEntryInit (nstampsMaxMask : UInt8) (addr : NfInetAddr) (ttl : UInt8)
    (firstNstamp : UInt64) : RecentEntry nstampsMaxMask where
  addr := addr
  ttl := ttl
  index := 1
  nstamps := 1
  stamps := firstNstamp::List.replicate nstampsMaxMask.toNat 0
  stamps_length := by simp
  nstamps_pos := by decide
  nstamps_le := Nat.le_add_left 1 nstampsMaxMask.toNat

def recentEntryUpdate (e : RecentEntry nstampsMaxMask) (nstamp : UInt64) :
    RecentEntry nstampsMaxMask :=
  let i := e.index &&& nstampsMaxMask
  let index := i + 1
  { e with
    index
    stamps := e.stamps.set i.toNat nstamp
    nstamps := if e.nstamps.toNat < index.toNat then index.toUInt16 else e.nstamps
    stamps_length := by rw [List.length_set, e.stamps_length]
    nstamps_pos := by
      split
      · next h => exact Nat.lt_of_le_of_lt (Nat.zero_le _) (h.trans_eq (UInt8.toNat_toUInt16 _).symm)
      · exact e.nstamps_pos
    nstamps_le := by
      split
      · rw [UInt8.toNat_toUInt16]
        exact (toNat_succ_le _).trans (Nat.succ_le_succ (toNat_and_le _))
      · exact e.nstamps_le }

@[simp] theorem recentEntryUpdate_addr (e : RecentEntry nstampsMaxMask) (nstamp : UInt64) :
    (recentEntryUpdate e nstamp).addr = e.addr := rfl

@[simp] theorem recentEntryUpdate_ttl (e : RecentEntry nstampsMaxMask) (nstamp : UInt64) :
    (recentEntryUpdate e nstamp).ttl = e.ttl := rfl

theorem ring_update (e : RecentEntry nstampsMaxMask) (nstamp : UInt64) :
    (recentEntryUpdate e nstamp).ring = e.ring.write (e.index &&& nstampsMaxMask) nstamp := rfl

theorem index_update {e : RecentEntry nstampsMaxMask}
    (hfits : (e.index &&& nstampsMaxMask).toNat + 1 < 256) (nstamp : UInt64) :
    (recentEntryUpdate e nstamp).index.toNat = (e.index &&& nstampsMaxMask).toNat + 1 := by
  have hindex : (recentEntryUpdate e nstamp).index = (recentEntryUpdate e nstamp).ring.index := rfl
  rw [hindex, ring_update, StampRing.index_write hfits]

theorem nstamps_update (e : RecentEntry nstampsMaxMask) (nstamp : UInt64) :
    (recentEntryUpdate e nstamp).nstamps.toNat =
      max e.nstamps.toNat (recentEntryUpdate e nstamp).index.toNat := by
  have hnstamps : (recentEntryUpdate e nstamp).nstamps = (recentEntryUpdate e nstamp).ring.nstamps := rfl
  rw [hnstamps, ring_update, StampRing.nstamps_write]
  rfl

def updateAll (e : RecentEntry nstampsMaxMask) (nstamps : List UInt64) : RecentEntry nstampsMaxMask :=
  nstamps.foldl recentEntryUpdate e

theorem updateAll_addr (e : RecentEntry nstampsMaxMask) (nstamps : List UInt64) :
    (updateAll e nstamps).addr = e.addr := by
  induction nstamps generalizing e with
  | nil => rfl
  | cons nstamp nstamps ih => exact ih (recentEntryUpdate e nstamp)

theorem updateAll_ttl (e : RecentEntry nstampsMaxMask) (nstamps : List UInt64) :
    (updateAll e nstamps).ttl = e.ttl := by
  induction nstamps generalizing e with
  | nil => rfl
  | cons nstamp nstamps ih => exact ih (recentEntryUpdate e nstamp)

/-- `stamps[index-1]`, where that is in the ring. -/
def RecentEntry.mostRecent (e : RecentEntry nstampsMaxMask) : Option UInt64 :=
  if e.index = 0 then none else e.stamps[e.index.toNat - 1]?

/-- The last write was to a cell in use, and the index has not wrapped around. -/
structure RecentEntry.Indexed (e : RecentEntry nstampsMaxMask) : Prop where
  pos : 0 < e.index.toNat
  le : e.index.toNat ≤ e.nstamps.toNat

theorem indexed_init (addr : NfInetAddr) (ttl : UInt8) (firstNstamp : UInt64) :
    (recentEntryInit nstampsMaxMask addr ttl firstNstamp).Indexed where
  pos := Nat.one_pos
  le := Nat.le_refl 1

@[simp] theorem mostRecent_init (addr : NfInetAddr) (ttl : UInt8) (firstNstamp : UInt64) :
    (recentEntryInit nstampsMaxMask addr ttl firstNstamp).mostRecent = some firstNstamp := rfl

theorem nstamps_le_update (e : RecentEntry nstampsMaxMask) (nstamp : UInt64) :
    e.nstamps.toNat ≤ (recentEntryUpdate e nstamp).nstamps.toNat := by
  rw [nstamps_update]
  exact Nat.le_max_left _ _

theorem nstamps_le_updateAll (e : RecentEntry nstampsMaxMask) (nstamps : List UInt64) :
    e.nstamps.toNat ≤ (updateAll e nstamps).nstamps.toNat := by
  induction nstamps generalizing e with
  | nil => exact Nat.le_refl _
  | cons nstamp nstamps ih => exact (nstamps_le_update e nstamp).trans (ih _)

/-- The byte of the index is wide enough for an entry with at most 128 stamps. -/
theorem RecentEntry.Indexed.update {e : RecentEntry nstampsMaxMask} (h : e.Indexed)
    (hfew : e.nstamps.toNat ≤ 128) (nstamp : UInt64) :
    (recentEntryUpdate e nstamp).Indexed ∧
      (recentEntryUpdate e nstamp).mostRecent = some nstamp := by
  have hcell : (e.index &&& nstampsMaxMask).toNat ≤ e.index.toNat := by
    rw [UInt8.toNat_and]
    exact Nat.and_le_left
  have hle := h.le
  have hindex : (recentEntryUpdate e nstamp).index.toNat = (e.index &&& nstampsMaxMask).toNat + 1 :=
    index_update (by omega) nstamp
  have hpos : 0 < (recentEntryUpdate e nstamp).index.toNat := by omega
  refine ⟨⟨hpos,?_⟩,?_⟩
  · rw [nstamps_update]
    exact Nat.le_max_right _ _
  · have hne : (recentEntryUpdate e nstamp).index ≠ 0 := by
      intro h0
      rw [h0] at hpos
      contradiction
    have hlt : (e.index &&& nstampsMaxMask).toNat < e.stamps.length := by
      rw [e.stamps_length]
      exact Nat.lt_succ_of_le (toNat_and_le _)
    rw [RecentEntry.mostRecent, if_neg hne, hindex]
    exact List.getElem?_set_self hlt

/-- After some writes the most recent stamp is the last one written. -/
theorem RecentEntry.Indexed.updateAll {e : RecentEntry nstampsMaxMask} (h : e.Indexed)
    {nstamps : List UInt64} (hfew : (updateAll e nstamps).nstamps.toNat ≤ 128) :
    (updateAll e nstamps).Indexed ∧
      (updateAll e nstamps).mostRecent = nstamps.getLast?.or e.mostRecent := by
  induction nstamps generalizing e with
  | nil => exact ⟨h,rfl⟩
  | cons nstamp nstamps ih =>
    have hnow := (nstamps_le_updateAll e (nstamp::nstamps)).trans hfew
    obtain ⟨hindexed,hrecent⟩ := h.update hnow nstamp
    obtain ⟨hall,hlast⟩ := ih hindexed hfew
    refine ⟨hall,hlast.trans ?_⟩
    rw [hrecent, List.getLast?_cons]
    cases nstamps.getLast? <;> rfl

/-- One less than the least power of two that a list of this many stamps fits in. -/
def nstampMask (ipPktListTot hitCount : ℕ) : ℕ :=
  if ipPktListTot ≠ 0 ∧ hitCount < ipPktListTot then ipPktListTot.nextPowerOfTwo - 1
  else if hitCount ≠ 0 then hitCount.nextPowerOfTwo - 1
  else 32 - 1

/-- The masks of the rings of up to 128 cells. -/
def shortMasks : List UInt8 := [0,1,3,7,15,31,63,127]

theorem toNat_and_of_short (h : nstampsMaxMask ∈ shortMasks) (index : UInt8) :
    (index &&& nstampsMaxMask).toNat = index.toNat % (nstampsMaxMask.toNat + 1) := by
  have hpow : ∃ k, nstampsMaxMask.toNat = 2 ^ k - 1 ∧ nstampsMaxMask.toNat + 1 = 2 ^ k := by
    simp only [shortMasks, List.mem_cons, List.not_mem_nil, or_false] at h
    rcases h with rfl | rfl | rfl | rfl | rfl | rfl | rfl | rfl
    exacts [⟨0,rfl,rfl⟩,⟨1,rfl,rfl⟩,⟨2,rfl,rfl⟩,⟨3,rfl,rfl⟩,⟨4,rfl,rfl⟩,⟨5,rfl,rfl⟩,⟨6,rfl,rfl⟩,
      ⟨7,rfl,rfl⟩]
  obtain ⟨k,hmask,hsize⟩ := hpow
  rw [UInt8.toNat_and, hsize, hmask, Nat.and_two_pow_sub_one_eq_mod]

theorem toNat_le_of_short (h : nstampsMaxMask ∈ shortMasks) : nstampsMaxMask.toNat ≤ 127 := by
  simp only [shortMasks, List.mem_cons, List.not_mem_nil, or_false] at h
  rcases h with rfl | rfl | rfl | rfl | rfl | rfl | rfl | rfl <;> decide

theorem cell_fits (h : nstampsMaxMask ∈ shortMasks) (index : UInt8) :
    (index &&& nstampsMaxMask).toNat + 1 < 256 := by
  have hcell : (index &&& nstampsMaxMask).toNat ≤ nstampsMaxMask.toNat := toNat_and_le _
  have hshort := toNat_le_of_short h
  omega

/-- The index after a write is one more than the cell that was written. -/
theorem toNat_index_update (h : nstampsMaxMask ∈ shortMasks) (e : RecentEntry nstampsMaxMask)
    (nstamp : UInt64) : (recentEntryUpdate e nstamp).index.toNat =
      e.index.toNat % (nstampsMaxMask.toNat + 1) + 1 := by
  rw [index_update (cell_fits h e.index), toNat_and_of_short h]

theorem history_init (addr : NfInetAddr) (ttl : UInt8) (firstNstamp : UInt64) :
    (recentEntryInit nstampsMaxMask addr ttl firstNstamp).ring.History [firstNstamp] :=
  Ring.Holds.first _ _

theorem history_update (h : nstampsMaxMask ∈ shortMasks) {e : RecentEntry nstampsMaxMask}
    {history : List UInt64} (hh : e.ring.History history) (nstamp : UInt64) :
    (recentEntryUpdate e nstamp).ring.History (Ring.push (nstampsMaxMask.toNat + 1) history nstamp) := by
  rw [ring_update]
  exact hh.write e.stamps_length (Nat.succ_pos _) (toNat_and_of_short h e.index)
    (cell_fits h e.index) nstamp

theorem history_updateAll (h : nstampsMaxMask ∈ shortMasks) {e : RecentEntry nstampsMaxMask}
    {history : List UInt64} (hh : e.ring.History history) (nstamps : List UInt64) :
    (updateAll e nstamps).ring.History (Ring.pushAll (nstampsMaxMask.toNat + 1) history nstamps) := by
  induction nstamps generalizing e history with
  | nil => exact hh
  | cons nstamp nstamps ih => exact ih (history_update h hh nstamp)

end Kernel
end Ssyncd
