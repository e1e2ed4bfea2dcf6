import Ssyncd.Kernel.Copy

/-! The stamps that are kept by each of the three patched kernel modules. -/
namespace Ssyncd
namespace Kernel

/-- The modules with the parameters that decide how many stamps an entry has, as their checks admit
them. -/
inductive PatchedModule
  | v3_2_93 (ipPktListTot : UInt8) (hpos : 0 < ipPktListTot.toNat)
  | v3_16_43 (ipPktListTot : UInt8) (hpos : 0 < ipPktListTot.toNat)
  | v4_9_13 (ipPktListTot hitCount : ℕ) (htot : ipPktListTot < 256) (hhit : hitCount < 256)

/-- An insertion: the time, and the stamp that is given instead of it. -/
structure Insertion where
  jiffies : UInt64
  nstamp : Option UInt64 := none

def Insertion.stamp (insertion : Insertion) : UInt64 := insertion.nstamp.getD insertion.jiffies

namespace PatchedModule

def nstampsMaxMask (ipPktListTot hitCount : ℕ) : UInt8 := UInt8.ofNat (nstampMask ipPktListTot hitCount)

/-- The stamps that an entry is allocated with. -/
def capacity : PatchedModule → ℕ
  | v3_2_93 ipPktListTot _ => ipPktListTot.toNat
  | v3_16_43 ipPktListTot _ => ipPktListTot.toNat
  | v4_9_13 ipPktListTot hitCount _ _ => (nstampsMaxMask ipPktListTot hitCount).toNat + 1

/-- The cell that is written next. -/
def cell : PatchedModule → UInt8 → UInt8
  | v3_2_93 ipPktListTot _, index => index % ipPktListTot
  | v3_16_43 ipPktListTot _, index => index % ipPktListTot
  | v4_9_13 ipPktListTot hitCount _ _, index => index &&& nstampsMaxMask ipPktListTot hitCount

variable (m : PatchedModule)

/-- What the allocation leaves uninitialised is zero here. -/
def recentEntryInit (first : Insertion) : StampRing where
  index := 1
  nstamps := 1
  stamps := first.stamp::List.replicate (m.capacity - 1) 0

def recentEntryUpdate (e : StampRing) (insertion : Insertion) : StampRing :=
  e.write (m.cell e.index) insertion.stamp

/-- One insertion after another. -/
def run (first : Insertion) (rest : List Insertion) : StampRing :=
  rest.foldl m.recentEntryUpdate (m.recentEntryInit first)

/-- The model of an entry of 4.9.13 has this ring. -/
theorem ring_updateAll {ipPktListTot hitCount : ℕ} (htot : ipPktListTot < 256) (hhit : hitCount < 256)
    (addr : NfInetAddr) (ttl : UInt8) (first : Insertion) (rest : List Insertion) :
    (updateAll (Kernel.recentEntryInit (nstampsMaxMask ipPktListTot hitCount) addr ttl first.stamp)
      (rest.map Insertion.stamp)).ring = (v4_9_13 ipPktListTot hitCount htot hhit).run first rest := by
  have hall : ∀ (e : RecentEntry (nstampsMaxMask ipPktListTot hitCount)),
      (updateAll e (rest.map Insertion.stamp)).ring =
        rest.foldl (v4_9_13 ipPktListTot hitCount htot hhit).recentEntryUpdate e.ring := by
    induction rest with
    | nil => exact fun _ => rfl
    | cons insertion rest ih => exact fun e => ih (Kernel.recentEntryUpdate e insertion.stamp)
  exact hall _

/-- The stamps that should be visible: the last ones that were inserted, as many as fit. -/
def latest (first : Insertion) (rest : List Insertion) : List UInt64 :=
  ((first::rest).map Insertion.stamp).drop (rest.length + 1 - m.capacity)

/-- What holds of an entry after these insertions. -/
structure RingLaw (first : Insertion) (rest : List Insertion) : Prop where
  visible : (m.run first rest).visible.Perm (m.latest first rest)
  writes : ∀ before insertion after, rest = before ++ insertion::after →
    (m.cell (m.run first before).index).toNat < m.capacity
  reads : ∀ before after, rest = before ++ after →
    0 < (m.run first before).index.toNat ∧ (m.run first before).index.toNat - 1 < m.capacity
  last : (m.run first rest).stamps[(m.run first rest).index.toNat - 1]? = (m.latest first rest).getLast?
  oldest : m.capacity ≤ rest.length + 1 →
    (m.run first rest).visible[(m.cell (m.run first rest).index).toNat]? = (m.latest first rest).head?

theorem nextPowerOfTwo_le {n : ℕ} (h : n < 256) : n.nextPowerOfTwo ≤ 2 ^ 8 := by
  have hall : ∀ n < 256, n.nextPowerOfTwo ≤ 256 := by decide +kernel
  exact hall n h

/-- A ring of 4.9.13 has a power of two of stamps, at most 256. -/
theorem nstampMask_pow {ipPktListTot hitCount : ℕ} (htot : ipPktListTot < 256) (hhit : hitCount < 256) :
    ∃ k ≤ 8, nstampMask ipPktListTot hitCount + 1 = 2 ^ k := by
  have hround : ∀ n < 256, ∃ k ≤ 8, n.nextPowerOfTwo - 1 + 1 = 2 ^ k := by
    intro n hn
    obtain ⟨k,hk⟩ := Nat.isPowerOfTwo_nextPowerOfTwo n
    have hle := nextPowerOfTwo_le hn
    rw [hk] at hle
    refine ⟨k,(Nat.pow_le_pow_iff_right (by decide)).mp hle,?_⟩
    rw [hk, Nat.sub_add_cancel Nat.one_le_two_pow]
  unfold nstampMask
  split
  · exact hround ipPktListTot htot
  · split
    · exact hround hitCount hhit
    · exact ⟨5,by decide,rfl⟩

/-- Masking is a remainder, as in the other modules. -/
theorem toNat_cell (index : UInt8) : (m.cell index).toNat = index.toNat % m.capacity := by
  cases m with
  | v3_2_93 => exact UInt8.toNat_mod ..
  | v3_16_43 => exact UInt8.toNat_mod ..
  | v4_9_13 ipPktListTot hitCount htot hhit =>
    obtain ⟨k,hk,hmask⟩ := nstampMask_pow htot hhit
    have hlt : nstampMask ipPktListTot hitCount < 256 := by
      have hle : 2 ^ k ≤ 2 ^ 8 := Nat.pow_le_pow_right (by decide) hk
      omega
    have hnat : (nstampsMaxMask ipPktListTot hitCount).toNat = 2 ^ k - 1 := by
      rw [nstampsMaxMask, UInt8.toNat_ofNat_of_lt' hlt]
      omega
    have hcap : (nstampsMaxMask ipPktListTot hitCount).toNat + 1 = 2 ^ k := by
      rw [hnat, Nat.sub_add_cancel Nat.one_le_two_pow]
    rw [cell, capacity, UInt8.toNat_and, hcap, hnat, Nat.and_two_pow_sub_one_eq_mod]

theorem capacity_pos : 0 < m.capacity := by
  cases m with
  | v3_2_93 _ hpos => exact hpos
  | v3_16_43 _ hpos => exact hpos
  | v4_9_13 => exact Nat.succ_pos _

theorem cell_lt (index : UInt8) : (m.cell index).toNat < m.capacity := by
  rw [toNat_cell]
  exact Nat.mod_lt _ m.capacity_pos

theorem run_concat (first : Insertion) (rest : List Insertion) (insertion : Insertion) :
    m.run first (rest ++ [insertion]) = m.recentEntryUpdate (m.run first rest) insertion := by
  rw [run, List.foldl_concat]
  rfl

theorem length_stamps_run (first : Insertion) (rest : List Insertion) :
    (m.run first rest).stamps.length = m.capacity := by
  induction rest using List.reverseRecOn with
  | nil =>
    have hpos := m.capacity_pos
    rw [run, List.foldl_nil, recentEntryInit, List.length_cons, List.length_replicate]
    omega
  | append_singleton rest insertion ih => rw [run_concat, recentEntryUpdate, StampRing.length_stamps_write, ih]

/-- What is visible is counted in the byte of the index. -/
theorem nstamps_run_le (first : Insertion) (rest : List Insertion) :
    (m.run first rest).nstamps.toNat ≤ 255 := by
  induction rest using List.reverseRecOn with
  | nil =>
    have hone : (1 : UInt16).toNat ≤ 255 := by decide
    exact hone
  | append_singleton rest insertion ih =>
    rw [run_concat, recentEntryUpdate, StampRing.nstamps_write]
    exact Nat.max_le.mpr ⟨ih,Nat.le_of_lt_succ (UInt8.toNat_lt _)⟩

/-- The index does not wrap around in a ring of fewer than 256 cells, nor before the last cell of a
larger one is written. -/
def Fits (rest : List Insertion) : Prop := m.capacity < 256 ∨ rest.length < 255

variable {m}

theorem Fits.of_append {before after : List Insertion} (h : m.Fits (before ++ after)) :
    m.Fits before := by
  refine h.imp id fun hlen => ?_
  rw [List.length_append] at hlen
  omega

theorem history_run {first : Insertion} {rest : List Insertion} (h : m.Fits rest) :
    (0 < (m.run first rest).index.toNat ∧ (m.run first rest).index.toNat ≤ rest.length + 1) ∧
      (m.run first rest).History
        (Ring.pushAll m.capacity [first.stamp] (rest.map Insertion.stamp)) := by
  induction rest using List.reverseRecOn with
  | nil => exact ⟨⟨Nat.one_pos,Nat.le_refl 1⟩,Ring.Holds.first _ _⟩
  | append_singleton rest insertion ih =>
    obtain ⟨⟨-,hle⟩,hhistory⟩ := ih h.of_append
    have hcell := m.toNat_cell (m.run first rest).index
    have hlt := m.cell_lt (m.run first rest).index
    have hmod := Nat.mod_le (m.run first rest).index.toNat m.capacity
    have hfits : (m.cell (m.run first rest).index).toNat + 1 < 256 := by
      rcases h with h | h
      · omega
      · rw [List.length_append, List.length_singleton] at h
        omega
    rw [run_concat, recentEntryUpdate, List.map_append, List.length_append, List.length_singleton]
    refine ⟨?_,?_⟩
    · rw [StampRing.index_write hfits]
      omega
    · have hpush := hhistory.write (m.length_stamps_run first rest) m.capacity_pos hcell hfits
        insertion.stamp
      rw [Ring.pushAll, List.foldl_append]
      exact hpush

theorem latest_eq (first : Insertion) (rest : List Insertion) :
    Ring.pushAll m.capacity [first.stamp] (rest.map Insertion.stamp) = m.latest first rest := by
  have hone : [first.stamp].length ≤ m.capacity := m.capacity_pos
  rw [Ring.pushAll_eq_drop m.capacity_pos hone, List.length_singleton, List.length_map, Nat.add_comm 1]
  rfl

theorem length_latest (first : Insertion) (rest : List Insertion) :
    (m.latest first rest).length = min (rest.length + 1) m.capacity := by
  rw [latest, List.length_drop, List.length_map, List.length_cons]
  omega

theorem ringLaw_of_fits {first : Insertion} {rest : List Insertion} (h : m.Fits rest) :
    m.RingLaw first rest := by
  obtain ⟨⟨hpos,-⟩,hhistory⟩ := @history_run m first rest h
  rw [latest_eq] at hhistory
  refine ⟨hhistory.perm,fun _ _ _ _ => m.cell_lt _,?_,?_,fun hfull => ?_⟩
  · rintro before after rfl
    obtain ⟨⟨hpos,-⟩,hbefore⟩ := @history_run m first before h.of_append
    have hnext := hbefore.next_le
    rw [length_stamps_run] at hnext
    omega
  · exact hhistory.last (Nat.ne_of_gt hpos)
  · have hlen := length_latest (m := m) first rest
    rw [hhistory.length, Nat.min_eq_right hfull, ← m.length_stamps_run first rest] at hlen
    have hstamps := m.length_stamps_run first rest
    rw [toNat_cell, ← hstamps]
    exact Ring.Holds.oldest hhistory (hstamps ▸ m.capacity_pos) hlen

/-- With 256 cells the last of them never becomes visible. -/
theorem not_ringLaw_of_full {first : Insertion} {rest : List Insertion} (hcap : 256 ≤ m.capacity)
    (hlen : 255 ≤ rest.length) : ¬m.RingLaw first rest := by
  intro h
  have hvisible := h.visible.length_eq
  have hused := m.nstamps_run_le first rest
  rw [length_latest, StampRing.visible, List.length_take] at hvisible
  omega

/-- The law holds of every ring of fewer than 256 cells, and of one of 256 cells only before the last
of them is written: then the index wraps around to 0. -/
theorem ringLaw_iff (m : PatchedModule) (first : Insertion) (rest : List Insertion) :
    m.RingLaw first rest ↔ m.capacity < 256 ∨ rest.length + 1 < 256 := by
  constructor
  · intro h
    by_contra hnot
    exact not_ringLaw_of_full (by omega) (by omega) h
  · intro h
    exact ringLaw_of_fits (h.imp id fun hlen => by omega)

/-- A rule with a hit count of 255, and 256 insertions. -/
theorem not_ringLaw_full :
    ¬(v4_9_13 0 255 (by decide) (by decide)).RingLaw { jiffies := 0 }
      (List.replicate 255 { jiffies := 1 }) := by
  have hcap : (v4_9_13 0 255 (by decide) (by decide)).capacity = 256 := by
    have hround : Nat.nextPowerOfTwo 255 = 256 := by decide +kernel
    rw [capacity, nstampsMaxMask, nstampMask, if_neg (by decide), if_pos (by decide), hround]
    rfl
  exact not_ringLaw_of_full (Nat.le_of_eq hcap.symm) (Nat.le_of_eq List.length_replicate.symm)

end PatchedModule
end Kernel
end Ssyncd
