import Ssyncd.Kernel.Update
import Mathlib.Data.List.Sort

/-! Entries that the kernel module cannot tell apart by their stamps, however their rings are
turned, and the entry that is made of the stamps of another one. -/
namespace Ssyncd

/-- What std::sort leaves, for values of which no two are equivalent. -/
def sorted (stamps : List UInt64) : List UInt64 := stamps.insertionSort (· ≤ ·)

theorem sorted_eq_of_perm {stamps sortedStamps : List UInt64} (hp : stamps.Perm sortedStamps)
    (hs : sortedStamps.Pairwise (· ≤ ·)) : sorted stamps = sortedStamps :=
  List.Perm.eq_of_pairwise' (List.pairwise_insertionSort (· ≤ ·) stamps) hs
    ((List.perm_insertionSort (· ≤ ·) stamps).trans hp)

namespace Kernel

variable {nstampsMaxMask : UInt8}

/-- The rings that a rule asks for have a power of two of cells. -/
theorem nstampMask_mem_shortMasks {ipPktListTot hitCount : ℕ}
    (h : nstampMask ipPktListTot hitCount + 1 ≤ 128) :
    UInt8.ofNat (nstampMask ipPktListTot hitCount) ∈ shortMasks := by
  have hpow : ∃ k, nstampMask ipPktListTot hitCount = 2 ^ k - 1 := by
    unfold nstampMask
    split
    · obtain ⟨k,hk⟩ := Nat.isPowerOfTwo_nextPowerOfTwo ipPktListTot
      exact ⟨k,by rw [hk]⟩
    · split
      · obtain ⟨k,hk⟩ := Nat.isPowerOfTwo_nextPowerOfTwo hitCount
        exact ⟨k,by rw [hk]⟩
      · exact ⟨5,rfl⟩
  obtain ⟨k,hk⟩ := hpow
  have hsmall : k < 8 := by
    by_contra hlarge
    have hgrow : 2 ^ 8 ≤ 2 ^ k := Nat.pow_le_pow_right (by decide) (Nat.le_of_not_lt hlarge)
    omega
  have hmasks : ∀ k < 8, UInt8.ofNat (2 ^ k - 1) ∈ shortMasks := by decide
  rw [hk]
  exact hmasks k hsmall

/-- An entry and the stamps that it was given, one after another; a rule may also give it the ttl
of a packet. -/
inductive RecentEntry.Given (addr : NfInetAddr) : List UInt64 → RecentEntry nstampsMaxMask → Prop
  | init (ttl : UInt8) (firstNstamp : UInt64) :
      Given addr [firstNstamp] (recentEntryInit nstampsMaxMask addr ttl firstNstamp)
  | update {stamps e} (h : Given addr stamps e) (nstamp : UInt64) :
      Given addr (stamps ++ [nstamp]) (recentEntryUpdate e nstamp)
  | setTtl {stamps e} (h : Given addr stamps e) (ttl : UInt8) : Given addr stamps { e with ttl }

/-- The same entry to every reader, and after every sequence of writes to both. -/
structure RecentEntry.Mirrors (e e' : RecentEntry nstampsMaxMask) : Prop where
  addr : e'.addr = e.addr
  ttl : e'.ttl = e.ttl
  nstamps : e'.nstamps = e.nstamps
  visible : e'.visible.Perm e.visible
  mostRecent : e'.mostRecent = e.mostRecent
  later : ∀ stamps, (updateAll e' stamps).visible.Perm (updateAll e stamps).visible

section History
variable {e e' : RecentEntry nstampsMaxMask} {history stamps : List UInt64}

theorem visible_perm (h : e.ring.History history) : e.visible.Perm history := h.perm

/-- The most recent stamp is the last one of the history. -/
theorem mostRecent_of_history (h : e.ring.History history) (hindex : e.index ≠ 0) :
    e.mostRecent = history.getLast? := by
  rw [RecentEntry.mostRecent, if_neg hindex]
  exact h.last fun h0 => hindex (UInt8.toNat_inj.mp h0)

theorem index_update_ne_zero (hmask : nstampsMaxMask ∈ shortMasks) (e : RecentEntry nstampsMaxMask)
    (nstamp : UInt64) : (recentEntryUpdate e nstamp).index ≠ 0 := by
  intro h0
  have hindex := toNat_index_update hmask e nstamp
  rw [h0] at hindex
  contradiction

/-- The history of an entry is what is left of the stamps that it was given. -/
theorem RecentEntry.Given.exists_history {addr : NfInetAddr} (h : e.Given addr stamps)
    (hmask : nstampsMaxMask ∈ shortMasks) :
    e.addr = addr ∧ e.index ≠ 0 ∧ ∃ history, e.ring.History history ∧ history.Sublist stamps := by
  induction h with
  | init ttl firstNstamp =>
    exact ⟨rfl,by simp [recentEntryInit],_,history_init addr ttl firstNstamp,List.Sublist.refl _⟩
  | @update stamps e h nstamp ih =>
    obtain ⟨haddr,-,history,hh,hsub⟩ := ih
    refine ⟨haddr,index_update_ne_zero hmask e nstamp,_,history_update hmask hh nstamp,?_⟩
    exact (Ring.push_sublist _ _ _).trans (hsub.append_right [nstamp])
  | setTtl h ttl ih => exact ih

/-- Entries with the same history are the same to every reader, now and later. -/
theorem mirrors_of_history (hmask : nstampsMaxMask ∈ shortMasks) (h : e.ring.History history)
    (h' : e'.ring.History history) (hindex : e.index ≠ 0) (hindex' : e'.index ≠ 0)
    (haddr : e'.addr = e.addr) (httl : e'.ttl = e.ttl) : e.Mirrors e' where
  addr := haddr
  ttl := httl
  nstamps := UInt16.toNat_inj.mp (h'.length.symm.trans h.length)
  visible := (visible_perm h').trans (visible_perm h).symm
  mostRecent := (mostRecent_of_history h' hindex').trans (mostRecent_of_history h hindex).symm
  later stamps := (visible_perm (history_updateAll hmask h' stamps)).trans
    (visible_perm (history_updateAll hmask h stamps)).symm

/-- An entry made of a history, oldest stamp first, has this history. -/
theorem history_rebuilt (hmask : nstampsMaxMask ∈ shortMasks) {addr : NfInetAddr} {ttl : UInt8}
    {stamp : UInt64} (hfits : (stamp::stamps).length ≤ nstampsMaxMask.toNat + 1) :
    (updateAll (recentEntryInit nstampsMaxMask addr ttl stamp) stamps).ring.History (stamp::stamps) := by
  have hfirst : (recentEntryInit nstampsMaxMask addr ttl stamp).ring.History [stamp] := history_init ..
  have hall := history_updateAll hmask hfirst stamps
  rw [List.length_cons, Nat.add_comm] at hfits
  rwa [Ring.pushAll_of_le hfits] at hall

theorem index_updateAll_ne_zero (hmask : nstampsMaxMask ∈ shortMasks) (h : e.index ≠ 0)
    (stamps : List UInt64) : (updateAll e stamps).index ≠ 0 := by
  induction stamps generalizing e with
  | nil => exact h
  | cons stamp stamps ih => exact ih (index_update_ne_zero hmask e stamp)

/-- The stamps of an entry that was given them in order are its history once they are sorted. -/
theorem RecentEntry.Given.exists_sorted {addr : NfInetAddr} (h : e.Given addr stamps)
    (hmask : nstampsMaxMask ∈ shortMasks) (horder : stamps.Pairwise (· ≤ ·)) :
    e.ring.History (sorted e.visible) ∧ (sorted e.visible).Sublist stamps := by
  obtain ⟨-,-,history,hh,hsub⟩ := h.exists_history hmask
  rw [sorted_eq_of_perm (visible_perm hh) (horder.sublist hsub)]
  exact ⟨hh,hsub⟩

end History

end Kernel
end Ssyncd
