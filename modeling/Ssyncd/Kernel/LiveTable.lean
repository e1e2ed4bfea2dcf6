import Ssyncd.Kernel.Update
import Mathlib.Data.List.Find
import Mathlib.Data.List.Perm.Basic
import Mathlib.Logic.Function.Basic

/-! A table of the kernel module in memory. Its entries are blocks that are allocated and freed,
linked into hash chains in the order in which they were made, and into a list by their last
use. A step that reads a block after its free, or past the end of a ring, has no result. -/
namespace Ssyncd
namespace Kernel

abbrev Ptr := ℕ

/-- The entries of one address are in one chain, so the chains are kept as one list. -/
structure LiveTable (nstampsMaxMask : UInt8) where
  heap : Ptr → Option (RecentEntry nstampsMaxMask) := fun _ => none
  iphash : List Ptr := []
  lruList : List Ptr := []
  entries : ℕ := 0

variable {nstampsMaxMask : UInt8}

/-- The difference of two times has a sign, so that they may wrap around. -/
def timeAfter (a b : UInt64) : Bool := decide ((b - a).toInt64 < 0)

namespace LiveTable

def mostRecent (t : LiveTable nstampsMaxMask) (p : Ptr) : Option UInt64 :=
  (t.heap p).bind RecentEntry.mostRecent

def recentEntryLookup (t : LiveTable nstampsMaxMask) (addr : NfInetAddr) (ttl : UInt8) :
    Option Ptr :=
  t.iphash.find? fun p =>
    match t.heap p with
    | some e => e.addr = addr && (ttl = e.ttl || ttl = 0 || e.ttl = 0)
    | none => false

def recentEntryRemove (t : LiveTable nstampsMaxMask) (p : Ptr) : LiveTable nstampsMaxMask where
  heap := Function.update t.heap p none
  iphash := t.iphash.erase p
  lruList := t.lruList.erase p
  entries := t.entries - 1

/-- The head of the list is taken for the oldest entry. -/
def recentEntryReap (t : LiveTable nstampsMaxMask) (time : UInt64) :
    Option (LiveTable nstampsMaxMask) :=
  match t.lruList with
  | [] => none
  | p::_ => (t.mostRecent p).map fun stamp => if timeAfter time stamp then t.recentEntryRemove p else t

/-- A full table gives up the head of its list, and that before the allocation. -/
def recentEntryEvict (t : LiveTable nstampsMaxMask) (ipListTot : ℕ) :
    Option (LiveTable nstampsMaxMask) :=
  if ipListTot ≤ t.entries then t.lruList.head?.map t.recentEntryRemove else some t

def linked (t : LiveTable nstampsMaxMask) (p : Ptr) (e : RecentEntry nstampsMaxMask) :
    LiveTable nstampsMaxMask where
  heap := Function.update t.heap p (some e)
  iphash := t.iphash ++ [p]
  lruList := t.lruList ++ [p]
  entries := t.entries + 1

/-- The new entry, or null where the allocation fails; it never gives a block that is in use. -/
def recentEntryInit (t : LiveTable nstampsMaxMask) (ipListTot : ℕ) (addr : NfInetAddr) (ttl : UInt8)
    (firstNstamp : UInt64) (kmalloc : Option Ptr) :
    Option (LiveTable nstampsMaxMask × Option Ptr) :=
  (t.recentEntryEvict ipListTot).bind fun t =>
    match kmalloc with
    | none => some (t,none)
    | some p =>
      if (t.heap p).isSome then none
      else some (t.linked p (Kernel.recentEntryInit nstampsMaxMask addr ttl firstNstamp),some p)

/-- The entry's block holds this now, and is at the tail of the list. -/
def touched (t : LiveTable nstampsMaxMask) (p : Ptr) (e : RecentEntry nstampsMaxMask) :
    LiveTable nstampsMaxMask :=
  { t with
    heap := Function.update t.heap p (some e)
    lruList := t.lruList.erase p ++ [p] }

def recentEntryUpdate (t : LiveTable nstampsMaxMask) (p : Ptr) (nstamp : UInt64) :
    Option (LiveTable nstampsMaxMask) :=
  (t.heap p).map fun e => t.touched p (Kernel.recentEntryUpdate e nstamp)

def recentTableFlush (t : LiveTable nstampsMaxMask) : LiveTable nstampsMaxMask :=
  t.iphash.foldl recentEntryRemove t

/-- The table as a partial map: the entry that is found for an address, whatever its ttl. -/
def view (t : LiveTable nstampsMaxMask) (addr : NfInetAddr) : Option (RecentEntry nstampsMaxMask) :=
  (t.recentEntryLookup addr 0).bind t.heap

/-- The blocks in use are the entries, each of them linked once into both lists. -/
structure WellFormed (t : LiveTable nstampsMaxMask) : Prop where
  nodup : t.lruList.Nodup
  live : ∀ p, p ∈ t.lruList ↔ ∃ e, t.heap p = some e
  chained : t.iphash.Perm t.lruList
  counted : t.entries = t.lruList.length

theorem wellFormed_empty : WellFormed ({} : LiveTable nstampsMaxMask) where
  nodup := List.nodup_nil
  live p := by simp
  chained := List.Perm.refl _
  counted := rfl

section WellFormed
variable {t t' : LiveTable nstampsMaxMask} {p : Ptr} {e : RecentEntry nstampsMaxMask}

@[simp] theorem heap_remove (q : Ptr) :
    (t.recentEntryRemove p).heap q = if q = p then none else t.heap q :=
  Function.update_apply ..

@[simp] theorem heap_linked (q : Ptr) :
    (t.linked p e).heap q = if q = p then some e else t.heap q :=
  Function.update_apply ..

@[simp] theorem heap_touched (q : Ptr) :
    (t.touched p e).heap q = if q = p then some e else t.heap q :=
  Function.update_apply ..

theorem heap_touched_self (t : LiveTable nstampsMaxMask) (p : Ptr)
    (e : RecentEntry nstampsMaxMask) : (t.touched p e).heap p = some e := by
  simp

theorem heap_linked_self (t : LiveTable nstampsMaxMask) (p : Ptr)
    (e : RecentEntry nstampsMaxMask) : (t.linked p e).heap p = some e := by
  simp

@[simp] theorem lruList_touched : (t.touched p e).lruList = t.lruList.erase p ++ [p] := rfl

@[simp] theorem lruList_remove : (t.recentEntryRemove p).lruList = t.lruList.erase p := rfl

@[simp] theorem lruList_linked : (t.linked p e).lruList = t.lruList ++ [p] := rfl

@[simp] theorem mostRecent_eq (h : t.heap p = some e) : t.mostRecent p = e.mostRecent := by
  simp [mostRecent, h]

theorem heap_of_lookup {addr : NfInetAddr} {ttl : UInt8}
    (h : t.recentEntryLookup addr ttl = some p) : ∃ e, t.heap p = some e ∧ e.addr = addr := by
  have hfound := List.find?_some h
  split at hfound
  · next e he =>
    simp only [Bool.and_eq_true, decide_eq_true_eq] at hfound
    exact ⟨e,he,hfound.1⟩
  · contradiction

theorem lookup_of_view_eq_none {addr : NfInetAddr} (h : t.view addr = none) :
    t.recentEntryLookup addr 0 = none := by
  cases hlookup : t.recentEntryLookup addr 0 with
  | none => rfl
  | some p =>
    obtain ⟨e,he,-⟩ := heap_of_lookup hlookup
    rw [view, hlookup, Option.bind_some, he] at h
    contradiction

@[simp] theorem view_empty (addr : NfInetAddr) :
    ({} : LiveTable nstampsMaxMask).view addr = none := rfl

theorem WellFormed.remove (h : t.WellFormed) (hp : p ∈ t.lruList) :
    (t.recentEntryRemove p).WellFormed where
  nodup := h.nodup.erase p
  live q := by
    rw [lruList_remove, h.nodup.mem_erase_iff, heap_remove]
    split
    · next heq => simp [heq]
    · next hne => simpa [hne] using h.live q
  chained := h.chained.erase p
  counted := by
    rw [recentEntryRemove, List.length_erase_of_mem hp, h.counted]

theorem evict_cases {ipListTot : ℕ}
    (he : t.recentEntryEvict ipListTot = some t') :
    t' = t ∨ ∃ p rest, t.lruList = p::rest ∧ t' = t.recentEntryRemove p := by
  unfold recentEntryEvict at he
  split at he
  · obtain ⟨p,hp,rfl⟩ := Option.map_eq_some_iff.mp he
    obtain ⟨rest,hrest⟩ := List.head?_eq_some_iff.mp hp
    exact .inr ⟨p,rest,hrest,rfl⟩
  · exact .inl (Option.some.inj he).symm

theorem WellFormed.evict (h : t.WellFormed) {ipListTot : ℕ}
    (he : t.recentEntryEvict ipListTot = some t') : t'.WellFormed := by
  rcases evict_cases he with rfl | ⟨p,rest,hrest,rfl⟩
  · exact h
  · exact h.remove (by rw [hrest]; exact List.mem_cons_self ..)

theorem WellFormed.not_mem (h : t.WellFormed) (hp : t.heap p = none) : p ∉ t.lruList := by
  intro hmem
  obtain ⟨e,he⟩ := (h.live p).mp hmem
  rw [hp] at he
  contradiction

theorem WellFormed.linked (h : t.WellFormed) (hp : t.heap p = none) : (t.linked p e).WellFormed := by
  have hnew := h.not_mem hp
  refine ⟨?_,fun q => ?_,h.chained.append_right _,?_⟩
  · exact List.nodup_append.mpr ⟨h.nodup,List.nodup_singleton p,fun a ha b hb => by
      rw [List.mem_singleton.mp hb]
      rintro rfl
      exact hnew ha⟩
  · rw [lruList_linked, heap_linked, List.mem_append, List.mem_singleton]
    split
    · next heq => simp [heq]
    · next hne => simpa [hne] using h.live q
  · simp [LiveTable.linked, h.counted]

/-- A new entry is found for its address, unless there was one before. -/
theorem WellFormed.lookup_linked (h : t.WellFormed) (hp : t.heap p = none) (addr : NfInetAddr) :
    (t.linked p e).recentEntryLookup addr 0 =
      (t.recentEntryLookup addr 0).or (if e.addr = addr then some p else none) := by
  have hother : ∀ q ∈ t.iphash, q ≠ p := by
    rintro q hq rfl
    exact h.not_mem hp (h.chained.subset hq)
  have hself : (t.linked p e).heap p = some e := heap_linked_self t p e
  unfold recentEntryLookup
  change (t.iphash ++ [p]).find? _ = _
  rw [List.find?_append]
  congr 1
  · refine List.find?_congr fun q hq => ?_
    rw [heap_linked, if_neg (hother q hq)]
  · rw [List.find?_singleton, hself]
    simp

theorem WellFormed.view_linked (h : t.WellFormed) (hp : t.heap p = none) (addr : NfInetAddr) :
    (t.linked p e).view addr = (t.view addr).or (if e.addr = addr then some e else none) := by
  rw [view, h.lookup_linked hp, view]
  cases hlookup : t.recentEntryLookup addr 0 with
  | none =>
    by_cases haddr : e.addr = addr
    · simp [haddr]
    · simp [haddr]
  | some q =>
    obtain ⟨e',he',-⟩ := heap_of_lookup hlookup
    have hne : q ≠ p := by
      rintro rfl
      rw [hp] at he'
      contradiction
    simp [hne, he']

theorem WellFormed.touched (h : t.WellFormed) (hp : p ∈ t.lruList) : (t.touched p e).WellFormed := by
  have hmoved : (t.lruList.erase p ++ [p]).Perm t.lruList :=
    (List.perm_append_singleton p _).trans (List.perm_cons_erase hp).symm
  refine ⟨hmoved.nodup_iff.mpr h.nodup,fun q => ?_,h.chained.trans hmoved.symm,?_⟩
  · rw [lruList_touched, heap_touched, hmoved.mem_iff]
    split
    · next heq => simp [heq, hp]
    · exact h.live q
  · exact h.counted.trans hmoved.length_eq.symm

/-- The block that was touched last is touched again. -/
theorem WellFormed.touched_touched (h : t.WellFormed) (e e' : RecentEntry nstampsMaxMask) :
    (t.touched p e).touched p e' = t.touched p e' := by
  have hout : p ∉ t.lruList.erase p := fun hmem => (h.nodup.mem_erase_iff.mp hmem).1 rfl
  unfold LiveTable.touched
  dsimp only
  rw [Function.update_idem, List.erase_append_right _ hout, List.erase_cons_head, List.append_nil]

/-- A new entry is touched. -/
theorem WellFormed.linked_touched (h : t.WellFormed) (hp : t.heap p = none)
    (e e' : RecentEntry nstampsMaxMask) : (t.linked p e).touched p e' = t.linked p e' := by
  unfold LiveTable.touched LiveTable.linked
  dsimp only
  rw [Function.update_idem, List.erase_append_right _ (h.not_mem hp), List.erase_cons_head,
    List.append_nil]

/-- A flush leaves nothing. -/
theorem WellFormed.flush (h : t.WellFormed) : t.recentTableFlush = {} := by
  have hall : ∀ (n : ℕ) (t : LiveTable nstampsMaxMask), t.WellFormed → t.iphash.length = n →
      t.recentTableFlush = {} := by
    intro n
    induction n with
    | zero =>
      intro t h hlen
      have hhash : t.iphash = [] := List.length_eq_zero_iff.mp hlen
      have hlru : t.lruList = [] := by
        have hperm := h.chained
        rw [hhash] at hperm
        exact hperm.nil_eq.symm
      have hheap : t.heap = fun _ => none := by
        funext p
        cases hp : t.heap p with
        | none => rfl
        | some e =>
          have hmem := (h.live p).mpr ⟨e,hp⟩
          rw [hlru] at hmem
          exact absurd hmem List.not_mem_nil
      have hentries : t.entries = 0 := by rw [h.counted, hlru]; rfl
      obtain ⟨heap,iphash,lruList,entries⟩ := t
      simp only at hhash hlru hheap hentries
      simp [recentTableFlush, hhash, hlru, hheap, hentries]
    | succ n ih =>
      intro t h hlen
      obtain ⟨p,rest,hrest⟩ : ∃ p rest, t.iphash = p::rest := by
        cases hhash : t.iphash with
        | nil => rw [hhash] at hlen; contradiction
        | cons p rest => exact ⟨p,rest,rfl⟩
      have hp : p ∈ t.lruList := h.chained.subset (by rw [hrest]; exact List.mem_cons_self ..)
      have hnext : (t.recentEntryRemove p).iphash = rest := by
        rw [recentEntryRemove, hrest, List.erase_cons_head]
      have hlast := ih _ (h.remove hp) (by rw [hnext]; rw [hrest] at hlen; simpa using hlen)
      unfold recentTableFlush at hlast ⊢
      rw [hnext] at hlast
      rw [hrest, List.foldl_cons]
      exact hlast
  exact hall _ t h rfl

end WellFormed

end LiveTable
end Kernel
end Ssyncd
