import Ssyncd.Kernel.HeldCache

/-! How long an address stays in a table: only for as many other addresses as the table has room for
does it give way, unless it is removed. -/
namespace Ssyncd
namespace Kernel

variable {nstampsMaxMask : UInt8}

/-- An access that does not remove this address: no flush, no rule that reaps, and no removal of it. -/
structure Access.Spares (m : RecentModule) (addr : NfInetAddr) (a : Access) : Prop where
  flush : ¬a.Flushes
  reap : ¬a.Reaps
  remove : ¬a.Removes m addr

namespace RecentCache
section Held
variable {V : Type} [Visited V] {c c' : RecentCache V} {addr k : NfInetAddr} {later : Finset NfInetAddr}
  {ipListTot : ℕ}

omit [Visited V] in
theorem heldBefore_use_of (h : c.HeldBefore k later) (haddr : addr ≠ k → addr ∈ later) (v : V) :
    (c.use addr v).HeldBefore k later := by
  by_cases heq : addr = k
  · rw [heq]
    exact (Lru.Cache.heldBefore_use c k v).mono (Finset.empty_subset later)
  · have hused := h.use heq v
    rw [Finset.insert_eq_of_mem (haddr heq)] at hused
    exact hused

omit [Visited V] in
/-- A new value takes the place of the oldest one, which is that of another address. -/
theorem heldBefore_insert (h : c.HeldBefore k later) (hnew : c.get addr = none)
    (haddr : addr ≠ k → addr ∈ later) (hfew : later.card < ipListTot) (v : V) (allocated : Bool) :
    (c.insert ipListTot addr v allocated).HeldBefore k later := by
  have hne : addr ≠ k := by
    intro heq
    rw [heq] at hnew
    exact h.get hnew
  have hcard : (Insert.insert addr later).card < ipListTot := by
    rw [Finset.insert_eq_of_mem (haddr hne)]
    exact hfew
  have hevict := h.evict hnew hcard
  unfold RecentCache.insert
  split
  · exact heldBefore_use_of hevict haddr v
  · exact hevict

/-- An access that spares an address, while few others are used. -/
theorem Outcome.heldBefore {m : RecentModule} {a : Access} (ho : Outcome m a c c')
    (h : c.HeldBefore k later) (hfew : later.card < m.ipListTot) (hspares : a.Spares m k)
    (hused : ∀ addr, a.used m = some addr → addr ≠ k → addr ∈ later) : c'.HeldBefore k later := by
  cases ho with
  | same => exact h
  | clear hflush => exact absurd hflush hspares.flush
  | erase hremove =>
    refine h.erase ?_
    rintro rfl
    exact hspares.remove hremove
  | reap hreap => exact absurd hreap hspares.reap
  | insert haddr _ hnew => exact heldBefore_insert h hnew (hused _ haddr) hfew _ _
  | use haddr => exact heldBefore_use_of h (hused _ haddr) _
  | reapUse hreap => exact absurd hreap hspares.reap

end Held
end RecentCache

section Run
variable {m : RecentModule} {t t' : LiveTable nstampsMaxMask} {answers answers' : List Answer}
  {p : Ptr} {e : RecentEntry nstampsMaxMask}

theorem heldBefore_run {accesses : List Access} {later : Finset NfInetAddr} {k : NfInetAddr}
    (hfew : later.card < m.ipListTot) (hplain : ∀ a ∈ accesses, a.Plain)
    (hspares : ∀ a ∈ accesses, a.Spares m k)
    (hused : ∀ a ∈ accesses, ∀ addr, a.used m = some addr → addr ≠ k → addr ∈ later)
    {r : RecentCache (RecentEntry nstampsMaxMask) × List Answer} (h : r.1.HeldBefore k later) :
    (accesses.foldl (RecentCache.serve m) r).1.HeldBefore k later := by
  induction accesses generalizing r with
  | nil => exact h
  | cons a accesses ih =>
    have hmem : a ∈ a::accesses := List.mem_cons_self ..
    have hnext : (RecentCache.serve m r a).1.HeldBefore k later :=
      (RecentCache.outcome_access r.1 (hplain a hmem)).heldBefore h hfew (hspares a hmem) (hused a hmem)
    exact ih (fun b hb => hplain b (List.mem_cons_of_mem _ hb))
      (fun b hb => hspares b (List.mem_cons_of_mem _ hb))
      (fun b hb => hused b (List.mem_cons_of_mem _ hb)) hnext

/-- The tail of the list is the entry that was used last. -/
theorem LiveTable.Holds.heldBefore {c : RecentCache (RecentEntry nstampsMaxMask)} (h : t.Holds c)
    (hlast : t.lruList.getLast? = some p) (he : t.heap p = some e) : c.HeldBefore e.addr ∅ := by
  obtain ⟨before,hlru⟩ := List.getLast?_eq_some_iff.mp hlast
  refine ⟨(LiveTable.itemsOf t.heap before).map Prod.fst,[],?_,fun _ hk => absurd hk List.not_mem_nil⟩
  rw [Lru.Cache.keys, ← h.items, hlru, LiveTable.itemsOf_append, LiveTable.itemsOf_cons he, List.map_append]
  rfl

/-- The address that was used last stays in the table while fewer others are used than there is
room for, unless it is removed. -/
theorem recently_used_kept {before accesses : List Access}
    (hplain : ∀ a ∈ before ++ accesses, a.Plain)
    (hbefore : Runs.run (LiveTable.serve m) (({} : LiveTable nstampsMaxMask),[]) before =
      some (t,answers))
    (hlast : t.lruList.getLast? = some p) (he : t.heap p = some e)
    (hrun : Runs.run (LiveTable.serve m) (t,answers) accesses = some (t',answers'))
    (hspares : ∀ a ∈ accesses, a.Spares m e.addr) {others : Finset NfInetAddr}
    (hused : ∀ a ∈ accesses, ∀ addr, a.used m = some addr → addr ≠ e.addr → addr ∈ others)
    (hfew : others.card < m.ipListTot) : ∃ e', t'.view e.addr = some e' ∧ e'.addr = e.addr := by
  have h := (agree_empty m).run (fun a ha => hplain a (List.mem_append_left _ ha)) hbefore
  have hplain' : ∀ a ∈ accesses, a.Plain := fun a ha => hplain a (List.mem_append_right _ ha)
  have h' := h.run hplain' hrun
  have hheld := (h.holds.heldBefore hlast he).mono (Finset.empty_subset others)
  have hkept := heldBefore_run hfew hplain' hspares hused hheld
  obtain ⟨e',he'⟩ := Option.ne_none_iff_exists'.mp hkept.get
  obtain ⟨q,-,-,haddr⟩ := h'.holds.exists_heap he'
  exact ⟨e',(h'.holds.view e.addr).trans he',haddr⟩

end Run

section Samples

def secondSet : LiveTable 31 × List Answer :=
  (Runs.run (LiveTable.serve smallModule) ({},[]) [setAt 10 1 0,setAt 20 2 1]).getD ({},[])

def thirdSet : LiveTable 31 × List Answer := (LiveTable.serve smallModule secondSet (setAt 30 3 2)).getD ({},[])

theorem setAt_spares (jiffies : UInt64) (a : UInt8) (p : Ptr) (addr : NfInetAddr) :
    (setAt jiffies a p).Spares smallModule addr where
  flush := id
  reap := Bool.false_ne_true
  remove h := Bool.false_ne_true h.1

/-- The second address is there after a third one came, which the first one gave way to. -/
theorem recently_used_kept_secondSet :
    thirdSet.1.view (.ip 1 1 1 1) = none ∧
      ∃ e', thirdSet.1.view (.ip 2 2 2 2) = some e' ∧ e'.addr = .ip 2 2 2 2 := by
  have hplain : ∀ a ∈ [setAt 10 1 0,setAt 20 2 1] ++ [setAt 30 3 2], a.Plain := by
    intro a ha
    simp only [List.cons_append, List.nil_append, List.mem_cons, List.not_mem_nil, or_false] at ha
    rcases ha with rfl | rfl | rfl <;> exact fun _ => rfl
  have hbefore : Runs.run (LiveTable.serve smallModule) (({} : LiveTable 31),[]) [setAt 10 1 0,setAt 20 2 1] =
      some (secondSet.1,secondSet.2) := rfl
  have he : secondSet.1.heap 1 = some (recentEntryInit 31 (.ip 2 2 2 2) 64 20) := rfl
  have hrun : Runs.run (LiveTable.serve smallModule) (secondSet.1,secondSet.2) [setAt 30 3 2] =
      some (thirdSet.1,thirdSet.2) := rfl
  have hfew : ({.ip 3 3 3 3} : Finset NfInetAddr).card < smallModule.ipListTot := Nat.lt_succ_self 1
  refine ⟨rfl,recently_used_kept hplain hbefore rfl he hrun ?_ ?_ hfew⟩
  · intro a ha
    rw [List.mem_singleton.mp ha]
    exact setAt_spares ..
  · intro a ha addr haddr _
    rw [List.mem_singleton.mp ha] at haddr
    exact Finset.mem_singleton.mpr (Option.some.inj haddr).symm

end Samples

end Kernel
end Ssyncd
