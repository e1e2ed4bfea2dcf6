import Ssyncd.Kernel.ProcWrite
import Ssyncd.Library.Buckets
import Ssyncd.Library.Runs

/-! The hash chains of a table. An entry is in the chain of its address, and is looked for only there;
to everything that is done to a table they are the one list of all its entries. -/
namespace Ssyncd
namespace Kernel

variable {nstampsMaxMask : UInt8}

/-- The number of the highest bit that is set, from one. -/
def fls (x : ℕ) : ℕ := if x = 0 then 0 else x.log2 + 1

def ipListHashSize (ipListTot : ℕ) : ℕ := 2 ^ fls ipListTot

/-- The chain of an address, by what jhash makes of it with the random number of the module. -/
def recentEntryHash (jhash : NfInetAddr → UInt32) (ipListTot : ℕ) (addr : NfInetAddr) : ℕ :=
  (jhash addr).toNat &&& (ipListHashSize ipListTot - 1)

theorem recentEntryHash_lt (jhash : NfInetAddr → UInt32) (ipListTot : ℕ) (addr : NfInetAddr) :
    recentEntryHash jhash ipListTot addr < ipListHashSize ipListTot := by
  have hle : recentEntryHash jhash ipListTot addr ≤ ipListHashSize ipListTot - 1 := Nat.and_le_right
  have hpos : 0 < ipListHashSize ipListTot := Nat.two_pow_pos _
  omega

/-- A table with its chains. -/
structure ChainedTable (nstampsMaxMask : UInt8) where
  heap : Ptr → Option (RecentEntry nstampsMaxMask) := fun _ => none
  iphash : List (List Ptr)
  lruList : List Ptr := []
  entries : ℕ := 0

/-- What the module calls on a table. -/
inductive TableCall
  | lookup (addr : NfInetAddr) (ttl : UInt8)
  | remove (p : Ptr)
  | reap (time : UInt64)
  | init (addr : NfInetAddr) (ttl : UInt8) (firstNstamp : UInt64) (kmalloc : Option Ptr)
  | update (p : Ptr) (nstamp : UInt64)
  | setTtl (p : Ptr) (ttl : UInt8)
  | flush

namespace ChainedTable

def recentEntryLookup (t : ChainedTable nstampsMaxMask) (hash : NfInetAddr → ℕ) (addr : NfInetAddr)
    (ttl : UInt8) : Option Ptr :=
  (t.iphash.getD (hash addr) []).find? fun p =>
    match t.heap p with
    | some e => e.addr = addr && (ttl = e.ttl || ttl = 0 || e.ttl = 0)
    | none => false

/-- An entry is unlinked from the chain that it is in. -/
def recentEntryRemove (t : ChainedTable nstampsMaxMask) (p : Ptr) : ChainedTable nstampsMaxMask where
  heap := Function.update t.heap p none
  iphash := t.iphash.map fun chain => chain.erase p
  lruList := t.lruList.erase p
  entries := t.entries - 1

def recentEntryReap (t : ChainedTable nstampsMaxMask) (time : UInt64) :
    Option (ChainedTable nstampsMaxMask) :=
  match t.lruList with
  | [] => none
  | p::_ => ((t.heap p).bind RecentEntry.mostRecent).map fun stamp =>
    if timeAfter time stamp then t.recentEntryRemove p else t

def recentEntryEvict (t : ChainedTable nstampsMaxMask) (ipListTot : ℕ) :
    Option (ChainedTable nstampsMaxMask) :=
  if ipListTot ≤ t.entries then t.lruList.head?.map t.recentEntryRemove else some t

def recentEntryInit (t : ChainedTable nstampsMaxMask) (hash : NfInetAddr → ℕ) (ipListTot : ℕ)
    (addr : NfInetAddr) (ttl : UInt8) (firstNstamp : UInt64) (kmalloc : Option Ptr) :
    Option (ChainedTable nstampsMaxMask × Option Ptr) :=
  (t.recentEntryEvict ipListTot).bind fun t =>
    match kmalloc with
    | none => some (t,none)
    | some p =>
      if (t.heap p).isSome then none
      else
        some ({
          heap := Function.update t.heap p (some (Kernel.recentEntryInit nstampsMaxMask addr ttl firstNstamp))
          iphash := t.iphash.modify (hash addr) (· ++ [p])
          lruList := t.lruList ++ [p]
          entries := t.entries + 1 },some p)

def recentEntryUpdate (t : ChainedTable nstampsMaxMask) (p : Ptr) (nstamp : UInt64) :
    Option (ChainedTable nstampsMaxMask) :=
  (t.heap p).map fun e => { t with
    heap := Function.update t.heap p (some (Kernel.recentEntryUpdate e nstamp))
    lruList := t.lruList.erase p ++ [p] }

def setTtl (t : ChainedTable nstampsMaxMask) (p : Ptr) (ttl : UInt8) :
    Option (ChainedTable nstampsMaxMask) :=
  (t.heap p).map fun e => { t with heap := Function.update t.heap p (some { e with ttl }) }

/-- One chain after the other. -/
def recentTableFlush (t : ChainedTable nstampsMaxMask) : ChainedTable nstampsMaxMask :=
  t.iphash.foldl (fun t chain => chain.foldl recentEntryRemove t) t

/-- A call and the pointer that it returns. -/
def call (hash : NfInetAddr → ℕ) (ipListTot : ℕ) (t : ChainedTable nstampsMaxMask) :
    TableCall → Option (ChainedTable nstampsMaxMask × Option Ptr)
  | .lookup addr ttl => some (t,t.recentEntryLookup hash addr ttl)
  | .remove p => (t.heap p).map fun _ => (t.recentEntryRemove p,none)
  | .reap time => (t.recentEntryReap time).map fun t => (t,none)
  | .init addr ttl firstNstamp kmalloc => t.recentEntryInit hash ipListTot addr ttl firstNstamp kmalloc
  | .update p nstamp => (t.recentEntryUpdate p nstamp).map fun t => (t,none)
  | .setTtl p ttl => (t.setTtl p ttl).map fun t => (t,none)
  | .flush => some (t.recentTableFlush,none)

/-- One call after the other, with what they return. -/
def calls (hash : NfInetAddr → ℕ) (ipListTot : ℕ) (s : ChainedTable nstampsMaxMask × List (Option Ptr))
    (c : TableCall) : Option (ChainedTable nstampsMaxMask × List (Option Ptr)) :=
  (s.1.call hash ipListTot c).map fun r => (r.1,s.2 ++ [r.2])

end ChainedTable

namespace LiveTable

/-- The same call on a table whose chains are one list. -/
def call (ipListTot : ℕ) (t : LiveTable nstampsMaxMask) :
    TableCall → Option (LiveTable nstampsMaxMask × Option Ptr)
  | .lookup addr ttl => some (t,t.recentEntryLookup addr ttl)
  | .remove p => (t.heap p).map fun _ => (t.recentEntryRemove p,none)
  | .reap time => (t.recentEntryReap time).map fun t => (t,none)
  | .init addr ttl firstNstamp kmalloc => t.recentEntryInit ipListTot addr ttl firstNstamp kmalloc
  | .update p nstamp => (t.recentEntryUpdate p nstamp).map fun t => (t,none)
  | .setTtl p ttl => (t.setTtl p ttl).map fun t => (t,none)
  | .flush => some (t.recentTableFlush,none)

def calls (ipListTot : ℕ) (s : LiveTable nstampsMaxMask × List (Option Ptr)) (c : TableCall) :
    Option (LiveTable nstampsMaxMask × List (Option Ptr)) :=
  (s.1.call ipListTot c).map fun r => (r.1,s.2 ++ [r.2])

/-- The chain of the entry in a block. -/
def bucketOf (hash : NfInetAddr → ℕ) (heap : Ptr → Option (RecentEntry nstampsMaxMask)) (p : Ptr) : ℕ :=
  (heap p).elim 0 fun e => hash e.addr

/-- The same blocks and lists, and chains that are the one list split by the addresses. -/
structure Chained (hash : NfInetAddr → ℕ) (size : ℕ) (t : LiveTable nstampsMaxMask)
    (t' : ChainedTable nstampsMaxMask) : Prop where
  wellFormed : t.WellFormed
  heap : t'.heap = t.heap
  iphash : t'.iphash = Buckets.split (bucketOf hash t.heap) size t.iphash
  lruList : t'.lruList = t.lruList
  entries : t'.entries = t.entries

section Chained
variable {hash : NfInetAddr → ℕ} {size : ℕ} {t : LiveTable nstampsMaxMask} {t' : ChainedTable nstampsMaxMask}
  {p : Ptr} {e : RecentEntry nstampsMaxMask}

theorem chained_new (hash : NfInetAddr → ℕ) (size : ℕ) :
    Chained hash size ({} : LiveTable nstampsMaxMask) { iphash := List.replicate size [] } where
  wellFormed := wellFormed_empty
  heap := rfl
  iphash := Buckets.split_nil.symm
  lruList := rfl
  entries := rfl

/-- What is found in the chain of an address is what is found in the list. -/
theorem Chained.lookup (h : Chained hash size t t') (hsize : ∀ addr, hash addr < size) (addr : NfInetAddr)
    (ttl : UInt8) : t'.recentEntryLookup hash addr ttl = t.recentEntryLookup addr ttl := by
  unfold ChainedTable.recentEntryLookup LiveTable.recentEntryLookup
  rw [h.iphash, List.getD_eq_getElem?_getD, Buckets.getElem?_split (hsize addr), Option.getD_some, h.heap]
  refine Buckets.find?_chain fun p _ hp => ?_
  split at hp
  · next e he =>
    simp only [Bool.and_eq_true, decide_eq_true_eq] at hp
    unfold bucketOf
    rw [he, Option.elim_some, hp.1]
  · contradiction

theorem Chained.remove (h : Chained hash size t t') (hp : p ∈ t.lruList) :
    Chained hash size (t.recentEntryRemove p) (t'.recentEntryRemove p) where
  wellFormed := h.wellFormed.remove hp
  heap := by
    change Function.update t'.heap p none = Function.update t.heap p none
    rw [h.heap]
  iphash := by
    have hnodup : t.iphash.Nodup := h.wellFormed.chained.nodup_iff.mpr h.wellFormed.nodup
    have hsame : ∀ q ∈ t.iphash.erase p, bucketOf hash t.heap q =
        bucketOf hash (t.recentEntryRemove p).heap q := by
      intro q hq
      have hne : q ≠ p := ((hnodup.mem_erase_iff).mp hq).1
      simp [bucketOf, hne]
    change (t'.iphash.map fun chain => chain.erase p) = Buckets.split _ size (t.iphash.erase p)
    rw [← Buckets.split_congr hsame, Buckets.split_erase, h.iphash]
  lruList := congrArg (fun ps => ps.erase p) h.lruList
  entries := congrArg (· - 1) h.entries

theorem Chained.linked (h : Chained hash size t t') (hp : t.heap p = none) :
    Chained hash size (t.linked p e) {
      heap := Function.update t'.heap p (some e)
      iphash := t'.iphash.modify (hash e.addr) (· ++ [p])
      lruList := t'.lruList ++ [p]
      entries := t'.entries + 1 } where
  wellFormed := h.wellFormed.linked hp
  heap := congrArg (fun heap => Function.update heap p (some e)) h.heap
  iphash := by
    have hsame : ∀ q ∈ t.iphash, bucketOf hash t.heap q = bucketOf hash (t.linked p e).heap q := by
      intro q hq
      have hne : q ≠ p := by
        rintro rfl
        exact h.wellFormed.not_mem hp (h.wellFormed.chained.subset hq)
      simp [bucketOf, hne]
    have hself : bucketOf hash (t.linked p e).heap p = hash e.addr := by
      simp [bucketOf]
    change t'.iphash.modify _ _ = Buckets.split _ size (t.iphash ++ [p])
    rw [Buckets.split_append, hself, ← Buckets.split_congr hsame, h.iphash]
  lruList := congrArg (· ++ [p]) h.lruList
  entries := congrArg (· + 1) h.entries

/-- A block that is written to stays in its chain. -/
theorem bucketOf_update {e' : RecentEntry nstampsMaxMask} (he : t.heap p = some e) (haddr : e'.addr = e.addr)
    (q : Ptr) : bucketOf hash (Function.update t.heap p (some e')) q = bucketOf hash t.heap q := by
  unfold bucketOf
  rw [Function.update_apply]
  split
  · next heq => rw [heq, he, Option.elim_some, Option.elim_some, haddr]
  · rfl

/-- A block that is written to, at the tail of the list or where it is. -/
theorem Chained.write (h : Chained hash size t t') (he : t.heap p = some e)
    {e' : RecentEntry nstampsMaxMask} (haddr : e'.addr = e.addr) {lruList lruList' : List Ptr}
    (hlru : lruList' = lruList)
    (hwell : WellFormed { t with heap := Function.update t.heap p (some e'), lruList }) :
    Chained hash size { t with heap := Function.update t.heap p (some e'), lruList }
      { t' with heap := Function.update t.heap p (some e'), lruList := lruList' } where
  wellFormed := hwell
  heap := rfl
  iphash := h.iphash.trans (Buckets.split_congr fun q _ => (bucketOf_update he haddr q).symm)
  lruList := hlru
  entries := h.entries

/-- The chains together are the list. -/
theorem Chained.flatten_perm (h : Chained hash size t t') (hsize : ∀ addr, hash addr < size) :
    t'.iphash.flatten.Perm t.lruList := by
  have hbucket : ∀ q ∈ t.iphash, bucketOf hash t.heap q < size := by
    intro q hq
    obtain ⟨e,he⟩ := (h.wellFormed.live q).mp (h.wellFormed.chained.subset hq)
    unfold bucketOf
    rw [he]
    exact hsize e.addr
  rw [h.iphash]
  exact (Buckets.flatten_split_perm hbucket).trans h.wellFormed.chained

/-- Every entry is in the chain of its address. -/
theorem Chained.mem_chain (h : Chained hash size t t') (hsize : ∀ addr, hash addr < size) {i : ℕ} :
    p ∈ t'.iphash.getD i [] ↔ ∃ e, t.heap p = some e ∧ hash e.addr = i := by
  have hlive : p ∈ t.iphash ↔ ∃ e, t.heap p = some e :=
    h.wellFormed.chained.mem_iff.trans (h.wellFormed.live p)
  rw [h.iphash, List.getD_eq_getElem?_getD]
  by_cases hi : i < size
  · rw [Buckets.getElem?_split hi, Option.getD_some, Buckets.mem_chain, hlive]
    unfold bucketOf
    constructor
    · rintro ⟨⟨e,he⟩,hbucket⟩
      rw [he] at hbucket
      exact ⟨e,he,hbucket⟩
    · rintro ⟨e,he,hbucket⟩
      rw [he]
      exact ⟨⟨e,rfl⟩,hbucket⟩
  · have hnone : (Buckets.split (bucketOf hash t.heap) size t.iphash)[i]? = none := by
      simpa using hi
    rw [hnone]
    refine iff_of_false (by simp) ?_
    rintro ⟨e,-,rfl⟩
    exact hi (hsize e.addr)

/-- Each entry is removed once, in whatever order. -/
theorem Chained.removeAll (h : Chained hash size t t') {ps : List Ptr} (hps : ps.Perm t.lruList) :
    Chained hash size {} (ps.foldl ChainedTable.recentEntryRemove t') := by
  induction ps generalizing t t' with
  | nil =>
    have hempty : t = {} := by
      have hlru : t.lruList = [] := hps.nil_eq.symm
      have hhash : t.iphash = [] := by
        have hperm := h.wellFormed.chained
        rw [hlru] at hperm
        exact hperm.eq_nil
      rw [← h.wellFormed.flush, recentTableFlush, hhash, List.foldl_nil]
    rw [← hempty]
    exact h
  | cons p ps ih =>
    have hp : p ∈ t.lruList := hps.subset (List.mem_cons_self ..)
    have hrest := hps.erase p
    rw [List.erase_cons_head] at hrest
    exact ih (h.remove hp) hrest

theorem Chained.flush (h : Chained hash size t t') (hsize : ∀ addr, hash addr < size) :
    Chained hash size t.recentTableFlush t'.recentTableFlush := by
  have hflatten : t'.recentTableFlush = t'.iphash.flatten.foldl ChainedTable.recentEntryRemove t' :=
    List.foldl_flatten.symm
  rw [h.wellFormed.flush, hflatten]
  exact h.removeAll (h.flatten_perm hsize)

/-- A step that has a result in both tables, or in none. -/
abbrev Same (hash : NfInetAddr → ℕ) (size : ℕ) : Option (LiveTable nstampsMaxMask) →
    Option (ChainedTable nstampsMaxMask) → Prop := Option.Rel (Chained hash size)

theorem Chained.reap (h : Chained hash size t t') (time : UInt64) :
    Same hash size (t.recentEntryReap time) (t'.recentEntryReap time) := by
  unfold LiveTable.recentEntryReap ChainedTable.recentEntryReap mostRecent
  rw [h.lruList, h.heap]
  cases hlru : t.lruList with
  | nil => exact .none
  | cons p rest =>
    have hp : p ∈ t.lruList := by rw [hlru]; exact List.mem_cons_self ..
    dsimp only
    cases (t.heap p).bind RecentEntry.mostRecent with
    | none => exact .none
    | some stamp =>
      refine .some ?_
      dsimp only
      split
      · exact h.remove hp
      · exact h

theorem Chained.evict (h : Chained hash size t t') (ipListTot : ℕ) :
    Same hash size (t.recentEntryEvict ipListTot) (t'.recentEntryEvict ipListTot) := by
  unfold LiveTable.recentEntryEvict ChainedTable.recentEntryEvict
  rw [h.lruList, h.entries]
  split
  · cases hlru : t.lruList with
    | nil => exact .none
    | cons p rest => exact .some (h.remove (by rw [hlru]; exact List.mem_cons_self ..))
  · exact .some h

theorem Chained.init (h : Chained hash size t t') (ipListTot : ℕ) (addr : NfInetAddr) (ttl : UInt8)
    (firstNstamp : UInt64) (kmalloc : Option Ptr) :
    Option.Rel (fun r r' => Chained hash size r.1 r'.1 ∧ r.2 = r'.2)
      (t.recentEntryInit ipListTot addr ttl firstNstamp kmalloc)
      (t'.recentEntryInit hash ipListTot addr ttl firstNstamp kmalloc) := by
  unfold LiveTable.recentEntryInit ChainedTable.recentEntryInit
  have hevict := h.evict ipListTot
  generalize t.recentEntryEvict ipListTot = r at hevict ⊢
  generalize t'.recentEntryEvict ipListTot = r' at hevict ⊢
  cases hevict with
  | none => exact .none
  | @some t₁ t₁' h₁ =>
    simp only [Option.bind_some]
    cases kmalloc with
    | none => exact .some ⟨h₁,rfl⟩
    | some p =>
      dsimp only
      rw [h₁.heap]
      split
      · exact .none
      · next hfree =>
        have hp : t₁.heap p = none := by simpa using hfree
        rw [← h₁.heap]
        exact .some ⟨h₁.linked hp,rfl⟩

theorem Chained.update (h : Chained hash size t t') (p : Ptr) (nstamp : UInt64) :
    Same hash size (t.recentEntryUpdate p nstamp) (t'.recentEntryUpdate p nstamp) := by
  unfold LiveTable.recentEntryUpdate ChainedTable.recentEntryUpdate LiveTable.touched
  rw [h.heap, h.lruList]
  cases he : t.heap p with
  | none => exact .none
  | some e =>
    have hp : p ∈ t.lruList := (h.wellFormed.live p).mpr ⟨e,he⟩
    have hwell := h.wellFormed.touched (e := Kernel.recentEntryUpdate e nstamp) hp
    exact .some (h.write he (recentEntryUpdate_addr e nstamp) rfl hwell)

theorem WellFormed.write (h : t.WellFormed) (he : t.heap p = some e) (e' : RecentEntry nstampsMaxMask) :
    WellFormed { t with heap := Function.update t.heap p (some e') } where
  nodup := h.nodup
  live q := by
    dsimp only
    rw [Function.update_apply]
    split
    · next heq =>
      rw [heq]
      exact iff_of_true ((h.live p).mpr ⟨e,he⟩) ⟨e',rfl⟩
    · exact h.live q
  chained := h.chained
  counted := h.counted

theorem Chained.setTtl (h : Chained hash size t t') (p : Ptr) (ttl : UInt8) :
    Same hash size (t.setTtl p ttl) (t'.setTtl p ttl) := by
  unfold LiveTable.setTtl ChainedTable.setTtl
  rw [h.heap]
  cases he : t.heap p with
  | none => exact .none
  | some e =>
    have haddr : RecentEntry.addr { e with ttl } = e.addr := rfl
    exact .some (h.write he haddr h.lruList (h.wellFormed.write he _))

/-- A table and the pointer that it returns, or those that it has returned. -/
def Agree {α : Type} (hash : NfInetAddr → ℕ) (size : ℕ) (s : LiveTable nstampsMaxMask × α)
    (s' : ChainedTable nstampsMaxMask × α) : Prop :=
  Chained hash size s.1 s'.1 ∧ s.2 = s'.2

theorem Same.map {r : Option (LiveTable nstampsMaxMask)} {r' : Option (ChainedTable nstampsMaxMask)}
    (h : Same hash size r r') : Option.Rel (Agree hash size) (r.map fun t => (t,(none : Option Ptr)))
      (r'.map fun t => (t,(none : Option Ptr))) := by
  cases h with
  | none => exact .none
  | some hchained => exact .some ⟨hchained,rfl⟩

/-- Every call has the same result, or none in both. -/
theorem Chained.call (h : Chained hash size t t') (hsize : ∀ addr, hash addr < size) (ipListTot : ℕ)
    (c : TableCall) : Option.Rel (Agree hash size) (t.call ipListTot c) (t'.call hash ipListTot c) := by
  cases c with
  | lookup addr ttl => exact .some ⟨h,(h.lookup hsize addr ttl).symm⟩
  | remove p =>
    unfold LiveTable.call ChainedTable.call
    dsimp only
    rw [h.heap]
    cases he : t.heap p with
    | none => exact .none
    | some e => exact .some ⟨h.remove ((h.wellFormed.live p).mpr ⟨e,he⟩),rfl⟩
  | reap time => exact (h.reap time).map
  | init addr ttl firstNstamp kmalloc => exact h.init ipListTot addr ttl firstNstamp kmalloc
  | update p nstamp => exact (h.update p nstamp).map
  | setTtl p ttl => exact (h.setTtl p ttl).map
  | flush => exact .some ⟨h.flush hsize,rfl⟩

theorem Agree.calls {s : LiveTable nstampsMaxMask × List (Option Ptr)}
    {s' : ChainedTable nstampsMaxMask × List (Option Ptr)} (h : Agree hash size s s')
    (hsize : ∀ addr, hash addr < size) (ipListTot : ℕ) (c : TableCall) :
    Option.Rel (Agree hash size) (LiveTable.calls ipListTot s c) (ChainedTable.calls hash ipListTot s' c) := by
  have hcall := h.1.call hsize ipListTot c
  unfold LiveTable.calls ChainedTable.calls
  generalize s.1.call ipListTot c = r at hcall ⊢
  generalize s'.1.call hash ipListTot c = r' at hcall ⊢
  cases hcall with
  | none => exact .none
  | some hboth => exact .some ⟨hboth.1,congrArg₂ (fun qs q => qs ++ [q]) h.2 hboth.2⟩

end Chained

/-- A table with the chains of the module is the table with one list, whatever is called on them: it
returns the same pointers or gets stuck at the same call, has the same blocks, the same order of use
and the same count. Every entry is in the chain of its address, and in no other. -/
theorem chains_are_one_list (jhash : NfInetAddr → UInt32) (ipListTot : ℕ) (cs : List TableCall) :
    Option.Rel (fun (s : LiveTable nstampsMaxMask × List (Option Ptr))
        (s' : ChainedTable nstampsMaxMask × List (Option Ptr)) =>
        s'.2 = s.2 ∧ s'.1.heap = s.1.heap ∧ s'.1.lruList = s.1.lruList ∧ s'.1.entries = s.1.entries ∧
          s'.1.iphash.flatten.Perm s.1.iphash ∧ s'.1.iphash.flatten.Nodup ∧
          ∀ i p, p ∈ s'.1.iphash.getD i [] ↔
            ∃ e, s.1.heap p = some e ∧ recentEntryHash jhash ipListTot e.addr = i)
      (Runs.run (LiveTable.calls ipListTot) ({},[]) cs)
      (Runs.run (ChainedTable.calls (recentEntryHash jhash ipListTot) ipListTot)
        ({ iphash := List.replicate (ipListHashSize ipListTot) [] },[]) cs) := by
  have hsize := recentEntryHash_lt jhash ipListTot
  have hnew := @chained_new nstampsMaxMask (recentEntryHash jhash ipListTot) (ipListHashSize ipListTot)
  have hstart : Agree (recentEntryHash jhash ipListTot) (ipListHashSize ipListTot)
      (({},[]) : LiveTable nstampsMaxMask × List (Option Ptr))
      ({ iphash := List.replicate (ipListHashSize ipListTot) [] },[]) := ⟨hnew,rfl⟩
  have hrun := Runs.run_related (fun s s' c (h : Agree _ _ s s') => h.calls hsize ipListTot c) hstart cs
  refine Runs.rel_mono (fun s s' h => ?_) hrun
  have ⟨hchained,hreturned⟩ := h
  have hperm := hchained.flatten_perm hsize
  exact ⟨hreturned.symm,hchained.heap,hchained.lruList,hchained.entries,
    hperm.trans hchained.wellFormed.chained.symm,hperm.nodup_iff.mpr hchained.wellFormed.nodup,
    fun i p => hchained.mem_chain hsize⟩

end LiveTable
end Kernel
end Ssyncd
