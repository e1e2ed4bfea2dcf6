import Ssyncd.Kernel.HeldCache

/-! What makes the module read memory that is not an entry: a rule that reaps the entry which it goes
on to use, a stamp that is looked for in front of a ring, and a line that leads to null. -/
namespace Ssyncd
namespace Kernel

variable {nstampsMaxMask : UInt8}

/-- A rule in use asks for one thing. -/
def RecentMtinfo.OneFlag (info : RecentMtinfo) : Prop :=
  [info.set,info.remove,info.check,info.update].count true = 1

instance (info : RecentMtinfo) : Decidable info.OneFlag := inferInstanceAs (Decidable (_ = _))

theorem RecentMtinfo.OneFlag.cases {info : RecentMtinfo} (h : info.OneFlag) :
    (info.set = true ∧ info.check = false ∧ info.update = false) ∨
      (info.set = false ∧ info.remove = true ∧ info.check = false ∧ info.update = false) ∨
        (info.set = false ∧ info.remove = false ∧ (info.check || info.update) = true) := by
  unfold OneFlag at h
  revert h
  cases info.set <;> cases info.remove <;> cases info.check <;> cases info.update <;> decide

/-- A rule that finds this value reaps the oldest one, which has no most recent stamp, or is the
value found and is written to afterwards. -/
def RecentCache.ReapFaults {V : Type} [Visited V] (c : RecentCache V) (hz : UInt32) (jiffies : UInt64)
    (info : RecentMtinfo) (addr : NfInetAddr) (v : V) : Prop :=
  (info.check || info.update) = true ∧ info.reap = true ∧ ∃ item, c.items.head? = some item ∧
    ∀ stamp, Visited.mostRecent item.2 = some stamp →
      timeAfter (windowStart info hz jiffies) stamp = true ∧ item.1 = addr ∧ info.update = true ∧
        verdict v hz jiffies info = true

/-- A line without an end of its address, or with stamps for an entry that is not made. -/
def RecentCache.LineFaults {V : Type} (c : RecentCache V) (line : Option LineParts)
    (allocated : Bool) : Prop :=
  ∀ parts, line = some parts → ∃ addr, parts.addr = some addr ∧ c.get addr = none ∧ parts.ttl ≠ none ∧
    (parts.first = none ∨ allocated = false) ∧ parts.later ≠ []

def Access.Faults {V : Type} [Visited V] (m : RecentModule) (c : RecentCache V) : Access → Prop
  | .packet jiffies info addrMask ttl _ => ∃ v, c.lookup addrMask (if info.ttl then ttl else 0) = some v ∧
      c.ReapFaults m.hz jiffies info addrMask v
  | .write _ input stack kmalloc => input.length ≤ 32 + 5 + 12*32 ∧ input.head? = some 42 ∧
      c.LineFaults (starLine m input stack) kmalloc.isSome

def Access.OneFlag : Access → Prop
  | .packet _ info .. => info.OneFlag
  | .write .. => True

def Access.kmalloc : Access → Option Ptr
  | .packet _ _ _ _ kmalloc => kmalloc
  | .write _ _ _ kmalloc => kmalloc

namespace LiveTable

/-- The allocation gives no block that is in use, but it may give the one that was just freed for it. -/
def Fresh (t : LiveTable nstampsMaxMask) (ipListTot : ℕ) (kmalloc : Option Ptr) : Prop :=
  ∀ p ∈ kmalloc, ∀ t', t.recentEntryEvict ipListTot = some t' → t'.heap p = none

section Faults
variable {t t' : LiveTable nstampsMaxMask} {c : RecentCache (RecentEntry nstampsMaxMask)} {p : Ptr}
  {e : RecentEntry nstampsMaxMask} {ipListTot : ℕ} {kmalloc : Option Ptr} {jiffies : UInt64}

/-- A new entry can be made, or null is returned. -/
theorem WellFormed.exists_init (h : t.WellFormed) (hpos : 0 < ipListTot)
    (hfresh : t.Fresh ipListTot kmalloc) (addr : NfInetAddr) (ttl : UInt8) (nstamp : UInt64) :
    ∃ t₁, t.recentEntryInit ipListTot addr ttl nstamp kmalloc = some (t₁,kmalloc) ∧ t₁.WellFormed ∧
      ∀ p ∈ kmalloc, ∃ e, t₁.heap p = some e := by
  obtain ⟨t',ht'⟩ := h.exists_evict hpos
  have h' := h.evict ht'
  unfold recentEntryInit
  rw [ht', Option.bind_some]
  cases hk : kmalloc with
  | none => exact ⟨t',rfl,h',fun p hp => absurd hp.symm (Option.some_ne_none p)⟩
  | some p =>
    have hp : t'.heap p = none := hfresh p hk t' ht'
    refine ⟨_,by simp [hp]; rfl,h'.linked hp,fun q hq => ?_⟩
    obtain rfl := Option.some.inj hq
    exact ⟨_,heap_linked_self t' p _⟩

/-- The oldest entry is reaped, is still in use, or its most recent stamp is not in its ring. -/
theorem Holds.reap_cases (h : t.Holds c) (he : t.heap p = some e) (time : UInt64) :
    ∃ q w, t.heap q = some w ∧ c.items.head? = some (w.addr,w) ∧
      ((w.mostRecent = none ∧ t.recentEntryReap time = none) ∨
        ∃ stamp, w.mostRecent = some stamp ∧ t.recentEntryReap time =
          some (if timeAfter time stamp then t.recentEntryRemove q else t)) := by
  cases hlru : t.lruList with
  | nil =>
    have hmem := h.mem he
    rw [hlru] at hmem
    exact absurd hmem List.not_mem_nil
  | cons q rest =>
    obtain ⟨w,hw⟩ := (h.wellFormed.live q).mp (by rw [hlru]; exact List.mem_cons_self ..)
    refine ⟨q,w,hw,?_,?_⟩
    · rw [← h.items, hlru, itemsOf_cons hw, List.head?_cons]
    · unfold recentEntryReap
      rw [hlru]
      dsimp only
      rw [mostRecent_eq hw]
      cases w.mostRecent with
      | none => exact .inl ⟨rfl,rfl⟩
      | some stamp => exact .inr ⟨stamp,rfl,rfl⟩

theorem matchEntry_check (he : t.heap p = some e) {info : RecentMtinfo} (hset : info.set = false)
    (hremove : info.remove = false) (hcheck : (info.check || info.update) = true) (hz : UInt32) :
    t.matchEntry hz jiffies info p =
      (if info.reap then t.recentEntryReap (windowStart info hz jiffies) else some t).map fun t =>
        (t,RecentCache.verdict e hz jiffies info) := by
  unfold LiveTable.matchEntry RecentCache.verdict
  rw [hset, hremove, hcheck, he]
  dsimp only [Option.bind_some]
  rw [ite_not_eq_bne]
  rfl

/-- What a rule that checks an entry goes on to use is there, unless it was reaped. -/
theorem Holds.recentMt_eq_none_iff (h : t.Holds c) (hpos : 0 < ipListTot) (hfresh : t.Fresh ipListTot kmalloc)
    {info : RecentMtinfo} (hone : info.OneFlag) (hz : UInt32) (addrMask : NfInetAddr) (ttl : UInt8) :
    t.recentMt ipListTot hz jiffies info addrMask ttl kmalloc = none ↔
      ∃ v, c.lookup addrMask (if info.ttl then ttl else 0) = some v ∧
        c.ReapFaults hz jiffies info addrMask v := by
  unfold LiveTable.recentMt
  cases hlookup : t.recentEntryLookup addrMask (if info.ttl then ttl else 0) with
  | none =>
    obtain ⟨t₁,hinit,-⟩ := h.wellFormed.exists_init hpos hfresh addrMask ttl jiffies
    have hnone := h.lookup_none hlookup
    by_cases hset : info.set = true <;> simp [hset, hinit, hnone]
  | some p =>
    obtain ⟨e,he,rfl,hfound,-⟩ := h.lookup_some hlookup
    simp only [hfound, Option.some.injEq, exists_eq_left']
    rcases hone.cases with ⟨hset,hcheck,hupdate⟩ | ⟨hset,hremove,hcheck,hupdate⟩ | ⟨hset,hremove,hcheck⟩
    · simp [LiveTable.matchEntry, hset, hcheck, hupdate, RecentCache.ReapFaults,
        LiveTable.recentEntryUpdate, setTtl, he]
    · simp [LiveTable.matchEntry, hset, hremove, hcheck, hupdate, RecentCache.ReapFaults]
    · rw [matchEntry_check he hset hremove hcheck]
      unfold RecentCache.ReapFaults
      generalize RecentCache.verdict e hz jiffies info = ret
      by_cases hreap : info.reap = true
      · obtain ⟨q,w,hw,hhead,hcases⟩ := h.reap_cases he (windowStart info hz jiffies)
        rcases hcases with ⟨hrecent,hreaps⟩ | ⟨stamp,hrecent,hreaps⟩
        · simp [hreap, hreaps, hhead, hrecent, hcheck]
        · have hsame : w.addr = e.addr ↔ p = q :=
            ⟨fun haddr => h.inj he hw haddr.symm,fun heq => by rw [heq, hw] at he; rw [Option.some.inj he]⟩
          -- only an entry that is used after the reap can be missed
          by_cases hwrite : info.update = true ∧ ret = true
          · obtain ⟨hupdate,rfl⟩ := hwrite
            by_cases hafter : timeAfter (windowStart info hz jiffies) stamp = true
            · by_cases heq : p = q
              · subst heq
                simp [hreap, hreaps, hhead, hrecent, hsame, hset, hupdate, hafter,
                  LiveTable.recentEntryUpdate]
              · simp [hreap, hreaps, hhead, hrecent, hsame, hset, hupdate, hafter, heq,
                  LiveTable.recentEntryUpdate, setTtl, he]
            · simp [hreap, hreaps, hhead, hrecent, hset, hupdate, hafter, LiveTable.recentEntryUpdate,
                setTtl, he]
          · simp [hreap, hreaps, hhead, hrecent, hset, hwrite]
      · by_cases hwrite : info.update = true ∧ ret = true
        · simp [hreap, hset, hwrite, LiveTable.recentEntryUpdate, setTtl, he]
        · simp [hreap, hset, hwrite]

/-- Storing a line fails only at an entry that is null. -/
theorem Holds.storeLine_eq_none_iff (h : t.Holds c) (hpos : 0 < ipListTot) (hfresh : t.Fresh ipListTot kmalloc)
    (parts : LineParts) (size : ℕ) :
    t.storeLine ipListTot parts size kmalloc = none ↔ c.LineFaults (some parts) kmalloc.isSome := by
  unfold LiveTable.storeLine RecentCache.LineFaults
  cases haddr : parts.addr with
  | none => simp [haddr]
  | some addr =>
    cases hlookup : t.recentEntryLookup addr 0 with
    | some p =>
      obtain ⟨e,he,-,-,hget⟩ := h.lookup_some hlookup
      simpa [haddr, hlookup, hget] using h.wellFormed.isSome_updateStamps he parts.stamps
    | none =>
      have hget := h.get_none hlookup
      cases httl : parts.ttl with
      | none => simp [haddr, hlookup, httl]
      | some ttl =>
        cases hfirst : parts.first with
        | none => simp [haddr, hlookup, hget, httl, hfirst, updateStamps_none_iff]
        | some nstamp =>
          obtain ⟨t₁,hinit,h₁,hheap⟩ := h.wellFormed.exists_init hpos hfresh addr ttl nstamp
          cases hk : kmalloc with
          | none =>
            rw [hk] at hinit
            simp [haddr, hlookup, hget, httl, hinit, updateStamps_none_iff]
          | some p =>
            rw [hk] at hinit
            obtain ⟨e,he⟩ := hheap p hk
            simpa [haddr, hlookup, httl, hfirst, hinit] using h₁.isSome_updateStamps he parts.later

theorem Holds.writeLine_eq_none_iff (h : t.Holds c) (hpos : 0 < ipListTot) (hfresh : t.Fresh ipListTot kmalloc)
    (in6Pton : Bytes → Option UInt8 → Option NfInetAddr) (line : Bytes) (size : ℕ) :
    t.writeLine in6Pton ipListTot line size kmalloc = none ↔
      c.LineFaults (lineParts in6Pton line size) kmalloc.isSome := by
  rw [writeLine_eq]
  cases lineParts in6Pton line size with
  | none => simp [RecentCache.LineFaults]
  | some parts => exact h.storeLine_eq_none_iff hpos hfresh parts size

theorem Holds.writeAddress_ne_none (h : t.Holds c) (hpos : 0 < ipListTot) (hfresh : t.Fresh ipListTot kmalloc)
    (in6Pton : Bytes → Option UInt8 → Option NfInetAddr) (add : Bool) (line : Bytes) (size : ℕ) :
    t.writeAddress in6Pton ipListTot jiffies add line size kmalloc ≠ none := by
  have hwritten : (if (line.take (size-1)).contains 58 then in6Pton (line.take (size-1)) (some 10)
      else in4Pton (line.take (size-1)) (some 10)) = writtenAddr in6Pton (line.take (size-1)) := rfl
  unfold LiveTable.writeAddress
  dsimp only
  rw [hwritten]
  cases writtenAddr in6Pton (line.take (size-1)) with
  | none => simp
  | some addr =>
    cases hlookup : t.recentEntryLookup addr 0 with
    | none =>
      obtain ⟨t₁,hinit,-⟩ := h.wellFormed.exists_init hpos hfresh addr 0 jiffies
      cases add <;> simp [hlookup, hinit]
    | some p =>
      obtain ⟨e,he,-⟩ := h.lookup_some hlookup
      cases add <;> simp [hlookup, LiveTable.recentEntryUpdate, he]

/-- Only lines with stamps lead to null. -/
theorem Holds.recentMtProcWrite_eq_none_iff (h : t.Holds c) (hpos : 0 < ipListTot)
    (hfresh : t.Fresh ipListTot kmalloc) (in6Pton : Bytes → Option UInt8 → Option NfInetAddr)
    (input stack : Bytes) :
    t.recentMtProcWrite in6Pton ipListTot jiffies input stack kmalloc = none ↔
      input.length ≤ 32 + 5 + 12*32 ∧ ∃ rest, input = 42::rest ∧
        c.LineFaults (lineParts in6Pton (cString (rest ++ stack)) input.length) kmalloc.isSome := by
  unfold LiveTable.recentMtProcWrite
  dsimp only
  split
  · next hlong =>
    refine iff_of_false (Option.some_ne_none _) fun ⟨hshort,_⟩ => ?_
    omega
  · next hlong =>
    split
    · simp
    · simp
    · simpa using h.writeAddress_ne_none hpos hfresh in6Pton false _ _
    · simpa using h.writeAddress_ne_none hpos hfresh in6Pton true _ _
    · next rest =>
      rw [h.writeLine_eq_none_iff hpos hfresh]
      have hshort : (42::rest).length ≤ 32 + 5 + 12*32 := Nat.le_of_not_lt hlong
      simpa using fun _ => hshort
    · next hstar =>
      refine iff_of_false (Option.some_ne_none _) fun ⟨_,rest,heq,_⟩ => hstar rest heq

theorem Holds.access_eq_none_iff (h : t.Holds c) {m : RecentModule} {a : Access} (hone : a.OneFlag)
    (hfresh : t.Fresh m.ipListTot a.kmalloc) : t.access m a = none ↔ a.Faults m c := by
  cases a with
  | packet jiffies info addrMask ttl kmalloc =>
    unfold LiveTable.access
    rw [Option.map_eq_none_iff]
    exact h.recentMt_eq_none_iff m.ipListTot_pos hfresh hone m.hz addrMask ttl
  | write jiffies input stack kmalloc =>
    unfold LiveTable.access
    rw [Option.map_eq_none_iff]
    refine (h.recentMtProcWrite_eq_none_iff m.ipListTot_pos hfresh m.in6Pton input stack).trans
      (and_congr_right fun _ => ?_)
    constructor
    · rintro ⟨rest,rfl,hline⟩
      exact ⟨rfl,hline⟩
    · rintro ⟨hstar,hline⟩
      obtain ⟨rest,rfl⟩ := List.head?_eq_some_iff.mp hstar
      exact ⟨rest,rfl,hline⟩

end Faults
end LiveTable

section Run
variable {m : RecentModule} {t : LiveTable nstampsMaxMask} {answers : List Answer}

/-- Whatever was asked of a table before, the next access reads memory that is not an entry exactly
when it finds an entry that it reaps and then uses, reaps one whose index has wrapped around, or is
a line that ends too soon or has stamps for an entry that is not made. -/
theorem table_faults_iff {accesses : List Access} (hplain : ∀ a ∈ accesses, a.Plain)
    (hrun : Runs.run (LiveTable.serve m) (({} : LiveTable nstampsMaxMask),[]) accesses = some (t,answers))
    {a : Access} (hone : a.OneFlag) (hfresh : t.Fresh m.ipListTot a.kmalloc) :
    LiveTable.serve m (t,answers) a = none ↔
      a.Faults m (accesses.foldl (RecentCache.serve m)
        ((.empty : RecentCache (RecentEntry nstampsMaxMask)),[])).1 := by
  have h := (agree_empty m).run hplain hrun
  unfold LiveTable.serve
  rw [Option.map_eq_none_iff]
  exact h.holds.access_eq_none_iff hone hfresh

end Run

section Samples

/-- A rule that matches what was not seen in the last second, and that reaps what was not seen. -/
def inverted : Access :=
  .packet 1000 { update := true, reap := true, seconds := 1, hitCount := 1, invert := true } (.ip 1 1 1 1) 64 none

def firstSet : LiveTable 31 × List Answer :=
  (Runs.run (LiveTable.serve smallModule) ({},[]) [setAt 10 1 0]).getD ({},[])

/-- The rule frees the only entry and then writes to it. -/
theorem table_faults_iff_inverted :
    (LiveTable.serve smallModule (firstSet.1,firstSet.2) inverted = none ↔
      inverted.Faults smallModule
        ([setAt 10 1 0].foldl (RecentCache.serve smallModule)
          ((.empty : RecentCache (RecentEntry 31)),[])).1) ∧
      LiveTable.serve smallModule firstSet inverted = none := by
  have hplain : ∀ a ∈ [setAt 10 1 0], a.Plain := by
    intro a ha
    rw [List.mem_singleton.mp ha]
    exact fun _ => rfl
  have hrun : Runs.run (LiveTable.serve smallModule) (({} : LiveTable 31),[]) [setAt 10 1 0] =
      some (firstSet.1,firstSet.2) := rfl
  have hone : inverted.OneFlag := rfl
  exact ⟨table_faults_iff hplain hrun hone fun _ hp => absurd hp.symm (Option.some_ne_none _),rfl⟩

end Samples
end Kernel
end Ssyncd
