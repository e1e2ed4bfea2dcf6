import Ssyncd.Kernel.TableFaults
import Ssyncd.Kernel.Visits

/-! Rules that only reap what is out of their window, and that match what is in it, never reap what
they are about to use: while they match, some visit is in the window, and so is the last one. -/
namespace Ssyncd
namespace Kernel

variable {nstampsMaxMask : UInt8}

/-- A line with stamps ends its address, and has a first stamp and memory for it if there are more. -/
def Access.Complete (m : RecentModule) : Access → Prop
  | .packet .. => True
  | .write _ input stack kmalloc => input.head? = some 42 → ∃ parts, starLine m input stack = some parts ∧
      (parts.later = [] ∨ parts.first ≠ none ∧ kmalloc ≠ none)

/-- A rule that reaps has a window, and is not inverted where it also writes. -/
def Access.Reaping : Access → Prop
  | .packet _ info .. => info.reap = true → info.seconds ≠ 0 ∧ (info.update = true → info.invert = false)
  | .write .. => True

structure Safe (m : RecentModule) (s : LiveTable nstampsMaxMask × List Answer) (a : Access) : Prop where
  orderly : Orderly m s a
  oneFlag : a.OneFlag
  reaping : a.Reaping
  complete : a.Complete m
  fresh : s.1.Fresh m.ipListTot a.kmalloc

section Hit
variable {v : Visits} {info : RecentMtinfo} {hz : UInt32} {jiffies : UInt64}

/-- Where enough visits are in the window, the last one is. -/
theorem inWindow_last (horder : v.stamps.Pairwise (· ≤ ·)) (hhit : Visited.hit v info hz jiffies = true) :
    ∃ last, v.stamps.getLast? = some last ∧ inWindow info hz jiffies last = true := by
  have hcount : max 1 info.hitCount.toNat ≤ v.stamps.countP (inWindow info hz jiffies) :=
    decide_eq_true_eq.mp hhit
  obtain ⟨stamp,hstamp,hwindow⟩ := List.countP_pos_iff.mp (Nat.lt_of_lt_of_le (by omega) hcount)
  obtain ⟨before,last,heq⟩ := (List.eq_nil_or_concat v.stamps).resolve_left (List.ne_nil_of_mem hstamp)
  rw [heq, List.concat_eq_append] at hstamp horder ⊢
  refine ⟨last,by simp,?_⟩
  rcases List.mem_append.mp hstamp with hold | hlast
  · have hle := (List.pairwise_append.mp horder).2.2 stamp hold last (List.mem_singleton_self last)
    exact inWindow_later hle hwindow
  · rw [← List.mem_singleton.mp hlast]
    exact hwindow

end Hit

section Run
variable {m : RecentModule} {s s' : LiveTable nstampsMaxMask × List Answer}
  {r : RecentCache Visits × List Answer} {jiffies : UInt64} {a : Access}

theorem Access.Complete.not_lineFaults {input stack : Bytes} {kmalloc : Option Ptr}
    (h : (Access.write jiffies input stack kmalloc).Complete m) (hstar : input.head? = some 42)
    (c : RecentCache (RecentEntry nstampsMaxMask)) :
    ¬c.LineFaults (starLine m input stack) kmalloc.isSome := by
  intro hfaults
  obtain ⟨parts,hparts,hcomplete⟩ := h hstar
  obtain ⟨addr,-,-,-,hnull,hlater⟩ := hfaults parts hparts
  rcases hcomplete with hnone | ⟨hfirst,hmemory⟩
  · exact hlater hnone
  · rcases hnull with hnull | hnull
    · exact hfirst hnull
    · exact hmemory (by simpa using hnull)

/-- A safe access has a result. -/
theorem Counted.serve_ne_none (h : Counted s r jiffies) (hmask : nstampsMaxMask ∈ shortMasks)
    (hle : jiffies ≤ a.jiffies) (hclock : a.jiffies.toNat < 9223372036854775808) (hsafe : Safe m s a) :
    LiveTable.serve m s a ≠ none := by
  obtain ⟨c,hholds,hrel⟩ := h.cache
  intro hnone
  have hfaults := (hholds.access_eq_none_iff hsafe.oneFlag hsafe.fresh).mp (Option.map_eq_none_iff.mp hnone)
  cases a with
  | write jiffies' input stack kmalloc =>
    obtain ⟨-,hstar,hline⟩ := hfaults
    exact hsafe.complete.not_lineFaults hstar c hline
  | packet jiffies' info addrMask ttl kmalloc =>
    obtain ⟨e,hlookup,-,hreap,item,hhead,hstamp⟩ := hfaults
    obtain ⟨item',hhead',hkey,hrecords⟩ := hrel.exists_head hhead
    -- the oldest entry stands for visits, the last of which is its most recent stamp
    obtain ⟨_,hgiven⟩ := hrecords.given
    obtain ⟨last,hlast⟩ := hgiven.exists_last
    have hrecent : item.2.mostRecent = some last := (hrecords.mostRecent hmask).trans hlast
    obtain ⟨hafter,haddr,hupdate,hverdict⟩ := hstamp last hrecent
    obtain ⟨hseconds,hinvert⟩ := hsafe.reaping hreap
    have hget := RecentCache.get_of_lookup hlookup
    have hitem := Lru.Cache.get_of_head hhead
    rw [haddr, hget] at hitem
    obtain rfl : e = item.2 := Option.some.inj hitem
    have hget' := Lru.Cache.get_of_head hhead'
    rw [← hkey, haddr] at hget'
    have htimely : Lru.Cache.All (fun v => v.Timely jiffies') r.1 := fun item hitem =>
      (h.timely item hitem).later hle
    have hhits : HitsAgree m c r.1 (.packet jiffies' info addrMask ttl kmalloc) :=
      hitsAgree_of_timely hmask hrel htimely hclock hsafe.orderly
    have hhit := hhits _ _ hget hget'
    obtain ⟨horder,hpast⟩ := htimely.get hget'
    have hmatch : Visited.hit item.2 info m.hz jiffies' = true := by
      rcases hsafe.oneFlag.cases with ⟨-,-,hnone⟩ | ⟨-,-,-,hnone⟩ | ⟨hset,hremove,hcheck⟩
      · rw [hnone] at hupdate
        contradiction
      · rw [hnone] at hupdate
        contradiction
      · unfold RecentCache.verdict at hverdict
        simpa [hset, hremove, hcheck, hinvert hupdate] using hverdict
    rw [hhit] at hmatch
    obtain ⟨last',hlast',hwindow⟩ := inWindow_last horder hmatch
    obtain rfl : last = last' := Option.some.inj (hlast.symm.trans hlast')
    have hle' : last ≤ jiffies' := hpast last (List.mem_of_getLast? hlast)
    rw [← inWindow_eq hle' hclock, hafter] at hwindow
    simp [hseconds] at hwindow

theorem Counted.exists_run (h : Counted s r jiffies) (hmask : nstampsMaxMask ∈ shortMasks)
    {accesses : List Access} (hclock : ∀ a ∈ accesses, jiffies ≤ a.jiffies)
    (hmono : (accesses.map Access.jiffies).Pairwise (· ≤ ·))
    (hlate : ∀ a ∈ accesses, a.jiffies.toNat < 9223372036854775808)
    (hsafe : Runs.Meets (LiveTable.serve m) (Safe m) s accesses) :
    ∃ s', Runs.run (LiveTable.serve m) s accesses = some s' ∧
      s'.2 = (accesses.foldl (RecentCache.serve m) r).2 := by
  induction accesses generalizing s r jiffies with
  | nil => exact ⟨s,rfl,h.answers⟩
  | cons a accesses ih =>
    have hmem : a ∈ a::accesses := List.mem_cons_self ..
    obtain ⟨hafter,hmono'⟩ := List.pairwise_cons.mp hmono
    obtain ⟨s₁,hs⟩ := Option.ne_none_iff_exists'.mp
      (h.serve_ne_none hmask (hclock a hmem) (hlate a hmem) hsafe.1)
    have h₁ := h.serve hmask (hclock a hmem) (hlate a hmem) hsafe.1.orderly hs
    obtain ⟨s',hrun,hanswers⟩ := ih h₁ (fun b hb => hafter _ (List.mem_map_of_mem hb)) hmono'
      (fun b hb => hlate b (List.mem_cons_of_mem _ hb)) (hsafe.2 s₁ hs)
    exact ⟨s',by rw [Runs.run, hs, Option.bind_some, hrun],hanswers⟩

/-- Runs of safe accesses go through: none of them reads an entry that is gone, and every packet is
answered by all the visits of its address. -/
theorem orderly_runs_complete (hmask : nstampsMaxMask ∈ shortMasks) {accesses : List Access}
    (hmono : (accesses.map Access.jiffies).Pairwise (· ≤ ·))
    (hlate : ∀ a ∈ accesses, a.jiffies.toNat < 9223372036854775808)
    (hsafe : Runs.Meets (LiveTable.serve m) (Safe m) (({} : LiveTable nstampsMaxMask),[]) accesses) :
    ∃ t : LiveTable nstampsMaxMask,
      Runs.run (LiveTable.serve m) (({} : LiveTable nstampsMaxMask),[]) accesses =
        some (t,(accesses.foldl (RecentCache.serve m) ((.empty : RecentCache Visits),[])).2) := by
  have hzero : ∀ a ∈ accesses, (0 : UInt64) ≤ a.jiffies := fun a _ =>
    UInt64.le_iff_toNat_le.mpr (Nat.zero_le _)
  obtain ⟨⟨t,answers⟩,hrun,rfl⟩ := counted_empty.exists_run hmask hzero hmono hlate hsafe
  exact ⟨t,hrun⟩

end Run

section Samples

/-- A rule that matches what was seen in the last second, and reaps what was not. -/
def reapAt (jiffies : UInt64) : Access :=
  .packet jiffies { update := true, reap := true, seconds := 1, hitCount := 1 } (.ip 1 1 1 1) 64 none

theorem safe_setAt : Safe smallModule (({} : LiveTable 31),[]) (setAt 10 1 0) where
  orderly := ⟨fun _ => rfl,by decide⟩
  oneFlag := rfl
  reaping := fun h => absurd h Bool.false_ne_true
  complete := trivial
  fresh p _ t' ht' := by
    obtain rfl := Option.some.inj ht'
    rfl

theorem safe_reapAt (s : LiveTable 31 × List Answer) (jiffies : UInt64) :
    Safe smallModule s (reapAt jiffies) where
  orderly := ⟨fun _ => rfl,by decide⟩
  oneFlag := rfl
  reaping := fun _ => ⟨by decide,fun _ => rfl⟩
  complete := trivial
  fresh _ hp := absurd hp.symm (Option.some_ne_none _)

/-- The only entry is reaped by a packet of its address that comes too late, and that does not match. -/
theorem orderly_runs_complete_reapAt :
    ∃ t : LiveTable 31, Runs.run (LiveTable.serve smallModule) (({} : LiveTable 31),[])
      [setAt 10 1 0,reapAt 30,reapAt 400] =
        some (t,([setAt 10 1 0,reapAt 30,reapAt 400].foldl (RecentCache.serve smallModule)
          ((.empty : RecentCache Visits),[])).2) := by
  refine orderly_runs_complete (by decide) (by decide) (by decide) ⟨safe_setAt,fun s₁ _ => ?_⟩
  exact ⟨safe_reapAt s₁ 30,fun s₂ _ => ⟨safe_reapAt s₂ 400,fun _ _ => trivial⟩⟩

end Samples
end Kernel
end Ssyncd
