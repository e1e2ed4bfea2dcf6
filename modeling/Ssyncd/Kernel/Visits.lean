import Ssyncd.Kernel.Copy
import Ssyncd.Kernel.HeldCache
import Ssyncd.Kernel.RelatedCaches

/-! Rules ask how often an address was seen of late. A ring that keeps the last stamps answers as the
full list of all visits does, as long as it has as many cells as a rule asks for. -/
namespace Ssyncd
namespace Kernel

variable {nstampsMaxMask : UInt8}

/-- Every time at which an address was seen since it came into a table, oldest first. -/
structure Visits where
  ttl : UInt8
  stamps : List UInt64

/-- A time that a rule counts. -/
def inWindow (info : RecentMtinfo) (hz : UInt32) (jiffies stamp : UInt64) : Bool :=
  info.seconds = 0 || jiffies.toNat - stamp.toNat ≤ (info.seconds * hz).toNat

instance : Visited Visits where
  init _ ttl nstamp := ⟨ttl,[nstamp]⟩
  update v nstamp := { v with stamps := v.stamps ++ [nstamp] }
  ttl := Visits.ttl
  setTtl v ttl := { v with ttl }
  hit v info hz jiffies := decide (max 1 info.hitCount.toNat ≤ v.stamps.countP (inWindow info hz jiffies))
  mostRecent v := v.stamps.getLast?

section Time

theorem toInt64_neg_iff (x : UInt64) : x.toInt64 < 0 ↔ 9223372036854775808 ≤ x.toNat := by
  have hcast : x.toInt64.toInt = x.toBitVec.toInt := rfl
  have hzero : (0 : Int64).toInt = 0 := rfl
  have hnat : x.toBitVec.toNat = x.toNat := rfl
  have hlt := x.toNat_lt
  rw [Int64.lt_iff_toInt_lt, hcast, hzero, BitVec.toInt_eq_toNat_cond, hnat]
  split <;> omega

/-- Whether a stamp of the past is out of the window, also where the window starts before zero. -/
theorem timeAfter_sub {jiffies stamp : UInt64} (window : UInt32) (hle : stamp ≤ jiffies)
    (hclock : jiffies.toNat < 9223372036854775808) :
    timeAfter (jiffies - window.toUInt64) stamp = decide (window.toNat < jiffies.toNat - stamp.toNat) := by
  have hle' : stamp.toNat ≤ jiffies.toNat := UInt64.le_iff_toNat_le.mp hle
  have hwindow := window.toNat_lt
  unfold timeAfter
  congr 1
  rw [toInt64_neg_iff, UInt64.toNat_sub, UInt64.toNat_sub, UInt32.toNat_toUInt64]
  apply propext
  omega

theorem inWindow_eq {info : RecentMtinfo} {hz : UInt32} {jiffies stamp : UInt64} (hle : stamp ≤ jiffies)
    (hclock : jiffies.toNat < 9223372036854775808) :
    (!(decide (info.seconds ≠ 0) && timeAfter (windowStart info hz jiffies) stamp)) =
      inWindow info hz jiffies stamp := by
  unfold windowStart inWindow
  rw [timeAfter_sub _ hle hclock]
  by_cases hseconds : info.seconds = 0
  · simp [hseconds]
  · rw [Bool.eq_iff_iff]
    simp [hseconds]

/-- A later visit is in the window of an earlier one. -/
theorem inWindow_later {info : RecentMtinfo} {hz : UInt32} {jiffies stamp stamp' : UInt64}
    (hle : stamp ≤ stamp') (h : inWindow info hz jiffies stamp = true) :
    inWindow info hz jiffies stamp' = true := by
  have hle' : stamp.toNat ≤ stamp'.toNat := UInt64.le_iff_toNat_le.mp hle
  unfold inWindow at *
  rw [Bool.or_eq_true, decide_eq_true_eq, decide_eq_true_eq] at *
  exact h.imp_right fun hnat => (Nat.sub_le_sub_left hle' _).trans hnat

end Time

/-- An entry that was given the stamps of these visits. -/
structure Records (e : RecentEntry nstampsMaxMask) (v : Visits) : Prop where
  given : ∃ addr, e.Given addr v.stamps
  ttl : e.ttl = v.ttl

section Records
variable {e : RecentEntry nstampsMaxMask} {v : Visits} {stamps : List UInt64}

theorem RecentEntry.Given.pushAll {addr : NfInetAddr} (h : e.Given addr stamps)
    (hmask : nstampsMaxMask ∈ shortMasks) :
    e.ring.History (Ring.pushAll (nstampsMaxMask.toNat + 1) [] stamps) := by
  induction h with
  | init ttl firstNstamp =>
    have hfirst : Ring.pushAll (nstampsMaxMask.toNat + 1) [] [firstNstamp] = [firstNstamp] :=
      Ring.pushAll_of_le (Nat.le_add_left 1 _)
    rw [hfirst]
    exact history_init addr ttl firstNstamp
  | update h nstamp ih =>
    rw [Ring.pushAll, List.foldl_append]
    exact history_update hmask ih nstamp
  | setTtl h ttl ih => exact ih

/-- The history of an entry is the last of the stamps that it was given. -/
theorem RecentEntry.Given.history {addr : NfInetAddr} (h : e.Given addr stamps)
    (hmask : nstampsMaxMask ∈ shortMasks) :
    e.ring.History (stamps.drop (stamps.length - (nstampsMaxMask.toNat + 1))) := by
  have hpush := h.pushAll hmask
  rw [Ring.pushAll_eq_drop (Nat.succ_pos _) (Nat.zero_le _), List.nil_append, List.length_nil,
    Nat.zero_add] at hpush
  exact hpush

theorem RecentEntry.Given.exists_last {addr : NfInetAddr} (h : e.Given addr stamps) :
    ∃ last, stamps.getLast? = some last := by
  induction h with
  | init ttl firstNstamp => exact ⟨firstNstamp,rfl⟩
  | update _ nstamp _ => exact ⟨nstamp,by simp⟩
  | setTtl _ _ ih => exact ih

theorem Records.mostRecent (h : Records e v) (hmask : nstampsMaxMask ∈ shortMasks) :
    e.mostRecent = v.stamps.getLast? := by
  obtain ⟨addr,hgiven⟩ := h.given
  obtain ⟨-,hindex,-⟩ := hgiven.exists_history hmask
  rw [mostRecent_of_history (hgiven.history hmask) hindex, List.getLast?_drop]
  split
  · next hnone =>
    have hempty : v.stamps.length = 0 := by omega
    rw [List.length_eq_zero_iff.mp hempty]
    rfl
  · rfl

theorem records_respects (hmask : nstampsMaxMask ∈ shortMasks) :
    Respects (@Records nstampsMaxMask) where
  init addr ttl nstamp := ⟨⟨addr,.init ttl nstamp⟩,rfl⟩
  update h nstamp := ⟨h.given.imp fun _ hgiven => hgiven.update nstamp,h.ttl⟩
  setTtl h ttl := ⟨h.given.imp fun _ hgiven => hgiven.setTtl ttl,rfl⟩
  ttl h := h.ttl
  mostRecent h := h.mostRecent hmask

/-- The ring decides what all the visits decide. -/
theorem Records.hit (h : Records e v) (hmask : nstampsMaxMask ∈ shortMasks) {info : RecentMtinfo}
    (hfits : info.hitCount.toNat ≤ nstampsMaxMask.toNat + 1) {jiffies : UInt64}
    (hclock : jiffies.toNat < 9223372036854775808) (horder : v.stamps.Pairwise (· ≤ ·))
    (hpast : ∀ stamp ∈ v.stamps, stamp ≤ jiffies) (hz : UInt32) :
    Visited.hit e info hz jiffies = Visited.hit v info hz jiffies := by
  obtain ⟨addr,hgiven⟩ := h.given
  have hperm := visible_perm (hgiven.history hmask)
  have hvisible : ∀ stamp ∈ e.visible, stamp ≤ jiffies := fun stamp hmem =>
    hpast stamp (List.mem_of_mem_drop (hperm.mem_iff.mp hmem))
  have hcount : e.visible.countP (fun stamp =>
      !(info.seconds ≠ 0 && timeAfter (windowStart info hz jiffies) stamp)) =
        (v.stamps.drop (v.stamps.length - (nstampsMaxMask.toNat + 1))).countP
          (inWindow info hz jiffies) := by
    rw [← hperm.countP_eq]
    exact List.countP_congr fun stamp hmem => by rw [← inWindow_eq (hvisible stamp hmem) hclock]
  have hring : max 1 info.hitCount.toNat ≤ nstampsMaxMask.toNat + 1 := by omega
  have hlater : v.stamps.Pairwise fun stamp stamp' =>
      inWindow info hz jiffies stamp = true → inWindow info hz jiffies stamp' = true :=
    horder.imp fun hle => inWindow_later hle
  change e.hit info (windowStart info hz jiffies) = decide _
  rw [RecentEntry.hit_eq, hcount, Bool.eq_iff_iff, decide_eq_true_eq, decide_eq_true_eq]
  exact Ring.le_countP_drop_iff hring hlater

end Records

def Access.jiffies : Access → UInt64
  | .packet jiffies .. => jiffies
  | .write jiffies .. => jiffies

/-- A rule asks for no more hits than an entry has cells, and lines with stamps are those of the
daemon after a flush: for addresses that the table does not have, in order, and of the past. -/
def Orderly (m : RecentModule) (s : LiveTable nstampsMaxMask × List Answer) : Access → Prop
  | .packet _ info .. => info.Plain ∧ info.hitCount.toNat ≤ nstampsMaxMask.toNat + 1
  | .write jiffies input stack _ => ∀ parts, starLine m input stack = some parts →
      parts.stamps.Pairwise (· ≤ ·) ∧ (∀ stamp ∈ parts.stamps, stamp ≤ jiffies) ∧
        ∀ addr, parts.addr = some addr → s.1.view addr = none

theorem Orderly.plain {m : RecentModule} {s : LiveTable nstampsMaxMask × List Answer} {a : Access}
    (h : Orderly m s a) : a.Plain := by
  cases a with
  | packet => exact h.1
  | write => trivial

/-- What an access writes is the present time, or the stamps of a line for a new address. -/
theorem Orderly.cases {m : RecentModule} {s : LiveTable nstampsMaxMask × List Answer} {a : Access}
    (h : Orderly m s a) : a.stamps m = [a.jiffies] ∨
      (a.stamps m).Pairwise (· ≤ ·) ∧ (∀ stamp ∈ a.stamps m, stamp ≤ a.jiffies) ∧
        ∀ addr, a.used m = some addr → s.1.view addr = none := by
  cases a with
  | packet => exact .inl rfl
  | write jiffies input stack kmalloc =>
    by_cases hstar : input.head? = some 42
    · have hstamps : (Access.write jiffies input stack kmalloc).stamps m =
          (starLine m input stack).elim [] LineParts.stamps := if_pos hstar
      have hused : (Access.write jiffies input stack kmalloc).used m =
          (starLine m input stack).bind LineParts.addr := by
        obtain ⟨rest,rfl⟩ := List.head?_eq_some_iff.mp hstar
        rfl
      refine .inr ?_
      rw [hstamps, hused]
      cases hline : starLine m input stack with
      | none =>
        exact ⟨List.Pairwise.nil,fun _ hmem => absurd hmem List.not_mem_nil,fun _ haddr =>
          absurd haddr.symm (Option.some_ne_none _)⟩
      | some parts => exact h parts hline
    · exact .inl (if_neg hstar)

/-- The visits of each address are in order, and not in the future. -/
def Visits.Timely (v : Visits) (jiffies : UInt64) : Prop :=
  v.stamps.Pairwise (· ≤ ·) ∧ ∀ stamp ∈ v.stamps, stamp ≤ jiffies

section Timely
variable {v v' : Visits} {jiffies : UInt64} {nstamps : List UInt64}

theorem Visits.Timely.later (h : v.Timely jiffies) {jiffies' : UInt64} (hle : jiffies ≤ jiffies') :
    v.Timely jiffies' :=
  ⟨h.1,fun stamp hstamp => UInt64.le_trans (h.2 stamp hstamp) hle⟩

theorem stamps_updateAll (v : Visits) (nstamps : List UInt64) :
    (Visited.updateAll v nstamps).stamps = v.stamps ++ nstamps := by
  induction nstamps generalizing v with
  | nil => exact (List.append_nil _).symm
  | cons nstamp nstamps ih =>
    refine (ih (Visited.update v nstamp)).trans ?_
    exact List.append_assoc v.stamps [nstamp] nstamps

theorem Written.stamps (h : Written v nstamps v') : v'.stamps = v.stamps ++ nstamps := by
  rcases h with rfl | ⟨ttl,rfl⟩
  · exact stamps_updateAll v nstamps
  · exact stamps_updateAll v nstamps

/-- The present time comes after all visits. -/
theorem Visits.Timely.now (h : v.Timely jiffies) (hv : v'.stamps = v.stamps ++ [jiffies]) :
    v'.Timely jiffies := by
  obtain ⟨horder,hpast⟩ := h
  unfold Visits.Timely
  rw [hv]
  constructor
  · refine List.pairwise_append.mpr ⟨horder,List.pairwise_singleton _ _,fun stamp hstamp stamp' h' => ?_⟩
    rw [List.mem_singleton.mp h']
    exact hpast stamp hstamp
  · intro stamp hstamp
    rcases List.mem_append.mp hstamp with hold | hnew
    · exact hpast stamp hold
    · rw [List.mem_singleton.mp hnew]
      exact UInt64.le_refl _

end Timely

section Run
variable {m : RecentModule} {s s' : LiveTable nstampsMaxMask × List Answer}
  {r : RecentCache Visits × List Answer} {jiffies : UInt64}

/-- A table beside the visits that its entries stand for, with the same answers so far. -/
structure Counted (s : LiveTable nstampsMaxMask × List Answer) (r : RecentCache Visits × List Answer)
    (jiffies : UInt64) : Prop where
  cache : ∃ c, s.1.Holds c ∧ Lru.Cache.Related Records c r.1
  answers : s.2 = r.2
  timely : Lru.Cache.All (fun v => v.Timely jiffies) r.1

theorem counted_empty : Counted (({} : LiveTable nstampsMaxMask),[]) (.empty,[]) 0 where
  cache := ⟨.empty,LiveTable.holds_empty,Lru.Cache.related_empty⟩
  answers := rfl
  timely := fun _ hitem => absurd hitem List.not_mem_nil

/-- Where the visits are timely, the rings decide what they decide. -/
theorem hitsAgree_of_timely (hmask : nstampsMaxMask ∈ shortMasks) {a : Access}
    {c : RecentCache (RecentEntry nstampsMaxMask)} {d : RecentCache Visits}
    (hrel : Lru.Cache.Related Records c d) (htimely : Lru.Cache.All (fun v => v.Timely a.jiffies) d)
    (hclock : a.jiffies.toNat < 9223372036854775808) (horderly : Orderly m s a) : HitsAgree m c d a := by
  cases a with
  | packet jiffies' info addrMask ttl kmalloc =>
    intro e v he hv
    have hrecords := hrel.get addrMask
    rw [he, hv] at hrecords
    obtain ⟨horder,hpast⟩ := htimely.get hv
    cases hrecords with
    | some hrecords => exact hrecords.hit hmask horderly.2 hclock horder hpast m.hz
  | write => trivial

/-- One access, at this time or later. -/
theorem Counted.serve (h : Counted s r jiffies) (hmask : nstampsMaxMask ∈ shortMasks) {a : Access}
    (hle : jiffies ≤ a.jiffies) (hclock : a.jiffies.toNat < 9223372036854775808)
    (horderly : Orderly m s a) (hs : LiveTable.serve m s a = some s') :
    Counted s' (RecentCache.serve m r a) a.jiffies := by
  obtain ⟨c,hholds,hrel⟩ := h.cache
  obtain ⟨⟨t₁,answer₁⟩,haccess,rfl⟩ := Option.map_eq_some_iff.mp hs
  obtain ⟨hholds',rfl⟩ := hholds.access horderly.plain haccess
  have htimely : Lru.Cache.All (fun v => v.Timely a.jiffies) r.1 := fun item hitem =>
    (h.timely item hitem).later hle
  have hhits := hitsAgree_of_timely hmask hrel htimely hclock horderly
  obtain ⟨hrel',hanswer⟩ := RecentCache.related_access (records_respects hmask) hrel hhits
  refine ⟨⟨_,hholds',hrel'⟩,?_,?_⟩
  · exact congr (congrArg _ h.answers) (congrArg (fun answer => [answer]) hanswer)
  · refine (RecentCache.outcome_access r.1 horderly.plain).all htimely ?_ ?_
    · intro addr ttl nstamp rest _ hstamps _
      have hnew : (Visited.updateAll (Visited.init addr ttl nstamp : Visits) rest).stamps = a.stamps m := by
        rw [stamps_updateAll, hstamps]
        rfl
      unfold Visits.Timely
      rw [hnew]
      rcases horderly.cases with hnow | ⟨horder,hpast,-⟩
      · rw [hnow]
        exact ⟨List.pairwise_singleton _ _,fun stamp hmem => by
          rw [List.mem_singleton.mp hmem]
          exact UInt64.le_refl _⟩
      · exact ⟨horder,hpast⟩
    · intro addr v v' haddr hget hv hwritten
      rcases horderly.cases with hnow | ⟨-,-,hnew⟩
      · rw [hnow] at hwritten
        exact hv.now hwritten.stamps
      · have hget' := hrel.get addr
        rw [← hholds.view, hnew addr haddr, hget] at hget'
        cases hget'

theorem Counted.run (h : Counted s r jiffies) (hmask : nstampsMaxMask ∈ shortMasks)
    {accesses : List Access} (hclock : ∀ a ∈ accesses, jiffies ≤ a.jiffies)
    (hmono : (accesses.map Access.jiffies).Pairwise (· ≤ ·))
    (hlate : ∀ a ∈ accesses, a.jiffies.toNat < 9223372036854775808)
    (horderly : Runs.Meets (LiveTable.serve m) (Orderly m) s accesses)
    (hrun : Runs.run (LiveTable.serve m) s accesses = some s') :
    ∃ jiffies', Counted s' (accesses.foldl (RecentCache.serve m) r) jiffies' := by
  induction accesses generalizing s r jiffies with
  | nil =>
    obtain rfl : s = s' := Option.some.inj hrun
    exact ⟨jiffies,h⟩
  | cons a accesses ih =>
    obtain ⟨s₁,hs,hrest⟩ := Option.bind_eq_some_iff.mp hrun
    have hmem : a ∈ a::accesses := List.mem_cons_self ..
    obtain ⟨hafter,hmono'⟩ := List.pairwise_cons.mp hmono
    have h₁ := h.serve hmask (hclock a hmem) (hlate a hmem) horderly.1 hs
    exact ih h₁ (fun b hb => hafter _ (List.mem_map_of_mem hb)) hmono'
      (fun b hb => hlate b (List.mem_cons_of_mem _ hb)) (horderly.2 s₁ hs) hrest

/-- Rings of bounded size answer as if every visit was kept: each packet matches exactly the rules
that it matches by the number of all visits of its address within their window, since the address
came into the table. -/
theorem rate_limits_count_all_visits (hmask : nstampsMaxMask ∈ shortMasks) {t : LiveTable nstampsMaxMask}
    {answers : List Answer} {accesses : List Access}
    (hmono : (accesses.map Access.jiffies).Pairwise (· ≤ ·))
    (hlate : ∀ a ∈ accesses, a.jiffies.toNat < 9223372036854775808)
    (horderly : Runs.Meets (LiveTable.serve m) (Orderly m) (({} : LiveTable nstampsMaxMask),[]) accesses)
    (hrun : Runs.run (LiveTable.serve m) (({} : LiveTable nstampsMaxMask),[]) accesses =
      some (t,answers)) :
    ∃ visits : RecentCache Visits,
      accesses.foldl (RecentCache.serve m) (.empty,[]) = (visits,answers) ∧
        ∃ c : RecentCache (RecentEntry nstampsMaxMask), t.Holds c ∧ Lru.Cache.Related Records c visits := by
  have hzero : ∀ a ∈ accesses, (0 : UInt64) ≤ a.jiffies := fun a _ =>
    UInt64.le_iff_toNat_le.mpr (Nat.zero_le _)
  obtain ⟨_,hend⟩ := counted_empty.run hmask hzero hmono hlate horderly hrun
  obtain ⟨c,hholds,hrel⟩ := hend.cache
  exact ⟨_,Prod.ext rfl hend.answers.symm,c,hholds,hrel⟩

end Run

section Samples

/-- A rule that matches a packet whose address was seen twice in the last second. -/
def twice : RecentMtinfo := { update := true, seconds := 1, hitCount := 2 }

def seenAt (jiffies : UInt64) : Access := .packet jiffies twice (.ip 1 1 1 1) 64 none

def seenEnd : LiveTable 1 × List Answer :=
  (Runs.run (LiveTable.serve smallModule) ({},[]) [setAt 10 1 0,setAt 20 1 0,seenAt 30,seenAt 400]).getD
    ({},[])

theorem seen_orderly (s : LiveTable 1 × List Answer) :
    ∀ a ∈ [setAt 10 1 0,setAt 20 1 0,seenAt 30,seenAt 400], Orderly smallModule s a := by
  intro a ha
  simp only [List.mem_cons, List.not_mem_nil, or_false] at ha
  rcases ha with rfl | rfl | rfl | rfl <;> exact ⟨fun _ => rfl,by decide⟩

/-- Of three visits the first is gone from the ring, and the last rule does not match. -/
theorem rate_limits_count_all_visits_seen :
    seenEnd.2 = [.packet true false,.packet true false,.packet true false,.packet false false] ∧
      ∃ visits : RecentCache Visits,
        [setAt 10 1 0,setAt 20 1 0,seenAt 30,seenAt 400].foldl (RecentCache.serve smallModule)
          (.empty,[]) = (visits,seenEnd.2) ∧
            ∃ c : RecentCache (RecentEntry 1), seenEnd.1.Holds c ∧
              Lru.Cache.Related Records c visits := by
  refine ⟨by decide,rate_limits_count_all_visits (by decide) ?_ ?_ (Runs.meets_of_forall seen_orderly) rfl⟩
  · decide
  · decide

end Samples

end Kernel
end Ssyncd
