import Ssyncd.Kernel.UpdateLine
import Ssyncd.Library.Runs

/-! The list of a table's entries by their last use. A full table gives up its head and a rule
may reap it, both as the oldest entry, so its order has to be the order of the most recent
stamps. Packets write the present time and keep it; a line of the daemon writes stamps of the
past, and keeps it when no other entry has been used since. -/
namespace Ssyncd
namespace Kernel

variable {nstampsMaxMask : UInt8}

theorem RecentEntry.Indexed.exists_mostRecent {e : RecentEntry nstampsMaxMask} (h : e.Indexed) :
    ∃ stamp, e.mostRecent = some stamp := by
  have hne : e.index ≠ 0 := by
    intro h0
    have hpos := h.pos
    rw [h0] at hpos
    contradiction
  have hlt : e.index.toNat - 1 < e.stamps.length := by
    have hpos := h.pos
    have hle := h.le.trans e.nstamps_le
    rw [e.stamps_length]
    omega
  exact ⟨_,by rw [mostRecent, if_neg hne, List.getElem?_eq_getElem hlt]⟩

namespace LiveTable

def Sorted (t : LiveTable nstampsMaxMask) : Prop :=
  t.lruList.Pairwise fun p q => ∀ stamp stamp' : UInt64,
    t.mostRecent p = some stamp → t.mostRecent q = some stamp' → stamp ≤ stamp'

/-- Along the list every entry has a most recent stamp, and they do not decrease. -/
structure LruOrdered (t : LiveTable nstampsMaxMask) : Prop where
  inRing : ∀ p ∈ t.lruList, ∃ stamp, t.mostRecent p = some stamp
  sorted : t.Sorted

/-- No entry holds more stamps than an index of one byte can count. -/
def Few (t : LiveTable nstampsMaxMask) : Prop :=
  ∀ p e, t.heap p = some e → e.nstamps.toNat ≤ 128

/-- These entries were last used at this time or before. -/
def UsedBy (t : LiveTable nstampsMaxMask) (ps : List Ptr) (time : UInt64) : Prop :=
  ∀ q ∈ ps, ∀ stamp : UInt64, t.mostRecent q = some stamp → stamp ≤ time

structure InOrder (t : LiveTable nstampsMaxMask) (jiffies : UInt64) : Prop where
  wellFormed : t.WellFormed
  indexed : ∀ p e, t.heap p = some e → e.Indexed
  past : ∀ p (stamp : UInt64), t.mostRecent p = some stamp → stamp ≤ jiffies
  sorted : t.Sorted

section InOrder
variable {t t' : LiveTable nstampsMaxMask} {p : Ptr} {e : RecentEntry nstampsMaxMask}
  {jiffies last : UInt64}

theorem mostRecent_remove (t : LiveTable nstampsMaxMask) (p q : Ptr) :
    (t.recentEntryRemove p).mostRecent q = if q = p then none else t.mostRecent q := by
  rw [mostRecent, heap_remove]
  split <;> rfl

theorem mostRecent_touched (t : LiveTable nstampsMaxMask) (p q : Ptr)
    (e : RecentEntry nstampsMaxMask) :
    (t.touched p e).mostRecent q = if q = p then e.mostRecent else t.mostRecent q := by
  rw [mostRecent, heap_touched]
  split <;> rfl

theorem InOrder.lruOrdered (h : t.InOrder jiffies) : t.LruOrdered where
  inRing p hp := by
    obtain ⟨e,he⟩ := (h.wellFormed.live p).mp hp
    rw [mostRecent_eq he]
    exact (h.indexed p e he).exists_mostRecent
  sorted := h.sorted

theorem inOrder_empty (jiffies : UInt64) : InOrder ({} : LiveTable nstampsMaxMask) jiffies where
  wellFormed := wellFormed_empty
  indexed _ _ h := by simp at h
  past _ _ h := by simp [mostRecent] at h
  sorted := List.Pairwise.nil

theorem InOrder.later (h : t.InOrder jiffies) {jiffies' : UInt64} (hle : jiffies ≤ jiffies') :
    t.InOrder jiffies' :=
  { h with past := fun p stamp hs => UInt64.le_trans (h.past p stamp hs) hle }

/-- An entry goes: the others keep their places. -/
theorem InOrder.remove (h : t.InOrder jiffies) (hp : p ∈ t.lruList) :
    (t.recentEntryRemove p).InOrder jiffies where
  wellFormed := h.wellFormed.remove hp
  indexed q e he := by
    rw [heap_remove] at he
    split at he
    · contradiction
    · exact h.indexed q e he
  past q stamp hs := by
    rw [mostRecent_remove] at hs
    split at hs
    · contradiction
    · exact h.past q stamp hs
  sorted := by
    refine (h.sorted.sublist (List.erase_sublist ..)).imp fun {q r} hqr stamp stamp' hs hs' => ?_
    rw [mostRecent_remove] at hs hs'
    split at hs <;> split at hs'
    · contradiction
    · contradiction
    · contradiction
    · exact hqr stamp stamp' hs hs'

/-- An entry comes to the tail in its place exactly when no other one was used after it. -/
theorem sorted_touched_iff (h : t.WellFormed) (hs : t.Sorted) (hlast : e.mostRecent = some last) :
    (t.touched p e).Sorted ↔ t.UsedBy (t.lruList.erase p) last := by
  have hother : ∀ q ∈ t.lruList.erase p, (t.touched p e).mostRecent q = t.mostRecent q := by
    intro q hq
    rw [mostRecent_touched, if_neg (h.nodup.mem_erase_iff.mp hq).1]
  have hself : (t.touched p e).mostRecent p = some last := by
    rw [mostRecent_touched, if_pos rfl, hlast]
  have hrest : (t.lruList.erase p).Pairwise fun q r => ∀ stamp stamp' : UInt64,
      (t.touched p e).mostRecent q = some stamp → (t.touched p e).mostRecent r = some stamp' →
        stamp ≤ stamp' := by
    refine List.Pairwise.imp_of_mem (fun {q r} hq hr hqr => ?_)
      (List.Pairwise.sublist (List.erase_sublist ..) hs)
    rw [hother q hq, hother r hr]
    exact hqr
  unfold Sorted
  rw [lruList_touched, List.pairwise_append]
  constructor
  · rintro ⟨-,-,htail⟩ q hq stamp hstamp
    exact htail q hq p (List.mem_singleton_self p) stamp last ((hother q hq).trans hstamp) hself
  · intro hused
    refine ⟨hrest,List.pairwise_singleton _ _,fun q hq r hr stamp stamp' hstamp hstamp' => ?_⟩
    rw [List.mem_singleton.mp hr, hself] at hstamp'
    obtain rfl := Option.some.inj hstamp'
    rw [hother q hq] at hstamp
    exact hused q hq stamp hstamp

/-- A new entry is in its place at the tail as a touched one is. -/
theorem sorted_linked_iff (h : t.WellFormed) (hs : t.Sorted) (hp : t.heap p = none)
    (hlast : e.mostRecent = some last) : (t.linked p e).Sorted ↔ t.UsedBy t.lruList last := by
  have htouched := sorted_touched_iff (p := p) h hs hlast
  have hlist : (t.touched p e).lruList = (t.linked p e).lruList := by
    rw [lruList_touched, List.erase_of_not_mem (h.not_mem hp)]
    rfl
  rw [List.erase_of_not_mem (h.not_mem hp)] at htouched
  rw [← htouched]
  unfold Sorted
  rw [hlist]
  rfl

theorem InOrder.touched (h : t.InOrder jiffies) (hp : p ∈ t.lruList) (hindexed : e.Indexed)
    (hlast : e.mostRecent = some last) (hpast : last ≤ jiffies)
    (hused : t.UsedBy (t.lruList.erase p) last) : (t.touched p e).InOrder jiffies where
  wellFormed := h.wellFormed.touched hp
  indexed q e' he' := by
    rw [heap_touched] at he'
    split at he'
    · rw [← Option.some.inj he']
      exact hindexed
    · exact h.indexed q e' he'
  past q stamp hs := by
    rw [mostRecent_touched] at hs
    split at hs
    · rw [← Option.some.inj (hlast.symm.trans hs)]
      exact hpast
    · exact h.past q stamp hs
  sorted := (sorted_touched_iff h.wellFormed h.sorted hlast).mpr hused

theorem InOrder.linked (h : t.InOrder jiffies) (hp : t.heap p = none) (hindexed : e.Indexed)
    (hlast : e.mostRecent = some last) (hpast : last ≤ jiffies)
    (hused : t.UsedBy t.lruList last) : (t.linked p e).InOrder jiffies where
  wellFormed := h.wellFormed.linked hp
  indexed q e' he' := by
    rw [heap_linked] at he'
    split at he'
    · rw [← Option.some.inj he']
      exact hindexed
    · exact h.indexed q e' he'
  past q stamp hs := by
    rw [mostRecent, heap_linked] at hs
    split at hs
    · rw [← Option.some.inj (hlast.symm.trans hs)]
      exact hpast
    · exact h.past q stamp hs
  sorted := (sorted_linked_iff h.wellFormed h.sorted hp hlast).mpr hused

/-- Every entry was used at the present time or before. -/
theorem InOrder.usedBy (h : t.InOrder jiffies) (ps : List Ptr) : t.UsedBy ps jiffies :=
  fun q _ stamp hs => h.past q stamp hs

theorem InOrder.evict (h : t.InOrder jiffies) {ipListTot : ℕ}
    (he : t.recentEntryEvict ipListTot = some t') : t'.InOrder jiffies := by
  rcases evict_cases he with rfl | ⟨p,rest,hrest,rfl⟩
  · exact h
  · exact h.remove (by rw [hrest]; exact List.mem_cons_self ..)

theorem InOrder.reap (h : t.InOrder jiffies) {time : UInt64}
    (hr : t.recentEntryReap time = some t') : t'.InOrder jiffies := by
  unfold recentEntryReap at hr
  split at hr
  · contradiction
  · next p rest hrest =>
    obtain ⟨stamp,-,rfl⟩ := Option.map_eq_some_iff.mp hr
    split
    · exact h.remove (by rw [hrest]; exact List.mem_cons_self ..)
    · exact h

/-- A new entry with the present time. -/
theorem InOrder.init (h : t.InOrder jiffies) {ipListTot : ℕ} {addr : NfInetAddr} {ttl : UInt8}
    {kmalloc r : Option Ptr}
    (hi : t.recentEntryInit ipListTot addr ttl jiffies kmalloc = some (t',r)) :
    t'.InOrder jiffies := by
  obtain ⟨t₁,hevict,hi⟩ := Option.bind_eq_some_iff.mp hi
  have h₁ := h.evict hevict
  cases kmalloc with
  | none =>
    obtain ⟨rfl,-⟩ := Prod.mk.inj (Option.some.inj hi)
    exact h₁
  | some p =>
    dsimp only at hi
    split at hi
    · contradiction
    · next hfree =>
      obtain ⟨rfl,-⟩ := Prod.mk.inj (Option.some.inj hi)
      have hp : t₁.heap p = none := by simpa using hfree
      exact h₁.linked hp (indexed_init addr ttl jiffies) (mostRecent_init addr ttl jiffies)
        (UInt64.le_refl _) (h₁.usedBy _)

/-- An entry in use gets the present time, and maybe another ttl. -/
theorem InOrder.updateNow (h : t.InOrder jiffies) (he : t.heap p = some e)
    (hfew : (Kernel.recentEntryUpdate e jiffies).nstamps.toNat ≤ 128) (ttl : UInt8) :
    (t.touched p { Kernel.recentEntryUpdate e jiffies with ttl }).InOrder jiffies := by
  have hp : p ∈ t.lruList := (h.wellFormed.live p).mpr ⟨e,he⟩
  obtain ⟨hindexed,hlast⟩ := (h.indexed p e he).update ((nstamps_le_update e jiffies).trans hfew) jiffies
  exact h.touched hp ⟨hindexed.pos,hindexed.le⟩ hlast (UInt64.le_refl _) (h.usedBy _)

/-- The present time is written to an entry in use. -/
theorem InOrder.update (h : t.InOrder jiffies) (hu : t.recentEntryUpdate p jiffies = some t')
    (hfew : t'.Few) : t'.InOrder jiffies := by
  obtain ⟨e,he,rfl⟩ := Option.map_eq_some_iff.mp hu
  exact h.updateNow he (hfew p _ (heap_touched_self t p _)) e.ttl

theorem InOrder.updateTtl (h : t.InOrder jiffies) {ttl : UInt8}
    (hu : ((t.recentEntryUpdate p jiffies).bind fun t => t.setTtl p ttl) = some t')
    (hfew : t'.Few) : t'.InOrder jiffies := by
  obtain ⟨t₁,hu,hs⟩ := Option.bind_eq_some_iff.mp hu
  obtain ⟨e,he,rfl⟩ := Option.map_eq_some_iff.mp hu
  have htouched : t' = t.touched p { Kernel.recentEntryUpdate e jiffies with ttl } := by
    rw [setTtl, heap_touched_self, Option.map_some] at hs
    rw [← Option.some.inj hs]
    unfold LiveTable.touched
    dsimp only
    rw [Function.update_idem]
  rw [htouched] at hfew ⊢
  have hcount := hfew p _ (heap_touched_self t p _)
  exact h.updateNow he hcount ttl

theorem InOrder.flush (h : t.InOrder jiffies) : t.recentTableFlush.InOrder jiffies := by
  rw [h.wellFormed.flush]
  exact inOrder_empty jiffies

theorem InOrder.mem_of_lookup (h : t.InOrder jiffies) {addr : NfInetAddr} {ttl : UInt8}
    (hl : t.recentEntryLookup addr ttl = some p) : p ∈ t.lruList := by
  obtain ⟨e,he,-⟩ := heap_of_lookup hl
  exact (h.wellFormed.live p).mpr ⟨e,he⟩

theorem InOrder.matchEntry (h : t.InOrder jiffies) {hz : UInt32} {info : RecentMtinfo} {ret : Bool}
    (hp : p ∈ t.lruList) (hm : t.matchEntry hz jiffies info p = some (t',ret)) :
    t'.InOrder jiffies := by
  unfold LiveTable.matchEntry at hm
  split at hm
  · obtain rfl : t = t' := congrArg Prod.fst (Option.some.inj hm)
    exact h
  · split at hm
    · obtain rfl : _ = t' := congrArg Prod.fst (Option.some.inj hm)
      exact h.remove hp
    · split at hm
      · obtain ⟨e,-,hm⟩ := Option.bind_eq_some_iff.mp hm
        obtain ⟨t₁,hreap,heq⟩ := Option.map_eq_some_iff.mp hm
        obtain rfl : t₁ = t' := congrArg Prod.fst heq
        split at hreap
        · exact h.reap hreap
        · obtain rfl := Option.some.inj hreap
          exact h
      · obtain rfl : t = t' := congrArg Prod.fst (Option.some.inj hm)
        exact h

theorem InOrder.recentMt (h : t.InOrder jiffies) {ipListTot : ℕ} {hz : UInt32}
    {info : RecentMtinfo} {addrMask : NfInetAddr} {ttl : UInt8} {kmalloc : Option Ptr}
    {r : Bool × Bool}
    (hm : t.recentMt ipListTot hz jiffies info addrMask ttl kmalloc = some (t',r))
    (hfew : t'.Few) : t'.InOrder jiffies := by
  unfold LiveTable.recentMt at hm
  split at hm
  · split at hm
    · obtain ⟨⟨t₁,e⟩,hi,heq⟩ := Option.map_eq_some_iff.mp hm
      obtain rfl : t₁ = t' := congrArg Prod.fst heq
      exact h.init hi
    · obtain rfl : t = t' := congrArg Prod.fst (Option.some.inj hm)
      exact h
  · next p hlookup =>
    obtain ⟨⟨t₁,ret⟩,hentry,hrest⟩ := Option.bind_eq_some_iff.mp hm
    have h₁ := h.matchEntry (h.mem_of_lookup hlookup) hentry
    dsimp only at hrest
    split at hrest
    · obtain ⟨t₂,hu,heq⟩ := Option.map_eq_some_iff.mp hrest
      obtain rfl : t₂ = t' := congrArg Prod.fst heq
      exact h₁.updateTtl hu hfew
    · obtain rfl : t₁ = t' := congrArg Prod.fst (Option.some.inj hrest)
      exact h₁

/-- A write of an address alone uses the present time. -/
theorem InOrder.writeAddress (h : t.InOrder jiffies)
    {in6Pton : Bytes → Option UInt8 → Option NfInetAddr} {ipListTot : ℕ} {add : Bool} {c : Bytes}
    {size : ℕ} {kmalloc : Option Ptr} {ret : Int}
    (hw : t.writeAddress in6Pton ipListTot jiffies add c size kmalloc = some (t',ret))
    (hfew : t'.Few) : t'.InOrder jiffies := by
  unfold LiveTable.writeAddress at hw
  dsimp only at hw
  split at hw
  · obtain rfl : t = t' := congrArg Prod.fst (Option.some.inj hw)
    exact h
  · next addr haddr =>
    split at hw
    · obtain ⟨⟨t₁,e⟩,hi,heq⟩ := Option.bind_eq_some_iff.mp hw
      obtain rfl : t₁ = t' := congrArg Prod.fst (Option.some.inj heq)
      exact h.init hi
    · obtain rfl : t = t' := congrArg Prod.fst (Option.some.inj hw)
      exact h
    · obtain ⟨t₁,hu,heq⟩ := Option.bind_eq_some_iff.mp hw
      obtain rfl : t₁ = t' := congrArg Prod.fst (Option.some.inj heq)
      exact h.update hu hfew
    · next p hlookup =>
      obtain rfl : _ = t' := congrArg Prod.fst (Option.some.inj hw)
      exact h.remove (h.mem_of_lookup hlookup)

/-- Every write but a line with stamps. -/
theorem InOrder.recentMtProcWrite (h : t.InOrder jiffies)
    {in6Pton : Bytes → Option UInt8 → Option NfInetAddr} {ipListTot : ℕ} {input stack : Bytes}
    {kmalloc : Option Ptr} {ret : Int} (hstar : input.head? ≠ some 42)
    (hw : t.recentMtProcWrite in6Pton ipListTot jiffies input stack kmalloc = some (t',ret))
    (hfew : t'.Few) : t'.InOrder jiffies := by
  unfold LiveTable.recentMtProcWrite at hw
  dsimp only at hw
  split at hw
  · obtain rfl : t = t' := congrArg Prod.fst (Option.some.inj hw)
    exact h
  · split at hw
    · obtain rfl : t = t' := congrArg Prod.fst (Option.some.inj hw)
      exact h
    · obtain rfl : _ = t' := congrArg Prod.fst (Option.some.inj hw)
      exact h.flush
    · exact h.writeAddress hw hfew
    · exact h.writeAddress hw hfew
    · exact absurd rfl hstar
    · obtain rfl : t = t' := congrArg Prod.fst (Option.some.inj hw)
      exact h

end InOrder

/-- The entries that a line for this address leaves alone. -/
def others (t : LiveTable nstampsMaxMask) (ipListTot : ℕ) (addr : NfInetAddr) : List Ptr :=
  match t.recentEntryLookup addr 0 with
  | some p => t.lruList.erase p
  | none => if ipListTot ≤ t.entries then t.lruList.tail else t.lruList

/-- The stamps of a line find an entry, or a new one is made for them. -/
def Stores (t : LiveTable nstampsMaxMask) (addr : NfInetAddr) (ttl : Int) (kmalloc : Option Ptr) :
    Prop :=
  t.recentEntryLookup addr 0 ≠ none ∨ ttlOf ttl ≠ none ∧ kmalloc ≠ none

/-- The last stamp of a line is not older than any of an entry that it leaves alone. -/
def Newest (t : LiveTable nstampsMaxMask) (ipListTot : ℕ) (addr : NfInetAddr)
    (stamps : List UInt64) : Prop :=
  ∀ last ∈ stamps.getLast?, t.UsedBy (t.others ipListTot addr) last

section Stored
variable {t t' : LiveTable nstampsMaxMask} {jiffies : UInt64} {ipListTot : ℕ} {addr : NfInetAddr}
  {ttl : Int} {stamps : List UInt64} {kmalloc : Option Ptr}

theorem usedBy_evict {t₁ : LiveTable nstampsMaxMask} (h : t.WellFormed)
    (hlookup : t.recentEntryLookup addr 0 = none)
    (hevict : t.recentEntryEvict ipListTot = some t₁) (last : UInt64) :
    t₁.UsedBy t₁.lruList last ↔ t.UsedBy (t.others ipListTot addr) last := by
  unfold others
  rw [hlookup]
  dsimp only
  unfold recentEntryEvict at hevict
  split at hevict
  · next hfull =>
    obtain ⟨p,hp,rfl⟩ := Option.map_eq_some_iff.mp hevict
    obtain ⟨rest,hrest⟩ := List.head?_eq_some_iff.mp hp
    have hout : p ∉ rest := by
      have hnodup := h.nodup
      rw [hrest] at hnodup
      exact (List.nodup_cons.mp hnodup).1
    have hsame : ∀ q ∈ rest, (t.recentEntryRemove p).mostRecent q = t.mostRecent q := by
      intro q hq
      rw [mostRecent_remove, if_neg (fun (heq : q = p) => hout (heq ▸ hq))]
    rw [if_pos hfull, lruList_remove, hrest, List.erase_cons_head, List.tail_cons]
    constructor
    · intro hused q hq stamp hstamp
      exact hused q hq stamp ((hsame q hq).trans hstamp)
    · intro hused q hq stamp hstamp
      rw [hsame q hq] at hstamp
      exact hused q hq stamp hstamp
  · next hroom =>
    obtain rfl := Option.some.inj hevict
    rw [if_neg hroom]

/-- The most recent stamp of an entry to which a line has been written. -/
theorem InOrder.updated (h : t.InOrder jiffies) {p : Ptr} {e : RecentEntry nstampsMaxMask}
    (he : t.heap p = some e) {last : UInt64} (hlast : stamps.getLast? = some last)
    (hfew : (t.touched p (updateAll e stamps)).Few) :
    (updateAll e stamps).Indexed ∧ (updateAll e stamps).mostRecent = some last := by
  have hcount := hfew p _ (heap_touched_self t p _)
  obtain ⟨hindexed,hrecent⟩ := (h.indexed p e he).updateAll hcount
  rw [hlast] at hrecent
  exact ⟨hindexed,hrecent⟩

theorem inserted {t₁ : LiveTable nstampsMaxMask} {p : Ptr} {ttl₁ : UInt8} {stamp last : UInt64}
    {rest : List UInt64} (hlast : (stamp::rest).getLast? = some last)
    (hfew : (t₁.linked p (updateAll (Kernel.recentEntryInit nstampsMaxMask addr ttl₁ stamp) rest)).Few) :
    (updateAll (Kernel.recentEntryInit nstampsMaxMask addr ttl₁ stamp) rest).Indexed ∧
      (updateAll (Kernel.recentEntryInit nstampsMaxMask addr ttl₁ stamp) rest).mostRecent = some last := by
  have hcount := hfew p _ (heap_linked_self t₁ p _)
  obtain ⟨hindexed,hrecent⟩ := (indexed_init addr ttl₁ stamp).updateAll hcount
  refine ⟨hindexed,hrecent.trans ?_⟩
  rw [← hlast, mostRecent_init, List.getLast?_cons]
  cases rest.getLast? <;> rfl

/-- A line whose last stamp is the newest keeps the order. -/
theorem InOrder.stored (h : t.InOrder jiffies)
    (hs : Stored t ipListTot addr ttl stamps kmalloc t') (hpast : ∀ stamp ∈ stamps, stamp ≤ jiffies)
    (hfew : t'.Few) (hnewest : t.Stores addr ttl kmalloc → t.Newest ipListTot addr stamps) :
    t'.InOrder jiffies := by
  cases hs with
  | nothing hnothing => exact h
  | update hlookup he hne =>
    obtain ⟨last,hlast⟩ : ∃ last, stamps.getLast? = some last := ⟨_,List.getLast?_eq_some_getLast hne⟩
    obtain ⟨hindexed,hrecent⟩ := h.updated he hlast hfew
    have hused := hnewest (.inl (by simp [hlookup])) _ hlast
    unfold others at hused
    rw [hlookup] at hused
    exact h.touched (h.mem_of_lookup hlookup) hindexed hrecent
      (hpast _ (List.mem_of_getLast? hlast)) hused
  | insert hlookup hevict hp hkmalloc httl hstamps =>
    have hne : stamps ≠ [] := by
      rw [hstamps]
      exact List.cons_ne_nil _ _
    obtain ⟨last,hlast⟩ : ∃ last, stamps.getLast? = some last := ⟨_,List.getLast?_eq_some_getLast hne⟩
    have hused := hnewest (.inr ⟨by simp [httl],by simp [hkmalloc]⟩) _ hlast
    have hle := hpast _ (List.mem_of_getLast? hlast)
    rw [hstamps] at hlast
    obtain ⟨hindexed,hrecent⟩ := inserted hlast hfew
    exact (h.evict hevict).linked hp hindexed hrecent hle
      ((usedBy_evict h.wellFormed hlookup hevict _).mpr hused)
  | evict hlookup hevict hkmalloc => exact h.evict hevict

/-- A line whose last stamp is not the newest breaks it. -/
theorem InOrder.newest_of_sorted (h : t.InOrder jiffies)
    (hs : Stored t ipListTot addr ttl stamps kmalloc t') (hfew : t'.Few) (hsorted : t'.Sorted)
    (hstores : t.Stores addr ttl kmalloc) : t.Newest ipListTot addr stamps := by
  intro last hlast
  cases hs with
  | nothing hnothing =>
    rcases hnothing with rfl | ⟨hlookup,httl⟩
    · contradiction
    · rcases hstores with hfound | ⟨hvalid,-⟩
      · exact absurd hlookup hfound
      · exact absurd httl hvalid
  | update hlookup he hne =>
    obtain ⟨-,hrecent⟩ := h.updated he hlast hfew
    unfold others
    rw [hlookup]
    exact (sorted_touched_iff h.wellFormed h.sorted hrecent).mp hsorted
  | insert hlookup hevict hp hkmalloc httl hstamps =>
    rw [hstamps] at hlast
    obtain ⟨-,hrecent⟩ := inserted hlast hfew
    have h₁ := h.evict hevict
    exact (usedBy_evict h.wellFormed hlookup hevict last).mp
      ((sorted_linked_iff h₁.wellFormed h₁.sorted hp hrecent).mp hsorted)
  | evict hlookup hevict hkmalloc =>
    rcases hstores with hfound | ⟨-,hgiven⟩
    · exact absurd hlookup hfound
    · exact absurd hkmalloc hgiven

end Stored

end LiveTable

/-- A table and the time. -/
structure RecentState (nstampsMaxMask : UInt8) where
  table : LiveTable nstampsMaxMask := {}
  jiffies : UInt64

/-- What happens at a table: time passes, a rule sees a packet, an address is written or the
table is flushed, and the daemon writes one of its entries. -/
inductive TableEvent
  | tick (jiffies : UInt64)
  | packet (info : RecentMtinfo) (addrMask : NfInetAddr) (ttl : UInt8) (kmalloc : Option Ptr)
  | write (input stack : Bytes) (kmalloc : Option Ptr)
  | writeRecentData (addr : NfInetAddr) (ttl : Int) (timestamps : List UInt64) (stack : Bytes)
    (kmalloc : Option Ptr)

namespace RecentState

/-- One step. The stamps of the daemon are sorted and not in the future. -/
def step (m : RecentModule) (s : RecentState nstampsMaxMask) :
    TableEvent → Option (RecentState nstampsMaxMask)
  | .tick jiffies => if s.jiffies ≤ jiffies then some { s with jiffies } else none
  | .packet info addrMask ttl kmalloc =>
    (s.table.recentMt m.ipListTot m.hz s.jiffies info addrMask ttl kmalloc).map fun r =>
      { s with table := r.1 }
  | .write input stack kmalloc =>
    if input.head? ≠ some 42 then
      (s.table.recentMtProcWrite m.in6Pton m.ipListTot s.jiffies input stack kmalloc).map fun r =>
        { s with table := r.1 }
    else none
  | .writeRecentData addr ttl timestamps stack kmalloc =>
    if timestamps.Pairwise (· ≤ ·) ∧ timestamps.all (fun stamp => stamp ≤ s.jiffies) = true then
      (s.table.recentMtProcWrite m.in6Pton m.ipListTot s.jiffies
        (updateLine addr.text ttl timestamps) stack kmalloc).map fun r => { s with table := r.1 }
    else none

/-- A line that is taken carries the newest stamp of the table, and NUL is behind it. -/
def Newest (m : RecentModule) (s : RecentState nstampsMaxMask) : TableEvent → Prop
  | .writeRecentData addr ttl timestamps stack kmalloc =>
    cString stack = [] ∧
      ((updateLine addr.text ttl timestamps).length ≤ 421 ∧ addr.IsIpv4 ∧
          s.table.Stores addr ttl kmalloc →
        s.table.Newest m.ipListTot addr timestamps)
  | _ => True

/-- No entry comes to hold too many stamps. -/
def StaysFew (m : RecentModule) (s : RecentState nstampsMaxMask) (e : TableEvent) : Prop :=
  ∀ s', s.step m e = some s' → s'.table.Few

def InOrder (s : RecentState nstampsMaxMask) : Prop := s.table.InOrder s.jiffies

section Run
variable {m : RecentModule} {s s' : RecentState nstampsMaxMask}

/-- What a line of the daemon with NUL behind it does. -/
theorem writeRecentData_cases {addr : NfInetAddr} {ttl : Int} {timestamps : List UInt64}
    {stack : Bytes} {kmalloc : Option Ptr} (h : s.InOrder) (hnul : cString stack = [])
    (hs : s.step m (.writeRecentData addr ttl timestamps stack kmalloc) = some s') :
    (∀ stamp ∈ timestamps, stamp ≤ s.jiffies) ∧ s'.jiffies = s.jiffies ∧
      (((updateLine addr.text ttl timestamps).length ≤ 421 ∧ addr.IsIpv4) ∧
          LiveTable.Stored s.table m.ipListTot addr ttl timestamps kmalloc s'.table ∨
        ¬((updateLine addr.text ttl timestamps).length ≤ 421 ∧ addr.IsIpv4) ∧
          s'.table = s.table) := by
  simp only [step] at hs
  split at hs
  · next hdomain =>
    obtain ⟨⟨t,ret⟩,hw,rfl⟩ := Option.map_eq_some_iff.mp hs
    have hpast : ∀ stamp ∈ timestamps, stamp ≤ s.jiffies := fun stamp hmem =>
      of_decide_eq_true (List.all_eq_true.mp hdomain.2 stamp hmem)
    refine ⟨hpast,rfl,?_⟩
    rw [LiveTable.recentMtProcWrite_updateLine _ _ _ _ _ _ _ hnul] at hw
    split at hw
    · next hbad =>
      obtain rfl : s.table = t := congrArg Prod.fst (Option.some.inj hw)
      refine .inr ⟨fun hgood => ?_,rfl⟩
      rcases hbad with hlong | hip6
      · exact absurd hgood.1 (Nat.not_le_of_lt hlong)
      · exact hip6 hgood.2
    · next hgood =>
      rw [not_or, not_not, Nat.not_lt] at hgood
      exact .inl ⟨hgood,h.wellFormed.storeStamps hw⟩
  · contradiction

theorem InOrder.step {e : TableEvent} (h : s.InOrder) (hnewest : s.Newest m e)
    (hfew : s.StaysFew m e) (hs : s.step m e = some s') : s'.InOrder := by
  replace hfew := hfew s' hs
  cases e with
  | tick jiffies =>
    simp only [RecentState.step] at hs
    split at hs
    · next hle =>
      obtain rfl := Option.some.inj hs
      exact LiveTable.InOrder.later h hle
    · contradiction
  | packet info addrMask ttl kmalloc =>
    obtain ⟨⟨t,r⟩,hm,rfl⟩ := Option.map_eq_some_iff.mp hs
    exact LiveTable.InOrder.recentMt h hm hfew
  | write input stack kmalloc =>
    simp only [RecentState.step] at hs
    split at hs
    · next hstar =>
      obtain ⟨⟨t,ret⟩,hw,rfl⟩ := Option.map_eq_some_iff.mp hs
      exact LiveTable.InOrder.recentMtProcWrite h hstar hw hfew
    · contradiction
  | writeRecentData addr ttl timestamps stack kmalloc =>
    obtain ⟨hpast,hjiffies,hcases⟩ := writeRecentData_cases h hnewest.1 hs
    unfold InOrder
    rw [hjiffies]
    rcases hcases with ⟨⟨hlen,hip4⟩,hstored⟩ | ⟨-,hsame⟩
    · exact LiveTable.InOrder.stored h hstored hpast hfew
        fun hstores => hnewest.2 ⟨hlen,hip4,hstores⟩
    · rw [hsame]
      exact h

/-- The list is in the order of the most recent stamps in every state of a run in which each
line of the daemon carries the newest stamp, and a line that does not breaks it. -/
theorem lru_ordered {jiffies : UInt64}
    (hr : Runs.Reach (step m) (fun s e => s.StaysFew m e ∧ s.Newest m e)
      ({ jiffies } : RecentState nstampsMaxMask) s) :
    s.table.LruOrdered ∧ ∀ addr ttl timestamps stack kmalloc s', cString stack = [] →
      s.step m (.writeRecentData addr ttl timestamps stack kmalloc) = some s' → s'.table.Few →
        (s'.table.LruOrdered ↔ s.Newest m (.writeRecentData addr ttl timestamps stack kmalloc)) := by
  have hinv := hr.invariant InOrder (LiveTable.inOrder_empty jiffies)
    fun _ _ _ h hok hs => h.step hok.2 hok.1 hs
  refine ⟨hinv.lruOrdered,fun addr ttl timestamps stack kmalloc s' hnul hs hfew => ?_⟩
  have hstays : s.StaysFew m (.writeRecentData addr ttl timestamps stack kmalloc) := by
    intro s'' hs''
    rw [← Option.some.inj (hs.symm.trans hs'')]
    exact hfew
  constructor
  · intro hordered
    refine ⟨hnul,fun ⟨hlen,hip4,hstores⟩ => ?_⟩
    obtain ⟨-,-,⟨-,hstored⟩ | ⟨hbad,-⟩⟩ := writeRecentData_cases hinv hnul hs
    · exact LiveTable.InOrder.newest_of_sorted hinv hstored hfew hordered.sorted hstores
    · exact absurd ⟨hlen,hip4⟩ hbad
  · intro hnewest
    exact LiveTable.InOrder.lruOrdered (hinv.step hnewest hstays hs)

end Run

section Samples

theorem staysFew_of_mask (m : RecentModule) (s : RecentState nstampsMaxMask) (e : TableEvent)
    (hmask : nstampsMaxMask.toNat ≤ 127) : s.StaysFew m e :=
  fun _ _ _ entry _ => entry.nstamps_le.trans (Nat.succ_le_succ hmask)

/-- The default parameters, and no address of IPv6. -/
def sampleModule : RecentModule := ⟨100,by decide,250,fun _ _ => none⟩

def line (a : UInt8) (timestamps : List UInt64) (p : Ptr) : TableEvent :=
  .writeRecentData (.ip a a a a) 64 timestamps [0] (some p)

/-- A table is flushed, two entries are written to it, and a packet of the first one arrives. -/
def flushed : RecentState 31 := { jiffies := 1000 }

def written : RecentState 31 := (flushed.step sampleModule (line 1 [50,60] 0)).getD flushed

def filled : RecentState 31 := (written.step sampleModule (line 2 [70,80] 1)).getD flushed

def setPacket : TableEvent := .packet { set := true } (.ip 1 1 1 1) 64 none

def matched : RecentState 31 := (filled.step sampleModule setPacket).getD flushed

theorem newest_flushed : flushed.Newest sampleModule (line 1 [50,60] 0) :=
  ⟨rfl,fun _ _ _ _ hq => absurd hq List.not_mem_nil⟩

theorem newest_written : written.Newest sampleModule (line 2 [70,80] 1) := by
  refine ⟨rfl,fun _ last hlast q hq stamp hstamp => ?_⟩
  have hothers : written.table.others sampleModule.ipListTot (.ip 2 2 2 2) = [0] := rfl
  have hrecent : written.table.mostRecent 0 = some 60 := rfl
  rw [hothers, List.mem_singleton] at hq
  rw [hq, hrecent] at hstamp
  rw [← Option.some.inj hstamp, ← Option.some.inj hlast]
  decide

theorem reach_matched : Runs.Reach (step sampleModule)
    (fun s e => s.StaysFew sampleModule e ∧ s.Newest sampleModule e) { jiffies := 0 } matched := by
  have hfew : ∀ (s : RecentState 31) e, s.StaysFew sampleModule e :=
    fun s e => staysFew_of_mask sampleModule s e (by decide)
  have htick : step sampleModule ({ jiffies := 0 } : RecentState 31) (.tick 1000) = some flushed := rfl
  have hflush : flushed.step sampleModule (.write [47] [0] none) = some flushed := rfl
  have hfirst : flushed.step sampleModule (line 1 [50,60] 0) = some written := rfl
  have hsecond : written.step sampleModule (line 2 [70,80] 1) = some filled := rfl
  have hpacket : filled.step sampleModule setPacket = some matched := rfl
  have hstart : Runs.Reach (step sampleModule)
      (fun s e => s.StaysFew sampleModule e ∧ s.Newest sampleModule e) { jiffies := 0 } flushed :=
    .next .start ⟨hfew _ (.tick 1000),trivial⟩ htick
  exact (((hstart.next ⟨hfew _ (.write [47] [0] none),trivial⟩ hflush).next ⟨hfew _ _,newest_flushed⟩ hfirst).next
    ⟨hfew _ _,newest_written⟩ hsecond).next ⟨hfew _ setPacket,trivial⟩ hpacket

/-- The second entry written once more, with a stamp from before the packet. -/
def rewritten : RecentState 31 := (matched.step sampleModule (line 2 [90] 2)).getD flushed

theorem lru_ordered_matched :
    matched.table.lruList = [1,0] ∧ matched.table.LruOrdered ∧ ¬rewritten.table.LruOrdered := by
  obtain ⟨hordered,hline⟩ := lru_ordered reach_matched
  have hstep : matched.step sampleModule (line 2 [90] 2) = some rewritten := rfl
  have hfew : rewritten.table.Few := staysFew_of_mask sampleModule matched _ (by decide) _ hstep
  refine ⟨rfl,hordered,fun h => ?_⟩
  have hnewest := (hline _ _ _ _ _ rewritten rfl hstep hfew).mp h
  have hstores : matched.table.Stores (.ip 2 2 2 2) 64 (some 2) := .inr ⟨by decide,by decide⟩
  have hused := hnewest.2 ⟨by decide,trivial,hstores⟩ 90 rfl 0 (by decide) 1000 rfl
  exact absurd hused (by decide)

/-- The daemon's lines after a flush, in the order of their addresses. -/
def brokenRun : List TableEvent := [.tick 1000,.write [47] [0] none,line 1 [100] 0,line 2 [50] 1]

def broken : RecentState 31 :=
  (Runs.run (step sampleModule) { jiffies := 0 } brokenRun).getD flushed

theorem lru_order_broken : ¬∀ s : RecentState 31,
    Runs.Reach (step sampleModule) (fun s e => s.StaysFew sampleModule e) { jiffies := 0 } s →
      s.table.LruOrdered := by
  intro h
  have hrun : Runs.run (step sampleModule) { jiffies := 0 } brokenRun = some broken := rfl
  have hreach := Runs.reach_of_run hrun fun s e _ => staysFew_of_mask sampleModule s e (by decide)
  have hsorted := (h broken hreach).sorted
  have hlist : broken.table.lruList = [0,1] := rfl
  unfold LiveTable.Sorted at hsorted
  rw [hlist] at hsorted
  have hle := (List.pairwise_cons.mp hsorted).1 1 (List.mem_singleton_self 1) 100 50 rfl rfl
  exact absurd hle (by decide)

end Samples

end RecentState
end Kernel
end Ssyncd
