import Ssyncd.Kernel.Copy
import Ssyncd.Kernel.RelatedCaches
import Ssyncd.Kernel.TableFaults

/-! A table that was made of the entries of another one. It holds the same addresses in another order, so
rules that neither find it full nor reap cannot tell it from the other. -/
namespace Ssyncd
namespace Kernel

variable {nstampsMaxMask : UInt8}

section Mirrors
variable {e e' : RecentEntry nstampsMaxMask}

theorem mostRecent_update (hmask : nstampsMaxMask ∈ shortMasks) (e : RecentEntry nstampsMaxMask)
    (nstamp : UInt64) : (recentEntryUpdate e nstamp).mostRecent = some nstamp := by
  have hlt : (e.index &&& nstampsMaxMask).toNat < e.stamps.length := by
    rw [e.stamps_length]
    exact Nat.lt_succ_of_le (toNat_and_le _)
  rw [RecentEntry.mostRecent, if_neg (index_update_ne_zero hmask e nstamp),
    index_update (cell_fits hmask e.index) nstamp]
  exact List.getElem?_set_self hlt

theorem visible_updateAll_setTtl (e : RecentEntry nstampsMaxMask) (ttl : UInt8) (stamps : List UInt64) :
    (updateAll { e with ttl } stamps).visible = (updateAll e stamps).visible := by
  have hall : updateAll { e with ttl } stamps = { updateAll e stamps with ttl } := by
    induction stamps generalizing e with
    | nil => rfl
    | cons stamp stamps ih => exact ih (recentEntryUpdate e stamp)
  rw [hall]
  rfl

theorem RecentEntry.mirrors_refl (e : RecentEntry nstampsMaxMask) : e.Mirrors e where
  addr := rfl
  ttl := rfl
  nstamps := rfl
  visible := List.Perm.refl _
  mostRecent := rfl
  later _ := List.Perm.refl _

theorem RecentEntry.Mirrors.update (h : e.Mirrors e') (hmask : nstampsMaxMask ∈ shortMasks)
    (nstamp : UInt64) : (recentEntryUpdate e nstamp).Mirrors (recentEntryUpdate e' nstamp) where
  addr := h.addr
  ttl := h.ttl
  nstamps := by
    have hlen := (h.later [nstamp]).length_eq
    rw [RecentEntry.length_visible, RecentEntry.length_visible] at hlen
    exact UInt16.toNat_inj.mp hlen
  visible := h.later [nstamp]
  mostRecent := (mostRecent_update hmask e' nstamp).trans (mostRecent_update hmask e nstamp).symm
  later stamps := h.later (nstamp::stamps)

theorem RecentEntry.Mirrors.setTtl (h : e.Mirrors e') (ttl : UInt8) :
    RecentEntry.Mirrors { e with ttl } { e' with ttl } where
  addr := h.addr
  ttl := rfl
  nstamps := h.nstamps
  visible := h.visible
  mostRecent := h.mostRecent
  later stamps := by
    rw [visible_updateAll_setTtl e, visible_updateAll_setTtl e']
    exact h.later stamps

/-- Entries that mirror each other do so whatever is written to them. -/
theorem mirrors_respects (hmask : nstampsMaxMask ∈ shortMasks) :
    Respects (@RecentEntry.Mirrors nstampsMaxMask) where
  init _ _ _ := RecentEntry.mirrors_refl _
  update h nstamp := h.update hmask nstamp
  setTtl h ttl := h.setTtl ttl
  ttl h := h.ttl.symm
  mostRecent h := h.mostRecent.symm

theorem RecentEntry.Mirrors.hit (h : e.Mirrors e') (info : RecentMtinfo) (hz : UInt32) (jiffies : UInt64) :
    Visited.hit e info hz jiffies = Visited.hit e' info hz jiffies := by
  change e.hit info (windowStart info hz jiffies) = e'.hit info (windowStart info hz jiffies)
  rw [RecentEntry.hit_eq, RecentEntry.hit_eq, h.visible.countP_eq]

end Mirrors

namespace RecentCache
section Alike
variable {V W : Type} [Visited V] [Visited W] {R : V → W → Prop} {c : RecentCache V} {d : RecentCache W}
  {ipListTot : ℕ}

/-- Without a reap a rule does not ask for the order of a cache that has room. -/
theorem alike_recentMt (hr : Respects R) (h : Lru.Cache.Alike R c d) (hroom : c.size < ipListTot)
    {hz : UInt32} {jiffies : UInt64} {info : RecentMtinfo} (hreap : info.reap = false) {addr : NfInetAddr}
    (hhit : ∀ v w, c.get addr = some v → d.get addr = some w →
      Visited.hit v info hz jiffies = Visited.hit w info hz jiffies) (ttl : UInt8) (allocated : Bool) :
    Lru.Cache.Alike R (c.recentMt ipListTot hz jiffies info addr ttl allocated).1
        (d.recentMt ipListTot hz jiffies info addr ttl allocated).1 ∧
      (c.recentMt ipListTot hz jiffies info addr ttl allocated).2 =
        (d.recentMt ipListTot hz jiffies info addr ttl allocated).2 := by
  have hdiscard : Lru.Cache.Alike R (c.discard hz jiffies info addr) (d.discard hz jiffies info addr) := by
    unfold discard
    rw [hreap, Bool.and_false, if_neg Bool.false_ne_true, if_neg Bool.false_ne_true]
    split
    · exact h
    · split
      · exact h.erase addr
      · exact h
  refine rel_recentMt hr (h addr) hhit ttl (fun v w hvalues => ?_) h hdiscard
    fun v w hvalues => hdiscard.use addr hvalues
  have hroom' : d.size < ipListTot := h.size ▸ hroom
  unfold insert
  rw [Lru.Cache.evict_of_lt hroom, Lru.Cache.evict_of_lt hroom']
  split
  · exact h.use addr hvalues
  · exact h

end Alike
end RecentCache

/-- A packet that two tables see, each with its own allocations, which both succeed or both fail. -/
inductive SamePacket : Access → Access → Prop
  | mk (jiffies : UInt64) (info : RecentMtinfo) (addrMask : NfInetAddr) (ttl : UInt8)
    {kmalloc kmalloc' : Option Ptr} (h : kmalloc.isSome = kmalloc'.isSome) :
    SamePacket (.packet jiffies info addrMask ttl kmalloc) (.packet jiffies info addrMask ttl kmalloc')

/-- A rule in use that does not reap, and that does not find the table full. -/
def Uncrowded (m : RecentModule) (s : LiveTable nstampsMaxMask × List Answer) (a : Access) : Prop :=
  s.1.entries < m.ipListTot ∧ a.Plain ∧ a.OneFlag ∧ ¬a.Reaps

/-- Tables that hold the same addresses, with entries that mirror each other. -/
def Twins (t t' : LiveTable nstampsMaxMask) : Prop :=
  ∃ c c' : RecentCache (RecentEntry nstampsMaxMask),
    t.Holds c ∧ t'.Holds c' ∧ Lru.Cache.Alike RecentEntry.Mirrors c c'

section Twins
variable {m : RecentModule} {s s₁ s' : LiveTable nstampsMaxMask × List Answer} {a a' : Access}

/-- A packet matches in both tables or in none, and they stay alike. -/
theorem Twins.serve (h : Twins s.1 s'.1) (hmask : nstampsMaxMask ∈ shortMasks) (hsame : SamePacket a a')
    (huncrowded : Uncrowded m s a) (hfresh : s'.1.Fresh m.ipListTot a'.kmalloc)
    (hs : LiveTable.serve m s a = some s₁) :
    ∃ t₁' answer, LiveTable.serve m s' a' = some (t₁',s'.2 ++ [answer]) ∧ s₁.2 = s.2 ++ [answer] ∧
      Twins s₁.1 t₁' := by
  obtain ⟨c,c',hc,hc',halike⟩ := h
  obtain ⟨hroom,hplain,hone,hreaps⟩ := huncrowded
  cases hsame with
  | @mk jiffies info addrMask ttl kmalloc kmalloc' hsome =>
    have hreap : info.reap = false := Bool.eq_false_iff.mpr hreaps
    have hplain' : (Access.packet jiffies info addrMask ttl kmalloc').Plain := hplain
    have hone' : (Access.packet jiffies info addrMask ttl kmalloc').OneFlag := hone
    obtain ⟨⟨t₁,answer₁⟩,haccess,rfl⟩ := Option.map_eq_some_iff.mp hs
    obtain ⟨hheld,rfl⟩ := hc.access hplain haccess
    have hruns : s'.1.access m (.packet jiffies info addrMask ttl kmalloc') ≠ none := by
      intro hnone
      obtain ⟨v,-,-,hfaults,-⟩ := (hc'.access_eq_none_iff hone' hfresh).mp hnone
      exact hreaps hfaults
    obtain ⟨⟨t₁',answer₁'⟩,haccess'⟩ := Option.ne_none_iff_exists'.mp hruns
    obtain ⟨hheld',rfl⟩ := hc'.access hplain' haccess'
    have hhit : ∀ v w, c.get addrMask = some v → c'.get addrMask = some w →
        Visited.hit v info m.hz jiffies = Visited.hit w info m.hz jiffies := by
      intro v w hv hw
      have hrel := halike addrMask
      rw [hv, hw] at hrel
      cases hrel with
      | some hmirrors => exact hmirrors.hit info m.hz jiffies
    obtain ⟨halike',hanswer⟩ := RecentCache.alike_recentMt (mirrors_respects hmask) halike
      (hc.size ▸ hroom) hreap hhit ttl kmalloc.isSome
    refine ⟨t₁',_,by rw [LiveTable.serve, haccess', Option.map_some],?_,_,_,hheld,hheld',?_⟩
    · refine congrArg (fun answer => s.2 ++ [answer]) ?_
      unfold RecentCache.access
      dsimp only
      rw [← hsome]
      exact congrArg (fun r : Bool × Bool => Answer.packet r.1 r.2) hanswer
    · unfold RecentCache.access
      dsimp only
      rw [← hsome]
      exact halike'

/-- A run on one of two tables that are alike can be had on the other, with the same answers. -/
theorem Twins.run (h : Twins s.1 s'.1) (hanswers : s.2 = s'.2) (hmask : nstampsMaxMask ∈ shortMasks)
    {packets packets' : List Access} (hsame : List.Forall₂ SamePacket packets packets')
    (huncrowded : Runs.Meets (LiveTable.serve m) (Uncrowded m) s packets)
    (hfresh : Runs.Meets (LiveTable.serve m) (fun s a => s.1.Fresh m.ipListTot a.kmalloc) s' packets')
    (hrun : Runs.run (LiveTable.serve m) s packets = some s₁) :
    ∃ t₁', Runs.run (LiveTable.serve m) s' packets' = some (t₁',s₁.2) ∧ Twins s₁.1 t₁' := by
  induction hsame generalizing s s' with
  | nil =>
    obtain rfl : s = s₁ := Option.some.inj hrun
    exact ⟨s'.1,by rw [hanswers]; rfl,h⟩
  | cons hfirst _ ih =>
    obtain ⟨s₂,hs,hrest⟩ := Option.bind_eq_some_iff.mp hrun
    obtain ⟨t₂',answer,hs',hanswer,htwins⟩ := h.serve hmask hfirst huncrowded.1 hfresh.1 hs
    have hsame₂ : s₂.2 = s'.2 ++ [answer] := by rw [hanswer, hanswers]
    obtain ⟨t₁',hrun',hend⟩ := @ih s₂ (t₂',s'.2 ++ [answer]) htwins hsame₂ (huncrowded.2 s₂ hs)
      (hfresh.2 _ hs') hrest
    exact ⟨t₁',by rw [Runs.run, hs', Option.bind_some, hrun'],hend⟩

end Twins
end Kernel
end Ssyncd
