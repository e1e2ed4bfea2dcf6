import Ssyncd.Kernel.RecentCache

/-! Caches of the same addresses that keep different values for them. While the values of an address
answer alike, so do the caches. -/
namespace Ssyncd
namespace Kernel

/-- Values that stay related whatever a table makes of them. -/
structure Respects {V W : Type} [Visited V] [Visited W] (R : V → W → Prop) : Prop where
  init : ∀ addr ttl nstamp, R (Visited.init addr ttl nstamp) (Visited.init addr ttl nstamp)
  update : ∀ {v w}, R v w → ∀ nstamp, R (Visited.update v nstamp) (Visited.update w nstamp)
  setTtl : ∀ {v w}, R v w → ∀ ttl, R (Visited.setTtl v ttl) (Visited.setTtl w ttl)
  ttl : ∀ {v w}, R v w → Visited.ttl v = Visited.ttl w
  mostRecent : ∀ {v w}, R v w → Visited.mostRecent v = Visited.mostRecent w

/-- The values of the address of a packet are as often hit as each other. -/
def HitsAgree {V W : Type} [Visited V] [Visited W] (m : RecentModule) (c : RecentCache V)
    (d : RecentCache W) : Access → Prop
  | .packet jiffies info addrMask _ _ => ∀ v w, c.get addrMask = some v → d.get addrMask = some w →
      Visited.hit v info m.hz jiffies = Visited.hit w info m.hz jiffies
  | .write .. => True

namespace RecentCache
section Related
variable {V W : Type} [Visited V] [Visited W] {R : V → W → Prop} {c : RecentCache V}
  {d : RecentCache W} {v : V} {w : W} {ipListTot : ℕ}

theorem related_updateAll (hr : Respects R) (h : R v w) (nstamps : List UInt64) :
    R (Visited.updateAll v nstamps) (Visited.updateAll w nstamps) := by
  induction nstamps generalizing v w with
  | nil => exact h
  | cons nstamp nstamps ih => exact ih (hr.update h nstamp)

omit [Visited V] [Visited W] in
theorem related_insert (h : Lru.Cache.Related R c d) (addr : NfInetAddr) (hvalues : R v w)
    (allocated : Bool) :
    Lru.Cache.Related R (c.insert ipListTot addr v allocated) (d.insert ipListTot addr w allocated) := by
  unfold insert
  split
  · exact (h.evict ipListTot).use addr hvalues
  · exact h.evict ipListTot

/-- Related values of an address have the same ttl. -/
theorem rel_lookup (hr : Respects R) {addr : NfInetAddr} (hget : Option.Rel R (c.get addr) (d.get addr))
    (ttl : UInt8) : Option.Rel R (c.lookup addr ttl) (d.lookup addr ttl) := by
  unfold lookup
  generalize c.get addr = v at hget ⊢
  generalize d.get addr = w at hget ⊢
  cases hget with
  | none => exact Option.Rel.none
  | some hvalues =>
    rw [Option.filter_some, Option.filter_some, hr.ttl hvalues]
    split
    · exact Option.Rel.some hvalues
    · exact Option.Rel.none

theorem related_reap (hr : Respects R) (h : Lru.Cache.Related R c d) (time : UInt64) :
    Lru.Cache.Related R (c.reap time) (d.reap time) := by
  have hlast : (c.items.head?.bind fun item => Visited.mostRecent item.2) =
      d.items.head?.bind fun item => Visited.mostRecent item.2 := by
    have hhead := h.head
    revert hhead
    cases c.items.head? <;> cases d.items.head? <;> intro hhead <;> cases hhead
    · rfl
    · next hvalues => exact hr.mostRecent hvalues.2
  unfold reap
  rw [hlast]
  split
  · exact h.dropOldest
  · exact h

theorem related_discard (hr : Respects R) (h : Lru.Cache.Related R c d) (hz : UInt32)
    (jiffies : UInt64) (info : RecentMtinfo) (addr : NfInetAddr) :
    Lru.Cache.Related R (c.discard hz jiffies info addr) (d.discard hz jiffies info addr) := by
  unfold discard
  split
  · exact h
  · split
    · exact h.erase addr
    · split
      · exact related_reap hr h _
      · exact h

/-- A rule asks of a cache no more than the value of the address, and keeps what inserting, discarding and
using keep. -/
theorem rel_recentMt {Q : RecentCache V → RecentCache W → Prop} (hr : Respects R) {addr : NfInetAddr}
    (hget : Option.Rel R (c.get addr) (d.get addr)) {hz : UInt32} {jiffies : UInt64} {info : RecentMtinfo}
    (hhit : ∀ v w, c.get addr = some v → d.get addr = some w →
      Visited.hit v info hz jiffies = Visited.hit w info hz jiffies) (ttl : UInt8) {allocated : Bool}
    (hinsert : ∀ v w, R v w → Q (c.insert ipListTot addr v allocated) (d.insert ipListTot addr w allocated))
    (hsame : Q c d) (hdiscard : Q (c.discard hz jiffies info addr) (d.discard hz jiffies info addr))
    (huse : ∀ v w, R v w →
      Q ((c.discard hz jiffies info addr).use addr v) ((d.discard hz jiffies info addr).use addr w)) :
    Q (c.recentMt ipListTot hz jiffies info addr ttl allocated).1
        (d.recentMt ipListTot hz jiffies info addr ttl allocated).1 ∧
      (c.recentMt ipListTot hz jiffies info addr ttl allocated).2 =
        (d.recentMt ipListTot hz jiffies info addr ttl allocated).2 := by
  have hlookup := rel_lookup hr hget (if info.ttl then ttl else 0)
  unfold recentMt
  cases hc : c.lookup addr (if info.ttl then ttl else 0) with
  | none =>
    cases hd : d.lookup addr (if info.ttl then ttl else 0) with
    | none =>
      dsimp only
      split
      · exact ⟨hinsert _ _ (hr.init addr ttl jiffies),rfl⟩
      · exact ⟨hsame,rfl⟩
    | some w =>
      rw [hc, hd] at hlookup
      cases hlookup
  | some v =>
    cases hd : d.lookup addr (if info.ttl then ttl else 0) with
    | none =>
      rw [hc, hd] at hlookup
      cases hlookup
    | some w =>
      rw [hc, hd] at hlookup
      cases hlookup with
      | some hvalues =>
        have hverdict : verdict v hz jiffies info = verdict w hz jiffies info := by
          unfold verdict
          rw [hhit v w (get_of_lookup hc) (get_of_lookup hd)]
        dsimp only
        rw [hverdict]
        split
        · exact ⟨huse _ _ (hr.setTtl (hr.update hvalues jiffies) ttl),rfl⟩
        · exact ⟨hdiscard,rfl⟩

theorem related_writeAddress (hr : Respects R) (h : Lru.Cache.Related R c d)
    (in6Pton : Bytes → Option UInt8 → Option NfInetAddr) (jiffies : UInt64) (add : Bool) (line : Bytes)
    (size : ℕ) (allocated : Bool) :
    Lru.Cache.Related R (c.writeAddress in6Pton ipListTot jiffies add line size allocated).1
        (d.writeAddress in6Pton ipListTot jiffies add line size allocated).1 ∧
      (c.writeAddress in6Pton ipListTot jiffies add line size allocated).2 =
        (d.writeAddress in6Pton ipListTot jiffies add line size allocated).2 := by
  unfold writeAddress
  cases writtenAddr in6Pton (line.take (size-1)) with
  | none => exact ⟨h,rfl⟩
  | some addr =>
    have hget := h.get addr
    dsimp only
    revert hget
    cases c.get addr <;> cases d.get addr <;> intro hget <;> cases hget <;> cases add
    · exact ⟨h,rfl⟩
    · exact ⟨related_insert h addr (hr.init addr 0 jiffies) allocated,rfl⟩
    · exact ⟨h.erase addr,rfl⟩
    · next hvalues => exact ⟨h.use addr (hr.update hvalues jiffies),rfl⟩

theorem related_storeLine (hr : Respects R) (h : Lru.Cache.Related R c d) (parts : LineParts)
    (size : ℕ) (allocated : Bool) :
    Lru.Cache.Related R (c.storeLine ipListTot parts size allocated).1
        (d.storeLine ipListTot parts size allocated).1 ∧
      (c.storeLine ipListTot parts size allocated).2 = (d.storeLine ipListTot parts size allocated).2 := by
  unfold storeLine
  cases parts.addr with
  | none => exact ⟨h,rfl⟩
  | some addr =>
    have hget := h.get addr
    dsimp only
    revert hget
    cases c.get addr <;> cases d.get addr <;> intro hget <;> cases hget
    · dsimp only
      cases parts.ttl with
      | none => exact ⟨h,rfl⟩
      | some ttl =>
        cases parts.first with
        | none => exact ⟨h,rfl⟩
        | some nstamp =>
          exact ⟨related_insert h addr (related_updateAll hr (hr.init addr ttl nstamp) parts.later)
            allocated,rfl⟩
    · next hvalues =>
      dsimp only
      split
      · exact ⟨h,rfl⟩
      · exact ⟨h.use addr (related_updateAll hr hvalues parts.stamps),rfl⟩

/-- Related caches give the same answer, and stay related. -/
theorem related_access {m : RecentModule} (hr : Respects R) (h : Lru.Cache.Related R c d) {a : Access}
    (hhit : HitsAgree m c d a) : Lru.Cache.Related R (c.access m a).1 (d.access m a).1 ∧
      (c.access m a).2 = (d.access m a).2 := by
  cases a with
  | packet jiffies info addrMask ttl kmalloc =>
    have hdiscard := related_discard hr h m.hz jiffies info addrMask
    obtain ⟨hrel,heq⟩ := rel_recentMt hr (h.get addrMask) hhit ttl
      (fun v w hvalues => @related_insert V W R c d v w m.ipListTot h addrMask hvalues kmalloc.isSome) h
      hdiscard (fun _ _ hvalues => hdiscard.use addrMask hvalues)
    exact ⟨hrel,congrArg (fun r : Bool × Bool => Answer.packet r.1 r.2) heq⟩
  | write jiffies input stack kmalloc =>
    have hwrite : Lru.Cache.Related R
          (c.recentMtProcWrite m.in6Pton m.ipListTot jiffies input stack kmalloc.isSome).1
          (d.recentMtProcWrite m.in6Pton m.ipListTot jiffies input stack kmalloc.isSome).1 ∧
        (c.recentMtProcWrite m.in6Pton m.ipListTot jiffies input stack kmalloc.isSome).2 =
          (d.recentMtProcWrite m.in6Pton m.ipListTot jiffies input stack kmalloc.isSome).2 := by
      unfold recentMtProcWrite
      dsimp only
      split
      · exact ⟨h,rfl⟩
      · split
        · exact ⟨h,rfl⟩
        · exact ⟨Lru.Cache.related_empty,rfl⟩
        · exact related_writeAddress hr h _ _ _ _ _ _
        · exact related_writeAddress hr h _ _ _ _ _ _
        · unfold writeLine
          split
          · exact related_storeLine hr h _ _ _
          · exact ⟨h,rfl⟩
        · exact ⟨h,rfl⟩
    exact ⟨hwrite.1,congrArg Answer.write hwrite.2⟩

end Related
end RecentCache
end Kernel
end Ssyncd
