import Ssyncd.Kernel.RecentCache
import Ssyncd.Library.Runs

/-! The cache that a table holds: its list by last use leads to the entries, one for each address.
Whatever is asked of a table, its answer is that of this cache, and so is what it holds afterwards. -/
namespace Ssyncd
namespace Kernel

variable {nstampsMaxMask : UInt8}

namespace LiveTable

/-- The entries of these blocks under their addresses. -/
def itemsOf (heap : Ptr → Option (RecentEntry nstampsMaxMask)) (ps : List Ptr) :
    List (NfInetAddr × RecentEntry nstampsMaxMask) :=
  ps.filterMap fun p => (heap p).map fun e => (e.addr,e)

/-- The blocks of a table are linked as they should be, and lead to the entries of a cache, which
has no address twice. -/
structure Holds (t : LiveTable nstampsMaxMask) (c : RecentCache (RecentEntry nstampsMaxMask)) : Prop where
  wellFormed : t.WellFormed
  items : itemsOf t.heap t.lruList = c.items

section Holds
variable {t t' : LiveTable nstampsMaxMask} {c : RecentCache (RecentEntry nstampsMaxMask)} {p q : Ptr}
  {e e' : RecentEntry nstampsMaxMask} {ipListTot : ℕ} {kmalloc : Option Ptr}

theorem itemsOf_append (heap : Ptr → Option (RecentEntry nstampsMaxMask)) (ps qs : List Ptr) :
    itemsOf heap (ps ++ qs) = itemsOf heap ps ++ itemsOf heap qs := List.filterMap_append

theorem itemsOf_cons {heap : Ptr → Option (RecentEntry nstampsMaxMask)} (he : heap p = some e)
    (ps : List Ptr) : itemsOf heap (p::ps) = (e.addr,e)::itemsOf heap ps :=
  List.filterMap_cons_some (by rw [he, Option.map_some])

theorem itemsOf_congr {heap heap' : Ptr → Option (RecentEntry nstampsMaxMask)} {ps : List Ptr}
    (h : ∀ p ∈ ps, heap p = heap' p) : itemsOf heap ps = itemsOf heap' ps :=
  List.filterMap_congr fun p hp => by rw [h p hp]

theorem mem_itemsOf {heap : Ptr → Option (RecentEntry nstampsMaxMask)} {ps : List Ptr}
    {item : NfInetAddr × RecentEntry nstampsMaxMask} :
    item ∈ itemsOf heap ps ↔ ∃ p ∈ ps, heap p = some item.2 ∧ item.2.addr = item.1 := by
  obtain ⟨addr,e⟩ := item
  unfold itemsOf
  rw [List.mem_filterMap]
  refine exists_congr fun p => and_congr_right fun _ => ?_
  rw [Option.map_eq_some_iff]
  constructor
  · rintro ⟨e',he,heq⟩
    obtain ⟨rfl,rfl⟩ := Prod.mk.inj heq
    exact ⟨he,rfl⟩
  · rintro ⟨he,haddr⟩
    exact ⟨e,he,by rw [haddr]⟩

theorem holds_empty : Holds ({} : LiveTable nstampsMaxMask) .empty where
  wellFormed := wellFormed_empty
  items := rfl

theorem Holds.mem (h : t.Holds c) (he : t.heap p = some e) : p ∈ t.lruList :=
  (h.wellFormed.live p).mpr ⟨e,he⟩

theorem Holds.size (h : t.Holds c) : t.entries = c.size := by
  have hall : ∀ ps : List Ptr, (∀ p ∈ ps, ∃ e, t.heap p = some e) →
      (itemsOf t.heap ps).length = ps.length := by
    intro ps
    induction ps with
    | nil => exact fun _ => rfl
    | cons p ps ih =>
      intro hps
      obtain ⟨e,he⟩ := hps p (List.mem_cons_self ..)
      rw [itemsOf_cons he, List.length_cons, List.length_cons,
        ih fun q hq => hps q (List.mem_cons_of_mem _ hq)]
  rw [h.wellFormed.counted, Lru.Cache.size, ← h.items,
    hall t.lruList fun p hp => (h.wellFormed.live p).mp hp]

theorem Holds.get (h : t.Holds c) (he : t.heap p = some e) : c.get e.addr = some e := by
  rw [Lru.Cache.get_eq_some_iff, ← h.items, mem_itemsOf]
  exact ⟨p,h.mem he,he,rfl⟩

theorem Holds.exists_heap (h : t.Holds c) {addr : NfInetAddr} (hget : c.get addr = some e) :
    ∃ p, p ∈ t.lruList ∧ t.heap p = some e ∧ e.addr = addr := by
  rw [Lru.Cache.get_eq_some_iff, ← h.items, mem_itemsOf] at hget
  exact hget

/-- Where a block stands among the items. -/
theorem Holds.split (h : t.Holds c) (he : t.heap p = some e) :
    ∃ before after, t.lruList = before ++ p::after ∧ p ∉ before ∧ p ∉ after ∧
      c.items = itemsOf t.heap before ++ (e.addr,e)::itemsOf t.heap after := by
  obtain ⟨before,after,hlru⟩ := List.append_of_mem (h.mem he)
  have hnodup := h.wellFormed.nodup
  rw [hlru] at hnodup
  obtain ⟨-,hcons,hdisjoint⟩ := List.nodup_append.mp hnodup
  refine ⟨before,after,hlru,fun hb => hdisjoint p hb p (List.mem_cons_self ..) rfl,
    (List.nodup_cons.mp hcons).1,?_⟩
  rw [← h.items, hlru, itemsOf_append, itemsOf_cons he]

/-- Two blocks of one address are the same block. -/
theorem Holds.inj (h : t.Holds c) (hp : t.heap p = some e) (hq : t.heap q = some e')
    (haddr : e.addr = e'.addr) : p = q := by
  by_contra hne
  obtain ⟨before,after,hlru,-,-,hitems⟩ := h.split hp
  have hmem := h.mem hq
  rw [hlru] at hmem
  have hother : (e'.addr,e') ∈ itemsOf t.heap before ++ itemsOf t.heap after := by
    rcases List.mem_append.mp hmem with hb | ha
    · exact List.mem_append_left _ (mem_itemsOf.mpr ⟨q,hb,hq,rfl⟩)
    · rcases List.mem_cons.mp ha with heq | ha
      · exact absurd heq.symm hne
      · exact List.mem_append_right _ (mem_itemsOf.mpr ⟨q,ha,hq,rfl⟩)
  rw [← Lru.Cache.items_erase hitems, ← haddr] at hother
  have hgone := Lru.Cache.get_erase_self c e.addr
  rw [Lru.Cache.get_eq_some_iff.mpr hother] at hgone
  contradiction

theorem heap_ne_of_not_mem {t' : LiveTable nstampsMaxMask} {ps : List Ptr} (hout : p ∉ ps)
    (hheap : ∀ q, q ≠ p → t'.heap q = t.heap q) : ∀ q ∈ ps, t'.heap q = t.heap q :=
  fun q hq => hheap q fun heq => hout (heq ▸ hq)

theorem Holds.remove (h : t.Holds c) (he : t.heap p = some e) :
    (t.recentEntryRemove p).Holds (c.erase e.addr) where
  wellFormed := h.wellFormed.remove (h.mem he)
  items := by
    obtain ⟨before,after,hlru,hb,ha,hitems⟩ := h.split he
    have hheap : ∀ q, q ≠ p → (t.recentEntryRemove p).heap q = t.heap q := fun q hq => by
      rw [heap_remove, if_neg hq]
    rw [Lru.Cache.items_erase hitems, lruList_remove, hlru, List.erase_append_right _ hb,
      List.erase_cons_head, itemsOf_append, itemsOf_congr (heap_ne_of_not_mem hb hheap),
      itemsOf_congr (heap_ne_of_not_mem ha hheap)]

/-- The head of the list is the oldest entry of the cache. -/
theorem Holds.dropOldest (h : t.Holds c) {rest : List Ptr} (hlru : t.lruList = p::rest) :
    (t.recentEntryRemove p).Holds c.dropOldest := by
  obtain ⟨e,he⟩ := (h.wellFormed.live p).mp (by rw [hlru]; exact List.mem_cons_self ..)
  have hitems : c.items = [] ++ (e.addr,e)::itemsOf t.heap rest := by
    rw [← h.items, hlru, itemsOf_cons he]
    rfl
  have hsame : c.dropOldest = c.erase e.addr := by
    refine Lru.Cache.ext ?_
    rw [Lru.Cache.items_erase hitems, Lru.Cache.dropOldest]
    dsimp only
    rw [hitems]
    rfl
  rw [hsame]
  exact h.remove he

theorem Holds.head (h : t.Holds c) {rest : List Ptr} (hlru : t.lruList = p::rest) :
    c.items.head?.bind (fun item => Visited.mostRecent item.2) = t.mostRecent p := by
  obtain ⟨e,he⟩ := (h.wellFormed.live p).mp (by rw [hlru]; exact List.mem_cons_self ..)
  rw [← h.items, hlru, itemsOf_cons he, mostRecent_eq he]
  rfl

theorem Holds.evict (h : t.Holds c) (he : t.recentEntryEvict ipListTot = some t') :
    t'.Holds (c.evict ipListTot) := by
  unfold recentEntryEvict at he
  unfold Lru.Cache.evict
  rw [← h.size]
  split at he
  · next hfull =>
    obtain ⟨p,hp,rfl⟩ := Option.map_eq_some_iff.mp he
    obtain ⟨rest,hlru⟩ := List.head?_eq_some_iff.mp hp
    rw [if_pos hfull]
    exact h.dropOldest hlru
  · next hroom =>
    obtain rfl := Option.some.inj he
    rw [if_neg hroom]
    exact h

theorem Holds.reap (h : t.Holds c) {time : UInt64} (hr : t.recentEntryReap time = some t') :
    t'.Holds (c.reap time) := by
  unfold recentEntryReap at hr
  split at hr
  · contradiction
  · next p rest hlru =>
    obtain ⟨stamp,hstamp,rfl⟩ := Option.map_eq_some_iff.mp hr
    unfold RecentCache.reap
    rw [h.head hlru, hstamp, Option.any_some]
    split
    · exact h.dropOldest hlru
    · exact h

theorem Holds.linked (h : t.Holds c) (hp : t.heap p = none) (hnew : c.get e.addr = none) :
    (t.linked p e).Holds (c.use e.addr e) where
  wellFormed := h.wellFormed.linked hp
  items := by
    have hheap : ∀ q, q ≠ p → (t.linked p e).heap q = t.heap q := fun q hq => by
      rw [heap_linked, if_neg hq]
    rw [Lru.Cache.items_use, Lru.Cache.erase_of_get_eq_none hnew, lruList_linked, itemsOf_append,
      itemsOf_congr (heap_ne_of_not_mem (h.wellFormed.not_mem hp) hheap), h.items,
      itemsOf_cons (heap_linked_self t p e)]
    rfl

theorem Holds.touched (h : t.Holds c) (he : t.heap p = some e) (haddr : e'.addr = e.addr) :
    (t.touched p e').Holds (c.use e.addr e') where
  wellFormed := h.wellFormed.touched (h.mem he)
  items := by
    obtain ⟨before,after,hlru,hb,ha,hitems⟩ := h.split he
    have hheap : ∀ q, q ≠ p → (t.touched p e').heap q = t.heap q := fun q hq => by
      rw [heap_touched, if_neg hq]
    rw [Lru.Cache.items_use, Lru.Cache.items_erase hitems, lruList_touched, hlru,
      List.erase_append_right _ hb, List.erase_cons_head, itemsOf_append, itemsOf_append,
      itemsOf_congr (heap_ne_of_not_mem hb hheap), itemsOf_congr (heap_ne_of_not_mem ha hheap),
      itemsOf_cons (heap_touched_self t p e'), haddr]
    rfl

theorem Holds.flush (h : t.Holds c) : t.recentTableFlush.Holds .empty := by
  rw [h.wellFormed.flush]
  exact holds_empty

/-- The chains are searched for what the cache has. -/
theorem Holds.lookup_some (h : t.Holds c) {addr : NfInetAddr} {ttl : UInt8}
    (hl : t.recentEntryLookup addr ttl = some p) :
    ∃ e, t.heap p = some e ∧ e.addr = addr ∧ c.lookup addr ttl = some e ∧ c.get addr = some e := by
  have hfound := List.find?_some hl
  split at hfound
  · next e he =>
    simp only [Bool.and_eq_true, decide_eq_true_eq] at hfound
    obtain ⟨rfl,httl⟩ := hfound
    have hget := h.get he
    refine ⟨e,he,rfl,?_,hget⟩
    rw [RecentCache.lookup, hget, Option.filter_some]
    exact if_pos httl
  · contradiction

theorem Holds.lookup_none (h : t.Holds c) {addr : NfInetAddr} {ttl : UInt8}
    (hl : t.recentEntryLookup addr ttl = none) : c.lookup addr ttl = none := by
  cases hget : c.get addr with
  | none => rw [RecentCache.lookup, hget, Option.filter_none]
  | some e =>
    obtain ⟨p,hp,he,rfl⟩ := h.exists_heap hget
    have hout := List.find?_eq_none.mp hl p (h.wellFormed.chained.mem_iff.mpr hp)
    rw [he] at hout
    rw [RecentCache.lookup, hget, Option.filter_some]
    exact if_neg (by simpa using hout)

theorem Holds.get_none (h : t.Holds c) {addr : NfInetAddr}
    (hl : t.recentEntryLookup addr 0 = none) : c.get addr = none := by
  rw [← RecentCache.lookup_zero]
  exact h.lookup_none hl

theorem Holds.view (h : t.Holds c) (addr : NfInetAddr) :
    t.view addr = c.get addr := by
  cases hl : t.recentEntryLookup addr 0 with
  | none => rw [LiveTable.view, hl, h.get_none hl, Option.bind_none]
  | some p =>
    obtain ⟨e,he,-,-,hget⟩ := h.lookup_some hl
    rw [LiveTable.view, hl, hget, Option.bind_some, he]

theorem Holds.init (h : t.Holds c) {addr : NfInetAddr} (hnew : c.get addr = none) {ttl : UInt8}
    {nstamp : UInt64} {r : Option Ptr}
    (hi : t.recentEntryInit ipListTot addr ttl nstamp kmalloc = some (t',r)) :
    r = kmalloc ∧ (∀ p ∈ r, t'.heap p = some (Kernel.recentEntryInit nstampsMaxMask addr ttl nstamp)) ∧
      t'.Holds (c.insert ipListTot addr (Kernel.recentEntryInit nstampsMaxMask addr ttl nstamp) r.isSome) := by
  obtain ⟨t₁,hevict,hi⟩ := Option.bind_eq_some_iff.mp hi
  have h₁ := h.evict hevict
  cases kmalloc with
  | none =>
    obtain ⟨rfl,rfl⟩ := Prod.mk.inj (Option.some.inj hi)
    exact ⟨rfl,fun _ hp => absurd hp.symm (Option.some_ne_none _),h₁⟩
  | some p =>
    dsimp only at hi
    split at hi
    · contradiction
    · next hfree =>
      obtain ⟨rfl,rfl⟩ := Prod.mk.inj (Option.some.inj hi)
      refine ⟨rfl,fun q hq => ?_,h₁.linked (by simpa using hfree) ?_⟩
      · rw [← Option.some.inj hq]
        exact heap_linked_self t₁ p _
      · exact Lru.Cache.get_evict_of_none hnew ipListTot

/-- An entry gets the present time and a ttl. -/
theorem Holds.updateTtl (h : t.Holds c) (he : t.heap p = some e) {jiffies : UInt64} {ttl : UInt8}
    (hu : ((t.recentEntryUpdate p jiffies).bind fun t => t.setTtl p ttl) = some t') :
    t'.Holds (c.use e.addr { Kernel.recentEntryUpdate e jiffies with ttl }) := by
  have htouched : t' = t.touched p { Kernel.recentEntryUpdate e jiffies with ttl } := by
    rw [recentEntryUpdate, he, Option.map_some, Option.bind_some, setTtl, heap_touched_self,
      Option.map_some] at hu
    rw [← Option.some.inj hu]
    unfold LiveTable.touched
    dsimp only
    rw [Function.update_idem]
  rw [htouched]
  exact h.touched he rfl

theorem heap_of_reap {time : UInt64} (hr : t.recentEntryReap time = some t') (he : t'.heap p = some e) :
    t.heap p = some e := by
  unfold recentEntryReap at hr
  split at hr
  · contradiction
  · obtain ⟨stamp,-,rfl⟩ := Option.map_eq_some_iff.mp hr
    split at he
    · rw [heap_remove] at he
      split at he
      · contradiction
      · exact he
    · exact he

theorem ite_not_eq_bne (hit invert : Bool) : (if hit then !invert else invert) = (hit != invert) := by
  cases hit <;> cases invert <;> rfl

/-- What a rule makes of an entry that it finds; an entry that is still there is the same. -/
theorem Holds.matchEntry (h : t.Holds c) (he : t.heap p = some e) {hz : UInt32} {jiffies : UInt64}
    {info : RecentMtinfo} {ret : Bool} (hm : t.matchEntry hz jiffies info p = some (t',ret)) :
    ret = RecentCache.verdict e hz jiffies info ∧ t'.Holds (c.discard hz jiffies info e.addr) ∧
      ∀ e', t'.heap p = some e' → e' = e := by
  have hsame : ∀ {e'}, t.heap p = some e' → e' = e := fun he' => Option.some.inj (he'.symm.trans he)
  unfold LiveTable.matchEntry at hm
  unfold RecentCache.verdict RecentCache.discard
  by_cases hset : info.set = true
  · rw [if_pos hset] at hm
    obtain ⟨rfl,rfl⟩ := Prod.mk.inj (Option.some.inj hm)
    rw [if_pos hset, if_pos (by rw [hset]; rfl)]
    exact ⟨rfl,h,fun e' => hsame⟩
  rw [if_neg hset] at hm
  by_cases hremove : info.remove = true
  · rw [if_pos hremove] at hm
    obtain ⟨rfl,rfl⟩ := Prod.mk.inj (Option.some.inj hm)
    rw [if_neg hset, if_pos hremove, if_pos (by rw [hremove, Bool.or_true])]
    refine ⟨rfl,h.remove he,fun e' he' => ?_⟩
    rw [heap_remove, if_pos rfl] at he'
    contradiction
  rw [if_neg hremove] at hm
  rw [if_neg hset, if_neg hremove, if_neg (by simp [hset, hremove])]
  by_cases hcheck : (info.check || info.update) = true
  · rw [if_pos hcheck, he, Option.bind_some] at hm
    obtain ⟨t₁,hreap,heq⟩ := Option.map_eq_some_iff.mp hm
    obtain ⟨rfl,rfl⟩ := Prod.mk.inj heq
    rw [hcheck, if_pos rfl, Bool.true_and]
    refine ⟨?_,?_⟩
    · exact ite_not_eq_bne _ _
    · split at hreap
      · next hr =>
        rw [if_pos hr]
        exact ⟨h.reap hreap,fun e' he' => hsame (heap_of_reap hreap he')⟩
      · next hr =>
        rw [if_neg hr]
        obtain rfl := Option.some.inj hreap
        exact ⟨h,fun e' => hsame⟩
  · rw [if_neg hcheck] at hm
    obtain ⟨rfl,rfl⟩ := Prod.mk.inj (Option.some.inj hm)
    rw [if_neg hcheck, if_neg (by simp [hcheck])]
    exact ⟨rfl,h,fun e' => hsame⟩

/-- A packet. -/
theorem Holds.recentMt (h : t.Holds c) {hz : UInt32} {jiffies : UInt64} {info : RecentMtinfo}
    (hplain : info.Plain) {addr : NfInetAddr} {ttl : UInt8} {r : Bool × Bool}
    (hm : t.recentMt ipListTot hz jiffies info addr ttl kmalloc = some (t',r)) :
    t'.Holds (c.recentMt ipListTot hz jiffies info addr ttl kmalloc.isSome).1 ∧
      r = (c.recentMt ipListTot hz jiffies info addr ttl kmalloc.isSome).2 := by
  unfold LiveTable.recentMt at hm
  unfold RecentCache.recentMt
  cases hl : t.recentEntryLookup addr (if info.ttl then ttl else 0) with
  | none =>
    rw [hl] at hm
    rw [h.lookup_none hl]
    dsimp only at hm ⊢
    split at hm
    · next hset =>
      have hnew : c.get addr = none := by
        rw [hplain hset, if_neg Bool.false_ne_true] at hl
        exact h.get_none hl
      obtain ⟨⟨t₁,r₁⟩,hi,heq⟩ := Option.map_eq_some_iff.mp hm
      obtain ⟨rfl,rfl⟩ := Prod.mk.inj heq
      obtain ⟨rfl,-,h₁⟩ := h.init hnew hi
      rw [if_pos hset]
      refine ⟨h₁,?_⟩
      cases r₁ <;> rfl
    · next hset =>
      obtain ⟨rfl,rfl⟩ := Prod.mk.inj (Option.some.inj hm)
      rw [if_neg hset]
      exact ⟨h,rfl⟩
  | some p =>
    obtain ⟨e,he,rfl,hlookup,-⟩ := h.lookup_some hl
    rw [hl] at hm
    rw [hlookup]
    dsimp only at hm ⊢
    obtain ⟨⟨t₁,ret⟩,hentry,hrest⟩ := Option.bind_eq_some_iff.mp hm
    obtain ⟨rfl,h₁,hsame⟩ := h.matchEntry he hentry
    dsimp only at hrest
    split at hrest
    · next hwrite =>
      obtain ⟨t₂,hu,heq⟩ := Option.map_eq_some_iff.mp hrest
      obtain ⟨rfl,rfl⟩ := Prod.mk.inj heq
      obtain ⟨e₁,he₁⟩ : ∃ e₁, t₁.heap p = some e₁ := by
        obtain ⟨_,hu,-⟩ := Option.bind_eq_some_iff.mp hu
        obtain ⟨e₁,he₁,-⟩ := Option.map_eq_some_iff.mp hu
        exact ⟨e₁,he₁⟩
      obtain rfl := hsame e₁ he₁
      rw [if_pos hwrite]
      exact ⟨h₁.updateTtl he₁ hu,rfl⟩
    · next hwrite =>
      obtain ⟨rfl,rfl⟩ := Prod.mk.inj (Option.some.inj hrest)
      rw [if_neg hwrite]
      exact ⟨h₁,rfl⟩

/-- A write of an address alone. -/
theorem Holds.writeAddress (h : t.Holds c) {in6Pton : Bytes → Option UInt8 → Option NfInetAddr}
    {jiffies : UInt64} {add : Bool} {line : Bytes} {size : ℕ} {ret : Int}
    (hw : t.writeAddress in6Pton ipListTot jiffies add line size kmalloc = some (t',ret)) :
    t'.Holds (c.writeAddress in6Pton ipListTot jiffies add line size kmalloc.isSome).1 ∧
      ret = (c.writeAddress in6Pton ipListTot jiffies add line size kmalloc.isSome).2 := by
  unfold LiveTable.writeAddress at hw
  unfold RecentCache.writeAddress
  have hwritten : (if (line.take (size-1)).contains 58 then in6Pton (line.take (size-1)) (some 10)
      else in4Pton (line.take (size-1)) (some 10)) = writtenAddr in6Pton (line.take (size-1)) := rfl
  dsimp only at hw
  rw [hwritten] at hw
  cases haddr : writtenAddr in6Pton (line.take (size-1)) with
  | none =>
    rw [haddr] at hw
    obtain ⟨rfl,rfl⟩ := Prod.mk.inj (Option.some.inj hw)
    exact ⟨h,rfl⟩
  | some addr =>
    rw [haddr] at hw
    dsimp only at hw ⊢
    cases hl : t.recentEntryLookup addr 0 with
    | none =>
      have hnew := h.get_none hl
      rw [hl] at hw
      rw [hnew]
      cases add with
      | true =>
        obtain ⟨⟨t₁,r₁⟩,hi,heq⟩ := Option.bind_eq_some_iff.mp hw
        obtain ⟨rfl,rfl⟩ := Prod.mk.inj (Option.some.inj heq)
        obtain ⟨rfl,-,h₁⟩ := h.init hnew hi
        exact ⟨h₁,rfl⟩
      | false =>
        obtain ⟨rfl,rfl⟩ := Prod.mk.inj (Option.some.inj hw)
        exact ⟨h,rfl⟩
    | some p =>
      obtain ⟨e,he,rfl,-,hget⟩ := h.lookup_some hl
      rw [hl] at hw
      rw [hget]
      cases add with
      | true =>
        obtain ⟨t₁,hu,heq⟩ := Option.bind_eq_some_iff.mp hw
        obtain ⟨rfl,rfl⟩ := Prod.mk.inj (Option.some.inj heq)
        rw [LiveTable.recentEntryUpdate, he] at hu
        obtain rfl := Option.some.inj hu
        exact ⟨h.touched he rfl,rfl⟩
      | false =>
        obtain ⟨rfl,rfl⟩ := Prod.mk.inj (Option.some.inj hw)
        exact ⟨h.remove he,rfl⟩

/-- Stamps for an entry in use. -/
theorem Holds.updateStamps (h : t.Holds c) (he : t.heap p = some e) {stamps : List UInt64}
    (hs : t.updateStamps (some p) stamps = some t') :
    t'.Holds (if stamps = [] then c else c.use e.addr (updateAll e stamps)) := by
  by_cases hne : stamps = []
  · rw [hne] at hs
    obtain rfl : t = t' := Option.some.inj hs
    rw [if_pos hne]
    exact h
  · rw [h.wellFormed.updateStamps he hne] at hs
    obtain rfl := Option.some.inj hs
    rw [if_neg hne]
    exact h.touched he (updateAll_addr e stamps)

/-- The parts of a line with stamps. -/
theorem Holds.storeLine (h : t.Holds c) {parts : LineParts} {size : ℕ} {ret : Int}
    (hs : t.storeLine ipListTot parts size kmalloc = some (t',ret)) :
    t'.Holds (c.storeLine ipListTot parts size kmalloc.isSome).1 ∧
      ret = (c.storeLine ipListTot parts size kmalloc.isSome).2 := by
  unfold LiveTable.storeLine at hs
  unfold RecentCache.storeLine
  cases haddr : parts.addr with
  | none =>
    rw [haddr] at hs
    obtain ⟨rfl,rfl⟩ := Prod.mk.inj (Option.some.inj hs)
    exact ⟨h,rfl⟩
  | some addr =>
    rw [haddr] at hs
    dsimp only at hs ⊢
    cases hl : t.recentEntryLookup addr 0 with
    | some p =>
      obtain ⟨e,he,rfl,-,hget⟩ := h.lookup_some hl
      rw [hl] at hs
      rw [hget]
      obtain ⟨t₁,hu,heq⟩ := Option.map_eq_some_iff.mp hs
      obtain ⟨rfl,rfl⟩ := Prod.mk.inj heq
      exact ⟨h.updateStamps he hu,rfl⟩
    | none =>
      have hnew := h.get_none hl
      rw [hl] at hs
      rw [hnew]
      dsimp only at hs ⊢
      cases httl : parts.ttl with
      | none =>
        rw [httl] at hs
        obtain ⟨rfl,rfl⟩ := Prod.mk.inj (Option.some.inj hs)
        exact ⟨h,rfl⟩
      | some ttl =>
        rw [httl] at hs
        cases hfirst : parts.first with
        | none =>
          rw [hfirst] at hs
          obtain ⟨t₁,hu,heq⟩ := Option.map_eq_some_iff.mp hs
          obtain ⟨rfl,rfl⟩ := Prod.mk.inj heq
          obtain ⟨-,rfl⟩ := updateStamps_none hu
          exact ⟨h,rfl⟩
        | some nstamp =>
          rw [hfirst] at hs
          obtain ⟨⟨t₁,r₁⟩,hi,hs⟩ := Option.bind_eq_some_iff.mp hs
          obtain ⟨t₂,hu,heq⟩ := Option.map_eq_some_iff.mp hs
          obtain ⟨rfl,rfl⟩ := Prod.mk.inj heq
          obtain ⟨rfl,hheap,h₁⟩ := h.init hnew hi
          refine ⟨?_,rfl⟩
          cases r₁ with
          | none =>
            obtain ⟨-,rfl⟩ := updateStamps_none hu
            exact h₁
          | some p =>
            have h₂ := h₁.updateStamps (hheap p rfl) hu
            by_cases hlater : parts.later = []
            · rw [if_pos hlater] at h₂
              rw [hlater]
              exact h₂
            · rw [if_neg hlater] at h₂
              have hinsert := c.insert_use ipListTot addr
                (Kernel.recentEntryInit nstampsMaxMask addr ttl nstamp)
                (updateAll (Kernel.recentEntryInit nstampsMaxMask addr ttl nstamp) parts.later)
              exact (congrArg t₂.Holds hinsert).mp h₂

theorem Holds.writeLine (h : t.Holds c) {in6Pton : Bytes → Option UInt8 → Option NfInetAddr}
    {line : Bytes} {size : ℕ} {ret : Int}
    (hw : t.writeLine in6Pton ipListTot line size kmalloc = some (t',ret)) :
    t'.Holds (c.writeLine in6Pton ipListTot line size kmalloc.isSome).1 ∧
      ret = (c.writeLine in6Pton ipListTot line size kmalloc.isSome).2 := by
  rw [writeLine_eq] at hw
  obtain ⟨parts,hparts,hs⟩ := Option.bind_eq_some_iff.mp hw
  unfold RecentCache.writeLine
  rw [hparts]
  exact h.storeLine hs

/-- A write to the file. -/
theorem Holds.recentMtProcWrite (h : t.Holds c) {in6Pton : Bytes → Option UInt8 → Option NfInetAddr}
    {jiffies : UInt64} {input stack : Bytes} {ret : Int}
    (hw : t.recentMtProcWrite in6Pton ipListTot jiffies input stack kmalloc = some (t',ret)) :
    t'.Holds (c.recentMtProcWrite in6Pton ipListTot jiffies input stack kmalloc.isSome).1 ∧
      ret = (c.recentMtProcWrite in6Pton ipListTot jiffies input stack kmalloc.isSome).2 := by
  unfold LiveTable.recentMtProcWrite at hw
  dsimp only at hw
  split at hw
  · next hlong =>
    obtain ⟨rfl,rfl⟩ := Prod.mk.inj (Option.some.inj hw)
    unfold RecentCache.recentMtProcWrite
    rw [if_pos hlong]
    exact ⟨h,rfl⟩
  · next hlong =>
    split at hw
    · obtain ⟨rfl,rfl⟩ := Prod.mk.inj (Option.some.inj hw)
      exact ⟨h,rfl⟩
    · obtain ⟨rfl,rfl⟩ := Prod.mk.inj (Option.some.inj hw)
      unfold RecentCache.recentMtProcWrite
      rw [if_neg hlong]
      exact ⟨h.flush,rfl⟩
    · unfold RecentCache.recentMtProcWrite
      rw [if_neg hlong]
      exact h.writeAddress hw
    · unfold RecentCache.recentMtProcWrite
      rw [if_neg hlong]
      exact h.writeAddress hw
    · unfold RecentCache.recentMtProcWrite
      rw [if_neg hlong]
      exact h.writeLine hw
    · next hnil hflush hminus hplus hstar =>
      obtain ⟨rfl,rfl⟩ := Prod.mk.inj (Option.some.inj hw)
      rw [RecentCache.recentMtProcWrite_other c in6Pton ipListTot jiffies stack kmalloc.isSome hnil
        hflush hminus hplus hstar]
      exact ⟨h,rfl⟩

end Holds
end LiveTable

def LiveTable.access (m : RecentModule) (t : LiveTable nstampsMaxMask) :
    Access → Option (LiveTable nstampsMaxMask × Answer)
  | .packet jiffies info addrMask ttl kmalloc =>
    (t.recentMt m.ipListTot m.hz jiffies info addrMask ttl kmalloc).map fun (t,ret,hotdrop) =>
      (t,.packet ret hotdrop)
  | .write jiffies input stack kmalloc =>
    (t.recentMtProcWrite m.in6Pton m.ipListTot jiffies input stack kmalloc).map fun (t,ret) =>
      (t,.write ret)

/-- A table and the answers that it has given. -/
def LiveTable.serve (m : RecentModule) (s : LiveTable nstampsMaxMask × List Answer) (a : Access) :
    Option (LiveTable nstampsMaxMask × List Answer) :=
  (s.1.access m a).map fun (t,answer) => (t,s.2 ++ [answer])

section Serve
variable {m : RecentModule} {t t' : LiveTable nstampsMaxMask} {c : RecentCache (RecentEntry nstampsMaxMask)}
  {answers answers' : List Answer} {answer : Answer}

/-- One access: the answer is that of the cache, and the table holds what the cache becomes. -/
theorem LiveTable.Holds.access (h : t.Holds c) {a : Access} (hplain : a.Plain)
    (hs : t.access m a = some (t',answer)) :
    t'.Holds (c.access m a).1 ∧ answer = (c.access m a).2 := by
  cases a with
  | packet jiffies info addrMask ttl kmalloc =>
    obtain ⟨⟨t₁,ret,hotdrop⟩,hm,heq⟩ := Option.map_eq_some_iff.mp hs
    obtain ⟨rfl,rfl⟩ := Prod.mk.inj heq
    obtain ⟨h₁,hr⟩ := h.recentMt hplain hm
    exact ⟨h₁,congrArg (fun r : Bool × Bool => Answer.packet r.1 r.2) hr⟩
  | write jiffies input stack kmalloc =>
    obtain ⟨⟨t₁,ret⟩,hw,heq⟩ := Option.map_eq_some_iff.mp hs
    obtain ⟨rfl,rfl⟩ := Prod.mk.inj heq
    obtain ⟨h₁,hr⟩ := h.recentMtProcWrite hw
    exact ⟨h₁,congrArg Answer.write hr⟩

/-- A table beside its cache, with the same answers so far and no more entries than there may be. -/
structure Agree (m : RecentModule) (s : LiveTable nstampsMaxMask × List Answer)
    (s' : RecentCache (RecentEntry nstampsMaxMask) × List Answer) : Prop where
  holds : s.1.Holds s'.1
  answers : s.2 = s'.2
  room : s'.1.size ≤ m.ipListTot

theorem Agree.serve {s s' : LiveTable nstampsMaxMask × List Answer}
    {r : RecentCache (RecentEntry nstampsMaxMask) × List Answer} (h : Agree m s r) {a : Access} (hplain : a.Plain)
    (hs : LiveTable.serve m s a = some s') : Agree m s' (RecentCache.serve m r a) := by
  obtain ⟨⟨t₁,answer₁⟩,haccess,rfl⟩ := Option.map_eq_some_iff.mp hs
  obtain ⟨h₁,rfl⟩ := h.holds.access hplain haccess
  exact ⟨h₁,congrArg (· ++ [_]) h.answers,(RecentCache.outcome_access r.1 hplain).size_le h.room⟩

/-- A run of a table is a run of its cache. -/
theorem Agree.run {s s' : LiveTable nstampsMaxMask × List Answer}
    {r : RecentCache (RecentEntry nstampsMaxMask) × List Answer} (h : Agree m s r) {accesses : List Access}
    (hplain : ∀ a ∈ accesses, a.Plain) (hrun : Runs.run (LiveTable.serve m) s accesses = some s') :
    Agree m s' (accesses.foldl (RecentCache.serve m) r) :=
  Runs.run_simulates (R := Agree m) (fun _ _ a _ ha hr hs => hr.serve (hplain a ha) hs) h hrun

theorem agree_empty (m : RecentModule) :
    Agree m ({},[]) ((Lru.Cache.empty : RecentCache (RecentEntry nstampsMaxMask)),[]) where
  holds := LiveTable.holds_empty
  answers := rfl
  room := Nat.zero_le _

/-- Every table answers as a cache of the addresses that were used last does, and holds the same
entries in the same order, at most as many as the module allows and no address twice. -/
theorem tables_are_caches {accesses : List Access} (hplain : ∀ a ∈ accesses, a.Plain)
    (hrun : Runs.run (LiveTable.serve m) (({} : LiveTable nstampsMaxMask),[]) accesses =
      some (t,answers)) :
    ∃ c : RecentCache (RecentEntry nstampsMaxMask),
      accesses.foldl (RecentCache.serve m) (.empty,[]) = (c,answers) ∧
      c.items = t.lruList.filterMap (fun p => (t.heap p).map fun e => (e.addr,e)) ∧
      t.entries = t.lruList.length ∧ t.entries ≤ m.ipListTot ∧
      ∀ p q e e', t.heap p = some e → t.heap q = some e' → e.addr = e'.addr → p = q := by
  have h := (agree_empty m).run hplain hrun
  refine ⟨_,Prod.ext rfl h.answers.symm,h.holds.items.symm,h.holds.wellFormed.counted,?_,?_⟩
  · exact h.holds.size.trans_le h.room
  · exact fun p q e e' hp hq haddr => h.holds.inj hp hq haddr

end Serve

section Samples

/-- A module whose tables have room for two addresses. -/
def smallModule : RecentModule := ⟨2,Nat.succ_pos 1,250,fun _ _ => none⟩

def setAt (jiffies : UInt64) (a : UInt8) (p : Ptr) : Access :=
  .packet jiffies { set := true } (.ip a a a a) 64 (some p)

/-- The first address is seen again before a third one comes, so that the second one gives way. -/
def smallRun : List Access := [setAt 10 1 0,setAt 20 2 1,setAt 30 1 2,setAt 40 3 2,
  .packet 50 { check := true } (.ip 2 2 2 2) 64 none]

def smallEnd : LiveTable 31 × List Answer :=
  (Runs.run (LiveTable.serve smallModule) ({},[]) smallRun).getD ({},[])

theorem smallRun_plain : ∀ a ∈ smallRun, a.Plain := by
  intro a ha
  simp only [smallRun, List.mem_cons, List.not_mem_nil, or_false] at ha
  rcases ha with rfl | rfl | rfl | rfl | rfl <;> exact fun _ => rfl

theorem smallRun_run :
    Runs.run (LiveTable.serve smallModule) (({} : LiveTable 31),[]) smallRun = some smallEnd := rfl

theorem tables_are_caches_smallRun :
    smallEnd.1.lruList = [0,2] ∧ smallEnd.2.getLast? = some (.packet false false) ∧
      ∃ c : RecentCache (RecentEntry 31), smallRun.foldl (RecentCache.serve smallModule) (.empty,[]) = (c,smallEnd.2) ∧
        c.items = smallEnd.1.lruList.filterMap (fun p => (smallEnd.1.heap p).map fun e => (e.addr,e)) ∧
        smallEnd.1.entries = smallEnd.1.lruList.length ∧ smallEnd.1.entries ≤ smallModule.ipListTot ∧
        ∀ p q e e', smallEnd.1.heap p = some e → smallEnd.1.heap q = some e' → e.addr = e'.addr → p = q :=
  ⟨rfl,rfl,tables_are_caches smallRun_plain smallRun_run⟩

end Samples

end Kernel
end Ssyncd
