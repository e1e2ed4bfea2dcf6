import Ssyncd.Kernel.Handover
import Ssyncd.Kernel.Visits
import Ssyncd.Listener.Patch
import Ssyncd.Proc.LiveFile
import Ssyncd.Replication.Failover
import Ssyncd.Store.RecentNames

/-! A backup takes over. The master's table went through its file, the master's store, the packets of a
snapshot, the backup's store and the lines of the daemon into the backup's kernel, and the rules there
match what they would have matched on the master. -/
namespace Ssyncd
open Recent Kernel Reader

section Snapshot

/-- What the backup reads of an action that the master sends to it. -/
def carry (junk : Memory) (a : XtRecentAction) : Option XtRecentAction :=
  match PktParser.serialize (.recent a) with
  | .ok (some (out,_)) =>
    match PktParser.deserialize (memory out junk) out.length with
    | some (.recent b,_) => some b
    | _ => none
  | _ => none

theorem carry_canonical {a : XtRecentAction} (h : XtRecentActionParser.Canonical a) (junk : Memory) :
    ∃ b, carry junk a = some b ∧ XtRecentActionParser.Carried a b := by
  obtain ⟨sent,b,hser,hread,hcarried⟩ := PktParser.recent_carried h junk
  refine ⟨b,?_,hcarried⟩
  unfold carry
  rw [hser]
  dsimp only
  rw [hread]

theorem carry_all {actions : List XtRecentAction}
    (h : ∀ a ∈ actions, XtRecentActionParser.Canonical a) (junk : Memory) :
    ∃ sent, actions.mapM (carry junk) = some sent ∧
      List.Forall₂ XtRecentActionParser.Carried actions sent := by
  induction actions with
  | nil => exact ⟨[],rfl,.nil⟩
  | cons a actions ih =>
    obtain ⟨b,hb,hcarried⟩ := carry_canonical (h a (List.mem_cons_self ..)) junk
    obtain ⟨sent,hsent,hall⟩ := ih fun a' ha' => h a' (List.mem_cons_of_mem _ ha')
    exact ⟨b::sent,by rw [List.mapM_cons, hb, Option.bind_eq_bind, Option.bind_some, hsent]; rfl,
      .cons hcarried hall⟩

/-- What the packet of an addition carries of an entry. -/
structure Delivers (e e' : XtRecentEntry) : Prop where
  srcIp : e'.srcIp = e.srcIp
  ttl : e'.ttl = e.ttl
  timestamps : e'.timestamps = e.timestamps

theorem delivers_of_carried {a b : XtRecentAction} (h : XtRecentActionParser.Carried a b)
    (hadd : a.action = .named .addUpdEntry) : Delivers a.targetEntry b.targetEntry :=
  have hstamps := h.stamps hadd
  ⟨(h.address (.inl hadd)).2,hstamps.2.1,hstamps.2.2⟩

/-- Additions and what is read of them leave stores behind that hold entries for the same keys. -/
theorem replay_delivers {actions sent : List XtRecentAction}
    (hcarried : List.Forall₂ XtRecentActionParser.Carried actions sent)
    (hadd : ∀ a ∈ actions, a.action = .named .addUpdEntry) {data data' : EntryKey → Option XtRecentEntry}
    {k : EntryKey} (h : Option.Rel Delivers (data k) (data' k)) :
    Option.Rel Delivers (Overlay.replay recentEffect data actions k)
      (Overlay.replay recentEffect data' sent k) := by
  induction hcarried generalizing data data' with
  | nil => exact h
  | @cons a b actions sent hfirst _ ih =>
    have ha := hadd a (List.mem_cons_self ..)
    have hb : b.action = .named .addUpdEntry := hfirst.action.trans ha
    have hdelivers := delivers_of_carried hfirst ha
    have hkey : b.entryKey = a.entryKey := by
      rw [XtRecentAction.entryKey, XtRecentAction.entryKey, hfirst.xtTableName, hdelivers.srcIp]
    refine ih (fun a' ha' => hadd a' (List.mem_cons_of_mem _ ha')) ?_
    unfold Overlay.step recentEffect
    rw [ha, hb]
    dsimp only
    rw [hkey]
    split
    · exact .some hdelivers
    · exact h

theorem additions_entryActions {data : RecentData} {a : XtRecentAction} (h : a ∈ entryActions data) :
    a.action = .named .addUpdEntry := by
  obtain ⟨k,e,-,rfl⟩ := mem_entryActions.mp h
  rfl

theorem additions_carried {actions sent : List XtRecentAction}
    (hcarried : List.Forall₂ XtRecentActionParser.Carried actions sent)
    (hadd : ∀ a ∈ actions, a.action = .named .addUpdEntry) :
    ∀ b ∈ sent, b.action = .named .addUpdEntry := by
  induction hcarried with
  | nil => exact fun _ hb => absurd hb List.not_mem_nil
  | @cons a b actions sent hfirst _ ih =>
    intro b' hb'
    rcases List.mem_cons.mp hb' with rfl | hb'
    · exact hfirst.action.trans (hadd a (List.mem_cons_self ..))
    · exact ih (fun a' ha' => hadd a' (List.mem_cons_of_mem _ ha')) b' hb'

/-- A snapshot of a store that is received whole makes the same entries in an empty one. -/
theorem received_snapshot {data : RecentData} (hkeyed : Keyed data) {sent : List XtRecentAction}
    (hcarried : List.Forall₂ XtRecentActionParser.Carried (entryActions data) sent) (k : EntryKey) :
    Option.Rel Delivers (entries data k) (entries (sent.foldl applyRecentAction ∅) k) := by
  have hempty : entries ∅ = fun _ => none := funext entries_empty
  have hsnapshot := (Overlay.sub_empty (entries data)).replay_snapshot recentEffect
    (snapshot_entryActions hkeyed)
  rw [← hsnapshot, XtRecentSync.entries_applyAll, hempty]
  exact replay_delivers hcarried (fun a => additions_entryActions) .none

end Snapshot

/-- An entry that a backup can be given: no stamp of it passes for an empty cell, and its line is not
too long. -/
structure Kernel.RecentEntry.Replicable {nstampsMaxMask : UInt8} (e : RecentEntry nstampsMaxMask) :
    Prop where
  isIpv4 : e.addr.IsIpv4
  nonzero : ∀ stamp ∈ e.visible, stamp ≠ 0
  fits : (updateLine e.addr.text e.ttl.toNat e.visible).length ≤ 421

section Read
open XtRecentProc
variable {nstampsMaxMask : UInt8} {t : LiveTable nstampsMaxMask}
  {c : RecentCache (RecentEntry nstampsMaxMask)} {ps : List Ptr} {name : Bytes}

/-- What is read of a table is what its cache has. -/
theorem getElem?_readTable_printed (hc : t.Holds c) (hps : ps.Perm t.lruList)
    (hreplicable : ∀ p e, t.heap p = some e → e.Replicable) {srcIp : Bytes} {entry : XtRecentEntry} :
    (readTable (t.printed name ps)).entries[srcIp]? = some entry ↔
      ∃ e, c.get e.addr = some e ∧ e.addr.text = srcIp ∧ faithfulEntry e = entry := by
  have hmem := fun e => @LiveTable.WellFormed.mem_printed _ _ _ hc.wellFormed hps name e
  have hin : ∀ e ∈ (t.printed name ps).entries, RecentEntry.Replicable e := by
    intro e he
    obtain ⟨p,hp⟩ := (hmem e).mp he
    exact hreplicable p e hp
  have hpass : ∀ e ∈ (t.printed name ps).entries, ¬e.addr.PassesForIpv4 := by
    intro e he hpass
    have hv4 := (hin e he).isIpv4
    cases haddr : e.addr with
    | ip => rw [haddr] at hpass; exact hpass
    | ip6 => rw [haddr] at hv4; exact hv4
  have hread := mem_toList_readTable ((hc.nodup_printed hps name).sublist (List.filter_sublist.map _))
    hpass (fun e he => (hin e (mem_ipv4Entries.mp he).1).nonzero) (srcIp,entry)
  rw [← Std.ExtTreeMap.mem_toList_iff_getElem?_eq_some, hread, List.mem_map]
  constructor
  · rintro ⟨e,he,heq⟩
    obtain ⟨rfl,rfl⟩ := Prod.mk.inj heq
    obtain ⟨p,hp⟩ := (hmem e).mp (mem_ipv4Entries.mp he).1
    exact ⟨e,hc.get hp,rfl,rfl⟩
  · rintro ⟨e,hget,rfl,rfl⟩
    obtain ⟨p,-,hp,-⟩ := hc.exists_heap hget
    have hprinted := (hmem e).mpr ⟨p,hp⟩
    exact ⟨e,mem_ipv4Entries.mpr ⟨hprinted,(hin e hprinted).isIpv4⟩,rfl⟩

/-- The store of a master that has just read its only table. -/
theorem first_round (t : RecentTable) :
    ∃ listener actions, XtRecentSync.procTask {} [(t.name,t.file)] = .ok (listener,actions) ∧
      Keyed (actions.foldl applyRecentAction ∅) ∧
      ∀ k, entries (actions.foldl applyRecentAction ∅) k =
        if t.name = k.table then (readTable t).entries[k.srcIp]? else none := by
  obtain ⟨data',actions,hok,-,-,hreplay⟩ :=
    XtRecentSync.procTask_files [t] {} (List.nodup_singleton _) keyed_empty
  have hentries : ∀ k, entries (actions.foldl applyRecentAction ∅) k =
      if t.name = k.table then (readTable t).entries[k.srcIp]? else none := by
    intro k
    rw [XtRecentSync.entries_applyAll, hreplay, XtRecentSync.roundEffect, XtRecentSync.listed_cons,
      entries_empty]
    by_cases hname : t.name = k.table
    · rw [if_pos hname, if_pos hname]
      change (XtRecentSync.diffEffect none (readTable t).entries[k.srcIp]?).act none = _
      cases (readTable t).entries[k.srcIp]? <;> rfl
    · rw [if_neg hname, if_neg hname]
      rfl
  refine ⟨⟨data'⟩,actions,hok,fun k e he => ?_,hentries⟩
  rw [hentries] at he
  split at he
  · exact XtRecentSync.keyedEntries_readTable t _ _ he
  · contradiction

end Read

section Write
variable {m : RecentModule} {nstampsMaxMask : UInt8} {t : LiveTable nstampsMaxMask}
  {c : RecentCache (RecentEntry nstampsMaxMask)} {name : Bytes} {proc proc' : ProcDir}

/-- A file of the directory that is a table whose cache is some cache. -/
def HeldFile (nstampsMaxMask : UInt8) (name : Bytes) (proc : ProcDir) : Prop :=
  ∃ (t : LiveTable nstampsMaxMask) (c : RecentCache (RecentEntry nstampsMaxMask)),
    proc name = some ⟨nstampsMaxMask,t⟩ ∧ t.Holds c

theorem HeldFile.writeProc (h : HeldFile nstampsMaxMask name proc) {a : ProcAttempt} {input : Bytes}
    {ret : Int} (hw : writeProc m a name input proc = some (proc',ret)) :
    HeldFile nstampsMaxMask name proc' := by
  obtain ⟨t,c,hproc,hc⟩ := h
  unfold Ssyncd.writeProc at hw
  rw [hproc] at hw
  cases hopened : a.opened with
  | false =>
    rw [hopened] at hw
    obtain ⟨rfl,-⟩ := Prod.mk.inj (Option.some.inj hw)
    exact ⟨t,c,hproc,hc⟩
  | true =>
    rw [hopened] at hw
    obtain ⟨⟨t',ret'⟩,hwrite,heq⟩ := Option.map_eq_some_iff.mp hw
    obtain ⟨rfl,-⟩ := Prod.mk.inj heq
    exact ⟨t',_,Function.update_self ..,(hc.recentMtProcWrite hwrite).1⟩

theorem HeldFile.dataEntries (h : HeldFile nstampsMaxMask name proc) {list : List (Bytes × XtRecentEntry)}
    {attempts : ℕ → ProcAttempt} {n : ℕ}
    (hw : (moduleWriter m attempts).dataEntries name list n proc = some proc') :
    HeldFile nstampsMaxMask name proc' := by
  induction list generalizing proc n with
  | nil =>
    obtain rfl := Option.some.inj hw
    exact h
  | cons first list ih =>
    obtain ⟨⟨proc₁,ret⟩,hfirst,hrest⟩ := Option.bind_eq_some_iff.mp hw
    exact ih (h.writeProc hfirst) hrest

/-- The daemon's writes leave a table behind that has no address twice. -/
theorem HeldFile.writeRecentData (h : HeldFile nstampsMaxMask name proc) {data : RecentData}
    {table : XtRecentTable} (htable : data[name]? = some table) (hname : table.name = name)
    {attempts : ℕ → ProcAttempt} {ret : Int}
    (hw : writeRecentData m data name attempts proc = some (proc',ret)) :
    HeldFile nstampsMaxMask name proc' := by
  unfold Ssyncd.writeRecentData ProcWriter.writeRecentData at hw
  rw [htable] at hw
  dsimp only at hw
  rw [hname] at hw
  obtain ⟨⟨proc₁,ret₁⟩,hflush,hw⟩ := Option.bind_eq_some_iff.mp hw
  have hflushed := h.writeProc hflush
  dsimp only at hw
  split at hw
  · obtain ⟨rfl,-⟩ := Prod.mk.inj (Option.some.inj hw)
    exact hflushed
  · obtain ⟨proc₂,hentries,heq⟩ := Option.map_eq_some_iff.mp hw
    obtain ⟨rfl,-⟩ := Prod.mk.inj heq
    exact hflushed.dataEntries hentries

end Write

section Takeover
open XtRecentProc
variable {m : RecentModule} {nstampsMaxMask : UInt8} {t : LiveTable nstampsMaxMask}
  {c : RecentCache (RecentEntry nstampsMaxMask)} {name : Bytes} {data : RecentData}

/-- The store of a backup that was given the entries of a table, and nothing else. -/
structure Received (c : RecentCache (RecentEntry nstampsMaxMask)) (name : Bytes) (data : RecentData) :
    Prop where
  named : Named data
  found : ∀ e, c.get e.addr = some e →
    ∃ entry, entries data ⟨name,e.addr.text⟩ = some entry ∧ Delivers (faithfulEntry e) entry
  only : ∀ k, entries data k ≠ none → k.table = name ∧ ∃ e, c.get e.addr = some e ∧ e.addr.text = k.srcIp

theorem named_additions {actions : List XtRecentAction}
    (hadd : ∀ a ∈ actions, a.action = .named .addUpdEntry) (h : Named data) :
    Named (actions.foldl applyRecentAction data) := by
  induction actions generalizing data with
  | nil => exact h
  | cons a actions ih =>
    have ha := hadd a (List.mem_cons_self ..)
    refine ih (fun b hb => hadd b (List.mem_cons_of_mem _ hb)) (h.applyRecentAction fun hflush => ?_)
    rw [ha] at hflush
    contradiction

/-- A master reads its table for the first time, and a backup asks for all that it has. -/
theorem exists_received (hmask : nstampsMaxMask ∈ shortMasks) (hc : t.Holds c)
    (hreplicable : ∀ p e, t.heap p = some e → e.Replicable) (hname : name.length ≤ 254) (hnul : 0 ∉ name)
    {ps : List Ptr} (hps : ps.Perm t.lruList) (junk : Memory) :
    ∃ listener actions sent,
      XtRecentSync.procTask {} [(name,(t.printed name ps).file)] = .ok (listener,actions) ∧
      (entryActions (actions.foldl applyRecentAction ∅)).mapM (carry junk) = some sent ∧
      Received c name (sent.foldl applyRecentAction ∅) := by
  obtain ⟨listener,actions,hround,hkeyed,hentries⟩ := first_round (t.printed name ps)
  have hread : ∀ k e, entries (actions.foldl applyRecentAction ∅) k = some e ↔ name = k.table ∧
      ∃ e', c.get e'.addr = some e' ∧ e'.addr.text = k.srcIp ∧ faithfulEntry e' = e := by
    intro k e
    rw [hentries]
    change (if name = k.table then _ else _) = _ ↔ _
    split
    · next heq => rw [getElem?_readTable_printed hc hps hreplicable, and_iff_right heq]
    · next hne => simp [hne]
  have hcanonical : ∀ a ∈ entryActions (actions.foldl applyRecentAction ∅),
      XtRecentActionParser.Canonical a := by
    intro a ha
    obtain ⟨k,e,he,rfl⟩ := mem_entryActions.mp ha
    obtain ⟨rfl,e',hget,-,rfl⟩ := (hread k e).mp he
    obtain ⟨p,-,hp,-⟩ := hc.exists_heap hget
    have hrep := hreplicable p e' hp
    have hcount : e'.nstamps.toNat ≤ 255 := by
      have hcells := e'.nstamps_le
      have hshort := toNat_le_of_short hmask
      omega
    rw [← readEntry_eq_faithful hrep.isIpv4 hrep.nonzero]
    exact canonical_row hcount hrep.isIpv4 hname hnul
  obtain ⟨sent,hsent,hcarried⟩ := carry_all hcanonical junk
  have hreceived := received_snapshot hkeyed hcarried
  refine ⟨listener,actions,sent,hround,hsent,?_,fun e hget => ?_,fun k hk => ?_⟩
  · refine named_additions (additions_carried hcarried fun a => additions_entryActions) ?_
    intro key table htable
    simp at htable
  · have hmaster := (hread ⟨name,e.addr.text⟩ _).mpr ⟨rfl,e,hget,rfl,rfl⟩
    have hrel := hreceived ⟨name,e.addr.text⟩
    rw [hmaster] at hrel
    generalize entries (sent.foldl applyRecentAction ∅) ⟨name,e.addr.text⟩ = entry at hrel ⊢
    cases hrel with
    | some hdelivers => exact ⟨_,rfl,hdelivers⟩
  · have hrel := hreceived k
    cases hmaster : entries (actions.foldl applyRecentAction ∅) k with
    | none =>
      rw [hmaster] at hrel
      generalize entries (sent.foldl applyRecentAction ∅) k = entry at hrel hk
      cases hrel
      exact absurd rfl hk
    | some e =>
      obtain ⟨rfl,e',hget,htext,-⟩ := (hread k e).mp hmaster
      exact ⟨rfl,e',hget,htext⟩

theorem Received.addressed (h : Received c name data) (hc : t.Holds c)
    (hreplicable : ∀ p e, t.heap p = some e → e.Replicable) : Addressed data := by
  intro k hk
  obtain ⟨-,e,hget,htext⟩ := h.only k hk
  obtain ⟨p,-,hp,-⟩ := hc.exists_heap hget
  exact ⟨e.addr,(hreplicable p e hp).isIpv4,htext⟩

/-- There is one entry for each address of the cache. -/
theorem Received.size_le (h : Received c name data) {table : XtRecentTable}
    (htable : data[name]? = some table) : table.entries.size ≤ c.size := by
  have hsub : (table.entries.toList.map Prod.fst) ⊆ c.keys.map NfInetAddr.text := by
    intro srcIp hsrcIp
    obtain ⟨⟨_,entry⟩,hentry,rfl⟩ := List.mem_map.mp hsrcIp
    have hfound : entries data ⟨name,_⟩ = some entry :=
      (entries_of_getElem? htable _).trans (Std.ExtTreeMap.mem_toList_iff_getElem?_eq_some.mp hentry)
    obtain ⟨-,e,hget,htext⟩ := h.only _ (by rw [hfound]; exact Option.some_ne_none entry)
    have hkey : e.addr ∈ c.keys := by
      by_contra hout
      rw [Lru.Cache.get_eq_none_iff.mpr hout] at hget
      contradiction
    exact List.mem_map.mpr ⟨e.addr,hkey,htext⟩
  have hlen := (List.subperm_of_subset (Table.nodup_toList table.entries) hsub).length_le
  rw [List.length_map, List.length_map, Std.ExtTreeMap.length_toList, Lru.Cache.keys,
    List.length_map] at hlen
  exact hlen

/-- The daemon writes the store of the backup to a table, which then holds what the master's table held. -/
theorem Received.twins (h : Received c name data) (hmask : nstampsMaxMask ∈ shortMasks) (hc : t.Holds c)
    (hreplicable : ∀ p e, t.heap p = some e → e.Replicable)
    (hgiven : ∀ e, c.get e.addr = some e → ∃ stamps, e.Given e.addr stamps ∧ stamps.Pairwise (· ≤ ·))
    (hroom : c.size ≤ m.ipListTot) (hsome : ∃ e, c.get e.addr = some e) {attempts : ℕ → ProcAttempt}
    (hsucceed : Succeed attempts) {proc : ProcDir} (hheld : HeldFile nstampsMaxMask name proc) :
    ∃ proc' t', writeRecentData m data name attempts proc = some (proc',0) ∧
      proc' name = some ⟨nstampsMaxMask,t'⟩ ∧ Twins t t' := by
  obtain ⟨table,htable⟩ : ∃ table, data[name]? = some table := by
    obtain ⟨e,hget⟩ := hsome
    obtain ⟨entry,hentry,-⟩ := h.found e hget
    obtain ⟨table,htable,-⟩ := entries_eq_some.mp hentry
    exact ⟨table,htable⟩
  have hname := h.named name table htable
  obtain ⟨t₀,c₀,hproc,hc₀⟩ := hheld
  have hproc' : proc table.name = some ⟨nstampsMaxMask,t₀⟩ := hname.symm ▸ hproc
  obtain ⟨t',hwrite,-,hview⟩ := writeRecentData_spec htable (h.addressed hc hreplicable)
    ((h.size_le htable).trans hroom) hsucceed hproc' hc₀.wellFormed
  rw [hname] at hwrite
  have hfile : Function.update proc name (some ⟨nstampsMaxMask,t'⟩) name = some ⟨nstampsMaxMask,t'⟩ :=
    Function.update_self ..
  have hafter : HeldFile nstampsMaxMask name proc := ⟨t₀,c₀,hproc,hc₀⟩
  obtain ⟨t₁,c',ht₁,hc'⟩ := hafter.writeRecentData htable hname hwrite
  obtain rfl : t₁ = t' := by
    rw [hfile] at ht₁
    cases ht₁
    rfl
  refine ⟨_,t₁,hwrite,hfile,c,c',hc,hc',fun addr => ?_⟩
  rw [← hc'.view addr, hview, ← entries_of_getElem? htable]
  cases hget : c.get addr with
  | none =>
    cases hentry : entries data ⟨name,addr.text⟩ with
    | none => exact .none
    | some entry =>
      obtain ⟨-,e,he,htext⟩ := h.only _ (by rw [hentry]; exact Option.some_ne_none entry)
      obtain ⟨p,-,hp,-⟩ := hc.exists_heap he
      rw [NfInetAddr.text_inj (hreplicable p e hp).isIpv4 htext, hget] at he
      contradiction
  | some e =>
    obtain ⟨p,-,hp,rfl⟩ := hc.exists_heap hget
    obtain ⟨entry,hentry,hdelivers⟩ := h.found e hget
    obtain ⟨stamps,hstamps,horder⟩ := hgiven e hget
    obtain ⟨e',hmade,hmirrors⟩ := exists_mirror hmask hstamps horder (hreplicable p e hp).fits
      hdelivers.ttl hdelivers.timestamps
    rw [hentry, Option.bind_some, hmade]
    exact .some hmirrors

/-- An entry was given the visits of its address in order. -/
theorem Kernel.Counted.exists_given {s : LiveTable nstampsMaxMask × List Answer}
    {r : RecentCache Visits × List Answer} {jiffies : UInt64} (h : Counted s r jiffies)
    (hmask : nstampsMaxMask ∈ shortMasks) (hc : s.1.Holds c) (e : RecentEntry nstampsMaxMask)
    (hget : c.get e.addr = some e) : ∃ stamps, e.Given e.addr stamps ∧ stamps.Pairwise (· ≤ ·) := by
  obtain ⟨c',hc',hrel⟩ := h.cache
  obtain rfl : c' = c := Lru.Cache.ext (hc'.items.symm.trans hc.items)
  have hrecords := hrel.get e.addr
  cases hvisits : r.1.get e.addr with
  | none =>
    rw [hget, hvisits] at hrecords
    cases hrecords
  | some v =>
    rw [hget, hvisits] at hrecords
    cases hrecords with
    | some hrecords =>
      obtain ⟨addr,hgiven⟩ := hrecords.given
      obtain ⟨rfl,-⟩ := hgiven.exists_history hmask
      exact ⟨v.stamps,hgiven,(h.timely.get hvisits).1⟩

/-- After a failover the rules of the backup match what those of the master would have matched: a table
that was filled in the course of time is read, sent, received and written, and then every packet has
the same verdict as it would have had, as long as the table does not get full and no rule reaps. -/
theorem rules_agree_after_takeover (hmask : nstampsMaxMask ∈ shortMasks) {answers : List Answer}
    {accesses : List Access} (hmono : (accesses.map Access.jiffies).Pairwise (· ≤ ·))
    (hlate : ∀ a ∈ accesses, a.jiffies.toNat < 9223372036854775808)
    (horderly : Runs.Meets (LiveTable.serve m) (Orderly m) (({} : LiveTable nstampsMaxMask),[]) accesses)
    (hrun : Runs.run (LiveTable.serve m) (({} : LiveTable nstampsMaxMask),[]) accesses = some (t,answers))
    (hreplicable : ∀ p e, t.heap p = some e → e.Replicable) (hsome : t.lruList ≠ [])
    (hname : name.length ≤ 254) (hnul : 0 ∉ name) {ps : List Ptr} (hps : ps.Perm t.lruList) (junk : Memory)
    {attempts : ℕ → ProcAttempt} (hsucceed : Succeed attempts) {proc : ProcDir}
    {t₀ : LiveTable nstampsMaxMask} {accesses₀ : List Access} {answers₀ : List Answer}
    (hplain₀ : ∀ a ∈ accesses₀, a.Plain)
    (hrun₀ : Runs.run (LiveTable.serve m) (({} : LiveTable nstampsMaxMask),[]) accesses₀ = some (t₀,answers₀))
    (hproc : proc name = some ⟨nstampsMaxMask,t₀⟩) :
    ∃ listener actions sent proc' t',
      XtRecentSync.procTask {} [(name,(t.printed name ps).file)] = .ok (listener,actions) ∧
      (entryActions (actions.foldl applyRecentAction ∅)).mapM (carry junk) = some sent ∧
      writeRecentData m (sent.foldl applyRecentAction ∅) name attempts proc = some (proc',0) ∧
      proc' name = some ⟨nstampsMaxMask,t'⟩ ∧
      ∀ packets packets' s, List.Forall₂ SamePacket packets packets' →
        Runs.Meets (LiveTable.serve m) (Uncrowded m) (t,[]) packets →
        Runs.Meets (LiveTable.serve m) (fun s a => s.1.Fresh m.ipListTot a.kmalloc) (t',[]) packets' →
        Runs.run (LiveTable.serve m) (t,[]) packets = some s →
        ∃ t'', Runs.run (LiveTable.serve m) (t',[]) packets' = some (t'',s.2) := by
  have hzero : ∀ a ∈ accesses, (0 : UInt64) ≤ a.jiffies := fun a _ =>
    UInt64.le_iff_toNat_le.mpr (Nat.zero_le _)
  obtain ⟨jiffies,hcounted⟩ := counted_empty.run hmask hzero hmono hlate horderly hrun
  obtain ⟨c,hc,-⟩ := hcounted.cache
  have hplain : ∀ a ∈ accesses, a.Plain := by
    intro a ha
    obtain ⟨s,hs⟩ := horderly.exists_of_run hrun a ha
    exact hs.plain
  have hroom : c.size ≤ m.ipListTot := by
    have hagree := (agree_empty m).run hplain hrun
    rw [← hc.size, hagree.holds.size]
    exact hagree.room
  have hentry : ∃ e, c.get e.addr = some e := by
    obtain ⟨p,hp⟩ := List.exists_mem_of_ne_nil _ hsome
    obtain ⟨e,he⟩ := (hc.wellFormed.live p).mp hp
    exact ⟨e,hc.get he⟩
  obtain ⟨listener,actions,sent,hround,hsent,hreceived⟩ :=
    exists_received hmask hc hreplicable hname hnul hps junk
  have hheld : HeldFile nstampsMaxMask name proc := ⟨t₀,_,hproc,((agree_empty m).run hplain₀ hrun₀).holds⟩
  obtain ⟨proc',t',hwrite,hfile,htwins⟩ :=
    hreceived.twins hmask hc hreplicable (hcounted.exists_given hmask hc) hroom hentry hsucceed hheld
  refine ⟨listener,actions,sent,proc',t',hround,hsent,hwrite,hfile,?_⟩
  intro packets packets' s hsame huncrowded hfresh hpackets
  obtain ⟨t'',hrun',-⟩ := @Twins.run nstampsMaxMask m (t,[]) s (t',[]) htwins rfl hmask packets packets'
    hsame huncrowded hfresh hpackets
  exact ⟨t'',hrun'⟩

end Takeover

section Samples
open XtRecentProc

/-- Two addresses, one of which is seen again. -/
def masterRun : List Access := [setAt 10 1 0,setAt 20 2 1,setAt 30 1 2]

def masterEnd : LiveTable 1 × List Answer :=
  (Runs.run (LiveTable.serve backupModule) ({},[]) masterRun).getD ({},[])

theorem masterRun_run :
    Runs.run (LiveTable.serve backupModule) (({} : LiveTable 1),[]) masterRun = some masterEnd := rfl

theorem masterRun_orderly (s : LiveTable 1 × List Answer) : ∀ a ∈ masterRun, Orderly backupModule s a := by
  intro a ha
  simp only [masterRun, List.mem_cons, List.not_mem_nil, or_false] at ha
  rcases ha with rfl | rfl | rfl <;> exact ⟨fun _ => rfl,by decide⟩

theorem masterEnd_replicable (p : Ptr) (e : RecentEntry 1) (he : masterEnd.1.heap p = some e) :
    e.Replicable := by
  have hplain : ∀ a ∈ masterRun, a.Plain := fun a ha => (masterRun_orderly masterEnd a ha).plain
  have hwf := ((agree_empty backupModule).run hplain masterRun_run).holds.wellFormed
  have hp : p ∈ [1,0] := (hwf.live p).mpr ⟨e,he⟩
  have h₁ : masterEnd.1.heap 1 = some (recentEntryInit 1 (.ip 2 2 2 2) 64 20) := rfl
  have h₀ : masterEnd.1.heap 0 =
      some (recentEntryUpdate (recentEntryInit 1 (.ip 1 1 1 1) 64 10) 30) := rfl
  rcases List.mem_pair.mp hp with rfl | rfl
  · obtain rfl := Option.some.inj (he.symm.trans h₁)
    refine ⟨trivial,fun stamp hstamp => ?_,by decide⟩
    obtain rfl := List.mem_singleton.mp hstamp
    decide
  · obtain rfl := Option.some.inj (he.symm.trans h₀)
    refine ⟨trivial,fun stamp hstamp => ?_,by decide⟩
    rcases List.mem_pair.mp hstamp with rfl | rfl <;> decide

/-- The address that was seen twice before the failover is seen for the third time after it. -/
theorem rules_agree_after_takeover_masterRun :
    ∃ listener actions sent proc' t',
      XtRecentSync.procTask {} [([116,49],(masterEnd.1.printed [116,49] [0,1]).file)] =
        .ok (listener,actions) ∧
      (entryActions (actions.foldl applyRecentAction ∅)).mapM (carry fun _ => 0) = some sent ∧
      writeRecentData backupModule (sent.foldl applyRecentAction ∅) [116,49] nextBlock backupProc =
        some (proc',0) ∧
      proc' [116,49] = some ⟨1,t'⟩ ∧
      ∃ t'', Runs.run (LiveTable.serve backupModule) (t',[]) [seenAt 40] =
        some (t'',[.packet true false]) := by
  have hsucceed : Succeed nextBlock := ⟨fun _ => rfl,fun _ => rfl,fun n => ⟨n,rfl⟩,
    fun _ _ heq => Option.some.inj heq⟩
  have hps : [0,1].Perm masterEnd.1.lruList := List.Perm.swap 1 0 []
  obtain ⟨listener,actions,sent,proc',t',hround,hsent,hwrite,hfile,hagree⟩ :=
    @rules_agree_after_takeover backupModule 1 masterEnd.1 [116,49] (by decide) masterEnd.2 masterRun
      (by decide) (by decide) (Runs.meets_of_forall masterRun_orderly) masterRun_run masterEnd_replicable
      (by decide) (by decide) (by decide) [0,1] hps (fun _ => 0) nextBlock hsucceed backupProc {} [] []
      (by simp) rfl rfl
  refine ⟨listener,actions,sent,proc',t',hround,hsent,hwrite,hfile,?_⟩
  have huncrowded : Uncrowded backupModule (masterEnd.1,[]) (seenAt 40) :=
    ⟨by decide,fun _ => rfl,rfl,Bool.false_ne_true⟩
  have hfresh : t'.Fresh backupModule.ipListTot (seenAt 40).kmalloc := fun _ hp =>
    absurd hp.symm (Option.some_ne_none _)
  exact hagree [seenAt 40] [seenAt 40] _ (.cons (.mk 40 twice (.ip 1 1 1 1) 64 rfl) .nil)
    ⟨huncrowded,fun _ _ => trivial⟩ ⟨hfresh,fun _ _ => trivial⟩ rfl

end Samples
end Ssyncd
