import Ssyncd.Listener.Diff
import Ssyncd.Kernel.Update

/-! What a store that holds the table as it was last read becomes when the updates are applied. -/
namespace Ssyncd

namespace Kernel
variable {nstampsMaxMask : UInt8}

/-- What can happen to the entries of a table between two rounds. -/
inductive EntriesStep : List (RecentEntry nstampsMaxMask) → List (RecentEntry nstampsMaxMask) → Prop
  | init (es) (addr : NfInetAddr) (ttl : UInt8) (nstamp : UInt64) :
      EntriesStep es (es ++ [recentEntryInit nstampsMaxMask addr ttl nstamp])
  | update (before) (e : RecentEntry nstampsMaxMask) (after) (nstamp : UInt64) (ttl : UInt8) :
      EntriesStep (before ++ e::after) (before ++ { recentEntryUpdate e nstamp with ttl }::after)
  | remove (before) (e : RecentEntry nstampsMaxMask) (after) :
      EntriesStep (before ++ e::after) (before ++ after)

/-- A table of the same name and mask, after any number of such steps. -/
inductive Later : RecentTable → RecentTable → Prop
  | refl (t : RecentTable) : Later t t
  | step {t : RecentTable} {name : Bytes} {nstampsMaxMask : UInt8}
      {es es' : List (RecentEntry nstampsMaxMask)} (later : Later t ⟨name,nstampsMaxMask,es⟩)
      (h : EntriesStep es es') : Later t ⟨name,nstampsMaxMask,es'⟩

end Kernel

namespace XtRecentSync
open Recent Overlay Kernel XtRecentProc

theorem entries_applyAll (actions : List XtRecentAction) (data : RecentData) :
    entries (actions.foldl applyRecentAction data) = replay recentEffect (entries data) actions := by
  induction actions generalizing data with
  | nil => rfl
  | cons a actions ih => rw [List.foldl_cons, ih, entries_applyRecentAction, replay_cons]

/-- The store of one table is the table that was read. -/
def HoldsTable (data : RecentData) (t : RecentTable) : Prop :=
  ∀ srcIp : Bytes, entries data ⟨t.name,srcIp⟩ = (readTable t).entries[srcIp]?

/-- An address that both tables have with the same index has the same ttl and stamps. -/
def IndexTells (old new : RecentTable) : Prop :=
  ∀ (srcIp : Bytes) (oldEntry entry : XtRecentEntry), (readTable old).entries[srcIp]? = some oldEntry →
    (readTable new).entries[srcIp]? = some entry →
      oldEntry.lastSeenIndex = entry.lastSeenIndex →
        oldEntry.ttl = entry.ttl ∧ oldEntry.timestamps = entry.timestamps

theorem ipFamily_readTable {t : RecentTable} {srcIp : Bytes} {e : XtRecentEntry}
    (h : (readTable t).entries[srcIp]? = some e) : e.ipFamily = .named .ipv4 := by
  obtain ⟨-,-,e',-,he⟩ := getElem?_readTable h
  rw [← he, readEntry]

theorem entry_eq_iff {o e : XtRecentEntry} (hsrc : o.srcIp = e.srcIp)
    (hfamily : o.ipFamily = e.ipFamily) (hindex : o.lastSeenIndex = e.lastSeenIndex) :
    o = e ↔ o.ttl = e.ttl ∧ o.timestamps = e.timestamps := by
  cases o
  cases e
  simp_all

/-- What is read differs in its address, ttl, index and stamps only. -/
theorem readTable_eq_iff {old new : RecentTable} {srcIp : Bytes} {oldEntry entry : XtRecentEntry}
    (ho : (readTable old).entries[srcIp]? = some oldEntry)
    (hn : (readTable new).entries[srcIp]? = some entry)
    (hindex : oldEntry.lastSeenIndex = entry.lastSeenIndex) :
    oldEntry = entry ↔ oldEntry.ttl = entry.ttl ∧ oldEntry.timestamps = entry.timestamps :=
  entry_eq_iff ((getElem?_readTable ho).2.1.trans (getElem?_readTable hn).2.1.symm)
    ((ipFamily_readTable ho).trans (ipFamily_readTable hn).symm) hindex

theorem act_diffEffect_eq_new {old new : Option XtRecentEntry} :
    (diffEffect old new).act old = new ↔
      ∀ o e, old = some o → new = some e → o.lastSeenIndex = e.lastSeenIndex → o = e := by
  cases old with
  | none => cases new <;> simp [diffEffect]
  | some o =>
    cases new with
    | none => simp [diffEffect]
    | some e =>
      rw [diffEffect]
      by_cases hidx : o.lastSeenIndex = e.lastSeenIndex
      · simp [hidx]
      · simp [hidx]

/-- The updates bring a store from the old table to the new one exactly when an equal index tells
an equal entry. -/
theorem updates_patch_iff {obj : XtRecentSync} {data : RecentData} {old new : RecentTable}
    (hname : new.name = old.name) (hrecorded : obj.recentData[old.name]? = some (readTable old))
    (hstore : HoldsTable data old) {actions : List XtRecentAction} {xtable : XtRecentTable}
    (hdiff : obj.getTableUpdates new.name new.file = .ok (actions,xtable)) :
    HoldsTable (actions.foldl applyRecentAction data) new ↔ IndexTells old new := by
  rw [← hname] at hrecorded
  rw [getTableUpdates_file, Table.getD_of_getElem? hrecorded] at hdiff
  obtain ⟨rfl,-⟩ := Prod.mk.inj (Except.ok.inj hdiff)
  have hkey : ∀ srcIp : Bytes, entries ((updates new.name (readTable old).entries
      (readTable new).entries).foldl applyRecentAction data) ⟨new.name,srcIp⟩ =
        (diffEffect (readTable old).entries[srcIp]? (readTable new).entries[srcIp]?).act
          (readTable old).entries[srcIp]? := by
    intro srcIp
    rw [entries_applyAll, (patch_updates (keyedEntries_readTable old) (keyedEntries_readTable new)
      new.name).replay, tableEffect, if_pos rfl, ← hstore srcIp, hname]
  refine forall_congr' fun srcIp => ?_
  rw [hkey, act_diffEffect_eq_new]
  refine forall_congr' fun o => forall_congr' fun e => ?_
  exact forall_congr' fun ho => forall_congr' fun hn => forall_congr' fun hidx =>
    readTable_eq_iff ho hn hidx

section Samples

/-- A client whose ring of four cells is full. -/
def fullRing : RecentEntry 3 := updateAll (recentEntryInit 3 (.ip 1 2 3 4) 64 1) [2,3,4]

def tableOf (e : RecentEntry 3) : RecentTable := ⟨[116],3,[e]⟩

def listenerOf (t : RecentTable) : XtRecentSync where
  recentData := Std.ExtTreeMap.insert ∅ t.name (readTable t)

theorem holdsTable_listenerOf (t : RecentTable) : HoldsTable (listenerOf t).recentData t := by
  intro srcIp
  rw [listenerOf, entries_insert, if_pos rfl]

theorem recorded_listenerOf (t : RecentTable) :
    (listenerOf t).recentData[t.name]? = some (readTable t) := by
  simp [listenerOf]

/-- The updates that a round asks for when one entry becomes another. -/
def roundOf (e e' : RecentEntry 3) : List XtRecentAction :=
  updates [116] (readTable (tableOf e)).entries (readTable (tableOf e')).entries

theorem getTableUpdates_roundOf (e e' : RecentEntry 3) :
    (listenerOf (tableOf e)).getTableUpdates (tableOf e').name (tableOf e').file =
      .ok (roundOf e e',readTable (tableOf e')) := by
  have hrecorded : (listenerOf (tableOf e)).recentData[(tableOf e').name]? = some (readTable (tableOf e)) :=
    recorded_listenerOf (tableOf e)
  rw [getTableUpdates_file, Table.getD_of_getElem? hrecorded]
  rfl

theorem readEntry_of_tableOf {e : RecentEntry 3} {srcIp : Bytes} {entry : XtRecentEntry}
    (h : (readTable (tableOf e)).entries[srcIp]? = some entry) : readEntry e = entry := by
  obtain ⟨-,-,e',he,hread⟩ := getElem?_readTable h
  rw [← List.mem_singleton.mp he]
  exact hread

/-- One more stamp is told by the index. -/
theorem updates_patch_sample :
    HoldsTable ((roundOf fullRing (recentEntryUpdate fullRing 5)).foldl applyRecentAction
      (listenerOf (tableOf fullRing)).recentData) (tableOf (recentEntryUpdate fullRing 5)) := by
  have hnew := getTableUpdates_roundOf fullRing (recentEntryUpdate fullRing 5)
  have hname : (tableOf (recentEntryUpdate fullRing 5)).name = (tableOf fullRing).name := rfl
  have hiff := updates_patch_iff hname (recorded_listenerOf (tableOf fullRing))
    (holdsTable_listenerOf (tableOf fullRing)) hnew
  refine hiff.mpr ?_
  intro srcIp o e ho he hidx
  rw [← readEntry_of_tableOf ho, ← readEntry_of_tableOf he] at hidx
  have hindex : fullRing.index.toNat = (recentEntryUpdate fullRing 5).index.toNat :=
    Int.ofNat.inj hidx
  exact absurd hindex (by decide)

theorem later_updateAll (e : RecentEntry 3) (nstamps : List UInt64) :
    Later (tableOf e) (tableOf (updateAll e nstamps)) := by
  have hall : ∀ e' : RecentEntry 3, Later (tableOf e) (tableOf e') →
      Later (tableOf e) (tableOf (updateAll e' nstamps)) := by
    induction nstamps with
    | nil => exact fun _ h => h
    | cons nstamp nstamps ih =>
      intro e' h
      exact ih (recentEntryUpdate e' nstamp) (.step h (.update [] e' [] nstamp e'.ttl))
  exact hall e (.refl _)

/-- Four more stamps bring the index back. -/
theorem wrapped_ring_missed : ¬ ∀ (obj : XtRecentSync) (data : RecentData) (old new : RecentTable)
    (actions : List XtRecentAction) (xtable : XtRecentTable), Later old new →
      obj.recentData[old.name]? = some (readTable old) → HoldsTable data old →
        obj.getTableUpdates new.name new.file = .ok (actions,xtable) →
          HoldsTable (actions.foldl applyRecentAction data) new := by
  intro h
  have hlater := later_updateAll fullRing [5,6,7,8]
  have hnew := getTableUpdates_roundOf fullRing (updateAll fullRing [5,6,7,8])
  have hheld := h _ _ _ _ _ _ hlater (recorded_listenerOf (tableOf fullRing))
    (holdsTable_listenerOf (tableOf fullRing)) hnew fullRing.addr.text
  revert hheld
  decide

end Samples

end XtRecentSync
end Ssyncd
