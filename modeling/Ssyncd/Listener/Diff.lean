import Ssyncd.Proc.Table
import Ssyncd.Store.RecentStore
import Mathlib.Data.List.Nodup

/-! The recent listener: each round it reads the files of the directory, compares them with what
it read of them before, and asks for what differs. -/
namespace Ssyncd
open Recent Overlay Kernel XtRecentProc

/-- Its own map of the tables. The queue that it fills is the master's recentInput. -/
structure XtRecentSync where
  recentData : RecentData := ∅

namespace XtRecentSync

/-- What get_table_updates enqueues: the new entries and those with another index, then the
entries that are gone. -/
def updates (tableName : Bytes) (oldEntries newEntries : Std.ExtTreeMap Bytes XtRecentEntry) :
    List XtRecentAction :=
  (newEntries.toList.filterMap fun (srcIp,entry) =>
    match oldEntries[srcIp]? with
    | some oldEntry =>
      if oldEntry.lastSeenIndex != entry.lastSeenIndex then
        some (getEntryAsAction tableName entry false)
      else none
    | none => some (getEntryAsAction tableName entry false)) ++
  oldEntries.toList.filterMap fun (srcIp,entry) =>
    if srcIp ∈ newEntries then none else some (getEntryAsAction tableName entry true)

def getTableUpdates (obj : XtRecentSync) (tableName content : Bytes) :
    Except Fault (List XtRecentAction × XtRecentTable) := do
  let xtable ← getTable tableName content
  return (updates tableName (obj.recentData.getD xtable.name {}).entries xtable.entries,xtable)

/-- One round over the files that the directory lists. -/
def procTask (obj : XtRecentSync) : List (Bytes × Bytes) →
    Except Fault (XtRecentSync × List XtRecentAction)
  | [] => return (obj,[])
  | (tableName,content)::files => do
    let (actions,xtable) ← obj.getTableUpdates tableName content
    let (obj,rest) ← procTask { recentData := obj.recentData.insert tableName xtable } files
    return (obj,actions ++ rest)

/-- What is asked for one address: an entry whose index is the same is left as it is. -/
def diffEffect : Option XtRecentEntry → Option XtRecentEntry → Effect XtRecentEntry
  | some oldEntry, some entry =>
    if oldEntry.lastSeenIndex = entry.lastSeenIndex then .keep else .put entry
  | none, some entry => .put entry
  | some _, none => .drop
  | none, none => .keep

theorem recentEffect_getEntryAsAction (name : Bytes) (e : XtRecentEntry) (deleteAction : Bool)
    (k : EntryKey) : recentEffect (getEntryAsAction name e deleteAction) k =
      if k = ⟨name,e.srcIp⟩ then (if deleteAction then .drop else .put e) else .keep := by
  cases deleteAction <;> rfl

/-- Each entry stands under its own address. -/
def KeyedEntries (es : Std.ExtTreeMap Bytes XtRecentEntry) : Prop :=
  ∀ srcIp (e : XtRecentEntry), es[srcIp]? = some e → e.srcIp = srcIp

theorem keyedEntries_readTable (t : RecentTable) : KeyedEntries (readTable t).entries :=
  fun _ _ h => (getElem?_readTable h).2.1

theorem keyedEntries_of_keyed {data : RecentData} (h : Keyed data) (name : Bytes) :
    KeyedEntries (data.getD name {}).entries :=
  fun srcIp e he => h ⟨name,srcIp⟩ e he

variable {oldEntries newEntries : Std.ExtTreeMap Bytes XtRecentEntry}

/-- The effect of the updates of one table. -/
def tableEffect (tableName : Bytes) (oldEntries newEntries : Std.ExtTreeMap Bytes XtRecentEntry)
    (k : EntryKey) : Effect XtRecentEntry :=
  if k.table = tableName then diffEffect oldEntries[k.srcIp]? newEntries[k.srcIp]? else .keep

theorem tableEffect_getD (data : RecentData) (tableName : Bytes) (k : EntryKey) :
    tableEffect tableName (data.getD tableName {}).entries newEntries k =
      if k.table = tableName then diffEffect (entries data k) newEntries[k.srcIp]? else .keep := by
  rw [tableEffect]
  split
  · next h => rw [entries, h]
  · rfl

theorem mem_updates {tableName : Bytes} {a : XtRecentAction} :
    a ∈ updates tableName oldEntries newEntries ↔
      (∃ (srcIp : Bytes) (e : XtRecentEntry), newEntries[srcIp]? = some e ∧
        (∀ o, oldEntries[srcIp]? = some o → o.lastSeenIndex ≠ e.lastSeenIndex) ∧
        a = getEntryAsAction tableName e false) ∨
      ∃ (srcIp : Bytes) (e : XtRecentEntry), oldEntries[srcIp]? = some e ∧ srcIp ∉ newEntries ∧
        a = getEntryAsAction tableName e true := by
  simp only [updates, List.mem_append, List.mem_filterMap, Prod.exists,
    Std.ExtTreeMap.mem_toList_iff_getElem?_eq_some]
  refine or_congr (exists_congr fun srcIp => exists_congr fun e => and_congr_right fun _ => ?_)
    (exists_congr fun srcIp => exists_congr fun e => and_congr_right fun _ => ?_)
  · cases oldEntries[srcIp]? with
    | none => simp [eq_comm]
    | some o =>
      by_cases hidx : o.lastSeenIndex = e.lastSeenIndex
      · simp [hidx]
      · simp only [bne_iff_ne, ne_eq, hidx, not_false_eq_true, if_true, Option.some.injEq,
          forall_eq', true_and]
        exact eq_comm
  · by_cases hmem : srcIp ∈ newEntries
    · simp [hmem]
    · simp only [hmem, if_false, not_false_eq_true, true_and, Option.some.injEq]
      exact eq_comm

/-- The updates of one table do one thing at each address. -/
theorem patch_updates (hold : KeyedEntries oldEntries) (hnew : KeyedEntries newEntries)
    (tableName : Bytes) :
    Patch recentEffect (updates tableName oldEntries newEntries)
      (tableEffect tableName oldEntries newEntries) where
  only a ha k hk := by
    rcases mem_updates.mp ha with ⟨srcIp,e,he,hidx,rfl⟩ | ⟨srcIp,e,he,hgone,rfl⟩
    · rw [recentEffect_getEntryAsAction] at hk ⊢
      split
      · next heq =>
        obtain rfl := hnew _ _ he
        subst heq
        rw [tableEffect, if_pos rfl, he]
        cases ho : oldEntries[e.srcIp]? with
        | none => rfl
        | some o => exact (if_neg (hidx o ho)).symm
      · next hne => exact absurd (if_neg hne) hk
    · rw [recentEffect_getEntryAsAction] at hk ⊢
      split
      · next heq =>
        obtain rfl := hold _ _ he
        subst heq
        rw [tableEffect, if_pos rfl, he, Std.ExtTreeMap.getElem?_eq_none hgone,
          if_pos rfl]
        rfl
      · next hne => exact absurd (if_neg hne) hk
  covers k hk := by
    unfold tableEffect at hk
    split at hk
    · next htable =>
      cases hn : newEntries[k.srcIp]? with
      | some e =>
        refine ⟨_,mem_updates.mpr (.inl ⟨k.srcIp,e,hn,fun o ho hidx => ?_,rfl⟩),?_⟩
        · rw [hn, ho] at hk
          exact hk (if_pos hidx)
        · rw [recentEffect_getEntryAsAction, if_pos (by rw [hnew _ _ hn, ← htable])]
          simp
      | none =>
        cases ho : oldEntries[k.srcIp]? with
        | some o =>
          have hgone : k.srcIp ∉ newEntries := by
            rw [Std.ExtTreeMap.mem_iff_isSome_getElem?, hn]
            simp
          refine ⟨_,mem_updates.mpr (.inr ⟨k.srcIp,o,ho,hgone,rfl⟩),?_⟩
          rw [recentEffect_getEntryAsAction, if_pos (by rw [hold _ _ ho, ← htable])]
          simp
        | none =>
          rw [hn, ho] at hk
          exact absurd rfl hk
    · exact absurd rfl hk

/-- The table of this name, if it is listed. -/
def listed (tables : List RecentTable) (name : Bytes) : Option RecentTable :=
  tables.find? fun t => t.name == name

theorem listed_eq_some {tables : List RecentTable} (h : (tables.map (·.name)).Nodup) {name : Bytes}
    {t : RecentTable} : listed tables name = some t ↔ t ∈ tables ∧ t.name = name := by
  constructor
  · intro ht
    exact ⟨List.mem_of_find?_eq_some ht,by simpa using List.find?_some ht⟩
  · rintro ⟨hmem,rfl⟩
    obtain ⟨t',ht'⟩ := Option.isSome_iff_exists.mp
      (List.find?_isSome (p := fun t' => t'.name == t.name) |>.mpr ⟨t,hmem,beq_self_eq_true _⟩)
    have hname : t'.name = t.name := by simpa using List.find?_some ht'
    rw [listed, ht', List.inj_on_of_nodup_map h (List.mem_of_find?_eq_some ht') hmem hname]

/-- What is read for an address, where the table is listed, else what was there. -/
def relisted (tables : List RecentTable) (m : EntryKey → Option XtRecentEntry) (k : EntryKey) :
    Option XtRecentEntry :=
  match listed tables k.table with
  | some t => (readTable t).entries[k.srcIp]?
  | none => m k

/-- What a round asks for at an address. -/
def roundEffect (tables : List RecentTable) (m : EntryKey → Option XtRecentEntry) (k : EntryKey) :
    Effect XtRecentEntry :=
  match listed tables k.table with
  | some t => diffEffect (m k) (readTable t).entries[k.srcIp]?
  | none => .keep

def files (tables : List RecentTable) : List (Bytes × Bytes) := tables.map fun t => (t.name,t.file)

theorem getTableUpdates_file (obj : XtRecentSync) (t : RecentTable) :
    obj.getTableUpdates t.name t.file =
      .ok (updates t.name (obj.recentData.getD t.name {}).entries (readTable t).entries,
        readTable t) := by
  rw [getTableUpdates, getTable_file]
  change Except.ok _ = _
  rw [readTable_name]

theorem keyed_relisted {tables : List RecentTable} {data data' : RecentData} (h : Keyed data)
    (heq : ∀ k, entries data' k = relisted tables (entries data) k) : Keyed data' := by
  intro k e he
  rw [heq, relisted] at he
  split at he
  · exact keyedEntries_readTable _ _ _ he
  · exact h k e he

theorem listed_cons (t : RecentTable) (tables : List RecentTable) (name : Bytes) :
    listed (t::tables) name = if t.name = name then some t else listed tables name := by
  rw [listed, List.find?_cons]
  split
  · next h => rw [if_pos (by simpa using h)]
  · next h =>
    rw [if_neg (by simpa using h)]
    rfl

theorem fd_updates {tableName : Bytes} {a : XtRecentAction}
    (h : a ∈ updates tableName oldEntries newEntries) : a.fd = -1 := by
  rcases mem_updates.mp h with ⟨_,_,_,_,rfl⟩ | ⟨_,_,_,_,rfl⟩ <;> rfl

/-- A round over tables of different names reads each of them, and what it asks for is one
update of each address that differs. -/
theorem procTask_files (tables : List RecentTable) (obj : XtRecentSync)
    (hnd : (tables.map (·.name)).Nodup) (hk : Keyed obj.recentData) :
    ∃ data' actions, obj.procTask (files tables) = .ok (⟨data'⟩,actions) ∧
      (∀ a ∈ actions, a.fd = -1) ∧
      (∀ k, entries data' k = relisted tables (entries obj.recentData) k) ∧
      ∀ m k, replay recentEffect m actions k =
        (roundEffect tables (entries obj.recentData) k).act (m k) := by
  induction tables generalizing obj with
  | nil => exact ⟨obj.recentData,[],rfl,by simp,fun _ => rfl,fun _ _ => rfl⟩
  | cons t tables ih =>
    rw [List.map_cons, List.nodup_cons] at hnd
    have hfirst : ∀ k, entries (obj.recentData.insert t.name (readTable t)) k =
        relisted [t] (entries obj.recentData) k := by
      intro k
      rw [entries_insert, relisted, listed_cons]
      split <;> rfl
    obtain ⟨data',rest,hok,hfd,hdata,hreplay⟩ :=
      ih { recentData := obj.recentData.insert t.name (readTable t) } hnd.2
        (keyed_relisted hk hfirst)
    have habsent : listed tables t.name = none := by
      rw [listed, List.find?_eq_none]
      intro t' ht' heq
      exact hnd.1 (List.mem_map.mpr ⟨t',ht',by simpa using heq⟩)
    have hrest : ∀ k, t.name ≠ k.table →
        entries (obj.recentData.insert t.name (readTable t)) k = entries obj.recentData k := by
      intro k hname
      rw [entries_insert, if_neg hname]
    refine ⟨data',updates t.name (obj.recentData.getD t.name {}).entries (readTable t).entries ++ rest,
      ?_,?_,?_,?_⟩
    · rw [files, List.map_cons, procTask, getTableUpdates_file]
      change Except.bind (procTask _ (files tables)) _ = _
      rw [hok]
      rfl
    · intro a ha
      rcases List.mem_append.mp ha with ha | ha
      · exact fd_updates ha
      · exact hfd a ha
    · intro k
      rw [hdata, relisted, relisted, listed_cons]
      by_cases hname : t.name = k.table
      · rw [← hname, habsent, if_pos rfl]
        exact (entries_insert ..).trans (if_pos hname)
      · rw [if_neg hname, hrest k hname]
    · intro m k
      rw [replay_append, hreplay, (patch_updates (keyedEntries_of_keyed hk t.name)
        (keyedEntries_readTable t) t.name).replay, roundEffect, roundEffect, listed_cons]
      by_cases hname : t.name = k.table
      · rw [← hname, habsent, if_pos rfl, Effect.act_keep, tableEffect_getD,
          if_pos hname.symm]
      · rw [if_neg hname, hrest k hname, tableEffect_getD, if_neg (Ne.symm hname), Effect.act_keep]

end XtRecentSync
end Ssyncd
