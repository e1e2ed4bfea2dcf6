import Ssyncd.Recent
import Ssyncd.Library.Overlay
import Ssyncd.Library.Table

/-! The recent tables against the flat map they stand for. -/
namespace Ssyncd
namespace Recent
open Overlay

def XtRecentAction.entryKey (a : XtRecentAction) : EntryKey :=
  ⟨a.xtTableName,a.targetEntry.srcIp⟩

/-- What each action does on the flat map (table, source address) to entry. -/
def recentEffect (a : XtRecentAction) (k : EntryKey) : Effect XtRecentEntry :=
  match a.action with
  | .named .addUpdEntry => if k = a.entryKey then .put a.targetEntry else .keep
  | .named .deleteEntry => if k = a.entryKey then .drop else .keep
  | .named .flushTable => if k.table = a.xtTableName then .drop else .keep
  | _ => .keep

theorem entries_insert (data : RecentData) (name : Bytes) (table : XtRecentTable) (k : EntryKey) :
    entries (data.insert name table) k =
      if name = k.table then table.entries[k.srcIp]? else entries data k := by
  rw [entries, Table.getD_insert_eq]
  split <;> rfl

theorem entries_of_not_mem {data : RecentData} {k : EntryKey} (h : k.table ∉ data) :
    entries data k = none := by
  simp [entries, Std.ExtTreeMap.getD_eq_fallback h]

theorem eq_entryKey_iff (a : XtRecentAction) (k : EntryKey) :
    k = a.entryKey ↔ a.xtTableName = k.table ∧ a.targetEntry.srcIp = k.srcIp := by
  rw [XtRecentAction.entryKey, EntryKey.ext_iff]
  exact and_congr eq_comm eq_comm

/-- One action on the tables is one pointwise update of the flat map. -/
theorem entries_applyRecentAction (data : RecentData) (a : XtRecentAction) :
    entries (applyRecentAction data a) = step recentEffect (entries data) a := by
  funext k
  rcases h : a.action with t | ⟨b,hb⟩
  · cases t with
    | addUpdEntry =>
      simp only [applyRecentAction, h, entries_insert, step, recentEffect, eq_entryKey_iff,
        Std.ExtTreeMap.getElem?_insert, Std.compare_eq_iff_eq]
      by_cases ht : a.xtTableName = k.table
      · simp only [ht, if_true, true_and]
        split
        · rfl
        · by_cases hin : k.table ∈ data
          · simp only [hin, if_true]
            rfl
          · simp [hin, entries_of_not_mem hin]
      · simp [ht]
    | deleteEntry =>
      simp only [applyRecentAction, h, step, recentEffect, eq_entryKey_iff]
      by_cases hin : a.xtTableName ∈ data
      · simp only [hin, if_true, entries_insert, Std.ExtTreeMap.getElem?_erase,
          Std.compare_eq_iff_eq]
        by_cases ht : a.xtTableName = k.table
        · simp only [ht, if_true, true_and]
          split <;> rfl
        · simp [ht]
      · by_cases ht : a.xtTableName = k.table
        · rw [ht] at hin
          simp only [ht, hin, if_false, true_and, entries_of_not_mem hin]
          split <;> rfl
        · simp [ht, hin]
    | flushTable =>
      simp only [applyRecentAction, h, entries_insert, step, recentEffect]
      by_cases ht : a.xtTableName = k.table
      · simp [ht]
      · have ht' : k.table ≠ a.xtTableName := fun he => ht he.symm
        simp [ht, ht']
    | deleteTable => simp [applyRecentAction, h, step, recentEffect]
  · simp [applyRecentAction, h, step, recentEffect]

/-- Each entry is stored under its own address. -/
def Keyed (data : RecentData) : Prop :=
  ∀ k e, entries data k = some e → e.srcIp = k.srcIp

theorem keyed_empty : Keyed ∅ := by simp [Keyed]

theorem recentEffect_put {a : XtRecentAction} {k : EntryKey} {e : XtRecentEntry}
    (h : recentEffect a k = .put e) : k = a.entryKey ∧ e = a.targetEntry := by
  unfold recentEffect at h
  split at h
  · split at h
    · next hk => exact ⟨hk,(Effect.put.inj h).symm⟩
    · contradiction
  · split at h <;> contradiction
  · split at h <;> contradiction
  · contradiction

theorem action_of_put {a : XtRecentAction} {k : EntryKey} {e : XtRecentEntry}
    (h : recentEffect a k = .put e) : a.action = .named .addUpdEntry := by
  unfold recentEffect at h
  split at h
  · next hadd => exact hadd
  · split at h <;> contradiction
  · split at h <;> contradiction
  · contradiction

theorem Keyed.applyRecentAction {data : RecentData} (h : Keyed data) (a : XtRecentAction) :
    Keyed (applyRecentAction data a) := by
  intro k e he
  rw [entries_applyRecentAction] at he
  simp only [step] at he
  cases hf : recentEffect a k with
  | keep =>
    rw [hf] at he
    exact h k e he
  | put v =>
    rw [hf, Effect.act_put] at he
    obtain ⟨rfl,rfl⟩ := recentEffect_put hf
    rw [← Option.some.inj he]
    rfl
  | drop =>
    rw [hf] at he
    contradiction

/-- The additions that name every entry of every table. -/
def entryActions (data : RecentData) : List XtRecentAction :=
  data.toList.flatMap fun (name,table) =>
    table.entries.toList.map fun (_,entry) => getEntryAsAction name entry false

/-- The entries of a stored table. -/
theorem entries_of_getElem? {data : RecentData} {name : Bytes} {table : XtRecentTable}
    (h : data[name]? = some table) (srcIp : Bytes) :
    entries data ⟨name,srcIp⟩ = table.entries[srcIp]? := by
  rw [entries, Table.getD_of_getElem? h]

theorem entries_eq_some {data : RecentData} {k : EntryKey} {e : XtRecentEntry} :
    entries data k = some e ↔ ∃ table, data[k.table]? = some table ∧ table.entries[k.srcIp]? = some e :=
  Table.getD_iff (P := fun table : XtRecentTable => table.entries[k.srcIp]? = some e) (by simp)

theorem mem_entryActions {data : RecentData} {a : XtRecentAction} :
    a ∈ entryActions data ↔ ∃ k e, entries data k = some e ∧ a = getEntryAsAction k.table e false := by
  simp only [entryActions, List.mem_flatMap, List.mem_map, Prod.exists,
    Std.ExtTreeMap.mem_toList_iff_getElem?_eq_some, entries_eq_some]
  constructor
  · rintro ⟨name,table,ht,ip,e,he,rfl⟩
    exact ⟨⟨name,ip⟩,e,⟨table,ht,he⟩,rfl⟩
  · rintro ⟨k,e,⟨table,ht,he⟩,rfl⟩
    exact ⟨k.table,table,ht,k.srcIp,e,he,rfl⟩

theorem recentEffect_entry (name : Bytes) (e : XtRecentEntry) (k : EntryKey) :
    recentEffect (getEntryAsAction name e false) k =
      if k = ⟨name,e.srcIp⟩ then .put e else .keep := rfl

theorem snapshot_entryActions {data : RecentData} (h : Keyed data) :
    Snapshot recentEffect (entries data) (entryActions data) where
  fixed a ha := by
    obtain ⟨k,e,he,rfl⟩ := mem_entryActions.mp ha
    funext k'
    rw [step, recentEffect_entry, h k e he]
    split
    · next hk => rw [hk, he, Effect.act_put]
    · rfl
  covers k hk := by
    obtain ⟨e,he⟩ := Option.ne_none_iff_exists'.mp hk
    refine ⟨_,mem_entryActions.mpr ⟨k,e,he,rfl⟩,?_⟩
    rw [recentEffect_entry, if_pos (by rw [h k e he])]
    simp

end Recent
end Ssyncd
