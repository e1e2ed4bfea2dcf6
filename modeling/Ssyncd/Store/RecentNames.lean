import Ssyncd.Codec.XtRecentParser
import Ssyncd.Library.Runs
import Ssyncd.Store.ProcWriters

/-! Whether each table of the replica goes by the name that it is stored under. Reading a table that
is not there makes one without a name, and a flush does not give it one. -/
namespace Ssyncd
namespace Recent

/-- Tables and entries stand under their own names and addresses, so that a table written by name is
the one that is written by its key. -/
structure Represents (data : RecentData) : Prop where
  names : ∀ (key : Bytes) (table : XtRecentTable), data[key]? = some table → table.name = key
  addresses : ∀ (key srcIp : Bytes) (table : XtRecentTable) (e : XtRecentEntry),
    data[key]? = some table → table.entries[srcIp]? = some e → e.srcIp = srcIp
  files : ∀ (key : Bytes) accepts (tables tables' : LineTables) ret,
    ProcWriter.writeRecentData (lineWriter accepts) data key tables = some (tables',ret) →
      ∀ name ≠ key, tables' name = tables name

/-- A flush is of a table that the replica has, or of the one without a name. -/
def FlushesKnown (data : RecentData) (a : XtRecentAction) : Prop :=
  a.action = .named .flushTable → a.xtTableName ∈ data ∨ a.xtTableName = []

def Named (data : RecentData) : Prop :=
  ∀ (key : Bytes) (table : XtRecentTable), data[key]? = some table → table.name = key

theorem Named.represents {data : RecentData} (h : Named data) (hkeyed : Keyed data) :
    Represents data where
  names := h
  addresses key srcIp table e htable he := by
    exact hkeyed ⟨key,srcIp⟩ e ((entries_of_getElem? htable srcIp).trans he)
  files key accepts tables tables' ret hw name hne := by
    rw [writeRecentData_lines] at hw
    cases htable : data[key]? with
    | none =>
      rw [htable] at hw
      obtain ⟨rfl,-⟩ := Prod.mk.inj (Option.some.inj hw)
      rfl
    | some table =>
      rw [htable] at hw
      dsimp only at hw
      split at hw
      · obtain ⟨rfl,-⟩ := Prod.mk.inj (Option.some.inj hw)
        rw [h key table htable, Function.update_of_ne hne]
      · obtain ⟨rfl,-⟩ := Prod.mk.inj (Option.some.inj hw)
        rfl

theorem Named.insert {data : RecentData} (h : Named data) {name : Bytes} {table : XtRecentTable}
    (hname : table.name = name) : Named (data.insert name table) := by
  intro key table' htable
  rw [Std.ExtTreeMap.getElem?_insert] at htable
  split at htable
  · next heq =>
    obtain rfl := Option.some.inj htable
    rw [hname, Std.compare_eq_iff_eq.mp heq]
  · exact h key table' htable

theorem Named.name_getD {data : RecentData} (h : Named data) {name : Bytes} (hmem : name ∈ data) :
    (data.getD name {}).name = name := by
  obtain ⟨table,htable⟩ := Std.ExtTreeMap.isSome_getElem?_iff_mem.mpr hmem |> Option.isSome_iff_exists.mp
  rw [Table.getD_of_getElem? htable]
  exact h name table htable

theorem Named.applyRecentAction {data : RecentData} (h : Named data) {a : XtRecentAction}
    (hflush : FlushesKnown data a) : Named (applyRecentAction data a) := by
  unfold Recent.applyRecentAction
  dsimp only
  split
  · split
    · next hmem => exact h.insert (h.name_getD hmem)
    · exact h
  · next haction =>
    refine h.insert ?_
    by_cases hmem : a.xtTableName ∈ data
    · exact h.name_getD hmem
    · rw [(hflush haction).resolve_left hmem, Std.ExtTreeMap.getD_eq_fallback]
      rw [← (hflush haction).resolve_left hmem]
      exact hmem
  · refine h.insert ?_
    split
    · next hmem => exact h.name_getD hmem
    · rfl
  · exact h

/-- A flush of a table that is not there leaves a table without a name. -/
theorem not_represents_flush {data : RecentData} {a : XtRecentAction} (hflush : ¬FlushesKnown data a) :
    ¬Represents (applyRecentAction data a) := by
  intro h
  obtain ⟨haction,hunknown⟩ := Classical.not_imp.mp hflush
  obtain ⟨hnew,hname⟩ := not_or.mp hunknown
  have hdata : applyRecentAction data a = data.insert a.xtTableName {} := by
    simp [applyRecentAction, haction, Std.ExtTreeMap.getD_eq_fallback hnew]
  rw [hdata] at h
  exact hname (h.names a.xtTableName {} Std.ExtTreeMap.getElem?_insert_self).symm

def applyStep (data : RecentData) (a : XtRecentAction) : Option RecentData :=
  some (applyRecentAction data a)

/-- From the empty store on, each table goes by its own name all along exactly where every flush is of
a table that is there. -/
theorem represents_iff (actions : List XtRecentAction) :
    Runs.Always applyStep Represents ∅ actions ↔ Runs.Meets applyStep FlushesKnown ∅ actions := by
  refine Runs.always_iff_meets (fun data => Named data ∧ Keyed data) (fun data h => h.1.represents h.2)
    ?_ ?_ ⟨?_,keyed_empty⟩
  · rintro data a data' ⟨hnamed,hkeyed⟩ hok hs
    obtain rfl := Option.some.inj hs
    exact ⟨hnamed.applyRecentAction hok,hkeyed.applyRecentAction a⟩
  · exact fun data a _ hok => ⟨_,rfl,not_represents_flush hok⟩
  · intro key table htable
    simp at htable

/-- The packet of a flush of t. -/
def flushPacket : Bytes := [0,0,4,8,0,3,2,116]

/-- Read by a backup that has no such table, it makes one without a name. -/
theorem flushPacket_unnamed :
    ∃ a used, XtRecentActionParser.deserialize (Reader.memory flushPacket fun _ => 0) flushPacket.length =
        some (a,used) ∧ ¬Runs.Always applyStep Represents ∅ [a] := by
  refine ⟨_,_,rfl,fun h => ?_⟩
  refine not_represents_flush (fun hknown => ?_) (h.2 _ rfl)
  rcases hknown rfl with hmem | hname
  · exact Std.ExtTreeMap.not_mem_empty hmem
  · contradiction

end Recent
end Ssyncd
