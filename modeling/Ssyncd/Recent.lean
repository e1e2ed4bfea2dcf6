import Ssyncd.Utils
import Mathlib.Tactic.Common

/-! Entries of the recent tables, the actions on them, and the store that both nodes keep. -/
namespace Ssyncd
namespace Recent

inductive ActionType
  | addUpdEntry | deleteEntry | flushTable | deleteTable
  deriving DecidableEq, Repr

def ActionType.code : ActionType → UInt8
  | addUpdEntry => 1
  | deleteEntry => 2
  | flushTable => 3
  | deleteTable => 4

instance : ByteEnum ActionType where
  values := [.addUpdEntry, .deleteEntry, .flushTable, .deleteTable]
  code := ActionType.code
  mem_values a := by cases a <;> decide
  code_injective a b h := by cases a <;> cases b <;> first | rfl | exact absurd h (by decide)

/-- last_seen is left out: it is set and never read. What C++ leaves uninitialised is zero here. -/
structure XtRecentEntry where
  srcIp : Bytes := []
  ttl : Int := 0
  lastSeenIndex : Int := 0
  ipFamily : ByteEnum.Value IpFamily := .ofByte 0
  timestamps : List UInt64 := []
  deriving DecidableEq

structure XtRecentAction extends ConnPacket where
  type := .named .xtRecentSync
  targetEntry : XtRecentEntry := {}
  action : ByteEnum.Value ActionType
  xtTableName : Bytes := []
  deriving DecidableEq

structure XtRecentTable where
  name : Bytes := []
  entries : Std.ExtTreeMap Bytes XtRecentEntry := ∅
  deriving DecidableEq

/-- By table name, then by source address. -/
abbrev RecentData := Std.ExtTreeMap Bytes XtRecentTable

/-- DELETE_TABLE does nothing: the erase is commented out. -/
def applyRecentAction (data : RecentData) (xaction : XtRecentAction) : RecentData :=
  let table := data.getD xaction.xtTableName {}
  match xaction.action with
  | .named .deleteEntry =>
    if xaction.xtTableName ∈ data then
      data.insert xaction.xtTableName
        { table with entries := table.entries.erase xaction.targetEntry.srcIp }
    else data
  | .named .flushTable => data.insert xaction.xtTableName { table with entries := ∅ }
  | .named .addUpdEntry =>
    let table := if xaction.xtTableName ∈ data then table else { name := xaction.xtTableName }
    data.insert xaction.xtTableName
      { table with entries :=
          table.entries.insert xaction.targetEntry.srcIp xaction.targetEntry }
  | _ => data

def getEntryAsAction (targetTable : Bytes) (entry : XtRecentEntry) (deleteAction : Bool) :
    XtRecentAction where
  action := .named (if deleteAction then .deleteEntry else .addUpdEntry)
  xtTableName := targetTable
  targetEntry := entry

@[simp] theorem targetEntry_getEntryAsAction (targetTable : Bytes) (entry : XtRecentEntry)
    (deleteAction : Bool) : (getEntryAsAction targetTable entry deleteAction).targetEntry = entry := rfl

@[ext] structure EntryKey where
  table : Bytes
  srcIp : Bytes
  deriving DecidableEq

/-- The store read as one flat partial map. -/
def entries (data : RecentData) (k : EntryKey) : Option XtRecentEntry :=
  (data.getD k.table {}).entries[k.srcIp]?

@[simp] theorem entries_empty (k : EntryKey) : entries ∅ k = none := by
  simp [entries]

end Recent
end Ssyncd
