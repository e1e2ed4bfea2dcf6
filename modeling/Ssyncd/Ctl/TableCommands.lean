import Ssyncd.Ctl.CommandCodec
import Ssyncd.Store.RecentWrite

/-! The commands for the recent tables, from the command line to the function of the worker that the
control task calls. -/
namespace Ssyncd
open Recent Kernel Reader

/-- What a write does to one file leaves every other file as it is. -/
def ProcWriter.Local {P F : Type} (write : ProcWriter P) (file : P → Bytes → F) : Prop :=
  ∀ n name input proc proc' ret, write n name input proc = some (proc',ret) →
    ∀ name' ≠ name, file proc' name' = file proc name'

theorem local_moduleWriter (m : RecentModule) (attempts : ℕ → ProcAttempt) :
    (moduleWriter m attempts).Local (fun proc name => proc name) := by
  intro n name input proc proc' ret h name' hne
  change writeProc m (attempts n) name input proc = some (proc',ret) at h
  unfold writeProc at h
  split at h
  · obtain ⟨⟨t,ret'⟩,-,heq⟩ := Option.map_eq_some_iff.mp h
    obtain ⟨rfl,-⟩ := Prod.mk.inj heq
    exact Function.update_of_ne hne ..
  · obtain ⟨rfl,-⟩ := Prod.mk.inj (Option.some.inj h)
    rfl

namespace ProcWriter
variable {P F : Type} {write : ProcWriter P} {file : P → Bytes → F}

theorem Local.dataEntries (h : write.Local file) {name : Bytes} {list : List (Bytes × XtRecentEntry)}
    {n : ℕ} {proc proc' : P} (hw : write.dataEntries name list n proc = some proc') {name' : Bytes}
    (hne : name' ≠ name) : file proc' name' = file proc name' := by
  induction list generalizing n proc with
  | nil =>
    obtain rfl := Option.some.inj hw
    rfl
  | cons entry rest ih =>
    obtain ⟨⟨proc₁,ret⟩,hfirst,hrest⟩ := Option.bind_eq_some_iff.mp hw
    exact (ih hrest).trans (h n name _ proc proc₁ ret hfirst name' hne)

/-- Only the file of the table that has the name is written. -/
theorem Local.writeRecentData (h : write.Local file) {data : RecentData} {tableName : Bytes}
    {proc proc' : P} {ret : Int}
    (hw : write.writeRecentData data tableName proc = some (proc',ret)) {name : Bytes}
    (hne : ∀ table, data[tableName]? = some table → name ≠ table.name) : file proc' name = file proc name := by
  unfold ProcWriter.writeRecentData at hw
  cases htable : data[tableName]? with
  | none =>
    rw [htable] at hw
    obtain ⟨rfl,-⟩ := Prod.mk.inj (Option.some.inj hw)
    rfl
  | some table =>
    rw [htable] at hw
    obtain ⟨⟨proc₁,ret₁⟩,hflush,hrest⟩ := Option.bind_eq_some_iff.mp hw
    have hflushed := h 0 table.name _ proc proc₁ ret₁ hflush name (hne table htable)
    dsimp only at hrest
    split at hrest
    · obtain ⟨rfl,-⟩ := Prod.mk.inj (Option.some.inj hrest)
      exact hflushed
    · obtain ⟨proc₂,hentries,heq⟩ := Option.map_eq_some_iff.mp hrest
      obtain ⟨rfl,-⟩ := Prod.mk.inj heq
      exact (h.dataEntries hentries (hne table htable)).trans hflushed

end ProcWriter

namespace Controller
open CommandPktParser

/-- The functions of the worker that write or clear the recent tables. -/
inductive RecentCall
  | writeRecentAll
  | writeRecentData (tableName : Bytes)
  | clearAllRecentData
  | clearRecentData (tableName : Bytes)
  deriving DecidableEq

/-- The cases of the control task that call one of them. -/
def ctlTaskCall (pkt : CommandPkt) : Option RecentCall :=
  match pkt.command with
  | .named .writeRecent => some .writeRecentAll
  | .named .clearRecent => some .clearAllRecentData
  | .named .clearRecentTable => some (.clearRecentData pkt.commandData)
  | .named .writeRecentTable => some (.writeRecentData pkt.commandData)
  | _ => none

/-- The call, with what the control task answers. -/
def RecentCall.run {P : Type} (write : ProcWriter P) (data : RecentData) (proc : P) :
    RecentCall → Option (RecentData × P × List String)
  | writeRecentAll => (write.writeRecentAll data proc).map fun (proc,ok) =>
    (data,proc,["writing data",
      if ok then "recent data written correclty" else "error writing recent data"])
  | clearAllRecentData => (write.clearAllRecentData data.keys 0 data proc).map fun (data,proc) =>
    (data,proc,[])
  | clearRecentData tableName => (write.clearRecentData data tableName 0 proc).map fun (data,proc,res) =>
    (data,proc,[if res = 0 then "table cleared correclty"
      else if res = -2 then "table doesn't exist" else "error clearing table"])
  | writeRecentData tableName => (write.writeRecentData data tableName proc).map fun (proc,res) =>
    (data,proc,[if res = 0 then "table written correclty"
      else if res = -2 then "table doesn't exist" else "error writing table"])

/-- From the words of a command line to the call that they cause. What the buffer of the control task
holds behind the command is of no account. -/
def callOf (argv : List Bytes) (junk : Memory) : Option RecentCall := do
  let pkt ← main argv
  let (out,_) ← (serialize pkt).toOption
  let (pkt,_) ← deserialize (memory out junk) out.length
  ctlTaskCall pkt

inductive TableWord
  | write | clear
  deriving DecidableEq

def TableWord.commandLine (word : TableWord) (tableName : Bytes) : List Bytes :=
  match word with
  | write => words ["write","recent","table"] ++ [tableName]
  | clear => words ["clear","recent","table"] ++ [tableName]

/-- What the words say. -/
def TableWord.call (word : TableWord) (tableName : Bytes) : RecentCall :=
  match word with
  | write => .writeRecentData tableName
  | clear => .clearRecentData tableName

/-- A table stands under its own name, or has none. -/
def TablesNamed (data : RecentData) : Prop :=
  ∀ (key : Bytes) (table : XtRecentTable), data[key]? = some table → table.name = key ∨ table.name = []

theorem tablesNamed_empty : TablesNamed ∅ := by simp [TablesNamed]

/-- Whatever the actions, the replica stays so. -/
theorem TablesNamed.applyRecentAction {data : RecentData} (h : TablesNamed data) (a : XtRecentAction) :
    TablesNamed (applyRecentAction data a) := by
  have hget : ∀ name, (data.getD name {}).name = name ∨ (data.getD name {}).name = [] := by
    intro name
    cases htable : data[name]? with
    | none => exact .inr (by rw [Std.ExtTreeMap.getD_eq_getD_getElem?, htable]; rfl)
    | some table =>
      rw [Table.getD_of_getElem? htable]
      exact h name table htable
  have hinsert : ∀ name (table : XtRecentTable), table.name = name ∨ table.name = [] →
      TablesNamed (data.insert name table) := by
    intro name table hname key table' htable'
    rw [Std.ExtTreeMap.getElem?_insert] at htable'
    split at htable'
    · next heq =>
      obtain rfl := Option.some.inj htable'
      rwa [← Std.compare_eq_iff_eq.mp heq]
    · exact h key table' htable'
  unfold Recent.applyRecentAction
  dsimp only
  split
  · split
    · exact hinsert _ _ (hget _)
    · exact h
  · exact hinsert _ _ (hget _)
  · refine hinsert _ _ ?_
    split
    · exact hget _
    · exact .inl rfl
  · exact h

theorem tablesNamed_replica (actions : List XtRecentAction) :
    TablesNamed (actions.foldl Recent.applyRecentAction ∅) := by
  have hall : ∀ data, TablesNamed data → TablesNamed (actions.foldl Recent.applyRecentAction data) := by
    induction actions with
    | nil => exact fun _ h => h
    | cons a actions ih => exact fun data h => ih _ (h.applyRecentAction a)
  exact hall ∅ tablesNamed_empty

/-- The words call the function for the table, and it leaves every other table as it is: of the
replica, and of the kernel, which has no file without a name. -/
structure TouchesOnly (word : TableWord) (tableName : Bytes) : Prop where
  call : ∀ junk, callOf (word.commandLine tableName) junk = some (word.call tableName)
  others : ∀ m (attempts : ℕ → ProcAttempt) data proc data' proc' answers, TablesNamed data → proc [] = none →
    ∀ junk call, callOf (word.commandLine tableName) junk = some call →
      call.run (moduleWriter m attempts) data proc = some (data',proc',answers) →
        ∀ name ≠ tableName, proc' name = proc name ∧ data'[name]? = data[name]?

theorem ctlTaskCall_of_carries {p q : CommandPkt} (h : p.Carries q) : ctlTaskCall q = ctlTaskCall p := by
  unfold ctlTaskCall
  rw [h.command]
  split
  · rfl
  · rfl
  · next hc => rw [h.commandData (.inr (.inl hc))]
  · next hc => rw [h.commandData (.inl hc)]
  · rfl

/-- What main builds gets through to the dispatcher, where it has room in its packet. -/
theorem callOf_eq {argv : List Bytes} {p : CommandPkt} (hmain : main argv = some p) (hs : p.Sendable)
    (hclient : p.command ≠ .named .swToClient) (junk : Memory) : callOf argv junk = ctlTaskCall p := by
  obtain ⟨⟨out,p'⟩,hout⟩ := serialize_eq_ok.mpr fun h => hclient h.1
  obtain ⟨q,hread,hcarries⟩ := (hs.roundTrips out p' hout).2 junk
  rw [callOf, hmain, Option.bind_eq_bind, Option.bind_some, hout]
  change (deserialize (memory out junk) out.length).bind (fun r => ctlTaskCall r.1) = _
  rw [hread]
  exact ctlTaskCall_of_carries hcarries

theorem main_commandLine (word : TableWord) (tableName : Bytes) :
    main (word.commandLine tableName) = ((nameTable tableName
      { command := .named (match word with | .write => .writeRecent | .clear => .clearRecent) }).bind
        some).filter fun pkt => pkt.command ≠ .named .void := by
  cases word <;> rfl

theorem sendable_of_recent {p : CommandPkt}
    (h : p.command = .named .writeRecent ∨ p.command = .named .clearRecent) : p.Sendable := by
  refine ⟨fun hc => ?_,fun hc => ?_,fun hc => ?_⟩
  all_goals
    rcases h with h | h <;> rw [h] at hc <;> exact absurd hc (by decide)

/-- Any other name is of no account: all tables are written or cleared. -/
theorem callOf_commandLine (word : TableWord) {tableName : Bytes} (h : tableName ≠ ascii "*")
    (junk : Memory) : callOf (word.commandLine tableName) junk =
      some (match word with | .write => .writeRecentAll | .clear => .clearAllRecentData) := by
  cases word with
  | write =>
    have hmain : main (TableWord.write.commandLine tableName) =
        some { command := .named .writeRecent, commandData := tableName } := by
      rw [main_commandLine, nameTable, if_neg h]
      rfl
    exact callOf_eq hmain (sendable_of_recent (.inl rfl)) nofun junk
  | clear =>
    have hmain : main (TableWord.clear.commandLine tableName) =
        some { command := .named .clearRecent, commandData := tableName } := by
      rw [main_commandLine, nameTable, if_neg h]
      rfl
    exact callOf_eq hmain (sendable_of_recent (.inr rfl)) nofun junk

theorem callOf_write_star (junk : Memory) :
    callOf (TableWord.write.commandLine (ascii "*")) junk = some (.writeRecentData (ascii "*")) := by
  have hmain : main (TableWord.write.commandLine (ascii "*")) =
      some { command := .named .writeRecentTable, commandData := ascii "*" } := rfl
  refine callOf_eq hmain ⟨fun _ => by decide,fun hc => ?_,nofun⟩ nofun junk
  exact absurd hc (by decide)

/-- A clear of `*` is refused. -/
theorem callOf_clear_star (junk : Memory) :
    callOf (TableWord.clear.commandLine (ascii "*")) junk = none := rfl

theorem writeRecentData_others {m : RecentModule} {attempts : ℕ → ProcAttempt} {data : RecentData}
    {proc proc' : ProcDir} {tableName : Bytes} {ret : Int} (hnamed : TablesNamed data)
    (hproc : proc [] = none)
    (hw : (moduleWriter m attempts).writeRecentData data tableName proc = some (proc',ret)) {name : Bytes}
    (hne : name ≠ tableName) : proc' name = proc name := by
  by_cases hall : ∀ table, data[tableName]? = some table → name ≠ table.name
  · exact (local_moduleWriter m attempts).writeRecentData hw hall
  · -- The table has no name, and the flush of no file fails.
    push Not at hall
    obtain ⟨table,htable,rfl⟩ := hall
    have hnil : table.name = [] := (hnamed tableName table htable).resolve_left hne
    have hflush : moduleWriter m attempts 0 table.name [47] proc = some (proc,-1) := by
      rw [moduleWriter, writeProc, hnil, hproc]
    rw [ProcWriter.writeRecentData, htable] at hw
    dsimp only at hw
    rw [hflush] at hw
    obtain ⟨rfl,-⟩ := Prod.mk.inj (Option.some.inj hw)
    rfl

/-- The words touch only the table that they name where they are a write and the name is `*`. -/
theorem touchesOnly_iff (word : TableWord) (tableName : Bytes) :
    TouchesOnly word tableName ↔ word = .write ∧ tableName = ascii "*" := by
  constructor
  · intro h
    have hcall := h.call fun _ => 0
    by_cases hstar : tableName = ascii "*"
    · cases word with
      | write => exact ⟨rfl,hstar⟩
      | clear =>
        rw [hstar, callOf_clear_star] at hcall
        contradiction
    · rw [callOf_commandLine word hstar] at hcall
      cases word <;> cases hcall
  · rintro ⟨rfl,rfl⟩
    refine ⟨fun junk => callOf_write_star junk,?_⟩
    intro m attempts data proc data' proc' answers hnamed hproc junk call hcall hrun name hne
    rw [callOf_write_star] at hcall
    obtain rfl := Option.some.inj hcall
    obtain ⟨⟨proc₁,ret⟩,hw,heq⟩ := Option.map_eq_some_iff.mp hrun
    obtain ⟨rfl,hrest⟩ := Prod.mk.inj heq
    obtain ⟨rfl,-⟩ := Prod.mk.inj hrest
    exact ⟨writeRecentData_others hnamed hproc hw hne,rfl⟩

/-- A replica of two tables, each with an entry. -/
def twoTables : RecentData :=
  applyRecentAction (applyRecentAction ∅ (getEntryAsAction (ascii "t") { srcIp := ascii "10.0.0.1" } false))
    (getEntryAsAction (ascii "u") { srcIp := ascii "10.0.0.2" } false)

/-- A clear of one table clears the other too. -/
theorem clear_touches_all : ¬TouchesOnly .clear (ascii "t") ∧
    ∃ call, callOf (TableWord.clear.commandLine (ascii "t")) (fun _ => 0) = some call ∧
      ∃ tables, call.run (lineWriter fun _ => true) twoTables (fun _ => [ascii "10.0.0.2"]) =
          some (twoTables,tables,[]) ∧ tables (ascii "u") = [] := by
  have hname : ascii "t" ≠ ascii "*" := by decide
  have hcall := callOf_commandLine .clear hname fun _ => 0
  refine ⟨fun h => ?_,_,hcall,?_⟩
  · have hother := h.call fun _ => 0
    rw [hcall] at hother
    cases hother
  · exact ⟨_,rfl,rfl⟩

end Controller
end Ssyncd
