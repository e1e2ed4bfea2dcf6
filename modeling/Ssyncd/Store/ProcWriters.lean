import Ssyncd.Store.RecentStore
import Ssyncd.Kernel.Copy
import Ssyncd.Kernel.UpdateLine

/-! The functions that write the replica of the recent tables to the kernel, over any account of
what an open and a write of a proc file do; and the plainest such account, in which a table is the
lines that were accepted since its last flush. -/
namespace Ssyncd
open Recent Kernel

/-- An open and a write of a file: which one of the call it is, the name, and what is written. -/
abbrev ProcWriter (P : Type) := ℕ → Bytes → Bytes → P → Option (P × Int)

def entryLine (entry : Bytes × XtRecentEntry) : Bytes :=
  updateLine entry.1 entry.2.ttl (sorted entry.2.timestamps)

namespace ProcWriter
variable {P : Type}

/-- The entries as `write_recent_data` writes them: a line that fails is passed over. -/
def dataEntries (write : ProcWriter P) (name : Bytes) :
    List (Bytes × XtRecentEntry) → ℕ → P → Option P
  | [], _, proc => some proc
  | entry::rest, n, proc =>
    (write n name (entryLine entry) proc).bind fun (proc,_) => dataEntries write name rest (n+1) proc

/-- The writes from the next one on. -/
theorem dataEntries_succ (write : ProcWriter P) (name : Bytes) (list : List (Bytes × XtRecentEntry))
    (n : ℕ) (proc : P) :
    write.dataEntries name list (n+1) proc = dataEntries (fun k => write (k+1)) name list n proc := by
  induction list generalizing n proc with
  | nil => rfl
  | cons entry rest ih =>
    rw [dataEntries, dataEntries]
    exact congrArg _ (funext fun r => ih (n+1) r.1)

/-- A flush, and the entries; the table is found by its key, and its file by its name. -/
def writeRecentData (write : ProcWriter P) (data : RecentData) (tableName : Bytes) (proc : P) :
    Option (P × Int) :=
  match data[tableName]? with
  | none => some (proc,-2)
  | some table =>
    (write 0 table.name [47] proc).bind fun (proc,ret) =>
      if ret < 0 then some (proc,-1)
      else (dataEntries write table.name table.entries.toList 1 proc).map fun proc => (proc,0)

/-- The entries as `write_recent_all` writes them: a line that fails ends it. Gives the number of
the next write. -/
def allEntries (write : ProcWriter P) (name : Bytes) :
    List (Bytes × XtRecentEntry) → ℕ → P → Option (P × Option ℕ)
  | [], n, proc => some (proc,some n)
  | entry::rest, n, proc =>
    (write n name (entryLine entry) proc).bind fun (proc,ret) =>
      if ret < 0 then some (proc,none) else allEntries write name rest (n+1) proc

/-- The tables one after another, those without entries passed over. -/
def allTables (write : ProcWriter P) : List (Bytes × XtRecentTable) → ℕ → P → Option (P × Bool)
  | [], _, proc => some (proc,true)
  | (name,table)::rest, n, proc =>
    if table.entries.size < 1 then allTables write rest n proc
    else
      (write n name [47] proc).bind fun (proc,ret) =>
        if ret < 0 then some (proc,false)
        else
          (allEntries write name table.entries.toList (n+1) proc).bind fun (proc,next) =>
            match next with
            | none => some (proc,false)
            | some n => allTables write rest n proc

/-- The file of a table is opened by the key here. -/
def writeRecentAll (write : ProcWriter P) (data : RecentData) (proc : P) : Option (P × Bool) :=
  allTables write data.toList 0 proc

/-- The entries that are cleared are those of a copy. -/
def clearRecentData (write : ProcWriter P) (data : RecentData) (tableName : Bytes) (n : ℕ) (proc : P) :
    Option (RecentData × P × Int) :=
  match data[tableName]? with
  | none => some (data,proc,-2)
  | some table =>
    (write n table.name [47] proc).map fun (proc,ret) => (data,proc,if ret < 0 then -1 else 0)

/-- Without a name, every table in turn. -/
def clearAllRecentData (write : ProcWriter P) :
    List Bytes → ℕ → RecentData → P → Option (RecentData × P)
  | [], _, data, proc => some (data,proc)
  | tableName::rest, n, data, proc =>
    (write.clearRecentData data tableName n proc).bind fun (data,proc,_) =>
      clearAllRecentData write rest (n+1) data proc

end ProcWriter

/-- Each table as the lines accepted since its last flush. A table that is not there has none, and
cannot be opened. -/
abbrev LineTables := Bytes → List Bytes

/-- `accepts` tells which opens and writes succeed. -/
def lineWriter (accepts : ℕ → Bool) : ProcWriter LineTables := fun n name input tables =>
  if accepts n then
    some (Function.update tables name (if input = [47] then [] else tables name ++ [input]),
      input.length)
  else some (tables,-1)

/-- The lines of the entries of a replica. -/
def tableLines (table : XtRecentTable) : List Bytes := table.entries.toList.map entryLine

/-- So many writes from this one on succeed. -/
def Accepts (accepts : ℕ → Bool) (n count : ℕ) : Prop := ∀ k < count, accepts (n+k) = true

section Lines
variable {accepts : ℕ → Bool} {tables : LineTables} {name : Bytes}

theorem accepts_zero (n : ℕ) : Accepts accepts n 0 := fun k hk => absurd hk (Nat.not_lt_zero k)

theorem accepts_add (n count count' : ℕ) :
    Accepts accepts n (count + count') ↔
      Accepts accepts n count ∧ Accepts accepts (n + count) count' := by
  constructor
  · refine fun h => ⟨fun k hk => h k (Nat.lt_add_right _ hk),fun k hk => ?_⟩
    rw [Nat.add_assoc]
    exact h (count + k) (Nat.add_lt_add_left hk _)
  · rintro ⟨hfirst,hlater⟩ k hk
    by_cases hlt : k < count
    · exact hfirst k hlt
    · have hrest := hlater (k - count) (by omega)
      rwa [show n + count + (k - count) = n + k by omega] at hrest

theorem accepts_succ (n count : ℕ) :
    Accepts accepts n (count + 1) ↔ accepts n = true ∧ Accepts accepts (n + 1) count := by
  rw [Nat.add_comm count 1, accepts_add]
  simp [Accepts]

theorem lineWriter_refused {n : ℕ} (h : accepts n = false) (name input : Bytes) (tables : LineTables) :
    lineWriter accepts n name input tables = some (tables,-1) := by
  simp [lineWriter, h]

theorem lineWriter_flush {n : ℕ} (h : accepts n = true) (name : Bytes) (tables : LineTables) :
    lineWriter accepts n name [47] tables = some (Function.update tables name [],1) := by
  simp [lineWriter, h]

theorem lineWriter_line {n : ℕ} (h : accepts n = true) (name : Bytes) (tables : LineTables)
    (entry : Bytes × XtRecentEntry) :
    lineWriter accepts n name (entryLine entry) tables =
      some (Function.update tables name (tables name ++ [entryLine entry]),
        ((entryLine entry).length : Int)) := by
  have hline : entryLine entry ≠ [47] := by
    intro heq
    have hhead : some (42 : UInt8) = some 47 := congrArg List.head? heq
    contradiction
  simp [lineWriter, h, hline]

/-- The lines of a list of entries that are accepted, from this write on. -/
def acceptedLines (accepts : ℕ → Bool) : List (Bytes × XtRecentEntry) → ℕ → List Bytes
  | [], _ => []
  | entry::rest, n =>
    if accepts n then entryLine entry::acceptedLines accepts rest (n+1)
    else acceptedLines accepts rest (n+1)

theorem length_acceptedLines_le (list : List (Bytes × XtRecentEntry)) (n : ℕ) :
    (acceptedLines accepts list n).length ≤ list.length := by
  induction list generalizing n with
  | nil => exact Nat.le_refl 0
  | cons entry rest ih =>
    have hrest := ih (n+1)
    rw [acceptedLines]
    split <;> simp <;> omega

/-- All lines are there exactly when all of them were accepted. -/
theorem acceptedLines_eq_iff (list : List (Bytes × XtRecentEntry)) (n : ℕ) :
    acceptedLines accepts list n = list.map entryLine ↔ Accepts accepts n list.length := by
  induction list generalizing n with
  | nil => simp [acceptedLines, accepts_zero]
  | cons entry rest ih =>
    rw [List.length_cons, accepts_succ, acceptedLines, List.map_cons]
    cases ha : accepts n with
    | true => simp [ih]
    | false =>
      have hshort : (acceptedLines accepts rest (n+1)).length ≤ rest.length :=
        length_acceptedLines_le rest (n+1)
      simp only [Bool.false_eq_true, if_false, false_and, iff_false]
      intro heq
      rw [heq, List.length_cons, List.length_map] at hshort
      exact absurd hshort (Nat.not_succ_le_self _)

theorem dataEntries_lines (list : List (Bytes × XtRecentEntry)) (n : ℕ) (tables : LineTables) :
    ProcWriter.dataEntries (lineWriter accepts) name list n tables =
      some (Function.update tables name (tables name ++ acceptedLines accepts list n)) := by
  induction list generalizing n tables with
  | nil => simp [ProcWriter.dataEntries, acceptedLines]
  | cons entry rest ih =>
    rw [ProcWriter.dataEntries, acceptedLines]
    cases ha : accepts n with
    | true =>
      rw [lineWriter_line ha, Option.bind_some]
      dsimp only
      rw [ih]
      simp
    | false =>
      rw [lineWriter_refused ha, Option.bind_some]
      dsimp only
      rw [ih]
      simp

/-- What `write_recent_data` does to such tables. -/
theorem writeRecentData_lines (data : RecentData) (tableName : Bytes) (tables : LineTables) :
    ProcWriter.writeRecentData (lineWriter accepts) data tableName tables =
      match data[tableName]? with
      | none => some (tables,-2)
      | some table =>
        if accepts 0 then
          some (Function.update tables table.name (acceptedLines accepts table.entries.toList 1),0)
        else some (tables,-1) := by
  unfold ProcWriter.writeRecentData
  cases data[tableName]? with
  | none => rfl
  | some table =>
    dsimp only
    cases ha : accepts 0 with
    | true =>
      rw [lineWriter_flush ha, Option.bind_some]
      dsimp only
      rw [if_neg (by decide), dataEntries_lines]
      simp
    | false =>
      rw [lineWriter_refused ha]
      rfl

/-- While the lines are accepted they are added; the first that is not ends it. -/
theorem allEntries_lines (list : List (Bytes × XtRecentEntry)) (n : ℕ) (tables : LineTables) :
    ∃ tables', (∀ name' ≠ name, tables' name' = tables name') ∧
      (Accepts accepts n list.length ∧ tables' name = tables name ++ list.map entryLine ∧
          ProcWriter.allEntries (lineWriter accepts) name list n tables =
            some (tables',some (n+list.length)) ∨
        ¬Accepts accepts n list.length ∧
          ProcWriter.allEntries (lineWriter accepts) name list n tables = some (tables',none)) := by
  induction list generalizing n tables with
  | nil => exact ⟨tables,fun _ _ => rfl,.inl ⟨accepts_zero n,by simp,rfl⟩⟩
  | cons entry rest ih =>
    rw [List.length_cons, accepts_succ, ProcWriter.allEntries]
    cases ha : accepts n with
    | false =>
      refine ⟨tables,fun _ _ => rfl,.inr ⟨by simp,?_⟩⟩
      rw [lineWriter_refused ha]
      rfl
    | true =>
      obtain ⟨tables',hother,hcases⟩ :=
        ih (n+1) (Function.update tables name (tables name ++ [entryLine entry]))
      have hpos : ¬((entryLine entry).length : Int) < 0 := by omega
      refine ⟨tables',fun name' hne => (hother name' hne).trans (Function.update_of_ne hne ..),?_⟩
      rw [lineWriter_line ha, Option.bind_some]
      dsimp only
      rw [if_neg hpos]
      rcases hcases with ⟨hall,hname,heq⟩ | ⟨hnot,heq⟩
      · refine .inl ⟨⟨rfl,hall⟩,?_,?_⟩
        · rw [hname, Function.update_self, List.append_assoc]
          rfl
        · rw [heq, Nat.add_assoc, Nat.add_comm 1]
      · exact .inr ⟨fun h => hnot h.2,heq⟩

/-- The writes that a list of tables takes. -/
def writesOf : List (Bytes × XtRecentTable) → ℕ
  | [] => 0
  | (_,table)::rest => (if table.entries.size < 1 then 0 else table.entries.size + 1) + writesOf rest

/-- All tables are written exactly when no write of all these fails; then those with entries hold
their lines. -/
theorem allTables_lines {list : List (Bytes × XtRecentTable)} (hnodup : (list.map Prod.fst).Nodup)
    (n : ℕ) (tables : LineTables) :
    ∃ tables' ok, ProcWriter.allTables (lineWriter accepts) list n tables = some (tables',ok) ∧
      (ok = true ↔ Accepts accepts n (writesOf list)) ∧
      (∀ name, (∀ p ∈ list, p.1 = name → p.2.entries.size < 1) → tables' name = tables name) ∧
      (ok = true → ∀ p ∈ list, tables' p.1 =
        if p.2.entries.size < 1 then tables p.1 else tableLines p.2) := by
  induction list generalizing n tables with
  | nil => exact ⟨tables,true,rfl,by simp [writesOf, accepts_zero],fun _ _ => rfl,fun _ p hp => absurd hp List.not_mem_nil⟩
  | cons first rest ih =>
    obtain ⟨key,table⟩ := first
    obtain ⟨hout,hrest⟩ := List.nodup_cons.mp hnodup
    have habsent : ∀ p ∈ rest, p.1 = key → p.2.entries.size < 1 := fun p hp heq =>
      absurd (List.mem_map.mpr ⟨p,hp,heq⟩) hout
    unfold ProcWriter.allTables writesOf
    by_cases hempty : table.entries.size < 1
    · obtain ⟨tables',ok,heq,hok,hother,hall⟩ := ih hrest n tables
      rw [if_pos hempty, if_pos hempty, Nat.zero_add]
      refine ⟨tables',ok,heq,hok,fun name hname => ?_,fun h p hp => ?_⟩
      · exact hother name fun p hp => hname p (List.mem_cons_of_mem _ hp)
      · rcases List.mem_cons.mp hp with rfl | hp
        · rw [if_pos hempty]
          exact hother key habsent
        · exact hall h p hp
    · rw [if_neg hempty, if_neg hempty]
      cases ha : accepts n with
      | false =>
        refine ⟨tables,false,?_,?_,fun _ _ => rfl,fun h => absurd h Bool.false_ne_true⟩
        · rw [lineWriter_refused ha]
          rfl
        · refine iff_of_false Bool.false_ne_true fun hall => ?_
          rw [Nat.add_right_comm, accepts_succ, ha] at hall
          exact absurd hall.1 Bool.false_ne_true
      | true =>
        have hflush : ¬(1 : Int) < 0 := by decide
        have hlines := @allEntries_lines accepts key table.entries.toList (n+1)
          (Function.update tables key [])
        obtain ⟨tables₁,hother₁,hcases⟩ := hlines
        have hkept : ∀ name ≠ key, tables₁ name = tables name := fun name hne =>
          (hother₁ name hne).trans (Function.update_of_ne hne ..)
        rw [lineWriter_flush ha, Option.bind_some]
        dsimp only
        rw [if_neg hflush]
        rw [Std.ExtTreeMap.length_toList] at hcases
        rcases hcases with ⟨hentries,hlines,heq⟩ | ⟨hnot,heq⟩
        · obtain ⟨tables',ok,heq',hok,hother,hall⟩ := ih hrest (n+1+table.entries.size) tables₁
          rw [heq, Option.bind_some]
          refine ⟨tables',ok,heq',?_,fun name hname => ?_,fun h p hp => ?_⟩
          · rw [hok, accepts_add n, accepts_succ,
              show n + (table.entries.size + 1) = n + 1 + table.entries.size by omega]
            exact ⟨fun hlater => ⟨⟨ha,hentries⟩,hlater⟩,fun hall => hall.2⟩
          · have hne : name ≠ key := fun heq =>
              hempty (hname (key,table) (List.mem_cons_self ..) heq.symm)
            rw [hother name fun p hp => hname p (List.mem_cons_of_mem _ hp), hkept name hne]
          · rcases List.mem_cons.mp hp with rfl | hp
            · rw [if_neg hempty, hother key habsent, hlines, Function.update_self, tableLines,
                List.nil_append]
            · have hne : p.1 ≠ key := fun heq => hout (List.mem_map.mpr ⟨p,hp,heq⟩)
              rw [hall h p hp, hkept p.1 hne]
        · rw [heq, Option.bind_some]
          refine ⟨tables₁,false,rfl,?_,fun name hname => ?_,fun h => absurd h Bool.false_ne_true⟩
          · refine iff_of_false Bool.false_ne_true fun hall => hnot ?_
            rw [Nat.add_right_comm, accepts_succ, accepts_add] at hall
            exact hall.2.1
          · exact hkept name fun heq => hempty (hname (key,table) (List.mem_cons_self ..) heq.symm)

end Lines
end Ssyncd
