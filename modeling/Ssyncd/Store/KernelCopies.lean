import Ssyncd.Store.ProcWriters

/-! What the kernel's tables hold once the replica has been written to them or cleared, and what the
functions that do it report. -/
namespace Ssyncd
open Recent

section Written
variable (accepts : ℕ → Bool) (tables : LineTables)

/-- `write_recent_data` gives 0 only where the kernel's table then holds the replica's entries. -/
def DataTruthful (data : RecentData) (tableName : Bytes) : Prop :=
  ∀ tables', ProcWriter.writeRecentData (lineWriter accepts) data tableName tables = some (tables',0) →
    ∃ table, data[tableName]? = some table ∧ (tables' tableName).Perm (tableLines table)

/-- `write_recent_all` gives true only where each of the kernel's tables does. -/
def AllTruthful (data : RecentData) : Prop :=
  ∀ tables', ProcWriter.writeRecentAll (lineWriter accepts) data tables = some (tables',true) →
    ∀ (tableName : Bytes) (table : XtRecentTable), data[tableName]? = some table →
      (tables' tableName).Perm (tableLines table)

/-- With one table in the replica and the same failures, both functions leave the same behind and
both or none report a success. -/
def WritersAgree (tableName : Bytes) (table : XtRecentTable) : Prop :=
  ∃ tables₁ ret tables₂ ok,
    ProcWriter.writeRecentData (lineWriter accepts) ((∅ : RecentData).insert tableName table) tableName
      tables = some (tables₁,ret) ∧
    ProcWriter.writeRecentAll (lineWriter accepts) ((∅ : RecentData).insert tableName table) tables =
      some (tables₂,ok) ∧
    tables₁ = tables₂ ∧ (ret = 0 ↔ ok = true)

variable {accepts tables}

theorem acceptedLines_sublist (list : List (Bytes × XtRecentEntry)) (n : ℕ) :
    (acceptedLines accepts list n).Sublist (list.map entryLine) := by
  induction list generalizing n with
  | nil => exact List.Sublist.refl _
  | cons entry rest ih =>
    rw [acceptedLines, List.map_cons]
    split
    · exact (ih (n+1)).cons_cons _
    · exact (ih (n+1)).cons _

theorem acceptedLines_perm_iff (table : XtRecentTable) (n : ℕ) :
    (acceptedLines accepts table.entries.toList n).Perm (tableLines table) ↔
      Accepts accepts n table.entries.size := by
  rw [← Std.ExtTreeMap.length_toList, ← acceptedLines_eq_iff]
  constructor
  · exact fun h => (acceptedLines_sublist _ n).eq_of_length h.length_eq
  · exact fun h => h ▸ List.Perm.refl _

theorem dataTruthful_iff (data : RecentData) (tableName : Bytes) :
    DataTruthful accepts tables data tableName ↔
      ∀ table, data[tableName]? = some table → accepts 0 = false ∨
        table.name = tableName ∧ Accepts accepts 1 table.entries.size ∨
        table.name ≠ tableName ∧ (tables tableName).Perm (tableLines table) := by
  unfold DataTruthful
  rw [writeRecentData_lines]
  cases htable : data[tableName]? with
  | none => simp
  | some table =>
    simp only [Option.some.injEq, exists_eq_left', forall_eq']
    cases ha : accepts 0 with
    | false => simp
    | true =>
      rw [← acceptedLines_perm_iff]
      simp only [if_true, Option.some.injEq, Prod.mk.injEq, and_true, forall_eq', Bool.true_eq_false,
        false_or]
      by_cases hname : table.name = tableName
      · simp [hname]
      · rw [Function.update_of_ne (Ne.symm hname)]
        simp [hname]

theorem mem_toList_iff {data : RecentData} {tableName : Bytes} {table : XtRecentTable} :
    (tableName,table) ∈ data.toList ↔ data[tableName]? = some table :=
  Std.ExtTreeMap.mem_toList_iff_getElem?_eq_some

theorem tableLines_of_size {table : XtRecentTable} (h : table.entries.size < 1) :
    tableLines table = [] := by
  have hempty : table.entries.toList.length = 0 := by
    rw [Std.ExtTreeMap.length_toList]
    omega
  rw [tableLines, List.length_eq_zero_iff.mp hempty]
  rfl

theorem allTruthful_iff (data : RecentData) :
    AllTruthful accepts tables data ↔
      ¬Accepts accepts 0 (writesOf data.toList) ∨
        ∀ (tableName : Bytes) (table : XtRecentTable), data[tableName]? = some table →
          table.entries.size < 1 → tables tableName = [] := by
  obtain ⟨tables',ok,heq,hok,-,hall⟩ :=
    @allTables_lines accepts _ (Table.nodup_toList data) 0 tables
  unfold AllTruthful ProcWriter.writeRecentAll
  rw [heq, ← hok]
  cases ok with
  | false => simp
  | true =>
    simp only [Option.some.injEq, Prod.mk.injEq, and_true, forall_eq', not_true_eq_false, false_or]
    refine forall_congr' fun tableName => forall_congr' fun table => forall_congr' fun htable => ?_
    have hheld := hall rfl (tableName,table) (mem_toList_iff.mpr htable)
    dsimp only at hheld
    by_cases hsize : table.entries.size < 1
    · rw [hheld, if_pos hsize, tableLines_of_size hsize, List.perm_nil]
      exact ⟨fun h _ => h,fun h => h hsize⟩
    · rw [hheld, if_neg hsize]
      exact iff_of_true (List.Perm.refl _) fun h => absurd h hsize

theorem toList_single (tableName : Bytes) (table : XtRecentTable) :
    ((∅ : RecentData).insert tableName table).toList = [(tableName,table)] := by
  have hmem : ∀ p, p ∈ ((∅ : RecentData).insert tableName table).toList ↔ p = (tableName,table) := by
    intro p
    rw [show p = (p.1,p.2) from rfl, mem_toList_iff, Std.ExtTreeMap.getElem?_insert, Prod.mk.injEq]
    split
    · next heq =>
      rw [← Std.compare_eq_iff_eq.mp heq]
      simp [eq_comm]
    · next hne =>
      have hne : p.1 ≠ tableName := fun heq => hne (Std.compare_eq_iff_eq.mpr heq.symm)
      simp [hne]
  have hlen : ((∅ : RecentData).insert tableName table).toList.length = 1 := by
    rw [Std.ExtTreeMap.length_toList, Std.ExtTreeMap.size_insert]
    simp
  obtain ⟨p,hp⟩ := List.length_eq_one_iff.mp hlen
  rw [hp, (hmem p).mp (by rw [hp]; exact List.mem_singleton_self p)]

/-- The same lines in two tables leave the same behind, unless the tables already had them. -/
theorem update_eq_update_iff (name tableName : Bytes) (lines : List Bytes) :
    Function.update tables name lines = Function.update tables tableName lines ↔
      name = tableName ∨ tables name = lines ∧ tables tableName = lines := by
  by_cases hname : name = tableName
  · simp [hname]
  · have hname' : tableName ≠ name := Ne.symm hname
    constructor
    · intro heq
      refine .inr ⟨?_,?_⟩
      · have hat := congrFun heq name
        rw [Function.update_self, Function.update_of_ne hname] at hat
        exact hat.symm
      · have hat := congrFun heq tableName
        rw [Function.update_self, Function.update_of_ne hname'] at hat
        exact hat
    · rintro (h | ⟨h,h'⟩)
      · exact absurd h hname
      · have hsame := Function.update_eq_self name tables
        have hsame' := Function.update_eq_self tableName tables
        rw [h] at hsame
        rw [h'] at hsame'
        rw [hsame, hsame']

theorem writersAgree_iff (tableName : Bytes) (table : XtRecentTable) :
    WritersAgree accepts tables tableName table ↔
      if table.entries.size < 1 then accepts 0 = true ∧ tables table.name = []
      else accepts 0 = false ∨ Accepts accepts 1 table.entries.size ∧
        (table.name = tableName ∨
          tables table.name = tableLines table ∧ tables tableName = tableLines table) := by
  have hnodup : ([(tableName,table)].map Prod.fst).Nodup := List.nodup_singleton tableName
  obtain ⟨tables₂,ok,hall,hok,hother,hheld⟩ :=
    @allTables_lines accepts _ hnodup 0 tables
  have hdata : ((∅ : RecentData).insert tableName table)[tableName]? = some table :=
    Std.ExtTreeMap.getElem?_insert_self
  unfold WritersAgree ProcWriter.writeRecentAll
  rw [writeRecentData_lines, hdata, toList_single, hall]
  dsimp only
  by_cases hsize : table.entries.size < 1
  · have hnone : table.entries.toList = [] := List.map_eq_nil_iff.mp (tableLines_of_size hsize)
    have htrue : ok = true := by
      rw [hok]
      simp [writesOf, hsize, accepts_zero]
    have hsame : tables₂ = tables := by
      funext name
      by_cases hname : name = tableName
      · rw [hname]
        exact (hheld htrue (tableName,table) (List.mem_singleton_self _)).trans (if_pos hsize)
      · exact hother name (by simpa using fun heq => absurd heq.symm hname)
    rw [if_pos hsize, htrue, hsame, hnone]
    cases ha : accepts 0 with
    | false => simp
    | true => simp [acceptedLines]
  · rw [if_neg hsize]
    have hwrites : ok = true ↔ accepts 0 = true ∧ Accepts accepts 1 table.entries.size := by
      rw [hok, ← accepts_succ]
      simp [writesOf, hsize]
    cases ha : accepts 0 with
    | false =>
      have hfalse : ok = false := by
        rw [← Bool.not_eq_true, hwrites, ha]
        simp
      refine iff_of_true ⟨tables,-1,tables,false,rfl,?_,rfl,by simp⟩ (.inl rfl)
      have hstop : ProcWriter.allTables (lineWriter accepts) [(tableName,table)] 0 tables =
          some (tables,false) := by
        rw [ProcWriter.allTables, if_neg hsize, lineWriter_refused ha]
        rfl
      rw [← hall, hstop]
    | true =>
      rw [ha] at hwrites
      by_cases haccepts : Accepts accepts 1 table.entries.size
      · have htrue : ok = true := hwrites.mpr ⟨rfl,haccepts⟩
        have hwritten : tables₂ = Function.update tables tableName (tableLines table) := by
          funext name
          by_cases hname : name = tableName
          · rw [hname, Function.update_self]
            exact (hheld htrue (tableName,table) (List.mem_singleton_self _)).trans (if_neg hsize)
          · rw [Function.update_of_ne hname]
            exact hother name (by simpa using fun heq => absurd heq.symm hname)
        have hlines : acceptedLines accepts table.entries.toList 1 = tableLines table := by
          rw [← Std.ExtTreeMap.length_toList, ← acceptedLines_eq_iff] at haccepts
          exact haccepts
        rw [hwritten, hlines, ← update_eq_update_iff, htrue]
        simp only [haccepts, if_true, Option.some.injEq, Prod.mk.injEq, Bool.true_eq_false, true_and,
          false_or]
        constructor
        · rintro ⟨_,_,_,_,⟨rfl,rfl⟩,⟨rfl,rfl⟩,heq,-⟩
          exact heq
        · exact fun heq => ⟨_,_,_,_,⟨rfl,rfl⟩,⟨rfl,rfl⟩,heq,by simp⟩
      · have hfalse : ok = false := by
          rw [← Bool.not_eq_true, hwrites]
          exact fun h => haccepts h.2
        rw [hfalse]
        simp [haccepts]

/-- When the two functions that write the replica to the kernel tell the truth, and when they agree. -/
theorem kernel_writers_iff :
    (∀ data tableName, DataTruthful accepts tables data tableName ↔
      ∀ table, data[tableName]? = some table → accepts 0 = false ∨
        table.name = tableName ∧ Accepts accepts 1 table.entries.size ∨
        table.name ≠ tableName ∧ (tables tableName).Perm (tableLines table)) ∧
    (∀ data, AllTruthful accepts tables data ↔
      ¬Accepts accepts 0 (writesOf data.toList) ∨
        ∀ (tableName : Bytes) (table : XtRecentTable), data[tableName]? = some table →
          table.entries.size < 1 → tables tableName = []) ∧
    ∀ tableName table, WritersAgree accepts tables tableName table ↔
      if table.entries.size < 1 then accepts 0 = true ∧ tables table.name = []
      else accepts 0 = false ∨ Accepts accepts 1 table.entries.size ∧
        (table.name = tableName ∨
          tables table.name = tableLines table ∧ tables tableName = tableLines table) :=
  ⟨dataTruthful_iff,allTruthful_iff,writersAgree_iff⟩

end Written

/-- One entry, under the table's own name. -/
def singleEntry : XtRecentTable where
  name := [116]
  entries := (∅ : Std.ExtTreeMap Bytes XtRecentEntry).insert [49] {}

theorem size_singleEntry : singleEntry.entries.size = 1 := by
  rw [singleEntry, Std.ExtTreeMap.size_insert]
  simp

/-- The flush succeeds and the line of the entry fails; and a table without entries is passed over. -/
theorem kernel_writers_untruthful :
    ¬DataTruthful (· == 0) (fun _ => []) ((∅ : RecentData).insert [116] singleEntry) [116] ∧
      ¬AllTruthful (fun _ => true) (fun _ => [[42]]) ((∅ : RecentData).insert [116] {}) ∧
      ¬WritersAgree (· == 0) (fun _ => []) [116] singleEntry := by
  have hsize := size_singleEntry
  have hrefused : ¬Accepts (· == 0) 1 1 := fun h => absurd (h 0 Nat.one_pos) (by decide)
  refine ⟨fun h => ?_,fun h => ?_,fun h => ?_⟩
  · rcases (dataTruthful_iff _ _).mp h singleEntry Std.ExtTreeMap.getElem?_insert_self with
      h | ⟨-,h⟩ | ⟨h,-⟩
    · contradiction
    · exact hrefused (hsize ▸ h)
    · exact h rfl
  · have hall := (allTruthful_iff _).mp h
    rw [toList_single] at hall
    rcases hall with h | h
    · exact h fun _ _ => rfl
    · have hkernel := h [116] {} Std.ExtTreeMap.getElem?_insert_self (by simp)
      contradiction
  · have hagree := (writersAgree_iff _ _).mp h
    rw [if_neg (by omega), hsize] at hagree
    rcases hagree with h | ⟨h,-⟩
    · contradiction
    · exact hrefused h

section Cleared
variable (accepts : ℕ → Bool) (tables : LineTables)

/-- A clear that succeeds empties both copies of a table and no other, for good; one that fails
leaves everything as it was. -/
def ClearsBoth (data : RecentData) (tableName : Bytes) : Prop :=
  ∀ data' tables' ret,
    ProcWriter.clearRecentData (lineWriter accepts) data tableName 0 tables = some (data',tables',ret) →
      (ret = 0 → tables' tableName = [] ∧ (data'.getD tableName {}).entries = ∅ ∧
        (∀ name ≠ tableName, tables' name = tables name ∧ data'[name]? = data[name]?) ∧
        ∀ accepts' tables'' ok,
          ProcWriter.writeRecentAll (lineWriter accepts') data' tables' = some (tables'',ok) →
            tables'' tableName = []) ∧
      (ret = -1 ∨ ret = -2 → data' = data ∧ tables' = tables)

/-- A clear of everything empties both copies of every table whose flush succeeds. -/
def ClearsAll (data : RecentData) : Prop :=
  ∀ data' tables',
    ProcWriter.clearAllRecentData (lineWriter accepts) data.keys 0 data tables = some (data',tables') →
      ∀ (n : ℕ) (tableName : Bytes) (table : XtRecentTable), data.toList[n]? = some (tableName,table) →
        accepts n = true → tables' tableName = [] ∧ (data'.getD tableName {}).entries = ∅

variable {accepts tables}

theorem clearRecentData_lines (data : RecentData) (tableName : Bytes) (n : ℕ) (tables : LineTables) :
    ProcWriter.clearRecentData (lineWriter accepts) data tableName n tables =
      match data[tableName]? with
      | none => some (data,tables,-2)
      | some table =>
        if accepts n then some (data,Function.update tables table.name [],0)
        else some (data,tables,-1) := by
  unfold ProcWriter.clearRecentData
  cases data[tableName]? with
  | none => rfl
  | some table =>
    dsimp only
    cases ha : accepts n with
    | true =>
      rw [lineWriter_flush ha]
      rfl
    | false =>
      rw [lineWriter_refused ha]
      rfl

/-- A table without entries is not written. -/
theorem writeRecentAll_of_empty {data : RecentData} {tableName : Bytes}
    (h : (data.getD tableName {}).entries = ∅) {tables' : LineTables} {ok : Bool}
    (hw : ProcWriter.writeRecentAll (lineWriter accepts) data tables = some (tables',ok)) :
    tables' tableName = tables tableName := by
  obtain ⟨tables₁,ok₁,heq,-,hother,-⟩ :=
    @allTables_lines accepts _ (Table.nodup_toList data) 0 tables
  unfold ProcWriter.writeRecentAll at hw
  rw [heq] at hw
  obtain ⟨rfl,-⟩ := Prod.mk.inj (Option.some.inj hw)
  refine hother tableName fun p hp hkey => ?_
  have htable : data[tableName]? = some p.2 := hkey ▸ mem_toList_iff.mp hp
  rw [Table.getD_of_getElem? htable] at h
  rw [h, Std.ExtTreeMap.size_empty]
  exact Nat.one_pos

theorem clearsBoth_iff (data : RecentData) (tableName : Bytes) :
    ClearsBoth accepts tables data tableName ↔
      ∀ table, data[tableName]? = some table → accepts 0 = false ∨ table.entries = ∅ ∧
        (table.name = tableName ∨ tables table.name = [] ∧ tables tableName = []) := by
  unfold ClearsBoth
  rw [clearRecentData_lines]
  cases htable : data[tableName]? with
  | none =>
    refine iff_of_true ?_ (by simp)
    rintro data' tables' ret hclear
    obtain ⟨rfl,rfl,rfl⟩ : data = data' ∧ tables = tables' ∧ -2 = ret := by simpa using hclear
    exact ⟨fun h => absurd h (by decide),fun _ => ⟨rfl,rfl⟩⟩
  | some table =>
    have hentries : (data.getD tableName {}).entries = table.entries := by
      rw [Table.getD_of_getElem? htable]
    cases ha : accepts 0 with
    | false =>
      refine iff_of_true ?_ (by simp)
      rintro data' tables' ret hclear
      obtain ⟨rfl,rfl,rfl⟩ : data = data' ∧ tables = tables' ∧ -1 = ret := by simpa using hclear
      exact ⟨fun h => absurd h (by decide),fun _ => ⟨rfl,rfl⟩⟩
    | true =>
      simp only [if_true, Option.some.injEq, forall_eq', Bool.true_eq_false, false_or]
      constructor
      · intro h
        obtain ⟨⟨hkernel,hreplica,hothers,-⟩,-⟩ :=
          (h data (Function.update tables table.name []) 0 rfl).imp (fun h => h rfl) id
        rw [hentries] at hreplica
        refine ⟨hreplica,?_⟩
        by_cases hname : table.name = tableName
        · exact .inl hname
        · have hcleared := (hothers table.name hname).1
          rw [Function.update_self] at hcleared
          rw [Function.update_of_ne (Ne.symm hname)] at hkernel
          exact .inr ⟨hcleared.symm,hkernel⟩
      · rintro ⟨hempty,hname⟩ data' tables' ret hclear
        obtain ⟨rfl,rfl,rfl⟩ :
            data = data' ∧ Function.update tables table.name [] = tables' ∧ 0 = ret := by
          simpa using hclear
        have hkernel : Function.update tables table.name [] tableName = [] := by
          rcases hname with hname | ⟨-,hnone⟩
          · rw [hname, Function.update_self]
          · rw [Function.update_apply, hnone, ite_self]
        have hothers : ∀ name ≠ tableName, Function.update tables table.name [] name = tables name := by
          intro name hne
          rcases hname with hname | ⟨hnone,-⟩
          · rw [hname, Function.update_of_ne hne]
          · by_cases heq : name = table.name
            · rw [heq, Function.update_self, hnone]
            · rw [Function.update_of_ne heq]
        have hreplica : (data.getD tableName {}).entries = ∅ := hentries.trans hempty
        refine ⟨fun _ => ⟨hkernel,hreplica,fun name hne => ⟨hothers name hne,rfl⟩,?_⟩,fun h => ?_⟩
        · intro accepts' tables'' ok hw
          rw [writeRecentAll_of_empty hreplica hw, hkernel]
        · rcases h with h | h <;> contradiction

/-- A table is left without lines that had none, or that some flush reached. -/
theorem clearAll_lines {data : RecentData} {list : List (Bytes × XtRecentTable)}
    (hmem : ∀ p ∈ list, data[p.1]? = some p.2) (n : ℕ) (tables : LineTables) :
    ∃ tables', ProcWriter.clearAllRecentData (lineWriter accepts) (list.map Prod.fst) n data tables =
        some (data,tables') ∧
      ∀ name, tables' name = [] ↔ tables name = [] ∨
        ∃ k p, list[k]? = some p ∧ accepts (n+k) = true ∧ p.2.name = name := by
  induction list generalizing n tables with
  | nil => exact ⟨tables,rfl,fun name => by simp⟩
  | cons first rest ih =>
    have hfirst := hmem first (List.mem_cons_self ..)
    have hrest := ih (fun p hp => hmem p (List.mem_cons_of_mem _ hp)) (n+1)
    have hsplit : ∀ name, (∃ k p, (first::rest)[k]? = some p ∧ accepts (n+k) = true ∧ p.2.name = name) ↔
        (accepts n = true ∧ first.2.name = name) ∨
          ∃ k p, rest[k]? = some p ∧ accepts (n+1+k) = true ∧ p.2.name = name := by
      intro name
      constructor
      · rintro ⟨k,p,hp,ha,hname⟩
        cases k with
        | zero =>
          obtain rfl : first = p := by simpa using hp
          exact .inl ⟨ha,hname⟩
        | succ k =>
          refine .inr ⟨k,p,by simpa using hp,?_,hname⟩
          rwa [show n + 1 + k = n + (k+1) by omega]
      · rintro (⟨ha,hname⟩ | ⟨k,p,hp,ha,hname⟩)
        · exact ⟨0,first,rfl,ha,hname⟩
        · refine ⟨k+1,p,by simpa using hp,?_,hname⟩
          rwa [show n + (k+1) = n + 1 + k by omega]
    rw [List.map_cons, ProcWriter.clearAllRecentData, clearRecentData_lines, hfirst]
    dsimp only
    cases ha : accepts n with
    | false =>
      obtain ⟨tables',heq,hempty⟩ := hrest tables
      refine ⟨tables',heq,fun name => ?_⟩
      rw [hempty, hsplit, ha]
      simp
    | true =>
      obtain ⟨tables',heq,hempty⟩ := hrest (Function.update tables first.2.name [])
      refine ⟨tables',heq,fun name => ?_⟩
      rw [hempty, hsplit, ha]
      by_cases hname : first.2.name = name
      · simp [hname]
      · rw [Function.update_of_ne (Ne.symm hname)]
        simp [hname]

theorem clearsAll_iff (data : RecentData) :
    ClearsAll accepts tables data ↔
      ∀ (n : ℕ) (tableName : Bytes) (table : XtRecentTable), data.toList[n]? = some (tableName,table) →
        accepts n = true → table.entries = ∅ ∧ (tables tableName = [] ∨
          ∃ k p, data.toList[k]? = some p ∧ accepts k = true ∧ p.2.name = tableName) := by
  obtain ⟨tables',heq,hempty⟩ := @clearAll_lines accepts data data.toList
    (fun p hp => mem_toList_iff.mp hp) 0 tables
  unfold ClearsAll
  rw [← Std.ExtTreeMap.map_fst_toList_eq_keys, heq]
  simp only [Nat.zero_add] at hempty
  constructor
  · intro h n tableName table htable ha
    obtain ⟨hkernel,hreplica⟩ := h data tables' rfl n tableName table htable ha
    have hfound := mem_toList_iff.mp (List.mem_of_getElem? htable)
    rw [Table.getD_of_getElem? hfound] at hreplica
    exact ⟨hreplica,(hempty tableName).mp hkernel⟩
  · rintro h data' tables'' hclear n tableName table htable ha
    obtain ⟨rfl,rfl⟩ : data = data' ∧ tables' = tables'' := by simpa using hclear
    obtain ⟨hreplica,hkernel⟩ := h n tableName table htable ha
    have hfound := mem_toList_iff.mp (List.mem_of_getElem? htable)
    rw [Table.getD_of_getElem? hfound]
    exact ⟨(hempty tableName).mpr hkernel,hreplica⟩

/-- The copy in memory is never cleared, so a clear is one of both copies only where that copy had
nothing, and where the table goes by its own name. -/
theorem clears_iff :
    (∀ data tableName, ClearsBoth accepts tables data tableName ↔
      ∀ table, data[tableName]? = some table → accepts 0 = false ∨ table.entries = ∅ ∧
        (table.name = tableName ∨ tables table.name = [] ∧ tables tableName = [])) ∧
    ∀ data, ClearsAll accepts tables data ↔
      ∀ (n : ℕ) (tableName : Bytes) (table : XtRecentTable), data.toList[n]? = some (tableName,table) →
        accepts n = true → table.entries = ∅ ∧ (tables tableName = [] ∨
          ∃ k p, data.toList[k]? = some p ∧ accepts k = true ∧ p.2.name = tableName) :=
  ⟨clearsBoth_iff,clearsAll_iff⟩

end Cleared

/-- A table with one entry is cleared in the kernel alone. -/
theorem clear_keeps_replica :
    ¬ClearsBoth (fun _ => true) (fun _ => []) ((∅ : RecentData).insert [116] singleEntry) [116] ∧
      ¬ClearsAll (fun _ => true) (fun _ => []) ((∅ : RecentData).insert [116] singleEntry) := by
  have hentries : singleEntry.entries ≠ ∅ := by
    intro h
    have hsize := size_singleEntry
    rw [h, Std.ExtTreeMap.size_empty] at hsize
    contradiction
  refine ⟨fun h => ?_,fun h => ?_⟩
  · rcases (clearsBoth_iff _ _).mp h singleEntry Std.ExtTreeMap.getElem?_insert_self with h | ⟨h,-⟩
    · contradiction
    · exact hentries h
  · have hall := (clearsAll_iff _).mp h 0 [116] singleEntry
    rw [toList_single] at hall
    exact hentries (hall rfl rfl).1

end Ssyncd
