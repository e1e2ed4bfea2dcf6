import Ssyncd.Kernel.RuleRuns

/-! What the rules of a net can rely on in every run: their tables are there, nobody else's rules
change them, and nothing is left of them when the rules are gone. -/
namespace Ssyncd
namespace Kernel
namespace Ruleset

variable {m : RecentParams} {s s' : Ruleset} {e : RuleEvent} {name : Bytes}

theorem reach_sound (hr : Runs.Reach (step m) Enabled {} s) : s.Sound m :=
  hr.invariant (Sound m) (sound_empty m) fun _ _ _ h henabled hs => h.step henabled hs

/-- Each table counts the rules that name it, every rule finds its table with a ring for its hits, the
files are those of the tables, and what a table holds is what was asked of it since it was empty. -/
theorem tables_follow_rules (hr : Runs.Reach (step m) Enabled {} s) :
    (∀ name, s.rules.countP (fun info => info.name = name) =
      (s.net.recentTableLookup name).elim 0 fun t => t.refcnt.toNat) ∧
    (∀ info ∈ s.rules, ∃ t, s.net.recentTableLookup info.name = some t ∧
      info.hitCount.toNat ≤ t.nstampsMaxMask.toNat + 1) ∧
    (∀ files ∈ s.net.xtRecent, files.Perm (s.net.tables.map NamedTable.name) ∧ files.Nodup) ∧
    ∀ t ∈ s.net.tables, 0 < t.refcnt.toNat ∧ ∃ accesses answers,
      (∀ a ∈ accesses, a.Checked t.nstampsMaxMask) ∧
        Runs.run (LiveTable.serve m.toRecentModule) ({},[]) accesses = some (t.table,answers) := by
  have h := reach_sound hr
  refine ⟨fun name => ?_,fun info hinfo => ?_,fun files hfiles => ?_,fun t ht => ?_⟩
  · refine Eq.trans ?_ (h.tallied.tally name)
    rw [List.count, List.countP_map]
    exact List.countP_congr fun info _ => by simp
  · obtain ⟨t,ht⟩ := h.tallied.exists_lookup (List.mem_map_of_mem hinfo)
    have hrings := h.rings info hinfo t ht
    exact ⟨t,ht,(m.hitCount_le (h.checked info hinfo)).trans (Nat.add_le_add_right hrings 1)⟩
  · have hperm := h.files files hfiles
    exact ⟨hperm,hperm.nodup_iff.mpr h.tallied.nodup⟩
  · exact ⟨h.tallied.pos t ht,(h.tables t ht).history⟩

/-- When the net goes, the files of all its tables go with it. -/
theorem Sound.leftFiles (h : s.Sound m) : s.net.leftFiles = [] := by
  have hall : ∀ (tables : List NamedTable) (files : List Bytes),
      files.Perm (tables.map NamedTable.name) →
        tables.foldl (fun files t => files.erase t.name) files = [] := by
    intro tables
    induction tables with
    | nil => exact fun files hp => hp.eq_nil
    | cons t tables ih =>
      intro files hp
      have herase := hp.erase t.name
      rw [List.map_cons, List.erase_cons_head] at herase
      exact ih (files.erase t.name) herase
  unfold RecentNet.leftFiles
  cases hfiles : s.net.xtRecent with
  | none =>
    rw [Option.getD_none]
    have hnil : ∀ tables : List NamedTable,
        tables.foldl (fun files t => files.erase t.name) ([] : List Bytes) = [] := by
      intro tables
      induction tables with
      | nil => rfl
      | cons t tables ih => exact ih
    exact hnil s.net.tables
  | some files => exact hall s.net.tables files (h.files files hfiles)

/-- A rule that is in use can be destroyed. -/
theorem Sound.exists_destroy (h : s.Sound m) {info : XtRecentMtinfoV1} (hinfo : info ∈ s.rules) :
    ∃ s', s.step m (.destroy info) = some s' ∧ s'.rules = s.rules.erase info := by
  obtain ⟨t,ht⟩ := h.tallied.exists_lookup (List.mem_map_of_mem hinfo)
  have hlookup : s.net.recentTableLookup info.name = some t := ht
  have hdestroy : s.net.recentMtDestroy info ≠ none := by
    simp [RecentNet.recentMtDestroy, hlookup]
  obtain ⟨net',hnet⟩ := Option.ne_none_iff_exists'.mp hdestroy
  refine ⟨⟨net',s.rules.erase info⟩,?_,rfl⟩
  change (s.net.recentMtDestroy info).map _ = _
  rw [hnet, Option.map_some]

/-- The rules can be destroyed in every order, and no table and no file is left behind. -/
theorem no_table_outlives_rules (hr : Runs.Reach (step m) Enabled {} s) {rules : List XtRecentMtinfoV1}
    (hrules : rules.Perm s.rules) :
    s.net.leftFiles = [] ∧ ∃ s', Runs.run (step m) s (rules.map RuleEvent.destroy) = some s' ∧
      s'.rules = [] ∧ s'.net.tables = [] ∧ ∀ files ∈ s'.net.xtRecent, files = [] := by
  have h := reach_sound hr
  refine ⟨h.leftFiles,?_⟩
  clear hr
  induction rules generalizing s with
  | nil =>
    have hnone : s.rules = [] := hrules.nil_eq.symm
    have htables : s.net.tables = [] := by
      have htallied := h.tallied
      rw [hnone] at htallied
      exact htallied.eq_nil
    refine ⟨s,rfl,hnone,htables,fun files hfiles => ?_⟩
    have hperm := h.files files hfiles
    rw [htables] at hperm
    exact hperm.eq_nil
  | cons info rules ih =>
    have hinfo : info ∈ s.rules := hrules.subset (List.mem_cons_self ..)
    obtain ⟨s₁,hs,hrest⟩ := h.exists_destroy hinfo
    have hperm := hrules.erase info
    rw [List.erase_cons_head, ← hrest] at hperm
    have henabled : s.Enabled (.destroy info) := hinfo
    obtain ⟨s',hrun,hend⟩ := ih hperm (h.step henabled hs)
    exact ⟨s',by rw [List.map_cons, Runs.run, hs, Option.bind_some, hrun],hend⟩

/-- An event about another table. -/
theorem Outcome.lookup (ho : Outcome m s e s') (hname : e.name ≠ some name) :
    s'.net.recentTableLookup name = s.net.recentTableLookup name := by
  have hput : ∀ {t : NamedTable}, e.name = some t.name →
      (s.net.put t).recentTableLookup name = s.net.recentTableLookup name := by
    intro t ht
    refine Registry.lookup_put_of_ne rfl ?_
    rintro rfl
    exact hname ht
  cases ho with
  | same => rfl
  | @join info t he _ _ hlookup =>
    have hsame : t.name = info.name := RecentNet.name_of_lookup hlookup
    exact hput (he.trans (congrArg some ((name_grow _).trans hsame).symm))
  | @create info files he =>
    have hne : (info.name == name) = false := by
      rw [beq_eq_false_iff_ne]
      rintro rfl
      exact hname he
    refine Registry.lookup_append_singleton.trans ?_
    dsimp only
    rw [hne, if_neg Bool.false_ne_true, Option.or_none]
    rfl
  | @leave info t he _ hlookup =>
    have hsame : t.name = info.name := RecentNet.name_of_lookup hlookup
    exact hput (he.trans (congrArg some hsame.symm))
  | @last info t he =>
    refine Registry.lookup_remove_of_ne ?_
    rintro rfl
    exact hname he
  | @access name' t a table answer he _ hlookup =>
    have hsame : t.name = name' := RecentNet.name_of_lookup hlookup
    exact hput (he.trans (congrArg some hsame.symm))
  | exit => rfl

/-- Rules, packets and files of other tables leave a table as it is. -/
theorem other_tables_unchanged (hr : Runs.Reach (step m) Enabled {} s) {events : List RuleEvent}
    (henabled : Runs.Meets (step m) Enabled s events) (hother : ∀ e ∈ events, e.name ≠ some name)
    (hrun : Runs.run (step m) s events = some s') :
    s'.net.recentTableLookup name = s.net.recentTableLookup name := by
  have h := reach_sound hr
  clear hr
  induction events generalizing s with
  | nil =>
    obtain rfl : s = s' := Option.some.inj hrun
    rfl
  | cons e events ih =>
    obtain ⟨s₁,hs,hrest⟩ := Option.bind_eq_some_iff.mp hrun
    have hfirst := (outcome_step h henabled.1 hs).lookup (hother e (List.mem_cons_self ..))
    rw [← hfirst]
    exact ih (henabled.2 s₁ hs) (fun b hb => hother b (List.mem_cons_of_mem _ hb)) hrest
      (h.step henabled.1 hs)

/-- What an allocation gives is not in use in the table that it is for. -/
def Fresh (m : RecentParams) (s : Ruleset) : RuleEvent → Prop
  | .packet _ _ info kmalloc => ∀ t, s.net.recentTableLookup info.name = some t →
      t.table.Fresh m.ipListTot kmalloc
  | .write _ name _ _ kmalloc => ∀ t, s.net.recentTableLookup name = some t →
      t.table.Fresh m.ipListTot kmalloc
  | _ => True

/-- A table whose cache an access goes wrong with. -/
def TableFaults (m : RecentParams) (s : Ruleset) (name : Bytes) (a : NamedTable → Access) : Prop :=
  ∃ t, s.net.recentTableLookup name = some t ∧ ∃ c, t.table.Holds c ∧ (a t).Faults m.toRecentModule c

/-- Neither adding a rule nor destroying one goes wrong. -/
def Faults (m : RecentParams) (s : Ruleset) : RuleEvent → Prop
  | .packet jiffies skb info kmalloc =>
    s.TableFaults m info.name fun t => skb.access jiffies info t.mask kmalloc
  | .write jiffies name input stack kmalloc => s.net.hasFile name = true ∧
      s.TableFaults m name fun _ => .write jiffies input stack kmalloc
  | _ => False

/-- An access to a table that is there. -/
theorem Sound.access_eq_none_iff (h : s.Sound m) {t : NamedTable}
    (hlookup : s.net.recentTableLookup name = some t) {a : NamedTable → Access} (hone : (a t).OneFlag)
    (hfresh : t.table.Fresh m.ipListTot (a t).kmalloc) :
    t.table.access m.toRecentModule (a t) = none ↔ s.TableFaults m name a := by
  obtain ⟨c,hc,-⟩ := (h.tables t (RecentNet.mem_of_lookup hlookup)).held
  rw [hc.access_eq_none_iff hone hfresh]
  constructor
  · exact fun hfaults => ⟨t,hlookup,c,hc,hfaults⟩
  · rintro ⟨t',ht',c',hc',hfaults⟩
    obtain rfl : t = t' := Option.some.inj (hlookup.symm.trans ht')
    obtain rfl : c' = c := Lru.Cache.ext (hc'.items.symm.trans hc.items)
    exact hfaults

/-- No rule in use ever misses its table, and no write to a file does; what goes wrong is what goes
wrong in one table. -/
theorem rules_fault_iff (hr : Runs.Reach (step m) Enabled {} s) (henabled : s.Enabled e)
    (hfresh : s.Fresh m e) : s.step m e = none ↔ s.Faults m e := by
  have h := reach_sound hr
  cases e with
  | check info res => exact iff_of_false (Option.some_ne_none _) id
  | exit => exact iff_of_false (Option.some_ne_none _) id
  | destroy info =>
    obtain ⟨s',hs,-⟩ := h.exists_destroy henabled
    exact iff_of_false (by rw [hs]; exact Option.some_ne_none s') id
  | packet jiffies skb info kmalloc =>
    obtain ⟨t,ht⟩ := h.tallied.exists_lookup (List.mem_map_of_mem henabled)
    have hlookup : s.net.recentTableLookup info.name = some t := ht
    have hone : (skb.access jiffies info t.mask kmalloc).OneFlag := (h.checked info henabled).oneFlag
    refine Iff.trans ?_ (h.access_eq_none_iff hlookup hone (hfresh t hlookup))
    unfold step RecentNet.recentMt LiveTable.access SkBuff.access
    dsimp only
    rw [hlookup, Option.map_eq_none_iff, Option.bind_some, Option.map_eq_none_iff, Option.map_eq_none_iff]
  | write jiffies name input stack kmalloc =>
    by_cases hfile : s.net.hasFile name = true
    · obtain ⟨files,hfiles,hmem⟩ : ∃ files, s.net.xtRecent = some files ∧ name ∈ files := by
        cases hnet : s.net.xtRecent with
        | none => simp [RecentNet.hasFile, hnet] at hfile
        | some files => exact ⟨files,rfl,by simpa [RecentNet.hasFile, hnet] using hfile⟩
      have hnamed := (h.files files hfiles).subset hmem
      obtain ⟨t,ht⟩ := Registry.exists_lookup hnamed
      have hlookup : s.net.recentTableLookup name = some t := ht
      have hone : (Access.write jiffies input stack kmalloc).OneFlag := trivial
      refine Iff.trans ?_ (and_iff_right hfile).symm
      refine Iff.trans ?_ (@Sound.access_eq_none_iff m s name h t hlookup
        (fun _ => .write jiffies input stack kmalloc) hone (hfresh t hlookup))
      unfold step RecentNet.recentMtProcWrite LiveTable.access
      dsimp only
      rw [if_pos hfile, hlookup, Option.map_eq_none_iff, Option.bind_some, Option.map_eq_none_iff,
        Option.map_eq_none_iff]
    · refine iff_of_false ?_ fun hfaults => hfile hfaults.1
      unfold step RecentNet.recentMtProcWrite
      dsimp only
      rw [if_neg hfile]
      exact Option.some_ne_none _

section Samples

def smallParams : RecentParams := { smallModule with ipPktListTot := 0, ipPktListTot_lt := by decide }

/-- A rule for a table whose name is one letter. -/
def rule (letter checkSet : UInt8) : XtRecentMtinfoV1 where
  seconds := 0
  hitCount := 0
  checkSet
  invert := false
  nameField := letter::List.replicate 199 0
  side := 0
  mask := .all
  nameField_length := rfl

def smallPacket : SkBuff := ⟨.ip 1 1 1 1,.ip 9 9 9 9,63,true,Iff.rfl⟩

def smallStep (s : Ruleset) (e : RuleEvent) : Ruleset := (s.step smallParams e).getD {}

/-- Two rules of one table and one of another. -/
def smallAdded : Ruleset :=
  [RuleEvent.check (rule 97 xtRecentSet) {},.check (rule 97 xtRecentCheck) {},
    .check (rule 98 xtRecentSet) {}].foldl smallStep {}

theorem reach_check {s : Ruleset} (hr : Runs.Reach (step smallParams) Enabled {} s)
    (hnet : s.net.xtRecent ≠ none) (hfew : s.rules.length < 4) (info : XtRecentMtinfoV1) :
    Runs.Reach (step smallParams) Enabled {} (smallStep s (.check info {})) := by
  have henabled : s.Enabled (.check info {}) := ⟨hnet,by omega⟩
  exact hr.next henabled rfl

theorem smallAdded_reach : Runs.Reach (step smallParams) Enabled {} smallAdded := by
  refine reach_check (reach_check (reach_check .start ?_ ?_ (rule 97 xtRecentSet)) ?_ ?_
    (rule 97 xtRecentCheck)) ?_ ?_ (rule 98 xtRecentSet) <;> decide

/-- The table of the first two is named by two rules. -/
theorem tables_follow_rules_smallAdded :
    (smallAdded.net.recentTableLookup [97]).map NamedTable.refcnt = some 2 ∧
    (∀ name, smallAdded.rules.countP (fun info => info.name = name) =
      (smallAdded.net.recentTableLookup name).elim 0 fun t => t.refcnt.toNat) ∧
    (∀ info ∈ smallAdded.rules, ∃ t, smallAdded.net.recentTableLookup info.name = some t ∧
      info.hitCount.toNat ≤ t.nstampsMaxMask.toNat + 1) ∧
    (∀ files ∈ smallAdded.net.xtRecent,
      files.Perm (smallAdded.net.tables.map NamedTable.name) ∧ files.Nodup) ∧
    ∀ t ∈ smallAdded.net.tables, 0 < t.refcnt.toNat ∧ ∃ accesses answers,
      (∀ a ∈ accesses, a.Checked t.nstampsMaxMask) ∧
        Runs.run (LiveTable.serve smallParams.toRecentModule) ({},[]) accesses = some (t.table,answers) :=
  ⟨rfl,tables_follow_rules smallAdded_reach⟩

theorem no_table_outlives_rules_smallAdded :
    smallAdded.net.leftFiles = [] ∧ ∃ s', Runs.run (step smallParams) smallAdded
      (smallAdded.rules.reverse.map RuleEvent.destroy) = some s' ∧ s'.rules = [] ∧ s'.net.tables = [] ∧
        ∀ files ∈ s'.net.xtRecent, files = [] :=
  no_table_outlives_rules smallAdded_reach (List.reverse_perm _)

def smallEvent : RuleEvent := .packet 10 smallPacket (rule 97 xtRecentSet) (some 0)

theorem smallEvent_enabled : smallAdded.Enabled smallEvent := by
  have hrules : smallAdded.rules =
      [rule 98 xtRecentSet,rule 97 xtRecentCheck,rule 97 xtRecentSet] := rfl
  have hmem : rule 97 xtRecentSet ∈ smallAdded.rules := by
    rw [hrules]
    exact List.mem_cons_of_mem _ (List.mem_cons_of_mem _ (List.mem_cons_self ..))
  exact hmem

/-- A packet that is set in one table is not in the other. -/
theorem other_tables_unchanged_smallEvent :
    (smallStep smallAdded smallEvent).net.recentTableLookup [98] =
      smallAdded.net.recentTableLookup [98] ∧
        ((smallStep smallAdded smallEvent).net.recentTableLookup [97]).map (fun t => t.table.entries) =
          some 1 := by
  have hmeets : Runs.Meets (step smallParams) Enabled smallAdded [smallEvent] :=
    ⟨smallEvent_enabled,fun _ _ => trivial⟩
  have hother : ∀ e ∈ [smallEvent], e.name ≠ some [98] := by
    intro e he
    rw [List.mem_singleton.mp he]
    decide
  have hstep : smallAdded.step smallParams smallEvent = some (smallStep smallAdded smallEvent) := rfl
  have hrun : Runs.run (step smallParams) smallAdded [smallEvent] =
      some (smallStep smallAdded smallEvent) := by
    rw [Runs.run, hstep, Option.bind_some, Runs.run]
  exact ⟨other_tables_unchanged smallAdded_reach hmeets hother hrun,rfl⟩

theorem rules_fault_iff_smallEvent :
    smallAdded.step smallParams smallEvent = none ↔ smallAdded.Faults smallParams smallEvent := by
  have hfresh : smallAdded.Fresh smallParams smallEvent := by
    intro t ht p hp t' ht'
    obtain rfl := Option.some.inj ht
    obtain rfl := Option.some.inj hp
    obtain rfl := Option.some.inj ht'
    rfl
  exact rules_fault_iff smallAdded_reach smallEvent_enabled hfresh

end Samples

end Ruleset
end Kernel
end Ssyncd
