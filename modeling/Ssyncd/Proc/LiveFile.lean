import Ssyncd.Kernel.RuleLife
import Ssyncd.Proc.Faithful

/-! What the daemon reads of a table that the rules of a net have filled. The table has no address
twice, so a row is lost only where it does not show what is in the entry. -/
namespace Ssyncd
open Kernel

namespace Kernel

variable {nstampsMaxMask : UInt8} {t : LiveTable nstampsMaxMask} {c : RecentCache (RecentEntry nstampsMaxMask)}
  {ps : List Ptr}

/-- A table as it is printed, with its entries in the order of its chains. -/
def LiveTable.printed (t : LiveTable nstampsMaxMask) (name : Bytes) (ps : List Ptr) : RecentTable :=
  ⟨name,nstampsMaxMask,ps.filterMap t.heap⟩

namespace LiveTable

theorem WellFormed.mem_printed (h : t.WellFormed) (hps : ps.Perm t.lruList) (name : Bytes)
    {e : RecentEntry nstampsMaxMask} : e ∈ (t.printed name ps).entries ↔ ∃ p, t.heap p = some e := by
  refine List.mem_filterMap.trans ⟨fun ⟨p,_,he⟩ => ⟨p,he⟩,fun ⟨p,he⟩ => ⟨p,?_,he⟩⟩
  exact hps.mem_iff.mpr ((h.live p).mpr ⟨e,he⟩)

theorem Holds.nodup_printed (h : t.Holds c) (hps : ps.Perm t.lruList) (name : Bytes) :
    ((t.printed name ps).entries.map (·.addr)).Nodup := by
  have hkeys : (t.lruList.filterMap t.heap).map (·.addr) = c.keys := by
    rw [Lru.Cache.keys, ← h.items, itemsOf, List.map_filterMap, List.map_filterMap]
    refine List.filterMap_congr fun p _ => ?_
    rw [Option.map_map]
    rfl
  have hperm := (hps.filterMap t.heap).map RecentEntry.addr
  rw [hkeys] at hperm
  exact hperm.nodup_iff.mpr c.nodup

end LiveTable
end Kernel

namespace XtRecentProc

/-- The file of a table that rules have filled is read as it is, unless an IPv6 address of it has digits
that pass for an IPv4 one, or a stamp of an IPv4 address is 0. -/
theorem rule_tables_read_iff {m : RecentParams} {s : Ruleset}
    (hr : Runs.Reach (Ruleset.step m) Ruleset.Enabled {} s) {t : NamedTable} (ht : t ∈ s.net.tables)
    {ps : List Ptr} (hps : ps.Perm t.table.lruList) :
    Faithful (t.table.printed t.name ps) ↔
      ∀ p e, t.table.heap p = some e → ¬e.addr.PassesForIpv4 ∧
        (e.addr.IsIpv4 → ∀ stamp ∈ e.visible, stamp ≠ 0) := by
  obtain ⟨c,hc,-⟩ := ((Ruleset.reach_sound hr).tables t ht).held
  have hmem := fun e => @LiveTable.WellFormed.mem_printed _ _ _ hc.wellFormed hps t.name e
  constructor
  · intro h p e he
    have hin := (hmem e).mpr ⟨p,he⟩
    exact ⟨not_passes_of_perm h.perm hin,fun hv4 =>
      stamps_of_perm h.perm (mem_ipv4Entries.mpr ⟨hin,hv4⟩)⟩
  · intro h
    refine faithful_of ?_ (fun e he => ?_) fun e he => ?_
    · exact (hc.nodup_printed hps t.name).sublist (List.filter_sublist.map _)
    · obtain ⟨p,hp⟩ := (hmem e).mp he
      exact (h p e hp).1
    · obtain ⟨hin,hv4⟩ := mem_ipv4Entries.mp he
      obtain ⟨p,hp⟩ := (hmem e).mp hin
      exact (h p e hp).2 hv4

/-- A packet of 1.1.1.1 was set in the table a. -/
def smallSeen : Ruleset := Ruleset.smallStep Ruleset.smallAdded Ruleset.smallEvent

theorem smallSeen_reach :
    Runs.Reach (Ruleset.step Ruleset.smallParams) Ruleset.Enabled {} smallSeen :=
  Ruleset.smallAdded_reach.next Ruleset.smallEvent_enabled rfl

theorem rule_tables_read_iff_smallSeen :
    ∃ t ∈ smallSeen.net.tables, t.table.lruList = [0] ∧
      (Faithful (t.table.printed t.name [0]) ↔
        ∀ p e, t.table.heap p = some e → ¬e.addr.PassesForIpv4 ∧
          (e.addr.IsIpv4 → ∀ stamp ∈ e.visible, stamp ≠ 0)) := by
  have htable : ∃ t, smallSeen.net.recentTableLookup [97] = some t ∧ t.table.lruList = [0] := ⟨_,rfl,rfl⟩
  obtain ⟨t,ht,hlru⟩ := htable
  have hmem := RecentNet.mem_of_lookup ht
  exact ⟨t,hmem,hlru,rule_tables_read_iff smallSeen_reach hmem (by rw [hlru])⟩

end XtRecentProc
end Ssyncd
