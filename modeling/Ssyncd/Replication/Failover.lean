import Ssyncd.Codec.PktParser
import Ssyncd.Proc.Table
import Ssyncd.Store.RecentWrite

/-! An entry on its way from the kernel of a master to that of the backup that takes over: its row
is printed and read, sent as an action, applied to the replica, and written with the replica's
table. Rows keep the order of the ring's cells, lines that of the stamps. -/
namespace Ssyncd
open Recent Kernel Reader

theorem Addressed.receive {data : RecentData} (h : Addressed data) {buffer : Memory}
    {bufferSize used : ℕ} {a : XtRecentAction}
    (ha : XtRecentActionParser.deserialize buffer bufferSize = some (a,used)) :
    Addressed (Recent.applyRecentAction data a) :=
  h.applyRecentAction fun hadd => XtRecentActionParser.srcIp_deserialize ha (.inl hadd)

namespace Recent

/-- The name that a table has after an entry was added to it, which is the name of its file. -/
def fileName (data : RecentData) (xtTableName : Bytes) : Bytes :=
  if xtTableName ∈ data then (data.getD xtTableName {}).name else xtTableName

theorem getElem?_addUpdEntry (data : RecentData) {a : XtRecentAction}
    (h : a.action = .named .addUpdEntry) :
    (applyRecentAction data a)[a.xtTableName]? = some {
      name := fileName data a.xtTableName
      entries := (data.getD a.xtTableName {}).entries.insert a.targetEntry.srcIp a.targetEntry } := by
  unfold applyRecentAction fileName
  rw [h]
  dsimp only
  rw [Std.ExtTreeMap.getElem?_insert_self]
  split
  · rfl
  · next hnew => rw [Std.ExtTreeMap.getD_eq_fallback hnew]

theorem size_insert_le {entries : Std.ExtTreeMap Bytes XtRecentEntry} {srcIp : Bytes} {limit : ℕ}
    (h : (entries.erase srcIp).size < limit) (entry : XtRecentEntry) :
    (entries.insert srcIp entry).size ≤ limit := by
  rw [Std.ExtTreeMap.size_erase] at h
  rw [Std.ExtTreeMap.size_insert]
  split at h
  · next hin =>
    rw [if_pos hin]
    omega
  · next hout =>
    rw [if_neg hout]
    omega

end Recent

section Failover
variable {nstampsMaxMask : UInt8} {e : RecentEntry nstampsMaxMask} {addr : NfInetAddr}
  {stamps : List UInt64}

theorem length_updateLine {stamps stamps' : List UInt64} (h : stamps.Perm stamps') (srcIp : Bytes)
    (ttl : Int) : (updateLine srcIp ttl stamps).length = (updateLine srcIp ttl stamps').length := by
  have hparts := (h.flatMap_right fun nstamps => Decimal.text nstamps.toNat ++ [59]).length_eq
  simp only [updateLine, List.length_cons, List.length_append, hparts]

/-- What a kernel makes of an entry that it is given whole mirrors it. -/
theorem exists_mirror (hmask : nstampsMaxMask ∈ shortMasks) (hgiven : e.Given addr stamps)
    (horder : stamps.Pairwise (· ≤ ·))
    (hfits : (updateLine e.addr.text e.ttl.toNat e.visible).length ≤ 421) {entry : XtRecentEntry}
    (httl : entry.ttl = e.ttl.toNat) (hstamps : entry.timestamps = e.visible) :
    ∃ e', kernelEntry nstampsMaxMask addr entry = some e' ∧ e.Mirrors e' := by
  obtain ⟨haddr,hindex,-⟩ := hgiven.exists_history hmask
  obtain ⟨hhistory,-⟩ := hgiven.exists_sorted hmask horder
  have hperm : (sorted e.visible).Perm e.visible := List.perm_insertionSort (· ≤ ·) e.visible
  have hline : (updateLine addr.text e.ttl.toNat (sorted e.visible)).length ≤ 421 := by
    rw [length_updateLine hperm, ← haddr]
    exact hfits
  have hlength := hhistory.length.trans_le e.nstamps_le
  unfold kernelEntry LiveTable.lineEntry
  rw [httl, hstamps, if_pos hline, ttlOf_toNat]
  cases hsorted : sorted e.visible with
  | nil =>
    have hempty : e.visible.length = 0 := by
      rw [← hperm.length_eq, hsorted]
      rfl
    exact absurd (List.length_eq_zero_iff.mp hempty) e.visible_ne_nil
  | cons stamp rest =>
    rw [hsorted] at hhistory hlength
    refine ⟨_,rfl,mirrors_of_history hmask hhistory (history_rebuilt hmask hlength) hindex ?_ ?_ ?_⟩
    · exact index_updateAll_ne_zero hmask (by simp [recentEntryInit]) rest
    · exact (updateAll_addr _ _).trans haddr.symm
    · exact updateAll_ttl _ _

/-- The action that a master makes of the row of an entry can be sent. -/
theorem canonical_row (hcount : e.nstamps.toNat ≤ 255) (hv4 : e.addr.IsIpv4) {name : Bytes}
    (hname : name.length ≤ 254) (hnul : 0 ∉ name) :
    XtRecentActionParser.Canonical (getEntryAsAction name (XtRecentProc.readEntry e) false) where
  type := rfl
  srcIp _ := by
    obtain ⟨a,b,c,d,haddr⟩ : ∃ a b c d, e.addr = .ip a b c d := by
      cases ht : e.addr with
      | ip a b c d => exact ⟨a,b,c,d,rfl⟩
      | ip6 => rw [ht] at hv4; exact absurd hv4 id
    refine ⟨a,b,c,d,?_⟩
    rw [targetEntry_getEntryAsAction, XtRecentProc.srcIp_readEntry, XtRecentProc.readSrc_of_isIpv4 hv4,
      haddr, NfInetAddr.text]
  index := by
    have hlt := e.index.toNat_lt
    exact ⟨Int.natCast_nonneg _,by change (e.index.toNat : Int) ≤ 255; omega⟩
  ttl := by
    have hlt := e.ttl.toNat_lt
    exact ⟨Int.natCast_nonneg _,by change (e.ttl.toNat : Int) ≤ 255; omega⟩
  timestamps := by
    have hlen : (e.visible.filter fun stamp => stamp != 0).length ≤ e.visible.length :=
      List.length_filter_le _ _
    rw [e.length_visible] at hlen
    exact hlen.trans hcount
  name := hname
  nulFree := hnul

/-- An entry of IPv4 that was given its stamps in order comes out of a failover as the same entry,
now and after every later use. The replica may hold other entries of its table, which are written
with it, as long as there is room for all of them. -/
theorem entry_survives_failover (hmask : nstampsMaxMask ∈ shortMasks) (hgiven : e.Given addr stamps)
    (hv4 : addr.IsIpv4) (horder : stamps.Pairwise (· ≤ ·)) (hnonzero : ∀ stamp ∈ stamps, stamp ≠ 0)
    (hfits : (updateLine e.addr.text e.ttl.toNat e.visible).length ≤ 421) {name : Bytes}
    (hname : name.length ≤ 254) (hnul : 0 ∉ name) (junk : Memory) {data : RecentData}
    (hdata : Addressed data) (m : RecentModule)
    (hroom : ((data.getD name {}).entries.erase e.addr.text).size < m.ipListTot)
    {attempts : ℕ → ProcAttempt} (hsucceed : Succeed attempts) {proc : ProcDir}
    {t : LiveTable nstampsMaxMask} (hwf : t.WellFormed)
    (hproc : proc (fileName data name) = some ⟨nstampsMaxMask,t⟩) :
    ∃ line entry out sent b proc' t' p e',
      XtRecentProc.lines (recentSeqShow e) = [line] ∧
      XtRecentProc.parseFileRow line = .ok entry ∧
      PktParser.serialize (.recent (getEntryAsAction name entry false)) = .ok (some (out,sent)) ∧
      PktParser.deserialize (memory out junk) out.length = some (.recent b,out.length) ∧
      writeRecentData m (Recent.applyRecentAction data b) name attempts proc = some (proc',0) ∧
      proc' (fileName data name) = some ⟨nstampsMaxMask,t'⟩ ∧
      t'.recentEntryLookup addr 0 = some p ∧ t'.heap p = some e' ∧ e.Mirrors e' := by
  obtain ⟨haddr,-⟩ := hgiven.exists_history hmask
  obtain ⟨-,hsub⟩ := hgiven.exists_sorted hmask horder
  have hperm : (sorted e.visible).Perm e.visible := List.perm_insertionSort (· ≤ ·) e.visible
  have hv4' : e.addr.IsIpv4 := haddr ▸ hv4
  have hsrc : XtRecentProc.readSrc e = addr.text := haddr ▸ XtRecentProc.readSrc_of_isIpv4 hv4'
  have hall : e.visible.filter (fun stamp => stamp != 0) = e.visible := by
    refine List.filter_eq_self.mpr fun stamp hstamp => bne_iff_ne.mpr ?_
    exact hnonzero stamp (hsub.subset (hperm.mem_iff.mpr hstamp))
  have hcount : e.nstamps.toNat ≤ 255 := by
    have hcells := e.nstamps_le
    have hshort := toNat_le_of_short hmask
    omega
  have hcanonical := canonical_row hcount hv4' hname hnul
  obtain ⟨sent,b,hser,hread,hcarried⟩ := PktParser.recent_carried hcanonical junk
  have hadd : b.action = .named .addUpdEntry := hcarried.action
  obtain ⟨-,hsrcb⟩ := hcarried.address (.inl rfl)
  obtain ⟨-,httlb,hstampsb⟩ := hcarried.stamps rfl
  have hkey : b.targetEntry.srcIp = addr.text := by
    rw [hsrcb, targetEntry_getEntryAsAction, XtRecentProc.srcIp_readEntry, hsrc]
  have hnameb : b.xtTableName = name := hcarried.xtTableName
  have htable := getElem?_addUpdEntry data hadd
  rw [hnameb, hkey] at htable
  have hdata' : Addressed (Recent.applyRecentAction data b) :=
    hdata.applyRecentAction fun _ => by
      obtain ⟨p,q,r,s,hquad⟩ := hcanonical.srcIp (.inl rfl)
      exact ⟨p,q,r,s,hsrcb.trans hquad⟩
  rw [haddr] at hroom
  obtain ⟨t',hwrite,-,hview⟩ := writeRecentData_spec htable hdata' (size_insert_le hroom _) hsucceed
    hproc hwf
  obtain ⟨e',hmade,hmirrors⟩ := exists_mirror hmask hgiven horder hfits httlb (hstampsb.trans hall)
  have hfound : t'.view addr = some e' := by
    rw [hview, Std.ExtTreeMap.getElem?_insert_self, Option.bind_some, hmade]
  obtain ⟨p,hlookup,hheap⟩ := Option.bind_eq_some_iff.mp hfound
  exact ⟨row e,_,_,sent,b,_,t',p,e',XtRecentProc.lines_cons (XtRecentProc.newline_not_mem_row e) [],
    XtRecentProc.parseFileRow_row e,hser,hread,hwrite,Function.update_self ..,hlookup,hheap,hmirrors⟩

/-- A ring of two cells that has wrapped around: its row has the newest stamp first. -/
def wrappedEntry : RecentEntry 1 :=
  recentEntryUpdate (recentEntryUpdate (recentEntryInit 1 (.ip 192 168 0 159) 64 1000) 1001) 1002

def backupModule : RecentModule := ⟨100,Nat.succ_pos 99,250,fun _ _ => none⟩

/-- The only table, empty so far. -/
def backupProc : ProcDir := fun name => if name = [116,49] then some ⟨1,{}⟩ else none

def nextBlock (n : ℕ) : ProcAttempt := { kmalloc := some n }

theorem wrappedEntry_survives :
    ∃ line entry out sent b proc' t' p e',
      XtRecentProc.lines (recentSeqShow wrappedEntry) = [line] ∧
      XtRecentProc.parseFileRow line = .ok entry ∧
      PktParser.serialize (.recent (getEntryAsAction [116,49] entry false)) = .ok (some (out,sent)) ∧
      PktParser.deserialize (memory out fun _ => 0) out.length = some (.recent b,out.length) ∧
      writeRecentData backupModule (Recent.applyRecentAction ∅ b) [116,49] nextBlock backupProc =
        some (proc',0) ∧
      proc' (fileName ∅ [116,49]) = some ⟨1,t'⟩ ∧
      t'.recentEntryLookup (.ip 192 168 0 159) 0 = some p ∧ t'.heap p = some e' ∧
      wrappedEntry.Mirrors e' := by
  have hgiven : wrappedEntry.Given (.ip 192 168 0 159) [1000,1001,1002] :=
    ((RecentEntry.Given.init 64 1000).update 1001).update 1002
  have hsucceed : Succeed nextBlock := ⟨fun _ => rfl,fun _ => rfl,fun n => ⟨n,rfl⟩,
    fun _ _ heq => Option.some.inj heq⟩
  have hnonzero : ∀ stamp ∈ ([1000,1001,1002] : List UInt64), stamp ≠ 0 := by
    intro stamp hstamp h0
    rw [h0] at hstamp
    revert hstamp
    decide
  have hroom : (((∅ : RecentData).getD [116,49] {}).entries.erase wrappedEntry.addr.text).size <
      backupModule.ipListTot := by
    rw [Std.ExtTreeMap.getD_empty, Std.ExtTreeMap.erase_empty, Std.ExtTreeMap.size_empty]
    exact backupModule.ipListTot_pos
  exact entry_survives_failover (by decide) hgiven trivial (by decide) hnonzero (by decide)
    (by decide) (by decide) (fun _ => 0) addressed_empty backupModule hroom hsucceed
    LiveTable.wellFormed_empty rfl

end Failover
end Ssyncd
