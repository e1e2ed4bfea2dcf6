import Ssyncd.Replication.Failover
import Ssyncd.Kernel.RingLaw
import Ssyncd.Store.ProcWriters

/-! Which entries of a master's kernel a backup can write to its own. A write has a limit of bytes, and
the stamps of an entry have a limit of number but none of digits. -/
namespace Ssyncd
open Recent Kernel Reader Decimal

namespace Kernel

variable {nstampsMaxMask : UInt8}

/-- A write of the line is not refused, whatever the table; NUL is behind it. -/
def Writable (line : Bytes) : Prop :=
  ∀ (nstampsMaxMask : UInt8) (t t' : LiveTable nstampsMaxMask)
    (in6Pton : Bytes → Option UInt8 → Option NfInetAddr) (ipListTot : ℕ) (jiffies : UInt64)
    (stack : Bytes) (kmalloc : Option Ptr), cString stack = [] →
    t.recentMtProcWrite in6Pton ipListTot jiffies line stack kmalloc ≠ some (t',-EINVAL)

/-- The line of an IPv4 address is refused for its size alone. -/
theorem writable_updateLine_iff {addr : NfInetAddr} (hv4 : addr.IsIpv4) (ttl : UInt8)
    (stamps : List UInt64) : Writable (updateLine addr.text ttl.toNat stamps) ↔
      (updateLine addr.text ttl.toNat stamps).length ≤ 421 := by
  constructor
  · intro h
    by_contra hlong
    refine h 0 {} {} (fun _ _ => none) 1 0 [0] none rfl ?_
    rw [LiveTable.recentMtProcWrite_updateLine _ _ _ _ _ _ _ rfl, if_pos (.inl (Nat.lt_of_not_le hlong))]
  · intro hsize nstampsMaxMask t t' in6Pton ipListTot jiffies stack kmalloc hnul hs
    have httl : ttlOf (ttl.toNat : Int) ≠ none := by
      rw [ttlOf_toNat]
      exact Option.some_ne_none ttl
    rw [LiveTable.recentMtProcWrite_updateLine _ _ _ _ _ _ _ hnul,
      if_neg fun hor => hor.elim (Nat.not_lt_of_le hsize) fun hnot => hnot hv4] at hs
    have hret := LiveTable.storeStamps_ret httl hs
    exact LiveTable.refused_ne t t _ (congrArg some (Prod.ext rfl hret))

/-- The digits of stamps, and a separator behind each of them. -/
def stampsWidth : List UInt64 → ℕ
  | [] => 0
  | stamp::stamps => (text stamp.toNat).length + 1 + stampsWidth stamps

def lineWidth (srcIp : Bytes) (ttl : ℕ) (stamps : List UInt64) : ℕ :=
  srcIp.length + (text ttl).length + stampsWidth stamps

theorem length_updateLine_eq (srcIp : Bytes) (ttl : ℕ) (stamps : List UInt64) :
    (updateLine srcIp ttl stamps).length = lineWidth srcIp ttl stamps + 3 := by
  have hstamps : (stamps.flatMap fun nstamps => text nstamps.toNat ++ [59]).length =
      stampsWidth stamps := by
    induction stamps with
    | nil => rfl
    | cons stamp stamps ih =>
      rw [List.flatMap_cons, List.length_append, ih, List.length_append, List.length_singleton,
        stampsWidth]
  have httl : intText (ttl : Int) = text ttl := by
    rw [intText, if_neg (by omega), Int.natAbs_natCast]
  simp only [updateLine, List.length_cons, List.length_append, hstamps, httl, lineWidth]
  omega

/-- Twenty digits are enough for a stamp. -/
theorem length_text_stamp_le (stamp : UInt64) : (text stamp.toNat).length ≤ 20 := by
  have hlt := stamp.toNat_lt
  exact text_length_le (by decide) (by omega)

theorem stampsWidth_le (stamps : List UInt64) : stampsWidth stamps ≤ 21 * stamps.length := by
  induction stamps with
  | nil => exact Nat.le_refl 0
  | cons stamp stamps ih =>
    have hfirst := length_text_stamp_le stamp
    rw [stampsWidth, List.length_cons]
    omega

theorem stampsWidth_replicate (n : ℕ) (stamp : UInt64) :
    stampsWidth (List.replicate n stamp) = n * ((text stamp.toNat).length + 1) := by
  induction n with
  | zero => rw [List.replicate_zero, stampsWidth, Nat.zero_mul]
  | succ n ih =>
    rw [List.replicate_succ, stampsWidth, ih, Nat.succ_mul]
    omega

/-- What the line of an entry needs: stamps that are zero are not read from its row. -/
def RecentEntry.width (e : RecentEntry nstampsMaxMask) : ℕ :=
  lineWidth e.addr.text e.ttl.toNat (e.visible.filter fun stamp => stamp != 0)

/-- A ring of at most nineteen stamps has room in a line, however large they are. -/
theorem RecentEntry.width_le {e : RecentEntry nstampsMaxMask} (hv4 : e.addr.IsIpv4)
    (hfew : nstampsMaxMask.toNat + 1 ≤ 19) : e.width ≤ 418 := by
  have haddr : e.addr.text.length ≤ 15 := by
    rw [← XtRecentProc.readSrc_of_isIpv4 hv4]
    exact XtRecentProc.length_readSrc e
  have httl : (text e.ttl.toNat).length ≤ 3 := by
    have hlt := e.ttl.toNat_lt
    exact text_length_le (by decide) (by omega)
  have hsum := stampsWidth_le (e.visible.filter fun stamp => stamp != 0)
  have hcount : (e.visible.filter fun stamp => stamp != 0).length ≤ e.visible.length :=
    List.length_filter_le _ _
  have hcells := e.nstamps_le
  rw [e.length_visible] at hcount
  unfold RecentEntry.width lineWidth
  omega

theorem RecentEntry.Given.updateAll {addr : NfInetAddr} {stamps : List UInt64}
    {e : RecentEntry nstampsMaxMask} (h : e.Given addr stamps) (later : List UInt64) :
    (updateAll e later).Given addr (stamps ++ later) := by
  induction later generalizing stamps e with
  | nil =>
    rw [List.append_nil]
    exact h
  | cons stamp later ih =>
    have hrest := ih (h.update stamp)
    rw [List.append_assoc] at hrest
    exact hrest

theorem RecentEntry.visible_ring (e : RecentEntry nstampsMaxMask) : e.ring.visible = e.visible := rfl

theorem RecentEntry.Given.addr_eq {addr : NfInetAddr} {stamps : List UInt64}
    {e : RecentEntry nstampsMaxMask} (h : e.Given addr stamps) : e.addr = addr := by
  induction h with
  | init => rfl
  | update h nstamp ih => exact ih
  | setTtl h ttl ih => exact ih

end Kernel

/-- What the replica of a backup has under the address of an entry of its master, once it has read the
packet of the entry's row and found it unchanged. -/
def Replicated {mask : UInt8} (name : Bytes) (e : RecentEntry mask) (entry : XtRecentEntry) : Prop :=
  ∃ out sent junk b data table,
    PktParser.serialize (.recent (getEntryAsAction name (XtRecentProc.readEntry e) false)) =
      .ok (some (out,sent)) ∧
    PktParser.deserialize (memory out junk) out.length = some (.recent b,out.length) ∧
    XtRecentActionParser.Carried (getEntryAsAction name (XtRecentProc.readEntry e) false) b ∧
    (applyRecentAction data b)[name]? = some table ∧ table.entries[e.addr.text]? = some entry

section Replicated
variable {mask : UInt8} {name : Bytes} {e : RecentEntry mask} {entry : XtRecentEntry}

/-- The address, the ttl and the stamps are those of the row. -/
theorem carried_row {b : XtRecentAction} (hv4 : e.addr.IsIpv4)
    (h : XtRecentActionParser.Carried (getEntryAsAction name (XtRecentProc.readEntry e) false) b) :
    b.action = .named .addUpdEntry ∧ b.xtTableName = name ∧ b.targetEntry.srcIp = e.addr.text ∧
      b.targetEntry.ttl = e.ttl.toNat ∧
      b.targetEntry.timestamps = e.visible.filter fun stamp => stamp != 0 := by
  obtain ⟨-,hsrc⟩ := h.address (.inl rfl)
  obtain ⟨-,httl,hstamps⟩ := h.stamps rfl
  refine ⟨h.action,h.xtTableName,?_,httl,hstamps⟩
  rw [hsrc, targetEntry_getEntryAsAction, XtRecentProc.srcIp_readEntry,
    XtRecentProc.readSrc_of_isIpv4 hv4]

theorem Replicated.parts (hv4 : e.addr.IsIpv4) (h : Replicated name e entry) :
    entry.ttl = e.ttl.toNat ∧ entry.timestamps = e.visible.filter fun stamp => stamp != 0 := by
  obtain ⟨_,_,_,b,data,table,-,-,hcarried,htable,hentry⟩ := h
  obtain ⟨hadd,hname,hsrc,httl,hstamps⟩ := carried_row hv4 hcarried
  have hnew := getElem?_addUpdEntry data hadd
  rw [hname, htable] at hnew
  rw [Option.some.inj hnew, hsrc, Std.ExtTreeMap.getElem?_insert_self] at hentry
  obtain rfl := Option.some.inj hentry
  exact ⟨httl,hstamps⟩

/-- Every entry with no more stamps than a byte can count has a replica. -/
theorem exists_replicated (hcount : e.nstamps.toNat ≤ 255) (hv4 : e.addr.IsIpv4)
    (hname : name.length ≤ 254) (hnul : 0 ∉ name) : ∃ entry, Replicated name e entry := by
  obtain ⟨sent,b,hser,hread,hcarried⟩ :=
    PktParser.recent_carried (canonical_row hcount hv4 hname hnul) fun _ => 0
  obtain ⟨hadd,hb,hsrc,-⟩ := carried_row hv4 hcarried
  have hnew := getElem?_addUpdEntry ∅ hadd
  rw [hb] at hnew
  refine ⟨b.targetEntry,_,sent,fun _ => 0,b,∅,_,hser,hread,hcarried,hnew,?_⟩
  rw [hsrc, Std.ExtTreeMap.getElem?_insert_self]

/-- The line of a replica can be written exactly where the digits of the entry have room in it. -/
theorem writable_entryLine_iff (hv4 : e.addr.IsIpv4) (h : Replicated name e entry) :
    Writable (entryLine (e.addr.text,entry)) ↔ e.width ≤ 418 := by
  obtain ⟨httl,hstamps⟩ := h.parts hv4
  have hperm : (sorted entry.timestamps).Perm entry.timestamps :=
    List.perm_insertionSort (· ≤ ·) entry.timestamps
  have hlen : (updateLine e.addr.text e.ttl.toNat (sorted entry.timestamps)).length = e.width + 3 := by
    rw [length_updateLine hperm, hstamps, length_updateLine_eq]
    rfl
  rw [entryLine, httl, writable_updateLine_iff hv4, hlen]
  omega

end Replicated

section Wide
variable (ipPktListTot hitCount : ℕ) (stamp : UInt64)

/-- An entry that was given the same stamp twenty times. -/
def twentyStamps : RecentEntry (PatchedModule.nstampsMaxMask ipPktListTot hitCount) :=
  updateAll (recentEntryInit _ (.ip 1 1 1 1) 64 stamp) (List.replicate 19 stamp)

variable {ipPktListTot hitCount stamp}

/-- They all fit into a ring of as many cells. -/
theorem visible_twentyStamps (htot : ipPktListTot < 256) (hhit : hitCount < 256)
    (hroom : 20 ≤ (PatchedModule.nstampsMaxMask ipPktListTot hitCount).toNat + 1) :
    (twentyStamps ipPktListTot hitCount stamp).visible = List.replicate 20 stamp := by
  have hlaw : (PatchedModule.v4_9_13 ipPktListTot hitCount htot hhit).RingLaw
      { jiffies := stamp } (List.replicate 19 { jiffies := stamp }) :=
    PatchedModule.ringLaw_of_fits (.inr (by rw [List.length_replicate]; decide))
  have hring : (twentyStamps ipPktListTot hitCount stamp).ring =
      (PatchedModule.v4_9_13 ipPktListTot hitCount htot hhit).run
        { jiffies := stamp } (List.replicate 19 { jiffies := stamp }) :=
    PatchedModule.ring_updateAll htot hhit (.ip 1 1 1 1) 64 { jiffies := stamp }
      (List.replicate 19 { jiffies := stamp })
  have hlatest : (PatchedModule.v4_9_13 ipPktListTot hitCount htot hhit).latest
      { jiffies := stamp } (List.replicate 19 { jiffies := stamp }) = List.replicate 20 stamp := by
    have hall : 20 - (PatchedModule.v4_9_13 ipPktListTot hitCount htot hhit).capacity = 0 :=
      Nat.sub_eq_zero_of_le hroom
    rw [PatchedModule.latest, List.length_replicate, hall]
    rfl
  have hvisible := hlaw.visible
  rw [← hring, hlatest, RecentEntry.visible_ring] at hvisible
  exact List.perm_replicate.mp hvisible

/-- Twenty digits to each of them are too many. -/
theorem width_twentyStamps (htot : ipPktListTot < 256) (hhit : hitCount < 256)
    (hroom : 20 ≤ (PatchedModule.nstampsMaxMask ipPktListTot hitCount).toNat + 1)
    (hdigits : 10^19 ≤ stamp.toNat) : 418 < (twentyStamps ipPktListTot hitCount stamp).width := by
  have hlong : 19 < (text stamp.toNat).length := lt_text_length (by decide) hdigits
  have hnonzero : (stamp != 0) = true := by
    rw [bne_iff_ne]
    rintro rfl
    exact absurd hdigits (by decide)
  rw [RecentEntry.width, visible_twentyStamps htot hhit hroom, lineWidth, List.filter_replicate,
    if_pos hnonzero, stampsWidth_replicate]
  omega

theorem given_twentyStamps : (twentyStamps ipPktListTot hitCount stamp).Given (.ip 1 1 1 1)
    (stamp::List.replicate 19 stamp) :=
  (RecentEntry.Given.init 64 stamp).updateAll _

/-- An entry of this kind is replicated, and its line is refused. -/
theorem not_writable_twentyStamps (htot : ipPktListTot < 256) (hhit : hitCount < 256)
    (hroom : 20 ≤ (PatchedModule.nstampsMaxMask ipPktListTot hitCount).toNat + 1)
    (hdigits : 10^19 ≤ stamp.toNat) :
    ∃ entry, Replicated [116] (twentyStamps ipPktListTot hitCount stamp) entry ∧
      ¬Writable (entryLine ((twentyStamps ipPktListTot hitCount stamp).addr.text,entry)) := by
  have hv4 : (twentyStamps ipPktListTot hitCount stamp).addr.IsIpv4 := by
    rw [given_twentyStamps.addr_eq]
    trivial
  have hcount : (twentyStamps ipPktListTot hitCount stamp).nstamps.toNat ≤ 255 := by
    rw [← RecentEntry.length_visible, visible_twentyStamps htot hhit hroom, List.length_replicate]
    decide
  obtain ⟨entry,hentry⟩ := exists_replicated hcount hv4 (show ([116] : Bytes).length ≤ 254 by decide)
    (by decide)
  refine ⟨entry,hentry,?_⟩
  rw [writable_entryLine_iff hv4 hentry]
  exact Nat.not_le_of_lt (width_twentyStamps htot hhit hroom hdigits)

/-- All entries that a table of the module can hold can be written where they are replicated. -/
def LinesFit (ipPktListTot hitCount : ℕ) : Prop :=
  ∀ (e : RecentEntry (PatchedModule.nstampsMaxMask ipPktListTot hitCount)) (addr : NfInetAddr)
    (stamps : List UInt64) (name : Bytes) (entry : XtRecentEntry), e.Given addr stamps →
    addr.IsIpv4 → Replicated name e entry → Writable (entryLine (e.addr.text,entry))

/-- An entry can be written exactly where its digits have room in a line; and all the entries that a
table can hold can be written exactly where it keeps at most nineteen stamps of each. -/
theorem linesFit_iff (htot : ipPktListTot < 256) (hhit : hitCount < 256) :
    (∀ (e : RecentEntry (PatchedModule.nstampsMaxMask ipPktListTot hitCount)) (name : Bytes)
      (entry : XtRecentEntry), e.addr.IsIpv4 → Replicated name e entry →
        (Writable (entryLine (e.addr.text,entry)) ↔ e.width ≤ 418)) ∧
    (LinesFit ipPktListTot hitCount ↔
      (PatchedModule.v4_9_13 ipPktListTot hitCount htot hhit).capacity ≤ 19) := by
  refine ⟨fun e name entry hv4 h => writable_entryLine_iff hv4 h,fun hall => ?_,fun hfew => ?_⟩
  · by_contra hmany
    obtain ⟨entry,hentry,hrefused⟩ := not_writable_twentyStamps htot hhit (Nat.lt_of_not_le hmany)
      (show 10^19 ≤ (18446744073709551615 : UInt64).toNat by decide)
    exact hrefused (hall _ _ _ _ entry given_twentyStamps trivial hentry)
  · intro e addr stamps name entry hgiven hv4 hentry
    rw [← hgiven.addr_eq] at hv4
    exact (writable_entryLine_iff hv4 hentry).mpr (RecentEntry.width_le hv4 hfew)

/-- A module that is loaded for sixteen stamps. -/
theorem linesFit_sixteen : LinesFit 16 0 := by
  have hcapacity : (PatchedModule.nstampsMaxMask 16 0).toNat + 1 ≤ 19 := by decide +kernel
  exact (linesFit_iff (by decide) (by decide)).2.mpr hcapacity

/-- A module with neither parameter keeps thirty-two stamps. -/
theorem not_linesFit_default : ¬LinesFit 0 0 ∧
    (twentyStamps 0 0 18446744073709551615).Given (.ip 1 1 1 1)
      (18446744073709551615::List.replicate 19 18446744073709551615) ∧
    ∃ entry, Replicated [116] (twentyStamps 0 0 18446744073709551615) entry ∧
      ¬Writable (entryLine ((twentyStamps 0 0 18446744073709551615).addr.text,entry)) := by
  have hroom : 20 ≤ (PatchedModule.nstampsMaxMask 0 0).toNat + 1 := by decide
  have hdigits : 10^19 ≤ (18446744073709551615 : UInt64).toNat := by decide
  obtain ⟨entry,hentry,hrefused⟩ := not_writable_twentyStamps (by decide) (by decide) hroom hdigits
  exact ⟨fun hall => hrefused (hall _ _ _ _ entry given_twentyStamps trivial hentry),
    given_twentyStamps,entry,hentry,hrefused⟩

end Wide
end Ssyncd
