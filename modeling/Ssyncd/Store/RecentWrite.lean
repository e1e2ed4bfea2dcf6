import Ssyncd.Store.ProcWriters

/-! How a node writes its replica of a recent table to the kernel: a flush, and a line for each
entry. -/
namespace Ssyncd
open Recent Kernel

/-- A proc file, which is a table of the kernel module. -/
structure ProcFile where
  nstampsMaxMask : UInt8
  table : LiveTable nstampsMaxMask

/-- The files of the proc directory by their names. -/
abbrev ProcDir := Bytes → Option ProcFile

/-- What an open and a write to a file meet. -/
structure ProcAttempt where
  opened : Bool := true
  jiffies : UInt64 := 0
  stack : Bytes := [0]
  kmalloc : Option Ptr := none

/-- Without the file, or where it cannot be opened, the write is to no descriptor. -/
def writeProc (m : RecentModule) (a : ProcAttempt) (name input : Bytes) (proc : ProcDir) :
    Option (ProcDir × Int) :=
  match proc name, a.opened with
  | some ⟨nstampsMaxMask,t⟩, true =>
    (t.recentMtProcWrite m.in6Pton m.ipListTot a.jiffies input a.stack a.kmalloc).map fun (t,ret) =>
      (Function.update proc name (some ⟨nstampsMaxMask,t⟩),ret)
  | _, _ => some (proc,-1)

/-- The tables in the memory of the kernel module. -/
def moduleWriter (m : RecentModule) (attempts : ℕ → ProcAttempt) : ProcWriter ProcDir :=
  fun n => writeProc m (attempts n)

def writeRecentData (m : RecentModule) (data : RecentData) (tableName : Bytes)
    (attempts : ℕ → ProcAttempt) (proc : ProcDir) : Option (ProcDir × Int) :=
  (moduleWriter m attempts).writeRecentData data tableName proc

/-- Every open and every allocation succeeds, and no block is given twice. What is on the stack
behind a line starts with NUL. -/
structure Succeed (attempts : ℕ → ProcAttempt) : Prop where
  opened : ∀ n, (attempts n).opened = true
  nul : ∀ n, cString (attempts n).stack = []
  allocated : ∀ n, ∃ p, (attempts n).kmalloc = some p
  fresh : ∀ n n', (attempts n).kmalloc = (attempts n').kmalloc → n = n'

theorem Succeed.tail {attempts : ℕ → ProcAttempt} (h : Succeed attempts) :
    Succeed fun n => attempts (n+1) where
  opened n := h.opened (n+1)
  nul n := h.nul (n+1)
  allocated n := h.allocated (n+1)
  fresh _ _ heq := Nat.succ.inj (h.fresh _ _ heq)

/-- Source addresses as the daemon reads them from packets. -/
def Addressed (data : RecentData) : Prop :=
  ∀ k, entries data k ≠ none → ∃ addr : NfInetAddr, addr.IsIpv4 ∧ addr.text = k.srcIp

theorem addressed_empty : Addressed ∅ := fun k h => absurd (entries_empty k) h

theorem Addressed.applyRecentAction {data : RecentData} (h : Addressed data) {a : XtRecentAction}
    (ha : a.action = .named .addUpdEntry → ∃ p q r s, a.targetEntry.srcIp = dottedQuad p q r s) :
    Addressed (applyRecentAction data a) := by
  intro k hk
  rw [entries_applyRecentAction, Overlay.step] at hk
  cases heffect : recentEffect a k with
  | keep =>
    rw [heffect] at hk
    exact h k hk
  | drop =>
    rw [heffect] at hk
    exact absurd rfl hk
  | put e =>
    obtain ⟨rfl,-⟩ := recentEffect_put heffect
    obtain ⟨p,q,r,s,hsrc⟩ := ha (action_of_put heffect)
    exact ⟨.ip p q r s,trivial,hsrc.symm⟩

namespace Kernel

/-- No two addresses of IPv4 are printed alike. -/
theorem NfInetAddr.text_inj {addr addr' : NfInetAddr} (h : addr.IsIpv4) (heq : addr.text = addr'.text) :
    addr = addr' := by
  have hpton : ∀ a b c d, in4Pton (dottedQuad a b c d) none = some (.ip a b c d) := fun a b c d =>
    in4Pton_dottedQuad (fun _ h => absurd h (by simp)) a b c d
  cases addr with
  | ip6 => exact absurd h id
  | ip a b c d =>
    have hread := hpton a b c d
    rw [← NfInetAddr.text, heq] at hread
    cases addr' with
    | ip a' b' c' d' =>
      rw [NfInetAddr.text, hpton] at hread
      exact (Option.some.inj hread).symm
    | ip6 =>
      rw [in4Pton_ip6] at hread
      exact absurd hread.symm (Option.some_ne_none _)

end Kernel

section Lines
variable {nstampsMaxMask : UInt8} {m : RecentModule} {name : Bytes}

/-- The entry that a kernel gets of an entry of the replica. -/
def kernelEntry (nstampsMaxMask : UInt8) (addr : NfInetAddr) (entry : XtRecentEntry) :
    Option (RecentEntry nstampsMaxMask) :=
  LiveTable.lineEntry nstampsMaxMask addr entry.ttl (sorted entry.timestamps)

/-- The entries to write are of addresses that the table does not have, there is room for them,
and the blocks that are given for them are free. -/
structure Pending (m : RecentModule) (t : LiveTable nstampsMaxMask)
    (list : List (Bytes × XtRecentEntry)) (attempts : ℕ → ProcAttempt) : Prop where
  wellFormed : t.WellFormed
  succeed : Succeed attempts
  nodup : (list.map Prod.fst).Nodup
  new : ∀ p ∈ list, ∃ addr : NfInetAddr, addr.IsIpv4 ∧ addr.text = p.1 ∧ t.view addr = none
  room : t.entries + list.length ≤ m.ipListTot
  free : ∀ n p, (attempts n).kmalloc = some p → t.heap p = none

variable {t : LiveTable nstampsMaxMask} {list : List (Bytes × XtRecentEntry)}
  {attempts : ℕ → ProcAttempt}

/-- The first line that is pending: what it makes is added, and the others are pending still. -/
theorem Pending.write {addr : NfInetAddr} {entry : XtRecentEntry}
    (h : Pending m t ((addr.text,entry)::list) attempts) (haddr : addr.IsIpv4)
    (hnew : t.view addr = none) {proc : ProcDir} (hproc : proc name = some ⟨nstampsMaxMask,t⟩) :
    ∃ t' ret,
      writeProc m (attempts 0) name (updateLine addr.text entry.ttl (sorted entry.timestamps)) proc =
        some (Function.update proc name (some ⟨nstampsMaxMask,t'⟩),ret) ∧
      Pending m t' list (fun n => attempts (n+1)) ∧
      t'.view addr = kernelEntry nstampsMaxMask addr entry ∧
      ∀ addr', addr' ≠ addr → t'.view addr' = t.view addr' := by
  obtain ⟨p,hp⟩ := h.succeed.allocated 0
  have hfree := h.free 0 p hp
  have hroom : t.entries < m.ipListTot := by
    have hlen := h.room
    rw [List.length_cons] at hlen
    omega
  obtain ⟨ret,hwrite⟩ := h.wellFormed.write_new m.in6Pton (attempts 0).jiffies haddr hnew hroom hfree
    (h.succeed.nul 0) entry.ttl (sorted entry.timestamps)
  have hout : addr.text ∉ list.map Prod.fst := (List.nodup_cons.mp h.nodup).1
  have hothers : ∀ q ∈ list, ∃ addr' : NfInetAddr, addr'.IsIpv4 ∧ addr'.text = q.1 ∧
      t.view addr' = none ∧ addr' ≠ addr := by
    intro q hq
    obtain ⟨addr',hv4,htext,hview⟩ := h.new q (List.mem_cons_of_mem _ hq)
    refine ⟨addr',hv4,htext,hview,?_⟩
    rintro rfl
    exact hout (List.mem_map.mpr ⟨q,hq,htext.symm⟩)
  refine ⟨(kernelEntry nstampsMaxMask addr entry).elim t (t.linked p),ret,?_,?_⟩
  · unfold writeProc
    rw [hproc, h.succeed.opened 0]
    dsimp only
    rw [hp, hwrite]
    rfl
  · cases hmade : kernelEntry nstampsMaxMask addr entry with
    | none =>
      refine ⟨⟨h.wellFormed,h.succeed.tail,(List.nodup_cons.mp h.nodup).2,?_,?_,?_⟩,hnew,fun _ _ => rfl⟩
      · exact fun q hq => h.new q (List.mem_cons_of_mem _ hq)
      · exact Nat.le_trans (Nat.add_le_add_left (Nat.le_succ _) _) h.room
      · exact fun n q hq => h.free (n+1) q hq
    | some e =>
      have he : e.addr = addr := LiveTable.addr_lineEntry hmade
      have hview : ∀ addr', (t.linked p e).view addr' =
          (t.view addr').or (if addr = addr' then some e else none) := by
        intro addr'
        rw [h.wellFormed.view_linked hfree, he]
      refine ⟨⟨h.wellFormed.linked hfree,h.succeed.tail,(List.nodup_cons.mp h.nodup).2,?_,?_,?_⟩,?_,?_⟩
      · intro q hq
        obtain ⟨addr',hv4,htext,hnone,hne⟩ := hothers q hq
        refine ⟨addr',hv4,htext,?_⟩
        rw [Option.elim_some, hview, hnone, if_neg fun heq => hne heq.symm]
        rfl
      · have hlen := h.room
        rw [List.length_cons] at hlen
        rw [Option.elim_some, LiveTable.linked]
        dsimp only
        omega
      · intro n q hq
        have hne : q ≠ p := by
          rintro rfl
          exact absurd (h.succeed.fresh _ _ (hq.trans hp.symm)) (Nat.succ_ne_zero n)
        rw [Option.elim_some, LiveTable.heap_linked, if_neg hne]
        exact h.free (n+1) q hq
      · rw [Option.elim_some, hview, hnew, if_pos rfl]
        rfl
      · intro addr' hne
        rw [Option.elim_some, hview, if_neg fun heq => hne heq.symm, Option.or_none]

/-- All the lines: each address of the list gets what its line makes, the others keep theirs. -/
theorem Pending.dataEntries (h : Pending m t list attempts) {proc : ProcDir}
    (hproc : proc name = some ⟨nstampsMaxMask,t⟩) :
    ∃ t', (moduleWriter m attempts).dataEntries name list 0 proc =
        some (Function.update proc name (some ⟨nstampsMaxMask,t'⟩)) ∧ t'.WellFormed ∧
      (∀ addr, addr.text ∉ list.map Prod.fst → t'.view addr = t.view addr) ∧
      ∀ addr entry, addr.IsIpv4 → (addr.text,entry) ∈ list →
        t'.view addr = kernelEntry nstampsMaxMask addr entry := by
  induction list generalizing t attempts proc with
  | nil =>
    have hsame : Function.update proc name (some ⟨nstampsMaxMask,t⟩) = proc := by
      rw [← hproc, Function.update_eq_self]
    exact ⟨t,by rw [hsame]; rfl,h.wellFormed,fun _ _ => rfl,fun _ _ _ hmem => absurd hmem List.not_mem_nil⟩
  | cons first list ih =>
    obtain ⟨srcIp,entry⟩ := first
    obtain ⟨addr,haddr,rfl,hnew⟩ := h.new _ (List.mem_cons_self ..)
    obtain ⟨t₁,ret,hwrite,hpending,hself,hother⟩ := h.write haddr hnew hproc
    obtain ⟨t',hrest,hwf,hkept,hmade⟩ := ih hpending (Function.update_self name _ proc)
    have hout : addr.text ∉ list.map Prod.fst := (List.nodup_cons.mp h.nodup).1
    refine ⟨t',?_,hwf,?_,?_⟩
    · change (writeProc m (attempts 0) name _ proc).bind (fun r =>
        (moduleWriter m attempts).dataEntries name list (0+1) r.1) = _
      rw [entryLine, hwrite, Option.bind_some, ProcWriter.dataEntries_succ]
      exact hrest.trans (by rw [Function.update_idem])
    · intro addr' hnot
      have hne : addr' ≠ addr := fun heq => hnot (heq ▸ List.mem_cons_self ..)
      rw [hkept addr' fun hmem => hnot (List.mem_cons_of_mem _ hmem), hother addr' hne]
    · intro addr' entry' haddr' hmem
      rcases List.mem_cons.mp hmem with hfirst | hmem
      · obtain ⟨htext,rfl⟩ := Prod.mk.inj hfirst
        obtain rfl := NfInetAddr.text_inj haddr' htext
        rw [hkept _ hout, hself]
      · exact hmade addr' entry' haddr' hmem

/-- The kernel's table holds what the lines of the replica's table make, and nothing else. -/
theorem writeRecentData_spec {data : RecentData} {tableName : Bytes} {table : XtRecentTable}
    (htable : data[tableName]? = some table) (hdata : Addressed data)
    (hroom : table.entries.size ≤ m.ipListTot) (hs : Succeed attempts) {proc : ProcDir}
    (hproc : proc table.name = some ⟨nstampsMaxMask,t⟩) (hwf : t.WellFormed) :
    ∃ t', writeRecentData m data tableName attempts proc =
        some (Function.update proc table.name (some ⟨nstampsMaxMask,t'⟩),0) ∧ t'.WellFormed ∧
      ∀ addr, t'.view addr = table.entries[addr.text]?.bind (kernelEntry nstampsMaxMask addr) := by
  have hkeys : ∀ q ∈ table.entries.toList, table.entries[q.1]? = some q.2 := fun q hq =>
    Std.ExtTreeMap.mem_toList_iff_getElem?_eq_some.mp hq
  have haddr : ∀ q ∈ table.entries.toList, ∃ addr : NfInetAddr, addr.IsIpv4 ∧ addr.text = q.1 := by
    intro q hq
    refine hdata ⟨tableName,q.1⟩ ?_
    rw [Recent.entries_of_getElem? htable, hkeys q hq]
    exact Option.some_ne_none _
  have hpending : Pending m ({} : LiveTable nstampsMaxMask) table.entries.toList
      fun n => attempts (n+1) := by
    refine ⟨LiveTable.wellFormed_empty,hs.tail,Table.nodup_toList _,?_,?_,fun _ _ _ => rfl⟩
    · intro q hq
      obtain ⟨addr,hv4,htext⟩ := haddr q hq
      exact ⟨addr,hv4,htext,rfl⟩
    · rw [Std.ExtTreeMap.length_toList]
      exact (Nat.zero_add _).trans_le hroom
  have hflushed := Function.update_self table.name
    (some (⟨nstampsMaxMask,{}⟩ : ProcFile)) proc
  obtain ⟨t',hrest,hwf',hkept,hmade⟩ := hpending.dataEntries hflushed
  refine ⟨t',?_,hwf',?_⟩
  · have hflush : writeProc m (attempts 0) table.name [47] proc =
        some (Function.update proc table.name (some ⟨nstampsMaxMask,{}⟩),1) := by
      unfold writeProc
      rw [hproc, hs.opened 0]
      change some (Function.update proc table.name (some ⟨nstampsMaxMask,t.recentTableFlush⟩),_) = _
      rw [hwf.flush]
      rfl
    have hentries : (moduleWriter m attempts).dataEntries table.name table.entries.toList (0+1)
        (Function.update proc table.name (some ⟨nstampsMaxMask,{}⟩)) = _ :=
      (ProcWriter.dataEntries_succ ..).trans hrest
    unfold writeRecentData ProcWriter.writeRecentData
    rw [htable]
    dsimp only
    rw [moduleWriter, hflush, Option.bind_some]
    dsimp only
    rw [if_neg (by decide)]
    exact (congrArg _ hentries).trans (by rw [Option.map_some, Function.update_idem])
  · intro addr
    cases hentry : table.entries[addr.text]? with
    | none =>
      rw [hkept addr ?_]
      · rfl
      · intro hmem
        obtain ⟨q,hq,htext⟩ := List.mem_map.mp hmem
        have hfound := hkeys q hq
        rw [htext, hentry] at hfound
        contradiction
    | some entry =>
      have hmem : (addr.text,entry) ∈ table.entries.toList :=
        Std.ExtTreeMap.mem_toList_iff_getElem?_eq_some.mpr hentry
      obtain ⟨addr',hv4,htext⟩ := haddr _ hmem
      obtain rfl := NfInetAddr.text_inj hv4 htext
      exact hmade addr' entry hv4 hmem

end Lines

end Ssyncd
