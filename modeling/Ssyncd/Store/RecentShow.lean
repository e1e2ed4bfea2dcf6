import Ssyncd.Codec.Extent
import Ssyncd.Kernel.Copy
import Ssyncd.Kernel.UpdateLine
import Ssyncd.Library.Runs
import Ssyncd.Listener.Diff

/-! How the entries of the replica are shown, and from which actions the entries come that cannot be. -/
namespace Ssyncd
open Reader Decimal
namespace Recent

/-- `timestamps[get_oldest_pkt_index() - 1]`, where there is such an element. -/
def XtRecentEntry.getLastSeen (e : XtRecentEntry) : Option UInt64 :=
  if 1 ≤ e.lastSeenIndex then e.timestamps[(e.lastSeenIndex - 1).toNat]? else none

/-- The stamps are sorted, and the index is that of the last of them. -/
def XtRecentEntry.toString (e : XtRecentEntry) : Option Bytes :=
  let timestamps := sorted e.timestamps
  let e := { e with timestamps, lastSeenIndex := timestamps.length }
  e.getLastSeen.map fun lastSeen =>
    ascii " src: " ++ e.srcIp ++ ascii "ttl: " ++ intText e.ttl ++ ascii " last seen: " ++
      text lastSeen.toNat ++ ascii " old packets: " ++ intText e.lastSeenIndex ++
      e.timestamps.flatMap fun nstamps => 32::text nstamps.toNat

/-- What SHOW_RECENT sends: the tables, and the entries of each. -/
def showRecent (data : RecentData) : Option (List Bytes) :=
  (data.toList.mapM fun ((name,table) : Bytes × XtRecentTable) =>
    (table.entries.toList.mapM fun ((_,entry) : Bytes × XtRecentEntry) => entry.toString.map (· ++ ascii "\n")).map
      ((ascii "# " ++ name ++ ascii "\n") :: ·)).map List.flatten

/-- Where an action comes from: an update that the listener finds in the rows of a table, or the bytes
that a backup receives. -/
inductive Source
  | getTableUpdates (listener : XtRecentSync) (table : Kernel.RecentTable) (n : ℕ)
  | deserialize (buffer : Memory) (bufferSize : ℕ)

namespace Source

def updates : Source → List XtRecentAction
  | getTableUpdates listener table n =>
    match listener.getTableUpdates table.name table.file with
    | .ok (actions,_) => actions[n]?.toList
    | .error _ => []
  | deserialize buffer bufferSize =>
    (XtRecentActionParser.deserialize buffer bufferSize).toList.map Prod.fst

/-- Only the additions and the deletions. -/
def action (source : Source) : Option XtRecentAction :=
  source.updates.find? fun a => CarriesAddress a.action

/-- The count of stamps in a packet, or the stamps in the row of the entry. -/
def HasStamp (source : Source) (e : XtRecentEntry) : Prop :=
  match source with
  | getTableUpdates _ table _ =>
    ∃ row ∈ table.entries, XtRecentProc.readEntry row = e ∧ ∃ stamp ∈ row.visible, stamp ≠ 0
  | deserialize buffer _ => buffer 13 ≠ 0

end Source

def applySource (data : RecentData) (source : Source) : Option RecentData :=
  source.action.map (applyRecentAction data)

/-- SHOW_RECENT reads existing elements only. -/
def Shown (data : RecentData) : Prop := showRecent data ≠ none

/-- An entry that is added has a stamp. -/
def Stamped (_ : RecentData) (source : Source) : Prop :=
  ∀ a, source.action = some a → a.action = .named .addUpdEntry → source.HasStamp a.targetEntry

theorem toString_eq_none_iff (e : XtRecentEntry) : e.toString = none ↔ e.timestamps = [] := by
  have hlen : (sorted e.timestamps).length = e.timestamps.length :=
    List.length_insertionSort (· ≤ ·) e.timestamps
  rw [XtRecentEntry.toString, Option.map_eq_none_iff, XtRecentEntry.getLastSeen]
  dsimp only
  rw [hlen]
  cases htimestamps : e.timestamps with
  | nil => simp
  | cons stamp stamps =>
    rw [htimestamps, List.length_cons] at hlen
    have hpos : (1 : Int) ≤ ((stamp::stamps).length : ℕ) := by
      rw [List.length_cons]
      omega
    rw [if_pos hpos, List.getElem?_eq_none_iff, hlen, List.length_cons]
    simp only [reduceCtorEq, iff_false]
    omega

theorem mapM_eq_none_iff {α β : Type} {f : α → Option β} {xs : List α} :
    xs.mapM f = none ↔ ∃ x ∈ xs, f x = none := by
  induction xs with
  | nil => simp
  | cons x xs ih =>
    rw [List.mapM_cons]
    cases hx : f x with
    | none => simp [hx]
    | some y =>
      simp only [List.mem_cons, exists_eq_or_imp, hx, reduceCtorEq, false_or, ← ih]
      cases xs.mapM f <;> simp

/-- What cannot be shown is an entry without stamps. -/
theorem shown_iff {data : RecentData} : Shown data ↔
    ∀ k e, entries data k = some e → e.timestamps ≠ [] := by
  have hnone : showRecent data = none ↔ ∃ k e, entries data k = some e ∧ e.timestamps = [] := by
    rw [showRecent, Option.map_eq_none_iff, mapM_eq_none_iff]
    simp only [Option.map_eq_none_iff, mapM_eq_none_iff, toString_eq_none_iff, Prod.exists,
      Std.ExtTreeMap.mem_toList_iff_getElem?_eq_some, entries_eq_some]
    constructor
    · rintro ⟨name,table,htable,srcIp,e,he,hnil⟩
      exact ⟨⟨name,srcIp⟩,e,⟨table,htable,he⟩,hnil⟩
    · rintro ⟨k,e,⟨table,htable,he⟩,hnil⟩
      exact ⟨k.table,table,htable,k.srcIp,e,he,hnil⟩
  rw [Shown, Ne, hnone]
  simp

section Received
open XtRecentActionParser

theorem length_readTimestamps (timestamps : List UInt64) (n : ℕ) (buffer : Memory) (used : ℕ) :
    (readTimestamps timestamps n buffer used).1.length = timestamps.length + n := by
  induction n generalizing timestamps used with
  | zero => rfl
  | succ n ih =>
    change (readTimestamps _ n buffer _).1.length = _
    rw [ih, List.length_append, List.length_singleton]
    omega

theorem timestamps_readAddress (packet : XtRecentAction) (buffer : Memory) (used : ℕ) :
    (readAddress packet buffer used).1.targetEntry.timestamps = packet.targetEntry.timestamps := by
  unfold readAddress
  split <;> rfl

theorem length_readStamps {packet : XtRecentAction} (h : packet.action = .named .addUpdEntry)
    (buffer : Memory) (used : ℕ) :
    (readStamps packet buffer used).1.targetEntry.timestamps.length =
      packet.targetEntry.timestamps.length + (buffer (used+2)).toNat := by
  rw [readStamps, if_pos h]
  exact length_readTimestamps _ _ _ _

/-- A received addition has as many stamps as its packet counts. -/
theorem length_timestamps_deserialize {buffer : Memory} {n used : ℕ} {a : XtRecentAction}
    (h : XtRecentActionParser.deserialize buffer n = some (a,used))
    (hadd : a.action = .named .addUpdEntry) :
    a.targetEntry.timestamps.length = (buffer 13).toNat := by
  rw [XtRecentActionParser.deserialize_eq_ite] at h
  split at h
  · let packet := ofConnPacket (BasePktParser.header buffer) (.ofByte (buffer 5))
    have hbody : a = (readBody (BasePktParser.header buffer) buffer 5).1 :=
      (congrArg Prod.fst (Option.some.inj h)).symm
    have haction : (readAddress packet buffer 6).1.action = .named .addUpdEntry := by
      rw [← hadd, hbody]
      exact (readStamps_spec _ buffer (readAddress packet buffer 6).2).1.symm
    have hused : (readAddress packet buffer 6).2 = 11 := by
      rw [readAddress_used, if_pos (.inl ((readAddress_action packet buffer 6).symm.trans haction))]
    have hlen := length_readStamps haction buffer 11
    rw [timestamps_readAddress] at hlen
    rw [hbody]
    change (readStamps (readAddress packet buffer 6).1 buffer
      (readAddress packet buffer 6).2).1.targetEntry.timestamps.length = _
    rw [hused, hlen]
    exact Nat.zero_add _
  · contradiction

end Received

/-- An addition has stamps if its row or its packet has one. -/
theorem hasStamp_iff {source : Source} {a : XtRecentAction} (h : source.action = some a)
    (hadd : a.action = .named .addUpdEntry) :
    source.HasStamp a.targetEntry ↔ a.targetEntry.timestamps ≠ [] := by
  have hmem : a ∈ source.updates := List.mem_of_find?_eq_some h
  cases source with
  | getTableUpdates listener table n =>
    rw [Source.updates, XtRecentSync.getTableUpdates_file, Option.mem_toList] at hmem
    rcases XtRecentSync.mem_updates.mp (List.mem_of_getElem? hmem) with
      ⟨srcIp,e,he,-,rfl⟩ | ⟨srcIp,e,-,-,rfl⟩
    · obtain ⟨-,-,row,hrow,rfl⟩ := XtRecentProc.getElem?_readTable he
      have hstamps : ∀ row' : Kernel.RecentEntry table.nstampsMaxMask,
          (XtRecentProc.readEntry row').timestamps ≠ [] ↔ ∃ stamp ∈ row'.visible, stamp ≠ 0 := by
        intro row'
        rw [XtRecentProc.readEntry, Ne, List.filter_eq_nil_iff]
        simp
      rw [targetEntry_getEntryAsAction, hstamps]
      constructor
      · rintro ⟨row',-,heq,hstamp⟩
        exact (hstamps row).mp (heq ▸ (hstamps row').mpr hstamp)
      · exact fun hstamp => ⟨row,hrow,rfl,hstamp⟩
    · cases hadd
  | deserialize buffer bufferSize =>
    rw [Source.updates, List.mem_map] at hmem
    obtain ⟨⟨a',used⟩,hsome,rfl⟩ := hmem
    rw [Option.mem_toList] at hsome
    rw [Ne, ← List.length_eq_zero_iff, length_timestamps_deserialize hsome hadd]
    exact not_congr UInt8.toNat_inj.symm

theorem Shown.applySource {data data' : RecentData} (h : Shown data) {source : Source}
    (hs : Stamped data source) (hstep : applySource data source = some data') : Shown data' := by
  obtain ⟨a,ha,rfl⟩ := Option.map_eq_some_iff.mp hstep
  rw [shown_iff] at h ⊢
  intro k e he
  rw [entries_applyRecentAction, Overlay.step] at he
  cases hf : recentEffect a k with
  | keep =>
    rw [hf] at he
    exact h k e he
  | put v =>
    rw [hf] at he
    obtain ⟨-,rfl⟩ := recentEffect_put hf
    obtain rfl : a.targetEntry = e := Option.some.inj he
    exact (hasStamp_iff ha (action_of_put hf)).mp (hs a ha (action_of_put hf))
  | drop =>
    rw [hf] at he
    contradiction

theorem not_shown_of_not_stamped (data : RecentData) {source : Source} (h : ¬Stamped data source) :
    ∃ data', applySource data source = some data' ∧ ¬Shown data' := by
  unfold Stamped at h
  push Not at h
  obtain ⟨a,ha,hadd,hstamp⟩ := h
  refine ⟨_,Option.map_eq_some_iff.mpr ⟨a,ha,rfl⟩,?_⟩
  rw [shown_iff]
  intro hall
  have heffect : recentEffect a a.entryKey = .put a.targetEntry := by
    rw [recentEffect, hadd]
    exact if_pos rfl
  have hentry : entries (applyRecentAction data a) a.entryKey = some a.targetEntry := by
    rw [entries_applyRecentAction, Overlay.step, heffect]
    rfl
  exact hstamp ((hasStamp_iff ha hadd).mpr (hall _ _ hentry))

/-- SHOW_RECENT stays inside the stamps all along exactly the runs in which every entry that is
added comes with a stamp. -/
theorem shown_always_iff (sources : List Source) :
    Runs.Always applySource Shown ∅ sources ↔ Runs.Meets applySource Stamped ∅ sources := by
  have hempty : Shown ∅ := shown_iff.mpr fun k e he => by simp at he
  exact Runs.always_iff_meets Shown (fun _ h => h) (fun _ _ _ h hs hstep => h.applySource hs hstep)
    (fun data _ _ h => not_shown_of_not_stamped data h) hempty

/-- An addition that counts no stamps, as a node may send it. -/
def noStamps : Source :=
  .deserialize (memory [0xef,0xab,4,16,0,1,1,10,0,0,1,0,64,0,2,116] fun _ => 0) 16

/-- The only stamp of the row is the 0 that was written for it. -/
def zeroStamp : Source :=
  .getTableUpdates {} ⟨ascii "t",0,[Kernel.recentEntryInit 0 (.ip 10 0 0 1) 64 0]⟩ 0

theorem not_shown_of_no_stamps :
    ¬Runs.Always applySource Shown ∅ [noStamps] ∧ ¬Runs.Always applySource Shown ∅ [zeroStamp] := by
  have hfails : ∀ source, ¬Stamped ∅ source → ¬Runs.Always applySource Shown ∅ [source] := by
    intro source h hall
    obtain ⟨data',hstep,hshown⟩ := not_shown_of_not_stamped ∅ h
    exact hshown (hall.2 data' hstep)
  refine ⟨hfails _ fun h => ?_,hfails _ fun h => ?_⟩
  · exact h _ rfl (by decide) rfl
  · have haction : zeroStamp.action.map (·.action) = some (.named .addUpdEntry) := by decide
    obtain ⟨a,ha,hadd⟩ := Option.map_eq_some_iff.mp haction
    obtain ⟨row,hrow,-,stamp,hmem,hne⟩ := h a ha hadd
    obtain rfl := List.mem_singleton.mp hrow
    exact hne (List.mem_singleton.mp hmem)

end Recent
end Ssyncd
