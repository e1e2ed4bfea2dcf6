import Ssyncd.Listener.Host

/-! What the master holds of the kernel's tables after a round: within one run of the listener,
and after the listener has been stopped and started again. -/
namespace Ssyncd
open Recent Overlay Kernel XtRecentProc

namespace Host

/-- The listener has recorded the keys that the store will have. -/
def InStep (s : Host) : Prop := ∀ k, s.master.drainedEntries k ≠ none ↔ s.baseline k ≠ none

theorem act_diffEffect_ne_none {held old new : Option XtRecentEntry}
    (h : held ≠ none ↔ old ≠ none) :
    (XtRecentSync.diffEffect old new).act held ≠ none ↔ new ≠ none := by
  cases old with
  | none => cases new <;> simp_all [XtRecentSync.diffEffect]
  | some o =>
    cases new with
    | none => simp [XtRecentSync.diffEffect]
    | some e =>
      rw [XtRecentSync.diffEffect]
      split
      · simpa using h
      · simp

theorem InStep.poll {s s' : Host} (h : s.InStep) (hk : Keyed s.listener.recentData)
    {dir : Directory} (hs : s.step (.poll dir) = some s') : s'.InStep := by
  obtain ⟨hbase,hdrained⟩ := poll_spec hk hs
  intro k
  rw [hbase, hdrained]
  dsimp only [XtRecentSync.roundEffect, XtRecentSync.relisted]
  split
  · exact act_diffEffect_ne_none (h k)
  · exact h k

theorem InStep.step {s s' : Host} (h : s.InStep) (hk : Keyed s.listener.recentData) {e : HostEvent}
    (he : s.Uninterrupted e) (hs : s.step e = some s') : s'.InStep := by
  cases e with
  | poll dir => exact h.poll hk hs
  | master e =>
    obtain ⟨hl,hstep,harrival⟩ := master_spec hs
    intro k
    rw [SyncMaster.drainedEntries_step (he e rfl) harrival hstep, baseline, hl]
    exact h k

theorem InStep.reach {s s' : Host} (h : s.InStep) (hk : Keyed s.listener.recentData)
    (hr : Runs.Reach Host.step Uninterrupted s s') :
    s'.InStep ∧ Keyed s'.listener.recentData :=
  hr.invariant (fun s => s.InStep ∧ Keyed s.listener.recentData) ⟨h,hk⟩ fun _ _ _ ⟨h,hk⟩ he hs =>
    ⟨h.step hk he hs,keyed_step hk hs⟩

theorem inStep_initial (httpRunning recentRunning : Bool) :
    (initial httpRunning recentRunning).InStep := by
  intro k
  change entries ∅ k ≠ none ↔ entries ∅ k ≠ none
  exact Iff.rfl

/-- The keys that are read of a listed table. -/
theorem relisted_ne_none {dir : Directory} {k : EntryKey} {t : RecentTable}
    (ht : XtRecentSync.listed dir.tables k.table = some t) {m : EntryKey → Option XtRecentEntry} :
    XtRecentSync.relisted dir.tables m k ≠ none ↔
      k.srcIp ≠ [] ∧ ∃ e ∈ t.entries, readSrc e = k.srcIp := by
  rw [XtRecentSync.relisted, ht, ← mem_readTable, Std.ExtTreeMap.mem_iff_isSome_getElem?,
    Option.isSome_iff_ne_none]

theorem holds_iff {dir : Directory} {k : EntryKey} :
    dir.Holds k ↔ ∃ t, XtRecentSync.listed dir.tables k.table = some t ∧
      ∃ e ∈ t.entries, e.addr.text = k.srcIp := by
  constructor
  · rintro ⟨t,hmem,hname,he⟩
    exact ⟨t,(XtRecentSync.listed_eq_some dir.nodup).mpr ⟨hmem,hname⟩,he⟩
  · rintro ⟨t,ht,he⟩
    obtain ⟨hmem,hname⟩ := (XtRecentSync.listed_eq_some dir.nodup).mp ht
    exact ⟨t,hmem,hname,he⟩

/-- What is recorded after a round are the kernel's keys exactly when every address is IPv4 and
no recorded table is missing. -/
theorem relisted_eq_holds_iff {dir : Directory} {m : EntryKey → Option XtRecentEntry} :
    (∀ k, XtRecentSync.relisted dir.tables m k ≠ none ↔ dir.Holds k) ↔
      (∀ t ∈ dir.tables, ∀ e ∈ t.entries, e.addr.IsIpv4) ∧
        ∀ k, m k ≠ none → ∃ t ∈ dir.tables, t.name = k.table := by
  constructor
  · intro h
    constructor
    · intro t ht e he
      by_contra hv4
      have hheld := (h ⟨t.name,e.addr.text⟩).mpr ⟨t,ht,rfl,e,he,rfl⟩
      have hlisted := (XtRecentSync.listed_eq_some dir.nodup).mpr ⟨ht,rfl⟩
      obtain ⟨-,e',-,hsrc⟩ := (relisted_ne_none (k := ⟨t.name,e.addr.text⟩) hlisted).mp hheld
      -- what the daemon reads has the width of a dotted quad at most
      have hlen := length_readSrc e'
      rw [hsrc, NfInetAddr.length_text hv4] at hlen
      exact absurd hlen (by decide)
    · intro k hk
      by_contra hgone
      have hlisted : XtRecentSync.listed dir.tables k.table = none := by
        cases hl : XtRecentSync.listed dir.tables k.table with
        | none => rfl
        | some t => exact absurd ⟨t,(XtRecentSync.listed_eq_some dir.nodup).mp hl⟩ hgone
      obtain ⟨t,ht,-⟩ := holds_iff.mp ((h k).mp (by rwa [XtRecentSync.relisted, hlisted]))
      rw [hlisted] at ht
      contradiction
  · rintro ⟨hv4,hkept⟩ k
    rw [holds_iff]
    cases hl : XtRecentSync.listed dir.tables k.table with
    | none =>
      have hm : m k = none := by
        by_contra hk
        obtain ⟨t,ht⟩ := hkept k hk
        rw [(XtRecentSync.listed_eq_some dir.nodup).mpr ht] at hl
        contradiction
      simp [XtRecentSync.relisted, hl, hm]
    | some t =>
      have hmem := ((XtRecentSync.listed_eq_some dir.nodup).mp hl).1
      rw [relisted_ne_none hl]
      constructor
      · rintro ⟨-,e,he,hsrc⟩
        exact ⟨t,rfl,e,he,(readSrc_of_isIpv4 (hv4 t hmem e he)).symm.trans hsrc⟩
      · rintro ⟨t',ht',e,he,htext⟩
        obtain rfl := Option.some.inj ht'
        exact ⟨htext ▸ NfInetAddr.text_ne_nil _,e,he,
          (readSrc_of_isIpv4 (hv4 t hmem e he)).trans htext⟩

/-- The store has the keys that the kernel has. -/
def TracksKeys (s : SyncMaster) (dir : Directory) : Prop :=
  ∀ k, entries s.recentData k ≠ none ↔ dir.Holds k

/-- In a run of the listener that began in step, the keys of the store after a round are those of
the kernel exactly when its entries are IPv4 and no recorded table has been removed. -/
theorem keys_tracked_iff {httpRunning recentRunning : Bool} {s₀ s₁ s₂ s₃ : Host} {dir : Directory}
    (h₀ : Runs.Reach step (fun _ _ => True) (initial httpRunning recentRunning) s₀)
    (hstart : s₀.InStep) (h₁ : Runs.Reach step Uninterrupted s₀ s₁)
    (hpoll : s₁.step (.poll dir) = some s₂) (h₃ : Runs.Reach step Draining s₂ s₃)
    (hdrained : s₃.master.recentInput = []) :
    TracksKeys s₃.master dir ↔
      (∀ t ∈ dir.tables, ∀ e ∈ t.entries, e.addr.IsIpv4) ∧
        ∀ k, s₁.baseline k ≠ none → ∃ t ∈ dir.tables, t.name = k.table := by
  obtain ⟨hstep₁,hk₁⟩ := hstart.reach (keyed_of_reach h₀) h₁
  have hstep₂ := hstep₁.poll hk₁ hpoll
  have hentries : entries s₃.master.recentData = s₂.master.drainedEntries := by
    rw [← (draining_spec h₃).2, entries_of_drained hdrained]
  rw [← relisted_eq_holds_iff, ← (poll_spec hk₁ hpoll).1, TracksKeys, hentries]
  exact forall_congr' fun k => iff_congr (hstep₂ k) Iff.rfl

/-- A start clears the store; the queue and the listener's own map are kept. -/
theorem start_spec {s s' : Host} (hs : s.step (.master .startRecentSync) = some s') :
    s'.listener = s.listener ∧
      s'.master.drainedEntries = replay recentEffect (fun _ => none) s.master.recentInput := by
  obtain rfl := Option.some.inj hs
  refine ⟨rfl,?_⟩
  exact congrArg (replay recentEffect · s.master.recentInput) (funext entries_empty)

/-- Every IPv4 entry of the kernel stands in the store as it is read, and goes to a backup that
asks. -/
def Restored (s : SyncMaster) (dir : Directory) : Prop :=
  ∀ t ∈ dir.tables, ∀ e ∈ t.entries, e.addr.IsIpv4 →
    ∃ entry, (readTable t).entries[e.addr.text]? = some entry ∧
      entries s.recentData ⟨t.name,e.addr.text⟩ = some entry ∧
      ∀ fd, { getEntryAsAction t.name entry false with fd } ∈ s.toBaseSync.recentRequests fd

/-- Of every IPv4 entry of the kernel the listener has nothing, or another index, or the queue
still brings it as it is. -/
def Recoverable (s : Host) (dir : Directory) : Prop :=
  ∀ t ∈ dir.tables, ∀ e ∈ t.entries, e.addr.IsIpv4 →
    ∀ entry, (readTable t).entries[e.addr.text]? = some entry →
    ∀ old, s.baseline ⟨t.name,e.addr.text⟩ = some old → old.lastSeenIndex = entry.lastSeenIndex →
      replay recentEffect (fun _ => none) s.master.recentInput ⟨t.name,e.addr.text⟩ = some entry

theorem mem_recentRequests {d : BaseSync} {k : EntryKey} {e : XtRecentEntry}
    (h : entries d.recentData k = some e) (fd : Int) :
    { getEntryAsAction k.table e false with fd } ∈ d.recentRequests fd :=
  List.mem_map.mpr ⟨_,mem_entryActions.mpr ⟨k,e,h,rfl⟩,rfl⟩

theorem getElem?_of_isIpv4 {t : RecentTable} {e : RecentEntry t.nstampsMaxMask}
    (he : e ∈ t.entries) (hv4 : e.addr.IsIpv4) :
    ∃ entry, (readTable t).entries[e.addr.text]? = some entry := by
  have hmem : e.addr.text ∈ (readTable t).entries :=
    mem_readTable.mpr ⟨NfInetAddr.text_ne_nil _,e,he,readSrc_of_isIpv4 hv4⟩
  exact Option.isSome_iff_exists.mp (Std.ExtTreeMap.mem_iff_isSome_getElem?.mp hmem)

theorem act_diffEffect_eq_some {held old : Option XtRecentEntry} {entry : XtRecentEntry} :
    (XtRecentSync.diffEffect old (some entry)).act held = some entry ↔
      ∀ o, old = some o → o.lastSeenIndex = entry.lastSeenIndex → held = some entry := by
  cases old with
  | none => simp [XtRecentSync.diffEffect]
  | some o =>
    rw [XtRecentSync.diffEffect]
    by_cases hidx : o.lastSeenIndex = entry.lastSeenIndex
    · simp [hidx]
    · simp [hidx]

/-- After a restart, a round and the draining of the queue the master has every IPv4 entry
exactly when those that the listener knows with the same index are still in the queue. -/
theorem restored_iff {httpRunning recentRunning : Bool} {s₀ s₁ s₂ s₃ s₄ : Host} {dir : Directory}
    (h₀ : Runs.Reach step (fun _ _ => True) (initial httpRunning recentRunning) s₀)
    (hstart : s₀.step (.master .startRecentSync) = some s₁)
    (h₁ : Runs.Reach step Draining s₁ s₂) (hpoll : s₂.step (.poll dir) = some s₃)
    (h₃ : Runs.Reach step Draining s₃ s₄) (hdrained : s₄.master.recentInput = []) :
    Restored s₄.master dir ↔ s₀.Recoverable dir := by
  obtain ⟨hl₁,hd₁⟩ := start_spec hstart
  obtain ⟨hl₂,hd₂⟩ := draining_spec h₁
  have hlistener : s₂.listener = s₀.listener := hl₂.trans hl₁
  have hk : Keyed s₂.listener.recentData := hlistener ▸ keyed_of_reach h₀
  have hbase : s₂.baseline = s₀.baseline := by rw [baseline, hlistener, baseline]
  have hentries : entries s₄.master.recentData = fun k =>
      (XtRecentSync.roundEffect dir.tables s₀.baseline k).act
        (replay recentEffect (fun _ => none) s₀.master.recentInput k) := by
    rw [← entries_of_drained hdrained, (draining_spec h₃).2, (poll_spec hk hpoll).2, hbase, hd₂, hd₁]
  have hrow : ∀ t ∈ dir.tables, ∀ srcIp, entries s₄.master.recentData ⟨t.name,srcIp⟩ =
      (XtRecentSync.diffEffect (s₀.baseline ⟨t.name,srcIp⟩) (readTable t).entries[srcIp]?).act
        (replay recentEffect (fun _ => none) s₀.master.recentInput ⟨t.name,srcIp⟩) := by
    intro t ht srcIp
    rw [hentries]
    simp only [XtRecentSync.roundEffect, (XtRecentSync.listed_eq_some dir.nodup).mpr ⟨ht,rfl⟩]
  constructor
  · intro h t ht e he hv4 entry hentry
    obtain ⟨entry',hentry',hheld,-⟩ := h t ht e he hv4
    obtain rfl := Option.some.inj (hentry.symm.trans hentry')
    rw [hrow t ht, hentry] at hheld
    exact act_diffEffect_eq_some.mp hheld
  · intro h t ht e he hv4
    obtain ⟨entry,hentry⟩ := getElem?_of_isIpv4 he hv4
    have hheld : entries s₄.master.recentData ⟨t.name,e.addr.text⟩ = some entry := by
      rw [hrow t ht, hentry]
      exact act_diffEffect_eq_some.mpr (h t ht e he hv4 entry hentry)
    exact ⟨entry,hentry,hheld,mem_recentRequests hheld⟩

section Samples

/-- A client with one stamp. -/
def client : RecentEntry 3 where
  addr := .ip 1 2 3 4
  ttl := 64
  index := 1
  nstamps := 1
  stamps := [7,0,0,0]
  stamps_length := rfl
  nstamps_pos := Nat.one_pos
  nstamps_le := Nat.le_add_left 1 3

def newcomer : RecentEntry 3 := { client with addr := .ip 1 2 3 5 }

def directory (clients : List (RecentEntry 3)) : Directory := ⟨[⟨[116],3,clients⟩],by simp⟩

def noTables : Directory := ⟨[],by simp⟩

/-- The turns in which the master takes what a round asks for. -/
def turns : List HostEvent := List.replicate 6 (.master SyncMaster.turn)

def after (es : List HostEvent) : Host :=
  (Runs.run step (initial true true) es).getD (initial true true)

/-- The end of a run is reached from each state on the way. -/
theorem run_after {es es' : List HostEvent}
    (h : (Runs.run step (initial true true) (es ++ es')).isSome = true) :
    (Runs.run step (initial true true) es).isSome = true ∧
      Runs.run step (after es) es' = some (after (es ++ es')) := by
  unfold after
  rw [Runs.run_append] at h ⊢
  cases hrun : Runs.run step (initial true true) es with
  | none =>
    rw [hrun] at h
    contradiction
  | some s =>
    rw [hrun] at h
    obtain ⟨s',hs'⟩ := Option.isSome_iff_exists.mp h
    have hs : Runs.run step s es' = some s' := hs'
    refine ⟨rfl,?_⟩
    rw [Option.getD_some, Option.bind_some, hs]
    rfl

theorem step_after {es : List HostEvent} {e : HostEvent}
    (h : (Runs.run step (initial true true) (es ++ [e])).isSome = true) :
    (after es).step e = some (after (es ++ [e])) := by
  obtain ⟨s',hs',hend⟩ := Option.bind_eq_some_iff.mp (run_after h).2
  exact hs'.trans hend

/-- A run that ends with nothing to take. -/
theorem drained_after {es : List HostEvent}
    (h : (Runs.run step (initial true true) es).map (fun s => s.master.recentInput) = some []) :
    (Runs.run step (initial true true) es).isSome = true ∧ (after es).master.recentInput = [] := by
  obtain ⟨s,hs,hinput⟩ := Option.map_eq_some_iff.mp h
  rw [after, hs]
  exact ⟨rfl,hinput⟩

theorem draining_turns : ∀ s : Host, ∀ e ∈ turns, s.Draining e := by
  intro s e he
  rw [List.eq_of_mem_replicate he]
  refine ⟨fun e' h => ?_,fun dir h => by contradiction⟩
  rw [← HostEvent.master.inj h]
  simp [MasterEvent.IsControl, SyncMaster.turn]

theorem uninterrupted_round (dir : Directory) :
    ∀ s : Host, ∀ e ∈ [HostEvent.poll dir] ++ turns, s.Uninterrupted e := by
  intro s e he
  rcases List.mem_append.mp he with he | he
  · rw [List.mem_singleton.mp he]
    exact fun _ h => by contradiction
  · exact (draining_turns s e he).1

/-- The first round finds one client. -/
def firstRound : List HostEvent := [.poll (directory [client])] ++ turns

theorem reach_firstRound : Runs.Reach step Uninterrupted (initial true true) (after firstRound) := by
  have hrun : (Runs.run step (initial true true) ([] ++ firstRound)).isSome = true := rfl
  exact Runs.reach_of_run (run_after hrun).2 (uninterrupted_round _)

theorem baseline_firstRound {k : EntryKey} (h : (after firstRound).baseline k ≠ none) :
    [116] = k.table := by
  have hdata : (after firstRound).listener.recentData =
      Std.ExtTreeMap.insert ∅ [116] (readTable ⟨[116],3,[client]⟩) := rfl
  rw [baseline, hdata, entries_insert] at h
  by_contra hne
  rw [if_neg hne] at h
  exact h (entries_empty k)

theorem keys_tracked_sample :
    TracksKeys (after (firstRound ++ [.poll (directory [client,newcomer])] ++ turns)).master
      (directory [client,newcomer]) := by
  have hrun : (Runs.run step (initial true true) (firstRound ++ [.poll (directory [client,newcomer])] ++
      turns)).map (fun s => s.master.recentInput) = some [] := rfl
  obtain ⟨hall,hdrained⟩ := drained_after hrun
  obtain ⟨hpolled,hturns⟩ := run_after hall
  refine (keys_tracked_iff .start (inStep_initial true true) reach_firstRound (step_after hpolled)
    (Runs.reach_of_run hturns draining_turns) hdrained).mpr
    ⟨?_,fun k hk => ⟨_,List.mem_singleton_self _,baseline_firstRound hk⟩⟩
  intro t ht e he
  obtain rfl := List.mem_singleton.mp ht
  revert e
  decide

/-- The table goes away, and its client stays. -/
theorem removed_table_kept : ¬ ∀ s₁ s₂ s₃ : Host, ∀ dir : Directory,
    Runs.Reach step Uninterrupted (initial true true) s₁ → s₁.step (.poll dir) = some s₂ →
      Runs.Reach step Draining s₂ s₃ → s₃.master.recentInput = [] → TracksKeys s₃.master dir := by
  intro h
  have hrun : (Runs.run step (initial true true) (firstRound ++ [.poll noTables] ++ turns)).map
      (fun s => s.master.recentInput) = some [] := rfl
  obtain ⟨hall,hdrained⟩ := drained_after hrun
  obtain ⟨hpolled,hturns⟩ := run_after hall
  have hkey := h _ _ _ noTables reach_firstRound (step_after hpolled)
    (Runs.reach_of_run hturns draining_turns) hdrained ⟨[116],[49,46,50,46,51,46,52]⟩
  have hkept : (entries (after (firstRound ++ [.poll noTables] ++ turns)).master.recentData
      ⟨[116],[49,46,50,46,51,46,52]⟩).isSome = true := by decide +kernel
  obtain ⟨t,ht,-⟩ := hkey.mp (Option.isSome_iff_ne_none.mp hkept)
  exact List.not_mem_nil ht

/-- The listener is stopped and started while the kernel's tables stay as they are. -/
def restartRun : List HostEvent := firstRound ++ [.master .stopRecentSync]

theorem reach_restartRun : Runs.Reach step (fun _ _ => True) (initial true true) (after restartRun) := by
  have hrun : (Runs.run step (initial true true) ([] ++ restartRun)).isSome = true := rfl
  exact Runs.reach_of_run (run_after hrun).2 fun _ _ _ => trivial

theorem restored_sample : Restored (after (restartRun ++ [.master .startRecentSync] ++
    [.poll (directory [{ client with index := 2 },newcomer])] ++ turns)).master
      (directory [{ client with index := 2 },newcomer]) := by
  have hrun : (Runs.run step (initial true true) (restartRun ++ [.master .startRecentSync] ++
      [.poll (directory [{ client with index := 2 },newcomer])] ++ turns)).map
        (fun s => s.master.recentInput) = some [] := rfl
  obtain ⟨hall,hdrained⟩ := drained_after hrun
  obtain ⟨hpolled,hturns⟩ := run_after hall
  refine (restored_iff reach_restartRun (step_after (run_after hpolled).1) .start (step_after hpolled)
    (Runs.reach_of_run hturns draining_turns) hdrained).mpr ?_
  intro t ht e he _ entry hentry old hold hidx
  obtain rfl := List.mem_singleton.mp ht
  rcases List.mem_pair.mp he with rfl | rfl
  · have hread : entry = readEntry { client with index := 2 } := Option.some.inj hentry.symm
    have hknown : old = readEntry client := Option.some.inj hold.symm
    rw [hread, hknown] at hidx
    exact absurd hidx (by decide)
  · have hnew : (after restartRun).baseline ⟨[116],newcomer.addr.text⟩ = none := rfl
    exact absurd (hnew.symm.trans hold) (by simp)

/-- The client is not asked for again, since its index is as it was. -/
theorem unchanged_client_lost : ¬ ∀ s₀ s₁ s₂ s₃ s₄ : Host, ∀ dir : Directory,
    Runs.Reach step (fun _ _ => True) (initial true true) s₀ →
      s₀.step (.master .startRecentSync) = some s₁ → Runs.Reach step Draining s₁ s₂ →
        s₂.step (.poll dir) = some s₃ → Runs.Reach step Draining s₃ s₄ →
          s₄.master.recentInput = [] → Restored s₄.master dir := by
  intro h
  have hrun : (Runs.run step (initial true true) (restartRun ++ [.master .startRecentSync] ++
      [.poll (directory [client])] ++ turns)).map (fun s => s.master.recentInput) = some [] := rfl
  obtain ⟨hall,hdrained⟩ := drained_after hrun
  obtain ⟨hpolled,hturns⟩ := run_after hall
  have hrestored := h _ _ _ _ _ (directory [client]) reach_restartRun (step_after (run_after hpolled).1)
    .start (step_after hpolled) (Runs.reach_of_run hturns draining_turns) hdrained
  obtain ⟨entry,-,hheld,-⟩ := hrestored _ (List.mem_singleton_self _) client (List.mem_singleton_self _)
    trivial
  revert hheld
  have hnone : entries (after (restartRun ++ [.master .startRecentSync] ++
      [.poll (directory [client])] ++ turns)).master.recentData ⟨[116],client.addr.text⟩ = none := by
    decide +kernel
  rw [hnone]
  simp

end Samples

end Host
end Ssyncd
