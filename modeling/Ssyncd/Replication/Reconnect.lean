import Ssyncd.Replication.Converge

/-! What a backup holds after it has reconnected: its sessions, and its entries. -/
namespace Ssyncd
open Http Recent

theorem BaseSync.viewOn_inl_ne_none (d : BaseSync) (k : SessionKey) :
    d.viewOn Sum.inl k ≠ none ↔ sessions d.httpSessionData k ≠ none := by
  simp [BaseSync.viewOn, BaseSync.view_inl]

theorem BaseSync.viewOn_inr_ne_none (d : BaseSync) (k : EntryKey) :
    d.viewOn Sum.inr k ≠ none ↔ entries d.recentData k ≠ none := by
  simp [BaseSync.viewOn, BaseSync.view_inr]

namespace System

/-- When the master takes the request of the current connection, it has every session that the
backup will hold of what was sent so far. -/
def NoStaleSession (s : System) : Prop :=
  ∀ req, s.master.Takes req → req.type = .syncRequest → s.Current req.conn →
    ∀ k, sessions (s.settledBackup req.conn).httpSessionData k ≠ none →
      sessions s.master.httpSessionData k ≠ none

/-- When the master takes the request of the current connection, it has every entry that the
backup will hold of what was sent so far. -/
def NoStaleEntry (s : System) : Prop :=
  ∀ req, s.master.Takes req → req.type = .syncRequest → s.Current req.conn →
    ∀ k, entries (s.settledBackup req.conn).recentData k ≠ none →
      entries s.master.recentData k ≠ none

theorem NoStaleSession.repaired {s : System} (h : s.NoStaleSession) : s.Repaired Sum.inl :=
  fun req htakes ht hc k hk => (BaseSync.viewOn_inl_ne_none _ k).mpr
    (h req htakes ht hc k ((BaseSync.viewOn_inl_ne_none _ k).mp hk))

theorem NoStaleEntry.repaired {s : System} (h : s.NoStaleEntry) : s.Repaired Sum.inr :=
  fun req htakes ht hc k hk => (BaseSync.viewOn_inr_ne_none _ k).mpr
    (h req htakes ht hc k ((BaseSync.viewOn_inr_ne_none _ k).mp hk))

/-- No control command, no failing send to a connected node, and the run loop steps only where
the condition holds. -/
def Clean (cond : System → Prop) (s : System) (e : SystemEvent) : Prop :=
  s.Undisturbed e ∧ ∀ sends, e = .master (.run sends) → cond s

theorem converged_of_reach {κ : Type} {part : κ → NodeKey} {cond : System → Prop}
    (hcond : ∀ s, cond s → s.Repaired part) {httpRunning recentRunning : Bool}
    (hserved : BaseSync.Served part httpRunning recentRunning {}) {s : System}
    (hr : Runs.Reach step (Clean cond) (initial httpRunning recentRunning) s) {c : Conn}
    (hq : s.Quiescent c) : s.backup.viewOn part = s.master.viewOn part := by
  have hinv := hr.invariant (Invariant part) (invariant_initial hserved) fun _ _ _ h he hs =>
    h.step he.1 (fun sends hrun => hcond _ (he.2 sends hrun)) hs
  exact hinv.converged hq

/-- Sessions converge over every run in which no session is stale when a request is taken. -/
theorem sessions_converge {httpRunning recentRunning : Bool} {s : System}
    (hr : Runs.Reach step (Clean NoStaleSession) (initial httpRunning recentRunning) s) {c : Conn}
    (hq : s.Quiescent c) :
    sessions s.backup.httpSessionData = sessions s.master.httpSessionData := by
  have hserved : BaseSync.Served Sum.inl httpRunning recentRunning {} :=
    ⟨.inr (.inr rfl),.inr fun k => ⟨k,rfl⟩⟩
  have hview := converged_of_reach (fun _ => NoStaleSession.repaired) hserved hr hq
  exact (BaseSync.sessions_eq_iff _ _).mpr fun k => congrFun hview k

/-- Entries converge over every run in which no entry is stale when a request is taken. -/
theorem entries_converge {httpRunning : Bool} {s : System}
    (hr : Runs.Reach step (Clean NoStaleEntry) (initial httpRunning true) s) {c : Conn}
    (hq : s.Quiescent c) : entries s.backup.recentData = entries s.master.recentData := by
  have hserved : BaseSync.Served Sum.inr httpRunning true {} :=
    ⟨.inr (.inl fun k => ⟨k,rfl⟩),.inl rfl⟩
  have hview := converged_of_reach (fun _ => NoStaleEntry.repaired) hserved hr hq
  exact (BaseSync.entries_eq_iff _ _).mpr fun k => congrFun hview k

section Samples

/-- Steps of the master's run loop, in which every send succeeds. -/
def turns (n : ℕ) : List SystemEvent := List.replicate n (.master SyncMaster.turn)

/-- Steps of the backup's run thread, in which it connects and sends at the first try. -/
def works (n : ℕ) : List SystemEvent := List.replicate n (.backup true)

def Tame (es : List SystemEvent) : Prop := ∀ s : System, ∀ e ∈ es, s.Undisturbed e

@[simp] theorem tame_nil : Tame [] := by simp [Tame]

@[simp] theorem tame_cons (e : SystemEvent) (es : List SystemEvent) :
    Tame (e::es) ↔ (∀ s : System, s.Undisturbed e) ∧ Tame es := by
  simp [Tame, forall_and]

@[simp] theorem tame_append (es es' : List SystemEvent) :
    Tame (es ++ es') ↔ Tame es ∧ Tame es' := by
  simp [Tame, or_imp, forall_and]

@[simp] theorem tame_turns (n : ℕ) : Tame (turns n) := by
  intro s e he
  rw [List.eq_of_mem_replicate he]
  refine ⟨by simp [MasterEvent.IsControl, SyncMaster.turn],fun sends hsends fd _ => ?_⟩
  rw [← MasterEvent.run.inj hsends]

@[simp] theorem tame_works (n : ℕ) : Tame (works n) := by
  intro s e he
  rw [List.eq_of_mem_replicate he]
  trivial

/-- The first connection, answered by a master that has nothing. -/
def firstConnection : List SystemEvent :=
  [.backup true,.accept 5 0] ++ works 3 ++ [.request 5] ++ turns 8

/-- The connection breaks, and the backup takes the marker from its queue and connects again. -/
def reconnection : List SystemEvent := [.lose,.master (.close 5)] ++ turns 2 ++ works 3

def session : HttpAction := addRequest [102] 0 1 ⟨[107],1,[],0⟩

def masterHttp (action : HttpAction) : List SystemEvent :=
  .master (.enqueueHttp action)::turns 6

def entry (deleteAction : Bool) : XtRecentAction :=
  getEntryAsAction [116] { srcIp := [49] } deleteAction

def masterRecent (xaction : XtRecentAction) : List SystemEvent :=
  .master (.enqueueRecent xaction)::turns 6

theorem tame_masterHttp (action : HttpAction) : Tame (masterHttp action) := by
  simp [masterHttp, Undisturbed, SyncMaster.Undisturbed, MasterEvent.IsControl]

theorem tame_masterRecent (xaction : XtRecentAction) : Tame (masterRecent xaction) := by
  simp [masterRecent, Undisturbed, SyncMaster.Undisturbed, MasterEvent.IsControl]

theorem tame_firstConnection : Tame firstConnection := by
  simp [firstConnection, Undisturbed]

theorem tame_reconnection : Tame reconnection := by
  simp [reconnection, Undisturbed, SyncMaster.Undisturbed, MasterEvent.IsControl]

/-- When a request is next in the master's queue, the backup has nothing, or its sessions are
cleared and its entries are the master's. -/
def nothingStale (s : System) : Bool :=
  match s.master.inputPacketQueue with
  | [] => true
  | req::_ =>
    let d := s.settledBackup req.conn
    !decide (req.type = .syncRequest) || decide (d = {}) ||
      decide (d = { s.master.toBaseSync with httpSessionData := ∅ })

theorem noStale_of_nothingStale {s : System} (h : s.nothingStale = true) :
    s.NoStaleSession ∧ s.NoStaleEntry := by
  have hd : ∀ req, s.master.Takes req → req.type = .syncRequest → s.settledBackup req.conn = {} ∨
      s.settledBackup req.conn = { s.master.toBaseSync with httpSessionData := ∅ } := by
    rintro req ⟨-,rest,hq⟩ ht
    simpa [nothingStale, hq, ht] using h
  refine ⟨fun req htakes ht _ k hk => ?_,fun req htakes ht _ k hk => ?_⟩
  · rcases hd req htakes ht with heq | heq <;> simp [heq] at hk
  · rcases hd req htakes ht with heq | heq
    · simp [heq] at hk
    · rwa [heq] at hk

/-- A session and an entry, and a reconnection in between. -/
def sampleRun : List SystemEvent :=
  firstConnection ++ masterHttp session ++ masterRecent (entry false) ++ [.deliver 0,.deliver 0] ++
    works 2 ++ reconnection ++ [.accept 5 1] ++ works 4 ++ [.request 5] ++ turns 10 ++
    [.deliver 1,.deliver 1] ++ works 2

def sample : System :=
  (Runs.run (Runs.guarded nothingStale step) (initial true true) sampleRun).getD (initial true true)

theorem tame_sampleRun : Tame sampleRun := by
  simp [sampleRun, tame_firstConnection, tame_reconnection, tame_masterHttp, tame_masterRecent,
    Undisturbed]

theorem run_sampleRun :
    Runs.run (Runs.guarded nothingStale step) (initial true true) sampleRun = some sample := rfl

theorem quiescent_sample : sample.Quiescent 1 := ⟨⟨5,rfl⟩,⟨rfl,by decide,rfl⟩,rfl,rfl,rfl⟩

theorem sessions_converge_sample :
    sessions sample.master.httpSessionData ⟨[102],0,1,[107]⟩ ≠ none ∧
      sessions sample.backup.httpSessionData = sessions sample.master.httpSessionData := by
  refine ⟨by decide,sessions_converge (Runs.reach_of_guarded run_sampleRun ?_) quiescent_sample⟩
  exact fun s hs e he => ⟨tame_sampleRun s e he,fun _ _ => (noStale_of_nothingStale hs).1⟩

theorem entries_converge_sample :
    entries sample.master.recentData ⟨[116],[49]⟩ ≠ none ∧
      entries sample.backup.recentData = entries sample.master.recentData := by
  refine ⟨by decide,entries_converge (Runs.reach_of_guarded run_sampleRun ?_) quiescent_sample⟩
  exact fun s hs e he => ⟨tame_sampleRun s e he,fun _ _ => (noStale_of_nothingStale hs).2⟩

/-- A second connection is lost inside the loop, with a session in the queue that the master
deletes before the third one. -/
def staleSessionRun : List SystemEvent :=
  firstConnection ++ reconnection ++ [.accept 5 1] ++ turns 2 ++ masterHttp session ++
    [.deliver 1] ++ reconnection ++
    masterHttp { session with action := .named .sessDelete } ++
    [.accept 5 2] ++ works 7 ++ [.request 5] ++ turns 5

def staleSession : System :=
  (Runs.run step (initial true true) staleSessionRun).getD (initial true true)

theorem stale_session_survives : ¬ ∀ s : System,
    Runs.Reach step Undisturbed (initial true true) s → ∀ c, s.Quiescent c →
      sessions s.backup.httpSessionData = sessions s.master.httpSessionData := by
  intro h
  have hrun : Runs.run step (initial true true) staleSessionRun = some staleSession := rfl
  have htame : Tame staleSessionRun := by
    simp [staleSessionRun, tame_firstConnection, tame_reconnection, tame_masterHttp, Undisturbed]
  have hquiet : staleSession.Quiescent 2 := ⟨⟨5,rfl⟩,⟨rfl,by decide,rfl⟩,rfl,rfl,rfl⟩
  have hsame := h staleSession (Runs.reach_of_run hrun htame) 2 hquiet
  have hkey := congrFun hsame ⟨[102],0,1,[107]⟩
  revert hkey
  decide

/-- An entry that the master deletes while the backup is away. -/
def staleEntryRun : List SystemEvent :=
  firstConnection ++ masterRecent (entry false) ++ [.deliver 0] ++ works 1 ++ reconnection ++
    masterRecent (entry true) ++ [.accept 5 1] ++ works 4 ++ [.request 5] ++ turns 8

def staleEntry : System :=
  (Runs.run step (initial true true) staleEntryRun).getD (initial true true)

theorem stale_entry_survives : ¬ ∀ s : System,
    Runs.Reach step Undisturbed (initial true true) s → ∀ c, s.Quiescent c →
      entries s.backup.recentData = entries s.master.recentData := by
  intro h
  have hrun : Runs.run step (initial true true) staleEntryRun = some staleEntry := rfl
  have htame : Tame staleEntryRun := by
    simp [staleEntryRun, tame_firstConnection, tame_reconnection, tame_masterRecent, Undisturbed]
  have hquiet : staleEntry.Quiescent 1 := ⟨⟨5,rfl⟩,⟨rfl,by decide,rfl⟩,rfl,rfl,rfl⟩
  have hsame := h staleEntry (Runs.reach_of_run hrun htame) 1 hquiet
  have hkey := congrFun hsame ⟨[116],[49]⟩
  revert hkey
  decide

end Samples

end System
end Ssyncd
