import Ssyncd.Listener.Diff
import Ssyncd.Master.Stream
import Ssyncd.Library.Runs

/-! A master with its recent listener, on a host whose tables come and go. A round of the
listener that has begun goes on after a stop. -/
namespace Ssyncd
open Recent Overlay Kernel

namespace Kernel

/-- The files that are listed: one for each table. -/
structure Directory where
  tables : List RecentTable
  nodup : (tables.map (·.name)).Nodup

/-- The pairs of a table and a source address that the kernel has. -/
def Directory.Holds (dir : Directory) (k : EntryKey) : Prop :=
  ∃ t ∈ dir.tables, t.name = k.table ∧ ∃ e ∈ t.entries, e.addr.text = k.srcIp

end Kernel

namespace SyncMaster

/-- The entries once the recent queue has been applied. -/
def drainedEntries (s : SyncMaster) : EntryKey → Option XtRecentEntry :=
  replay recentEffect (entries s.recentData) s.recentInput

theorem RunFrame.drainedEntries {s s' : SyncMaster} (h : RunFrame s s') :
    s'.drainedEntries = s.drainedEntries := by
  rcases h.recent with ⟨hinput,hdata⟩ | ⟨pkt,hinput,hdata⟩
  · rw [SyncMaster.drainedEntries, hinput, hdata]
    rfl
  · rw [SyncMaster.drainedEntries, SyncMaster.drainedEntries, hinput, replay_cons, hdata,
      entries_applyRecentAction]

/-- Only control commands and arrivals change what the entries will be. -/
theorem drainedEntries_step {s s' : SyncMaster} {e : MasterEvent} (hcontrol : ¬ e.IsControl)
    (harrival : ∀ pkt, e ≠ .enqueueRecent pkt) (hs : s.step e = some s') :
    s'.drainedEntries = s.drainedEntries := by
  cases e with
  | accept fd =>
    simp only [step] at hs
    split at hs
    · obtain rfl := Option.some.inj hs
      rfl
    · contradiction
  | receive fd type =>
    simp only [step] at hs
    split at hs
    · split at hs
      · obtain rfl := Option.some.inj hs
        rfl
      · contradiction
    · contradiction
  | close fd =>
    simp only [step] at hs
    split at hs
    · obtain rfl := Option.some.inj hs
      rfl
    · contradiction
  | enqueueHttp pkt =>
    obtain rfl := Option.some.inj hs
    rfl
  | enqueueRecent pkt => exact absurd rfl (harrival pkt)
  | run sends =>
    obtain rfl := Option.some.inj hs
    exact (run_frame s sends).drainedEntries
  | stopRecentSync => exact absurd (.inl rfl) hcontrol
  | startRecentSync => exact absurd (.inr rfl) hcontrol

theorem run_enqueueRecent (s : SyncMaster) {actions : List XtRecentAction}
    (hfd : ∀ a ∈ actions, a.fd = -1) : Runs.run step s (actions.map .enqueueRecent) =
      some { s with recentInput := s.recentInput ++ actions } := by
  induction actions generalizing s with
  | nil => simp [Runs.run]
  | cons a actions ih =>
    rw [List.map_cons, Runs.run, step, if_pos (hfd a (List.mem_cons_self ..)), Option.bind_some,
      ih _ fun b hb => hfd b (List.mem_cons_of_mem _ hb)]
    simp

end SyncMaster

structure Host where
  master : SyncMaster
  listener : XtRecentSync := {}

inductive HostEvent
  | poll (dir : Directory)
  | master (e : MasterEvent)

namespace Host

/-- A round that cannot be read ends the process. -/
def step (s : Host) : HostEvent → Option Host
  | .poll dir =>
    match s.listener.procTask (XtRecentSync.files dir.tables) with
    | .ok (listener,actions) =>
      (Runs.run SyncMaster.step s.master (actions.map .enqueueRecent)).map fun master =>
        { master, listener }
    | .error _ => none
  | .master (.enqueueRecent _) => none
  | .master e => (s.master.step e).map fun master => { s with master }

def initial (httpRunning recentRunning : Bool) : Host :=
  { master := SyncMaster.initial httpRunning recentRunning }

/-- No stop or start. -/
def Uninterrupted (_ : Host) (e : HostEvent) : Prop :=
  ∀ e', e = .master e' → ¬ e'.IsControl

/-- No stop or start, and no round. -/
def Draining (s : Host) (e : HostEvent) : Prop := s.Uninterrupted e ∧ ∀ dir, e ≠ .poll dir

/-- What the listener has read of the tables. -/
def baseline (s : Host) : EntryKey → Option XtRecentEntry := entries s.listener.recentData

/-- A round always completes; it reads each listed table again, and asks for what differs. -/
theorem poll_spec {s s' : Host} (hk : Keyed s.listener.recentData) {dir : Directory}
    (hs : s.step (.poll dir) = some s') :
    s'.baseline = XtRecentSync.relisted dir.tables s.baseline ∧
      s'.master.drainedEntries = fun k =>
        (XtRecentSync.roundEffect dir.tables s.baseline k).act (s.master.drainedEntries k) := by
  obtain ⟨data',actions,hok,hfd,hdata,hreplay⟩ :=
    XtRecentSync.procTask_files dir.tables s.listener dir.nodup hk
  simp only [step, hok, SyncMaster.run_enqueueRecent s.master hfd, Option.map_some,
    Option.some.injEq] at hs
  obtain rfl := hs
  refine ⟨funext hdata,funext fun k => ?_⟩
  rw [SyncMaster.drainedEntries, replay_append]
  exact hreplay _ k

theorem step_master {e : MasterEvent} (h : ∀ pkt, e ≠ .enqueueRecent pkt) (s : Host) :
    s.step (.master e) = (s.master.step e).map fun master => { s with master } := by
  cases e with
  | enqueueRecent pkt => exact absurd rfl (h pkt)
  | _ => rfl

/-- A step of the master leaves the listener's map alone. -/
theorem master_spec {s s' : Host} {e : MasterEvent} (hs : s.step (.master e) = some s') :
    s'.listener = s.listener ∧ s.master.step e = some s'.master ∧
      ∀ pkt, e ≠ .enqueueRecent pkt := by
  have harrival : ∀ pkt, e ≠ .enqueueRecent pkt := by
    rintro pkt rfl
    contradiction
  rw [step_master harrival] at hs
  obtain ⟨master,hmaster,rfl⟩ := Option.map_eq_some_iff.mp hs
  exact ⟨rfl,hmaster,harrival⟩

theorem keyed_step {s s' : Host} (hk : Keyed s.listener.recentData) {e : HostEvent}
    (hs : s.step e = some s') : Keyed s'.listener.recentData := by
  cases e with
  | poll dir => exact XtRecentSync.keyed_relisted hk fun k => congrFun (poll_spec hk hs).1 k
  | master e => exact (master_spec hs).1 ▸ hk

variable {httpRunning recentRunning : Bool}

theorem keyed_of_reach {ok : Host → HostEvent → Prop} {s : Host}
    (hr : Runs.Reach step ok (initial httpRunning recentRunning) s) :
    Keyed s.listener.recentData :=
  hr.invariant (fun s => Keyed s.listener.recentData) keyed_empty fun _ _ _ hk _ hs => keyed_step hk hs

/-- Without rounds and control commands the entries go where they were going. -/
theorem draining_spec {s s' : Host} (hr : Runs.Reach step Draining s s') :
    s'.listener = s.listener ∧ s'.master.drainedEntries = s.master.drainedEntries := by
  refine hr.invariant (fun x => x.listener = s.listener ∧
    x.master.drainedEntries = s.master.drainedEntries) ⟨rfl,rfl⟩ ?_
  intro x e x' ⟨hl,hd⟩ he hs
  cases e with
  | poll dir => exact absurd rfl (he.2 dir)
  | master e =>
    obtain ⟨hl',hstep,harrival⟩ := master_spec hs
    exact ⟨hl'.trans hl,
      (SyncMaster.drainedEntries_step (he.1 e rfl) harrival hstep).trans hd⟩

theorem entries_of_drained {s : SyncMaster} (h : s.recentInput = []) :
    s.drainedEntries = entries s.recentData := by
  rw [SyncMaster.drainedEntries, h, replay_nil]

end Host
end Ssyncd
