import Ssyncd.Listener.FarmOrder
import Ssyncd.Master.Stream

/-! A farm's removal while the listen task and the run loop go on: when its marker is the last
that the queue gets of the farm. -/
namespace Ssyncd
open Http

theorem sessionEffect_other {a : HttpAction} {k : SessionKey} (h : k.farm ≠ a.farmName) :
    sessionEffect a k = .keep := by
  have hkey : k ≠ a.sessionKey := fun heq => h (congrArg SessionKey.farm heq)
  have hrival : ¬Rival a k := fun hr => h hr.1
  rw [sessionEffect, if_neg fun hr => hrival hr.2]
  rcases action_cases a with ha | ha | ha | ⟨-,-,hkeep⟩
  · rcases ha with ha | ha <;> simp [referenceEffect, ha, hkey]
  · simp [referenceEffect, ha, hkey]
  · simp [referenceEffect, ha, h]
  · exact hkeep k

/-- The store holds no session of the farm. -/
def NoSessions (data : HttpSessionData) (farmName : Bytes) : Prop :=
  ∀ k : SessionKey, k.farm = farmName → sessions data k = none

/-- What taking an item makes of the fact that the farm has no session. -/
def emptied (farmName : Bytes) (empty : Prop) (pkt : HttpAction) : Prop :=
  if pkt.farmName = farmName then SyncMaster.IsMarker pkt else empty

theorem NoSessions.consumed {data : HttpSessionData} (hone : OneService data) {farmName : Bytes}
    {pkt : HttpAction} (h : emptied farmName (NoSessions data farmName) pkt) :
    NoSessions (SyncMaster.consumed data pkt) farmName := by
  unfold emptied at h
  unfold SyncMaster.consumed
  intro k hk
  split at h
  · next hfarm =>
    rw [if_pos h, sessions_clearHttpFarmData, Overlay.step]
    have hdrop : sessionEffect (clearRequest pkt.farmName) k = .drop := by
      simp [sessionEffect, referenceEffect, clearRequest, HttpAction.Sets, hk, hfarm]
    rw [hdrop, Overlay.Effect.act_drop]
  · next hfarm =>
    have hne : k.farm ≠ pkt.farmName := fun heq => hfarm (heq.symm.trans hk)
    have hold := h k hk
    split
    · have hother : sessionEffect (clearRequest pkt.farmName) k = .keep := sessionEffect_other hne
      rw [sessions_clearHttpFarmData, Overlay.step, hother]
      exact hold
    · rw [sessions_applyHttpAction hone, Overlay.step, sessionEffect_other hne]
      exact hold

theorem oneService_consumed {data : HttpSessionData} (hone : OneService data) (pkt : HttpAction) :
    OneService (SyncMaster.consumed data pkt) := by
  unfold SyncMaster.consumed
  split
  · exact hone.clearHttpFarmData pkt.farmName
  · exact hone.applyHttpAction pkt

/-- Once the queue is drained the farm has no session. -/
def Drained (data : HttpSessionData) (queue : List HttpAction) (farmName : Bytes) : Prop :=
  queue.foldl (emptied farmName) (NoSessions data farmName)

theorem foldl_emptied_mono (farmName : Bytes) (queue : List HttpAction) {p q : Prop} (h : p → q) :
    queue.foldl (emptied farmName) p → queue.foldl (emptied farmName) q := by
  induction queue generalizing p q with
  | nil => exact h
  | cons pkt queue ih =>
    refine ih fun hp => ?_
    unfold emptied at hp ⊢
    split
    · next hfarm => rwa [if_pos hfarm] at hp
    · next hfarm =>
      rw [if_neg hfarm] at hp
      exact h hp

section
variable {data : HttpSessionData} {queue : List HttpAction} {farmName : Bytes} {pkt : HttpAction}

theorem Drained.concat_other (h : Drained data queue farmName) (hne : pkt.farmName ≠ farmName) :
    Drained data (queue ++ [pkt]) farmName := by
  rw [Drained, List.foldl_append, List.foldl_cons, List.foldl_nil, emptied, if_neg hne]
  exact h

theorem drained_marker (hmarker : SyncMaster.IsMarker pkt) (hfarm : pkt.farmName = farmName) :
    Drained data (queue ++ [pkt]) farmName := by
  rw [Drained, List.foldl_append, List.foldl_cons, List.foldl_nil, emptied, if_pos hfarm]
  exact hmarker

theorem Drained.take (hone : OneService data) (h : Drained data (pkt::queue) farmName) :
    Drained (SyncMaster.consumed data pkt) queue farmName :=
  foldl_emptied_mono farmName queue (NoSessions.consumed hone) h

theorem Drained.clear (h : Drained data queue farmName) : Drained ∅ queue farmName :=
  foldl_emptied_mono farmName queue (fun _ k _ => sessions_empty k) h

end

/-- The listener and the run loop; the listener's queue is the one that the loop takes from. -/
structure Daemon where
  listener : HttpSync
  master : SyncMaster

inductive DaemonEvent
  | listener (e : HttpSync.Event)
  | master (e : MasterEvent)

namespace Daemon

def step (d : Daemon) : DaemonEvent → Option Daemon
  | .listener e => (d.listener.step e).map fun listener => { d with listener }
  | .master (.enqueueHttp _) => none
  | .master e =>
    (SyncMaster.step { d.master with httpInput := d.listener.inputData } e).map fun master =>
      { listener := { d.listener with inputData := master.httpInput }, master }

def initial (isOpen : ℕ → Bool) (httpRunning recentRunning : Bool) : Daemon where
  listener := .initial isOpen
  master := .initial httpRunning recentRunning

/-- Where `remove_farm` returns, nothing more can come from its farm. -/
def Settles (d : Daemon) : DaemonEvent → Prop
  | .listener e => ∀ farmName, d.listener.Returns e farmName → d.listener.Quiet farmName
  | .master _ => True

/-- A step that does not add the farm. -/
def Without (farmName : Bytes) (d : Daemon) : DaemonEvent → Prop
  | .listener e => ¬d.listener.Adds e farmName
  | .master _ => True

/-- What holds between any two steps: a farm that does not feed the queue has no session once it
is drained. -/
structure Inv (d : Daemon) : Prop where
  orderly : d.listener.Orderly
  oneService : OneService d.master.httpSessionData
  drained : ∀ farmName, d.listener.Feeds farmName ∨
    Drained d.master.httpSessionData d.listener.inputData farmName

theorem inv_initial (isOpen : ℕ → Bool) (httpRunning recentRunning : Bool) :
    (initial isOpen httpRunning recentRunning).Inv where
  orderly := by
    refine ⟨fun fd farmName hopen => ?_,nofun,List.nodup_nil,nofun⟩
    simp only [initial, HttpSync.initial] at hopen
    split at hopen <;> cases hopen
  oneService := oneService_empty
  drained _ := .inr fun k _ => sessions_empty k

/-- A step of the run loop's thread or of the nodes: the queue and the sessions stay, the sessions
go, or an item is taken. -/
theorem step_master {d d' : Daemon} {e : MasterEvent} (hstep : d.step (.master e) = some d') :
    d'.listener = { d.listener with inputData := d'.listener.inputData } ∧
      ((d'.listener.inputData = d.listener.inputData ∧
        (d'.master.httpSessionData = d.master.httpSessionData ∨ d'.master.httpSessionData = ∅)) ∨
      ∃ pkt, d.listener.inputData = pkt::d'.listener.inputData ∧
        d'.master.httpSessionData = SyncMaster.consumed d.master.httpSessionData pkt) := by
  cases e with
  | enqueueHttp pkt => contradiction
  | run sends =>
    simp only [step, Option.map_eq_some_iff] at hstep
    obtain ⟨master,hrun,rfl⟩ := hstep
    cases hrun
    exact ⟨rfl,SyncMaster.run_http { d.master with httpInput := d.listener.inputData } sends⟩
  | accept fd =>
    simp only [step, Option.map_eq_some_iff] at hstep
    obtain ⟨master,hrun,rfl⟩ := hstep
    simp only [SyncMaster.step] at hrun
    split at hrun <;> cases hrun
    exact ⟨rfl,.inl ⟨rfl,.inl rfl⟩⟩
  | receive fd type =>
    simp only [step, Option.map_eq_some_iff] at hstep
    obtain ⟨master,hrun,rfl⟩ := hstep
    simp only [SyncMaster.step] at hrun
    split at hrun
    · split at hrun <;> cases hrun
      exact ⟨rfl,.inl ⟨rfl,.inl rfl⟩⟩
    · cases hrun
  | close fd =>
    simp only [step, Option.map_eq_some_iff] at hstep
    obtain ⟨master,hrun,rfl⟩ := hstep
    simp only [SyncMaster.step] at hrun
    split at hrun <;> cases hrun
    exact ⟨rfl,.inl ⟨rfl,.inl rfl⟩⟩
  | enqueueRecent pkt =>
    simp only [step, Option.map_eq_some_iff] at hstep
    obtain ⟨master,hrun,rfl⟩ := hstep
    simp only [SyncMaster.step] at hrun
    split at hrun <;> cases hrun
    exact ⟨rfl,.inl ⟨rfl,.inl rfl⟩⟩
  | stopRecentSync | startRecentSync =>
    simp only [step, Option.map_eq_some_iff] at hstep
    obtain ⟨master,hrun,rfl⟩ := hstep
    cases hrun
    exact ⟨rfl,.inl ⟨rfl,.inl rfl⟩⟩

section
variable {d d' : Daemon}

theorem drained_master {e : MasterEvent} (hone : OneService d.master.httpSessionData)
    (hstep : d.step (.master e) = some d') {farmName : Bytes}
    (h : Drained d.master.httpSessionData d.listener.inputData farmName) :
    Drained d'.master.httpSessionData d'.listener.inputData farmName := by
  obtain ⟨-,⟨hqueue,hdata | hdata⟩ | ⟨pkt,hqueue,hdata⟩⟩ := step_master hstep
  · rwa [hqueue, hdata]
  · rw [hqueue, hdata]
    exact h.clear
  · rw [hdata]
    rw [hqueue] at h
    exact h.take hone

theorem oneService_master {e : MasterEvent} (hone : OneService d.master.httpSessionData)
    (hstep : d.step (.master e) = some d') : OneService d'.master.httpSessionData := by
  obtain ⟨-,⟨-,hdata | hdata⟩ | ⟨pkt,-,hdata⟩⟩ := step_master hstep
  · rwa [hdata]
  · rw [hdata]
    exact oneService_empty
  · rw [hdata]
    exact oneService_consumed hone pkt

theorem Inv.step {e : DaemonEvent} (h : d.Inv) (hsettles : d.Settles e)
    (hstep : d.step e = some d') : d'.Inv := by
  cases e with
  | master e =>
    have hlistener := (step_master hstep).1
    refine ⟨?_,oneService_master h.oneService hstep,fun farmName => ?_⟩
    · rw [hlistener]
      exact { h.orderly with }
    · refine (h.drained farmName).imp (fun hfeeds => ?_) (drained_master h.oneService hstep)
      rw [hlistener]
      exact hfeeds
  | listener e =>
    obtain ⟨listener,hs,rfl⟩ := Option.map_eq_some_iff.mp hstep
    obtain ⟨horderly,⟨hqueue⟩⟩ := h.orderly.step hsettles hs
    refine ⟨horderly,h.oneService,fun farmName => ?_⟩
    rcases hqueue with ⟨heq,hkept⟩ | ⟨pkt,heq,hpkt,hkept⟩
    · rw [heq]
      exact (h.drained farmName).imp_left (hkept farmName)
    · rw [heq]
      by_cases hfarm : farmName = pkt.farmName
      · subst hfarm
        rcases hpkt with hmarker | ⟨hfeeds,-⟩
        · exact .inr (drained_marker hmarker rfl)
        · exact .inl hfeeds
      · exact (h.drained farmName).imp (hkept farmName hfarm) fun hd =>
          hd.concat_other (Ne.symm hfarm)

/-- Where `remove_farm` returns, the farm's marker is in the queue, or it had no session. -/
theorem Inv.returned {e : HttpSync.Event} {farmName : Bytes} (h : d.Inv)
    (hreturns : d.listener.Returns e farmName) (hsettles : d.Settles (.listener e))
    (hstep : d.step (.listener e) = some d') :
    d'.listener.Quiet farmName ∧
      Drained d'.master.httpSessionData d'.listener.inputData farmName := by
  have hquiet := hsettles farmName hreturns
  obtain ⟨listener,hs,rfl⟩ := Option.map_eq_some_iff.mp hstep
  rcases hreturns with ⟨rfl,fd,hremoving⟩ | ⟨rfl,hnone⟩
  · simp only [HttpSync.step, hremoving, Option.map_some] at hs
    cases hs
    exact ⟨{ hquiet with },drained_marker (.inr rfl) rfl⟩
  · simp only [HttpSync.step] at hs
    split at hs
    · next hidle =>
      cases hs
      rw [HttpSync.removeFarm, if_neg (not_not.mpr hnone)]
      refine ⟨hquiet,(h.drained farmName).resolve_left ?_⟩
      rintro (⟨fd,name,hopen,hof⟩ | ⟨fd,hremoving⟩)
      · exact hquiet.closed fd name hof hopen
      · rw [hidle] at hremoving
        contradiction
    · contradiction

/-- While nothing comes from the farm, its sessions stay away. -/
theorem Inv.stays {e : DaemonEvent} {farmName : Bytes} (h : d.Inv)
    (hquiet : d.listener.Quiet farmName)
    (hdrained : Drained d.master.httpSessionData d.listener.inputData farmName)
    (hsettles : d.Settles e) (hwithout : d.Without farmName e) (hstep : d.step e = some d') :
    d'.listener.Quiet farmName ∧
      Drained d'.master.httpSessionData d'.listener.inputData farmName := by
  cases e with
  | master e =>
    refine ⟨?_,drained_master h.oneService hstep hdrained⟩
    rw [(step_master hstep).1]
    exact { hquiet with }
  | listener e =>
    obtain ⟨listener,hs,rfl⟩ := Option.map_eq_some_iff.mp hstep
    refine ⟨hquiet.step h.orderly hwithout hs,?_⟩
    obtain ⟨-,⟨hqueue⟩⟩ := h.orderly.step hsettles hs
    rcases hqueue with ⟨heq,-⟩ | ⟨pkt,heq,hpkt,-⟩
    · rw [heq]
      exact hdrained
    · rw [heq]
      by_cases hfarm : pkt.farmName = farmName
      · rcases hpkt with hmarker | ⟨-,fd,hbusy,hof⟩
        · exact drained_marker hmarker hfarm
        · exact absurd (hof.trans hfarm) (hquiet.busy fd hbusy)
      · exact hdrained.concat_other hfarm

end

/-- Once `remove_farm` has returned, the farm is not added again and the queue is drained, the
master holds no session of the farm, in every run in which nothing more can come from a farm
where its removal returns. -/
theorem removed_farm_empty {isOpen : ℕ → Bool} {httpRunning recentRunning : Bool}
    {farmName : Bytes} {e : HttpSync.Event} {d returned d' : Daemon}
    (hbefore : Runs.Reach step Settles (initial isOpen httpRunning recentRunning) d)
    (hreturns : d.listener.Returns e farmName) (hsettles : d.Settles (.listener e))
    (hstep : d.step (.listener e) = some returned)
    (hafter : Runs.Reach step (fun d e => d.Settles e ∧ d.Without farmName e) returned d')
    (hqueue : d'.listener.inputData = []) : NoSessions d'.master.httpSessionData farmName := by
  have hd : d.Inv := hbefore.invariant Inv (inv_initial isOpen httpRunning recentRunning)
    fun _ _ _ h hok hs => h.step hok hs
  have hfirst := hd.returned hreturns hsettles hstep
  have hend : d'.Inv ∧ d'.listener.Quiet farmName ∧
      Drained d'.master.httpSessionData d'.listener.inputData farmName := by
    refine hafter.invariant (fun d => d.Inv ∧ d.listener.Quiet farmName ∧
      Drained d.master.httpSessionData d.listener.inputData farmName)
      ⟨hd.step hsettles hstep,hfirst⟩ ?_
    intro s event s' ⟨hinv,hquiet,hdrained⟩ ⟨hok,hwithout⟩ hs
    exact ⟨hinv.step hok hs,hinv.stays hquiet hdrained hok hwithout hs⟩
  have hdrained := hend.2.2
  rw [hqueue] at hdrained
  exact hdrained

theorem settles_of_stays {d : Daemon} {e : HttpSync.Event}
    (hstays : e ≠ .removeReturn ∧ ∀ farmName, e ≠ .removeFarm farmName) :
    d.Settles (.listener e) := by
  rintro farmName (⟨heq,-⟩ | ⟨heq,-⟩)
  · exact absurd heq hstays.1
  · exact absurd heq (hstays.2 farmName)

/-- The run loop's steps, with sends that succeed. -/
def turns (n : ℕ) : List DaemonEvent := List.replicate n (.master (.run fun _ => true))

/-- A farm is added, and an addition of a session comes from it. -/
def farmUse : List DaemonEvent := [
  .listener (.addFarm [102] (.connected 5)),
  .listener (.epollWait [5]),
  .listener (.receive [addRequest [] 0 1 ⟨[107],1,[],0⟩])]

def afterRun (events : List DaemonEvent) : Daemon :=
  (Runs.run step (initial (fun _ => false) true false) events).getD (initial (fun _ => false) true false)

/-- The action is enqueued and taken, and only then the farm is removed. -/
def inTurn : List DaemonEvent := farmUse ++ [.listener .enqueue] ++ turns 6

theorem settles_inTurn (d : Daemon) : ∀ e ∈ inTurn, d.Settles e := by
  intro e he
  simp only [inTurn, farmUse, turns, List.mem_append, List.mem_cons, List.not_mem_nil, or_false,
    List.mem_replicate] at he
  rcases he with ((rfl | rfl | rfl) | rfl) | ⟨-,rfl⟩
  all_goals first | exact trivial | exact settles_of_stays ⟨nofun,nofun⟩

theorem without_turns (farmName : Bytes) (n : ℕ) (d : Daemon) :
    ∀ e ∈ turns n, d.Settles e ∧ d.Without farmName e := by
  intro e he
  rw [turns, List.mem_replicate] at he
  rw [he.2]
  exact ⟨trivial,trivial⟩

/-- A farm with a session is removed, and its session is gone. -/
theorem removed_in_turn :
    sessions (afterRun inTurn).master.httpSessionData ⟨[102],0,1,[107]⟩ ≠ none ∧
      NoSessions (afterRun (inTurn ++ [.listener (.removeFarm [102]),.listener .removeReturn] ++
        turns 6)).master.httpSessionData [102] := by
  refine ⟨by decide,?_⟩
  have hrun : Runs.run step (initial (fun _ => false) true false) inTurn =
    some (afterRun inTurn) := rfl
  have hfound : (afterRun inTurn).listener.getFarmFd [102] = 5 := by decide
  have hclose : (afterRun inTurn).step (.listener (.removeFarm [102])) =
    some (afterRun (inTurn ++ [.listener (.removeFarm [102])])) := rfl
  have hsettles : (afterRun inTurn).Settles (.listener (.removeFarm [102])) := by
    rintro farmName (⟨heq,-⟩ | ⟨heq,hnone⟩)
    · cases heq
    · cases heq
      omega
  have hquiet : (afterRun (inTurn ++ [.listener (.removeFarm [102])])).Settles
      (.listener .removeReturn) := by
    intro farmName _
    have hbusy : (afterRun (inTurn ++ [.listener (.removeFarm [102])])).listener.busy = [] := rfl
    have hsockets : (afterRun (inTurn ++ [.listener (.removeFarm [102])])).listener.sockets =
      Function.update (Function.update (fun _ => none) 5 (some (.farm [102]))) 5 none := rfl
    refine ⟨by simp [hbusy],fun fd name _ => ?_⟩
    rw [hsockets, Function.update_apply, Function.update_apply]
    split <;> simp
  have hafter : Runs.run step
      (afterRun (inTurn ++ [.listener (.removeFarm [102]),.listener .removeReturn])) (turns 6) =
    some (afterRun (inTurn ++ [.listener (.removeFarm [102]),.listener .removeReturn] ++
      turns 6)) := rfl
  exact removed_farm_empty (.next (Runs.reach_of_run hrun settles_inTurn) hsettles hclose)
    (.inl ⟨rfl,5,rfl⟩) hquiet rfl (Runs.reach_of_run hafter (without_turns [102] 6)) rfl

/-- The farm is removed between the receipt of its action and the enqueue, and the session
stays. -/
theorem removed_in_between : ∃ d returned d' : Daemon,
    Runs.run step (initial (fun _ => false) true false)
      (farmUse ++ [.listener (.removeFarm [102])]) = some d ∧
    d.listener.Returns .removeReturn [102] ∧ d.step (.listener .removeReturn) = some returned ∧
    Runs.run step returned ([.listener .enqueue] ++ turns 8) = some d' ∧
    d'.listener.chunk.actions = [] ∧ d'.listener.inputData = [] ∧
    ¬NoSessions d'.master.httpSessionData [102] := by
  refine ⟨_,_,_,rfl,.inl ⟨rfl,5,rfl⟩,rfl,rfl,rfl,rfl,fun hnone => ?_⟩
  have hkey := hnone ⟨[102],0,1,[107]⟩ rfl
  revert hkey
  decide

end Daemon
end Ssyncd
