import Ssyncd.Master.Stream

/-! What removes sessions on a master, in its run loop and in its control thread, and what the
backups hear of it. The run loop tells them of every session that it drops. The control thread
drops all of them and tells nobody, so a run keeps the backups' sessions equal to the master's
when its commands find nothing to drop. -/
namespace Ssyncd
open Http Overlay
open BaseSync (effectOn viewOn)

/-- `synchronised` is not in the code: the connections that have asked for the sessions and have been
sent every one. -/
structure ControlledMaster extends SyncMaster where
  synchronised : Conn → Bool := fun _ => false

/-- What happens at a master, with the control commands for the HTTP store. -/
inductive MasterCommand
  | master (e : MasterEvent)
  | clearHttp
  | startHttpSync
  | stopHttpSync
  | writeHttp

/-- Where the next step of the run loop may send a message about sessions. -/
def SyncMaster.SendsSessions (s : SyncMaster) : Prop :=
  match s.pc with
  | .handleHttpSync .. | .clearFarms _ | .httpItems _ => True
  | _ => False

namespace ControlledMaster

/-- `handle_http_sync` returns at this step. -/
def returned (s : ControlledMaster) : MasterEvent → Conn → Bool
  | .run _ =>
    match s.pc with
    | .handleHttpSync _ conn [] => fun c => c = conn || s.synchronised c
    | _ => s.synchronised
  | _ => s.synchronised

/-- The connections that have been sent every session after a step: that for which `handle_http_sync`
returns, and while nothing is stored all that have been answered, with the listener on or off. -/
def completed (s : ControlledMaster) (e : MasterEvent) (m : SyncMaster) (c : Conn) : Bool :=
  s.returned e c || m.answered c && (sessionActions m.httpSessionData).isEmpty

def clearHttpData (s : ControlledMaster) : ControlledMaster := { s with httpSessionData := ∅ }

def startHttpSync (s : ControlledMaster) (clearData : Bool) : ControlledMaster :=
  { (if clearData then s.clearHttpData else s) with httpRunning := true }

/-- One step. A command that finds the listener running does not start it again. -/
def step (s : ControlledMaster) : MasterCommand → Option ControlledMaster
  | .master e =>
    (s.toSyncMaster.step e).map fun m => { toSyncMaster := m, synchronised := s.completed e m }
  | .clearHttp => some s.clearHttpData
  | .startHttpSync => some (if s.httpRunning then s else s.startHttpSync true)
  | .stopHttpSync => some { s with httpRunning := false }
  | .writeHttp => some (if s.httpRunning then s else s.startHttpSync false)

def initial (httpRunning recentRunning : Bool) : ControlledMaster :=
  { toSyncMaster := SyncMaster.initial httpRunning recentRunning }

def clears (farms : List Bytes) : List Message := farms.map fun farmName => .http (clearRequest farmName)

/-- The messages that the clear under way has still to send. -/
def pendingClears (s : ControlledMaster) : List Message :=
  match s.pc with
  | .clearFarms farms => clears farms
  | _ => []

/-- What the store holds once the clear under way is complete. -/
def settledData (s : ControlledMaster) : HttpSessionData :=
  match s.pc with
  | .clearFarms _ => ∅
  | _ => s.httpSessionData

/-- The node's sessions are the master's, up to the clear under way. -/
def Mirrors (s : ControlledMaster) (c : Conn) : Prop :=
  sessions (BaseSync.applyAll {} (s.sent c ++ s.pendingClears)).httpSessionData =
    sessions s.settledData

def NothingStored (s : ControlledMaster) : Prop := ∀ k, sessions s.settledData k = none

/-- The commands that empty the store. -/
def Clears (s : ControlledMaster) (e : MasterCommand) : Prop :=
  e = .clearHttp ∨ e = .startHttpSync ∧ s.httpRunning = false

/-- Where a step of the run loop sends about sessions, its sends to connected nodes succeed. -/
def Sending (s : ControlledMaster) (e : MasterCommand) : Prop :=
  ∀ sends, e = .master (.run sends) → s.SendsSessions → s.SendsSucceed sends

/-- Sends about sessions succeed, and a command empties the store only when nothing is in it. -/
def Harmless (s : ControlledMaster) (e : MasterCommand) : Prop :=
  s.Sending e ∧ (s.Clears e → s.NothingStored)

end ControlledMaster

namespace SyncMaster

/-- The sessions, as a part of the flat map. -/
abbrev onSessions : SessionKey → NodeKey := Sum.inl

theorem effectOn_clearRequest (farmName : Bytes) (k : SessionKey) :
    effectOn onSessions (.http (clearRequest farmName)) k =
      if k.farm = farmName then .drop else .keep := by
  change (sessionEffect (clearRequest farmName) k).map Sum.inl = _
  rw [sessionEffect_clearRequest]
  split <;> rfl

/-- The clears of some farms leave the sessions of the others. -/
theorem replay_clears (r : SessionKey → Option NodeValue) (farms : List Bytes) (k : SessionKey) :
    replay (effectOn onSessions) r (ControlledMaster.clears farms) k =
      if k.farm ∈ farms then none else r k := by
  induction farms generalizing r with
  | nil => simp [ControlledMaster.clears]
  | cons farmName farms ih =>
    have htail := ih (Overlay.step (effectOn onSessions) r (.http (clearRequest farmName)))
    change replay _ (Overlay.step _ r _) (ControlledMaster.clears farms) k = _
    rw [htail, Overlay.step, effectOn_clearRequest]
    by_cases hhead : k.farm = farmName
    · simp [hhead]
    · simp [hhead]

/-- Clearing every farm of the master leaves a node nothing that the master had. -/
theorem replay_all_clears {r : SessionKey → Option NodeValue} {d : BaseSync}
    (h : Sub r (d.viewOn onSessions)) :
    replay (effectOn onSessions) r (ControlledMaster.clears d.httpSessionData.keys) =
      fun _ => none := by
  funext k
  rw [replay_clears]
  split
  · rfl
  · next hout =>
    refine h.eq_none ?_
    have hfarm : k.farm ∉ d.httpSessionData := fun hmem =>
      hout (Std.ExtTreeMap.mem_keys.mpr hmem)
    change (sessions d.httpSessionData k).map Sum.inl = none
    simp [sessions, Std.ExtTreeMap.getD_eq_fallback hfarm]

/-- A message about entries changes no session. -/
theorem step_recent_of_sessions (view : SessionKey → Option NodeValue)
    (xaction : Recent.XtRecentAction) :
    Overlay.step (effectOn onSessions) view (.recent xaction) = view := rfl

/-- The sessions of the nodes, wherever the run loop stands. -/
def Told (nodes : Nodes) (sent : Conn → List Message) (synchronised answered : Conn → Bool)
    (nextConn : Conn) (view : SessionKey → Option NodeValue) (backupServersFd : Int) :
    MasterPc → Prop
  | .clearFarms farms => ∀ c, Connected nodes c →
    replay (effectOn onSessions) (replica onSessions (sent c)) (ControlledMaster.clears farms) =
      fun _ => none
  | .handleRecentSync fd conn _ => Replicas onSessions nodes sent synchronised view ∧
    conn < nextConn ∧ ∀ fd' : Int, nodes[fd']? = some conn → fd' = fd
  | .handleHttpSync fd conn rest => Replicas onSessions nodes sent synchronised view ∧
    Snapshotting onSessions nodes sent nextConn view fd conn (rest.map .http)
  | .httpItems _ => Replicas onSessions nodes sent synchronised view ∧
    (backupServersFd ≤ 0 → Fresh onSessions nodes sent answered)
  | _ => Replicas onSessions nodes sent synchronised view

structure Mirroring (synchronised : Conn → Bool) (s : SyncMaster) : Prop where
  wellFormed : s.WellFormed
  linked : Linked s.connectedNodes s.inputPacketQueue s.backupServersFd s.nextConn
  unused : ∀ c, s.nextConn ≤ c → s.sent c = [] ∧ s.answered c = false
  answered : ∀ c, synchronised c = true → s.answered c = true
  told : Told s.connectedNodes s.sent synchronised s.answered s.nextConn (s.viewOn onSessions)
    s.backupServersFd s.pc

theorem Replicas.mono {part : SessionKey → NodeKey} {nodes : Nodes} {sent : Conn → List Message}
    {synchronised answered : Conn → Bool} {view : SessionKey → Option NodeValue}
    (h : Replicas part nodes sent answered view) (hle : ∀ c, synchronised c = true → answered c = true) :
    Replicas part nodes sent synchronised view :=
  fun c hc => ⟨(h c hc).1,fun hs => (h c hc).2 (hle c hs)⟩

section Told
variable {nodes : Nodes} {sent : Conn → List Message} {synchronised answered : Conn → Bool}
  {nextConn : Conn} {view : SessionKey → Option NodeValue} {n : Int} {pc : MasterPc}

theorem Told.replicas (h : Told nodes sent synchronised answered nextConn view n pc)
    (hpc : ∀ farms, pc ≠ .clearFarms farms) : Replicas onSessions nodes sent synchronised view := by
  cases pc with
  | clearFarms farms => exact absurd rfl (hpc farms)
  | poll => exact h
  | recentItems maxItems => exact h
  | handleRecentSync fd conn rest => exact h.1
  | handleHttpSync fd conn rest => exact h.1
  | httpItems maxItems => exact h.1

theorem Told.accept (h : Told nodes sent synchronised answered nextConn view n pc) {fd : Int}
    (hfd : fd ∉ nodes) (hnew : sent nextConn = [] ∧ answered nextConn = false)
    (hsync : synchronised nextConn = false) :
    Told (nodes.insert fd nextConn) sent synchronised answered (nextConn+1) view n pc := by
  have hbare : sent nextConn = [] ∧ synchronised nextConn = false := ⟨hnew.1,hsync⟩
  cases pc with
  | poll => exact Replicas.accept h hfd hbare
  | recentItems maxItems => exact Replicas.accept h hfd hbare
  | handleRecentSync fd' conn rest =>
    obtain ⟨hrep,hold,hplace⟩ := h
    exact ⟨hrep.accept hfd hbare,Nat.lt_succ_of_lt hold,
      fun fd'' hc => hplace fd'' (getElem?_insert_old hold hc)⟩
  | handleHttpSync fd' conn rest => exact ⟨h.1.accept hfd hbare,h.2.accept hfd⟩
  | httpItems maxItems => exact ⟨h.1.accept hfd hbare,fun hn => (h.2 hn).accept hfd hnew⟩
  | clearFarms farms =>
    intro c hc
    rcases (connected_insert hfd).mp hc with rfl | hc
    · funext k
      rw [hnew.1, replay_clears]
      simp
    · exact h c hc

theorem Told.close (h : Told nodes sent synchronised answered nextConn view n pc) (fd : Int) :
    Told (nodes.erase fd) sent synchronised answered nextConn view n pc := by
  have hrep : Replicas onSessions nodes sent synchronised view →
      Replicas onSessions (nodes.erase fd) sent synchronised view :=
    fun hrep c hc => hrep c (connected_erase hc)
  cases pc with
  | poll => exact hrep h
  | recentItems maxItems => exact hrep h
  | handleRecentSync fd' conn rest =>
    exact ⟨hrep h.1,h.2.1,fun fd'' hc => h.2.2 fd'' (getElem?_erase_some hc)⟩
  | handleHttpSync fd' conn rest => exact ⟨hrep h.1,h.2.close fd⟩
  | httpItems maxItems => exact ⟨hrep h.1,fun hn c hc => h.2 hn c (connected_erase hc)⟩
  | clearFarms farms => exact fun c hc => h c (connected_erase hc)

end Told

section Run
variable {s : SyncMaster} {synchronised : Conn → Bool}

theorem Mirroring.accept (h : s.Mirroring synchronised) {fd : Int} (hpos : 0 ≤ fd)
    (hfd : fd ∉ s.connectedNodes) :
    Mirroring synchronised { s with
      connectedNodes := s.connectedNodes.insert fd s.nextConn
      inputPacketQueue := s.inputPacketQueue ++ [⟨.connect,fd,s.nextConn⟩]
      nextConn := s.nextConn + 1 } where
  wellFormed := h.wellFormed
  linked := h.linked.accept hpos hfd
  unused c hc := h.unused c (Nat.le_of_succ_le hc)
  answered := h.answered
  told := by
    have hnew := h.unused s.nextConn (Nat.le_refl _)
    refine h.told.accept hfd hnew (Bool.eq_false_iff.mpr fun hsync => ?_)
    rw [h.answered _ hsync] at hnew
    exact absurd hnew.2 (by decide)

/-- The loop went on without touching the nodes or the sessions. -/
theorem Mirroring.goto (h : s.Mirroring synchronised) (hrep : Replicas onSessions s.connectedNodes
      s.sent synchronised (s.viewOn onSessions)) (wait : Bool) {pc : MasterPc}
    (hpc : pc = .poll ∨ ∃ maxItems, pc = .recentItems maxItems) :
    Mirroring synchronised { s with wait, pc } :=
  { h with
    told := by
      rcases hpc with rfl | ⟨maxItems,rfl⟩
      · exact hrep
      · exact hrep }

theorem Mirroring.startRecentItems (h : s.Mirroring synchronised) (hrep : Replicas onSessions
      s.connectedNodes s.sent synchronised (s.viewOn onSessions)) (wait : Bool) :
    ({ s with wait }.startRecentItems).Mirroring synchronised := by
  unfold SyncMaster.startRecentItems
  split
  · exact h.goto hrep wait (.inr ⟨0,rfl⟩)
  · exact h.goto hrep wait (.inl rfl)

/-- The sessions' part of an answer starts from what the master holds now. -/
theorem Mirroring.startHttpSync (h : s.Mirroring synchronised) {fd : Int} {conn : Conn}
    (hrep : Replicas onSessions s.connectedNodes s.sent synchronised (s.viewOn onSessions))
    (hold : conn < s.nextConn)
    (hplace : ∀ fd' : Int, s.connectedNodes[fd']? = some conn → fd' = fd) :
    (s.startHttpSync fd conn).Mirroring synchronised := by
  have hsnap : Snapshot (effectOn onSessions) (s.viewOn onSessions)
      (BaseSync.requests true false s.toBaseSync fd) :=
    BaseSync.snapshot_requests h.wellFormed ⟨.inl rfl,.inr fun k => ⟨k,rfl⟩⟩ fd
  have hall : Snapshotting onSessions s.connectedNodes s.sent s.nextConn (s.viewOn onSessions) fd
      conn (BaseSync.requests true false s.toBaseSync fd) :=
    ⟨hold,hplace,fun _ => fd_requests,hsnap.fixed,
      fun hc => (hrep conn hc).1.replay_snapshot _ hsnap⟩
  unfold SyncMaster.startHttpSync
  split
  · exact { h with told := ⟨hrep,hall⟩ }
  · exact { h with
      unused := fun c hc => by
        have hne : c ≠ conn := by
          rintro rfl
          exact absurd hold (Nat.not_lt_of_le hc)
        simpa [hne] using h.unused c hc
      answered := fun c hs => by simp [h.answered c hs]
      told := hrep }

theorem Mirroring.handleRequest (h : s.Mirroring synchronised) (hpc : s.pc = .poll)
    {req : Request} {rest : List Request} (hq : s.inputPacketQueue = req::rest) :
    ({ s with inputPacketQueue := rest }.handleRequest req).Mirroring synchronised := by
  have hrep := h.told.replicas (by simp [hpc])
  have hlinked := (hq ▸ h.linked).pop
  obtain ⟨hold,hplace⟩ := h.linked.queued req (by rw [hq]; exact List.mem_cons_self ..)
  have hpop : Mirroring synchronised { s with
      inputPacketQueue := rest
      backupServersFd := s.backupServersFd + (if req.type = .connect then 1 else 0)
        - if req.type = .disconnect then 1 else 0 } :=
    { h with
      linked := hlinked
      told := by rw [hpc]; exact hrep }
  cases ht : req.type with
  | syncRequest =>
    simp only [ht, reduceCtorEq, if_false, Int.add_zero, Int.sub_zero] at hpop
    simp only [SyncMaster.handleRequest, ht, SyncMaster.startSync]
    split
    · exact { hpop with told := ⟨hrep,hold,hplace⟩ }
    · exact hpop.startHttpSync hrep hold hplace
  | _ => simpa [SyncMaster.handleRequest, ht] using hpop

theorem Mirroring.startItems (h : s.Mirroring synchronised) (hpc : s.pc = .poll)
    (hq : s.inputPacketQueue = []) : s.startItems.Mirroring synchronised := by
  have hrep := h.told.replicas (by simp [hpc])
  unfold SyncMaster.startItems
  split
  · exact { h with told := fun c hc => replay_all_clears (hrep c hc).1 }
  · split
    · exact { h with told := ⟨hrep,fun hn => (hq ▸ h.linked.counted).fresh hn _ _⟩ }
    · exact h.startRecentItems hrep true

/-- A message was sent that no node's sessions depend on. -/
theorem Mirroring.sendEntry (h : s.Mirroring synchronised) {fd : Int} {conn : Conn}
    {xaction : Recent.XtRecentAction} {rest : List Recent.XtRecentAction}
    (hpc : s.pc = .handleRecentSync fd conn (xaction::rest)) (sends : Int → Bool) :
    Mirroring synchronised (
      let s' := (s.sendPacket sends (.recent xaction)).1
      if (s.sendPacket sends (.recent xaction)).2 then
        { s' with pc := .handleRecentSync fd conn rest }
      else s'.startHttpSync fd conn) := by
  have htold := h.told
  rw [hpc] at htold
  obtain ⟨hrep,hold,hplace⟩ := htold
  obtain ⟨sent',he,hs⟩ := sendPacket_spec s sends (.recent xaction)
  have hrep' := hrep.send_fixed (step_recent_of_sessions _ xaction) hs
  have hsent : Mirroring synchronised { s with sent := sent' } :=
    { h with
      unused := hs.unused h.linked.numbered h.unused
      told := by rw [hpc]; exact ⟨hrep',hold,hplace⟩ }
  dsimp only
  rw [he]
  split
  · exact { hsent with told := ⟨hrep',hold,hplace⟩ }
  · exact hsent.startHttpSync hrep' hold hplace

theorem Mirroring.sendSession (h : s.Mirroring synchronised) {fd : Int} {conn : Conn}
    {action : HttpAction} {rest : List HttpAction}
    (hpc : s.pc = .handleHttpSync fd conn (action::rest)) {sends : Int → Bool}
    (hok : s.SendsSucceed sends) :
    Mirroring synchronised { (s.sendPacket sends (.http action)).1 with
      pc := .handleHttpSync fd conn rest } := by
  have htold := h.told
  rw [hpc] at htold
  obtain ⟨hrep,hsnap⟩ := htold
  obtain ⟨sent',he,hs,hrest,-⟩ := Snapshotting.send h.linked.numbered hsnap hok
  have hfix := hsnap.fixed (.http action) (List.mem_cons_self ..)
  rw [he]
  exact { h with
    unused := hs.unused h.linked.numbered h.unused
    told := ⟨hrep.send_fixed hfix hs,hrest⟩ }

/-- One farm of the listener-down clear, or none of it left. -/
theorem Mirroring.clearFarm (h : s.Mirroring synchronised) {farmName : Bytes} {rest : List Bytes}
    (hpc : s.pc = .clearFarms (farmName::rest)) {sends : Int → Bool} (hok : s.SendsSucceed sends) :
    Mirroring synchronised { (s.sendPacket sends (.http (clearRequest farmName))).1 with
      pc := .clearFarms rest } := by
  have htold := h.told
  rw [hpc] at htold
  obtain ⟨sent',he,hs,hall⟩ := sendPacket_broadcast hok (m := .http (clearRequest farmName)) rfl
  have hrest : ∀ c, Connected s.connectedNodes c →
      replay (effectOn onSessions) (replica onSessions (sent' c)) (ControlledMaster.clears rest) =
        fun _ => none := by
    intro c hc
    rw [hall c hc, replica_concat]
    exact htold c hc
  rw [he]
  exact { h with
    unused := hs.unused h.linked.numbered h.unused
    told := hrest }

/-- Every node has been told of every farm when the store is emptied. -/
theorem Mirroring.cleared (h : s.Mirroring synchronised) (hpc : s.pc = .clearFarms []) :
    ({ s with httpSessionData := ∅, wait := true }.startRecentItems).Mirroring synchronised := by
  have htold := h.told
  rw [hpc] at htold
  have hview : BaseSync.viewOn onSessions { s.toBaseSync with httpSessionData := ∅ } =
      fun _ => none := by
    funext k
    exact congrArg (Option.map Sum.inl) (sessions_empty k)
  have hrep : Replicas onSessions s.connectedNodes s.sent synchronised
      (BaseSync.viewOn onSessions { s.toBaseSync with httpSessionData := ∅ }) := by
    intro c hc
    have hnone : replica onSessions (s.sent c) = fun _ => none := htold c hc
    rw [hview, hnone]
    exact ⟨sub_empty _,fun _ => rfl⟩
  have hdata : Mirroring synchronised { s with httpSessionData := ∅ } :=
    { h with
      wellFormed := ⟨oneService_empty,keyed_empty,h.wellFormed.entries⟩
      told := by rw [hpc]; exact htold }
  exact hdata.startRecentItems hrep true

/-- A farm's marker clears the farm here and, whatever the counter says, on every node. -/
theorem Mirroring.marker (h : s.Mirroring synchronised) {maxItems : ℕ}
    (hpc : s.pc = .httpItems maxItems) {sends : Int → Bool} (hok : s.SendsSucceed sends)
    (farmName : Bytes) :
    Mirroring synchronised (
      let s' := (s.sendPacket sends (.http (clearRequest farmName))).1
      { s' with toBaseSync := s'.toBaseSync.clearFarm farmName }) := by
  have htold := h.told
  rw [hpc] at htold
  obtain ⟨sent',he,hs,hall⟩ := sendPacket_broadcast hok (m := .http (clearRequest farmName)) rfl
  rw [he]
  refine { h with
    wellFormed := h.wellFormed.clearFarm farmName
    unused := hs.unused h.linked.numbered h.unused
    told := ?_ }
  change Told _ _ _ _ _ ((s.toBaseSync.clearFarm farmName).viewOn onSessions) _ s.pc
  rw [hpc, BaseSync.viewOn_clearFarm]
  exact ⟨htold.1.broadcast hall,fun hn => (htold.2 hn).clear hall⟩

/-- An item, deletions included, goes to every node, or no node has anything. -/
theorem Mirroring.item (h : s.Mirroring synchronised) {maxItems : ℕ}
    (hpc : s.pc = .httpItems maxItems) {sends : Int → Bool} (hok : s.SendsSucceed sends)
    (pkt : HttpAction) :
    Mirroring synchronised (
      let s' := { s with toBaseSync := s.toBaseSync.apply (.http pkt), pc := .httpItems (maxItems+1) }
      if 0 < s.backupServersFd then (s'.sendPacket sends (.http { pkt with fd := -1 })).1 else s') := by
  have htold := h.told
  rw [hpc] at htold
  obtain ⟨hrep,hfresh⟩ := htold
  have hview := BaseSync.viewOn_apply onSessions h.wellFormed.oneService (.http pkt)
  dsimp only
  split
  · next hpos =>
    let s' := { s with toBaseSync := s.toBaseSync.apply (.http pkt), pc := .httpItems (maxItems+1) }
    obtain ⟨sent',he,hs,hall⟩ := sendPacket_broadcast (s := s') hok
      (m := .http { pkt with fd := -1 }) rfl
    rw [he]
    refine { h with
      wellFormed := h.wellFormed.apply (.http pkt)
      unused := hs.unused h.linked.numbered h.unused
      told := ⟨?_,fun (hn : s.backupServersFd ≤ 0) => absurd hpos (Int.not_lt.mpr hn)⟩ }
    change Replicas _ _ _ _ ((s.toBaseSync.apply (.http pkt)).viewOn onSessions)
    have hstep : Overlay.step (effectOn onSessions) (s.viewOn onSessions)
        (.http { pkt with fd := -1 }) = (s.toBaseSync.apply (.http pkt)).viewOn onSessions := by
      rw [hview]
      rfl
    rw [← hstep]
    exact hrep.broadcast hall
  · next hneg =>
    have hf := hfresh (by omega)
    exact { h with
      wellFormed := h.wellFormed.apply (.http pkt)
      told := ⟨(hf.replicas _).mono h.answered,fun _ => hf⟩ }

theorem Mirroring.recentItem (h : s.Mirroring synchronised) {maxItems : ℕ}
    (hpc : s.pc = .recentItems maxItems) (sends : Int → Bool) (pkt : Recent.XtRecentAction) :
    (s.recentItem sends maxItems pkt).Mirroring synchronised := by
  have hrep := h.told.replicas (by simp [hpc])
  have hitem : Mirroring synchronised { s with
      toBaseSync := s.toBaseSync.apply (.recent pkt), pc := .recentItems (maxItems+1) } :=
    { h with
      wellFormed := h.wellFormed.apply (.recent pkt)
      told := hrep }
  unfold SyncMaster.recentItem
  dsimp only
  split
  · let s' := { s with
      toBaseSync := s.toBaseSync.apply (.recent pkt), pc := .recentItems (maxItems+1) }
    obtain ⟨sent',he,hs⟩ := sendPacket_spec s' sends (.recent pkt)
    rw [he]
    exact { hitem with
      unused := hs.unused h.linked.numbered h.unused
      told := hrep.send_fixed (step_recent_of_sessions _ pkt) hs }
  · exact hitem

/-- Every step of the run loop, but the last one of an answer. -/
theorem Mirroring.run (h : s.Mirroring synchronised) {sends : Int → Bool}
    (hsends : s.SendsSessions → s.SendsSucceed sends)
    (hpc : ∀ fd conn, s.pc ≠ .handleHttpSync fd conn []) :
    (s.run sends).Mirroring synchronised := by
  have htold := h.told
  unfold SyncMaster.run
  split
  · next hpoll =>
    split
    · next req rest hq => exact h.handleRequest hpoll hq
    · next hq =>
      split
      · exact { h with }
      · exact h.startItems hpoll hq
  · next fd conn hsync =>
    rw [hsync] at htold
    exact h.startHttpSync htold.1 htold.2.1 htold.2.2
  · next fd conn xaction rest hsync => exact h.sendEntry hsync sends
  · next fd conn hdone => exact absurd hdone (hpc fd conn)
  · next fd conn action rest hsync =>
    exact h.sendSession hsync (hsends (by simp [SendsSessions, hsync]))
  · next hclear => exact h.cleared hclear
  · next farmName rest hclear =>
    exact h.clearFarm hclear (hsends (by simp [SendsSessions, hclear]))
  · next maxItems hitems =>
    have hrep := h.told.replicas (by simp [hitems])
    split
    · exact h.startRecentItems hrep false
    · split
      · exact h.startRecentItems hrep true
      · next pkt rest hi =>
        have hok := hsends (by simp [SendsSessions, hitems])
        have hrest : Mirroring synchronised { s with httpInput := rest } := { h with }
        unfold SyncMaster.httpItem
        split
        · exact hrest.marker hitems hok pkt.farmName
        · exact hrest.item hitems hok pkt
  · next maxItems hitems =>
    have hrep := h.told.replicas (by simp [hitems])
    split
    · exact h.goto hrep false (.inl rfl)
    · split
      · exact h.goto hrep s.wait (.inl rfl)
      · next pkt rest hi =>
        have hrest : Mirroring synchronised { s with recentInput := rest } := { h with }
        exact hrest.recentItem hitems sends pkt

/-- The last step of an answer: the asking connection, if still there, has every session. -/
theorem Mirroring.completed (h : s.Mirroring synchronised) {fd : Int} {conn : Conn}
    (hpc : s.pc = .handleHttpSync fd conn []) (sends : Int → Bool) :
    (s.run sends).Mirroring fun c => c = conn || synchronised c := by
  have htold := h.told
  rw [hpc] at htold
  obtain ⟨hrep,hsnap⟩ := htold
  unfold SyncMaster.run
  rw [hpc]
  exact {
    wellFormed := h.wellFormed
    linked := h.linked
    unused := fun c hc => by
      have hne : c ≠ conn := by
        rintro rfl
        exact absurd hsnap.old (Nat.not_lt_of_le hc)
      simpa [hne] using h.unused c hc
    answered := fun c hs => by
      rcases Bool.or_eq_true_iff.mp hs with heq | hs
      · simp [heq]
      · simp [h.answered c hs]
    told := hrep.answer hsnap.completes }

/-- While nothing is stored, the nodes that have been answered lack nothing. -/
theorem Mirroring.nothing (h : s.Mirroring synchronised) :
    s.Mirroring fun c => synchronised c || s.answered c && (sessionActions s.httpSessionData).isEmpty := by
  have hanswered : ∀ c, (synchronised c || s.answered c && (sessionActions s.httpSessionData).isEmpty) = true →
      s.answered c = true := by
    intro c hs
    rcases Bool.or_eq_true_iff.mp hs with hs | hs
    · exact h.answered c hs
    · exact (Bool.and_eq_true_iff.mp hs).1
  have hreplicas : Replicas onSessions s.connectedNodes s.sent synchronised (s.viewOn onSessions) →
      Replicas onSessions s.connectedNodes s.sent
        (fun c => synchronised c || s.answered c && (sessionActions s.httpSessionData).isEmpty)
        (s.viewOn onSessions) := by
    refine fun hrep c hc => ⟨(hrep c hc).1,fun hs => ?_⟩
    rcases Bool.or_eq_true_iff.mp hs with hs | hs
    · exact (hrep c hc).2 hs
    · have hempty := List.isEmpty_iff.mp (Bool.and_eq_true_iff.mp hs).2
      have hview : ∀ k, s.viewOn onSessions k = none := fun k => by
        refine congrArg (Option.map Sum.inl) (?_ : sessions s.httpSessionData k = none)
        by_contra hstored
        obtain ⟨session,hsession⟩ := Option.ne_none_iff_exists'.mp hstored
        have hmem := mem_sessionActions.mpr ⟨k,session,hsession,rfl⟩
        rw [hempty] at hmem
        exact List.not_mem_nil hmem
      funext k
      rw [hview]
      exact (hrep c hc).1.eq_none (hview k)
  refine { h with answered := hanswered, told := ?_ }
  have htold := h.told
  cases hpc : s.pc with
  | clearFarms farms =>
    rw [hpc] at htold
    exact htold
  | poll | recentItems maxItems =>
    rw [hpc] at htold
    exact hreplicas htold
  | handleRecentSync fd conn rest | handleHttpSync fd conn rest | httpItems maxItems =>
    rw [hpc] at htold
    exact ⟨hreplicas htold.1,htold.2⟩

end Run

end SyncMaster

namespace ControlledMaster
open SyncMaster

def Mirroring (s : ControlledMaster) : Prop := s.toSyncMaster.Mirroring s.synchronised

theorem viewOn_of_nothing {data : HttpSessionData} (h : ∀ k, sessions data k = none)
    (recentData : Recent.RecentData) :
    viewOn onSessions ⟨data,recentData⟩ = fun _ => none := by
  funext k
  exact congrArg (Option.map Sum.inl) (h k)

/-- A command that finds nothing to drop, or finds the nodes already told of all of it. -/
theorem Mirroring.clearHttpData {s : ControlledMaster} (h : s.Mirroring) (hn : s.NothingStored) :
    s.clearHttpData.Mirroring := by
  have htold := h.told
  have hempty := viewOn_of_nothing sessions_empty s.recentData
  refine { h with
    wellFormed := ⟨oneService_empty,keyed_empty,h.wellFormed.entries⟩
    told := ?_ }
  change Told _ _ _ _ _ (viewOn onSessions ⟨∅,s.recentData⟩) _ s.pc
  cases hpc : s.pc with
  | clearFarms farms =>
    rw [hpc] at htold
    exact htold
  | _ =>
    unfold NothingStored settledData at hn
    simp only [hpc] at hn
    have hview : s.viewOn onSessions = viewOn onSessions ⟨∅,s.recentData⟩ :=
      (viewOn_of_nothing hn s.recentData).trans hempty.symm
    rw [← hview, ← hpc]
    exact htold

/-- A step of the master, up to the nodes that lack nothing because nothing is stored. -/
theorem Mirroring.returned {s : ControlledMaster} {e : MasterEvent} {m : SyncMaster} (h : s.Mirroring)
    (hok : s.Sending (.master e)) (hm : s.toSyncMaster.step e = some m) :
    m.Mirroring (s.returned e) := by
  cases e with
  | accept fd =>
    simp only [SyncMaster.step] at hm
    split at hm
    · next hfd =>
      obtain rfl := Option.some.inj hm
      exact SyncMaster.Mirroring.accept h hfd.1 hfd.2
    · contradiction
  | receive fd type =>
    simp only [SyncMaster.step] at hm
    split at hm
    · next c hc =>
      split at hm
      · next ht =>
        obtain rfl := Option.some.inj hm
        exact { h with linked := h.linked.receive hc ht.1 ht.2 }
      · contradiction
    · contradiction
  | close fd =>
    simp only [SyncMaster.step] at hm
    split at hm
    · next c hc =>
      obtain rfl := Option.some.inj hm
      exact { h with linked := h.linked.close hc, told := h.told.close fd }
    · contradiction
  | enqueueHttp pkt =>
    obtain rfl := Option.some.inj hm
    exact { h with }
  | enqueueRecent pkt =>
    simp only [SyncMaster.step] at hm
    split at hm
    · obtain rfl := Option.some.inj hm
      exact { h with }
    · contradiction
  | run sends =>
    obtain rfl := Option.some.inj hm
    by_cases hpc : ∃ fd conn, s.pc = .handleHttpSync fd conn []
    · obtain ⟨fd,conn,hpc⟩ := hpc
      have hdone := SyncMaster.Mirroring.completed h hpc sends
      simpa [ControlledMaster.returned, hpc] using hdone
    · have hsame : s.returned (.run sends) = s.synchronised := by
        unfold ControlledMaster.returned
        dsimp only
        split
        · next fd conn heq => exact absurd ⟨fd,conn,heq⟩ hpc
        · rfl
      rw [hsame]
      exact SyncMaster.Mirroring.run h (hok sends rfl) fun fd conn heq => hpc ⟨fd,conn,heq⟩
  | stopRecentSync =>
    obtain rfl := Option.some.inj hm
    exact { h with }
  | startRecentSync =>
    obtain rfl := Option.some.inj hm
    exact { h with wellFormed := ⟨h.wellFormed.oneService,h.wellFormed.sessions,Recent.keyed_empty⟩ }

theorem Mirroring.step_master {s s' : ControlledMaster} {e : MasterEvent} (h : s.Mirroring)
    (hok : s.Sending (.master e)) (hs : s.step (.master e) = some s') : s'.Mirroring := by
  obtain ⟨m,hm,rfl⟩ := Option.map_eq_some_iff.mp hs
  exact (h.returned hok hm).nothing

theorem Mirroring.step {s s' : ControlledMaster} {e : MasterCommand} (h : s.Mirroring)
    (hok : s.Harmless e) (hs : s.step e = some s') : s'.Mirroring := by
  cases e with
  | master e => exact h.step_master hok.1 hs
  | clearHttp =>
    obtain rfl := Option.some.inj hs
    exact h.clearHttpData (hok.2 (.inl rfl))
  | startHttpSync =>
    obtain rfl := Option.some.inj hs
    split
    · exact h
    · next hdown =>
      have hclear := h.clearHttpData (hok.2 (.inr ⟨rfl,by simpa using hdown⟩))
      exact { hclear with }
  | stopHttpSync =>
    obtain rfl := Option.some.inj hs
    exact { h with }
  | writeHttp =>
    obtain rfl := Option.some.inj hs
    split
    · exact h
    · exact { h with }

section Samples

/-- Commands that harm nothing wherever they come. -/
def Calm (es : List MasterCommand) : Prop := ∀ s : ControlledMaster, ∀ e ∈ es, s.Harmless e

@[simp] theorem calm_nil : Calm [] := by simp [Calm]

@[simp] theorem calm_cons (e : MasterCommand) (es : List MasterCommand) :
    Calm (e::es) ↔ (∀ s : ControlledMaster, s.Harmless e) ∧ Calm es := by
  simp [Calm, forall_and]

def turns (n : ℕ) : List MasterCommand := List.replicate n (.master SyncMaster.turn)

def http (action : HttpAction) : List MasterCommand := .master (.enqueueHttp action)::turns 5

@[simp] theorem calm_turns (n : ℕ) : Calm (turns n) := by
  intro s e he
  rw [List.eq_of_mem_replicate he]
  refine ⟨fun sends hsends _ fd _ => ?_,by simp [Clears]⟩
  rw [← MasterEvent.run.inj (MasterCommand.master.inj hsends)]

def session (key : UInt8) : HttpAction := addRequest [102] 0 1 ⟨[key],1,[],0⟩

/-- A node that connects and asks. -/
def asks : List MasterCommand :=
  turns 5 ++ [.master (.accept 5),.master (.receive 5 .syncRequest)] ++ turns 8

def twoSessions : List MasterCommand := http (session 107) ++ http (session 108)

/-- The node has asked before the listener runs. -/
def asked : ControlledMaster := (Runs.run step (initial false true) asks).getD (initial false true)

/-- A node asks and is sent two sessions, and then they are cleared by command. -/
def clearedRun : List MasterCommand := asks ++ twoSessions ++ [.clearHttp]

def cleared : ControlledMaster :=
  (Runs.run step (initial true true) clearedRun).getD (initial true true)

end Samples

end ControlledMaster
end Ssyncd
