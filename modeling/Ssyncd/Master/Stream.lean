import Ssyncd.Master.Steps
import Ssyncd.Library.Runs

/-! The stream law of the master. The forwarding of items is gated by a counter that lags
behind the set of nodes; a batch of items only starts when the two agree, so the nodes that
can miss an item are those accepted later in that batch, which have received nothing yet. -/
namespace Ssyncd
open Overlay
open BaseSync (effectOn viewOn Served requests)

section Replica
variable {κ : Type} (part : κ → NodeKey)

/-- What a node that started empty holds after the messages sent to it. -/
def replica (sent : List Message) : κ → Option NodeValue :=
  replay (effectOn part) (fun _ => none) sent

theorem replica_concat (sent : List Message) (m : Message) :
    replica part (sent ++ [m]) = step (effectOn part) (replica part sent) m :=
  replay_concat _ _ _ _

@[simp] theorem replica_nil : replica part [] = fun _ => none := rfl

end Replica

namespace SyncMaster

variable {κ : Type} {part : κ → NodeKey}

/-- Every connected node holds a part of the master's data, and all of it once answered. -/
def Replicas (part : κ → NodeKey) (nodes : Nodes) (sent : Conn → List Message)
    (answered : Conn → Bool) (view : κ → Option NodeValue) : Prop :=
  ∀ c, Connected nodes c →
    Sub (replica part (sent c)) view ∧ (answered c = true → replica part (sent c) = view)

section Replicas
variable {nodes : Nodes} {sent sent' : Conn → List Message} {answered : Conn → Bool}
  {view : κ → Option NodeValue} {m : Message}

/-- A message that changes nothing on the master may be sent to anyone. -/
theorem Replicas.send_fixed (h : Replicas part nodes sent answered view)
    (hfix : Overlay.step (effectOn part) view m = view) (hs : Sends nodes sent sent' m) :
    Replicas part nodes sent' answered view := by
  intro c hc
  obtain ⟨hsub,heq⟩ := h c hc
  rcases hs.one c with hs | ⟨hs,-⟩
  · rw [hs]
    exact ⟨hsub,heq⟩
  · rw [hs, replica_concat]
    refine ⟨Sub.step_of_fixed _ hsub hfix,fun ha => ?_⟩
    rw [heq ha, hfix]

/-- A message that is applied on the master and sent to all keeps every node where it was. -/
theorem Replicas.broadcast (h : Replicas part nodes sent answered view)
    (hs : ∀ c, Connected nodes c → sent' c = sent c ++ [m]) :
    Replicas part nodes sent' answered (Overlay.step (effectOn part) view m) := by
  intro c hc
  obtain ⟨hsub,heq⟩ := h c hc
  rw [hs c hc, replica_concat]
  refine ⟨Sub.step _ hsub m,fun ha => ?_⟩
  rw [heq ha]

/-- A node is accepted with nothing. -/
theorem Replicas.accept (h : Replicas part nodes sent answered view) {fd : Int} {c : Conn}
    (hfd : fd ∉ nodes) (hnew : sent c = [] ∧ answered c = false) :
    Replicas part (nodes.insert fd c) sent answered view := by
  intro c' hc
  rcases (connected_insert hfd).mp hc with rfl | hc
  · rw [hnew.1, hnew.2]
    exact ⟨sub_empty _,fun ha => absurd ha Bool.false_ne_true⟩
  · exact h c' hc

/-- A node that has everything may be answered. -/
theorem Replicas.answer (h : Replicas part nodes sent answered view) {conn : Conn}
    (hall : Connected nodes conn → replica part (sent conn) = view) :
    Replicas part nodes sent (fun c => c = conn || answered c) view := by
  intro c hc
  refine ⟨(h c hc).1,fun ha => ?_⟩
  by_cases heq : c = conn
  · rw [heq] at hc ⊢
    exact hall hc
  · exact (h c hc).2 (by simpa [heq] using ha)

/-- The connected nodes have nothing and wait for their answer. -/
def Fresh (part : κ → NodeKey) (nodes : Nodes) (sent : Conn → List Message)
    (answered : Conn → Bool) : Prop :=
  ∀ c, Connected nodes c → replica part (sent c) = (fun _ => none) ∧ answered c = false

/-- Nodes that have nothing stay in step whatever the master does alone. -/
theorem Fresh.replicas (h : Fresh part nodes sent answered) (view : κ → Option NodeValue) :
    Replicas part nodes sent answered view := by
  intro c hc
  obtain ⟨hnone,hans⟩ := h c hc
  rw [hnone]
  refine ⟨sub_empty view,fun ha => ?_⟩
  rw [hans] at ha
  contradiction

end Replicas

/-- What is still to be sent brings the asking connection up to the master's data. -/
structure Snapshotting (part : κ → NodeKey) (nodes : Nodes) (sent : Conn → List Message)
    (nextConn : Conn) (view : κ → Option NodeValue) (fd : Int) (conn : Conn)
    (rest : List Message) : Prop where
  old : conn < nextConn
  place : ∀ fd' : Int, nodes[fd']? = some conn → fd' = fd
  fds : ∀ m ∈ rest, m.fd = fd
  fixed : ∀ m ∈ rest, Overlay.step (effectOn part) view m = view
  completes : Connected nodes conn → replay (effectOn part) (replica part (sent conn)) rest = view

/-- The rest of a snapshot that is still among the entries. -/
def recentMessages (httpRunning : Bool) (d : BaseSync) (fd : Int)
    (rest : List Recent.XtRecentAction) : List Message :=
  rest.map .recent ++ requests httpRunning false d fd

def AtPc (part : κ → NodeKey) (httpRunning : Bool) (d : BaseSync) (nodes : Nodes)
    (sent : Conn → List Message) (answered : Conn → Bool) (nextConn : Conn)
    (backupServersFd : Int) : MasterPc → Prop
  | .poll => True
  | .handleRecentSync fd conn rest =>
    Snapshotting part nodes sent nextConn (d.viewOn part) fd conn
      (recentMessages httpRunning d fd rest)
  | .handleHttpSync fd conn rest =>
    Snapshotting part nodes sent nextConn (d.viewOn part) fd conn (rest.map .http)
  | .clearFarms _ =>
    (∀ k, ∃ e, part k = .inr e) ∧ (backupServersFd ≤ 0 → Fresh part nodes sent answered)
  | .httpItems _ => httpRunning = true ∧ (backupServersFd ≤ 0 → Fresh part nodes sent answered)
  | .recentItems _ => backupServersFd ≤ 0 → Fresh part nodes sent answered

/-- The invariant of the run loop, for a part of the data whose listeners are running. -/
structure Invariant (part : κ → NodeKey) (s : SyncMaster) : Prop where
  wellFormed : s.WellFormed
  served : Served part s.httpRunning s.recentRunning s.toBaseSync
  counted : Counted s.connectedNodes s.inputPacketQueue s.backupServersFd
  numbered : Numbered s.connectedNodes s.nextConn
  unused : ∀ c, s.nextConn ≤ c → s.sent c = [] ∧ s.answered c = false
  queued : ∀ req ∈ s.inputPacketQueue, req.conn < s.nextConn ∧
    ∀ fd : Int, s.connectedNodes[fd]? = some req.conn → fd = req.fd
  replicas : Replicas part s.connectedNodes s.sent s.answered (s.viewOn part)
  atPc : AtPc part s.httpRunning s.toBaseSync s.connectedNodes s.sent s.answered s.nextConn
    s.backupServersFd s.pc

/-- With an empty queue the counter is the number of nodes. -/
theorem Counted.fresh {nodes : Nodes} {n : Int} (h : Counted nodes [] n) (hn : n ≤ 0)
    (sent : Conn → List Message) (answered : Conn → Bool) : Fresh part nodes sent answered := by
  rintro c ⟨fd,hc⟩
  have hsize : n = nodes.size := by simpa [Counted, pendingOf] using h
  have hempty : nodes = ∅ := Std.ExtTreeMap.eq_empty_iff_size_eq_zero.mpr (by omega)
  rw [hempty] at hc
  simp at hc

theorem Fresh.accept {nodes : Nodes} {sent : Conn → List Message} {answered : Conn → Bool}
    (h : Fresh part nodes sent answered) {fd : Int} {c : Conn} (hfd : fd ∉ nodes)
    (hnew : sent c = [] ∧ answered c = false) : Fresh part (nodes.insert fd c) sent answered := by
  intro c' hc
  rcases (connected_insert hfd).mp hc with rfl | hc
  · rw [hnew.1]
    exact ⟨rfl,hnew.2⟩
  · exact h c' hc

/-- A clear leaves a node that has nothing with nothing. -/
theorem Fresh.clear {nodes : Nodes} {sent sent' : Conn → List Message} {answered : Conn → Bool}
    (h : Fresh part nodes sent answered) {farmName : Bytes}
    (hs : ∀ c, Connected nodes c → sent' c = sent c ++ [.http (Http.clearRequest farmName)]) :
    Fresh part nodes sent' answered := by
  intro c hc
  obtain ⟨hnone,hans⟩ := h c hc
  refine ⟨?_,hans⟩
  rw [hs c hc, replica_concat, hnone, ← BaseSync.viewOn_empty part, ← BaseSync.viewOn_clearFarm]
  simp [BaseSync.clearFarm, Http.clearHttpFarmData]

section AtPc
variable {nodes : Nodes} {sent sent' : Conn → List Message} {answered : Conn → Bool}
  {nextConn : Conn}

theorem Snapshotting.accept {view : κ → Option NodeValue} {fd : Int} {conn : Conn}
    {rest : List Message} (h : Snapshotting part nodes sent nextConn view fd conn rest) {newFd : Int}
    (hfd : newFd ∉ nodes) :
    Snapshotting part (nodes.insert newFd nextConn) sent (nextConn+1) view fd conn rest where
  old := Nat.lt_succ_of_lt h.old
  place fd' hc := h.place fd' (getElem?_insert_old h.old hc)
  fds := h.fds
  fixed := h.fixed
  completes hc := by
    rcases (connected_insert hfd).mp hc with hc | hc
    · exact absurd hc (Nat.ne_of_gt h.old)
    · exact h.completes hc

theorem Snapshotting.close {view : κ → Option NodeValue} {fd : Int} {conn : Conn}
    {rest : List Message} (h : Snapshotting part nodes sent nextConn view fd conn rest) (oldFd : Int) :
    Snapshotting part (nodes.erase oldFd) sent nextConn view fd conn rest where
  old := h.old
  place fd' hc := h.place fd' (getElem?_erase_some hc)
  fds := h.fds
  fixed := h.fixed
  completes hc := h.completes (connected_erase hc)

theorem AtPc.accept {r : Bool} {d : BaseSync} {n : Int} {pc : MasterPc}
    (h : AtPc part r d nodes sent answered nextConn n pc) {fd : Int} (hfd : fd ∉ nodes)
    (hnew : sent nextConn = [] ∧ answered nextConn = false) :
    AtPc part r d (nodes.insert fd nextConn) sent answered (nextConn+1) n pc := by
  cases pc with
  | poll => trivial
  | handleRecentSync fd conn rest => exact Snapshotting.accept h hfd
  | handleHttpSync fd conn rest => exact Snapshotting.accept h hfd
  | clearFarms rest => exact ⟨h.1,fun hn => (h.2 hn).accept hfd hnew⟩
  | httpItems maxItems => exact ⟨h.1,fun hn => (h.2 hn).accept hfd hnew⟩
  | recentItems maxItems => exact fun hn => (h hn).accept hfd hnew

theorem AtPc.close {r : Bool} {d : BaseSync} {n : Int} {pc : MasterPc}
    (h : AtPc part r d nodes sent answered nextConn n pc) (fd : Int) :
    AtPc part r d (nodes.erase fd) sent answered nextConn n pc := by
  cases pc with
  | poll => trivial
  | handleRecentSync _ conn rest => exact Snapshotting.close h fd
  | handleHttpSync _ conn rest => exact Snapshotting.close h fd
  | clearFarms rest => exact ⟨h.1,fun hn c hc => h.2 hn c (connected_erase hc)⟩
  | httpItems maxItems => exact ⟨h.1,fun hn c hc => h.2 hn c (connected_erase hc)⟩
  | recentItems maxItems => exact fun hn c hc => h hn c (connected_erase hc)

end AtPc

theorem Invariant.linked {s : SyncMaster} (h : s.Invariant part) :
    Linked s.connectedNodes s.inputPacketQueue s.backupServersFd s.nextConn :=
  ⟨h.counted,h.numbered,h.queued⟩

theorem Invariant.accept {s : SyncMaster} (h : s.Invariant part) {fd : Int} (hpos : 0 ≤ fd)
    (hfd : fd ∉ s.connectedNodes) :
    Invariant part { s with
      connectedNodes := s.connectedNodes.insert fd s.nextConn
      inputPacketQueue := s.inputPacketQueue ++ [⟨.connect,fd,s.nextConn⟩]
      nextConn := s.nextConn + 1 } :=
  { h.linked.accept hpos hfd with
    wellFormed := h.wellFormed
    served := h.served
    unused := fun c hc => h.unused c (Nat.le_of_succ_le hc)
    replicas := h.replicas.accept hfd (h.unused s.nextConn (Nat.le_refl _))
    atPc := h.atPc.accept hfd (h.unused s.nextConn (Nat.le_refl _)) }

theorem Invariant.close {s : SyncMaster} (h : s.Invariant part) {fd : Int} {c : Conn}
    (hc : s.connectedNodes[fd]? = some c) :
    Invariant part { s with
      connectedNodes := s.connectedNodes.erase fd
      inputPacketQueue := s.inputPacketQueue ++ [⟨.disconnect,fd,c⟩] } :=
  { h.linked.close hc with
    wellFormed := h.wellFormed
    served := h.served
    unused := h.unused
    replicas := fun c hc => h.replicas c (connected_erase hc)
    atPc := h.atPc.close fd }

theorem Invariant.receive {s : SyncMaster} (h : s.Invariant part) {fd : Int} {c : Conn}
    {type : PacketType} (hc : s.connectedNodes[fd]? = some c) (hcon : type ≠ .connect)
    (hdis : type ≠ .disconnect) :
    Invariant part { s with inputPacketQueue := s.inputPacketQueue ++ [⟨type,fd,c⟩] } :=
  { h.linked.receive hc hcon hdis with
    wellFormed := h.wellFormed
    served := h.served
    unused := h.unused
    replicas := h.replicas
    atPc := h.atPc }

/-- One message of a snapshot: the asking connection takes it whenever it is still there. -/
theorem Snapshotting.send {s : SyncMaster} {fd : Int} {conn : Conn} {m : Message}
    {rest : List Message} (hnum : Numbered s.connectedNodes s.nextConn)
    (h : Snapshotting part s.connectedNodes s.sent s.nextConn (s.viewOn part) fd conn (m::rest))
    {sends : Int → Bool} (hok : s.SendsSucceed sends) :
    ∃ sent', (s.sendPacket sends m).1 = { s with sent := sent' } ∧
      Sends s.connectedNodes s.sent sent' m ∧
      Snapshotting part s.connectedNodes sent' s.nextConn (s.viewOn part) fd conn rest ∧
      (Connected s.connectedNodes conn →
        sent' conn = s.sent conn ++ [m] ∧ (s.sendPacket sends m).2 = true) := by
  obtain ⟨sent',he,hs⟩ := sendPacket_spec s sends m
  have hto : Connected s.connectedNodes conn →
      sent' conn = s.sent conn ++ [m] ∧ (s.sendPacket sends m).2 = true := by
    rintro ⟨fd',hc⟩
    have hmfd : m.fd = fd := h.fds m (List.mem_cons_self ..)
    obtain rfl : fd' = fd := h.place fd' hc
    have hne : m.fd ≠ -1 := by
      have := hnum.fd fd' conn hc
      omega
    obtain ⟨sent'',heq,hsent⟩ := sendPacket_to hok hne (hmfd.symm ▸ hc)
    rw [heq] at he ⊢
    have hsame : sent'' = sent' := congrArg SyncMaster.sent he
    exact ⟨hsame ▸ hsent,rfl⟩
  refine ⟨sent',he,hs,⟨h.old,h.place,?_,?_,?_⟩,hto⟩
  · exact fun m' hm => h.fds m' (List.mem_cons_of_mem _ hm)
  · exact fun m' hm => h.fixed m' (List.mem_cons_of_mem _ hm)
  · intro hc
    rw [(hto hc).1, replica_concat]
    exact h.completes hc

/-- A connection that is not accepted yet gets no message. -/
theorem Sends.unused {nodes : Nodes} {sent sent' : Conn → List Message} {m : Message}
    (hs : Sends nodes sent sent' m) {nextConn : Conn} (hnum : Numbered nodes nextConn)
    {answered : Conn → Bool} (h : ∀ c, nextConn ≤ c → sent c = [] ∧ answered c = false) (c : Conn)
    (hc : nextConn ≤ c) : sent' c = [] ∧ answered c = false := by
  rcases hs.one c with heq | ⟨-,hcon⟩
  · rw [heq]
    exact h c hc
  · exact absurd (hnum.old c hcon) (Nat.not_lt_of_le hc)

/-- A message that the master already satisfies was sent, and the loop went on. -/
theorem Invariant.send_fixed {s : SyncMaster} (h : s.Invariant part) {m : Message}
    (hfix : Overlay.step (effectOn part) (s.viewOn part) m = s.viewOn part) {sent' : Conn → List Message}
    (hs : Sends s.connectedNodes s.sent sent' m) (pc : MasterPc)
    (hat : AtPc part s.httpRunning s.toBaseSync s.connectedNodes sent' s.answered s.nextConn s.backupServersFd pc) :
    Invariant part { s with sent := sent', pc } :=
  { h with
    unused := hs.unused h.numbered h.unused
    replicas := h.replicas.send_fixed hfix hs
    atPc := hat }

/-- The loop went on without touching anything that the invariant speaks of. -/
theorem Invariant.goto {s : SyncMaster} (h : s.Invariant part) (wait : Bool) (pc : MasterPc)
    (hat : AtPc part s.httpRunning s.toBaseSync s.connectedNodes s.sent s.answered s.nextConn s.backupServersFd pc) :
    Invariant part { s with wait, pc } :=
  { h with atPc := hat }

/-- The end of a snapshot: the asking connection, if still there, has everything. -/
theorem Invariant.finish {s : SyncMaster} (h : s.Invariant part) {fd : Int} {conn : Conn}
    (hsnap : Snapshotting part s.connectedNodes s.sent s.nextConn (s.viewOn part) fd conn []) :
    Invariant part { s with pc := .poll, answered := fun c => c = conn || s.answered c } :=
  { h with
    unused := fun c hc => by
      have hne : c ≠ conn := by
        rintro rfl
        exact absurd hsnap.old (Nat.not_lt_of_le hc)
      simpa [hne] using h.unused c hc
    replicas := h.replicas.answer hsnap.completes
    atPc := trivial }

theorem Invariant.startHttpSync {s : SyncMaster} (h : s.Invariant part) {fd : Int} {conn : Conn}
    (hsnap : Snapshotting part s.connectedNodes s.sent s.nextConn (s.viewOn part) fd conn
      (requests s.httpRunning false s.toBaseSync fd)) :
    (s.startHttpSync fd conn).Invariant part := by
  unfold SyncMaster.startHttpSync
  split
  · next hrun =>
    rw [hrun] at hsnap
    exact h.goto s.wait (.handleHttpSync fd conn _) hsnap
  · next hrun =>
    rw [Bool.not_eq_true] at hrun
    rw [hrun] at hsnap
    exact h.finish hsnap

theorem fd_requests {httpRunning recentRunning : Bool} {d : BaseSync} {fd : Int} {m : Message}
    (hm : m ∈ requests httpRunning recentRunning d fd) : m.fd = fd := by
  rcases BaseSync.mem_requests hm with ⟨a,ha,rfl⟩ | ⟨a,ha,rfl⟩
  · obtain ⟨b,-,rfl⟩ := List.mem_map.mp ha
    rfl
  · obtain ⟨b,-,rfl⟩ := List.mem_map.mp ha
    rfl

theorem Invariant.startSync {s : SyncMaster} (h : s.Invariant part) {fd : Int} {conn : Conn}
    (hold : conn < s.nextConn)
    (hplace : ∀ fd' : Int, s.connectedNodes[fd']? = some conn → fd' = fd) :
    (s.startSync fd conn).Invariant part := by
  have hsnap := BaseSync.snapshot_requests h.wellFormed h.served fd
  have hall : Snapshotting part s.connectedNodes s.sent s.nextConn (s.viewOn part) fd conn
      (requests s.httpRunning s.recentRunning s.toBaseSync fd) :=
    ⟨hold,hplace,fun _ => fd_requests,hsnap.fixed,
      fun hc => (h.replicas conn hc).1.replay_snapshot _ hsnap⟩
  unfold SyncMaster.startSync
  split
  · next hrun =>
    rw [hrun] at hall
    exact h.goto s.wait (.handleRecentSync fd conn _) hall
  · next hrun =>
    rw [Bool.not_eq_true] at hrun
    rw [hrun] at hall
    exact h.startHttpSync hall

theorem Invariant.pop {s : SyncMaster} (h : s.Invariant part) {req : Request} {rest : List Request}
    (hq : s.inputPacketQueue = req::rest) :
    Invariant part { s with
      inputPacketQueue := rest
      pc := .poll
      backupServersFd := s.backupServersFd + (if req.type = .connect then 1 else 0)
        - if req.type = .disconnect then 1 else 0 } :=
  { (hq ▸ h.linked).pop, h with
    atPc := trivial }

theorem Invariant.handleRequest {s : SyncMaster} (h : s.Invariant part) (hpc : s.pc = .poll)
    {req : Request} {rest : List Request} (hq : s.inputPacketQueue = req::rest) :
    ({ s with inputPacketQueue := rest }.handleRequest req).Invariant part := by
  have hpop := h.pop hq
  obtain ⟨hold,hplace⟩ := h.queued req (by rw [hq]; exact List.mem_cons_self ..)
  rw [← hpc] at hpop
  cases ht : req.type with
  | syncRequest =>
    simp only [ht, reduceCtorEq, if_false, Int.add_zero, Int.sub_zero] at hpop
    simp only [SyncMaster.handleRequest, ht]
    exact hpop.startSync hold hplace
  | _ => simpa [SyncMaster.handleRequest, ht] using hpop

theorem Invariant.startRecentItems {s : SyncMaster} (h : s.Invariant part)
    (hfresh : s.backupServersFd ≤ 0 → Fresh part s.connectedNodes s.sent s.answered)
    (wait : Bool) : ({ s with wait }.startRecentItems).Invariant part := by
  unfold SyncMaster.startRecentItems
  split
  · exact h.goto wait (.recentItems 0) hfresh
  · exact h.goto wait .poll trivial

/-- Items are only taken when the queue is empty, so the counter is exact there. -/
theorem Invariant.startItems {s : SyncMaster} (h : s.Invariant part)
    (hq : s.inputPacketQueue = []) : s.startItems.Invariant part := by
  have hfresh : s.backupServersFd ≤ 0 → Fresh part s.connectedNodes s.sent s.answered :=
    fun hn => (hq ▸ h.counted).fresh hn _ _
  unfold SyncMaster.startItems
  split
  · next hdown =>
    simp only [Bool.and_eq_true, Bool.not_eq_true'] at hdown
    refine h.goto s.wait (.clearFarms _) ⟨?_,hfresh⟩
    rcases h.served.http with hrun | hall | hempty
    · rw [hdown.1] at hrun
      contradiction
    · exact hall
    · have hfarms := hdown.2
      rw [hempty] at hfarms
      simp at hfarms
  · split
    · next hrun => exact h.goto s.wait (.httpItems 0) ⟨hrun,hfresh⟩
    · exact h.startRecentItems hfresh true

theorem messageEffect_http_fd (a : Http.HttpAction) (fd : Int) :
    messageEffect (.http { a with fd }) = messageEffect (.http a) := by
  funext k
  cases k <;> rfl

/-- A farm's marker: the clear goes to every node, whatever the counter says. -/
theorem Invariant.marker {s : SyncMaster} (h : s.Invariant part) {maxItems : ℕ}
    (hpc : s.pc = .httpItems maxItems) {sends : Int → Bool}
    (hok : s.SendsSucceed sends) (farmName : Bytes) :
    Invariant part (
      let s' := (s.sendPacket sends (.http (Http.clearRequest farmName))).1
      { s' with toBaseSync := s'.toBaseSync.clearFarm farmName }) := by
  have hat := h.atPc
  rw [hpc] at hat
  obtain ⟨sent',he,hs,hall⟩ := sendPacket_broadcast hok
    (m := .http (Http.clearRequest farmName)) rfl
  rw [he]
  exact { h with
    wellFormed := h.wellFormed.clearFarm farmName
    served := ⟨.inl hat.1,h.served.recent⟩
    unused := hs.unused h.numbered h.unused
    replicas := by
      change Replicas part _ _ _ ((s.toBaseSync.clearFarm farmName).viewOn part)
      rw [BaseSync.viewOn_clearFarm]
      exact h.replicas.broadcast hall
    atPc := by
      change AtPc part _ _ _ _ _ _ _ s.pc
      rw [hpc]
      exact ⟨hat.1,fun hn => (hat.2 hn).clear hall⟩ }

/-- An item: forwarded to every node, or to none while no connected node has anything. -/
theorem Invariant.item {s : SyncMaster} (h : s.Invariant part)
    (hfresh : s.backupServersFd ≤ 0 → Fresh part s.connectedNodes s.sent s.answered) {sends : Int → Bool}
    (hok : s.SendsSucceed sends)
    {m m' : Message} (heff : messageEffect m' = messageEffect m) (hfd : m'.fd = -1)
    (hserved : Served part s.httpRunning s.recentRunning (s.toBaseSync.apply m))
    {pc : MasterPc} (hpc : ∀ d sent', (s.backupServersFd ≤ 0 →
      Fresh part s.connectedNodes sent' s.answered) →
        AtPc part s.httpRunning d s.connectedNodes sent' s.answered s.nextConn
          s.backupServersFd pc) :
    Invariant part (
      let s' := { s with toBaseSync := s.toBaseSync.apply m, pc }
      if 0 < s.backupServersFd then (s'.sendPacket sends m').1 else s') := by
  have hview := BaseSync.viewOn_apply part h.wellFormed.oneService m
  dsimp only
  split
  · next hpos =>
    let s' := { s with toBaseSync := s.toBaseSync.apply m, pc }
    obtain ⟨sent',he,hs,hall⟩ := sendPacket_broadcast (s := s') hok hfd
    rw [he]
    exact { h with
      wellFormed := h.wellFormed.apply m
      served := hserved
      unused := hs.unused h.numbered h.unused
      replicas := by
        change Replicas part _ _ _ ((s.toBaseSync.apply m).viewOn part)
        have hstep : Overlay.step (effectOn part) (s.viewOn part) m' =
            (s.toBaseSync.apply m).viewOn part := by
          rw [hview]
          funext k
          simp only [Overlay.step, effectOn, heff]
        rw [← hstep]
        exact h.replicas.broadcast hall
      atPc := hpc _ _ fun hn => absurd hpos (by omega) }
  · next hneg =>
    have hf := hfresh (by omega)
    exact { h with
      wellFormed := h.wellFormed.apply m
      served := hserved
      replicas := hf.replicas _
      atPc := hpc _ _ fun _ => hf }

theorem Invariant.httpItem {s : SyncMaster} (h : s.Invariant part) {maxItems : ℕ}
    (hpc : s.pc = .httpItems maxItems) {sends : Int → Bool}
    (hok : s.SendsSucceed sends) (pkt : Http.HttpAction)
    (rest : List Http.HttpAction) :
    ({ s with httpInput := rest }.httpItem sends maxItems pkt).Invariant part := by
  have hrest : Invariant part { s with httpInput := rest } := { h with }
  have hat := h.atPc
  rw [hpc] at hat
  unfold SyncMaster.httpItem
  split
  · exact hrest.marker hpc hok pkt.farmName
  · exact hrest.item hat.2 hok (m := .http pkt) (messageEffect_http_fd pkt (-1)) rfl
      ⟨.inl hat.1,h.served.recent⟩ fun _ _ hf => ⟨hat.1,hf⟩

theorem Invariant.recentItem {s : SyncMaster} (h : s.Invariant part) {maxItems : ℕ}
    (hpc : s.pc = .recentItems maxItems) {sends : Int → Bool}
    (hok : s.SendsSucceed sends) {pkt : Recent.XtRecentAction}
    (hfd : pkt.fd = -1) (rest : List Recent.XtRecentAction) :
    ({ s with recentInput := rest }.recentItem sends maxItems pkt).Invariant part := by
  have hrest : Invariant part { s with recentInput := rest } := { h with }
  have hfresh : s.backupServersFd ≤ 0 → Fresh part s.connectedNodes s.sent s.answered := by
    have := h.atPc
    rwa [hpc] at this
  exact hrest.item hfresh hok (m := .recent pkt) rfl hfd ⟨h.served.http,h.served.recent⟩
    fun _ _ hf => hf

/-- The recent listener's actions are for everyone. -/
def RecentInput (s : SyncMaster) : Prop := ∀ pkt ∈ s.recentInput, pkt.fd = -1

/-- One message of the entries' part; when it fails, the node has gone. -/
theorem Invariant.sendEntry {s : SyncMaster} (h : s.Invariant part) {fd : Int} {conn : Conn}
    {xaction : Recent.XtRecentAction} {rest : List Recent.XtRecentAction}
    (hpc : s.pc = .handleRecentSync fd conn (xaction::rest)) {sends : Int → Bool}
    (hok : s.SendsSucceed sends) :
    Invariant part (
      let s' := (s.sendPacket sends (.recent xaction)).1
      if (s.sendPacket sends (.recent xaction)).2 then
        { s' with pc := .handleRecentSync fd conn rest }
      else s'.startHttpSync fd conn) := by
  have hat := h.atPc
  rw [hpc] at hat
  obtain ⟨sent',he,hs,hsnap,hgot⟩ := Snapshotting.send h.numbered hat hok
  have hfix := hat.fixed (.recent xaction) (List.mem_cons_self ..)
  dsimp only
  rw [he]
  split
  · exact h.send_fixed hfix hs (.handleRecentSync fd conn rest) hsnap
  · next hfail =>
    have hpoll := h.send_fixed hfix hs .poll trivial
    have hgone : ¬ Connected s.connectedNodes conn := fun hc => hfail (hgot hc).2
    have hhttp : ∀ m ∈ requests s.httpRunning false s.toBaseSync fd,
        m ∈ recentMessages s.httpRunning s.toBaseSync fd rest :=
      fun m hm => List.mem_append_right _ hm
    have hnext : ({ s with sent := sent', pc := .poll }.startHttpSync fd conn).Invariant part :=
      hpoll.startHttpSync ⟨hsnap.old,hsnap.place,fun m hm => hsnap.fds m (hhttp m hm),
        fun m hm => hsnap.fixed m (hhttp m hm),fun hc => absurd hc hgone⟩
    unfold SyncMaster.startHttpSync at hnext ⊢
    split
    · next hrun =>
      rw [if_pos hrun] at hnext
      exact hnext
    · next hrun =>
      rw [if_neg hrun] at hnext
      exact hnext

/-- While the HTTP listener is down its farms are cleared everywhere. -/
theorem Invariant.clearFarm {s : SyncMaster} (h : s.Invariant part) {farmName : Bytes}
    {rest : List Bytes} (hpc : s.pc = .clearFarms (farmName::rest)) (sends : Int → Bool) :
    Invariant part { (s.sendPacket sends (.http (Http.clearRequest farmName))).1 with
      pc := .clearFarms rest } := by
  have hat := h.atPc
  rw [hpc] at hat
  obtain ⟨sent',he,hs⟩ := sendPacket_spec s sends (.http (Http.clearRequest farmName))
  rw [he]
  refine h.send_fixed (BaseSync.step_http_of_entries hat.1 _ _) hs (.clearFarms rest) ⟨hat.1,?_⟩
  intro hn c hc
  obtain ⟨hnone,hans⟩ := hat.2 hn c hc
  refine ⟨?_,hans⟩
  rcases hs.one c with heq | ⟨heq,-⟩
  · rw [heq, hnone]
  · rw [heq, replica_concat, BaseSync.step_http_of_entries hat.1, hnone]

theorem Invariant.cleared {s : SyncMaster} (h : s.Invariant part)
    (hpc : s.pc = .clearFarms []) :
    ({ s with httpSessionData := ∅, wait := true }.startRecentItems).Invariant part := by
  have hat := h.atPc
  rw [hpc] at hat
  have hdata : Invariant part { s with httpSessionData := ∅, pc := .poll } :=
    { h with
      wellFormed := ⟨Http.oneService_empty,Http.keyed_empty,h.wellFormed.entries⟩
      served := ⟨.inr (.inl hat.1),h.served.recent⟩
      replicas := by
        change Replicas part _ _ _ (BaseSync.viewOn part { s.toBaseSync with httpSessionData := ∅ })
        rw [BaseSync.viewOn_of_entries hat.1]
        exact h.replicas
      atPc := trivial }
  have hnext := hdata.startRecentItems hat.2 true
  unfold SyncMaster.startRecentItems at hnext ⊢
  exact hnext

theorem Invariant.run {s : SyncMaster} (h : s.Invariant part) (hin : s.RecentInput) {sends : Int → Bool}
    (hok : s.SendsSucceed sends) :
    (s.run sends).Invariant part := by
  have hat := h.atPc
  unfold SyncMaster.run
  split
  · next hpc =>
    split
    · next req rest hq => exact h.handleRequest hpc hq
    · next hq =>
      split
      · exact { h with }
      · exact h.startItems hq
  · next fd conn hpc =>
    rw [hpc] at hat
    exact h.startHttpSync hat
  · next fd conn xaction rest hpc => exact h.sendEntry hpc hok
  · next fd conn hpc =>
    rw [hpc] at hat
    exact h.finish hat
  · next fd conn action rest hpc =>
    rw [hpc] at hat
    obtain ⟨sent',he,hs,hsnap,-⟩ := Snapshotting.send h.numbered hat hok
    have hfix := hat.fixed (.http action) (List.mem_cons_self ..)
    rw [he]
    exact h.send_fixed hfix hs (.handleHttpSync fd conn rest) hsnap
  · next hpc => exact h.cleared hpc
  · next farmName rest hpc => exact h.clearFarm hpc sends
  · next maxItems hpc =>
    split
    · rw [hpc] at hat
      exact h.startRecentItems hat.2 false
    · split
      · rw [hpc] at hat
        exact h.startRecentItems hat.2 true
      · next pkt rest hi => exact h.httpItem hpc hok pkt rest
  · next maxItems hpc =>
    split
    · exact h.goto false .poll trivial
    · split
      · exact h.goto s.wait .poll trivial
      · next pkt rest hi =>
        have hfd : pkt.fd = -1 := hin pkt (by rw [hi]; exact List.mem_cons_self ..)
        exact h.recentItem hpc hok hfd rest

/-- A master before its first step, with any of its listeners running. -/
def initial (httpRunning recentRunning : Bool) : SyncMaster := { httpRunning, recentRunning }

theorem invariant_initial {httpRunning recentRunning : Bool}
    (h : Served part httpRunning recentRunning {}) :
    (initial httpRunning recentRunning).Invariant part where
  wellFormed := BaseSync.wellFormed_empty
  served := h
  counted := by simp [Counted, pendingOf, initial]
  numbered := ⟨fun _ _ h => by simp [initial] at h,fun _ ⟨_,h⟩ => by simp [initial] at h,
    fun _ _ _ h => by simp [initial] at h⟩
  unused _ _ := ⟨rfl,rfl⟩
  queued _ h := by simp [initial] at h
  replicas := by
    rintro c ⟨fd,h⟩
    simp [initial] at h
  atPc := trivial

theorem Invariant.step {s s' : SyncMaster} {e : MasterEvent}
    (h : s.Invariant part ∧ s.RecentInput) (he : s.Undisturbed e) (hs : s.step e = some s') :
    s'.Invariant part ∧ s'.RecentInput := by
  obtain ⟨h,hin⟩ := h
  cases e with
  | accept fd =>
    simp only [SyncMaster.step] at hs
    split at hs
    · next hfd =>
      obtain rfl := Option.some.inj hs
      exact ⟨h.accept hfd.1 hfd.2,hin⟩
    · contradiction
  | receive fd type =>
    simp only [SyncMaster.step] at hs
    split at hs
    · next c hc =>
      split at hs
      · next ht =>
        obtain rfl := Option.some.inj hs
        exact ⟨h.receive hc ht.1 ht.2,hin⟩
      · contradiction
    · contradiction
  | close fd =>
    simp only [SyncMaster.step] at hs
    split at hs
    · next c hc =>
      obtain rfl := Option.some.inj hs
      exact ⟨h.close hc,hin⟩
    · contradiction
  | enqueueHttp pkt =>
    obtain rfl := Option.some.inj hs
    exact ⟨{ h with },hin⟩
  | enqueueRecent pkt =>
    simp only [SyncMaster.step] at hs
    split at hs
    · next hfd =>
      obtain rfl := Option.some.inj hs
      refine ⟨{ h with },fun p hp => ?_⟩
      rcases List.mem_append.mp hp with hp | hp
      · exact hin p hp
      · rw [List.mem_singleton.mp hp]
        exact hfd
    · contradiction
  | run sends =>
    obtain rfl := Option.some.inj hs
    exact ⟨h.run hin (he.2 sends rfl),fun p hp => hin p ((run_frame s sends).recentInput.subset hp)⟩
  | stopRecentSync => exact absurd (.inl rfl) he.1
  | startRecentSync => exact absurd (.inr rfl) he.1

/-- The stream law: whatever was sent on a connection since its accept, once its SYNC_REQUEST
has been processed, makes an empty store equal to the master's. -/
theorem stream_law {s : SyncMaster}
    (hr : Runs.Reach SyncMaster.step Undisturbed (initial true true) s)
    {fd : Int} {c : Conn} (hc : s.connectedNodes[fd]? = some c) (ha : s.answered c = true) :
    Http.sessions (BaseSync.applyAll {} (s.sent c)).httpSessionData =
        Http.sessions s.httpSessionData ∧
      Recent.entries (BaseSync.applyAll {} (s.sent c)).recentData =
        Recent.entries s.recentData := by
  have hserved : Served id true true {} := ⟨.inl rfl,.inl rfl⟩
  have hinv := hr.invariant (fun s => s.Invariant id ∧ s.RecentInput)
    ⟨invariant_initial hserved,by simp [RecentInput, initial]⟩
    fun _ _ _ h he hs => Invariant.step h he hs
  have hview : (BaseSync.applyAll {} (s.sent c)).view = s.view := by
    rw [BaseSync.view_applyAll_empty]
    exact (hinv.1.replicas c ⟨fd,hc⟩).2 ha
  exact ⟨(BaseSync.sessions_eq_iff _ _).mpr fun k => congrFun hview _,
    (BaseSync.entries_eq_iff _ _).mpr fun k => congrFun hview _⟩

/-- A step of the run loop in which every send succeeds. -/
def turn : MasterEvent := .run fun _ => true

/-- A session and an entry, a node that connects and asks, and one more session. -/
def sampleRun : List MasterEvent := [
  .enqueueHttp (Http.addRequest [102] 0 1 ⟨[107],1,[],0⟩),
  .enqueueRecent (Recent.getEntryAsAction [116] { srcIp := [49] } false),
  turn, turn, turn, turn, turn, turn, turn, .accept 5, .receive 5 .syncRequest,
  turn, turn, turn, turn, turn, turn, .enqueueHttp (Http.addRequest [102] 0 1 ⟨[108],1,[],0⟩),
  turn, turn, turn, turn, turn, turn]

def sampleMaster : SyncMaster := (Runs.run SyncMaster.step (initial true true) sampleRun).getD {}

theorem undisturbed_sampleRun (s : SyncMaster) : ∀ e ∈ sampleRun, s.Undisturbed e := by
  intro e he
  refine ⟨?_,fun sends hsends fd _ => ?_⟩
  · revert e
    simp [sampleRun, turn, MasterEvent.IsControl]
  · rw [hsends] at he
    simp only [sampleRun, turn, List.mem_cons, MasterEvent.run.injEq, reduceCtorEq, false_or,
      or_self, List.not_mem_nil, or_false] at he
    rw [he]

theorem sampleMaster_stream_law :
    (Http.sessions sampleMaster.httpSessionData ⟨[102],0,1,[108]⟩ ≠ none ∧
      sampleMaster.answered 0 = true) ∧
    Http.sessions (BaseSync.applyAll {} (sampleMaster.sent 0)).httpSessionData =
        Http.sessions sampleMaster.httpSessionData ∧
      Recent.entries (BaseSync.applyAll {} (sampleMaster.sent 0)).recentData =
        Recent.entries sampleMaster.recentData := by
  have hrun : Runs.run SyncMaster.step (initial true true) sampleRun = some sampleMaster := rfl
  have hnode : sampleMaster.connectedNodes[(5:Int)]? = some 0 := rfl
  exact ⟨⟨by decide,rfl⟩,stream_law (Runs.reach_of_run hrun undisturbed_sampleRun) hnode rfl⟩

end SyncMaster
end Ssyncd
