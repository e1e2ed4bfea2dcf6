import Ssyncd.Codec.Extent
import Ssyncd.Connection.EndOfStream
import Ssyncd.Master.Steps
import Mathlib.Data.List.Perm.Subperm

/-! The receive task of the server and the run loop of the master, each taking one step after the
other's in any order, and the counter of nodes between them. -/
namespace Ssyncd
open SyncMaster
open BasePktParser (Accepts header)

namespace SyncMaster

/-- The packet that the run loop takes in its next step. -/
def taken (s : SyncMaster) : List Request :=
  match s.pc with
  | .poll => s.inputPacketQueue.take 1
  | _ => []

/-- What a step leaves to the others: the queue and the counter. -/
structure Uncounted (s s' : SyncMaster) : Prop where
  inputPacketQueue : s'.inputPacketQueue = s.inputPacketQueue
  backupServersFd : s'.backupServersFd = s.backupServersFd

section
variable (s : SyncMaster)

theorem sendPacket_uncounted (sends : Int → Bool) (m : Message) : Uncounted s (s.sendPacket sends m).1 := by
  obtain ⟨sent',he,-⟩ := sendPacket_spec s sends m
  rw [he]
  exact ⟨rfl,rfl⟩

theorem startHttpSync_uncounted (fd : Int) (conn : Conn) : Uncounted s (s.startHttpSync fd conn) := by
  unfold startHttpSync
  split <;> exact ⟨rfl,rfl⟩

theorem startSync_uncounted (fd : Int) (conn : Conn) : Uncounted s (s.startSync fd conn) := by
  unfold startSync
  split
  · exact ⟨rfl,rfl⟩
  · exact startHttpSync_uncounted s fd conn

theorem startRecentItems_uncounted : Uncounted s s.startRecentItems := by
  unfold startRecentItems
  split <;> exact ⟨rfl,rfl⟩

theorem startItems_uncounted : Uncounted s s.startItems := by
  unfold startItems
  split
  · exact ⟨rfl,rfl⟩
  · split
    · exact ⟨rfl,rfl⟩
    · exact { startRecentItems_uncounted { s with wait := true } with }

theorem httpItem_uncounted (sends : Int → Bool) (maxItems : ℕ) (pkt : Http.HttpAction) :
    Uncounted s (s.httpItem sends maxItems pkt) := by
  unfold httpItem
  split
  · exact { sendPacket_uncounted s sends (.http (Http.clearRequest pkt.farmName)) with }
  · dsimp only
    split
    · exact { sendPacket_uncounted { s with
        toBaseSync := s.toBaseSync.apply (.http pkt)
        pc := .httpItems (maxItems+1) } sends _ with }
    · exact ⟨rfl,rfl⟩

theorem recentItem_uncounted (sends : Int → Bool) (maxItems : ℕ) (pkt : Recent.XtRecentAction) :
    Uncounted s (s.recentItem sends maxItems pkt) := by
  unfold recentItem
  dsimp only
  split
  · exact { sendPacket_uncounted { s with
      toBaseSync := s.toBaseSync.apply (.recent pkt)
      pc := .recentItems (maxItems+1) } sends _ with }
  · exact ⟨rfl,rfl⟩

end

/-- A request counts up, down or not at all. -/
theorem handleRequest_counts (s : SyncMaster) (req : Request) :
    (s.handleRequest req).inputPacketQueue = s.inputPacketQueue ∧
      (s.handleRequest req).backupServersFd =
        s.backupServersFd + pendingOf .connect [req] - pendingOf .disconnect [req] := by
  unfold handleRequest
  rw [pendingOf_singleton, pendingOf_singleton]
  cases htype : req.type with
  | connect => simp
  | disconnect => simp
  | syncRequest =>
    have h := startSync_uncounted s req.fd req.conn
    exact ⟨h.inputPacketQueue,by simp [h.backupServersFd]⟩
  | _ => simp

/-- The packets of the queue that a step has taken, and counted. -/
structure Consumes (s s' : SyncMaster) (requests : List Request) : Prop where
  inputPacketQueue : s.inputPacketQueue = requests ++ s'.inputPacketQueue
  backupServersFd : s'.backupServersFd =
    s.backupServersFd + pendingOf .connect requests - pendingOf .disconnect requests

theorem Uncounted.consumes {s s' : SyncMaster} (h : Uncounted s s') : Consumes s s' [] :=
  ⟨h.inputPacketQueue.symm,by simp [h.backupServersFd, pendingOf]⟩

theorem run_uncounted {s : SyncMaster} (h : s.pc ≠ .poll) (sends : Int → Bool) :
    Uncounted s (s.run sends) := by
  have hsend := fun m => sendPacket_uncounted s sends m
  unfold run
  split
  · contradiction
  · exact startHttpSync_uncounted s _ _
  · next fd conn xaction rest hpc =>
    dsimp only
    split
    · exact { hsend (.recent xaction) with }
    · have hnext := startHttpSync_uncounted (s.sendPacket sends (.recent xaction)).1 fd conn
      exact ⟨hnext.inputPacketQueue.trans (hsend _).inputPacketQueue,
        hnext.backupServersFd.trans (hsend _).backupServersFd⟩
  · exact ⟨rfl,rfl⟩
  · next action rest hpc => exact { hsend (.http action) with }
  · exact { startRecentItems_uncounted { s with httpSessionData := ∅, wait := true } with }
  · next farmName rest hpc => exact { hsend (.http (Http.clearRequest farmName)) with }
  · split
    · exact { startRecentItems_uncounted { s with wait := false } with }
    · split
      · exact { startRecentItems_uncounted { s with wait := true } with }
      · next pkt rest hinput =>
        exact { httpItem_uncounted { s with httpInput := rest } sends _ pkt with }
  · split
    · exact ⟨rfl,rfl⟩
    · split
      · exact ⟨rfl,rfl⟩
      · next pkt rest hinput =>
        exact { recentItem_uncounted { s with recentInput := rest } sends _ pkt with }

/-- A step of the run loop takes at most one packet, from the front. -/
theorem run_consumes (s : SyncMaster) (sends : Int → Bool) : Consumes s (s.run sends) s.taken := by
  by_cases hpoll : s.pc = .poll
  · have htaken : s.taken = s.inputPacketQueue.take 1 := by rw [taken, hpoll]
    rw [htaken]
    unfold run
    split
    · cases hqueue : s.inputPacketQueue with
      | nil =>
        dsimp only
        split
        · exact Uncounted.consumes ⟨hqueue.symm,rfl⟩
        · exact (startItems_uncounted s).consumes
      | cons req rest =>
        obtain ⟨hrest,hcount⟩ := handleRequest_counts { s with inputPacketQueue := rest } req
        refine ⟨?_,hcount⟩
        rw [hqueue]
        exact congrArg (List.cons req) hrest.symm
    all_goals next hpc => rw [hpoll] at hpc; contradiction
  · have htaken : s.taken = [] := by
      unfold taken
      split
      · contradiction
      · rfl
    rw [htaken]
    exact (run_uncounted hpoll sends).consumes

/-- The connections that packets of this type are about. -/
def connsOf (type : PacketType) (log : List Request) : List Conn :=
  (log.filter fun req => req.type = type).map (·.conn)

/-- A log of the queue: each connection is named as it is accepted and as it is closed, once and in
this order, and the connected ones have not been closed. -/
structure Logged (nodes : Nodes) (log : List Request) (nextConn : Conn) : Prop where
  numbered : Numbered nodes nextConn
  old : ∀ req ∈ log, req.conn < nextConn
  connected : ∀ c, Connected nodes c → c ∈ connsOf .connect log ∧ c ∉ connsOf .disconnect log
  once : (connsOf .disconnect log).Nodup
  ordered : ∀ before after, log = before ++ after →
    ∀ c ∈ connsOf .disconnect before, c ∈ connsOf .connect before

section Log
variable {nodes : Nodes} {log : List Request} {nextConn : Conn}

theorem connsOf_append (type : PacketType) (log log' : List Request) :
    connsOf type (log ++ log') = connsOf type log ++ connsOf type log' := by
  simp [connsOf]

theorem connsOf_singleton (type : PacketType) (req : Request) :
    connsOf type [req] = if req.type = type then [req.conn] else [] := by
  by_cases h : req.type = type <;> simp [connsOf, h]

theorem length_connsOf (type : PacketType) (log : List Request) :
    (connsOf type log).length = pendingOf type log := by
  simp [connsOf, pendingOf, List.countP_eq_length_filter]

theorem mem_connsOf {type : PacketType} {log : List Request} {c : Conn} :
    c ∈ connsOf type log ↔ ∃ req ∈ log, req.type = type ∧ req.conn = c := by
  simp [connsOf, and_assoc]

theorem Logged.not_mem_connsOf (h : Logged nodes log nextConn) (type : PacketType) :
    nextConn ∉ connsOf type log := by
  intro hmem
  obtain ⟨req,hreq,-,hconn⟩ := mem_connsOf.mp hmem
  have hold := h.old req hreq
  rw [hconn] at hold
  exact absurd hold (Nat.lt_irrefl nextConn)

/-- An order that holds up to the last packet holds with it, if it is no close before an accept. -/
theorem ordered_concat {req : Request}
    (h : ∀ before after, log = before ++ after →
      ∀ c ∈ connsOf .disconnect before, c ∈ connsOf .connect before)
    (hreq : req.type = .disconnect → req.conn ∈ connsOf .connect log) :
    ∀ before after, log ++ [req] = before ++ after →
      ∀ c ∈ connsOf .disconnect before, c ∈ connsOf .connect before := by
  intro before after heq c hc
  rcases after.eq_nil_or_concat with rfl | ⟨after,last,rfl⟩
  · rw [List.append_nil] at heq
    rw [← heq, connsOf_append, List.mem_append] at hc ⊢
    rcases hc with hc | hc
    · exact .inl (h log [] (List.append_nil log).symm c hc)
    · rw [connsOf_singleton] at hc
      split at hc
      · next htype => exact .inl (List.mem_singleton.mp hc ▸ hreq htype)
      · exact absurd hc List.not_mem_nil
  · rw [List.concat_eq_append, ← List.append_assoc] at heq
    exact h before after (List.append_inj_left' heq rfl) c hc

theorem old_concat {req : Request} (h : ∀ r ∈ log, r.conn < nextConn) (hreq : req.conn < nextConn) :
    ∀ r ∈ log ++ [req], r.conn < nextConn := by
  intro r hr
  rcases List.mem_append.mp hr with hr | hr
  · exact h r hr
  · rw [List.mem_singleton.mp hr]
    exact hreq

theorem Logged.accept (h : Logged nodes log nextConn) {fd : Int} (hpos : 0 ≤ fd) (hfd : fd ∉ nodes) :
    Logged (nodes.insert fd nextConn) (log ++ [⟨.connect,fd,nextConn⟩]) (nextConn+1) where
  numbered := h.numbered.accept hpos hfd
  old := old_concat (fun req hreq => Nat.lt_succ_of_lt (h.old req hreq)) (Nat.lt_succ_self nextConn)
  connected c hc := by
    rw [connsOf_append, connsOf_append, connsOf_singleton, connsOf_singleton, if_pos rfl,
      if_neg (by simp), List.append_nil]
    rcases (connected_insert hfd).mp hc with rfl | hc
    · exact ⟨by simp,h.not_mem_connsOf .disconnect⟩
    · obtain ⟨hin,hout⟩ := h.connected c hc
      exact ⟨List.mem_append_left _ hin,hout⟩
  once := by
    rw [connsOf_append, connsOf_singleton, if_neg (by simp), List.append_nil]
    exact h.once
  ordered := ordered_concat h.ordered nofun

theorem Logged.close (h : Logged nodes log nextConn) {fd : Int} {c : Conn} (hc : nodes[fd]? = some c) :
    Logged (nodes.erase fd) (log ++ [⟨.disconnect,fd,c⟩]) nextConn where
  numbered := h.numbered.close fd
  old := old_concat h.old (h.numbered.old c ⟨fd,hc⟩)
  connected c' hc' := by
    obtain ⟨hin,hout⟩ := h.connected c' (connected_erase hc')
    rw [connsOf_append, connsOf_append, connsOf_singleton, connsOf_singleton, if_pos rfl,
      if_neg (by simp), List.append_nil, List.mem_append, List.mem_singleton]
    refine ⟨hin,not_or.mpr ⟨hout,?_⟩⟩
    rintro rfl
    obtain ⟨fd',hfd'⟩ := hc'
    obtain rfl := h.numbered.inj fd fd' _ hc (getElem?_erase_some hfd')
    simp at hfd'
  once := by
    rw [connsOf_append, connsOf_singleton, if_pos rfl]
    refine List.nodup_append.mpr ⟨h.once,by simp,?_⟩
    rintro a ha b hb rfl
    rw [List.mem_singleton.mp hb] at ha
    exact (h.connected c ⟨fd,hc⟩).2 ha
  ordered := ordered_concat h.ordered fun _ => (h.connected c ⟨fd,hc⟩).1

theorem Logged.receive (h : Logged nodes log nextConn) {req : Request} (hc : Connected nodes req.conn)
    (hcon : req.type ≠ .connect) (hdis : req.type ≠ .disconnect) : Logged nodes (log ++ [req]) nextConn where
  numbered := h.numbered
  old := old_concat h.old (h.numbered.old req.conn hc)
  connected c hc := by
    rw [connsOf_append, connsOf_append, connsOf_singleton, connsOf_singleton, if_neg hcon,
      if_neg hdis, List.append_nil, List.append_nil]
    exact h.connected c hc
  once := by
    rw [connsOf_append, connsOf_singleton, if_neg hdis, List.append_nil]
    exact h.once
  ordered := ordered_concat h.ordered fun htype => absurd htype hdis

/-- Of the first packets of a log, no more are closes than accepts; and fewer are, where one of these
connections has not been closed. -/
theorem Logged.disconnects_le {consumed queue : List Request}
    (h : Logged nodes (consumed ++ queue) nextConn) :
    pendingOf .disconnect consumed ≤ pendingOf .connect consumed ∧
      ∀ c ∈ connsOf .connect consumed, c ∉ connsOf .disconnect consumed →
        pendingOf .disconnect consumed < pendingOf .connect consumed := by
  have hsub := h.ordered consumed queue rfl
  have honce : (connsOf .disconnect consumed).Nodup := by
    have hall := h.once
    rw [connsOf_append] at hall
    exact (List.nodup_append.mp hall).1
  rw [← length_connsOf, ← length_connsOf]
  refine ⟨(List.subperm_of_subset honce hsub).length_le,fun c hin hout => ?_⟩
  have hcons : (c::connsOf .disconnect consumed).Nodup := List.nodup_cons.mpr ⟨hout,honce⟩
  exact (List.subperm_of_subset hcons (List.cons_subset.mpr ⟨hin,hsub⟩)).length_le

end Log

/-- The master with the packets that its run loop has taken: the counter is that of the nodes, once
those in the queue are counted too. -/
structure Tallied (s : SyncMaster) (consumed : List Request) : Prop where
  counted : Counted s.connectedNodes s.inputPacketQueue s.backupServersFd
  logged : Logged s.connectedNodes (consumed ++ s.inputPacketQueue) s.nextConn
  tally : s.backupServersFd = pendingOf .connect consumed - pendingOf .disconnect consumed

theorem Tallied.nonneg {s : SyncMaster} {consumed : List Request} (h : Tallied s consumed) :
    0 ≤ s.backupServersFd := by
  have hle := h.logged.disconnects_le.1
  rw [h.tally]
  omega

theorem Tallied.pos {s : SyncMaster} {consumed : List Request} (h : Tallied s consumed) {c : Conn}
    (hin : c ∈ connsOf .connect consumed) (hout : c ∉ connsOf .disconnect consumed) :
    0 < s.backupServersFd := by
  have hlt := h.logged.disconnects_le.2 c hin hout
  rw [h.tally]
  omega

end SyncMaster

/-- Only a step of the run loop takes packets. -/
def MasterEvent.taken (s : SyncMaster) : MasterEvent → List Request
  | run _ => s.taken
  | _ => []

namespace SyncMaster

theorem Tallied.append_nil {s : SyncMaster} {consumed : List Request} (h : Tallied s consumed) :
    Tallied s (consumed ++ []) := by
  rwa [List.append_nil]

theorem Tallied.receive {s s' : SyncMaster} {consumed : List Request} (h : Tallied s consumed)
    {req : Request} (hc : Connected s.connectedNodes req.conn) (hcon : req.type ≠ .connect)
    (hdis : req.type ≠ .disconnect)
    (hs : s' = { s with inputPacketQueue := s.inputPacketQueue ++ [req] }) : Tallied s' consumed := by
  subst hs
  refine ⟨h.counted.receive hcon hdis,?_,h.tally⟩
  rw [← List.append_assoc]
  exact h.logged.receive hc hcon hdis

theorem Tallied.run {s : SyncMaster} {consumed : List Request} (h : Tallied s consumed)
    (sends : Int → Bool) : Tallied (s.run sends) (consumed ++ s.taken) := by
  have hframe := run_frame s sends
  have htakes := run_consumes s sends
  refine ⟨?_,?_,?_⟩
  · have hcounted := h.counted
    unfold Counted at hcounted ⊢
    rw [htakes.inputPacketQueue, pendingOf_append, pendingOf_append] at hcounted
    rw [hframe.connectedNodes, htakes.backupServersFd]
    omega
  · rw [List.append_assoc, ← htakes.inputPacketQueue, hframe.connectedNodes, hframe.nextConn]
    exact h.logged
  · rw [htakes.backupServersFd, h.tally, pendingOf_append, pendingOf_append]
    omega

/-- No step of the master loses count. -/
theorem Tallied.step {s s' : SyncMaster} {consumed : List Request} (h : Tallied s consumed)
    {e : MasterEvent} (hstep : s.step e = some s') : Tallied s' (consumed ++ e.taken s) := by
  cases e with
  | accept fd =>
    unfold SyncMaster.step at hstep
    dsimp only at hstep
    split at hstep
    · next hfd =>
      obtain rfl := Option.some.inj hstep
      refine Tallied.append_nil ?_
      refine ⟨h.counted.accept hfd.2 _,?_,h.tally⟩
      rw [← List.append_assoc]
      exact h.logged.accept hfd.1 hfd.2
    · contradiction
  | receive fd type =>
    unfold SyncMaster.step at hstep
    dsimp only at hstep
    split at hstep
    · next c hc =>
      split at hstep
      · next htype =>
        refine Tallied.append_nil ?_
        exact h.receive ⟨fd,hc⟩ htype.1 htype.2 (Option.some.inj hstep).symm
      · contradiction
    · contradiction
  | close fd =>
    unfold SyncMaster.step at hstep
    dsimp only at hstep
    split at hstep
    · next c hc =>
      obtain rfl := Option.some.inj hstep
      refine Tallied.append_nil ?_
      refine ⟨h.counted.close hc,?_,h.tally⟩
      rw [← List.append_assoc]
      exact h.logged.close hc
    · contradiction
  | enqueueRecent pkt =>
    unfold SyncMaster.step at hstep
    dsimp only at hstep
    split at hstep
    · obtain rfl := Option.some.inj hstep
      refine Tallied.append_nil ?_
      exact { h with }
    · contradiction
  | run sends =>
    obtain rfl := Option.some.inj hstep
    exact h.run sends
  | enqueueHttp pkt | stopRecentSync | startRecentSync =>
    obtain rfl := Option.some.inj hstep
    refine Tallied.append_nil ?_
    exact { h with }

end SyncMaster

/-- What the run loop reads of a received packet; of a type that has no name it reads nothing. -/
def Packet.request (pkt : Packet) (fd : Int) (conn : Conn) : Request where
  type := match pkt.toConnPacket.type with
    | .named type => type
    | .unnamed _ _ => .generic
  fd
  conn

/-- The master with what its receive task keeps of each node: the data of its descriptor, and the
bytes that wait on its socket. `draining` is the node in whose loop over the packets the task is. The
last field is not in the code: the packets that the run loop has taken. -/
structure Server extends SyncMaster where
  data : Int → ConnectionEventData
  sockets : Int → List Bytes := fun _ => []
  draining : Option (Int × Conn) := none
  consumed : List Request := []

/-- Accepts, wake-ups of connected nodes, turns of the loop that deserializes, and what is not the
receive task's. -/
inductive ServerEvent
  | accept (fd : Int) (buffer : Memory)
  | wake (fd : Int) (event : EpollEvent)
  | turn
  | master (e : MasterEvent)

namespace Server

def accept (s : Server) (fd : Int) (buffer : Memory) : Option Server :=
  (s.toSyncMaster.step (.accept fd)).map fun m =>
    { s with
      toSyncMaster := m
      data := Function.update s.data fd { fd, buffer, bufferSize := 0 }
      sockets := Function.update s.sockets fd [] }

def close (s : Server) (fd : Int) : Option Server :=
  (s.toSyncMaster.step (.close fd)).map fun m => { s with toSyncMaster := m }

/-- One wake-up, up to the loop over the packets. -/
def wake (s : Server) (fd : Int) (conn : Conn) (event : EpollEvent) : Option Server :=
  if event.epollin then
    match (s.data fd).clearHeader.recvAll event.ending (s.sockets fd ++ event.chunks) with
    | (d,socket,.failed) =>
      some { s with data := Function.update s.data fd d, sockets := Function.update s.sockets fd socket }
    | (_,_,.closed) => s.close fd
    | (d,socket,.again) =>
      some { s with
        data := Function.update s.data fd d
        sockets := Function.update s.sockets fd socket
        draining := some (fd,conn) }
  else if event.hangup then s.close fd
  else some { s with sockets := Function.update s.sockets fd (s.sockets fd ++ event.chunks) }

/-- One turn of the loop: a packet goes to the queue, and its bytes where they leave room. -/
def turn (s : Server) (fd : Int) (conn : Conn) : Server :=
  let d := s.data fd
  match PktParser.deserialize d.buffer d.bufferSize with
  | none => { s with draining := none }
  | some (newPacket,bufferUsed) =>
    let d := if bufferUsed ≤ d.freeSpace then d.shift bufferUsed else d
    { s with
      inputPacketQueue := s.inputPacketQueue ++ [newPacket.request fd conn]
      data := Function.update s.data fd d
      draining := if d.bufferSize < 5 then none else s.draining }

def step (s : Server) : ServerEvent → Option Server
  | .accept fd buffer => if s.draining.isNone then s.accept fd buffer else none
  | .wake fd event =>
    match s.draining, s.connectedNodes[fd]? with
    | none, some conn => s.wake fd conn event
    | _, _ => none
  | .turn => s.draining.map fun (fd,conn) => s.turn fd conn
  | .master e =>
    match e with
    | .accept _ | .receive _ _ | .close _ => none
    | e => (s.toSyncMaster.step e).map fun m =>
      { s with toSyncMaster := m, consumed := s.consumed ++ e.taken s.toSyncMaster }

/-- The server before its first node. -/
def start (s : SyncMaster) (data : Int → ConnectionEventData) : Server where
  toBaseSync := s.toBaseSync
  httpRunning := s.httpRunning
  recentRunning := s.recentRunning
  httpInput := s.httpInput
  recentInput := s.recentInput
  data

/-- The counter against the nodes. -/
structure Matches (s : Server) : Prop where
  counted : Counted s.connectedNodes s.inputPacketQueue s.backupServersFd
  nonneg : 0 ≤ s.backupServersFd
  pos : ∀ c ∈ connsOf .connect s.consumed, c ∉ connsOf .disconnect s.consumed → 0 < s.backupServersFd

/-- A frame that is read is not of the types of the server's own packets. -/
def Genuine (s : Server) (e : ServerEvent) : Prop :=
  e = .turn → ∀ fd conn, s.draining = some (fd,conn) → Accepts (s.data fd).buffer (s.data fd).bufferSize →
    (header (s.data fd).buffer).type ≠ .named .connect ∧
      (header (s.data fd).buffer).type ≠ .named .disconnect

/-- The counter is right, and the node whose packets are read is connected. -/
structure Inv (s : Server) : Prop where
  tallied : Tallied s.toSyncMaster s.consumed
  draining : ∀ fd conn, s.draining = some (fd,conn) → s.connectedNodes[fd]? = some conn

theorem inv_start (s : SyncMaster) (data : Int → ConnectionEventData) : Inv (start s data) := by
  have hnone : ∀ (fd : Int) (c : Conn), (∅ : Nodes)[fd]? ≠ some c := by simp
  have hlogged : Logged ∅ [] 0 := by
    refine ⟨⟨?_,?_,?_⟩,nofun,?_,List.nodup_nil,?_⟩
    · exact fun fd c hc => absurd hc (hnone fd c)
    · exact fun c ⟨fd,hc⟩ => absurd hc (hnone fd c)
    · exact fun fd _ c hc => absurd hc (hnone fd c)
    · exact fun c ⟨fd,hc⟩ => absurd hc (hnone fd c)
    · intro before after heq c hc
      rw [(List.append_eq_nil_iff.mp heq.symm).1] at hc
      exact absurd hc List.not_mem_nil
  refine ⟨⟨?_,hlogged,rfl⟩,nofun⟩
  change ((0 : Int) + ((0 : ℕ) : Int) - ((0 : ℕ) : Int) = (((∅ : Nodes).size : ℕ) : Int))
  simp

section
variable {s s' : Server} {fd : Int} {conn : Conn}

theorem Inv.matches (h : s.Inv) : s.Matches where
  counted := h.tallied.counted
  nonneg := h.tallied.nonneg
  pos _ hin hout := h.tallied.pos hin hout

/-- Between two loops over packets the nodes may change. -/
theorem Inv.idle (h : s.Inv) (hidle : s.draining = none) {e : MasterEvent} {m : SyncMaster}
    (hm : s.toSyncMaster.step e = some m) (htaken : e.taken s.toSyncMaster = [])
    (data : Int → ConnectionEventData) (sockets : Int → List Bytes) :
    Inv { s with toSyncMaster := m, data, sockets } := by
  have htallied := h.tallied.step hm
  rw [htaken, List.append_nil] at htallied
  refine ⟨htallied,fun fd conn hd => ?_⟩
  rw [hidle] at hd
  contradiction

theorem Inv.accept (h : s.Inv) (hidle : s.draining = none) {buffer : Memory}
    (hs : s.accept fd buffer = some s') : s'.Inv := by
  obtain ⟨m,hm,rfl⟩ := Option.map_eq_some_iff.mp hs
  exact h.idle hidle hm rfl _ _

theorem Inv.close (h : s.Inv) (hidle : s.draining = none) (hs : s.close fd = some s') : s'.Inv := by
  obtain ⟨m,hm,rfl⟩ := Option.map_eq_some_iff.mp hs
  exact h.idle hidle hm rfl _ _

/-- A wake-up ends the connection, or leaves the queue as it is. -/
theorem Inv.wake (h : s.Inv) (hidle : s.draining = none) (hconn : s.connectedNodes[fd]? = some conn)
    {event : EpollEvent} (hs : s.wake fd conn event = some s') : s'.Inv := by
  have hkept : ∀ data sockets, Inv { s with data, sockets } := fun _ _ => { h with }
  unfold Server.wake at hs
  split at hs
  · split at hs
    · obtain rfl := Option.some.inj hs
      exact hkept _ _
    · exact h.close hidle hs
    · obtain rfl := Option.some.inj hs
      refine ⟨h.tallied,fun fd' conn' hd => ?_⟩
      obtain ⟨rfl,rfl⟩ := Prod.mk.inj (Option.some.inj hd)
      exact hconn
  · split at hs
    · exact h.close hidle hs
    · obtain rfl := Option.some.inj hs
      exact hkept _ _

/-- One turn leaves the queue as it is, or puts a packet there of the type that the header says. -/
theorem turn_cases (s : Server) (fd : Int) (conn : Conn) :
    (PktParser.deserialize (s.data fd).buffer (s.data fd).bufferSize = none ∧
        s.turn fd conn = { s with draining := none }) ∨
      ∃ (pkt : Packet) (data : Int → ConnectionEventData) (draining : Option (Int × Conn)),
        (draining = none ∨ draining = s.draining) ∧
        Accepts (s.data fd).buffer (s.data fd).bufferSize ∧
        pkt.toConnPacket.type = (header (s.data fd).buffer).type ∧
        s.turn fd conn = { s with
          inputPacketQueue := s.inputPacketQueue ++ [pkt.request fd conn], data, draining } := by
  unfold turn
  dsimp only
  cases hread : PktParser.deserialize (s.data fd).buffer (s.data fd).bufferSize with
  | none => exact .inl ⟨rfl,rfl⟩
  | some r =>
    obtain ⟨pkt,used⟩ := r
    have hacc : Accepts (s.data fd).buffer (s.data fd).bufferSize := by
      rw [PktParser.deserialize_eq_ite] at hread
      split at hread
      · next h => exact h.1
      · contradiction
    exact .inr ⟨pkt,_,_,ite_eq_or_eq _ _ _,hacc,PktParser.type_deserialize hread,rfl⟩

theorem request_type (pkt : Packet) (fd : Int) (conn : Conn) {type : PacketType} (h : type ≠ .generic) :
    (pkt.request fd conn).type = type ↔ pkt.toConnPacket.type = .named type := by
  rw [Packet.request]
  cases pkt.toConnPacket.type with
  | named t => simp
  | unnamed b hb => simpa using h.symm

theorem Inv.turn (h : s.Inv) (hdraining : s.draining = some (fd,conn)) (hok : Genuine s .turn) :
    (s.turn fd conn).Inv := by
  have hconn := h.draining fd conn hdraining
  have hnext : ∀ draining, draining = none ∨ draining = s.draining →
      ∀ fd' conn', draining = some (fd',conn') → s.connectedNodes[fd']? = some conn' := by
    rintro draining (rfl | rfl) fd' conn' hd
    · contradiction
    · exact h.draining fd' conn' hd
  rcases turn_cases s fd conn with ⟨-,heq⟩ | ⟨pkt,data,draining,hd,hacc,htype,heq⟩
  · rw [heq]
    exact ⟨h.tallied,nofun⟩
  · obtain ⟨hcon,hdis⟩ := hok rfl fd conn hdraining hacc
    rw [← htype, Ne, ← request_type pkt fd conn (by decide)] at hcon hdis
    rw [heq]
    exact ⟨h.tallied.receive ⟨fd,hconn⟩ hcon hdis rfl,hnext draining hd⟩

/-- What is not the receive task's leaves the nodes as they are. -/
theorem Inv.master (h : s.Inv) {e : MasterEvent} (hs : s.step (.master e) = some s') : s'.Inv := by
  have hother : ∀ m, s.toSyncMaster.step e = some m → m.connectedNodes = s.connectedNodes →
      s' = { s with toSyncMaster := m, consumed := s.consumed ++ e.taken s.toSyncMaster } → s'.Inv := by
    rintro m hm hnodes rfl
    refine ⟨h.tallied.step hm,fun fd conn hd => ?_⟩
    rw [hnodes]
    exact h.draining fd conn hd
  unfold Server.step at hs
  cases e with
  | accept | receive | close => contradiction
  | run sends => exact hother _ rfl (run_frame s.toSyncMaster sends).connectedNodes (Option.some.inj hs).symm
  | enqueueRecent pkt =>
    obtain ⟨m,hm,rfl⟩ := Option.map_eq_some_iff.mp hs
    refine hother m hm ?_ rfl
    unfold SyncMaster.step at hm
    dsimp only at hm
    split at hm
    · rw [← Option.some.inj hm]
    · contradiction
  | enqueueHttp | stopRecentSync | startRecentSync => exact hother _ rfl rfl (Option.some.inj hs).symm

/-- Every step keeps the counter right, if no frame of a node passes for an accept or a close. -/
theorem Inv.step (h : s.Inv) {e : ServerEvent} (hok : Genuine s e) (hs : s.step e = some s') : s'.Inv := by
  cases e with
  | accept fd buffer =>
    rw [Server.step] at hs
    split at hs
    · next hidle => exact h.accept (Option.isNone_iff_eq_none.mp hidle) hs
    · contradiction
  | wake fd event =>
    rw [Server.step] at hs
    split at hs
    · next conn hidle hconn => exact h.wake hidle hconn hs
    · contradiction
  | turn =>
    obtain ⟨⟨fd,conn⟩,hdraining,rfl⟩ := Option.map_eq_some_iff.mp hs
    exact h.turn hdraining hok
  | master e => exact h.master hs

/-- A frame that passes for one is counted as one. -/
theorem not_matches_of_not_genuine (h : s.Inv) {e : ServerEvent} (hforged : ¬Genuine s e) :
    ∃ s', s.step e = some s' ∧ ¬s'.Matches := by
  unfold Genuine at hforged
  push Not at hforged
  obtain ⟨rfl,fd,conn,hdraining,hacc,htype⟩ := hforged
  refine ⟨s.turn fd conn,by rw [Server.step, hdraining]; rfl,fun hmatches => ?_⟩
  have hcounted := hmatches.counted
  have hbefore := h.tallied.counted
  rcases turn_cases s fd conn with ⟨hnone,-⟩ | ⟨pkt,data,draining,-,-,hpkt,heq⟩
  · -- the packets of both types have no body to wait for
    rw [PktParser.deserialize_eq_ite, if_pos] at hnone
    · contradiction
    · refine ⟨hacc,?_⟩
      by_cases hcon : (header (s.data fd).buffer).type = .named .connect
      · rw [hcon]
        decide
      · rw [htype hcon]
        decide
  · rw [heq] at hcounted
    unfold Counted at hcounted hbefore
    rw [pendingOf_append, pendingOf_append, pendingOf_singleton, pendingOf_singleton] at hcounted
    have hcon := request_type pkt fd conn (show PacketType.connect ≠ .generic by decide)
    have hdis := request_type pkt fd conn (show PacketType.disconnect ≠ .generic by decide)
    rw [hpkt] at hcon hdis
    by_cases hconnect : (header (s.data fd).buffer).type = .named .connect
    · have hno : (pkt.request fd conn).type ≠ .disconnect := by
        rw [hcon.mpr hconnect]
        decide
      rw [if_pos (hcon.mpr hconnect), if_neg hno] at hcounted
      dsimp only at hcounted
      omega
    · rw [if_neg fun hreq => hconnect (hcon.mp hreq), if_pos (hdis.mpr (htype hconnect))] at hcounted
      dsimp only at hcounted
      omega

end

/-- The counter matches the connected nodes, and is not negative, all along exactly the runs in which no
node sends a frame of the type CONNECT or DISCONNECT. -/
theorem counter_matches_iff (s : SyncMaster) (data : Int → ConnectionEventData)
    (events : List ServerEvent) :
    Runs.Always step Matches (start s data) events ↔ Runs.Meets step Genuine (start s data) events :=
  Runs.always_iff_meets Inv (fun _ h => h.matches) (fun _ _ _ h hok hs => h.step hok hs)
    (fun _ _ h hforged => not_matches_of_not_genuine h hforged) (inv_start s data)

instance (nodes : Nodes) (queue : List Request) (n : Int) : Decidable (Counted nodes queue n) :=
  inferInstanceAs (Decidable (_ = _))

/-- A node connects and sends the five bytes of a DISCONNECT, and the run loop takes both packets. -/
def forgedDisconnect : List ServerEvent :=
  [.accept 7 fun _ => 0,.wake 7 { epollin := true, chunks := [[0xef,0xab,2,5,0]] },.turn,
    .master (.run fun _ => true),.master (.run fun _ => true)]

def noNodes : Server := start {} fun fd => { fd, buffer := fun _ => 0, bufferSize := 0 }

/-- The node is connected, and the counter is zero: nothing is sent to it any more. -/
theorem forgedDisconnect_stops :
    ¬Runs.Always step Matches noNodes forgedDisconnect ∧
      (Runs.run step noNodes forgedDisconnect).map (fun s => (s.connectedNodes.size,s.backupServersFd)) =
        some (1,0) := by
  refine ⟨fun h => ?_,by decide⟩
  have hturn := (((h.2 _ rfl).2 _ rfl).2 _ rfl).1.counted
  exact absurd hturn (by decide)

end Server
end Ssyncd
