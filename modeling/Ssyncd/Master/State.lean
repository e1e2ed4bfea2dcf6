import Ssyncd.Store.BaseSync

/-! The master: its connected nodes and queues, and the steps of its run loop. One step takes
one packet from the queue, sends one message of a snapshot, or applies and forwards one item;
accepts, closes and arrivals may come between any two steps. -/
namespace Ssyncd
open Http Recent

/-- Connections are numbered as they are accepted; descriptors are used again. -/
abbrev Conn := ℕ

def Message.fd : Message → Int
  | http action => action.fd
  | recent xaction => xaction.fd

/-- What the run loop reads of a queued packet, and the connection it came from. -/
structure Request where
  type : PacketType
  fd : Int
  conn : Conn
  deriving DecidableEq

/-- Where the run loop stands. -/
inductive MasterPc
  | poll
  | handleRecentSync (fd : Int) (conn : Conn) (rest : List XtRecentAction)
  | handleHttpSync (fd : Int) (conn : Conn) (rest : List HttpAction)
  | clearFarms (rest : List Bytes)
  | httpItems (maxItems : ℕ)
  | recentItems (maxItems : ℕ)
  deriving DecidableEq

/-- The last three fields are not in the code: the next connection's number, the messages sent
on each connection, and the connections whose SYNC_REQUEST has been processed. -/
structure SyncMaster extends BaseSync where
  connectedNodes : Std.ExtTreeMap Int Conn := ∅
  inputPacketQueue : List Request := []
  backupServersFd : Int := 0
  httpInput : List HttpAction := []
  recentInput : List XtRecentAction := []
  httpRunning : Bool := true
  recentRunning : Bool := true
  wait : Bool := true
  pc : MasterPc := .poll
  nextConn : Conn := 0
  sent : Conn → List Message := fun _ => []
  answered : Conn → Bool := fun _ => false

namespace SyncMaster

/-- The nodes that a broadcast reaches: it stops at the first send that fails. -/
def reached (s : SyncMaster) (sends : Int → Bool) : List (Int × Conn) :=
  s.connectedNodes.toList.takeWhile fun node => sends node.1

/-- `sends` tells for each descriptor whether a send on it succeeds. -/
def sendPacket (s : SyncMaster) (sends : Int → Bool) (m : Message) : SyncMaster × Bool :=
  if s.connectedNodes.isEmpty then (s,false)
  else if m.fd = -1 then
    let nodes := s.reached sends
    ({ s with sent := fun c => if nodes.any fun node => node.2 == c then s.sent c ++ [m] else s.sent c },
      nodes.length = s.connectedNodes.size)
  else if !sends m.fd then (s,false)
  else
    match s.connectedNodes[m.fd]? with
    | some node =>
      ({ s with sent := fun c => if c = node then s.sent c ++ [m] else s.sent c },true)
    | none => (s,true)

def startHttpSync (s : SyncMaster) (fd : Int) (conn : Conn) : SyncMaster :=
  if s.httpRunning then
    { s with pc := .handleHttpSync fd conn (s.toBaseSync.httpRequests fd) }
  else { s with pc := .poll, answered := fun c => c = conn || s.answered c }

def startSync (s : SyncMaster) (fd : Int) (conn : Conn) : SyncMaster :=
  if s.recentRunning then
    { s with pc := .handleRecentSync fd conn (s.toBaseSync.recentRequests fd) }
  else s.startHttpSync fd conn

def handleRequest (s : SyncMaster) (req : Request) : SyncMaster :=
  match req.type with
  | .connect => { s with backupServersFd := s.backupServersFd + 1 }
  | .disconnect => { s with backupServersFd := s.backupServersFd - 1 }
  | .syncRequest => s.startSync req.fd req.conn
  | _ => s

def startRecentItems (s : SyncMaster) : SyncMaster :=
  if s.recentRunning then { s with pc := .recentItems 0 } else { s with pc := .poll }

def startItems (s : SyncMaster) : SyncMaster :=
  if !s.httpRunning && !s.httpSessionData.isEmpty then
    { s with pc := .clearFarms s.httpSessionData.keys }
  else if s.httpRunning then { s with pc := .httpItems 0 }
  else { s with wait := true }.startRecentItems

/-- A farm's marker clears the farm everywhere; an action is applied, then forwarded. -/
def httpItem (s : SyncMaster) (sends : Int → Bool) (maxItems : ℕ) (pkt : HttpAction) : SyncMaster :=
  if pkt.type = .named .connect ∨ pkt.type = .named .disconnect then
    let s := (s.sendPacket sends (.http (clearRequest pkt.farmName))).1
    { s with toBaseSync := s.toBaseSync.clearFarm pkt.farmName }
  else
    let s := { s with toBaseSync := s.toBaseSync.apply (.http pkt), pc := .httpItems (maxItems+1) }
    if 0 < s.backupServersFd then (s.sendPacket sends (.http { pkt with fd := -1 })).1 else s

def recentItem (s : SyncMaster) (sends : Int → Bool) (maxItems : ℕ) (pkt : XtRecentAction) :
    SyncMaster :=
  let s := { s with toBaseSync := s.toBaseSync.apply (.recent pkt), pc := .recentItems (maxItems+1) }
  if 0 < s.backupServersFd then (s.sendPacket sends (.recent pkt)).1 else s

/-- One step of the run loop. -/
def run (s : SyncMaster) (sends : Int → Bool) : SyncMaster :=
  match s.pc with
  | .poll =>
    match s.inputPacketQueue with
    | req::rest => { s with inputPacketQueue := rest }.handleRequest req
    | [] =>
      if s.wait || (!s.recentRunning && !s.httpRunning) then { s with wait := false }
      else s.startItems
  | .handleRecentSync fd conn [] => s.startHttpSync fd conn
  | .handleRecentSync fd conn (xaction::rest) =>
    let (s,ok) := s.sendPacket sends (.recent xaction)
    if ok then { s with pc := .handleRecentSync fd conn rest } else s.startHttpSync fd conn
  | .handleHttpSync _ conn [] =>
    { s with pc := .poll, answered := fun c => c = conn || s.answered c }
  | .handleHttpSync fd conn (action::rest) =>
    { (s.sendPacket sends (.http action)).1 with pc := .handleHttpSync fd conn rest }
  | .clearFarms [] => { s with httpSessionData := ∅, wait := true }.startRecentItems
  | .clearFarms (farmName::rest) =>
    { (s.sendPacket sends (.http (clearRequest farmName))).1 with pc := .clearFarms rest }
  | .httpItems maxItems =>
    if maxItems = 10 then { s with wait := false }.startRecentItems
    else
      match s.httpInput with
      | [] => { s with wait := true }.startRecentItems
      | pkt::rest => { s with httpInput := rest }.httpItem sends maxItems pkt
  | .recentItems maxItems =>
    if maxItems = 10 then { s with wait := false, pc := .poll }
    else
      match s.recentInput with
      | [] => { s with pc := .poll }
      | pkt::rest => { s with recentInput := rest }.recentItem sends maxItems pkt

end SyncMaster

/-- What happens at a master: its receive thread, its listeners, its run loop and the control
commands for the recent tables. -/
inductive MasterEvent
  | accept (fd : Int)
  | receive (fd : Int) (type : PacketType)
  | close (fd : Int)
  | enqueueHttp (pkt : HttpAction)
  | enqueueRecent (pkt : XtRecentAction)
  | run (sends : Int → Bool)
  | stopRecentSync
  | startRecentSync

def MasterEvent.IsControl (e : MasterEvent) : Prop :=
  e = stopRecentSync ∨ e = startRecentSync

namespace SyncMaster

/-- A node sends no CONNECT or DISCONNECT of its own, and the recent listener leaves fd at -1. -/
def step (s : SyncMaster) : MasterEvent → Option SyncMaster
  | .accept fd =>
    if 0 ≤ fd ∧ fd ∉ s.connectedNodes then
      some { s with
        connectedNodes := s.connectedNodes.insert fd s.nextConn
        inputPacketQueue := s.inputPacketQueue ++ [⟨.connect,fd,s.nextConn⟩]
        nextConn := s.nextConn + 1 }
    else none
  | .receive fd type =>
    match s.connectedNodes[fd]? with
    | some c =>
      if type ≠ .connect ∧ type ≠ .disconnect then
        some { s with inputPacketQueue := s.inputPacketQueue ++ [⟨type,fd,c⟩] }
      else none
    | none => none
  | .close fd =>
    match s.connectedNodes[fd]? with
    | some c =>
      some { s with
        connectedNodes := s.connectedNodes.erase fd
        inputPacketQueue := s.inputPacketQueue ++ [⟨.disconnect,fd,c⟩] }
    | none => none
  | .enqueueHttp pkt => some { s with httpInput := s.httpInput ++ [pkt] }
  | .enqueueRecent pkt =>
    if pkt.fd = -1 then some { s with recentInput := s.recentInput ++ [pkt] } else none
  | .run sends => some (s.run sends)
  | .stopRecentSync => some { s with recentRunning := false }
  | .startRecentSync => some { s with recentRunning := true, recentData := ∅ }

/-- Every send to a connected node succeeds. -/
def SendsSucceed (s : SyncMaster) (sends : Int → Bool) : Prop :=
  ∀ fd : Int, fd ∈ s.connectedNodes → sends fd = true

/-- A step that is no control command and in which no connected node's send fails. -/
def Undisturbed (s : SyncMaster) (e : MasterEvent) : Prop :=
  ¬ e.IsControl ∧ ∀ sends, e = .run sends → s.SendsSucceed sends

end SyncMaster
end Ssyncd
