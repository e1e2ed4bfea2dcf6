import Ssyncd.Store.BaseSync

/-! The backup: its store, its queue and the steps of its run thread, from the first attempts
to connect through the loop that reconnects. -/
namespace Ssyncd

/-- What the receive thread puts into the queue: a message of the master, or its own marker. -/
inductive Incoming
  | message (m : Message)
  | disconnect
  deriving DecidableEq

def Incoming.message? : Incoming → Option Message
  | message m => some m
  | disconnect => none

/-- Where the run thread stands. -/
inductive BackupPc
  | runTask
  | runEntry
  | firstRequest
  | getPacket
  | whileDisconnected
  | start
  | checkRunning
  | clear
  | request
  | exited
  deriving DecidableEq

/-- The last two fields are not in the code: the connections made so far, numbered in order, and
those on which a SYNC_REQUEST was sent. -/
structure SyncBackup extends BaseSync where
  inputPacketQueue : List Incoming := []
  connRunning : Bool := false
  pc : BackupPc := .runTask
  connections : ℕ := 0
  asked : ℕ → Bool := fun _ => false

namespace SyncBackup

def messages (b : SyncBackup) : List Message := b.inputPacketQueue.filterMap Incoming.message?

/-- The connection's start: it connects, or the master refuses. -/
def start (b : SyncBackup) (ok : Bool) : SyncBackup :=
  if ok then { b with connRunning := true, connections := b.connections + 1 }
  else { b with connRunning := false }

def sendRequest (b : SyncBackup) (ok : Bool) : SyncBackup × Bool :=
  if b.connRunning && ok then
    ({ b with asked := fun n => decide (n + 1 = b.connections) || b.asked n },true)
  else (b,false)

def handlePacket (b : SyncBackup) : Incoming → SyncBackup
  | .message m => { b with toBaseSync := b.toBaseSync.apply m }
  | .disconnect => { b with pc := .whileDisconnected }

/-- One step of the run thread: `run_task` first, then `run`. A marker that is taken while the
connection is up leaves the loop at once. -/
def run (b : SyncBackup) (ok : Bool) : Option SyncBackup :=
  match b.pc with
  | .runTask => some (if b.connRunning then { b with pc := .runEntry } else b.start ok)
  | .runEntry => some { b with pc := if b.connRunning then .firstRequest else .exited }
  | .firstRequest =>
    let (b,sent) := b.sendRequest ok
    some { b with pc := if sent then .getPacket else .exited }
  | .getPacket =>
    match b.inputPacketQueue with
    | [] => none
    | pkt::rest => some ({ b with inputPacketQueue := rest }.handlePacket pkt)
  | .whileDisconnected => some { b with pc := if b.connRunning then .getPacket else .start }
  | .start => some { b.start ok with pc := .checkRunning }
  | .checkRunning => some { b with pc := if b.connRunning then .clear else .whileDisconnected }
  | .clear => some { b with httpSessionData := ∅, pc := .request }
  | .request => some { (b.sendRequest ok).1 with pc := .whileDisconnected }
  | .exited => none

end SyncBackup
end Ssyncd
