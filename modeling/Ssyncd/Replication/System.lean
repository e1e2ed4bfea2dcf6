import Ssyncd.Backup.State
import Ssyncd.Master.Requests

/-! One master and one backup, over as many connections as the backup makes. Each connection
is first-in first-out and loses nothing until it breaks; the two ends notice a break on their
own, and the master accepts a connection some time after the backup has made it. -/
namespace Ssyncd

/-- For a connection of the master, the backup's number of it; what the backup received on each
of its connections; and the SYNC_REQUESTs that reached the master. -/
structure System where
  master : SyncMaster
  backup : SyncBackup := {}
  peer : Conn → ℕ := fun _ => 0
  received : ℕ → List Message := fun _ => []
  arrived : ℕ → Bool := fun _ => false

inductive SystemEvent
  | accept (fd : Int) (connection : ℕ)
  | request (fd : Int)
  | master (e : MasterEvent)
  | deliver (c : Conn)
  | lose
  | backup (ok : Bool)

namespace System

/-- The connection that the backup is on. -/
structure Current (s : System) (c : Conn) : Prop where
  running : s.backup.connRunning = true
  accepted : c < s.master.nextConn
  last : s.peer c + 1 = s.backup.connections

instance (s : System) (c : Conn) : Decidable (s.Current c) :=
  decidable_of_iff (s.backup.connRunning = true ∧ c < s.master.nextConn ∧
    s.peer c + 1 = s.backup.connections)
    ⟨fun ⟨h,h',h''⟩ => ⟨h,h',h''⟩,fun h => ⟨h.running,h.accepted,h.last⟩⟩

def step (s : System) : SystemEvent → Option System
  | .accept fd n =>
    if n < s.backup.connections ∧ ∀ c < s.master.nextConn, s.peer c ≠ n then
      (s.master.step (.accept fd)).map fun master =>
        { s with master, peer := fun c => if c = s.master.nextConn then n else s.peer c }
    else none
  | .request fd =>
    match s.master.connectedNodes[fd]? with
    | some c =>
      if s.backup.asked (s.peer c) && !s.arrived (s.peer c) then
        (s.master.step (.receive fd .syncRequest)).map fun master =>
          { s with master, arrived := fun n => decide (n = s.peer c) || s.arrived n }
      else none
    | none => none
  | .master (.accept _) | .master (.receive ..) => none
  | .master e => (s.master.step e).map fun master => { s with master }
  | .deliver c =>
    if s.Current c then
      (s.master.sent c)[(s.received (s.peer c)).length]?.map fun m =>
        { s with
          backup := { s.backup with
            inputPacketQueue := s.backup.inputPacketQueue ++ [.message m] }
          received := fun n => if n = s.peer c then s.received n ++ [m] else s.received n }
    else none
  | .lose =>
    if s.backup.connRunning then
      some { s with backup := { s.backup with
        connRunning := false
        inputPacketQueue := s.backup.inputPacketQueue ++ [.disconnect] } }
    else none
  | .backup ok => (s.backup.run ok).map fun backup => { s with backup }

def initial (httpRunning recentRunning : Bool) : System :=
  { master := SyncMaster.initial httpRunning recentRunning }

/-- No control command, and no send to a connected node fails. -/
def Undisturbed (s : System) : SystemEvent → Prop
  | .master e => s.master.Undisturbed e
  | _ => True

/-- The messages that were sent on a connection and have not arrived yet. -/
def inFlight (s : System) (c : Conn) : List Message :=
  (s.master.sent c).drop (s.received (s.peer c)).length

/-- What the backup will hold once it has everything that was sent to it so far. -/
def settledBackup (s : System) (c : Conn) : BaseSync :=
  s.backup.toBaseSync.applyAll (s.backup.messages ++ s.inFlight c)

/-- The last connection stays up, its request has been answered, and nothing is on its way. -/
structure Quiescent (s : System) (c : Conn) : Prop where
  connected : SyncMaster.Connected s.master.connectedNodes c
  current : s.Current c
  answered : s.master.answered c = true
  received : s.received (s.peer c) = s.master.sent c
  drained : s.backup.inputPacketQueue = []

end System
end Ssyncd
