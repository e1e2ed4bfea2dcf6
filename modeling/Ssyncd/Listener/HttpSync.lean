import Ssyncd.Codec.HttpParser
import Ssyncd.Library.Runs

/-! The HTTP listener: its map from descriptors to farms, the descriptors that are open in the
process, and the tasks that use them in any order. -/
namespace Ssyncd
open Http

/-- What an open descriptor is: a connection to a farm, or anything else. -/
inductive Socket
  | farm (name : Bytes)
  | other
  deriving DecidableEq

/-- What the listen task holds of a connection: the decoded actions that it has still to
enqueue. The origin is not in the code. -/
structure Chunk where
  fd : ℕ := 0
  origin : Option Socket := none
  actions : List HttpAction := []

/-- How the calls in `add_farm` come out; a socket whose connect fails is left open. -/
inductive AddFarm
  | noSocket
  | notConnected (fd : ℕ)
  | connected (fd : ℕ)

/-- `ready` and `chunk` are the listen task's, `removing` is where the control task stands in
`remove_farm`. The last three fields are not in the code: the farm that a write or a close was
meant for and the socket it went to, and the socket that an action came from with the name it
was queued with. -/
structure HttpSync where
  farmsFd : Std.ExtTreeMap ℕ Bytes := ∅
  inputData : List HttpAction := []
  sockets : ℕ → Option Socket
  ready : List ℕ := []
  chunk : Chunk := {}
  removing : Option (ℕ × Bytes) := none
  written : List (Bytes × Option Socket) := []
  closed : List (Bytes × Option Socket) := []
  queued : List (Option Socket × Bytes) := []

/-- The fields that a marker leaves unset are zero. -/
def farmMarker (type : PacketType) (farmName : Bytes) (fd : ℕ) : HttpAction where
  type := .named type
  fd := fd
  action := .named .clearData
  service := 0
  listener := 0
  backend := 0
  session := ⟨[],0,[],0⟩
  farmName := farmName

namespace HttpSync

/-- The last descriptor with the farm's name, 0 where there is none. -/
def getFarmFd (s : HttpSync) (farmName : Bytes) : ℕ :=
  s.farmsFd.toList.foldl (fun fd farmFd => if farmFd.2 = farmName then farmFd.1 else fd) 0

/-- Reading `farms_fd[fd]` makes an entry where there is none. -/
def farmOf (s : HttpSync) (fd : ℕ) : Bytes := s.farmsFd.getD fd []

def opened (s : HttpSync) (fd : ℕ) (socket : Option Socket) : HttpSync :=
  { s with sockets := Function.update s.sockets fd socket }

/-- One step: the descriptor is watched and listed, and its marker queued. -/
def addFarm (s : HttpSync) (farmName : Bytes) : AddFarm → Option (HttpSync × Bool)
  | .noSocket => some (s,false)
  | .notConnected fd =>
    if s.sockets fd = none then some (s.opened fd (some .other),false) else none
  | .connected fd =>
    if s.sockets fd = none then
      some ({ s.opened fd (some (.farm farmName)) with
        farmsFd := s.farmsFd.insert fd farmName
        inputData := s.inputData ++ [farmMarker .connect farmName fd] },true)
    else none

/-- `remove_farm` up to its close; it returns at once where it finds no descriptor. -/
def removeFarm (s : HttpSync) (farmName : Bytes) : HttpSync :=
  let fd := s.getFarmFd farmName
  if fd ≠ 0 then
    { s.opened fd none with
      removing := some (fd,farmName)
      closed := s.closed ++ [(farmName,s.sockets fd)] }
  else s

/-- The send itself: an action that cannot be serialized is not sent. -/
def send (s : HttpSync) (farmName : Bytes) (action : HttpAction) : HttpSync :=
  let fd := s.getFarmFd farmName
  match HttpParser.serialize { action with fd := (fd : Int), farmName } with
  | some _ => { s with written := s.written ++ [(farmName,s.sockets fd)] }
  | none => s

def sendPoundAction (s : HttpSync) (farmName : Bytes) (action : HttpAction) (add : AddFarm) :
    Option (HttpSync × Bool) :=
  if s.getFarmFd farmName = 0 then
    (s.addFarm farmName add).map fun (s,added) =>
      if added then (s.send farmName action,true) else (s,false)
  else some (s.send farmName action,true)

def peerDisconnectHandler (s : HttpSync) (fd : ℕ) : HttpSync :=
  { s.opened fd none with
    farmsFd := s.farmsFd.insertIfNew fd []
    inputData := s.inputData ++ [farmMarker .disconnect (s.farmOf fd) fd] }

/-- What the tasks do, and what else opens and closes descriptors. -/
inductive Event
  | addFarm (farmName : Bytes) (add : AddFarm)
  | removeFarm (farmName : Bytes)
  | removeReturn
  | sendPoundAction (farmName : Bytes) (action : HttpAction) (add : AddFarm)
  | epollWait (fds : List ℕ)
  | receive (actions : List HttpAction)
  | enqueue
  | peerDisconnect
  | openOther (fd : ℕ)
  | closeOther (fd : ℕ)

/-- One step. The listen task takes its ready connections one after another, and the actions of
one before the next; the control task adds and removes farms, and the run loop may send at any
time. A descriptor that is ready may be closed, and used again, before its turn. -/
def step (s : HttpSync) : Event → Option HttpSync
  | .addFarm farmName add =>
    if s.removing = none then (s.addFarm farmName add).map Prod.fst else none
  | .removeFarm farmName => if s.removing = none then some (s.removeFarm farmName) else none
  | .removeReturn =>
    s.removing.map fun (fd,farmName) =>
      { s with
        removing := none
        inputData := s.inputData ++ [farmMarker .disconnect farmName fd] }
  | .sendPoundAction farmName action add => (s.sendPoundAction farmName action add).map Prod.fst
  | .epollWait fds =>
    if s.ready = [] ∧ s.chunk.actions = [] ∧ fds.Nodup ∧
        ∀ fd ∈ fds, s.sockets fd ≠ none ∧ s.sockets fd ≠ some .other then
      some { s with ready := fds }
    else none
  | .receive actions =>
    match s.ready, s.chunk.actions with
    | fd::ready, [] =>
      match s.sockets fd with
      | some socket => some { s with ready, chunk := { fd, origin := some socket, actions } }
      | none => some { s with ready }
    | _, _ => none
  | .enqueue =>
    match s.chunk.actions with
    | action::actions =>
      let farmName := s.farmOf s.chunk.fd
      some { s with
        farmsFd := s.farmsFd.insertIfNew s.chunk.fd []
        inputData := s.inputData ++ [{ action with farmName, fd := s.chunk.fd }]
        chunk := { s.chunk with actions }
        queued := s.queued ++ [(s.chunk.origin,farmName)] }
    | [] => none
  | .peerDisconnect =>
    match s.ready, s.chunk.actions with
    | fd::ready, [] =>
      match s.sockets fd with
      | some _ => some (peerDisconnectHandler { s with ready } fd)
      | none => none
    | _, _ => none
  | .openOther fd => if s.sockets fd = none then some (s.opened fd (some .other)) else none
  | .closeOther fd => if s.sockets fd = some .other then some (s.opened fd none) else none

/-- The listener before any farm is added, in a process with these descriptors open. -/
def initial (isOpen : ℕ → Bool) : HttpSync where
  sockets fd := if isOpen fd then some .other else none

end HttpSync
end Ssyncd
