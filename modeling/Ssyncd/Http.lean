import Ssyncd.Packet
import Mathlib.Tactic.Common

/-! HTTP sessions, the actions on them, and the nested store that both nodes keep. -/
namespace Ssyncd
namespace Http

inductive ActionType
  | clearData | syncRequest | sessAdd | sessDelete | sessUpdate | sessWrite
  | bckAdd | bckDelete | bckUpdate
  deriving DecidableEq, Repr

def ActionType.code : ActionType → UInt8
  | clearData => 0
  | syncRequest => 1
  | sessAdd => 2
  | sessDelete => 3
  | sessUpdate => 4
  | sessWrite => 5
  | bckAdd => 20
  | bckDelete => 21
  | bckUpdate => 22

instance : ByteEnum ActionType where
  values := [.clearData, .syncRequest, .sessAdd, .sessDelete, .sessUpdate, .sessWrite,
    .bckAdd, .bckDelete, .bckUpdate]
  code := ActionType.code
  mem_values a := by cases a <;> decide
  code_injective a b h := by cases a <;> cases b <;> first | rfl | exact absurd h (by decide)

structure HttpSession where
  key : Bytes
  backendId : UInt32
  content : Bytes
  lastAcc : UInt64
  deriving DecidableEq

structure HttpAction extends ConnPacket where
  type := .named .httpSync
  action : ByteEnum.Value ActionType
  service : UInt32
  listener : UInt32
  backend : UInt32
  session : HttpSession
  farmName : Bytes
  deriving DecidableEq

/-- The sessions of one service; its other fields are never read. -/
structure HttpService where
  sessions : Std.ExtTreeMap Bytes HttpSession := ∅
  deriving DecidableEq

abbrev Services := Std.ExtTreeMap UInt32 HttpService
abbrev Listeners := Std.ExtTreeMap UInt32 Services

/-- Farm name, then listener, then service. -/
abbrev HttpSessionData := Std.ExtTreeMap Bytes Listeners

/-- Reading with operator[] creates the farm, also where nothing is then stored in it. -/
def applyHttpAction (data : HttpSessionData) (action : HttpAction) : HttpSessionData :=
  match action.action with
  | .named .clearData => data.insert action.farmName ∅
  | .named .sessUpdate | .named .sessAdd =>
    let farm := data.getD action.farmName ∅
    let farm :=
      if action.listener ∉ farm ∨ action.service ∉ farm.getD action.listener ∅ then
        -- service_to_add takes the place of the listener's whole map
        farm.insert action.listener ((∅ : Services).insert action.service {})
      else farm
    let services := farm.getD action.listener ∅
    let service := services.getD action.service {}
    data.insert action.farmName (farm.insert action.listener (services.insert action.service
      { service with sessions := service.sessions.insert action.session.key action.session }))
  | .named .sessDelete =>
    let farm := data.getD action.farmName ∅
    let services := farm.getD action.listener ∅
    let service := services.getD action.service {}
    if action.listener ∈ farm ∧ action.service ∈ services ∧
        action.session.key ∈ service.sessions then
      data.insert action.farmName (farm.insert action.listener (services.insert action.service
        { service with sessions := service.sessions.erase action.session.key }))
    else data.insert action.farmName farm
  | _ => data

/-- The farm's clear on the master, which does not create the farm. -/
def clearHttpFarmData (data : HttpSessionData) (farmName : Bytes) : HttpSessionData :=
  if farmName ∈ data then data.insert farmName ∅ else data

@[ext] structure SessionKey where
  farm : Bytes
  listener : UInt32
  service : UInt32
  key : Bytes
  deriving DecidableEq

def HttpAction.sessionKey (a : HttpAction) : SessionKey :=
  ⟨a.farmName, a.listener, a.service, a.session.key⟩

/-- The store read as one flat partial map. -/
def sessions (data : HttpSessionData) (k : SessionKey) : Option HttpSession :=
  (((data.getD k.farm ∅).getD k.listener ∅).getD k.service {}).sessions[k.key]?

def services (data : HttpSessionData) (farm : Bytes) (listener : UInt32) : Services :=
  (data.getD farm ∅).getD listener ∅

@[simp] theorem sessions_empty (k : SessionKey) : sessions ∅ k = none := by
  simp [sessions]

@[simp] theorem services_empty (f : Bytes) (l : UInt32) : services ∅ f l = ∅ := by
  simp [services]

end Http
end Ssyncd
