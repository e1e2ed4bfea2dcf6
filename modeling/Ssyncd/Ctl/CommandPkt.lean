import Ssyncd.Codec.XtRecentParser

/-! The packets of the control socket. -/
namespace Ssyncd
open Reader

namespace Controller

inductive CommandId
  | void | startHttpSync | stopHttpSync | showHttp | clearHttp | writeHttp | stopRecentSync
  | startRecentSync | showRecent | clearRecent | clearRecentTable | writeRecentTable | writeRecent
  | swToMaster | swToClient | countRecent | showMode | quit | countHttp | ctlError | strMessage
  | rsync
  deriving DecidableEq, Repr

def CommandId.code : CommandId → UInt8
  | void => 1
  | startHttpSync => 2
  | stopHttpSync => 3
  | showHttp => 4
  | clearHttp => 5
  | writeHttp => 6
  | stopRecentSync => 7
  | startRecentSync => 8
  | showRecent => 9
  | clearRecent => 10
  | clearRecentTable => 11
  | writeRecentTable => 12
  | writeRecent => 13
  | swToMaster => 14
  | swToClient => 15
  | countRecent => 16
  | showMode => 17
  | quit => 18
  | countHttp => 19
  | ctlError => 20
  | strMessage => 21
  | rsync => 22

instance : ByteEnum CommandId where
  values := [.void, .startHttpSync, .stopHttpSync, .showHttp, .clearHttp, .writeHttp,
    .stopRecentSync, .startRecentSync, .showRecent, .clearRecent, .clearRecentTable,
    .writeRecentTable, .writeRecent, .swToMaster, .swToClient, .countRecent, .showMode, .quit,
    .countHttp, .ctlError, .strMessage, .rsync]
  code := CommandId.code
  mem_values a := by cases a <;> decide
  code_injective a b h := by
    cases a <;> cases b <;> first | rfl | exact absurd h (by decide)

/-- What is never set is zero here. -/
structure CommandPkt extends ConnPacket where
  type := .named .ctlCommand
  command : ByteEnum.Value CommandId
  commandData : Bytes := []
  serverPort : UInt32 := 0
  serverAddress : Bytes := []
  deriving DecidableEq

/-- The commands that name a table or a farm. -/
def CarriesData (command : ByteEnum.Value CommandId) : Prop :=
  command = .named .writeRecentTable ∨ command = .named .clearRecentTable ∨
    command = .named .startHttpSync ∨ command = .named .stopHttpSync

instance (command : ByteEnum.Value CommandId) : Decidable (CarriesData command) :=
  inferInstanceAs (Decidable (_ ∨ _))

/-- The commands that switch the mode name a port. -/
def CarriesPort (command : ByteEnum.Value CommandId) : Prop :=
  command = .named .swToClient ∨ command = .named .swToMaster

instance (command : ByteEnum.Value CommandId) : Decidable (CarriesPort command) :=
  inferInstanceAs (Decidable (_ ∨ _))

end Controller

namespace CommandPktParser
open Controller

def readData (pkt : CommandPkt) : Reader CommandPkt :=
  if CarriesData pkt.command then do
    let nameSize ← next
    let commandData ← bytes nameSize.toNat
    return { pkt with commandData }
  else return pkt

def readPort (pkt : CommandPkt) : Reader CommandPkt :=
  if CarriesPort pkt.command then do
    let serverPort ← orBytes (0 : BitVec 32) 0 3
    return { pkt with serverPort := ⟨serverPort⟩ }
  else return pkt

/-- An address of the other family is left out. -/
def readServer (pkt : CommandPkt) : Reader CommandPkt :=
  if pkt.command = .named .swToClient then do
    let fam ← next
    if (ByteEnum.Value.ofByte fam : ByteEnum.Value IpFamily) = .named .ipv4 then do
      let part ← next
      let serverAddress ← XtRecentActionParser.readOctets (Decimal.text part.toNat) 3
      return { pkt with serverAddress }
    else return pkt
  else return pkt

def readBody : Reader CommandPkt := do
  let command ← next
  let pkt ← readData { command := .ofByte command }
  let pkt ← readPort pkt
  readServer pkt

/-- The type of the packet is not looked at. -/
def deserialize (buffer : Memory) (bufferSize : ℕ) : Option (CommandPkt × ℕ) :=
  match BasePktParser.deserialize buffer bufferSize with
  | some (_,used) => some (readBody buffer used)
  | none => none

end CommandPktParser
end Ssyncd
