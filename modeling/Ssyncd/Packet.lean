import Ssyncd.Library.ByteEnum

/-! The packets that the two nodes and their listeners exchange. -/
namespace Ssyncd

/-- A std::string: bytes, with no encoding attached. -/
abbrev Bytes := List UInt8

inductive PacketType
  | connect | disconnect | generic | xtRecentSync | xtRecentTable | httpSync | ctlCommand
  | syncRequest
  deriving DecidableEq, Repr

def PacketType.code : PacketType → UInt8
  | connect => 1
  | disconnect => 2
  | generic => 3
  | xtRecentSync => 4
  | xtRecentTable => 5
  | httpSync => 6
  | ctlCommand => 7
  | syncRequest => 8

instance : ByteEnum PacketType where
  values := [.connect, .disconnect, .generic, .xtRecentSync, .xtRecentTable, .httpSync,
    .ctlCommand, .syncRequest]
  code := PacketType.code
  mem_values a := by cases a <;> decide
  code_injective a b h := by cases a <;> cases b <;> first | rfl | exact absurd h (by decide)

/-- The common part of every packet; fd -1 asks for a broadcast. -/
structure ConnPacket where
  fd : Int := -1
  type : ByteEnum.Value PacketType := .named .connect
  header1 : Int := 0xef
  header2 : Int := 0xab
  pktLen : UInt32 := 0
  deriving DecidableEq

end Ssyncd
