import Ssyncd.Codec.HttpParser
import Ssyncd.Codec.XtRecentParser
import Mathlib.Data.List.Forall2

/-! All the packets of a connection: the parser for each type, and the stream they form. -/
namespace Ssyncd
open Reader

inductive Packet
  | conn (pkt : ConnPacket)
  | recent (pkt : Recent.XtRecentAction)
  | http (pkt : Http.HttpAction)
  deriving DecidableEq

def Packet.toConnPacket : Packet → ConnPacket
  | conn pkt => pkt
  | recent pkt => pkt.toConnPacket
  | http pkt => pkt.toConnPacket

inductive PacketParser
  | actionParser | tableParser | poundParser | baseParser
  deriving DecidableEq

namespace PktParser

def getPacketParser : ByteEnum.Value PacketType → PacketParser
  | .named .xtRecentSync => .actionParser
  | .named .xtRecentTable => .tableParser
  | .named .httpSync => .poundParser
  | _ => .baseParser

/-- The sub-parsers cast the packet to their own class; on another object there is no result. -/
def serialize (pkt : Packet) : Except Fault (Option (Bytes × Packet)) :=
  match getPacketParser pkt.toConnPacket.type, pkt with
  | .actionParser, .recent a => do
    let (out,sent) ← XtRecentActionParser.serialize a
    return some (out,.recent sent)
  | .poundParser, .http a => return (HttpParser.serialize a).map fun (out,sent) => (out,.http sent)
  | .actionParser, _ | .poundParser, _ => throw .wrongObject
  | .tableParser, _ => return none
  | .baseParser, _ => return some (BasePktParser.serialize pkt.toConnPacket,pkt)

def deserialize (buffer : Memory) (bufferSize : ℕ) : Option (Packet × ℕ) :=
  match BasePktParser.deserialize buffer bufferSize with
  | some (ret,_) =>
    match getPacketParser ret.type with
    | .actionParser =>
      (XtRecentActionParser.deserialize buffer bufferSize).map fun (a,used) => (.recent a,used)
    | .tableParser => none
    | .poundParser =>
      (HttpParser.deserialize buffer bufferSize).map fun (a,used) => (.http a,used)
    | .baseParser =>
      (BasePktParser.deserialize buffer bufferSize).map fun (pkt,used) => (.conn pkt,used)
  | none => none

/-- The parser on a receive buffer, with whatever the memory holds after the received bytes. -/
def decoder (junk : Bytes → Memory) : Framing.Decoder UInt8 Packet :=
  fun buffer => deserialize (memory buffer (junk buffer)) buffer.length

/-- A buffer without a whole header or a whole packet gives nothing. -/
theorem decoder_eq_none {junk : Bytes → Memory} {buffer : Bytes}
    (h : BasePktParser.deserialize (memory buffer (junk buffer)) buffer.length = none) :
    decoder junk buffer = none := by
  rw [decoder, deserialize, h]

/-- The packets that the nodes send. -/
def Sendable : Packet → Prop
  | .conn pkt => pkt.type = .named .syncRequest ∧ pkt.pktLen = 0
  | .recent a => a.type = .named .xtRecentSync ∧ XtRecentActionParser.Fits a
  | .http a => a.type = .named .httpSync ∧ HttpParser.Fits a

/-- The bytes of a sent packet. -/
def sentBytes : Packet → Bytes
  | .conn pkt => BasePktParser.serialize pkt
  | .recent a => wire a.toConnPacket (XtRecentActionParser.sentBody a)
  | .http a => wire a.toConnPacket (HttpParser.writeBody a)

/-- What the other node makes of a sent packet. -/
def received : Packet → Packet
  | .conn pkt => .conn (BasePktParser.received pkt 0)
  | .recent a => .recent (XtRecentActionParser.received a (BasePktParser.received a.toConnPacket
      (UInt32.ofNat (sentBytes (.recent a)).length)))
  | .http a => .http (HttpParser.withLength a (sentBytes (.http a)).length)

theorem serialize_sendable {pkt : Packet} (h : Sendable pkt) :
    ∃ sent, serialize pkt = .ok (some (sentBytes pkt,sent)) := by
  cases pkt with
  | conn pkt =>
    refine ⟨.conn pkt,?_⟩
    have htype : (Packet.conn pkt).toConnPacket.type = .named .syncRequest := h.1
    unfold serialize
    rw [htype]
    rfl
  | recent a =>
    let pktLen := sentLength (5 + (XtRecentActionParser.sentBody a).length)
    refine ⟨.recent { a with pktLen },?_⟩
    have htype : (Packet.recent a).toConnPacket.type = .named .xtRecentSync := h.1
    unfold serialize
    rw [htype]
    simp only [getPacketParser, XtRecentActionParser.serialize_eq h.2]
    rfl
  | http a =>
    let pktLen := sentLength (5 + (HttpParser.writeBody a).length)
    refine ⟨.http { a with pktLen },?_⟩
    have htype : (Packet.http a).toConnPacket.type = .named .httpSync := h.1
    unfold serialize
    rw [htype]
    simp only [getPacketParser, HttpParser.serialize_eq h.1]
    rfl

theorem incomplete_wire (junk : Bytes → Memory) (pkt : ConnPacket) {body : Bytes}
    (h : 5 + body.length < 65536) (pre : Bytes) (hpre : pre <+: wire pkt body)
    (hne : pre ≠ wire pkt body) : decoder junk pre = none :=
  decoder_eq_none (BasePktParser.deserialize_prefix_wire pkt h hpre hne _)

/-- Each sent packet is a frame: it is read whole, alone, and only once it is complete. -/
theorem frame_sentBytes {pkt : Packet} (h : Sendable pkt) (junk : Bytes → Memory) :
    Framing.Frame (decoder junk) (sentBytes pkt) (received pkt) := by
  cases pkt with
  | conn pkt =>
    have hframe := BasePktParser.frame_serialize pkt h.2 junk
    refine ⟨fun rest => ?_,fun pre hpre hne => decoder_eq_none (hframe.incomplete pre hpre hne)⟩
    have hd := hframe.complete rest
    have htype : (BasePktParser.received pkt 0).type = .named .syncRequest := h.1
    unfold decoder deserialize sentBytes
    simp only [hd, htype, getPacketParser]
    rfl
  | recent a =>
    have hlen := XtRecentActionParser.sentBody_length_le h.2
    refine ⟨fun rest => ?_,incomplete_wire junk a.toConnPacket (by omega)⟩
    have htype : (BasePktParser.received a.toConnPacket
        (UInt32.ofNat (5 + (XtRecentActionParser.sentBody a).length))).type =
      .named .xtRecentSync := h.1
    unfold decoder deserialize sentBytes
    rw [BasePktParser.deserialize_wire _ (by omega)]
    simp only [htype, getPacketParser, XtRecentActionParser.deserialize_wire h.1 h.2]
    simp only [Option.map_some, received, sentBytes, wire_length]
  | http a =>
    have hlen := HttpParser.writeBody_length_le h.2
    refine ⟨fun rest => ?_,incomplete_wire junk a.toConnPacket (by omega)⟩
    have htype : (BasePktParser.received a.toConnPacket
        (UInt32.ofNat (5 + (HttpParser.writeBody a).length))).type = .named .httpSync := h.1
    unfold decoder deserialize sentBytes
    rw [BasePktParser.deserialize_wire _ (by omega)]
    simp only [htype, getPacketParser, HttpParser.deserialize_wire h.1 h.2]
    simp only [Option.map_some, received, sentBytes, wire_length]

theorem pending_sentBytes {pkts : List Packet} (h : ∀ pkt ∈ pkts, Sendable pkt)
    (junk : Bytes → Memory) :
    Framing.Pending (decoder junk) (pkts.map sentBytes) (pkts.map received) := by
  induction pkts with
  | nil => exact .nil
  | cons pkt pkts ih =>
    exact .cons (frame_sentBytes (h pkt (List.mem_cons_self ..)) junk)
      (ih fun p hp => h p (List.mem_cons_of_mem _ hp))

/-- The stream of any list of sent packets is self-delimiting: cut anywhere, it gives each
packet once and in order, as it is read from its own bytes, and nothing is left over. -/
theorem stream_self_delimiting {pkts : List Packet} (h : ∀ pkt ∈ pkts, Sendable pkt)
    (junk : Bytes → Memory) :
    ∃ outs values,
      List.Forall₂ (fun pkt out => ∃ sent, serialize pkt = .ok (some (out,sent))) pkts outs ∧
      List.Forall₂ (fun out value => decoder junk out = some (value,out.length) ∧
        (∀ rest, decoder junk (out ++ rest) = some (value,out.length)) ∧
        ∀ pre, pre <+: out → pre ≠ out → decoder junk pre = none) outs values ∧
      ∀ chunks : List Bytes, chunks.flatten = outs.flatten → ∀ out rest,
        Framing.Feeds (decoder junk) [] chunks out rest ↔ out = values ∧ rest = [] := by
  refine ⟨pkts.map sentBytes,pkts.map received,?_,?_,?_⟩
  · rw [List.forall₂_map_right_iff, List.forall₂_same]
    exact fun pkt hp => serialize_sendable (h pkt hp)
  · rw [List.forall₂_map_left_iff, List.forall₂_map_right_iff, List.forall₂_same]
    intro pkt hp
    have hframe := frame_sentBytes (h pkt hp) junk
    have hown := hframe.complete []
    rw [List.append_nil] at hown
    exact ⟨hown,hframe.complete,hframe.incomplete⟩
  · intro chunks hc out rest
    have hnil : decoder junk [] = none :=
      decoder_eq_none (BasePktParser.deserialize_short (by decide) _)
    have hfeeds := (pending_sentBytes h junk).feeds hnil hnil (by simpa using hc)
    constructor
    · exact fun hf => hf.unique hfeeds
    · rintro ⟨rfl,rfl⟩
      exact hfeeds

/-- A request, the deletion of an entry and the deletion of a session, one after another. -/
def sampleStream : List Packet := [
  .conn { type := .named .syncRequest },
  .recent {
    action := .named .deleteEntry
    targetEntry := { srcIp := dottedQuad 10 0 0 1, ipFamily := .named .ipv4 }
    xtTableName := [116,49] },
  .http {
    action := .named .sessDelete
    farmName := [102]
    listener := 1
    service := 2
    backend := 3
    session := { key := [107], backendId := 3, content := [], lastAcc := 0 } }]

theorem sampleStream_self_delimiting :
    ∃ outs values,
      List.Forall₂ (fun pkt out => ∃ sent, serialize pkt = .ok (some (out,sent)))
        sampleStream outs ∧
      List.Forall₂ (fun out value => decoder (fun _ _ => 0) out = some (value,out.length) ∧
        (∀ rest, decoder (fun _ _ => 0) (out ++ rest) = some (value,out.length)) ∧
        ∀ pre, pre <+: out → pre ≠ out → decoder (fun _ _ => 0) pre = none) outs values ∧
      ∀ chunks : List Bytes, chunks.flatten = outs.flatten → ∀ out rest,
        Framing.Feeds (decoder fun _ _ => 0) [] chunks out rest ↔ out = values ∧ rest = [] := by
  refine stream_self_delimiting ?_ _
  have hrequest : Sendable sampleStream[0] := ⟨rfl,rfl⟩
  have hentry : Sendable sampleStream[1] :=
    ⟨rfl,fun _ => ⟨_,dottedQuad_isDottedQuad 10 0 0 1⟩,by decide,by decide,by decide⟩
  have hsession : Sendable sampleStream[2] := ⟨rfl,by decide,by decide,by decide⟩
  simpa [sampleStream] using ⟨hrequest,hentry,hsession⟩

/-- What is sent of a recent action is read back with all that the packet carries. -/
theorem recent_carried {a : Recent.XtRecentAction} (h : XtRecentActionParser.Canonical a)
    (junk : Memory) :
    ∃ sent b, serialize (.recent a) = .ok (some (sentBytes (.recent a),sent)) ∧
      deserialize (memory (sentBytes (.recent a)) junk) (sentBytes (.recent a)).length =
        some (.recent b,(sentBytes (.recent a)).length) ∧
      XtRecentActionParser.Carried a b := by
  have hsend : Sendable (.recent a) := ⟨h.type,h.fits⟩
  obtain ⟨sent,hser⟩ := serialize_sendable hsend
  have hread := (frame_sentBytes hsend (fun _ => junk)).complete []
  rw [List.append_nil] at hread
  exact ⟨sent,_,hser,hread,h.carried _⟩

/-- A recent action through the parser and back: the carried fields, the bytes used, the size
and the length in the header all agree. -/
theorem recent_round_trip {a : Recent.XtRecentAction}
    (h : XtRecentActionParser.Canonical a) (junk : Memory) :
    ∃ out sent b, serialize (.recent a) = .ok (some (out,sent)) ∧
      deserialize (memory out junk) out.length = some (.recent b,out.length) ∧
      (headerLength (out.getD 3 0) (out.getD 4 0)).toNat = out.length ∧
      XtRecentActionParser.Carried a b := by
  obtain ⟨sent,b,hser,hread,hcarried⟩ := recent_carried h junk
  have hlen := XtRecentActionParser.sentBody_length_le h.fits
  refine ⟨_,sent,b,hser,hread,?_,hcarried⟩
  change (headerLength (lowByte (5 + _)) (lowByte ((5 + _) >>> 8))).toNat = (wire _ _).length
  rw [headerLength_lowByte (by omega), wire_length]

/-- An entry with two time stamps as it is added. -/
def sampleEntry : Recent.XtRecentAction where
  action := .named .addUpdEntry
  targetEntry := {
    srcIp := dottedQuad 192 168 0 159, ttl := 66, lastSeenIndex := 2, ipFamily := .named .ipv4
    timestamps := [4700000033,4700000034] }
  xtTableName := [97,98,100,101,115,115]

theorem sampleEntry_round_trip :
    ∃ out sent b, serialize (.recent sampleEntry) = .ok (some (out,sent)) ∧
      deserialize (memory out fun _ => 0) out.length = some (.recent b,out.length) ∧
      (headerLength (out.getD 3 0) (out.getD 4 0)).toNat = out.length ∧
      XtRecentActionParser.Carried sampleEntry b :=
  recent_round_trip ⟨rfl,fun _ => ⟨192,168,0,159,rfl⟩,by decide,by decide,by decide,by decide,
    by decide⟩ _

end PktParser
end Ssyncd
