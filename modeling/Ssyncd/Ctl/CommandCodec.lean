import Ssyncd.Codec.Extent
import Ssyncd.Ctl.Main

/-! Which commands the control task reads as `ssyncdctl` sends them. -/
namespace Ssyncd
open Reader

def getIpAddressType (ipStr : Bytes) : ByteEnum.Value IpFamily :=
  if 58 ∈ ipStr then .named .ipv6 else .named .ipv4

/-- Nothing is converted of an address of IPv6. -/
def getIpAddressV6 (_ : Bytes) : Bytes := []

def getIpAddressArray (ipStr : Bytes) : Except Fault Bytes :=
  if 58 ∈ ipStr then return getIpAddressV6 ipStr
  else if 46 ∈ ipStr then getIpAddressV4 ipStr
  else return []

namespace CommandPktParser
open Controller

/-- The size of the name is cut to one byte. -/
def writeData (pkt : CommandPkt) : Bytes :=
  if CarriesData pkt.command then lowByte pkt.commandData.length::pkt.commandData else []

def writePort (pkt : CommandPkt) : Bytes :=
  if CarriesPort pkt.command then leBytes pkt.serverPort.toBitVec 3 else []

def writeServer (pkt : CommandPkt) : Except Fault Bytes :=
  if pkt.command = .named .swToClient then
    return (getIpAddressType pkt.serverAddress).toByte::(← getIpAddressArray pkt.serverAddress)
  else return []

def writeBody (pkt : CommandPkt) : Except Fault Bytes :=
  return pkt.command.toByte::(writeData pkt ++ writePort pkt) ++ (← writeServer pkt)

def serialize (pkt : CommandPkt) : Except Fault (Bytes × CommandPkt) := do
  let body ← writeBody pkt
  let out := patchLength (BasePktParser.serialize pkt.toConnPacket ++ body)
  return (out,{ pkt with pktLen := sentLength out.length })

end CommandPktParser

namespace Controller
open CommandPktParser

/-- What a packet carries of one command is the same in the other. -/
structure CommandPkt.Carries (p q : CommandPkt) : Prop where
  command : q.command = p.command
  commandData : CarriesData p.command → q.commandData = p.commandData
  serverPort : CarriesPort p.command → q.serverPort = p.serverPort
  serverAddress : p.command = .named .swToClient → q.serverAddress = p.serverAddress

/-- The buffers of the sender and of the receiver have 1024 bytes. An exception is a refusal: it
ends `ssyncdctl` before anything is sent. -/
def CommandPkt.RoundTrips (p : CommandPkt) : Prop :=
  ∀ out p', serialize p = .ok (out,p') → out.length ≤ 1024 ∧
    ∀ junk, ∃ q, deserialize (memory out junk) out.length = some (q,out.length) ∧ p.Carries q

/-- Some part of the address is no number. -/
def Unconvertible (serverAddress : Bytes) : Prop :=
  58 ∉ serverAddress ∧ 46 ∈ serverAddress ∧
    ∃ part ∈ (cString serverAddress).splitOn 46, ∀ n, stoi part ≠ .ok n

/-- The bytes of the packet have room for the command: one for the size of a name, three for the
port, and four for an address, which are of its canonical dotted quad. -/
structure CommandPkt.Sendable (p : CommandPkt) : Prop where
  commandData : CarriesData p.command → p.commandData.length ≤ 255
  serverPort : CarriesPort p.command → p.serverPort.toNat < 16777216
  serverAddress : p.command = .named .swToClient → ∃ a b c d, p.serverAddress = dottedQuad a b c d

section
variable {p : CommandPkt}

theorem not_carriesPort (h : CarriesData p.command) :
    ¬CarriesPort p.command ∧ p.command ≠ .named .swToClient := by
  rcases h with h | h | h | h <;> rw [h] <;> decide

theorem exists_mapM_eq_ok {α β ε : Type} {f : α → Except ε β} {xs : List α} :
    (∃ ys, xs.mapM f = .ok ys) ↔ ∀ x ∈ xs, ∃ y, f x = .ok y := by
  induction xs with
  | nil => exact ⟨fun _ x hx => absurd hx List.not_mem_nil,fun _ => ⟨[],rfl⟩⟩
  | cons x xs ih =>
    rw [List.forall_mem_cons, ← ih, List.mapM_cons]
    constructor
    · rintro ⟨ys,hys⟩
      cases hx : f x with
      | error e =>
        rw [hx] at hys
        cases hys
      | ok y =>
        cases hrest : xs.mapM f with
        | error e =>
          rw [hx, hrest] at hys
          cases hys
        | ok ys => exact ⟨⟨y,rfl⟩,ys,rfl⟩
    · rintro ⟨⟨y,hy⟩,ys,hys⟩
      rw [hy, hys]
      exact ⟨y::ys,rfl⟩

theorem getIpAddressV4_eq_ok {ipStr : Bytes} :
    (∃ parts, getIpAddressV4 ipStr = .ok parts) ↔ ∀ part ∈ (cString ipStr).splitOn 46, ∃ n, stoi part = .ok n := by
  rw [getIpAddressV4, exists_mapM_eq_ok]
  refine forall₂_congr fun part _ => ?_
  constructor
  · rintro ⟨y,hy⟩
    cases hn : stoi part with
    | error e =>
      rw [hn] at hy
      cases hy
    | ok n => exact ⟨n,rfl⟩
  · rintro ⟨n,hn⟩
    exact ⟨UInt8.ofInt n,by rw [hn]; rfl⟩

theorem getIpAddressArray_eq_ok {ipStr : Bytes} :
    (∃ parts, getIpAddressArray ipStr = .ok parts) ↔ ¬Unconvertible ipStr := by
  unfold getIpAddressArray Unconvertible
  by_cases hcolon : 58 ∈ ipStr
  · simp only [hcolon, not_true_eq_false, false_and, not_false_eq_true, iff_true]
    exact ⟨_,rfl⟩
  · rw [if_neg hcolon]
    by_cases hdot : 46 ∈ ipStr
    · rw [if_pos hdot, getIpAddressV4_eq_ok]
      simp only [hcolon, hdot, not_false_eq_true, true_and]
      push Not
      rfl
    · rw [if_neg hdot]
      simp only [hdot, false_and, and_false, not_false_eq_true, iff_true]
      exact ⟨_,rfl⟩

/-- The serializer stops only at an address that it cannot convert. -/
theorem serialize_eq_ok : (∃ r, serialize p = .ok r) ↔
    ¬(p.command = .named .swToClient ∧ Unconvertible p.serverAddress) := by
  have hserver : (∃ r, serialize p = .ok r) ↔ ∃ server, writeServer p = .ok server := by
    unfold serialize writeBody
    cases writeServer p with
    | error e =>
      refine iff_of_false ?_ nofun
      rintro ⟨r,hr⟩
      contradiction
    | ok server =>
      refine iff_of_true ?_ ⟨server,rfl⟩
      exact ⟨_,rfl⟩
  rw [hserver, writeServer]
  by_cases hclient : p.command = .named .swToClient
  · simp only [hclient, if_true, true_and]
    rw [← getIpAddressArray_eq_ok]
    cases getIpAddressArray p.serverAddress with
    | error e => exact ⟨nofun,nofun⟩
    | ok parts => exact ⟨fun _ => ⟨parts,rfl⟩,fun _ => ⟨_,rfl⟩⟩
  · simp only [hclient, if_false, false_and, not_false_eq_true, iff_true]
    exact ⟨_,rfl⟩

def sentHead (p : CommandPkt) : Bytes := p.command.toByte::(writeData p ++ writePort p)

theorem serialize_eq {out : Bytes} {p' : CommandPkt} (h : serialize p = .ok (out,p')) :
    ∃ server, writeServer p = .ok server ∧ out = wire p.toConnPacket (sentHead p ++ server) := by
  unfold serialize writeBody at h
  cases hserver : writeServer p with
  | error e =>
    rw [hserver] at h
    cases h
  | ok server =>
    rw [hserver] at h
    have hout := (Prod.mk.inj (Except.ok.inj h)).1
    exact ⟨server,rfl,hout ▸ patchLength_serialize _ _⟩

/-- The command up to the address. -/
def readHead : Reader CommandPkt := do
  let command ← next
  let pkt ← readData { command := .ofByte command }
  readPort pkt

theorem readBody_eq (buffer : Memory) (used : ℕ) : readBody buffer used =
    readServer (readHead buffer used).1 buffer (readHead buffer used).2 := rfl

/-- What is read of a command up to its address. -/
def receivedHead (p : CommandPkt) (port : UInt32) : CommandPkt where
  command := p.command
  commandData := if CarriesData p.command then p.commandData else []
  serverPort := if CarriesPort p.command then port else 0

theorem reads_readHead (hdata : CarriesData p.command → p.commandData.length ≤ 255) :
    ∃ port : UInt32, port.toNat < 16777216 ∧ (p.serverPort.toNat < 16777216 → port = p.serverPort) ∧
      Reads readHead (sentHead p) (receivedHead p port) := by
  obtain ⟨port,hlow,hport⟩ := reads_lowBytes p.serverPort.toBitVec 3
  refine ⟨⟨port⟩,hlow.toNat_lt,fun h => congrArg UInt32.ofBitVec (hlow.eq_of_lt h),?_⟩
  refine Reads.bind_next ?_
  rw [ByteEnum.Value.ofByte_toByte]
  refine Reads.bind (a := { command := p.command, commandData := if CarriesData p.command then p.commandData else [] }) ?_ ?_
  · unfold readData writeData
    by_cases hc : CarriesData p.command
    · have hsize : (lowByte p.commandData.length).toNat = p.commandData.length := by
        rw [lowByte, UInt8.toNat_ofNat_of_lt' (Nat.lt_succ_of_le (hdata hc))]
      simp only [hc, if_true]
      refine Reads.bind_next ?_
      rw [hsize]
      have hbytes := (reads_bytes p.commandData).bind (f := fun commandData =>
        (pure { command := p.command, commandData } : Reader CommandPkt)) (reads_pure _)
      rwa [List.append_nil] at hbytes
    · simp only [hc, if_false]
      exact reads_pure _
  · unfold readPort writePort receivedHead
    by_cases hc : CarriesPort p.command
    · simp only [hc, if_true]
      rw [← List.append_nil (leBytes _ _)]
      exact hport.bind (reads_pure _)
    · simp only [hc, if_false]
      exact reads_pure _

/-- The address that the memory holds from the cursor on. -/
def quadAt (buffer : Memory) (used : ℕ) : Bytes :=
  dottedQuad (buffer used) (buffer (used+1)) (buffer (used+2)) (buffer (used+3))

/-- What is read as an address is a dotted quad; of IPv6 nothing is. -/
theorem readServer_eq (pkt : CommandPkt) (buffer : Memory) (used : ℕ) :
    readServer pkt buffer used =
      if pkt.command = .named .swToClient then
        if (ByteEnum.Value.ofByte (buffer used) : ByteEnum.Value IpFamily) = .named .ipv4 then
          ({ pkt with serverAddress := quadAt buffer (used+1) },used+5)
        else (pkt,used+1)
      else (pkt,used) := by
  have hquad : XtRecentActionParser.readOctets (Decimal.text (buffer (used+1)).toNat) 3 buffer (used+2) =
      (quadAt buffer (used+1),used+5) := by
    have hreads := XtRecentActionParser.reads_readOctets
      [buffer (used+2),buffer (used+3),buffer (used+4)] (Decimal.text (buffer (used+1)).toNat)
    exact hreads buffer (used+2) ⟨rfl,rfl,rfl,trivial⟩
  unfold readServer
  split
  · change (if (ByteEnum.Value.ofByte (buffer used) : ByteEnum.Value IpFamily) = .named .ipv4 then _
      else _ : Reader CommandPkt) buffer (used+1) = _
    split
    · change ({ pkt with serverAddress := (XtRecentActionParser.readOctets
        (Decimal.text (buffer (used+1)).toNat) 3 buffer (used+2)).1 },
          (XtRecentActionParser.readOctets (Decimal.text (buffer (used+1)).toNat) 3 buffer (used+2)).2) = _
      rw [hquad]
    · rfl
  · rfl

theorem holds_serialize {out server : Bytes} (hout : out = wire p.toConnPacket (sentHead p ++ server))
    (junk : Memory) : Holds (memory out junk) 5 (sentHead p ++ server) := by
  have hall := holds_memory out [] junk
  rw [List.append_nil] at hall
  nth_rewrite 2 [hout] at hall
  rw [wire, holds_append] at hall
  exact hall.2

theorem deserialize_sent {out : Bytes} {p' : CommandPkt} (h : serialize p = .ok (out,p'))
    (hlen : out.length < 65536) (hdata : CarriesData p.command → p.commandData.length ≤ 255) :
    ∃ server port, writeServer p = .ok server ∧
      out.length = 5 + (sentHead p).length + server.length ∧
      port.toNat < 16777216 ∧ (p.serverPort.toNat < 16777216 → port = p.serverPort) ∧
      ∀ junk, Holds (memory out junk) (5 + (sentHead p).length) server ∧
        deserialize (memory out junk) out.length =
          some (readServer (receivedHead p port) (memory out junk) (5 + (sentHead p).length)) := by
  obtain ⟨server,hserver,rfl⟩ := serialize_eq h
  obtain ⟨port,hlt,hport,hreads⟩ := reads_readHead hdata
  rw [wire_length] at hlen
  refine ⟨server,port,hserver,?_,hlt,hport,fun junk => ?_⟩
  · rw [wire_length, List.length_append, Nat.add_assoc]
  · have hsent : Holds (memory (wire p.toConnPacket (sentHead p ++ server)) junk) 5
        (sentHead p ++ server) := holds_serialize rfl junk
    obtain ⟨hhead,hholds⟩ := holds_append.mp hsent
    refine ⟨hholds,?_⟩
    have hbase := BasePktParser.deserialize_wire p.toConnPacket hlen [] junk
    rw [List.append_nil] at hbase
    rw [CommandPktParser.deserialize, hbase]
    dsimp only
    rw [readBody_eq, hreads _ _ hhead]

theorem writeServer_eq_nil (h : p.command ≠ .named .swToClient) : writeServer p = .ok [] := if_neg h

theorem writeServer_eq_cons (h : p.command = .named .swToClient) {server : Bytes}
    (hserver : writeServer p = .ok server) :
    ∃ parts, server = (getIpAddressType p.serverAddress).toByte::parts := by
  rw [writeServer, if_pos h] at hserver
  cases hparts : getIpAddressArray p.serverAddress with
  | error e =>
    rw [hparts] at hserver
    cases hserver
  | ok parts =>
    rw [hparts] at hserver
    exact ⟨parts,(Except.ok.inj hserver).symm⟩

theorem length_sentHead (h : CarriesData p.command → p.commandData.length ≤ 255) :
    (sentHead p).length ≤ 257 := by
  unfold sentHead writeData writePort
  by_cases hc : CarriesData p.command
  · rw [if_pos hc, if_neg (not_carriesPort hc).1]
    have hlen := h hc
    simp only [List.length_cons, List.length_append, List.length_nil]
    omega
  · rw [if_neg hc]
    split <;> simp

theorem colon_not_mem_dottedQuad (a b c d : UInt8) : (58 : UInt8) ∉ dottedQuad a b c d := by
  have htext := Decimal.not_mem_text (b := 58) (by decide)
  simp [dottedQuad, addressText, htext]

theorem writeServer_dottedQuad {a b c d : UInt8} (h : p.command = .named .swToClient)
    (haddress : p.serverAddress = dottedQuad a b c d) :
    writeServer p = .ok ((ByteEnum.Value.named IpFamily.ipv4).toByte::[a,b,c,d]) := by
  have hcolon := colon_not_mem_dottedQuad a b c d
  have hdot : (46 : UInt8) ∈ dottedQuad a b c d := by
    simp [dottedQuad, addressText]
  rw [writeServer, if_pos h, haddress, getIpAddressType, if_neg hcolon, getIpAddressArray, if_neg hcolon,
    if_pos hdot, getIpAddressV4_dottedQuad]
  rfl

theorem CommandPkt.Sendable.roundTrips (hs : p.Sendable) : p.RoundTrips := by
  intro out p' h
  obtain ⟨server,hserver,hout⟩ := serialize_eq h
  have hshort : server.length ≤ 5 := by
    by_cases hclient : p.command = .named .swToClient
    · obtain ⟨a,b,c,d,haddress⟩ := hs.serverAddress hclient
      rw [writeServer_dottedQuad hclient haddress] at hserver
      exact Nat.le_of_eq (congrArg List.length (Except.ok.inj hserver).symm)
    · rw [writeServer_eq_nil hclient] at hserver
      simp [← Except.ok.inj hserver]
  have hsize : out.length ≤ 267 := by
    rw [hout, wire_length, List.length_append]
    have := length_sentHead hs.commandData
    omega
  refine ⟨hsize.trans (by decide),fun junk => ?_⟩
  obtain ⟨server',port,hserver',hlen,-,hport,hread⟩ := deserialize_sent h (by omega) hs.commandData
  obtain rfl : server = server' := Except.ok.inj (hserver.symm.trans hserver')
  obtain ⟨hholds,hread⟩ := hread junk
  have hport : CarriesPort p.command → (receivedHead p port).serverPort = p.serverPort := fun hc =>
    (if_pos hc).trans (hport (hs.serverPort hc))
  rw [hread, readServer_eq]
  by_cases hclient : p.command = .named .swToClient
  · obtain ⟨a,b,c,d,haddress⟩ := hs.serverAddress hclient
    rw [writeServer_dottedQuad hclient haddress] at hserver
    obtain rfl := Except.ok.inj hserver
    obtain ⟨hfam,ha,hb,hc,hd,-⟩ := hholds
    have hcommand : (receivedHead p port).command = .named .swToClient := hclient
    rw [if_pos hcommand, hfam, ByteEnum.Value.ofByte_toByte, if_pos rfl]
    refine ⟨{ receivedHead p port with serverAddress := dottedQuad a b c d },?_,rfl,?_,hport,?_⟩
    · rw [hlen, quadAt, ha, hb, hc, hd]
      rfl
    · exact fun hc => if_pos hc
    · exact fun _ => haddress.symm
  · rw [writeServer_eq_nil hclient] at hserver
    obtain rfl := Except.ok.inj hserver
    have hcommand : ¬(receivedHead p port).command = .named .swToClient := hclient
    rw [if_neg hcommand]
    refine ⟨receivedHead p port,?_,rfl,fun hc => if_pos hc,hport,fun hc => absurd hc hclient⟩
    rw [hlen]
    rfl

/-- A name that is longer than its size says is read in part. -/
theorem CommandPkt.RoundTrips.commandData (hr : p.RoundTrips) (hc : CarriesData p.command) :
    p.commandData.length ≤ 255 := by
  obtain ⟨hport,hclient⟩ := not_carriesPort hc
  obtain ⟨⟨out,p'⟩,h⟩ := serialize_eq_ok.mpr fun hsent => hclient hsent.1
  obtain ⟨server,hserver,hout⟩ := serialize_eq h
  rw [writeServer_eq_nil hclient] at hserver
  obtain rfl := Except.ok.inj hserver
  obtain ⟨q,hread,-⟩ := (hr out p' h).2 fun _ => 0
  have hhead : sentHead p = p.command.toByte::lowByte p.commandData.length::p.commandData := by
    rw [sentHead, writeData, if_pos hc, writePort, if_neg hport, List.append_nil]
  have hholds := holds_serialize hout fun _ => 0
  rw [List.append_nil, hhead] at hholds
  obtain ⟨hcommand,hsize,-⟩ := hholds
  have hextent : extent (memory out fun _ => 0) = 7 + (lowByte p.commandData.length).toNat := by
    rw [extent, hcommand, ByteEnum.Value.ofByte_toByte, hsize]
    simp only [hc, hport, hclient, if_true, if_false]
  have hused : extent (memory out fun _ => 0) = out.length := by
    rw [CommandPktParser.deserialize_eq_ite] at hread
    split at hread
    · rw [← readBody_used, Option.some.inj hread]
    · contradiction
  have hlen : out.length = 7 + p.commandData.length := by
    rw [hout, wire_length, List.append_nil, hhead, List.length_cons, List.length_cons]
    omega
  have hbyte := (lowByte p.commandData.length).toNat_lt
  omega

/-- A command that comes back has a size, a port and an address that fit. -/
theorem CommandPkt.RoundTrips.sendable (hr : p.RoundTrips)
    (hsent : ¬(p.command = .named .swToClient ∧ Unconvertible p.serverAddress)) : p.Sendable := by
  obtain ⟨⟨out,p'⟩,h⟩ := serialize_eq_ok.mpr hsent
  obtain ⟨hlen,hback⟩ := hr out p' h
  obtain ⟨q,hread,hcarries⟩ := hback fun _ => 0
  obtain ⟨server,port,hserver,hout,hlt,-,hmem⟩ := deserialize_sent h (by omega) hr.commandData
  obtain ⟨hholds,hhead⟩ := hmem fun _ => 0
  have hq : q = (readServer (receivedHead p port) (memory out fun _ => 0) (5 + (sentHead p).length)).1 :=
    congrArg Prod.fst (Option.some.inj (hread.symm.trans hhead))
  rw [readServer_eq] at hq
  refine ⟨hr.commandData,fun hc => ?_,fun hclient => ?_⟩
  · have hport : q.serverPort = port := by
      have hkept : (receivedHead p port).serverPort = port := if_pos hc
      rw [hq]
      split
      · split <;> exact hkept
      · exact hkept
    rw [← hcarries.serverPort hc, hport]
    exact hlt
  · have hcommand : (receivedHead p port).command = .named .swToClient := hclient
    obtain ⟨parts,rfl⟩ := writeServer_eq_cons hclient hserver
    rw [if_pos hcommand, hholds.1, ByteEnum.Value.ofByte_toByte, getIpAddressType] at hq
    have haddress := hcarries.serverAddress hclient
    rw [hq] at haddress
    by_cases hcolon : 58 ∈ p.serverAddress
    · -- Nothing is read of an address with a colon.
      rw [if_pos hcolon, if_neg (by decide)] at haddress
      rw [← haddress] at hcolon
      exact absurd hcolon List.not_mem_nil
    · rw [if_neg hcolon, if_pos rfl] at haddress
      exact ⟨_,_,_,_,haddress.symm⟩

/-- The commands that are refused or come back as they were sent: a name of one byte's size, and an
address of IPv4 in its canonical text, or one that cannot be converted. -/
theorem CommandPkt.roundTrips_iff (p : CommandPkt) : p.RoundTrips ↔
    p.Sendable ∨ p.command = .named .swToClient ∧ Unconvertible p.serverAddress := by
  constructor
  · intro hr
    exact (Classical.em _).symm.imp_left hr.sendable
  · rintro (hs | hsent)
    · exact hs.roundTrips
    · exact fun out p' h => absurd hsent (serialize_eq_ok.mp ⟨_,h⟩)

/-- What `start http` builds for a farm with a name of 256 bytes. -/
def longFarm : CommandPkt where
  command := .named .startHttpSync
  commandData := List.replicate 256 102

/-- What `switch backup address ::1 port 9999` builds. -/
def ipv6Server : CommandPkt where
  command := .named .swToClient
  serverPort := 9999
  serverAddress := ascii "::1"

theorem not_roundTrips_main :
    (main (words ["start","http"] ++ [longFarm.commandData]) = some longFarm ∧ ¬longFarm.RoundTrips) ∧
      main (words ["switch","backup","address","::1","port","9999"]) = some ipv6Server ∧
        ¬ipv6Server.RoundTrips := by
  refine ⟨⟨rfl,fun h => ?_⟩,by decide,fun h => ?_⟩
  · have hlen : longFarm.commandData.length = 256 := List.length_replicate
    have hfits := h.commandData (by decide)
    omega
  · have hconverted : ¬Unconvertible ipv6Server.serverAddress := fun hno => hno.1 (by decide)
    obtain ⟨a,b,c,d,haddress⟩ := (h.sendable fun hno => hconverted hno.2).serverAddress rfl
    have hcolon : 58 ∈ ipv6Server.serverAddress := by decide
    rw [haddress] at hcolon
    exact colon_not_mem_dottedQuad a b c d hcolon

end

end Controller
end Ssyncd
