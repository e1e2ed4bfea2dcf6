import Ssyncd.Codec.PktParser
import Ssyncd.Ctl.CommandPkt

/-! How far each decoder goes: the sizes and counts inside a body, added up. -/
namespace Ssyncd
open Reader

/-- A decoder whose answer depends on the received bytes only, and which uses no more of them
than there are. -/
structure StaysInside {α : Type} (decode : Memory → ℕ → Option (α × ℕ)) (buffer : Memory) (n : ℕ) :
    Prop where
  reads : ∀ buffer' : Memory, (∀ i < n, buffer' i = buffer i) → decode buffer' n = decode buffer n
  used : ∀ a used, decode buffer n = some (a,used) → 5 ≤ used ∧ used ≤ n

namespace BasePktParser

/-- The header is there, and the length that it declares. -/
def Accepts (buffer : Memory) (n : ℕ) : Prop :=
  5 ≤ n ∧ (headerLength (buffer 3) (buffer 4)).toNat ≤ n

instance (buffer : Memory) (n : ℕ) : Decidable (Accepts buffer n) :=
  inferInstanceAs (Decidable (_ ∧ _))

def header (buffer : Memory) : ConnPacket where
  header1 := (buffer 0).toNat
  header2 := (buffer 1).toNat
  type := .ofByte (buffer 2)
  pktLen := headerLength (buffer 3) (buffer 4)

theorem deserialize_eq (buffer : Memory) (n : ℕ) :
    deserialize buffer n = if Accepts buffer n then some (header buffer,5) else none := by
  unfold deserialize Accepts
  by_cases h5 : 5 ≤ n
  · by_cases hlen : n < (headerLength (buffer 3) (buffer 4)).toNat
    · simp [h5, hlen, header]
    · simp [h5, hlen, Nat.le_of_not_lt hlen, header]
  · simp [h5]

theorem accepts_congr {buffer buffer' : Memory} {n : ℕ} (h : ∀ i < n, buffer' i = buffer i) :
    Accepts buffer' n ↔ Accepts buffer n := by
  unfold Accepts
  by_cases h5 : 5 ≤ n
  · rw [h 3 (by omega), h 4 (by omega)]
  · simp [h5]

theorem header_congr {buffer buffer' : Memory} {n : ℕ} (h5 : 5 ≤ n)
    (h : ∀ i < n, buffer' i = buffer i) : header buffer' = header buffer := by
  simp only [header, h 0 (by omega), h 1 (by omega), h 2 (by omega), h 3 (by omega),
    h 4 (by omega)]

end BasePktParser

open BasePktParser (Accepts header deserialize_eq accepts_congr header_congr)

/-- A decoder that answers what a reader makes of the body, where the header is accepted and
passes a check. -/
theorem staysInside_iff {α : Type} {decode : Memory → ℕ → Option (α × ℕ)} (check : ConnPacket → Prop)
    [DecidablePred check] (body : ConnPacket → Reader α)
    (hdecode : ∀ buffer n, decode buffer n =
      if Accepts buffer n ∧ check (header buffer) then some (body (header buffer) buffer 5) else none)
    (hbody : ∀ pkt, Sequential (body pkt)) (buffer : Memory) (n : ℕ) :
    StaysInside decode buffer n ↔
      (Accepts buffer n → check (header buffer) → (body (header buffer) buffer 5).2 ≤ n) := by
  constructor
  · intro h hacc hcheck
    refine (h.used (body (header buffer) buffer 5).1 _ ?_).2
    rw [hdecode, if_pos ⟨hacc,hcheck⟩]
  · intro h
    constructor
    · intro buffer' hsame
      rw [hdecode, hdecode]
      by_cases hok : Accepts buffer n ∧ check (header buffer)
      · have hheader := header_congr hok.1.1 hsame
        have hbytes := (hbody (header buffer) buffer 5).2 buffer' fun i _ hi =>
          hsame i (Nat.lt_of_lt_of_le hi (h hok.1 hok.2))
        rw [if_pos hok, hheader, if_pos ⟨(accepts_congr hsame).mpr hok.1,hok.2⟩, hbytes]
      · have hok' : ¬(Accepts buffer' n ∧ check (header buffer')) := by
          rintro ⟨hacc,hcheck⟩
          rw [accepts_congr hsame] at hacc
          exact hok ⟨hacc,header_congr hacc.1 hsame ▸ hcheck⟩
        rw [if_neg hok, if_neg hok']
    · intro a used hused
      rw [hdecode] at hused
      split at hused
      · next hok =>
        have heq := congrArg Prod.snd (Option.some.inj hused)
        subst heq
        exact ⟨(hbody (header buffer) buffer 5).1,h hok.1 hok.2⟩
      · contradiction

namespace HttpParser
open Http

theorem sequential_readString : Sequential readString :=
  sequential_next.bind fun _ => sequential_bytes _

theorem sequential_readId : Sequential readId :=
  (sequential_orBytes _ _ _).bind fun _ => sequential_pure _

theorem sequential_readContent (packet : HttpAction) : Sequential (readContent packet) :=
  sequential_readString.bind fun _ => (sequential_orBytes _ _ _).bind fun _ => sequential_pure _

theorem sequential_readSession (packet : HttpAction) : Sequential (readSession packet) :=
  sequential_readId.bind fun _ => sequential_readId.bind fun _ => sequential_readId.bind fun _ =>
    sequential_readString.bind fun _ => (sequential_readContent _).ite (sequential_pure _)

theorem sequential_readBody : Sequential readBody :=
  sequential_next.bind fun _ => sequential_readString.bind fun _ =>
    (sequential_pure _).ite (sequential_readSession _)

/-- Where the packet's body ends: the farm's name, then the ids and the key, then the content
and the time. -/
def extent (buffer : Memory) : ℕ :=
  let action : ByteEnum.Value ActionType := .ofByte (buffer 5)
  let farm := 7 + (buffer 6).toNat
  let key := farm + 13 + (buffer (farm + 12)).toNat
  if action = .named .syncRequest then farm
  else if CarriesContent action then key + 9 + (buffer key).toNat
  else key

theorem readString_used (buffer : Memory) (used : ℕ) :
    (readString buffer used).2 = used + 1 + (buffer used).toNat := by
  rw [readString, bind_used, bytes_used, next_used]
  rfl

theorem readId_used (buffer : Memory) (used : ℕ) : (readId buffer used).2 = used + 4 := by
  rw [readId, bind_used, orBytes_used, pure_used]

theorem readContent_used (packet : HttpAction) (buffer : Memory) (used : ℕ) :
    (readContent packet buffer used).2 = used + 9 + (buffer used).toNat := by
  rw [readContent, bind_used, bind_used, pure_used, orBytes_used, readString_used]
  omega

theorem readSession_used (packet : HttpAction) (buffer : Memory) (used : ℕ) :
    (readSession packet buffer used).2 =
      let key := used + 13 + (buffer (used + 12)).toNat
      if CarriesContent packet.action then key + 9 + (buffer key).toNat else key := by
  rw [readSession, bind_used, readId_used, bind_used, readId_used, bind_used, readId_used,
    bind_used, readString_used, ite_used, readContent_used, pure_used]

theorem readBody_used (buffer : Memory) : (readBody buffer 5).2 = extent buffer := by
  rw [readBody, bind_used, next_used, bind_used, readString_used, ite_used, pure_used,
    readSession_used]
  rfl

/-- The packet that is given its length at the end. -/
def readPacket : Reader HttpAction := do
  let packet ← readBody
  let used ← position
  if CarriesContent packet.action then return { packet with pktLen := UInt32.ofNat used }
  else return packet

theorem sequential_position : Sequential position :=
  fun _ _ => ⟨Nat.le_refl _,fun _ _ => rfl⟩

theorem sequential_readPacket : Sequential readPacket :=
  sequential_readBody.bind fun _ => sequential_position.bind fun _ =>
    (sequential_pure _).ite (sequential_pure _)

theorem readPacket_used (buffer : Memory) : (readPacket buffer 5).2 = extent buffer := by
  rw [readPacket, bind_used, bind_used, ite_used, pure_used, pure_used, ite_self]
  exact readBody_used buffer

theorem deserialize_eq_ite (buffer : Memory) (n : ℕ) : deserialize buffer n =
    if Accepts buffer n ∧ (header buffer).type = .named .httpSync then some (readPacket buffer 5)
    else none := by
  rw [deserialize, deserialize_eq]
  by_cases hacc : Accepts buffer n
  · by_cases htype : (header buffer).type = .named .httpSync
    · rw [if_pos hacc, if_pos ⟨hacc,htype⟩]
      simp only [htype, if_true]
      change _ = some ((if CarriesContent (readBody buffer 5).1.action then
          pure { (readBody buffer 5).1 with pktLen := UInt32.ofNat (readBody buffer 5).2 }
        else pure (readBody buffer 5).1 : Reader HttpAction) buffer (readBody buffer 5).2)
      split <;> rfl
    · rw [if_pos hacc, if_neg fun h => htype h.2]
      simp only [htype, if_false]
  · rw [if_neg hacc, if_neg fun h => hacc h.1]

end HttpParser

namespace XtRecentActionParser
open Recent

theorem sequential_readOctets (srcIp : Bytes) (n : ℕ) : Sequential (readOctets srcIp n) := by
  induction n generalizing srcIp with
  | zero => exact sequential_pure _
  | succ n ih => exact sequential_next.bind fun _ => ih _

theorem sequential_readTimestamps (timestamps : List UInt64) (n : ℕ) :
    Sequential (readTimestamps timestamps n) := by
  induction n generalizing timestamps with
  | zero => exact sequential_pure _
  | succ n ih => exact (sequential_orBytes _ _ _).bind fun _ => ih _

theorem sequential_readAddress (packet : XtRecentAction) : Sequential (readAddress packet) :=
  Sequential.ite (sequential_next.bind fun _ => sequential_next.bind fun _ =>
    (sequential_readOctets _ _).bind fun _ => sequential_pure _) (sequential_pure _)

theorem sequential_readStamps (packet : XtRecentAction) : Sequential (readStamps packet) :=
  Sequential.ite (sequential_next.bind fun _ => sequential_next.bind fun _ =>
    sequential_next.bind fun _ => (sequential_readTimestamps _ _).bind fun _ => sequential_pure _)
    (sequential_pure _)

theorem sequential_readBody (ret : ConnPacket) : Sequential (readBody ret) :=
  sequential_next.bind fun _ => (sequential_readAddress _).bind fun _ =>
    (sequential_readStamps _).bind fun _ => sequential_next.bind fun _ =>
      (sequential_bytes _).bind fun _ => sequential_pure _

/-- Where the packet's body ends: the address, then the stamps, then the table's name. -/
def extent (buffer : Memory) : ℕ :=
  let action : ByteEnum.Value ActionType := .ofByte (buffer 5)
  let address := if CarriesAddress action then 11 else 6
  let stamps :=
    if action = .named .addUpdEntry then address + 3 + 8 * (buffer (address + 2)).toNat
    else address
  stamps + 1 + ((buffer stamps).toNat - 1)

theorem readOctets_used (srcIp : Bytes) (n : ℕ) (buffer : Memory) (used : ℕ) :
    (readOctets srcIp n buffer used).2 = used + n := by
  induction n generalizing srcIp used with
  | zero => rfl
  | succ n ih => rw [readOctets, bind_used, ih, next_used, Nat.add_assoc, Nat.add_comm 1 n]

theorem readTimestamps_used (timestamps : List UInt64) (n : ℕ) (buffer : Memory) (used : ℕ) :
    (readTimestamps timestamps n buffer used).2 = used + 8 * n := by
  induction n generalizing timestamps used with
  | zero => rfl
  | succ n ih =>
    rw [readTimestamps, bind_used, ih, orBytes_used]
    omega

theorem readAddress_used (packet : XtRecentAction) (buffer : Memory) (used : ℕ) :
    (readAddress packet buffer used).2 =
      if CarriesAddress packet.action then used + 5 else used := by
  rw [readAddress, ite_used, bind_used, bind_used, bind_used, readOctets_used, pure_used, pure_used,
    next_used, next_used]

theorem readAddress_action (packet : XtRecentAction) (buffer : Memory) (used : ℕ) :
    (readAddress packet buffer used).1.action = packet.action := by
  unfold readAddress
  split <;> rfl

theorem readStamps_used (packet : XtRecentAction) (buffer : Memory) (used : ℕ) :
    (readStamps packet buffer used).2 =
      if packet.action = .named .addUpdEntry then used + 3 + 8 * (buffer (used + 2)).toNat
      else used := by
  rw [readStamps, ite_used, bind_used, bind_used, bind_used, bind_used, readTimestamps_used,
    pure_used, pure_used, next_used, next_used, next_used]
  rfl

theorem readName_used (packet : XtRecentAction) (buffer : Memory) (used : ℕ) :
    (readName packet buffer used).2 = used + 1 + ((buffer used).toNat - 1) := by
  rw [readName, bind_used, bind_used, bytes_used, pure_used, next_used]
  rfl

theorem readBody_used (ret : ConnPacket) (buffer : Memory) :
    (readBody ret buffer 5).2 = extent buffer := by
  rw [readBody, bind_used, bind_used, bind_used, readName_used, readStamps_used, readAddress_used,
    readAddress_action, next_used]
  rfl

theorem deserialize_eq_ite (buffer : Memory) (n : ℕ) : deserialize buffer n =
    if Accepts buffer n ∧ (header buffer).type = .named .xtRecentSync then
      some (readBody (header buffer) buffer 5)
    else none := by
  rw [deserialize, deserialize_eq]
  by_cases hacc : Accepts buffer n
  · rw [if_pos hacc]
    by_cases htype : (header buffer).type = .named .xtRecentSync
    · rw [if_pos ⟨hacc,htype⟩]
      simp only [htype, if_true]
    · rw [if_neg fun h => htype h.2]
      simp only [htype, if_false]
  · rw [if_neg hacc, if_neg fun h => hacc h.1]

end XtRecentActionParser

namespace CommandPktParser
open Controller

theorem sequential_readData (pkt : CommandPkt) : Sequential (readData pkt) :=
  Sequential.ite (sequential_next.bind fun _ => (sequential_bytes _).bind fun _ => sequential_pure _)
    (sequential_pure _)

theorem sequential_readPort (pkt : CommandPkt) : Sequential (readPort pkt) :=
  Sequential.ite ((sequential_orBytes _ _ _).bind fun _ => sequential_pure _) (sequential_pure _)

theorem sequential_readServer (pkt : CommandPkt) : Sequential (readServer pkt) :=
  Sequential.ite (sequential_next.bind fun _ => Sequential.ite
    (sequential_next.bind fun _ =>
      (XtRecentActionParser.sequential_readOctets _ _).bind fun _ => sequential_pure _)
    (sequential_pure _)) (sequential_pure _)

theorem sequential_readBody : Sequential readBody :=
  sequential_next.bind fun _ => (sequential_readData _).bind fun _ =>
    (sequential_readPort _).bind fun _ => sequential_readServer _

/-- Where the command ends: the name, then the port, then the address. -/
def extent (buffer : Memory) : ℕ :=
  let command : ByteEnum.Value CommandId := .ofByte (buffer 5)
  let data := if CarriesData command then 7 + (buffer 6).toNat else 6
  let port := if CarriesPort command then data + 3 else data
  if command = .named .swToClient then
    if (ByteEnum.Value.ofByte (buffer port) : ByteEnum.Value IpFamily) = .named .ipv4 then port + 5
    else port + 1
  else port

theorem readData_used (pkt : CommandPkt) (buffer : Memory) (used : ℕ) :
    (readData pkt buffer used).2 =
      if CarriesData pkt.command then used + 1 + (buffer used).toNat else used := by
  rw [readData, ite_used, bind_used, bind_used, bytes_used, pure_used, pure_used, next_used]
  rfl

theorem readData_command (pkt : CommandPkt) (buffer : Memory) (used : ℕ) :
    (readData pkt buffer used).1.command = pkt.command := by
  unfold readData
  split <;> rfl

theorem readPort_used (pkt : CommandPkt) (buffer : Memory) (used : ℕ) :
    (readPort pkt buffer used).2 = if CarriesPort pkt.command then used + 3 else used := by
  rw [readPort, ite_used, bind_used, orBytes_used, pure_used, pure_used]

theorem readPort_command (pkt : CommandPkt) (buffer : Memory) (used : ℕ) :
    (readPort pkt buffer used).1.command = pkt.command := by
  unfold readPort
  split <;> rfl

theorem readServer_used (pkt : CommandPkt) (buffer : Memory) (used : ℕ) :
    (readServer pkt buffer used).2 =
      if pkt.command = .named .swToClient then
        if (ByteEnum.Value.ofByte (buffer used) : ByteEnum.Value IpFamily) = .named .ipv4 then used + 5
        else used + 1
      else used := by
  rw [readServer, ite_used, bind_used, ite_used, bind_used, bind_used,
    XtRecentActionParser.readOctets_used, pure_used, pure_used, pure_used, next_used, next_used]
  rfl

theorem readBody_used (buffer : Memory) : (readBody buffer 5).2 = extent buffer := by
  rw [readBody, bind_used, bind_used, bind_used, readServer_used, readPort_used, readPort_command,
    readData_used, readData_command, next_used]
  rfl

theorem deserialize_eq_ite (buffer : Memory) (n : ℕ) : deserialize buffer n =
    if Accepts buffer n ∧ True then some (readBody buffer 5) else none := by
  rw [deserialize, deserialize_eq]
  by_cases hacc : Accepts buffer n
  · rw [if_pos hacc, if_pos ⟨hacc,trivial⟩]
  · rw [if_neg hacc, if_neg fun h => hacc h.1]

end CommandPktParser

namespace PktParser

def readBody (ret : ConnPacket) : Reader Packet :=
  match getPacketParser ret.type with
  | .actionParser => do return .recent (← XtRecentActionParser.readBody ret)
  | .poundParser => do return .http (← HttpParser.readPacket)
  | .tableParser | .baseParser => return .conn ret

theorem sequential_readBody (ret : ConnPacket) : Sequential (readBody ret) := by
  unfold readBody
  split
  · exact (XtRecentActionParser.sequential_readBody ret).bind fun _ => sequential_pure _
  · exact HttpParser.sequential_readPacket.bind fun _ => sequential_pure _
  · exact sequential_pure _
  · exact sequential_pure _

/-- Where the packet ends; the packets without a body end with the header. -/
def extent (buffer : Memory) : ℕ :=
  match getPacketParser (header buffer).type with
  | .actionParser => XtRecentActionParser.extent buffer
  | .poundParser => HttpParser.extent buffer
  | .tableParser | .baseParser => 5

theorem readBody_used (buffer : Memory) :
    (readBody (header buffer) buffer 5).2 = extent buffer := by
  cases hparser : getPacketParser (header buffer).type with
  | actionParser =>
    simp only [readBody, extent, hparser]
    rw [bind_used, pure_used, XtRecentActionParser.readBody_used]
  | poundParser =>
    simp only [readBody, extent, hparser]
    rw [bind_used, pure_used, HttpParser.readPacket_used]
  | tableParser => simp only [readBody, extent, hparser, pure_used]
  | baseParser => simp only [readBody, extent, hparser, pure_used]

theorem type_of_getPacketParser {type : ByteEnum.Value PacketType} :
    (getPacketParser type = .actionParser → type = .named .xtRecentSync) ∧
      (getPacketParser type = .poundParser → type = .named .httpSync) := by
  cases type with
  | named t => cases t <;> simp [getPacketParser]
  | unnamed b h => simp [getPacketParser]

theorem deserialize_eq_ite (buffer : Memory) (n : ℕ) : deserialize buffer n =
    if Accepts buffer n ∧ getPacketParser (header buffer).type ≠ .tableParser then
      some (readBody (header buffer) buffer 5)
    else none := by
  rw [deserialize, deserialize_eq]
  by_cases hacc : Accepts buffer n
  · rw [if_pos hacc]
    cases hparser : getPacketParser (header buffer).type with
    | actionParser =>
      simp only [readBody, XtRecentActionParser.deserialize_eq_ite, hacc,
        type_of_getPacketParser.1 hparser]
      rfl
    | poundParser =>
      simp only [readBody, HttpParser.deserialize_eq_ite, hacc, type_of_getPacketParser.2 hparser]
      rfl
    | tableParser => simp [hparser]
    | baseParser =>
      simp only [readBody, hparser, hacc]
      rfl
  · rw [if_neg hacc, if_neg fun h => hacc h.1]

theorem type_readRecent (ret : ConnPacket) (buffer : Memory) (used : ℕ) :
    (XtRecentActionParser.readBody ret buffer used).1.type = ret.type := by
  have haddress : ∀ p used', (XtRecentActionParser.readAddress p buffer used').1.type = p.type := by
    intro p used'
    unfold XtRecentActionParser.readAddress
    split <;> rfl
  have hstamps : ∀ p used', (XtRecentActionParser.readStamps p buffer used').1.type = p.type := by
    intro p used'
    unfold XtRecentActionParser.readStamps
    split <;> rfl
  exact (hstamps _ _).trans (haddress _ _)

theorem type_readPacket (buffer : Memory) (used : ℕ) :
    (HttpParser.readPacket buffer used).1.type = .named .httpSync := by
  have hsession : ∀ p used', (HttpParser.readSession p buffer used').1.type = p.type := by
    intro p used'
    unfold HttpParser.readSession
    change (ite _ _ _ : Reader Http.HttpAction) buffer _ |>.1.type = _
    split <;> rfl
  have hbody : (HttpParser.readBody buffer used).1.type = .named .httpSync := by
    unfold HttpParser.readBody
    change (ite _ _ _ : Reader Http.HttpAction) buffer _ |>.1.type = _
    split
    · rfl
    · exact hsession _ _
  unfold HttpParser.readPacket
  change (ite _ _ _ : Reader Http.HttpAction) buffer _ |>.1.type = _
  split <;> exact hbody

/-- A packet is of the type that its header says. -/
theorem type_deserialize {buffer : Memory} {n used : ℕ} {pkt : Packet}
    (h : deserialize buffer n = some (pkt,used)) : pkt.toConnPacket.type = (header buffer).type := by
  rw [deserialize_eq_ite] at h
  split at h
  · obtain rfl : (readBody (header buffer) buffer 5).1 = pkt := congrArg Prod.fst (Option.some.inj h)
    cases hparser : getPacketParser (header buffer).type with
    | actionParser =>
      simp only [readBody, hparser]
      exact type_readRecent _ _ _
    | poundParser =>
      simp only [readBody, hparser]
      exact (type_readPacket _ _).trans (type_of_getPacketParser.2 hparser).symm
    | tableParser | baseParser =>
      simp only [readBody, hparser]
      rfl
  · contradiction

end PktParser

/-- Each decoder stays inside the received bytes exactly where the sizes and counts of an accepted
body do. -/
theorem decoders_stay_inside_iff (buffer : Memory) (n : ℕ) :
    (StaysInside PktParser.deserialize buffer n ↔
      (Accepts buffer n → PktParser.extent buffer ≤ n)) ∧
    (StaysInside HttpParser.deserialize buffer n ↔
      (Accepts buffer n → (header buffer).type = .named .httpSync → HttpParser.extent buffer ≤ n)) ∧
    (StaysInside CommandPktParser.deserialize buffer n ↔
      (Accepts buffer n → CommandPktParser.extent buffer ≤ n)) := by
  refine ⟨?_,?_,?_⟩
  · rw [staysInside_iff (fun pkt => PktParser.getPacketParser pkt.type ≠ .tableParser) _
      PktParser.deserialize_eq_ite PktParser.sequential_readBody, PktParser.readBody_used]
    refine forall_congr' fun hacc => ⟨fun h => ?_,fun h _ => h⟩
    by_cases htable : PktParser.getPacketParser (header buffer).type = .tableParser
    · simp only [PktParser.extent, htable]
      exact hacc.1
    · exact h htable
  · rw [staysInside_iff (fun pkt => pkt.type = .named .httpSync) (fun _ => HttpParser.readPacket)
      HttpParser.deserialize_eq_ite fun _ => HttpParser.sequential_readPacket,
      HttpParser.readPacket_used]
  · rw [staysInside_iff (fun _ => True) (fun _ => CommandPktParser.readBody)
      CommandPktParser.deserialize_eq_ite fun _ => CommandPktParser.sequential_readBody,
      CommandPktParser.readBody_used]
    exact forall_congr' fun _ => ⟨fun h => h trivial,fun h _ => h⟩

/-- A session packet of seven bytes, of which the last one is the size of a name. -/
theorem decoders_leave : ¬ ∀ (buffer : Memory) (n : ℕ), StaysInside PktParser.deserialize buffer n ∧
    StaysInside HttpParser.deserialize buffer n ∧ StaysInside CommandPktParser.deserialize buffer n := by
  intro h
  have hused := (h (memory [239,171,6,7,0,1,1] fun _ => 0) 7).1.used _ _ rfl
  exact absurd hused.2 (by decide)

end Ssyncd
