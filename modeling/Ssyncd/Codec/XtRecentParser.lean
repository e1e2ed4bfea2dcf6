import Ssyncd.Recent
import Ssyncd.Codec.Base

/-! The packets that carry recent actions. -/
namespace Ssyncd
open Reader

namespace Recent

/-- The actions whose packets carry a source address. -/
def CarriesAddress (action : ByteEnum.Value ActionType) : Prop :=
  action = .named .addUpdEntry ∨ action = .named .deleteEntry

instance (action : ByteEnum.Value ActionType) : Decidable (CarriesAddress action) :=
  inferInstanceAs (Decidable (_ ∨ _))

end Recent

namespace XtRecentActionParser
open Recent

def writeAddress (a : XtRecentAction) : Except Fault Bytes :=
  if CarriesAddress a.action then
    return a.targetEntry.ipFamily.toByte :: (← getIpAddressV4 a.targetEntry.srcIp)
  else return []

def writeStamps (a : XtRecentAction) : Bytes :=
  if a.action = .named .addUpdEntry then
    UInt8.ofInt a.targetEntry.lastSeenIndex :: UInt8.ofInt a.targetEntry.ttl ::
      lowByte a.targetEntry.timestamps.length ::
        a.targetEntry.timestamps.flatMap fun nstamp => leBytes nstamp.toBitVec 8
  else []

/-- The name's buffer has room for its terminator; strcpy fills it up to the first NUL of the
name, and what it leaves unwritten is zero here. -/
def nameBuffer (name : Bytes) : Bytes :=
  cString name ++ List.replicate (name.length + 1 - (cString name).length) 0

def writeName (a : XtRecentAction) : Bytes :=
  lowByte (a.xtTableName.length + 1) :: nameBuffer a.xtTableName

def writeBody (a : XtRecentAction) : Except Fault Bytes :=
  return a.action.toByte :: (← writeAddress a) ++ writeStamps a ++ writeName a

/-- The size is one less than what was written, so the last byte is not sent. -/
def serialize (pkt : XtRecentAction) : Except Fault (Bytes × XtRecentAction) := do
  let body ← writeBody pkt
  let out := patchLength (BasePktParser.serialize pkt.toConnPacket ++ body).dropLast
  return (out,{ pkt with pktLen := sentLength out.length })

/-- The parts of an address after the first, each behind a dot. -/
def readOctets (srcIp : Bytes) : ℕ → Reader Bytes
  | 0 => return srcIp
  | n+1 => do
    let part ← next
    readOctets (srcIp ++ 46 :: Decimal.text part.toNat) n

def readAddress (packet : XtRecentAction) : Reader XtRecentAction :=
  if CarriesAddress packet.action then do
    let ipFamily ← next
    let part ← next
    let srcIp ← readOctets (Decimal.text part.toNat) 3
    return { packet with targetEntry :=
      { packet.targetEntry with ipFamily := .ofByte ipFamily, srcIp } }
  else return packet

def readTimestamps (timestamps : List UInt64) : ℕ → Reader (List UInt64)
  | 0 => return timestamps
  | n+1 => do
    let timestamp ← orBytes (0 : BitVec 64) 0 8
    readTimestamps (timestamps ++ [⟨timestamp⟩]) n

def readStamps (packet : XtRecentAction) : Reader XtRecentAction :=
  if packet.action = .named .addUpdEntry then do
    let lastSeenIndex ← next
    let ttl ← next
    let tmstmpCount ← next
    let timestamps ← readTimestamps packet.targetEntry.timestamps tmstmpCount.toNat
    return { packet with targetEntry := { packet.targetEntry with
      lastSeenIndex := lastSeenIndex.toNat, ttl := ttl.toNat, timestamps } }
  else return packet

/-- The length counts the terminator that is not sent. -/
def readName (packet : XtRecentAction) : Reader XtRecentAction := do
  let len ← next
  let xtTableName ← bytes (len.toNat - 1)
  return { packet with xtTableName }

/-- The constructor from a received header, and the action that is read next. -/
def ofConnPacket (pkt : ConnPacket) (action : ByteEnum.Value ActionType) : XtRecentAction where
  header1 := pkt.header1
  header2 := pkt.header2
  type := pkt.type
  pktLen := pkt.pktLen
  action := action

def readBody (ret : ConnPacket) : Reader XtRecentAction := do
  let action ← next
  let packet := ofConnPacket ret (.ofByte action)
  let packet ← readAddress packet
  let packet ← readStamps packet
  readName packet

def deserialize (buffer : Memory) (bufferSize : ℕ) : Option (XtRecentAction × ℕ) :=
  match BasePktParser.deserialize buffer bufferSize with
  | some (ret,used) =>
    if ret.type = .named .xtRecentSync then some (readBody ret buffer used) else none
  | none => none

/-- What the nodes send: an address in dotted quad text, a count and a name length of one byte. -/
structure Fits (a : XtRecentAction) : Prop where
  address : CarriesAddress a.action → ∃ parts, DottedQuad a.targetEntry.srcIp parts
  timestamps : a.targetEntry.timestamps.length ≤ 255
  name : a.xtTableName.length ≤ 254
  nulFree : 0 ∉ a.xtTableName

/-- The address bytes that go into the packet, none when the action carries no address. -/
def octets (a : XtRecentAction) : Bytes :=
  if CarriesAddress a.action then
    match getIpAddressV4 a.targetEntry.srcIp with
    | .ok parts => parts
    | .error _ => []
  else []

theorem octets_eq {a : XtRecentAction} (h : Fits a) (hc : CarriesAddress a.action) :
    getIpAddressV4 a.targetEntry.srcIp = .ok (octets a) ∧ (octets a).length = 4 := by
  obtain ⟨parts,hp⟩ := h.address hc
  have hget := hp.getIpAddressV4
  rw [octets, if_pos hc, hget]
  exact ⟨rfl,by rw [List.length_map, hp.length]⟩

theorem nameBuffer_eq {name : Bytes} (h : 0 ∉ name) : nameBuffer name = name ++ [0] := by
  rw [nameBuffer, cString_eq_self h, Nat.add_sub_cancel_left]
  rfl

/-- The body of a packet as it is sent, without the terminator. -/
def sentBody (a : XtRecentAction) : Bytes :=
  a.action.toByte :: (if CarriesAddress a.action then
      a.targetEntry.ipFamily.toByte :: octets a else []) ++ writeStamps a ++
    (lowByte (a.xtTableName.length + 1) :: a.xtTableName)

theorem serialize_eq {a : XtRecentAction} (h : Fits a) :
    serialize a = .ok (wire a.toConnPacket (sentBody a),
      { a with pktLen := sentLength (5 + (sentBody a).length) }) := by
  have haddr : writeAddress a = .ok (if CarriesAddress a.action then
      a.targetEntry.ipFamily.toByte :: octets a else []) := by
    unfold writeAddress
    split
    · next hc => rw [(octets_eq h hc).1]; rfl
    · rfl
  have hbody : writeBody a = .ok (sentBody a ++ [0]) := by
    rw [writeBody, haddr, writeName, nameBuffer_eq h.nulFree]
    simp only [sentBody, List.append_assoc, List.cons_append]
    rfl
  have hdrop : (BasePktParser.serialize a.toConnPacket ++ (sentBody a ++ [0])).dropLast =
      BasePktParser.serialize a.toConnPacket ++ sentBody a := by
    rw [← List.append_assoc, List.dropLast_concat]
  rw [serialize, hbody]
  change Except.ok _ = Except.ok _
  rw [hdrop, patchLength_serialize, wire_length]

theorem reads_readOctets (parts srcIp : Bytes) :
    Reads (readOctets srcIp parts.length) parts
      (srcIp ++ parts.flatMap fun p => 46 :: Decimal.text p.toNat) := by
  induction parts generalizing srcIp with
  | nil =>
    rw [List.flatMap_nil, List.append_nil]
    exact reads_pure _
  | cons part parts ih =>
    have h := ih (srcIp ++ 46 :: Decimal.text part.toNat)
    rw [List.append_assoc] at h
    exact Reads.bind_next h

theorem reads_readTimestamps (stamps timestamps : List UInt64) :
    Reads (readTimestamps timestamps stamps.length)
      (stamps.flatMap fun nstamp => leBytes nstamp.toBitVec 8) (timestamps ++ stamps) := by
  induction stamps generalizing timestamps with
  | nil =>
    rw [List.append_nil]
    exact reads_pure _
  | cons nstamp stamps ih =>
    have h := ih (timestamps ++ [nstamp])
    rw [List.append_assoc] at h
    rw [List.flatMap_cons]
    exact (reads_leBytes nstamp.toBitVec (by omega)).bind h

/-- The packet after its address has been read. -/
def addressed (a packet : XtRecentAction) : XtRecentAction :=
  if CarriesAddress a.action then
    { packet with targetEntry := { packet.targetEntry with
        ipFamily := a.targetEntry.ipFamily, srcIp := addressText (octets a) } }
  else packet

/-- The packet after its time stamps have been read. -/
def stamped (a packet : XtRecentAction) : XtRecentAction :=
  if a.action = .named .addUpdEntry then
    { packet with targetEntry := { packet.targetEntry with
        lastSeenIndex := (UInt8.ofInt a.targetEntry.lastSeenIndex).toNat
        ttl := (UInt8.ofInt a.targetEntry.ttl).toNat
        timestamps := packet.targetEntry.timestamps ++ a.targetEntry.timestamps } }
  else packet

@[simp] theorem addressed_action (a packet : XtRecentAction) :
    (addressed a packet).action = packet.action := by
  unfold addressed
  split <;> rfl

theorem reads_readAddress {a p : XtRecentAction} (h : Fits a) (haction : p.action = a.action) :
    Reads (readAddress p)
      (if CarriesAddress a.action then a.targetEntry.ipFamily.toByte :: octets a else [])
      (addressed a p) := by
  rw [readAddress, addressed, ← haction]
  by_cases hc : CarriesAddress p.action
  · rw [if_pos hc, if_pos hc, if_pos hc]
    obtain ⟨-,hlen⟩ := octets_eq h (haction ▸ hc)
    match octets a, hlen with
    | part::parts, hlen =>
      have hparts : parts.length = 3 := by simpa using hlen
      have hr := reads_readOctets parts (Decimal.text part.toNat)
      rw [hparts] at hr
      refine Reads.bind_next (Reads.bind_next ?_)
      rw [ByteEnum.Value.ofByte_toByte, ← List.append_nil parts]
      refine hr.bind ?_
      rw [List.append_nil]
      exact reads_pure _
  · rw [if_neg hc, if_neg hc, if_neg hc]
    exact reads_pure _

theorem reads_readStamps {a p : XtRecentAction} (h : Fits a) (haction : p.action = a.action) :
    Reads (readStamps p) (writeStamps a) (stamped a p) := by
  have hcount : (lowByte a.targetEntry.timestamps.length).toNat =
      a.targetEntry.timestamps.length := by
    rw [lowByte, UInt8.toNat_ofNat_of_lt' (Nat.lt_of_le_of_lt h.timestamps (by decide))]
  rw [readStamps, writeStamps, stamped, ← haction]
  by_cases hadd : p.action = .named .addUpdEntry
  · rw [if_pos hadd, if_pos hadd, if_pos hadd]
    refine Reads.bind_next (Reads.bind_next (Reads.bind_next ?_))
    rw [hcount, ← List.append_nil (List.flatMap _ _)]
    exact (reads_readTimestamps _ _).bind (reads_pure _)
  · rw [if_neg hadd, if_neg hadd, if_neg hadd]
    exact reads_pure _

theorem reads_readName {a : XtRecentAction} (h : Fits a) (packet : XtRecentAction) :
    Reads (readName packet) (lowByte (a.xtTableName.length + 1) :: a.xtTableName)
      { packet with xtTableName := a.xtTableName } := by
  have hlen : (lowByte (a.xtTableName.length + 1)).toNat - 1 = a.xtTableName.length := by
    have := h.name
    rw [lowByte, UInt8.toNat_ofNat_of_lt' (show a.xtTableName.length + 1 < 256 by omega)]
    rfl
  refine Reads.bind_next ?_
  rw [hlen]
  have hb := (reads_bytes a.xtTableName).bind (f := fun xtTableName =>
    (pure { packet with xtTableName } : Reader XtRecentAction)) (reads_pure _)
  rwa [List.append_nil] at hb

/-- What arrives of a packet: only what its action carries. -/
def received (a : XtRecentAction) (ret : ConnPacket) : XtRecentAction :=
  { stamped a (addressed a (ofConnPacket ret a.action)) with xtTableName := a.xtTableName }

theorem reads_readBody {a : XtRecentAction} (h : Fits a) (ret : ConnPacket) :
    Reads (readBody ret) (sentBody a) (received a ret) := by
  unfold sentBody
  rw [List.cons_append, List.cons_append, List.append_assoc]
  refine Reads.bind_next ?_
  rw [ByteEnum.Value.ofByte_toByte]
  have haddress := reads_readAddress h (p := ofConnPacket ret a.action) rfl
  have hstamps := reads_readStamps h (p := addressed a (ofConnPacket ret a.action))
    (addressed_action _ _)
  exact haddress.bind (hstamps.bind (reads_readName h _))

theorem sentBody_length_le {a : XtRecentAction} (h : Fits a) : (sentBody a).length ≤ 2304 := by
  have h1 := h.timestamps
  have h2 := h.name
  have haddr : (if CarriesAddress a.action then
      a.targetEntry.ipFamily.toByte :: octets a else []).length ≤ 5 := by
    split
    · next hc => simp [(octets_eq h hc).2]
    · simp
  have hstamps : (writeStamps a).length ≤ 3 + 8 * a.targetEntry.timestamps.length := by
    unfold writeStamps
    split
    · simp [List.length_flatMap, Nat.mul_comm]
      omega
    · simp
  simp only [sentBody, List.cons_append, List.length_cons, List.length_append]
  omega

/-- A sent packet is read back by its action, whatever follows it in the buffer. -/
theorem deserialize_wire {a : XtRecentAction} (htype : a.type = .named .xtRecentSync) (h : Fits a)
    (rest : Bytes) (junk : Memory) :
    deserialize (memory (wire a.toConnPacket (sentBody a) ++ rest) junk)
        (wire a.toConnPacket (sentBody a) ++ rest).length =
      some (received a (BasePktParser.received a.toConnPacket
          (UInt32.ofNat (5 + (sentBody a).length))),5 + (sentBody a).length) := by
  have hlen := sentBody_length_le h
  have hbody : Holds (memory (wire a.toConnPacket (sentBody a) ++ rest) junk) 5 (sentBody a) := by
    have hall := holds_memory (wire a.toConnPacket (sentBody a)) rest junk
    rw [wire, holds_append] at hall
    exact hall.2
  have hret : (BasePktParser.received a.toConnPacket
      (UInt32.ofNat (5 + (sentBody a).length))).type = .named .xtRecentSync := htype
  unfold deserialize
  rw [BasePktParser.deserialize_wire _ (by omega)]
  simp only [hret, if_true, reads_readBody h _ _ _ hbody]

/-- The recent actions that the nodes exchange, with an address in canonical text. -/
structure Canonical (a : XtRecentAction) : Prop where
  type : a.type = .named .xtRecentSync
  srcIp : CarriesAddress a.action → ∃ p q r s, a.targetEntry.srcIp = dottedQuad p q r s
  index : 0 ≤ a.targetEntry.lastSeenIndex ∧ a.targetEntry.lastSeenIndex ≤ 255
  ttl : 0 ≤ a.targetEntry.ttl ∧ a.targetEntry.ttl ≤ 255
  timestamps : a.targetEntry.timestamps.length ≤ 255
  name : a.xtTableName.length ≤ 254
  nulFree : 0 ∉ a.xtTableName

/-- Everything that the action's packet carries is the same on both ends. -/
structure Carried (a b : XtRecentAction) : Prop where
  action : b.action = a.action
  xtTableName : b.xtTableName = a.xtTableName
  address : CarriesAddress a.action →
    b.targetEntry.ipFamily = a.targetEntry.ipFamily ∧ b.targetEntry.srcIp = a.targetEntry.srcIp
  stamps : a.action = .named .addUpdEntry →
    b.targetEntry.lastSeenIndex = a.targetEntry.lastSeenIndex ∧
      b.targetEntry.ttl = a.targetEntry.ttl ∧ b.targetEntry.timestamps = a.targetEntry.timestamps

theorem Canonical.fits {a : XtRecentAction} (h : Canonical a) :
    Fits a where
  address hc := by
    obtain ⟨p,q,r,s,hsrc⟩ := h.srcIp hc
    exact ⟨_,hsrc ▸ dottedQuad_isDottedQuad p q r s⟩
  timestamps := h.timestamps
  name := h.name
  nulFree := h.nulFree

theorem toNat_ofInt {n : Int} (h : 0 ≤ n ∧ n ≤ 255) : ((UInt8.ofInt n).toNat : Int) = n := by
  obtain ⟨m,rfl⟩ := Int.eq_ofNat_of_zero_le h.1
  rw [ofInt_natCast, UInt8.toNat_ofNat_of_lt' (show m < 256 by omega)]

theorem Canonical.carried {a : XtRecentAction} (h : Canonical a) (ret : ConnPacket) :
    Carried a (received a ret) := by
  refine ⟨?_,rfl,?_,?_⟩
  · unfold received stamped
    split <;> exact addressed_action _ _
  · intro hc
    obtain ⟨p,q,r,s,hsrc⟩ := h.srcIp hc
    have hoct : octets a = [p,q,r,s] := by
      rw [octets, if_pos hc, hsrc, getIpAddressV4_dottedQuad]
    unfold received stamped addressed
    rw [if_pos hc, hoct, hsrc]
    split <;> exact ⟨rfl,rfl⟩
  · intro hadd
    have hc : CarriesAddress a.action := .inl hadd
    unfold received stamped addressed
    rw [if_pos hadd, if_pos hc]
    exact ⟨toNat_ofInt h.index,toNat_ofInt h.ttl,rfl⟩

section Addresses

theorem readAddress_spec (packet : XtRecentAction) (buffer : Memory) (used : ℕ) :
    (readAddress packet buffer used).1.action = packet.action ∧
      (CarriesAddress packet.action →
        ∃ p q r s, (readAddress packet buffer used).1.targetEntry.srcIp = dottedQuad p q r s) := by
  unfold readAddress
  split
  · refine ⟨rfl,fun _ =>
      ⟨buffer (used+1),buffer (used+1+1),buffer (used+1+1+1),buffer (used+1+1+1+1),?_⟩⟩
    have hparts : (readOctets (Decimal.text (buffer (used+1)).toNat) 3 buffer (used+1+1)).1 =
        Decimal.text (buffer (used+1)).toNat ++ 46::Decimal.text (buffer (used+1+1)).toNat ++
          46::Decimal.text (buffer (used+1+1+1)).toNat ++
            46::Decimal.text (buffer (used+1+1+1+1)).toNat := rfl
    change (readOctets (Decimal.text (buffer (used+1)).toNat) 3 buffer (used+1+1)).1 = _
    rw [hparts]
    simp [dottedQuad, addressText]
  · next hc => exact ⟨rfl,fun h => absurd h hc⟩

theorem readStamps_spec (packet : XtRecentAction) (buffer : Memory) (used : ℕ) :
    (readStamps packet buffer used).1.action = packet.action ∧
      (readStamps packet buffer used).1.targetEntry.srcIp = packet.targetEntry.srcIp := by
  unfold readStamps
  split <;> exact ⟨rfl,rfl⟩

/-- Whatever the bytes, an address that is read from them is a dotted quad. -/
theorem srcIp_deserialize {buffer : Memory} {bufferSize used : ℕ} {a : XtRecentAction}
    (h : deserialize buffer bufferSize = some (a,used)) (hc : CarriesAddress a.action) :
    ∃ p q r s, a.targetEntry.srcIp = dottedQuad p q r s := by
  have hbody : ∀ ret used', CarriesAddress (readBody ret buffer used').1.action →
      ∃ p q r s, (readBody ret buffer used').1.targetEntry.srcIp = dottedQuad p q r s := by
    intro ret used'
    obtain ⟨haction,hsrc⟩ := readAddress_spec (ofConnPacket ret (.ofByte (buffer used'))) buffer (used'+1)
    obtain ⟨haction',hsrc'⟩ := readStamps_spec
      (readAddress (ofConnPacket ret (.ofByte (buffer used'))) buffer (used'+1)).1 buffer
      (readAddress (ofConnPacket ret (.ofByte (buffer used'))) buffer (used'+1)).2
    intro hc
    obtain ⟨p,q,r,s,hquad⟩ := hsrc (haction ▸ haction' ▸ hc)
    exact ⟨p,q,r,s,hsrc'.trans hquad⟩
  unfold deserialize at h
  split at h
  · next ret used' hheader =>
    split at h
    · obtain rfl : (readBody ret buffer used').1 = a := congrArg Prod.fst (Option.some.inj h)
      exact hbody ret used' hc
    · contradiction
  · contradiction

end Addresses

end XtRecentActionParser
end Ssyncd
