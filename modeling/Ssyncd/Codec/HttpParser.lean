import Ssyncd.Http
import Ssyncd.Codec.Base

/-! The packets that carry HTTP actions. -/
namespace Ssyncd
open Reader

namespace Http

/-- The actions whose packets carry a session's content and time. -/
def CarriesContent (action : ByteEnum.Value ActionType) : Prop :=
  action = .named .sessAdd ∨ action = .named .sessUpdate ∨ action = .named .sessWrite

instance (action : ByteEnum.Value ActionType) : Decidable (CarriesContent action) :=
  inferInstanceAs (Decidable (_ ∨ _ ∨ _))

end Http

namespace HttpParser
open Http

/-- A size byte and that many chars. -/
def writeString (s : Bytes) : Bytes := lowByte s.length :: s

/-- The loop shifts the wrong way: it writes the low byte of id << 8*i, not of id >> 8*i. -/
def writeId (id : UInt32) : Bytes :=
  (List.range 4).map fun i => (id <<< (8 * UInt32.ofNat i)).toUInt8

def writeBody (a : HttpAction) : Bytes :=
  a.action.toByte :: writeString a.farmName ++
    if a.action = .named .syncRequest then []
    else
      writeId a.listener ++ writeId a.service ++ writeId a.backend ++ writeString a.session.key ++
        if CarriesContent a.action then
          writeString a.session.content ++ leBytes a.session.lastAcc.toBitVec 8
        else []

/-- The bytes sent, and the packet with the length that it keeps. -/
def serialize (pkt : HttpAction) : Option (Bytes × HttpAction) :=
  if pkt.type ≠ .named .httpSync then none
  else
    let out := patchLength (BasePktParser.serialize pkt.toConnPacket ++ writeBody pkt)
    some (out,{ pkt with pktLen := sentLength out.length })

def readString : Reader Bytes := do
  let size ← next
  bytes size.toNat

def readId : Reader UInt32 := do
  let x ← orBytes (0 : BitVec 32) 0 4
  return ⟨x⟩

/-- The action with all that was never set at zero. -/
def blank (action : ByteEnum.Value ActionType) (farmName : Bytes) : HttpAction where
  action := action
  farmName := farmName
  listener := 0
  service := 0
  backend := 0
  session := { key := [], backendId := 0, content := [], lastAcc := 0 }

def readContent (packet : HttpAction) : Reader HttpAction := do
  let content ← readString
  let timestamp ← orBytes (0 : BitVec 64) 0 8
  return { packet with session := { packet.session with content, lastAcc := ⟨timestamp⟩ } }

def readSession (packet : HttpAction) : Reader HttpAction := do
  let listener ← readId
  let service ← readId
  let backend ← readId
  let key ← readString
  let packet := { packet with
    listener, service, backend, session := { packet.session with key, backendId := backend } }
  if CarriesContent packet.action then readContent packet else return packet

def readBody : Reader HttpAction := do
  let action ← next
  let farmName ← readString
  let packet := blank (.ofByte action) farmName
  if packet.action = .named .syncRequest then return packet else readSession packet

/-- Only a packet with content is given a length, and none keeps its header bytes. -/
def deserialize (buffer : Memory) (bufferSize : ℕ) : Option (HttpAction × ℕ) :=
  match BasePktParser.deserialize buffer bufferSize with
  | some (ret,used) =>
    if ret.type = .named .httpSync then
      let (packet,used) := readBody buffer used
      if CarriesContent packet.action then
        some ({ packet with pktLen := UInt32.ofNat used },used)
      else some (packet,used)
    else none
  | none => none

theorem toUInt8_shiftLeft (id : UInt32) {k : ℕ} (h8 : 8 ≤ k) (h32 : k < 32) :
    (id <<< UInt32.ofNat k).toUInt8 = 0 := by
  obtain ⟨j,rfl⟩ := Nat.exists_eq_add_of_le h8
  have hk : (UInt32.ofNat (8+j)).toNat = 8+j :=
    UInt32.toNat_ofNat_of_lt' (Nat.lt_trans h32 (by decide))
  have hmul : id.toNat * 2^(8+j) % 2^32 % 2^8 = 0 := by
    rw [Nat.mod_mod_of_dvd _ (by decide : 2^8 ∣ 2^32), Nat.pow_add, ← Nat.mul_assoc,
      Nat.mul_right_comm]
    exact Nat.mul_mod_left ..
  rw [← UInt8.toNat_inj, UInt32.toNat_toUInt8, UInt32.toNat_shiftLeft, hk, Nat.mod_eq_of_lt h32,
    Nat.shiftLeft_eq, hmul]
  rfl

/-- Only the first of the four bytes depends on the id. -/
theorem writeId_eq (id : UInt32) : writeId id = [id.toUInt8,0,0,0] := by
  have h0 : (id <<< (8 * UInt32.ofNat 0)).toUInt8 = id.toUInt8 := by simp
  have h1 := toUInt8_shiftLeft id (k := 8) (by omega) (by omega)
  have h2 := toUInt8_shiftLeft id (k := 16) (by omega) (by omega)
  have h3 := toUInt8_shiftLeft id (k := 24) (by omega) (by omega)
  exact congrArg₂ _ h0 (congrArg₂ _ h1 (congrArg₂ _ h2 (congrArg₂ _ h3 rfl)))

theorem reads_readId (id : UInt32) : Reads readId (writeId id) id.toUInt8.toUInt32 := by
  intro buffer used h
  rw [writeId_eq] at h ⊢
  generalize id.toUInt8 = low at h ⊢
  obtain ⟨h0,h1,h2,h3,-⟩ := h
  have hor : readId buffer used =
      (⟨0 ||| (buffer used).toBitVec.setWidth 32 <<< 0
        ||| (buffer (used+1)).toBitVec.setWidth 32 <<< 8
        ||| (buffer (used+1+1)).toBitVec.setWidth 32 <<< 16
        ||| (buffer (used+1+1+1)).toBitVec.setWidth 32 <<< 24⟩,used+4) := rfl
  rw [hor, h0, h1, h2, h3]
  simp

theorem reads_readString {s : Bytes} (h : s.length ≤ 255) : Reads readString (writeString s) s := by
  have hsize : (lowByte s.length).toNat = s.length := by
    rw [lowByte, UInt8.toNat_ofNat_of_lt' (Nat.lt_of_le_of_lt h (by decide))]
  refine Reads.bind_next ?_
  rw [hsize]
  exact reads_bytes s

/-- What arrives of a session packet before its content. -/
def withIds (a : HttpAction) : HttpAction :=
  { blank a.action a.farmName with
    listener := a.listener.toUInt8.toUInt32
    service := a.service.toUInt8.toUInt32
    backend := a.backend.toUInt8.toUInt32
    session := { key := a.session.key, backendId := a.backend.toUInt8.toUInt32, content := [],
                 lastAcc := 0 } }

/-- What arrives of a packet: each id modulo 256, and only what its action carries. -/
def received (a : HttpAction) : HttpAction :=
  if a.action = .named .syncRequest then blank a.action a.farmName
  else if CarriesContent a.action then
    { withIds a with
      session := { (withIds a).session with
        content := a.session.content, lastAcc := a.session.lastAcc } }
  else withIds a

/-- The three strings of a packet fit their size bytes. -/
structure Fits (a : HttpAction) : Prop where
  farmName : a.farmName.length ≤ 255
  key : a.session.key.length ≤ 255
  content : a.session.content.length ≤ 255

theorem reads_readContent {packet a : HttpAction} (h : a.session.content.length ≤ 255) :
    Reads (readContent packet)
      (writeString a.session.content ++ leBytes a.session.lastAcc.toBitVec 8)
      { packet with session := { packet.session with
          content := a.session.content, lastAcc := a.session.lastAcc } } := by
  refine (reads_readString h).bind ?_
  rw [← List.append_nil (leBytes _ 8)]
  exact (reads_leBytes _ (by omega)).bind (reads_pure _)

theorem reads_readSession {a : HttpAction} (h : Fits a) (hsync : a.action ≠ .named .syncRequest) :
    Reads (readSession (blank a.action a.farmName))
      (writeId a.listener ++ writeId a.service ++ writeId a.backend ++ writeString a.session.key ++
        if CarriesContent a.action then
          writeString a.session.content ++ leBytes a.session.lastAcc.toBitVec 8
        else [])
      (received a) := by
  rw [received, if_neg hsync]
  simp only [List.append_assoc]
  refine (reads_readId a.listener).bind ?_
  refine (reads_readId a.service).bind ?_
  refine (reads_readId a.backend).bind ?_
  refine (reads_readString h.key).bind ?_
  change Reads (if CarriesContent a.action then readContent (withIds a) else pure (withIds a)) _ _
  split
  · exact reads_readContent h.content
  · exact reads_pure _

theorem reads_readBody {a : HttpAction} (h : Fits a) :
    Reads readBody (writeBody a) (received a) := by
  unfold writeBody
  refine Reads.bind_next (reads_readString h.farmName |>.bind ?_)
  rw [ByteEnum.Value.ofByte_toByte]
  change Reads (if a.action = .named .syncRequest then pure (blank a.action a.farmName)
    else readSession (blank a.action a.farmName)) _ _
  split
  · next hsync =>
    rw [received, if_pos hsync]
    exact reads_pure _
  · next hsync => exact reads_readSession h hsync

theorem writeString_length (s : Bytes) : (writeString s).length = s.length + 1 := rfl

theorem writeId_length (id : UInt32) : (writeId id).length = 4 := rfl

theorem writeBody_length_le {a : HttpAction} (h : Fits a) : (writeBody a).length ≤ 789 := by
  have h1 := h.farmName
  have h2 := h.key
  have h3 := h.content
  unfold writeBody
  split
  · simp only [List.cons_append, List.length_cons, List.length_append, writeString_length,
      List.length_nil]
    omega
  · split
    all_goals
      simp only [List.cons_append, List.length_cons, List.length_append, writeString_length,
        writeId_length, leBytes_length, List.length_nil]
      omega

/-- The action of a received packet with the length it is given. -/
def withLength (a : HttpAction) (used : ℕ) : HttpAction :=
  if CarriesContent a.action then { received a with pktLen := UInt32.ofNat used } else received a

theorem received_action (a : HttpAction) : (received a).action = a.action := by
  unfold received
  split
  · rfl
  · split <;> rfl

theorem serialize_eq {a : HttpAction} (htype : a.type = .named .httpSync) :
    serialize a = some (wire a.toConnPacket (writeBody a),
      { a with pktLen := sentLength (5 + (writeBody a).length) }) := by
  rw [serialize, if_neg (by simpa using htype)]
  simp only [patchLength_serialize, wire_length]

/-- A sent packet is read back by its action, whatever follows it in the buffer. -/
theorem deserialize_wire {a : HttpAction} (htype : a.type = .named .httpSync) (h : Fits a)
    (rest : Bytes) (junk : Memory) :
    deserialize (memory (wire a.toConnPacket (writeBody a) ++ rest) junk)
        (wire a.toConnPacket (writeBody a) ++ rest).length =
      some (withLength a (5 + (writeBody a).length),5 + (writeBody a).length) := by
  have hlen := writeBody_length_le h
  have hbody : Holds (memory (wire a.toConnPacket (writeBody a) ++ rest) junk) 5 (writeBody a) := by
    have hall := holds_memory (wire a.toConnPacket (writeBody a)) rest junk
    rw [wire, holds_append] at hall
    exact hall.2
  have hread := reads_readBody h _ _ hbody
  have hret : (BasePktParser.received a.toConnPacket
      (UInt32.ofNat (5 + (writeBody a).length))).type = .named .httpSync := htype
  unfold deserialize
  rw [BasePktParser.deserialize_wire _ (by omega)]
  simp only [hret, if_true, hread, received_action, withLength]
  split <;> rfl

/-- A packet through its own codec, from a buffer that was filled with just its bytes. -/
def echo (a : HttpAction) (junk : Memory) : Option HttpAction :=
  (serialize a).bind fun sent =>
    (deserialize (memory sent.1 junk) sent.1.length).map Prod.fst

/-- Everything that the action's packet carries is the same on both ends. -/
structure Carried (a b : HttpAction) : Prop where
  action : b.action = a.action
  farmName : b.farmName = a.farmName
  ids : a.action ≠ .named .syncRequest →
    b.listener = a.listener ∧ b.service = a.service ∧ b.backend = a.backend ∧
      b.session.backendId = a.backend ∧ b.session.key = a.session.key
  content : CarriesContent a.action →
    b.session.content = a.session.content ∧ b.session.lastAcc = a.session.lastAcc

/-- The ids that survive the shift in the wrong direction. -/
structure SmallIds (a : HttpAction) : Prop where
  listener : a.listener < 256
  service : a.service < 256
  backend : a.backend < 256

theorem low_eq_iff (id : UInt32) : id.toUInt8.toUInt32 = id ↔ id < 256 := by
  have h256 : (256 : UInt32).toNat = 256 := rfl
  rw [← UInt32.toNat_inj, UInt8.toNat_toUInt32, UInt32.toNat_toUInt8, UInt32.lt_iff_toNat_lt, h256]
  omega

theorem echo_eq {a : HttpAction} (htype : a.type = .named .httpSync) (h : Fits a) (junk : Memory) :
    echo a junk = some (withLength a (5 + (writeBody a).length)) := by
  have hd := deserialize_wire htype h [] junk
  rw [List.append_nil] at hd
  rw [echo, serialize_eq htype, Option.bind_some, hd]
  rfl

theorem carried_iff (a : HttpAction) (used : ℕ) :
    Carried a (withLength a used) ↔ a.action = .named .syncRequest ∨ SmallIds a := by
  by_cases hsync : a.action = .named .syncRequest
  · have hc : ¬CarriesContent a.action := by
      rw [hsync]
      decide
    have hb : withLength a used = blank a.action a.farmName := by
      rw [withLength, if_neg hc, received, if_pos hsync]
    simp only [hsync, true_or, iff_true, hb]
    exact ⟨hsync.symm,rfl,fun hne => absurd hsync hne,fun h => absurd h hc⟩
  · have hids : (withLength a used).listener = a.listener.toUInt8.toUInt32 ∧
        (withLength a used).service = a.service.toUInt8.toUInt32 ∧
        (withLength a used).backend = a.backend.toUInt8.toUInt32 ∧
        (withLength a used).session.backendId = a.backend.toUInt8.toUInt32 ∧
        (withLength a used).session.key = a.session.key ∧
        (withLength a used).farmName = a.farmName := by
      unfold withLength received
      simp only [hsync, if_false]
      split <;> exact ⟨rfl,rfl,rfl,rfl,rfl,rfl⟩
    obtain ⟨hl,hs,hb,hi,hk,hf⟩ := hids
    constructor
    · intro h
      obtain ⟨h1,h2,h3,-,-⟩ := h.ids hsync
      exact .inr ⟨(low_eq_iff _).mp (hl ▸ h1),(low_eq_iff _).mp (hs ▸ h2),
        (low_eq_iff _).mp (hb ▸ h3)⟩
    · rintro (h | h)
      · exact absurd h hsync
      · have h1 := (low_eq_iff _).mpr h.listener
        have h2 := (low_eq_iff _).mpr h.service
        have h3 := (low_eq_iff _).mpr h.backend
        refine ⟨?_,hf,fun _ => ⟨hl.trans h1,hs.trans h2,hb.trans h3,hi.trans h3,hk⟩,?_⟩
        · unfold withLength
          split <;> exact received_action a
        · intro hc
          rw [withLength, if_pos hc, received, if_neg hsync, if_pos hc]
          exact ⟨rfl,rfl⟩

/-- An action comes back as it was sent exactly when it carries no id, or no id above a byte. -/
theorem echo_carried_iff {a : HttpAction} (htype : a.type = .named .httpSync) (h : Fits a)
    (junk : Memory) :
    (∃ b, echo a junk = some b ∧ Carried a b) ↔
      a.action = .named .syncRequest ∨ SmallIds a := by
  rw [echo_eq htype h, ← carried_iff a (5 + (writeBody a).length)]
  simp

/-- A session of listener 256 as it is added. -/
def wideListener : HttpAction where
  action := .named .sessAdd
  farmName := [102]
  listener := 256
  service := 1
  backend := 2
  session := { key := [107], backendId := 2, content := [99], lastAcc := 3 }

theorem echo_carried_wideListener :
    (∃ b, echo wideListener (fun _ => 0) = some b ∧ Carried wideListener b) ↔
      wideListener.action = .named .syncRequest ∨ SmallIds wideListener :=
  echo_carried_iff rfl ⟨by decide,by decide,by decide⟩ _

/-- It arrives as a session of listener 0. -/
theorem wideListener_lost :
    wideListener.type = .named .httpSync ∧ Fits wideListener ∧
      ¬ ∃ b, echo wideListener (fun _ => 0) = some b ∧ Carried wideListener b := by
  refine ⟨rfl,⟨by decide,by decide,by decide⟩,?_⟩
  rintro ⟨b,hb,hc⟩
  have hzero : (echo wideListener (fun _ => 0)).map HttpAction.listener = some 0 := by decide
  have hids := hc.ids (by decide)
  rw [hb, Option.map_some, hids.1] at hzero
  exact absurd hzero (by decide)

end HttpParser
end Ssyncd
