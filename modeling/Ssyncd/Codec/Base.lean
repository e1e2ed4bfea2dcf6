import Ssyncd.Packet
import Ssyncd.Library.Reader
import Ssyncd.Library.Framing

/-! The five header bytes of a packet, its patched length, and the body behind them. -/
namespace Ssyncd
open Reader

/-- What a char holds of an int. -/
def lowByte (n : ℕ) : UInt8 := UInt8.ofNat n

/-- The length that a receiver puts together from the two length bytes. -/
def headerLength (lo hi : UInt8) : UInt32 := lo.toUInt32 ||| (hi.toUInt32 <<< 8)

/-- The two bytes are the low and the high part of their length. -/
theorem headerLength_lowByte {n : ℕ} (h : n < 65536) :
    (headerLength (lowByte n) (lowByte (n >>> 8))).toNat = n := by
  have hlo : (lowByte n).toNat = n % 2^8 := by simp [lowByte]
  have hhi : (lowByte (n >>> 8)).toNat = n / 2^8 := by
    simp only [lowByte, UInt8.toNat_ofNat', Nat.shiftRight_eq_div_pow]
    omega
  rw [headerLength, UInt32.toNat_or, UInt32.toNat_shiftLeft, UInt8.toNat_toUInt32,
    UInt8.toNat_toUInt32, hlo, hhi, show (8:UInt32).toNat % 32 = 8 by rfl, Nat.shiftLeft_eq,
    Nat.mod_eq_of_lt (show n/2^8*2^8 < 2^32 by omega), Nat.or_comm, Nat.mul_comm,
    ← Nat.two_pow_add_eq_or_of_lt (Nat.mod_lt _ (by omega))]
  omega

namespace BasePktParser

def serialize (pkt : ConnPacket) : Bytes :=
  [UInt8.ofInt pkt.header1, UInt8.ofInt pkt.header2, pkt.type.toByte, pkt.pktLen.toUInt8,
    (pkt.pktLen >>> 8).toUInt8]

/-- The packet and the bytes used; the buffer may hold anything beyond its size. -/
def deserialize (buffer : Memory) (bufferSize : ℕ) : Option (ConnPacket × ℕ) :=
  if 5 ≤ bufferSize then
    let packet : ConnPacket := {
      header1 := (buffer 0).toNat
      header2 := (buffer 1).toNat
      type := .ofByte (buffer 2)
      pktLen := headerLength (buffer 3) (buffer 4) }
    if bufferSize < packet.pktLen.toNat then none else some (packet,5)
  else none

end BasePktParser

/-- The sub-parsers overwrite the two length bytes once the whole size is known. -/
def patchLength (out : Bytes) : Bytes :=
  (out.set 3 (lowByte out.length)).set 4 (lowByte (out.length >>> 8))

/-- pkt_len keeps the size cast to a signed char. -/
def sentLength (outSize : ℕ) : UInt32 := (Int8.ofNat outSize).toInt32.toUInt32

/-- A packet with these bytes after its header, as they are sent. -/
def wire (pkt : ConnPacket) (body : Bytes) : Bytes :=
  [UInt8.ofInt pkt.header1, UInt8.ofInt pkt.header2, pkt.type.toByte,
    lowByte (5+body.length), lowByte ((5+body.length) >>> 8)] ++ body

@[simp] theorem wire_length (pkt : ConnPacket) (body : Bytes) :
    (wire pkt body).length = 5 + body.length := by
  rw [wire, List.length_append]
  rfl

theorem patchLength_serialize (pkt : ConnPacket) (body : Bytes) :
    patchLength (BasePktParser.serialize pkt ++ body) = wire pkt body := by
  have hlen : (BasePktParser.serialize pkt ++ body).length = 5 + body.length := by
    rw [List.length_append]
    rfl
  rw [patchLength, hlen]
  rfl

namespace BasePktParser

theorem deserialize_cons (h1 h2 t lo hi : UInt8) (rest : Bytes) (junk : Memory) :
    deserialize (memory (h1::h2::t::lo::hi::rest) junk) (h1::h2::t::lo::hi::rest).length =
      if 5 + rest.length < (headerLength lo hi).toNat then none
      else some ({ header1 := h1.toNat, header2 := h2.toNat, type := .ofByte t,
                   pktLen := headerLength lo hi },5) := by
  have hlen : (h1::h2::t::lo::hi::rest).length = 5 + rest.length := by
    simp only [List.length_cons]
    omega
  rw [hlen, deserialize, if_pos (by omega)]
  rfl

theorem deserialize_short {out : Bytes} (h : out.length < 5) (junk : Memory) :
    deserialize (memory out junk) out.length = none := by
  rw [deserialize, if_neg (by omega)]

/-- What arrives of a packet's common part. -/
def received (pkt : ConnPacket) (pktLen : UInt32) : ConnPacket where
  header1 := (UInt8.ofInt pkt.header1).toNat
  header2 := (UInt8.ofInt pkt.header2).toNat
  type := pkt.type
  pktLen := pktLen

/-- A whole packet is recognised whatever bytes follow it. -/
theorem deserialize_wire (pkt : ConnPacket) {body : Bytes} (h : 5 + body.length < 65536)
    (rest : Bytes) (junk : Memory) :
    deserialize (memory (wire pkt body ++ rest) junk) (wire pkt body ++ rest).length =
      some (received pkt (UInt32.ofNat (5+body.length)),5) := by
  have hn := headerLength_lowByte h
  have hlen : headerLength (lowByte (5+body.length)) (lowByte ((5+body.length) >>> 8)) =
      UInt32.ofNat (5+body.length) := by
    rw [← UInt32.toNat_inj, hn, UInt32.toNat_ofNat_of_lt' (Nat.lt_trans h (by decide))]
  simp only [wire, List.cons_append, List.nil_append]
  rw [deserialize_cons, if_neg (by rw [hn, List.length_append]; omega), hlen]
  simp [received]

/-- A proper part of a packet is not taken for a packet. -/
theorem deserialize_prefix_wire (pkt : ConnPacket) {body pre : Bytes}
    (h : 5 + body.length < 65536) (hpre : pre <+: wire pkt body) (hne : pre ≠ wire pkt body)
    (junk : Memory) : deserialize (memory pre junk) pre.length = none := by
  have hshort : pre.length < 5 + body.length := by
    rw [← wire_length pkt]
    exact Nat.lt_of_le_of_ne hpre.length_le (fun hl => hne (hpre.eq_of_length hl))
  obtain ⟨tail,ht⟩ := hpre
  match pre, ht, hshort with
  | [], _, _ | [_], _, _ | [_,_], _, _ | [_,_,_], _, _ | [_,_,_,_], _, _ =>
    exact deserialize_short (by simp) junk
  | h1::h2::t::lo::hi::rest, ht, hshort =>
    simp only [wire, List.cons_append, List.nil_append, List.cons.injEq] at ht
    obtain ⟨-,-,-,rfl,rfl,-⟩ := ht
    rw [deserialize_cons, if_pos]
    rw [headerLength_lowByte h]
    simp only [List.length_cons] at hshort
    omega

/-- A packet with no body and no length is five bytes long. -/
theorem frame_serialize (pkt : ConnPacket) (h : pkt.pktLen = 0) (junk : Bytes → Memory) :
    Framing.Frame (fun buffer => deserialize (memory buffer (junk buffer)) buffer.length)
      (serialize pkt) (received pkt 0) where
  complete rest := by
    simp only [serialize, h, List.cons_append, List.nil_append]
    rw [deserialize_cons]
    simp [received, headerLength]
  incomplete pre hpre hne := by
    apply deserialize_short
    exact Nat.lt_of_le_of_ne hpre.length_le (fun hl => hne (hpre.eq_of_length hl))

end BasePktParser
end Ssyncd
