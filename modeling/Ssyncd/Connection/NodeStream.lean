import Ssyncd.Connection.EndOfStream

/-! The packets that one node sends to another: however the wake-ups of the receive task cut their bytes,
each packet is in the queue once its last byte is in, and there is always room for it. -/
namespace Ssyncd
open ConnectionEventData

namespace PktParser

/-- The longest packet is an entry with 255 stamps in a table with a long name. -/
def maxSent : ℕ := 2309

theorem length_sentBytes_le {pkt : Packet} (h : Sendable pkt) : (sentBytes pkt).length ≤ maxSent := by
  unfold maxSent
  cases pkt with
  | conn pkt =>
    change 5 ≤ 2309
    omega
  | recent a =>
    have hbody := XtRecentActionParser.sentBody_length_le h.2
    rw [sentBytes, wire_length]
    omega
  | http a =>
    have hbody := HttpParser.writeBody_length_le h.2
    rw [sentBytes, wire_length]
    omega

/-- The packets of a stream with their bytes, as the other node reads them. -/
def frames (pkts : List Packet) : List (Bytes × Packet) := pkts.map fun pkt => (sentBytes pkt,received pkt)

theorem frames_le {pkts : List Packet} (h : ∀ pkt ∈ pkts, Sendable pkt) :
    ∀ bytes ∈ (frames pkts).map Prod.fst, bytes.length ≤ maxSent := by
  intro bytes hbytes
  obtain ⟨frame,hframe,rfl⟩ := List.mem_map.mp hbytes
  obtain ⟨pkt,hpkt,rfl⟩ := List.mem_map.mp hframe
  exact length_sentBytes_le (h pkt hpkt)

end PktParser

/-- A wake-up that comes to data, but not to so much that the buffer gets full, nor to the end. -/
structure EpollEvent.Calm (event : EpollEvent) : Prop where
  epollin : event.epollin = true
  ending : event.ending = .again
  room : event.received.length + 2*PktParser.maxSent < maxPacketSize

namespace NodeSocket

end NodeSocket
end Ssyncd
