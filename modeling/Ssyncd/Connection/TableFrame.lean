import Ssyncd.Codec.Extent
import Ssyncd.Connection.EndOfStream

/-! Which complete frames the receive task takes for incomplete ones. It waits for the rest of such a
frame, and no packet behind it is ever read. -/
namespace Ssyncd
open Reader
open BasePktParser (Accepts header accepts_congr header_congr)

namespace PktParser

theorem getPacketParser_eq_tableParser {type : ByteEnum.Value PacketType} :
    getPacketParser type = .tableParser ↔ type = .named .xtRecentTable := by
  cases type with
  | named t => cases t <;> simp [getPacketParser]
  | unnamed b h => simp [getPacketParser]

/-- Where all declared bytes are there, nothing is read of the one type whose parser is a stub. -/
theorem deserialize_eq_none_iff {buffer : Memory} {n : ℕ} (h : Accepts buffer n) :
    deserialize buffer n = none ↔ (header buffer).type = .named .xtRecentTable := by
  rw [deserialize_eq_ite, ← getPacketParser_eq_tableParser]
  simp [h]

end PktParser

namespace ConnectionEventData

/-- The buffer begins with a frame of which all declared bytes are there. -/
def Complete (d : ConnectionEventData) : Prop := Accepts d.buffer d.bufferSize

instance (d : ConnectionEventData) : Decidable d.Complete :=
  inferInstanceAs (Decidable (Accepts d.buffer d.bufferSize))

/-- The wake-up that finds these bytes: what the buffer holds then, or nothing where it closes the
connection. -/
def receive (d : ConnectionEventData) (bytes : Bytes) : Option ConnectionEventData :=
  match d.clearHeader.recvAll .again [bytes] with
  | (d,_,.again) => some d
  | _ => none

/-- Whatever arrives, no packet is read any more. -/
def Blocked (d : ConnectionEventData) : Prop :=
  ∀ (chunks : List Bytes) (e : ConnectionEventData), Runs.run receive d chunks = some e →
    ∀ fuel, drain (fuel+1) e = some ([],e)

/-- Every loop ends, and waits for the rest of a frame only where there is a rest: the one that has
these bytes before it, and the one of each later wake-up that the connection is there for. -/
inductive Reads : ConnectionEventData → List Bytes → Prop
  | last {d fuel packets left} (ends : drain fuel d = some (packets,left)) (waits : ¬left.Complete) :
      Reads d []
  | next {d fuel packets left bytes chunks} (ends : drain fuel d = some (packets,left))
      (waits : ¬left.Complete) (rest : ∀ e, left.receive bytes = some e → Reads e chunks) :
      Reads d (bytes::chunks)

/-- The bytes, cut where each body ends: no whole frame that comes to the front is of the type that
is not parsed, and each can be taken out. -/
inductive Clear : ConnectionEventData → List Bytes → Prop
  | last {d} (waits : ¬d.Complete) : Clear d []
  | next {d bytes chunks} (waits : ¬d.Complete) (rest : ∀ e, d.receive bytes = some e → Clear e chunks) :
      Clear d (bytes::chunks)
  | frame {d chunks} (whole : d.Complete) (parsed : (header d.buffer).type ≠ .named .xtRecentTable)
      (room : PktParser.extent d.buffer ≤ d.freeSpace)
      (rest : Clear (d.shift (PktParser.extent d.buffer)) chunks) : Clear d chunks

section
variable {d e left : ConnectionEventData} {fuel : ℕ} {packets : List Packet} {chunks : List Bytes}

theorem buffer_append (d : ConnectionEventData) (bytes : Bytes) {i : ℕ} (hi : i < d.bufferSize) :
    (d.append bytes).buffer i = d.buffer i := by
  have hlen : i < d.contents.length := by simpa using hi
  rw [append]
  dsimp only
  rw [memory_lt (by rw [List.length_append]; omega), List.getElem_append_left hlen]
  simp [contents]

/-- What recv adds, if it adds something, is behind what is there. -/
theorem recvAll_append (d : ConnectionEventData) (ending : Ending) (bytes : Bytes) :
    (d.recvAll ending [bytes]).1 = d ∨ ∃ new, (d.recvAll ending [bytes]).1 = d.append new := by
  unfold recvAll
  split
  · exact .inl rfl
  · split
    · exact .inl rfl
    · right
      split
      · exact ⟨_,rfl⟩
      · split <;> exact ⟨_,rfl⟩

/-- A read that ends with nothing more to read, or with no room for it, has not failed. -/
theorem recvAll_not_failed (d : ConnectionEventData) (bytes : Bytes) :
    (d.recvAll .again [bytes]).2.2 ≠ .failed := by
  unfold recvAll
  repeat' split
  all_goals simp [recvAll]

/-- A wake-up of the receive task with these bytes reads them and goes into the loop, or closes. -/
theorem receiveTask_receive {s : NodeSocket} (hnode : s.node = some d) (hsocket : s.socket = [])
    (bytes : Bytes) (fuel : ℕ) :
    (NodeSocket.receiveTask fuel s { epollin := true, chunks := [bytes] }).map NodeSocket.node =
      match d.receive bytes with
      | some e => (drain fuel e).map fun (_,left) => some left
      | none => some none := by
  have hgood := recvAll_not_failed d.clearHeader bytes
  rw [NodeSocket.receiveTask, hnode, hsocket, receive]
  simp only [if_true, List.nil_append]
  generalize d.clearHeader.recvAll .again [bytes] = result at hgood ⊢
  obtain ⟨e,socket,ending⟩ := result
  cases ending with
  | again =>
    simp only [Option.map_map]
    rfl
  | closed => rfl
  | failed => exact absurd rfl hgood

/-- What was received stays where it is. -/
theorem buffer_receive {bytes : Bytes} (h : d.receive bytes = some e) :
    d.bufferSize ≤ e.bufferSize ∧ ∀ i < d.bufferSize, e.buffer i = d.buffer i := by
  have hrecv : (d.clearHeader.recvAll .again [bytes]).1 = e := by
    unfold receive at h
    split at h
    · next heq =>
      rw [heq]
      exact Option.some.inj h
    · contradiction
  rcases recvAll_append d.clearHeader .again bytes with hsame | ⟨new,hnew⟩
  · obtain rfl := hsame.symm.trans hrecv
    exact ⟨(clearHeader_bufferSize d).ge,fun i hi => buffer_clearHeader d hi⟩
  · obtain rfl := hnew.symm.trans hrecv
    refine ⟨?_,fun i hi => ?_⟩
    · change d.bufferSize ≤ d.clearHeader.bufferSize + new.length
      rw [clearHeader_bufferSize]
      omega
    · rw [buffer_append _ _ (by rwa [clearHeader_bufferSize]), buffer_clearHeader d hi]

/-- A complete frame stays complete, and of its type. -/
theorem Complete.receive {bytes : Bytes} (h : d.Complete) (hrecv : d.receive bytes = some e) :
    e.Complete ∧ header e.buffer = header d.buffer := by
  obtain ⟨hsize,hsame⟩ := buffer_receive hrecv
  have hacc : Accepts e.buffer d.bufferSize := (accepts_congr hsame).mpr h
  exact ⟨⟨hacc.1.trans hsize,hacc.2.trans hsize⟩,header_congr h.1 hsame⟩

theorem drain_of_deserialize_none (h : PktParser.deserialize d.buffer d.bufferSize = none) (fuel : ℕ) :
    drain (fuel+1) d = some ([],d) := by
  rw [drain, h]

theorem drain_of_not_complete (h : ¬d.Complete) (fuel : ℕ) : drain (fuel+1) d = some ([],d) := by
  refine drain_of_deserialize_none ?_ fuel
  rw [PktParser.deserialize_eq_ite, if_neg fun hread => h hread.1]

/-- One turn of the loop at a whole frame that is parsed. -/
theorem Complete.drain_succ (h : d.Complete) (htype : (header d.buffer).type ≠ .named .xtRecentTable)
    (fuel : ℕ) : ∃ packet, drain (fuel+1) d =
      let d' := if PktParser.extent d.buffer ≤ d.freeSpace then d.shift (PktParser.extent d.buffer) else d
      if d'.bufferSize < 5 then some ([packet],d')
      else (drain fuel d').map fun (packets,left) => (packet :: packets,left) := by
  have hparser := PktParser.getPacketParser_eq_tableParser.not.mpr htype
  refine ⟨((PktParser.readBody (header d.buffer) d.buffer 5).1).withFd d.fd,?_⟩
  rw [drain, PktParser.deserialize_eq_ite, if_pos ⟨h,hparser⟩, ← PktParser.readBody_used]
  dsimp only
  split <;> rfl

/-- Where the loop ends before the rest of a frame, it has cut the bytes up to there. -/
theorem Clear.of_drain (h : drain fuel d = some (packets,left)) (hwaits : ¬left.Complete)
    (hleft : left.Clear chunks) : d.Clear chunks := by
  induction fuel generalizing d packets with
  | zero => contradiction
  | succ fuel ih =>
    by_cases hwhole : d.Complete
    · by_cases htype : (header d.buffer).type = .named .xtRecentTable
      · rw [drain_of_deserialize_none ((PktParser.deserialize_eq_none_iff hwhole).mpr htype)] at h
        obtain ⟨-,rfl⟩ := Prod.mk.inj (Option.some.inj h)
        exact absurd hwhole hwaits
      · obtain ⟨packet,hturn⟩ := hwhole.drain_succ htype fuel
        rw [hturn] at h
        by_cases hroom : PktParser.extent d.buffer ≤ d.freeSpace
        · refine .frame hwhole htype hroom ?_
          simp only [hroom, if_true] at h
          split at h
          · obtain ⟨-,rfl⟩ := Prod.mk.inj (Option.some.inj h)
            exact hleft
          · obtain ⟨⟨rest,left'⟩,hrest,heq⟩ := Option.map_eq_some_iff.mp h
            obtain ⟨-,rfl⟩ := Prod.mk.inj heq
            exact ih hrest
        · -- the frame stays, and the next turn finds it again
          simp only [hroom, if_false] at h
          rw [if_neg (Nat.not_lt.mpr hwhole.1)] at h
          obtain ⟨⟨rest,left'⟩,hrest,heq⟩ := Option.map_eq_some_iff.mp h
          obtain ⟨-,rfl⟩ := Prod.mk.inj heq
          exact ih hrest
    · rw [drain_of_not_complete hwhole] at h
      obtain ⟨-,rfl⟩ := Prod.mk.inj (Option.some.inj h)
      exact hleft

theorem Reads.clear (h : d.Reads chunks) : d.Clear chunks := by
  induction h with
  | last ends waits => exact .of_drain ends waits (.last waits)
  | next ends waits _ ih => exact .of_drain ends waits (.next waits ih)

/-- The loop goes through a frame that can be taken out to what is behind it. -/
theorem exists_drain_of_shift (h : d.Complete) (htype : (header d.buffer).type ≠ .named .xtRecentTable)
    (hroom : PktParser.extent d.buffer ≤ d.freeSpace)
    (hrest : drain fuel (d.shift (PktParser.extent d.buffer)) = some (packets,left)) :
    ∃ packets', drain (fuel+1) d = some (packets',left) := by
  obtain ⟨packet,hturn⟩ := h.drain_succ htype fuel
  rw [hturn]
  simp only [hroom, if_true]
  split
  · next hshort =>
    -- too short for a header: the loop does not look at it again
    cases fuel with
    | zero => contradiction
    | succ fuel =>
      rw [drain_of_not_complete fun hwhole => by have := hwhole.1; omega] at hrest
      obtain ⟨-,rfl⟩ := Prod.mk.inj (Option.some.inj hrest)
      exact ⟨_,rfl⟩
  · rw [hrest]
    exact ⟨_,rfl⟩

theorem Clear.reads (h : d.Clear chunks) : d.Reads chunks := by
  induction h with
  | last waits => exact .last (drain_of_not_complete waits 0) waits
  | next waits _ ih => exact .next (drain_of_not_complete waits 0) waits ih
  | frame whole parsed room _ ih =>
    cases ih with
    | last ends waits =>
      obtain ⟨packets,ends⟩ := exists_drain_of_shift whole parsed room ends
      exact .last ends waits
    | next ends waits rest =>
      obtain ⟨packets,ends⟩ := exists_drain_of_shift whole parsed room ends
      exact .next ends waits rest

theorem Clear.packet (h : d.Clear chunks) (hwhole : d.Complete) :
    PktParser.deserialize d.buffer d.bufferSize ≠ none := by
  cases h with
  | last waits => exact absurd hwhole waits
  | next waits _ => exact absurd hwhole waits
  | frame _ parsed _ _ => exact (PktParser.deserialize_eq_none_iff hwhole).not.mpr parsed

/-- The beginning of a packet is never a whole frame. -/
theorem not_complete_of_incomplete (h : Incomplete d.contents) : ¬d.Complete := by
  intro hwhole
  have hnone : PktParser.deserialize d.buffer d.bufferSize = none := by
    rw [deserialize_eq_decoder, h.decoder]
  have htype := (PktParser.deserialize_eq_none_iff hwhole).mp hnone
  obtain ⟨bytes,pkt,hw,hpre,-⟩ := h
  -- the packet that it begins has the same header, and is read
  have hread := (hw fun _ _ => 0).complete []
  rw [List.append_nil, PktParser.decoder, PktParser.deserialize_eq_ite] at hread
  have hsame : ∀ i < d.bufferSize, memory bytes (fun _ => 0) i = d.buffer i := by
    intro i hi
    have hlen : i < d.contents.length := by simpa using hi
    rw [memory_lt (Nat.lt_of_lt_of_le hlen hpre.length_le), ← hpre.getElem hlen]
    simp [contents]
  rw [header_congr hwhole.1 hsame, htype] at hread
  simp [PktParser.getPacketParser] at hread

/-- Whole packets with room, and the beginning of another, as the nodes send them to each other. -/
theorem clear_of_cut {frames : List (Bytes × Packet)} {pre : Bytes} (h : Cut d.contents frames pre)
    (hroom : Roomy (frames.map Prod.fst) pre) : d.Clear [] := by
  obtain ⟨left,hdrain,hleft,-⟩ := drain_of_roomy h hroom (Nat.lt_succ_self _)
  have hwaits := not_complete_of_incomplete (hleft ▸ h.incomplete)
  exact .of_drain hdrain hwaits (.last hwaits)

end

/-- A connection on which a node has received these bytes. -/
def received (bytes : Bytes) : ConnectionEventData where
  fd := 7
  buffer := memory bytes fun _ => 0
  bufferSize := bytes.length

end ConnectionEventData
end Ssyncd
