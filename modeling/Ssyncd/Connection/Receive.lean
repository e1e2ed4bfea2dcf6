import Ssyncd.Codec.PktParser

/-! The receive buffer of a connection, and the loop that takes the packets out of it. -/
namespace Ssyncd
open Reader

def maxPacketSize : ℕ := 65555 * 100

/-- A difference of two unsigned ints. -/
def unsignedSub (a b : ℕ) : ℕ := if b ≤ a then a - b else a + 4294967296 - b

def Packet.withFd (fd : Int) : Packet → Packet
  | conn pkt => .conn { pkt with fd }
  | recent pkt => .recent { pkt with fd }
  | http pkt => .http { pkt with fd }

structure ConnectionEventData where
  fd : Int
  buffer : Memory
  bufferSize : ℕ

namespace ConnectionEventData

/-- The received bytes that no packet has used yet. -/
def contents (d : ConnectionEventData) : Bytes := (List.range d.bufferSize).map d.buffer

def freeSpace (d : ConnectionEventData) : ℕ := unsignedSub maxPacketSize d.bufferSize

/-- The used bytes go, and the rest moves to the front. -/
def shift (d : ConnectionEventData) (bufferUsed : ℕ) : ConnectionEventData :=
  let bufferSize := unsignedSub d.bufferSize bufferUsed
  { d with
    bufferSize
    buffer := fun i => if i < bufferSize then d.buffer (i + bufferUsed) else d.buffer i }

/-- The loop of `receive_task` that deserializes, enqueues and shifts: the packets that it
enqueues, and what it leaves. The used bytes only go where as much space is free. -/
def drain : ℕ → ConnectionEventData → Option (List Packet × ConnectionEventData)
  | 0, _ => none
  | fuel+1, d =>
    match PktParser.deserialize d.buffer d.bufferSize with
    | none => some ([],d)
    | some (newPacket,bufferUsed) =>
      let d := if bufferUsed ≤ d.freeSpace then d.shift bufferUsed else d
      if d.bufferSize < 5 then some ([newPacket.withFd d.fd],d)
      else (drain fuel d).map fun (packets,left) => (newPacket.withFd d.fd :: packets,left)

@[simp] theorem length_contents (d : ConnectionEventData) : d.contents.length = d.bufferSize := by
  simp [contents]

@[simp] theorem shift_fd (d : ConnectionEventData) (used : ℕ) : (d.shift used).fd = d.fd := rfl

theorem bufferSize_shift {d : ConnectionEventData} {used : ℕ} (h : used ≤ d.bufferSize) : (d.shift used).bufferSize = d.bufferSize - used :=
  if_pos h

theorem freeSpace_eq {d : ConnectionEventData} (hsize : d.bufferSize ≤ maxPacketSize) :
    d.freeSpace = maxPacketSize - d.bufferSize :=
  if_pos hsize

theorem contents_shift {d : ConnectionEventData} {used : ℕ} (h : used ≤ d.bufferSize) : (d.shift used).contents = d.contents.drop used := by
  have hs := bufferSize_shift h
  apply List.ext_getElem
  · simp [hs]
  · intro i hi _
    have hi : i < d.bufferSize - used := by simpa [hs] using hi
    have hlt : i < unsignedSub d.bufferSize used := Nat.lt_of_lt_of_eq hi hs.symm
    simp [contents, shift, hlt, Nat.add_comm]

/-- The parser sees the contents, and behind them what the memory holds. -/
theorem deserialize_eq_decoder (d : ConnectionEventData) :
    PktParser.deserialize d.buffer d.bufferSize = PktParser.decoder (fun _ => d.buffer) d.contents := by
  have hmem : memory d.contents d.buffer = d.buffer := by
    funext i
    by_cases hi : i < d.bufferSize
    · simp [memory, contents, hi]
    · simp [memory, contents, hi]
  simp only [PktParser.decoder, hmem, length_contents]

end ConnectionEventData

/-- A packet's bytes: they are read whole whatever follows them, and no proper part of them is. -/
def WellFormed (bytes : Bytes) (pkt : Packet) : Prop :=
  ∀ junk, Framing.Frame (PktParser.decoder junk) bytes pkt

def Incomplete (pre : Bytes) : Prop := ∃ bytes pkt, WellFormed bytes pkt ∧ pre <+: bytes ∧ pre ≠ bytes

/-- These bytes are some packets and the beginning of another. -/
structure Cut (contents : Bytes) (frames : List (Bytes × Packet)) (pre : Bytes) : Prop where
  wellFormed : ∀ frame ∈ frames, WellFormed frame.1 frame.2
  incomplete : Incomplete pre
  eq : contents = (frames.map Prod.fst).flatten ++ pre

/-- Each packet can be taken out: with all that follows it, it leaves as much space free as it uses. -/
def Roomy : List Bytes → Bytes → Prop
  | [], _ => True
  | bytes::frames, pre =>
    bytes.length + ((bytes::frames).flatten ++ pre).length ≤ maxPacketSize ∧ Roomy frames pre

instance Roomy.decidable : (frames : List Bytes) → (pre : Bytes) → Decidable (Roomy frames pre)
  | [], _ => .isTrue trivial
  | _::frames, pre =>
    have := Roomy.decidable frames pre
    inferInstanceAs (Decidable (_ ∧ _))

theorem WellFormed.of_sendable {pkt : Packet} (h : PktParser.Sendable pkt) :
    WellFormed (PktParser.sentBytes pkt) (PktParser.received pkt) :=
  fun junk => PktParser.frame_sentBytes h junk

theorem PktParser.decoder_short (junk : Bytes → Memory) {bytes : Bytes} (h : bytes.length < 5) :
    PktParser.decoder junk bytes = none :=
  decoder_eq_none (BasePktParser.deserialize_short h _)

theorem WellFormed.le_length {bytes : Bytes} {pkt : Packet} (h : WellFormed bytes pkt) :
    5 ≤ bytes.length := by
  by_contra hshort
  have hread := (h fun _ _ => 0).complete []
  rw [List.append_nil, PktParser.decoder_short _ (by omega)] at hread
  contradiction

theorem Incomplete.decoder {pre : Bytes} (h : Incomplete pre) (junk : Bytes → Memory) :
    PktParser.decoder junk pre = none := by
  obtain ⟨bytes,pkt,hw,hpre,hne⟩ := h
  exact (hw junk).incomplete pre hpre hne

theorem Cut.tail {bytes : Bytes} {pkt : Packet} {frames : List (Bytes × Packet)} {pre : Bytes}
    {contents : Bytes} (h : Cut contents ((bytes,pkt)::frames) pre) :
    Cut (contents.drop bytes.length) frames pre where
  wellFormed frame hf := h.wellFormed frame (List.mem_cons_of_mem _ hf)
  incomplete := h.incomplete
  eq := by rw [h.eq, List.map_cons, List.flatten_cons, List.append_assoc, List.drop_left]

theorem Cut.head {bytes : Bytes} {pkt : Packet} {frames : List (Bytes × Packet)} {pre : Bytes}
    {contents : Bytes} (h : Cut contents ((bytes,pkt)::frames) pre) (junk : Bytes → Memory) :
    PktParser.decoder junk contents = some (pkt,bytes.length) := by
  rw [h.eq, List.map_cons, List.flatten_cons, List.append_assoc]
  exact (h.wellFormed _ (List.mem_cons_self ..) junk).complete _

theorem Cut.length_eq {contents pre : Bytes} {frames : List (Bytes × Packet)}
    (h : Cut contents frames pre) :
    contents.length = ((frames.map Prod.fst).flatten ++ pre).length := by
  rw [h.eq]

theorem Cut.head_le {bytes : Bytes} {pkt : Packet} {frames : List (Bytes × Packet)} {pre : Bytes}
    {contents : Bytes} (h : Cut contents ((bytes,pkt)::frames) pre) :
    5 ≤ bytes.length ∧ bytes.length ≤ contents.length := by
  refine ⟨(h.wellFormed _ (List.mem_cons_self ..)).le_length,?_⟩
  rw [h.length_eq]
  simp only [List.map_cons, List.flatten_cons, List.length_append]
  omega

theorem Cut.decoder_nil {contents pre : Bytes} (h : Cut contents [] pre) (junk : Bytes → Memory) :
    PktParser.decoder junk contents = none := by
  rw [h.eq]
  exact h.incomplete.decoder junk

namespace ConnectionEventData

/-- The loop stops at once on the beginning of a packet. -/
theorem drain_incomplete {d : ConnectionEventData} {pre : Bytes} (h : Cut d.contents [] pre)
    (fuel : ℕ) : drain (fuel+1) d = some ([],d) := by
  rw [drain, deserialize_eq_decoder, h.decoder_nil]

section
variable {d : ConnectionEventData} {bytes : Bytes} {pkt : Packet} {frames : List (Bytes × Packet)}
  {pre : Bytes}

theorem roomy_cons_iff (h : Cut d.contents ((bytes,pkt)::frames) pre) :
    Roomy (((bytes,pkt)::frames).map Prod.fst) pre ↔
      bytes.length + d.bufferSize ≤ maxPacketSize ∧ Roomy (frames.map Prod.fst) pre := by
  rw [← length_contents, h.length_eq]
  rfl

/-- What one turn does to a packet that leaves room: it goes to the queue and out of the buffer. -/
theorem drain_roomy (h : Cut d.contents ((bytes,pkt)::frames) pre)
    (hsize : bytes.length + d.bufferSize ≤ maxPacketSize) (fuel : ℕ) :
    drain (fuel+1) d =
      if (d.shift bytes.length).bufferSize < 5 then some ([pkt.withFd d.fd],d.shift bytes.length)
      else (drain fuel (d.shift bytes.length)).map fun (packets,left) =>
        (pkt.withFd d.fd :: packets,left) := by
  have hfree : bytes.length ≤ d.freeSpace := by
    rw [freeSpace_eq (by omega)]
    omega
  rw [drain, deserialize_eq_decoder, h.head]
  simp only [hfree, if_true, shift_fd]

/-- A packet that does not leave room stays, and is enqueued again on every turn. -/
theorem drain_stuck (h : Cut d.contents ((bytes,pkt)::frames) pre)
    (hfill : d.bufferSize ≤ maxPacketSize) (hsize : maxPacketSize < bytes.length + d.bufferSize)
    (fuel : ℕ) : drain fuel d = none := by
  have hle := h.head_le
  rw [length_contents] at hle
  have hfree : ¬bytes.length ≤ d.freeSpace := by
    rw [freeSpace_eq hfill]
    omega
  induction fuel with
  | zero => rfl
  | succ fuel ih =>
    rw [drain, deserialize_eq_decoder, h.head]
    simp only [hfree, if_false]
    rw [if_neg (by omega), ih, Option.map_none]

end

/-- Where each packet leaves room, the loop enqueues them all and leaves the beginning. -/
theorem drain_of_roomy {frames : List (Bytes × Packet)} {pre : Bytes} {d : ConnectionEventData}
    (h : Cut d.contents frames pre) (hroom : Roomy (frames.map Prod.fst) pre) {fuel : ℕ}
    (hfuel : frames.length < fuel) :
    ∃ left, drain fuel d = some (frames.map fun frame => frame.2.withFd d.fd,left) ∧
      left.contents = pre ∧ left.fd = d.fd := by
  induction frames generalizing d fuel with
  | nil =>
    obtain ⟨fuel,rfl⟩ := Nat.exists_eq_add_of_lt hfuel
    rw [List.length_nil, Nat.zero_add]
    exact ⟨d,drain_incomplete h fuel,by simpa using h.eq,rfl⟩
  | cons frame frames ih =>
    obtain ⟨bytes,pkt⟩ := frame
    obtain ⟨fuel,rfl⟩ : ∃ m, fuel = m + 1 := ⟨fuel - 1,by omega⟩
    obtain ⟨hfirst,hrest⟩ := (roomy_cons_iff h).mp hroom
    have hle : bytes.length ≤ d.bufferSize := length_contents d ▸ h.head_le.2
    have hcontents := contents_shift hle
    have htail : Cut (d.shift bytes.length).contents frames pre := hcontents ▸ h.tail
    rw [drain_roomy h (by omega)]
    split
    · next hshort =>
      -- what is left is too short for a packet
      have hlast : frames = [] ∧ (d.shift bytes.length).contents = pre := by
        cases frames with
        | nil => exact ⟨rfl,by simpa using htail.eq⟩
        | cons frame frames =>
          have hlong := htail.head_le
          rw [length_contents] at hlong
          omega
      obtain ⟨rfl,hpre⟩ := hlast
      exact ⟨_,rfl,hpre,rfl⟩
    · simp only [List.length_cons] at hfuel
      obtain ⟨left,hd,hpre,hfd⟩ := ih htail hrest (by omega : frames.length < fuel)
      rw [hd]
      exact ⟨left,rfl,hpre,hfd⟩

/-- The loop ends with each packet enqueued once, in order, and the beginning of the next at the
front, exactly where each packet leaves as much space free as it uses. -/
theorem drains_iff {d : ConnectionEventData} {frames : List (Bytes × Packet)} {pre : Bytes}
    (h : Cut d.contents frames pre) (hfill : d.bufferSize ≤ maxPacketSize) :
    (∃ fuel left, drain fuel d = some (frames.map fun frame => frame.2.withFd d.fd,left) ∧
      left.contents = pre) ↔ Roomy (frames.map Prod.fst) pre := by
  constructor
  · rintro ⟨fuel,left,hd,-⟩
    induction frames generalizing d fuel with
    | nil => trivial
    | cons frame frames ih =>
      obtain ⟨bytes,pkt⟩ := frame
      by_cases hsize : maxPacketSize < bytes.length + d.bufferSize
      · rw [drain_stuck h hfill hsize] at hd
        contradiction
      · refine (roomy_cons_iff h).mpr ⟨by omega,?_⟩
        have hle : bytes.length ≤ d.bufferSize := length_contents d ▸ h.head_le.2
        have hshift := bufferSize_shift hle
        have htail : Cut (d.shift bytes.length).contents frames pre :=
          contents_shift hle ▸ h.tail
        cases fuel with
        | zero => contradiction
        | succ fuel =>
          rw [drain_roomy h (by omega)] at hd
          split at hd
          · have hnil : frames = [] := by
              have hmap := congrArg Prod.fst (Option.some.inj hd)
              simpa using hmap
            subst hnil
            trivial
          · obtain ⟨⟨packets,left'⟩,hd',heq⟩ := Option.map_eq_some_iff.mp hd
            have hpackets := congrArg Prod.fst heq
            simp only [List.map_cons, List.cons.injEq, true_and] at hpackets
            refine ih htail (by omega) fuel ?_
            rw [hd', hpackets, shift_fd]
            exact congrArg (fun l => some (_,l)) (congrArg Prod.snd heq)
  · intro hroom
    obtain ⟨left,hd,hpre,-⟩ := drain_of_roomy h hroom (Nat.lt_succ_self _)
    exact ⟨_,left,hd,hpre⟩

/-- The packet that a backup sends to ask for the data. -/
def request : Packet := .conn { type := .named .syncRequest }

theorem wellFormed_request : WellFormed (PktParser.sentBytes request) (PktParser.received request) :=
  .of_sendable ⟨rfl,rfl⟩

/-- A buffer with n requests and four bytes of another. -/
def requests (n : ℕ) : ConnectionEventData where
  fd := 7
  buffer i := (PktParser.sentBytes request).getD (i % 5) 0
  bufferSize := 5*n + 4

theorem contents_requests (n : ℕ) : (requests n).contents =
    (List.replicate n (PktParser.sentBytes request)).flatten ++
      (PktParser.sentBytes request).take 4 := by
  induction n with
  | zero => rfl
  | succ n ih =>
    rw [List.replicate_succ, List.flatten_cons, List.append_assoc, ← ih]
    have hperiod : (fun i => (requests (n+1)).buffer (5+i)) = (requests n).buffer := by
      funext i
      simp [requests]
    change (List.range (5*(n+1) + 4)).map (requests (n+1)).buffer = _
    rw [show 5*(n+1) + 4 = 5 + (5*n+4) by omega, List.range_add, List.map_append, List.map_map,
      Function.comp_def, hperiod]
    rfl

theorem cut_requests (n : ℕ) : Cut (requests n).contents
    (List.replicate n (PktParser.sentBytes request,PktParser.received request))
    ((PktParser.sentBytes request).take 4) where
  wellFormed frame hf := by
    obtain rfl := List.eq_of_mem_replicate hf
    exact wellFormed_request
  incomplete := ⟨_,_,wellFormed_request,List.take_prefix _ _,by decide⟩
  eq := by rw [contents_requests, List.map_replicate]

theorem drains_request : ∃ fuel left, drain fuel (requests 1) =
    some ([(PktParser.received request).withFd 7],left) ∧
      left.contents = (PktParser.sentBytes request).take 4 := by
  have hfill : (requests 1).bufferSize ≤ maxPacketSize := by
    simp only [requests, maxPacketSize]
    omega
  refine (drains_iff (cut_requests 1) hfill).mpr ⟨?_,trivial⟩
  change 5 + 9 ≤ 65555 * 100
  omega

/-- One byte is free behind the requests: the first of them is enqueued without end. -/
theorem full_buffer_stuck : ∃ (d : ConnectionEventData) (frames : List (Bytes × Packet))
    (pre : Bytes), Cut d.contents frames pre ∧ d.bufferSize ≤ maxPacketSize ∧
      ¬∃ fuel left, drain fuel d = some (frames.map fun frame => frame.2.withFd d.fd,left) ∧
        left.contents = pre := by
  have hfill : (requests (1311098+1)).bufferSize ≤ maxPacketSize := by
    simp only [requests, maxPacketSize]
    omega
  have hsize : maxPacketSize < 5 + (requests (1311098+1)).bufferSize := by
    simp only [requests, maxPacketSize]
    omega
  refine ⟨_,_,_,cut_requests (1311098+1),hfill,?_⟩
  rintro ⟨fuel,left,hd,-⟩
  have hcut := cut_requests (1311098+1)
  rw [List.replicate_succ] at hcut
  rw [drain_stuck hcut hfill hsize] at hd
  contradiction

end ConnectionEventData
end Ssyncd
