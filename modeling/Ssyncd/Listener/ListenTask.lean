import Ssyncd.Codec.Extent
import Ssyncd.Connection.EndOfStream
import Ssyncd.Listener.HttpSync

/-! The wake-ups of a farm's socket: what the listen task reads, and the actions that it takes
out of its buffer. -/
namespace Ssyncd
open Reader Http

namespace HttpSync

def httpMaxPacketSize : ℕ := 65350 * 100

/-- What recv gives once it has taken the bytes that are there. -/
inductive RecvEnd
  | again
  | closed
  | reset
  | failed
  deriving DecidableEq

/-- An event on a farm's socket: the bytes that each recv finds, and what comes after them. What
else epoll reports is printed. -/
inductive Wake
  | epollin (chunks : List Bytes) (ending : RecvEnd)
  | other
  deriving DecidableEq

/-- What the listen task keeps of one farm, and the bytes that wait on its socket. A closed
descriptor is not watched. -/
structure FarmSocket where
  farmName : Bytes
  fd : ℕ
  data : Option ConnectionEventData
  socket : List Bytes := []
  inputData : List HttpAction := []

def freeSpace (d : ConnectionEventData) : ℕ := unsignedSub httpMaxPacketSize d.bufferSize

/-- The memset before the reads; it touches no received byte. -/
def clearHeader (d : ConnectionEventData) : ConnectionEventData :=
  if 4 < freeSpace d then
    { d with
      buffer := fun i => if d.bufferSize ≤ i ∧ i < d.bufferSize + 5 then 0 else d.buffer i }
  else d

/-- The loop over recv: the buffer, what stays on the socket, and the last result. A recv with no
room for a byte gives zero, as a closed socket does; one that fills an empty buffer ends the loop. -/
def recvAll (d : ConnectionEventData) (ending : RecvEnd) :
    List Bytes → ConnectionEventData × List Bytes × RecvEnd
  | [] => (d,[],ending)
  | bytes::chunks =>
    if bytes = [] then recvAll d ending chunks
    else if freeSpace d = 0 then (d,bytes::chunks,.closed)
    else if httpMaxPacketSize ≤ (bytes.take (freeSpace d)).length then
      (d.append (bytes.take (freeSpace d)),bytes.drop (freeSpace d)::chunks,.again)
    else if freeSpace d < bytes.length then
      (d.append (bytes.take (freeSpace d)),bytes.drop (freeSpace d)::chunks,.closed)
    else recvAll (d.append bytes) ending chunks

/-- The size goes down first, and is compared after it. -/
def takeOut (d : ConnectionEventData) (bufferUsed : ℕ) : ConnectionEventData :=
  let bufferSize := unsignedSub d.bufferSize bufferUsed
  if bufferUsed ≤ unsignedSub httpMaxPacketSize bufferSize then d.shift bufferUsed
  else { d with bufferSize }

end HttpSync

namespace HttpParser

/-- A decoder's answer is longer than two bytes of a body and the header. -/
theorem lt_used {buffer : Memory} {n used : ℕ} {action : HttpAction}
    (h : deserialize buffer n = some (action,used)) : 7 ≤ used := by
  rw [deserialize_eq_ite] at h
  split at h
  · have hused := readPacket_used buffer
    rw [Option.some.inj h] at hused
    simp only at hused
    rw [hused, extent]
    split
    · omega
    · split <;> omega
  · contradiction

end HttpParser

namespace HttpSync

@[simp] theorem bufferSize_takeOut (d : ConnectionEventData) (used : ℕ) :
    (takeOut d used).bufferSize = unsignedSub d.bufferSize used := by
  unfold takeOut
  dsimp only
  split <;> rfl

theorem takeOut_lt {d : ConnectionEventData} {used : ℕ} {action : HttpAction}
    (h : HttpParser.deserialize d.buffer d.bufferSize = some (action,used))
    (hused : used ≤ d.bufferSize) : (takeOut d used).bufferSize < d.bufferSize := by
  have hlt := HttpParser.lt_used h
  rw [bufferSize_takeOut, unsignedSub, if_pos hused]
  omega

/-- The loop that deserializes, enqueues and takes out. An action that ends behind the received
bytes makes the size of the memmove wrap: then it writes past the buffer, and there is no result. -/
def drain (farmName : Bytes) (d : ConnectionEventData) :
    Option (List HttpAction × ConnectionEventData) :=
  match h : HttpParser.deserialize d.buffer d.bufferSize with
  | none => some ([],d)
  | some (action,bufferUsed) =>
    if hused : bufferUsed ≤ d.bufferSize then
      have _hless := takeOut_lt h hused
      (drain farmName (takeOut d bufferUsed)).map fun (actions,left) =>
        ({ action with farmName, fd := d.fd } :: actions,left)
    else none
termination_by d.bufferSize
decreasing_by exact _hless

namespace FarmSocket

/-- A farm's socket as it is added. -/
def added (farmName : Bytes) (fd : ℕ) (buffer : Memory) : FarmSocket where
  farmName
  fd
  data := some { fd, buffer, bufferSize := 0 }

def peerDisconnectHandler (s : FarmSocket) : FarmSocket :=
  { s with data := none, inputData := s.inputData ++ [farmMarker .disconnect s.farmName s.fd] }

/-- One event of the listen task. -/
def listenTask (s : FarmSocket) : Wake → Option FarmSocket
  | .other => some s
  | .epollin chunks ending =>
    match s.data with
    | none => some s
    | some d =>
      match recvAll (clearHeader d) ending (s.socket ++ chunks) with
      | (d,socket,.failed) => some { s with data := some d, socket }
      | (_,_,.closed) => some s.peerDisconnectHandler
      | (_,_,.reset) => some s.peerDisconnectHandler
      | (d,socket,.again) =>
        if 0 < d.bufferSize then
          (drain s.farmName d).map fun (actions,left) =>
            { s with data := some left, socket, inputData := s.inputData ++ actions }
        else some { s with data := some d, socket }

end FarmSocket

/-- The first action of a stream and its bytes, where all of them are there. -/
def wholeAction : Framing.Decoder UInt8 HttpAction := fun bytes =>
  (HttpParser.deserialize (memory bytes fun _ => 0) bytes.length).filter fun answer =>
    answer.2 ≤ bytes.length

/-- As many bytes are there as the header declares, and the action goes on behind the last one. -/
def Overlong (bytes : Bytes) : Prop :=
  ∃ action used, HttpParser.deserialize (memory bytes fun _ => 0) bytes.length =
    some (action,used) ∧ bytes.length < used

end HttpSync

namespace HttpParser
open BasePktParser (Accepts header header_congr)

/-- An action that is there is read alike with more bytes behind it. -/
theorem deserialize_longer {buffer buffer' : Memory} {n n' used : ℕ} {action : HttpAction}
    (hsame : ∀ i < n, buffer' i = buffer i) (hn : n ≤ n')
    (h : deserialize buffer n = some (action,used)) (hused : used ≤ n) :
    deserialize buffer' n' = some (action,used) := by
  rw [deserialize_eq_ite] at h ⊢
  split at h
  · next hok =>
    obtain ⟨⟨h5,hlen⟩,htype⟩ := hok
    have hheader := header_congr h5 hsame
    have hacc : Accepts buffer' n' := by
      refine ⟨by omega,?_⟩
      rw [hsame 3 (by omega), hsame 4 (by omega)]
      omega
    have hread := Option.some.inj h
    have hpacket := (sequential_readPacket buffer 5).2 buffer' fun i _ hi =>
      hsame i (by rw [hread] at hi; exact Nat.lt_of_lt_of_le hi hused)
    rw [if_pos ⟨hacc,hheader ▸ htype⟩, hpacket, hread]
  · contradiction

theorem deserialize_none {buffer buffer' : Memory} {n : ℕ} (hsame : ∀ i < n, buffer' i = buffer i)
    (h : deserialize buffer n = none) : deserialize buffer' n = none := by
  rw [deserialize_eq_ite] at h ⊢
  split at h
  · contradiction
  · next hnot =>
    refine if_neg fun hok => hnot ?_
    exact ⟨(BasePktParser.accepts_congr hsame).mp hok.1,header_congr hok.1.1 hsame ▸ hok.2⟩

end HttpParser

namespace HttpSync
open HttpParser (deserialize_longer deserialize_none)

theorem wholeAction_eq_some_iff {bytes : Bytes} {action : HttpAction} {used : ℕ} :
    wholeAction bytes = some (action,used) ↔
      HttpParser.deserialize (memory bytes fun _ => 0) bytes.length = some (action,used) ∧
        used ≤ bytes.length := by
  simp [wholeAction, Option.filter_eq_some_iff]

theorem stable_wholeAction : Framing.Stable wholeAction where
  used bytes action used h := by
    obtain ⟨hread,hle⟩ := wholeAction_eq_some_iff.mp h
    have hlt := HttpParser.lt_used hread
    exact ⟨by omega,hle⟩
  append bytes action used more h := by
    obtain ⟨hread,hle⟩ := wholeAction_eq_some_iff.mp h
    have hlen : bytes.length ≤ (bytes ++ more).length := by simp
    refine wholeAction_eq_some_iff.mpr ⟨deserialize_longer ?_ hlen hread hle,by omega⟩
    intro i hi
    rw [memory_lt (Nat.lt_of_lt_of_le hi hlen), memory_lt hi, List.getElem_append_left hi]

theorem wholeAction_nil : wholeAction [] = none := rfl

theorem not_overlong_nil : ¬Overlong [] := by
  rintro ⟨action,used,hread,-⟩
  have hnone : HttpParser.deserialize (memory [] fun _ => 0) ([] : Bytes).length = none := rfl
  rw [hnone] at hread
  contradiction

section Contents
variable {d : ConnectionEventData}

theorem memory_contents (d : ConnectionEventData) : ∀ i < d.bufferSize,
    d.buffer i = memory d.contents (fun _ => 0) i := by
  intro i hi
  rw [memory_lt (by simpa using hi)]
  simp [ConnectionEventData.contents]

theorem deserialize_whole {action : HttpAction} {used : ℕ}
    (h : wholeAction d.contents = some (action,used)) :
    HttpParser.deserialize d.buffer d.bufferSize = some (action,used) ∧ used ≤ d.bufferSize := by
  obtain ⟨hread,hle⟩ := wholeAction_eq_some_iff.mp h
  rw [ConnectionEventData.length_contents] at hread hle
  exact ⟨deserialize_longer (memory_contents d) le_rfl hread hle,hle⟩

theorem deserialize_overlong (h : Overlong d.contents) :
    ∃ action used, HttpParser.deserialize d.buffer d.bufferSize = some (action,used) ∧
      d.bufferSize < used := by
  obtain ⟨action,used,hread,hlt⟩ := h
  rw [ConnectionEventData.length_contents] at hread hlt
  have hsame : ∀ i < d.bufferSize, memory d.contents (fun _ => 0) i = d.buffer i :=
    fun i hi => (memory_contents d i hi).symm
  cases hd : HttpParser.deserialize d.buffer d.bufferSize with
  | none =>
    rw [deserialize_none hsame hd] at hread
    contradiction
  | some answer =>
    refine ⟨answer.1,answer.2,rfl,?_⟩
    by_contra hle
    have hagain := deserialize_longer hsame le_rfl hd (by omega)
    rw [hread, Option.some.injEq, Prod.mk.injEq] at hagain
    omega

/-- Where nothing whole is there, the loop stops or writes past the buffer. -/
theorem deserialize_rest (h : wholeAction d.contents = none) (hnot : ¬Overlong d.contents) :
    HttpParser.deserialize d.buffer d.bufferSize = none := by
  cases hd : HttpParser.deserialize (memory d.contents fun _ => 0) d.bufferSize with
  | none => exact deserialize_none (memory_contents d) hd
  | some answer =>
    rw [← ConnectionEventData.length_contents d] at hd
    by_cases hle : answer.2 ≤ d.contents.length
    · rw [wholeAction_eq_some_iff.mpr ⟨hd,hle⟩] at h
      contradiction
    · exact absurd ⟨_,_,hd,Nat.lt_of_not_le hle⟩ hnot

end Contents

/-- An action as it goes into the queue. -/
def queuedAs (farmName : Bytes) (fd : Int) (action : HttpAction) : HttpAction :=
  { action with farmName, fd }

section Drain
variable {d : ConnectionEventData} {farmName rest : Bytes} {values : List HttpAction}

/-- The buffer is never too full for what is taken out of it. -/
theorem takeOut_eq {used : ℕ} (hfill : d.bufferSize ≤ httpMaxPacketSize) (hused : used ≤ d.bufferSize) :
    takeOut d used = d.shift used := by
  have hroom : used ≤ unsignedSub httpMaxPacketSize (unsignedSub d.bufferSize used) := by
    simp only [unsignedSub, hused, if_true]
    rw [if_pos (by omega)]
    omega
  exact if_pos hroom

theorem drain_next {used : ℕ} {action : HttpAction} (hfill : d.bufferSize ≤ httpMaxPacketSize)
    (h : wholeAction d.contents = some (action,used)) :
    drain farmName d = (drain farmName (d.shift used)).map fun (actions,left) =>
      (queuedAs farmName d.fd action :: actions,left) := by
  obtain ⟨hread,hused⟩ := deserialize_whole h
  rw [drain]
  split
  · next hnone =>
    rw [hread] at hnone
    contradiction
  · next action' used' hsome =>
    obtain ⟨rfl,rfl⟩ := Prod.mk.inj (Option.some.inj (hread.symm.trans hsome))
    rw [dif_pos hused, ← takeOut_eq hfill hused]
    rfl

theorem drain_overlong (h : Overlong d.contents) : drain farmName d = none := by
  obtain ⟨action,used,hread,hlt⟩ := deserialize_overlong h
  rw [drain]
  split
  · next hnone =>
    rw [hread] at hnone
    contradiction
  · next action' used' hsome =>
    obtain ⟨rfl,rfl⟩ := Prod.mk.inj (Option.some.inj (hread.symm.trans hsome))
    exact dif_neg (Nat.not_le_of_lt hlt)

theorem drain_rest (h : wholeAction d.contents = none) (hnot : ¬Overlong d.contents) :
    drain farmName d = some ([],d) := by
  have hread := deserialize_rest h hnot
  rw [drain]
  split
  · rfl
  · next hsome =>
    rw [hread] at hsome
    contradiction

/-- The loop queues every whole action, unless an overlong one follows them. -/
theorem drain_eq (hd : Framing.Drains wholeAction d.contents values rest)
    (hfill : d.bufferSize ≤ httpMaxPacketSize) :
    (Overlong rest → drain farmName d = none) ∧
      (¬Overlong rest → ∃ left, drain farmName d = some (values.map (queuedAs farmName d.fd),left) ∧
        left.contents = rest ∧ left.fd = d.fd) := by
  generalize hc : d.contents = contents at hd
  induction hd generalizing d with
  | stop h =>
    subst hc
    exact ⟨drain_overlong,fun hnot => ⟨d,drain_rest h hnot,rfl,rfl⟩⟩
  | @next buffer action used values rest h tail ih =>
    subst hc
    obtain ⟨-,hused⟩ := deserialize_whole h
    have hshift := ConnectionEventData.bufferSize_shift hused
    obtain ⟨hover,hwhole⟩ := ih (d := d.shift used) (by omega) (ConnectionEventData.contents_shift hused)
    rw [drain_next hfill h]
    constructor
    · intro hlong
      rw [hover hlong, Option.map_none]
    · intro hnot
      obtain ⟨left,heq,hleft,hfd⟩ := hwhole hnot
      rw [heq]
      exact ⟨left,rfl,hleft,hfd⟩

end Drain

section Recv

@[simp] theorem clearHeader_fd (d : ConnectionEventData) : (clearHeader d).fd = d.fd := by
  unfold clearHeader
  split <;> rfl

@[simp] theorem clearHeader_bufferSize (d : ConnectionEventData) :
    (clearHeader d).bufferSize = d.bufferSize := by
  unfold clearHeader
  split <;> rfl

@[simp] theorem contents_clearHeader (d : ConnectionEventData) :
    (clearHeader d).contents = d.contents := by
  unfold clearHeader
  split
  · refine List.map_congr_left fun i hi => if_neg fun hin => ?_
    exact absurd (List.mem_range.mp hi) (Nat.not_lt.mpr hin.1)
  · rfl

/-- While there is room for more, recv takes every byte, and its last result is what follows them. -/
theorem recvAll_eq {d : ConnectionEventData} {ending : RecvEnd} {chunks : List Bytes}
    (hsize : (d.contents ++ chunks.flatten).length < httpMaxPacketSize) :
    ∃ d', recvAll d ending chunks = (d',[],ending) ∧
      d'.contents = d.contents ++ chunks.flatten ∧ d'.fd = d.fd := by
  induction chunks generalizing d with
  | nil => exact ⟨d,rfl,by simp,rfl⟩
  | cons bytes chunks ih =>
    rw [List.flatten_cons, ← List.append_assoc, ← ConnectionEventData.contents_append] at hsize
    obtain ⟨d',heq,hc,hfd⟩ := ih hsize
    rw [List.length_append, ConnectionEventData.contents_append, List.length_append,
      ConnectionEventData.length_contents] at hsize
    have hfree : freeSpace d = httpMaxPacketSize - d.bufferSize := if_pos (by omega)
    rw [recvAll]
    split
    · next hempty =>
      subst hempty
      obtain ⟨d',heq,hc,hfd⟩ := ih (d := d) (by
        rw [List.length_append, ConnectionEventData.length_contents]
        omega)
      exact ⟨d',heq,by simpa using hc,hfd⟩
    · rw [if_neg (by omega), if_neg (by rw [List.length_take]; omega), if_neg (by omega)]
      exact ⟨d',heq,by rw [hc, ConnectionEventData.contents_append, List.flatten_cons,
        List.append_assoc],hfd⟩

end Recv

/-- What a farm's stream comes to, with no buffer: the bytes that the loop has gone over, and
those that came with an error and wait for the next wake-up. A close takes what came with it. -/
structure Reading where
  read : Bytes := []
  waiting : Bytes := []
  isOpen : Bool := true

namespace Reading

def wake (r : Reading) : Wake → Reading
  | .other => r
  | .epollin chunks ending =>
    if r.isOpen then
      match ending with
      | .again => { r with read := r.read ++ (r.waiting ++ chunks.flatten), waiting := [] }
      | .failed => { r with waiting := r.waiting ++ chunks.flatten }
      | .closed | .reset => { r with waiting := [], isOpen := false }
    else r

/-- The wake-up reads less than the buffer can still hold. -/
def Fits (r : Reading) : Wake → Prop
  | .other => True
  | .epollin chunks _ => ∀ values rest, Framing.Drains wholeAction r.read values rest →
    (rest ++ (r.waiting ++ chunks.flatten)).length < httpMaxPacketSize

/-- The loop comes to an overlong action. -/
def Overruns (r : Reading) : Wake → Prop
  | .other => False
  | .epollin chunks ending => r.isOpen = true ∧ ending = .again ∧
    ∃ values rest, Framing.Drains wholeAction (r.read ++ (r.waiting ++ chunks.flatten)) values rest ∧
      Overlong rest

end Reading

/-- The bytes that a wake-up finds. -/
def Wake.received : Wake → Bytes
  | .other => []
  | .epollin chunks _ => chunks.flatten

/-- Everything that comes over a connection may fit into its buffer at once. -/
theorem Reading.fits_of_length {r : Reading} {wakes : List Wake}
    (h : (r.read ++ (r.waiting ++ wakes.flatMap Wake.received)).length < httpMaxPacketSize) :
    Runs.Meets (fun r w => some (Reading.wake r w)) Reading.Fits r wakes := by
  induction wakes generalizing r with
  | nil => trivial
  | cons w wakes ih =>
    rw [List.flatMap_cons] at h
    refine ⟨?_,fun r' hr' => ?_⟩
    · cases w with
      | other => trivial
      | epollin chunks ending =>
        intro values rest hdrains
        have hrest := hdrains.rest_le
        simp only [Wake.received, List.length_append] at h ⊢
        omega
    · obtain rfl := Option.some.inj hr'
      apply ih
      cases w with
      | other => exact h
      | epollin chunks ending =>
        simp only [Wake.received] at h
        unfold Reading.wake
        by_cases hopen : r.isOpen = true
        · cases ending <;> simp [hopen] at h ⊢ <;> omega
        · simp [hopen] at h ⊢
          omega

namespace FarmSocket

/-- The socket has queued the actions of the bytes that are read, and a marker behind them once
it is closed; it holds the rest of them and the bytes that wait. -/
structure Holds (s : FarmSocket) (r : Reading) : Prop where
  queued : ∃ values rest, Framing.Drains wholeAction r.read values rest ∧
    s.inputData = values.map (queuedAs s.farmName s.fd) ++
      (if r.isOpen then [] else [farmMarker .disconnect s.farmName s.fd]) ∧
    (r.isOpen = true → ∃ d, s.data = some d ∧ d.fd = s.fd ∧ d.contents = rest ++ r.waiting)
  socket : r.isOpen = true → s.socket = []
  closed : r.isOpen = false → s.data = none

theorem holds_added (farmName : Bytes) (fd : ℕ) (buffer : Memory) :
    (added farmName fd buffer).Holds {} where
  queued := by
    have hnil : Framing.Drains wholeAction [] [] [] := .stop wholeAction_nil
    exact ⟨[],[],hnil,rfl,fun _ => ⟨_,rfl,rfl,rfl⟩⟩
  socket _ := rfl
  closed h := Bool.noConfusion h

section Wake
variable {s : FarmSocket} {r : Reading} {chunks : List Bytes}

/-- What is read when all of it fits. -/
theorem Holds.recv (hs : s.Holds r) (hopen : r.isOpen = true) {ending : RecvEnd}
    (hfits : r.Fits (.epollin chunks ending)) :
    ∃ d d' values rest, s.data = some d ∧
      recvAll (clearHeader d) ending (s.socket ++ chunks) = (d',[],ending) ∧ d'.fd = s.fd ∧
      Framing.Drains wholeAction r.read values rest ∧
      s.inputData = values.map (queuedAs s.farmName s.fd) ∧
      d'.contents = rest ++ (r.waiting ++ chunks.flatten) ∧ d'.bufferSize < httpMaxPacketSize := by
  obtain ⟨values,rest,hdrains,hqueue,hdata⟩ := hs.queued
  obtain ⟨d,hd,hfd,hcontents⟩ := hdata hopen
  have hroom := hfits values rest hdrains
  have hall : (clearHeader d).contents ++ (s.socket ++ chunks).flatten =
      rest ++ (r.waiting ++ chunks.flatten) := by
    rw [contents_clearHeader, hcontents, hs.socket hopen, List.nil_append, List.append_assoc]
  obtain ⟨d',heq,hc,hfd'⟩ := @recvAll_eq _ ending _ (hall ▸ hroom)
  rw [hall] at hc
  rw [hopen, if_pos rfl, List.append_nil] at hqueue
  refine ⟨d,d',values,rest,hd,heq,by rw [hfd', clearHeader_fd, hfd],hdrains,hqueue,hc,?_⟩
  rw [← ConnectionEventData.length_contents, hc]
  exact hroom

/-- Where nothing is in the buffer, the loop that is left out would do nothing. -/
theorem listenTask_again {d d' : ConnectionEventData} {socket : List Bytes} (hdata : s.data = some d)
    (hrecv : recvAll (clearHeader d) .again (s.socket ++ chunks) = (d',socket,.again)) :
    s.listenTask (.epollin chunks .again) = (drain s.farmName d').map fun (actions,left) =>
      { s with data := some left, socket, inputData := s.inputData ++ actions } := by
  simp only [listenTask, hdata, hrecv]
  split
  · rfl
  · next hempty =>
    have hread : HttpParser.deserialize d'.buffer d'.bufferSize = none := by
      rw [HttpParser.deserialize_eq_ite]
      exact if_neg fun hok => absurd hok.1.1 (by omega)
    have hdrain : drain s.farmName d' = some ([],d') := by
      rw [drain]
      split
      · rfl
      · next hsome =>
        rw [hread] at hsome
        contradiction
    rw [hdrain, Option.map_some, List.append_nil]

/-- What the loop makes of a wake-up is what the bytes so far come to. -/
theorem Holds.again (hs : s.Holds r) (hopen : r.isOpen = true)
    (hfits : r.Fits (.epollin chunks .again)) {values : List HttpAction} {rest : Bytes}
    (hdrains : Framing.Drains wholeAction (r.read ++ (r.waiting ++ chunks.flatten)) values rest) :
    (Overlong rest → s.listenTask (.epollin chunks .again) = none) ∧
      (¬Overlong rest → ∃ d, d.fd = (s.fd : Int) ∧ d.contents = rest ∧
        s.listenTask (.epollin chunks .again) = some { s with
          data := some d, socket := [], inputData := values.map (queuedAs s.farmName s.fd) }) := by
  obtain ⟨d,d',values₀,rest₀,hdata,hrecv,hfd,hdrains₀,hqueue,hcontents,hsize⟩ := hs.recv hopen hfits
  obtain ⟨values',rest',hdrains'⟩ := stable_wholeAction.exists_drains d'.contents
  have hall := stable_wholeAction.drains_append hdrains₀ (hcontents ▸ hdrains')
  obtain ⟨rfl,rfl⟩ := hdrains.unique hall
  obtain ⟨hover,hwhole⟩ := @drain_eq d' s.farmName _ _ hdrains' (Nat.le_of_lt hsize)
  rw [listenTask_again hdata hrecv]
  constructor
  · intro hlong
    rw [hover hlong, Option.map_none]
  · intro hnot
    obtain ⟨left,heq,hleft,hfdleft⟩ := hwhole hnot
    refine ⟨left,by rw [hfdleft, hfd],hleft,?_⟩
    rw [heq, Option.map_some, hqueue, hfd, List.map_append]

theorem Holds.step (hs : s.Holds r) {w : Wake} (hfits : r.Fits w) (hsafe : ¬r.Overruns w) :
    ∃ s', s.listenTask w = some s' ∧ s'.Holds (r.wake w) ∧ s'.farmName = s.farmName ∧
      s'.fd = s.fd := by
  cases w with
  | other => exact ⟨s,rfl,hs,rfl,rfl⟩
  | epollin chunks ending =>
    by_cases hopen : r.isOpen = true
    · obtain ⟨d,d',values,rest,hdata,hrecv,hfd,hdrains,hqueue,hcontents,-⟩ := hs.recv hopen hfits
      cases ending with
      | again =>
        obtain ⟨values',rest',hdrains'⟩ :=
          stable_wholeAction.exists_drains (r.read ++ (r.waiting ++ chunks.flatten))
        have hnot : ¬Overlong rest' := fun h => hsafe ⟨hopen,rfl,_,_,hdrains',h⟩
        obtain ⟨left,hfd',hleft,hstep⟩ := (hs.again hopen hfits hdrains').2 hnot
        refine ⟨_,hstep,?_,rfl,rfl⟩
        simp only [Reading.wake, hopen, if_true]
        exact ⟨⟨values',rest',hdrains',by simp,fun _ => ⟨left,rfl,hfd',by simpa using hleft⟩⟩,
          fun _ => rfl,fun h => Bool.noConfusion h⟩
      | failed =>
        refine ⟨{ s with data := some d', socket := [] },by simp only [listenTask, hdata, hrecv],
          ?_,rfl,rfl⟩
        simp only [Reading.wake, hopen, if_true]
        exact ⟨⟨values,rest,hdrains,by simpa using hqueue,fun _ => ⟨d',rfl,hfd,hcontents⟩⟩,
          fun _ => rfl,fun h => Bool.noConfusion h⟩
      | closed | reset =>
        refine ⟨s.peerDisconnectHandler,by simp only [listenTask, hdata, hrecv],?_,rfl,rfl⟩
        simp only [Reading.wake, hopen, if_true]
        exact ⟨⟨values,rest,hdrains,by simp [peerDisconnectHandler, hqueue],
          fun h => Bool.noConfusion h⟩,fun h => Bool.noConfusion h,fun _ => rfl⟩
    · have hdata := hs.closed (by simpa using hopen)
      have hsame : r.wake (.epollin chunks ending) = r := if_neg hopen
      exact ⟨s,by simp only [listenTask, hdata],hsame.symm ▸ hs,rfl,rfl⟩

theorem Holds.overruns (hs : s.Holds r) {w : Wake} (hfits : r.Fits w) (h : r.Overruns w) :
    s.listenTask w = none := by
  cases w with
  | other => exact h.elim
  | epollin chunks ending =>
    obtain ⟨hopen,rfl,values,rest,hdrains,hlong⟩ := h
    exact (hs.again hopen hfits hdrains).1 hlong

end Wake

/-- The socket follows its stream. -/
def Follows (farmName : Bytes) (fd : ℕ) (s : FarmSocket) (r : Reading) : Prop :=
  s.Holds r ∧ s.farmName = farmName ∧ s.fd = fd

theorem Follows.step {farmName : Bytes} {fd : ℕ} (s : FarmSocket) (r : Reading) (w : Wake)
    (hs : Follows farmName fd s r) (hfits : r.Fits w) (hsafe : ¬r.Overruns w) :
    ∃ s', s.listenTask w = some s' ∧ Follows farmName fd s' (r.wake w) := by
  obtain ⟨hs,rfl,rfl⟩ := hs
  obtain ⟨s',hstep,hs',hfarm,hfd⟩ := hs.step hfits hsafe
  exact ⟨s',hstep,hs',hfarm,hfd⟩

theorem Follows.fault {farmName : Bytes} {fd : ℕ} (s : FarmSocket) (r : Reading) (w : Wake)
    (hs : Follows farmName fd s r) (hfits : r.Fits w) (hover : ¬¬r.Overruns w) :
    s.listenTask w = none :=
  hs.1.overruns hfits (not_not.mp hover)

/-- Any bytes in any pieces, with errors and a close between them: the listener goes on to the
end exactly where no wake-up comes to an action that is longer than its header says and has not
all arrived. -/
theorem listener_survives_iff {wakes : List Wake}
    (hfits : Runs.Meets (fun r w => some (Reading.wake r w)) Reading.Fits {} wakes) (farmName : Bytes)
    (fd : ℕ) (buffer : Memory) :
    (∃ s, Runs.run listenTask (added farmName fd buffer) wakes = some s) ↔
      Runs.Meets (fun r w => some (Reading.wake r w)) (fun r w => ¬r.Overruns w) {} wakes :=
  Runs.exists_run_iff_meets Follows.step Follows.fault ⟨holds_added farmName fd buffer,rfl,rfl⟩ hfits

/-- A header that declares seven bytes, and the size of a farm's name behind them. -/
def shortAction : Bytes := [239,171,6,7,0,2,1]

/-- The listener overruns its buffer on seven bytes. -/
theorem shortAction_overruns :
    ¬∃ s, Runs.run listenTask (added [102] 7 fun _ => 0) [.epollin [shortAction] .again] = some s := by
  rw [listener_survives_iff (Reading.fits_of_length
    (by simp [Wake.received, shortAction, httpMaxPacketSize]))]
  rintro ⟨hsafe,-⟩
  obtain ⟨answer,hread,hlong⟩ : ∃ answer, HttpParser.deserialize (memory shortAction fun _ => 0) 7 =
      some answer ∧ 7 < answer.2 := ⟨_,rfl,by decide⟩
  exact hsafe ⟨rfl,rfl,[],shortAction,.stop rfl,answer.1,answer.2,hread,hlong⟩

/-- What it has queued then depends on the bytes alone, not on their pieces: it is what one drain
of all that was read would give, and the marker once the socket is closed. -/
theorem listener_reads_stream {wakes : List Wake}
    (hfits : Runs.Meets (fun r w => some (Reading.wake r w)) Reading.Fits {} wakes) {farmName : Bytes}
    {fd : ℕ} {buffer : Memory} {s : FarmSocket}
    (hrun : Runs.run listenTask (added farmName fd buffer) wakes = some s) :
    ∃ values rest, Framing.Drains wholeAction (wakes.foldl Reading.wake {}).read values rest ∧
      s.inputData = values.map (queuedAs farmName fd) ++
        (if (wakes.foldl Reading.wake {}).isOpen then [] else [farmMarker .disconnect farmName fd]) ∧
      (s.data = none ↔ (wakes.foldl Reading.wake {}).isOpen = false) := by
  obtain ⟨hs,rfl,rfl⟩ := Runs.run_follows Follows.step Follows.fault
    ⟨holds_added farmName fd buffer,rfl,rfl⟩ hfits hrun
  obtain ⟨values,rest,hdrains,hqueue,hdata⟩ := hs.queued
  refine ⟨values,rest,hdrains,hqueue,fun hnone => ?_,hs.closed⟩
  by_contra hopen
  obtain ⟨d,hd,-⟩ := hdata (by simpa using hopen)
  rw [hnone] at hd
  contradiction

/-- A farm asks for its sessions. -/
def requestBytes : Bytes := [239,171,6,8,0,1,1,102]

/-- It comes in two pieces with an error between them, and the farm closes. -/
def requestWakes : List Wake :=
  [.epollin [requestBytes.take 3] .failed,.epollin [requestBytes.drop 3] .again,.epollin [] .closed]

theorem requestBytes_drains : Framing.Drains wholeAction requestBytes
    [HttpParser.blank (.named .syncRequest) [102]] [] :=
  .next rfl (.stop rfl)

theorem requestWakes_fits :
    Runs.Meets (fun r w => some (Reading.wake r w)) Reading.Fits {} requestWakes := by
  refine Reading.fits_of_length ?_
  simp [requestWakes, Wake.received, requestBytes, httpMaxPacketSize]

theorem requestWakes_run : ∃ s, Runs.run listenTask (added [102] 7 fun _ => 0) requestWakes = some s := by
  have hsafe : Runs.Meets (fun r w => some (Reading.wake r w)) (fun r w => ¬r.Overruns w) {}
      requestWakes := by
    refine ⟨fun h => absurd h.2.1 (by decide),fun r hr => ⟨?_,fun r' hr' => ⟨?_,fun _ _ => trivial⟩⟩⟩
    · obtain rfl := Option.some.inj hr
      rintro ⟨-,-,values,rest,hother,hlong⟩
      obtain ⟨-,rfl⟩ := hother.unique requestBytes_drains
      exact not_overlong_nil hlong
    · exact fun h => absurd h.2.1 (by decide)
  exact (Runs.exists_run_iff_meets Follows.step Follows.fault
    ⟨holds_added [102] 7 fun _ => 0,rfl,rfl⟩ requestWakes_fits).mpr hsafe

theorem requestWakes_queued :
    ∃ s, Runs.run listenTask (added [102] 7 fun _ => 0) requestWakes = some s ∧
      s.inputData = [queuedAs [102] 7 (HttpParser.blank (.named .syncRequest) [102]),
        farmMarker .disconnect [102] 7] := by
  obtain ⟨s,hrun⟩ := requestWakes_run
  obtain ⟨values,rest,hread,hqueue,-⟩ := listener_reads_stream requestWakes_fits hrun
  obtain ⟨rfl,-⟩ := hread.unique requestBytes_drains
  exact ⟨s,hrun,hqueue⟩

end FarmSocket

end HttpSync
end Ssyncd
