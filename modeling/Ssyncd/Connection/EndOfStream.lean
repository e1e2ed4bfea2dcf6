import Ssyncd.Connection.Receive
import Ssyncd.Library.Runs

/-! The wake-ups of a node's socket: what each of them reads, what it puts into the queue, and
how it tells the end of the stream. -/
namespace Ssyncd
open ConnectionEventData

/-- What recv gives once it has taken the bytes that are there. -/
inductive Ending
  | again
  | closed
  | failed
  deriving DecidableEq

/-- The flags of a wake-up, the bytes that each recv finds, and what comes after them. -/
structure EpollEvent where
  epollin : Bool := false
  hangup : Bool := false
  error : Bool := false
  chunks : List Bytes := []
  ending : Ending := .again

/-- What the receive task keeps of one node, and the bytes that wait on its socket. A node that
is not connected is not watched. -/
structure NodeSocket where
  fd : Int
  node : Option ConnectionEventData
  socket : List Bytes := []
  inputPacketQueue : List Packet := []

namespace ConnectionEventData

/-- The memset before the reads; it touches no received byte. -/
def clearHeader (d : ConnectionEventData) : ConnectionEventData :=
  if 4 < d.freeSpace then
    { d with
      buffer := fun i => if d.bufferSize ≤ i ∧ i < d.bufferSize + 5 then 0 else d.buffer i }
  else d

def append (d : ConnectionEventData) (bytes : Bytes) : ConnectionEventData where
  fd := d.fd
  buffer := Reader.memory (d.contents ++ bytes) d.buffer
  bufferSize := d.bufferSize + bytes.length

/-- The loop over recv: the buffer, what stays on the socket, and the last result. A recv with no
room for a byte gives zero, as a closed socket does; one that fills an empty buffer ends the loop. -/
def recvAll (d : ConnectionEventData) (ending : Ending) :
    List Bytes → ConnectionEventData × List Bytes × Ending
  | [] => (d,[],ending)
  | bytes::chunks =>
    if bytes = [] then recvAll d ending chunks
    else if d.freeSpace = 0 then (d,bytes::chunks,.closed)
    else if maxPacketSize ≤ (bytes.take d.freeSpace).length then
      (d.append (bytes.take d.freeSpace),bytes.drop d.freeSpace::chunks,.again)
    else if d.freeSpace < bytes.length then
      -- the buffer is full, and there is more to read
      (d.append (bytes.take d.freeSpace),bytes.drop d.freeSpace::chunks,.closed)
    else recvAll (d.append bytes) ending chunks

end ConnectionEventData

namespace NodeSocket

def connect (fd : Int) (buffer : Memory) : NodeSocket where
  fd
  node := some { fd, buffer, bufferSize := 0 }

def disconnectPacket (fd : Int) : Packet := .conn { type := .named .disconnect, fd }

def disconnect (s : NodeSocket) : NodeSocket :=
  { s with node := none, inputPacketQueue := s.inputPacketQueue ++ [disconnectPacket s.fd] }

/-- One event of the receive task, on the side of the server. -/
def receiveTask (fuel : ℕ) (s : NodeSocket) (event : EpollEvent) : Option NodeSocket :=
  match s.node with
  | none => some s
  | some d =>
    if event.epollin then
      match d.clearHeader.recvAll event.ending (s.socket ++ event.chunks) with
      | (d,socket,.failed) => some { s with node := some d, socket }
      | (_,_,.closed) => some s.disconnect
      | (d,socket,.again) => (drain fuel d).map fun (packets,left) =>
        { s with
          node := some left, socket, inputPacketQueue := s.inputPacketQueue ++ packets }
    else if event.hangup then some s.disconnect
    else some { s with socket := s.socket ++ event.chunks }

end NodeSocket

namespace EpollEvent

def received (event : EpollEvent) : Bytes := event.chunks.flatten

/-- The peer has closed or failed. -/
def Ends (event : EpollEvent) : Prop :=
  if event.epollin then event.ending ≠ .again else event.hangup ∨ event.error

instance (event : EpollEvent) : Decidable event.Ends :=
  inferInstanceAs (Decidable (if event.epollin = true then event.ending ≠ .again
    else event.hangup = true ∨ event.error = true))

/-- What a wake-up may do with these packets in the buffer and on the socket: leave room for
each of them, or close when there are none. -/
def Good (event : EpollEvent) (frames : List (Bytes × Packet)) (pre : Bytes) : Prop :=
  if event.epollin then
    ((frames.map Prod.fst).flatten ++ pre).length < maxPacketSize ∧
      match event.ending with
      | .again => Roomy (frames.map Prod.fst) pre
      | .closed => frames = []
      | .failed => False
  else event.chunks = [] ∧ (event.hangup ∨ ¬event.error)

end EpollEvent

/-- Every wake-up of a run is good, from the bytes that the buffer holds before it. -/
inductive GoodRun : Bytes → List EpollEvent → Prop
  | nil {left} : GoodRun left []
  | cons {left event events frames pre} (cut : Cut (left ++ event.received) frames pre)
      (good : event.Good frames pre) (tail : GoodRun pre events) : GoodRun left (event::events)

namespace ConnectionEventData

@[simp] theorem clearHeader_fd (d : ConnectionEventData) : d.clearHeader.fd = d.fd := by
  unfold clearHeader
  split <;> rfl

@[simp] theorem clearHeader_bufferSize (d : ConnectionEventData) :
    d.clearHeader.bufferSize = d.bufferSize := by
  unfold clearHeader
  split <;> rfl

theorem buffer_clearHeader (d : ConnectionEventData) {i : ℕ} (hi : i < d.bufferSize) :
    d.clearHeader.buffer i = d.buffer i := by
  unfold clearHeader
  split
  · exact if_neg fun hin => absurd hi (Nat.not_lt.mpr hin.1)
  · rfl

@[simp] theorem contents_clearHeader (d : ConnectionEventData) :
    d.clearHeader.contents = d.contents := by
  unfold contents
  rw [clearHeader_bufferSize]
  exact List.map_congr_left fun i hi => buffer_clearHeader d (List.mem_range.mp hi)

@[simp] theorem contents_append (d : ConnectionEventData) (bytes : Bytes) :
    (d.append bytes).contents = d.contents ++ bytes := by
  apply List.ext_getElem
  · simp [append]
  · intro i hi _
    have hlt : i < (d.contents ++ bytes).length := by simpa [append] using hi
    have hmem := Reader.memory_lt hlt d.buffer
    simpa [contents, append] using hmem

/-- While there is room for more, recv takes every byte, and its last result is what follows them. -/
theorem recvAll_eq {d : ConnectionEventData} {ending : Ending} {chunks : List Bytes}
    (hsize : d.bufferSize + chunks.flatten.length < maxPacketSize) :
    ∃ d', d.recvAll ending chunks = (d',[],ending) ∧
      d'.contents = d.contents ++ chunks.flatten ∧ d'.fd = d.fd := by
  induction chunks generalizing d with
  | nil => exact ⟨d,rfl,by simp,rfl⟩
  | cons bytes chunks ih =>
    rw [List.flatten_cons, List.length_append] at hsize
    rw [recvAll]
    split
    · next hempty =>
      subst hempty
      obtain ⟨d',heq,hc,hfd⟩ := ih (d := d) (by omega)
      exact ⟨d',heq,by simpa using hc,hfd⟩
    · have hfree : d.freeSpace = maxPacketSize - d.bufferSize := freeSpace_eq (by omega)
      have hnext : (d.append bytes).bufferSize + chunks.flatten.length < maxPacketSize := by
        change d.bufferSize + bytes.length + _ < _
        omega
      obtain ⟨d',heq,hc,hfd⟩ := ih hnext
      rw [if_neg (by omega), if_neg (by rw [List.length_take]; omega), if_neg (by omega)]
      exact ⟨d',heq,by rw [hc, contents_append, List.flatten_cons, List.append_assoc],hfd⟩

end ConnectionEventData

theorem incomplete_nil : Incomplete [] :=
  ⟨_,_,wellFormed_request,List.nil_prefix,by decide⟩

theorem Cut.append {bytes bytes' left left' : Bytes} {frames frames' : List (Bytes × Packet)}
    (h : Cut bytes frames left) (h' : Cut (left ++ bytes') frames' left') :
    Cut (bytes ++ bytes') (frames ++ frames') left' where
  wellFormed frame hf := (List.mem_append.mp hf).elim (h.wellFormed _) (h'.wellFormed _)
  incomplete := h'.incomplete
  eq := by
    rw [h.eq, List.append_assoc, h'.eq, List.map_append, List.flatten_append, List.append_assoc]

/-- Only the beginning of a packet: there is no packet before it. -/
theorem Cut.eq_nil {contents pre : Bytes} {frames : List (Bytes × Packet)}
    (h : Cut contents frames pre) (hc : Incomplete contents) : frames = [] := by
  cases frames with
  | nil => rfl
  | cons frame frames =>
    have hsome := h.head fun _ _ => 0
    rw [hc.decoder] at hsome
    contradiction

theorem Cut.drains {contents pre : Bytes} {frames : List (Bytes × Packet)}
    (h : Cut contents frames pre) (junk : Bytes → Memory) :
    Framing.Drains (PktParser.decoder junk) contents (frames.map Prod.snd) pre := by
  induction frames generalizing contents with
  | nil =>
    have hpre : contents = pre := by simpa using h.eq
    subst hpre
    exact .stop (h.incomplete.decoder junk)
  | cons frame frames ih => exact .next (h.head junk) (ih h.tail)

theorem Cut.frames_le {contents pre : Bytes} {frames : List (Bytes × Packet)}
    (h : Cut contents frames pre) : frames.length ≤ contents.length := by
  induction frames generalizing contents with
  | nil => exact Nat.zero_le _
  | cons frame frames ih =>
    have htail := ih h.tail
    have hhead := h.head_le
    rw [List.length_drop] at htail
    rw [List.length_cons]
    omega

namespace NodeSocket

/-- The node is connected, with these bytes in its buffer and nothing unread on its socket. -/
structure Holds (s : NodeSocket) (left : Bytes) (queue : List Packet) : Prop where
  node : ∃ d, s.node = some d ∧ d.fd = s.fd ∧ d.contents = left
  socket : s.socket = []
  queue : s.inputPacketQueue = queue
  incomplete : Incomplete left

section
variable {s : NodeSocket} {left pre : Bytes} {queue : List Packet} {event : EpollEvent}
  {frames : List (Bytes × Packet)} {fuel : ℕ}

/-- What is read when all of it fits. -/
theorem Holds.recv (hs : s.Holds left queue) {d : ConnectionEventData} (hnode : s.node = some d)
    (hcut : Cut (left ++ event.received) frames pre)
    (hsize : ((frames.map Prod.fst).flatten ++ pre).length < maxPacketSize) :
    ∃ d', d.clearHeader.recvAll event.ending (s.socket ++ event.chunks) = (d',[],event.ending) ∧
      d'.contents = left ++ event.received ∧ d'.fd = s.fd := by
  obtain ⟨e,he,hfd,hleft⟩ := hs.node
  obtain rfl : e = d := Option.some.inj (he.symm.trans hnode)
  have hchunks : (s.socket ++ event.chunks).flatten = event.received := by
    rw [hs.socket]
    rfl
  have hlen : e.clearHeader.bufferSize + (s.socket ++ event.chunks).flatten.length <
      maxPacketSize := by
    rw [clearHeader_bufferSize, ← length_contents, hleft, hchunks, ← List.length_append]
    exact hcut.length_eq ▸ hsize
  obtain ⟨d',hrecv,hc,hfd'⟩ := recvAll_eq hlen
  refine ⟨d',hrecv,?_,?_⟩
  · rw [hc, contents_clearHeader, hleft, hchunks]
  · rw [hfd', clearHeader_fd, hfd]

/-- A good wake-up before the end enqueues what is complete, and keeps what is not. -/
theorem Holds.step (hs : s.Holds left queue) (hcut : Cut (left ++ event.received) frames pre)
    (hgood : event.Good frames pre) (hopen : ¬event.Ends) (hfuel : maxPacketSize ≤ fuel) :
    ∃ s', receiveTask fuel s event = some s' ∧ s'.fd = s.fd ∧
      s'.Holds pre (queue ++ frames.map fun frame => frame.2.withFd s.fd) := by
  obtain ⟨d,hnode,hfd,hleft⟩ := hs.node
  unfold EpollEvent.Good at hgood
  unfold EpollEvent.Ends at hopen
  rw [receiveTask, hnode]
  dsimp only
  by_cases hin : event.epollin = true
  · rw [if_pos hin] at hgood hopen ⊢
    have hagain : event.ending = .again := not_not.mp hopen
    rw [hagain] at hgood
    obtain ⟨hsize,hroom⟩ := hgood
    obtain ⟨d',hrecv,hc,hfd'⟩ := hs.recv hnode hcut hsize
    have hframes : frames.length < fuel := by
      have := hcut.frames_le
      rw [hcut.length_eq] at this
      omega
    obtain ⟨rest,hdrain,hrest,hfd''⟩ := drain_of_roomy (hc ▸ hcut) hroom hframes
    rw [hrecv, hagain]
    dsimp only
    rw [hdrain, hfd']
    exact ⟨_,rfl,rfl,⟨rest,rfl,hfd''.trans hfd',hrest⟩,rfl,by rw [hs.queue],hcut.incomplete⟩
  · rw [if_neg hin] at hgood hopen ⊢
    obtain ⟨hchunks,-⟩ := hgood
    have hreceived : left ++ event.received = left := by simp [EpollEvent.received, hchunks]
    rw [hreceived] at hcut
    obtain rfl := hcut.eq_nil hs.incomplete
    have hpre : left = pre := by simpa using hcut.eq
    subst hpre
    rw [if_neg fun h => hopen (.inl h)]
    exact ⟨_,rfl,rfl,⟨d,rfl,hfd,hleft⟩,by simp [hs.socket, hchunks],by simp [hs.queue],hs.incomplete⟩

/-- A good end of the stream finds no whole packet, and is reported once. -/
theorem Holds.ends (hs : s.Holds left queue) (hcut : Cut (left ++ event.received) frames pre)
    (hgood : event.Good frames pre) (hends : event.Ends) (fuel : ℕ) :
    frames = [] ∧ receiveTask fuel s event = some s.disconnect := by
  obtain ⟨d,hnode,hfd,hleft⟩ := hs.node
  unfold EpollEvent.Good at hgood
  unfold EpollEvent.Ends at hends
  rw [receiveTask, hnode]
  dsimp only
  by_cases hin : event.epollin = true
  · rw [if_pos hin] at hgood hends ⊢
    obtain ⟨hsize,hnone⟩ := hgood
    obtain ⟨d',hrecv,-,-⟩ := hs.recv hnode hcut hsize
    rw [hrecv]
    cases hend : event.ending with
    | again => exact absurd hend hends
    | closed =>
      rw [hend] at hnone
      exact ⟨hnone,rfl⟩
    | failed =>
      rw [hend] at hnone
      exact hnone.elim
  · rw [if_neg hin] at hgood hends ⊢
    obtain ⟨hchunks,hhangup⟩ := hgood
    have hreceived : left ++ event.received = left := by simp [EpollEvent.received, hchunks]
    rw [hreceived] at hcut
    have hup : event.hangup = true := by
      rcases hends with h | h
      · exact h
      · exact hhangup.resolve_right (not_not.mpr h)
    rw [if_pos hup]
    exact ⟨hcut.eq_nil hs.incomplete,rfl⟩

end

/-- Before its last wake-up nothing has ended. -/
def OneEnd (events : List EpollEvent) : Prop := ∀ event ∈ events.dropLast, ¬event.Ends

instance (events : List EpollEvent) : Decidable (OneEnd events) :=
  inferInstanceAs (Decidable (∀ event ∈ events.dropLast, ¬event.Ends))

/-- A good run, from any state in which the node is connected. -/
theorem Holds.run {s : NodeSocket} {left : Bytes} {queue : List Packet} {events : List EpollEvent}
    (hs : s.Holds left queue) (hgood : GoodRun left events) (hend : OneEnd events) {fuel : ℕ}
    (hfuel : maxPacketSize ≤ fuel) :
    ∃ s' frames pre, Runs.run (receiveTask fuel) s events = some s' ∧
      Cut (left ++ events.flatMap EpollEvent.received) frames pre ∧
      s'.inputPacketQueue = queue ++ (frames.map fun frame => frame.2.withFd s.fd) ++
        (if ∃ event ∈ events, event.Ends then [disconnectPacket s.fd] else []) ∧
      (s'.node = none ↔ ∃ event ∈ events, event.Ends) := by
  induction hgood generalizing s queue with
  | @nil left =>
    obtain ⟨d,hnode,-⟩ := hs.node
    refine ⟨s,[],left,rfl,⟨by simp,hs.incomplete,by simp⟩,by simp [hs.queue],by simp [hnode]⟩
  | @cons left event events frames pre cut good tail ih =>
    by_cases hends : event.Ends
    · obtain ⟨rfl,hstep⟩ := hs.ends cut good hends fuel
      obtain rfl : events = [] := by
        cases events with
        | nil => rfl
        | cons next events => exact absurd hends (hend event (by simp))
      refine ⟨s.disconnect,[],pre,?_,by simpa using cut,?_,?_⟩
      · simp [Runs.run, hstep]
      · simp [hends, disconnect, hs.queue]
      · simp [hends, disconnect]
    · obtain ⟨s₁,hstep,hfd,hs₁⟩ := hs.step cut good hends hfuel
      have hend₁ : OneEnd events := by
        intro e he
        refine hend e ?_
        cases events with
        | nil => simp at he
        | cons next events => exact List.mem_cons_of_mem _ he
      obtain ⟨s',frames',pre',hrun,hcut',hqueue,hnode⟩ := ih hs₁ hend₁
      have hany : (∃ e ∈ event::events, e.Ends) ↔ ∃ e ∈ events, e.Ends := by simp [hends]
      refine ⟨s',frames ++ frames',pre',?_,?_,?_,?_⟩
      · simp [Runs.run, hstep, hrun]
      · have happ := cut.append hcut'
        rwa [List.append_assoc] at happ
      · simp only [hany]
        rw [hqueue, hfd, List.map_append, List.append_assoc queue]
      · rw [hany, hnode]

/-- A run of good wake-ups from a new connection: each packet whose last byte is in is in the
queue, once and in order; and the marker behind them, with the node gone, once the peer has closed
and not before. -/
theorem end_of_stream {events : List EpollEvent} (hgood : GoodRun [] events)
    (hend : OneEnd events) {frames : List (Bytes × Packet)} {pre : Bytes}
    (hcut : Cut (events.flatMap EpollEvent.received) frames pre) (fd : Int) (buffer : Memory)
    {fuel : ℕ} (hfuel : maxPacketSize ≤ fuel) :
    ∃ s, Runs.run (receiveTask fuel) (connect fd buffer) events = some s ∧
      s.inputPacketQueue = (frames.map fun frame => frame.2.withFd fd) ++
        (if ∃ event ∈ events, event.Ends then [disconnectPacket fd] else []) ∧
      (s.node = none ↔ ∃ event ∈ events, event.Ends) := by
  have hs : (connect fd buffer).Holds [] [] := ⟨⟨_,rfl,rfl,rfl⟩,rfl,rfl,incomplete_nil⟩
  obtain ⟨s,frames',pre',hrun,hcut',hqueue,hnode⟩ := hs.run hgood hend hfuel
  have hsame := ((hcut'.drains fun _ _ => 0).unique (hcut.drains fun _ _ => 0)).1
  refine ⟨s,hrun,?_,hnode⟩
  have hmap := congrArg (List.map (Packet.withFd fd)) hsame
  rw [List.map_map, List.map_map] at hmap
  rw [hqueue, List.nil_append]
  exact congrArg (· ++ _) hmap

/-- A request comes, and the peer closes before or after it is read. -/
def requestThen (ending : Ending) : EpollEvent where
  epollin := true
  chunks := [PktParser.sentBytes request]
  ending

theorem cut_request : Cut (PktParser.sentBytes request)
    [(PktParser.sentBytes request,PktParser.received request)] [] where
  wellFormed frame hf := by
    obtain rfl := List.mem_singleton.mp hf
    exact wellFormed_request
  incomplete := incomplete_nil
  eq := by simp

theorem length_request_lt : ([PktParser.sentBytes request].flatten ++ []).length < maxPacketSize := by
  change 5 < 65555 * 100
  omega

/-- A request in one wake-up, and the close in the next. -/
theorem request_then_close :
    ∃ s, Runs.run (receiveTask maxPacketSize) (connect 7 fun _ => 0)
        [requestThen .again,{ epollin := true, ending := .closed }] = some s ∧
      s.inputPacketQueue = [(PktParser.received request).withFd 7,disconnectPacket 7] ∧
      s.node = none := by
  have hnothing : Cut ([] ++ EpollEvent.received { epollin := true, ending := .closed }) [] [] :=
    ⟨by simp,incomplete_nil,rfl⟩
  have hroom : Roomy [PktParser.sentBytes request] [] := by
    refine ⟨?_,trivial⟩
    change 5 + 5 ≤ 65555 * 100
    omega
  have hgood : GoodRun [] [requestThen .again,{ epollin := true, ending := .closed }] :=
    .cons cut_request ⟨length_request_lt,hroom⟩
      (.cons hnothing ⟨Nat.lt_of_le_of_lt (Nat.zero_le 5) length_request_lt,rfl⟩ .nil)
  have hends : ∃ event ∈ [requestThen .again,{ epollin := true, ending := .closed }],
      event.Ends := ⟨_,List.mem_cons_of_mem _ (List.mem_singleton_self _),by decide⟩
  obtain ⟨s,hrun,hqueue,hnode⟩ := end_of_stream hgood (by decide) cut_request 7 (fun _ => 0) le_rfl
  rw [if_pos hends] at hqueue
  exact ⟨s,hrun,hqueue,hnode.mpr hends⟩

/-- The request and the close in one wake-up: the request is lost. -/
theorem close_behind_request : ∃ (events : List EpollEvent) (frames : List (Bytes × Packet))
    (pre : Bytes), OneEnd events ∧ Cut (events.flatMap EpollEvent.received) frames pre ∧
      ∀ fd buffer fuel s, Runs.run (receiveTask fuel) (connect fd buffer) events = some s →
        s.inputPacketQueue ≠ (frames.map fun frame => frame.2.withFd fd) ++
          (if ∃ event ∈ events, event.Ends then [disconnectPacket fd] else []) := by
  refine ⟨[requestThen .closed],_,[],by decide,cut_request,?_⟩
  intro fd buffer fuel s hrun hqueue
  have hs : (connect fd buffer).Holds [] [] := ⟨⟨_,rfl,rfl,rfl⟩,rfl,rfl,incomplete_nil⟩
  have hcut : Cut ([] ++ (requestThen .closed).received) _ [] := cut_request
  obtain ⟨d',hrecv,-,-⟩ := hs.recv rfl hcut length_request_lt
  have hstep : receiveTask fuel (connect fd buffer) (requestThen .closed) =
      some (connect fd buffer).disconnect := by
    rw [receiveTask]
    dsimp only [connect] at hrecv ⊢
    rw [hrecv]
    rfl
  rw [Runs.run, hstep, Option.bind_some, Runs.run, Option.some.injEq] at hrun
  have hlen := congrArg List.length hqueue
  rw [← hrun] at hlen
  have hends : ∃ event ∈ [requestThen .closed], event.Ends :=
    ⟨_,List.mem_singleton_self _,by decide⟩
  rw [if_pos hends] at hlen
  have htwo : (1 : ℕ) = 2 := hlen
  omega

end NodeSocket
end Ssyncd
