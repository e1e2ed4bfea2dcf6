import Ssyncd.Listener.ListenTask

/-! The actions that a balancer sends, over any pieces of their stream; and the listen task as a
part of the listener with all its descriptors. -/
namespace Ssyncd
open Reader Http

namespace HttpParser

/-- The bytes of a sent action. -/
def sentBytes (a : HttpAction) : Bytes := ((serialize a).map Prod.fst).getD []

/-- What the other side makes of it. -/
def arrived (a : HttpAction) : HttpAction := withLength a (sentBytes a).length

theorem sentBytes_eq {a : HttpAction} (htype : a.type = .named .httpSync) :
    sentBytes a = wire a.toConnPacket (writeBody a) := by
  rw [sentBytes, serialize_eq htype]
  rfl

end HttpParser

namespace HttpSync
open FarmSocket

section Frames
variable {a : HttpAction}

theorem deserialize_incomplete (htype : a.type = .named .httpSync) (h : HttpParser.Fits a)
    {pre : Bytes} (hpre : pre <+: HttpParser.sentBytes a) (hne : pre ≠ HttpParser.sentBytes a)
    (junk : Memory) : HttpParser.deserialize (memory pre junk) pre.length = none := by
  have hlen := HttpParser.writeBody_length_le h
  rw [HttpParser.sentBytes_eq htype] at hpre hne
  rw [HttpParser.deserialize, BasePktParser.deserialize_prefix_wire _ (by omega) hpre hne]

/-- Each sent action is a frame: it is read whole, alone, and only once it is complete. -/
theorem frame_sentBytes (htype : a.type = .named .httpSync) (h : HttpParser.Fits a) :
    Framing.Frame wholeAction (HttpParser.sentBytes a) (HttpParser.arrived a) where
  complete rest := by
    have hlen : (wire a.toConnPacket (HttpParser.writeBody a)).length =
        5 + (HttpParser.writeBody a).length := wire_length _ _
    rw [wholeAction_eq_some_iff, HttpParser.arrived, HttpParser.sentBytes_eq htype,
      HttpParser.deserialize_wire htype h, hlen]
    refine ⟨rfl,?_⟩
    rw [List.length_append, hlen]
    omega
  incomplete pre hpre hne := by
    rw [wholeAction, deserialize_incomplete htype h hpre hne]
    rfl

theorem not_overlong_incomplete (htype : a.type = .named .httpSync) (h : HttpParser.Fits a)
    {pre : Bytes} (hpre : pre <+: HttpParser.sentBytes a) (hne : pre ≠ HttpParser.sentBytes a) :
    ¬Overlong pre := by
  rintro ⟨action,used,hread,-⟩
  rw [deserialize_incomplete htype h hpre hne] at hread
  contradiction

end Frames

/-- The beginning of a stream of sent actions never comes to an overlong one. -/
theorem drains_sent {actions : List HttpAction}
    (hsent : ∀ a ∈ actions, a.type = .named .httpSync ∧ HttpParser.Fits a) {bytes : Bytes}
    (hpart : bytes <+: actions.flatMap HttpParser.sentBytes) :
    ∃ sent pending rest, actions = sent ++ pending ∧
      bytes = sent.flatMap HttpParser.sentBytes ++ rest ∧
      Framing.Drains wholeAction bytes (sent.map HttpParser.arrived) rest ∧ ¬Overlong rest ∧
      (rest = [] ∨ ∃ a ∈ pending.head?, rest <+: HttpParser.sentBytes a ∧
        rest ≠ HttpParser.sentBytes a) := by
  obtain ⟨sent,pending,rest,rfl,hbytes,hdrains,hrest⟩ := Framing.drains_of_part wholeAction_nil
    (fun a ha => frame_sentBytes (hsent a ha).1 (hsent a ha).2) hpart
  refine ⟨sent,pending,rest,rfl,hbytes,hdrains,?_,hrest⟩
  rcases hrest with rfl | ⟨a,ha,hpre,hne⟩
  · exact not_overlong_nil
  · have hmem : a ∈ sent ++ pending := List.mem_append_right _ (List.mem_of_mem_head? ha)
    exact not_overlong_incomplete (hsent a hmem).1 (hsent a hmem).2 hpre hne

namespace Reading

/-- While a connection is open, nothing that comes over it is left out. -/
theorem wake_received {r : Reading} {w : Wake} (h : (r.wake w).isOpen = true) :
    r.isOpen = true ∧
      (r.wake w).read ++ (r.wake w).waiting = r.read ++ (r.waiting ++ w.received) := by
  cases w with
  | other => exact ⟨h,by simp [wake, Wake.received]⟩
  | epollin chunks ending =>
    by_cases hopen : r.isOpen = true
    · refine ⟨hopen,?_⟩
      cases ending <;> simp [wake, hopen, Wake.received] at h ⊢
    · simp [wake, hopen] at h

/-- It reads what it has received, and once it is closed no more. -/
theorem wake_read (r : Reading) (w : Wake) :
    r.read <+: (r.wake w).read ∧ ((r.wake w).read = r.read ∨
      r.isOpen = true ∧ (r.wake w).read = r.read ++ (r.waiting ++ w.received)) := by
  cases w with
  | other => exact ⟨List.prefix_rfl,.inl rfl⟩
  | epollin chunks ending =>
    by_cases hopen : r.isOpen = true
    · cases ending <;> simp [wake, hopen, Wake.received]
    · simp [wake, hopen]

/-- What is true of every beginning of a stream is true of what is read of it at each wake-up. -/
theorem read_part {r : Reading} {wakes : List Wake} {stream : Bytes} (hread : r.read <+: stream)
    (h : r.isOpen = true → r.read ++ (r.waiting ++ wakes.flatMap Wake.received) <+: stream) :
    Runs.Meets (fun r w => some (Reading.wake r w)) (fun r w => (r.wake w).read <+: stream) r wakes ∧
      (wakes.foldl Reading.wake r).read <+: stream := by
  induction wakes generalizing r with
  | nil => exact ⟨trivial,hread⟩
  | cons w wakes ih =>
    have hnext : (r.wake w).read <+: stream := by
      rcases (wake_read r w).2 with heq | ⟨hopen,heq⟩
      · exact heq ▸ hread
      · have hpart := (List.prefix_append (r.read ++ (r.waiting ++ w.received))
          (wakes.flatMap Wake.received)).trans (by simpa using h hopen)
        exact heq ▸ hpart
    have hrest := ih (r := r.wake w) hnext fun hopen' => by
      obtain ⟨hopen,heq⟩ := wake_received hopen'
      rw [← List.append_assoc, heq]
      simpa using h hopen
    refine ⟨⟨hnext,fun r' hr' => ?_⟩,hrest.2⟩
    obtain rfl := Option.some.inj hr'
    exact hrest.1

end Reading

namespace FarmSocket

section Sent
variable {actions : List HttpAction} {wakes : List Wake}

/-- The bytes of sent actions never make the listener overrun its buffer. -/
theorem exists_run_of_sent (hsent : ∀ a ∈ actions, a.type = .named .httpSync ∧ HttpParser.Fits a)
    (hfits : Runs.Meets (fun r w => some (Reading.wake r w)) Reading.Fits {} wakes)
    (hpart : wakes.flatMap Wake.received <+: actions.flatMap HttpParser.sentBytes)
    (farmName : Bytes) (fd : ℕ) (buffer : Memory) :
    ∃ s, Runs.run listenTask (added farmName fd buffer) wakes = some s ∧
      Follows farmName fd s (wakes.foldl Reading.wake {}) := by
  obtain ⟨hmeets,-⟩ := @Reading.read_part {} wakes _ List.nil_prefix fun _ => hpart
  have hsafe : Runs.Meets (fun r w => some (Reading.wake r w)) (fun r w => ¬r.Overruns w) {} wakes := by
    refine hmeets.mono ?_
    intro r w hr hover
    cases w with
    | other => exact hover
    | epollin chunks ending =>
      obtain ⟨hopen,rfl,values,rest,hdrains,hlong⟩ := hover
      have hr : r.read ++ (r.waiting ++ chunks.flatten) <+: actions.flatMap HttpParser.sentBytes := by
        simpa [Reading.wake, hopen] using hr
      obtain ⟨_,_,rest',-,-,hdrains',hnot,-⟩ := drains_sent hsent hr
      obtain ⟨-,rfl⟩ := hdrains.unique hdrains'
      exact hnot hlong
  have hstart : Follows farmName fd (added farmName fd buffer) {} :=
    ⟨holds_added farmName fd buffer,rfl,rfl⟩
  obtain ⟨s,hrun⟩ := (Runs.exists_run_iff_meets Follows.step Follows.fault hstart hfits).mpr hsafe
  exact ⟨s,hrun,Runs.run_follows Follows.step Follows.fault hstart hfits hrun⟩

/-- The beginning of what a balancer sends, in any pieces, with errors and a close between them:
the listener never overruns its buffer, and queues just the actions whose bytes it has read, once
and in their order. -/
theorem sent_actions_arrive (hsent : ∀ a ∈ actions, a.type = .named .httpSync ∧ HttpParser.Fits a)
    (hfits : Runs.Meets (fun r w => some (Reading.wake r w)) Reading.Fits {} wakes)
    (hpart : wakes.flatMap Wake.received <+: actions.flatMap HttpParser.sentBytes)
    (farmName : Bytes) (fd : ℕ) (buffer : Memory) :
    ∃ s sent pending rest, Runs.run listenTask (added farmName fd buffer) wakes = some s ∧
      actions = sent ++ pending ∧
      (wakes.foldl Reading.wake {}).read = sent.flatMap HttpParser.sentBytes ++ rest ∧
      (rest = [] ∨ ∃ a ∈ pending.head?, rest <+: HttpParser.sentBytes a ∧
        rest ≠ HttpParser.sentBytes a) ∧
      s.inputData = sent.map (fun a => queuedAs farmName fd (HttpParser.arrived a)) ++
        (if (wakes.foldl Reading.wake {}).isOpen then []
          else [farmMarker .disconnect farmName fd]) := by
  obtain ⟨-,hread⟩ := @Reading.read_part {} wakes _ List.nil_prefix fun _ => hpart
  obtain ⟨s,hrun,hs,rfl,rfl⟩ := exists_run_of_sent hsent hfits hpart farmName fd buffer
  obtain ⟨sent,pending,rest,hactions,hbytes,hdrains,-,hrest⟩ := drains_sent hsent hread
  obtain ⟨values,rest',hdrains',hqueue,-⟩ := hs.queued
  obtain ⟨rfl,rfl⟩ := hdrains.unique hdrains'
  refine ⟨s,sent,pending,_,hrun,hactions,hbytes,hrest,?_⟩
  rw [hqueue, List.map_map]
  rfl

end Sent

/-- A farm asks for its sessions. -/
def sessionRequest : HttpAction := HttpParser.blank (.named .syncRequest) [102]

theorem sessionRequest_arrives :
    ∃ s sent pending rest, Runs.run listenTask (added [102] 7 fun _ => 0) requestWakes = some s ∧
      [sessionRequest] = sent ++ pending ∧
      (requestWakes.foldl Reading.wake {}).read = sent.flatMap HttpParser.sentBytes ++ rest ∧
      (rest = [] ∨ ∃ a ∈ pending.head?, rest <+: HttpParser.sentBytes a ∧
        rest ≠ HttpParser.sentBytes a) ∧
      s.inputData = sent.map (fun a => queuedAs [102] 7 (HttpParser.arrived a)) ++
        (if (requestWakes.foldl Reading.wake {}).isOpen then []
          else [farmMarker .disconnect [102] 7]) := by
  refine sent_actions_arrive ?_ requestWakes_fits ?_ [102] 7 fun _ => 0
  · intro a ha
    obtain rfl := List.mem_singleton.mp ha
    exact ⟨rfl,⟨by decide,by decide,by decide⟩⟩
  · exact ⟨[],by decide⟩

end FarmSocket

/-- The header of a packet of another type. -/
def Foreign (bytes : Bytes) : Prop :=
  ∃ type ∈ bytes[2]?, (.ofByte type : ByteEnum.Value PacketType) ≠ .named .httpSync

instance (bytes : Bytes) : Decidable (Foreign bytes) :=
  inferInstanceAs (Decidable (∃ type ∈ bytes[2]?, _ ≠ _))

section Foreign
variable {bytes : Bytes}

theorem Foreign.append (h : Foreign bytes) (more : Bytes) : Foreign (bytes ++ more) := by
  obtain ⟨type,htype,hne⟩ := h
  have htype : bytes[2]? = some type := htype
  obtain ⟨hlt,-⟩ := List.getElem?_eq_some_iff.mp htype
  exact ⟨type,(List.getElem?_append_left hlt).trans htype,hne⟩

theorem Foreign.deserialize (h : Foreign bytes) (junk : Memory) (n : ℕ) :
    HttpParser.deserialize (memory bytes junk) n = none := by
  obtain ⟨type,htype,hne⟩ := h
  have htype : bytes[2]? = some type := htype
  have hread : memory bytes junk 2 = type := by
    simp [memory, htype]
  rw [HttpParser.deserialize_eq_ite, BasePktParser.header, hread]
  exact if_neg fun hok => hne hok.2

theorem Foreign.wholeAction (h : Foreign bytes) : wholeAction bytes = none := by
  rw [HttpSync.wholeAction, h.deserialize]
  rfl

theorem Foreign.not_overlong (h : Foreign bytes) : ¬Overlong bytes := by
  rintro ⟨action,used,hread,-⟩
  rw [h.deserialize] at hread
  contradiction

end Foreign

/-- The loop stands before a packet of another type, behind these actions. -/
def Reading.Blocked (r : Reading) (values : List HttpAction) : Prop :=
  ∃ rest, Framing.Drains wholeAction r.read values rest ∧ Foreign rest

theorem Reading.Blocked.more {r : Reading} {values : List HttpAction} (h : r.Blocked values)
    (more : Bytes) : ∃ rest, Framing.Drains wholeAction (r.read ++ more) values rest ∧ Foreign rest := by
  obtain ⟨rest,hdrains,hforeign⟩ := h
  have hmore := hforeign.append more
  have hall := stable_wholeAction.drains_append hdrains (.stop hmore.wholeAction)
  rw [List.append_nil] at hall
  exact ⟨_,hall,hmore⟩

theorem Reading.Blocked.wake {r : Reading} {values : List HttpAction} (h : r.Blocked values)
    (w : Wake) : (r.wake w).Blocked values ∧ ¬r.Overruns w := by
  constructor
  · rcases (wake_read r w).2 with heq | ⟨-,heq⟩
    · rw [Blocked, heq]
      exact h
    · rw [Blocked, heq]
      exact h.more _
  · cases w with
    | other => exact id
    | epollin chunks ending =>
      rintro ⟨-,-,values',rest',hdrains,hlong⟩
      obtain ⟨rest,hdrains',hforeign⟩ := h.more (r.waiting ++ chunks.flatten)
      obtain ⟨-,rfl⟩ := hdrains.unique hdrains'
      exact hforeign.not_overlong hlong

theorem Reading.Blocked.run {r : Reading} {values : List HttpAction} (h : r.Blocked values)
    (wakes : List Wake) : (wakes.foldl Reading.wake r).Blocked values ∧
      Runs.Meets (fun r w => some (Reading.wake r w)) (fun r w => ¬r.Overruns w) r wakes := by
  induction wakes generalizing r with
  | nil => exact ⟨h,trivial⟩
  | cons w wakes ih =>
    obtain ⟨hnext,hsafe⟩ := h.wake w
    obtain ⟨hlast,hmeets⟩ := ih hnext
    refine ⟨hlast,hsafe,fun r' hr' => ?_⟩
    obtain rfl := Option.some.inj hr'
    exact hmeets

namespace FarmSocket

/-- Once a packet of another type stands at the front, the connection is blocked for good: whatever
comes over it later, nothing more is queued, until it is closed. -/
theorem foreign_packet_blocks {wakes later : List Wake}
    (hfits : Runs.Meets (fun r w => some (Reading.wake r w)) Reading.Fits {} (wakes ++ later))
    {farmName : Bytes} {fd : ℕ} {buffer : Memory} {s : FarmSocket}
    (hrun : Runs.run listenTask (added farmName fd buffer) wakes = some s)
    {values : List HttpAction} (hblocked : (wakes.foldl Reading.wake {}).Blocked values) :
    ∃ s', Runs.run listenTask s later = some s' ∧
      s'.inputData = values.map (queuedAs farmName fd) ++
        (if ((wakes ++ later).foldl Reading.wake {}).isOpen then []
          else [farmMarker .disconnect farmName fd]) := by
  have hs := Runs.run_follows Follows.step Follows.fault
    ⟨holds_added farmName fd buffer,rfl,rfl⟩ hfits.first hrun
  have hlater := hfits.rest (Runs.run_total Reading.wake wakes)
  obtain ⟨hlast,hsafe⟩ := hblocked.run later
  obtain ⟨s',hrun'⟩ := (Runs.exists_run_iff_meets Follows.step Follows.fault hs hlater).mpr hsafe
  obtain ⟨hs',rfl,rfl⟩ := Runs.run_follows Follows.step Follows.fault hs hlater hrun'
  obtain ⟨values',rest',hdrains',hqueue,-⟩ := hs'.queued
  obtain ⟨rest,hdrains,-⟩ := hlast
  obtain ⟨rfl,-⟩ := hdrains'.unique hdrains
  refine ⟨s',hrun',?_⟩
  rw [List.foldl_append]
  exact hqueue

/-- A table packet, and behind it a request that is never read. -/
theorem table_blocks_request :
    ∃ s', Runs.run listenTask (added [102] 7 fun _ => 0)
        [.epollin [[239,171,5,5,0]] .again,.epollin [requestBytes] .again] = some s' ∧
      s'.inputData = [] := by
  have hblocked : (({} : Reading).wake (.epollin [[239,171,5,5,0]] .again)).Blocked [] :=
    ⟨[239,171,5,5,0],.stop rfl,by decide⟩
  have hfits : Runs.Meets (fun r w => some (Reading.wake r w)) Reading.Fits {}
      ([.epollin [[239,171,5,5,0]] .again] ++ [.epollin [requestBytes] .again]) := by
    refine Reading.fits_of_length ?_
    simp [Wake.received, requestBytes, httpMaxPacketSize]
  have hstart : Follows [102] 7 (added [102] 7 fun _ => 0) {} := ⟨holds_added _ _ _,rfl,rfl⟩
  have hsafe : ¬({} : Reading).Overruns (.epollin [[239,171,5,5,0]] .again) := by
    rintro ⟨-,-,values,rest,hdrains,hlong⟩
    obtain ⟨-,rfl⟩ := hdrains.unique (.stop rfl : Framing.Drains wholeAction [239,171,5,5,0] [] _)
    exact Foreign.not_overlong (by decide) hlong
  obtain ⟨s,hfirst,-⟩ := Follows.step _ _ _ hstart hfits.1 hsafe
  have hrun : Runs.run listenTask (added [102] 7 fun _ => 0) [.epollin [[239,171,5,5,0]] .again] =
      some s := by
    rw [Runs.run, hfirst]
    rfl
  obtain ⟨s',hrun',hqueue⟩ := foreign_packet_blocks hfits hrun hblocked
  refine ⟨s',?_,hqueue⟩
  rw [Runs.run, hfirst]
  exact hrun'

end FarmSocket

/-- What the listen task does, and nothing of the other tasks. -/
def Event.OfListenTask : Event → Prop
  | .epollWait _ | .receive _ | .enqueue | .peerDisconnect => True
  | _ => False

/-- Between two wake-ups the listen task holds nothing. -/
def Idle (h : HttpSync) : Prop := h.ready = [] ∧ h.chunk.actions = []

/-- The descriptor is the farm's, and it is listed under it. -/
def Serves (h : HttpSync) (farmName : Bytes) (fd : ℕ) : Prop :=
  h.sockets fd = some (.farm farmName) ∧ h.farmOf fd = farmName

/-- The decoded actions of one connection go into the queue one after another. -/
theorem enqueue_all {h : HttpSync} {farmName : Bytes} {fd : ℕ} {actions : List HttpAction}
    (hchunk : h.chunk.actions = actions) (hfd : h.chunk.fd = fd) (hready : h.ready = [])
    (hserves : Serves h farmName fd) :
    ∃ h', Runs.run step h (List.replicate actions.length .enqueue) = some h' ∧ Idle h' ∧
      Serves h' farmName fd ∧ h'.inputData = h.inputData ++ actions.map (queuedAs farmName fd) := by
  induction actions generalizing h with
  | nil => exact ⟨h,rfl,⟨hready,hchunk⟩,hserves,by simp⟩
  | cons action actions ih =>
    obtain ⟨hsocket,hlisted⟩ := hserves
    subst hfd
    let next : HttpSync := { h with
      farmsFd := h.farmsFd.insertIfNew h.chunk.fd []
      inputData := h.inputData ++ [queuedAs farmName h.chunk.fd action]
      chunk := { h.chunk with actions }
      queued := h.queued ++ [(h.chunk.origin,farmName)] }
    have hstep : step h .enqueue = some next := by
      simp only [step, hchunk, hlisted]
      rfl
    have hfarm : next.farmOf h.chunk.fd = farmName := by
      rw [← hlisted]
      simp only [next, farmOf, Std.ExtTreeMap.getD_insertIfNew]
      split
      · next hnew => exact (Std.ExtTreeMap.getD_eq_fallback hnew.2).symm
      · rfl
    obtain ⟨h',hrun,hidle,hserves',hqueue⟩ := ih (h := next) rfl rfl hready ⟨hsocket,hfarm⟩
    refine ⟨h',?_,hidle,hserves',?_⟩
    · rw [List.length_cons, List.replicate_succ, Runs.run, hstep]
      exact hrun
    · rw [hqueue, List.map_cons]
      simp [next]

theorem drain_queued {farmName : Bytes} {d left : ConnectionEventData} {actions : List HttpAction}
    (h : drain farmName d = some (actions,left)) :
    left.fd = d.fd ∧ ∃ decoded : List HttpAction, actions = decoded.map (queuedAs farmName d.fd) := by
  induction d using drain.induct generalizing actions left with
  | case1 d hread =>
    rw [drain] at h
    split at h
    · obtain ⟨rfl,rfl⟩ := Prod.mk.inj (Option.some.inj h)
      exact ⟨rfl,[],rfl⟩
    · next hsome =>
      rw [hread] at hsome
      contradiction
  | case2 d action used hread hused hless ih =>
    rw [drain] at h
    split at h
    · next hnone =>
      rw [hread] at hnone
      contradiction
    · next action' used' hsome =>
      obtain ⟨rfl,rfl⟩ := Prod.mk.inj (Option.some.inj (hread.symm.trans hsome))
      rw [dif_pos hused] at h
      obtain ⟨⟨tail,left'⟩,htail,heq⟩ := Option.map_eq_some_iff.mp h
      obtain ⟨rfl,rfl⟩ := Prod.mk.inj heq
      obtain ⟨hfd,decoded,rfl⟩ := ih htail
      have hsame : (takeOut d used).fd = d.fd := by
        unfold takeOut
        dsimp only
        split <;> rfl
      exact ⟨hfd.trans hsame,action::decoded,by rw [List.map_cons, hsame]; rfl⟩
  | case3 d action used hread hused =>
    rw [drain] at h
    split at h
    · next hnone =>
      rw [hread] at hnone
      contradiction
    · next action' used' hsome =>
      obtain ⟨rfl,rfl⟩ := Prod.mk.inj (Option.some.inj (hread.symm.trans hsome))
      rw [dif_neg hused] at h
      contradiction

theorem recvAll_fd (d : ConnectionEventData) (ending : RecvEnd) (chunks : List Bytes) :
    (recvAll d ending chunks).1.fd = d.fd := by
  induction chunks generalizing d with
  | nil => rfl
  | cons bytes chunks ih =>
    rw [recvAll]
    split
    · exact ih d
    · split
      · rfl
      · split
        · rfl
        · split
          · rfl
          · exact ih (d.append bytes)

/-- The listener stands between two wake-ups of this socket. -/
structure Attends (h : HttpSync) (s : FarmSocket) : Prop where
  idle : Idle h
  serves : ∀ d, s.data = some d → d.fd = s.fd ∧ Serves h s.farmName s.fd

section Attends
variable {h : HttpSync} {s s' : FarmSocket}

/-- The wake-up of a descriptor, as the listener sees it. -/
theorem Attends.woken (ha : Attends h s) {d : ConnectionEventData} (hdata : s.data = some d) :
    step h (.epollWait [s.fd]) = some { h with ready := [s.fd] } := by
  obtain ⟨-,hsocket,-⟩ := ha.serves d hdata
  exact if_pos ⟨ha.idle.1,ha.idle.2,by simp,by simp [hsocket]⟩

theorem Attends.reads (ha : Attends h s) {d : ConnectionEventData} (hdata : s.data = some d)
    (decoded : List HttpAction) :
    ∃ events h', (∀ e ∈ events, Event.OfListenTask e) ∧ Runs.run step h events = some h' ∧ Idle h' ∧
      Serves h' s.farmName s.fd ∧
      h'.inputData = h.inputData ++ decoded.map (queuedAs s.farmName s.fd) := by
  obtain ⟨-,hserves⟩ := ha.serves d hdata
  let received : HttpSync :=
    { h with ready := [], chunk := ⟨s.fd,some (.farm s.farmName),decoded⟩ }
  have hreceive : step { h with ready := [s.fd] } (.receive decoded) = some received := by
    simp only [step, ha.idle.2, hserves.1]
    rfl
  obtain ⟨h',hrun,hidle,hserves',hqueue⟩ := enqueue_all (h := received) rfl rfl rfl hserves
  refine ⟨.epollWait [s.fd] :: .receive decoded :: List.replicate decoded.length .enqueue,h',?_,?_,
    hidle,hserves',hqueue⟩
  · intro e he
    rcases List.mem_cons.mp he with rfl | he
    · trivial
    · rcases List.mem_cons.mp he with rfl | he
      · trivial
      · obtain rfl := List.eq_of_mem_replicate he
        trivial
  · rw [Runs.run, ha.woken hdata, Option.bind_some, Runs.run, hreceive, Option.bind_some, hrun]

theorem Attends.disconnects (ha : Attends h s) {d : ConnectionEventData} (hdata : s.data = some d) :
    ∃ events h', (∀ e ∈ events, Event.OfListenTask e) ∧ Runs.run step h events = some h' ∧ Idle h' ∧
      h'.inputData = h.inputData ++ [farmMarker .disconnect s.farmName s.fd] := by
  obtain ⟨-,hsocket,hlisted⟩ := ha.serves d hdata
  let closed := HttpSync.peerDisconnectHandler { h with ready := [] } s.fd
  have hclose : step { h with ready := [s.fd] } .peerDisconnect = some closed := by
    simp only [step, ha.idle.2, hsocket]
    rfl
  refine ⟨[.epollWait [s.fd],.peerDisconnect],closed,?_,?_,⟨rfl,ha.idle.2⟩,?_⟩
  · intro e he
    rcases List.mem_cons.mp he with rfl | he
    · trivial
    · obtain rfl := List.mem_singleton.mp he
      trivial
  · rw [Runs.run, ha.woken hdata, Option.bind_some, Runs.run, hclose]
    rfl
  · change h.inputData ++ [farmMarker .disconnect (h.farmOf s.fd) s.fd] = _
    rw [hlisted]

/-- A wake-up is some steps of the listen task: what they queue is the same. -/
theorem Attends.wake (ha : Attends h s) {w : Wake} (hstep : s.listenTask w = some s') :
    ∃ events h' new, (∀ e ∈ events, Event.OfListenTask e) ∧ Runs.run step h events = some h' ∧
      Attends h' s' ∧ h'.inputData = h.inputData ++ new ∧ s'.inputData = s.inputData ++ new := by
  have hstay : ∃ events h' new, (∀ e ∈ events, Event.OfListenTask e) ∧
      Runs.run step h events = some h' ∧ Attends h' s ∧ h'.inputData = h.inputData ++ new ∧
      s.inputData = s.inputData ++ new :=
    ⟨[],h,[],by simp,rfl,ha,by simp,by simp⟩
  cases w with
  | other =>
    obtain rfl := Option.some.inj hstep
    exact hstay
  | epollin chunks ending =>
    cases hdata : s.data with
    | none =>
      simp only [listenTask, hdata, Option.some.injEq] at hstep
      subst hstep
      exact hstay
    | some d =>
      obtain ⟨hfd,hserves⟩ := ha.serves d hdata
      have hrecv := recvAll_fd (clearHeader d) ending (s.socket ++ chunks)
      rw [clearHeader_fd, hfd] at hrecv
      simp only [listenTask, hdata] at hstep
      generalize recvAll (clearHeader d) ending (s.socket ++ chunks) = result at hrecv hstep
      obtain ⟨d',socket,last⟩ := result
      cases last with
      | failed =>
        obtain rfl := Option.some.inj hstep
        refine ⟨[],h,[],by simp,rfl,⟨ha.idle,fun e he => ?_⟩,by simp,by simp⟩
        obtain rfl := Option.some.inj he
        exact ⟨hrecv,hserves⟩
      | closed | reset =>
        obtain rfl := Option.some.inj hstep
        obtain ⟨events,h',hof,hrun,hidle,hqueue⟩ := ha.disconnects hdata
        exact ⟨events,h',_,hof,hrun,⟨hidle,fun e he => by contradiction⟩,hqueue,rfl⟩
      | again =>
        by_cases hsome : 0 < d'.bufferSize
        · simp only [hsome, if_true] at hstep
          obtain ⟨⟨actions,left⟩,hdrain,rfl⟩ := Option.map_eq_some_iff.mp hstep
          obtain ⟨hleft,decoded,rfl⟩ := drain_queued hdrain
          obtain ⟨events,h',hof,hrun,hidle,hserves',hqueue⟩ := ha.reads hdata decoded
          refine ⟨events,h',_,hof,hrun,⟨hidle,fun e he => ?_⟩,hqueue,by rw [hrecv]⟩
          obtain rfl := Option.some.inj he
          exact ⟨hleft.trans hrecv,hserves'⟩
        · simp only [hsome, if_false, Option.some.injEq] at hstep
          subst hstep
          refine ⟨[],h,[],by simp,rfl,⟨ha.idle,fun e he => ?_⟩,by simp,by simp⟩
          obtain rfl := Option.some.inj he
          exact ⟨hrecv,hserves⟩

theorem Attends.run (ha : Attends h s) {wakes : List Wake}
    (hrun : Runs.run listenTask s wakes = some s') :
    ∃ events h' new, (∀ e ∈ events, Event.OfListenTask e) ∧ Runs.run step h events = some h' ∧
      Attends h' s' ∧ h'.inputData = h.inputData ++ new ∧ s'.inputData = s.inputData ++ new := by
  induction wakes generalizing h s with
  | nil =>
    obtain rfl := Option.some.inj hrun
    exact ⟨[],h,[],by simp,rfl,ha,by simp,by simp⟩
  | cons w wakes ih =>
    obtain ⟨s₁,hstep,hrest⟩ := Option.bind_eq_some_iff.mp hrun
    obtain ⟨events,h₁,new,hof,hevents,ha₁,hqueue,hqueue'⟩ := ha.wake hstep
    obtain ⟨events',h',new',hof',hevents',ha',hlast,hlast'⟩ := ih ha₁ hrest
    refine ⟨events ++ events',h',new ++ new',?_,?_,ha',?_,?_⟩
    · intro e he
      exact (List.mem_append.mp he).elim (hof e) (hof' e)
    · rw [Runs.run_append, hevents]
      exact hevents'
    · rw [hlast, hqueue, List.append_assoc]
    · rw [hlast', hqueue', List.append_assoc]

end Attends

/-- Whatever comes over the connection of a farm that was added, the bytes, their pieces and the
end of the stream make the same queue as some steps of the listen task in the listener with all
its descriptors. -/
theorem wakes_are_steps {h h₁ : HttpSync} (hidle : Idle h) {farmName : Bytes} {fd : ℕ}
    (hadd : h.addFarm farmName (.connected fd) = some (h₁,true)) {buffer : Memory}
    {wakes : List Wake} {s : FarmSocket}
    (hrun : Runs.run listenTask (added farmName fd buffer) wakes = some s) :
    ∃ events h', (∀ e ∈ events, Event.OfListenTask e) ∧ Runs.run step h₁ events = some h' ∧
      h'.inputData = h₁.inputData ++ s.inputData ∧ Idle h' ∧
      (s.data ≠ none → Serves h' s.farmName s.fd) := by
  have ha : Attends h₁ (added farmName fd buffer) := by
    simp only [HttpSync.addFarm] at hadd
    split at hadd
    · obtain ⟨rfl,-⟩ := Prod.mk.inj (Option.some.inj hadd)
      refine ⟨hidle,fun d hd => ?_⟩
      obtain rfl := Option.some.inj hd
      exact ⟨rfl,by simp [added, opened],by simp [added, farmOf]⟩
    · contradiction
  obtain ⟨events,h',new,hof,hevents,ha',hqueue,hqueue'⟩ := ha.run hrun
  refine ⟨events,h',hof,hevents,?_,ha'.idle,fun hdata => ?_⟩
  · rw [hqueue, hqueue']
    rfl
  · obtain ⟨d,hd⟩ := Option.ne_none_iff_exists'.mp hdata
    exact (ha'.serves d hd).2

/-- A farm is added, asks for its sessions and closes. -/
theorem request_is_steps :
    ∃ h₁ s events h', (initial fun _ => false).addFarm [102] (.connected 7) = some (h₁,true) ∧
      Runs.run listenTask (added [102] 7 fun _ => 0) requestWakes = some s ∧
      (∀ e ∈ events, Event.OfListenTask e) ∧ Runs.run step h₁ events = some h' ∧
      h'.inputData = h₁.inputData ++ s.inputData := by
  obtain ⟨s,hrun⟩ := requestWakes_run
  have hadd : ∃ h₁, (initial fun _ => false).addFarm [102] (.connected 7) = some (h₁,true) := ⟨_,rfl⟩
  obtain ⟨h₁,hadd⟩ := hadd
  obtain ⟨events,h',hof,hevents,hqueue,-⟩ := wakes_are_steps ⟨rfl,rfl⟩ hadd hrun
  exact ⟨h₁,s,events,h',hadd,hrun,hof,hevents,hqueue⟩

end HttpSync
end Ssyncd
