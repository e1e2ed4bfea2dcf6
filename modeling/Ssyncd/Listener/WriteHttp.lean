import Ssyncd.Connection.Send
import Ssyncd.Listener.FarmDescriptors

/-! The control task writes the stored sessions to the sockets of their farms. -/
namespace Ssyncd
open Http Reader

/-- How the calls come out that one send to a farm makes: those of `add_farm`, and those of send.
`before` is what the other tasks do before it. -/
structure PoundResults where
  add : AddFarm
  sends : List SendResult
  before : List HttpSync.Event := []

/-- The bytes that a send put out, and what its descriptor was then. -/
structure PoundWrite where
  socket : Option Socket
  taken : Bytes

namespace HttpSync

/-- `sendPoundAction` with the bytes: the second part is what it returns, none where it never does,
and the third what was written. -/
def sendPoundBytes (s : HttpSync) (farmName : Bytes) (action : HttpAction) (results : PoundResults) :
    Option (HttpSync × Option Bool × List PoundWrite) :=
  (s.sendPoundAction farmName action results.add).map fun (s,added) =>
    if added then
      let fd := s.getFarmFd farmName
      match HttpParser.serialize { action with fd := (fd : Int), farmName } with
      | none => (s,some true,[])
      | some (toSend,_) =>
        let (ret,taken) := handleSend toSend results.sends
        (s,ret,[⟨s.sockets fd,taken⟩])
    else (s,some false,[])

/-- The descriptor that is found for the farm is a connection to it, or none is found and it can be
added. -/
def Finds (s : HttpSync) (farmName : Bytes) (add : AddFarm) : Prop :=
  if s.getFarmFd farmName = 0 then ∃ fd, add = .connected fd
  else s.sockets (s.getFarmFd farmName) = some (.farm farmName)

end HttpSync

namespace Http

/-- The stored sessions in the order of the four loops, with where they stand. -/
def sessionList (data : HttpSessionData) : List (SessionKey × HttpSession) :=
  data.toList.flatMap fun (farm,listeners) =>
    listeners.toList.flatMap fun (listener,services) =>
      services.toList.flatMap fun (service,sessions) =>
        sessions.sessions.toList.map fun (key,session) => (⟨farm,listener,service,key⟩,session)

def writeRequest (k : SessionKey) (session : HttpSession) : HttpAction where
  action := .named .sessWrite
  service := k.service
  listener := k.listener
  backend := session.backendId
  session := session
  farmName := k.farm

/-- What a send returns is not looked at; the second part tells whether the loops end. None where
no system gives these results. -/
def writeSessions (results : SessionKey → PoundResults) :
    HttpSync → List (SessionKey × HttpSession) → Option (HttpSync × Bool × List PoundWrite)
  | s, [] => some (s,true,[])
  | s, (k,session)::rest =>
    (Runs.run HttpSync.step s (results k).before).bind fun s =>
      (s.sendPoundBytes k.farm (writeRequest k session) (results k)).bind fun (s,ret,written) =>
        if ret = none then some (s,false,written)
        else (writeSessions results s rest).map fun (s,ends,log) => (s,ends,written ++ log)

/-- `starts` tells whether the listener runs after `start_http_sync`, which sets the flag even where
the thread cannot be made; a listen task that ends at that moment takes it back. -/
def writeHttpData (isRunning starts : Bool) (s : HttpSync) (data : HttpSessionData)
    (results : SessionKey → PoundResults) : Option (HttpSync × Option Bool × List PoundWrite) :=
  if isRunning || starts then
    (writeSessions results s (sessionList data)).map fun (s,ends,log) =>
      (s,if ends then some true else none,log)
  else some (s,some false,[])

/-- One complete packet with the session's fields went to an open connection to its farm. -/
structure Delivers (entry : SessionKey × HttpSession) (write : PoundWrite) : Prop where
  connection : write.socket = some (.farm entry.1.farm)
  packet : ∀ junk, ∃ b, HttpParser.deserialize (memory write.taken junk) write.taken.length =
    some (b,write.taken.length) ∧ HttpParser.Carried (writeRequest entry.1 entry.2) b

/-- What a write of the store should report. -/
structure Reports (data : HttpSessionData) (ret : Option Bool) (log : List PoundWrite) : Prop where
  written : ret = some true → List.Forall₂ Delivers (sessionList data) log
  failed : ¬List.Forall₂ Delivers (sessionList data) log → ret = some false

/-- Each session finds its farm at its turn. -/
def Connected (results : SessionKey → PoundResults) : HttpSync → List (SessionKey × HttpSession) → Prop
  | _, [] => True
  | s, (k,session)::rest =>
    ∀ turn, Runs.run HttpSync.step s (results k).before = some turn →
      turn.Finds k.farm (results k).add ∧ ∀ s' added,
        turn.sendPoundAction k.farm (writeRequest k session) (results k).add = some (s',added) →
          Connected results s' rest

/-- Every farm is there, its socket takes all of each packet, and a packet has room for every id
and string. -/
structure AllSent (s : HttpSync) (data : HttpSessionData) (results : SessionKey → PoundResults) :
    Prop where
  connected : Connected results s (sessionList data)
  takes : ∀ k session, sessions data k = some session →
    Takes (5 + (HttpParser.writeBody (writeRequest k session)).length) (results k).sends
  fits : ∀ k session, sessions data k = some session → HttpParser.Fits (writeRequest k session)
  ids : ∀ k session, sessions data k = some session → HttpParser.SmallIds (writeRequest k session)

end Http

namespace HttpSync
variable {s s' : HttpSync} {farmName : Bytes} {action : HttpAction} {results : PoundResults}

@[simp] theorem farmsFd_send : (s.send farmName action).farmsFd = s.farmsFd := by
  unfold HttpSync.send
  dsimp only
  split <;> rfl

@[simp] theorem sockets_send : (s.send farmName action).sockets = s.sockets := by
  unfold HttpSync.send
  dsimp only
  split <;> rfl

@[simp] theorem getFarmFd_send (name : Bytes) :
    (s.send farmName action).getFarmFd name = s.getFarmFd name := by
  rw [getFarmFd, farmsFd_send]
  rfl

/-- A farm that has been added is found under its new connection. -/
theorem sockets_connected {fd : ℕ} (hzero : s.getFarmFd farmName = 0) (inputData : List HttpAction) :
    let s' := { s.opened fd (some (.farm farmName)) with
      farmsFd := s.farmsFd.insert fd farmName, inputData }
    s'.sockets (s'.getFarmFd farmName) = some (.farm farmName) := by
  intro s'
  have hfd : s'.farmsFd[fd]? = some farmName := Std.ExtTreeMap.getElem?_insert_self
  have hle := le_getFarmFd hfd
  have hfound := (s'.getFarmFd_cases farmName).resolve_left fun hnone => hnone.2 fd hfd
  have heq : s'.getFarmFd farmName = fd := by
    by_contra hne
    have hold : s.farmsFd[s'.getFarmFd farmName]? = some farmName := by
      rw [← hfound]
      refine (Std.ExtTreeMap.getElem?_insert.trans (if_neg ?_)).symm
      exact fun h => hne (Std.LawfulEqCmp.compare_eq_iff_eq.mp h).symm
    have hlow := le_getFarmFd hold
    omega
  rw [heq]
  exact (s.sockets_opened fd _ fd).trans (if_pos rfl)

/-- The send goes to the farm exactly where the farm is found. -/
theorem finds_iff {add : AddFarm} {added : Bool}
    (h : s.sendPoundAction farmName action add = some (s',added)) :
    s.Finds farmName add ↔ added = true ∧ s'.sockets (s'.getFarmFd farmName) = some (.farm farmName) := by
  unfold HttpSync.sendPoundAction at h
  unfold Finds
  split at h
  · next hzero =>
    rw [if_pos hzero]
    obtain ⟨⟨t,ok⟩,hadd,heq⟩ := Option.map_eq_some_iff.mp h
    cases add with
    | noSocket =>
      cases hadd
      cases heq
      simp
    | notConnected fd =>
      simp only [HttpSync.addFarm] at hadd
      split at hadd
      · cases hadd
        cases heq
        simp
      · contradiction
    | connected fd =>
      simp only [HttpSync.addFarm] at hadd
      split at hadd
      · cases hadd
        cases heq
        rw [getFarmFd_send, sockets_send]
        exact iff_of_true ⟨fd,rfl⟩ ⟨rfl,sockets_connected hzero _⟩
      · contradiction
  · next hfound =>
    cases h
    rw [if_neg hfound, getFarmFd_send, sockets_send, and_iff_right rfl]

/-- Where the farm cannot be added nothing is written. -/
theorem sendPoundBytes_not_added (h : s.sendPoundAction farmName action results.add = some (s',false)) :
    s.sendPoundBytes farmName action results = some (s',some false,[]) := by
  rw [sendPoundBytes, h]
  rfl

/-- All parts of a send to a descriptor that was found. -/
theorem sendPoundBytes_added (h : s.sendPoundAction farmName action results.add = some (s',true))
    (htype : action.type = .named .httpSync) :
    s.sendPoundBytes farmName action results =
      let toSend := wire action.toConnPacket (HttpParser.writeBody { action with farmName })
      some (s',(handleSend toSend results.sends).1,
        [⟨s'.sockets (s'.getFarmFd farmName),(handleSend toSend results.sends).2⟩]) := by
  rw [sendPoundBytes, h]
  simp only [Option.map_some, if_pos, HttpParser.serialize_eq
    (a := { action with fd := (s'.getFarmFd farmName : Int), farmName }) htype]
  rfl

end HttpSync

namespace Http

section Packet
variable {k : SessionKey} {session : HttpSession}

/-- The bytes of a session's packet. -/
def writePacket (k : SessionKey) (session : HttpSession) : Bytes :=
  wire (writeRequest k session).toConnPacket (HttpParser.writeBody (writeRequest k session))

/-- A string that was read is never longer than its size byte can say. -/
theorem readString_length (buffer : Memory) (used : ℕ) :
    (HttpParser.readString buffer used).1.length ≤ 255 := by
  have hbytes : ∀ (n used : ℕ), (bytes n buffer used).1.length = n := by
    intro n
    induction n with
    | zero => exact fun _ => rfl
    | succ n ih => exact fun used => congrArg (· + 1) (ih (used+1))
  have hsize : ((next buffer used).1).toNat < 256 := UInt8.toNat_lt _
  have hlen : (HttpParser.readString buffer used).1.length = ((next buffer used).1).toNat :=
    hbytes _ _
  omega

theorem fits_readContent {packet : HttpAction} (h : HttpParser.Fits packet) (buffer : Memory)
    (used : ℕ) : HttpParser.Fits (HttpParser.readContent packet buffer used).1 :=
  ⟨h.farmName,h.key,readString_length buffer used⟩

theorem fits_readSession {packet : HttpAction} (h : HttpParser.Fits packet) (buffer : Memory)
    (used : ℕ) : HttpParser.Fits (HttpParser.readSession packet buffer used).1 := by
  unfold HttpParser.readSession
  simp only [bind]
  split
  · refine fits_readContent ?_ buffer _
    exact ⟨h.farmName,readString_length ..,h.content⟩
  · exact ⟨h.farmName,readString_length ..,h.content⟩

theorem fits_readBody (buffer : Memory) (used : ℕ) :
    HttpParser.Fits (HttpParser.readBody buffer used).1 := by
  have hblank : ∀ action, HttpParser.Fits
      (HttpParser.blank action (HttpParser.readString buffer (used+1)).1) :=
    fun _ => ⟨readString_length ..,Nat.zero_le _,Nat.zero_le _⟩
  unfold HttpParser.readBody
  simp only [bind]
  split
  · exact hblank _
  · exact fits_readSession (hblank _) buffer _

theorem fits_deserialize {buffer : Memory} {n used : ℕ} {b : HttpAction}
    (h : HttpParser.deserialize buffer n = some (b,used)) : HttpParser.Fits b := by
  unfold HttpParser.deserialize at h
  split at h
  · next ret start _ =>
    have hbody := fits_readBody buffer start
    split at h
    · generalize HttpParser.readBody buffer start = read at h hbody
      obtain ⟨packet,used'⟩ := read
      simp only at h
      split at h
      · obtain ⟨rfl,-⟩ := Prod.mk.inj (Option.some.inj h)
        exact ⟨hbody.farmName,hbody.key,hbody.content⟩
      · obtain ⟨rfl,-⟩ := Prod.mk.inj (Option.some.inj h)
        exact hbody
    · contradiction
  · contradiction

/-- A packet arrives whole and with the session's fields exactly where the farm's connection took all
its bytes and it has room for the session. -/
theorem delivers_iff {socket : Option Socket} {taken : Bytes} (htaken : taken <+: writePacket k session) :
    Delivers (k,session) ⟨socket,taken⟩ ↔
      socket = some (.farm k.farm) ∧ taken = writePacket k session ∧
        HttpParser.Fits (writeRequest k session) ∧ HttpParser.SmallIds (writeRequest k session) := by
  have hlen : HttpParser.Fits (writeRequest k session) →
      5 + (HttpParser.writeBody (writeRequest k session)).length < 65536 := fun hfits => by
    have hle := HttpParser.writeBody_length_le hfits
    omega
  have hwhole : ∀ (hfits : HttpParser.Fits (writeRequest k session)) (junk : Memory),
      HttpParser.deserialize (memory (writePacket k session) junk) (writePacket k session).length =
        some (HttpParser.withLength (writeRequest k session) (writePacket k session).length,
          (writePacket k session).length) := by
    intro hfits junk
    have hd := HttpParser.deserialize_wire (a := writeRequest k session) rfl hfits [] junk
    rwa [List.append_nil, ← wire_length (writeRequest k session).toConnPacket] at hd
  constructor
  · rintro ⟨hsocket,hpacket⟩
    obtain ⟨b,hb,hcarried⟩ := hpacket fun _ => 0
    have hread := fits_deserialize hb
    have hfits : HttpParser.Fits (writeRequest k session) := by
      have hwrite : CarriesContent (writeRequest k session).action := .inr (.inr rfl)
      obtain ⟨-,-,-,-,hkey⟩ := hcarried.ids (by simp [writeRequest])
      exact ⟨hcarried.farmName ▸ hread.farmName,hkey ▸ hread.key,
        (hcarried.content hwrite).1 ▸ hread.content⟩
    have htaken' : taken = writePacket k session := by
      by_contra hne
      have hnone := BasePktParser.deserialize_prefix_wire _ (hlen hfits) htaken hne fun _ => 0
      rw [HttpParser.deserialize, hnone] at hb
      contradiction
    subst htaken'
    refine ⟨hsocket,rfl,hfits,?_⟩
    rw [hwhole hfits] at hb
    obtain ⟨rfl,-⟩ := Prod.mk.inj (Option.some.inj hb)
    exact ((HttpParser.carried_iff _ _).mp hcarried).resolve_left (by simp [writeRequest])
  · rintro ⟨hsocket,rfl,hfits,hids⟩
    exact ⟨hsocket,fun junk => ⟨_,hwhole hfits junk,(HttpParser.carried_iff _ _).mpr (.inr hids)⟩⟩

end Packet

section Store
variable {data : HttpSessionData} {s s' : HttpSync} {results : SessionKey → PoundResults}
  {k : SessionKey} {session : HttpSession} {entries rest : List (SessionKey × HttpSession)}

/-- The loops come to exactly the stored sessions. -/
theorem mem_sessionList : (k,session) ∈ sessionList data ↔ sessions data k = some session := by
  obtain ⟨farm,listener,service,key⟩ := k
  simp only [sessionList, List.mem_flatMap, List.mem_map, Prod.exists, Prod.mk.injEq, SessionKey.mk.injEq,
    Std.ExtTreeMap.mem_toList_iff_getElem?_eq_some, sessions_eq_some]
  constructor
  · rintro ⟨_,listeners,hf,_,services,hl,_,sessions,hi,_,_,hs,⟨rfl,rfl,rfl,rfl⟩,rfl⟩
    exact ⟨listeners,hf,services,hl,sessions,hi,hs⟩
  · rintro ⟨listeners,hf,services,hl,sessions,hi,hs⟩
    exact ⟨farm,listeners,hf,listener,services,hl,service,sessions,hi,key,session,hs,⟨rfl,rfl,rfl,rfl⟩,rfl⟩

/-- What the send for a session put out. -/
def writeOf (results : SessionKey → PoundResults) (k : SessionKey) (session : HttpSession)
    (s : HttpSync) : PoundWrite :=
  ⟨s.sockets (s.getFarmFd k.farm),(handleSend (writePacket k session) (results k).sends).2⟩

/-- One turn of the loops: a session whose farm cannot be added is passed over, and a send that never
returns is the last. -/
theorem writeSessions_cons {out : HttpSync × Bool × List PoundWrite}
    (h : writeSessions results s ((k,session)::rest) = some out) :
    ∃ turn next added, Runs.run HttpSync.step s (results k).before = some turn ∧
      turn.sendPoundAction k.farm (writeRequest k session) (results k).add = some (next,added) ∧
      ((added = false ∧ writeSessions results next rest = some out) ∨
        (added = true ∧ (handleSend (writePacket k session) (results k).sends).1 = none ∧
          out = (next,false,[writeOf results k session next])) ∨
        (added = true ∧ (handleSend (writePacket k session) (results k).sends).1 ≠ none ∧
          ∃ s' ends log, writeSessions results next rest = some (s',ends,log) ∧
            out = (s',ends,writeOf results k session next::log))) := by
  rw [writeSessions] at h
  obtain ⟨turn,hturn,h⟩ := Option.bind_eq_some_iff.mp h
  cases hsend : turn.sendPoundAction k.farm (writeRequest k session) (results k).add with
  | none =>
    rw [HttpSync.sendPoundBytes, hsend] at h
    contradiction
  | some sent =>
    obtain ⟨next,added⟩ := sent
    refine ⟨turn,next,added,hturn,hsend,?_⟩
    cases added with
    | false =>
      refine .inl ⟨rfl,?_⟩
      rw [HttpSync.sendPoundBytes_not_added hsend] at h
      obtain ⟨⟨s',ends,log⟩,hrest,rfl⟩ := Option.map_eq_some_iff.mp h
      exact hrest
    | true =>
      rw [HttpSync.sendPoundBytes_added hsend rfl] at h
      refine .inr ?_
      by_cases hnone : (handleSend (writePacket k session) (results k).sends).1 = none
      · exact .inl ⟨rfl,hnone,(Option.some.inj ((if_pos hnone).symm.trans h)).symm⟩
      · have hmap := (if_neg hnone).symm.trans h
        obtain ⟨⟨s',ends,log⟩,hrest,rfl⟩ := Option.map_eq_some_iff.mp hmap
        exact .inr ⟨rfl,hnone,s',ends,log,hrest,rfl⟩

/-- One call writes to one socket at most. -/
theorem length_writeSessions {ends : Bool} {log : List PoundWrite}
    (h : writeSessions results s entries = some (s',ends,log)) : log.length ≤ entries.length := by
  induction entries generalizing s log with
  | nil =>
    cases h
    exact Nat.le_refl 0
  | cons entry rest ih =>
    obtain ⟨k,session⟩ := entry
    obtain ⟨turn,next,added,-,-,⟨-,hrest⟩ | ⟨-,-,heq⟩ | ⟨-,-,_,_,_,hrest,heq⟩⟩ := writeSessions_cons h
    · exact Nat.le_succ_of_le (ih hrest)
    · cases heq
      exact Nat.succ_le_succ (Nat.zero_le _)
    · cases heq
      exact Nat.succ_le_succ (ih hrest)

/-- A session is delivered where the farm's connection takes the packet and the packet has room for it. -/
theorem delivers_writeOf_iff : Delivers (k,session) (writeOf results k session s) ↔
    s.sockets (s.getFarmFd k.farm) = some (.farm k.farm) ∧
      Takes (writePacket k session).length (results k).sends ∧
        HttpParser.Fits (writeRequest k session) ∧ HttpParser.SmallIds (writeRequest k session) := by
  obtain ⟨hall,hless⟩ := handleSend_spec (writePacket k session) (results k).sends
  have hne : writePacket k session ≠ [] := List.cons_ne_nil _ _
  rw [writeOf, delivers_iff (handleSend_front _ _), ← handleSend_iff_takes]
  refine and_congr_right fun _ => and_congr_left fun _ => ⟨fun h => ?_,hall⟩
  by_contra hret
  have hlt := hless hret hne
  rw [h] at hlt
  exact Nat.lt_irrefl _ hlt

/-- Every session is delivered exactly where each finds its farm, is taken and has room. -/
theorem forall₂_writeSessions {ends : Bool} {log : List PoundWrite}
    (h : writeSessions results s entries = some (s',ends,log)) : List.Forall₂ Delivers entries log ↔
      Connected results s entries ∧ ∀ entry ∈ entries,
        Takes (writePacket entry.1 entry.2).length (results entry.1).sends ∧
          HttpParser.Fits (writeRequest entry.1 entry.2) ∧
            HttpParser.SmallIds (writeRequest entry.1 entry.2) := by
  induction entries generalizing s log with
  | nil =>
    cases h
    exact iff_of_true .nil ⟨trivial,nofun⟩
  | cons entry rest ih =>
    obtain ⟨k,session⟩ := entry
    obtain ⟨turn,next,added,hturn,hsend,hcases⟩ := writeSessions_cons h
    have hfinds := HttpSync.finds_iff hsend
    have hconnected : Connected results s ((k,session)::rest) ↔
        turn.Finds k.farm (results k).add ∧ Connected results next rest := by
      rw [Connected]
      constructor
      · intro hall
        obtain ⟨hfound,hnext⟩ := hall turn hturn
        exact ⟨hfound,hnext next added hsend⟩
      · rintro ⟨hfound,hnext⟩ turn' hturn'
        obtain rfl := Option.some.inj (hturn.symm.trans hturn')
        refine ⟨hfound,fun next' added' hsend' => ?_⟩
        obtain ⟨rfl,-⟩ := Prod.mk.inj (Option.some.inj (hsend.symm.trans hsend'))
        exact hnext
    rw [List.forall_mem_cons, hconnected]
    obtain ⟨rfl,hrest⟩ | ⟨rfl,hnone,heq⟩ | ⟨rfl,-,s'',ends',log',hrest,heq⟩ := hcases
    · -- there are fewer writes than sessions
      have hnot : ¬turn.Finds k.farm (results k).add := fun hfound =>
        Bool.false_ne_true (hfinds.mp hfound).1
      refine iff_of_false (fun hall => ?_) fun hall => hnot hall.1.1
      have hlen := length_writeSessions hrest
      have heq := hall.length_eq
      rw [List.length_cons] at heq
      omega
    · cases heq
      have hnot : ¬Takes (writePacket k session).length (results k).sends := by
        rw [← handleSend_iff_takes, hnone]
        exact (Option.some_ne_none _).symm
      refine iff_of_false (fun hall => ?_) fun hall => hnot hall.2.1.1
      exact hnot (delivers_writeOf_iff.mp (List.forall₂_cons.mp hall).1).2.1
    · cases heq
      rw [List.forall₂_cons, delivers_writeOf_iff, ih hrest, hfinds]
      simp only [true_and]
      tauto

theorem allSent_iff {ends : Bool} {log : List PoundWrite}
    (h : writeSessions results s (sessionList data) = some (s',ends,log)) :
    AllSent s data results ↔ List.Forall₂ Delivers (sessionList data) log := by
  have hlen : ∀ k session, (writePacket k session).length =
      5 + (HttpParser.writeBody (writeRequest k session)).length := fun _ _ => wire_length _ _
  rw [forall₂_writeSessions h]
  simp only [hlen, Prod.forall, mem_sessionList]
  constructor
  · rintro ⟨hconnected,htakes,hfits,hids⟩
    exact ⟨hconnected,fun k session h => ⟨htakes k session h,hfits k session h,hids k session h⟩⟩
  · rintro ⟨hconnected,hall⟩
    exact ⟨hconnected,fun k session h => (hall k session h).1,fun k session h => (hall k session h).2.1,
      fun k session h => (hall k session h).2.2⟩

/-- Whether the listener runs is all that a write of the store reports, so its report is right exactly
where the listener does not run or every session gets through. -/
theorem reports_iff {isRunning starts : Bool} {ret : Option Bool} {log : List PoundWrite}
    (h : writeHttpData isRunning starts s data results = some (s',ret,log)) :
    Reports data ret log ↔ (isRunning || starts) = false ∨ AllSent s data results := by
  unfold writeHttpData at h
  split at h
  · next hruns =>
    obtain ⟨⟨next,ends,sent⟩,hsent,heq⟩ := Option.map_eq_some_iff.mp h
    obtain ⟨rfl,rfl,rfl⟩ : next = s' ∧ (if ends then some true else none) = ret ∧ sent = log := by
      simpa using heq
    have hret : (if ends then some true else none) ≠ some false := by
      split <;> simp
    rw [allSent_iff hsent, hruns, or_iff_right (by simp)]
    exact ⟨fun h => by_contra fun hnot => hret (h.failed hnot),
      fun h => ⟨fun _ => h,fun hnot => absurd h hnot⟩⟩
  · next hstopped =>
    cases h
    exact iff_of_true ⟨fun h => absurd h (by simp),fun _ => rfl⟩ (.inl (by simpa using hstopped))

end Store

/-- One session of one farm. -/
def oneSession (listener : UInt32) : HttpSessionData :=
  (∅ : HttpSessionData).insert [102] ((∅ : Listeners).insert listener
    ((∅ : Services).insert 1
      { sessions := (∅ : Std.ExtTreeMap Bytes HttpSession).insert [107] ⟨[107],2,[99],3⟩ }))

/-- Its write in a process where the descriptors below 5 are open. -/
def oneWrite (listener : UInt32) (results : PoundResults) :
    Option (HttpSync × Option Bool × List PoundWrite) :=
  writeHttpData true true (HttpSync.initial fun fd => fd < 5) (oneSession listener) fun _ => results

theorem mem_oneSession {k : SessionKey} {session : HttpSession}
    (h : sessions (oneSession 0) k = some session) : k = ⟨[102],0,1,[107]⟩ ∧ session = ⟨[107],2,[99],3⟩ := by
  have hlist : sessionList (oneSession 0) = [(⟨[102],0,1,[107]⟩,⟨[107],2,[99],3⟩)] := rfl
  have hmem := mem_sessionList.mpr h
  rw [hlist, List.mem_singleton] at hmem
  exact Prod.mk.inj hmem

/-- A connection that takes the packet in two parts. -/
theorem reports_oneSession : ∃ s log,
    oneWrite 0 ⟨.connected 5,[.wrote 2,.again,.wrote 1000],[]⟩ = some (s,some true,log) ∧
      Reports (oneSession 0) (some true) log := by
  obtain ⟨s,log,hwrite⟩ : ∃ s log,
      oneWrite 0 ⟨.connected 5,[.wrote 2,.again,.wrote 1000],[]⟩ = some (s,some true,log) := ⟨_,_,rfl⟩
  refine ⟨s,log,hwrite,(reports_iff hwrite).mpr (.inr ?_)⟩
  constructor
  · rintro turn hturn
    obtain rfl := Option.some.inj hturn
    exact ⟨⟨5,rfl⟩,fun _ _ _ => trivial⟩
  · intro k session h
    obtain ⟨rfl,rfl⟩ := mem_oneSession h
    exact takes_wrote.mpr (.inr (takes_again.mpr (takes_wrote.mpr (.inl (by decide)))))
  · intro k session h
    obtain ⟨rfl,rfl⟩ := mem_oneSession h
    exact ⟨by decide,by decide,by decide⟩
  · intro k session h
    obtain ⟨rfl,rfl⟩ := mem_oneSession h
    exact ⟨by decide,by decide,by decide⟩

/-- A farm that refuses the connection, a socket whose send fails, a descriptor that the farm has closed
and something else has got since, and a listener above 255: each time the write says that all is written. -/
theorem not_reports_oneSession :
    (∃ s log, oneWrite 0 ⟨.notConnected 5,[],[]⟩ = some (s,some true,log) ∧
      ¬Reports (oneSession 0) (some true) log) ∧
    (∃ s log, oneWrite 0 ⟨.connected 5,[.failed],[]⟩ = some (s,some true,log) ∧
      ¬Reports (oneSession 0) (some true) log) ∧
    (∃ s log, oneWrite 0 ⟨.noSocket,[.wrote 1000],HttpSync.closedAndReused.take 4⟩ =
      some (s,some true,log) ∧ ¬Reports (oneSession 0) (some true) log) ∧
    ∃ s log, oneWrite 256 ⟨.connected 5,[.wrote 1000],[]⟩ = some (s,some true,log) ∧
      ¬Reports (oneSession 256) (some true) log := by
  refine ⟨⟨_,_,rfl,fun h => ?_⟩,⟨_,_,rfl,fun h => ?_⟩,⟨_,_,rfl,fun h => ?_⟩,⟨_,_,rfl,fun h => ?_⟩⟩
  · cases h.written rfl
  · obtain ⟨hdelivers,-⟩ := List.forall₂_cons.mp (h.written rfl)
    obtain ⟨b,hb,-⟩ := hdelivers.packet fun _ => 0
    contradiction
  · obtain ⟨hdelivers,-⟩ := List.forall₂_cons.mp (h.written rfl)
    have hother := hdelivers.connection
    contradiction
  · obtain ⟨hdelivers,-⟩ := List.forall₂_cons.mp (h.written rfl)
    have hsmall := (delivers_iff (List.prefix_refl _)).mp hdelivers
    exact absurd hsmall.2.2.2.listener (by decide)

end Http
end Ssyncd
