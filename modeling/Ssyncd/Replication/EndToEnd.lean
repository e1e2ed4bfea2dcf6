import Ssyncd.Connection.NodeStream
import Ssyncd.Listener.ListenStream
import Ssyncd.Listener.WriteHttp
import Ssyncd.Master.HttpInput
import Ssyncd.Master.Stream

/-! From the balancers to the backup. A balancer's bytes go through the master's listener, its run loop and
store, and the bytes of a connection to the backup, which at last writes the sessions to its own balancer.
The codec cuts each id to a byte, and what has been through it once passes it unchanged. -/
namespace Ssyncd
open Http Recent Reader

namespace Http

/-- What the codec leaves as it is. -/
structure HttpAction.Portable (a : HttpAction) : Prop where
  type : a.type = .named .httpSync
  fits : HttpParser.Fits a
  ids : HttpParser.SmallIds a
  backendId : a.Sets → a.session.backendId = a.backend

section Codec
variable {a : HttpAction}

theorem low_toUInt8 (id : UInt32) : id.toUInt8.toUInt32 < 256 := by
  rw [UInt32.lt_iff_toNat_lt, UInt8.toNat_toUInt32]
  exact UInt8.toNat_lt _

theorem carriesContent_of_sets (h : a.Sets) : CarriesContent a.action :=
  h.imp id .inl

/-- An action is portable once it has been through the codec. -/
theorem portable_arrived (h : HttpParser.Fits a) : (HttpParser.arrived a).Portable := by
  have hzero : (0 : UInt32) < 256 := by decide
  unfold HttpParser.arrived HttpParser.withLength HttpParser.received
  split
  · next hcontent =>
    have hsync : a.action ≠ .named .syncRequest := by
      rintro heq
      rw [heq] at hcontent
      exact absurd hcontent (by decide)
    rw [if_neg hsync]
    exact ⟨rfl,⟨h.farmName,h.key,h.content⟩,⟨low_toUInt8 _,low_toUInt8 _,low_toUInt8 _⟩,fun _ => rfl⟩
  · next hcontent =>
    split
    · exact ⟨rfl,⟨h.farmName,Nat.zero_le _,Nat.zero_le _⟩,⟨hzero,hzero,hzero⟩,fun _ => rfl⟩
    · exact ⟨rfl,⟨h.farmName,h.key,Nat.zero_le _⟩,⟨low_toUInt8 _,low_toUInt8 _,low_toUInt8 _⟩,
        fun _ => rfl⟩

theorem session_carried {b : HttpAction} (h : HttpParser.Carried a b) (hsets : a.Sets)
    (hbackend : a.session.backendId = a.backend) : b.session = a.session := by
  have hsync : a.action ≠ .named .syncRequest := by
    rcases hsets with h | h <;> rw [h] <;> decide
  obtain ⟨-,-,-,hid,hkey⟩ := h.ids hsync
  obtain ⟨hcontent,hlast⟩ := h.content (carriesContent_of_sets hsets)
  calc b.session
      = ⟨b.session.key,b.session.backendId,b.session.content,b.session.lastAcc⟩ := rfl
    _ = a.session := by rw [hkey, hid, hcontent, hlast, ← hbackend]

/-- A store is changed alike by an action and by what its packet carries. -/
theorem applyHttpAction_carried {b : HttpAction} (h : HttpParser.Carried a b)
    (hbackend : a.Sets → a.session.backendId = a.backend) (data : HttpSessionData) :
    applyHttpAction data b = applyHttpAction data a := by
  have haction := h.action
  have hfarm := h.farmName
  have hsame : b.Sets ↔ a.Sets := by rw [HttpAction.Sets, HttpAction.Sets, haction]
  by_cases hdelete : a.action = .named .sessDelete
  · obtain ⟨hlistener,hservice,-,-,hkey⟩ := h.ids (by rw [hdelete]; decide)
    rw [hdelete] at haction
    simp only [applyHttpAction, haction, hdelete, hfarm, hlistener, hservice, hkey]
  by_cases hclear : a.action = .named .clearData
  · rw [hclear] at haction
    simp only [applyHttpAction, haction, hclear, hfarm]
  by_cases hsets : a.Sets
  · have hsync : a.action ≠ .named .syncRequest := by
      rcases hsets with h | h <;> rw [h] <;> decide
    obtain ⟨hlistener,hservice,-,-,-⟩ := h.ids hsync
    have hsession := session_carried h hsets (hbackend hsets)
    rw [applyHttpAction_sets data (hsame.mpr hsets), applyHttpAction_sets data hsets, hfarm, hlistener]
    simp only [addSession, hservice, hsession]
  · -- any other action leaves the store alone
    have hnone : ∀ c : HttpAction, c.action = a.action → applyHttpAction data c = data := by
      intro c hc
      rcases action_cases c with h | h | h | ⟨h,-⟩
      · exact absurd (by rwa [HttpAction.Sets, hc] at h) hsets
      · exact absurd (hc ▸ h) hdelete
      · exact absurd (hc ▸ h) hclear
      · exact h data
    rw [hnone b haction, hnone a rfl]

end Codec

/-- The sessions of a store, and its farms, can be sent as they are. -/
structure PortableData (data : HttpSessionData) : Prop where
  oneService : OneService data
  farms : ∀ farm ∈ data, farm.length ≤ 255
  sessions : ∀ k s, sessions data k = some s →
    (addRequest k.farm k.listener k.service s).Portable

theorem portableData_empty : PortableData ∅ :=
  ⟨oneService_empty,fun farm h => by simp at h,fun k s h => by simp at h⟩

theorem portable_clearRequest {farm : Bytes} (h : farm.length ≤ 255) : (clearRequest farm).Portable := by
  have hzero : (0 : UInt32) < 256 := by decide
  exact ⟨rfl,⟨h,Nat.zero_le _,Nat.zero_le _⟩,⟨hzero,hzero,hzero⟩,fun _ => rfl⟩

/-- The descriptor is not in the packet. -/
theorem HttpAction.Portable.withFd {a : HttpAction} (h : a.Portable) (fd : Int) :
    HttpAction.Portable { a with fd } :=
  ⟨h.type,⟨h.fits.farmName,h.fits.key,h.fits.content⟩,⟨h.ids.listener,h.ids.service,h.ids.backend⟩,
    h.backendId⟩

theorem put_of_sessionEffect {a : HttpAction} {k : SessionKey} {s : HttpSession}
    (h : sessionEffect a k = .put s) : a.Sets ∧ k = a.sessionKey ∧ s = a.session := by
  refine ⟨?_,sessionEffect_put h⟩
  unfold sessionEffect at h
  split at h
  · contradiction
  · exact (referenceEffect_put h).1

section Data
variable {data : HttpSessionData}

theorem farm_of_applyHttpAction {a : HttpAction} {farm : Bytes} (h : farm ∈ applyHttpAction data a) :
    farm = a.farmName ∨ farm ∈ data := by
  have hinsert : ∀ listeners, farm ∈ data.insert a.farmName listeners →
      farm = a.farmName ∨ farm ∈ data := fun listeners hf => by
    rcases Std.ExtTreeMap.mem_insert.mp hf with heq | hold
    · exact .inl (Std.compare_eq_iff_eq.mp heq).symm
    · exact .inr hold
  unfold applyHttpAction at h
  split at h
  · exact hinsert _ h
  · exact hinsert _ h
  · exact hinsert _ h
  · dsimp only at h
    split at h
    · exact hinsert _ h
    · exact hinsert _ h
  · exact .inr h

theorem PortableData.apply (h : PortableData data) {a : HttpAction} (ha : a.Portable) :
    PortableData (applyHttpAction data a) where
  oneService := h.oneService.applyHttpAction a
  farms farm hf := by
    rcases farm_of_applyHttpAction hf with rfl | hold
    · exact ha.fits.farmName
    · exact h.farms farm hold
  sessions k s hs := by
    rw [sessions_applyHttpAction h.oneService, Overlay.step] at hs
    cases heffect : sessionEffect a k with
    | keep => exact h.sessions k s (by simpa [heffect] using hs)
    | drop => simp [heffect] at hs
    | put s' =>
      obtain ⟨hsets,rfl,rfl⟩ := put_of_sessionEffect heffect
      obtain rfl : a.session = s := by simpa [heffect] using hs
      have hbackend : a.session.backendId < 256 := by
        rw [ha.backendId hsets]
        exact ha.ids.backend
      exact ⟨rfl,⟨ha.fits.farmName,ha.fits.key,ha.fits.content⟩,
        ⟨ha.ids.listener,ha.ids.service,hbackend⟩,fun _ => rfl⟩

theorem PortableData.clearFarm (h : PortableData data) (farmName : Bytes) :
    PortableData (clearHttpFarmData data farmName) where
  oneService := h.oneService.clearHttpFarmData farmName
  farms farm hf := by
    unfold clearHttpFarmData at hf
    split at hf
    · next hin =>
      rcases Std.ExtTreeMap.mem_insert.mp hf with heq | hold
      · exact Std.compare_eq_iff_eq.mp heq ▸ h.farms farmName hin
      · exact h.farms farm hold
    · exact h.farms farm hf
  sessions k s hs := by
    rw [sessions_clearHttpFarmData, Overlay.step, sessionEffect_clearRequest] at hs
    split at hs
    · simp at hs
    · exact h.sessions k s hs

/-- The additions of a snapshot. -/
theorem PortableData.requests (h : PortableData data) {a : HttpAction} (ha : a ∈ sessionActions data) :
    a.Portable := by
  obtain ⟨k,s,hs,rfl⟩ := mem_sessionActions.mp ha
  exact h.sessions k s hs

end Data

end Http

namespace Recent

/-- The entries of a store can be sent as they are. -/
def PortableEntries (data : RecentData) : Prop :=
  ∀ k e, entries data k = some e →
    XtRecentActionParser.Canonical (getEntryAsAction k.table e false)

theorem portableEntries_empty : PortableEntries ∅ := fun k e h => by simp at h

theorem canonical_entry {a : XtRecentAction} (h : XtRecentActionParser.Canonical a)
    (hadd : a.action = .named .addUpdEntry) :
    XtRecentActionParser.Canonical (getEntryAsAction a.xtTableName a.targetEntry false) :=
  ⟨rfl,fun _ => h.srcIp (.inl hadd),h.index,h.ttl,h.timestamps,h.name,h.nulFree⟩

theorem PortableEntries.apply {data : RecentData} (h : PortableEntries data) {a : XtRecentAction}
    (ha : XtRecentActionParser.Canonical a) : PortableEntries (applyRecentAction data a) := by
  intro k e he
  rw [entries_applyRecentAction, Overlay.step] at he
  cases heffect : recentEffect a k with
  | keep => exact h k e (by simpa [heffect] using he)
  | drop => simp [heffect] at he
  | put e' =>
    obtain ⟨rfl,rfl⟩ := recentEffect_put heffect
    obtain rfl : a.targetEntry = e := by simpa [heffect] using he
    exact canonical_entry ha (action_of_put heffect)

/-- The additions of a snapshot. -/
theorem PortableEntries.requests {data : RecentData} (h : PortableEntries data) {a : XtRecentAction}
    (ha : a ∈ entryActions data) : XtRecentActionParser.Canonical a := by
  obtain ⟨k,e,he,rfl⟩ := mem_entryActions.mp ha
  exact h k e he

/-- A store is changed alike by an action and by what its packet carries. -/
theorem applyRecentAction_carried {a b : XtRecentAction} (h : XtRecentActionParser.Carried a b)
    (data : RecentData) : applyRecentAction data b = applyRecentAction data a := by
  have haction := h.action
  have hname := h.xtTableName
  by_cases hadd : a.action = .named .addUpdEntry
  · obtain ⟨hfamily,hsrcIp⟩ := h.address (.inl hadd)
    obtain ⟨hindex,httl,hstamps⟩ := h.stamps hadd
    have hentry : b.targetEntry = a.targetEntry := by
      rw [XtRecentEntry.mk.injEq]
      exact ⟨hsrcIp,httl,hindex,hfamily,hstamps⟩
    rw [hadd] at haction
    simp only [applyRecentAction, haction, hadd, hname, hentry]
  by_cases hdelete : a.action = .named .deleteEntry
  · obtain ⟨-,hsrcIp⟩ := h.address (.inr hdelete)
    rw [hdelete] at haction
    simp only [applyRecentAction, haction, hdelete, hname, hsrcIp]
  · -- any other action does not read its entry
    unfold applyRecentAction
    rw [haction, hname]
    split
    · contradiction
    · rfl
    · contradiction
    · rfl

end Recent

section Messages
variable {m : Message}

/-- A message of the master that the codec leaves as it is. -/
def Message.Portable : Message → Prop
  | .http a => a.Portable
  | .recent a => XtRecentActionParser.Canonical a

def Message.packet : Message → Packet
  | .http a => .http a
  | .recent a => .recent a

/-- What goes out on a socket for a message. -/
def Message.bytes (m : Message) : Bytes :=
  match PktParser.serialize m.packet with
  | .ok (some (out,_)) => out
  | _ => []

/-- The switch of the backup's run loop, on a packet of its queue. -/
def BaseSync.handlePacket (d : BaseSync) : Packet → BaseSync
  | .http a => d.apply (.http a)
  | .recent a => d.apply (.recent a)
  | .conn _ => d

theorem Message.Portable.sendable (h : m.Portable) : PktParser.Sendable m.packet := by
  cases m with
  | http a => exact ⟨h.type,h.fits⟩
  | recent a =>
    have h : XtRecentActionParser.Canonical a := h
    exact ⟨h.type,h.fits⟩

/-- The backup does with the packet what the master did with the message. -/
theorem Message.Portable.handlePacket (h : m.Portable) (d : BaseSync) (fd : Int) :
    d.handlePacket ((PktParser.received m.packet).withFd fd) = d.apply m := by
  cases m with
  | http a =>
    have hcarried : HttpParser.Carried a (HttpParser.withLength a (PktParser.sentBytes (.http a)).length) :=
      (HttpParser.carried_iff a _).mpr (.inr h.ids)
    have hdata := applyHttpAction_carried hcarried h.backendId d.httpSessionData
    exact congrArg (fun httpSessionData => { d with httpSessionData }) hdata
  | recent a =>
    have h : XtRecentActionParser.Canonical a := h
    have hdata := applyRecentAction_carried (h.carried (BasePktParser.received a.toConnPacket
      (UInt32.ofNat (PktParser.sentBytes (.recent a)).length))) d.recentData
    exact congrArg (fun recentData => { d with recentData }) hdata

end Messages

namespace SyncMaster

theorem canonical_withFd {a : XtRecentAction} (h : XtRecentActionParser.Canonical a) (fd : Int) :
    XtRecentActionParser.Canonical { a with fd } :=
  ⟨h.type,h.srcIp,h.index,h.ttl,h.timestamps,h.name,h.nulFree⟩

/-- What may stand in the queue of the HTTP listener. -/
def Passable (pkt : HttpAction) : Prop :=
  pkt.farmName.length ≤ 255 ∧ (IsMarker pkt ∨ pkt.Portable)

/-- Where the run loop stands, it is to send portable actions only. -/
def PortablePc : MasterPc → Prop
  | .handleRecentSync _ _ rest => ∀ a ∈ rest, XtRecentActionParser.Canonical a
  | .handleHttpSync _ _ rest => ∀ a ∈ rest, a.Portable
  | .clearFarms rest => ∀ farm ∈ rest, farm.length ≤ 255
  | _ => True

structure PortableState (s : SyncMaster) : Prop where
  data : PortableData s.httpSessionData
  entries : PortableEntries s.recentData
  httpInput : ∀ pkt ∈ s.httpInput, Passable pkt
  recentInput : ∀ pkt ∈ s.recentInput, XtRecentActionParser.Canonical pkt
  sent : ∀ c, ∀ m ∈ s.sent c, m.Portable
  pc : PortablePc s.pc

section Run
variable {s : SyncMaster}

/-- The loop goes on with nothing to send. -/
theorem PortableState.goto (h : s.PortableState) {pc : MasterPc} (hpc : PortablePc pc) :
    PortableState { s with pc } :=
  ⟨h.data,h.entries,h.httpInput,h.recentInput,h.sent,hpc⟩

theorem PortableState.send (h : s.PortableState) (sends : Int → Bool) {m : Message} (hm : m.Portable) :
    (s.sendPacket sends m).1.PortableState := by
  obtain ⟨sent',heq,hsends⟩ := sendPacket_spec s sends m
  rw [heq]
  refine ⟨h.data,h.entries,h.httpInput,h.recentInput,fun c m' hm' => ?_,h.pc⟩
  have hm' : m' ∈ sent' c := hm'
  rcases hsends.one c with hc | ⟨hc,-⟩
  · exact h.sent c m' (hc ▸ hm')
  · rcases List.mem_append.mp (hc ▸ hm') with hold | hnew
    · exact h.sent c m' hold
    · exact List.mem_singleton.mp hnew ▸ hm

theorem PortableState.startHttpSync (h : s.PortableState) (fd : Int) (conn : Conn) :
    (s.startHttpSync fd conn).PortableState := by
  unfold SyncMaster.startHttpSync
  split
  · refine h.goto fun a ha => ?_
    obtain ⟨b,hb,rfl⟩ := List.mem_map.mp ha
    exact (h.data.requests hb).withFd fd
  · exact ⟨h.data,h.entries,h.httpInput,h.recentInput,h.sent,trivial⟩

theorem PortableState.startSync (h : s.PortableState) (fd : Int) (conn : Conn) :
    (s.startSync fd conn).PortableState := by
  unfold SyncMaster.startSync
  split
  · refine h.goto fun a ha => ?_
    obtain ⟨b,hb,rfl⟩ := List.mem_map.mp ha
    exact canonical_withFd (h.entries.requests hb) fd
  · exact h.startHttpSync fd conn

theorem PortableState.handleRequest (h : s.PortableState) (req : Request) :
    (s.handleRequest req).PortableState := by
  unfold SyncMaster.handleRequest
  split
  · exact ⟨h.data,h.entries,h.httpInput,h.recentInput,h.sent,h.pc⟩
  · exact ⟨h.data,h.entries,h.httpInput,h.recentInput,h.sent,h.pc⟩
  · exact h.startSync req.fd req.conn
  · exact h

theorem PortableState.startRecentItems (h : s.PortableState) : s.startRecentItems.PortableState := by
  unfold SyncMaster.startRecentItems
  split <;> exact h.goto trivial

theorem PortableState.startItems (h : s.PortableState) : s.startItems.PortableState := by
  unfold SyncMaster.startItems
  split
  · refine h.goto fun farm hfarm => h.data.farms farm ?_
    exact Std.ExtTreeMap.mem_keys.mp hfarm
  · split
    · exact h.goto trivial
    · exact PortableState.startRecentItems ⟨h.data,h.entries,h.httpInput,h.recentInput,h.sent,h.pc⟩

theorem PortableState.httpItem (h : s.PortableState) (sends : Int → Bool) (maxItems : ℕ)
    {pkt : HttpAction} (hpkt : Passable pkt) : (s.httpItem sends maxItems pkt).PortableState := by
  unfold SyncMaster.httpItem
  split
  · have hsent := h.send sends (m := .http (clearRequest pkt.farmName)) (portable_clearRequest hpkt.1)
    exact ⟨hsent.data.clearFarm pkt.farmName,hsent.entries,hsent.httpInput,hsent.recentInput,hsent.sent,hsent.pc⟩
  · next hmarker =>
    have hportable := hpkt.2.resolve_left hmarker
    have happlied : PortableState { s with
        toBaseSync := s.toBaseSync.apply (.http pkt), pc := .httpItems (maxItems+1) } :=
      ⟨h.data.apply hportable,h.entries,h.httpInput,h.recentInput,h.sent,trivial⟩
    dsimp only
    split
    · exact happlied.send sends (m := .http { pkt with fd := -1 }) (hportable.withFd (-1))
    · exact happlied

theorem PortableState.recentItem (h : s.PortableState) (sends : Int → Bool) (maxItems : ℕ)
    {pkt : XtRecentAction} (hpkt : XtRecentActionParser.Canonical pkt) :
    (s.recentItem sends maxItems pkt).PortableState := by
  have happlied : PortableState { s with
      toBaseSync := s.toBaseSync.apply (.recent pkt), pc := .recentItems (maxItems+1) } :=
    ⟨h.data,h.entries.apply hpkt,h.httpInput,h.recentInput,h.sent,trivial⟩
  unfold SyncMaster.recentItem
  dsimp only
  split
  · exact happlied.send sends (m := .recent pkt) hpkt
  · exact happlied

theorem PortableState.run (h : s.PortableState) (sends : Int → Bool) : (s.run sends).PortableState := by
  have hpc := h.pc
  unfold SyncMaster.run
  split
  · split
    · next req rest _ =>
      have hrest : PortableState { s with inputPacketQueue := rest } := ⟨h.data,h.entries,h.httpInput,h.recentInput,h.sent,h.pc⟩
      exact hrest.handleRequest req
    · split
      · exact ⟨h.data,h.entries,h.httpInput,h.recentInput,h.sent,h.pc⟩
      · exact h.startItems
  · exact h.startHttpSync _ _
  · next xaction rest heq =>
    rw [heq] at hpc
    have hsent := h.send sends (m := .recent xaction) (hpc xaction (List.mem_cons_self ..))
    dsimp only
    split
    · exact hsent.goto fun a ha => hpc a (List.mem_cons_of_mem _ ha)
    · exact hsent.startHttpSync _ _
  · exact ⟨h.data,h.entries,h.httpInput,h.recentInput,h.sent,trivial⟩
  · next action rest heq =>
    rw [heq] at hpc
    have hsent := h.send sends (m := .http action) (hpc action (List.mem_cons_self ..))
    exact hsent.goto fun a ha => hpc a (List.mem_cons_of_mem _ ha)
  · exact PortableState.startRecentItems ⟨portableData_empty,h.entries,h.httpInput,h.recentInput,
      h.sent,h.pc⟩
  · next farmName rest heq =>
    rw [heq] at hpc
    have hsent := h.send sends (m := .http (clearRequest farmName))
      (portable_clearRequest (hpc farmName (List.mem_cons_self ..)))
    exact hsent.goto fun farm hfarm => hpc farm (List.mem_cons_of_mem _ hfarm)
  · split
    · exact PortableState.startRecentItems ⟨h.data,h.entries,h.httpInput,h.recentInput,h.sent,h.pc⟩
    · split
      · exact PortableState.startRecentItems ⟨h.data,h.entries,h.httpInput,h.recentInput,h.sent,h.pc⟩
      · next pkt rest heq =>
        have hrest : PortableState { s with httpInput := rest } :=
          ⟨h.data,h.entries,fun p hp => h.httpInput p (heq ▸ List.mem_cons_of_mem _ hp),h.recentInput,
            h.sent,h.pc⟩
        exact hrest.httpItem sends _ (h.httpInput pkt (heq ▸ List.mem_cons_self ..))
  · split
    · exact ⟨h.data,h.entries,h.httpInput,h.recentInput,h.sent,trivial⟩
    · split
      · exact h.goto trivial
      · next pkt rest heq =>
        have hrest : PortableState { s with recentInput := rest } :=
          ⟨h.data,h.entries,h.httpInput,fun p hp => h.recentInput p (heq ▸ List.mem_cons_of_mem _ hp),
            h.sent,h.pc⟩
        exact hrest.recentItem sends _ (h.recentInput pkt (heq ▸ List.mem_cons_self ..))

/-- What the listeners may put into their queues. -/
def Accepted : MasterEvent → Prop
  | .enqueueHttp pkt => Passable pkt
  | .enqueueRecent pkt => XtRecentActionParser.Canonical pkt
  | _ => True

theorem PortableState.step (h : s.PortableState) {e : MasterEvent} (he : Accepted e) {s' : SyncMaster}
    (hs : s.step e = some s') : s'.PortableState := by
  cases e with
  | run sends =>
    obtain rfl := Option.some.inj hs
    exact h.run sends
  | enqueueHttp pkt =>
    obtain rfl := Option.some.inj hs
    refine ⟨h.data,h.entries,fun p hp => ?_,h.recentInput,h.sent,h.pc⟩
    rcases List.mem_append.mp hp with hold | hnew
    · exact h.httpInput p hold
    · exact List.mem_singleton.mp hnew ▸ he
  | enqueueRecent pkt =>
    simp only [SyncMaster.step] at hs
    split at hs
    · obtain rfl := Option.some.inj hs
      refine ⟨h.data,h.entries,h.httpInput,fun p hp => ?_,h.sent,h.pc⟩
      rcases List.mem_append.mp hp with hold | hnew
      · exact h.recentInput p hold
      · exact List.mem_singleton.mp hnew ▸ he
    · contradiction
  | stopRecentSync =>
    obtain rfl := Option.some.inj hs
    exact ⟨h.data,h.entries,h.httpInput,h.recentInput,h.sent,h.pc⟩
  | startRecentSync =>
    obtain rfl := Option.some.inj hs
    exact ⟨h.data,portableEntries_empty,h.httpInput,h.recentInput,h.sent,h.pc⟩
  | accept fd =>
    simp only [SyncMaster.step] at hs
    split at hs
    · obtain rfl := Option.some.inj hs
      exact ⟨h.data,h.entries,h.httpInput,h.recentInput,h.sent,h.pc⟩
    · contradiction
  | close fd =>
    simp only [SyncMaster.step] at hs
    split at hs
    · obtain rfl := Option.some.inj hs
      exact ⟨h.data,h.entries,h.httpInput,h.recentInput,h.sent,h.pc⟩
    · contradiction
  | receive fd type =>
    simp only [SyncMaster.step] at hs
    split at hs
    · split at hs
      · obtain rfl := Option.some.inj hs
        exact ⟨h.data,h.entries,h.httpInput,h.recentInput,h.sent,h.pc⟩
      · contradiction
    · contradiction

end Run

end SyncMaster

section Listened
open HttpSync FarmSocket

/-- An item that the HTTP listener has queued: a farm's marker, or what came over the connection of a
farm whose balancer sends packets of this codec, in any pieces. -/
inductive Listened : HttpAction → Prop
  | marker {type : PacketType} {farmName : Bytes} {fd : ℕ} (h : type = .connect ∨ type = .disconnect)
      (hfarm : farmName.length ≤ 255) : Listened (farmMarker type farmName fd)
  | read {farmName : Bytes} {fd : ℕ} {buffer : Memory} {actions : List HttpAction} {wakes : List Wake}
      {s : FarmSocket} {pkt : HttpAction} (hfarm : farmName.length ≤ 255)
      (hsent : ∀ a ∈ actions, a.type = .named .httpSync ∧ HttpParser.Fits a)
      (hfits : Runs.Meets (fun r w => some (Reading.wake r w)) Reading.Fits {} wakes)
      (hpart : wakes.flatMap Wake.received <+: actions.flatMap HttpParser.sentBytes)
      (hrun : Runs.run listenTask (added farmName fd buffer) wakes = some s)
      (hqueued : pkt ∈ s.inputData) : Listened pkt

theorem passable_marker {type : PacketType} (h : type = .connect ∨ type = .disconnect) {farmName : Bytes}
    (hfarm : farmName.length ≤ 255) (fd : ℕ) : SyncMaster.Passable (farmMarker type farmName fd) := by
  refine ⟨hfarm,.inl ?_⟩
  rcases h with rfl | rfl
  · exact .inl rfl
  · exact .inr rfl

theorem passable_queued {farmName : Bytes} (hfarm : farmName.length ≤ 255) (fd : ℕ) {a : HttpAction}
    (h : HttpParser.Fits a) :
    SyncMaster.Passable (queuedAs farmName fd (HttpParser.arrived a)) := by
  have harrived := portable_arrived h
  exact ⟨hfarm,.inr ⟨harrived.type,⟨hfarm,harrived.fits.key,harrived.fits.content⟩,
    ⟨harrived.ids.listener,harrived.ids.service,harrived.ids.backend⟩,harrived.backendId⟩⟩

theorem Listened.passable {pkt : HttpAction} (h : Listened pkt) : SyncMaster.Passable pkt := by
  cases h with
  | marker h hfarm => exact passable_marker h hfarm _
  | @read farmName fd buffer actions wakes s _ hfarm hsent hfits hpart hrun hqueued =>
    obtain ⟨-,hread⟩ := @Reading.read_part {} wakes _ List.nil_prefix fun _ => hpart
    obtain ⟨hs,rfl,rfl⟩ := Runs.run_follows Follows.step Follows.fault
      ⟨holds_added farmName fd buffer,rfl,rfl⟩ hfits hrun
    obtain ⟨sent,pending,rest,rfl,-,hdrains,-,-⟩ := drains_sent hsent hread
    obtain ⟨values,rest',hdrains',hqueue,-⟩ := hs.queued
    obtain ⟨rfl,-⟩ := hdrains'.unique hdrains
    rw [hqueue] at hqueued
    rcases List.mem_append.mp hqueued with hvalue | hmarker
    · obtain ⟨b,hb,rfl⟩ := List.mem_map.mp hvalue
      obtain ⟨a,ha,rfl⟩ := List.mem_map.mp hb
      exact passable_queued hfarm s.fd (hsent a (List.mem_append_left _ ha)).2
    · split at hmarker
      · exact absurd hmarker List.not_mem_nil
      · obtain rfl := List.mem_singleton.mp hmarker
        exact passable_marker (.inr rfl) hfarm s.fd

end Listened

/-- The stores of a backup, from empty ones, once it has taken every packet out of its queue. -/
def NodeSocket.stores (socket : NodeSocket) : BaseSync :=
  socket.inputPacketQueue.foldl BaseSync.handlePacket {}

section Takeover
open SyncMaster NodeSocket

/-- A step with no control command and no failed send, in which only listeners put items into the queues. -/
structure Heard (s : SyncMaster) (e : MasterEvent) : Prop where
  undisturbed : s.Undisturbed e
  http : ∀ pkt, e = .enqueueHttp pkt → Listened pkt
  recent : ∀ pkt, e = .enqueueRecent pkt → XtRecentActionParser.Canonical pkt

theorem Heard.accepted {s : SyncMaster} {e : MasterEvent} (h : Heard s e) : Accepted e := by
  cases e with
  | enqueueHttp pkt => exact (h.http pkt rfl).passable
  | enqueueRecent pkt => exact h.recent pkt rfl
  | accept | receive | close | run | stopRecentSync | startRecentSync => trivial

variable {s : SyncMaster} {fd : Int} {c : Conn} {events : List EpollEvent} {fuel : ℕ}

end Takeover

end Ssyncd
