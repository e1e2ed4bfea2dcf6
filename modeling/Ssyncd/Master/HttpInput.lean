import Ssyncd.Master.Steps

/-! What the run loop does with the queue of the HTTP listener, and with the sessions. -/
namespace Ssyncd
namespace SyncMaster
open Http

/-- The two types that a farm's markers have. -/
def IsMarker (pkt : HttpAction) : Prop := pkt.type = .named .connect ∨ pkt.type = .named .disconnect

instance (pkt : HttpAction) : Decidable (IsMarker pkt) := inferInstanceAs (Decidable (_ ∨ _))

/-- What the sessions are once an item has been taken. -/
def consumed (data : HttpSessionData) (pkt : HttpAction) : HttpSessionData :=
  if IsMarker pkt then clearHttpFarmData data pkt.farmName else applyHttpAction data pkt

/-- The queue and the sessions are as before. -/
structure HttpSame (s s' : SyncMaster) : Prop where
  httpInput : s'.httpInput = s.httpInput
  httpSessionData : s'.httpSessionData = s.httpSessionData

theorem HttpSame.trans {s s' s'' : SyncMaster} (h : HttpSame s s') (h' : HttpSame s' s'') :
    HttpSame s s'' :=
  ⟨h'.httpInput.trans h.httpInput,h'.httpSessionData.trans h.httpSessionData⟩

theorem sendPacket_http (s : SyncMaster) (sends : Int → Bool) (m : Message) :
    HttpSame s (s.sendPacket sends m).1 := by
  obtain ⟨sent',heq,-⟩ := sendPacket_spec s sends m
  rw [heq]
  exact ⟨rfl,rfl⟩

theorem startHttpSync_http (s : SyncMaster) (fd : Int) (conn : Conn) :
    HttpSame s (s.startHttpSync fd conn) := by
  unfold startHttpSync
  split <;> exact ⟨rfl,rfl⟩

theorem startSync_http (s : SyncMaster) (fd : Int) (conn : Conn) :
    HttpSame s (s.startSync fd conn) := by
  unfold startSync
  split
  · exact ⟨rfl,rfl⟩
  · exact startHttpSync_http s fd conn

theorem handleRequest_http (s : SyncMaster) (req : Request) : HttpSame s (s.handleRequest req) := by
  unfold handleRequest
  split
  · exact ⟨rfl,rfl⟩
  · exact ⟨rfl,rfl⟩
  · exact startSync_http s req.fd req.conn
  · exact ⟨rfl,rfl⟩

theorem startRecentItems_http (s : SyncMaster) : HttpSame s s.startRecentItems := by
  unfold startRecentItems
  split <;> exact ⟨rfl,rfl⟩

theorem startItems_http (s : SyncMaster) : HttpSame s s.startItems := by
  unfold startItems
  split
  · exact ⟨rfl,rfl⟩
  · split
    · exact ⟨rfl,rfl⟩
    · exact { startRecentItems_http { s with wait := true } with }

theorem recentItem_http (s : SyncMaster) (sends : Int → Bool) (maxItems : ℕ)
    (pkt : Recent.XtRecentAction) : HttpSame s (s.recentItem sends maxItems pkt) := by
  unfold recentItem
  dsimp only
  split
  · exact { sendPacket_http { s with
      toBaseSync := s.toBaseSync.apply (.recent pkt)
      pc := .recentItems (maxItems+1) } sends (.recent pkt) with }
  · exact ⟨rfl,rfl⟩

theorem httpItem_http (s : SyncMaster) (sends : Int → Bool) (maxItems : ℕ) (pkt : HttpAction) :
    (s.httpItem sends maxItems pkt).httpInput = s.httpInput ∧
      (s.httpItem sends maxItems pkt).httpSessionData = consumed s.httpSessionData pkt := by
  unfold httpItem
  split
  · next hmarker =>
    have hmarker : IsMarker pkt := hmarker
    have hsame := sendPacket_http s sends (.http (clearRequest pkt.farmName))
    rw [consumed, if_pos hmarker]
    exact ⟨hsame.httpInput,congrArg (clearHttpFarmData · pkt.farmName) hsame.httpSessionData⟩
  · next hmarker =>
    have hmarker : ¬IsMarker pkt := hmarker
    rw [consumed, if_neg hmarker]
    dsimp only
    split
    · have hsame := sendPacket_http { s with
        toBaseSync := s.toBaseSync.apply (.http pkt)
        pc := .httpItems (maxItems+1) } sends (.http { pkt with fd := -1 })
      exact ⟨hsame.httpInput,hsame.httpSessionData⟩
    · exact ⟨rfl,rfl⟩

/-- One step of the run loop leaves queue and sessions alone, drops all sessions once the
listener is down, or takes the first item. -/
theorem run_http (s : SyncMaster) (sends : Int → Bool) :
    ((s.run sends).httpInput = s.httpInput ∧
      ((s.run sends).httpSessionData = s.httpSessionData ∨ (s.run sends).httpSessionData = ∅)) ∨
    ∃ pkt, s.httpInput = pkt::(s.run sends).httpInput ∧
      (s.run sends).httpSessionData = consumed s.httpSessionData pkt := by
  suffices h : HttpSame s (s.run sends) ∨
      ((s.run sends).httpInput = s.httpInput ∧ (s.run sends).httpSessionData = ∅) ∨
      ∃ pkt, s.httpInput = pkt::(s.run sends).httpInput ∧
        (s.run sends).httpSessionData = consumed s.httpSessionData pkt by
    rcases h with h | h | h
    · exact .inl ⟨h.httpInput,.inl h.httpSessionData⟩
    · exact .inl ⟨h.1,.inr h.2⟩
    · exact .inr h
  have hsend := fun m => sendPacket_http s sends m
  unfold run
  split
  · split
    · next req rest hq =>
      exact .inl { handleRequest_http { s with inputPacketQueue := rest } req with }
    · split
      · exact .inl ⟨rfl,rfl⟩
      · exact .inl (startItems_http s)
  · exact .inl (startHttpSync_http s _ _)
  · next xaction rest hpc =>
    dsimp only
    split
    · exact .inl ⟨(hsend _).httpInput,(hsend _).httpSessionData⟩
    · exact .inl ((hsend (.recent xaction)).trans (startHttpSync_http _ _ _))
  · exact .inl ⟨rfl,rfl⟩
  · exact .inl ⟨(hsend _).httpInput,(hsend _).httpSessionData⟩
  · have hsame := startRecentItems_http { s with httpSessionData := ∅, wait := true }
    exact .inr (.inl ⟨hsame.httpInput,hsame.httpSessionData⟩)
  · exact .inl ⟨(hsend _).httpInput,(hsend _).httpSessionData⟩
  · split
    · have hsame := startRecentItems_http { s with wait := false }
      exact .inl ⟨hsame.httpInput,hsame.httpSessionData⟩
    · split
      · have hsame := startRecentItems_http { s with wait := true }
        exact .inl ⟨hsame.httpInput,hsame.httpSessionData⟩
      · next pkt rest hi =>
        obtain ⟨hinput,hdata⟩ := httpItem_http { s with httpInput := rest } sends _ pkt
        exact .inr (.inr ⟨pkt,by rw [hi, hinput],hdata⟩)
  · split
    · exact .inl ⟨rfl,rfl⟩
    · split
      · exact .inl ⟨rfl,rfl⟩
      · next pkt rest hi =>
        exact .inl { recentItem_http { s with recentInput := rest } sends _ pkt with }

end SyncMaster
end Ssyncd
