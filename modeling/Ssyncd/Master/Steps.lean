import Ssyncd.Master.Nodes

/-! What a send does, and what the run loop's steps leave alone. -/
namespace Ssyncd
namespace SyncMaster

theorem connected_of_mem_toList {nodes : Nodes} {node : Int × Conn} (h : node ∈ nodes.toList) :
    Connected nodes node.2 :=
  ⟨node.1,Std.ExtTreeMap.mem_toList_iff_getElem?_eq_some.mp h⟩

theorem reached_of_sendsSucceed {s : SyncMaster} {sends : Int → Bool} (h : s.SendsSucceed sends) :
    s.reached sends = s.connectedNodes.toList := by
  refine List.takeWhile_eq_self_iff.mpr fun node hnode => h node.1 ?_
  rw [Std.ExtTreeMap.mem_iff_isSome_getElem?,
    Std.ExtTreeMap.mem_toList_iff_getElem?_eq_some.mp hnode]
  rfl

/-- Messages go out on connections only. -/
structure Sends (nodes : Nodes) (sent sent' : Conn → List Message) (m : Message) : Prop where
  one : ∀ c, sent' c = sent c ∨ sent' c = sent c ++ [m] ∧ Connected nodes c

/-- A send changes nothing but the messages sent. -/
theorem sendPacket_spec (s : SyncMaster) (sends : Int → Bool) (m : Message) :
    ∃ sent', (s.sendPacket sends m).1 = { s with sent := sent' } ∧
      Sends s.connectedNodes s.sent sent' m := by
  unfold sendPacket
  split
  · exact ⟨s.sent,rfl,⟨fun _ => .inl rfl⟩⟩
  · split
    · refine ⟨_,rfl,⟨fun c => ?_⟩⟩
      split
      · next h =>
        obtain ⟨node,hnode,hc⟩ := List.any_eq_true.mp h
        have hmem := (List.takeWhile_sublist _).subset hnode
        exact .inr ⟨rfl,beq_iff_eq.mp hc ▸ connected_of_mem_toList hmem⟩
      · exact .inl rfl
    · split
      · exact ⟨s.sent,rfl,⟨fun _ => .inl rfl⟩⟩
      · split
        · next node hnode =>
          refine ⟨_,rfl,⟨fun c => ?_⟩⟩
          split
          · next h => exact .inr ⟨rfl,m.fd,h ▸ hnode⟩
          · exact .inl rfl
        · exact ⟨s.sent,rfl,⟨fun _ => .inl rfl⟩⟩

/-- A broadcast reaches every connected node. -/
theorem sendPacket_broadcast {s : SyncMaster} {sends : Int → Bool} (hok : s.SendsSucceed sends)
    {m : Message} (hfd : m.fd = -1) :
    ∃ sent', (s.sendPacket sends m).1 = { s with sent := sent' } ∧
      Sends s.connectedNodes s.sent sent' m ∧
      ∀ c, Connected s.connectedNodes c → sent' c = s.sent c ++ [m] := by
  obtain ⟨sent',he,hs⟩ := sendPacket_spec s sends m
  refine ⟨sent',he,hs,fun c hcon => ?_⟩
  obtain ⟨fd,hc⟩ := hcon
  have hsent : (s.sendPacket sends m).1.sent c = sent' c := by rw [he]
  rw [← hsent, sendPacket, if_neg (not_isEmpty_of_connected hc), if_pos hfd,
    reached_of_sendsSucceed hok]
  refine if_pos (List.any_eq_true.mpr ?_)
  exact ⟨(fd,c),Std.ExtTreeMap.mem_toList_iff_getElem?_eq_some.mpr hc,beq_self_eq_true c⟩

/-- A send to the descriptor of a connected node succeeds and goes to that node. -/
theorem sendPacket_to {s : SyncMaster} {sends : Int → Bool} (hok : s.SendsSucceed sends)
    {m : Message} {c : Conn} (hfd : m.fd ≠ -1) (hc : s.connectedNodes[m.fd]? = some c) :
    ∃ sent', s.sendPacket sends m = ({ s with sent := sent' },true) ∧
      sent' c = s.sent c ++ [m] := by
  have hmem : m.fd ∈ s.connectedNodes := by
    rw [Std.ExtTreeMap.mem_iff_isSome_getElem?, hc]
    rfl
  unfold sendPacket
  rw [if_neg (not_isEmpty_of_connected hc), if_neg hfd, hok _ hmem, hc]
  exact ⟨_,rfl,if_pos rfl⟩

theorem Sends.grows {nodes : Nodes} {sent sent' : Conn → List Message} {m : Message}
    (h : Sends nodes sent sent' m) (c : Conn) : sent c <+: sent' c := by
  rcases h.one c with heq | ⟨heq,-⟩
  · exact heq ▸ List.prefix_rfl
  · exact heq ▸ List.prefix_append _ _

/-- Nodes, numbers, the entries and the two input queues are as before, and messages are sent
at most. -/
structure Frame (s s' : SyncMaster) : Prop where
  connectedNodes : s'.connectedNodes = s.connectedNodes
  nextConn : s'.nextConn = s.nextConn
  inputPacketQueue : s'.inputPacketQueue = s.inputPacketQueue
  recentInput : s'.recentInput = s.recentInput
  recentData : s'.recentData = s.recentData
  recentRunning : s'.recentRunning = s.recentRunning
  sent : ∀ c, s.sent c <+: s'.sent c

theorem Frame.refl (s : SyncMaster) : Frame s s :=
  ⟨rfl,rfl,rfl,rfl,rfl,rfl,fun _ => List.prefix_rfl⟩

theorem Frame.trans {s s' s'' : SyncMaster} (h : Frame s s') (h' : Frame s' s'') : Frame s s'' :=
  ⟨h'.connectedNodes.trans h.connectedNodes,h'.nextConn.trans h.nextConn,
    h'.inputPacketQueue.trans h.inputPacketQueue,h'.recentInput.trans h.recentInput,
    h'.recentData.trans h.recentData,h'.recentRunning.trans h.recentRunning,
    fun c => (h.sent c).trans (h'.sent c)⟩

theorem sendPacket_frame (s : SyncMaster) (sends : Int → Bool) (m : Message) :
    Frame s (s.sendPacket sends m).1 := by
  obtain ⟨sent',he,hs⟩ := sendPacket_spec s sends m
  rw [he]
  exact { Frame.refl s with sent := hs.grows }

theorem startHttpSync_frame (s : SyncMaster) (fd : Int) (conn : Conn) :
    Frame s (s.startHttpSync fd conn) := by
  unfold startHttpSync
  split <;> exact { Frame.refl s with }

theorem startSync_frame (s : SyncMaster) (fd : Int) (conn : Conn) :
    Frame s (s.startSync fd conn) := by
  unfold startSync
  split
  · exact { Frame.refl s with }
  · exact startHttpSync_frame s fd conn

theorem handleRequest_frame (s : SyncMaster) (req : Request) : Frame s (s.handleRequest req) := by
  unfold handleRequest
  split
  · exact { Frame.refl s with }
  · exact { Frame.refl s with }
  · exact startSync_frame s req.fd req.conn
  · exact { Frame.refl s with }

theorem startRecentItems_frame (s : SyncMaster) : Frame s s.startRecentItems := by
  unfold startRecentItems
  split <;> exact { Frame.refl s with }

theorem startItems_frame (s : SyncMaster) : Frame s s.startItems := by
  unfold startItems
  split
  · exact { Frame.refl s with }
  · split
    · exact { Frame.refl s with }
    · exact { startRecentItems_frame { s with wait := true } with }

theorem httpItem_frame (s : SyncMaster) (sends : Int → Bool) (maxItems : ℕ)
    (pkt : Http.HttpAction) : Frame s (s.httpItem sends maxItems pkt) := by
  unfold httpItem
  split
  · exact { sendPacket_frame s sends _ with }
  · dsimp only
    split
    · exact { sendPacket_frame { s with
        toBaseSync := s.toBaseSync.apply (.http pkt)
        pc := .httpItems (maxItems+1) } sends _ with }
    · exact { Frame.refl s with }

theorem recentItem_frame (s : SyncMaster) (sends : Int → Bool) (maxItems : ℕ)
    (pkt : Recent.XtRecentAction) :
    Frame { s with toBaseSync := s.toBaseSync.apply (.recent pkt) }
      (s.recentItem sends maxItems pkt) := by
  unfold recentItem
  dsimp only
  split
  · exact { sendPacket_frame { s with
      toBaseSync := s.toBaseSync.apply (.recent pkt)
      pc := .recentItems (maxItems+1) } sends _ with }
  · exact { Frame.refl { s with toBaseSync := s.toBaseSync.apply (.recent pkt) } with }

/-- The run loop takes its input from the front and knows nothing of accepts and closes; the
entries change by the actions that are taken. -/
structure RunFrame (s s' : SyncMaster) : Prop where
  connectedNodes : s'.connectedNodes = s.connectedNodes
  nextConn : s'.nextConn = s.nextConn
  inputPacketQueue : s'.inputPacketQueue <:+ s.inputPacketQueue
  recent : s'.recentInput = s.recentInput ∧ s'.recentData = s.recentData ∨
    ∃ pkt, s.recentInput = pkt::s'.recentInput ∧
      s'.recentData = Recent.applyRecentAction s.recentData pkt
  recentRunning : s'.recentRunning = s.recentRunning
  sent : ∀ c, s.sent c <+: s'.sent c

theorem RunFrame.recentInput {s s' : SyncMaster} (h : RunFrame s s') :
    s'.recentInput <:+ s.recentInput := by
  rcases h.recent with ⟨heq,-⟩ | ⟨pkt,heq,-⟩
  · exact heq ▸ List.suffix_rfl
  · exact heq ▸ List.suffix_cons pkt _

theorem Frame.runFrame {s s' : SyncMaster} (h : Frame s s') : RunFrame s s' :=
  ⟨h.connectedNodes,h.nextConn,h.inputPacketQueue ▸ List.suffix_rfl,.inl ⟨h.recentInput,h.recentData⟩,
    h.recentRunning,h.sent⟩

theorem Frame.pop {s s' : SyncMaster} {req : Request} {rest : List Request}
    (hq : s.inputPacketQueue = req::rest) (h : Frame { s with inputPacketQueue := rest } s') :
    RunFrame s s' where
  connectedNodes := h.connectedNodes
  nextConn := h.nextConn
  inputPacketQueue := by
    rw [h.inputPacketQueue, hq]
    exact List.suffix_cons req rest
  recent := .inl ⟨h.recentInput,h.recentData⟩
  recentRunning := h.recentRunning
  sent := h.sent

/-- An action is taken and applied. -/
theorem Frame.popRecent {s s' : SyncMaster} {pkt : Recent.XtRecentAction}
    {rest : List Recent.XtRecentAction} (hi : s.recentInput = pkt::rest)
    (h : Frame { s with
      recentInput := rest
      toBaseSync := s.toBaseSync.apply (.recent pkt) } s') : RunFrame s s' where
  connectedNodes := h.connectedNodes
  nextConn := h.nextConn
  inputPacketQueue := h.inputPacketQueue ▸ List.suffix_rfl
  recent := .inr ⟨pkt,by rw [hi, h.recentInput],h.recentData⟩
  recentRunning := h.recentRunning
  sent := h.sent

theorem run_frame (s : SyncMaster) (sends : Int → Bool) : RunFrame s (s.run sends) := by
  have hsend := fun m => sendPacket_frame s sends m
  unfold run
  split
  · split
    · next req rest hq => exact (handleRequest_frame _ req).pop hq
    · split
      · exact { (Frame.refl s).runFrame with }
      · exact (startItems_frame s).runFrame
  · exact (startHttpSync_frame s _ _).runFrame
  · next xaction rest hpc =>
    dsimp only
    split
    · exact { (hsend (.recent xaction)).runFrame with }
    · exact ((hsend (.recent xaction)).trans (startHttpSync_frame _ _ _)).runFrame
  · exact { (Frame.refl s).runFrame with }
  · next action rest hpc => exact { (hsend (.http action)).runFrame with }
  · exact { (startRecentItems_frame { s with httpSessionData := ∅, wait := true }).runFrame with }
  · next farmName rest hpc => exact { (hsend (.http (Http.clearRequest farmName))).runFrame with }
  · split
    · exact { (startRecentItems_frame { s with wait := false }).runFrame with }
    · split
      · exact { (startRecentItems_frame { s with wait := true }).runFrame with }
      · next pkt rest hi =>
        exact { (httpItem_frame { s with httpInput := rest } sends _ pkt).runFrame with }
  · split
    · exact { (Frame.refl s).runFrame with }
    · split
      · exact { (Frame.refl s).runFrame with }
      · next pkt rest hi =>
        exact Frame.popRecent hi
          { recentItem_frame { s with recentInput := rest } sends _ pkt with }

end SyncMaster
end Ssyncd
