import Ssyncd.Master.HttpInput

/-! Both listeners run: what the run loop does with the items of its two queues, batch after batch. -/
namespace Ssyncd
open Http Recent

/-- What the run loop does. The counter of backups, as it is at that moment, is not in the code's
call. -/
inductive Deed
  | apply (m : Message) (backupServersFd : Int)
  | sendPacket (m : Message)
  | clearHttpFarmData (farmName : Bytes)
  | sendPoundAction (farmName : Bytes) (fd : Int)
  | answer (m : Message)
  deriving DecidableEq

/-- The last three fields are not in the code: what the loop has done, and everything that was put
into the two queues. -/
structure RunLoop extends SyncMaster where
  deeds : List Deed := []
  httpEnqueued : List HttpAction := []
  recentEnqueued : List XtRecentAction := []

namespace RunLoop

/-- The top of the loop; what the queues hold then counts as put into them. -/
def start (s : SyncMaster) : RunLoop where
  toSyncMaster := { s with pc := .poll, wait := true, httpRunning := true, recentRunning := true }
  httpEnqueued := s.httpInput
  recentEnqueued := s.recentInput

def sendPacket (l : RunLoop) (sends : Int → Bool) (m : Message) : RunLoop :=
  { l with toSyncMaster := (l.toSyncMaster.sendPacket sends m).1, deeds := l.deeds ++ [.sendPacket m] }

def apply (l : RunLoop) (m : Message) : RunLoop :=
  { l with toBaseSync := l.toBaseSync.apply m, deeds := l.deeds ++ [.apply m l.backupServersFd] }

def clearHttpFarmData (l : RunLoop) (farmName : Bytes) : RunLoop :=
  { l with toBaseSync := l.toBaseSync.clearFarm farmName, deeds := l.deeds ++ [.clearHttpFarmData farmName] }

/-- A SYNC_REQUEST to the farm itself; what it makes the listener enqueue arrives later. -/
def sendPoundAction (l : RunLoop) (farmName : Bytes) (fd : Int) : RunLoop :=
  { l with deeds := l.deeds ++ [.sendPoundAction farmName fd] }

def forward (l : RunLoop) (sends : Int → Bool) (m : Message) : RunLoop :=
  if 0 < l.backupServersFd then l.sendPacket sends m else l

def httpItem (l : RunLoop) (sends : Int → Bool) (maxItems : ℕ) (pkt : HttpAction) : RunLoop :=
  if pkt.type = .named .connect ∨ pkt.type = .named .disconnect then
    let l := (l.sendPacket sends (.http (clearRequest pkt.farmName))).clearHttpFarmData pkt.farmName
    if pkt.type = .named .connect then l.sendPoundAction pkt.farmName pkt.fd else l
  else
    let l := { l with pc := .httpItems (maxItems+1) }
    (l.apply (.http pkt)).forward sends (.http { pkt with fd := -1 })

def recentItem (l : RunLoop) (sends : Int → Bool) (maxItems : ℕ) (pkt : XtRecentAction) : RunLoop :=
  let l := { l with pc := .recentItems (maxItems+1) }
  (l.apply (.recent pkt)).forward sends (.recent pkt)

def startRecentItems (l : RunLoop) : RunLoop :=
  { l with toSyncMaster := l.toSyncMaster.startRecentItems }

/-- One message of a snapshot. -/
def answer (l : RunLoop) (sends : Int → Bool) (m : Message) : RunLoop :=
  { l with toSyncMaster := l.toSyncMaster.run sends, deeds := l.deeds ++ [.answer m] }

/-- One step of the run loop. The exit after a dequeue loses the item that was taken. -/
def run (l : RunLoop) (sends : Int → Bool) : RunLoop :=
  match l.pc with
  | .httpItems maxItems =>
    if maxItems = 10 then { l with wait := false }.startRecentItems
    else
      match l.httpInput with
      | [] => { l with wait := true }.startRecentItems
      | pkt::rest =>
        let l := { l with httpInput := rest }
        if 10 < maxItems then { l with wait := true }.startRecentItems
        else l.httpItem sends maxItems pkt
  | .recentItems maxItems =>
    if maxItems = 10 then { l with wait := false, pc := .poll }
    else
      match l.recentInput with
      | [] => { l with pc := .poll }
      | pkt::rest => { l with recentInput := rest }.recentItem sends maxItems pkt
  | .handleRecentSync _ _ (xaction::_) => l.answer sends (.recent xaction)
  | .handleHttpSync _ _ (action::_) => l.answer sends (.http action)
  | _ => { l with toSyncMaster := l.toSyncMaster.run sends }

end RunLoop

/-- What may happen: a step of the loop, a packet of any type, a change of the connected nodes, and
an item for either queue. -/
inductive LoopEvent
  | run (sends : Int → Bool)
  | packet (req : Request)
  | nodes (connectedNodes : Std.ExtTreeMap Int Conn)
  | enqueueHttp (pkt : HttpAction)
  | enqueueRecent (pkt : XtRecentAction)

namespace RunLoop

def step (l : RunLoop) : LoopEvent → RunLoop
  | .run sends => l.run sends
  | .packet req => { l with inputPacketQueue := l.inputPacketQueue ++ [req] }
  | .nodes connectedNodes => { l with connectedNodes }
  | .enqueueHttp pkt =>
    { l with httpInput := l.httpInput ++ [pkt], httpEnqueued := l.httpEnqueued ++ [pkt] }
  | .enqueueRecent pkt =>
    { l with recentInput := l.recentInput ++ [pkt], recentEnqueued := l.recentEnqueued ++ [pkt] }

end RunLoop

/-- The connected nodes at a moment, and on which descriptors a send succeeds then. -/
structure Network where
  connectedNodes : Std.ExtTreeMap Int Conn
  sends : Int → Bool

/-- A message reaches a connection: a broadcast where neither the send to its node nor one to a node
before it fails, any other where it is to that node and the send does not fail. -/
def Network.Gets (n : Network) (m : Message) (c : Conn) : Prop :=
  ∃ node ∈ n.connectedNodes.toList, node.2 = c ∧ n.sends node.1 = true ∧
    if m.fd = -1 then ∀ other ∈ n.connectedNodes.toList, other.1 < node.1 → n.sends other.1 = true
    else node.1 = m.fd

instance (n : Network) (m : Message) (c : Conn) : Decidable (n.Gets m c) :=
  inferInstanceAs (Decidable (∃ node ∈ n.connectedNodes.toList, node.2 = c ∧ n.sends node.1 = true ∧
    if m.fd = -1 then ∀ other ∈ n.connectedNodes.toList, other.1 < node.1 → n.sends other.1 = true
    else node.1 = m.fd))

/-- What the loop comes to one after another: an item of a queue, with the counter of backups at
that moment, or a message of a snapshot; each with the network as it is then. -/
inductive Item
  | http (pkt : HttpAction) (backupServersFd : Int) (network : Network)
  | recent (pkt : XtRecentAction) (backupServersFd : Int) (network : Network)
  | answer (m : Message) (network : Network)

/-- What a deed sends to the nodes. -/
def Deed.packet? : Deed → Option Message
  | .sendPacket m => some m
  | .answer m => some m
  | _ => none

namespace Item

def network : Item → Network
  | .http _ _ network => network
  | .recent _ _ network => network
  | .answer _ network => network

/-- What is to be done with it: a marker clears its farm everywhere, an action is applied and, where
there are backups, sent to them at once. -/
def deeds : Item → List Deed
  | .http pkt backupServersFd _ =>
    if SyncMaster.IsMarker pkt then
      .sendPacket (.http (clearRequest pkt.farmName))::.clearHttpFarmData pkt.farmName::
        if pkt.type = .named .connect then [.sendPoundAction pkt.farmName pkt.fd] else []
    else
      .apply (.http pkt) backupServersFd::
        if 0 < backupServersFd then [.sendPacket (.http { pkt with fd := -1 })] else []
  | .recent pkt backupServersFd _ =>
    .apply (.recent pkt) backupServersFd::
      if 0 < backupServersFd then [.sendPacket (.recent pkt)] else []
  | .answer m _ => [.answer m]

/-- What a connection gets of it: each message that its deeds send, once, where it reaches the
connection. -/
def packets (item : Item) (c : Conn) : List Message :=
  (item.deeds.filterMap Deed.packet?).filter fun m => item.network.Gets m c

def http? : Item → Option HttpAction
  | .http pkt _ _ => some pkt
  | _ => none

def recent? : Item → Option XtRecentAction
  | .recent pkt _ _ => some pkt
  | _ => none

end Item

/-- What a deed does to the stores. -/
def Deed.act (d : BaseSync) : Deed → BaseSync
  | .apply m _ => d.apply m
  | .clearHttpFarmData farmName => d.clearFarm farmName
  | _ => d

namespace RunLoop

/-- The loop has done what is to be done with these items and nothing else: on every connection exactly
the messages that their deeds send to it have gone out, and the stores are what their deeds make of
them. The items of each queue are the first that were put into it, in their order. -/
structure Processed (l₀ l : RunLoop) (items : List Item) : Prop where
  deeds : l.deeds = items.flatMap Item.deeds
  sent : ∀ c, l.sent c = l₀.sent c ++ items.flatMap fun item => item.packets c
  http : l.httpEnqueued = items.filterMap Item.http? ++ l.httpInput
  recent : l.recentEnqueued = items.filterMap Item.recent? ++ l.recentInput
  stores : l.toBaseSync = l.deeds.foldl Deed.act l₀.toBaseSync

end RunLoop

/-- Both listeners run, and no batch is over its limit. -/
structure SyncMaster.Batched (s : SyncMaster) : Prop where
  httpRunning : s.httpRunning = true
  recentRunning : s.recentRunning = true
  http : ∀ maxItems, s.pc = .httpItems maxItems → maxItems ≤ 10
  clear : ∀ rest, s.pc ≠ .clearFarms rest

namespace SyncMaster

section Gets
variable {s : SyncMaster} {sends : Int → Bool} {m : Message} {c : Conn}

/-- A broadcast reaches the nodes up to the first send that fails. -/
theorem gets_broadcast_iff (h : m.fd = -1) : Network.Gets ⟨s.connectedNodes,sends⟩ m c ↔
    (s.reached sends).any (fun node => node.2 == c) = true := by
  have hordered : s.connectedNodes.toList.Pairwise (·.1 < ·.1) :=
    Std.ExtTreeMap.ordered_keys_toList.imp fun hlt => Std.compare_eq_lt.mp hlt
  have hreached : ∀ node, node ∈ s.reached sends ↔ node ∈ s.connectedNodes.toList ∧
      sends node.1 = true ∧ ∀ other ∈ s.connectedNodes.toList, other.1 < node.1 → sends other.1 = true :=
    Table.mem_takeWhile_of_ordered (fun _ _ h => by omega) hordered
  rw [List.any_eq_true, Network.Gets]
  simp only [h, if_true]
  constructor
  · rintro ⟨node,hmem,hc,hsends,hbefore⟩
    exact ⟨node,(hreached node).mpr ⟨hmem,hsends,hbefore⟩,beq_iff_eq.mpr hc⟩
  · rintro ⟨node,hnode,hc⟩
    obtain ⟨hmem,hsends,hbefore⟩ := (hreached node).mp hnode
    exact ⟨node,hmem,beq_iff_eq.mp hc,hsends,hbefore⟩

theorem gets_to_iff (h : m.fd ≠ -1) : Network.Gets ⟨s.connectedNodes,sends⟩ m c ↔
    sends m.fd = true ∧ s.connectedNodes[m.fd]? = some c := by
  rw [Network.Gets]
  simp only [h, if_false]
  constructor
  · rintro ⟨⟨fd,node⟩,hmem,rfl,hsends,rfl⟩
    exact ⟨hsends,Std.ExtTreeMap.mem_toList_iff_getElem?_eq_some.mp hmem⟩
  · rintro ⟨hsends,hnode⟩
    exact ⟨(m.fd,c),Std.ExtTreeMap.mem_toList_iff_getElem?_eq_some.mpr hnode,rfl,hsends,rfl⟩

theorem not_gets_of_isEmpty (h : s.connectedNodes.isEmpty = true) :
    ¬Network.Gets ⟨s.connectedNodes,sends⟩ m c := by
  rintro ⟨node,hmem,-⟩
  exact not_isEmpty_of_connected (Std.ExtTreeMap.mem_toList_iff_getElem?_eq_some.mp hmem) h

end Gets

/-- A send gives the message to the connections that it reaches, and does nothing else. -/
theorem sendPacket_eq (s : SyncMaster) (sends : Int → Bool) (m : Message) :
    (s.sendPacket sends m).1 = { s with
      sent := fun c => s.sent c ++ [m].filter fun m => Network.Gets ⟨s.connectedNodes,sends⟩ m c } := by
  obtain ⟨sent',heq,-⟩ := sendPacket_spec s sends m
  have hsent : sent' = (s.sendPacket sends m).1.sent := by rw [heq]
  rw [heq]
  congr 1
  funext c
  have hone : ([m].filter fun m => Network.Gets ⟨s.connectedNodes,sends⟩ m c) =
      if Network.Gets ⟨s.connectedNodes,sends⟩ m c then [m] else [] := by
    simp [List.filter_cons]
  rw [hsent, sendPacket, hone]
  by_cases hempty : s.connectedNodes.isEmpty = true
  · rw [if_pos hempty, if_neg (not_gets_of_isEmpty hempty), List.append_nil]
  rw [if_neg hempty]
  by_cases hbroadcast : m.fd = -1
  · rw [if_pos hbroadcast]
    simp only [gets_broadcast_iff hbroadcast]
    split <;> simp
  · rw [if_neg hbroadcast]
    simp only [gets_to_iff hbroadcast]
    cases hsends : sends m.fd with
    | false => simp
    | true =>
      cases hnode : s.connectedNodes[m.fd]? with
      | none => simp
      | some node =>
        by_cases hc : c = node
        · simp [hc]
        · simp [hc, Ne.symm hc]

/-- A step that takes no item, and what has been sent after it. -/
structure Idles (s s' : SyncMaster) (sent : Conn → List Message) : Prop extends Batched s' where
  httpInput : s'.httpInput = s.httpInput
  recentInput : s'.recentInput = s.recentInput
  toBaseSync : s'.toBaseSync = s.toBaseSync
  sent : s'.sent = sent

section Idles
variable {s : SyncMaster}

theorem Batched.at_pc (h : s.Batched) (pc : MasterPc) (hhttp : ∀ n, pc = .httpItems n → n ≤ 10)
    (hclear : ∀ rest, pc ≠ .clearFarms rest) : Idles s { s with pc } s.sent :=
  ⟨⟨h.httpRunning,h.recentRunning,hhttp,hclear⟩,rfl,rfl,rfl,rfl⟩

theorem Batched.at_wait (h : s.Batched) (wait : Bool) : Idles s { s with wait } s.sent :=
  ⟨⟨h.httpRunning,h.recentRunning,h.http,h.clear⟩,rfl,rfl,rfl,rfl⟩

theorem Batched.startRecentItems (h : s.Batched) : Idles s s.startRecentItems s.sent := by
  rw [SyncMaster.startRecentItems, if_pos h.recentRunning]
  exact h.at_pc _ nofun nofun

theorem Batched.startHttpSync (h : s.Batched) (fd : Int) (conn : Conn) :
    Idles s (s.startHttpSync fd conn) s.sent := by
  rw [SyncMaster.startHttpSync, if_pos h.httpRunning]
  exact h.at_pc _ nofun nofun

theorem Batched.handleRequest (h : s.Batched) (req : Request) :
    Idles s (s.handleRequest req) s.sent := by
  unfold SyncMaster.handleRequest
  split
  · exact ⟨⟨h.httpRunning,h.recentRunning,h.http,h.clear⟩,rfl,rfl,rfl,rfl⟩
  · exact ⟨⟨h.httpRunning,h.recentRunning,h.http,h.clear⟩,rfl,rfl,rfl,rfl⟩
  · rw [startSync, if_pos h.recentRunning]
    exact h.at_pc _ nofun nofun
  · exact ⟨h,rfl,rfl,rfl,rfl⟩

theorem Batched.startItems (h : s.Batched) : Idles s s.startItems s.sent := by
  have hdown : (!s.httpRunning && !s.httpSessionData.isEmpty) = false := by rw [h.httpRunning]; rfl
  rw [SyncMaster.startItems, hdown, if_neg Bool.false_ne_true, if_pos h.httpRunning]
  refine h.at_pc _ (fun n heq => ?_) nofun
  obtain rfl := MasterPc.httpItems.inj heq
  exact Nat.zero_le 10

theorem Batched.sendPacket (h : s.Batched) (sends : Int → Bool) (m : Message) :
    Idles s (s.sendPacket sends m).1 fun c =>
      s.sent c ++ [m].filter fun m => Network.Gets ⟨s.connectedNodes,sends⟩ m c := by
  rw [sendPacket_eq]
  exact ⟨⟨h.httpRunning,h.recentRunning,h.http,h.clear⟩,rfl,rfl,rfl,rfl⟩

theorem Idles.trans {s' s'' : SyncMaster} {sent : Conn → List Message} (h : Idles s s' sent)
    (h' : Idles s' s'' s'.sent) : Idles s s'' sent :=
  ⟨h'.toBatched,h'.httpInput.trans h.httpInput,h'.recentInput.trans h.recentInput,
    h'.toBaseSync.trans h.toBaseSync,h'.sent.trans h.sent⟩

/-- Outside of its inner loops and of the snapshots the run loop takes no item and sends nothing. -/
theorem Batched.run (h : s.Batched) (sends : Int → Bool) (hhttp : ∀ n, s.pc ≠ .httpItems n)
    (hrecent : ∀ n, s.pc ≠ .recentItems n)
    (hrecentSync : ∀ fd conn xaction rest, s.pc ≠ .handleRecentSync fd conn (xaction::rest))
    (hhttpSync : ∀ fd conn action rest, s.pc ≠ .handleHttpSync fd conn (action::rest)) :
    Idles s (s.run sends) s.sent := by
  unfold SyncMaster.run
  split
  · split
    · next req rest _ =>
      have hpop : Idles s { s with inputPacketQueue := rest } s.sent :=
        ⟨⟨h.httpRunning,h.recentRunning,h.http,h.clear⟩,rfl,rfl,rfl,rfl⟩
      exact hpop.trans (hpop.toBatched.handleRequest req)
    · split
      · exact ⟨⟨h.httpRunning,h.recentRunning,h.http,h.clear⟩,rfl,rfl,rfl,rfl⟩
      · exact h.startItems
  · exact h.startHttpSync _ _
  · next hpc => exact absurd hpc (hrecentSync _ _ _ _)
  · exact ⟨⟨h.httpRunning,h.recentRunning,nofun,nofun⟩,rfl,rfl,rfl,rfl⟩
  · next hpc => exact absurd hpc (hhttpSync _ _ _ _)
  · next hpc => exact absurd hpc (h.clear _)
  · next hpc => exact absurd hpc (h.clear _)
  · next hpc => exact absurd hpc (hhttp _)
  · next hpc => exact absurd hpc (hrecent _)

/-- A step of a snapshot sends its next message. -/
theorem Batched.runRecentSync (h : s.Batched) (sends : Int → Bool) {fd : Int} {conn : Conn}
    {xaction : XtRecentAction} {rest : List XtRecentAction}
    (hpc : s.pc = .handleRecentSync fd conn (xaction::rest)) :
    Idles s (s.run sends) fun c =>
      s.sent c ++ [.recent xaction].filter fun m => Network.Gets ⟨s.connectedNodes,sends⟩ m c := by
  have hsent := h.sendPacket sends (.recent xaction)
  simp only [SyncMaster.run, hpc]
  split
  · exact hsent.trans (hsent.at_pc _ nofun nofun)
  · exact hsent.trans (hsent.startHttpSync _ _)

theorem Batched.runHttpSync (h : s.Batched) (sends : Int → Bool) {fd : Int} {conn : Conn}
    {action : HttpAction} {rest : List HttpAction}
    (hpc : s.pc = .handleHttpSync fd conn (action::rest)) :
    Idles s (s.run sends) fun c =>
      s.sent c ++ [.http action].filter fun m => Network.Gets ⟨s.connectedNodes,sends⟩ m c := by
  have hsent := h.sendPacket sends (.http action)
  simp only [SyncMaster.run, hpc]
  exact hsent.trans (hsent.at_pc _ nofun nofun)

end Idles
end SyncMaster

namespace RunLoop

/-- From one state of the loop to a later one, with the items that it has come to in between. -/
structure Moves (l l' : RunLoop) (items : List Item) : Prop extends l'.Batched where
  deeds : l'.deeds = l.deeds ++ items.flatMap Item.deeds
  httpInput : l.httpInput = items.filterMap Item.http? ++ l'.httpInput
  recentInput : l.recentInput = items.filterMap Item.recent? ++ l'.recentInput
  httpEnqueued : l'.httpEnqueued = l.httpEnqueued
  recentEnqueued : l'.recentEnqueued = l.recentEnqueued
  stores : l'.toBaseSync = (items.flatMap Item.deeds).foldl Deed.act l.toBaseSync
  sent : ∀ c, l'.sent c = l.sent c ++ items.flatMap fun item => item.packets c

/-- A step of the master that takes no item comes to none. -/
theorem moves_idle {l : RunLoop} {s : SyncMaster} (h : l.toSyncMaster.Idles s l.sent) :
    Moves l { l with toSyncMaster := s } [] where
  toBatched := h.toBatched
  deeds := (List.append_nil _).symm
  httpInput := h.httpInput.symm
  recentInput := h.recentInput.symm
  httpEnqueued := rfl
  recentEnqueued := rfl
  stores := h.toBaseSync
  sent c := (congrFun h.sent c).trans (List.append_nil _).symm

/-- One message of a snapshot goes out. -/
theorem moves_answer {l : RunLoop} {sends : Int → Bool} (m : Message)
    (h : l.toSyncMaster.Idles (l.toSyncMaster.run sends) fun c =>
      l.sent c ++ [m].filter fun m => Network.Gets ⟨l.connectedNodes,sends⟩ m c) :
    Moves l (l.answer sends m) [.answer m ⟨l.connectedNodes,sends⟩] where
  toBatched := h.toBatched
  deeds := rfl
  httpInput := h.httpInput.symm
  recentInput := h.recentInput.symm
  httpEnqueued := rfl
  recentEnqueued := rfl
  stores := h.toBaseSync
  sent c := by
    rw [List.flatMap_singleton]
    exact congrFun h.sent c

theorem forward_eq (l : RunLoop) (sends : Int → Bool) (m : Message) :
    l.forward sends m = { l with
      sent := fun c => l.sent c ++ (if 0 < l.backupServersFd then [m] else []).filter fun m =>
        Network.Gets ⟨l.connectedNodes,sends⟩ m c
      deeds := l.deeds ++ if 0 < l.backupServersFd then [.sendPacket m] else [] } := by
  rw [forward]
  split
  · rw [sendPacket, SyncMaster.sendPacket_eq]
  · simp

theorem packets_marker {pkt : HttpAction} (h : SyncMaster.IsMarker pkt) (backupServersFd : Int)
    (network : Network) (c : Conn) : (Item.http pkt backupServersFd network).packets c =
      [.http (clearRequest pkt.farmName)].filter fun m => network.Gets m c := by
  rw [Item.packets, Item.deeds, if_pos h]
  split <;> rfl

theorem packets_http {pkt : HttpAction} (h : ¬SyncMaster.IsMarker pkt) (backupServersFd : Int)
    (network : Network) (c : Conn) : (Item.http pkt backupServersFd network).packets c =
      (if 0 < backupServersFd then [Message.http { pkt with fd := -1 }] else []).filter fun m =>
        network.Gets m c := by
  rw [Item.packets, Item.deeds, if_neg h]
  split <;> rfl

theorem packets_recent (pkt : XtRecentAction) (backupServersFd : Int) (network : Network) (c : Conn) :
    (Item.recent pkt backupServersFd network).packets c =
      (if 0 < backupServersFd then [Message.recent pkt] else []).filter fun m => network.Gets m c := by
  rw [Item.packets, Item.deeds]
  split <;> rfl

/-- A marker leaves the batch where it is. -/
theorem httpItem_marker (l : RunLoop) (sends : Int → Bool) (maxItems : ℕ) {pkt : HttpAction}
    (h : SyncMaster.IsMarker pkt) :
    let item := Item.http pkt l.backupServersFd ⟨l.connectedNodes,sends⟩
    l.httpItem sends maxItems pkt = { l with
      sent := fun c => l.sent c ++ item.packets c
      toBaseSync := l.toBaseSync.clearFarm pkt.farmName
      deeds := l.deeds ++ item.deeds } := by
  have htype : pkt.type = .named .connect ∨ pkt.type = .named .disconnect := h
  simp only [packets_marker h]
  rw [httpItem, if_pos htype, Item.deeds, if_pos h, sendPacket, SyncMaster.sendPacket_eq]
  split
  · simp [clearHttpFarmData, sendPoundAction]
  · simp [clearHttpFarmData]

theorem httpItem_action (l : RunLoop) (sends : Int → Bool) (maxItems : ℕ) {pkt : HttpAction}
    (h : ¬SyncMaster.IsMarker pkt) :
    let item := Item.http pkt l.backupServersFd ⟨l.connectedNodes,sends⟩
    l.httpItem sends maxItems pkt = { l with
      sent := fun c => l.sent c ++ item.packets c
      pc := .httpItems (maxItems+1)
      toBaseSync := l.toBaseSync.apply (.http pkt)
      deeds := l.deeds ++ item.deeds } := by
  have htype : ¬(pkt.type = .named .connect ∨ pkt.type = .named .disconnect) := h
  simp only [packets_http h]
  rw [httpItem, if_neg htype, Item.deeds, if_neg h, List.append_cons]
  exact forward_eq ({ l with pc := .httpItems (maxItems+1) }.apply (.http pkt)) sends _

theorem recentItem_eq (l : RunLoop) (sends : Int → Bool) (maxItems : ℕ) (pkt : XtRecentAction) :
    let item := Item.recent pkt l.backupServersFd ⟨l.connectedNodes,sends⟩
    l.recentItem sends maxItems pkt = { l with
      sent := fun c => l.sent c ++ item.packets c
      pc := .recentItems (maxItems+1)
      toBaseSync := l.toBaseSync.apply (.recent pkt)
      deeds := l.deeds ++ item.deeds } := by
  simp only [packets_recent]
  rw [recentItem, Item.deeds, List.append_cons]
  exact forward_eq ({ l with pc := .recentItems (maxItems+1) }.apply (.recent pkt)) sends _

/-- On the stores, an item's deeds are the clear of its farm or its application. -/
theorem foldl_deeds_http (d : BaseSync) (pkt : HttpAction) (backupServersFd : Int) (network : Network) :
    (Item.deeds (.http pkt backupServersFd network)).foldl Deed.act d =
      if SyncMaster.IsMarker pkt then d.clearFarm pkt.farmName else d.apply (.http pkt) := by
  rw [Item.deeds]
  split
  · split <;> rfl
  · split <;> rfl

theorem foldl_deeds_recent (d : BaseSync) (pkt : XtRecentAction) (backupServersFd : Int)
    (network : Network) : (Item.deeds (.recent pkt backupServersFd network)).foldl Deed.act d = d.apply (.recent pkt) := by
  rw [Item.deeds]
  split <;> rfl

/-- The first item of the HTTP queue, in a batch that is not full. -/
theorem moves_httpItem {l : RunLoop} {sends : Int → Bool} {maxItems : ℕ} {pkt : HttpAction}
    {rest : List HttpAction} (h : l.Batched) (hinput : l.httpInput = pkt::rest) (hmax : maxItems < 10) :
    Moves l ({ l with httpInput := rest }.httpItem sends maxItems pkt)
      [.http pkt l.backupServersFd ⟨l.connectedNodes,sends⟩] := by
  have hstores := foldl_deeds_http l.toBaseSync pkt l.backupServersFd ⟨l.connectedNodes,sends⟩
  by_cases hmarker : SyncMaster.IsMarker pkt
  · rw [if_pos hmarker] at hstores
    rw [httpItem_marker _ _ _ hmarker]
    exact {
      httpRunning := h.httpRunning
      recentRunning := h.recentRunning
      http := h.http
      clear := h.clear
      deeds := by rw [List.flatMap_singleton]
      httpInput := hinput
      recentInput := rfl
      httpEnqueued := rfl
      recentEnqueued := rfl
      stores := by rw [List.flatMap_singleton, hstores]
      sent := fun c => by rw [List.flatMap_singleton] }
  · rw [if_neg hmarker] at hstores
    rw [httpItem_action _ _ _ hmarker]
    exact {
      httpRunning := h.httpRunning
      recentRunning := h.recentRunning
      http := fun n hn => MasterPc.httpItems.inj hn ▸ hmax
      clear := nofun
      deeds := by rw [List.flatMap_singleton]
      httpInput := hinput
      recentInput := rfl
      httpEnqueued := rfl
      recentEnqueued := rfl
      stores := by rw [List.flatMap_singleton, hstores]
      sent := fun c => by rw [List.flatMap_singleton] }

/-- The first item of the other queue. -/
theorem moves_recentItem {l : RunLoop} {sends : Int → Bool} {maxItems : ℕ} {pkt : XtRecentAction}
    {rest : List XtRecentAction} (h : l.Batched) (hinput : l.recentInput = pkt::rest) :
    Moves l ({ l with recentInput := rest }.recentItem sends maxItems pkt)
      [.recent pkt l.backupServersFd ⟨l.connectedNodes,sends⟩] := by
  have hstores := foldl_deeds_recent l.toBaseSync pkt l.backupServersFd ⟨l.connectedNodes,sends⟩
  rw [recentItem_eq]
  exact {
    httpRunning := h.httpRunning
    recentRunning := h.recentRunning
    http := nofun
    clear := nofun
    deeds := by rw [List.flatMap_singleton]
    httpInput := rfl
    recentInput := hinput
    httpEnqueued := rfl
    recentEnqueued := rfl
    stores := by rw [List.flatMap_singleton, hstores]
    sent := fun c => by rw [List.flatMap_singleton] }

/-- A step of the loop comes to one item at most, and the exit behind the dequeue is never taken. -/
theorem run_moves {l : RunLoop} (h : l.Batched) (sends : Int → Bool) :
    ∃ items, Moves l (l.run sends) items := by
  have hleave : ∀ wait, Moves l { l with wait }.startRecentItems [] := fun wait => by
    have hwait := h.at_wait wait
    exact moves_idle (hwait.trans hwait.startRecentItems)
  rw [run]
  split
  · next maxItems hpc =>
    have hmax := h.http maxItems hpc
    split
    · exact ⟨[],hleave false⟩
    · next hfull =>
      split
      · exact ⟨[],hleave true⟩
      · next pkt rest hinput =>
        dsimp only
        rw [if_neg (by omega)]
        exact ⟨_,moves_httpItem h hinput (by omega)⟩
  · split
    · have hwait := h.at_wait false
      exact ⟨[],moves_idle (hwait.trans (hwait.at_pc .poll nofun nofun))⟩
    · split
      · exact ⟨[],moves_idle (h.at_pc .poll nofun nofun)⟩
      · next pkt rest hinput => exact ⟨_,moves_recentItem h hinput⟩
  · next hpc => exact ⟨_,moves_answer _ (h.runRecentSync sends hpc)⟩
  · next hpc => exact ⟨_,moves_answer _ (h.runHttpSync sends hpc)⟩
  · next hhttp hrecent hrecentSync hhttpSync =>
    exact ⟨[],moves_idle (h.run sends hhttp hrecent hrecentSync hhttpSync)⟩

end RunLoop

namespace SyncMaster

def waiting (s : SyncMaster) : ℕ := s.httpInput.length + s.recentInput.length

section Nearer
variable {s s' : SyncMaster}

end Nearer
end SyncMaster

namespace RunLoop

/-- The loop is batched, and has done what is to be done with some items. -/
structure Invariant (l₀ l : RunLoop) : Prop extends l.Batched where
  processed : ∃ items, Processed l₀ l items

/-- The items that a step comes to follow those before it, and an enqueue adds at the far end. -/
theorem Invariant.kept {l₀ l : RunLoop} (h : Invariant l₀ l) (e : LoopEvent) :
    Invariant l₀ (l.step e) := by
  obtain ⟨items,hp⟩ := h.processed
  cases e with
  | run sends =>
    obtain ⟨more,hm⟩ := run_moves h.toBatched sends
    change Invariant l₀ (l.run sends)
    refine ⟨hm.toBatched,items ++ more,?_,fun c => ?_,?_,?_,?_⟩
    · exact hm.deeds.trans (by rw [hp.deeds, List.flatMap_append])
    · exact (hm.sent c).trans (by rw [hp.sent c, List.flatMap_append, List.append_assoc])
    · exact hm.httpEnqueued.trans (by rw [hp.http, hm.httpInput, List.filterMap_append, List.append_assoc])
    · exact hm.recentEnqueued.trans
        (by rw [hp.recent, hm.recentInput, List.filterMap_append, List.append_assoc])
    · exact hm.stores.trans (by rw [hp.stores, ← List.foldl_append, ← hm.deeds])
  | packet req =>
    exact ⟨⟨h.httpRunning,h.recentRunning,h.http,h.clear⟩,items,hp.deeds,hp.sent,hp.http,hp.recent,
      hp.stores⟩
  | nodes connectedNodes =>
    exact ⟨⟨h.httpRunning,h.recentRunning,h.http,h.clear⟩,items,hp.deeds,hp.sent,hp.http,hp.recent,
      hp.stores⟩
  | enqueueHttp pkt =>
    refine ⟨⟨h.httpRunning,h.recentRunning,h.http,h.clear⟩,items,hp.deeds,hp.sent,?_,hp.recent,hp.stores⟩
    exact (congrArg (· ++ [pkt]) hp.http).trans (List.append_assoc ..)
  | enqueueRecent pkt =>
    refine ⟨⟨h.httpRunning,h.recentRunning,h.http,h.clear⟩,items,hp.deeds,hp.sent,hp.http,?_,hp.stores⟩
    exact (congrArg (· ++ [pkt]) hp.recent).trans (List.append_assoc ..)

/-- The marker of a farm, one of its sessions and an entry, with two backups. -/
def twoBackups : SyncMaster where
  connectedNodes := ((∅ : Std.ExtTreeMap Int Conn).insert 5 0).insert 7 1
  backupServersFd := 2
  httpInput := [
    { type := .named .connect, fd := 9, action := .named .clearData, service := 0, listener := 0,
      backend := 0, session := ⟨[],0,[],0⟩, farmName := [102] },
    { fd := 9, action := .named .sessAdd, service := 1, listener := 0, backend := 2,
      session := ⟨[107],2,[99],3⟩, farmName := [102] }]
  recentInput := [{ action := .named .addUpdEntry, xtTableName := [116] }]

/-- Six steps; the send to the first backup fails in the last. -/
def forwarded : RunLoop :=
  ([.run fun _ => true, .run fun _ => true, .run fun _ => true, .run fun _ => true, .run fun _ => true,
    .run fun fd => fd ≠ 5] : List LoopEvent).foldl step (start twoBackups)

end RunLoop
end Ssyncd
