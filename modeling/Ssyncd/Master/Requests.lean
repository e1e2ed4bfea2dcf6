import Ssyncd.Master.Stream

/-! Where the SYNC_REQUEST of a connection stands, and what is still to be sent for it. -/
namespace Ssyncd
open Overlay
open BaseSync (effectOn requests)
namespace SyncMaster

/-- The request of a connection has been taken, and these messages are still to be sent. -/
inductive Due (s : SyncMaster) (c : Conn) : List Message → Prop
  | answered (h : s.answered c = true) : Due s c []
  | recent {fd rest} (h : s.pc = .handleRecentSync fd c rest) :
      Due s c (recentMessages s.httpRunning s.toBaseSync fd rest)
  | http {fd rest} (h : s.pc = .handleHttpSync fd c rest) : Due s c (rest.map .http)

/-- The packet that the run loop takes next. -/
def Takes (s : SyncMaster) (req : Request) : Prop :=
  s.pc = .poll ∧ ∃ rest, s.inputPacketQueue = req::rest

def MasterPc.isSync : MasterPc → Bool
  | .handleRecentSync .. | .handleHttpSync .. => true
  | _ => false

/-- The loop is away from the snapshots, and answers no request. -/
structure Aside (s s' : SyncMaster) : Prop where
  pc : MasterPc.isSync s'.pc = false
  answered : s'.answered = s.answered

/-- Where a due list comes from: it was due before, or one message more was, or it has just
been asked for. -/
inductive DueFrom (s s' : SyncMaster) (c : Conn) (rest : List Message) : Prop
  | kept (h : Due s c rest) (hsent : s.sent c <+: s'.sent c)
  | sent (m : Message) (h : Due s c (m::rest))
      (hsent : Connected s.connectedNodes c → s'.sent c = s.sent c ++ [m])
  | dropped {due} (h : Due s c due) (hgone : ¬ Connected s.connectedNodes c)
  | taken (req : Request) (h : s.Takes req) (htype : req.type = .syncRequest) (hconn : req.conn = c)
      (hrest : rest = requests s.httpRunning s.recentRunning s.toBaseSync req.fd)
      (hsent : s'.sent = s.sent)

theorem Aside.dueFrom {s s' : SyncMaster} (h : Aside s s') {c : Conn} {rest : List Message}
    (hsent : s.sent c <+: s'.sent c) (hd : Due s' c rest) : DueFrom s s' c rest := by
  cases hd with
  | answered ha => exact .kept (.answered (h.answered ▸ ha)) hsent
  | recent hpc =>
    have := h.pc
    rw [hpc] at this
    contradiction
  | http hpc =>
    have := h.pc
    rw [hpc] at this
    contradiction

theorem sendPacket_answered (s : SyncMaster) (sends : Int → Bool) (m : Message) :
    (s.sendPacket sends m).1.pc = s.pc ∧ (s.sendPacket sends m).1.answered = s.answered := by
  obtain ⟨sent',he,-⟩ := sendPacket_spec s sends m
  rw [he]
  exact ⟨rfl,rfl⟩

theorem startRecentItems_aside (s : SyncMaster) : Aside s s.startRecentItems := by
  unfold startRecentItems
  split <;> exact ⟨rfl,rfl⟩

theorem startItems_aside (s : SyncMaster) : Aside s s.startItems := by
  unfold startItems
  split
  · exact ⟨rfl,rfl⟩
  · split
    · exact ⟨rfl,rfl⟩
    · exact { startRecentItems_aside { s with wait := true } with }

theorem httpItem_aside {s : SyncMaster} (hpc : MasterPc.isSync s.pc = false) (sends : Int → Bool)
    (maxItems : ℕ) (pkt : Http.HttpAction) : Aside s (s.httpItem sends maxItems pkt) := by
  unfold httpItem
  split
  · obtain ⟨hpc',ha⟩ := sendPacket_answered s sends (.http (Http.clearRequest pkt.farmName))
    exact ⟨hpc' ▸ hpc,ha⟩
  · dsimp only
    split
    · let s' := { s with
        toBaseSync := s.toBaseSync.apply (.http pkt)
        pc := .httpItems (maxItems+1) }
      obtain ⟨hpc',ha⟩ := sendPacket_answered s' sends (.http { pkt with fd := -1 })
      exact ⟨by rw [hpc']; rfl,ha⟩
    · exact ⟨rfl,rfl⟩

theorem recentItem_aside (s : SyncMaster) (sends : Int → Bool) (maxItems : ℕ)
    (pkt : Recent.XtRecentAction) : Aside s (s.recentItem sends maxItems pkt) := by
  unfold recentItem
  dsimp only
  split
  · let s' := { s with
      toBaseSync := s.toBaseSync.apply (.recent pkt)
      pc := .recentItems (maxItems+1) }
    obtain ⟨hpc',ha⟩ := sendPacket_answered s' sends (.recent pkt)
    exact ⟨by rw [hpc']; rfl,ha⟩
  · exact ⟨rfl,rfl⟩

theorem startHttpSync_sent (s : SyncMaster) (fd : Int) (conn : Conn) :
    (s.startHttpSync fd conn).sent = s.sent := by
  unfold startHttpSync
  split <;> rfl

theorem startSync_sent (s : SyncMaster) (fd : Int) (conn : Conn) :
    (s.startSync fd conn).sent = s.sent := by
  unfold startSync
  split
  · rfl
  · exact startHttpSync_sent s fd conn

theorem due_startHttpSync {s : SyncMaster} {fd : Int} {conn c : Conn} {rest : List Message}
    (hd : Due (s.startHttpSync fd conn) c rest) :
    s.answered c = true ∧ rest = [] ∨
      c = conn ∧ rest = requests s.httpRunning false s.toBaseSync fd := by
  unfold startHttpSync at hd
  split at hd
  · next hrun =>
    cases hd with
    | answered ha => exact .inl ⟨ha,rfl⟩
    | recent hpc => contradiction
    | http hpc =>
      obtain ⟨rfl,rfl,rfl⟩ := MasterPc.handleHttpSync.inj hpc
      rw [hrun]
      exact .inr ⟨rfl,rfl⟩
  · next hrun =>
    cases hd with
    | answered ha =>
      rw [Bool.not_eq_true] at hrun
      rw [hrun]
      rcases (Bool.or_eq_true ..).mp ha with heq | ha
      · exact .inr ⟨of_decide_eq_true heq,rfl⟩
      · exact .inl ⟨ha,rfl⟩
    | recent hpc => contradiction
    | http hpc => contradiction

theorem due_startSync {s : SyncMaster} {fd : Int} {conn c : Conn} {rest : List Message}
    (hd : Due (s.startSync fd conn) c rest) :
    s.answered c = true ∧ rest = [] ∨
      c = conn ∧ rest = requests s.httpRunning s.recentRunning s.toBaseSync fd := by
  unfold startSync at hd
  split at hd
  · next hrun =>
    cases hd with
    | answered ha => exact .inl ⟨ha,rfl⟩
    | recent hpc =>
      obtain ⟨rfl,rfl,rfl⟩ := MasterPc.handleRecentSync.inj hpc
      rw [hrun]
      exact .inr ⟨rfl,rfl⟩
    | http hpc => contradiction
  · next hrun =>
    rw [Bool.not_eq_true] at hrun
    rw [hrun]
    exact due_startHttpSync hd

theorem handleRequest_aside {s : SyncMaster} (hpc : s.pc = .poll) {req : Request}
    (ht : req.type ≠ .syncRequest) : Aside s (s.handleRequest req) := by
  have hpoll : MasterPc.isSync s.pc = false := by rw [hpc]; rfl
  unfold handleRequest
  split
  · exact ⟨hpoll,rfl⟩
  · exact ⟨hpoll,rfl⟩
  · next h => exact absurd h ht
  · exact ⟨hpoll,rfl⟩

variable {κ : Type} {part : κ → NodeKey}

/-- One message of a snapshot was sent, and the loop went on with the rest of it. -/
theorem dueFrom_send {s s' : SyncMaster} {sends : Int → Bool} (h : s.Invariant part)
    (hok : s.SendsSucceed sends) {fd : Int} {conn : Conn} {m : Message} {due : List Message}
    (hsnap : Snapshotting part s.connectedNodes s.sent s.nextConn (s.viewOn part) fd conn (m::due))
    (hs' : s'.sent = (s.sendPacket sends m).1.sent) (hdue : Due s conn (m::due)) {c : Conn}
    {rest : List Message} (hd : s.answered c = true ∧ rest = [] ∨ c = conn ∧ rest = due) :
    DueFrom s s' c rest := by
  obtain ⟨sent',he,hs,-,hgot⟩ := Snapshotting.send h.numbered hsnap hok
  rw [he] at hs'
  rcases hd with ⟨ha,rfl⟩ | ⟨rfl,rfl⟩
  · exact .kept (.answered ha) (hs' ▸ hs.grows c)
  · exact .sent m hdue fun hc => hs' ▸ (hgot hc).1

/-- What a step of the run loop does for the request of a connection. -/
theorem due_run {s : SyncMaster} (h : s.Invariant part) {sends : Int → Bool}
    (hok : s.SendsSucceed sends) {c : Conn} {rest : List Message} (hd : Due (s.run sends) c rest) :
    DueFrom s (s.run sends) c rest := by
  have hat := h.atPc
  have hgrows := (run_frame s sends).sent c
  generalize hs' : s.run sends = s' at hd hgrows ⊢
  unfold run at hs'
  split at hs'
  · next hpc =>
    have hpoll : MasterPc.isSync s.pc = false := by rw [hpc]; rfl
    split at hs'
    · next req rest' hq =>
      by_cases ht : req.type = .syncRequest
      · simp only [handleRequest, ht] at hs'
        have hsent : s'.sent = s.sent := by rw [← hs', startSync_sent]
        rw [← hs'] at hd
        rcases due_startSync hd with ⟨ha,rfl⟩ | ⟨rfl,hrest⟩
        · exact .kept (.answered ha) hgrows
        · exact .taken req ⟨hpc,rest',hq⟩ ht rfl hrest hsent
      · have haside : Aside s s' := by
          rw [← hs']
          exact { handleRequest_aside (s := { s with inputPacketQueue := rest' }) hpc ht with }
        exact haside.dueFrom hgrows hd
    · have haside : Aside s s' := by
        rw [← hs']
        split
        · exact ⟨hpoll,rfl⟩
        · exact startItems_aside s
      exact haside.dueFrom hgrows hd
  · next fd conn hpc =>
    rw [← hs'] at hd
    rcases due_startHttpSync hd with ⟨ha,rfl⟩ | ⟨rfl,rfl⟩
    · exact .kept (.answered ha) hgrows
    · exact .kept (.recent hpc) hgrows
  · next fd conn xaction rest' hpc =>
    rw [hpc] at hat
    have hdue : Due s conn (.recent xaction::recentMessages s.httpRunning s.toBaseSync fd rest') :=
      .recent hpc
    obtain ⟨sent',he,hs,-,hgot⟩ := Snapshotting.send h.numbered hat hok
    dsimp only at hs'
    rw [he] at hs'
    split at hs'
    · refine dueFrom_send h hok hat (by rw [he, ← hs']) hdue ?_
      rw [← hs'] at hd
      cases hd with
      | answered ha => exact .inl ⟨ha,rfl⟩
      | recent hpc' =>
        obtain ⟨rfl,rfl,rfl⟩ := MasterPc.handleRecentSync.inj hpc'
        exact .inr ⟨rfl,rfl⟩
      | http hpc' => contradiction
    · next hfail =>
      rw [← hs'] at hd
      rcases due_startHttpSync hd with ⟨ha,rfl⟩ | ⟨rfl,-⟩
      · exact .kept (.answered ha) hgrows
      · exact .dropped hdue fun hc => hfail (hgot hc).2
  · next fd conn hpc =>
    rw [← hs'] at hd
    cases hd with
    | answered ha =>
      rcases (Bool.or_eq_true ..).mp ha with heq | ha
      · obtain rfl := of_decide_eq_true heq
        exact .kept (.http hpc) hgrows
      · exact .kept (.answered ha) hgrows
    | recent hpc' => contradiction
    | http hpc' => contradiction
  · next fd conn action rest' hpc =>
    rw [hpc] at hat
    have hdue : Due s conn (.http action::rest'.map .http) := .http hpc
    obtain ⟨sent',he,-⟩ := sendPacket_spec s sends (.http action)
    rw [he] at hs'
    refine dueFrom_send h hok hat (by rw [he, ← hs']) hdue ?_
    rw [← hs'] at hd
    cases hd with
    | answered ha => exact .inl ⟨ha,rfl⟩
    | recent hpc' => contradiction
    | http hpc' =>
      obtain ⟨rfl,rfl,rfl⟩ := MasterPc.handleHttpSync.inj hpc'
      exact .inr ⟨rfl,rfl⟩
  · next hpc =>
    have haside : Aside s s' := by
      rw [← hs']
      exact { startRecentItems_aside { s with httpSessionData := ∅, wait := true } with }
    exact haside.dueFrom hgrows hd
  · next farmName rest' hpc =>
    obtain ⟨-,ha⟩ := sendPacket_answered s sends (.http (Http.clearRequest farmName))
    have haside : Aside s s' := by
      rw [← hs']
      exact ⟨rfl,ha⟩
    exact haside.dueFrom hgrows hd
  · next maxItems hpc =>
    have haside : Aside s s' := by
      rw [← hs']
      split
      · exact { startRecentItems_aside { s with wait := false } with }
      · split
        · exact { startRecentItems_aside { s with wait := true } with }
        · next pkt rest' hi =>
          have hitems : MasterPc.isSync s.pc = false := by rw [hpc]; rfl
          exact { httpItem_aside (s := { s with httpInput := rest' }) hitems sends _ pkt with }
    exact haside.dueFrom hgrows hd
  · next maxItems hpc =>
    have haside : Aside s s' := by
      rw [← hs']
      split
      · exact ⟨rfl,rfl⟩
      · split
        · exact ⟨rfl,rfl⟩
        · next pkt rest' hi =>
          exact { recentItem_aside { s with recentInput := rest' } sends _ pkt with }
    exact haside.dueFrom hgrows hd

theorem Due.old {s : SyncMaster} (h : s.Invariant part) {c : Conn} {rest : List Message}
    (hd : Due s c rest) : c < s.nextConn := by
  have hat := h.atPc
  cases hd with
  | answered ha =>
    by_contra hnew
    rw [(h.unused c (Nat.le_of_not_lt hnew)).2] at ha
    contradiction
  | recent hpc =>
    rw [hpc] at hat
    exact Snapshotting.old hat
  | http hpc =>
    rw [hpc] at hat
    exact Snapshotting.old hat

/-- The run loop stands where it stood. -/
structure Still (s s' : SyncMaster) : Prop where
  toBaseSync : s'.toBaseSync = s.toBaseSync
  httpRunning : s'.httpRunning = s.httpRunning
  pc : s'.pc = s.pc
  answered : s'.answered = s.answered
  sent : s'.sent = s.sent

theorem Still.due {s s' : SyncMaster} (h : Still s s') {c : Conn} {rest : List Message}
    (hd : Due s' c rest) : Due s c rest := by
  cases hd with
  | answered ha => exact .answered (h.answered ▸ ha)
  | recent hpc =>
    rw [h.toBaseSync, h.httpRunning]
    exact .recent (h.pc ▸ hpc)
  | http hpc => exact .http (h.pc ▸ hpc)

/-- What a step may do to the nodes, to the queue and to the messages sent. -/
structure StepFrame (s : SyncMaster) (e : MasterEvent) (s' : SyncMaster) : Prop where
  moved : (∃ sends, e = .run sends) ∨ Still s s'
  sent : ∀ c, s.sent c <+: s'.sent c
  nextConn : s'.nextConn = s.nextConn ∨ ∃ fd, e = .accept fd ∧ s'.nextConn = s.nextConn + 1
  connected : ∀ c < s.nextConn, Connected s'.connectedNodes c → Connected s.connectedNodes c
  queued : ∀ req ∈ s'.inputPacketQueue, req.type = .syncRequest → req ∈ s.inputPacketQueue ∨
    ∃ fd, e = .receive fd .syncRequest ∧ s.connectedNodes[fd]? = some req.conn

/-- Only the queue got longer, by a packet that is no SYNC_REQUEST. -/
theorem StepFrame.append {s s' : SyncMaster} {e : MasterEvent} (req : Request)
    (hstill : Still s s') (ht : req.type ≠ .syncRequest)
    (hq : s'.inputPacketQueue = s.inputPacketQueue ++ [req])
    (hn : s'.nextConn = s.nextConn ∨ ∃ fd, e = .accept fd ∧ s'.nextConn = s.nextConn + 1)
    (hc : ∀ c < s.nextConn, Connected s'.connectedNodes c → Connected s.connectedNodes c) :
    StepFrame s e s' where
  moved := .inr hstill
  sent c := hstill.sent ▸ List.prefix_rfl
  nextConn := hn
  connected := hc
  queued req' hreq ht' := by
    rw [hq] at hreq
    rcases List.mem_append.mp hreq with hreq | hreq
    · exact .inl hreq
    · rw [List.mem_singleton.mp hreq] at ht'
      exact absurd ht' ht

theorem step_frame {s s' : SyncMaster} {e : MasterEvent} (hcontrol : ¬ e.IsControl)
    (hs : s.step e = some s') : StepFrame s e s' := by
  cases e with
  | accept fd =>
    simp only [step] at hs
    split at hs
    · next hfd =>
      obtain rfl := Option.some.inj hs
      refine .append ⟨.connect,fd,s.nextConn⟩ ⟨rfl,rfl,rfl,rfl,rfl⟩ (by simp) rfl
        (.inr ⟨fd,rfl,rfl⟩) fun c hold hc => ?_
      rcases (connected_insert hfd.2).mp hc with rfl | hc
      · exact absurd hold (Nat.lt_irrefl _)
      · exact hc
    · contradiction
  | receive fd type =>
    simp only [step] at hs
    split at hs
    · next c hc =>
      split at hs
      · obtain rfl := Option.some.inj hs
        refine ⟨.inr ⟨rfl,rfl,rfl,rfl,rfl⟩,fun _ => List.prefix_rfl,.inl rfl,fun _ _ h => h,?_⟩
        intro req hreq ht
        rcases List.mem_append.mp hreq with hreq | hreq
        · exact .inl hreq
        · rw [List.mem_singleton.mp hreq] at ht ⊢
          simp only at ht
          exact .inr ⟨fd,by rw [ht],hc⟩
      · contradiction
    · contradiction
  | close fd =>
    simp only [step] at hs
    split at hs
    · next c hc =>
      obtain rfl := Option.some.inj hs
      exact .append ⟨.disconnect,fd,c⟩ ⟨rfl,rfl,rfl,rfl,rfl⟩ (by simp) rfl
        (.inl rfl) fun c _ hc => connected_erase hc
    · contradiction
  | enqueueHttp pkt =>
    obtain rfl := Option.some.inj hs
    exact ⟨.inr ⟨rfl,rfl,rfl,rfl,rfl⟩,fun _ => List.prefix_rfl,.inl rfl,fun _ _ h => h,
      fun _ h _ => .inl h⟩
  | enqueueRecent pkt =>
    simp only [step] at hs
    split at hs
    · obtain rfl := Option.some.inj hs
      exact ⟨.inr ⟨rfl,rfl,rfl,rfl,rfl⟩,fun _ => List.prefix_rfl,.inl rfl,fun _ _ h => h,
        fun _ h _ => .inl h⟩
    · contradiction
  | run sends =>
    obtain rfl := Option.some.inj hs
    have hframe := run_frame s sends
    exact ⟨.inl ⟨sends,rfl⟩,hframe.sent,.inl hframe.nextConn,
      fun _ _ h => hframe.connectedNodes ▸ h,
      fun _ h _ => .inl (hframe.inputPacketQueue.subset h)⟩
  | stopRecentSync => exact absurd (.inl rfl) hcontrol
  | startRecentSync => exact absurd (.inr rfl) hcontrol

/-- What a step does for the request of a connection: only the run loop does anything. -/
theorem due_step {s s' : SyncMaster} {e : MasterEvent} (h : s.Invariant part)
    (hu : s.Undisturbed e) (hs : s.step e = some s') {c : Conn} {rest : List Message}
    (hd : Due s' c rest) : DueFrom s s' c rest ∧ ((∃ sends, e = .run sends) ∨ Due s c rest) := by
  have hframe := step_frame hu.1 hs
  rcases hframe.moved with ⟨sends,rfl⟩ | hstill
  · obtain rfl := Option.some.inj hs
    exact ⟨due_run h (hu.2 sends rfl) hd,.inl ⟨sends,rfl⟩⟩
  · exact ⟨.kept (hstill.due hd) (hframe.sent c),.inr (hstill.due hd)⟩

/-- Every request in the queue or taken is of a connection that asked. -/
structure Asked (s : SyncMaster) (asked : Conn → Prop) : Prop where
  queued : ∀ req ∈ s.inputPacketQueue, req.type = .syncRequest → asked req.conn
  due : ∀ c rest, Due s c rest → asked c

theorem Asked.mono {s : SyncMaster} {asked asked' : Conn → Prop} (h : s.Asked asked)
    (himp : ∀ c, asked c → asked' c) : s.Asked asked' :=
  ⟨fun req hreq ht => himp _ (h.queued req hreq ht),fun c rest hd => himp c (h.due c rest hd)⟩

theorem Asked.step {s s' : SyncMaster} {e : MasterEvent} {asked : Conn → Prop}
    (ha : s.Asked asked) (h : s.Invariant part) (hu : s.Undisturbed e) (hs : s.step e = some s')
    (hreceive : ∀ fd c, e = .receive fd .syncRequest → s.connectedNodes[fd]? = some c → asked c) :
    s'.Asked asked where
  queued req hreq ht := by
    rcases (step_frame hu.1 hs).queued req hreq ht with hold | ⟨fd,he,hc⟩
    · exact ha.queued req hold ht
    · exact hreceive fd _ he hc
  due c rest hd := by
    cases (due_step h hu hs hd).1 with
    | kept hdue => exact ha.due c _ hdue
    | sent m hdue => exact ha.due c _ hdue
    | dropped hdue => exact ha.due c _ hdue
    | taken req htakes ht hconn =>
      obtain ⟨-,rest',hq⟩ := htakes
      exact hconn ▸ ha.queued req (hq ▸ List.mem_cons_self ..) ht

/-- Once its request has been taken, a connection has been sent, or still will be, a message
about each of some keys. -/
def Settled (part : κ → NodeKey) (keys : κ → Prop) (s : SyncMaster) (c : Conn) : Prop :=
  ∀ rest, Due s c rest → Connected s.connectedNodes c →
    ∀ k, keys k → Touched (effectOn part) (s.sent c ++ rest) k

theorem Touched.mono {log log' : List Message} {k : κ} (h : Touched (effectOn part) log k)
    (hsub : log ⊆ log') : Touched (effectOn part) log' k := by
  obtain ⟨m,hm,hk⟩ := h
  exact ⟨m,hsub hm,hk⟩

theorem Settled.step {s s' : SyncMaster} {e : MasterEvent} {keys : κ → Prop} {c : Conn}
    (hset : Settled part keys s c) (h : s.Invariant part) (hu : s.Undisturbed e)
    (hs : s.step e = some s')
    (htake : ∀ sends, e = .run sends → ∀ req, s.Takes req → req.type = .syncRequest →
      req.conn = c → ∀ k, keys k → ¬ Touched (effectOn part) (s.sent c) k →
        s.viewOn part k ≠ none) : Settled part keys s' c := by
  intro rest hd hc k hk
  have hframe := step_frame hu.1 hs
  obtain ⟨hfrom,hrun⟩ := due_step h hu hs hd
  cases hfrom with
  | kept hdue hsent =>
    have hold := hset rest hdue (hframe.connected c (hdue.old h) hc) k hk
    exact Touched.mono hold (hsent.sublist.append_right rest).subset
  | sent m hdue hsent =>
    have hcon := hframe.connected c (hdue.old h) hc
    rw [hsent hcon, List.append_assoc]
    exact hset _ hdue hcon k hk
  | dropped hdue hgone => exact absurd (hframe.connected c (hdue.old h) hc) hgone
  | taken req htakes ht hconn hrest hsent =>
    obtain ⟨-,queue,hq⟩ := id htakes
    have hold : c < s.nextConn := hconn ▸ (h.queued req (hq ▸ List.mem_cons_self ..)).1
    have hcon := hframe.connected c hold hc
    by_cases hsent' : Touched (effectOn part) (s.sent c) k
    · exact Touched.mono hsent' (fun m hm => List.mem_append_left _ ((hframe.sent c).subset hm))
    · rcases hrun with ⟨sends,rfl⟩ | hdue
      · have hhas := htake sends rfl req htakes ht hconn k hk hsent'
        rw [hsent, hrest, touched_append]
        exact .inr ((BaseSync.snapshot_requests h.wellFormed h.served req.fd).covers k hhas)
      · exact hsent ▸ hset rest hdue hcon k hk

end SyncMaster
end Ssyncd
