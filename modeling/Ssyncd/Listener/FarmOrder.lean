import Ssyncd.Listener.FarmDescriptors
import Ssyncd.Master.HttpInput

/-! What the listener still owes its queue: the farms whose actions may yet come, through every
step of its tasks. -/
namespace Ssyncd
open Http

namespace HttpSync

/-- The connections whose data the listen task is about to read or to enqueue. -/
def busy (s : HttpSync) : List ℕ := (if s.chunk.actions = [] then [] else [s.chunk.fd]) ++ s.ready

/-- Nothing more can come from the farm: the listen task is not at work on a connection that is
listed under it, and no such connection is open. -/
structure Quiet (s : HttpSync) (farmName : Bytes) : Prop where
  busy : ∀ fd ∈ s.busy, s.farmOf fd ≠ farmName
  closed : ∀ fd name, s.farmOf fd = farmName → s.sockets fd ≠ some (.farm name)

/-- `remove_farm` returns here: with its marker, or at once. -/
def Returns (s : HttpSync) (e : Event) (farmName : Bytes) : Prop :=
  (e = .removeReturn ∧ ∃ fd, s.removing = some (fd,farmName)) ∨
    (e = .removeFarm farmName ∧ s.getFarmFd farmName = 0)

/-- A step that opens a connection to the farm. -/
def Adds (s : HttpSync) (e : Event) (farmName : Bytes) : Prop :=
  (∃ fd, e = .addFarm farmName (.connected fd)) ∨
    ∃ action fd, e = .sendPoundAction farmName action (.connected fd) ∧ s.getFarmFd farmName = 0

/-- Something may still come from the farm: a connection listed under it is open, or its marker
is still to be queued. -/
def Feeds (s : HttpSync) (farmName : Bytes) : Prop :=
  (∃ fd name, s.sockets fd = some (.farm name) ∧ s.farmOf fd = farmName) ∨
    ∃ fd, s.removing = some (fd,farmName)

/-- The connections to farms are listed, and those that the listen task is at work on are open
or in the middle of a removal. -/
structure Orderly (s : HttpSync) : Prop where
  listed : ∀ fd farmName, s.sockets fd = some (.farm farmName) → s.farmsFd[fd]? = some farmName
  known : ∀ fd ∈ s.busy, fd ∈ s.farmsFd
  nodup : s.busy.Nodup
  held : ∀ fd ∈ s.busy, (∃ name, s.sockets fd = some (.farm name)) ∨
    ∃ fd', s.removing = some (fd',s.farmOf fd)

/-- What a step adds to the queue: nothing, or one item, which is a marker or comes from a farm
that still feeds the queue. -/
structure Queues (s s' : HttpSync) : Prop where
  queue : (s'.inputData = s.inputData ∧ ∀ farmName, s.Feeds farmName → s'.Feeds farmName) ∨
    ∃ pkt, s'.inputData = s.inputData ++ [pkt] ∧
      (SyncMaster.IsMarker pkt ∨
        s'.Feeds pkt.farmName ∧ ∃ fd ∈ s.busy, s.farmOf fd = pkt.farmName) ∧
      ∀ farmName, farmName ≠ pkt.farmName → s.Feeds farmName → s'.Feeds farmName

section
variable {s s' : HttpSync}

theorem Orderly.feeds (h : s.Orderly) {fd : ℕ} (hbusy : fd ∈ s.busy) : s.Feeds (s.farmOf fd) := by
  rcases h.held fd hbusy with ⟨name,hopen⟩ | hremoving
  · exact .inl ⟨fd,name,hopen,rfl⟩
  · exact .inr hremoving

theorem farmOf_congr (h : ∀ fd : ℕ, s'.farmsFd[fd]? = s.farmsFd[fd]?) (fd : ℕ) :
    s'.farmOf fd = s.farmOf fd := by
  rw [farmOf, farmOf, Std.ExtTreeMap.getD_eq_getD_getElem?, Std.ExtTreeMap.getD_eq_getD_getElem?,
    h]

/-- A step after which the connections to farms, the map and the removal are as before, and the
listen task is at work on no more than before. -/
structure Settled (s s' : HttpSync) : Prop where
  farms : ∀ fd name, s'.sockets fd = some (.farm name) ↔ s.sockets fd = some (.farm name)
  map : ∀ fd : ℕ, s'.farmsFd[fd]? = s.farmsFd[fd]?
  removing : s'.removing = s.removing
  busy : s'.busy.Sublist s.busy

theorem Settled.feeds (h : Settled s s') (farmName : Bytes) :
    s'.Feeds farmName ↔ s.Feeds farmName := by
  unfold Feeds
  simp only [h.farms, h.removing, farmOf_congr h.map]

theorem Settled.orderly (h : Settled s s') (ho : s.Orderly) : s'.Orderly where
  listed fd farmName hopen := (h.map fd).trans (ho.listed fd farmName ((h.farms fd farmName).mp hopen))
  known fd hbusy := by
    have hmem := ho.known fd (h.busy.subset hbusy)
    rw [Std.ExtTreeMap.mem_iff_isSome_getElem?] at hmem ⊢
    rwa [h.map]
  nodup := ho.nodup.sublist h.busy
  held fd hbusy := by
    rcases ho.held fd (h.busy.subset hbusy) with ⟨name,hopen⟩ | hremoving
    · exact .inl ⟨name,(h.farms fd name).mpr hopen⟩
    · exact .inr (by rw [h.removing, farmOf_congr h.map]; exact hremoving)

theorem Settled.queues (h : Settled s s') (hqueue : s'.inputData = s.inputData) : Queues s s' :=
  ⟨.inl ⟨hqueue,fun farmName => (h.feeds farmName).mpr⟩⟩

theorem Settled.refl (s : HttpSync) : Settled s s :=
  ⟨fun _ _ => .rfl,fun _ => rfl,rfl,List.Sublist.refl _⟩

/-- Something that is no connection to a farm is opened or closed. -/
theorem settled_opened (s : HttpSync) {fd : ℕ} {socket : Option Socket}
    (hbefore : ∀ farmName, s.sockets fd ≠ some (.farm farmName))
    (hafter : ∀ farmName, socket ≠ some (.farm farmName)) : Settled s (s.opened fd socket) where
  farms fd' name := by
    rw [sockets_opened]
    split
    · next heq => exact ⟨fun h => absurd h (hafter name),fun h => absurd (heq ▸ h) (hbefore name)⟩
    · exact .rfl
  map _ := rfl
  removing := rfl
  busy := List.Sublist.refl _

theorem settled_send (s : HttpSync) (farmName : Bytes) (action : HttpAction) :
    Settled s (s.send farmName action) := by
  unfold HttpSync.send
  dsimp only
  split <;> exact ⟨fun _ _ => .rfl,fun _ => rfl,rfl,List.Sublist.refl _⟩

theorem send_inputData (s : HttpSync) (farmName : Bytes) (action : HttpAction) :
    (s.send farmName action).inputData = s.inputData := by
  unfold HttpSync.send
  dsimp only
  split <;> rfl

/-- A new connection is listed under its farm, and its marker is queued. -/
theorem Orderly.connected (h : s.Orderly) {fd : ℕ} (hclosed : s.sockets fd = none)
    (farmName : Bytes) :
    let s' : HttpSync := { s.opened fd (some (.farm farmName)) with
      farmsFd := s.farmsFd.insert fd farmName
      inputData := s.inputData ++ [farmMarker .connect farmName fd] }
    s'.Orderly ∧ Queues s s' := by
  intro s'
  have hsocket : ∀ fd', s'.sockets fd' = if fd' = fd then some (.farm farmName) else s.sockets fd' :=
    s.sockets_opened fd (some (.farm farmName))
  have hlist : ∀ fd' : ℕ, s'.farmsFd[fd']? = if fd = fd' then some farmName else s.farmsFd[fd']? :=
    fun fd' => by
      simp only [s', Std.ExtTreeMap.getElem?_insert, Std.LawfulEqCmp.compare_eq_iff_eq]
  have hfarmOf : ∀ fd', fd' ≠ fd → s'.farmOf fd' = s.farmOf fd' := fun fd' hne => by
    rw [farmOf, farmOf, Std.ExtTreeMap.getD_eq_getD_getElem?, Std.ExtTreeMap.getD_eq_getD_getElem?,
      hlist, if_neg (Ne.symm hne)]
  have hkept : ∀ name, s.Feeds name → s'.Feeds name := by
    rintro name (⟨fd',owner,hopen,hof⟩ | hremoving)
    · have hne : fd' ≠ fd := by
        rintro rfl
        rw [hclosed] at hopen
        contradiction
      refine .inl ⟨fd',owner,?_,(hfarmOf fd' hne).trans hof⟩
      rw [hsocket, if_neg hne, hopen]
    · exact .inr hremoving
  refine ⟨⟨?_,?_,h.nodup,?_⟩,⟨.inr ⟨_,rfl,.inl (.inl rfl),fun name _ => hkept name⟩⟩⟩
  · intro fd' name hopen
    rw [hsocket] at hopen
    rw [hlist]
    split at hopen
    · next heq =>
      cases hopen
      exact if_pos heq.symm
    · next hne =>
      rw [if_neg (Ne.symm hne)]
      exact h.listed fd' name hopen
  · intro fd' hbusy
    exact Std.ExtTreeMap.mem_insert.mpr (.inr (h.known fd' hbusy))
  · intro fd' hbusy
    by_cases hfd : fd' = fd
    · exact .inl ⟨farmName,by rw [hsocket, if_pos hfd]⟩
    · rcases h.held fd' hbusy with ⟨name,hopen⟩ | hremoving
      · exact .inl ⟨name,by rw [hsocket, if_neg hfd, hopen]⟩
      · exact .inr (by rw [hfarmOf fd' hfd]; exact hremoving)

theorem Orderly.addFarm (h : s.Orderly) {farmName : Bytes} {add : AddFarm} {ok : Bool}
    (hadd : s.addFarm farmName add = some (s',ok)) : s'.Orderly ∧ Queues s s' := by
  rcases addFarm_cases hadd with ⟨rfl,-⟩ | ⟨fd,hclosed,rfl,-⟩ | ⟨fd,hclosed,-,rfl⟩
  · exact ⟨h,(Settled.refl s').queues rfl⟩
  · have hset : Settled s (s.opened fd (some .other)) :=
      settled_opened s (by simp [hclosed]) (by simp)
    exact ⟨hset.orderly h,hset.queues rfl⟩
  · exact h.connected hclosed farmName

theorem Queues.settled {s'' : HttpSync} (h : Queues s s') (hset : Settled s' s'')
    (hqueue : s''.inputData = s'.inputData) : Queues s s'' := by
  have hfeeds := fun farmName => (hset.feeds farmName).mpr
  rcases h.queue with ⟨heq,hkept⟩ | ⟨pkt,heq,hpkt,hkept⟩
  · exact ⟨.inl ⟨hqueue.trans heq,fun name hf => hfeeds name (hkept name hf)⟩⟩
  · exact ⟨.inr ⟨pkt,hqueue.trans heq,hpkt.imp_right (.imp_left (hfeeds _)),
      fun name hne hf => hfeeds name (hkept name hne hf)⟩⟩

theorem Orderly.sendPoundAction (h : s.Orderly) {farmName : Bytes} {action : HttpAction}
    {add : AddFarm} {ok : Bool} (hsend : s.sendPoundAction farmName action add = some (s',ok)) :
    s'.Orderly ∧ Queues s s' := by
  unfold HttpSync.sendPoundAction at hsend
  split at hsend
  · obtain ⟨⟨t,added⟩,hadd,heq⟩ := Option.map_eq_some_iff.mp hsend
    obtain ⟨ht,hq⟩ := h.addFarm hadd
    dsimp only at heq
    split at heq
    · cases heq
      have hset := settled_send t farmName action
      exact ⟨hset.orderly ht,hq.settled hset (send_inputData t farmName action)⟩
    · cases heq
      exact ⟨ht,hq⟩
  · cases hsend
    have hset := settled_send s farmName action
    exact ⟨hset.orderly h,hset.queues (send_inputData s farmName action)⟩

/-- The farm's connection is closed; its marker is still to come. -/
theorem Orderly.removeFarm (h : s.Orderly) (hidle : s.removing = none) (farmName : Bytes) :
    (s.removeFarm farmName).Orderly ∧ Queues s (s.removeFarm farmName) := by
  unfold HttpSync.removeFarm
  dsimp only
  split
  · next hfound =>
    have hof : s.farmOf (s.getFarmFd farmName) = farmName := farmOf_eq (getElem?_getFarmFd hfound)
    have hsocket := s.sockets_opened (s.getFarmFd farmName) none
    have hopened : ∀ fd name, (s.opened (s.getFarmFd farmName) none).sockets fd = some (.farm name) →
        s.sockets fd = some (.farm name) := by
      intro fd name hopen
      rw [hsocket] at hopen
      split at hopen
      · contradiction
      · exact hopen
    refine ⟨⟨fun fd name hopen => h.listed fd name (hopened fd name hopen),h.known,h.nodup,?_⟩,
      ⟨.inl ⟨rfl,?_⟩⟩⟩
    · intro fd hbusy
      by_cases hfd : fd = s.getFarmFd farmName
      · subst hfd
        exact .inr ⟨_,congrArg (fun name => some (_,name)) hof.symm⟩
      · rcases h.held fd hbusy with ⟨name,hopen⟩ | ⟨fd',hremoving⟩
        · exact .inl ⟨name,((hsocket fd).trans (if_neg hfd)).trans hopen⟩
        · rw [hidle] at hremoving
          contradiction
    · rintro name (⟨fd,owner,hopen,hname⟩ | ⟨fd,hremoving⟩)
      · by_cases hfd : fd = s.getFarmFd farmName
        · subst hfd
          exact .inr ⟨_,congrArg (fun name => some (_,name)) (hof.symm.trans hname)⟩
        · exact .inl ⟨fd,owner,((hsocket fd).trans (if_neg hfd)).trans hopen,hname⟩
      · rw [hidle] at hremoving
        contradiction
  · exact ⟨h,(Settled.refl s).queues rfl⟩

/-- The marker of a farm from which nothing more can come. -/
theorem Orderly.removeReturn (h : s.Orderly) {fd : ℕ} {farmName : Bytes}
    (hremoving : s.removing = some (fd,farmName)) (hquiet : s.Quiet farmName) :
    let s' : HttpSync := { s with
      removing := none, inputData := s.inputData ++ [farmMarker .disconnect farmName fd] }
    s'.Orderly ∧ Queues s s' := by
  refine ⟨{ h with held := ?_ },⟨.inr ⟨_,rfl,.inl (.inr rfl),?_⟩⟩⟩
  · intro fd' hbusy
    rcases h.held fd' hbusy with hopen | ⟨other,hother⟩
    · exact .inl hopen
    · rw [hremoving] at hother
      exact absurd (congrArg Prod.snd (Option.some.inj hother)).symm (hquiet.busy fd' hbusy)
  · rintro name hne (hopen | ⟨fd',hother⟩)
    · exact .inl hopen
    · rw [hremoving] at hother
      exact absurd (congrArg Prod.snd (Option.some.inj hother)).symm hne

theorem Orderly.epollWait (h : s.Orderly) {fds : List ℕ}
    (hchunk : s.chunk.actions = []) (hnodup : fds.Nodup)
    (hfarms : ∀ fd ∈ fds, s.sockets fd ≠ none ∧ s.sockets fd ≠ some .other) :
    Orderly { s with ready := fds } ∧ Queues s { s with ready := fds } := by
  have hbusy : busy { s with ready := fds } = fds := by simp [busy, hchunk]
  have hopen : ∀ fd ∈ fds, ∃ name, s.sockets fd = some (.farm name) := by
    intro fd hfd
    obtain ⟨hsome,hfarm⟩ := hfarms fd hfd
    cases hsocket : s.sockets fd with
    | none => exact absurd hsocket hsome
    | some socket =>
      cases socket with
      | other => exact absurd hsocket hfarm
      | farm farmName => exact ⟨farmName,rfl⟩
  refine ⟨⟨h.listed,?_,by rw [hbusy]; exact hnodup,?_⟩,⟨.inl ⟨rfl,fun _ => id⟩⟩⟩
  · intro fd hfd
    rw [hbusy] at hfd
    obtain ⟨name,hname⟩ := hopen fd hfd
    rw [Std.ExtTreeMap.mem_iff_isSome_getElem?]
    exact (congrArg Option.isSome (h.listed fd name hname)).trans rfl
  · intro fd hfd
    rw [hbusy] at hfd
    exact .inl (hopen fd hfd)

theorem busy_of_ready {fd : ℕ} {ready : List ℕ} (hready : s.ready = fd::ready)
    (hchunk : s.chunk.actions = []) : s.busy = fd::ready := by
  simp [busy, hready, hchunk]

/-- A ready connection whose descriptor is closed is passed over. -/
theorem settled_passed {fd : ℕ} {ready : List ℕ} (hready : s.ready = fd::ready)
    (hchunk : s.chunk.actions = []) : Settled s { s with ready } := by
  refine ⟨fun _ _ => .rfl,fun _ => rfl,rfl,?_⟩
  rw [busy_of_ready hready hchunk]
  simp [busy, hchunk]

theorem settled_receive {fd : ℕ} {ready : List ℕ} (hready : s.ready = fd::ready)
    (hchunk : s.chunk.actions = []) (origin : Option Socket) (actions : List HttpAction) :
    Settled s { s with ready, chunk := { fd, origin, actions } } := by
  refine ⟨fun _ _ => .rfl,fun _ => rfl,rfl,?_⟩
  rw [busy_of_ready hready hchunk]
  simp only [busy]
  split
  · exact List.sublist_cons_self fd ready
  · exact List.Sublist.refl _

theorem mem_busy_of_chunk {action : HttpAction} {actions : List HttpAction}
    (hactions : s.chunk.actions = action::actions) : s.chunk.fd ∈ s.busy := by
  simp [busy, hactions]

theorem settled_enqueue (h : s.Orderly) {action : HttpAction} {actions : List HttpAction}
    (hactions : s.chunk.actions = action::actions) (inputData : List HttpAction)
    (queued : List (Option Socket × Bytes)) :
    Settled s { s with
      farmsFd := s.farmsFd.insertIfNew s.chunk.fd []
      chunk := { s.chunk with actions }
      inputData, queued } := by
  have hmap := insertIfNew_of_mem (h.known _ (mem_busy_of_chunk hactions))
  refine ⟨fun _ _ => .rfl,hmap,rfl,?_⟩
  simp only [busy, hactions]
  split
  · exact List.sublist_cons_self _ _
  · exact List.Sublist.refl _

/-- An action of a chunk comes from a farm that still feeds the queue. -/
theorem Orderly.enqueue (h : s.Orderly) {action : HttpAction} {actions : List HttpAction}
    (hactions : s.chunk.actions = action::actions) :
    let s' : HttpSync := { s with
      farmsFd := s.farmsFd.insertIfNew s.chunk.fd []
      inputData := s.inputData ++
        [{ action with farmName := s.farmOf s.chunk.fd, fd := s.chunk.fd }]
      chunk := { s.chunk with actions }
      queued := s.queued ++ [(s.chunk.origin,s.farmOf s.chunk.fd)] }
    s'.Orderly ∧ Queues s s' := by
  have hmem := mem_busy_of_chunk hactions
  have hset := settled_enqueue h hactions (s.inputData ++
    [{ action with farmName := s.farmOf s.chunk.fd, fd := s.chunk.fd }])
    (s.queued ++ [(s.chunk.origin,s.farmOf s.chunk.fd)])
  refine ⟨hset.orderly h,⟨.inr ⟨_,rfl,.inr ?_,fun name _ => (hset.feeds name).mpr⟩⟩⟩
  exact ⟨(hset.feeds _).mpr (h.feeds hmem),_,hmem,rfl⟩

/-- The peer's connection is closed and its marker queued, before another chunk is read. -/
theorem Orderly.peerDisconnect (h : s.Orderly) {fd : ℕ} {ready : List ℕ}
    (hready : s.ready = fd::ready) (hchunk : s.chunk.actions = []) :
    (peerDisconnectHandler { s with ready } fd).Orderly ∧
      Queues s (peerDisconnectHandler { s with ready } fd) := by
  have hbusy := busy_of_ready hready hchunk
  have hmem : fd ∈ s.busy := hbusy ▸ List.mem_cons_self ..
  have hrest : busy (peerDisconnectHandler { s with ready } fd) = ready := by
    simp [busy, peerDisconnectHandler, opened, hchunk]
  have hnodup := h.nodup
  rw [hbusy] at hnodup
  have hmap : ∀ fd' : ℕ, (peerDisconnectHandler { s with ready } fd).farmsFd[fd']? =
      s.farmsFd[fd']? := insertIfNew_of_mem (h.known fd hmem)
  have hof := farmOf_congr hmap
  have hsocket : ∀ fd', (peerDisconnectHandler { s with ready } fd).sockets fd' =
      if fd' = fd then none else s.sockets fd' := sockets_opened { s with ready } fd none
  refine ⟨⟨?_,?_,?_,?_⟩,⟨.inr ⟨_,rfl,.inl (.inr rfl),?_⟩⟩⟩
  · intro fd' name hopen
    rw [hsocket] at hopen
    split at hopen
    · contradiction
    · rw [hmap, h.listed fd' name hopen]
  · intro fd' hfd'
    rw [hrest] at hfd'
    have hold := h.known fd' (hbusy ▸ List.mem_cons_of_mem _ hfd')
    rw [Std.ExtTreeMap.mem_iff_isSome_getElem?] at hold ⊢
    rwa [hmap]
  · rw [hrest]
    exact (List.nodup_cons.mp hnodup).2
  · intro fd' hfd'
    rw [hrest] at hfd'
    have hne : fd' ≠ fd := fun heq => (List.nodup_cons.mp hnodup).1 (heq ▸ hfd')
    rcases h.held fd' (hbusy ▸ List.mem_cons_of_mem _ hfd') with ⟨name,hopen⟩ | hremoving
    · exact .inl ⟨name,by rw [hsocket, if_neg hne, hopen]⟩
    · exact .inr (by rw [hof]; exact hremoving)
  · rintro name hne (⟨fd',owner,hopen,hname⟩ | hremoving)
    · refine .inl ⟨fd',owner,?_,(hof fd').trans hname⟩
      rw [hsocket, if_neg, hopen]
      rintro rfl
      exact hne hname.symm
    · exact .inr hremoving

/-- One step of the listener, where a removal returns once nothing more can come. -/
theorem Orderly.step {e : Event} (h : s.Orderly)
    (hsettles : ∀ farmName, s.Returns e farmName → s.Quiet farmName)
    (hstep : s.step e = some s') : s'.Orderly ∧ Queues s s' := by
  unfold HttpSync.step at hstep
  cases e <;> dsimp only at hstep
  case addFarm farmName add =>
    split at hstep
    · obtain ⟨⟨t,ok⟩,hadd,rfl⟩ := Option.map_eq_some_iff.mp hstep
      exact h.addFarm hadd
    · contradiction
  case removeFarm farmName =>
    split at hstep
    · next hidle =>
      cases hstep
      exact h.removeFarm hidle farmName
    · contradiction
  case removeReturn =>
    obtain ⟨⟨fd,farmName⟩,hremoving,rfl⟩ := Option.map_eq_some_iff.mp hstep
    exact h.removeReturn hremoving (hsettles farmName (.inl ⟨rfl,fd,hremoving⟩))
  case sendPoundAction farmName action add =>
    obtain ⟨⟨t,ok⟩,hsend,rfl⟩ := Option.map_eq_some_iff.mp hstep
    exact h.sendPoundAction hsend
  case epollWait fds =>
    split at hstep
    · next hidle =>
      cases hstep
      exact h.epollWait hidle.2.1 hidle.2.2.1 hidle.2.2.2
    · contradiction
  case receive actions =>
    split at hstep
    · next fd ready hready hchunk =>
      split at hstep
      · next socket _ =>
        cases hstep
        have hset := settled_receive hready hchunk (some socket) actions
        exact ⟨hset.orderly h,hset.queues rfl⟩
      · cases hstep
        have hset := settled_passed hready hchunk
        exact ⟨hset.orderly h,hset.queues rfl⟩
    · contradiction
  case enqueue =>
    split at hstep
    · next action actions hactions =>
      cases hstep
      exact h.enqueue hactions
    · contradiction
  case peerDisconnect =>
    split at hstep
    · next fd ready hready hchunk =>
      split at hstep
      · cases hstep
        exact h.peerDisconnect hready hchunk
      · contradiction
    · contradiction
  case openOther fd =>
    split at hstep
    · next hclosed =>
      cases hstep
      have hset : Settled s (s.opened fd (some .other)) :=
        settled_opened s (by simp [hclosed]) (by simp)
      exact ⟨hset.orderly h,hset.queues rfl⟩
    · contradiction
  case closeOther fd =>
    split at hstep
    · next hother =>
      cases hstep
      have hset : Settled s (s.opened fd none) := settled_opened s (by simp [hother]) (by simp)
      exact ⟨hset.orderly h,hset.queues rfl⟩
    · contradiction

theorem Settled.quiet (h : Settled s s') {farmName : Bytes} (hq : s.Quiet farmName) :
    s'.Quiet farmName where
  busy fd hbusy := farmOf_congr h.map fd ▸ hq.busy fd (h.busy.subset hbusy)
  closed fd name hof hopen :=
    hq.closed fd name ((farmOf_congr h.map fd).symm.trans hof) ((h.farms fd name).mp hopen)

/-- A farm from which nothing comes stays so when other farms are added. -/
theorem Quiet.connected {farmName other : Bytes} (hq : s.Quiet farmName) (hne : other ≠ farmName)
    (fd : ℕ) (inputData : List HttpAction) :
    Quiet { s.opened fd (some (.farm other)) with
      farmsFd := s.farmsFd.insert fd other, inputData } farmName := by
  have hof : ∀ fd', (s.farmsFd.insert fd other).getD fd' [] = farmName →
      fd' ≠ fd ∧ s.farmOf fd' = farmName := by
    intro fd' hof
    rw [Table.getD_insert_eq] at hof
    split at hof
    · exact absurd hof hne
    · next hfd => exact ⟨Ne.symm hfd,hof⟩
  constructor
  · exact fun fd' hbusy hfarm => hq.busy fd' hbusy (hof fd' hfarm).2
  · intro fd' name hfarm hopen
    obtain ⟨hfd,hold⟩ := hof fd' hfarm
    refine hq.closed fd' name hold ?_
    rw [← hopen]
    exact ((s.sockets_opened fd _ fd').trans (if_neg hfd)).symm

theorem Quiet.addFarm {farmName other : Bytes} (hq : s.Quiet farmName) {add : AddFarm} {ok : Bool}
    (hadds : ∀ fd, add = .connected fd → other ≠ farmName)
    (hadd : s.addFarm other add = some (s',ok)) : s'.Quiet farmName := by
  cases add with
  | noSocket =>
    cases hadd
    exact hq
  | notConnected fd =>
    simp only [HttpSync.addFarm] at hadd
    split at hadd
    · next hclosed =>
      cases hadd
      have hset : Settled s (s.opened fd (some .other)) :=
        settled_opened s (by simp [hclosed]) (by simp)
      exact hset.quiet hq
    · contradiction
  | connected fd =>
    simp only [HttpSync.addFarm] at hadd
    split at hadd
    · cases hadd
      exact hq.connected (hadds fd rfl) fd _
    · contradiction

theorem Quiet.sendPoundAction {farmName other : Bytes} (hq : s.Quiet farmName)
    {action : HttpAction} {add : AddFarm} {ok : Bool}
    (hadds : ∀ fd, add = .connected fd → s.getFarmFd other = 0 → other ≠ farmName)
    (hsend : s.sendPoundAction other action add = some (s',ok)) : s'.Quiet farmName := by
  unfold HttpSync.sendPoundAction at hsend
  split at hsend
  · next hnone =>
    obtain ⟨⟨t,added⟩,hadd,heq⟩ := Option.map_eq_some_iff.mp hsend
    have ht : t.Quiet farmName := hq.addFarm (fun fd hfd => hadds fd hfd hnone) hadd
    dsimp only at heq
    split at heq
    · cases heq
      exact (settled_send t other action).quiet ht
    · cases heq
      exact ht
  · cases hsend
    exact (settled_send s other action).quiet hq

theorem Quiet.removeFarm {farmName : Bytes} (hq : s.Quiet farmName) (other : Bytes) :
    (s.removeFarm other).Quiet farmName := by
  unfold HttpSync.removeFarm
  dsimp only
  split
  · refine ⟨hq.busy,fun fd name hof hopen => hq.closed fd name hof ?_⟩
    have hopen := (s.sockets_opened (s.getFarmFd other) none fd).symm.trans hopen
    split at hopen
    · contradiction
    · exact hopen
  · exact hq

/-- Nothing comes from the farm again before it is added. -/
theorem Quiet.step {e : Event} {farmName : Bytes} (hq : s.Quiet farmName) (h : s.Orderly)
    (hadds : ¬s.Adds e farmName) (hstep : s.step e = some s') : s'.Quiet farmName := by
  unfold HttpSync.step at hstep
  cases e <;> dsimp only at hstep
  case addFarm other add =>
    split at hstep
    · obtain ⟨⟨t,ok⟩,hadd,rfl⟩ := Option.map_eq_some_iff.mp hstep
      refine hq.addFarm ?_ hadd
      rintro fd rfl rfl
      exact hadds (.inl ⟨fd,rfl⟩)
    · contradiction
  case removeFarm other =>
    split at hstep
    · cases hstep
      exact hq.removeFarm other
    · contradiction
  case removeReturn =>
    obtain ⟨⟨fd,other⟩,hremoving,rfl⟩ := Option.map_eq_some_iff.mp hstep
    exact { hq with }
  case sendPoundAction other action add =>
    obtain ⟨⟨t,ok⟩,hsend,rfl⟩ := Option.map_eq_some_iff.mp hstep
    refine hq.sendPoundAction ?_ hsend
    rintro fd rfl hnone rfl
    exact hadds (.inr ⟨action,fd,rfl,hnone⟩)
  case epollWait fds =>
    split at hstep
    · next hidle =>
      cases hstep
      refine ⟨fun fd hbusy hof => ?_,hq.closed⟩
      have hfd : fd ∈ fds := by simpa [HttpSync.busy, hidle.2.1] using hbusy
      obtain ⟨hsome,hfarm⟩ := hidle.2.2.2 fd hfd
      cases hsocket : s.sockets fd with
      | none => exact hsome hsocket
      | some socket =>
        cases socket with
        | other => exact hfarm hsocket
        | farm name => exact hq.closed fd name hof hsocket
    · contradiction
  case receive actions =>
    split at hstep
    · next fd ready hready hchunk =>
      split at hstep
      · cases hstep
        exact (settled_receive hready hchunk (some _) actions).quiet hq
      · cases hstep
        exact (settled_passed hready hchunk).quiet hq
    · contradiction
  case enqueue =>
    split at hstep
    · next action actions hactions =>
      cases hstep
      exact (settled_enqueue h hactions _ _).quiet hq
    · contradiction
  case peerDisconnect =>
    split at hstep
    · next fd ready hready hchunk =>
      have hbusy := busy_of_ready hready hchunk
      have hmem : fd ∈ s.busy := hbusy ▸ List.mem_cons_self ..
      split at hstep
      · cases hstep
        have hmap : ∀ fd' : ℕ, (peerDisconnectHandler { s with ready } fd).farmsFd[fd']? =
            s.farmsFd[fd']? := insertIfNew_of_mem (h.known fd hmem)
        have hof := farmOf_congr hmap
        refine ⟨fun fd' hfd' => ?_,fun fd' name hfarm hopen => ?_⟩
        · rw [hof]
          refine hq.busy fd' (hbusy ▸ List.mem_cons_of_mem _ ?_)
          simpa [HttpSync.busy, peerDisconnectHandler, opened, hchunk] using hfd'
        · rw [hof] at hfarm
          have hopen := (sockets_opened { s with ready } fd none fd').symm.trans hopen
          split at hopen
          · contradiction
          · exact hq.closed fd' name hfarm hopen
      · contradiction
    · contradiction
  case openOther fd =>
    split at hstep
    · next hclosed =>
      cases hstep
      have hset : Settled s (s.opened fd (some .other)) :=
        settled_opened s (by simp [hclosed]) (by simp)
      exact hset.quiet hq
    · contradiction
  case closeOther fd =>
    split at hstep
    · next hother =>
      cases hstep
      have hset : Settled s (s.opened fd none) := settled_opened s (by simp [hother]) (by simp)
      exact hset.quiet hq
    · contradiction

end

end HttpSync

end Ssyncd
