import Ssyncd.Listener.HttpSync
import Ssyncd.Library.Table

/-! When the listener's descriptors are what its map says, and whom it writes to. -/
namespace Ssyncd.HttpSync
open Http

/-- Each listed descriptor is an open connection to its farm; every write and every close went to
a connection of the farm that was meant, and every action was queued with the name of the farm
that it came from. -/
structure Live (s : HttpSync) : Prop where
  listed : ∀ fd farmName, s.farmsFd[fd]? = some farmName → s.sockets fd = some (.farm farmName)
  written : ∀ w ∈ s.written, w.2 = some (.farm w.1)
  closed : ∀ c ∈ s.closed, c.2 = some (.farm c.1)
  queued : ∀ q ∈ s.queued, q.1 = some (.farm q.2)

/-- A step that closes a listed descriptor: the removal of a farm that is found, or the
disconnection of a peer. -/
def Closes (s : HttpSync) : Event → Prop
  | .removeFarm farmName => s.removing = none ∧ s.getFarmFd farmName ≠ 0
  | .peerDisconnect =>
    s.chunk.actions = [] ∧ ∃ fd ready, s.ready = fd::ready ∧ s.sockets fd ≠ none
  | _ => False

/-- While nothing has been closed: the listen task only holds listed connections, and every
connection to a farm is listed. -/
structure Held (s : HttpSync) : Prop extends Live s where
  removing : s.removing = none
  farms : ∀ fd farmName, s.sockets fd = some (.farm farmName) → s.farmsFd[fd]? = some farmName
  ready : ∀ fd ∈ s.ready, ∃ farmName, s.farmsFd[fd]? = some farmName
  chunk : s.chunk.actions ≠ [] → ∃ farmName, s.farmsFd[s.chunk.fd]? = some farmName ∧
    s.chunk.origin = some (.farm farmName)

theorem foldl_last (farmName : Bytes) (farms : List (ℕ × Bytes)) (fd : ℕ) :
    let last := farms.foldl (fun fd farmFd => if farmFd.2 = farmName then farmFd.1 else fd) fd
    (last = fd ∧ ∀ farmFd ∈ farms, farmFd.2 ≠ farmName) ∨ (last,farmName) ∈ farms := by
  induction farms generalizing fd with
  | nil => exact .inl ⟨rfl,nofun⟩
  | cons farmFd farms ih =>
    rw [List.foldl_cons]
    by_cases hname : farmFd.2 = farmName
    · rw [if_pos hname]
      rcases ih farmFd.1 with ⟨hlast,-⟩ | hmem
      · refine .inr (List.mem_cons.mpr (.inl ?_))
        exact Prod.ext hlast hname.symm
      · exact .inr (List.mem_cons_of_mem _ hmem)
    · rw [if_neg hname]
      rcases ih fd with ⟨hlast,hnone⟩ | hmem
      · exact .inl ⟨hlast,List.forall_mem_cons.mpr ⟨hname,hnone⟩⟩
      · exact .inr (List.mem_cons_of_mem _ hmem)

theorem le_foldl_last {farmName : Bytes} {farms : List (ℕ × Bytes)} {fd : ℕ}
    (hordered : farms.Pairwise (·.1 < ·.1)) (hfirst : ∀ farmFd ∈ farms, fd ≤ farmFd.1) :
    let last := farms.foldl (fun fd farmFd => if farmFd.2 = farmName then farmFd.1 else fd) fd
    fd ≤ last ∧ ∀ farmFd ∈ farms, farmFd.2 = farmName → farmFd.1 ≤ last := by
  induction farms generalizing fd with
  | nil => exact ⟨Nat.le_refl fd,nofun⟩
  | cons farmFd farms ih =>
    obtain ⟨hbelow,hrest⟩ := List.pairwise_cons.mp hordered
    obtain ⟨hle,hfirst⟩ := List.forall_mem_cons.mp hfirst
    rw [List.foldl_cons]
    by_cases hname : farmFd.2 = farmName
    · rw [if_pos hname]
      obtain ⟨hlast,hall⟩ := ih hrest fun other hother => Nat.le_of_lt (hbelow other hother)
      exact ⟨Nat.le_trans hle hlast,List.forall_mem_cons.mpr ⟨fun _ => hlast,hall⟩⟩
    · rw [if_neg hname]
      obtain ⟨hlast,hall⟩ := ih hrest hfirst
      exact ⟨hlast,List.forall_mem_cons.mpr ⟨fun h => absurd h hname,hall⟩⟩

/-- Of the descriptors that are listed for a farm the highest is found. -/
theorem le_getFarmFd {s : HttpSync} {fd : ℕ} {farmName : Bytes}
    (h : s.farmsFd[fd]? = some farmName) : fd ≤ s.getFarmFd farmName := by
  have hordered : s.farmsFd.toList.Pairwise (·.1 < ·.1) :=
    Std.ExtTreeMap.ordered_keys_toList.imp fun hlt => Std.compare_eq_lt.mp hlt
  exact (le_foldl_last hordered fun _ _ => Nat.zero_le _).2 (fd,farmName)
    (Std.ExtTreeMap.mem_toList_iff_getElem?_eq_some.mpr h) rfl

/-- A farm that is listed is found, under a descriptor of its own. -/
theorem getFarmFd_cases (s : HttpSync) (farmName : Bytes) :
    (s.getFarmFd farmName = 0 ∧ ∀ fd : ℕ, s.farmsFd[fd]? ≠ some farmName) ∨
      s.farmsFd[s.getFarmFd farmName]? = some farmName := by
  rcases foldl_last farmName s.farmsFd.toList 0 with ⟨hzero,hnone⟩ | hmem
  · refine .inl ⟨hzero,fun fd hfd => ?_⟩
    exact hnone (fd,farmName) (Std.ExtTreeMap.mem_toList_iff_getElem?_eq_some.mpr hfd) rfl
  · exact .inr (Std.ExtTreeMap.mem_toList_iff_getElem?_eq_some.mp hmem)

theorem getElem?_getFarmFd {s : HttpSync} {farmName : Bytes} (h : s.getFarmFd farmName ≠ 0) :
    s.farmsFd[s.getFarmFd farmName]? = some farmName :=
  (s.getFarmFd_cases farmName).resolve_left fun hzero => h hzero.1

theorem farmOf_eq {s : HttpSync} {fd : ℕ} {farmName : Bytes}
    (h : s.farmsFd[fd]? = some farmName) : s.farmOf fd = farmName := by
  rw [farmOf, Table.getD_of_getElem? h]

theorem insertIfNew_of_mem {farmsFd : Std.ExtTreeMap ℕ Bytes} {fd : ℕ} (hmem : fd ∈ farmsFd)
    (fd' : ℕ) : (farmsFd.insertIfNew fd [])[fd']? = farmsFd[fd']? := by
  rw [Std.ExtTreeMap.getElem?_insertIfNew, if_neg fun hnew => hnew.2 hmem]

theorem insertIfNew_listed {s : HttpSync} {fd : ℕ} {farmName : Bytes}
    (h : s.farmsFd[fd]? = some farmName) (fd' : ℕ) :
    (s.farmsFd.insertIfNew fd [])[fd']? = s.farmsFd[fd']? := by
  refine insertIfNew_of_mem ?_ fd'
  rw [Std.ExtTreeMap.mem_iff_isSome_getElem?, h]
  rfl

theorem sockets_opened (s : HttpSync) (fd : ℕ) (socket : Option Socket) (fd' : ℕ) :
    (s.opened fd socket).sockets fd' = if fd' = fd then socket else s.sockets fd' := by
  simp only [opened, Function.update_apply]

/-- A descriptor that is no farm's is opened or closed for something else. -/
theorem Held.other {s : HttpSync} (h : s.Held) {fd : ℕ} {socket : Option Socket}
    (hbefore : ∀ farmName, s.sockets fd ≠ some (.farm farmName))
    (hafter : ∀ farmName, socket ≠ some (.farm farmName)) : (s.opened fd socket).Held where
  listed fd' farmName hfd := by
    have hopen := h.listed fd' farmName hfd
    rw [sockets_opened, if_neg, hopen]
    rintro rfl
    exact hbefore farmName hopen
  written := h.written
  closed := h.closed
  queued := h.queued
  removing := h.removing
  farms fd' farmName hopen := by
    rw [sockets_opened] at hopen
    split at hopen
    · exact absurd hopen (hafter farmName)
    · exact h.farms fd' farmName hopen
  ready := h.ready
  chunk := h.chunk

/-- A closed descriptor becomes a connection to a farm. -/
theorem Held.connected {s : HttpSync} (h : s.Held) {fd : ℕ} (hclosed : s.sockets fd = none)
    (farmName : Bytes) (inputData : List HttpAction) :
    Held { s.opened fd (some (.farm farmName)) with
      farmsFd := s.farmsFd.insert fd farmName, inputData } := by
  have hsocket := s.sockets_opened fd (some (.farm farmName))
  have hlist : ∀ fd' : ℕ, (s.farmsFd.insert fd farmName)[fd']? =
      if fd = fd' then some farmName else s.farmsFd[fd']? := fun fd' => by
    simp only [Std.ExtTreeMap.getElem?_insert, Std.LawfulEqCmp.compare_eq_iff_eq]
  have hkept : ∀ (fd' : ℕ) (name : Bytes), s.farmsFd[fd']? = some name →
      (s.farmsFd.insert fd farmName)[fd']? = some name := by
    intro fd' name hfd
    have hopen := h.listed fd' name hfd
    rw [hlist, if_neg, hfd]
    rintro rfl
    rw [hclosed] at hopen
    contradiction
  constructor
  · constructor
    · intro fd' name hfd
      have hfd := (hlist fd').symm.trans hfd
      refine (hsocket fd').trans ?_
      split at hfd
      · next heq => rw [if_pos heq.symm, Option.some.inj hfd]
      · next hne => rw [if_neg fun heq => hne heq.symm, h.listed fd' name hfd]
    · exact h.written
    · exact h.closed
    · exact h.queued
  · exact h.removing
  · intro fd' name hopen
    have hopen := (hsocket fd').symm.trans hopen
    refine (hlist fd').trans ?_
    split at hopen
    · next heq =>
      cases hopen
      exact if_pos heq.symm
    · next hne => rw [if_neg fun heq => hne heq.symm, h.farms fd' name hopen]
  · intro fd' hready
    obtain ⟨name,hname⟩ := h.ready fd' hready
    exact ⟨name,hkept fd' name hname⟩
  · intro hactions
    obtain ⟨name,hname,horigin⟩ := h.chunk hactions
    exact ⟨name,hkept _ name hname,horigin⟩

/-- What `add_farm` can do. -/
theorem addFarm_cases {s s' : HttpSync} {farmName : Bytes} {add : AddFarm} {ok : Bool}
    (hadd : s.addFarm farmName add = some (s',ok)) :
    (s' = s ∧ ok = false) ∨
      (∃ fd, s.sockets fd = none ∧ s' = s.opened fd (some .other) ∧ ok = false) ∨
      ∃ fd, s.sockets fd = none ∧ ok = true ∧ s' = { s.opened fd (some (.farm farmName)) with
        farmsFd := s.farmsFd.insert fd farmName
        inputData := s.inputData ++ [farmMarker .connect farmName fd] } := by
  cases add with
  | noSocket =>
    cases hadd
    exact .inl ⟨rfl,rfl⟩
  | notConnected fd =>
    simp only [addFarm] at hadd
    split at hadd
    · next hclosed =>
      cases hadd
      exact .inr (.inl ⟨fd,hclosed,rfl,rfl⟩)
    · contradiction
  | connected fd =>
    simp only [addFarm] at hadd
    split at hadd
    · next hclosed =>
      cases hadd
      exact .inr (.inr ⟨fd,hclosed,rfl,rfl⟩)
    · contradiction

theorem Held.addFarm {s s' : HttpSync} (h : s.Held) {farmName : Bytes} {add : AddFarm} {ok : Bool}
    (hadd : s.addFarm farmName add = some (s',ok)) :
    s'.Held ∧ (ok = true → ∃ fd : ℕ, s'.farmsFd[fd]? = some farmName) := by
  rcases addFarm_cases hadd with ⟨rfl,rfl⟩ | ⟨fd,hclosed,rfl,rfl⟩ | ⟨fd,hclosed,rfl,rfl⟩
  · exact ⟨h,nofun⟩
  · exact ⟨h.other (by simp [hclosed]) (by simp),nofun⟩
  · exact ⟨h.connected hclosed farmName _,fun _ => ⟨fd,Std.ExtTreeMap.getElem?_insert_self⟩⟩

/-- Whatever is sent for a listed farm goes to a connection of that farm. -/
theorem Held.send {s : HttpSync} (h : s.Held) {farmName : Bytes}
    (hlisted : ∃ fd : ℕ, s.farmsFd[fd]? = some farmName) (action : HttpAction) :
    (s.send farmName action).Held := by
  obtain ⟨fd,hfd⟩ := hlisted
  have hfound := (s.getFarmFd_cases farmName).resolve_left fun hnone => hnone.2 fd hfd
  unfold HttpSync.send
  dsimp only
  split
  · refine { h with written := ?_ }
    intro w hw
    rcases List.mem_append.mp hw with hw | hw
    · exact h.written w hw
    · obtain rfl := List.mem_singleton.mp hw
      exact h.listed _ _ hfound
  · exact h

theorem Held.sendPoundAction {s s' : HttpSync} (h : s.Held) {farmName : Bytes}
    {action : HttpAction} {add : AddFarm} {ok : Bool}
    (hsend : s.sendPoundAction farmName action add = some (s',ok)) : s'.Held := by
  unfold HttpSync.sendPoundAction at hsend
  split at hsend
  · obtain ⟨⟨t,added⟩,hadd,heq⟩ := Option.map_eq_some_iff.mp hsend
    obtain ⟨ht,hlisted⟩ := h.addFarm hadd
    dsimp only at heq
    split at heq
    · next hadded =>
      cases heq
      exact ht.send (hlisted hadded) action
    · cases heq
      exact ht
  · next hfound =>
    cases hsend
    exact h.send ⟨_,getElem?_getFarmFd hfound⟩ action

theorem Held.receive {s s' : HttpSync} (h : s.Held) {actions : List HttpAction}
    (hstep : s.step (.receive actions) = some s') : s'.Held := by
  unfold HttpSync.step at hstep
  dsimp only at hstep
  split at hstep
  · next fd ready hready _ =>
    have hrest : ∀ fd' ∈ ready, ∃ farmName, s.farmsFd[fd']? = some farmName :=
      fun fd' hmem => h.ready fd' (hready ▸ List.mem_cons_of_mem _ hmem)
    obtain ⟨farmName,hlisted⟩ := h.ready fd (hready ▸ List.mem_cons_self ..)
    have hopen := h.listed fd farmName hlisted
    rw [hopen] at hstep
    cases hstep
    exact { h with ready := hrest, chunk := fun _ => ⟨farmName,hlisted,rfl⟩ }
  · contradiction

theorem Held.enqueue {s s' : HttpSync} (h : s.Held) (hstep : s.step .enqueue = some s') :
    s'.Held := by
  unfold HttpSync.step at hstep
  dsimp only at hstep
  split at hstep
  · next action actions hactions =>
    obtain ⟨farmName,hlisted,horigin⟩ := h.chunk (by rw [hactions]; exact List.cons_ne_nil _ _)
    have hsame := insertIfNew_listed hlisted
    cases hstep
    constructor
    · constructor
      · intro fd name hfd
        exact h.listed fd name ((hsame fd).symm.trans hfd)
      · exact h.written
      · exact h.closed
      · intro q hq
        rcases List.mem_append.mp hq with hq | hq
        · exact h.queued q hq
        · obtain rfl := List.mem_singleton.mp hq
          rw [farmOf_eq hlisted]
          exact horigin
    · exact h.removing
    · exact fun fd name hopen => (hsame fd).trans (h.farms fd name hopen)
    · intro fd hfd
      obtain ⟨name,hname⟩ := h.ready fd hfd
      exact ⟨name,(hsame fd).trans hname⟩
    · exact fun _ => ⟨farmName,(hsame _).trans hlisted,horigin⟩
  · contradiction

/-- Every step that closes no listed descriptor keeps the descriptors live. -/
theorem Held.step {s s' : HttpSync} {e : Event} (h : s.Held) (hopen : ¬Closes s e)
    (hstep : s.step e = some s') : s'.Held := by
  cases e with
  | addFarm farmName add =>
    rw [HttpSync.step, if_pos h.removing] at hstep
    obtain ⟨⟨t,ok⟩,hadd,rfl⟩ := Option.map_eq_some_iff.mp hstep
    exact (h.addFarm hadd).1
  | removeFarm farmName =>
    have hnone : s.getFarmFd farmName = 0 := by
      by_contra hfound
      exact hopen ⟨h.removing,hfound⟩
    rw [HttpSync.step, if_pos h.removing] at hstep
    cases hstep
    unfold HttpSync.removeFarm
    rw [if_neg (not_not.mpr hnone)]
    exact h
  | removeReturn =>
    rw [HttpSync.step, h.removing] at hstep
    contradiction
  | sendPoundAction farmName action add =>
    obtain ⟨⟨t,ok⟩,hsend,rfl⟩ := Option.map_eq_some_iff.mp hstep
    exact h.sendPoundAction hsend
  | epollWait fds =>
    unfold HttpSync.step at hstep
    dsimp only at hstep
    split at hstep
    · next hidle =>
      cases hstep
      refine { h with ready := fun fd hfd => ?_ }
      obtain ⟨hsome,hfarm⟩ := hidle.2.2.2 fd hfd
      cases hsocket : s.sockets fd with
      | none => exact absurd hsocket hsome
      | some socket =>
        cases socket with
        | other => exact absurd hsocket hfarm
        | farm farmName => exact ⟨farmName,h.farms fd farmName hsocket⟩
    · contradiction
  | receive actions => exact h.receive hstep
  | enqueue => exact h.enqueue hstep
  | peerDisconnect =>
    unfold HttpSync.step at hstep
    dsimp only at hstep
    split at hstep
    · next fd ready hready hactions =>
      split at hstep
      · next hsocket => exact absurd ⟨hactions,fd,ready,hready,by rw [hsocket]; nofun⟩ hopen
      · contradiction
    · contradiction
  | openOther fd =>
    unfold HttpSync.step at hstep
    dsimp only at hstep
    split at hstep
    · next hclosed =>
      cases hstep
      exact h.other (by simp [hclosed]) (by simp)
    · contradiction
  | closeOther fd =>
    unfold HttpSync.step at hstep
    dsimp only at hstep
    split at hstep
    · next hother =>
      cases hstep
      exact h.other (by simp [hother]) (by simp)
    · contradiction

theorem not_live_of_closed {s : HttpSync} (fd : ℕ) {farmName : Bytes}
    (hlisted : s.farmsFd[fd]? = some farmName) (hclosed : s.sockets fd = none) : ¬s.Live := by
  intro hlive
  have hopen := hlive.listed fd farmName hlisted
  rw [hclosed] at hopen
  contradiction

/-- The map keeps what has been closed. -/
theorem Held.breaks {s : HttpSync} {e : Event} (h : s.Held) (hcloses : Closes s e) :
    ∃ s', s.step e = some s' ∧ ¬s'.Live := by
  cases e with
  | removeFarm farmName =>
    obtain ⟨hidle,hfound⟩ := hcloses
    refine ⟨s.removeFarm farmName,if_pos hidle,?_⟩
    unfold HttpSync.removeFarm
    rw [if_pos hfound]
    refine not_live_of_closed _ (getElem?_getFarmFd hfound) ?_
    exact (s.sockets_opened _ none _).trans (if_pos rfl)
  | peerDisconnect =>
    obtain ⟨hactions,fd,ready,hready,hsocket⟩ := hcloses
    obtain ⟨farmName,hlisted⟩ := h.ready fd (hready ▸ List.mem_cons_self ..)
    obtain ⟨socket,hsome⟩ := Option.ne_none_iff_exists'.mp hsocket
    refine ⟨peerDisconnectHandler { s with ready } fd,?_,?_⟩
    · unfold HttpSync.step
      dsimp only
      rw [hready, hactions]
      dsimp only
      rw [hsome]
    · refine not_live_of_closed fd ((insertIfNew_listed hlisted fd).trans hlisted) ?_
      exact (sockets_opened { s with ready } fd none fd).trans (if_pos rfl)
  | addFarm | removeReturn | sendPoundAction | epollWait | receive | enqueue | openOther
    | closeOther => exact hcloses.elim

theorem held_initial (isOpen : ℕ → Bool) : (initial isOpen).Held where
  listed fd farmName hfd := by simp [initial] at hfd
  written := nofun
  closed := nofun
  queued := nofun
  removing := rfl
  farms fd farmName hopen := by
    simp only [initial] at hopen
    split at hopen <;> cases hopen
  ready := nofun
  chunk hactions := absurd rfl hactions

/-- Whatever is added, removed, closed, sent and received in any order, the descriptors stay
live exactly in the runs in which no step closes a listed one. -/
theorem farm_descriptors_live_iff (isOpen : ℕ → Bool) (events : List Event) :
    Runs.Always step Live (initial isOpen) events ↔
      Runs.Meets step (fun s e => ¬Closes s e) (initial isOpen) events :=
  Runs.always_iff_meets Held (fun _ h => h.toLive) (fun _ _ _ h hok hs => h.step hok hs)
    (fun _ _ h hcloses => h.breaks (not_not.mp hcloses)) (held_initial isOpen)

/-- The farm closes its connection, another socket gets the descriptor, and a session of the farm
is written to it. -/
def closedAndReused : List Event := [
  .addFarm [102] (.connected 5),
  .epollWait [5],
  .peerDisconnect,
  .openOther 5,
  .sendPoundAction [102] (farmMarker .httpSync [102] 0) .noSocket]

theorem write_to_other : ¬Runs.Always step Live (initial fun _ => false) closedAndReused ∧
    ∃ s, Runs.run step (initial fun _ => false) closedAndReused = some s ∧
      s.written = [([102],some .other)] := by
  refine ⟨fun hall => ?_,_,rfl,rfl⟩
  obtain ⟨-,hafter⟩ := hall
  obtain ⟨-,hafter⟩ := hafter _ rfl
  obtain ⟨-,hafter⟩ := hafter _ rfl
  obtain ⟨hlive,-⟩ := hafter _ rfl
  exact not_live_of_closed 5 rfl rfl hlive

end Ssyncd.HttpSync
