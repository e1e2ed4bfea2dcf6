import Ssyncd.Replication.System

/-! Convergence of the backup. What the backup holds of earlier connections is a base below the
messages of the current one; the base does no harm once the master's snapshot has named every
key of it. -/
namespace Ssyncd
open Overlay
open BaseSync (effectOn viewOn Served)

/-- The run thread has made its store ready for the connection that it is on. -/
def BackupPc.ready : BackupPc → Bool
  | .getPacket | .whileDisconnected | .request => true
  | _ => false

namespace SyncBackup
variable {κ : Type} {part : κ → NodeKey}

/-- What the backup's store will be once the queue is empty. -/
def ahead (part : κ → NodeKey) (b : SyncBackup) : κ → Option NodeValue :=
  replay (effectOn part) (b.viewOn part) b.messages

theorem messages_append (b : SyncBackup) (pkt : Incoming) :
    { b with inputPacketQueue := b.inputPacketQueue ++ [pkt] }.messages =
      b.messages ++ pkt.message?.toList := by
  cases pkt <;> simp [messages, Incoming.message?]

end SyncBackup

namespace System
variable {κ : Type} {part : κ → NodeKey}

/-- The keys of earlier connections that the messages of the current one must name. -/
def Repairs (part : κ → NodeKey) (s : System) (n : ℕ) (base : κ → Option NodeValue) : Prop :=
  ∀ c < s.master.nextConn, s.peer c = n → s.master.Settled part (fun k => base k ≠ none) c

/-- The backup's side, for the connection with number `n` that it is on. -/
structure OnConnection (part : κ → NodeKey) (s : System) (n : ℕ) : Prop where
  unasked : s.backup.pc.ready = false → s.backup.asked n = false
  before : s.backup.pc.ready = false → ∃ stale, s.backup.messages = stale ++ s.received n
  after : s.backup.pc.ready = true → ∃ base,
    s.backup.ahead part = replay (effectOn part) base (s.received n) ∧ s.Repairs part n base

structure Invariant (part : κ → NodeKey) (s : System) : Prop where
  master : s.master.Invariant part
  recentInput : s.master.RecentInput
  wellFormed : s.backup.WellFormed
  peer : ∀ c < s.master.nextConn, s.peer c < s.backup.connections
  inj : ∀ c < s.master.nextConn, ∀ c' < s.master.nextConn, s.peer c = s.peer c' → c = c'
  received : ∀ c < s.master.nextConn, s.received (s.peer c) <+: s.master.sent c
  nothing : ∀ n, (∀ c < s.master.nextConn, s.peer c ≠ n) → s.received n = []
  asked : s.master.Asked fun c => c < s.master.nextConn ∧ s.backup.asked (s.peer c) = true
  old : ∀ n, s.backup.asked n = true → n < s.backup.connections
  current : s.backup.connRunning = true → ∀ n, n + 1 = s.backup.connections → s.OnConnection part n

/-- When the master takes the request of the current connection, it has every key that the
backup will hold. -/
def Repaired (part : κ → NodeKey) (s : System) : Prop :=
  ∀ req, s.master.Takes req → req.type = .syncRequest → s.Current req.conn →
    ∀ k, (s.settledBackup req.conn).viewOn part k ≠ none → s.master.viewOn part k ≠ none

/-- What the backup will hold is the base under all that was sent on the connection. -/
theorem Invariant.viewOn_settledBackup {s : System} (h : s.Invariant part) {c : Conn}
    (hc : s.Current c) {base : κ → Option NodeValue}
    (hbase : s.backup.ahead part = replay (effectOn part) base (s.received (s.peer c))) :
    (s.settledBackup c).viewOn part = replay (effectOn part) base (s.master.sent c) := by
  have happ := h.received c hc.accepted
  rw [settledBackup, BaseSync.viewOn_applyAll part h.wellFormed, replay_append]
  change replay _ (s.backup.ahead part) _ = _
  rw [hbase, ← replay_append, inFlight, List.prefix_iff_eq_append.mp happ]

/-- A master's step, with the connections numbered as before and a new number for a new one. -/
theorem Invariant.masterStep {s : System} (h : s.Invariant part) {e : MasterEvent}
    {master : SyncMaster} (hu : s.master.Undisturbed e) (hs : s.master.step e = some master)
    {peer' : Conn → ℕ} (hpeer : ∀ c < s.master.nextConn, peer' c = s.peer c)
    (hnew : ∀ fd, e = .accept fd → peer' s.master.nextConn < s.backup.connections ∧
      ∀ c < s.master.nextConn, s.peer c ≠ peer' s.master.nextConn)
    (hreceive : ∀ fd c, e = .receive fd .syncRequest → s.master.connectedNodes[fd]? = some c →
      s.backup.asked (s.peer c) = true)
    (hrepaired : ∀ sends, e = .run sends → s.Repaired part) (arrived' : ℕ → Bool) :
    Invariant part { s with master, peer := peer', arrived := arrived' } := by
  have hframe := SyncMaster.step_frame hu.1 hs
  obtain ⟨hmaster,hinput⟩ := SyncMaster.Invariant.step ⟨h.master,h.recentInput⟩ hu hs
  have hgrow : s.master.nextConn ≤ master.nextConn := by
    rcases hframe.nextConn with heq | ⟨fd,-,heq⟩
    · exact Nat.le_of_eq heq.symm
    · exact heq ▸ Nat.le_succ _
  -- a connection of the new state is an old one or the one just accepted
  have hcases : ∀ c < master.nextConn, c < s.master.nextConn ∨
      c = s.master.nextConn ∧ ∃ fd, e = .accept fd := by
    intro c hc
    rcases hframe.nextConn with heq | ⟨fd,he,heq⟩
    · exact .inl (heq ▸ hc)
    · rcases Nat.lt_succ_iff_lt_or_eq.mp (heq ▸ hc) with hlt | heq
      · exact .inl hlt
      · exact .inr ⟨heq,fd,he⟩
  have hasked : master.Asked fun c => c < s.master.nextConn ∧ s.backup.asked (s.peer c) = true :=
    h.asked.step h.master hu hs fun fd c he hc =>
      ⟨h.master.numbered.old c ⟨fd,hc⟩,hreceive fd c he hc⟩
  exact {
    master := hmaster
    recentInput := hinput
    wellFormed := h.wellFormed
    peer := fun c hc => by
      rcases hcases c hc with hc | ⟨rfl,fd,he⟩
      · change peer' c < s.backup.connections
        rw [hpeer c hc]
        exact h.peer c hc
      · exact (hnew fd he).1
    inj := fun c hc c' hc' heq => by
      rcases hcases c hc with hc | ⟨rfl,fd,he⟩ <;> rcases hcases c' hc' with hc' | ⟨rfl,fd',he'⟩
      · exact h.inj c hc c' hc' ((hpeer c hc).symm.trans (heq.trans (hpeer c' hc')))
      · exact absurd ((hpeer c hc).symm.trans heq) ((hnew fd' he').2 c hc)
      · exact absurd ((hpeer c' hc').symm.trans heq.symm) ((hnew fd he).2 c' hc')
      · rfl
    received := fun c hc => by
      rcases hcases c hc with hc | ⟨rfl,fd,he⟩
      · change s.received (peer' c) <+: master.sent c
        rw [hpeer c hc]
        exact (h.received c hc).trans (hframe.sent c)
      · change s.received (peer' s.master.nextConn) <+: _
        rw [h.nothing _ (hnew fd he).2]
        exact List.nil_prefix
    nothing := fun n hn => h.nothing n fun c hc heq =>
      hn c (Nat.lt_of_lt_of_le hc hgrow) ((hpeer c hc).trans heq)
    asked := hasked.mono fun c hc =>
      ⟨Nat.lt_of_lt_of_le hc.1 hgrow,(congrArg s.backup.asked (hpeer c hc.1)).trans hc.2⟩
    old := h.old
    current := fun hrun n hn => by
      have hon := h.current hrun n hn
      refine ⟨hon.unasked,hon.before,fun hready => ?_⟩
      obtain ⟨base,hbase,hrepairs⟩ := hon.after hready
      refine ⟨base,hbase,fun c hc hcn => ?_⟩
      rcases hcases c hc with hc | ⟨rfl,fd,he⟩
      · obtain rfl : s.peer c = n := (hpeer c hc).symm.trans hcn
        refine (hrepairs c hc rfl).step h.master hu hs fun sends he req htakes ht hconn k hk hkt => ?_
        have hcur : s.Current c := ⟨hrun,hc,hn⟩
        refine hrepaired sends he req htakes ht (hconn ▸ hcur) k ?_
        rw [hconn, h.viewOn_settledBackup hcur hbase, replay_untouched _ _ hkt]
        exact hk
      · intro rest hd
        exact absurd (hasked.due _ _ hd).1 (Nat.lt_irrefl _) }

theorem Invariant.deliver {s : System} (h : s.Invariant part) {c : Conn} (hc : s.Current c)
    {m : Message} (hm : (s.master.sent c)[(s.received (s.peer c)).length]? = some m) :
    Invariant part { s with
      backup := { s.backup with inputPacketQueue := s.backup.inputPacketQueue ++ [.message m] }
      received := fun n => if n = s.peer c then s.received n ++ [m] else s.received n } := by
  have hmessages := SyncBackup.messages_append s.backup (.message m)
  exact { h with
    received := fun c' hc' => by
      change (if s.peer c' = s.peer c then _ else _) <+: s.master.sent c'
      split
      · next heq =>
        obtain rfl := h.inj c' hc' c hc.accepted heq
        obtain ⟨rest,hrest⟩ := h.received c' hc'
        rw [← hrest, List.getElem?_append_right (Nat.le_refl _), Nat.sub_self] at hm
        obtain ⟨rest',rfl⟩ : ∃ rest', rest = m::rest' := by
          cases rest with
          | nil => contradiction
          | cons m' rest' => exact ⟨rest',by rw [Option.some.inj hm]⟩
        exact ⟨rest',by rw [← hrest, List.append_assoc]; rfl⟩
      · exact h.received c' hc'
    nothing := fun n hn => by
      change (if n = s.peer c then _ else _) = []
      rw [if_neg fun heq => hn c hc.accepted heq.symm]
      exact h.nothing n hn
    current := fun hrun n hn => by
      obtain rfl : s.peer c = n := Nat.succ.inj (hc.last.trans hn.symm)
      have hon := h.current hc.running _ hc.last
      refine ⟨hon.unasked,fun hready => ?_,fun hready => ?_⟩
      · obtain ⟨stale,hstale⟩ := hon.before hready
        refine ⟨stale,?_⟩
        change _ = stale ++ if _ then _ else _
        rw [hmessages, if_pos rfl, hstale]
        simp [Incoming.message?]
      · obtain ⟨base,hbase,hrepairs⟩ := hon.after hready
        refine ⟨base,?_,hrepairs⟩
        change replay _ _ (SyncBackup.messages _) = replay _ _ (if _ then _ else _)
        rw [hmessages, if_pos rfl]
        rw [replay_append, replay_append, ← hbase]
        rfl }

theorem Invariant.lose {s : System} (h : s.Invariant part) :
    Invariant part { s with backup := { s.backup with
      connRunning := false
      inputPacketQueue := s.backup.inputPacketQueue ++ [.disconnect] } } :=
  { h with current := fun hrun => absurd hrun Bool.false_ne_true }

/-- The run thread went on, and its store is as ready as it was. -/
theorem Invariant.goto {s : System} (h : s.Invariant part) (pc : BackupPc)
    (hpc : s.backup.connRunning = true → pc.ready = s.backup.pc.ready) :
    Invariant part { s with backup := { s.backup with pc } } :=
  { h with
    current := fun hrun n hn => by
      have hon := h.current hrun n hn
      exact ⟨fun hr => hon.unasked (hpc hrun ▸ hr),fun hr => hon.before (hpc hrun ▸ hr),
        fun hr => hon.after (hpc hrun ▸ hr)⟩ }

theorem Invariant.refused {s : System} (h : s.Invariant part) (pc : BackupPc) :
    Invariant part { s with backup := { s.backup with connRunning := false, pc } } :=
  { h with current := fun hrun => absurd hrun Bool.false_ne_true }

/-- A new connection, on which nothing has been asked, sent or received. -/
theorem Invariant.connect {s : System} (h : s.Invariant part) {pc : BackupPc}
    (hpc : pc.ready = false) :
    Invariant part { s with backup := { s.backup with
      connRunning := true
      connections := s.backup.connections + 1
      pc } } :=
  { h with
    peer := fun c hc => Nat.lt_succ_of_lt (h.peer c hc)
    old := fun n hn => Nat.lt_succ_of_lt (h.old n hn)
    current := fun _ n hn => by
      obtain rfl : n = s.backup.connections := Nat.succ.inj hn
      refine ⟨fun _ => ?_,fun _ => ⟨s.backup.messages,?_⟩,fun hr => ?_⟩
      · by_contra hasked
        exact Nat.lt_irrefl _ (h.old _ (Bool.not_eq_false _ ▸ hasked))
      · have hnone := h.nothing s.backup.connections fun c hc => Nat.ne_of_lt (h.peer c hc)
        rw [hnone, List.append_nil]
        rfl
      · rw [hpc] at hr
        contradiction }

/-- The store is made ready: what it holds then, with the stale packets, is the base. -/
theorem Invariant.prepare {s : System} (h : s.Invariant part)
    (hready : s.backup.pc.ready = false) {d : BaseSync} (hd : d.WellFormed) (pc : BackupPc)
    (hpc : pc.ready = true) :
    Invariant part { s with backup := { s.backup with toBaseSync := d, pc } } :=
  { h with
    wellFormed := hd
    current := fun hrun n hn => by
      have hon := h.current hrun n hn
      refine ⟨fun hr => ?_,fun hr => ?_,fun _ => ?_⟩
      · rw [hpc] at hr
        contradiction
      · rw [hpc] at hr
        contradiction
      · obtain ⟨stale,hstale⟩ := hon.before hready
        refine ⟨replay (effectOn part) (d.viewOn part) stale,?_,?_⟩
        · rw [← replay_append, ← hstale]
          rfl
        · intro c hc hcn rest hdue
          have hasked := (h.asked.due c rest hdue).2
          rw [show s.peer c = n from hcn, hon.unasked hready] at hasked
          contradiction }

theorem Invariant.ask {s : System} (h : s.Invariant part) (hready : s.backup.pc.ready = true) :
    Invariant part { s with backup := { s.backup with
      asked := fun n => decide (n + 1 = s.backup.connections) || s.backup.asked n } } :=
  { h with
    asked := h.asked.mono fun c hc => ⟨hc.1,by
      change (_ || s.backup.asked (s.peer c)) = true
      rw [hc.2, Bool.or_true]⟩
    old := fun n hn => by
      rcases (Bool.or_eq_true ..).mp hn with hlast | hasked
      · exact of_decide_eq_true hlast ▸ Nat.lt_succ_self n
      · exact h.old n hasked
    current := fun hrun n hn => by
      have hon := h.current hrun n hn
      refine ⟨fun hr => ?_,fun hr => ?_,hon.after⟩
      · rw [hready] at hr
        contradiction
      · rw [hready] at hr
        contradiction }

/-- A packet is taken from the queue, and a message of it applied. -/
theorem Invariant.packet {s : System} (h : s.Invariant part) (hpc : s.backup.pc = .getPacket)
    {pkt : Incoming} {rest : List Incoming} (hq : s.backup.inputPacketQueue = pkt::rest) :
    Invariant part { s with
      backup := { s.backup with inputPacketQueue := rest }.handlePacket pkt } := by
  have hready : s.backup.pc.ready = true := by rw [hpc]; rfl
  cases pkt with
  | message m =>
    have hmessages : s.backup.messages = m::{ s.backup with inputPacketQueue := rest }.messages := by
      rw [SyncBackup.messages, hq]
      rfl
    exact { h with
      wellFormed := h.wellFormed.apply m
      current := fun hrun n hn => by
        have hon := h.current hrun n hn
        refine ⟨fun hr => ?_,fun hr => ?_,fun _ => ?_⟩
        · rw [show s.backup.pc.ready = false from hr] at hready
          contradiction
        · rw [show s.backup.pc.ready = false from hr] at hready
          contradiction
        · obtain ⟨base,hbase,hrepairs⟩ := hon.after hready
          refine ⟨base,?_,hrepairs⟩
          rw [SyncBackup.ahead, hmessages, replay_cons,
            ← BaseSync.viewOn_apply part h.wellFormed.oneService] at hbase
          exact hbase }
  | disconnect =>
    have hmessages : s.backup.messages = { s.backup with inputPacketQueue := rest }.messages := by
      rw [SyncBackup.messages, hq]
      rfl
    exact { h with
      current := fun hrun n hn => by
        have hon := h.current hrun n hn
        refine ⟨fun hr => ?_,fun hr => ?_,fun _ => ?_⟩
        · contradiction
        · contradiction
        · obtain ⟨base,hbase,hrepairs⟩ := hon.after hready
          rw [SyncBackup.ahead, hmessages] at hbase
          exact ⟨base,hbase,hrepairs⟩ }

theorem Invariant.start {s : System} (h : s.Invariant part) (ok : Bool) (pc : BackupPc)
    (hpc : pc.ready = false) : Invariant part { s with backup := { s.backup.start ok with pc } } := by
  cases ok with
  | true => exact h.connect hpc
  | false => exact h.refused pc

theorem Invariant.backupStep {s : System} (h : s.Invariant part) {ok : Bool} {b : SyncBackup}
    (hs : s.backup.run ok = some b) : Invariant part { s with backup := b } := by
  have keeps : ∀ pc, pc.ready = s.backup.pc.ready →
      Invariant part { s with backup := { s.backup with pc } } := fun pc hpc => h.goto pc fun _ => hpc
  cases hpc : s.backup.pc with
  | runTask =>
    simp only [SyncBackup.run, hpc, Option.some.injEq] at hs
    rw [hpc] at keeps
    subst hs
    split
    · exact keeps .runEntry rfl
    · have hstart := h.start ok .runTask rfl
      rw [← hpc] at hstart
      cases ok <;> exact hstart
  | runEntry =>
    simp only [SyncBackup.run, hpc, Option.some.injEq] at hs
    rw [hpc] at keeps
    subst hs
    exact keeps _ (by split <;> rfl)
  | firstRequest =>
    simp only [SyncBackup.run, hpc, Option.some.injEq, SyncBackup.sendRequest] at hs
    rw [hpc] at keeps
    subst hs
    split
    · have hready := h.prepare (by rw [hpc]; rfl) h.wellFormed .getPacket rfl
      exact hready.ask rfl
    · exact keeps .exited rfl
  | getPacket =>
    simp only [SyncBackup.run, hpc] at hs
    split at hs
    · contradiction
    · next pkt rest hq =>
      obtain rfl := Option.some.inj hs
      rw [← hpc]
      exact h.packet hpc hq
  | whileDisconnected =>
    simp only [SyncBackup.run, hpc, Option.some.injEq] at hs
    subst hs
    refine h.goto _ fun hrun => ?_
    rw [if_pos hrun, hpc]
    rfl
  | start =>
    simp only [SyncBackup.run, hpc, Option.some.injEq] at hs
    subst hs
    exact h.start ok .checkRunning rfl
  | checkRunning =>
    simp only [SyncBackup.run, hpc, Option.some.injEq] at hs
    subst hs
    refine h.goto _ fun hrun => ?_
    rw [if_pos hrun, hpc]
    rfl
  | clear =>
    simp only [SyncBackup.run, hpc, Option.some.injEq] at hs
    subst hs
    have hd : BaseSync.WellFormed { s.backup.toBaseSync with httpSessionData := ∅ } :=
      ⟨Http.oneService_empty,Http.keyed_empty,h.wellFormed.entries⟩
    exact h.prepare (by rw [hpc]; rfl) hd .request rfl
  | request =>
    simp only [SyncBackup.run, hpc, Option.some.injEq, SyncBackup.sendRequest] at hs
    rw [hpc] at keeps
    subst hs
    split
    · exact (keeps .whileDisconnected rfl).ask rfl
    · exact keeps .whileDisconnected rfl
  | exited => simp [SyncBackup.run, hpc] at hs

theorem Invariant.step {s s' : System} {e : SystemEvent} (h : s.Invariant part)
    (hu : s.Undisturbed e) (hrepaired : ∀ sends, e = .master (.run sends) → s.Repaired part)
    (hs : s.step e = some s') : s'.Invariant part := by
  cases e with
  | accept fd n =>
    simp only [System.step] at hs
    split at hs
    · next hn =>
      obtain ⟨master,hm,rfl⟩ := Option.map_eq_some_iff.mp hs
      have hne : ∀ c < s.master.nextConn, c ≠ s.master.nextConn := fun c hc => Nat.ne_of_lt hc
      refine h.masterStep ⟨by simp [MasterEvent.IsControl],by simp⟩ hm
        (fun c hc => if_neg (hne c hc)) (fun _ _ => ?_) (by simp) (by simp) s.arrived
      rw [if_pos rfl]
      exact hn
    · contradiction
  | request fd =>
    simp only [System.step] at hs
    split at hs
    · next c hc =>
      split at hs
      · next hasked =>
        obtain ⟨master,hm,rfl⟩ := Option.map_eq_some_iff.mp hs
        refine h.masterStep ⟨by simp [MasterEvent.IsControl],by simp⟩ hm (fun _ _ => rfl)
          (by simp) (fun fd' c' he hc' => ?_) (by simp) _
        obtain rfl : fd = fd' := by simpa using he
        obtain rfl : c = c' := Option.some.inj (hc.symm.trans hc')
        exact (Bool.and_eq_true_iff.mp hasked).1
      · contradiction
    · contradiction
  | master e =>
    have hstep : (s.master.step e).map (fun master => { s with master }) = some s' ∧
        (∀ fd, e ≠ .accept fd) ∧ ∀ fd type, e ≠ .receive fd type := by
      cases e <;> simp_all [System.step]
    obtain ⟨master,hm,rfl⟩ := Option.map_eq_some_iff.mp hstep.1
    exact h.masterStep hu hm (fun _ _ => rfl) (fun fd he => absurd he (hstep.2.1 fd))
      (fun fd c he => absurd he (hstep.2.2 fd _)) (fun sends he => hrepaired sends (he ▸ rfl)) _
  | deliver c =>
    simp only [System.step] at hs
    split at hs
    · next hc =>
      obtain ⟨m,hm,rfl⟩ := Option.map_eq_some_iff.mp hs
      exact h.deliver hc hm
    · contradiction
  | lose =>
    simp only [System.step] at hs
    split at hs
    · obtain rfl := Option.some.inj hs
      exact h.lose
    · contradiction
  | backup ok =>
    obtain ⟨b,hb,rfl⟩ := Option.map_eq_some_iff.mp hs
    exact h.backupStep hb

theorem invariant_initial {httpRunning recentRunning : Bool}
    (h : Served part httpRunning recentRunning {}) :
    (initial httpRunning recentRunning).Invariant part where
  master := SyncMaster.invariant_initial h
  recentInput := by simp [initial, SyncMaster.RecentInput, SyncMaster.initial]
  wellFormed := BaseSync.wellFormed_empty
  peer c hc := absurd hc (Nat.not_lt_zero c)
  inj c hc := absurd hc (Nat.not_lt_zero c)
  received c hc := absurd hc (Nat.not_lt_zero c)
  nothing _ _ := rfl
  asked := by
    refine ⟨by simp [initial, SyncMaster.initial],fun c rest hd => ?_⟩
    cases hd <;> contradiction
  old n hn := by simp [initial] at hn
  current hrun := absurd hrun Bool.false_ne_true

/-- A quiescent backup holds what the master holds. -/
theorem Invariant.converged {s : System} (h : s.Invariant part) {c : Conn} (hq : s.Quiescent c) :
    s.backup.viewOn part = s.master.viewOn part := by
  have hon := h.current hq.current.running _ hq.current.last
  have hdue : s.master.Due c [] := .answered hq.answered
  have hready : s.backup.pc.ready = true := by
    by_contra hr
    have hasked := (h.asked.due c [] hdue).2
    rw [hon.unasked (Bool.not_eq_true _ ▸ hr)] at hasked
    contradiction
  obtain ⟨base,hbase,hrepairs⟩ := hon.after hready
  have hmessages : s.backup.messages = [] := by rw [SyncBackup.messages, hq.drained]; rfl
  rw [SyncBackup.ahead, hmessages, replay_nil, hq.received] at hbase
  have htouched : ∀ k, base k ≠ none → Touched (effectOn part) (s.master.sent c) k := by
    intro k hk
    have := hrepairs c hq.current.accepted rfl [] hdue hq.connected k hk
    rwa [List.append_nil] at this
  calc s.backup.viewOn part
      = replay (effectOn part) base (s.master.sent c) := hbase
    _ = replica part (s.master.sent c) := (replay_eq_empty_replay_iff _ _ _).mpr htouched
    _ = s.master.viewOn part := (h.master.replicas c hq.connected).2 hq.answered

end System
end Ssyncd
