import Ssyncd.Codec.PktParser
import Ssyncd.Master.State
import Mathlib.Algebra.GroupWithZero.Nat

/-! How a connection sends: the loop around send for one socket, and the nodes one after another. -/
namespace Ssyncd

/-- What one call of send gives: EAGAIN, a number of bytes, or another error. -/
inductive SendResult
  | again
  | wrote (n : ℕ)
  | failed
  deriving DecidableEq

/-- Whether the data was sent, and the bytes that the socket took. After the last result every call
gives EAGAIN, and then the loop does not end. -/
def handleSend : Bytes → List SendResult → Option Bool × Bytes
  | _, [] => (none,[])
  | data, .again::results => handleSend data results
  | _, .failed::_ => (some false,[])
  | data, .wrote n::results =>
    if data.length ≤ n then (some true,data)
    else
      let (ret,taken) := handleSend (data.drop n) results
      (ret,data.take n ++ taken)

/-- Bytes taken by the sockets, in the order of the nodes. -/
abbrev SendLog := List (Int × Bytes)

def SendLog.handed (log : SendLog) (fd : Int) : Bytes :=
  (log.filter fun entry => entry.1 = fd).flatMap Prod.snd

namespace Connection

/-- One node after another; the first that fails ends it. -/
def sendAll (data : Bytes) (results : Int → List SendResult) : List Int → Option Bool × SendLog
  | [] => (some true,[])
  | fd::rest =>
    match handleSend data (results fd) with
    | (some true,taken) =>
      let (ret,log) := sendAll data results rest
      (ret,(fd,taken)::log)
    | (ret,taken) => (ret,[(fd,taken)])

/-- `send_packet` of the master. A fault of the parser is an exception here. -/
def sendPacket (connectedNodes : Std.ExtTreeMap Int Conn) (isRunning : Bool) (pkt : Packet)
    (results : Int → List SendResult) : Except Fault (Option Bool × SendLog) :=
  if connectedNodes.isEmpty then .ok (some false,[])
  else if !isRunning then .ok (some false,[])
  else
    (PktParser.serialize pkt).map fun serialized =>
      match serialized with
      | none => (some true,[])
      | some (data,_) =>
        if pkt.toConnPacket.fd = -1 then sendAll data results connectedNodes.keys
        else
          let fd := pkt.toConnPacket.fd
          let (ret,taken) := handleSend data (results fd)
          (ret,[(fd,taken)])

end Connection

section HandleSend
variable {data : Bytes}

/-- A socket takes the whole data or less of it. -/
theorem handleSend_spec (data : Bytes) (results : List SendResult) :
    ((handleSend data results).1 = some true → (handleSend data results).2 = data) ∧
      ((handleSend data results).1 ≠ some true → data ≠ [] →
        (handleSend data results).2.length < data.length) := by
  induction results generalizing data with
  | nil => exact ⟨fun h => absurd h (by simp [handleSend]),fun _ hne => List.length_pos_iff.mpr hne⟩
  | cons result results ih =>
    cases result with
    | again => exact ih data
    | failed => exact ⟨fun h => absurd h (by simp [handleSend]),fun _ hne => List.length_pos_iff.mpr hne⟩
    | wrote n =>
      rw [handleSend]
      split
      · exact ⟨fun _ => rfl,fun h => absurd rfl h⟩
      · next hshort =>
        obtain ⟨hall,hless⟩ := ih (data.drop n)
        refine ⟨fun h => ?_,fun h hne => ?_⟩
        · exact (congrArg (data.take n ++ ·) (hall h)).trans (List.take_append_drop n data)
        · have hrest : data.drop n ≠ [] := by
            rw [ne_eq, List.drop_eq_nil_iff]
            exact hshort
          have hlen := hless h hrest
          rw [List.length_drop] at hlen
          rw [List.length_append, List.length_take]
          omega

/-- A socket takes a front of the data, whatever the results are. -/
theorem handleSend_front (data : Bytes) (results : List SendResult) :
    (handleSend data results).2 <+: data := by
  induction results generalizing data with
  | nil => exact List.nil_prefix
  | cons result results ih =>
    cases result with
    | again => exact ih data
    | failed => exact List.nil_prefix
    | wrote n =>
      rw [handleSend]
      split
      · exact List.prefix_refl data
      · have hrest := List.prefix_append_right_inj (data.take n) |>.mpr (ih (data.drop n))
        rwa [List.take_append_drop] at hrest

end HandleSend

def SendResult.bytes : SendResult → ℕ
  | .wrote n => n
  | _ => 0

/-- The calls of send take this many bytes, and none of them fails before: EAGAIN and short writes
may come in between. -/
def Takes (n : ℕ) (results : List SendResult) : Prop :=
  ∃ before, before <+: results ∧ .failed ∉ before ∧ (∃ m, .wrote m ∈ before) ∧
    n ≤ (before.map SendResult.bytes).sum

section Takes
variable {n : ℕ} {results : List SendResult}

theorem not_takes_nil : ¬Takes n [] := by
  rintro ⟨before,hfront,-,⟨m,hm⟩,-⟩
  rw [List.prefix_nil.mp hfront] at hm
  exact List.not_mem_nil hm

theorem not_takes_failed : ¬Takes n (.failed::results) := by
  rintro ⟨before,hfront,hok,⟨m,hm⟩,-⟩
  cases before with
  | nil => exact List.not_mem_nil hm
  | cons result before =>
    obtain ⟨rfl,-⟩ := List.cons_prefix_cons.mp hfront
    exact hok (List.mem_cons_self ..)

theorem takes_again : Takes n (.again::results) ↔ Takes n results := by
  constructor
  · rintro ⟨before,hfront,hok,⟨m,hm⟩,hn⟩
    cases before with
    | nil => exact absurd hm List.not_mem_nil
    | cons result before =>
      obtain ⟨rfl,hrest⟩ := List.cons_prefix_cons.mp hfront
      refine ⟨before,hrest,fun h => hok (List.mem_cons_of_mem _ h),⟨m,?_⟩,?_⟩
      · simpa using hm
      · simpa [SendResult.bytes] using hn
  · rintro ⟨before,hfront,hok,⟨m,hm⟩,hn⟩
    refine ⟨.again::before,List.cons_prefix_cons.mpr ⟨rfl,hfront⟩,?_,⟨m,List.mem_cons_of_mem _ hm⟩,?_⟩
    · simpa using hok
    · simpa [SendResult.bytes] using hn

theorem takes_wrote {m : ℕ} : Takes n (.wrote m::results) ↔ n ≤ m ∨ Takes (n-m) results := by
  constructor
  · rintro ⟨before,hfront,hok,⟨k,hk⟩,hn⟩
    cases before with
    | nil => exact absurd hk List.not_mem_nil
    | cons result before =>
      obtain ⟨rfl,hrest⟩ := List.cons_prefix_cons.mp hfront
      rw [List.map_cons, List.sum_cons, SendResult.bytes] at hn
      by_cases hwrote : ∃ k, .wrote k ∈ before
      · exact .inr ⟨before,hrest,fun h => hok (List.mem_cons_of_mem _ h),hwrote,by omega⟩
      · -- what comes before then wrote nothing
        have hzero : (before.map SendResult.bytes).sum = 0 := by
          refine List.sum_eq_zero_iff_forall_eq_nat.mpr fun x hx => ?_
          obtain ⟨result,hmem,rfl⟩ := List.mem_map.mp hx
          cases result with
          | wrote k => exact absurd ⟨k,hmem⟩ hwrote
          | again => rfl
          | failed => rfl
        exact .inl (by omega)
  · rintro (hle | ⟨before,hfront,hok,⟨k,hk⟩,hn⟩)
    · refine ⟨[.wrote m],List.cons_prefix_cons.mpr ⟨rfl,List.nil_prefix⟩,by simp,⟨m,by simp⟩,?_⟩
      simpa [SendResult.bytes] using hle
    · refine ⟨.wrote m::before,List.cons_prefix_cons.mpr ⟨rfl,hfront⟩,?_,
        ⟨k,List.mem_cons_of_mem _ hk⟩,?_⟩
      · simpa using hok
      · rw [List.map_cons, List.sum_cons, SendResult.bytes]
        omega

/-- The loop around send ends well exactly where its calls take the whole data. -/
theorem handleSend_iff_takes (data : Bytes) (results : List SendResult) :
    (handleSend data results).1 = some true ↔ Takes data.length results := by
  induction results generalizing data with
  | nil => exact iff_of_false (Option.some_ne_none _).symm not_takes_nil
  | cons result results ih =>
    cases result with
    | again => exact (ih data).trans takes_again.symm
    | failed => exact iff_of_false (by simp [handleSend]) not_takes_failed
    | wrote n =>
      rw [handleSend, takes_wrote]
      by_cases hall : data.length ≤ n
      · rw [if_pos hall]
        exact iff_of_true rfl (.inl hall)
      · rw [if_neg hall, ← List.length_drop, or_iff_right hall]
        exact ih (data.drop n)

end Takes

namespace Connection

/-- The calls on a node's socket take the whole data. -/
def Sends (data : Bytes) (results : Int → List SendResult) (fd : Int) : Prop :=
  Takes data.length (results fd)

theorem handleSend_iff_sends (data : Bytes) (results : Int → List SendResult) (fd : Int) :
    (handleSend data (results fd)).1 = some true ↔ Sends data results fd :=
  handleSend_iff_takes data (results fd)

instance (data : Bytes) (results : Int → List SendResult) (fd : Int) : Decidable (Sends data results fd) :=
  decidable_of_iff _ (handleSend_iff_sends data results fd)

section SendAll
variable {data : Bytes} {results : Int → List SendResult}

@[simp] theorem handed_nil (fd : Int) : SendLog.handed [] fd = [] := rfl

theorem handed_cons (fd fd' : Int) (taken : Bytes) (log : SendLog) :
    SendLog.handed ((fd',taken)::log) fd = (if fd' = fd then taken else []) ++ SendLog.handed log fd := by
  rw [SendLog.handed, List.filter_cons]
  by_cases h : fd' = fd
  · simp [h, SendLog.handed]
  · simp [h, SendLog.handed]

theorem sendAll_cons_sends {fd : Int} (h : Sends data results fd) (rest : List Int) :
    sendAll data results (fd::rest) =
      ((sendAll data results rest).1,(fd,data)::(sendAll data results rest).2) := by
  have hret := (handleSend_iff_sends data results fd).mpr h
  have hpair : handleSend data (results fd) = (some true,data) :=
    Prod.ext hret ((handleSend_spec data (results fd)).1 hret)
  rw [sendAll, hpair]

theorem sendAll_cons_fails {fd : Int} (h : ¬Sends data results fd) (rest : List Int) :
    sendAll data results (fd::rest) =
      ((handleSend data (results fd)).1,[(fd,(handleSend data (results fd)).2)]) := by
  rw [sendAll]
  rw [← handleSend_iff_sends] at h
  generalize handleSend data (results fd) = r at h ⊢
  obtain ⟨ret,taken⟩ := r
  split
  · next heq => exact absurd (congrArg Prod.fst heq) h
  · next heq => rw [heq]

theorem sendAll_ret_iff (nodes : List Int) :
    (sendAll data results nodes).1 = some true ↔ ∀ fd ∈ nodes, Sends data results fd := by
  induction nodes with
  | nil => simp [sendAll]
  | cons fd rest ih =>
    by_cases h : Sends data results fd
    · rw [sendAll_cons_sends h, ih]
      simp [h]
    · rw [sendAll_cons_fails h]
      simp only [List.forall_mem_cons, h, false_and, iff_false]
      exact (handleSend_iff_sends data results fd).not.mpr h

/-- Nothing goes to a socket that is not a node's. -/
theorem handed_sendAll_of_not_mem {nodes : List Int} {fd : Int} (h : fd ∉ nodes) :
    (sendAll data results nodes).2.handed fd = [] := by
  induction nodes with
  | nil => rfl
  | cons fd' rest ih =>
    obtain ⟨hne,hrest⟩ : fd ≠ fd' ∧ fd ∉ rest := by simpa using h
    by_cases hsend : Sends data results fd'
    · rw [sendAll_cons_sends hsend, handed_cons, if_neg (Ne.symm hne), ih hrest]
      rfl
    · rw [sendAll_cons_fails hsend, handed_cons, if_neg (Ne.symm hne)]
      rfl

/-- The complete data goes to the nodes before the first that fails. -/
theorem handed_sendAll (hne : data ≠ []) {nodes : List Int} (hnodup : nodes.Nodup) (fd : Int) :
    (sendAll data results nodes).2.handed fd = data ↔
      fd ∈ nodes.takeWhile fun fd => Sends data results fd := by
  have hempty : ([] : Bytes) ≠ data := Ne.symm hne
  induction nodes with
  | nil => simp [sendAll, hempty]
  | cons fd' rest ih =>
    obtain ⟨hout,hrest⟩ := List.nodup_cons.mp hnodup
    by_cases h : Sends data results fd'
    · rw [sendAll_cons_sends h, handed_cons, List.takeWhile_cons_of_pos (by simpa using h), List.mem_cons]
      by_cases heq : fd' = fd
      · subst heq
        rw [if_pos rfl, handed_sendAll_of_not_mem hout, List.append_nil]
        exact iff_of_true rfl (.inl rfl)
      · rw [if_neg heq, List.nil_append]
        refine (ih hrest).trans ?_
        simp [Ne.symm heq]
    · rw [sendAll_cons_fails h, handed_cons, List.takeWhile_cons_of_neg (by simpa using h)]
      have hless := (handleSend_spec data (results fd')).2 ((handleSend_iff_sends _ _ _).not.mpr h) hne
      refine iff_of_false (fun heq => ?_) List.not_mem_nil
      rw [handed_nil, List.append_nil] at heq
      split at heq
      · rw [heq] at hless
        exact absurd hless (Nat.lt_irrefl _)
      · exact hempty heq

end SendAll

/-- What a broadcast of a packet should do: the nodes whose send does not fail get the bytes, and true
is returned exactly when all nodes have got them. -/
structure Reaches (connectedNodes : Std.ExtTreeMap Int Conn) (isRunning : Bool) (pkt : Packet)
    (results : Int → List SendResult) : Prop where
  delivered : ∀ data sent, PktParser.serialize pkt = .ok (some (data,sent)) →
    ∀ fd ∈ connectedNodes, Sends data results fd →
      ∃ ret log, sendPacket connectedNodes isRunning pkt results = .ok (ret,log) ∧ log.handed fd = data
  returned : (∃ log, sendPacket connectedNodes isRunning pkt results = .ok (some true,log)) ↔
    ∃ data sent, PktParser.serialize pkt = .ok (some (data,sent)) ∧ ∀ fd ∈ connectedNodes,
      ∃ ret log, sendPacket connectedNodes isRunning pkt results = .ok (ret,log) ∧ log.handed fd = data

/-- The packet can be serialized or the parser gives up, and in the order of the descriptors no node
whose send fails is before one whose send does not. -/
def InOrder (connectedNodes : Std.ExtTreeMap Int Conn) (isRunning : Bool) (pkt : Packet)
    (results : Int → List SendResult) : Prop :=
  (isRunning = true → PktParser.serialize pkt ≠ .ok none) ∧
    ∀ data sent, PktParser.serialize pkt = .ok (some (data,sent)) →
      ∀ fd ∈ connectedNodes, Sends data results fd →
        isRunning = true ∧ ∀ fd' ∈ connectedNodes, fd' < fd → Sends data results fd'

/-- Every packet has a header. -/
theorem serialize_ne_nil {pkt sent : Packet} {data : Bytes}
    (h : PktParser.serialize pkt = .ok (some (data,sent))) : data ≠ [] := by
  have hpatch : ∀ out : Bytes, (patchLength out).length = out.length := fun out => by
    rw [patchLength, List.length_set, List.length_set]
  have hheader : ∀ pkt : ConnPacket, (BasePktParser.serialize pkt).length = 5 := fun _ => rfl
  refine List.length_pos_iff.mp ?_
  unfold PktParser.serialize at h
  split at h
  · next a _ =>
    rw [XtRecentActionParser.serialize] at h
    cases hbody : XtRecentActionParser.writeBody a with
    | error fault =>
      rw [hbody] at h
      contradiction
    | ok body =>
      rw [hbody] at h
      obtain ⟨rfl,-⟩ := Prod.mk.inj (Option.some.inj (Except.ok.inj h))
      rw [hpatch, List.length_dropLast, List.length_append, hheader]
      omega
  · next a _ =>
    rw [HttpParser.serialize] at h
    split at h
    · exact absurd (Except.ok.inj h) (Option.some_ne_none _).symm
    · obtain ⟨rfl,-⟩ := Prod.mk.inj (Option.some.inj (Except.ok.inj h))
      rw [hpatch, List.length_append, hheader]
      omega
  · contradiction
  · contradiction
  · exact absurd (Except.ok.inj h) (Option.some_ne_none _).symm
  · obtain ⟨rfl,-⟩ := Prod.mk.inj (Option.some.inj (Except.ok.inj h))
    rw [hheader]
    omega

section Nodes
variable {connectedNodes : Std.ExtTreeMap Int Conn} {data : Bytes} {results : Int → List SendResult}

theorem ordered_keys : connectedNodes.keys.Pairwise (· < ·) :=
  Std.ExtTreeMap.ordered_keys.imp fun hlt => Std.compare_eq_lt.mp hlt

/-- A node gets the data where its send and those before it do not fail. -/
theorem handed_nodes_iff (hne : data ≠ []) {fd : Int} :
    (sendAll data results connectedNodes.keys).2.handed fd = data ↔
      fd ∈ connectedNodes ∧ Sends data results fd ∧
        ∀ fd' ∈ connectedNodes, fd' < fd → Sends data results fd' := by
  rw [handed_sendAll hne (Table.nodup_keys _), Table.mem_takeWhile_of_ordered (fun _ _ h => by omega) ordered_keys]
  simp only [Std.ExtTreeMap.mem_keys, decide_eq_true_eq]

end Nodes

section Broadcast
variable {connectedNodes : Std.ExtTreeMap Int Conn} {isRunning : Bool} {pkt sent : Packet} {data : Bytes}
  {results : Int → List SendResult}

theorem sendPacket_of_ok (hnodes : ¬connectedNodes.isEmpty = true) (hfd : pkt.toConnPacket.fd = -1)
    (h : PktParser.serialize pkt = .ok (some (data,sent))) :
    sendPacket connectedNodes true pkt results = .ok (sendAll data results connectedNodes.keys) := by
  rw [sendPacket, if_neg hnodes, if_neg (by simp), h]
  exact congrArg Except.ok (if_pos hfd)

theorem sendPacket_stopped : sendPacket connectedNodes false pkt results = .ok (some false,[]) := by
  rw [sendPacket]
  exact ite_self _

/-- A connection that does not run sends nothing and says so. -/
theorem reaches_stopped (hnodes : ¬connectedNodes.isEmpty = true) :
    Reaches connectedNodes false pkt results ↔ InOrder connectedNodes false pkt results := by
  have hnothing : ∀ {data sent}, PktParser.serialize pkt = .ok (some (data,sent)) → ∀ fd,
      ¬∃ ret log, sendPacket connectedNodes false pkt results = .ok (ret,log) ∧ log.handed fd = data := by
    rintro data sent hser fd ⟨ret,log,hs,hhanded⟩
    rw [sendPacket_stopped] at hs
    obtain ⟨-,rfl⟩ := Prod.mk.inj (Except.ok.inj hs)
    exact serialize_ne_nil hser hhanded.symm
  constructor
  · refine fun h => ⟨fun hrun => absurd hrun Bool.false_ne_true,fun data sent hser fd hmem hsend => ?_⟩
    exact absurd (h.delivered data sent hser fd hmem hsend) (hnothing hser fd)
  · rintro ⟨-,hall⟩
    refine ⟨fun data sent hser fd hmem hsend => ?_,iff_of_false ?_ ?_⟩
    · exact absurd (hall data sent hser fd hmem hsend).1 Bool.false_ne_true
    · rintro ⟨log,hs⟩
      rw [sendPacket_stopped] at hs
      exact absurd (congrArg Prod.fst (Except.ok.inj hs)) (by simp)
    · rintro ⟨data,sent,hser,hnodes'⟩
      obtain ⟨fd,hmem⟩ : ∃ fd, fd ∈ connectedNodes := by
        by_contra hnone
        exact hnodes (Std.ExtTreeMap.isEmpty_iff.mpr
          (Std.ExtTreeMap.eq_empty_iff_forall_not_mem.mpr (not_exists.mp hnone)))
      exact hnothing hser fd (hnodes' fd hmem)

/-- Bytes that were serialized go to the nodes in order, until a send fails. -/
theorem reaches_running (hnodes : ¬connectedNodes.isEmpty = true) (hfd : pkt.toConnPacket.fd = -1)
    (hser : PktParser.serialize pkt = .ok (some (data,sent))) :
    Reaches connectedNodes true pkt results ↔ InOrder connectedNodes true pkt results := by
  have hne := serialize_ne_nil hser
  have hsent : sendPacket connectedNodes true pkt results =
      .ok (sendAll data results connectedNodes.keys) := sendPacket_of_ok hnodes hfd hser
  have hhanded : ∀ fd, (∃ ret log, sendPacket connectedNodes true pkt results = .ok (ret,log) ∧
      log.handed fd = data) ↔ (sendAll data results connectedNodes.keys).2.handed fd = data := by
    intro fd
    rw [hsent]
    constructor
    · rintro ⟨ret,log,heq,h⟩
      rwa [Except.ok.inj heq]
    · exact fun h => ⟨_,_,rfl,h⟩
  have hunique : ∀ {data' sent'}, PktParser.serialize pkt = .ok (some (data',sent')) → data' = data := by
    intro data' sent' h
    rw [hser] at h
    exact (Prod.mk.inj (Option.some.inj (Except.ok.inj h))).1.symm
  constructor
  · intro h
    refine ⟨fun _ hnone => ?_,fun data' sent' hser' fd hmem hsend => ⟨rfl,?_⟩⟩
    · rw [hser] at hnone
      exact Option.some_ne_none _ (Except.ok.inj hnone)
    · have hgot := h.delivered data' sent' hser' fd hmem hsend
      obtain rfl := hunique hser'
      exact ((handed_nodes_iff hne).mp ((hhanded fd).mp hgot)).2.2
  · rintro ⟨-,horder⟩
    refine ⟨fun data' sent' hser' fd hmem hsend => ?_,?_⟩
    · have hbefore := (horder data' sent' hser' fd hmem hsend).2
      obtain rfl := hunique hser'
      exact (hhanded fd).mpr ((handed_nodes_iff hne).mpr ⟨hmem,hsend,hbefore⟩)
    · have hret := @sendAll_ret_iff data results connectedNodes.keys
      simp only [Std.ExtTreeMap.mem_keys] at hret
      constructor
      · rintro ⟨log,hs⟩
        rw [hsent] at hs
        have hall := hret.mp (congrArg Prod.fst (Except.ok.inj hs))
        exact ⟨data,sent,hser,fun fd hmem => (hhanded fd).mpr ((handed_nodes_iff hne).mpr
          ⟨hmem,hall fd hmem,fun fd' hmem' _ => hall fd' hmem'⟩)⟩
      · rintro ⟨data',sent',hser',hall⟩
        obtain rfl := hunique hser'
        have hsends := hret.mpr fun fd hmem =>
          ((handed_nodes_iff hne).mp ((hhanded fd).mp (hall fd hmem))).2.1
        exact ⟨(sendAll data' results connectedNodes.keys).2,by rw [hsent, ← hsends]⟩

/-- A broadcast reaches every node that it can exactly where the packet is not one that the parser
refuses, and no node whose send fails comes before one whose send does not. -/
theorem reaches_iff (hnodes : ¬connectedNodes.isEmpty = true) (hfd : pkt.toConnPacket.fd = -1) :
    Reaches connectedNodes isRunning pkt results ↔ InOrder connectedNodes isRunning pkt results := by
  cases isRunning with
  | false => exact reaches_stopped hnodes
  | true =>
    cases hser : PktParser.serialize pkt with
    | error fault =>
      have hsent : sendPacket connectedNodes true pkt results = .error fault := by
        rw [sendPacket, if_neg hnodes, if_neg (by simp), hser]
        rfl
      refine iff_of_true ⟨fun data sent h => ?_,iff_of_false ?_ ?_⟩ ⟨fun _ h => ?_,fun data sent h => ?_⟩
      · rw [hser] at h; contradiction
      · rintro ⟨log,h⟩; rw [hsent] at h; contradiction
      · rintro ⟨data,sent,h,-⟩; rw [hser] at h; contradiction
      · rw [hser] at h; contradiction
      · rw [hser] at h; contradiction
    | ok serialized =>
      cases serialized with
      | none =>
        have hsent : sendPacket connectedNodes true pkt results = .ok (some true,[]) := by
          rw [sendPacket, if_neg hnodes, if_neg (by simp), hser]
          rfl
        refine iff_of_false (fun h => ?_) fun h => h.1 rfl hser
        obtain ⟨data,sent,hnone,-⟩ := h.returned.mp ⟨[],hsent⟩
        rw [hser] at hnone
        exact Option.some_ne_none _ (Except.ok.inj hnone).symm
      | some out => exact reaches_running hnodes hfd hser

end Broadcast

/-- Nodes on the descriptors 5 and 7. -/
def twoNodes : Std.ExtTreeMap Int Conn := ((∅ : Std.ExtTreeMap Int Conn).insert 5 0).insert 7 1

theorem mem_twoNodes {fd : Int} : fd ∈ twoNodes ↔ fd = 7 ∨ fd = 5 := by
  rw [twoNodes, Std.ExtTreeMap.mem_insert, Std.ExtTreeMap.mem_insert, Std.compare_eq_iff_eq,
    Std.compare_eq_iff_eq]
  simp [eq_comm]

theorem not_isEmpty_twoNodes : ¬twoNodes.isEmpty = true := by
  intro h
  have hmem : (5 : Int) ∈ twoNodes := mem_twoNodes.mpr (.inr rfl)
  rw [Std.ExtTreeMap.isEmpty_iff.mp h] at hmem
  exact Std.ExtTreeMap.not_mem_empty hmem

/-- The send on 5 fails, and 7 gets nothing; and a packet of a type that the parser does not know is
reported as sent. -/
theorem not_reaches_twoNodes :
    ¬Reaches twoNodes true (.conn { type := .named .syncRequest })
        (fun fd => if fd = 5 then [.failed] else [.wrote 100]) ∧
      ¬Reaches twoNodes true (.conn { type := .named .xtRecentTable }) fun _ => [.wrote 100] := by
  refine ⟨fun h => ?_,fun h => ?_⟩
  · have horder := (reaches_running not_isEmpty_twoNodes rfl rfl).mp h
    have hlater := (horder.2 _ _ rfl 7 (mem_twoNodes.mpr (.inl rfl)) (by decide)).2 5
      (mem_twoNodes.mpr (.inr rfl)) (by decide)
    exact not_takes_failed hlater
  · have hsent : sendPacket twoNodes true (.conn { type := .named .xtRecentTable })
        (fun _ => [.wrote 100]) = .ok (some true,[]) := by
      rw [sendPacket, if_neg not_isEmpty_twoNodes]
      rfl
    obtain ⟨data,sent,hnone,-⟩ := h.returned.mp ⟨[],hsent⟩
    exact Option.some_ne_none _ (Except.ok.inj hnone).symm

/-- Short writes and EAGAIN do no harm. -/
theorem reaches_twoNodes : Reaches twoNodes true (.conn { type := .named .syncRequest })
    fun _ => [.wrote 2,.again,.wrote 100] := by
  refine (reaches_iff not_isEmpty_twoNodes rfl).mpr ⟨fun _ h => ?_,fun data sent h fd _ _ => ⟨rfl,?_⟩⟩
  · contradiction
  · obtain ⟨rfl,-⟩ := Prod.mk.inj (Option.some.inj (Except.ok.inj h))
    exact fun fd' _ _ => (handleSend_iff_sends _ _ fd').mp rfl

/-- The nodes that a broadcast of the master's model reaches are those that get the complete bytes. -/
theorem reached_eq (s : SyncMaster) {data : Bytes} (hne : data ≠ []) (results : Int → List SendResult)
    (fd : Int) : (∃ c, (fd,c) ∈ s.reached fun fd => Sends data results fd) ↔
      (sendAll data results s.connectedNodes.keys).2.handed fd = data := by
  rw [handed_sendAll hne (Table.nodup_keys _), ← Std.ExtTreeMap.map_fst_toList_eq_keys, List.takeWhile_map, List.mem_map]
  constructor
  · rintro ⟨c,hc⟩
    exact ⟨(fd,c),hc,rfl⟩
  · rintro ⟨⟨fd',c⟩,hc,rfl⟩
    exact ⟨c,hc⟩

end Connection
end Ssyncd
