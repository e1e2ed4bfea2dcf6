import Ssyncd.Master.State

/-! The master's connected nodes, their descriptors and numbers, and the counter of nodes that
lags behind them by what the queue still holds. -/
namespace Ssyncd
namespace SyncMaster

abbrev Nodes := Std.ExtTreeMap Int Conn

def Connected (nodes : Nodes) (c : Conn) : Prop := ∃ fd : Int, nodes[fd]? = some c

theorem not_isEmpty_of_connected {nodes : Nodes} {fd : Int} {c : Conn} (h : nodes[fd]? = some c) :
    ¬ nodes.isEmpty = true := by
  intro he
  rw [Std.ExtTreeMap.isEmpty_iff.mp he] at h
  simp at h

def pendingOf (type : PacketType) (queue : List Request) : ℕ :=
  queue.countP fun req => req.type = type

/-- The counter, with what the queue still holds, is the number of connected nodes. -/
def Counted (nodes : Nodes) (queue : List Request) (backupServersFd : Int) : Prop :=
  backupServersFd + pendingOf .connect queue - pendingOf .disconnect queue = nodes.size

/-- Each connection has one descriptor and a number below the next one. -/
structure Numbered (nodes : Nodes) (nextConn : Conn) : Prop where
  fd : ∀ (fd : Int) (c : Conn), nodes[fd]? = some c → 0 ≤ fd
  old : ∀ c, Connected nodes c → c < nextConn
  inj : ∀ (fd fd' : Int) (c : Conn), nodes[fd]? = some c → nodes[fd']? = some c → fd = fd'

theorem connected_insert {nodes : Nodes} {fd : Int} {c c' : Conn} (hfd : fd ∉ nodes) :
    Connected (nodes.insert fd c) c' ↔ c = c' ∨ Connected nodes c' := by
  simp only [Connected, Std.ExtTreeMap.getElem?_insert, Std.compare_eq_iff_eq]
  constructor
  · rintro ⟨fd',h⟩
    split at h
    · exact .inl (Option.some.inj h)
    · exact .inr ⟨fd',h⟩
  · rintro (rfl | ⟨fd',h⟩)
    · exact ⟨fd,by simp⟩
    · refine ⟨fd',?_⟩
      rw [if_neg]
      · exact h
      · rintro rfl
        simp [Std.ExtTreeMap.getElem?_eq_none hfd] at h

/-- A node that is accepted takes no place from an older connection. -/
theorem getElem?_insert_old {nodes : Nodes} {fd fd' : Int} {c nextConn : Conn} (hold : c < nextConn)
    (h : (nodes.insert fd nextConn)[fd']? = some c) : nodes[fd']? = some c := by
  rw [Std.ExtTreeMap.getElem?_insert] at h
  split at h
  · exact absurd (Option.some.inj h) (Nat.ne_of_gt hold)
  · exact h

theorem getElem?_erase_some {nodes : Nodes} {fd fd' : Int} {c : Conn}
    (h : (nodes.erase fd)[fd']? = some c) : nodes[fd']? = some c := by
  rw [Std.ExtTreeMap.getElem?_erase] at h
  split at h
  · contradiction
  · exact h

theorem connected_erase {nodes : Nodes} {fd : Int} {c : Conn} (h : Connected (nodes.erase fd) c) :
    Connected nodes c := by
  obtain ⟨fd',h⟩ := h
  exact ⟨fd',getElem?_erase_some h⟩

theorem Numbered.accept {nodes : Nodes} {nextConn : Conn} (h : Numbered nodes nextConn) {fd : Int}
    (hpos : 0 ≤ fd) (hfd : fd ∉ nodes) : Numbered (nodes.insert fd nextConn) (nextConn+1) where
  fd fd' c hc := by
    rw [Std.ExtTreeMap.getElem?_insert] at hc
    split at hc
    · next heq =>
      rw [← Std.compare_eq_iff_eq.mp heq]
      exact hpos
    · exact h.fd fd' c hc
  old c hc := by
    rcases (connected_insert hfd).mp hc with rfl | hc
    · exact Nat.lt_succ_self _
    · exact Nat.lt_succ_of_lt (h.old c hc)
  inj fd₁ fd₂ c h₁ h₂ := by
    simp only [Std.ExtTreeMap.getElem?_insert, Std.compare_eq_iff_eq] at h₁ h₂
    split at h₁ <;> split at h₂
    · next e₁ e₂ => exact e₁.symm.trans e₂
    · rw [← Option.some.inj h₁] at h₂
      exact absurd (h.old _ ⟨_,h₂⟩) (Nat.lt_irrefl _)
    · rw [← Option.some.inj h₂] at h₁
      exact absurd (h.old _ ⟨_,h₁⟩) (Nat.lt_irrefl _)
    · exact h.inj fd₁ fd₂ c h₁ h₂

theorem Numbered.close {nodes : Nodes} {nextConn : Conn} (h : Numbered nodes nextConn) (fd : Int) :
    Numbered (nodes.erase fd) nextConn where
  fd fd' c hc := h.fd fd' c (getElem?_erase_some hc)
  old c hc := h.old c (connected_erase hc)
  inj fd₁ fd₂ c h₁ h₂ := h.inj fd₁ fd₂ c (getElem?_erase_some h₁) (getElem?_erase_some h₂)

theorem pendingOf_append (type : PacketType) (queue queue' : List Request) :
    pendingOf type (queue ++ queue') = pendingOf type queue + pendingOf type queue' :=
  List.countP_append

theorem pendingOf_cons (type : PacketType) (req : Request) (queue : List Request) :
    pendingOf type (req::queue) = pendingOf type queue + if req.type = type then 1 else 0 := by
  simp [pendingOf, List.countP_cons]

theorem pendingOf_singleton (type : PacketType) (req : Request) :
    pendingOf type [req] = if req.type = type then 1 else 0 := by
  simp [pendingOf]

theorem Counted.accept {nodes : Nodes} {queue : List Request} {n : Int}
    (h : Counted nodes queue n) {fd : Int} (hfd : fd ∉ nodes) (c : Conn) :
    Counted (nodes.insert fd c) (queue ++ [⟨.connect,fd,c⟩]) n := by
  have hsize : (nodes.insert fd c).size = nodes.size + 1 := by
    rw [Std.ExtTreeMap.size_insert, if_neg (by simpa using hfd)]
  unfold Counted at h ⊢
  rw [pendingOf_append, pendingOf_append, pendingOf_singleton, pendingOf_singleton, hsize,
    if_pos rfl, if_neg (by simp)]
  omega

theorem Counted.close {nodes : Nodes} {queue : List Request} {n : Int}
    (h : Counted nodes queue n) {fd : Int} {c : Conn} (hc : nodes[fd]? = some c) :
    Counted (nodes.erase fd) (queue ++ [⟨.disconnect,fd,c⟩]) n := by
  have hmem : fd ∈ nodes := by
    rw [Std.ExtTreeMap.mem_iff_isSome_getElem?, hc]
    rfl
  have hpos : 0 < nodes.size := by
    by_contra hz
    have hempty : nodes = ∅ := Std.ExtTreeMap.eq_empty_iff_size_eq_zero.mpr (by omega)
    rw [hempty] at hmem
    simp at hmem
  have hsize : (nodes.erase fd).size = nodes.size - 1 := by
    rw [Std.ExtTreeMap.size_erase, if_pos (by simpa using hmem)]
  unfold Counted at h ⊢
  rw [pendingOf_append, pendingOf_append, pendingOf_singleton, pendingOf_singleton, hsize,
    if_neg (by simp), if_pos rfl]
  omega

theorem Counted.receive {nodes : Nodes} {queue : List Request} {n : Int}
    (h : Counted nodes queue n) {req : Request} (hc : req.type ≠ .connect)
    (hd : req.type ≠ .disconnect) : Counted nodes (queue ++ [req]) n := by
  unfold Counted at h ⊢
  rw [pendingOf_append, pendingOf_append, pendingOf_singleton, pendingOf_singleton, if_neg hc,
    if_neg hd]
  exact h

/-- Taking a packet from the queue and counting it keeps the balance. -/
theorem Counted.pop {nodes : Nodes} {req : Request} {queue : List Request} {n : Int}
    (h : Counted nodes (req::queue) n) :
    Counted nodes queue (n + (if req.type = .connect then 1 else 0)
      - if req.type = .disconnect then 1 else 0) := by
  unfold Counted at h ⊢
  rw [pendingOf_cons, pendingOf_cons] at h
  split at h <;> split at h <;> simp_all <;> omega

/-- The queue's packets name connections by the descriptors they had, and are all counted. -/
structure Linked (nodes : Nodes) (queue : List Request) (backupServersFd : Int) (nextConn : Conn) :
    Prop where
  counted : Counted nodes queue backupServersFd
  numbered : Numbered nodes nextConn
  queued : ∀ req ∈ queue, req.conn < nextConn ∧
    ∀ fd : Int, nodes[fd]? = some req.conn → fd = req.fd

section Linked
variable {nodes : Nodes} {queue : List Request} {n : Int} {nextConn : Conn}

theorem Linked.accept (h : Linked nodes queue n nextConn) {fd : Int} (hpos : 0 ≤ fd)
    (hfd : fd ∉ nodes) :
    Linked (nodes.insert fd nextConn) (queue ++ [⟨.connect,fd,nextConn⟩]) n (nextConn+1) where
  counted := h.counted.accept hfd _
  numbered := h.numbered.accept hpos hfd
  queued req hreq := by
    rcases List.mem_append.mp hreq with hreq | hreq
    · obtain ⟨hold,hplace⟩ := h.queued req hreq
      exact ⟨Nat.lt_succ_of_lt hold,fun fd' hc => hplace fd' (getElem?_insert_old hold hc)⟩
    · rw [List.mem_singleton.mp hreq]
      refine ⟨Nat.lt_succ_self _,fun fd' hc => ?_⟩
      exact (h.numbered.accept hpos hfd).inj _ _ _ hc (by simp)

theorem Linked.close (h : Linked nodes queue n nextConn) {fd : Int} {c : Conn}
    (hc : nodes[fd]? = some c) :
    Linked (nodes.erase fd) (queue ++ [⟨.disconnect,fd,c⟩]) n nextConn where
  counted := h.counted.close hc
  numbered := h.numbered.close fd
  queued req hreq := by
    rcases List.mem_append.mp hreq with hreq | hreq
    · obtain ⟨hold,hplace⟩ := h.queued req hreq
      exact ⟨hold,fun fd' hc' => hplace fd' (getElem?_erase_some hc')⟩
    · rw [List.mem_singleton.mp hreq]
      exact ⟨h.numbered.old c ⟨fd,hc⟩,
        fun fd' hc' => h.numbered.inj _ _ _ (getElem?_erase_some hc') hc⟩

theorem Linked.receive (h : Linked nodes queue n nextConn) {fd : Int} {c : Conn}
    {type : PacketType} (hc : nodes[fd]? = some c) (hcon : type ≠ .connect)
    (hdis : type ≠ .disconnect) : Linked nodes (queue ++ [⟨type,fd,c⟩]) n nextConn where
  counted := h.counted.receive hcon hdis
  numbered := h.numbered
  queued req hreq := by
    rcases List.mem_append.mp hreq with hreq | hreq
    · exact h.queued req hreq
    · rw [List.mem_singleton.mp hreq]
      exact ⟨h.numbered.old c ⟨fd,hc⟩,fun fd' hc' => h.numbered.inj _ _ _ hc' hc⟩

theorem Linked.pop {req : Request} {rest : List Request}
    (h : Linked nodes (req::rest) n nextConn) :
    Linked nodes rest (n + (if req.type = .connect then 1 else 0)
      - if req.type = .disconnect then 1 else 0) nextConn where
  counted := h.counted.pop
  numbered := h.numbered
  queued r hr := h.queued r (List.mem_cons_of_mem _ hr)

end Linked

end SyncMaster
end Ssyncd
