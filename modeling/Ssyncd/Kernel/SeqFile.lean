import Ssyncd.Kernel.HashChains
import Ssyncd.Library.Cursor

/-! The file of a table as it is read out. A reader gets some rows at a time, and what is done to the
table between two reads moves the rows that are to come. -/
namespace Ssyncd
namespace Kernel

variable {nstampsMaxMask : UInt8}

namespace ChainedTable

/-- Counts the position down along the chains, the first of which has this number. -/
def startFrom : List (List Ptr) → ℕ → ℕ → Option (ℕ × Ptr)
  | [], _, _ => none
  | chain::chains, bucket, p =>
    match chain[p]? with
    | some e => some (bucket,e)
    | none => startFrom chains (bucket+1) (p-chain.length)

def recentSeqStart (t : ChainedTable nstampsMaxMask) (pos : ℕ) : Option (ℕ × Ptr) :=
  startFrom t.iphash 0 pos

/-- What is linked behind an entry. -/
def listNext : List Ptr → Ptr → List Ptr
  | [], _ => []
  | q::chain, p => if q = p then chain else listNext chain p

/-- The first entry of the chains, past those that are at their end. -/
def firstEntry : List (List Ptr) → ℕ → Option (ℕ × Ptr)
  | [], _ => none
  | []::chains, bucket => firstEntry chains (bucket+1)
  | (p::_)::_, bucket => some (bucket,p)

/-- The entry that follows, and its position. -/
def recentSeqNext (t : ChainedTable nstampsMaxMask) (st : ℕ × Ptr) (pos : ℕ) : Option ((ℕ × Ptr) × ℕ) :=
  (firstEntry (listNext (t.iphash.getD st.1 []) st.2::t.iphash.drop (st.1+1)) st.1).map fun st =>
    (st,pos+1)

theorem startFrom_zero (chains : List (List Ptr)) (bucket : ℕ) :
    startFrom chains bucket 0 = firstEntry chains bucket := by
  induction chains generalizing bucket with
  | nil => rfl
  | cons chain chains ih =>
    cases chain with
    | nil => exact ih (bucket+1)
    | cons p chain => rfl

/-- The chains are one list to who counts along them. -/
theorem startFrom_snd (chains : List (List Ptr)) (bucket p : ℕ) :
    (startFrom chains bucket p).map Prod.snd = chains.flatten[p]? := by
  induction chains generalizing bucket p with
  | nil => rfl
  | cons chain chains ih =>
    rw [startFrom, List.flatten_cons, List.getElem?_append]
    split
    · next e he =>
      obtain ⟨hlt,-⟩ := List.getElem?_eq_some_iff.mp he
      rw [if_pos hlt, he, Option.map_some]
    · next hnone =>
      rw [if_neg (Nat.not_lt.mpr (List.getElem?_eq_none_iff.mp hnone)), ih]

theorem le_of_startFrom {chains : List (List Ptr)} {bucket p : ℕ} {st : ℕ × Ptr}
    (h : startFrom chains bucket p = some st) : bucket ≤ st.1 := by
  induction chains generalizing bucket p with
  | nil => contradiction
  | cons chain chains ih =>
    rw [startFrom] at h
    split at h
    · rw [← Option.some.inj h]
    · exact (Nat.le_succ bucket).trans (ih h)

theorem listNext_eq_drop {chain : List Ptr} (hnodup : chain.Nodup) {p : ℕ} {e : Ptr}
    (he : chain[p]? = some e) : listNext chain e = chain.drop (p+1) := by
  induction chain generalizing p with
  | nil => contradiction
  | cons q chain ih =>
    obtain ⟨hout,hrest⟩ := List.nodup_cons.mp hnodup
    cases p with
    | zero =>
      obtain rfl : q = e := Option.some.inj he
      rw [listNext, if_pos rfl, List.drop_succ_cons, List.drop_zero]
    | succ p =>
      have hne : q ≠ e := by
        rintro rfl
        exact hout (List.mem_of_getElem? he)
      rw [listNext, if_neg hne, List.drop_succ_cons]
      exact ih hrest he

/-- From an entry it goes on to where one more would have been counted down. -/
theorem firstEntry_next {chains : List (List Ptr)} (hnodup : chains.flatten.Nodup) {bucket p : ℕ}
    {st : ℕ × Ptr} (h : startFrom chains bucket p = some st) :
    firstEntry (listNext (chains.getD (st.1-bucket) []) st.2::chains.drop (st.1-bucket+1)) st.1 =
      startFrom chains bucket (p+1) := by
  induction chains generalizing bucket p with
  | nil => contradiction
  | cons chain chains ih =>
    have hparts := List.nodup_append.mp (List.flatten_cons ▸ hnodup)
    rw [startFrom] at h ⊢
    split at h
    · next e he =>
      obtain rfl : (bucket,e) = st := Option.some.inj h
      simp only [Nat.sub_self, List.getD_cons_zero, List.drop_succ_cons, List.drop_zero]
      rw [listNext_eq_drop hparts.1 he]
      cases hnext : chain[p+1]? with
      | none =>
        obtain ⟨hlt,-⟩ := List.getElem?_eq_some_iff.mp he
        have hlen : p+1 = chain.length := Nat.le_antisymm hlt (List.getElem?_eq_none_iff.mp hnext)
        rw [hlen, List.drop_length, Nat.sub_self]
        exact (startFrom_zero chains (bucket+1)).symm
      | some q =>
        obtain ⟨hlt,rfl⟩ := List.getElem?_eq_some_iff.mp hnext
        rw [List.drop_eq_getElem_cons hlt]
        rfl
    · next hnone =>
      have hlen : chain.length ≤ p := List.getElem?_eq_none_iff.mp hnone
      have hle := le_of_startFrom h
      obtain ⟨i,hi⟩ : ∃ i, st.1 = bucket+1+i := ⟨st.1-(bucket+1),by omega⟩
      have hnext : chain[p+1]? = none := List.getElem?_eq_none_iff.mpr (by omega)
      have hcount : p+1-chain.length = p-chain.length+1 := by omega
      have hsub : st.1-bucket = st.1-(bucket+1)+1 := by omega
      rw [hnext, hcount, ← ih hparts.2.1 h, hsub, List.getD_cons_succ, List.drop_succ_cons]

section Walk
variable {t : ChainedTable nstampsMaxMask} {st : ℕ × Ptr} {pos : ℕ}

/-- To go on from a row is to start at the one behind it. -/
theorem recentSeqNext_eq (hnodup : t.iphash.flatten.Nodup) (h : t.recentSeqStart pos = some st) :
    t.recentSeqNext st pos = (t.recentSeqStart (pos+1)).map fun st => (st,pos+1) := by
  have hnext := firstEntry_next hnodup h
  rw [Nat.sub_zero] at hnext
  rw [recentSeqNext, hnext]
  rfl

/-- The entries that are shown from here on, as many more as there is room for, and the position behind
them. -/
def rowsFrom (t : ChainedTable nstampsMaxMask) : ℕ → ℕ × Ptr → ℕ → List Ptr × ℕ
  | 0, st, pos => ([st.2],pos+1)
  | more+1, st, pos =>
    match t.recentSeqNext st pos with
    | none => ([st.2],pos+1)
    | some (st',pos') => Prod.map (st.2::·) id (t.rowsFrom more st' pos')

theorem drop_of_recentSeqStart (h : t.recentSeqStart pos = some st) :
    t.iphash.flatten.drop pos = st.2::t.iphash.flatten.drop (pos+1) := by
  have hsnd := startFrom_snd t.iphash 0 pos
  rw [show startFrom t.iphash 0 pos = some st from h, Option.map_some] at hsnd
  obtain ⟨hlt,heq⟩ := List.getElem?_eq_some_iff.mp hsnd.symm
  rw [List.drop_eq_getElem_cons hlt, heq]

theorem drop_of_ended (h : t.recentSeqStart pos = none) : t.iphash.flatten.drop pos = [] := by
  have hsnd := startFrom_snd t.iphash 0 pos
  rw [show startFrom t.iphash 0 pos = none from h, Option.map_none] at hsnd
  exact List.drop_of_length_le (List.getElem?_eq_none_iff.mp hsnd.symm)

/-- A round shows what comes next in the chains. -/
theorem rowsFrom_eq (hnodup : t.iphash.flatten.Nodup) (h : t.recentSeqStart pos = some st) (more : ℕ) :
    t.rowsFrom more st pos = (Cursor.round t.iphash.flatten pos (more+1),
      pos + (Cursor.round t.iphash.flatten pos (more+1)).length) := by
  induction more generalizing st pos with
  | zero => simp [rowsFrom, Cursor.round, drop_of_recentSeqStart h]
  | succ more ih =>
    have hdrop := drop_of_recentSeqStart h
    rw [rowsFrom, recentSeqNext_eq hnodup h]
    cases hstart : t.recentSeqStart (pos+1) with
    | none =>
      have hlast := drop_of_ended hstart
      simp [Cursor.round, hdrop, hlast]
    | some st' =>
      have hrest := ih hstart
      simp only [Option.map_some]
      rw [hrest]
      simp only [Cursor.round, hdrop, List.take_succ_cons, List.length_cons, Prod.map_apply, id_eq]
      congr 1
      omega

end Walk

end ChainedTable

/-- Calls that may take an entry out of the table. -/
def TableCall.Removes (ipListTot : ℕ) (t : ChainedTable nstampsMaxMask) : TableCall → Prop
  | .remove _ => True
  | .reap _ => True
  | .flush => True
  | .init .. => ipListTot ≤ t.entries
  | _ => False

def TableCall.Adds : TableCall → Prop
  | .init _ _ _ (some _) => True
  | _ => False

namespace ChainedTable

/-- A row is shown from its block. -/
def row (t : ChainedTable nstampsMaxMask) (p : Ptr) : Option (Ptr × RecentEntry nstampsMaxMask) :=
  (t.heap p).map fun e => (p,e)

section Calls
variable {hash : NfInetAddr → ℕ} {size ipListTot : ℕ} {t t' : ChainedTable nstampsMaxMask} {c : TableCall}
  {p : Ptr} {e : RecentEntry nstampsMaxMask} {r : ChainedTable nstampsMaxMask × Option Ptr}

/-- A table whose chains are those of some list. -/
def Linked (hash : NfInetAddr → ℕ) (size : ℕ) (t : ChainedTable nstampsMaxMask) : Prop :=
  ∃ u, LiveTable.Chained hash size u t

theorem linked_new (hash : NfInetAddr → ℕ) (size : ℕ) :
    Linked hash size ({ iphash := List.replicate size [] } : ChainedTable nstampsMaxMask) :=
  ⟨{},LiveTable.chained_new hash size⟩

theorem Linked.nodup (h : Linked hash size t) (hsize : ∀ addr, hash addr < size) :
    t.iphash.flatten.Nodup := by
  obtain ⟨u,hu⟩ := h
  exact (hu.flatten_perm hsize).nodup_iff.mpr hu.wellFormed.nodup

theorem Linked.length (h : Linked hash size t) (hsize : ∀ addr, hash addr < size) :
    t.iphash.flatten.length = t.entries := by
  obtain ⟨u,hu⟩ := h
  rw [(hu.flatten_perm hsize).length_eq, hu.entries, hu.wellFormed.counted]

theorem Linked.live (h : Linked hash size t) (hsize : ∀ addr, hash addr < size) :
    p ∈ t.iphash.flatten ↔ ∃ e, t.heap p = some e := by
  obtain ⟨u,hu⟩ := h
  rw [(hu.flatten_perm hsize).mem_iff, hu.heap]
  exact hu.wellFormed.live p

theorem Linked.call (h : Linked hash size t) (hsize : ∀ addr, hash addr < size)
    (hc : t.call hash ipListTot c = some r) : Linked hash size r.1 := by
  obtain ⟨u,hu⟩ := h
  have hrel := hu.call hsize ipListTot c
  rw [hc] at hrel
  generalize u.call ipListTot c = ru at hrel
  cases hrel with
  | some hagree => exact ⟨_,hagree.1⟩

theorem Linked.calls {s : ChainedTable nstampsMaxMask × List (Option Ptr)} (h : Linked hash size t)
    (hsize : ∀ addr, hash addr < size) {ps : List (Option Ptr)} {cs : List TableCall}
    (hrun : Runs.run (ChainedTable.calls hash ipListTot) (t,ps) cs = some s) : Linked hash size s.1 := by
  have hreach : Runs.Reach (ChainedTable.calls hash ipListTot) (fun _ _ => True) (t,ps) s :=
    Runs.reach_of_run hrun fun _ _ _ => trivial
  refine hreach.invariant (fun s => Linked hash size s.1) h fun s c s' hs _ hstep => ?_
  obtain ⟨r,hr,rfl⟩ := Option.map_eq_some_iff.mp hstep
  exact hs.call hsize hr

/-- What may change of the entries in a call that frees no block. -/
def Grows (t t' : ChainedTable nstampsMaxMask) : Prop :=
  t.iphash.flatten.Sublist t'.iphash.flatten ∧
    ∀ p e, t.heap p = some e → ∃ e', t'.heap p = some e' ∧ e'.addr = e.addr

theorem Grows.refl (t : ChainedTable nstampsMaxMask) : t.Grows t :=
  ⟨.refl _,fun _ e he => ⟨e,he,rfl⟩⟩

theorem Grows.trans {t'' : ChainedTable nstampsMaxMask} (h : t.Grows t') (h' : t'.Grows t'') :
    t.Grows t'' := by
  refine ⟨h.1.trans h'.1,fun p e he => ?_⟩
  obtain ⟨e',he',haddr⟩ := h.2 p e he
  obtain ⟨e'',he'',haddr'⟩ := h'.2 p e' he'
  exact ⟨e'',he'',haddr'.trans haddr⟩

/-- A block that is written to keeps its address. -/
theorem grows_write (he : t.heap p = some e) {e' : RecentEntry nstampsMaxMask} (haddr : e'.addr = e.addr)
    (lruList : List Ptr) : t.Grows { t with heap := Function.update t.heap p (some e'), lruList } ∧
      Grows { t with heap := Function.update t.heap p (some e'), lruList } t := by
  refine ⟨⟨.refl _,fun q d hd => ?_⟩,.refl _,fun q d hd => ?_⟩
  · dsimp only
    rw [Function.update_apply]
    split
    · next heq =>
      obtain rfl : e = d := Option.some.inj (he.symm.trans (heq ▸ hd))
      exact ⟨e',rfl,haddr⟩
    · exact ⟨d,hd,rfl⟩
  · dsimp only at hd
    rw [Function.update_apply] at hd
    split at hd
    · next heq =>
      obtain rfl := Option.some.inj hd
      exact ⟨e,heq ▸ he,haddr.symm⟩
    · exact ⟨d,hd,rfl⟩

theorem remove_grows (t : ChainedTable nstampsMaxMask) (p : Ptr) : (t.recentEntryRemove p).Grows t := by
  refine ⟨Buckets.flatten_erase_sublist,fun q d hd => ⟨d,?_,rfl⟩⟩
  change Function.update t.heap p none q = some d at hd
  rw [Function.update_apply] at hd
  split at hd
  · contradiction
  · exact hd

theorem evict_grows (h : t.recentEntryEvict ipListTot = some t') : t'.Grows t := by
  unfold recentEntryEvict at h
  split at h
  · obtain ⟨p,-,rfl⟩ := Option.map_eq_some_iff.mp h
    exact remove_grows t p
  · obtain rfl := Option.some.inj h
    exact .refl t

theorem flush_grows (t : ChainedTable nstampsMaxMask) : t.recentTableFlush.Grows t := by
  have hchain : ∀ (chain : List Ptr) (t : ChainedTable nstampsMaxMask),
      (chain.foldl recentEntryRemove t).Grows t := by
    intro chain
    induction chain with
    | nil => exact .refl
    | cons p chain ih => exact fun t => (ih _).trans (remove_grows t p)
  rw [recentTableFlush, ← List.foldl_flatten]
  exact hchain _ t

theorem call_grows (h : t.call hash ipListTot c = some r) (hkeep : ¬c.Removes ipListTot t) : t.Grows r.1 := by
  cases c with
  | lookup addr ttl =>
    obtain rfl := Option.some.inj h
    exact .refl t
  | remove p => exact absurd trivial hkeep
  | reap time => exact absurd trivial hkeep
  | flush => exact absurd trivial hkeep
  | update p nstamp =>
    obtain ⟨t',ht',rfl⟩ := Option.map_eq_some_iff.mp h
    obtain ⟨e,he,rfl⟩ := Option.map_eq_some_iff.mp ht'
    exact (grows_write he (recentEntryUpdate_addr e nstamp) _).1
  | setTtl p ttl =>
    obtain ⟨t',ht',rfl⟩ := Option.map_eq_some_iff.mp h
    obtain ⟨e,he,rfl⟩ := Option.map_eq_some_iff.mp ht'
    have haddr : RecentEntry.addr { e with ttl } = e.addr := rfl
    exact (grows_write he haddr _).1
  | init addr ttl firstNstamp kmalloc =>
    obtain ⟨t₁,hevict,h⟩ := Option.bind_eq_some_iff.mp h
    have hroom : ¬ipListTot ≤ t.entries := hkeep
    rw [recentEntryEvict, if_neg hroom] at hevict
    obtain rfl := Option.some.inj hevict
    cases kmalloc with
    | none =>
      obtain rfl := Option.some.inj h
      exact .refl t
    | some p =>
      dsimp only at h
      split at h
      · contradiction
      · next hfree =>
        obtain rfl := Option.some.inj h
        refine ⟨Buckets.sublist_flatten_modify,fun q d hd => ⟨d,?_,rfl⟩⟩
        have hne : q ≠ p := by
          rintro rfl
          rw [hd] at hfree
          exact hfree rfl
        exact (Function.update_of_ne hne _ _).trans hd

/-- A call that allocates nothing only takes away. -/
theorem call_shrinks (h : t.call hash ipListTot c = some r) (hadd : ¬c.Adds) : r.1.Grows t := by
  cases c with
  | lookup addr ttl =>
    obtain rfl := Option.some.inj h
    exact .refl t
  | remove p =>
    obtain ⟨e,-,rfl⟩ := Option.map_eq_some_iff.mp h
    exact remove_grows t p
  | reap time =>
    obtain ⟨t',ht',rfl⟩ := Option.map_eq_some_iff.mp h
    unfold recentEntryReap at ht'
    split at ht'
    · contradiction
    · next p rest hlru =>
      obtain ⟨stamp,-,rfl⟩ := Option.map_eq_some_iff.mp ht'
      dsimp only
      split
      · exact remove_grows t p
      · exact .refl t
  | flush =>
    obtain rfl := Option.some.inj h
    exact flush_grows t
  | update p nstamp =>
    obtain ⟨t',ht',rfl⟩ := Option.map_eq_some_iff.mp h
    obtain ⟨e,he,rfl⟩ := Option.map_eq_some_iff.mp ht'
    exact (grows_write he (recentEntryUpdate_addr e nstamp) _).2
  | setTtl p ttl =>
    obtain ⟨t',ht',rfl⟩ := Option.map_eq_some_iff.mp h
    obtain ⟨e,he,rfl⟩ := Option.map_eq_some_iff.mp ht'
    have haddr : RecentEntry.addr { e with ttl } = e.addr := rfl
    exact (grows_write he haddr _).2
  | init addr ttl firstNstamp kmalloc =>
    obtain ⟨t₁,hevict,h⟩ := Option.bind_eq_some_iff.mp h
    cases kmalloc with
    | none =>
      obtain rfl := Option.some.inj h
      exact evict_grows hevict
    | some p => exact absurd trivial hadd

end Calls

end ChainedTable

end Kernel
end Ssyncd
