import Ssyncd.Kernel.SeqFile

/-! Readers of the file of a table, while other things are done to the table between their reads. -/
namespace Ssyncd
namespace Kernel

variable {nstampsMaxMask : UInt8}

/-- A reader of the file of a table: the position of the row to come, and the rows that were shown, each
with the block of its entry. -/
structure Listing (nstampsMaxMask : UInt8) where
  table : ChainedTable nstampsMaxMask
  pos : ℕ := 0
  rows : List (Ptr × RecentEntry nstampsMaxMask) := []

/-- One more row, and as many as there is room for, or a call on the table between two reads. -/
inductive ListingEvent
  | read (more : ℕ)
  | call (c : TableCall)

def ListingEvent.AddsNone : ListingEvent → Prop
  | .read _ => True
  | .call c => ¬c.Adds

namespace Listing

def read (l : Listing nstampsMaxMask) (more : ℕ) : Option (Listing nstampsMaxMask) :=
  match l.table.recentSeqStart l.pos with
  | none => some l
  | some st =>
    ((l.table.rowsFrom more st l.pos).1.mapM l.table.row).map fun rows => { l with
      pos := (l.table.rowsFrom more st l.pos).2
      rows := l.rows ++ rows }

def step (hash : NfInetAddr → ℕ) (ipListTot : ℕ) (l : Listing nstampsMaxMask) :
    ListingEvent → Option (Listing nstampsMaxMask)
  | .read more => l.read more
  | .call c => (l.table.call hash ipListTot c).map fun r => { l with table := r.1 }

/-- The reader is at the end of the file. -/
def Ended (l : Listing nstampsMaxMask) : Prop := l.table.recentSeqStart l.pos = none

section Read
variable {hash : NfInetAddr → ℕ} {size ipListTot : ℕ} {t : ChainedTable nstampsMaxMask}
  {l l' : Listing nstampsMaxMask} {event : ListingEvent} {P : Ptr → Prop}

theorem mapM_row {ps : List Ptr} {rows : List (Ptr × RecentEntry nstampsMaxMask)}
    (h : ps.mapM t.row = some rows) : rows.map Prod.fst = ps ∧ ∀ r ∈ rows, t.heap r.1 = some r.2 := by
  induction ps generalizing rows with
  | nil =>
    obtain rfl : [] = rows := Option.some.inj h
    exact ⟨rfl,fun _ hr => absurd hr List.not_mem_nil⟩
  | cons p ps ih =>
    rw [List.mapM_cons] at h
    obtain ⟨r,hr,h⟩ := Option.bind_eq_some_iff.mp h
    obtain ⟨rest,hrest,h⟩ := Option.bind_eq_some_iff.mp h
    obtain rfl := Option.some.inj h
    obtain ⟨e,he,rfl⟩ := Option.map_eq_some_iff.mp hr
    obtain ⟨hfst,hlive⟩ := ih hrest
    refine ⟨congrArg (p::·) hfst,fun r hr => ?_⟩
    rcases List.mem_cons.mp hr with rfl | hr
    · exact he
    · exact hlive r hr

/-- A read goes one round further in the chains. -/
theorem read_cases (hnodup : l.table.iphash.flatten.Nodup) {more : ℕ} (h : l.read more = some l') :
    ∃ k rows, l' = { l with
        pos := l.pos + (Cursor.round l.table.iphash.flatten l.pos k).length
        rows := l.rows ++ rows } ∧
      rows.map Prod.fst = Cursor.round l.table.iphash.flatten l.pos k ∧
      ∀ r ∈ rows, l.table.heap r.1 = some r.2 := by
  unfold read at h
  split at h
  · obtain rfl := Option.some.inj h
    exact ⟨0,[],by simp [Cursor.round],by simp [Cursor.round],fun _ hr => absurd hr List.not_mem_nil⟩
  · next st hstart =>
    obtain ⟨rows,hrows,rfl⟩ := Option.map_eq_some_iff.mp h
    rw [ChainedTable.rowsFrom_eq hnodup hstart] at hrows ⊢
    exact ⟨more+1,rows,rfl,mapM_row hrows⟩

/-- A call that the event is takes nothing out of the table. -/
def Keeps (ipListTot : ℕ) (l : Listing nstampsMaxMask) : ListingEvent → Prop
  | .read _ => True
  | .call c => ¬c.Removes ipListTot l.table

/-- The entries that the table had have been shown under their addresses, or will be. -/
structure Complete (t : ChainedTable nstampsMaxMask) (l : Listing nstampsMaxMask) : Prop where
  covers : Cursor.Covers (· ∈ t.iphash.flatten) l.table.iphash.flatten l.pos (l.rows.map Prod.fst)
  grows : t.Grows l.table
  rows : ∀ r ∈ l.rows, ∀ e, t.heap r.1 = some e → r.2.addr = e.addr

theorem complete_start (t : ChainedTable nstampsMaxMask) : Complete t { table := t } where
  covers := Cursor.covers_start
  grows := .refl t
  rows _ hr := absurd hr List.not_mem_nil

theorem Complete.step (h : Complete t l) (hnodup : l.table.iphash.flatten.Nodup)
    (hkeep : Keeps ipListTot l event) (hstep : l.step hash ipListTot event = some l') : Complete t l' := by
  cases event with
  | call c =>
    obtain ⟨r,hr,rfl⟩ := Option.map_eq_some_iff.mp hstep
    have hgrows := ChainedTable.call_grows hr hkeep
    exact ⟨h.covers.grow hgrows.1,h.grows.trans hgrows,h.rows⟩
  | read more =>
    obtain ⟨k,rows,rfl,hfst,hlive⟩ := read_cases hnodup hstep
    refine ⟨?_,h.grows,fun r hr e he => ?_⟩
    · dsimp only
      rw [List.map_append, hfst]
      exact h.covers.round k
    · rcases List.mem_append.mp hr with hr | hr
      · exact h.rows r hr e he
      · obtain ⟨e',he',haddr⟩ := h.grows.2 r.1 e he
        obtain rfl : r.2 = e' := Option.some.inj ((hlive r hr).symm.trans he')
        exact haddr

/-- No entry has been shown twice, and all were in the table; those that are passed over will not be. -/
structure Single (t : ChainedTable nstampsMaxMask) (P : Ptr → Prop) (l : Listing nstampsMaxMask) :
    Prop where
  spares : Cursor.Spares P l.table.iphash.flatten l.pos (l.rows.map Prod.fst)
  grows : l.table.Grows t
  rows : ∀ r ∈ l.rows, ∃ e, t.heap r.1 = some e ∧ e.addr = r.2.addr

theorem single_start (t : ChainedTable nstampsMaxMask) : Single t (fun _ => False) { table := t } where
  spares := Cursor.spares_start
  grows := .refl t
  rows _ hr := absurd hr List.not_mem_nil

theorem Single.step (h : Single t P l) (hnodup : l.table.iphash.flatten.Nodup)
    (hadd : event.AddsNone) (hstep : l.step hash ipListTot event = some l') : Single t P l' := by
  cases event with
  | call c =>
    obtain ⟨r,hr,rfl⟩ := Option.map_eq_some_iff.mp hstep
    have hgrows := ChainedTable.call_shrinks hr hadd
    exact ⟨h.spares.shrink hgrows.1,hgrows.trans h.grows,h.rows⟩
  | read more =>
    obtain ⟨k,rows,rfl,hfst,hlive⟩ := read_cases hnodup hstep
    refine ⟨?_,h.grows,fun r hr => ?_⟩
    · dsimp only
      rw [List.map_append, hfst]
      exact h.spares.round hnodup k
    · rcases List.mem_append.mp hr with hr | hr
      · exact h.rows r hr
      · exact h.grows.2 r.1 r.2 (hlive r hr)

theorem linked_step (h : l.table.Linked hash size) (hsize : ∀ addr, hash addr < size)
    (hstep : l.step hash ipListTot event = some l') : l'.table.Linked hash size := by
  cases event with
  | call c =>
    obtain ⟨r,hr,rfl⟩ := Option.map_eq_some_iff.mp hstep
    exact h.call hsize hr
  | read more =>
    obtain ⟨k,rows,rfl,-⟩ := read_cases (h.nodup hsize) hstep
    exact h

theorem Complete.run (h : Complete t l) (hlinked : l.table.Linked hash size)
    (hsize : ∀ addr, hash addr < size) {events : List ListingEvent}
    (hkeep : Runs.Meets (Listing.step hash ipListTot) (Keeps ipListTot) l events)
    (hrun : Runs.run (Listing.step hash ipListTot) l events = some l') : Complete t l' := by
  induction events generalizing l with
  | nil =>
    obtain rfl : l = l' := Option.some.inj hrun
    exact h
  | cons event events ih =>
    obtain ⟨l₁,hstep,hrest⟩ := Option.bind_eq_some_iff.mp hrun
    exact ih (h.step (hlinked.nodup hsize) hkeep.1 hstep) (linked_step hlinked hsize hstep)
      (hkeep.2 l₁ hstep) hrest

theorem Single.run (h : Single t P l) (hlinked : l.table.Linked hash size)
    (hsize : ∀ addr, hash addr < size) {events : List ListingEvent}
    (hadd : ∀ event ∈ events, event.AddsNone)
    (hrun : Runs.run (Listing.step hash ipListTot) l events = some l') :
    Single t P l' ∧ l'.table.Linked hash size := by
  induction events generalizing l with
  | nil =>
    obtain rfl : l = l' := Option.some.inj hrun
    exact ⟨h,hlinked⟩
  | cons event events ih =>
    obtain ⟨l₁,hstep,hrest⟩ := Option.bind_eq_some_iff.mp hrun
    exact ih (h.step (hlinked.nodup hsize) (hadd event (List.mem_cons_self ..)) hstep)
      (linked_step hlinked hsize hstep) (fun b hb => hadd b (List.mem_cons_of_mem _ hb)) hrest

/-- Where an entry goes that has been shown, the one whose row was to come is passed over. -/
theorem Single.pass (h : Single t P l) (hnodup : l.table.iphash.flatten.Nodup)
    {p q : Ptr} (hp : p ∈ l.rows.map Prod.fst) (hmem : p ∈ l.table.iphash.flatten)
    (hq : l.table.iphash.flatten[l.pos]? = some q) :
    Single t (· = q) { l with table := l.table.recentEntryRemove p } := by
  refine ⟨?_,(ChainedTable.remove_grows l.table p).trans h.grows,h.rows⟩
  change Cursor.Spares (· = q) (l.table.iphash.map fun chain => chain.erase p).flatten l.pos _
  rw [Buckets.flatten_erase hnodup]
  exact h.spares.pass hnodup hp hmem hq

theorem mapM_row_eq {ps : List Ptr} (hlive : ∀ p ∈ ps, ∃ e, t.heap p = some e) :
    ps.mapM t.row = some (ps.filterMap t.row) := by
  induction ps with
  | nil => rfl
  | cons p ps ih =>
    obtain ⟨e,he⟩ := hlive p (List.mem_cons_self ..)
    have hrow : t.row p = some (p,e) := congrArg (Option.map fun e => (p,e)) he
    rw [List.mapM_cons, hrow, ih fun q hq => hlive q (List.mem_cons_of_mem _ hq),
      List.filterMap_cons_some hrow]
    rfl

theorem read_eq (hlinked : l.table.Linked hash size) (hsize : ∀ addr, hash addr < size) (more : ℕ) :
    l.read more = some { l with
      pos := l.pos + (Cursor.round l.table.iphash.flatten l.pos (more+1)).length
      rows := l.rows ++ (Cursor.round l.table.iphash.flatten l.pos (more+1)).filterMap l.table.row } := by
  unfold read
  split
  · next hend => simp [Cursor.round, ChainedTable.drop_of_ended hend]
  · next st hstart =>
    rw [ChainedTable.rowsFrom_eq (hlinked.nodup hsize) hstart, mapM_row_eq]
    · rfl
    · intro p hp
      exact (hlinked.live hsize).mp (List.mem_of_mem_drop (List.mem_of_mem_take hp))

theorem filterMap_take {heap : Ptr → Option (RecentEntry nstampsMaxMask)} {ps : List Ptr}
    (hlive : ∀ p ∈ ps, ∃ e, heap p = some e) (n : ℕ) :
    (ps.take n).filterMap heap = (ps.filterMap heap).take n := by
  induction ps generalizing n with
  | nil => simp
  | cons p ps ih =>
    obtain ⟨e,he⟩ := hlive p (List.mem_cons_self ..)
    cases n with
    | zero => rfl
    | succ n =>
      rw [List.take_succ_cons, List.filterMap_cons_some he, List.filterMap_cons_some he,
        List.take_succ_cons, ih fun q hq => hlive q (List.mem_cons_of_mem _ hq)]

/-- How many rows there is room for in some reads. -/
def rowsFor : List ℕ → ℕ
  | [] => 0
  | more::mores => more + 1 + rowsFor mores

/-- What is read of a table that stays as it is. -/
theorem run_reads (hlinked : l.table.Linked hash size) (hsize : ∀ addr, hash addr < size)
    (hpos : l.pos ≤ l.table.iphash.flatten.length)
    (hrows : l.rows = (l.table.iphash.flatten.take l.pos).filterMap l.table.row) (mores : List ℕ) :
    ∃ l', Runs.run (step hash ipListTot) l (mores.map ListingEvent.read) = some l' ∧
      l'.table = l.table ∧
      l'.pos = min (l.pos + rowsFor mores) l.table.iphash.flatten.length ∧
      l'.rows = (l.table.iphash.flatten.take l'.pos).filterMap l.table.row := by
  induction mores generalizing l with
  | nil => exact ⟨l,rfl,rfl,(Nat.min_eq_left hpos).symm,hrows⟩
  | cons more mores ih =>
    have hread : l.step hash ipListTot (.read more) = some _ := read_eq hlinked hsize more
    have hlen : (Cursor.round l.table.iphash.flatten l.pos (more+1)).length =
        min (more+1) (l.table.iphash.flatten.length - l.pos) := by
      rw [Cursor.round, List.length_take, List.length_drop]
    obtain ⟨l',hrun,htable,hpos',hrows'⟩ := @ih { l with
      pos := l.pos + (Cursor.round l.table.iphash.flatten l.pos (more+1)).length
      rows := l.rows ++ (Cursor.round l.table.iphash.flatten l.pos (more+1)).filterMap l.table.row }
      hlinked (by dsimp only; omega) (by
        dsimp only
        rw [Cursor.take_round, List.filterMap_append, hrows])
    refine ⟨l',?_,htable,?_,hrows'⟩
    · rw [List.map_cons, Runs.run, hread, Option.bind_some, hrun]
    · rw [hpos', rowsFor]
      dsimp only
      omega

end Read

section Runs
variable {jhash : NfInetAddr → UInt32} {ipListTot : ℕ} {cs : List TableCall} {returned : List (Option Ptr)}
  {t : ChainedTable nstampsMaxMask} {l l' : Listing nstampsMaxMask} {events : List ListingEvent}

/-- However a file is read, and whatever else is done to its table meanwhile: as long as nothing is taken
out of it, every entry that was there at first has a row when the end is reached. -/
theorem listing_misses_none
    (hcalls : Runs.run (ChainedTable.calls (recentEntryHash jhash ipListTot) ipListTot)
      ({ iphash := List.replicate (ipListHashSize ipListTot) [] },[]) cs = some (t,returned))
    (hkeep : Runs.Meets (step (recentEntryHash jhash ipListTot) ipListTot) (Keeps ipListTot)
      { table := t } events)
    (hrun : Runs.run (step (recentEntryHash jhash ipListTot) ipListTot) { table := t } events = some l)
    (hend : l.Ended) {p : Ptr} {e : RecentEntry nstampsMaxMask} (hp : t.heap p = some e) :
    ∃ r ∈ l.rows, r.1 = p ∧ r.2.addr = e.addr := by
  have hsize := recentEntryHash_lt jhash ipListTot
  have hlinked := (ChainedTable.linked_new _ _).calls hsize hcalls
  have h := (complete_start t).run hlinked hsize hkeep hrun
  have hlisted := h.covers.done (ChainedTable.drop_of_ended hend) ((hlinked.live hsize).mpr ⟨e,hp⟩)
  obtain ⟨r,hr,rfl⟩ := List.mem_map.mp hlisted
  exact ⟨r,hr,rfl,h.rows r hr e hp⟩

/-- As long as nothing is put into the table, no entry has two rows, and all rows are of entries that were
there at first. -/
theorem listing_repeats_none
    (hcalls : Runs.run (ChainedTable.calls (recentEntryHash jhash ipListTot) ipListTot)
      ({ iphash := List.replicate (ipListHashSize ipListTot) [] },[]) cs = some (t,returned))
    (hadd : ∀ event ∈ events, event.AddsNone)
    (hrun : Runs.run (step (recentEntryHash jhash ipListTot) ipListTot) { table := t } events = some l) :
    (l.rows.map Prod.fst).Nodup ∧ ∀ r ∈ l.rows, ∃ e, t.heap r.1 = some e ∧ e.addr = r.2.addr := by
  have hsize := recentEntryHash_lt jhash ipListTot
  have hlinked := (ChainedTable.linked_new _ _).calls hsize hcalls
  have h := ((single_start t).run hlinked hsize hadd hrun).1
  exact ⟨h.spares.nodup,h.rows⟩

/-- An entry that goes after its row was read takes the next row with it: the entry that is there all the
time is not shown before the end. -/
theorem removal_hides_row
    (hcalls : Runs.run (ChainedTable.calls (recentEntryHash jhash ipListTot) ipListTot)
      ({ iphash := List.replicate (ipListHashSize ipListTot) [] },[]) cs = some (t,returned))
    (hadd : ∀ event ∈ events, event.AddsNone)
    (hrun : Runs.run (step (recentEntryHash jhash ipListTot) ipListTot) { table := t } events = some l)
    {r : Ptr × RecentEntry nstampsMaxMask} (hr : r ∈ l.rows) {st : ℕ × Ptr}
    (hnext : l.table.recentSeqStart l.pos = some st) {later : List ListingEvent}
    (hlater : ∀ event ∈ later, event.AddsNone)
    (hrest : Runs.run (step (recentEntryHash jhash ipListTot) ipListTot) l
      (.call (.remove r.1)::later) = some l') : st.2 ∉ l'.rows.map Prod.fst := by
  have hsize := recentEntryHash_lt jhash ipListTot
  have hlinked := (ChainedTable.linked_new _ _).calls hsize hcalls
  obtain ⟨h,hlinked'⟩ := (single_start t).run hlinked hsize hadd hrun
  obtain ⟨l₁,hstep,hend⟩ := Option.bind_eq_some_iff.mp hrest
  have hlinked₁ := linked_step hlinked' hsize hstep
  obtain ⟨r',hcall,rfl⟩ := Option.map_eq_some_iff.mp hstep
  obtain ⟨e,he,rfl⟩ := Option.map_eq_some_iff.mp hcall
  have hmem := (hlinked'.live hsize).mpr ⟨e,he⟩
  have hq : l.table.iphash.flatten[l.pos]? = some st.2 := by
    rw [← ChainedTable.startFrom_snd l.table.iphash 0 l.pos]
    exact congrArg (Option.map Prod.snd) hnext
  have hpass := h.pass (hlinked'.nodup hsize) (List.mem_map_of_mem hr) hmem hq
  exact ((hpass.run hlinked₁ hsize hlater hend).1.spares.out st.2 rfl).1

/-- A table that stays as it is is read whole in its order, in whatever portions, and the reads do not
fail. -/
theorem listing_is_file
    (hcalls : Runs.run (ChainedTable.calls (recentEntryHash jhash ipListTot) ipListTot)
      ({ iphash := List.replicate (ipListHashSize ipListTot) [] },[]) cs = some (t,returned))
    (name : Bytes) (mores : List ℕ) :
    ∃ l, Runs.run (step (recentEntryHash jhash ipListTot) ipListTot) { table := t }
        (mores.map ListingEvent.read) = some l ∧
      l.rows.map Prod.snd = (t.iphash.flatten.filterMap t.heap).take (rowsFor mores) ∧
      (t.entries ≤ rowsFor mores → l.Ended ∧ (l.rows.flatMap fun r => recentSeqShow r.2) =
        RecentTable.file ⟨name,nstampsMaxMask,t.iphash.flatten.filterMap t.heap⟩) := by
  have hsize := recentEntryHash_lt jhash ipListTot
  have hlinked := (ChainedTable.linked_new _ _).calls hsize hcalls
  obtain ⟨l,hrun,htable,hpos,hrows⟩ := @run_reads _ _ _ ipListTot { table := t } hlinked hsize
    (Nat.zero_le _) rfl mores
  dsimp only at hpos hrows htable
  rw [Nat.zero_add] at hpos
  have hsnd : l.rows.map Prod.snd = (t.iphash.flatten.filterMap t.heap).take (rowsFor mores) := by
    have hrow : (fun p => (t.row p).map Prod.snd) = t.heap := by
      funext p
      simp [ChainedTable.row, Function.comp_def]
    rw [hrows, List.map_filterMap, hrow, hpos, ← List.take_eq_take_min]
    exact filterMap_take (fun p hp => (hlinked.live hsize).mp hp) _
  refine ⟨l,hrun,hsnd,fun hall => ?_⟩
  have hlen : t.iphash.flatten.length = t.entries := hlinked.length hsize
  constructor
  · have hlast : t.iphash.flatten[l.pos]? = none := List.getElem?_eq_none_iff.mpr (by omega)
    rw [← ChainedTable.startFrom_snd t.iphash 0 l.pos, Option.map_eq_none_iff] at hlast
    rw [Ended, htable]
    exact hlast
  · have hshort : (t.iphash.flatten.filterMap t.heap).length ≤ rowsFor mores :=
      (List.length_filterMap_le ..).trans (by omega)
    rw [List.take_of_length_le hshort] at hsnd
    rw [RecentTable.file, ← hsnd, List.flatMap_map]

end Runs

section Samples

/-- The last octet of an IPv4 address picks the chain. -/
def octetHash : NfInetAddr → UInt32
  | .ip _ _ _ d => d.toUInt32
  | .ip6 .. => 0

/-- Three entries in a table for four, the first one in the last of the chains. -/
def threeCalls : List TableCall := [.init (.ip 10 0 0 3) 64 10 (some 0),.init (.ip 10 0 0 1) 64 20 (some 1),
  .init (.ip 10 0 0 2) 64 30 (some 2)]

def threeEntries : ChainedTable 0 × List (Option Ptr) :=
  (Runs.run (ChainedTable.calls (recentEntryHash octetHash 4) 4)
    ({ iphash := List.replicate (ipListHashSize 4) [] },[]) threeCalls).getD ({ iphash := [] },[])

theorem threeEntries_calls : Runs.run (ChainedTable.calls (recentEntryHash octetHash 4) 4)
    ({ iphash := List.replicate (ipListHashSize 4) [] },[]) threeCalls = some threeEntries := rfl

/-- What a reader has that sees a row at a time while this is done to the table. -/
def readDuring (l : Listing 0) (events : List ListingEvent) : Listing 0 :=
  (Runs.run (step (recentEntryHash octetHash 4) 4) l events).getD { table := { iphash := [] } }

/-- A row is read, another address comes, and the rest is read. -/
def readGrowing : List ListingEvent :=
  [.read 0,.call (.init (.ip 10 0 0 9) 64 40 (some 3)),.read 1,.read 1,.read 0]

theorem readGrowing_keeps : Runs.Meets (step (recentEntryHash octetHash 4) 4) (Keeps 4)
    { table := threeEntries.1 } readGrowing := by
  refine ⟨trivial,fun l hl => ⟨?_,fun _ _ => ⟨trivial,fun _ _ => ⟨trivial,fun _ _ =>
    ⟨trivial,fun _ _ => trivial⟩⟩⟩⟩⟩
  have hroom : l.table.entries = 3 := by
    rw [← Option.some.inj hl]
    rfl
  change ¬4 ≤ l.table.entries
  omega

theorem readGrowing_run : Runs.run (step (recentEntryHash octetHash 4) 4) { table := threeEntries.1 }
    readGrowing = some (readDuring { table := threeEntries.1 } readGrowing) := rfl

theorem listing_misses_none_readGrowing :
    (readDuring { table := threeEntries.1 } readGrowing).rows.map Prod.fst = [1,3,2,0] ∧
    ∃ r ∈ (readDuring { table := threeEntries.1 } readGrowing).rows,
      r.1 = 0 ∧ r.2.addr = .ip 10 0 0 3 := by
  have hblock : threeEntries.1.heap 0 =
      some (Kernel.recentEntryInit 0 (.ip 10 0 0 3) 64 10) := rfl
  exact ⟨rfl,listing_misses_none threeEntries_calls readGrowing_keeps readGrowing_run rfl hblock⟩

/-- A row is read, its entry is used again, and the rest is read. -/
def readUsing : List ListingEvent := [.read 0,.call (.update 1 40),.read 5]

theorem readUsing_addsNone : ∀ event ∈ readUsing, event.AddsNone := by
  intro event hevent
  simp only [readUsing, List.mem_cons, List.not_mem_nil, or_false] at hevent
  rcases hevent with rfl | rfl | rfl
  · trivial
  · exact id
  · trivial

theorem listing_repeats_none_readUsing :
    ((readDuring { table := threeEntries.1 } readUsing).rows.map Prod.fst).Nodup ∧
    ∀ r ∈ (readDuring { table := threeEntries.1 } readUsing).rows,
      ∃ e, threeEntries.1.heap r.1 = some e ∧ e.addr = r.2.addr :=
  listing_repeats_none threeEntries_calls readUsing_addsNone rfl

/-- A row is read. -/
def readOne : List ListingEvent := [.read 0]

/-- The entry in block 2 is there at the end, too, and has no row. -/
theorem removal_hides_row_readOne :
    (readDuring (readDuring { table := threeEntries.1 } readOne) [.call (.remove 1),.read 5]).table.heap 2 =
      threeEntries.1.heap 2 ∧
    2 ∉ (readDuring (readDuring { table := threeEntries.1 } readOne)
      [.call (.remove 1),.read 5]).rows.map Prod.fst := by
  have hnone : ∀ more, ∀ event ∈ [ListingEvent.read more], event.AddsNone := by
    intro more event hevent
    rw [List.mem_singleton.mp hevent]
    trivial
  have hnext : (readDuring { table := threeEntries.1 } readOne).table.recentSeqStart 1 = some (2,2) := rfl
  exact ⟨rfl,removal_hides_row threeEntries_calls (hnone 0) rfl (List.mem_singleton_self _) hnext
    (hnone 5) rfl⟩

theorem listing_is_file_threeEntries :
    ∃ l, Runs.run (step (recentEntryHash octetHash 4) 4) { table := threeEntries.1 }
        ([0,1].map ListingEvent.read) = some l ∧
      l.rows.map Prod.snd = (threeEntries.1.iphash.flatten.filterMap threeEntries.1.heap).take 3 ∧
      (threeEntries.1.entries ≤ 3 → l.Ended ∧ (l.rows.flatMap fun r => recentSeqShow r.2) =
        RecentTable.file ⟨[116],0,threeEntries.1.iphash.flatten.filterMap threeEntries.1.heap⟩) :=
  listing_is_file threeEntries_calls [116] [0,1]

end Samples

end Listing
end Kernel
end Ssyncd
