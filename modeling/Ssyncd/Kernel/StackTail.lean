import Ssyncd.Kernel.NullLine

/-! What the bytes behind the buffer of a write do to the lines that the daemon writes. A line has no
NUL at its end, so the module reads on in what was on the stack. -/
namespace Ssyncd
open Decimal
namespace Kernel

/-- The numbers between the separators of what is behind the buffer. -/
def stackStamps (stack : Bytes) : List UInt64 := ((cString stack).splitOn 59).filterMap kstrtoul

/-- The colon is looked for in as many bytes as the write has behind its first one; that many behind
the address reach past the end of the line. -/
def stackColon (addr : NfInetAddr) (stack : Bytes) : Bool :=
  ((cString stack).take (addr.text.length + 1)).contains 58

variable {nstampsMaxMask : UInt8}

namespace LiveTable

/-- The stamps that a line passes on to an entry, new or not. -/
def partStamps (t : LiveTable nstampsMaxMask) (parts : LineParts) : List UInt64 :=
  match parts.addr with
  | none => []
  | some addr =>
    match t.recentEntryLookup addr 0, parts.ttl with
    | none, none => []
    | _, _ => parts.stamps

def passedStamps (t : LiveTable nstampsMaxMask) (in6Pton : Bytes → Option UInt8 → Option NfInetAddr)
    (input stack : Bytes) : List UInt64 :=
  (lineParts in6Pton (cString (input.tail ++ stack)) input.length).elim [] t.partStamps

/-- The entry of an address once stamps have been inserted for it, into a new one where there is none. -/
def insertedEntry (addr : NfInetAddr) (ttl : Int) (stamps : List UInt64) :
    Option (RecentEntry nstampsMaxMask) → Option (RecentEntry nstampsMaxMask)
  | some e => some (updateAll e stamps)
  | none =>
    match stamps with
    | [] => none
    | nstamp::stamps =>
      some (updateAll (Kernel.recentEntryInit nstampsMaxMask addr ((ttlOf ttl).getD 0) nstamp) stamps)

section Effect
variable (t : LiveTable nstampsMaxMask) (in6Pton : Bytes → Option UInt8 → Option NfInetAddr)
  (ipListTot : ℕ) (jiffies : UInt64) (addr : NfInetAddr) (ttl : Int) (stamps : List UInt64)
  (stack stack' : Bytes) (kmalloc : Option Ptr)

/-- A line does the same whatever is behind it: it passes on its own stamps, and afterwards they are in
the entry of its address. -/
structure BytesOnly : Prop where
  same : ∃ t' ret,
    t.recentMtProcWrite in6Pton ipListTot jiffies (updateLine addr.text ttl stamps) stack kmalloc =
        some (t',ret) ∧
      t.recentMtProcWrite in6Pton ipListTot jiffies (updateLine addr.text ttl stamps) stack' kmalloc =
        some (t',ret) ∧
      t'.view addr = insertedEntry addr ttl stamps (t.view addr)
  stamps : t.passedStamps in6Pton (updateLine addr.text ttl stamps) stack = stamps ∧
    t.passedStamps in6Pton (updateLine addr.text ttl stamps) stack' = stamps

/-- The line is read and stored for its address. -/
def Accepts : Prop :=
  lineAddr in6Pton addr.text (stackColon addr stack) = some addr ∧
    (t.recentEntryLookup addr 0 ≠ none ∨ ttlOf ttl ≠ none)

/-- What is read from a line and from the bytes behind it. -/
def tailParts : LineParts where
  addr := lineAddr in6Pton addr.text (stackColon addr stack)
  ttl := ttlOf ttl
  first := (stamps.map (fun nstamp => text nstamp.toNat) ++ (cString stack).splitOn 59).head?.bind kstrtoul
  later := (stamps.map (fun nstamp => text nstamp.toNat) ++
    (cString stack).splitOn 59).tail.filterMap kstrtoul

variable {t in6Pton ipListTot jiffies addr ttl stamps stack stack' kmalloc}

/-- The colon that is found is one behind the line. -/
theorem strnchr_line : strnchr (some (lineRest ttl stamps ++ cString stack))
    ((updateLine addr.text ttl stamps).length - 1) 58 = some (stackColon addr stack) := by
  have hlen : (updateLine addr.text ttl stamps).length - 1 =
      (lineRest ttl stamps).length + (addr.text.length + 1) := by
    have hline : updateLine addr.text ttl stamps = 42::(addr.text ++ 59::lineRest ttl stamps) := rfl
    rw [hline, List.length_cons, List.length_append, List.length_cons]
    omega
  rw [strnchr, hlen, List.take_length_add_append, stackColon]
  have hnone : (lineRest ttl stamps).contains 58 = false := by
    rw [List.contains_eq_mem, decide_eq_false_iff_not]
    exact colon_not_mem_lineRest
  simp only [List.contains_append, hnone, Bool.false_or]

theorem lineParts_updateLine :
    lineParts in6Pton (cString ((updateLine addr.text ttl stamps).tail ++ stack))
      (updateLine addr.text ttl stamps).length =
        some (tailParts in6Pton addr ttl stamps stack) := by
  have htail : (updateLine addr.text ttl stamps).tail = addr.text ++ 59::lineRest ttl stamps := rfl
  unfold lineParts
  rw [htail, cString_append nul_not_mem_line, List.append_assoc, List.cons_append,
    strsep_append (not_mem_addr_text addr).1]
  dsimp only
  rw [strnchr_line, lineRest, List.append_assoc, List.cons_append,
    strsep_append semicolon_not_mem_intText]
  simp only [strsep_fst, strsepAll_snd, strsepAll_stamps_append, Option.map_some, Option.bind_some, Option.elim_some,
    kstrtou8_intText]
  rfl

/-- The stamps of a line and those behind it. -/
theorem stamps_tailParts :
    (tailParts in6Pton addr ttl stamps stack).stamps = stamps ++ stackStamps stack := by
  have hself : (stamps.map (fun nstamp => text nstamp.toNat)).filterMap kstrtoul = stamps := by
    rw [List.filterMap_map]
    exact (List.filterMap_congr fun stamp _ => kstrtoul_text stamp).trans List.filterMap_some
  have hsplit : ∀ tokens : List Bytes, (tokens.head?.bind kstrtoul).toList ++
      tokens.tail.filterMap kstrtoul = tokens.filterMap kstrtoul := by
    intro tokens
    cases tokens with
    | nil => rfl
    | cons token tokens =>
      rw [List.head?_cons, Option.bind_some, List.tail_cons, List.filterMap_cons]
      cases kstrtoul token <;> rfl
  rw [LineParts.stamps, tailParts, hsplit, List.filterMap_append, hself]
  rfl

theorem first_later_of_stackStamps (h : stackStamps stack = []) :
    (tailParts in6Pton addr ttl stamps stack).first = stamps.head? ∧
      (tailParts in6Pton addr ttl stamps stack).later = stamps.tail := by
  have hall : (tailParts in6Pton addr ttl stamps stack).stamps = stamps ++ stackStamps stack :=
    stamps_tailParts
  rw [h, List.append_nil, LineParts.stamps] at hall
  cases stamps with
  | nil =>
    obtain ⟨hfirst,hlater⟩ := List.append_eq_nil_iff.mp hall
    exact ⟨Option.toList_eq_nil_iff.mp hfirst,hlater⟩
  | cons stamp stamps =>
    have hfirst : (tailParts in6Pton addr ttl (stamp::stamps) stack).first = some stamp :=
      kstrtoul_text stamp
    rw [hfirst] at hall
    exact ⟨hfirst,(List.cons.inj hall).2⟩

theorem recentMtProcWrite_tail (hsize : (updateLine addr.text ttl stamps).length ≤ 421) :
    t.recentMtProcWrite in6Pton ipListTot jiffies (updateLine addr.text ttl stamps) stack kmalloc =
      t.storeLine ipListTot (tailParts in6Pton addr ttl stamps stack)
        (updateLine addr.text ttl stamps).length kmalloc := by
  have hline : lineParts in6Pton (cString (addr.text ++ 59::lineRest ttl stamps ++ stack))
      (updateLine addr.text ttl stamps).length = some (tailParts in6Pton addr ttl stamps stack) :=
    lineParts_updateLine
  refine (recentMtProcWrite_parts hsize stack).trans ?_
  exact congrArg (Option.bind · _) hline

theorem passedStamps_tail : t.passedStamps in6Pton (updateLine addr.text ttl stamps) stack =
    t.partStamps (tailParts in6Pton addr ttl stamps stack) := by
  rw [passedStamps, lineParts_updateLine]
  rfl

/-- What the text of an address is read as, it is. -/
theorem lineAddr_self (h6 : ∀ (addr a : NfInetAddr), in6Pton addr.text none = some a →
      a = addr ∧ ¬addr.IsIpv4) {colon : Bool} {a : NfInetAddr}
    (h : lineAddr in6Pton addr.text colon = some a) : a = addr := by
  unfold lineAddr at h
  split at h
  · exact (h6 addr a h).1
  · cases addr with
    | ip x y z w =>
      have hread := @in4Pton_dottedQuad none nofun x y z w
      exact Option.some.inj (h.symm.trans hread)
    | ip6 =>
      rw [in4Pton_ip6] at h
      contradiction

/-- Of a line that is not accepted the address or the ttl is not read. -/
theorem refused_of_not_accepts (h6 : ∀ (addr a : NfInetAddr), in6Pton addr.text none = some a →
      a = addr ∧ ¬addr.IsIpv4) (h : ¬t.Accepts in6Pton addr ttl stack) :
    lineAddr in6Pton addr.text (stackColon addr stack) = none ∨
      lineAddr in6Pton addr.text (stackColon addr stack) = some addr ∧
        t.recentEntryLookup addr 0 = none ∧ ttlOf ttl = none := by
  cases haddr : lineAddr in6Pton addr.text (stackColon addr stack) with
  | none => exact .inl rfl
  | some a =>
    obtain rfl := lineAddr_self h6 haddr
    obtain ⟨hlookup,httl⟩ := not_or.mp fun hor => h ⟨haddr,hor⟩
    exact .inr ⟨rfl,not_not.mp hlookup,not_not.mp httl⟩

theorem write_of_not_accepts (h6 : ∀ (addr a : NfInetAddr), in6Pton addr.text none = some a →
      a = addr ∧ ¬addr.IsIpv4) (hsize : (updateLine addr.text ttl stamps).length ≤ 421)
    (h : ¬t.Accepts in6Pton addr ttl stack) :
    t.recentMtProcWrite in6Pton ipListTot jiffies (updateLine addr.text ttl stamps) stack kmalloc =
      some (t,-EINVAL) := by
  rw [recentMtProcWrite_tail hsize]
  unfold storeLine tailParts
  rcases refused_of_not_accepts h6 h with haddr | ⟨haddr,hlookup,httl⟩
  · rw [haddr]
  · rw [haddr]
    dsimp only
    rw [hlookup, httl]

/-- A line that is not accepted passes nothing on. -/
theorem passedStamps_of_not_accepts (h6 : ∀ (addr a : NfInetAddr), in6Pton addr.text none = some a →
      a = addr ∧ ¬addr.IsIpv4) (h : ¬t.Accepts in6Pton addr ttl stack) :
    t.passedStamps in6Pton (updateLine addr.text ttl stamps) stack = [] := by
  rw [passedStamps_tail]
  unfold partStamps tailParts
  rcases refused_of_not_accepts h6 h with haddr | ⟨haddr,hlookup,httl⟩
  · rw [haddr]
  · rw [haddr]
    dsimp only
    rw [hlookup, httl]

theorem passedStamps_of_accepts (h : t.Accepts in6Pton addr ttl stack) :
    t.passedStamps in6Pton (updateLine addr.text ttl stamps) stack = stamps ++ stackStamps stack := by
  have haddr : (tailParts in6Pton addr ttl stamps stack).addr = some addr := h.1
  have hstamps : (tailParts in6Pton addr ttl stamps stack).stamps = stamps ++ stackStamps stack :=
    stamps_tailParts
  rw [passedStamps_tail, ← hstamps, partStamps, haddr]
  dsimp only
  split
  · next hlookup httl => exact absurd httl (h.2.resolve_left (not_not_intro hlookup))
  · rfl

/-- Without numbers behind it, an accepted line stores its stamps. -/
theorem write_of_accepts (hsize : (updateLine addr.text ttl stamps).length ≤ 421)
    (h : t.Accepts in6Pton addr ttl stack) (hstack : stackStamps stack = []) :
    t.recentMtProcWrite in6Pton ipListTot jiffies (updateLine addr.text ttl stamps) stack kmalloc =
      t.storeStamps ipListTot addr ttl stamps (updateLine addr.text ttl stamps).length kmalloc := by
  obtain ⟨hfirst,hlater⟩ : (tailParts in6Pton addr ttl stamps stack).first = stamps.head? ∧
      (tailParts in6Pton addr ttl stamps stack).later = stamps.tail := first_later_of_stackStamps hstack
  have hstamps : (tailParts in6Pton addr ttl stamps stack).stamps = stamps ++ stackStamps stack :=
    stamps_tailParts
  have haddr : (tailParts in6Pton addr ttl stamps stack).addr = some addr := h.1
  have httl : (tailParts in6Pton addr ttl stamps stack).ttl = ttlOf ttl := rfl
  rw [hstack, List.append_nil] at hstamps
  rw [recentMtProcWrite_tail hsize]
  unfold storeLine storeStamps
  rw [haddr, hstamps, hfirst, hlater, httl]
  dsimp only
  cases t.recentEntryLookup addr 0 with
  | some p => rfl
  | none =>
    dsimp only
    cases ttlOf ttl with
    | none => rfl
    | some ttl =>
      cases stamps with
      | nil => rfl
      | cons stamp stamps => rfl

/-- An accepted line whose stamps all come from it is stored, unless it goes on without the entry that
could not be made. -/
theorem WellFormed.exists_write_iff (hwf : t.WellFormed) (hpos : 0 < ipListTot)
    (hfree : ∀ p ∈ kmalloc, t.heap p = none)
    (hsize : (updateLine addr.text ttl stamps).length ≤ 421)
    (h : t.Accepts in6Pton addr ttl stack) (hstack : stackStamps stack = []) :
    (∃ t' ret, t.recentMtProcWrite in6Pton ipListTot jiffies (updateLine addr.text ttl stamps) stack
      kmalloc = some (t',ret)) ↔
        (t.recentEntryLookup addr 0 = none → kmalloc = none → stamps.length ≤ 1) := by
  obtain ⟨hfirst,hlater⟩ : (tailParts in6Pton addr ttl stamps stack).first = stamps.head? ∧
      (tailParts in6Pton addr ttl stamps stack).later = stamps.tail := first_later_of_stackStamps hstack
  have haddr : (tailParts in6Pton addr ttl stamps stack).addr = some addr := h.1
  have hnone := hwf.storeLine_eq_none_iff hpos hfree (tailParts in6Pton addr ttl stamps stack)
    (updateLine addr.text ttl stamps).length
  have hnull : t.NullEntry (tailParts in6Pton addr ttl stamps stack) kmalloc ↔
      t.recentEntryLookup addr 0 = none ∧ kmalloc = none ∧ 2 ≤ stamps.length := by
    rw [NullEntry, hfirst, hlater, haddr]
    constructor
    · rintro ⟨a,heq,hlookup,-,hnull,hlater⟩
      obtain rfl := Option.some.inj heq
      have hlen : 0 < stamps.tail.length := List.length_pos_iff.mpr hlater
      rw [List.length_tail] at hlen
      refine ⟨hlookup,hnull.resolve_left fun hhead => ?_,by omega⟩
      rw [List.head?_eq_none_iff.mp hhead] at hlen
      contradiction
    · rintro ⟨hlookup,hk,hlen⟩
      refine ⟨addr,rfl,hlookup,h.2.resolve_left (not_not_intro hlookup),.inr hk,?_⟩
      refine List.length_pos_iff.mp ?_
      rw [List.length_tail]
      omega
  rw [recentMtProcWrite_tail hsize]
  constructor
  · rintro ⟨t',ret,hs⟩ hlookup hk
    by_contra hlen
    have hcrash := hnone.mpr (hnull.mpr ⟨hlookup,hk,by omega⟩)
    rw [hcrash] at hs
    exact Option.some_ne_none _ hs.symm
  · intro hfine
    have hsome : t.storeLine ipListTot (tailParts in6Pton addr ttl stamps stack)
        (updateLine addr.text ttl stamps).length kmalloc ≠ none := by
      intro hcrash
      obtain ⟨hlookup,hk,hlen⟩ := hnull.mp (hnone.mp hcrash)
      have := hfine hlookup hk
      omega
    obtain ⟨⟨t',ret⟩,hs⟩ := Option.ne_none_iff_exists'.mp hsome
    exact ⟨t',ret,hs⟩

/-- A lookup whatever the ttl only looks at the addresses. -/
theorem lookup_touched {p : Ptr} {e e' : RecentEntry nstampsMaxMask} (he : t.heap p = some e)
    (haddr : e'.addr = e.addr) (addr : NfInetAddr) :
    (t.touched p e').recentEntryLookup addr 0 = t.recentEntryLookup addr 0 := by
  refine List.find?_congr fun q _ => ?_
  rw [heap_touched]
  by_cases heq : q = p
  · rw [if_pos heq, heq, he]
    simp [haddr]
  · rw [if_neg heq]

theorem WellFormed.lookup_evict (h : t.WellFormed) {t₁ : LiveTable nstampsMaxMask}
    (hevict : t.recentEntryEvict ipListTot = some t₁) (hnone : t.recentEntryLookup addr 0 = none) :
    t₁.recentEntryLookup addr 0 = none := by
  rcases evict_cases hevict with rfl | ⟨p,rest,-,rfl⟩
  · exact hnone
  · refine List.find?_eq_none.mpr fun q hq => ?_
    have hold := List.find?_eq_none.mp hnone q (List.mem_of_mem_erase hq)
    rw [heap_remove]
    by_cases heq : q = p
    · rw [if_pos heq]
      exact Bool.false_ne_true
    · rw [if_neg heq]
      exact hold

/-- The stamps of an accepted line are in the entry of its address, unless that had to be made and could
not. -/
theorem WellFormed.view_storeStamps_iff (h : t.WellFormed) {t' : LiveTable nstampsMaxMask} {size : ℕ}
    {ret : Int} (hs : t.storeStamps ipListTot addr ttl stamps size kmalloc = some (t',ret))
    (hvalid : t.recentEntryLookup addr 0 ≠ none ∨ ttlOf ttl ≠ none) :
    t'.view addr = insertedEntry addr ttl stamps (t.view addr) ↔
      (t.recentEntryLookup addr 0 = none → kmalloc = none → stamps = []) := by
  cases h.storeStamps hs with
  | nothing hnothing =>
    rcases hnothing with rfl | ⟨hlookup,httl⟩
    · refine iff_of_true ?_ fun _ _ => rfl
      cases t.view addr with
      | none => rfl
      | some e => rfl
    · exact absurd httl (hvalid.resolve_left (not_not_intro hlookup))
  | @update p e hlookup he hne =>
    refine iff_of_true ?_ fun hnone => absurd (hlookup.symm.trans hnone) (Option.some_ne_none p)
    rw [view, view, lookup_touched he (updateAll_addr e stamps), hlookup, Option.bind_some, Option.bind_some,
      heap_touched_self, he]
    rfl
  | @insert t₁ p ttl₁ stamp rest hlookup hevict hp hkmalloc httl hstamps =>
    refine iff_of_true ?_ fun _ hnone => absurd (hkmalloc.symm.trans hnone) (Option.some_ne_none p)
    have haddr : (updateAll (Kernel.recentEntryInit nstampsMaxMask addr ttl₁ stamp) rest).addr = addr :=
      updateAll_addr _ _
    have hview : t₁.view addr = none := by
      rw [view, h.lookup_evict hevict hlookup]
      rfl
    have hold : t.view addr = none := by
      rw [view, hlookup]
      rfl
    rw [(h.evict hevict).view_linked hp, hview, hold, if_pos haddr, hstamps, insertedEntry, httl]
    rfl
  | @evict t₁ hlookup hevict hkmalloc =>
    have hview : t'.view addr = none := by
      rw [view, h.lookup_evict hevict hlookup]
      rfl
    have hold : t.view addr = none := by
      rw [view, hlookup]
      rfl
    rw [hview, hold]
    cases stamps with
    | nil => exact iff_of_true rfl fun _ _ => rfl
    | cons stamp rest =>
      exact iff_of_false (Option.some_ne_none _).symm fun hall => List.cons_ne_nil _ _ (hall hlookup hkmalloc)

/-- What may be behind a line, for the line to do the same with each of two contents: nothing that is
taken for a stamp of it or for a colon. -/
def StackFree (t : LiveTable nstampsMaxMask) (in6Pton : Bytes → Option UInt8 → Option NfInetAddr)
    (addr : NfInetAddr) (ttl : Int) (stamps : List UInt64) (stack stack' : Bytes)
    (kmalloc : Option Ptr) : Prop :=
  (stamps = [] ∧ ¬t.Accepts in6Pton addr ttl stack ∧ ¬t.Accepts in6Pton addr ttl stack') ∨
    (t.Accepts in6Pton addr ttl stack ∧ t.Accepts in6Pton addr ttl stack' ∧
      stackStamps stack = [] ∧ stackStamps stack' = [] ∧
      (t.recentEntryLookup addr 0 = none → kmalloc = none → stamps = []))

/-- A line without stamps that is accepted is told from one that is not by what is returned. -/
theorem not_same_of_accepts (h6 : ∀ (addr a : NfInetAddr), in6Pton addr.text none = some a →
      a = addr ∧ ¬addr.IsIpv4) (hsize : (updateLine addr.text ttl []).length ≤ 421)
    (h : ¬t.Accepts in6Pton addr ttl stack)
    (h' : t.Accepts in6Pton addr ttl stack') (hstack : stackStamps stack' = []) :
    t.recentMtProcWrite in6Pton ipListTot jiffies (updateLine addr.text ttl []) stack kmalloc ≠
      t.recentMtProcWrite in6Pton ipListTot jiffies (updateLine addr.text ttl []) stack' kmalloc := by
  have hstored : t.storeStamps ipListTot addr ttl [] (updateLine addr.text ttl []).length kmalloc =
      some (t,((updateLine addr.text ttl []).length : Int)) := by
    unfold storeStamps
    cases hlookup : t.recentEntryLookup addr 0 with
    | some p => rfl
    | none =>
      cases httl : ttlOf ttl with
      | none => exact absurd httl (h'.2.resolve_left (not_not_intro hlookup))
      | some ttl => rfl
  rw [write_of_not_accepts h6 hsize h, write_of_accepts hsize h' hstack, hstored]
  exact refused_ne t t _

section Both
variable (hwf : t.WellFormed) (hpos : 0 < ipListTot) (hfree : ∀ p ∈ kmalloc, t.heap p = none)
  (h6 : ∀ (addr a : NfInetAddr), in6Pton addr.text none = some a → a = addr ∧ ¬addr.IsIpv4)
  (hsize : (updateLine addr.text ttl stamps).length ≤ 421)
include hwf h6 hsize

theorem stackFree_of_bytesOnly
    (h : t.BytesOnly in6Pton ipListTot jiffies addr ttl stamps stack stack' kmalloc) :
    t.StackFree in6Pton addr ttl stamps stack stack' kmalloc := by
  obtain ⟨⟨t',ret,hs,hs',hview⟩,hpassed,hpassed'⟩ := h
  have hnone : ∀ {s}, t.Accepts in6Pton addr ttl s →
      t.passedStamps in6Pton (updateLine addr.text ttl stamps) s = stamps → stackStamps s = [] := by
    intro s ha hp
    rw [passedStamps_of_accepts ha] at hp
    exact List.append_right_eq_self.mp hp
  by_cases ha : t.Accepts in6Pton addr ttl stack
  · have hstack := hnone ha hpassed
    by_cases ha' : t.Accepts in6Pton addr ttl stack'
    · have hstored := (write_of_accepts hsize ha hstack).symm.trans hs
      exact .inr ⟨ha,ha',hstack,hnone ha' hpassed',(hwf.view_storeStamps_iff hstored ha.2).mp hview⟩
    · have hnil : stamps = [] := hpassed'.symm.trans (passedStamps_of_not_accepts h6 ha')
      subst hnil
      exact absurd (hs'.trans hs.symm) (not_same_of_accepts h6 hsize ha' ha hstack)
  · have hnil : stamps = [] := hpassed.symm.trans (passedStamps_of_not_accepts h6 ha)
    subst hnil
    refine .inl ⟨rfl,ha,fun ha' => ?_⟩
    exact not_same_of_accepts h6 hsize ha ha' (hnone ha' hpassed') (hs.trans hs'.symm)

include hpos hfree

theorem bytesOnly_of_stackFree (h : t.StackFree in6Pton addr ttl stamps stack stack' kmalloc) :
    t.BytesOnly in6Pton ipListTot jiffies addr ttl stamps stack stack' kmalloc := by
  rcases h with ⟨rfl,hnot,hnot'⟩ | ⟨ha,ha',hstack,hstack',hmade⟩
  · refine ⟨⟨t,-EINVAL,write_of_not_accepts h6 hsize hnot,write_of_not_accepts h6 hsize hnot',?_⟩,
      passedStamps_of_not_accepts h6 hnot,passedStamps_of_not_accepts h6 hnot'⟩
    cases t.view addr with
    | none => rfl
    | some e => rfl
  · obtain ⟨t',ret,hs⟩ := (hwf.exists_write_iff hpos hfree hsize ha hstack).mpr fun hlookup hk => by
      rw [hmade hlookup hk]
      exact Nat.zero_le 1
    have hsame := (write_of_accepts hsize ha hstack).symm.trans hs
    refine ⟨⟨t',ret,hs,(write_of_accepts hsize ha' hstack').trans hsame,
      (hwf.view_storeStamps_iff hsame ha.2).mpr hmade⟩,?_,?_⟩
    · rw [passedStamps_of_accepts ha, hstack, List.append_nil]
    · rw [passedStamps_of_accepts ha', hstack', List.append_nil]

/-- The effect of a line depends on its bytes alone exactly where the bytes behind it hold no number
between separators and no colon near enough to change the family of the address, and memory is there
for the entry of its stamps. -/
theorem bytesOnly_iff :
    t.BytesOnly in6Pton ipListTot jiffies addr ttl stamps stack stack' kmalloc ↔
      t.StackFree in6Pton addr ttl stamps stack stack' kmalloc :=
  ⟨stackFree_of_bytesOnly hwf h6 hsize,bytesOnly_of_stackFree hwf hpos hfree h6 hsize⟩

end Both

end Effect

/-- The line of one stamp for 1.2.3.4, with a 9 or with a colon behind it. -/
theorem not_bytesOnly_nine :
    ¬({} : LiveTable 0).BytesOnly (fun _ _ => none) 1 0 (.ip 1 2 3 4) 0 [7] [] [57] (some 0) ∧
      ¬({} : LiveTable 0).BytesOnly (fun _ _ => none) 1 0 (.ip 1 2 3 4) 0 [7] [] [58] (some 0) := by
  refine ⟨fun h => ?_,fun h => ?_⟩
  · have hpassed := h.stamps.2
    rw [passedStamps_of_accepts ⟨by decide,.inr (by decide)⟩] at hpassed
    revert hpassed
    decide
  · have hnone : lineAddr (fun _ _ => none) (NfInetAddr.ip 1 2 3 4).text
        (stackColon (.ip 1 2 3 4) [58]) = none := by decide
    have hpassed := h.stamps.2
    rw [passedStamps_of_not_accepts fun _ _ h => by contradiction] at hpassed
    · contradiction
    · rintro ⟨haddr,-⟩
      rw [hnone] at haddr
      contradiction

/-- With NUL behind it that line does the same whatever follows. -/
theorem bytesOnly_nul :
    ({} : LiveTable 0).BytesOnly (fun _ _ => none) 1 0 (.ip 1 2 3 4) 0 [7] [0,57] [0,58] (some 0) := by
  have hsize : (updateLine (NfInetAddr.ip 1 2 3 4).text 0 [7]).length ≤ 421 := by decide
  refine (bytesOnly_iff wellFormed_empty Nat.one_pos (fun _ _ => rfl) (fun _ _ h => by contradiction)
    hsize).mpr ?_
  exact .inr ⟨⟨by decide,.inr (by decide)⟩,⟨by decide,.inr (by decide)⟩,by decide,by decide,
    fun _ h => absurd h (by simp)⟩

end LiveTable
end Kernel
end Ssyncd
