import Ssyncd.Kernel.ProcWrite

/-! The lines that the daemon writes to a table, and what the kernel module makes of them. -/
namespace Ssyncd
open Decimal

/-- What `std::to_string` makes of an int. -/
def intText (n : Int) : Bytes := if n < 0 then 45::text n.natAbs else text n.natAbs

/-- `update`, as both writers of the recent data build it. -/
def updateLine (srcIp : Bytes) (ttl : Int) (timestamps : List UInt64) : Bytes :=
  42::(srcIp ++ 59::(intText ttl ++ 59::timestamps.flatMap fun nstamps => text nstamps.toNat ++ [59]))

namespace Kernel

variable {nstampsMaxMask : UInt8}

/-- A ttl that the module takes. -/
def ttlOf (ttl : Int) : Option UInt8 :=
  if 0 ≤ ttl ∧ ttl ≤ 255 then some (UInt8.ofNat ttl.toNat) else none

theorem ttlOf_toNat (ttl : UInt8) : ttlOf (ttl.toNat : Int) = some ttl := by
  have hlt := ttl.toNat_lt
  rw [ttlOf, if_pos ⟨by omega,by omega⟩, Int.toNat_natCast, UInt8.ofNat_toNat]

theorem kstrtou8_intText (ttl : Int) : kstrtou8 (intText ttl) = ttlOf ttl := by
  unfold intText ttlOf
  split
  · next hneg =>
    rw [if_neg (by omega)]
    rfl
  · next hpos =>
    by_cases hfits : ttl.natAbs ≤ 18446744073709551615
    · rw [kstrtou8_text _ hfits]
      have hnat : ttl.natAbs = ttl.toNat := by omega
      by_cases hbyte : ttl.natAbs ≤ 255
      · rw [if_pos hbyte, if_pos (by omega), hnat]
      · rw [if_neg hbyte, if_neg (by omega)]
    · have hlarge : kstrtoull (text ttl.natAbs) = none := kstrtoull_large (by omega)
      rw [kstrtou8, hlarge, if_neg (by omega)]
      rfl

theorem not_mem_addr_text (addr : NfInetAddr) : (59 : UInt8) ∉ addr.text ∧ (0 : UInt8) ∉ addr.text := by
  constructor
  · intro h
    have := mem_text h
    revert this
    decide
  · intro h
    have := mem_text h
    revert this
    decide

theorem mem_intText {n : Int} {b : UInt8} (h : b ∈ intText n) : isDigit b = true ∨ b = 45 := by
  unfold intText at h
  split at h
  · rcases List.mem_cons.mp h with h | h
    · exact .inr h
    · exact .inl (isDigit_text _ b h)
  · exact .inl (isDigit_text _ b h)

/-- What follows the address in a line. -/
def lineRest (ttl : Int) (stamps : List UInt64) : Bytes :=
  intText ttl ++ 59::stamps.flatMap fun nstamps => text nstamps.toNat ++ [59]

theorem mem_lineRest {ttl : Int} {stamps : List UInt64} {b : UInt8} (h : b ∈ lineRest ttl stamps) :
    isDigit b = true ∨ b = 45 ∨ b = 59 := by
  rcases List.mem_append.mp h with h | h
  · rcases mem_intText h with h | h
    · exact .inl h
    · exact .inr (.inl h)
  · rcases List.mem_cons.mp h with h | h
    · exact .inr (.inr h)
    · obtain ⟨stamp,-,hb⟩ := List.mem_flatMap.mp h
      rcases List.mem_append.mp hb with hb | hb
      · exact .inl (isDigit_text _ b hb)
      · exact .inr (.inr (List.mem_singleton.mp hb))

section Separators
variable {addr : NfInetAddr} {ttl : Int} {stamps : List UInt64}

theorem semicolon_not_mem_intText : (59 : UInt8) ∉ intText ttl := by
  intro h
  have := mem_intText h
  revert this
  decide

theorem colon_not_mem_lineRest : (58 : UInt8) ∉ lineRest ttl stamps := by
  intro h
  have := mem_lineRest h
  revert this
  decide

theorem nul_not_mem_line : (0 : UInt8) ∉ addr.text ++ 59::lineRest ttl stamps := by
  intro h
  rcases List.mem_append.mp h with h | h
  · exact (not_mem_addr_text addr).2 h
  · rcases List.mem_cons.mp h with h | h
    · contradiction
    · have := mem_lineRest h
      revert this
      decide

end Separators

namespace LiveTable

/-- The stamps written one after another to an entry that may be null. -/
def updateStamps (t : LiveTable nstampsMaxMask) (e : Option Ptr) (stamps : List UInt64) :
    Option (LiveTable nstampsMaxMask) :=
  stamps.foldlM (fun t nstamp => e.bind fun p => t.recentEntryUpdate p nstamp) t

/-- What a line does once its parts are read. -/
def storeStamps (t : LiveTable nstampsMaxMask) (ipListTot : ℕ) (addr : NfInetAddr) (ttl : Int)
    (stamps : List UInt64) (size : ℕ) (kmalloc : Option Ptr) :
    Option (LiveTable nstampsMaxMask × Int) :=
  match t.recentEntryLookup addr 0 with
  | some p => (t.updateStamps (some p) stamps).map fun t => (t,size)
  | none =>
    match ttlOf ttl, stamps with
    | none, _ => some (t,-EINVAL)
    | some _, [] => some (t,size)
    | some ttl, nstamp::stamps =>
      (t.recentEntryInit ipListTot addr ttl nstamp kmalloc).bind fun (t,e) =>
        (t.updateStamps e stamps).map fun t => (t,size)

/-- What is returned of a write that was refused is no number of bytes. -/
theorem refused_ne (t t' : LiveTable nstampsMaxMask) (size : ℕ) :
    some (t,-EINVAL) ≠ some (t',(size : Int)) := by
  intro heq
  have hret : -EINVAL = (size : Int) := congrArg Prod.snd (Option.some.inj heq)
  unfold EINVAL at hret
  omega

theorem ret_of_map {r : Option (LiveTable nstampsMaxMask)} {t' : LiveTable nstampsMaxMask} {size : ℕ}
    {ret : Int} (h : r.map (fun t => (t,(size : Int))) = some (t',ret)) : ret = size := by
  obtain ⟨_,-,heq⟩ := Option.map_eq_some_iff.mp h
  exact (congrArg Prod.snd heq).symm

/-- Once the address and the ttl are valid, a line is taken whole. -/
theorem storeStamps_ret {t t' : LiveTable nstampsMaxMask} {ipListTot : ℕ} {addr : NfInetAddr}
    {ttl : Int} (httl : ttlOf ttl ≠ none) {stamps : List UInt64} {size : ℕ} {kmalloc : Option Ptr}
    {ret : Int} (hs : t.storeStamps ipListTot addr ttl stamps size kmalloc = some (t',ret)) :
    ret = size := by
  unfold storeStamps at hs
  split at hs
  · exact ret_of_map hs
  · split at hs
    · contradiction
    · exact (congrArg Prod.snd (Option.some.inj hs)).symm
    · obtain ⟨_,-,hr⟩ := Option.bind_eq_some_iff.mp hs
      exact ret_of_map hr

theorem updateTokens_stamps (t : LiveTable nstampsMaxMask) (e : Option Ptr) (stamps : List UInt64) :
    t.updateTokens e (stamps.map (fun nstamp => text nstamp.toNat) ++ [[]]) =
      t.updateStamps e stamps := by
  induction stamps generalizing t with
  | nil => rfl
  | cons nstamp stamps ih =>
    have hhead : kstrtoul (text nstamp.toNat) = some nstamp := kstrtoul_text nstamp
    unfold updateTokens updateStamps at ih ⊢
    rw [List.map_cons, List.cons_append, List.foldlM_cons, List.foldlM_cons, hhead]
    dsimp only
    cases e.bind fun p => t.recentEntryUpdate p nstamp with
    | none => rfl
    | some t => exact ih t

/-- The tokens of the stamps, and those of what is behind them. -/
theorem strsepAll_stamps_append (stamps : List UInt64) (rest : Bytes) :
    strsepAll 59 (some (stamps.flatMap (fun nstamps => text nstamps.toNat ++ [59]) ++ rest)) =
      stamps.map (fun nstamp => text nstamp.toNat) ++ rest.splitOn 59 := by
  have hdigits : ∀ token ∈ stamps.map (fun nstamp => text nstamp.toNat), (59 : UInt8) ∉ token := by
    intro token ht
    obtain ⟨stamp,-,rfl⟩ := List.mem_map.mp ht
    exact not_mem_text rfl _
  have htokens := strsepAll_tokens hdigits rest
  rw [List.flatMap_map] at htokens
  exact htokens

/-- Behind the last of the stamps is an empty token. -/
theorem strsepAll_stamps (stamps : List UInt64) :
    strsepAll 59 (some (stamps.flatMap fun nstamps => text nstamps.toNat ++ [59])) =
      stamps.map (fun nstamp => text nstamp.toNat) ++ [[]] := by
  have htokens := strsepAll_stamps_append stamps []
  rw [List.append_nil] at htokens
  rw [htokens]
  rfl

theorem insertLine_stamps {t : LiveTable nstampsMaxMask} {addr : NfInetAddr}
    (hlookup : t.recentEntryLookup addr 0 = none) (ipListTot : ℕ) (ttl : Int)
    (stamps : List UInt64) (size : ℕ) (kmalloc : Option Ptr) :
    t.insertLine ipListTot addr (some (lineRest ttl stamps)) size kmalloc =
      t.storeStamps ipListTot addr ttl stamps size kmalloc := by
  unfold insertLine storeStamps lineRest
  rw [hlookup, strsep_append semicolon_not_mem_intText]
  simp only [Option.elim_some, kstrtou8_intText]
  cases ttlOf ttl with
  | none => rfl
  | some ttl =>
    cases stamps with
    | nil => rfl
    | cons nstamp stamps =>
      have htoken : (59 : UInt8) ∉ text nstamp.toNat := not_mem_text rfl _
      simp only [List.flatMap_cons, List.append_assoc, List.singleton_append]
      rw [strsep_append htoken]
      simp only [Option.bind_some, kstrtoul_text, strsepAll_stamps, updateTokens_stamps]
      cases t.recentEntryInit ipListTot addr ttl nstamp kmalloc with
      | none => rfl
      | some r =>
        obtain ⟨t',e⟩ := r
        simp only [Option.bind_eq_bind, Option.bind_some]
        cases t'.updateStamps e stamps <;> rfl

/-- A line with NUL behind it does what its parts say, unless it is too long or its address is
one of IPv6, whose colons are not looked for where they are. -/
theorem recentMtProcWrite_updateLine (t : LiveTable nstampsMaxMask)
    (in6Pton : Bytes → Option UInt8 → Option NfInetAddr) (ipListTot : ℕ) (jiffies : UInt64)
    (addr : NfInetAddr) (ttl : Int) (stamps : List UInt64) {stack : Bytes}
    (hnul : cString stack = []) (kmalloc : Option Ptr) :
    t.recentMtProcWrite in6Pton ipListTot jiffies (updateLine addr.text ttl stamps) stack kmalloc =
      if 421 < (updateLine addr.text ttl stamps).length ∨ ¬addr.IsIpv4 then some (t,-EINVAL)
      else t.storeStamps ipListTot addr ttl stamps (updateLine addr.text ttl stamps).length kmalloc := by
  by_cases hlong : 421 < (updateLine addr.text ttl stamps).length
  · unfold recentMtProcWrite
    dsimp only
    rw [if_pos hlong, if_pos (.inl hlong)]
  · have hline : updateLine addr.text ttl stamps = 42::(addr.text ++ 59::lineRest ttl stamps) := rfl
    have hcolon : ∀ n, ((lineRest ttl stamps).take n).contains 58 = false := by
      intro n
      rw [List.contains_eq_mem, decide_eq_false_iff_not]
      exact fun h => colon_not_mem_lineRest (List.mem_of_mem_take h)
    have hread : cString (addr.text ++ 59::lineRest ttl stamps ++ stack) =
        addr.text ++ 59::lineRest ttl stamps := by
      rw [cString_append nul_not_mem_line, hnul, List.append_nil]
    unfold recentMtProcWrite
    dsimp only
    rw [if_neg hlong, hline]
    change t.writeLine in6Pton ipListTot (cString (addr.text ++ 59::lineRest ttl stamps ++ stack))
      _ kmalloc = _
    rw [hread, writeLine, strsep_append (not_mem_addr_text addr).1]
    simp only [strnchr, hcolon, Option.bind_eq_bind, Option.bind_some, Bool.false_eq_true, if_false]
    cases addr with
    | ip6 s₀ s₁ s₂ s₃ s₄ s₅ s₆ s₇ =>
      rw [in4Pton_ip6, if_pos (.inr id)]
    | ip a b c d =>
      have hpton : in4Pton (NfInetAddr.ip a b c d).text none = some (.ip a b c d) :=
        in4Pton_dottedQuad (fun _ h => absurd h (by simp)) a b c d
      rw [hpton, if_neg (by rw [← hline]; exact fun h => h.elim hlong fun h => h trivial)]
      dsimp only
      cases hlookup : t.recentEntryLookup (.ip a b c d) 0 with
      | none => exact insertLine_stamps hlookup ipListTot ttl stamps _ kmalloc
      | some p =>
        unfold storeStamps
        rw [hlookup]
        dsimp only
        rw [lineRest, strsep_append semicolon_not_mem_intText, strsepAll_stamps, updateTokens_stamps]
        cases t.updateStamps (some p) stamps <;> rfl

section Stored
variable {t t' : LiveTable nstampsMaxMask} {p : Ptr} {e : RecentEntry nstampsMaxMask}

/-- Stamps for an entry in use are written one after another. -/
theorem WellFormed.updateStamps (h : t.WellFormed) (he : t.heap p = some e) {stamps : List UInt64}
    (hne : stamps ≠ []) : t.updateStamps (some p) stamps = some (t.touched p (updateAll e stamps)) := by
  induction stamps generalizing t e with
  | nil => contradiction
  | cons stamp stamps ih =>
    have hp : p ∈ t.lruList := (h.live p).mpr ⟨e,he⟩
    have hfirst : t.recentEntryUpdate p stamp = some (t.touched p (Kernel.recentEntryUpdate e stamp)) := by
      rw [recentEntryUpdate, he]
      rfl
    unfold LiveTable.updateStamps at ih ⊢
    rw [List.foldlM_cons, Option.bind_some, hfirst]
    cases stamps with
    | nil => rfl
    | cons stamp' stamps =>
      have hheap := heap_touched_self t p (Kernel.recentEntryUpdate e stamp)
      have hrest := ih (h.touched hp) hheap (List.cons_ne_nil _ _)
      rw [h.touched_touched] at hrest
      exact hrest

/-- Without an entry nothing can be written. -/
theorem updateStamps_none {stamps : List UInt64} (hs : t.updateStamps none stamps = some t') :
    stamps = [] ∧ t' = t := by
  cases stamps with
  | nil => exact ⟨rfl,(Option.some.inj hs).symm⟩
  | cons stamp stamps =>
    unfold LiveTable.updateStamps at hs
    rw [List.foldlM_cons] at hs
    contradiction

/-- What the parts of a line do to a table. -/
inductive Stored (t : LiveTable nstampsMaxMask) (ipListTot : ℕ) (addr : NfInetAddr) (ttl : Int)
    (stamps : List UInt64) (kmalloc : Option Ptr) : LiveTable nstampsMaxMask → Prop
  /-- Nothing to write, or a ttl that is not valid. -/
  | nothing (h : stamps = [] ∨ t.recentEntryLookup addr 0 = none ∧ ttlOf ttl = none) :
      Stored t ipListTot addr ttl stamps kmalloc t
  | update {p : Ptr} {e : RecentEntry nstampsMaxMask} (hlookup : t.recentEntryLookup addr 0 = some p) (he : t.heap p = some e)
      (hne : stamps ≠ []) : Stored t ipListTot addr ttl stamps kmalloc (t.touched p (updateAll e stamps))
  | insert {t₁ : LiveTable nstampsMaxMask} {p : Ptr} {ttl₁ : UInt8} {stamp : UInt64}
      {rest : List UInt64} (hlookup : t.recentEntryLookup addr 0 = none)
      (hevict : t.recentEntryEvict ipListTot = some t₁) (hp : t₁.heap p = none)
      (hkmalloc : kmalloc = some p) (httl : ttlOf ttl = some ttl₁) (hstamps : stamps = stamp::rest) :
      Stored t ipListTot addr ttl stamps kmalloc
        (t₁.linked p (updateAll (Kernel.recentEntryInit nstampsMaxMask addr ttl₁ stamp) rest))
  /-- The allocation failed, and the head of the list may be gone all the same. -/
  | evict {t₁ : LiveTable nstampsMaxMask} (hlookup : t.recentEntryLookup addr 0 = none)
      (hevict : t.recentEntryEvict ipListTot = some t₁) (hkmalloc : kmalloc = none) :
      Stored t ipListTot addr ttl stamps kmalloc t₁

theorem WellFormed.storeStamps (h : t.WellFormed) {ipListTot : ℕ} {addr : NfInetAddr} {ttl : Int}
    {stamps : List UInt64} {size : ℕ} {kmalloc : Option Ptr} {ret : Int}
    (hs : t.storeStamps ipListTot addr ttl stamps size kmalloc = some (t',ret)) :
    Stored t ipListTot addr ttl stamps kmalloc t' := by
  unfold LiveTable.storeStamps at hs
  cases hlookup : t.recentEntryLookup addr 0 with
  | some p =>
    obtain ⟨e,he,-⟩ := heap_of_lookup hlookup
    rw [hlookup] at hs
    obtain ⟨t₁,ht₁,heq⟩ := Option.map_eq_some_iff.mp hs
    obtain rfl : t₁ = t' := congrArg Prod.fst heq
    by_cases hne : stamps = []
    · rw [hne] at ht₁
      obtain rfl : t = t₁ := Option.some.inj ht₁
      exact .nothing (.inl hne)
    · rw [h.updateStamps he hne] at ht₁
      obtain rfl := Option.some.inj ht₁
      exact .update hlookup he hne
  | none =>
    rw [hlookup] at hs
    cases httl : ttlOf ttl with
    | none =>
      rw [httl] at hs
      obtain rfl : t = t' := congrArg Prod.fst (Option.some.inj hs)
      exact .nothing (.inr ⟨hlookup,httl⟩)
    | some ttl₁ =>
      rw [httl] at hs
      cases stamps with
      | nil =>
        obtain rfl : t = t' := congrArg Prod.fst (Option.some.inj hs)
        exact .nothing (.inl rfl)
      | cons stamp rest =>
        obtain ⟨⟨t₂,e⟩,hinit,hs⟩ := Option.bind_eq_some_iff.mp hs
        obtain ⟨t₃,ht₃,heq⟩ := Option.map_eq_some_iff.mp hs
        obtain rfl : t₃ = t' := congrArg Prod.fst heq
        obtain ⟨t₁,hevict,hinit⟩ := Option.bind_eq_some_iff.mp hinit
        cases kmalloc with
        | none =>
          obtain ⟨rfl,rfl⟩ := Prod.mk.inj (Option.some.inj hinit)
          obtain ⟨-,rfl⟩ := updateStamps_none ht₃
          exact .evict hlookup hevict rfl
        | some p =>
          dsimp only at hinit
          split at hinit
          · contradiction
          · next hfree =>
            have hp : t₁.heap p = none := by simpa using hfree
            have hwf : t₁.WellFormed := h.evict hevict
            obtain ⟨rfl,rfl⟩ := Prod.mk.inj (Option.some.inj hinit)
            have hnew : t₃ = t₁.linked p
                (updateAll (Kernel.recentEntryInit nstampsMaxMask addr ttl₁ stamp) rest) := by
              by_cases hrest : rest = []
              · rw [hrest] at ht₃ ⊢
                exact (Option.some.inj ht₃).symm
              · rw [(hwf.linked hp).updateStamps (heap_linked_self t₁ p _) hrest,
                  hwf.linked_touched hp] at ht₃
                exact (Option.some.inj ht₃).symm
            rw [hnew]
            exact .insert hlookup hevict hp rfl httl rfl

end Stored

/-- The entry that a line makes for an address which the table does not have. -/
def lineEntry (nstampsMaxMask : UInt8) (addr : NfInetAddr) (ttl : Int) (stamps : List UInt64) :
    Option (RecentEntry nstampsMaxMask) :=
  if (updateLine addr.text ttl stamps).length ≤ 421 then
    match ttlOf ttl, stamps with
    | some ttl, nstamp::stamps =>
      some (updateAll (Kernel.recentEntryInit nstampsMaxMask addr ttl nstamp) stamps)
    | _, _ => none
  else none

theorem addr_lineEntry {addr : NfInetAddr} {ttl : Int} {stamps : List UInt64}
    {e : RecentEntry nstampsMaxMask} (h : lineEntry nstampsMaxMask addr ttl stamps = some e) :
    e.addr = addr := by
  unfold lineEntry at h
  split at h
  · split at h
    · obtain rfl := Option.some.inj h
      exact updateAll_addr _ _
    · contradiction
  · contradiction

/-- With room in the table and memory for an entry, a line for a new address adds what it makes. -/
theorem WellFormed.write_new {t : LiveTable nstampsMaxMask} (h : t.WellFormed)
    (in6Pton : Bytes → Option UInt8 → Option NfInetAddr) {ipListTot : ℕ} (jiffies : UInt64)
    {addr : NfInetAddr} (haddr : addr.IsIpv4) (hnew : t.view addr = none)
    (hroom : t.entries < ipListTot) {p : Ptr} (hp : t.heap p = none) {stack : Bytes}
    (hnul : cString stack = []) (ttl : Int) (stamps : List UInt64) :
    ∃ ret, t.recentMtProcWrite in6Pton ipListTot jiffies (updateLine addr.text ttl stamps) stack
        (some p) = some ((lineEntry nstampsMaxMask addr ttl stamps).elim t (t.linked p),ret) := by
  rw [recentMtProcWrite_updateLine _ _ _ _ _ _ _ hnul]
  unfold lineEntry LiveTable.storeStamps
  by_cases hlong : 421 < (updateLine addr.text ttl stamps).length
  · rw [if_pos (.inl hlong), if_neg (Nat.not_le_of_lt hlong)]
    exact ⟨_,rfl⟩
  · have hroom' : ¬ipListTot ≤ t.entries := Nat.not_le_of_lt hroom
    rw [if_neg fun hor => hor.elim hlong fun hn => hn haddr, if_pos (Nat.le_of_not_lt hlong),
      lookup_of_view_eq_none hnew]
    dsimp only
    cases ttlOf ttl with
    | none => exact ⟨_,rfl⟩
    | some ttl₁ =>
      cases stamps with
      | nil => exact ⟨_,rfl⟩
      | cons nstamp stamps =>
        have hfree : (t.heap p).isSome = false := by rw [hp]; rfl
        refine ⟨(updateLine addr.text ttl (nstamp::stamps)).length,?_⟩
        dsimp only
        rw [LiveTable.recentEntryInit, recentEntryEvict, if_neg hroom', Option.bind_some]
        dsimp only
        rw [hfree]
        cases stamps with
        | nil => rfl
        | cons nstamp' stamps =>
          have hrest := (h.linked hp).updateStamps
            (heap_linked_self t p (Kernel.recentEntryInit nstampsMaxMask addr ttl₁ nstamp))
            (List.cons_ne_nil nstamp' stamps)
          rw [h.linked_touched hp] at hrest
          simp [hrest]

end LiveTable
end Kernel
end Ssyncd
