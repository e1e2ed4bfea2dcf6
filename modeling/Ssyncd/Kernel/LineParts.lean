import Ssyncd.Kernel.UpdateLine

/-! A line with stamps in two steps: the parts that are read from it, and what the table makes of
them. -/
namespace Ssyncd
open Decimal
namespace Kernel

section Tokens
variable {ct : UInt8}

/-- Without the separator the text is the last token. -/
theorem strsep_of_not_mem {s : Bytes} (h : ct ∉ s) : strsep ct (some s) = (some s,none) := by
  have hdrop : s.dropWhile (· != ct) = [] :=
    List.dropWhile_eq_nil_iff.mpr fun b hb => by simpa using fun heq : b = ct => h (heq ▸ hb)
  rw [strsep, hdrop]

theorem strsepAll_of_not_mem {s : Bytes} (h : ct ∉ s) : strsepAll ct (some s) = [s] :=
  List.splitOn_eq_singleton h

theorem strsepAll_append {token : Bytes} (h : ct ∉ token) (rest : Bytes) :
    strsepAll ct (some (token ++ ct::rest)) = token::strsepAll ct (some rest) :=
  List.splitOn_append_cons_self_of_not_mem h rest

/-- Each call takes the first of the tokens that are left. -/
theorem strsep_fst (s : Option Bytes) : (strsep ct s).1 = (strsepAll ct s).head? := by
  cases s with
  | none => rfl
  | some s =>
    by_cases h : ct ∈ s
    · obtain ⟨token,rest,rfl,hnot⟩ := List.eq_append_cons_of_mem h
      rw [strsep_append hnot, strsepAll_append hnot]
      rfl
    · rw [strsep_of_not_mem h, strsepAll_of_not_mem h]
      rfl

theorem strsepAll_snd (s : Option Bytes) : strsepAll ct (strsep ct s).2 = (strsepAll ct s).tail := by
  cases s with
  | none => rfl
  | some s =>
    by_cases h : ct ∈ s
    · obtain ⟨token,rest,rfl,hnot⟩ := List.eq_append_cons_of_mem h
      rw [strsep_append hnot, strsepAll_append hnot]
      rfl
    · rw [strsep_of_not_mem h, strsepAll_of_not_mem h]
      rfl

/-- The cursor is null after the last token. -/
theorem strsep_snd_eq_none_iff (s : Bytes) : (strsep ct (some s)).2 = none ↔ ct ∉ s := by
  by_cases h : ct ∈ s
  · obtain ⟨token,rest,rfl,hnot⟩ := List.eq_append_cons_of_mem h
    rw [strsep_append hnot]
    exact iff_of_false (Option.some_ne_none rest) (not_not_intro h)
  · rw [strsep_of_not_mem h]
    exact iff_of_true rfl h

end Tokens

/-- The stamps of some tokens are that of the first one, if it is a number, and those of the rest. -/
theorem stamps_of_tokens (c : Option Bytes) : (strsepAll 59 c).filterMap kstrtoul =
    ((strsep 59 c).1.bind kstrtoul).toList ++ (strsepAll 59 (strsep 59 c).2).filterMap kstrtoul := by
  rw [strsep_fst, strsepAll_snd]
  cases strsepAll 59 c with
  | nil => rfl
  | cons token tokens =>
    rw [List.head?_cons, Option.bind_some, List.tail_cons, List.filterMap_cons]
    cases kstrtoul token <;> rfl

/-- What is read from a line. The address is none where it is not valid, and so is the ttl; the stamps
are those tokens that are numbers. -/
structure LineParts where
  addr : Option NfInetAddr
  ttl : Option UInt8
  first : Option UInt64
  later : List UInt64

def LineParts.stamps (parts : LineParts) : List UInt64 := parts.first.toList ++ parts.later

/-- The address of a line, of the family that a colon behind it makes it. -/
def lineAddr (in6Pton : Bytes → Option UInt8 → Option NfInetAddr) (ipaddr : Bytes) (colon : Bool) :
    Option NfInetAddr :=
  if colon then in6Pton ipaddr none else in4Pton ipaddr none

/-- None where the rest of the line is null when the colon is looked for. -/
def lineParts (in6Pton : Bytes → Option UInt8 → Option NfInetAddr) (c : Bytes) (size : ℕ) :
    Option LineParts :=
  let (ipaddr,c) := strsep 59 (some c)
  (strnchr c (size-1) 58).map fun colon =>
    let (ttl,c) := strsep 59 c
    let (first,c) := strsep 59 c
    { addr := ipaddr.bind fun ipaddr => lineAddr in6Pton ipaddr colon
      ttl := ttl.elim (some 0) kstrtou8
      first := first.bind kstrtoul
      later := (strsepAll 59 c).filterMap kstrtoul }

variable {nstampsMaxMask : UInt8}

namespace LiveTable

/-- What the table makes of the parts of a line. -/
def storeLine (t : LiveTable nstampsMaxMask) (ipListTot : ℕ) (parts : LineParts) (size : ℕ)
    (kmalloc : Option Ptr) : Option (LiveTable nstampsMaxMask × Int) :=
  match parts.addr with
  | none => some (t,-EINVAL)
  | some addr =>
    match t.recentEntryLookup addr 0 with
    | some p => (t.updateStamps (some p) parts.stamps).map fun t => (t,size)
    | none =>
      match parts.ttl with
      | none => some (t,-EINVAL)
      | some ttl =>
        match parts.first with
        | some nstamp =>
          (t.recentEntryInit ipListTot addr ttl nstamp kmalloc).bind fun (t,e) =>
            (t.updateStamps e parts.later).map fun t => (t,size)
        | none => (t.updateStamps none parts.later).map fun t => (t,size)

theorem updateTokens_eq (t : LiveTable nstampsMaxMask) (e : Option Ptr) (tokens : List Bytes) :
    t.updateTokens e tokens = t.updateStamps e (tokens.filterMap kstrtoul) := by
  induction tokens generalizing t with
  | nil => rfl
  | cons token tokens ih =>
    unfold updateTokens updateStamps at ih ⊢
    rw [List.foldlM_cons]
    cases htoken : kstrtoul token with
    | none =>
      rw [List.filterMap_cons_none htoken]
      exact ih t
    | some nstamp =>
      rw [List.filterMap_cons_some htoken, List.foldlM_cons]
      dsimp only
      cases e.bind fun p => t.recentEntryUpdate p nstamp with
      | none => rfl
      | some t => exact ih t

/-- A line is read and then stored. -/
theorem writeLine_eq (t : LiveTable nstampsMaxMask)
    (in6Pton : Bytes → Option UInt8 → Option NfInetAddr) (ipListTot : ℕ) (c : Bytes) (size : ℕ)
    (kmalloc : Option Ptr) : t.writeLine in6Pton ipListTot c size kmalloc =
      (lineParts in6Pton c size).bind fun parts => t.storeLine ipListTot parts size kmalloc := by
  unfold writeLine lineParts
  generalize strsep 59 (some c) = first
  obtain ⟨ipaddr,c⟩ := first
  dsimp only
  cases strnchr c (size-1) 58 with
  | none => rfl
  | some colon =>
    simp only [Option.bind_eq_bind, Option.bind_some, Option.map_some]
    unfold storeLine lineAddr
    dsimp only
    cases ipaddr.bind fun ipaddr => if colon then in6Pton ipaddr none else in4Pton ipaddr none with
    | none => rfl
    | some addr =>
      dsimp only
      cases t.recentEntryLookup addr 0 with
      | some p =>
        dsimp only
        rw [updateTokens_eq, stamps_of_tokens, LineParts.stamps]
        cases t.updateStamps (some p) _ <;> rfl
      | none =>
        unfold insertLine
        dsimp only
        cases (strsep 59 c).1.elim (some 0) kstrtou8 with
        | none => rfl
        | some ttl =>
          dsimp only
          cases (strsep 59 (strsep 59 c).2).1.bind kstrtoul with
          | none =>
            simp only [Option.bind_eq_bind, Option.bind_some, updateTokens_eq]
            cases t.updateStamps none _ <;> rfl
          | some nstamp =>
            simp only [Option.bind_eq_bind, updateTokens_eq]
            cases t.recentEntryInit ipListTot addr ttl nstamp kmalloc with
            | none => rfl
            | some r =>
              obtain ⟨t',e⟩ := r
              simp only [Option.bind_some]
              cases t'.updateStamps e _ <;> rfl

/-- The parts that reach an entry which is null. -/
def NullEntry (t : LiveTable nstampsMaxMask) (parts : LineParts) (kmalloc : Option Ptr) : Prop :=
  ∃ addr, parts.addr = some addr ∧ t.recentEntryLookup addr 0 = none ∧ parts.ttl ≠ none ∧
    (parts.first = none ∨ kmalloc = none) ∧ parts.later ≠ []

section Stored
variable {t : LiveTable nstampsMaxMask}

theorem updateStamps_none_iff (t : LiveTable nstampsMaxMask) (stamps : List UInt64) :
    t.updateStamps none stamps = none ↔ stamps ≠ [] := by
  cases stamps with
  | nil => exact iff_of_false (by simp [LiveTable.updateStamps]) (by simp)
  | cons stamp stamps => exact iff_of_true rfl (List.cons_ne_nil _ _)

theorem WellFormed.isSome_updateStamps (h : t.WellFormed) {p : Ptr} {e : RecentEntry nstampsMaxMask}
    (he : t.heap p = some e) (stamps : List UInt64) : t.updateStamps (some p) stamps ≠ none := by
  cases stamps with
  | nil => exact Option.some_ne_none t
  | cons stamp stamps =>
    rw [h.updateStamps he (List.cons_ne_nil _ _)]
    exact Option.some_ne_none _

/-- A table that is full has an entry to give up. -/
theorem WellFormed.exists_evict (h : t.WellFormed) {ipListTot : ℕ} (hpos : 0 < ipListTot) :
    ∃ t', t.recentEntryEvict ipListTot = some t' := by
  unfold recentEntryEvict
  split
  · next hfull =>
    cases hlru : t.lruList with
    | nil =>
      rw [h.counted, hlru] at hfull
      exact absurd hpos (Nat.not_lt_of_le hfull)
    | cons p rest => exact ⟨t.recentEntryRemove p,by rw [List.head?_cons, Option.map_some]⟩
  · exact ⟨t,rfl⟩

theorem heap_evict {t' : LiveTable nstampsMaxMask} {ipListTot : ℕ}
    (he : t.recentEntryEvict ipListTot = some t') {p : Ptr} (hp : t.heap p = none) :
    t'.heap p = none := by
  rcases evict_cases he with rfl | ⟨q,-,-,rfl⟩
  · exact hp
  · rw [heap_remove, hp, ite_self]

/-- Storing a line fails only at an entry that is null. -/
theorem WellFormed.storeLine_eq_none_iff (h : t.WellFormed) {ipListTot : ℕ} (hpos : 0 < ipListTot)
    {kmalloc : Option Ptr} (hfree : ∀ p ∈ kmalloc, t.heap p = none) (parts : LineParts) (size : ℕ) :
    t.storeLine ipListTot parts size kmalloc = none ↔ t.NullEntry parts kmalloc := by
  unfold LiveTable.storeLine NullEntry
  cases haddr : parts.addr with
  | none => simp
  | some addr =>
    simp only [Option.some.injEq, exists_eq_left']
    cases hlookup : t.recentEntryLookup addr 0 with
    | some p =>
      obtain ⟨e,he,-⟩ := heap_of_lookup hlookup
      have hsome := h.isSome_updateStamps he parts.stamps
      simpa using hsome
    | none =>
      dsimp only
      cases httl : parts.ttl with
      | none => simp
      | some ttl =>
        dsimp only
        cases hfirst : parts.first with
        | none =>
          rw [Option.map_eq_none_iff, updateStamps_none_iff]
          simp
        | some nstamp =>
          obtain ⟨t₁,ht₁⟩ := h.exists_evict hpos
          dsimp only
          unfold LiveTable.recentEntryInit
          rw [ht₁, Option.bind_some]
          cases hk : kmalloc with
          | none =>
            dsimp only
            rw [Option.bind_some, Option.map_eq_none_iff, updateStamps_none_iff]
            simp
          | some p =>
            have hp : t₁.heap p = none := heap_evict ht₁ (hfree p hk)
            have hlinked := ((h.evict ht₁).linked hp).isSome_updateStamps
              (heap_linked_self t₁ p (Kernel.recentEntryInit nstampsMaxMask addr ttl nstamp)) parts.later
            dsimp only
            rw [hp, if_neg (by simp), Option.bind_some, Option.map_eq_none_iff]
            simpa using hlinked

theorem storeLine_ret {ipListTot : ℕ} {parts : LineParts} {size : ℕ} {kmalloc : Option Ptr}
    {t' : LiveTable nstampsMaxMask} {ret : Int}
    (hs : t.storeLine ipListTot parts size kmalloc = some (t',ret)) : ret = -EINVAL ∨ ret = size := by
  unfold LiveTable.storeLine at hs
  split at hs
  · exact .inl (congrArg Prod.snd (Option.some.inj hs)).symm
  · split at hs
    · exact .inr (ret_of_map hs)
    · split at hs
      · exact .inl (congrArg Prod.snd (Option.some.inj hs)).symm
      · split at hs
        · obtain ⟨_,-,hr⟩ := Option.bind_eq_some_iff.mp hs
          exact .inr (ret_of_map hr)
        · exact .inr (ret_of_map hs)

end Stored

end LiveTable
end Kernel
end Ssyncd
