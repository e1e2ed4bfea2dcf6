import Ssyncd.Kernel.NullLine

/-! An address alone and a line with stamps: both begin with the text of an address, and each of them
reads it in its own way. -/
namespace Ssyncd
open Decimal
namespace Kernel

section Texts
variable {s : Bytes} {b : UInt8}

/-- A byte that may stand in a text up to an end of line is read alike without a delimiter. -/
theorem xdigit2bin_none (h : xdigit2bin b (some 10) ≠ .unknown) :
    xdigit2bin b none = xdigit2bin b (some 10) := by
  by_cases h10 : b = 10
  · rw [h10]
    rfl
  · have hsome : some b ≠ some (10 : UInt8) := fun heq => h10 (Option.some.inj heq)
    have hnone : some b ≠ none := Option.some_ne_none b
    unfold xdigit2bin at h ⊢
    simp only [hsome, hnone, false_or] at h ⊢
    split_ifs at h ⊢ <;> first | rfl | contradiction

theorem in4PtonFrom_none {d r : Bytes} {w : Option ℕ} (h : in4PtonFrom (some 10) s d w = some r) :
    in4PtonFrom none s d w = some r := by
  induction s generalizing d w with
  | nil => exact h
  | cons b s ih =>
    rw [in4PtonFrom] at h ⊢
    have hknown : xdigit2bin b (some 10) ≠ .unknown := by
      intro hunknown
      rw [hunknown] at h
      contradiction
    rw [xdigit2bin_none hknown]
    cases hb : xdigit2bin b (some 10) with
    | unknown => contradiction
    | delim => rwa [hb] at h
    | colon => rwa [hb] at h
    | dot =>
      rw [hb] at h
      obtain ⟨n,rfl,hn⟩ := Option.bind_eq_some_iff.mp h
      rw [Option.bind_some]
      split at hn
      · next hlt =>
        rw [if_pos hlt]
        exact ih hn
      · contradiction
    | digit v =>
      rw [hb] at h
      dsimp only at h ⊢
      split at h
      · next hle =>
        rw [if_pos hle]
        exact ih h
      · contradiction

/-- A text that is read up to an end of line is read alike without one. -/
theorem in4Pton_none {addr : NfInetAddr} (h : in4Pton s (some 10) = some addr) :
    in4Pton s none = some addr := by
  unfold in4Pton at h ⊢
  cases hfrom : in4PtonFrom (some 10) s [] none with
  | none =>
    rw [hfrom] at h
    contradiction
  | some r =>
    rw [hfrom] at h
    rw [in4PtonFrom_none hfrom]
    exact h

/-- The bytes of a number. -/
theorem mem_of_kstrtoull {n : ℕ} (h : kstrtoull s = some n) (hb : b ∈ s) :
    isDigit b = true ∨ b = 43 ∨ b = 10 := by
  unfold kstrtoull at h
  dsimp only at h
  split_ifs at h with hnil hlarge hrest
  have hsplit : b ∈ skipPlus s → isDigit b = true ∨ b = 10 := by
    intro hb
    rw [← (skipPlus s).takeWhile_append_dropWhile (p := isDigit)] at hb
    rcases List.mem_append.mp hb with hb | hb
    · exact .inl (List.mem_takeWhile_imp hb)
    · rcases hrest with hrest | hrest
      · rw [hrest] at hb
        contradiction
      · rw [hrest] at hb
        exact .inr (List.mem_singleton.mp hb)
  cases s with
  | nil => contradiction
  | cons c s =>
    by_cases hplus : c = 43
    · subst hplus
      rcases List.mem_cons.mp hb with hb | hb
      · exact .inr (.inl hb)
      · exact (hsplit hb).imp_right .inr
    · have hskip : skipPlus (c::s) = c::s := by
        unfold skipPlus
        split
        · next s' heq => exact absurd (List.cons.inj heq).1 hplus
        · rfl
      exact (hsplit (hskip.symm ▸ hb)).imp_right .inr

end Texts

/-- `*ipaddr;ttl;nstamp;` -/
def stampLine (ipaddr ttl nstamp : Bytes) : Bytes :=
  42::(ipaddr ++ 59::(ttl ++ 59::(nstamp ++ [59])))

/-- The text of an address, which is all that stands up to a separator. -/
structure AddressText (c : Bytes) : Prop where
  semicolon : 59 ∉ c
  nul : 0 ∉ c

/-- The address that `+` reads, of the family that a colon in its text makes it. -/
def writtenAddr (in6Pton : Bytes → Option UInt8 → Option NfInetAddr) (c : Bytes) :
    Option NfInetAddr :=
  if c.contains 58 then in6Pton c (some 10) else in4Pton c (some 10)

variable {nstampsMaxMask : UInt8}

namespace LiveTable

/-- From one table two writes came to the same entry, each with its own stamp. -/
structure SameEntry (t t₁ t₂ : LiveTable nstampsMaxMask) (ipListTot : ℕ) (addr : NfInetAddr)
    (jiffies stamp : UInt64) (kmalloc : Option Ptr) : Prop where
  created : t.recentEntryLookup addr 0 = none → ∀ p ∈ kmalloc, ∃ t₀ e₁ e₂,
    t.recentEntryEvict ipListTot = some t₀ ∧ t₁ = t₀.linked p e₁ ∧ t₂ = t₀.linked p e₂ ∧
      e₁.addr = addr ∧ e₂.addr = addr
  failed : t.recentEntryLookup addr 0 = none → kmalloc = none → t₁ = t₂
  updated : ∀ p, t.recentEntryLookup addr 0 = some p →
    t.recentEntryUpdate p jiffies = some t₁ ∧ t.recentEntryUpdate p stamp = some t₂

section Writes
variable (t t₁ : LiveTable nstampsMaxMask) (in6Pton : Bytes → Option UInt8 → Option NfInetAddr)
  (ipListTot : ℕ) (jiffies stamp : UInt64) (ipaddr ttl nstamp stack : Bytes) (kmalloc : Option Ptr)

/-- The line is accepted as the address alone was, and for the same address. -/
def Agrees : Prop :=
  ∃ addr t₂, writtenAddr in6Pton ipaddr = some addr ∧
    t.recentMtProcWrite in6Pton ipListTot jiffies (stampLine ipaddr ttl nstamp) stack kmalloc =
      some (t₂,↑(stampLine ipaddr ttl nstamp).length) ∧
    t.SameEntry t₁ t₂ ipListTot addr jiffies stamp kmalloc

variable {t t₁ in6Pton ipListTot jiffies stamp ipaddr ttl nstamp stack kmalloc}

/-- What an address alone does once it is accepted. -/
theorem plus_cases (hnul : cString stack = []) (htext : AddressText ipaddr)
    (hplus : t.recentMtProcWrite in6Pton ipListTot jiffies (43::ipaddr) stack kmalloc =
      some (t₁,↑(43::ipaddr).length)) :
    ∃ addr, writtenAddr in6Pton ipaddr = some addr ∧
      ((∃ p, t.recentEntryLookup addr 0 = some p ∧ t.recentEntryUpdate p jiffies = some t₁) ∨
        t.recentEntryLookup addr 0 = none ∧
          ∃ e, t.recentEntryInit ipListTot addr 0 jiffies kmalloc = some (t₁,e)) := by
  have hread : cString (ipaddr ++ stack) = ipaddr := by
    rw [cString_append htext.nul, hnul, List.append_nil]
  have htake : ipaddr.take ((43::ipaddr).length - 1) = ipaddr := by
    rw [List.length_cons, Nat.add_sub_cancel]
    exact List.take_length
  unfold recentMtProcWrite at hplus
  dsimp only at hplus
  split at hplus
  · exact absurd hplus (refused_ne t t₁ _)
  · change t.writeAddress in6Pton ipListTot jiffies true (cString (ipaddr ++ stack)) _ kmalloc = _ at hplus
    rw [hread] at hplus
    unfold writeAddress at hplus
    have hwritten : (if ipaddr.contains 58 then in6Pton ipaddr (some 10) else
        in4Pton ipaddr (some 10)) = writtenAddr in6Pton ipaddr := rfl
    rw [htake] at hplus
    dsimp only at hplus
    rw [hwritten] at hplus
    cases haddr : writtenAddr in6Pton ipaddr with
    | none =>
      rw [haddr] at hplus
      exact absurd hplus (refused_ne t t₁ _)
    | some addr =>
      rw [haddr] at hplus
      refine ⟨addr,rfl,?_⟩
      dsimp only at hplus
      cases hlookup : t.recentEntryLookup addr 0 with
      | none =>
        rw [hlookup] at hplus
        obtain ⟨⟨t',e⟩,hinit,heq⟩ := Option.bind_eq_some_iff.mp hplus
        obtain rfl : t' = t₁ := congrArg Prod.fst (Option.some.inj heq)
        exact .inr ⟨rfl,e,hinit⟩
      | some p =>
        rw [hlookup] at hplus
        obtain ⟨t',hupdate,heq⟩ := Option.bind_eq_some_iff.mp hplus
        obtain rfl : t' = t₁ := congrArg Prod.fst (Option.some.inj heq)
        exact .inl ⟨p,rfl,hupdate⟩

/-- A line with one stamp is read as an IPv4 address, whatever its text is. -/
theorem recentMtProcWrite_stampLine (hnul : cString stack = []) (htext : AddressText ipaddr) {n : UInt8}
    (httl : kstrtou8 ttl = some n) (hstamp : kstrtoul nstamp = some stamp)
    (hsize : (stampLine ipaddr ttl nstamp).length ≤ 421) :
    t.recentMtProcWrite in6Pton ipListTot jiffies (stampLine ipaddr ttl nstamp) stack kmalloc =
      t.storeLine ipListTot ⟨in4Pton ipaddr none,some n,some stamp,[]⟩
        (stampLine ipaddr ttl nstamp).length kmalloc := by
  obtain ⟨n₀,hn₀,-⟩ := Option.bind_eq_some_iff.mp httl
  obtain ⟨n₁,hn₁,-⟩ := Option.map_eq_some_iff.mp hstamp
  have httlbytes := fun b => @mem_of_kstrtoull ttl b n₀ hn₀
  have hstampbytes := fun b => @mem_of_kstrtoull nstamp b n₁ hn₁
  have hnot : ∀ b : UInt8, ¬(isDigit b = true ∨ b = 43 ∨ b = 10) → b ∉ ttl ∧ b ∉ nstamp :=
    fun b hb => ⟨fun hmem => hb (httlbytes b hmem),fun hmem => hb (hstampbytes b hmem)⟩
  have hsemicolon := hnot 59 (by decide)
  have hcolon := hnot 58 (by decide)
  have hzero := hnot 0 (by decide)
  have hsplit : (ipaddr ++ 59::(ttl ++ 59::(nstamp ++ [59]))).splitOn 59 = [ipaddr,ttl,nstamp,[]] := by
    rw [List.splitOn_append_cons_self_of_not_mem htext.semicolon,
      List.splitOn_append_cons_self_of_not_mem hsemicolon.1,
      List.splitOn_append_cons_self_of_not_mem hsemicolon.2]
    rfl
  have hread : cString (ipaddr ++ 59::(ttl ++ 59::(nstamp ++ [59])) ++ stack) =
      ipaddr ++ 59::(ttl ++ 59::(nstamp ++ [59])) := by
    have hmem : (0 : UInt8) ∉ ipaddr ++ 59::(ttl ++ 59::(nstamp ++ [59])) := by
      simp [htext.nul, hzero.1, hzero.2]
    rw [cString_append hmem, hnul, List.append_nil]
  have hlen : (ipaddr ++ 59::(ttl ++ 59::(nstamp ++ [59]))).length <
      (42::(ipaddr ++ 59::(ttl ++ 59::(nstamp ++ [59])))).length := Nat.lt_succ_self _
  have hfamily : [ttl,nstamp,[]].any (·.contains 58) = false := by
    simp [hcolon.1, hcolon.2]
  rw [stampLine, recentMtProcWrite_parts hsize, hread,
    lineParts_of_splitOn hsplit hlen, Option.bind_some, hfamily]
  dsimp only [List.head?_cons, List.tail_cons, Option.bind_some]
  rw [httl, hstamp]
  rfl

/-- A text that has no colon is that of the same address to both. -/
theorem in4Pton_of_writtenAddr (h : (58 : UInt8) ∉ ipaddr) {addr : NfInetAddr}
    (haddr : writtenAddr in6Pton ipaddr = some addr) : in4Pton ipaddr none = some addr := by
  have hcolon : ipaddr.contains 58 = false := by
    rw [List.contains_eq_mem, decide_eq_false_iff_not]
    exact h
  rw [writtenAddr, hcolon] at haddr
  exact in4Pton_none haddr

/-- Behind the separator no colon is found, so the text of an IPv6 address is not one. -/
theorem in4Pton_of_colon (h6 : ∀ s delim, in6Pton s delim ≠ none → in4Pton s none = none)
    (h : (58 : UInt8) ∈ ipaddr) {addr : NfInetAddr} (haddr : writtenAddr in6Pton ipaddr = some addr) :
    in4Pton ipaddr none = none := by
  rw [writtenAddr, List.contains_iff_mem.mpr h, if_pos rfl] at haddr
  refine h6 ipaddr (some 10) ?_
  rw [haddr]
  exact Option.some_ne_none addr

/-- An entry that is there takes the stamp of the line as it takes the time. -/
theorem sameEntry_of_update {addr : NfInetAddr} {p : Ptr} (hlookup : t.recentEntryLookup addr 0 = some p)
    (hupdate : t.recentEntryUpdate p jiffies = some t₁) (n : UInt8) (size : ℕ) :
    ∃ t₂, t.storeLine ipListTot ⟨some addr,some n,some stamp,[]⟩ size kmalloc = some (t₂,↑size) ∧
      t.SameEntry t₁ t₂ ipListTot addr jiffies stamp kmalloc := by
  have habsent : t.recentEntryLookup addr 0 ≠ none := by
    rw [hlookup]
    exact Option.some_ne_none p
  obtain ⟨e,he,-⟩ := heap_of_lookup hlookup
  have hstar : t.recentEntryUpdate p stamp = some (t.touched p (Kernel.recentEntryUpdate e stamp)) := by
    rw [recentEntryUpdate, he, Option.map_some]
  have hstamps : t.updateStamps (some p) [stamp] = t.recentEntryUpdate p stamp := by
    rw [hstar]
    unfold updateStamps
    rw [List.foldlM_cons, Option.bind_some, hstar]
    rfl
  refine ⟨t.touched p (Kernel.recentEntryUpdate e stamp),?_,fun h => absurd h habsent,
    fun h => absurd h habsent,fun q hq => ?_⟩
  · rw [LiveTable.storeLine]
    dsimp only
    rw [hlookup]
    change (t.updateStamps (some p) [stamp]).map _ = _
    rw [hstamps, hstar, Option.map_some]
  · obtain rfl : p = q := Option.some.inj (hlookup.symm.trans hq)
    exact ⟨hupdate,hstar⟩

/-- An entry that is made for the address alone is made for the line, in the same block. -/
theorem sameEntry_of_init {addr : NfInetAddr} {e : Option Ptr} (hlookup : t.recentEntryLookup addr 0 = none)
    (hinit : t.recentEntryInit ipListTot addr 0 jiffies kmalloc = some (t₁,e)) (n : UInt8) (size : ℕ) :
    ∃ t₂, t.storeLine ipListTot ⟨some addr,some n,some stamp,[]⟩ size kmalloc = some (t₂,↑size) ∧
      t.SameEntry t₁ t₂ ipListTot addr jiffies stamp kmalloc := by
  have hpresent : ∀ p, t.recentEntryLookup addr 0 ≠ some p := by
    intro p hp
    rw [hlookup] at hp
    contradiction
  have hstore : ∀ t₂ e₂, t.recentEntryInit ipListTot addr n stamp kmalloc = some (t₂,e₂) →
      t.storeLine ipListTot ⟨some addr,some n,some stamp,[]⟩ size kmalloc = some (t₂,↑size) := by
    intro t₂ e₂ hinit₂
    rw [LiveTable.storeLine]
    dsimp only
    rw [hlookup]
    dsimp only
    rw [hinit₂]
    rfl
  obtain ⟨t₀,hevict,hinit⟩ := Option.bind_eq_some_iff.mp hinit
  cases hk : kmalloc with
  | none =>
    rw [hk] at hinit hstore
    obtain ⟨rfl,-⟩ := Prod.mk.inj (Option.some.inj hinit)
    have hinit₂ : t.recentEntryInit ipListTot addr n stamp none = some (t₀,none) := by
      rw [LiveTable.recentEntryInit, hevict, Option.bind_some]
    refine ⟨t₀,hstore _ _ hinit₂,fun _ p hp => ?_,fun _ _ => rfl,fun p hp => absurd hp (hpresent p)⟩
    contradiction
  | some p =>
    rw [hk] at hinit hstore
    dsimp only at hinit
    split at hinit
    · contradiction
    · next hfree =>
      obtain ⟨rfl,-⟩ := Prod.mk.inj (Option.some.inj hinit)
      have hinit₂ : t.recentEntryInit ipListTot addr n stamp (some p) =
          some (t₀.linked p (Kernel.recentEntryInit nstampsMaxMask addr n stamp),some p) := by
        rw [LiveTable.recentEntryInit, hevict, Option.bind_some]
        dsimp only
        rw [if_neg hfree]
      refine ⟨_,hstore _ _ hinit₂,fun _ q hq => ?_,fun _ hnone => ?_,fun q hq => absurd hq (hpresent q)⟩
      · obtain rfl : p = q := Option.some.inj hq
        exact ⟨t₀,_,_,hevict,rfl,rfl,rfl,rfl⟩
      · contradiction

/-- The line is for the address that was written alone exactly where this is an IPv4 address and the
line is short enough: a colon is looked for behind the address, where none is. -/
theorem agrees_iff (h6 : ∀ s delim, in6Pton s delim ≠ none → in4Pton s none = none)
    (hnul : cString stack = []) (htext : AddressText ipaddr) {n : UInt8}
    (httl : kstrtou8 ttl = some n) (hstamp : kstrtoul nstamp = some stamp)
    (hplus : t.recentMtProcWrite in6Pton ipListTot jiffies (43::ipaddr) stack kmalloc =
      some (t₁,↑(43::ipaddr).length)) :
    t.Agrees t₁ in6Pton ipListTot jiffies stamp ipaddr ttl nstamp stack kmalloc ↔
      58 ∉ ipaddr ∧ (stampLine ipaddr ttl nstamp).length ≤ 421 := by
  constructor
  · rintro ⟨addr,t₂,haddr,hstar,-⟩
    have hsize : (stampLine ipaddr ttl nstamp).length ≤ 421 := by
      by_contra hlong
      unfold recentMtProcWrite at hstar
      dsimp only at hstar
      rw [if_pos (Nat.lt_of_not_le hlong)] at hstar
      exact absurd hstar (refused_ne t t₂ _)
    refine ⟨fun hcolon => ?_,hsize⟩
    rw [recentMtProcWrite_stampLine hnul htext httl hstamp hsize,
      in4Pton_of_colon h6 hcolon haddr] at hstar
    exact absurd hstar (refused_ne t t₂ _)
  · rintro ⟨hcolon,hsize⟩
    obtain ⟨addr,haddr,hcases⟩ := plus_cases hnul htext hplus
    unfold Agrees
    rw [recentMtProcWrite_stampLine hnul htext httl hstamp hsize, in4Pton_of_writtenAddr hcolon haddr]
    rcases hcases with ⟨p,hlookup,hupdate⟩ | ⟨hlookup,e,hinit⟩
    · obtain ⟨t₂,hstore,hsame⟩ := sameEntry_of_update hlookup hupdate n (stampLine ipaddr ttl nstamp).length
      exact ⟨addr,t₂,haddr,hstore,hsame⟩
    · obtain ⟨t₂,hstore,hsame⟩ := sameEntry_of_init hlookup hinit n (stampLine ipaddr ttl nstamp).length
      exact ⟨addr,t₂,haddr,hstore,hsame⟩

end Writes

/-- 1.2.3.4, and a line for it with ttl 0 and stamp 7. -/
theorem agrees_quad : ∃ t₁, ({} : LiveTable 0).Agrees t₁ (fun _ _ => none) 1 9 7 [49,46,50,46,51,46,52] [48]
    [55] [0] (some 0) := by
  refine ⟨_,(agrees_iff (fun _ _ h => absurd rfl h) rfl ⟨by decide,by decide⟩ rfl rfl rfl).mpr ?_⟩
  exact ⟨by decide,by decide⟩

/-- What the conversion of IPv6 addresses makes of ::1. -/
def in6PtonLoopback (s : Bytes) (_ : Option UInt8) : Option NfInetAddr :=
  if s = [58,58,49] then some (.ip6 0 0 0 0 0 0 0 1) else none

/-- ::1, for which `+` makes an entry and the line is refused. -/
theorem not_agrees_loopback : ∃ t₁,
    ({} : LiveTable 0).recentMtProcWrite in6PtonLoopback 1 9 [43,58,58,49] [0] (some 0) = some (t₁,4) ∧
      t₁.recentEntryLookup (.ip6 0 0 0 0 0 0 0 1) 0 = some 0 ∧
      ({} : LiveTable 0).recentMtProcWrite in6PtonLoopback 1 9 (stampLine [58,58,49] [48] [55]) [0]
        (some 0) = some ({},-EINVAL) ∧
      ¬({} : LiveTable 0).Agrees t₁ in6PtonLoopback 1 9 7 [58,58,49] [48] [55] [0] (some 0) := by
  refine ⟨_,rfl,by decide,rfl,?_⟩
  rintro ⟨addr,t₂,-,hstar,-⟩
  exact absurd hstar (refused_ne {} t₂ _)

end LiveTable
end Kernel
end Ssyncd
