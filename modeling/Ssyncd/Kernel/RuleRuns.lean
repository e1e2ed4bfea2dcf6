import Ssyncd.Kernel.RingLaw
import Ssyncd.Kernel.Rules

/-! Whatever rules are added, met and removed, each table is there for exactly the rules that name it:
its count is theirs, its rings are large enough for all of them, and with the last of them it goes. -/
namespace Ssyncd
namespace Kernel

section Grow

theorem le_nextPowerOfTwo {n : ℕ} (h : n < 256) : n ≤ n.nextPowerOfTwo := by
  have hall : ∀ n < 256, n ≤ n.nextPowerOfTwo := by decide +kernel
  exact hall n h

/-- The rings of a rule have a cell for each hit that it asks for. -/
theorem RecentParams.hitCount_le (m : RecentParams) {info : XtRecentMtinfoV1} (h : info.Checked) :
    info.hitCount.toNat ≤ m.nstampMask info + 1 := by
  have htot := le_nextPowerOfTwo m.ipPktListTot_lt
  have hhits := le_nextPowerOfTwo h.hitCount
  unfold RecentParams.nstampMask Kernel.nstampMask
  split
  · omega
  · split <;> omega

theorem RecentParams.nstampMask_lt (m : RecentParams) {info : XtRecentMtinfoV1} (h : info.Checked) :
    m.nstampMask info < 256 := by
  obtain ⟨k,hk,hpow⟩ := PatchedModule.nstampMask_pow m.ipPktListTot_lt h.hitCount
  have hle : 2 ^ k ≤ 2 ^ 8 := Nat.pow_le_pow_right (by decide) hk
  unfold RecentParams.nstampMask
  omega

/-- What rules in use may ask of a table with such rings. -/
def Access.Checked (nstampsMaxMask : UInt8) : Access → Prop
  | .packet _ info .. => info.Plain ∧ info.OneFlag ∧ info.hitCount.toNat ≤ nstampsMaxMask.toNat + 1
  | .write .. => True

theorem Access.Checked.plain {nstampsMaxMask : UInt8} {a : Access} (h : a.Checked nstampsMaxMask) :
    a.Plain := by
  cases a with
  | packet => exact h.1
  | write => trivial

/-- A table that was asked for all that it holds since it was empty, in rings of a power of two of
cells. -/
structure NamedTable.Sound (m : RecentParams) (t : NamedTable) : Prop where
  history : ∃ accesses answers, (∀ a ∈ accesses, a.Checked t.nstampsMaxMask) ∧
    Runs.run (LiveTable.serve m.toRecentModule) ({},[]) accesses = some (t.table,answers)
  pow : ∃ k ≤ 8, t.nstampsMaxMask.toNat + 1 = 2 ^ k

theorem NamedTable.Sound.held {m : RecentParams} {t : NamedTable} (h : t.Sound m) :
    ∃ c, t.table.Holds c ∧ c.size ≤ m.ipListTot := by
  obtain ⟨accesses,answers,hchecked,hrun⟩ := h.history
  have hagree := (agree_empty m.toRecentModule).run (fun a ha => (hchecked a ha).plain) hrun
  exact ⟨_,hagree.holds,hagree.room⟩

variable {m : RecentParams} {t : NamedTable} {info : XtRecentMtinfoV1}

@[simp] theorem name_grow (nstampMask : ℕ) : (t.grow nstampMask).name = t.name := by
  unfold NamedTable.grow
  split <;> rfl

@[simp] theorem refcnt_grow (nstampMask : ℕ) : (t.grow nstampMask).refcnt = t.refcnt := by
  unfold NamedTable.grow
  split <;> rfl

theorem nstampsMaxMask_grow {nstampMask : ℕ} (h : nstampMask < 256) :
    (t.grow nstampMask).nstampsMaxMask.toNat = max t.nstampsMaxMask.toNat nstampMask := by
  unfold NamedTable.grow
  split
  · next hless =>
    have hbyte : (t.raise (UInt8.ofNat nstampMask)).nstampsMaxMask.toNat = nstampMask :=
      Nat.mod_eq_of_lt h
    omega
  · omega

/-- Larger rings come with an empty table. -/
theorem NamedTable.Sound.raise (h : t.Sound m) {nstampsMaxMask : UInt8}
    (hpow : ∃ k ≤ 8, nstampsMaxMask.toNat + 1 = 2 ^ k) : (t.raise nstampsMaxMask).Sound m where
  history := by
    obtain ⟨c,hc,-⟩ := h.held
    refine ⟨[],[],fun _ ha => absurd ha List.not_mem_nil,?_⟩
    unfold NamedTable.raise
    rw [hc.wellFormed.flush]
    rfl
  pow := hpow

theorem NamedTable.Sound.grow (h : t.Sound m) (hinfo : info.Checked) :
    (t.grow (m.nstampMask info)).Sound m := by
  unfold NamedTable.grow
  split
  · refine h.raise ?_
    have hbyte : (UInt8.ofNat (m.nstampMask info)).toNat = m.nstampMask info :=
      Nat.mod_eq_of_lt (m.nstampMask_lt hinfo)
    rw [hbyte]
    exact PatchedModule.nstampMask_pow m.ipPktListTot_lt hinfo.hitCount
  · exact h

theorem sound_new (name : Bytes) (mask : NfInetMask) (hinfo : info.Checked) :
    NamedTable.Sound m ⟨name,mask,1,UInt8.ofNat (m.nstampMask info),{}⟩ where
  history := ⟨[],[],fun _ ha => absurd ha List.not_mem_nil,rfl⟩
  pow := by
    have hbyte : (UInt8.ofNat (m.nstampMask info)).toNat = m.nstampMask info :=
      Nat.mod_eq_of_lt (m.nstampMask_lt hinfo)
    dsimp only
    rw [hbyte]
    exact PatchedModule.nstampMask_pow m.ipPktListTot_lt hinfo.hitCount

/-- One access to a table. -/
theorem NamedTable.Sound.access (h : t.Sound m) {a : Access} (hchecked : a.Checked t.nstampsMaxMask)
    {table : LiveTable t.nstampsMaxMask} {answer : Answer}
    (ha : t.table.access m.toRecentModule a = some (table,answer)) :
    NamedTable.Sound m { t with table } where
  history := by
    obtain ⟨accesses,answers,hbefore,hrun⟩ := h.history
    refine ⟨accesses ++ [a],answers ++ [answer],?_,?_⟩
    · intro b hb
      rcases List.mem_append.mp hb with hold | hnew
      · exact hbefore b hold
      · rw [List.mem_singleton.mp hnew]
        exact hchecked
    · rw [Runs.run_append, hrun, Option.bind_some, Runs.run, LiveTable.serve, ha]
      rfl
  pow := h.pow

end Grow

/-- What a packet asks of a table with this mask. -/
def SkBuff.access (skb : SkBuff) (jiffies : UInt64) (info : XtRecentMtinfoV1) (mask : NfInetMask)
    (kmalloc : Option Ptr) : Access :=
  .packet jiffies info.flags (nfInetAddrMask (if info.side = xtRecentDest then skb.daddr else skb.saddr) mask)
    (if skb.forwarded then skb.ttl + 1 else skb.ttl) kmalloc

namespace RecentNet
section Steps
variable {m : RecentParams} {net net' : RecentNet} {info : XtRecentMtinfoV1} {name : Bytes} {t : NamedTable}

theorem mem_of_lookup (h : net.recentTableLookup name = some t) : t ∈ net.tables := Registry.mem_of_lookup h

theorem name_of_lookup (h : net.recentTableLookup name = some t) : t.name = name :=
  Registry.name_of_lookup h

/-- A rule is refused, joins a table, or makes one. -/
theorem recentMtCheck_cases (m : RecentParams) (net : RecentNet) (info : XtRecentMtinfoV1)
    (res : Resources) :
    (∃ ret, ret ≠ 0 ∧ net.recentMtCheck m info res = (net,ret)) ∨
      info.Checked ∧ ((∃ t, net.recentTableLookup info.name = some t ∧ net.recentMtCheck m info res =
        (net.put { t.grow (m.nstampMask info) with refcnt := t.refcnt + 1 },0)) ∨
          ∃ files, net.recentTableLookup info.name = none ∧ net.xtRecent = some files ∧ info.name ∉ files ∧
            net.recentMtCheck m info res =
              (⟨net.tables ++ [⟨info.name,info.mask,1,UInt8.ofNat (m.nstampMask info),{}⟩],
                some (files ++ [info.name])⟩,0)) := by
  unfold recentMtCheck
  split
  · exact .inl ⟨-EINVAL,by decide,rfl⟩
  next hvalid =>
  have hchecked : info.Checked := checked_of_valid (by simpa using hvalid)
  dsimp only
  split
  · next t hlookup =>
    refine .inr ⟨hchecked,.inl ⟨t,hlookup,?_⟩⟩
    rw [refcnt_grow]
  next hlookup =>
  split
  · exact .inl ⟨-ENOMEM,by decide,rfl⟩
  split
  · exact .inl ⟨-EINVAL,by decide,rfl⟩
  split
  · exact .inl ⟨-ENOMEM,by decide,rfl⟩
  · next files hcreate =>
    obtain ⟨files',hfiles,hnew⟩ := Option.bind_eq_some_iff.mp hcreate
    split at hnew
    · next hfree =>
      obtain rfl := Option.some.inj hnew
      simp only [Bool.and_eq_true, decide_eq_true_eq] at hfree
      exact .inr ⟨hchecked,.inr ⟨files',hlookup,hfiles,hfree.2,rfl⟩⟩
    · contradiction

/-- The last rule of a table takes it along. -/
theorem recentMtDestroy_cases (h : net.recentMtDestroy info = some net') :
    ∃ t, net.recentTableLookup info.name = some t ∧
      ((t.refcnt.toNat = 1 ∧ net' = ⟨Registry.remove NamedTable.name net.tables info.name,
        net.xtRecent.map fun files => files.erase info.name⟩) ∨
          (t.refcnt.toNat ≠ 1 ∧ net' = net.put { t with refcnt := t.refcnt - 1 })) := by
  obtain ⟨t,hlookup,rfl⟩ := Option.map_eq_some_iff.mp h
  have hname : t.name = info.name := RecentNet.name_of_lookup hlookup
  have hlast : t.refcnt - 1 = 0 ↔ t.refcnt.toNat = 1 := by
    rw [← UInt32.toNat_inj, UInt32.toNat_sub]
    have hlt := t.refcnt.toNat_lt
    have hone : (1 : UInt32).toNat = 1 := rfl
    have hzero : (0 : UInt32).toNat = 0 := rfl
    omega
  refine ⟨t,hlookup,?_⟩
  dsimp only
  split
  · next h0 =>
    refine .inl ⟨hlast.mp h0,?_⟩
    rw [hname]
  · next h0 => exact .inr ⟨fun h1 => h0 (hlast.mpr h1),rfl⟩

/-- A packet is an access to the table of its rule. -/
theorem recentMt_cases {jiffies : UInt64} {skb : SkBuff} {kmalloc : Option Ptr} {ret : Bool × Bool}
    (h : net.recentMt m jiffies skb info kmalloc = some (net',ret)) :
    ∃ t table answer, net.recentTableLookup info.name = some t ∧
      t.table.access m.toRecentModule (skb.access jiffies info t.mask kmalloc) = some (table,answer) ∧
        net' = net.put { t with table } := by
  obtain ⟨t,hlookup,h⟩ := Option.bind_eq_some_iff.mp h
  obtain ⟨⟨table,r⟩,hmatch,heq⟩ := Option.map_eq_some_iff.mp h
  obtain ⟨rfl,-⟩ := Prod.mk.inj heq
  refine ⟨t,table,.packet r.1 r.2,hlookup,?_,rfl⟩
  unfold LiveTable.access SkBuff.access
  dsimp only
  rw [hmatch, Option.map_some]

/-- A write to a file is one to the table of its name. -/
theorem recentMtProcWrite_cases {jiffies : UInt64} {input stack : Bytes} {kmalloc : Option Ptr} {ret : Int}
    (h : net.recentMtProcWrite m jiffies name input stack kmalloc = some (net',ret)) :
    net' = net ∨ ∃ t table answer, net.recentTableLookup name = some t ∧
      t.table.access m.toRecentModule (.write jiffies input stack kmalloc) = some (table,answer) ∧
        net' = net.put { t with table } := by
  unfold recentMtProcWrite at h
  split at h
  · obtain ⟨t,hlookup,h⟩ := Option.bind_eq_some_iff.mp h
    obtain ⟨⟨table,r⟩,hwrite,heq⟩ := Option.map_eq_some_iff.mp h
    obtain ⟨rfl,-⟩ := Prod.mk.inj heq
    refine .inr ⟨t,table,.write r,hlookup,?_,rfl⟩
    unfold LiveTable.access
    dsimp only
    rw [hwrite, Option.map_some]
  · exact .inl (Prod.mk.inj (Option.some.inj h)).1.symm

end Steps
end RecentNet

/-- The name of the table that an event is about. -/
def RuleEvent.name : RuleEvent → Option Bytes
  | .check info _ => some info.name
  | .destroy info => some info.name
  | .packet _ _ info _ => some info.name
  | .write _ name .. => some name
  | .exit => none

namespace Ruleset

/-- What holds of a net and its rules: each table counts the rules that name it, and has a ring for
them and a file while the net is there. -/
structure Sound (m : RecentParams) (s : Ruleset) : Prop where
  tallied : Registry.Tallied NamedTable.name (fun t => t.refcnt.toNat) s.net.tables
    (s.rules.map XtRecentMtinfoV1.name)
  files : ∀ files ∈ s.net.xtRecent, files.Perm (s.net.tables.map NamedTable.name)
  checked : ∀ info ∈ s.rules, info.Checked
  tables : ∀ t ∈ s.net.tables, t.Sound m
  rings : ∀ info ∈ s.rules, ∀ t, s.net.recentTableLookup info.name = some t →
    m.nstampMask info ≤ t.nstampsMaxMask.toNat

theorem sound_empty (m : RecentParams) : Sound m {} where
  tallied := Registry.tallied_nil
  files files h := by
    obtain rfl := Option.some.inj h
    exact List.Perm.refl _
  checked _ h := absurd h List.not_mem_nil
  tables _ h := absurd h List.not_mem_nil
  rings _ h := absurd h List.not_mem_nil

/-- What an event can make of a net and its rules. -/
inductive Outcome (m : RecentParams) (s : Ruleset) (e : RuleEvent) : Ruleset → Prop
  | same : Outcome m s e s
  | join {info t} (hname : e.name = some info.name) (hchecked : info.Checked)
    (hfew : s.rules.length + 1 < 4294967296) (hlookup : s.net.recentTableLookup info.name = some t) :
    Outcome m s e ⟨s.net.put { t.grow (m.nstampMask info) with refcnt := t.refcnt + 1 },info::s.rules⟩
  | create {info files} (hname : e.name = some info.name) (hchecked : info.Checked)
    (hlookup : s.net.recentTableLookup info.name = none) (hfiles : s.net.xtRecent = some files)
    (hnew : info.name ∉ files) :
    Outcome m s e ⟨⟨s.net.tables ++ [⟨info.name,info.mask,1,UInt8.ofNat (m.nstampMask info),{}⟩],
      some (files ++ [info.name])⟩,info::s.rules⟩
  | leave {info t} (hname : e.name = some info.name) (hmem : info ∈ s.rules)
    (hlookup : s.net.recentTableLookup info.name = some t) (hmore : t.refcnt.toNat ≠ 1) :
    Outcome m s e ⟨s.net.put { t with refcnt := t.refcnt - 1 },s.rules.erase info⟩
  | last {info t} (hname : e.name = some info.name) (hmem : info ∈ s.rules)
    (hlookup : s.net.recentTableLookup info.name = some t) (hlast : t.refcnt.toNat = 1) :
    Outcome m s e ⟨⟨Registry.remove NamedTable.name s.net.tables info.name,
      s.net.xtRecent.map fun files => files.erase info.name⟩,s.rules.erase info⟩
  | access {name t a table answer} (hname : e.name = some name) (hchecked : a.Checked t.nstampsMaxMask)
    (hlookup : s.net.recentTableLookup name = some t)
    (haccess : t.table.access m.toRecentModule a = some (table,answer)) :
    Outcome m s e ⟨s.net.put { t with table },s.rules⟩
  | exit : Outcome m s e ⟨s.net.recentProcNetExit,s.rules⟩

section Outcome
variable {m : RecentParams} {s s' : Ruleset} {e : RuleEvent}

theorem outcome_step (h : s.Sound m) (henabled : s.Enabled e)
    (hs : s.step m e = some s') : Outcome m s e s' := by
  cases e with
  | check info res =>
    have hs' : s' = ⟨(s.net.recentMtCheck m info res).1,
        if (s.net.recentMtCheck m info res).2 = 0 then info::s.rules else s.rules⟩ :=
      (Option.some.inj hs).symm
    rcases RecentNet.recentMtCheck_cases m s.net info res with ⟨ret,hret,heq⟩ | ⟨hinfo,hcases⟩
    · rw [heq, if_neg hret] at hs'
      rw [hs']
      exact .same
    · rcases hcases with ⟨t,hlookup,heq⟩ | ⟨files,hlookup,hfiles,hnew,heq⟩
      · rw [heq, if_pos rfl] at hs'
        rw [hs']
        exact .join rfl hinfo henabled.2 hlookup
      · rw [heq, if_pos rfl] at hs'
        rw [hs']
        exact .create rfl hinfo hlookup hfiles hnew
  | destroy info =>
    obtain ⟨net',hnet,rfl⟩ := Option.map_eq_some_iff.mp hs
    obtain ⟨t,hlookup,⟨hlast,rfl⟩ | ⟨hmore,rfl⟩⟩ := RecentNet.recentMtDestroy_cases hnet
    · exact .last rfl henabled hlookup hlast
    · exact .leave rfl henabled hlookup hmore
  | packet jiffies skb info kmalloc =>
    obtain ⟨⟨net',ret⟩,hnet,rfl⟩ := Option.map_eq_some_iff.mp hs
    obtain ⟨t,table,answer,hlookup,haccess,rfl⟩ := RecentNet.recentMt_cases hnet
    have hinfo : info.Checked := h.checked info henabled
    have hchecked : (skb.access jiffies info t.mask kmalloc).Checked t.nstampsMaxMask :=
      ⟨hinfo.plain,hinfo.oneFlag,(m.hitCount_le hinfo).trans
        (Nat.add_le_add_right (h.rings info henabled t hlookup) 1)⟩
    exact .access rfl hchecked hlookup haccess
  | write jiffies name input stack kmalloc =>
    obtain ⟨⟨net',ret⟩,hnet,rfl⟩ := Option.map_eq_some_iff.mp hs
    rcases RecentNet.recentMtProcWrite_cases hnet with rfl | ⟨t,table,answer,hlookup,haccess,rfl⟩
    · exact .same
    · have hchecked : (Access.write jiffies input stack kmalloc).Checked t.nstampsMaxMask := trivial
      exact .access rfl hchecked hlookup haccess
  | exit =>
    obtain rfl := Option.some.inj hs
    exact .exit

end Outcome

section Sound
variable {m : RecentParams} {s s' : Ruleset} {e : RuleEvent} {info : XtRecentMtinfoV1} {t t' : NamedTable}
  {name : Bytes}

theorem map_erase_perm (hmem : info ∈ s.rules) : ((s.rules.map XtRecentMtinfoV1.name).erase info.name).Perm
    ((s.rules.erase info).map XtRecentMtinfoV1.name) := by
  have hperm := ((List.perm_cons_erase hmem).map XtRecentMtinfoV1.name).erase info.name
  rw [List.map_cons, List.erase_cons_head] at hperm
  exact hperm

/-- A table that is there is written to, and the rules that name it may be others then. -/
theorem Sound.put (h : s.Sound m) (hlookup : s.net.recentTableLookup name = some t) (hname : t'.name = name)
    (hsound : t'.Sound m) (hmask : t.nstampsMaxMask.toNat ≤ t'.nstampsMaxMask.toNat)
    {rules : List XtRecentMtinfoV1} (hrules : ∀ info ∈ rules, info ∈ s.rules ∨
      info.Checked ∧ info.name = name ∧ m.nstampMask info ≤ t'.nstampsMaxMask.toNat)
    (htallied : Registry.Tallied NamedTable.name (fun t => t.refcnt.toNat)
      (Registry.put NamedTable.name name t' s.net.tables) (rules.map XtRecentMtinfoV1.name)) :
    Sound m ⟨s.net.put t',rules⟩ where
  tallied := by
    rw [← hname] at htallied
    exact htallied
  files files hfiles := by
    have hnames : (s.net.put t').tables.map NamedTable.name = s.net.tables.map NamedTable.name :=
      Registry.map_put rfl
    rw [hnames]
    exact h.files files hfiles
  checked info hinfo := (hrules info hinfo).elim (h.checked info) fun hnew => hnew.1
  tables t₁ ht₁ := by
    rcases Registry.mem_put ht₁ with hold | rfl
    · exact h.tables t₁ hold
    · exact hsound
  rings info hinfo t₁ ht₁ := by
    by_cases heq : info.name = name
    · have hmem : name ∈ s.net.tables.map NamedTable.name :=
        List.mem_map.mpr ⟨t,RecentNet.mem_of_lookup hlookup,RecentNet.name_of_lookup hlookup⟩
      have hself := Registry.lookup_put_self hname hmem
      rw [← hname] at hself
      rw [heq, ← hname] at ht₁
      obtain rfl : t₁ = t' := Option.some.inj (ht₁.symm.trans hself)
      rcases hrules info hinfo with hold | ⟨-,-,hring⟩
      · rw [← heq] at hlookup
        exact (h.rings info hold t hlookup).trans hmask
      · exact hring
    · have hother : Registry.lookup NamedTable.name (Registry.put NamedTable.name name t' s.net.tables)
          info.name = s.net.recentTableLookup info.name := Registry.lookup_put_of_ne hname heq
      rcases hrules info hinfo with hold | ⟨-,hsame,-⟩
      · rw [← hname] at hother
        exact h.rings info hold t₁ (hother.symm.trans ht₁)
      · exact absurd hsame heq

/-- A count of rules is at most how many there are. -/
theorem Sound.refcnt_le (h : s.Sound m) (hlookup : s.net.recentTableLookup name = some t) :
    t.refcnt.toNat ≤ s.rules.length := by
  have hcount := h.tallied.count_of_lookup hlookup
  rw [← hcount, ← List.length_map XtRecentMtinfoV1.name]
  exact List.count_le_length

theorem Sound.join (h : s.Sound m) (hinfo : info.Checked) (hfew : s.rules.length + 1 < 4294967296)
    (hlookup : s.net.recentTableLookup info.name = some t) :
    Sound m ⟨s.net.put { t.grow (m.nstampMask info) with refcnt := t.refcnt + 1 },info::s.rules⟩ := by
  have ht : t.Sound m := h.tables t (RecentNet.mem_of_lookup hlookup)
  have hname : t.name = info.name := RecentNet.name_of_lookup hlookup
  have hmask := @nstampsMaxMask_grow t _ (m.nstampMask_lt hinfo)
  have hcount : (t.refcnt + 1).toNat = t.refcnt.toNat + 1 := by
    have hle := h.refcnt_le hlookup
    rw [UInt32.toNat_add]
    exact Nat.mod_eq_of_lt (by simp; omega)
  have hname' : NamedTable.name { t.grow (m.nstampMask info) with refcnt := t.refcnt + 1 } = info.name :=
    (name_grow _).trans hname
  refine h.put hlookup hname' ?_ ((Nat.le_max_left _ _).trans_eq hmask.symm) ?_ ?_
  · exact ⟨(ht.grow hinfo).history,(ht.grow hinfo).pow⟩
  · intro info' hinfo'
    rcases List.mem_cons.mp hinfo' with rfl | hold
    · exact .inr ⟨hinfo,rfl,(Nat.le_max_right _ _).trans_eq hmask.symm⟩
    · exact .inl hold
  · exact h.tallied.join hlookup hname' hcount

theorem Sound.create (h : s.Sound m) (hinfo : info.Checked) {files : List Bytes}
    (hlookup : s.net.recentTableLookup info.name = none) (hfiles : s.net.xtRecent = some files) :
    Sound m ⟨⟨s.net.tables ++ [⟨info.name,info.mask,1,UInt8.ofNat (m.nstampMask info),{}⟩],
      some (files ++ [info.name])⟩,info::s.rules⟩ where
  tallied := h.tallied.create hlookup rfl
  files files' hfiles' := by
    obtain rfl := Option.some.inj hfiles'
    rw [List.map_append]
    exact (h.files files hfiles).append_right _
  checked info' hinfo' := by
    rcases List.mem_cons.mp hinfo' with rfl | hold
    · exact hinfo
    · exact h.checked info' hold
  tables t ht := by
    rcases List.mem_append.mp ht with hold | hnew
    · exact h.tables t hold
    · rw [List.mem_singleton.mp hnew]
      exact sound_new info.name info.mask hinfo
  rings info' hinfo' t ht := by
    have hbyte : (UInt8.ofNat (m.nstampMask info)).toNat = m.nstampMask info :=
      Nat.mod_eq_of_lt (m.nstampMask_lt hinfo)
    have happend : (s.net.recentTableLookup info'.name).or (if info.name == info'.name then
        some ⟨info.name,info.mask,1,UInt8.ofNat (m.nstampMask info),{}⟩ else none) = some t :=
      Registry.lookup_append_singleton.symm.trans ht
    rcases List.mem_cons.mp hinfo' with rfl | hold
    · rw [hlookup, Option.none_or, if_pos (beq_self_eq_true _)] at happend
      obtain rfl := Option.some.inj happend
      exact hbyte.ge
    · obtain ⟨t',ht'⟩ := h.tallied.exists_lookup (List.mem_map_of_mem hold)
      have hfound : s.net.recentTableLookup info'.name = some t' := ht'
      rw [hfound, Option.some_or] at happend
      obtain rfl := Option.some.inj happend
      exact h.rings info' hold t' hfound

/-- A rule goes and leaves its table to others. -/
theorem Sound.leave (h : s.Sound m) (hmem : info ∈ s.rules)
    (hlookup : s.net.recentTableLookup info.name = some t) (hmore : t.refcnt.toNat ≠ 1) :
    Sound m ⟨s.net.put { t with refcnt := t.refcnt - 1 },s.rules.erase info⟩ := by
  have ht : t.Sound m := h.tables t (RecentNet.mem_of_lookup hlookup)
  have hsame : t.name = info.name := RecentNet.name_of_lookup hlookup
  have hname : NamedTable.name { t with refcnt := t.refcnt - 1 } = info.name := hsame
  have hpos : 0 < t.refcnt.toNat := h.tallied.pos t (RecentNet.mem_of_lookup hlookup)
  have hcount : (t.refcnt - 1).toNat = t.refcnt.toNat - 1 := by
    have hlt := t.refcnt.toNat_lt
    rw [UInt32.toNat_sub]
    simp only [UInt32.toNat_one]
    omega
  refine h.put hlookup hname ⟨ht.history,ht.pow⟩ (Nat.le_refl _) ?_ ?_
  · exact fun info' hinfo' => .inl (List.mem_of_mem_erase hinfo')
  · exact (h.tallied.leave hlookup hname hcount (by omega)).perm (map_erase_perm hmem)

/-- The last rule of a table takes its file along. -/
theorem Sound.last (h : s.Sound m) (hmem : info ∈ s.rules)
    (hlookup : s.net.recentTableLookup info.name = some t) (hlast : t.refcnt.toNat = 1) :
    Sound m ⟨⟨Registry.remove NamedTable.name s.net.tables info.name,
      s.net.xtRecent.map fun files => files.erase info.name⟩,s.rules.erase info⟩ where
  tallied := (h.tallied.last hlookup hlast).perm (map_erase_perm hmem)
  files files hfiles := by
    obtain ⟨files',hfiles',rfl⟩ := Option.map_eq_some_iff.mp hfiles
    rw [Registry.map_remove]
    exact (h.files files' hfiles').erase _
  checked info' hinfo' := h.checked info' (List.mem_of_mem_erase hinfo')
  tables t' ht' := h.tables t' (List.eraseP_subset ht')
  rings info' hinfo' t' ht' := by
    by_cases heq : info'.name = info.name
    · rw [heq] at ht'
      have hgone : Registry.lookup NamedTable.name (Registry.remove NamedTable.name s.net.tables info.name)
          info.name = none := Registry.lookup_remove_self h.tallied.nodup
      exact absurd (hgone.symm.trans ht') (Option.some_ne_none t').symm
    · have hother : Registry.lookup NamedTable.name (Registry.remove NamedTable.name s.net.tables info.name)
          info'.name = s.net.recentTableLookup info'.name := Registry.lookup_remove_of_ne heq
      exact h.rings info' (List.mem_of_mem_erase hinfo') t' (hother.symm.trans ht')

theorem Sound.step (h : s.Sound m) (henabled : s.Enabled e) (hs : s.step m e = some s') : s'.Sound m := by
  cases outcome_step h henabled hs with
  | same => exact h
  | join _ hinfo hfew hlookup => exact h.join hinfo hfew hlookup
  | create _ hinfo hlookup hfiles _ => exact h.create hinfo hlookup hfiles
  | leave _ hmem hlookup hmore => exact h.leave hmem hlookup hmore
  | last _ hmem hlookup hlast => exact h.last hmem hlookup hlast
  | @access name t a table answer _ hchecked hlookup haccess =>
    have hsame : t.name = name := RecentNet.name_of_lookup hlookup
    have hname : NamedTable.name { t with table } = name := hsame
    have ht : t.Sound m := h.tables t (RecentNet.mem_of_lookup hlookup)
    exact h.put hlookup hname (ht.access hchecked haccess) (Nat.le_refl _) (fun _ hinfo => .inl hinfo)
      (h.tallied.change hlookup hname rfl)
  | exit =>
    exact ⟨h.tallied,fun files hfiles => absurd hfiles.symm (Option.some_ne_none files),h.checked,h.tables,
      h.rings⟩

end Sound
end Ruleset
end Kernel
end Ssyncd
