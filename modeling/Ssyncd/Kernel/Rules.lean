import Ssyncd.Kernel.TableFaults
import Ssyncd.Library.Registry

/-! The rules of a net and the tables that they name. A rule is checked when it is added; the first
one of a name makes the table and its file, and the last one that goes takes them with it. -/
namespace Ssyncd
namespace Kernel

def ENOENT : Int := 2
def ENOMEM : Int := 12

/-- The bytes of a mask, two in a word. -/
structure NfInetMask where
  (s₀ s₁ s₂ s₃ s₄ s₅ s₆ s₇ : UInt16)
  deriving DecidableEq

/-- The mask of the rules that cannot give one. -/
def NfInetMask.all : NfInetMask := ⟨65535,65535,65535,65535,65535,65535,65535,65535⟩

def highByte (s : UInt16) : UInt8 := (s >>> 8).toUInt8

def nfInetAddrMask : NfInetAddr → NfInetMask → NfInetAddr
  | .ip a b c d, mask =>
    .ip (a &&& highByte mask.s₀) (b &&& mask.s₀.toUInt8) (c &&& highByte mask.s₁) (d &&& mask.s₁.toUInt8)
  | .ip6 s₀ s₁ s₂ s₃ s₄ s₅ s₆ s₇, mask =>
    .ip6 (s₀ &&& mask.s₀) (s₁ &&& mask.s₁) (s₂ &&& mask.s₂) (s₃ &&& mask.s₃) (s₄ &&& mask.s₄)
      (s₅ &&& mask.s₅) (s₆ &&& mask.s₆) (s₇ &&& mask.s₇)

def xtRecentCheck : UInt8 := 1
def xtRecentSet : UInt8 := 2
def xtRecentUpdate : UInt8 := 4
def xtRecentRemove : UInt8 := 8
def xtRecentTtl : UInt8 := 16
def xtRecentReap : UInt8 := 32
def xtRecentModifiers : UInt8 := xtRecentTtl ||| xtRecentReap
def xtRecentValidFlags : UInt8 :=
  xtRecentCheck ||| xtRecentSet ||| xtRecentUpdate ||| xtRecentRemove ||| xtRecentTtl ||| xtRecentReap
def xtRecentDest : UInt8 := 1
def xtRecentNameLen : ℕ := 200
def xtRecentMaxNstamps : ℕ := 256

/-- How many bits of a byte are set. -/
def hweight8 (w : UInt8) : ℕ := (List.range 8).countP fun i => w.toNat.testBit i

/-- A rule as user space gives it, with the whole field of the name. -/
structure XtRecentMtinfoV1 where
  seconds : UInt32
  hitCount : UInt32
  checkSet : UInt8
  invert : Bool
  nameField : Bytes
  side : UInt8
  mask : NfInetMask
  nameField_length : nameField.length = xtRecentNameLen
  deriving DecidableEq

namespace XtRecentMtinfoV1

def has (info : XtRecentMtinfoV1) (flags : UInt8) : Bool := info.checkSet &&& flags ≠ 0

def name (info : XtRecentMtinfoV1) : Bytes := cString info.nameField

/-- What the flags ask for. -/
def flags (info : XtRecentMtinfoV1) : RecentMtinfo where
  set := info.has xtRecentSet
  remove := info.has xtRecentRemove
  check := info.has xtRecentCheck
  update := info.has xtRecentUpdate
  ttl := info.has xtRecentTtl
  reap := info.has xtRecentReap
  seconds := info.seconds
  hitCount := info.hitCount
  invert := info.invert

/-- What a rule has to be, whatever tables there are. -/
def valid (info : XtRecentMtinfoV1) : Bool :=
  if info.has (~~~xtRecentValidFlags) then false
  else if hweight8 (info.checkSet &&& (xtRecentSet ||| xtRecentRemove ||| xtRecentCheck |||
    xtRecentUpdate)) ≠ 1 then false
  else if info.has (xtRecentSet ||| xtRecentRemove) && (info.seconds ≠ 0 || info.hitCount ≠ 0 ||
    info.has xtRecentModifiers) then false
  else if info.has xtRecentReap && info.seconds = 0 then false
  else if xtRecentMaxNstamps ≤ info.hitCount.toNat then false
  else info.name ≠ [] && info.name.length ≠ xtRecentNameLen

end XtRecentMtinfoV1

/-- The parameters of the module. It does not load with a ring that is too large. -/
structure RecentParams extends RecentModule where
  ipPktListTot : ℕ
  ipPktListTot_lt : ipPktListTot < xtRecentMaxNstamps

/-- The mask of the rings that a rule needs. -/
def RecentParams.nstampMask (m : RecentParams) (info : XtRecentMtinfoV1) : ℕ :=
  Kernel.nstampMask m.ipPktListTot info.hitCount.toNat

/-- A table as the rules find it. -/
structure NamedTable where
  name : Bytes
  mask : NfInetMask
  refcnt : UInt32
  nstampsMaxMask : UInt8
  table : LiveTable nstampsMaxMask

/-- Larger rings for a table that is flushed, so that no block has a ring of the old size. -/
def NamedTable.raise (t : NamedTable) (nstampsMaxMask : UInt8) : NamedTable :=
  let table := t.table.recentTableFlush
  { t with
    nstampsMaxMask
    table := { iphash := table.iphash, lruList := table.lruList, entries := table.entries } }

/-- Rings that are large enough for one more rule. -/
def NamedTable.grow (t : NamedTable) (nstampMask : ℕ) : NamedTable :=
  if t.nstampsMaxMask.toNat < nstampMask then t.raise (UInt8.ofNat nstampMask) else t

/-- The tables of a net, and the files in its directory until the net goes. -/
structure RecentNet where
  tables : List NamedTable := []
  xtRecent : Option (List Bytes) := some []

/-- What the kernel gives to a new table. -/
structure Resources where
  kzalloc : Bool := true
  ownerValid : Bool := true
  procCreate : Bool := true

/-- A packet, and whether it is forwarded. -/
structure SkBuff where
  saddr : NfInetAddr
  daddr : NfInetAddr
  ttl : UInt8
  forwarded : Bool
  family : saddr.IsIpv4 ↔ daddr.IsIpv4

namespace RecentNet

def recentTableLookup (net : RecentNet) (name : Bytes) : Option NamedTable :=
  Registry.lookup NamedTable.name net.tables name

/-- A table is written to. -/
def put (net : RecentNet) (t : NamedTable) : RecentNet :=
  { net with tables := Registry.put NamedTable.name t.name t net.tables }

/-- A file of this name, unless there is one. -/
def procCreateData (net : RecentNet) (name : Bytes) (procCreate : Bool) : Option (List Bytes) :=
  net.xtRecent.bind fun files => if procCreate && name ∉ files then some (files ++ [name]) else none

def recentMtCheck (m : RecentParams) (net : RecentNet) (info : XtRecentMtinfoV1) (res : Resources) :
    RecentNet × Int :=
  if !info.valid then (net,-EINVAL)
  else
    let nstampMask := m.nstampMask info
    match net.recentTableLookup info.name with
    | some t =>
      let t := t.grow nstampMask
      (net.put { t with refcnt := t.refcnt + 1 },0)
    | none =>
      if !res.kzalloc then (net,-ENOMEM)
      else if !res.ownerValid then (net,-EINVAL)
      else
        match net.procCreateData info.name res.procCreate with
        | none => (net,-ENOMEM)
        | some files =>
          let t : NamedTable := ⟨info.name,info.mask,1,UInt8.ofNat nstampMask,{}⟩
          ({ tables := net.tables ++ [t], xtRecent := some files },0)

/-- The table of the rule has to be there. -/
def recentMtDestroy (net : RecentNet) (info : XtRecentMtinfoV1) : Option RecentNet :=
  (net.recentTableLookup info.name).map fun t =>
    let t := { t with refcnt := t.refcnt - 1 }
    if t.refcnt = 0 then
      { tables := Registry.remove NamedTable.name net.tables t.name
        xtRecent := net.xtRecent.map fun files => files.erase t.name }
    else net.put t

/-- Whether a packet matches a rule, and whether it is dropped. -/
def recentMt (m : RecentParams) (net : RecentNet) (jiffies : UInt64) (skb : SkBuff)
    (info : XtRecentMtinfoV1) (kmalloc : Option Ptr) : Option (RecentNet × Bool × Bool) :=
  let addr := if info.side = xtRecentDest then skb.daddr else skb.saddr
  let ttl := if skb.forwarded then skb.ttl + 1 else skb.ttl
  (net.recentTableLookup info.name).bind fun t =>
    (t.table.recentMt m.ipListTot m.hz jiffies info.flags (nfInetAddrMask addr t.mask) ttl kmalloc).map
      fun (table,ret,hotdrop) => (net.put { t with table },ret,hotdrop)

def hasFile (net : RecentNet) (name : Bytes) : Bool := net.xtRecent.any fun files => name ∈ files

/-- A write to the file of a table, if there is one. -/
def recentMtProcWrite (m : RecentParams) (net : RecentNet) (jiffies : UInt64) (name input stack : Bytes)
    (kmalloc : Option Ptr) : Option (RecentNet × Int) :=
  if net.hasFile name then
    (net.recentTableLookup name).bind fun t =>
      (t.table.recentMtProcWrite m.in6Pton m.ipListTot jiffies input stack kmalloc).map
        fun (table,ret) => (net.put { t with table },ret)
  else some (net,-ENOENT)

/-- The files that are left in the directory when it is removed. -/
def leftFiles (net : RecentNet) : List Bytes :=
  net.tables.foldl (fun files t => files.erase t.name) (net.xtRecent.getD [])

/-- The files go before the rules do. -/
def recentProcNetExit (net : RecentNet) : RecentNet := { net with xtRecent := none }

end RecentNet

/-- What happens to a net. -/
inductive RuleEvent
  | check (info : XtRecentMtinfoV1) (res : Resources)
  | destroy (info : XtRecentMtinfoV1)
  | packet (jiffies : UInt64) (skb : SkBuff) (info : XtRecentMtinfoV1) (kmalloc : Option Ptr)
  | write (jiffies : UInt64) (name input stack : Bytes) (kmalloc : Option Ptr)
  | exit

/-- A net and the rules that are in use. -/
structure Ruleset where
  net : RecentNet := {}
  rules : List XtRecentMtinfoV1 := []

namespace Ruleset

def step (m : RecentParams) (s : Ruleset) : RuleEvent → Option Ruleset
  | .check info res =>
    let (net,ret) := s.net.recentMtCheck m info res
    some ⟨net,if ret = 0 then info::s.rules else s.rules⟩
  | .destroy info => (s.net.recentMtDestroy info).map fun net => ⟨net,s.rules.erase info⟩
  | .packet jiffies skb info kmalloc =>
    (s.net.recentMt m jiffies skb info kmalloc).map fun (net,_) => { s with net }
  | .write jiffies name input stack kmalloc =>
    (s.net.recentMtProcWrite m jiffies name input stack kmalloc).map fun (net,_) => { s with net }
  | .exit => some { s with net := s.net.recentProcNetExit }

/-- Packets meet the rules in use, and each of them is destroyed once. No rule is added to a net that
goes, and a count of rules fits in 32 bits. -/
def Enabled (s : Ruleset) : RuleEvent → Prop
  | .check .. => s.net.xtRecent ≠ none ∧ s.rules.length + 1 < 4294967296
  | .destroy info => info ∈ s.rules
  | .packet _ _ info _ => info ∈ s.rules
  | .write .. => True
  | .exit => s.net.xtRecent ≠ none

end Ruleset

section Valid
variable {info : XtRecentMtinfoV1}

/-- One of the four is asked for. -/
theorem oneFlag_of_hweight8 (h : hweight8 (info.checkSet &&& (xtRecentSet ||| xtRecentRemove |||
    xtRecentCheck ||| xtRecentUpdate)) = 1) : info.flags.OneFlag := by
  have hall : ∀ b : UInt8, hweight8 (b &&& (xtRecentSet ||| xtRecentRemove ||| xtRecentCheck |||
      xtRecentUpdate)) = 1 → [decide (b &&& xtRecentSet ≠ 0),decide (b &&& xtRecentRemove ≠ 0),
        decide (b &&& xtRecentCheck ≠ 0),decide (b &&& xtRecentUpdate ≠ 0)].count true = 1 := by
    rintro ⟨b⟩
    revert b
    decide +kernel
  exact hall info.checkSet h

/-- A rule that sets or removes has nothing else. -/
theorem plain_of_unmodified (h : (info.has (xtRecentSet ||| xtRecentRemove) && (info.seconds ≠ 0 ||
    info.hitCount ≠ 0 || info.has xtRecentModifiers)) = false) : info.flags.Plain := by
  have hall : ∀ b : UInt8, b &&& xtRecentSet ≠ 0 → b &&& xtRecentTtl ≠ 0 →
      b &&& (xtRecentSet ||| xtRecentRemove) ≠ 0 ∧ b &&& xtRecentModifiers ≠ 0 := by
    rintro ⟨b⟩
    revert b
    decide +kernel
  intro hset
  by_contra httl
  obtain ⟨hor,hmodified⟩ := hall info.checkSet (decide_eq_true_eq.mp hset)
    (decide_eq_true_eq.mp (Bool.eq_true_of_not_eq_false httl))
  simp [XtRecentMtinfoV1.has, hor, hmodified] at h

/-- What the check of a rule is for. -/
structure XtRecentMtinfoV1.Checked (info : XtRecentMtinfoV1) : Prop where
  oneFlag : info.flags.OneFlag
  plain : info.flags.Plain
  window : info.flags.reap = true → info.seconds ≠ 0
  hitCount : info.hitCount.toNat < xtRecentMaxNstamps
  named : info.name ≠ []
  fits : info.name.length < xtRecentNameLen

theorem checked_of_valid (h : info.valid = true) : info.Checked := by
  unfold XtRecentMtinfoV1.valid at h
  split at h
  · contradiction
  split at h
  · contradiction
  next hweight =>
  split at h
  · contradiction
  next hmodified =>
  split at h
  · contradiction
  next hwindow =>
  split at h
  · contradiction
  next hhits =>
  simp only [Bool.and_eq_true, decide_eq_true_eq] at h hwindow
  have hlength : info.name.length ≤ xtRecentNameLen :=
    (List.takeWhile_prefix _).length_le.trans_eq info.nameField_length
  exact ⟨oneFlag_of_hweight8 (by simpa using hweight),plain_of_unmodified (by simpa using hmodified),
    fun hreap hzero => hwindow ⟨hreap,hzero⟩,by omega,h.1,by omega⟩

end Valid
end Kernel
end Ssyncd
