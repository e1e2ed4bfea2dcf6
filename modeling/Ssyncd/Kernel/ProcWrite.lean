import Ssyncd.Kernel.Strings
import Ssyncd.Kernel.LiveTable

/-! The two ways in which a table is changed: by the packets that a rule matches, and by the
writes to its proc file. What a write copies is followed by bytes that were on the stack. -/
namespace Ssyncd
namespace Kernel

/-- What a rule asks for. One of the first four is set. -/
structure RecentMtinfo where
  set : Bool := false
  remove : Bool := false
  check : Bool := false
  update : Bool := false
  ttl : Bool := false
  reap : Bool := false
  seconds : UInt32 := 0
  hitCount : UInt32 := 0
  invert : Bool := false

/-- The module's parameters, and the conversion of IPv6 addresses. It does not load for tables
without room. -/
structure RecentModule where
  ipListTot : ℕ
  ipListTot_pos : 0 < ipListTot
  hz : UInt32
  in6Pton : Bytes → Option UInt8 → Option NfInetAddr

def EINVAL : Int := 22

variable {nstampsMaxMask : UInt8}

/-- The loop of `recent_mt` over the stamps, which stops at the hit that is enough. -/
def hitLoop (info : RecentMtinfo) (time : UInt64) : List UInt64 → ℕ → Bool
  | [], _ => false
  | stamp::stamps, hits =>
    if info.seconds ≠ 0 && timeAfter time stamp then hitLoop info time stamps hits
    else if info.hitCount = 0 || info.hitCount.toNat ≤ hits+1 then true
    else hitLoop info time stamps (hits+1)

/-- Enough of the stamps are recent, or one of them is where no number is given. -/
def RecentEntry.hit (e : RecentEntry nstampsMaxMask) (info : RecentMtinfo) (time : UInt64) : Bool :=
  hitLoop info time e.visible 0

/-- The loop counts what is in the window. -/
theorem hitLoop_eq (info : RecentMtinfo) (time : UInt64) (stamps : List UInt64) (hits : ℕ)
    (hfew : hits = 0 ∨ hits < info.hitCount.toNat) :
    hitLoop info time stamps hits = decide (max 1 info.hitCount.toNat ≤
      hits + stamps.countP fun stamp => !(info.seconds ≠ 0 && timeAfter time stamp)) := by
  induction stamps generalizing hits with
  | nil =>
    rw [hitLoop, List.countP_nil]
    symm
    rw [decide_eq_false_iff_not]
    omega
  | cons stamp stamps ih =>
    rw [hitLoop, List.countP_cons]
    split
    · next hout =>
      rw [ih hits hfew, hout]
      rfl
    · next hin =>
      have hcount : (!(decide (info.seconds ≠ 0) && timeAfter time stamp)) = true := by
        rw [Bool.not_eq_true'] 
        exact Bool.eq_false_iff.mpr hin
      rw [hcount, if_pos rfl]
      have hzero : info.hitCount = 0 ↔ info.hitCount.toNat = 0 := by
        rw [← UInt32.toNat_inj]
        rfl
      split
      · next henough =>
        symm
        rw [Bool.or_eq_true, decide_eq_true_eq, decide_eq_true_eq, hzero] at henough
        rw [decide_eq_true_eq]
        omega
      · next hmore =>
        rw [Bool.or_eq_true, decide_eq_true_eq, decide_eq_true_eq, hzero] at hmore
        rw [ih (hits+1) (by omega)]
        congr 1
        rw [Nat.add_assoc, Nat.add_comm 1]

theorem RecentEntry.hit_eq (e : RecentEntry nstampsMaxMask) (info : RecentMtinfo) (time : UInt64) :
    e.hit info time = decide (max 1 info.hitCount.toNat ≤
      e.visible.countP fun stamp => !(info.seconds ≠ 0 && timeAfter time stamp)) := by
  rw [hit, hitLoop_eq info time e.visible 0 (.inl rfl), Nat.zero_add]

namespace LiveTable

def setTtl (t : LiveTable nstampsMaxMask) (p : Ptr) (ttl : UInt8) :
    Option (LiveTable nstampsMaxMask) :=
  (t.heap p).map fun e => { t with heap := Function.update t.heap p (some { e with ttl }) }

/-- What a rule makes of an entry, and whether the packet matches so far. -/
def matchEntry (t : LiveTable nstampsMaxMask) (hz : UInt32) (jiffies : UInt64) (info : RecentMtinfo)
    (p : Ptr) : Option (LiveTable nstampsMaxMask × Bool) :=
  if info.set then some (t,!info.invert)
  else if info.remove then some (t.recentEntryRemove p,!info.invert)
  else if info.check || info.update then
    (t.heap p).bind fun e =>
      let time := jiffies - (info.seconds * hz).toUInt64
      let ret := if e.hit info time then !info.invert else info.invert
      (if info.reap then t.recentEntryReap time else some t).map fun t => (t,ret)
  else some (t,info.invert)

/-- The table, and whether the packet matches and whether it is dropped. Address and ttl are
those of the packet, after the table's mask and before forwarding. -/
def recentMt (t : LiveTable nstampsMaxMask) (ipListTot : ℕ) (hz : UInt32) (jiffies : UInt64)
    (info : RecentMtinfo) (addrMask : NfInetAddr) (ttl : UInt8) (kmalloc : Option Ptr) :
    Option (LiveTable nstampsMaxMask × Bool × Bool) :=
  match t.recentEntryLookup addrMask (if info.ttl then ttl else 0) with
  | none =>
    if info.set then
      (t.recentEntryInit ipListTot addrMask ttl jiffies kmalloc).map fun (t,e) =>
        (t,!info.invert,e.isNone)
    else some (t,info.invert,false)
  | some p =>
    (t.matchEntry hz jiffies info p).bind fun (t,ret) =>
      -- the entry may have been reaped a moment ago
      if info.set || (info.update && ret) then
        ((t.recentEntryUpdate p jiffies).bind fun t => t.setTtl p ttl).map fun t => (t,ret,false)
      else some (t,ret,false)

/-- Every token that is a number is a stamp, for an entry that may be null. -/
def updateTokens (t : LiveTable nstampsMaxMask) (e : Option Ptr) (tokens : List Bytes) :
    Option (LiveTable nstampsMaxMask) :=
  tokens.foldlM (fun t token =>
    match kstrtoul token with
    | some nstamp => e.bind fun p => t.recentEntryUpdate p nstamp
    | none => some t) t

/-- The rest of a line for an address that the table does not have. -/
def insertLine (t : LiveTable nstampsMaxMask) (ipListTot : ℕ) (addr : NfInetAddr)
    (c : Option Bytes) (size : ℕ) (kmalloc : Option Ptr) :
    Option (LiveTable nstampsMaxMask × Int) := do
  let (token,c) := strsep 59 c
  match token.elim (some 0) kstrtou8 with
  | none => some (t,-EINVAL)
  | some ttl =>
    let (token,c) := strsep 59 c
    let (t,e) ←
      match token.bind kstrtoul with
      | some nstamp => t.recentEntryInit ipListTot addr ttl nstamp kmalloc
      | none => some (t,none)
    let t ← t.updateTokens e (strsepAll 59 c)
    some (t,size)

/-- A line with stamps. A colon is looked for behind the address. -/
def writeLine (t : LiveTable nstampsMaxMask) (in6Pton : Bytes → Option UInt8 → Option NfInetAddr)
    (ipListTot : ℕ) (c : Bytes) (size : ℕ) (kmalloc : Option Ptr) :
    Option (LiveTable nstampsMaxMask × Int) := do
  let (ipaddr,c) := strsep 59 (some c)
  let colon ← strnchr c (size-1) 58
  match ipaddr.bind fun ipaddr => if colon then in6Pton ipaddr none else in4Pton ipaddr none with
  | none => some (t,-EINVAL)
  | some addr =>
    match t.recentEntryLookup addr 0 with
    | none => t.insertLine ipListTot addr c size kmalloc
    | some p =>
      let t ← t.updateTokens (some p) (strsepAll 59 (strsep 59 c).2)
      some (t,size)

/-- An address alone, which is added or removed. -/
def writeAddress (t : LiveTable nstampsMaxMask)
    (in6Pton : Bytes → Option UInt8 → Option NfInetAddr) (ipListTot : ℕ) (jiffies : UInt64)
    (add : Bool) (c : Bytes) (size : ℕ) (kmalloc : Option Ptr) :
    Option (LiveTable nstampsMaxMask × Int) := do
  let c := c.take (size-1)
  match if c.contains 58 then in6Pton c (some 10) else in4Pton c (some 10) with
  | none => some (t,-EINVAL)
  | some addr =>
    match t.recentEntryLookup addr 0, add with
    | none, true =>
      let (t,_) ← t.recentEntryInit ipListTot addr 0 jiffies kmalloc
      some (t,size)
    | none, false => some (t,size)
    | some p, true =>
      let t ← t.recentEntryUpdate p jiffies
      some (t,size)
    | some p, false => some (t.recentEntryRemove p,size)

/-- One write at the start of the file, with the bytes behind the buffer that it is copied to. -/
def recentMtProcWrite (t : LiveTable nstampsMaxMask)
    (in6Pton : Bytes → Option UInt8 → Option NfInetAddr) (ipListTot : ℕ) (jiffies : UInt64)
    (input stack : Bytes) (kmalloc : Option Ptr) : Option (LiveTable nstampsMaxMask × Int) :=
  let size := input.length
  if 32 + 5 + 12*32 < size then some (t,-EINVAL)
  else
    match input with
    | [] => some (t,0)
    | 47::_ => some (t.recentTableFlush,size)
    | 45::rest => t.writeAddress in6Pton ipListTot jiffies false (cString (rest ++ stack)) size kmalloc
    | 43::rest => t.writeAddress in6Pton ipListTot jiffies true (cString (rest ++ stack)) size kmalloc
    | 42::rest => t.writeLine in6Pton ipListTot (cString (rest ++ stack)) size kmalloc
    | _ => some (t,-EINVAL)

end LiveTable
end Kernel
end Ssyncd
