import Ssyncd.Kernel.AddressTexts
import Ssyncd.Kernel.LineParts
import Ssyncd.Library.LruCache

/-! What a table is for: a cache of the addresses that were used last. Blocks, chains and the links
between them are gone here, and what is kept for an address is left open: an entry with its ring of
stamps is one such value. The cache of a table is what its list by last use leads to. -/
namespace Ssyncd
namespace Kernel

variable {nstampsMaxMask : UInt8}

/-- What a table makes of the value of an address, and what it asks of it. -/
class Visited (V : Type) where
  init : NfInetAddr → UInt8 → UInt64 → V
  update : V → UInt64 → V
  ttl : V → UInt8
  setTtl : V → UInt8 → V
  hit : V → RecentMtinfo → UInt32 → UInt64 → Bool
  mostRecent : V → Option UInt64

/-- The time from which on a rule counts. -/
def windowStart (info : RecentMtinfo) (hz : UInt32) (jiffies : UInt64) : UInt64 :=
  jiffies - (info.seconds * hz).toUInt64

instance : Visited (RecentEntry nstampsMaxMask) where
  init := recentEntryInit nstampsMaxMask
  update := recentEntryUpdate
  ttl := RecentEntry.ttl
  setTtl e ttl := { e with ttl }
  hit e info hz jiffies := e.hit info (windowStart info hz jiffies)
  mostRecent := RecentEntry.mostRecent

@[simp] theorem ttl_entry (e : RecentEntry nstampsMaxMask) : Visited.ttl e = e.ttl := rfl

@[simp] theorem mostRecent_entry (e : RecentEntry nstampsMaxMask) :
    Visited.mostRecent e = e.mostRecent := rfl

def Visited.updateAll {V : Type} [Visited V] (v : V) (nstamps : List UInt64) : V :=
  nstamps.foldl Visited.update v

abbrev RecentCache (V : Type) := Lru.Cache NfInetAddr V

namespace RecentCache
variable {V : Type} [Visited V]

/-- The value of an address, if its ttl fits. -/
def lookup (c : RecentCache V) (addr : NfInetAddr) (ttl : UInt8) : Option V :=
  (c.get addr).filter fun v => ttl = Visited.ttl v || ttl = 0 || Visited.ttl v = 0

/-- A new value takes the room of the oldest one, and that also where there is no memory for it. -/
def insert (c : RecentCache V) (ipListTot : ℕ) (addr : NfInetAddr) (v : V) (allocated : Bool) :
    RecentCache V :=
  if allocated then (c.evict ipListTot).use addr v else c.evict ipListTot

/-- The oldest value goes if it was used last before this time. -/
def reap (c : RecentCache V) (time : UInt64) : RecentCache V :=
  if (c.items.head?.bind fun item => Visited.mostRecent item.2).any (timeAfter time) then c.dropOldest
  else c

/-- Whether a packet matches a rule that finds this value for it. -/
def verdict (v : V) (hz : UInt32) (jiffies : UInt64) (info : RecentMtinfo) : Bool :=
  if info.set || info.remove then !info.invert
  else if info.check || info.update then Visited.hit v info hz jiffies != info.invert
  else info.invert

/-- What a rule makes of the cache before it writes to the value. -/
def discard (c : RecentCache V) (hz : UInt32) (jiffies : UInt64) (info : RecentMtinfo)
    (addr : NfInetAddr) : RecentCache V :=
  if info.set then c
  else if info.remove then c.erase addr
  else if (info.check || info.update) && info.reap then c.reap (windowStart info hz jiffies)
  else c

def recentMt (c : RecentCache V) (ipListTot : ℕ) (hz : UInt32) (jiffies : UInt64)
    (info : RecentMtinfo) (addr : NfInetAddr) (ttl : UInt8) (allocated : Bool) :
    RecentCache V × Bool × Bool :=
  match c.lookup addr (if info.ttl then ttl else 0) with
  | none =>
    if info.set then
      (c.insert ipListTot addr (Visited.init addr ttl jiffies) allocated,!info.invert,!allocated)
    else (c,info.invert,false)
  | some v =>
    let ret := verdict v hz jiffies info
    let c := c.discard hz jiffies info addr
    if info.set || (info.update && ret) then
      (c.use addr (Visited.setTtl (Visited.update v jiffies) ttl),ret,false)
    else (c,ret,false)

/-- A line with stamps; without any of them nothing is used. -/
def storeLine (c : RecentCache V) (ipListTot : ℕ) (parts : LineParts) (size : ℕ) (allocated : Bool) :
    RecentCache V × Int :=
  match parts.addr with
  | none => (c,-EINVAL)
  | some addr =>
    match c.get addr with
    | some v => (if parts.stamps = [] then c else c.use addr (Visited.updateAll v parts.stamps),size)
    | none =>
      match parts.ttl, parts.first with
      | none, _ => (c,-EINVAL)
      | some _, none => (c,size)
      | some ttl, some nstamp =>
        (c.insert ipListTot addr (Visited.updateAll (Visited.init addr ttl nstamp) parts.later) allocated,
          size)

def writeAddress (c : RecentCache V) (in6Pton : Bytes → Option UInt8 → Option NfInetAddr)
    (ipListTot : ℕ) (jiffies : UInt64) (add : Bool) (line : Bytes) (size : ℕ) (allocated : Bool) :
    RecentCache V × Int :=
  match writtenAddr in6Pton (line.take (size-1)) with
  | none => (c,-EINVAL)
  | some addr =>
    match c.get addr, add with
    | none, true => (c.insert ipListTot addr (Visited.init addr 0 jiffies) allocated,size)
    | none, false => (c,size)
    | some v, true => (c.use addr (Visited.update v jiffies),size)
    | some _, false => (c.erase addr,size)

/-- A line whose rest is null when a colon is looked for has no result in the module; here it is
nothing. -/
def writeLine (c : RecentCache V) (in6Pton : Bytes → Option UInt8 → Option NfInetAddr)
    (ipListTot : ℕ) (line : Bytes) (size : ℕ) (allocated : Bool) : RecentCache V × Int :=
  match lineParts in6Pton line size with
  | some parts => c.storeLine ipListTot parts size allocated
  | none => (c,-EINVAL)

def recentMtProcWrite (c : RecentCache V) (in6Pton : Bytes → Option UInt8 → Option NfInetAddr)
    (ipListTot : ℕ) (jiffies : UInt64) (input stack : Bytes) (allocated : Bool) : RecentCache V × Int :=
  let size := input.length
  if 32 + 5 + 12*32 < size then (c,-EINVAL)
  else
    match input with
    | [] => (c,0)
    | 47::_ => (.empty,size)
    | 45::rest => c.writeAddress in6Pton ipListTot jiffies false (cString (rest ++ stack)) size allocated
    | 43::rest => c.writeAddress in6Pton ipListTot jiffies true (cString (rest ++ stack)) size allocated
    | 42::rest => c.writeLine in6Pton ipListTot (cString (rest ++ stack)) size allocated
    | _ => (c,-EINVAL)

theorem lookup_zero (c : RecentCache V) (addr : NfInetAddr) : c.lookup addr 0 = c.get addr := by
  unfold lookup
  cases c.get addr with
  | none => rfl
  | some v => simp [Option.filter_some]

theorem get_of_lookup {c : RecentCache V} {addr : NfInetAddr} {ttl : UInt8} {v : V}
    (h : c.lookup addr ttl = some v) : c.get addr = some v :=
  (Option.filter_eq_some_iff.mp h).1

omit [Visited V] in
/-- What is written to a new value could have been in it from the start. -/
theorem insert_use (c : RecentCache V) (ipListTot : ℕ) (addr : NfInetAddr) (v v' : V) :
    (c.insert ipListTot addr v true).use addr v' = c.insert ipListTot addr v' true := by
  unfold insert
  rw [if_pos rfl, if_pos rfl, Lru.Cache.use_use]

/-- Bytes that are no command. -/
theorem recentMtProcWrite_other (c : RecentCache V) (in6Pton : Bytes → Option UInt8 → Option NfInetAddr)
    (ipListTot : ℕ) (jiffies : UInt64) {input : Bytes} (stack : Bytes) (allocated : Bool)
    (hnil : input ≠ []) (hflush : ∀ rest, input ≠ 47::rest) (hminus : ∀ rest, input ≠ 45::rest)
    (hplus : ∀ rest, input ≠ 43::rest) (hstar : ∀ rest, input ≠ 42::rest) :
    c.recentMtProcWrite in6Pton ipListTot jiffies input stack allocated = (c,-EINVAL) := by
  unfold recentMtProcWrite
  dsimp only
  split
  · rfl
  · split
    · exact absurd rfl hnil
    · exact absurd rfl (hflush _)
    · exact absurd rfl (hminus _)
    · exact absurd rfl (hplus _)
    · exact absurd rfl (hstar _)
    · rfl

end RecentCache

/-- What is asked of a table at some time: a rule sees a packet, or its file is written to. -/
inductive Access
  | packet (jiffies : UInt64) (info : RecentMtinfo) (addrMask : NfInetAddr) (ttl : UInt8)
    (kmalloc : Option Ptr)
  | write (jiffies : UInt64) (input stack : Bytes) (kmalloc : Option Ptr)

/-- Whether a packet matches and is dropped, or what a write returns. -/
inductive Answer
  | packet (ret hotdrop : Bool)
  | write (ret : Int)
  deriving DecidableEq

/-- What a rule that is in use can ask for. A rule that sets has no modifiers. -/
def RecentMtinfo.Plain (info : RecentMtinfo) : Prop := info.set = true → info.ttl = false

/-- Rules are as they were checked when they came into use. -/
def Access.Plain : Access → Prop
  | .packet _ info .. => info.Plain
  | .write .. => True

/-- The parts of a line with stamps. -/
def starLine (m : RecentModule) (input stack : Bytes) : Option LineParts :=
  match input with
  | 42::rest => lineParts m.in6Pton (cString (rest ++ stack)) input.length
  | _ => none

/-- The address that a write is about. -/
def writeTarget (m : RecentModule) (input stack : Bytes) : Option NfInetAddr :=
  match input with
  | 45::rest | 43::rest => writtenAddr m.in6Pton ((cString (rest ++ stack)).take (input.length-1))
  | _ => (starLine m input stack).bind LineParts.addr

namespace Access

/-- The address that an access may put at the end of the list. -/
def used (m : RecentModule) : Access → Option NfInetAddr
  | .packet _ info addrMask _ _ => if info.set || info.update then some addrMask else none
  | .write _ input stack _ => if input.head? = some 45 then none else writeTarget m input stack

/-- The stamps that it writes. -/
def stamps (m : RecentModule) : Access → List UInt64
  | .packet jiffies .. => [jiffies]
  | .write jiffies input stack _ =>
    if input.head? = some 42 then (starLine m input stack).elim [] LineParts.stamps else [jiffies]

def Flushes : Access → Prop
  | .packet .. => False
  | .write _ input _ _ => input.head? = some 47

def Reaps : Access → Prop
  | .packet _ info .. => info.reap = true
  | .write .. => False

def Removes (m : RecentModule) (addr : NfInetAddr) : Access → Prop
  | .packet _ info addrMask _ _ => info.remove = true ∧ addrMask = addr
  | .write _ input stack _ => input.head? = some 45 ∧ writeTarget m input stack = some addr

end Access

def RecentCache.access {V : Type} [Visited V] (m : RecentModule) (c : RecentCache V) :
    Access → RecentCache V × Answer
  | .packet jiffies info addrMask ttl kmalloc =>
    let (c,ret,hotdrop) := c.recentMt m.ipListTot m.hz jiffies info addrMask ttl kmalloc.isSome
    (c,.packet ret hotdrop)
  | .write jiffies input stack kmalloc =>
    let (c,ret) := c.recentMtProcWrite m.in6Pton m.ipListTot jiffies input stack kmalloc.isSome
    (c,.write ret)

def RecentCache.serve {V : Type} [Visited V] (m : RecentModule) (s : RecentCache V × List Answer)
    (a : Access) : RecentCache V × List Answer :=
  let (c,answer) := s.1.access m a
  (c,s.2 ++ [answer])

/-- What stamps make of a value; a packet also brings a ttl. -/
def Written {V : Type} [Visited V] (v : V) (stamps : List UInt64) (v' : V) : Prop :=
  v' = Visited.updateAll v stamps ∨ ∃ ttl, v' = Visited.setTtl (Visited.updateAll v stamps) ttl

namespace RecentCache

/-- What an access can make of a cache. -/
inductive Outcome {V : Type} [Visited V] (m : RecentModule) (a : Access) (c : RecentCache V) :
    RecentCache V → Prop
  | same : Outcome m a c c
  | clear (hflush : a.Flushes) : Outcome m a c .empty
  | erase {addr} (hremove : a.Removes m addr) : Outcome m a c (c.erase addr)
  | reap (hreap : a.Reaps) : Outcome m a c c.dropOldest
  | insert {addr nstamp rest} (haddr : a.used m = some addr) (hstamps : a.stamps m = nstamp::rest)
    (hnew : c.get addr = none) (ttl : UInt8) (allocated : Bool) :
    Outcome m a c (c.insert m.ipListTot addr (Visited.updateAll (Visited.init addr ttl nstamp) rest)
      allocated)
  | use {addr v v'} (haddr : a.used m = some addr) (hget : c.get addr = some v)
    (hv : Written v (a.stamps m) v') : Outcome m a c (c.use addr v')
  | reapUse {addr v v'} (hreap : a.Reaps) (haddr : a.used m = some addr) (hget : c.get addr = some v)
    (hv : Written v (a.stamps m) v') : Outcome m a c (c.dropOldest.use addr v')

section Outcome
variable {V : Type} [Visited V] {m : RecentModule} {c : RecentCache V}

theorem outcome_recentMt {info : RecentMtinfo} (hplain : info.Plain) (jiffies : UInt64)
    (addr : NfInetAddr) (ttl : UInt8) (kmalloc : Option Ptr) :
    Outcome m (.packet jiffies info addr ttl kmalloc) c
      (c.recentMt m.ipListTot m.hz jiffies info addr ttl kmalloc.isSome).1 := by
  unfold recentMt
  split
  · next hlookup =>
    split
    · next hset =>
      have hnew : c.get addr = none := by
        rw [hplain hset, if_neg Bool.false_ne_true, lookup_zero] at hlookup
        exact hlookup
      have hused : (Access.packet jiffies info addr ttl kmalloc).used m = some addr :=
        if_pos (by rw [hset]; rfl)
      exact .insert hused rfl hnew ttl _
    · exact .same
  · next v hlookup =>
    have hget := get_of_lookup hlookup
    dsimp only
    split
    · next hwrite =>
      have hused : (Access.packet jiffies info addr ttl kmalloc).used m = some addr := by
        refine if_pos ?_
        rw [Bool.or_eq_true] at hwrite ⊢
        exact hwrite.imp_right fun hu => (Bool.and_eq_true _ _ ▸ hu).1
      have hv : Written v [jiffies] (Visited.setTtl (Visited.update v jiffies) ttl) := .inr ⟨ttl,rfl⟩
      unfold discard reap
      split
      · exact .use hused hget hv
      · split
        · rw [Lru.Cache.erase_use]
          exact .use hused hget hv
        · split
          · next hreap =>
            split
            · exact .reapUse (Bool.and_eq_true _ _ ▸ hreap).2 hused hget hv
            · exact .use hused hget hv
          · exact .use hused hget hv
    · unfold discard reap
      split
      · exact .same
      · split
        · next hremove => exact .erase ⟨hremove,rfl⟩
        · split
          · next hreap =>
            split
            · exact .reap (Bool.and_eq_true _ _ ▸ hreap).2
            · exact .same
          · exact .same

theorem outcome_writeAddress {a : Access} {jiffies : UInt64} {add : Bool} {line : Bytes} {size : ℕ}
    (hadd : add = true → a.stamps m = [jiffies] ∧
      a.used m = writtenAddr m.in6Pton (line.take (size-1)))
    (hdrop : add = false → ∀ addr, writtenAddr m.in6Pton (line.take (size-1)) = some addr →
      a.Removes m addr) (allocated : Bool) :
    Outcome m a c (c.writeAddress m.in6Pton m.ipListTot jiffies add line size allocated).1 := by
  unfold writeAddress
  split
  · exact .same
  · next addr haddr =>
    split
    · next hnew =>
      obtain ⟨hstamps,hused⟩ := hadd rfl
      exact .insert (hused.trans haddr) hstamps hnew 0 allocated
    · exact .same
    · next hget =>
      obtain ⟨hstamps,hused⟩ := hadd rfl
      exact .use (hused.trans haddr) hget (.inl (by rw [hstamps]; rfl))
    · exact .erase (hdrop rfl addr haddr)

theorem outcome_storeLine {a : Access} {parts : LineParts} (hstamps : a.stamps m = parts.stamps)
    (hused : a.used m = parts.addr) (size : ℕ) (allocated : Bool) :
    Outcome m a c (c.storeLine m.ipListTot parts size allocated).1 := by
  unfold storeLine
  split
  · exact .same
  · next addr haddr =>
    split
    · next hget =>
      dsimp only
      split
      · exact .same
      · exact .use (hused.trans haddr) hget (.inl (by rw [hstamps]))
    · next hnew =>
      split
      · exact .same
      · exact .same
      · next ttl nstamp _ hfirst =>
        refine .insert (hused.trans haddr) ?_ hnew ttl allocated
        rw [hstamps, LineParts.stamps, hfirst]
        rfl

theorem outcome_access (c : RecentCache V) {a : Access} (hplain : a.Plain) :
    Outcome m a c (c.access m a).1 := by
  cases a with
  | packet jiffies info addrMask ttl kmalloc => exact outcome_recentMt hplain jiffies addrMask ttl kmalloc
  | write jiffies input stack kmalloc =>
    have hwrite : Outcome m (.write jiffies input stack kmalloc) c
        (c.recentMtProcWrite m.in6Pton m.ipListTot jiffies input stack kmalloc.isSome).1 := by
      unfold recentMtProcWrite
      dsimp only
      split
      · exact .same
      · split
        · exact .same
        · exact .clear rfl
        · next rest _ =>
          have hdrop : ∀ addr, writtenAddr m.in6Pton
              ((cString (rest ++ stack)).take ((45::rest).length-1)) = some addr →
                (Access.write jiffies (45::rest) stack kmalloc).Removes m addr :=
            fun addr haddr => ⟨rfl,haddr⟩
          exact outcome_writeAddress (fun hadd => absurd hadd Bool.false_ne_true) (fun _ => hdrop) _
        · exact outcome_writeAddress (fun _ => ⟨rfl,rfl⟩) (fun hadd => absurd hadd.symm Bool.false_ne_true) _
        · next rest _ =>
          unfold writeLine
          split
          · next parts hparts =>
            have hline : starLine m (42::rest) stack = some parts := hparts
            refine outcome_storeLine ?_ ?_ _ _
            · change (starLine m (42::rest) stack).elim [] LineParts.stamps = _
              rw [hline]
              rfl
            · change (starLine m (42::rest) stack).bind LineParts.addr = _
              rw [hline]
              rfl
          · exact .same
        · exact .same
    exact hwrite

end Outcome

section Size
variable {V : Type} [Visited V] {c c' : RecentCache V} {ipListTot : ℕ}

omit [Visited V] in
theorem size_insert_le (h : c.size ≤ ipListTot) (hpos : 0 < ipListTot) (addr : NfInetAddr) (v : V)
    (allocated : Bool) : (c.insert ipListTot addr v allocated).size ≤ ipListTot := by
  have hlt := Lru.Cache.size_evict_lt h hpos
  unfold insert
  split
  · exact (Lru.Cache.size_use_le _ _ _).trans hlt
  · exact Nat.le_of_lt hlt

/-- No access makes more entries than there may be. -/
theorem Outcome.size_le {m : RecentModule} {a : Access} (ho : Outcome m a c c')
    (h : c.size ≤ m.ipListTot) : c'.size ≤ m.ipListTot := by
  have hdrop := Lru.Cache.size_dropOldest c
  cases ho with
  | same => exact h
  | clear => exact Nat.zero_le _
  | erase => exact (Lru.Cache.size_erase_le c _).trans h
  | reap => omega
  | insert => exact size_insert_le h m.ipListTot_pos _ _ _
  | use haddr hget => exact (Lru.Cache.size_use_of_get (by rw [hget]; exact Option.some_ne_none _) _).trans_le h
  | @reapUse addr v v' hreap haddr hget =>
    have hsize := Lru.Cache.size_use_le c.dropOldest addr v'
    have hsome := Lru.Cache.size_erase_of_get (by rw [hget]; exact Option.some_ne_none v)
    omega

end Size

section All
variable {V : Type} [Visited V] {c c' : RecentCache V} {P : V → Prop}

/-- What holds of every value that an access can leave holds of all of them. -/
theorem Outcome.all {m : RecentModule} {a : Access} (ho : Outcome m a c c') (h : Lru.Cache.All P c)
    (hinit : ∀ addr ttl nstamp rest, a.used m = some addr → a.stamps m = nstamp::rest →
      c.get addr = none → P (Visited.updateAll (Visited.init addr ttl nstamp) rest))
    (hwritten : ∀ addr v v', a.used m = some addr → c.get addr = some v → P v →
      Written v (a.stamps m) v' → P v') : Lru.Cache.All P c' := by
  cases ho with
  | same => exact h
  | clear => exact Lru.Cache.all_empty
  | erase => exact h.erase _
  | reap => exact h.dropOldest
  | insert haddr hstamps hnew ttl allocated =>
    have hevict := h.evict m.ipListTot
    unfold RecentCache.insert
    split
    · exact hevict.use _ (hinit _ _ _ _ haddr hstamps hnew)
    · exact hevict
  | use haddr hget hv => exact h.use _ (hwritten _ _ _ haddr hget (h.get hget) hv)
  | reapUse hreap haddr hget hv => exact h.dropOldest.use _ (hwritten _ _ _ haddr hget (h.get hget) hv)

end All
end RecentCache
end Kernel
end Ssyncd
