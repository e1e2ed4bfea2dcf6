import Ssyncd.Kernel.Entry
import Ssyncd.Library.Regex
import Ssyncd.Recent

/-! How the daemon reads the rows of a proc file. -/
namespace Ssyncd
open Decimal Regex

namespace XtRecentProc
open Recent

def anyByte (b : UInt8) : Bool := b != 10

/-- `.*` -/
def anything : Atom UInt8 := { mem := anyByte, least := 0, most := none }

/-- `\d+` -/
def digits : Atom UInt8 := { mem := isDigit, most := none }

/-- `\d{1,3}` -/
def octet : Atom UInt8 := { mem := isDigit, most := some 3 }

/-- `.`, which is not only a dot. -/
def dot : Atom UInt8 := { mem := anyByte }

def srcPattern : Pattern UInt8 where
  before := word (ascii "src=")
  group := [octet,dot,octet,dot,octet,dot,octet]

def ttlPattern : Pattern UInt8 where
  before := anything::word (ascii "ttl: ")
  group := [digits]

def lastSeenPattern : Pattern UInt8 where
  before := anything::word (ascii "last_seen: ")
  group := [digits]

def oldestPktPattern : Pattern UInt8 where
  before := anything::word (ascii "oldest_pkt: ")
  group := [digits]

def timestampsPattern : Pattern UInt8 where
  before := anything::(word (ascii "oldest_pkt: ") ++ digits::word (ascii " "))
  group := [anything]

def parseData (str : Bytes) (regPattern : Pattern UInt8) : Bytes := (regPattern.search str).getD []

/-- The stamps between commas, without the zeros. -/
def parseTimestamps (sTimestamps : Bytes) : Except Fault (List UInt64) :=
  return (← ((cString sTimestamps).splitOn 44).mapM stoul).filter fun stamp => stamp != 0

/-- The last_seen number is converted and not kept. -/
def parseFileRow (strRow : Bytes) : Except Fault XtRecentEntry := do
  let lastSeenIndex ← stoi (parseData strRow oldestPktPattern)
  let _ ← stoul (parseData strRow lastSeenPattern)
  let ttl ← stoi (parseData strRow ttlPattern)
  let timestamps ← parseTimestamps (parseData strRow timestampsPattern)
  return {
    srcIp := parseData strRow srcPattern
    ttl, lastSeenIndex, timestamps
    ipFamily := .named .ipv4 }

end XtRecentProc
end Ssyncd
