import Ssyncd.Ctl.CommandPkt
import Ssyncd.Kernel.Entry

/-! The command line of `ssyncdctl`: which packet its words build. -/
namespace Ssyncd.Controller

/-- The command for a service; an unknown one leaves the command as it is. -/
def ofService (http recent : CommandId) (value : Bytes) (pkt : CommandPkt) : CommandPkt :=
  if value = ascii "http" then { pkt with command := .named http }
  else if value = ascii "recent" then { pkt with command := .named recent }
  else pkt

def showService (value : Bytes) (pkt : CommandPkt) : CommandPkt :=
  if value = ascii "mode" then { pkt with command := .named .showMode }
  else ofService .showHttp .showRecent value pkt

def switchMode (value : Bytes) (pkt : CommandPkt) : CommandPkt :=
  if value = ascii "master" then { pkt with command := .named .swToMaster }
  else if value = ascii "backup" then { pkt with command := .named .swToClient }
  else pkt

/-- Only `*` makes the command one for a table, and only a write. -/
def nameTable (commandData : Bytes) (pkt : CommandPkt) : Option CommandPkt :=
  let pkt := { pkt with commandData }
  if commandData = ascii "*" then
    match pkt.command with
    | .named .writeRecent => some { pkt with command := .named .writeRecentTable }
    | _ => none
  else some pkt

def setPort (value : Bytes) (pkt : CommandPkt) : Option CommandPkt :=
  match stoi value with
  | .ok serverPort => some { pkt with serverPort := UInt32.ofInt serverPort }
  | .error _ => none

/-- One option after another. `none` is an exit: of help, or of an argument that is missing or not
valid. -/
def options (pkt : CommandPkt) : List Bytes → Option CommandPkt
  | [] => some pkt
  | option::args =>
    if option = ascii "help" then none
    else if option = ascii "write" then
      match args with
      | [] => none
      | value::args => options (ofService .writeHttp .writeRecent value pkt) args
    else if option = ascii "clear" then
      match args with
      | [] => none
      | value::args => options (ofService .clearHttp .clearRecent value pkt) args
    else if option = ascii "quit" then options { pkt with command := .named .quit } args
    else if option = ascii "start" then
      match args with
      | [] => none
      | value::args =>
        if value = ascii "http" then
          match args with
          | [] => none
          | commandData::args => options { pkt with command := .named .startHttpSync, commandData } args
        else if value = ascii "recent" then
          options { pkt with command := .named .startRecentSync } args
        else options pkt args
    else if option = ascii "stop" then
      match args with
      | [] => none
      | value::args =>
        if value = ascii "http" then
          match args with
          | [] => none
          | commandData::args => options { pkt with command := .named .stopHttpSync, commandData } args
        else if value = ascii "recent" then
          options { pkt with command := .named .stopRecentSync } args
        else options pkt args
    else if option = ascii "table" then
      match args with
      | [] => none
      | commandData::args => (nameTable commandData pkt).bind fun pkt => options pkt args
    else if option = ascii "count" then
      match args with
      | [] => none
      | value::args => options (ofService .countHttp .countRecent value pkt) args
    else if option = ascii "show" then
      match args with
      | [] => none
      | value::args => options (showService value pkt) args
    else if option = ascii "port" then
      match args with
      | [] => some pkt
      | value::args => (setPort value pkt).bind fun pkt => options pkt args
    else if option = ascii "address" then
      match args with
      | [] => some pkt
      | serverAddress::args => options { pkt with serverAddress } args
    else if option = ascii "switch" then
      match args with
      | [] => none
      | value::args => options (switchMode value pkt) args
    else options pkt args

/-- The packet that is sent, if one is. -/
def main (argv : List Bytes) : Option CommandPkt :=
  (options { command := .named .void } argv).filter fun pkt => pkt.command ≠ .named .void

/-- The words of a command line. -/
def words (line : List String) : List Bytes := line.map ascii

example : (main (words ["switch","backup","address","10.0.0.1","port","9999"])).map (·.serverPort) =
    some 9999 := by decide

end Ssyncd.Controller
