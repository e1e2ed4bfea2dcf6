import Ssyncd.Ctl.CommandPkt
import Mathlib.Logic.Relation

/-! The control task: the commands that it takes, and the thread and the worker behind it. -/
namespace Ssyncd.Controller

/-- NONE is left to Option. -/
inductive WorkerMode
  | master
  | backup
  deriving DecidableEq

/-- The worker, with what its connection is opened on. -/
inductive SyncWorker
  | syncMaster (port : UInt32)
  | syncBackup (address : Bytes) (port : UInt32)
  deriving DecidableEq

def SyncWorker.mode : SyncWorker → WorkerMode
  | syncMaster _ => .master
  | syncBackup _ _ => .backup

/-- `commandThread` is the thread that the object holds, while it is joinable. The last field is
not in the code: the threads that run `ctl_task`. -/
structure SyncController where
  currentMode : Option WorkerMode := none
  syncWorker : Option SyncWorker := none
  commandThread : Option ℕ := none
  serverPort : UInt32
  serverAddress : Bytes
  isRunning : Bool := false
  tasks : List ℕ := []
  deriving DecidableEq

/-- What recv gives the control task, whether the connection of a new worker can be opened (where it
cannot, its constructor ends the process), and whether any other command ends the process: by the
signal of an answer to a client that has closed its connection, or by a fault of the worker. -/
structure Request where
  recvBuffer : Memory
  count : ℕ
  opens : Bool := true
  ends : Bool := false

/-- Where the thread is that handles the command: it waits for one, or it is inside `start`,
first before and then after the new thread is there. -/
inductive Pc
  | accept
  | start
  | assign (thread : ℕ)
  | exited
  | terminated
  deriving DecidableEq

/-- The daemon, with the commands to come. The last field is not in the code: the mode of the
last switch, or of main. -/
structure Process where
  controller : SyncController
  pc : Pc := .accept
  inbox : List Request
  switched : WorkerMode

namespace SyncController

def newWorker (c : SyncController) : WorkerMode → SyncWorker
  | .master => .syncMaster c.serverPort
  | .backup => .syncBackup c.serverAddress c.serverPort

def setWorkerMode (c : SyncController) (mode : WorkerMode) : SyncController :=
  { c with syncWorker := some (c.newWorker mode), currentMode := some mode }

/-- The first part of `start`: the worker starts, and a thread that runs `ctl_task`. -/
def spawn (c : SyncController) (thread : ℕ) : SyncController :=
  { c with isRunning := true, tasks := c.tasks ++ [thread] }

/-- What SHOW_MODE answers. -/
def showMode (c : SyncController) : String :=
  if c.currentMode = some .backup then "backup"
  else if c.currentMode = some .master then "master"
  else "error"

end SyncController

namespace Process

/-- A switch stops and deletes the old worker before it makes the new one. -/
def switch (p : Process) (mode : WorkerMode) (opens : Bool) : Process :=
  if opens then { p with controller := p.controller.setWorkerMode mode, pc := .start, switched := mode }
  else { p with pc := .exited }

/-- What leaves the controller as it is: it only acts on the worker and answers, if it gets so far. -/
def answer (p : Process) (ends : Bool) : Process := if ends then { p with pc := .exited } else p

/-- One command. -/
def ctlTask (p : Process) (request : Request) : Process :=
  match CommandPktParser.deserialize request.recvBuffer request.count with
  | none => p.answer request.ends
  | some (pkt,_) =>
    match pkt.command with
    | .named .quit =>
      { p with controller := { p.controller with isRunning := false }, pc := .exited }
    | .named .swToClient =>
      let controller :=
        { p.controller with serverPort := pkt.serverPort, serverAddress := pkt.serverAddress }
      { p with controller }.switch .backup request.opens
    | .named .swToMaster =>
      { p with controller := { p.controller with serverPort := pkt.serverPort } }.switch .master
        request.opens
    | _ => p.answer request.ends

def start (p : Process) : Process :=
  match p.controller.syncWorker with
  | none => { p with pc := .accept }
  | some _ =>
    let thread := p.controller.tasks.length
    { p with controller := p.controller.spawn thread, pc := .assign thread }

/-- A thread that is assigned to a joinable one terminates the process. -/
def assign (p : Process) (thread : ℕ) : Process :=
  match p.controller.commandThread with
  | some _ => { p with pc := .terminated }
  | none => { p with controller := { p.controller with commandThread := some thread }, pc := .accept }

/-- One step of the daemon. -/
def step (p : Process) : Option Process :=
  match p.pc with
  | .accept =>
    match p.inbox with
    | [] => none
    | request::inbox => some ({ p with inbox }.ctlTask request)
  | .start => some p.start
  | .assign thread => some (p.assign thread)
  | .exited | .terminated => none

/-- The daemon once main has set the mode and started the controller. -/
def main (mode : WorkerMode) (serverPort : UInt32) (serverAddress : Bytes) (inbox : List Request) :
    Process :=
  let controller : SyncController := { serverPort, serverAddress }
  let p : Process := { controller := controller.setWorkerMode mode, inbox, switched := mode }
  p.start.assign 0

def Reach (p q : Process) : Prop := Relation.ReflTransGen (fun a b => step a = some b) p q

/-- No thread has been assigned to a joinable one, one task serves the socket, and the mode that
it reports and its worker's are those of the last switch. -/
structure OneLiveTask (p : Process) : Prop where
  joinable : p.pc ≠ .terminated
  task : p.pc ≠ .exited → p.controller.tasks.length = 1
  reported : p.controller.showMode = (match p.switched with | .master => "master" | .backup => "backup")
  worker : p.controller.syncWorker.map SyncWorker.mode = some p.switched

end Process

def Request.command (request : Request) : Option (ByteEnum.Value CommandId) :=
  (CommandPktParser.deserialize request.recvBuffer request.count).map fun (pkt,_) => pkt.command

/-- A command that switches the mode. -/
def Switches (command : Option (ByteEnum.Value CommandId)) : Prop :=
  command = some (.named .swToMaster) ∨ command = some (.named .swToClient)

instance (command : Option (ByteEnum.Value CommandId)) : Decidable (Switches command) :=
  inferInstanceAs (Decidable (_ ∨ _))

/-- No switch gets as far as `start`: each comes after a QUIT or another command that ended the process,
or its worker's connection cannot be opened, which ends the process as well. -/
def NoSwitch : List Request → Prop
  | [] => True
  | request::inbox =>
    if Switches request.command then request.opens = false
    else request.command = some (.named .quit) ∨ request.ends = true ∨ NoSwitch inbox

instance NoSwitch.decidable : (inbox : List Request) → Decidable (NoSwitch inbox)
  | [] => .isTrue trivial
  | request::inbox =>
    have := NoSwitch.decidable inbox
    inferInstanceAs (Decidable (if Switches request.command then request.opens = false
      else request.command = some (.named .quit) ∨ request.ends = true ∨ NoSwitch inbox))

namespace Process

theorem ctlTask_switch {p : Process} {request : Request} (h : Switches request.command) :
    ∃ controller mode, p.ctlTask request = { p with controller }.switch mode request.opens ∧
      controller.commandThread = p.controller.commandThread ∧
      controller.tasks = p.controller.tasks ∧ controller.showMode = p.controller.showMode ∧
      controller.syncWorker = p.controller.syncWorker := by
  unfold Request.command at h
  unfold ctlTask
  rcases h with h | h
  all_goals
    obtain ⟨⟨pkt,used⟩,hread,hcommand⟩ := Option.map_eq_some_iff.mp h
    dsimp only at hcommand
    rw [hread]
    dsimp only
    rw [hcommand]
    exact ⟨_,_,rfl,rfl,rfl,rfl,rfl⟩

theorem ctlTask_quit {p : Process} {request : Request}
    (h : request.command = some (.named .quit)) :
    p.ctlTask request =
      { p with controller := { p.controller with isRunning := false }, pc := .exited } := by
  obtain ⟨⟨pkt,used⟩,hread,hcommand⟩ := Option.map_eq_some_iff.mp h
  dsimp only at hcommand
  unfold ctlTask
  rw [hread]
  dsimp only
  rw [hcommand]

theorem ctlTask_other {p : Process} {request : Request} (h : ¬Switches request.command)
    (hquit : request.command ≠ some (.named .quit)) : p.ctlTask request = p.answer request.ends := by
  unfold Switches Request.command at h
  unfold Request.command at hquit
  unfold ctlTask
  split
  · rfl
  · next pkt used hread =>
    rw [hread] at h hquit
    split
    · next hc => exact absurd (congrArg some hc) hquit
    · next hc => exact absurd (.inr (congrArg some hc)) h
    · next hc => exact absurd (.inl (congrArg some hc)) h
    · rfl

theorem step_accept {p : Process} {request : Request} {inbox : List Request}
    (haccept : p.pc = .accept) (hin : p.inbox = request::inbox) :
    p.step = some ({ p with inbox }.ctlTask request) := by
  obtain ⟨controller,pc,requests,switched⟩ := p
  obtain rfl : pc = .accept := haccept
  obtain rfl : requests = request::inbox := hin
  rfl

theorem step_nil {p : Process} (haccept : p.pc = .accept) (hin : p.inbox = []) : p.step = none := by
  obtain ⟨controller,pc,requests,switched⟩ := p
  obtain rfl : pc = .accept := haccept
  obtain rfl : requests = [] := hin
  rfl

theorem assign_joinable {p : Process} {held : ℕ} (h : p.controller.commandThread = some held)
    (thread : ℕ) : (p.assign thread).pc = .terminated := by
  rw [assign, h]

/-- What holds between two commands. -/
structure Serving (p : Process) : Prop extends OneLiveTask p where
  accept : p.pc = .accept
  thread : p.controller.commandThread.isSome = true

theorem serving_main (mode : WorkerMode) (serverPort : UInt32) (serverAddress : Bytes)
    (inbox : List Request) : (main mode serverPort serverAddress inbox).Serving := by
  cases mode <;> exact ⟨⟨nofun,fun _ => rfl,rfl,rfl⟩,rfl,rfl⟩

/-- Without a switch, one step keeps what holds, or ends the process. -/
theorem Serving.step {p q : Process} (hp : p.Serving) (hno : NoSwitch p.inbox)
    (hstep : p.step = some q) :
    (q.Serving ∧ NoSwitch q.inbox) ∨ (q.OneLiveTask ∧ q.pc = .exited) := by
  cases hin : p.inbox with
  | nil =>
    rw [step_nil hp.accept hin] at hstep
    contradiction
  | cons request inbox =>
    rw [hin] at hno
    rw [step_accept hp.accept hin] at hstep
    obtain rfl := Option.some.inj hstep
    have hrest : ({ p with inbox } : Process).Serving :=
      ⟨⟨hp.joinable,hp.task,hp.reported,hp.worker⟩,hp.accept,hp.thread⟩
    unfold NoSwitch at hno
    split at hno
    · next hswitch =>
      obtain ⟨controller,mode,heq,-,htasks,hshow,hworker⟩ :=
        ctlTask_switch (p := { p with inbox }) hswitch
      rw [heq, switch, hno]
      refine .inr ⟨⟨nofun,fun h => absurd rfl h,?_,?_⟩,rfl⟩
      · exact hshow.trans hp.reported
      · exact (congrArg _ hworker).trans hp.worker
    · next hswitch =>
      by_cases hquit : request.command = some (.named .quit)
      · rw [ctlTask_quit hquit]
        exact .inr ⟨⟨nofun,fun h => absurd rfl h,hp.reported,hp.worker⟩,rfl⟩
      · rw [ctlTask_other hswitch hquit, answer]
        split
        · exact .inr ⟨⟨nofun,fun h => absurd rfl h,hp.reported,hp.worker⟩,rfl⟩
        · next hends => exact .inl ⟨hrest,(hno.resolve_left hquit).resolve_left hends⟩

/-- A switch that opens its connection runs `start` inside the thread that `start` replaces. -/
theorem Serving.terminates {p : Process} (hp : p.Serving) (h : ¬NoSwitch p.inbox) :
    ∃ q, Reach p q ∧ q.pc = .terminated := by
  obtain ⟨inbox,hin⟩ : ∃ inbox, p.inbox = inbox := ⟨_,rfl⟩
  induction inbox generalizing p with
  | nil =>
    rw [hin] at h
    exact absurd trivial h
  | cons request inbox ih =>
    have hstep := step_accept hp.accept hin
    rw [hin, NoSwitch] at h
    split at h
    · next hswitch =>
      obtain ⟨controller,mode,heq,hthread,-⟩ := ctlTask_switch (p := { p with inbox }) hswitch
      have hopens : request.opens = true := by simpa using h
      obtain ⟨thread,hsome⟩ := Option.isSome_iff_exists.mp hp.thread
      rw [heq, switch, hopens, if_pos rfl] at hstep
      exact ⟨_,.tail (.tail (.single hstep) rfl) rfl,assign_joinable (hthread.trans hsome) _⟩
    · next hswitch =>
      obtain ⟨hquit,hmore⟩ := not_or.mp h
      obtain ⟨hends,hno⟩ := not_or.mp hmore
      rw [ctlTask_other hswitch hquit, answer, if_neg hends] at hstep
      have hrest : ({ p with inbox } : Process).Serving :=
        ⟨⟨hp.joinable,hp.task,hp.reported,hp.worker⟩,hp.accept,hp.thread⟩
      obtain ⟨q,hreach,hq⟩ := ih hrest hno rfl
      exact ⟨q,.head hstep hreach,hq⟩

/-- Whatever commands come, there is one live control task at every moment, with the mode and the
worker of the last switch, exactly where no switch gets as far as `start`. -/
theorem one_live_task_iff (mode : WorkerMode) (serverPort : UInt32) (serverAddress : Bytes)
    (inbox : List Request) :
    (∀ p, Reach (main mode serverPort serverAddress inbox) p → p.OneLiveTask) ↔
      NoSwitch inbox := by
  have hmain := serving_main mode serverPort serverAddress inbox
  constructor
  · intro hall
    by_contra hno
    obtain ⟨q,hreach,hq⟩ := hmain.terminates hno
    exact (hall q hreach).joinable hq
  · intro hno p hreach
    have hinv : (p.Serving ∧ NoSwitch p.inbox) ∨ (p.OneLiveTask ∧ p.pc = .exited) := by
      induction hreach with
      | refl => exact .inl ⟨hmain,hno⟩
      | tail _ hstep ih =>
        rcases ih with ⟨hserving,hno⟩ | ⟨-,hexited⟩
        · exact hserving.step hno hstep
        · unfold step at hstep
          rw [hexited] at hstep
          contradiction
    exact hinv.elim (·.1.toOneLiveTask) (·.1)

/-- SW_TO_MASTER with port 9999. -/
def switchToMaster : Request where
  recvBuffer := Reader.memory [0xef,0xab,7,9,0,14,15,39,0] fun _ => 0
  count := 9

/-- One switch of a backup to master, and the daemon is gone. -/
theorem switch_terminates :
    ¬∀ p, Reach (main .backup 9999 [] [switchToMaster]) p → p.OneLiveTask := by
  intro hall
  have hopen : ¬NoSwitch [switchToMaster] := by decide
  obtain ⟨q,hreach,hq⟩ := (serving_main .backup 9999 [] [switchToMaster]).terminates hopen
  exact (hall q hreach).joinable hq

end Process
end Ssyncd.Controller
