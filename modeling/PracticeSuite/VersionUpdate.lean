import PracticeSuite.FileTransfer

/-! The version-update client and the single-threaded server as two parties: Thrift
requests and replies in flight between them, and one TCP connection on port 7777.
The client asks for the version, then for the file, and only when that call has
returned does it connect; the handler of the call returns only after it has
accepted a connection. -/
namespace PracticeSuite.VersionUpdate
open FileTransfer (Byte Transfer)

inductive Method where
  | fetchVersion
  | getFile
  deriving DecidableEq, Repr

/- Where the client's main and transFile stand. `ended` is an exit without the
file. -/
inductive Client where
  | opening
  | callFetch
  | awaitFetch
  | callGet
  | awaitGet
  | socket
  | connecting
  | creating
  | receiving
  | received
  | ended
  deriving DecidableEq, Repr

/- Where the server stands: between requests, in a handler, or about to send the
reply of one. -/
inductive Server where
  | idle
  | fetchVersion
  | socket
  | binding
  | listening
  | sleeping
  | accepting
  | opening
  | sending
  | closing
  | replying (m : Method)
  deriving DecidableEq, Repr

inductive Connection where
  | absent
  | queued
  | accepted
  | closed
  deriving DecidableEq, Repr

structure State where
  client : Client
  server : Server
  requests : List Method
  replies : List Method
  listening : Bool
  connection : Connection
  transfer : Transfer
  deriving DecidableEq, Repr

def initial (file : List Byte) : State :=
  ⟨.opening,.idle,[],[],false,.absent,FileTransfer.initial file⟩

structure Results where
  socket : Bool
  bind : Bool
  listen : Bool
  deriving DecidableEq, Repr

inductive Event where
  | openTransport (ok : Bool)
  | call
  | answer
  | clientSocket (ok : Bool)
  | connect
  | creat (ok : Bool)
  | take
  | fetchVersion
  | socket
  | bind
  | listen
  | wake
  | accept (ok : Bool)
  | openFile (ok : Bool)
  | close
  | reply
  | transfer (c : FileTransfer.Call)
  deriving DecidableEq, Repr

/- An error exit of getFile returns to the caller as any other; it leaves both
sockets as they are. -/
def serverAfter : FileTransfer.Server → Server
  | .finished => .closing
  | .failed => .replying .getFile
  | _ => .sending

def clientAfter : FileTransfer.Client → Client
  | .finished => .received
  | .failed => .ended
  | _ => .receiving

def transferStep (s : State) (c : FileTransfer.Call) : Option State :=
  match c with
  | .read _ | .send _ _ | .sendError =>
    if s.server = .sending then
      (FileTransfer.step s.transfer c).map (fun t => {s with transfer := t, server := serverAfter t.server})
    else none
  | .recv 0 =>
    if s.client = .receiving ∧ s.connection = .closed then
      (FileTransfer.step s.transfer c).map (fun t => {s with transfer := t, client := clientAfter t.client})
    else none
  | _ =>
    if s.client = .receiving then
      (FileTransfer.step s.transfer c).map (fun t => {s with transfer := t, client := clientAfter t.client})
    else none

def step (r : Results) (s : State) : Event → Option State
  | .openTransport ok =>
    if s.client = .opening then some {s with client := if ok then .callFetch else .ended} else none
  | .call =>
    match s.client with
    | .callFetch => some {s with client := .awaitFetch, requests := s.requests ++ [.fetchVersion]}
    | .callGet => some {s with client := .awaitGet, requests := s.requests ++ [.getFile]}
    | _ => none
  | .answer =>
    match s.client,s.replies with
    | .awaitFetch,.fetchVersion::replies => some {s with client := .callGet, replies := replies}
    | .awaitGet,.getFile::replies => some {s with client := .socket, replies := replies}
    | _,_ => none
  | .clientSocket ok =>
    if s.client = .socket then some {s with client := if ok then .connecting else .ended} else none
  | .connect =>
    if s.client = .connecting then
      if s.listening = true then some {s with client := .creating, connection := .queued}
      else some {s with client := .ended}
    else none
  | .creat ok =>
    if s.client = .creating then some {s with client := if ok then .receiving else .ended} else none
  | .take =>
    match s.server,s.requests with
    | .idle,.fetchVersion::requests => some {s with server := .fetchVersion, requests := requests}
    | .idle,.getFile::requests => some {s with server := .socket, requests := requests}
    | _,_ => none
  | .fetchVersion =>
    if s.server = .fetchVersion then some {s with server := .replying .fetchVersion} else none
  | .socket =>
    if s.server = .socket then
      some {s with server := if r.socket then .binding else .replying .getFile} else none
  | .bind =>
    if s.server = .binding then
      some {s with server := if r.bind then .listening else .replying .getFile} else none
  | .listen =>
    if s.server = .listening then
      if r.listen = true then some {s with server := .sleeping, listening := true}
      else some {s with server := .replying .getFile}
    else none
  | .wake => if s.server = .sleeping then some {s with server := .accepting} else none
  | .accept ok =>
    if s.server = .accepting ∧ s.connection = .queued then
      if ok then some {s with server := .opening, connection := .accepted}
      else some {s with server := .replying .getFile}
    else none
  | .openFile ok =>
    if s.server = .opening then
      some {s with server := if ok then .sending else .replying .getFile} else none
  | .close =>
    if s.server = .closing then
      some {s with server := .replying .getFile, listening := false, connection := .closed} else none
  | .reply =>
    match s.server with
    | .replying m => some {s with server := .idle, replies := s.replies ++ [m]}
    | _ => none
  | .transfer c => transferStep s c

def run (r : Results) (file : List Byte) (events : List Event) : Option State :=
  Trace.attempt (step r) (initial file) events

def clientBlocked (s : State) : Bool :=
  match s.client with
  | .awaitFetch => s.replies = []
  | .awaitGet => s.replies = []
  | .receiving => s.transfer.client = .receiving ∧ s.transfer.stream = [] ∧ s.connection ≠ .closed
  | _ => false

def serverBlocked (s : State) : Bool :=
  match s.server with
  | .idle => s.requests = []
  | .accepting => s.connection ≠ .queued
  | _ => false

def Deadlocked (s : State) : Prop := s.client ≠ .received ∧ clientBlocked s = true ∧ serverBlocked s = true
instance (s) : Decidable (Deadlocked s) := by unfold Deadlocked; infer_instance

inductive Deaf (r : Results) : Client → Server → List Method → List Method → Prop where
  | opening : Deaf r .opening .idle [] []
  | callFetch : Deaf r .callFetch .idle [] []
  | fetchAsked : Deaf r .awaitFetch .idle [.fetchVersion] []
  | fetchVersion : Deaf r .awaitFetch .fetchVersion [] []
  | fetchDone : Deaf r .awaitFetch (.replying .fetchVersion) [] []
  | fetchReply : Deaf r .awaitFetch .idle [] [.fetchVersion]
  | callGet : Deaf r .callGet .idle [] []
  | getAsked : Deaf r .awaitGet .idle [.getFile] []
  | socket : Deaf r .awaitGet .socket [] []
  | binding (created : r.socket = true) : Deaf r .awaitGet .binding [] []
  | listening (created : r.socket = true) (bound : r.bind = true) : Deaf r .awaitGet .listening [] []
  | getDone : Deaf r .awaitGet (.replying .getFile) [] []
  | getReply : Deaf r .awaitGet .idle [] [.getFile]
  | clientSocket : Deaf r .socket .idle [] []
  | connecting : Deaf r .connecting .idle [] []
  | ended : Deaf r .ended .idle [] []

structure Quiet (r : Results) (s : State) : Prop where
  silent : s.listening = false
  joint : Deaf r s.client s.server s.requests s.replies

theorem quietInitial (r file) : Quiet r (initial file) := ⟨rfl,.opening⟩

theorem quietTransfer {r s} (quiet : Quiet r s) (c) : transferStep s c = none := by
  have apart : s.server ≠ .sending ∧ s.client ≠ .receiving := by
    obtain ⟨client,server,requests,replies,listening,connection,transfer⟩ := s
    cases quiet.joint <;> exact ⟨by simp,by simp⟩
  unfold transferStep
  split <;> simp [apart]

theorem quietStep {r : Results} (deaf : ¬ (r.socket = true ∧ r.bind = true ∧ r.listen = true)) (s e t)
    (quiet : Quiet r s) (went : step r s e = some t) : Quiet r t := by
  have idle := quietTransfer quiet
  obtain ⟨client,server,requests,replies,listening,connection,transfer⟩ := s
  obtain ⟨silent,joint⟩ := quiet
  dsimp only at silent joint
  cases e with
  | openTransport ok =>
    obtain ⟨rfl,went⟩ := Option.ite_none_right_eq_some.mp went
    cases Option.some.inj went
    cases joint
    cases ok
    · exact ⟨silent,.ended⟩
    · exact ⟨silent,.callFetch⟩
  | call =>
    cases joint <;> simp only [step,List.nil_append,reduceCtorEq] at went
    · cases Option.some.inj went
      exact ⟨silent,.fetchAsked⟩
    · cases Option.some.inj went
      exact ⟨silent,.getAsked⟩
  | answer =>
    cases joint <;> simp only [step,reduceCtorEq] at went
    · cases Option.some.inj went
      exact ⟨silent,.callGet⟩
    · cases Option.some.inj went
      exact ⟨silent,.clientSocket⟩
  | clientSocket ok =>
    obtain ⟨rfl,went⟩ := Option.ite_none_right_eq_some.mp went
    cases Option.some.inj went
    cases joint
    cases ok
    · exact ⟨silent,.ended⟩
    · exact ⟨silent,.connecting⟩
  | connect =>
    obtain ⟨rfl,went⟩ := Option.ite_none_right_eq_some.mp went
    rw [silent] at went
    cases Option.some.inj went
    cases joint
    exact ⟨rfl,.ended⟩
  | creat ok =>
    obtain ⟨rfl,went⟩ := Option.ite_none_right_eq_some.mp went
    cases joint
  | take =>
    cases joint <;> simp only [step,reduceCtorEq] at went
    · cases Option.some.inj went
      exact ⟨silent,.fetchVersion⟩
    · cases Option.some.inj went
      exact ⟨silent,.socket⟩
  | fetchVersion =>
    obtain ⟨rfl,went⟩ := Option.ite_none_right_eq_some.mp went
    cases Option.some.inj went
    cases joint
    exact ⟨silent,.fetchDone⟩
  | socket =>
    obtain ⟨rfl,went⟩ := Option.ite_none_right_eq_some.mp went
    cases Option.some.inj went
    cases joint
    refine ⟨silent,?_⟩
    split
    · rename_i created
      exact .binding created
    · exact .getDone
  | bind =>
    obtain ⟨rfl,went⟩ := Option.ite_none_right_eq_some.mp went
    cases Option.some.inj went
    cases joint with
    | binding created =>
      refine ⟨silent,?_⟩
      split
      · rename_i bound
        exact .listening created bound
      · exact .getDone
  | listen =>
    obtain ⟨rfl,went⟩ := Option.ite_none_right_eq_some.mp went
    cases joint with
    | listening created bound =>
      rw [if_neg (fun ready => deaf ⟨created,bound,ready⟩)] at went
      cases Option.some.inj went
      exact ⟨silent,.getDone⟩
  | wake =>
    obtain ⟨rfl,went⟩ := Option.ite_none_right_eq_some.mp went
    cases joint
  | accept ok =>
    obtain ⟨⟨rfl,_⟩,_⟩ := Option.ite_none_right_eq_some.mp went
    cases joint
  | openFile ok =>
    obtain ⟨rfl,went⟩ := Option.ite_none_right_eq_some.mp went
    cases joint
  | close =>
    obtain ⟨rfl,went⟩ := Option.ite_none_right_eq_some.mp went
    cases joint
  | reply =>
    cases joint <;> simp only [step,List.nil_append,reduceCtorEq] at went
    · cases Option.some.inj went
      exact ⟨silent,.fetchReply⟩
    · cases Option.some.inj went
      exact ⟨silent,.getReply⟩
  | transfer c =>
    simp only [step,idle] at went
    contradiction

theorem quietLive {r s} (quiet : Quiet r s) : ¬ Deadlocked s := by
  obtain ⟨client,server,requests,replies,listening,connection,transfer⟩ := s
  obtain ⟨silent,joint⟩ := quiet
  dsimp only at joint
  intro dead
  obtain ⟨_,waiting,stuck⟩ := dead
  cases joint <;> simp [clientBlocked,serverBlocked] at waiting stuck

def toAccept : List Event :=
  [.openTransport true,.call,.take,.fetchVersion,.reply,.answer,.call,.take,.socket,.bind,.listen,.wake]

def inAccept (file : List Byte) : State :=
  ⟨.awaitGet,.accepting,[],[],true,.absent,FileTransfer.initial file⟩

theorem reachesAccept (file) : run ⟨true,true,true⟩ file toAccept = some (inAccept file) := rfl

theorem acceptDeadlocked (file) : Deadlocked (inAccept file) := ⟨by simp [inAccept],rfl,rfl⟩

theorem deadlockFreeExactly (r : Results) (file : List Byte) :
    (∀ events last, run r file events = some last → ¬ Deadlocked last) ↔
      (r.socket = false ∨ r.bind = false ∨ r.listen = false) := by
  refine ⟨fun free => ?_,fun fails events last ran => ?_⟩
  · obtain ⟨socket,bind,listen⟩ := r
    cases socket with
    | false => exact Or.inl rfl
    | true => cases bind with
      | false => exact Or.inr (Or.inl rfl)
      | true => cases listen with
        | false => exact Or.inr (Or.inr rfl)
        | true => exact absurd (acceptDeadlocked file) (free toAccept _ (reachesAccept file))
  · have deaf : ¬ (r.socket = true ∧ r.bind = true ∧ r.listen = true) := by
      intro all
      obtain ⟨created,bound,ready⟩ := all
      simp [created,bound,ready] at fails
    exact quietLive (Trace.attemptInvariant (quietStep deaf) (quietInitial r file) ran)

theorem handlerWaitsForClient :
    ∃ events last, run ⟨true,true,true⟩ [] events = some last ∧ Deadlocked last ∧
      ∀ e, step ⟨true,true,true⟩ last e = none := by
  refine ⟨toAccept,inAccept [],reachesAccept [],acceptDeadlocked [],fun e => ?_⟩
  cases e with
  | transfer c =>
    simp only [step,transferStep,inAccept]
    split <;> rfl
  | _ => rfl

end PracticeSuite.VersionUpdate
