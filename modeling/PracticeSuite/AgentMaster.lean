import PracticeSuite.AgentScan

/-! The agent's two tables and the five operations on them. Forks, the clock, the
server and the folder are inputs; a child of a fork never returns to the tables, so
only the parent's side is followed. -/
namespace PracticeSuite.Agent

structure Tables where
  listLibs : List Process
  listProcess : List Process
  deriving DecidableEq, Repr

structure Fork where
  failures : Nat
  pid : Int
  deriving DecidableEq, Repr

structure Start extends Fork where
  timeDeath : Int
  deriving DecidableEq, Repr

def popBack : Nat → List Process → Except Fault (List Process)
  | 0,listProcess => .ok listProcess
  | _+1,[] => .error .overrun
  | failures+1,p::rest => popBack failures (p::rest).dropLast

def started (start : Start) (lib : Process) : Process :=
  ⟨start.pid,lib.pName,lib.num1,lib.num2,lib.num3,lib.type,lib.time,lib.arg,lib.status,start.timeDeath⟩

def pushStarted (start : Start) (lib : Process) (listProcess : List Process) : Except Fault (List Process) := do
  let kept ← popBack start.failures listProcess
  .ok (kept ++ [started start lib])

def startLoop (starts : Nat → Start) : Nat → List Process → List Process → Except Fault (List Process)
  | _,[],listProcess => .ok listProcess
  | i,lib::rest,listProcess => do
    let listProcess ← pushStarted (starts i) lib listProcess
    startLoop starts (i+1) rest listProcess

def startAll (starts : Nat → Start) (t : Tables) : Except Fault Tables := do
  let listProcess ← startLoop starts 0 t.listLibs t.listProcess
  .ok {t with listProcess := listProcess}

def launch (folder : Folder) (starts : Nat → Start) : Except Fault Tables := do
  let listLibs ← scan folder
  startAll starts ⟨listLibs,[]⟩

structure Look where
  folder : Folder
  junk : Nat → Process
  start : Start

def isNew (listLibs : List Process) (lib : Process) : Bool := listLibs.all (fun l => lib.pName ≠ l.pName)

/- The time field of a new record is read from `type`. -/
def newRecord (junk lib : Process) : Process :=
  {junk with
    pName := lib.pName,num1 := lib.num1,num2 := lib.num2,num3 := lib.num3,
    type := lib.type,time := lib.type,arg := lib.arg,status := lib.status}

def checkLoop (listLibs : List Process) (junk : Nat → Process) : Nat → List Process → List Process
  | _,[] => []
  | i,lib::rest =>
    if isNew listLibs lib then newRecord (junk i) lib :: checkLoop listLibs junk (i+1) rest
    else checkLoop listLibs junk (i+1) rest

def check (look : Look) (t : Tables) : Except Fault (List Process × Tables) := do
  let libNew ← scan look.folder
  let both := checkLoop t.listLibs look.junk 0 libNew
  .ok (both,{t with listLibs := t.listLibs ++ both})

/- The loop over the new records returns from its first round. -/
def checkNew (look : Look) (t : Tables) : Except Fault Tables := do
  let (libNew,t) ← check look t
  match libNew with
  | [] => .ok t
  | lib::_ => do
    let listProcess ← pushStarted look.start lib t.listProcess
    .ok {t with listProcess := listProcess}

structure Pass where
  alive : Nat → Bool
  now : Int
  forks : Nat → Fork

/- The switch of checkState, for a dead entry. The flag says whether control leaves
the switch by `break` and reaches the fork, or `continue`s with the next entry. -/
def deathSwitch (now : Int) (p : Process) : Process × Bool :=
  if p.type = 0 then
    if p.status = 1 then ({p with status := 0},false) else (p,false)
  else if p.type = 1 then
    if p.status = 1 then ({p with timeDeath := now,status := 0},false)
    else if p.status = 0 then
      if now - p.timeDeath > p.time then ({p with status := 1},true) else (p,false)
    else (p,true)
  else (p,true)

def visit (pass : Pass) (i : Nat) (p : Process) : Process :=
  if pass.alive i then p
  else
    let (p,forks) := deathSwitch pass.now p
    if forks then {p with pPid := (pass.forks i).pid} else p

def checkState (pass : Pass) (listProcess : List Process) : List Process := listProcess.mapIdx (visit pass)

def agentchildForder : Str := "/home/tuantu/Desktop/apps/AgentChild/bin/".toList

/- One round of the update loop: the server's answer to client.check, and what
checkNew meets if it is called. -/
structure Round where
  newFile : Str
  look : Look

inductive Act where
  | asked (pName : Str) (num1 num2 num3 : Int)
  | wrote (file : Str)
  | killed (pid : Int)
  deriving DecidableEq, Repr

structure Update where
  tables : Tables
  empfile : Str
  acts : List Act
  deriving DecidableEq, Repr

def replaceEntry (round : Round) (i : Nat) (p : Process) (s : Update) : Except Fault Update :=
  let empfile := s.empfile ++ round.newFile
  if i < s.tables.listLibs.length then do
    let tables ← checkNew round.look ⟨s.tables.listLibs.eraseIdx i,s.tables.listProcess.eraseIdx i⟩
    .ok ⟨tables,empfile,s.acts ++ [.wrote empfile,.killed p.pPid]⟩
  else .error .overrun

def updateLoop (rounds : Nat → Round) : Nat → Nat → Update → Except Fault Update
  | 0,_,s => .ok s
  | fuel+1,i,s => match s.tables.listProcess[i]? with
    | none => .ok s
    | some p =>
      let s := {s with acts := s.acts ++ [.asked p.pName p.num1 p.num2 p.num3]}
      if (rounds i).newFile = [] then updateLoop rounds fuel (i+1) s
      else do
        let s ← replaceEntry (rounds i) i p s
        updateLoop rounds fuel (i+1) s

def update (rounds : Nat → Round) (t : Tables) : Except Fault Update :=
  updateLoop rounds t.listProcess.length 0 ⟨t,agentchildForder,[]⟩

inductive Event where
  | checkState (pass : Pass)
  | checkNew (look : Look)
  | update (rounds : Nat → Round)

def step (t : Tables) : Event → Except Fault Tables
  | .checkState pass => .ok {t with listProcess := checkState pass t.listProcess}
  | .checkNew look => checkNew look t
  | .update rounds => do
    let s ← update rounds t
    .ok s.tables

def run (t : Tables) : List Event → Except Fault Tables
  | [] => .ok t
  | e::rest => do
    let t ← step t e
    run t rest

theorem bindOk {α β : Type} {x : Except Fault α} {f : α → Except Fault β} {b : β} :
    x.bind f = .ok b ↔ ∃ a, x = .ok a ∧ f a = .ok b := by
  cases x <;> simp [Except.bind]

theorem popBackLength {failures l l'} (done : popBack failures l = .ok l') : l'.length + failures = l.length := by
  induction failures generalizing l with
  | zero =>
    cases Except.ok.inj done
    rfl
  | succ failures ih =>
    cases l with
    | nil => cases done
    | cons p rest =>
      have shorter := ih done
      simp only [List.length_dropLast,List.length_cons] at shorter ⊢
      omega

theorem popBackDone {failures l} (enough : failures ≤ l.length) : popBack failures l = .ok (l.take (l.length - failures)) := by
  induction failures generalizing l with
  | zero => simp [popBack]
  | succ failures ih =>
    cases l with
    | nil => cases enough
    | cons p rest =>
      have shorter : (p::rest).dropLast.length = rest.length := by simp
      have fewer := Nat.le_of_succ_le_succ enough
      rw [popBack,ih (by omega),shorter,List.dropLast_eq_take,List.take_take]
      congr 2
      simp only [List.length_cons]
      omega

theorem checkLoopHead {listLibs l r} (junk i) (first : (l.filter (isNew listLibs)).head? = some r) :
    ∃ j rest, checkLoop listLibs junk i l = newRecord (junk j) r :: rest := by
  induction l generalizing i with
  | nil => cases first
  | cons lib rest ih =>
    simp only [checkLoop]
    split
    · rename_i new
      rw [List.filter_cons_of_pos new] at first
      cases Option.some.inj first
      exact ⟨i,_,rfl⟩
    · rename_i old
      rw [List.filter_cons_of_neg old] at first
      exact ih (i+1) first

theorem checkNewLength {look t t'} (done : checkNew look t = .ok t') :
    t'.listProcess.length ≤ t.listProcess.length + 1 := by
  obtain ⟨⟨both,middle⟩,checked,rest⟩ := bindOk.mp done
  obtain ⟨libNew,scanned,same⟩ := bindOk.mp checked
  obtain ⟨rfl,rfl⟩ := Prod.mk.inj (Except.ok.inj same)
  dsimp only at rest
  split at rest
  · cases Except.ok.inj rest
    exact Nat.le_succ _
  · obtain ⟨l,pushed,last⟩ := bindOk.mp rest
    obtain ⟨kept,popped,more⟩ := bindOk.mp pushed
    cases Except.ok.inj more
    cases Except.ok.inj last
    have shorter := popBackLength popped
    simp only [List.length_append,List.length_singleton]
    omega

theorem replaceEntryLength {round i p s s'} (found : s.tables.listProcess[i]? = some p)
    (done : replaceEntry round i p s = .ok s') :
    s'.tables.listProcess.length ≤ s.tables.listProcess.length := by
  unfold replaceEntry at done
  dsimp only at done
  split at done <;> try contradiction
  obtain ⟨tables,renewed,last⟩ := bindOk.mp done
  cases Except.ok.inj last
  obtain ⟨inside,_⟩ := List.getElem?_eq_some_iff.mp found
  have bound := checkNewLength renewed
  simp only [List.length_eraseIdx_of_lt inside] at bound
  dsimp only
  omega

end PracticeSuite.Agent
