import PracticeSuite.AgentScan

/-! The log of the agent: writeLog saves the process table as one line of JSON, an
array of flat objects, and readLog restores a table from it. The JSON library is a
parameter; what the log relies on is that it reads back the array it wrote. -/
namespace PracticeSuite.Agent

inductive Value where
  | int (n : Int)
  | text (s : Str)
  deriving DecidableEq, Repr

abbrev Object := List (Str × Value)

def Object.set (key : Str) (value : Value) : Object → Object
  | [] => [(key,value)]
  | (k,v)::rest =>
    if key < k then (key,value) :: (k,v) :: rest
    else if key = k then (key,value) :: rest
    else (k,v) :: Object.set key value rest

def Object.get (object : Object) (key : Str) : Option Value := (object.find? (fun m => m.1 = key)).map Prod.snd

structure Json where
  stringify : List Object → Str
  parse : Str → Option (List Object)

def getInt (object : Object) (key : Str) : Except Fault Int :=
  match object.get key with
  | some (.int n) => .ok n
  | _ => .error .badConfig

def getString (object : Object) (key : Str) : Except Fault Str :=
  match object.get key with
  | some (.text s) => .ok s
  | _ => .error .badConfig

def logEntry (p : Process) : Object :=
  let object := Object.set "p_pid".toList (.int p.pPid) []
  let object := Object.set "p_name".toList (.text p.pName) object
  let object := Object.set "num1".toList (.int p.num1) object
  let object := Object.set "num2".toList (.int p.num2) object
  let object := Object.set "num3".toList (.int p.num3) object
  let object := Object.set "type".toList (.int p.type) object
  let object := Object.set "time".toList (.int p.time) object
  let object := Object.set "arg".toList (.text p.arg) object
  Object.set "status".toList (.int p.status) object

def logArray (listProcess : List Process) : List Object := listProcess.map logEntry

def writeLog (json : Json) (listProcess : List Process) : Str := json.stringify (logArray listProcess) ++ ['\n']

def fgetsLine : Nat → Str → Str
  | 0,_ => []
  | _,[] => []
  | n+1,c::rest => if c = '\n' then [c] else c :: fgetsLine n rest

def fgets (size : Nat) (file : Str) : Option Str :=
  if file = [] then none else some (fgetsLine (size-1) file)

/- `p` is a local variable without initialiser: `junk` is what its integers hold;
its strings start out empty. -/
def readEntry (junk : Process) (object : Object) : Except Fault Process := do
  let pPid ← getInt object "p_pid".toList
  let pName ← getString object "p_name".toList
  let num1 ← getInt object "num1".toList
  let num2 ← getInt object "num2".toList
  let num3 ← getInt object "num3".toList
  .ok {junk with pPid := pPid,pName := pName,num1 := num1,num2 := num2,num3 := num3,arg := []}

def readEntries (junk : Nat → Process) : Nat → List Object → Except Fault (List Process)
  | _,[] => .ok []
  | i,object::rest => do
    let p ← readEntry (junk i) object
    let later ← readEntries junk (i+1) rest
    .ok (p::later)

def readLog (json : Json) (junk : Nat → Process) (log : Option Str) : Except Fault (List Process) :=
  match log with
  | none => .ok []
  | some file =>
    match fgets 8196 file with
    | none => .ok []
    | some buffer =>
      match json.parse (buffer.takeWhile (· ≠ Char.ofNat 0)) with
      | none => .error .badConfig
      | some arr => readEntries junk 0 arr

/- What the log relies on for the array it writes: the text is a single line
without a zero byte, and it parses to the array with or without the line end. -/
structure RoundTrips (json : Json) (arr : List Object) : Prop where
  line : ∀ c ∈ json.stringify arr, c ≠ '\n' ∧ c ≠ Char.ofNat 0
  parses : json.parse (json.stringify arr) = some arr ∧ json.parse (json.stringify arr ++ ['\n']) = some arr

def Saved (p q : Process) : Prop :=
  q.pPid = p.pPid ∧ q.pName = p.pName ∧ q.num1 = p.num1 ∧ q.num2 = p.num2 ∧ q.num3 = p.num3 ∧
  q.type = p.type ∧ q.time = p.time ∧ q.arg = p.arg ∧ q.status = p.status

def Restores (json : Json) (listProcess : List Process) : Prop :=
  ∀ junk, ∃ restored, readLog json junk (some (writeLog json listProcess)) = .ok restored ∧
    List.Forall₂ Saved listProcess restored

theorem getSet (object : Object) (key key' : Str) (value : Value) :
    (Object.set key value object).get key' = if key' = key then some value else object.get key' := by
  induction object with
  | nil =>
    by_cases same : key' = key <;> simp [Object.set,Object.get,same,eq_comm]
  | cons m rest ih =>
    obtain ⟨k,v⟩ := m
    unfold Object.get at ih ⊢
    simp only [Object.set]
    split
    · by_cases same : key' = key <;> simp [same,eq_comm]
    · split
      · rename_i here
        subst here
        by_cases same : key' = key <;> simp [same,eq_comm]
      · rename_i other
        by_cases found : k = key'
        · subst found
          simp [Ne.symm other]
        · simp only [List.find?_cons,found,decide_false]
          exact ih

def restoredEntry (junk p : Process) : Process :=
  {junk with pPid := p.pPid,pName := p.pName,num1 := p.num1,num2 := p.num2,num3 := p.num3,arg := []}

theorem readLogEntry (junk p : Process) : readEntry junk (logEntry p) = .ok (restoredEntry junk p) := by
  simp only [readEntry,getInt,getString,logEntry,getSet]
  rfl

theorem savedRestored (junk p : Process) :
    Saved p (restoredEntry junk p) ↔
      junk.type = p.type ∧ junk.time = p.time ∧ p.arg = [] ∧ junk.status = p.status := by
  simp only [Saved,restoredEntry,true_and,eq_comm]

theorem readLogEntries (junk : Nat → Process) (i : Nat) (listProcess : List Process) :
    ∃ restored, readEntries junk i (logArray listProcess) = .ok restored ∧
      List.Forall₂ (fun p q => ∃ j, q = restoredEntry (junk j) p) listProcess restored := by
  induction listProcess generalizing i with
  | nil => exact ⟨[],rfl,.nil⟩
  | cons p rest ih =>
    obtain ⟨later,read,each⟩ := ih (i+1)
    refine ⟨restoredEntry (junk i) p :: later,?_,.cons ⟨i,rfl⟩ each⟩
    simp only [logArray,List.map_cons,readEntries,readLogEntry,bind,Except.bind]
    simp only [logArray] at read
    rw [read]

theorem fgetsWritten {text : Str} (line : ∀ c ∈ text, c ≠ '\n') {n : Nat} (fits : text.length ≤ n) :
    fgetsLine n (text ++ ['\n']) = text ∨ fgetsLine n (text ++ ['\n']) = text ++ ['\n'] := by
  induction text generalizing n with
  | nil =>
    cases n with
    | zero => exact Or.inl rfl
    | succ n => exact Or.inr rfl
  | cons c rest ih =>
    cases n with
    | zero => simp at fits
    | succ n =>
      have inside := ih (fun d mem => line d (List.mem_cons_of_mem c mem)) (Nat.le_of_succ_le_succ fits)
      simp only [List.cons_append,fgetsLine,if_neg (line c List.mem_cons_self)]
      exact inside.imp (congrArg (c :: ·)) (congrArg (c :: ·))

theorem readWritten {json : Json} {listProcess : List Process} (sound : RoundTrips json (logArray listProcess))
    (fits : (json.stringify (logArray listProcess)).length ≤ 8195) (junk : Nat → Process) :
    readLog json junk (some (writeLog json listProcess)) = readEntries junk 0 (logArray listProcess) := by
  have whole : ∀ c ∈ json.stringify (logArray listProcess) ++ ['\n'], decide (c ≠ Char.ofNat 0) = true := by
    intro c mem
    rcases List.mem_append.mp mem with inside | last
    · exact decide_eq_true (sound.line c inside).2
    · rw [List.mem_singleton.mp last]
      decide
  have text := fun c mem => whole c (List.mem_append_left ['\n'] mem)
  simp only [readLog,fgets,writeLog,List.append_eq_nil_iff,List.cons_ne_nil,and_false,if_false]
  rcases fgetsWritten (fun c mem => (sound.line c mem).1) fits with short | long
  · rw [short,List.takeWhile_eq_self_iff.mpr text,sound.parses.1]
  · rw [long,List.takeWhile_eq_self_iff.mpr whole,sound.parses.2]

theorem restoresExactly (json : Json) (listProcess : List Process)
    (sound : RoundTrips json (logArray listProcess))
    (fits : (json.stringify (logArray listProcess)).length ≤ 8195) :
    Restores json listProcess ↔ listProcess = [] := by
  refine ⟨fun restores => ?_,fun empty junk => ?_⟩
  · cases listProcess with
    | nil => rfl
    | cons p rest =>
      -- a stray value of `type` that is not the saved one
      obtain ⟨restored,read,saved⟩ := restores (fun _ => {p with type := p.type+1})
      rw [readWritten sound fits] at read
      obtain ⟨entries,read',each⟩ := readLogEntries (fun _ => {p with type := p.type+1}) 0 (p::rest)
      cases Except.ok.inj (read.symm.trans read')
      cases each with
      | cons first later =>
        obtain ⟨j,rfl⟩ := first
        have type_ := ((savedRestored _ p).mp (List.forall₂_cons.mp saved).1).1
        dsimp only at type_
        omega
  · subst empty
    exact ⟨[],readWritten sound fits junk,.nil⟩

def emptyJson : Json where
  stringify _ := ['[',']']
  parse s := if s = ['[',']'] ∨ s = ['[',']','\n'] then some [] else none

theorem restoresEmpty : Restores emptyJson [] := by
  have sound : RoundTrips emptyJson (logArray []) := ⟨by simp [emptyJson],rfl,rfl⟩
  exact (restoresExactly emptyJson [] sound (by simp [emptyJson])).mpr rfl

def loggedProcess : Process := ⟨100,"a".toList,1,0,0,1,5,"-v".toList,1,0⟩

def loggedText : Str :=
  "[\x7b\"arg\":\"-v\",\"num1\":1,\"num2\":0,\"num3\":0,\"p_name\":\"a\",\"p_pid\":100,\"status\":1,\"time\":5,\"type\":1\x7d]".toList

def loggedJson : Json where
  stringify _ := loggedText
  parse s := if s = loggedText ∨ s = loggedText ++ ['\n'] then some (logArray [loggedProcess]) else none

theorem logLosesFields :
    RoundTrips loggedJson (logArray [loggedProcess]) ∧ loggedText.length ≤ 8195 ∧
      ¬ Restores loggedJson [loggedProcess] := by
  have sound : RoundTrips loggedJson (logArray [loggedProcess]) := by
    have plain : loggedText.all (fun c => c ≠ '\n' && c ≠ Char.ofNat 0) = true := by decide +kernel
    refine ⟨fun c mem => ?_,?_,?_⟩
    · simpa using List.all_eq_true.mp plain c mem
    · simp only [loggedJson,true_or,if_true]
    · simp only [loggedJson,or_true,if_true]
  have count : loggedText.length = 95 := by decide +kernel
  have fits : loggedText.length ≤ 8195 := by omega
  refine ⟨sound,fits,fun restores => ?_⟩
  obtain ⟨restored,read,saved⟩ := restores (fun _ => {loggedProcess with type := 0})
  rw [readWritten sound fits] at read
  cases Except.ok.inj read
  have type_ := (List.forall₂_cons.mp saved).1.2.2.2.2.2.1
  contradiction

end PracticeSuite.Agent
