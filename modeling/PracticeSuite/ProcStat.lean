import PracticeSuite.Scanf
import PracticeSuite.AgentLog

/-! The readers of /proc/[pid]/stat, readProc and Proc::fetchInfoCpu. Both scan one line of
fifty-two fields with the same format. The second field is the command name, which the
kernel writes between parentheses and which may hold any character but NUL. -/
namespace PracticeSuite.ProcStat
open Scanf
open Agent (Str isspace isspaceCode blankSpace fgets fgetsLine)

inductive Local where
  | id | name | state | ppid | pgrp | session | ttyNr | tpgid | flags | minflt | cminflt | majflt | cmajflt
  | utime | stime | cutime | cstime | priority | nice | numThreads | itrealvalue | starttime | vsize | rss
  | rsslim | startcode | endcode | startstack | kstkesp | kstkeip | signal | blocked | sigignore | sigcatch
  | wchan | nswap | cnswap | exitSignal | processor | rtPriority | policy | delayacctBlkioTicks | guestTime
  | cguestTime | startData | endData | startBrk | argStart | argEnd | envStart | envEnd | exitCode
  deriving DecidableEq, Repr

def numbers : List (Local × CType) :=
  [(.ppid,.int),(.pgrp,.int),(.session,.int),(.ttyNr,.int),(.tpgid,.int),(.flags,.uint),(.minflt,.ulong),
    (.cminflt,.ulong),(.majflt,.ulong),(.cmajflt,.ulong),(.utime,.ulong),(.stime,.ulong),(.cutime,.long),
    (.cstime,.long),(.priority,.long),(.nice,.long),(.numThreads,.long),(.itrealvalue,.long),
    (.starttime,.ullong),(.vsize,.ulong),(.rss,.long),(.rsslim,.ulong),(.startcode,.ulong),(.endcode,.ulong),
    (.startstack,.ulong),(.kstkesp,.ulong),(.kstkeip,.ulong),(.signal,.ulong),(.blocked,.ulong),
    (.sigignore,.ulong),(.sigcatch,.ulong),(.wchan,.ulong),(.nswap,.ulong),(.cnswap,.ulong),
    (.exitSignal,.int),(.processor,.int),(.rtPriority,.uint),(.policy,.uint),(.delayacctBlkioTicks,.ullong),
    (.guestTime,.ulong),(.cguestTime,.long),(.startData,.ulong),(.endData,.ulong),(.startBrk,.ulong),
    (.argStart,.ulong),(.argEnd,.ulong),(.envStart,.ulong),(.envEnd,.ulong),(.exitCode,.int)]

def format : List (Directive Local) :=
  .convert .id (.number .int) :: spaced ((.name,.word) :: (.state,.char) :: numbers.map numeric)

structure Stat where
  comm : Str
  state : Char
  number : Local → Int
  commLength : 1 ≤ comm.length ∧ comm.length ≤ 15
  commBytes : ∀ c ∈ comm, c ≠ '\x00'
  stateLetter : state.isAlpha = true
  inRange : ∀ f ∈ (.id,.int) :: numbers, f.2.InRange (number f.1)

def statLine (s : Stat) : Str :=
  decimal (s.number .id) ++ ' ' :: '(' :: s.comm ++ ')' :: ' ' :: s.state ::
    numbers.flatMap (fun f => ' ' :: decimal (s.number f.1)) ++ ['\n']

def readStat (size : Nat) (other : CType → Int → Int) (file : Str) (locals : Local → Value) : Local → Value :=
  match fgets size file with
  | none => locals
  | some buffer => sscanf isspace other format buffer locals

structure Counters where
  utime : Nat
  stime : Nat
  cutime : Nat
  cstime : Nat
  lastTime : Int
  deriving DecidableEq, Repr

structure TimeInfo extends Counters where
  pid : Int
  deriving DecidableEq, Repr

def toInteger : Value → Int
  | .number n => n
  | _ => 0

def toUnsigned (v : Value) : Nat := (toInteger v % 2^64).toNat

def counters (locals : Local → Value) (ms : Int) : Counters :=
  ⟨toUnsigned (locals .utime),toUnsigned (locals .stime),toUnsigned (locals .cutime),toUnsigned (locals .cstime),ms⟩

def updateTask (id : Int) (c : Counters) : List TimeInfo → List TimeInfo
  | [] => [⟨c,id⟩]
  | temp::next => if temp.pid = id then ⟨c,temp.pid⟩::next else temp::updateTask id c next

/- char path[13] in readMem and in readProc -/
def pathSize : Nat := 13

/- sprintf into a char array. A text that does not fit with its NUL overruns the array, which is undefined. -/
def sprintf (size : Nat) (text : Str) : Option Str := if text.length < size then some text else none

def pathProc : Str := "/proc".toList
def procStat : Str := "/stat".toList
def procStatm : Str := "/statm".toList

def readMem (size : Nat) (pid : Str) : Option Str := sprintf size (pathProc ++ '/' :: pid ++ procStatm)

/- `size` is that of both arrays. What is printed is left out, with the quotient cpu_used that only the print reads. -/
def readProc (size : Nat) (other : CType → Int → Int) (pid : Str) (procinfo : Option Str) (locals : Local → Value) (ms : Int)
    (ltask : List TimeInfo) : Option (Int × List TimeInfo) := do
  let _ ← sprintf size (pathProc ++ '/' :: pid ++ procStat)
  match procinfo with
  | none => some (-1,ltask)
  | some file =>
    let read := readStat 8192 other file locals
    let ltask := updateTask (toInteger (read .id)) (counters read ms) ltask
    let _ ← readMem size pid
    some (1,ltask)

def fetchInfoCpu (other : CType → Int → Int) (procinfo : Option Str) (locals : Local → Value) (ms : Int)
    (time : Counters) : Counters :=
  match procinfo with
  | none => time
  | some file => counters (readStat (1 <<< 14) other file locals) ms

structure Recovered (s : Stat) (locals : Local → Value) : Prop where
  state : locals .state = .char s.state
  utime : locals .utime = .number (s.number .utime)
  stime : locals .stime = .number (s.number .stime)
  cutime : locals .cutime = .number (s.number .cutime)
  cstime : locals .cstime = .number (s.number .cstime)

def Recovers (size : Nat) (other : CType → Int → Int) (s : Stat) : Prop :=
  ∀ locals, Recovered s (readStat size other (statLine s) locals)

def Spaceless (s : Stat) : Prop := ∀ c ∈ s.comm, isspace c = false

theorem letterCode {c : Char} (letter : c.isAlpha = true) : 65 ≤ c.toNat := by
  unfold Char.isAlpha Char.isUpper Char.isLower at letter
  simp only [Bool.or_eq_true,Bool.and_eq_true,decide_eq_true_eq] at letter
  rcases letter with ⟨low,-⟩ | ⟨low,-⟩
  · exact low
  · exact le_trans (by decide) low

theorem stateVisible (s : Stat) : isspace s.state = false := by
  by_contra space
  have code := isspaceCode (Bool.not_eq_false _ ▸ space)
  have letter := letterCode s.stateLetter
  omega

def numberItem (s : Stat) (f : Local × CType) : Item Local :=
  ⟨f.1,.number f.2,decimal (s.number f.1),.number (s.number f.1)⟩

def items (s : Stat) : List (Item Local) :=
  ⟨.name,.word,'(' :: s.comm ++ [')'],.text ('(' :: s.comm ++ [')'])⟩ :: ⟨.state,.char,[s.state],.char s.state⟩ ::
    numbers.map (numberItem s)

theorem lineItems (s : Stat) : statLine s = decimal (s.number .id) ++ written (items s) ++ ['\n'] := by
  simp [statLine,written,items,numberItem,List.flatMap_map]

theorem formatItems (s : Stat) :
    format = .convert .id (.number .int) :: spaced ((items s).map Item.directive) := by
  unfold format items
  simp only [List.map_cons,List.map_map]
  rfl

theorem itemsVisible {s : Stat} (spaceless : Spaceless s) : ∀ f ∈ items s, ∀ c ∈ f.text, isspace c = false := by
  intro f mem c inside
  unfold items at mem
  simp only [List.mem_cons,List.mem_map] at mem
  rcases mem with name | state | ⟨g,-,number⟩
  · subst name
    simp only [List.cons_append,List.mem_cons,List.mem_append,List.not_mem_nil,or_false] at inside
    rcases inside with opening | comm | closing
    · subst opening; decide
    · exact spaceless c comm
    · subst closing; decide
  · subst state
    rw [List.mem_singleton.mp inside]
    exact stateVisible s
  · subst number
    exact decimalBlankless blankSpace _ c inside

theorem itemsClean (other) {s : Stat} (spaceless : Spaceless s) : ∀ f ∈ items s, f.Clean isspace other := by
  intro f mem
  have visible := itemsVisible spaceless f mem
  unfold items at mem
  simp only [List.mem_cons,List.mem_map] at mem
  rcases mem with name | state | ⟨g,listed,number⟩
  · subst name
    exact wordClean other (by simp) visible _
  · subst state
    exact charClean other (stateVisible s) _
  · subst number
    exact numberClean blankSpace other (s.inRange g (List.mem_cons_of_mem _ listed)) _

theorem rangeBound {t : CType} {n : Int} (inside : t.InRange n) : n.natAbs < 10^20 := by
  unfold CType.InRange at inside
  cases t <;> simp only [CType.signed,CType.width] at inside <;> norm_num at inside ⊢ <;> omega

theorem decimalLength {t : CType} {n : Int} (inside : t.InRange n) : (decimal n).length ≤ 21 := by
  have bound := rangeBound inside
  cases n with
  | ofNat n =>
    have short := (Nat.length_toDigits_le_iff (b := 10) (n := n) (k := 20) (by decide) (by decide)).mpr bound
    simp only [decimal]
    omega
  | negSucc n =>
    have short := (Nat.length_toDigits_le_iff (b := 10) (n := n+1) (k := 20) (by decide) (by decide)).mpr bound
    simp only [decimal,List.length_cons]
    omega

theorem itemsLength (s : Stat) : ∀ f ∈ items s, f.text.length ≤ 21 := by
  intro f mem
  unfold items at mem
  simp only [List.mem_cons,List.mem_map] at mem
  rcases mem with name | state | ⟨g,listed,number⟩
  · subst name
    have short := s.commLength.2
    simp only [List.cons_append,List.length_cons,List.length_append,List.length_nil]
    omega
  · subst state
    exact Nat.one_le_of_lt (by decide : 0 < 21)
  · subst number
    exact decimalLength (s.inRange g (List.mem_cons_of_mem _ listed))

theorem lineLength (s : Stat) : (decimal (s.number .id) ++ written (items s)).length ≤ 1143 := by
  have pid := decimalLength (s.inRange (.id,.int) List.mem_cons_self)
  have rest := writtenLength (itemsLength s)
  have count : (items s).length = 51 := rfl
  rw [count] at rest
  rw [List.length_append]
  dsimp only at pid
  omega

theorem lineUnbroken {s : Stat} (spaceless : Spaceless s) :
    ∀ c ∈ decimal (s.number .id) ++ written (items s), c ≠ '\n' := by
  rintro c mem rfl
  rcases List.mem_append.mp mem with pid | rest
  · cases decimalBlankless blankSpace _ _ pid
  · obtain ⟨f,listed,inside⟩ := List.mem_flatMap.mp rest
    rcases List.mem_cons.mp inside with blank | text
    · cases blank
    · cases itemsVisible spaceless f listed _ text

theorem scanLine (other) {s : Stat} (spaceless : Spaceless s) {tail : Str} (next : ∀ c ∈ tail.head?, isspace c = true) :
    scan isspace other format (decimal (s.number .id) ++ written (items s) ++ tail) =
      (.id,.number (s.number .id)) :: (items s).map Item.assigned := by
  have pid := (numberClean blankSpace other (s.inRange (.id,.int) List.mem_cons_self) Local.id).readBack
    (written (items s) ++ tail) (writtenNext blankSpace (items s) next)
  have rest := scanWritten blankSpace (items s) (itemsClean other spaceless) [] next
  rw [List.append_nil] at rest
  rw [formatItems s,List.append_assoc]
  refine (scanConvert isspace other pid _ _).trans (congrArg _ (rest.trans ?_))
  exact List.append_nil _

theorem bufferOf {s : Stat} (spaceless : Spaceless s) {size : Nat} (large : 1143 < size) :
    ∃ tail : Str, (∀ c ∈ tail.head?, isspace c = true) ∧
      fgets size (statLine s) = some (decimal (s.number .id) ++ written (items s) ++ tail) := by
  have fits : (decimal (s.number .id) ++ written (items s)).length ≤ size-1 := by
    have short := lineLength s
    omega
  have nonempty : statLine s ≠ [] := by
    rw [lineItems]
    exact List.append_ne_nil_of_right_ne_nil _ (List.cons_ne_nil _ _)
  rw [fgets,if_neg nonempty,lineItems]
  rcases Agent.fgetsWritten (lineUnbroken spaceless) fits with cut | whole
  · exact ⟨[],by simp,by rw [cut,List.append_nil]⟩
  · refine ⟨['\n'],fun c mem => ?_,by rw [whole]⟩
    cases mem
    decide

theorem targetsDistinct : (Local.id :: Local.name :: Local.state :: numbers.map Prod.fst).Nodup := by decide

theorem readLocal (other) {s : Stat} (spaceless : Spaceless s) {size : Nat} (large : 1143 < size) {a : Local} {value : Value}
    (mem : (a,value) ∈ (.id,.number (s.number .id)) :: (items s).map Item.assigned) (locals) :
    readStat size other (statLine s) locals a = value := by
  obtain ⟨tail,next,line⟩ := bufferOf spaceless large
  unfold readStat
  rw [line]
  unfold sscanf
  dsimp only
  rw [scanLine other spaceless next]
  have distinct : (((Local.id,Value.number (s.number .id)) :: (items s).map Item.assigned).map Prod.fst).Nodup :=
    targetsDistinct
  exact assignOf distinct mem locals

theorem recoversSpaceless (other) {s : Stat} (spaceless : Spaceless s) {size : Nat} (large : 1143 < size) :
    Recovers size other s := by
  intro locals
  have number : ∀ f ∈ numbers, readStat size other (statLine s) locals f.1 = .number (s.number f.1) := by
    intro f mem
    refine readLocal other spaceless large (List.mem_cons_of_mem _ ?_) locals
    exact List.mem_map.mpr ⟨numberItem s f,List.mem_cons_of_mem _ (List.mem_cons_of_mem _ (List.mem_map_of_mem mem)),rfl⟩
  have state : (Local.state,Value.char s.state) ∈ (items s).map Item.assigned :=
    List.mem_map.mpr ⟨_,List.mem_cons_of_mem _ List.mem_cons_self,rfl⟩
  exact ⟨readLocal other spaceless large (List.mem_cons_of_mem _ state) locals,number (.utime,.ulong) (by decide),
    number (.stime,.ulong) (by decide),
    number (.cutime,.long) (by decide),number (.cstime,.long) (by decide)⟩

def statCounters (s : Stat) (ms : Int) : Counters :=
  ⟨toUnsigned (.number (s.number .utime)),toUnsigned (.number (s.number .stime)),toUnsigned (.number (s.number .cutime)),
    toUnsigned (.number (s.number .cstime)),ms⟩

theorem Recovered.counters {s : Stat} {locals : Local → Value} (recovered : Recovered s locals) (ms : Int) :
    ProcStat.counters locals ms = statCounters s ms := by
  unfold ProcStat.counters statCounters
  rw [recovered.utime,recovered.stime,recovered.cutime,recovered.cstime]

theorem statFits (size : Nat) (pid : Str) : (sprintf size (pathProc ++ '/' :: pid ++ procStat)).isSome ↔ pid.length + 11 < size := by
  have length : (pathProc ++ '/' :: pid ++ procStat).length = pid.length + 11 := by simp [pathProc,procStat]
  rw [sprintf,length]
  split <;> simp [*]

theorem statmFits (size : Nat) (pid : Str) : (readMem size pid).isSome ↔ pid.length + 12 < size := by
  have length : (pathProc ++ '/' :: pid ++ procStatm).length = pid.length + 12 := by simp [pathProc,procStatm]
  rw [readMem,sprintf,length]
  split <;> simp [*]

def Fits (size : Nat) (pid : Str) (procinfo : Option Str) : Prop := pid.length + 11 < size ∧ (procinfo.isSome → pid.length + 12 < size)
instance (size pid procinfo) : Decidable (Fits size pid procinfo) := by unfold Fits; infer_instance

theorem readProcEq (size : Nat) (other) (pid : Str) (procinfo : Option Str) (locals ms ltask) :
    readProc size other pid procinfo locals ms ltask = if Fits size pid procinfo then some (match procinfo with
      | none => (-1,ltask)
      | some file => (1,updateTask (toInteger (readStat 8192 other file locals .id))
        (counters (readStat 8192 other file locals) ms) ltask)) else none := by
  have fits : Fits size pid procinfo ↔
      (sprintf size (pathProc ++ '/' :: pid ++ procStat)).isSome ∧ (procinfo.isSome → (readMem size pid).isSome) := by
    rw [statFits,statmFits,Fits]
  simp only [fits]
  unfold readProc
  cases sprintf size (pathProc ++ '/' :: pid ++ procStat) with
  | none => simp
  | some path =>
    cases procinfo with
    | none => simp
    | some file => cases readMem size pid <;> simp

theorem readersRecord (other) {s : Stat} (spaceless : Spaceless s) {size : Nat} {pid : Str} (fits : pid.length + 12 < size)
    (locals ms ltask time) :
    readProc size other pid (some (statLine s)) locals ms ltask = some (1,updateTask (s.number .id) (statCounters s ms) ltask) ∧
    fetchInfoCpu other (some (statLine s)) locals ms time = statCounters s ms := by
  have small : Recovers 8192 other s := recoversSpaceless other spaceless (by decide)
  have large : Recovers (1 <<< 14) other s := recoversSpaceless other spaceless (by decide)
  have id : readStat 8192 other (statLine s) locals .id = .number (s.number .id) :=
    readLocal other spaceless (by decide) List.mem_cons_self locals
  refine ⟨?_,(large locals).counters ms⟩
  rw [readProcEq,if_pos ⟨by omega,fun _ => fits⟩]
  simp only [id,(small locals).counters ms,toInteger]

theorem fgetsAppend {start : Str} (unbroken : ∀ c ∈ start, c ≠ '\n') {n : Nat} (fits : start.length ≤ n) (rest : Str) :
    fgetsLine n (start ++ rest) = start ++ fgetsLine (n - start.length) rest := by
  induction start generalizing n with
  | nil => rfl
  | cons c start ih =>
    cases n with
    | zero => cases fits
    | succ n =>
      have later := ih (fun d mem => unbroken d (List.mem_cons_of_mem _ mem)) (Nat.le_of_succ_le_succ fits)
      simp only [List.cons_append,fgetsLine,if_neg (unbroken c List.mem_cons_self),later,List.length_cons,Nat.add_sub_add_right]

theorem fgetsPrefix (n : Nat) (file : Str) : fgetsLine n file <+: file := by
  induction file generalizing n with
  | nil => cases n <;> exact List.nil_prefix
  | cons c rest ih =>
    cases n with
    | zero => exact List.nil_prefix
    | succ n =>
      unfold fgetsLine
      split
      · exact List.cons_prefix_cons.mpr ⟨rfl,List.nil_prefix⟩
      · exact List.cons_prefix_cons.mpr ⟨rfl,ih n⟩

theorem letterStops {c : Char} (letter : c.isAlpha = true) : reach isspace c = false := by
  have code := letterCode letter
  by_contra stands
  have reached : reach isspace c = true := Bool.not_eq_false _ ▸ stands
  unfold reach at reached
  simp only [Bool.or_eq_true,decide_eq_true_eq] at reached
  rcases reached with ((space | digit) | minus) | plus
  · have low := isspaceCode space
    omega
  · have low := digitCode digit
    omega
  · subst minus; cases letter
  · subst plus; cases letter

theorem reachName (post rest : Str) : ((post ++ ')' :: rest).takeWhile (reach isspace)).length ≤ post.length := by
  induction post with
  | nil => exact Nat.le_of_eq rfl
  | cons c post ih =>
    rw [List.cons_append,List.takeWhile_cons]
    split
    · exact Nat.succ_le_succ ih
    · exact Nat.zero_le _

theorem reachBehind {state : Char} (letter : state.isAlpha = true) (post more : Str) {c : Char} {rest : Str}
    (behind : (post ++ ')' :: ' ' :: state :: more).dropWhile isspace = c::rest) :
    (rest.takeWhile (reach isspace)).length ≤ max 1 (post.length-1) := by
  induction post with
  | nil =>
    cases behind
    have stops := letterStops letter
    have blank : reach isspace ' ' = true := by decide
    rw [List.takeWhile_cons_of_pos blank,List.takeWhile_cons_of_neg (by simp [stops])]
    exact Nat.le_max_left _ _
  | cons d post ih =>
    rw [List.cons_append,List.dropWhile_cons] at behind
    split at behind
    · have bound := ih behind
      simp only [List.length_cons]
      omega
    · cases behind
      have bound := reachName post (' ' :: state :: more)
      simp only [List.length_cons]
      omega

theorem reachCut {part whole : Str} (cut : part <+: whole) {c : Char} {rest : Str} (behind : part.dropWhile isspace = c::rest) :
    ∃ later, whole.dropWhile isspace = c::later ∧
      (rest.takeWhile (reach isspace)).length ≤ (later.takeWhile (reach isspace)).length := by
  obtain ⟨tail,eq⟩ := cut
  refine ⟨rest ++ tail,?_,?_⟩
  · rw [← eq,List.dropWhile_append,behind]
    rfl
  · rw [List.takeWhile_append]
    split
    · rename_i all
      rw [List.length_append]
      omega
    · exact Nat.le_refl _

def opened (pre : Str) : Item Local := ⟨.name,.word,'(' :: pre,.text ('(' :: pre)⟩

def behindState (s : Stat) : Str := numbers.flatMap (fun f => ' ' :: decimal (s.number f.1)) ++ ['\n']

theorem bufferBroken {s : Stat} {pre post : Str} {w : Char} (comm : s.comm = pre ++ w::post)
    (visible : ∀ c ∈ pre, isspace c = false) {size : Nat} (large : 1143 < size) :
    ∃ rest, rest <+: post ++ ')' :: ' ' :: s.state :: behindState s ∧
      fgets size (statLine s) = some (decimal (s.number .id) ++ (written [opened pre] ++ w::rest)) := by
  have line : statLine s = (decimal (s.number .id) ++ written [opened pre]) ++
      (w :: (post ++ ')' :: ' ' :: s.state :: behindState s)) := by
    simp [statLine,comm,written,opened,behindState]
  have unbroken : ∀ c ∈ decimal (s.number .id) ++ written [opened pre], c ≠ '\n' := by
    rintro c mem rfl
    simp only [written,opened,List.flatMap_cons,List.flatMap_nil,List.append_nil,List.mem_append,List.mem_cons] at mem
    rcases mem with pid | blank | opening | inside
    · cases decimalBlankless blankSpace _ _ pid
    · cases blank
    · cases opening
    · cases visible _ inside
  have fits : (decimal (s.number .id) ++ written [opened pre]).length + 1 ≤ size-1 := by
    have pid := decimalLength (s.inRange (.id,.int) List.mem_cons_self)
    have short := s.commLength.2
    rw [comm,List.length_append,List.length_cons] at short
    simp only [written,opened,List.flatMap_cons,List.flatMap_nil,List.length_append,List.length_cons,List.length_nil]
    dsimp only at pid
    omega
  have nonempty : statLine s ≠ [] := by
    rw [line]
    exact List.append_ne_nil_of_right_ne_nil _ (List.cons_ne_nil _ _)
  rw [fgets,if_neg nonempty,line,fgetsAppend unbroken (by omega)]
  obtain ⟨n,left⟩ : ∃ n, size - 1 - (decimal (s.number .id) ++ written [opened pre]).length = n+1 :=
    Nat.exists_eq_add_one_of_ne_zero (by omega)
  rw [left,List.append_assoc]
  by_cases newline : w = '\n'
  · exact ⟨[],List.nil_prefix,by rw [fgetsLine,if_pos newline]⟩
  · exact ⟨_,fgetsPrefix n _,by rw [fgetsLine,if_neg newline]⟩

theorem fewNumbers {assigned : List (Local × Value)} (order : assigned.map Prod.fst <+: numbers.map Prod.fst)
    (few : assigned.length ≤ 13) : .cstime ∉ assigned.map Prod.fst := by
  intro mem
  have early := List.IsPrefix.take order 13
  rw [List.take_of_length_le (by rw [List.length_map]; exact few)] at early
  have absent : Local.cstime ∉ (numbers.map Prod.fst).take 13 := by decide
  exact absent (early.subset mem)

theorem openedClean (other) {pre : Str} (visible : ∀ c ∈ pre, isspace c = false) : (opened pre).Clean isspace other := by
  refine wordClean other (List.cons_ne_nil _ _) (fun c inside => ?_) _
  rcases List.mem_cons.mp inside with opening | name
  · subst opening
    decide
  · exact visible c name

theorem scanOpened (other) (s : Stat) {pre rest : Str} {w : Char} (visible : ∀ c ∈ pre, isspace c = false)
    (space : isspace w = true) :
    scan isspace other format (decimal (s.number .id) ++ (written [opened pre] ++ w::rest)) =
      (.id,.number (s.number .id)) :: (opened pre).assigned ::
        scan isspace other (spaced ((.state,.char) :: numbers.map numeric)) (w::rest) := by
  have next : ∀ c ∈ (w::rest).head?, isspace c = true := by
    intro c mem
    cases mem
    exact space
  have clean : ∀ f ∈ [opened pre], f.Clean isspace other := by
    intro f mem
    rw [List.mem_singleton.mp mem]
    exact openedClean other visible
  have pid := (numberClean blankSpace other (s.inRange (.id,.int) List.mem_cons_self) Local.id).readBack
    (written [opened pre] ++ w::rest) (writtenNext blankSpace [opened pre] next)
  have word := scanWritten blankSpace [opened pre] clean ((.state,.char) :: numbers.map numeric) next
  exact (scanConvert isspace other pid _ _).trans (congrArg _ word)

theorem scanBroken (other) {s : Stat} {pre post rest : Str} {w : Char} (comm : s.comm = pre ++ w::post)
    (visible : ∀ c ∈ pre, isspace c = false) (space : isspace w = true)
    (cut : rest <+: post ++ ')' :: ' ' :: s.state :: behindState s) :
    .cstime ∉ (scan isspace other format (decimal (s.number .id) ++ (written [opened pre] ++ w::rest))).map Prod.fst := by
  have length : post.length ≤ 14 := by
    have short := s.commLength.2
    rw [comm,List.length_append,List.length_cons] at short
    omega
  rw [scanOpened other s visible space,scanSpaced,List.dropWhile_cons_of_pos space]
  cases behind : rest.dropWhile isspace with
  | nil => simp [Conversion.scan,opened,Item.assigned]
  | cons c remaining =>
    obtain ⟨later,after,less⟩ := reachCut cut behind
    have bound := reachBehind s.stateLetter post _ after
    have numbersFew := scanReach isspace other numbers remaining
    have order := scanTargets isspace other (numbers.map numeric) remaining
    rw [List.map_map] at order
    have untouched := fewNumbers order (by omega)
    simpa [Conversion.scan,opened,Item.assigned] using untouched

theorem staleBroken (other) {s : Stat} (broken : ¬ Spaceless s) {size : Nat} (large : 1143 < size) (locals : Local → Value) :
    readStat size other (statLine s) locals .cstime = locals .cstime := by
  obtain ⟨c,mem,space⟩ : ∃ c ∈ s.comm, (!isspace c) = false := by
    simpa [Spaceless] using broken
  have comm : s.comm = s.comm.takeWhile (fun c => !isspace c) ++ s.comm.dropWhile (fun c => !isspace c) :=
    List.takeWhile_append_dropWhile.symm
  have visible : ∀ c ∈ s.comm.takeWhile (fun c => !isspace c), isspace c = false := by
    intro c mem
    simpa using List.mem_takeWhile_imp mem
  cases rest : s.comm.dropWhile (fun c => !isspace c) with
  | nil =>
    have all := List.dropWhile_eq_nil_iff.mp rest c mem
    rw [space] at all
    cases all
  | cons w post =>
    have space : isspace w = true := by
      have head := List.head_dropWhile_not (fun c => !isspace c) (l := s.comm) (by rw [rest]; exact List.cons_ne_nil _ _)
      simpa [rest] using head
    rw [rest] at comm
    obtain ⟨remaining,cut,line⟩ := bufferBroken comm visible large
    unfold readStat
    rw [line]
    exact assignOther (scanBroken other comm visible space cut) locals

theorem recoversIff (other) (s : Stat) {size : Nat} (large : 1143 < size) : Recovers size other s ↔ Spaceless s := by
  constructor
  · intro recovers
    by_contra broken
    have kept := staleBroken other broken large (fun _ => .text [])
    have stored := (recovers (fun _ => .text [])).cstime
    rw [kept] at stored
    cases stored
  · exact fun spaceless => recoversSpaceless other spaceless large

theorem recoversExactly (other : CType → Int → Int) (s : Stat) :
    (Recovers 8192 other s ↔ ∀ c ∈ s.comm, isspace c = false) ∧
    (Recovers (1 <<< 14) other s ↔ ∀ c ∈ s.comm, isspace c = false) :=
  ⟨recoversIff other s (by decide),recoversIff other s (by decide)⟩

def twoWords : Stat where
  comm := ['a',' ','b']
  state := 'S'
  number := fun _ => 0
  commLength := by decide
  commBytes := by simp
  stateLetter := by decide
  inRange := by decide

theorem twoWordsMisread : ¬ Recovers 8192 (fun _ n => n) twoWords ∧ ¬ Recovers (1 <<< 14) (fun _ n => n) twoWords := by
  refine ⟨fun recovers => ?_,fun recovers => ?_⟩
  · have state := (recovers (fun _ => .number 1)).state
    revert state
    decide
  · have state := (recovers (fun _ => .number 1)).state
    revert state
    decide

end PracticeSuite.ProcStat
