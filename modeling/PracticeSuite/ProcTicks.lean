import PracticeSuite.KeyedList
import PracticeSuite.ProcStat
import PracticeSuite.Trace

/-! The processor time that readProc and getProc report: the difference between the ticks of
a sample and those of the task that the list holds under its pid. Nothing is ever taken out
of the list. The paths that are put together for a process overrun their arrays. -/
namespace PracticeSuite.ProcStat
open Scanf
open Trace (attempt attemptGuarded)
open Agent (Str isspace)

/- utime + stime + cstime + cutime - temp->cstime - temp->cutime - temp->stime - temp->utime,
where the two of the children are signed and everything else is unsigned. -/
def tickDifference (locals : Local → Value) (temp : TimeInfo) : Nat :=
  ((toInteger (locals .utime) + toInteger (locals .stime) + toInteger (locals .cstime) + toInteger (locals .cutime)
    - temp.cstime - temp.cutime - temp.stime - temp.utime) % 2^64).toNat

def taskLoop (id : Int) (locals : Local → Value) : List TimeInfo → Option Nat
  | [] => none
  | temp::next => if temp.pid = id then some (tickDifference locals temp) else taskLoop id locals next

/- A call of readProc: its argument, the file, what the local variables hold before it, and the clock. -/
structure Call where
  pid : Str
  procinfo : Option Str
  locals : Local → Value
  ms : Int

section
variable (other : CType → Int → Int)

def Call.read (c : Call) (file : Str) : Local → Value := readStat 8192 other file c.locals

def Call.difference (c : Call) (ltask : List TimeInfo) : Option Nat :=
  c.procinfo.bind (fun file => taskLoop (toInteger (c.read other file .id)) (c.read other file) ltask)

def callStep (size : Nat) (ltask : List TimeInfo) (c : Call) : Option (List TimeInfo) :=
  (readProc size other c.pid c.procinfo c.locals c.ms ltask).map Prod.snd

def sentinel (junk : Counters) : List TimeInfo := [⟨junk,-1⟩]

def run (size : Nat) (junk : Counters) (calls : List Call) : Option (List TimeInfo) := attempt (callStep other size) (sentinel junk) calls

def Call.Fits (size : Nat) (c : Call) : Prop := ProcStat.Fits size c.pid c.procinfo
instance (size) : DecidablePred (Call.Fits size) := fun c => by unfold Call.Fits; infer_instance

structure Sample where
  locals : Local → Value
  ms : Int

def Call.sample (c : Call) : Option Sample := c.procinfo.map (fun file => ⟨c.read other file,c.ms⟩)

def samples (calls : List Call) : List Sample := calls.filterMap (Call.sample other)

def Sample.pid (s : Sample) : Int := toInteger (s.locals .id)

def Sample.ticks (s : Sample) : Int :=
  toInteger (s.locals .utime) + toInteger (s.locals .stime) + toInteger (s.locals .cutime) + toInteger (s.locals .cstime)

def Sample.task (s : Sample) : TimeInfo := ⟨counters s.locals s.ms,s.pid⟩

end

theorem updateTaskEq (id : Int) (c : Counters) (ltask : List TimeInfo) :
    updateTask id c ltask = KeyedList.upsert TimeInfo.pid ⟨c,id⟩ ltask := by
  induction ltask with
  | nil => rfl
  | cons temp next ih =>
    simp only [updateTask,KeyedList.upsert]
    split
    · rename_i same
      rw [same]
    · rw [ih]

theorem taskLoopEq (id : Int) (locals : Local → Value) (ltask : List TimeInfo) :
    taskLoop id locals ltask = (KeyedList.lookup TimeInfo.pid id ltask).map (tickDifference locals) := by
  induction ltask with
  | nil => rfl
  | cons temp next ih =>
    simp only [taskLoop]
    split
    · rename_i same
      simp [KeyedList.lookup,same]
    · rename_i miss
      simp [KeyedList.lookup,miss,ih]

def recordSample (other : CType → Int → Int) (ltask : List TimeInfo) (c : Call) : List TimeInfo :=
  KeyedList.upserts TimeInfo.pid ((c.sample other).toList.map Sample.task) ltask

theorem callStepEq (other) (size : Nat) (ltask : List TimeInfo) (c : Call) :
    callStep other size ltask c = if c.Fits size then some (recordSample other ltask c) else none := by
  unfold callStep
  rw [readProcEq]
  by_cases fits : c.Fits size
  · rw [if_pos fits,if_pos (show Fits size c.pid c.procinfo from fits)]
    cases file : c.procinfo with
    | none => simp [recordSample,Call.sample,file,KeyedList.upserts]
    | some text =>
      simp only [recordSample,Call.sample,file,Option.map_some,Option.toList_some,List.map_cons,List.map_nil,updateTaskEq]
      rfl
  · rw [if_neg fits,if_neg (show ¬ Fits size c.pid c.procinfo from fits)]
    rfl

theorem callsUpserts (other) (ltask : List TimeInfo) (calls : List Call) :
    Trace.run (recordSample other) ltask calls = KeyedList.upserts TimeInfo.pid ((samples other calls).map Sample.task) ltask := by
  induction calls generalizing ltask with
  | nil => rfl
  | cons c rest ih =>
    have first : Trace.run (recordSample other) ltask (c::rest) = Trace.run (recordSample other) (recordSample other ltask c) rest := rfl
    rw [first,ih]
    unfold samples
    cases sampled : c.sample other with
    | none =>
      rw [List.filterMap_cons_none sampled,recordSample,sampled]
      rfl
    | some s =>
      rw [List.filterMap_cons_some sampled,recordSample,sampled]
      rfl

def recorded (other : CType → Int → Int) (junk : Counters) (calls : List Call) : List TimeInfo :=
  KeyedList.upserts TimeInfo.pid ((samples other calls).map Sample.task) (sentinel junk)

theorem runEq (other) (size : Nat) (junk : Counters) (calls : List Call) :
    run other size junk calls = if ∀ c ∈ calls, c.Fits size then some (recorded other junk calls) else none := by
  unfold run recorded
  rw [attemptGuarded (callStepEq other size),callsUpserts]

theorem toUnsignedMod (v : Value) : (toUnsigned v : Int) ≡ toInteger v [ZMOD 2^64] := by
  unfold toUnsigned
  rw [Int.toNat_of_nonneg (Int.emod_nonneg _ (by decide))]
  exact Int.mod_modEq _ _

theorem taskTicks (s : Sample) :
    (s.task.cstime + s.task.cutime + s.task.stime + s.task.utime : Int) ≡ s.ticks [ZMOD 2^64] := by
  have sum := (((toUnsignedMod (s.locals .cstime)).add (toUnsignedMod (s.locals .cutime))).add
    (toUnsignedMod (s.locals .stime))).add (toUnsignedMod (s.locals .utime))
  have order : toInteger (s.locals .cstime) + toInteger (s.locals .cutime) + toInteger (s.locals .stime)
      + toInteger (s.locals .utime) = s.ticks := by
    unfold Sample.ticks
    omega
  rwa [order] at sum

theorem differenceTicks (now prior : Sample) :
    tickDifference now.locals prior.task < 2^64 ∧
      (tickDifference now.locals prior.task : Int) ≡ now.ticks - prior.ticks [ZMOD 2^64] := by
  have nonnegative : ∀ n : Int, 0 ≤ n % 2^64 := fun n => Int.emod_nonneg n (by decide)
  constructor
  · unfold tickDifference
    have bound : ∀ n : Int, n % 2^64 < 2^64 := fun n => Int.emod_lt_of_pos n (by decide)
    exact (Int.toNat_lt (nonnegative _)).mpr (bound _)
  · unfold tickDifference
    rw [Int.toNat_of_nonneg (nonnegative _)]
    have back := (Int.ModEq.refl (n := 2^64) now.ticks).sub (taskTicks prior)
    have order : toInteger (now.locals .utime) + toInteger (now.locals .stime) + toInteger (now.locals .cstime)
        + toInteger (now.locals .cutime) - prior.task.cstime - prior.task.cutime - prior.task.stime - prior.task.utime =
        now.ticks - (prior.task.cstime + prior.task.cutime + prior.task.stime + prior.task.utime) := by
      unfold Sample.ticks
      omega
    rw [order]
    exact (Int.mod_modEq _ _).trans back

theorem sampledDifference {other} {c : Call} {now : Sample} (sampled : c.sample other = some now) (ltask : List TimeInfo) :
    c.difference other ltask = (KeyedList.lookup TimeInfo.pid now.pid ltask).map (tickDifference now.locals) := by
  unfold Call.sample at sampled
  unfold Call.difference
  obtain ⟨file,present,rfl⟩ := Option.map_eq_some_iff.mp sampled
  rw [present]
  exact taskLoopEq _ _ _

def Stat.ticks (s : Stat) : Int := s.number .utime + s.number .stime + s.number .cutime + s.number .cstime

def Stat.sample (other : CType → Int → Int) (s : Stat) (locals : Local → Value) (ms : Int) : Sample :=
  ⟨readStat 8192 other (statLine s) locals,ms⟩

theorem samplePid (other) {s : Stat} (spaceless : Spaceless s) (locals ms) : (s.sample other locals ms).pid = s.number .id := by
  have id : readStat 8192 other (statLine s) locals .id = .number (s.number .id) :=
    readLocal other spaceless (by decide) List.mem_cons_self locals
  simp only [Sample.pid,Stat.sample,id,toInteger]

theorem sampleTicks (other) {s : Stat} (spaceless : Spaceless s) (locals ms) : (s.sample other locals ms).ticks = s.ticks := by
  have recovers : Recovers 8192 other s := recoversSpaceless other spaceless (by decide)
  have recovered := recovers locals
  simp only [Sample.ticks,Stat.sample,recovered.utime,recovered.stime,recovered.cutime,recovered.cstime,toInteger,Stat.ticks]

theorem differencePrior {other} (junk) {calls : List Call} {c : Call} {now prior : Sample} {earlier between : List Sample}
    (sampled : c.sample other = some now) (order : samples other calls = earlier ++ prior :: between)
    (same : prior.pid = now.pid) (since : ∀ s ∈ between, s.pid ≠ now.pid) :
    c.difference other (recorded other junk calls) = some (tickDifference now.locals prior.task) := by
  have later : ∀ t ∈ between.map Sample.task, t.pid ≠ prior.task.pid := by
    intro t mem
    obtain ⟨s,listed,rfl⟩ := List.mem_map.mp mem
    have different := since s listed
    rw [← same] at different
    exact different
  have found : KeyedList.lookup TimeInfo.pid prior.task.pid
      (KeyedList.upserts TimeInfo.pid (earlier.map Sample.task ++ prior.task :: between.map Sample.task) (sentinel junk)) =
      some prior.task := KeyedList.lookupUpserts later
  have pid : prior.task.pid = now.pid := same
  rw [pid] at found
  rw [sampledDifference sampled,recorded,order,List.map_append,List.map_cons,found]
  rfl

def DeltasCompare (size : Nat) (other : CType → Int → Int) (junk : Counters) (calls : List Call) : Prop :=
  ∃ ltask, run other size junk calls = some ltask ∧ (ltask.map TimeInfo.pid).Nodup ∧
    (∀ k, k ∈ ltask.map TimeInfo.pid ↔ k = -1 ∨ k ∈ (samples other calls).map Sample.pid) ∧
    ∀ before c after now prior earlier between, calls = before ++ c :: after → c.sample other = some now →
      samples other before = earlier ++ prior :: between → prior.pid = now.pid → (∀ s ∈ between, s.pid ≠ now.pid) →
      ∃ held, ∃ d : Nat, run other size junk before = some held ∧ c.difference other held = some d ∧ d < 2^64 ∧
        (d : Int) ≡ now.ticks - prior.ticks [ZMOD 2^64]

theorem recordedPids (other junk) (calls : List Call) (k : Int) :
    k ∈ (recorded other junk calls).map TimeInfo.pid ↔ k = -1 ∨ k ∈ (samples other calls).map Sample.pid := by
  rw [recorded,KeyedList.keyUpserts,List.map_map,or_comm]
  simp only [sentinel,List.map_cons,List.map_nil,List.mem_singleton]
  rfl

theorem deltasCompareFits (size : Nat) (other junk) (calls : List Call) :
    DeltasCompare size other junk calls ↔ ∀ c ∈ calls, c.Fits size := by
  constructor
  · rintro ⟨ltask,ran,-⟩
    rw [runEq] at ran
    by_contra overrun
    rw [if_neg overrun] at ran
    cases ran
  · intro fits
    refine ⟨_,(runEq other size junk calls).trans (if_pos fits),KeyedList.distinctUpserts (List.nodup_singleton _),
      recordedPids other junk calls,?_⟩
    rintro before c after now prior earlier between rfl sampled order same since
    obtain ⟨bound,ticks⟩ := differenceTicks now prior
    have earlierFits : ∀ c ∈ before, c.Fits size := fun d mem => fits d (List.mem_append_left _ mem)
    exact ⟨_,_,(runEq other size junk before).trans (if_pos earlierFits),differencePrior junk sampled order same since,bound,ticks⟩

theorem deltasCompareExactly (other : CType → Int → Int) (junk : Counters) (calls : List Call) :
    (DeltasCompare pathSize other junk calls ↔ ∀ c ∈ calls, c.pid.length ≤ 1 ∧ (c.procinfo.isSome → c.pid = [])) ∧
    ∀ size, DeltasCompare size other junk calls ↔
      ∀ c ∈ calls, c.pid.length + 11 < size ∧ (c.procinfo.isSome → c.pid.length + 12 < size) := by
  refine ⟨(deltasCompareFits pathSize other junk calls).trans ?_,fun size => deltasCompareFits size other junk calls⟩
  refine forall₂_congr (fun c _ => ?_)
  unfold Call.Fits Fits pathSize
  rw [← List.length_eq_zero_iff]
  constructor
  · exact fun fits => ⟨by omega,fun found => by have := fits.2 found; omega⟩
  · exact fun fits => ⟨by omega,fun found => by have := fits.2 found; omega⟩

def veteran : Stat where
  comm := ['a']
  state := 'D'
  number
    | .id => 7
    | .utime => 100
    | _ => 0
  commLength := by decide
  commBytes := by simp
  stateLetter := by decide
  inRange := by decide

def newcomer : Stat where
  comm := ['b']
  state := 'R'
  number
    | .id => 7
    | .utime => 10
    | _ => 0
  commLength := by decide
  commBytes := by simp
  stateLetter := by decide
  inRange := by decide

theorem twoSpaceless : Spaceless veteran ∧ Spaceless newcomer := by
  constructor
  · intro c mem
    rw [List.mem_singleton.mp mem]
    decide
  · intro c mem
    rw [List.mem_singleton.mp mem]
    decide

def Stat.call (s : Stat) : Call := ⟨decimal (s.number .id),some (statLine s),fun _ => .number 0,0⟩

theorem sampleOverruns : ¬ DeltasCompare pathSize (fun _ n => n) ⟨0,0,0,0,0⟩ [newcomer.call] := by
  rw [deltasCompareFits]
  intro fits
  have room := (fits newcomer.call List.mem_cons_self).2 rfl
  revert room
  decide

section
variable {P : Type}

/- What readdir and fopen meet under one name, which is the pid where it is a process's. A process
may be gone when its file is opened. -/
structure Entry (P : Type) where
  dName : Str
  found : Option (P × Stat)
  locals : Local → Value
  ms : Int
  named : ∀ p ∈ found, decimal (p.2.number .id) = dName

def Entry.call (e : Entry P) : Call := ⟨e.dName,e.found.map (fun p => statLine p.2),e.locals,e.ms⟩

def Entry.numeric (e : Entry P) : Bool := e.dName.all Char.isDigit

def entryStep (size : Nat) (other : CType → Int → Int) (ltask : List TimeInfo) (proc : Entry P) : Option (List TimeInfo) :=
  if proc.numeric then callStep other size ltask proc.call else some ltask

def getProcRound (size : Nat) (other : CType → Int → Int) (ltask : List TimeInfo) (snapshot : List (Entry P)) : Option (List TimeInfo) :=
  attempt (entryStep size other) ltask snapshot

def getProc (size : Nat) (other : CType → Int → Int) (junk : Counters) (snapshots : List (List (Entry P))) : Option (List TimeInfo) :=
  attempt (getProcRound size other) (sentinel junk) snapshots

structure Visit (P : Type) where
  process : P
  stat : Stat
  locals : Local → Value
  ms : Int

def Entry.visit (e : Entry P) : Option (Visit P) :=
  if e.numeric then e.found.map (fun p => ⟨p.1,p.2,e.locals,e.ms⟩) else none

def visits (entries : List (Entry P)) : List (Visit P) := entries.filterMap Entry.visit

def Visit.pid (v : Visit P) : Int := v.stat.number .id

def ticked : List Local := [.utime,.stime,.cutime,.cstime]

/- The kernel's side of the snapshots: a process keeps its pid and its counters never fall, and when
a later process has the pid the process does not come back. -/
structure Lives (history : List (Visit P)) : Prop where
  nonnegative : ∀ v ∈ history, ∀ counter ∈ ticked, 0 ≤ v.stat.number counter
  living : history.Pairwise (fun u v => u.process = v.process →
    u.pid = v.pid ∧ ∀ counter ∈ ticked, u.stat.number counter ≤ v.stat.number counter)
  exited : ∀ u v w, [u,v,w].Sublist history → u.pid = v.pid → u.process ≠ v.process → w.process ≠ u.process

def Succeeds (history : List (Visit P)) : Prop :=
  ∀ earlier u between v later, history = earlier ++ u :: (between ++ v :: later) → u.pid = v.pid →
    (∀ w ∈ between, w.pid ≠ v.pid) → u.process ≠ v.process → u.stat.ticks ≤ v.stat.ticks

def DeltasBounded (size : Nat) (other : CType → Int → Int) (junk : Counters) (snapshots : List (List (Entry P))) : Prop :=
  (getProc size other junk snapshots).isSome ∧
    ∀ past seen e rest future, snapshots = past ++ (seen ++ e::rest) :: future → ∀ v ∈ e.visit,
      ∀ start ∈ getProc size other junk past, ∀ ltask ∈ getProcRound size other start seen,
        ∀ d : Nat, e.call.difference other ltask = some d → (d : Int) ≤ v.stat.ticks

theorem visitsAppend (first second : List (Entry P)) : visits (first ++ second) = visits first ++ visits second :=
  List.filterMap_append

def Visit.sample (other : CType → Int → Int) (v : Visit P) : Sample := v.stat.sample other v.locals v.ms

theorem visitSample (other) {e : Entry P} {v : Visit P} (visited : e.visit = some v) :
    e.call.sample other = some (v.sample other) := by
  unfold Entry.visit at visited
  split at visited
  · obtain ⟨p,present,rfl⟩ := Option.map_eq_some_iff.mp visited
    simp only [Call.sample,Entry.call,present,Option.map_some]
    rfl
  · cases visited

def calls (entries : List (Entry P)) : List Call := (entries.filter Entry.numeric).map Entry.call

theorem visitSamples (other) (entries : List (Entry P)) :
    samples other (calls entries) = (visits entries).map (Visit.sample other) := by
  unfold samples calls visits
  rw [List.filterMap_map,List.filterMap_filter,List.map_filterMap]
  congr 1
  funext e
  unfold Entry.visit
  split
  · cases found : e.found with
    | none => simp [Call.sample,Entry.call,found]
    | some p =>
      simp only [Function.comp,Call.sample,Entry.call,found,Option.map_some]
      rfl
  · rfl

def Entry.Fits (size : Nat) (e : Entry P) : Prop := e.numeric = true → e.call.Fits size
instance (size) : DecidablePred (Entry.Fits (P := P) size) := fun e => by unfold Entry.Fits; infer_instance

def recordEntry (other : CType → Int → Int) (ltask : List TimeInfo) (e : Entry P) : List TimeInfo :=
  if e.numeric then recordSample other ltask e.call else ltask

theorem entryStepEq (size : Nat) (other) (ltask : List TimeInfo) (e : Entry P) :
    entryStep size other ltask e = if e.Fits size then some (recordEntry other ltask e) else none := by
  unfold entryStep recordEntry
  by_cases numeric : e.numeric = true
  · rw [if_pos numeric,if_pos numeric,callStepEq]
    exact if_congr (by simp [Entry.Fits,numeric]) rfl rfl
  · rw [if_neg numeric,if_neg numeric,if_pos (show e.Fits size from fun yes => absurd yes numeric)]

theorem getProcRoundEq (size : Nat) (other) (ltask : List TimeInfo) (snapshot : List (Entry P)) :
    getProcRound size other ltask snapshot =
      if ∀ e ∈ snapshot, e.Fits size then some (Trace.run (recordEntry other) ltask snapshot) else none :=
  attemptGuarded (entryStepEq size other) ltask snapshot

theorem entriesRun (other) (ltask : List TimeInfo) (entries : List (Entry P)) :
    Trace.run (recordEntry other) ltask entries = Trace.run (recordSample other) ltask (calls entries) := by
  unfold Trace.run calls
  rw [List.foldl_map,List.foldl_filter]
  rfl

theorem getProcEq (size : Nat) (other junk) (snapshots : List (List (Entry P))) :
    getProc size other junk snapshots =
      if ∀ e ∈ snapshots.flatten, e.Fits size then some (recorded other junk (calls snapshots.flatten)) else none := by
  have rounds := attemptGuarded (getProcRoundEq size other) (sentinel junk) snapshots
  have joined : Trace.run (fun ltask snapshot => Trace.run (recordEntry other) ltask snapshot) (sentinel junk) snapshots =
      recorded other junk (calls snapshots.flatten) := by
    rw [recorded,← callsUpserts,← entriesRun]
    exact List.foldl_flatten.symm
  rw [joined] at rounds
  rw [getProc,rounds]
  exact if_congr (by simp only [List.mem_flatten]; grind) rfl rfl

theorem roundsRun {size : Nat} {other junk} {past : List (List (Entry P))} {seen : List (Entry P)} {start ltask : List TimeInfo}
    (before : start ∈ getProc size other junk past) (round : ltask ∈ getProcRound size other start seen) :
    ltask = recorded other junk (calls (past.flatten ++ seen)) := by
  rw [getProcEq] at before
  obtain ⟨-,passed⟩ := Option.ite_none_right_eq_some.mp before
  rw [getProcRoundEq] at round
  obtain ⟨-,same⟩ := Option.ite_none_right_eq_some.mp round
  rw [← Option.some.inj same,← Option.some.inj passed,recorded,recorded,← callsUpserts,← callsUpserts,← entriesRun,← entriesRun]
  exact List.foldl_append.symm

theorem returnedFits {size : Nat} {other junk} {snapshots : List (List (Entry P))} (ran : (getProc size other junk snapshots).isSome) :
    ∀ e ∈ snapshots.flatten, e.Fits size := by
  rw [getProcEq] at ran
  by_contra overrun
  rw [if_neg overrun] at ran
  cases ran

theorem roundReached {size : Nat} {other junk} {past future : List (List (Entry P))} {seen rest : List (Entry P)} {e : Entry P}
    (ran : (getProc size other junk (past ++ (seen ++ e::rest) :: future)).isSome) :
    ∃ start ltask, start ∈ getProc size other junk past ∧ ltask ∈ getProcRound size other start seen := by
  have fits := returnedFits ran
  have earlier : ∀ e' ∈ past.flatten, e'.Fits size := fun e' mem => fits e' (by
    rw [List.flatten_append]
    exact List.mem_append_left _ mem)
  have front : ∀ e' ∈ seen, e'.Fits size := fun e' mem => fits e' (by simp [mem])
  exact ⟨_,_,(getProcEq size other junk past).trans (if_pos earlier),(getProcRoundEq size other _ seen).trans (if_pos front)⟩

theorem visitPid {e : Entry P} {v : Visit P} (visited : e.visit = some v) : 0 ≤ v.pid := by
  unfold Entry.visit at visited
  split at visited
  · rename_i numeric
    obtain ⟨p,present,rfl⟩ := Option.map_eq_some_iff.mp visited
    by_contra negative
    obtain ⟨n,eq⟩ := Int.eq_negSucc_of_lt_zero (Int.not_le.mp negative)
    have name := e.named p present
    change p.2.number .id = _ at eq
    rw [eq,decimal] at name
    rw [Entry.numeric,← name] at numeric
    cases (List.all_eq_true.mp numeric) '-' List.mem_cons_self
  · cases visited

theorem visitFirst (other junk) {entries : List (Entry P)} (spaceless : ∀ u ∈ visits entries, Spaceless u.stat) {e : Entry P}
    {v : Visit P} (visited : e.visit = some v) (present : Spaceless v.stat) (fresh : v.pid ∉ (visits entries).map Visit.pid) :
    e.call.difference other (recorded other junk (calls entries)) = none := by
  have pid : (v.sample other).pid = v.pid := samplePid other present _ _
  have absent : KeyedList.lookup TimeInfo.pid v.pid (recorded other junk (calls entries)) = none := by
    rw [KeyedList.lookupNone,recorded,visitSamples,KeyedList.keyUpserts]
    rintro (stored | start)
    · simp only [List.map_map,List.mem_map,Function.comp] at stored
      obtain ⟨u,mem,same⟩ := stored
      have pid : (u.sample other).pid = u.pid := samplePid other (spaceless u mem) _ _
      exact fresh (List.mem_map.mpr ⟨u,mem,pid.symm.trans same⟩)
    · have minus : v.pid = -1 := List.mem_singleton.mp start
      have nonnegative := visitPid visited
      omega
  rw [sampledDifference (visitSample other visited),pid,absent]
  rfl

theorem visitLater (other junk) {entries : List (Entry P)} (spaceless : ∀ u ∈ visits entries, Spaceless u.stat) {e : Entry P}
    {u v : Visit P} (visited : e.visit = some v) (present : Spaceless v.stat) {earlier between : List (Visit P)}
    (order : visits entries = earlier ++ u :: between) (same : u.pid = v.pid) (since : ∀ w ∈ between, w.pid ≠ v.pid) :
    ∃ d, e.call.difference other (recorded other junk (calls entries)) = some d ∧ d < 2^64 ∧
      (d : Int) ≡ v.stat.ticks - u.stat.ticks [ZMOD 2^64] := by
  rw [order] at spaceless
  have prior : Spaceless u.stat := spaceless u (by simp)
  have now : (v.sample other).pid = v.pid := samplePid other present _ _
  have pid : (u.sample other).pid = (v.sample other).pid := by
    rw [now,← same]
    exact samplePid other prior _ _
  have later : ∀ s ∈ between.map (Visit.sample other), s.pid ≠ (v.sample other).pid := by
    intro s mem
    obtain ⟨w,listed,rfl⟩ := List.mem_map.mp mem
    have there : (w.sample other).pid = w.pid := samplePid other (spaceless w (by simp [listed])) _ _
    rw [now,there]
    exact since w listed
  have sampled : samples other (calls entries) =
      earlier.map (Visit.sample other) ++ u.sample other :: between.map (Visit.sample other) := by
    rw [visitSamples,order,List.map_append,List.map_cons]
  obtain ⟨bound,ticks⟩ := differenceTicks (v.sample other) (u.sample other)
  have old : (u.sample other).ticks = u.stat.ticks := sampleTicks other prior _ _
  have new : (v.sample other).ticks = v.stat.ticks := sampleTicks other present _ _
  rw [old,new] at ticks
  exact ⟨_,differencePrior junk (visitSample other visited) sampled pid later,bound,ticks⟩

theorem Lives.ticks {history : List (Visit P)} (lives : Lives history) {v : Visit P} (mem : v ∈ history) : 0 ≤ v.stat.ticks := by
  have counters := lives.nonnegative v mem
  simp only [ticked,List.mem_cons,List.not_mem_nil,or_false,forall_eq_or_imp,forall_eq] at counters
  unfold Stat.ticks
  omega

theorem Lives.grown {earlier between later : List (Visit P)} {u v : Visit P}
    (lives : Lives (earlier ++ u :: (between ++ v :: later))) (same : u.process = v.process) : u.stat.ticks ≤ v.stat.ticks := by
  have after := (List.pairwise_append.mp lives.living).2.1
  have counters := ((List.pairwise_cons.mp after).1 v (by simp) same).2
  simp only [ticked,List.mem_cons,List.not_mem_nil,or_false,forall_eq_or_imp,forall_eq] at counters
  unfold Stat.ticks
  omega

theorem visitLocated {entries : List (Entry P)} {before after : List (Visit P)} {v : Visit P}
    (order : visits entries = before ++ v :: after) :
    ∃ seen e rest, entries = seen ++ e::rest ∧ e.visit = some v ∧ visits seen = before := by
  obtain ⟨front,back,rfl,first,second⟩ := List.filterMap_eq_append_iff.mp order
  obtain ⟨passed,e,rest,rfl,unseen,visited,-⟩ := List.filterMap_eq_cons_iff.mp second
  refine ⟨front ++ passed,e,rest,by simp,visited,?_⟩
  rw [visitsAppend,visits,first,visits,List.filterMap_eq_nil_iff.mpr unseen,List.append_nil]

theorem snapshotLocated {snapshots : List (List (Entry P))} {seen rest : List (Entry P)} {e : Entry P}
    (order : snapshots.flatten = seen ++ e::rest) :
    ∃ past front back future, snapshots = past ++ (front ++ e::back) :: future ∧ seen = past.flatten ++ front := by
  induction snapshots generalizing seen with
  | nil => cases seen <;> cases order
  | cons first others ih =>
    rw [List.flatten_cons] at order
    rcases List.append_eq_append_iff.mp order with ⟨more,rfl,inner⟩ | ⟨more,rfl,inner⟩
    · obtain ⟨past,front,back,future,rfl,rfl⟩ := ih inner
      exact ⟨first::past,front,back,future,rfl,by simp⟩
    · cases more with
      | nil =>
        have deeper : others.flatten = [] ++ e::rest := inner.symm
        obtain ⟨past,front,back,future,rfl,empty⟩ := ih deeper
        exact ⟨(seen ++ [])::past,front,back,future,rfl,by simp [← empty]⟩
      | cons x more =>
        obtain ⟨rfl,-⟩ := List.cons.inj inner
        exact ⟨[],seen,more,others,rfl,rfl⟩

theorem historySplit (past future : List (List (Entry P))) (seen rest : List (Entry P)) {e : Entry P} {v : Visit P}
    (visited : e.visit = some v) :
    visits (past ++ (seen ++ e::rest) :: future).flatten = visits (past.flatten ++ seen) ++ v :: visits (rest ++ future.flatten) := by
  have parts : (past ++ (seen ++ e::rest) :: future).flatten = (past.flatten ++ seen) ++ e::(rest ++ future.flatten) := by
    simp
  rw [parts,visitsAppend]
  congr 1
  exact List.filterMap_cons_some visited

section
variable {size : Nat} {other : CType → Int → Int} {junk : Counters} {snapshots : List (List (Entry P))}

theorem succeedsBounds (lives : Lives (visits snapshots.flatten)) (spaceless : ∀ v ∈ visits snapshots.flatten, Spaceless v.stat)
    (fits : ∀ e ∈ snapshots.flatten, e.Fits size) (succeeds : Succeeds (visits snapshots.flatten)) :
    DeltasBounded size other junk snapshots := by
  refine ⟨by rw [getProcEq,if_pos fits]; rfl,?_⟩
  rintro past seen e rest future rfl v visited start before ltask round d difference
  have history := historySplit past future seen rest visited
  have listed : ∀ u ∈ visits (past.flatten ++ seen), Spaceless u.stat := fun u mem =>
    spaceless u (by rw [history]; exact List.mem_append_left _ mem)
  have present : Spaceless v.stat := spaceless v (by rw [history]; simp)
  rw [roundsRun before round] at difference
  by_cases known : v.pid ∈ (visits (past.flatten ++ seen)).map Visit.pid
  · obtain ⟨earlier,u,between,order,same,since⟩ := KeyedList.lastOfKey known
    obtain ⟨_,computed,bound,ticks⟩ := visitLater other junk listed visited present order same since
    cases computed.symm.trans difference
    have whole : visits (past ++ (seen ++ e::rest) :: future).flatten =
        earlier ++ u :: (between ++ v :: visits (rest ++ future.flatten)) := by
      rw [history,order,List.append_assoc,List.cons_append]
    rw [whole] at lives succeeds
    have nonnegative := lives.ticks (v := u) (by simp)
    have grown : u.stat.ticks ≤ v.stat.ticks := by
      by_cases process : u.process = v.process
      · exact lives.grown process
      · exact succeeds earlier u between v _ rfl same since process
    unfold Int.ModEq at ticks
    omega
  · rw [visitFirst other junk listed visited present known] at difference
    cases difference

theorem boundedSucceeds (lives : Lives (visits snapshots.flatten)) (spaceless : ∀ v ∈ visits snapshots.flatten, Spaceless v.stat)
    (small : ∀ v ∈ visits snapshots.flatten, v.stat.ticks < 2^64) (bounded : DeltasBounded size other junk snapshots) :
    Succeeds (visits snapshots.flatten) := by
  intro earlier u between v later history same since _
  have order : visits snapshots.flatten = (earlier ++ u :: between) ++ v :: later := by
    rw [history,List.append_assoc,List.cons_append]
  obtain ⟨seen,e,rest,entries,visited,before⟩ := visitLocated order
  obtain ⟨past,front,back,future,rfl,rfl⟩ := snapshotLocated entries
  have listed : ∀ w ∈ visits (past.flatten ++ front), Spaceless w.stat := fun w mem =>
    spaceless w (by rw [order,← before]; exact List.mem_append_left _ mem)
  have present : Spaceless v.stat := spaceless v (by rw [order]; simp)
  obtain ⟨d,computed,bound,ticks⟩ := visitLater other junk listed visited present before same since
  obtain ⟨start,ltask,begun,round⟩ := roundReached bounded.1
  have most := bounded.2 past front e back future rfl v visited start begun ltask round d (by rw [roundsRun begun round,computed])
  have old := lives.ticks (v := u) (by rw [history]; simp)
  have new := lives.ticks (v := v) (by rw [order]; simp)
  have fits := small u (by rw [history]; simp)
  unfold Int.ModEq at ticks
  omega

end

theorem decimalFilled (n : Int) : decimal n ≠ [] := by
  cases n with
  | ofNat n => exact Nat.toDigits_ne_nil
  | negSucc n => exact List.cons_ne_nil _ _

theorem entryFits (e : Entry P) : e.Fits pathSize ↔ (e.numeric = true → e.dName.length ≤ 1 ∧ e.found = none) := by
  refine imp_congr_right (fun _ => ?_)
  have named : e.found.isSome → 0 < e.dName.length := by
    intro found
    obtain ⟨p,here⟩ := Option.isSome_iff_exists.mp found
    rw [← e.named p here]
    exact List.length_pos_of_ne_nil (decimalFilled _)
  have opened : e.call.procinfo.isSome = e.found.isSome := Option.isSome_map
  have pid : e.call.pid = e.dName := rfl
  unfold Call.Fits Fits pathSize
  rw [opened,pid]
  constructor
  · intro fits
    refine ⟨by omega,Option.not_isSome_iff_eq_none.mp (fun found => ?_)⟩
    have room := fits.2 found
    have filled := named found
    omega
  · rintro ⟨short,gone⟩
    refine ⟨by omega,fun found => ?_⟩
    rw [gone] at found
    cases found

/- As it is, the code meets the bound only where it samples nothing. With longer arrays it meets it where
each pid passes to processes that have used no less time. -/
theorem deltasNeverWrap (other : CType → Int → Int) (junk : Counters) (snapshots : List (List (Entry P)))
    (lives : Lives (visits snapshots.flatten)) :
    (DeltasBounded pathSize other junk snapshots ↔ ∀ e ∈ snapshots.flatten, e.numeric = true → e.dName.length ≤ 1 ∧ e.found = none) ∧
    ∀ size, (∀ e ∈ snapshots.flatten, e.dName.length + 12 < size) → (∀ v ∈ visits snapshots.flatten, Spaceless v.stat) →
      (Succeeds (visits snapshots.flatten) → DeltasBounded size other junk snapshots) ∧
      ((∀ v ∈ visits snapshots.flatten, v.stat.ticks < 2^64) → DeltasBounded size other junk snapshots →
        Succeeds (visits snapshots.flatten)) := by
  constructor
  · have condition := forall₂_congr (fun e (_ : e ∈ snapshots.flatten) => entryFits e)
    rw [← condition]
    refine ⟨fun bounded => returnedFits bounded.1,fun fits => ?_⟩
    have unseen : visits snapshots.flatten = [] := by
      refine List.filterMap_eq_nil_iff.mpr (fun e mem => ?_)
      unfold Entry.visit
      split
      · rename_i numeric
        rw [((entryFits e).mp (fits e mem) numeric).2]
        rfl
      · rfl
    refine succeedsBounds lives (by simp [unseen]) fits ?_
    intro earlier u between v later history
    simp [unseen] at history
  · intro size room spaceless
    have fits : ∀ e ∈ snapshots.flatten, e.Fits size := fun e mem _ => ⟨Nat.lt_of_succ_lt (room e mem),fun _ => room e mem⟩
    exact ⟨succeedsBounds lives spaceless fits,boundedSucceeds lives spaceless⟩

end

def entryOf (process : Nat) (s : Stat) : Entry Nat where
  dName := decimal (s.number .id)
  found := some (process,s)
  locals := fun _ => .number 0
  ms := 0
  named := by simp

def visitOf (process : Nat) (s : Stat) : Visit Nat := ⟨process,s,fun _ => .number 0,0⟩

def passedOn (first second : Stat) : List (List (Entry Nat)) := [[entryOf 0 first],[entryOf 1 second]]

theorem passedVisits : visits (passedOn veteran newcomer).flatten = [visitOf 0 veteran,visitOf 1 newcomer] ∧
    visits (passedOn newcomer veteran).flatten = [visitOf 0 newcomer,visitOf 1 veteran] := ⟨rfl,rfl⟩

theorem passedLives {first second : Stat} (old : ∀ counter ∈ ticked, 0 ≤ first.number counter)
    (new : ∀ counter ∈ ticked, 0 ≤ second.number counter) : Lives [visitOf 0 first,visitOf 1 second] where
  nonnegative v mem := by
    simp only [List.mem_cons,List.not_mem_nil,or_false] at mem
    rcases mem with rfl | rfl
    · exact old
    · exact new
  living := by simp [visitOf]
  exited u v w sub := by
    have short := sub.length_le
    simp at short

theorem deltasAfterNewcomer : ¬ DeltasBounded pathSize (fun _ n => n) ⟨0,0,0,0,0⟩ (passedOn newcomer veteran) ∧
    DeltasBounded 32 (fun _ n => n) ⟨0,0,0,0,0⟩ (passedOn newcomer veteran) := by
  have exactly := deltasNeverWrap (fun _ n => n) ⟨0,0,0,0,0⟩ (passedOn newcomer veteran) (by
    rw [passedVisits.2]
    exact passedLives (by decide) (by decide))
  rw [passedVisits.2] at exactly
  constructor
  · rw [exactly.1]
    intro unsampled
    have none_ := (unsampled (entryOf 0 newcomer) List.mem_cons_self rfl).2
    cases none_
  · refine (exactly.2 32 (by decide) ?_).1 ?_
    · simp only [List.mem_cons,List.not_mem_nil,or_false,forall_eq_or_imp,forall_eq]
      exact ⟨twoSpaceless.2,twoSpaceless.1⟩
    · intro earlier u between v later order same since different
      have length := congrArg List.length order
      simp only [List.length_cons,List.length_append,List.length_nil] at length
      obtain rfl : earlier = [] := List.eq_nil_of_length_eq_zero (by omega)
      obtain rfl : between = [] := List.eq_nil_of_length_eq_zero (by omega)
      cases order
      decide

theorem reusedPidWraps : Lives (visits (passedOn veteran newcomer).flatten) ∧
    (∀ v ∈ visits (passedOn veteran newcomer).flatten, Spaceless v.stat) ∧
    ¬ DeltasBounded pathSize (fun _ n => n) ⟨0,0,0,0,0⟩ (passedOn veteran newcomer) ∧
    ¬ DeltasBounded 32 (fun _ n => n) ⟨0,0,0,0,0⟩ (passedOn veteran newcomer) := by
  have lives : Lives [visitOf 0 veteran,visitOf 1 newcomer] := passedLives (by decide) (by decide)
  have spaceless : ∀ v ∈ [visitOf 0 veteran,visitOf 1 newcomer], Spaceless v.stat := by
    simp only [List.mem_cons,List.not_mem_nil,or_false,forall_eq_or_imp,forall_eq]
    exact twoSpaceless
  rw [← passedVisits.1] at lives spaceless
  refine ⟨lives,spaceless,fun bounded => ?_,fun bounded => ?_⟩
  · have fits := returnedFits bounded.1 (entryOf 0 veteran) List.mem_cons_self
    have none_ := ((entryFits _).mp fits rfl).2
    cases none_
  · have succeeds := boundedSucceeds lives spaceless (by rw [passedVisits.1]; decide) bounded
    have less := succeeds [] (visitOf 0 veteran) [] (visitOf 1 newcomer) [] passedVisits.1 rfl (by simp) (by decide)
    revert less
    decide

end PracticeSuite.ProcStat
