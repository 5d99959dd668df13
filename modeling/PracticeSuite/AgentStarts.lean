import PracticeSuite.AgentTables

/-! The two places that fork a library into a new entry of listProcess, startAll and
checkNew: what a failed fork costs the table, and what each copies into the entry. -/
namespace PracticeSuite.Agent

def undisturbed (start : Start) (pid : Int) : Start := ⟨⟨0,pid⟩,start.timeDeath⟩

def unpid (p : Process) : Process := {p with pPid := 0}

def Lossless (failing smooth : Except Fault Tables) : Prop :=
  ∀ u, smooth = .ok u → ∃ t, failing = .ok t ∧ t.listProcess.map unpid = u.listProcess.map unpid

def failuresFrom (starts : Nat → Start) (i n : Nat) : Nat := ((List.range' i n).map (fun j => (starts j).failures)).sum

theorem failuresSucc (starts : Nat → Start) (i n) :
    failuresFrom starts i (n+1) = (starts i).failures + failuresFrom starts (i+1) n := by
  simp [failuresFrom,List.range'_succ]

theorem failuresNone (starts : Nat → Start) (n) :
    failuresFrom starts 0 n = 0 ↔ ∀ i < n, (starts i).failures = 0 := by
  simp [failuresFrom,List.sum_eq_zero_iff,List.mem_range'_1]

theorem startLoopLength {starts : Nat → Start} {i libs l l'} (done : startLoop starts i libs l = .ok l') :
    l'.length + failuresFrom starts i libs.length = l.length + libs.length := by
  induction libs generalizing i l with
  | nil =>
    cases Except.ok.inj done
    rfl
  | cons lib rest ih =>
    obtain ⟨longer,pushed,others⟩ := bindOk.mp done
    obtain ⟨kept,popped,more⟩ := bindOk.mp pushed
    cases Except.ok.inj more
    have shorter := popBackLength popped
    have later := ih others
    rw [List.length_append,List.length_singleton] at later
    rw [List.length_cons,failuresSucc]
    omega

theorem startLoopSmooth {starts : Nat → Start} {i libs} (smooth : failuresFrom starts i libs.length = 0) (l) :
    startLoop starts i libs l = .ok (l ++ libs.mapIdx (fun k lib => started (starts (i+k)) lib)) := by
  induction libs generalizing i l with
  | nil => simp [startLoop]
  | cons lib rest ih =>
    rw [List.length_cons,failuresSucc] at smooth
    have steady : (starts i).failures = 0 := by omega
    have later := ih (i := i+1) (by omega) (l ++ [started (starts i) lib])
    simp only [startLoop,pushSteady steady]
    change startLoop starts (i+1) rest (l ++ [started (starts i) lib]) = _
    rw [later,List.mapIdx_cons,List.append_assoc]
    simp only [Nat.add_zero,List.singleton_append,Nat.add_assoc,Nat.add_comm 1]

theorem startAllSmooth {starts : Nat → Start} {t : Tables} (smooth : ∀ i < t.listLibs.length, (starts i).failures = 0) :
    startAll starts t = .ok ⟨t.listLibs,t.listProcess ++ t.listLibs.mapIdx (fun k lib => started (starts k) lib)⟩ := by
  unfold startAll
  rw [startLoopSmooth ((failuresNone _ _).mpr smooth)]
  simp only [Nat.zero_add]
  rfl

theorem startAllLossless (starts : Nat → Start) (pids : Nat → Int) (t : Tables) :
    Lossless (startAll starts t) (startAll (fun i => undisturbed (starts i) (pids i)) t) ↔
      ∀ i < t.listLibs.length, (starts i).failures = 0 := by
  have went := startAllSmooth (t := t) (fun i _ => (rfl : (undisturbed (starts i) (pids i)).failures = 0))
  constructor
  · intro lossless
    obtain ⟨t',failed,listed⟩ := lossless _ went
    obtain ⟨l,done,last⟩ := bindOk.mp failed
    cases Except.ok.inj last
    have lost := startLoopLength done
    have same := congrArg List.length listed
    simp only [List.length_map,List.length_append,List.length_mapIdx] at same
    exact (failuresNone _ _).mp (by omega)
  · intro none_ u smoothly
    cases Except.ok.inj (went.symm.trans smoothly)
    refine ⟨_,startAllSmooth none_,?_⟩
    simp only [List.map_append]
    congr 1
    apply List.ext_getElem (by simp)
    intro k first second
    simp only [List.getElem_map,List.getElem_mapIdx]
    rfl

theorem checkNewNothing {look t libNew} (scanned : scan look.folder = .ok libNew)
    (nothing : checkLoop t.listLibs look.junk 0 libNew = []) : checkNew look t = .ok t := by
  unfold checkNew check
  rw [scanned]
  simp only [bind,Except.bind,nothing,List.append_nil]

theorem checkNewFirst {look t libNew lib rest} (scanned : scan look.folder = .ok libNew)
    (first : checkLoop t.listLibs look.junk 0 libNew = lib::rest) :
    checkNew look t = (pushStarted look.start lib t.listProcess).bind
      (fun l => .ok ⟨t.listLibs ++ lib::rest,l⟩) := by
  unfold checkNew check
  rw [scanned]
  simp only [bind,Except.bind,first]

theorem filterNone (listLibs junk l) : l.filter (isNew listLibs) = [] ↔ checkLoop listLibs junk 0 l = [] := by
  rw [← List.length_eq_zero_iff,← List.length_eq_zero_iff,checkLoopLength]

theorem pushLossless {start : Start} {lib listLibs l} (pid : Int) :
    Lossless ((pushStarted start lib l).bind (fun l => .ok ⟨listLibs,l⟩))
      ((pushStarted (undisturbed start pid) lib l).bind (fun l => .ok ⟨listLibs,l⟩)) ↔ start.failures = 0 := by
  have went : (pushStarted (undisturbed start pid) lib l).bind (fun l => .ok (Tables.mk listLibs l)) =
      .ok ⟨listLibs,l ++ [started (undisturbed start pid) lib]⟩ := rfl
  constructor
  · intro lossless
    obtain ⟨t,failed,listed⟩ := lossless _ went
    obtain ⟨l',pushed,last⟩ := bindOk.mp failed
    obtain ⟨kept,popped,more⟩ := bindOk.mp pushed
    cases Except.ok.inj more
    cases Except.ok.inj last
    have lost := popBackLength popped
    have same := congrArg List.length listed
    simp only [List.length_map,List.length_append,List.length_singleton] at same
    omega
  · intro steady u smoothly
    cases Except.ok.inj (went.symm.trans smoothly)
    rw [pushSteady steady]
    refine ⟨_,rfl,?_⟩
    simp only [List.map_append]
    rfl

theorem checkNewLossless (look : Look) (pid : Int) (t : Tables) :
    Lossless (checkNew look t) (checkNew {look with start := undisturbed look.start pid} t) ↔
      look.start.failures = 0 ∨
        ∀ libNew, scan look.folder = .ok libNew → libNew.filter (isNew t.listLibs) = [] := by
  cases scanned : scan look.folder with
  | error fault =>
    have failed : checkNew {look with start := undisturbed look.start pid} t = .error fault := by
      unfold checkNew check
      rw [scanned]
      rfl
    refine iff_of_true (fun u went => ?_) (.inr (fun libNew done => by cases done))
    cases failed.symm.trans went
  | ok libNew =>
    simp only [Except.ok.injEq,forall_eq']
    rw [filterNone _ look.junk]
    cases new : checkLoop t.listLibs look.junk 0 libNew with
    | nil =>
      have smooth : checkNew {look with start := undisturbed look.start pid} t = .ok t := checkNewNothing scanned new
      refine iff_of_true (fun u went => ⟨t,checkNewNothing scanned new,?_⟩) (.inr rfl)
      cases Except.ok.inj (smooth.symm.trans went)
      rfl
    | cons lib rest =>
      have smooth : checkNew {look with start := undisturbed look.start pid} t = _ := checkNewFirst scanned new
      rw [checkNewFirst scanned new,smooth]
      simpa only [reduceCtorEq,or_false] using pushLossless pid

theorem forkFailuresLossless (starts : Nat → Start) (pids : Nat → Int) (look : Look) (pid : Int) (t : Tables) :
    (Lossless (startAll starts t) (startAll (fun i => undisturbed (starts i) (pids i)) t) ↔
      ∀ i < t.listLibs.length, (starts i).failures = 0) ∧
    (Lossless (checkNew look t) (checkNew {look with start := undisturbed look.start pid} t) ↔
      look.start.failures = 0 ∨
        ∀ libNew, scan look.folder = .ok libNew → libNew.filter (isNew t.listLibs) = []) :=
  ⟨startAllLossless starts pids t,checkNewLossless look pid t⟩

def onceFailing (i : Nat) : Start := ⟨⟨if i = 1 then 1 else 0,100 + i⟩,0⟩

theorem startedEntryPopped :
    startAll onceFailing ⟨[listedLib 0 "a",listedLib 0 "b"],[]⟩ =
      .ok ⟨[listedLib 0 "a",listedLib 0 "b"],[listedLib 101 "b"]⟩ ∧
    ¬ Lossless (startAll onceFailing ⟨[listedLib 0 "a",listedLib 0 "b"],[]⟩)
      (startAll (fun i => undisturbed (onceFailing i) (100 + i)) ⟨[listedLib 0 "a",listedLib 0 "b"],[]⟩) := by
  refine ⟨rfl,fun lossless => ?_⟩
  obtain ⟨t,failed,same⟩ := lossless ⟨[listedLib 0 "a",listedLib 0 "b"],[listedLib 100 "a",listedLib 101 "b"]⟩ rfl
  cases Except.ok.inj failed
  have sizes := congrArg List.length same
  contradiction

def Alike (p q : Process) : Prop :=
  p.pName = q.pName ∧ p.num1 = q.num1 ∧ p.num2 = q.num2 ∧ p.num3 = q.num3 ∧
    p.type = q.type ∧ p.time = q.time ∧ p.arg = q.arg ∧ p.status = q.status

/- Entries that agree, also on what checkState makes of them: whatever it observes of
both over any number of passes, once they have the same time_death. -/
def SameConfiguration (p q : Process) : Prop :=
  Alike p q ∧ ∀ passes i n timeDeath,
    Alike (entry passes i {p with timeDeath := timeDeath} n) (entry passes i {q with timeDeath := timeDeath} n)

theorem switchUnpid (now pid p) : deathSwitch now {p with pPid := pid} =
    ({(deathSwitch now p).1 with pPid := pid},(deathSwitch now p).2) := by
  unfold deathSwitch
  repeat' split
  all_goals rfl

theorem visitUnpid (pass i pid p) : ∃ pid', visit pass i {p with pPid := pid} = {visit pass i p with pPid := pid'} := by
  unfold visit
  rw [switchUnpid]
  obtain ⟨p',forks⟩ := deathSwitch pass.now p
  cases pass.alive i
  · cases forks
    · exact ⟨pid,rfl⟩
    · exact ⟨(pass.forks i).pid,rfl⟩
  · exact ⟨pid,rfl⟩

theorem entryUnpid (passes i pid p n) :
    ∃ pid', entry passes i {p with pPid := pid} n = {entry passes i p n with pPid := pid'} := by
  induction n with
  | zero => exact ⟨pid,rfl⟩
  | succ n ih =>
    obtain ⟨pid',same⟩ := ih
    unfold entry
    rw [same]
    exact visitUnpid _ _ _ _

theorem sameConfigurationIff (p q) : SameConfiguration p q ↔ Alike p q := by
  refine ⟨And.left,fun alike => ⟨alike,fun passes i n timeDeath => ?_⟩⟩
  have same : {q with timeDeath := timeDeath} = {({p with timeDeath := timeDeath} : Process) with pPid := q.pPid} := by
    obtain ⟨name,num1,num2,num3,type,time,arg,status⟩ := alike
    simp only [name,num1,num2,num3,type,time,arg,status]
  obtain ⟨pid,later⟩ := entryUnpid passes i q.pPid {p with timeDeath := timeDeath} n
  rw [same,later]
  exact ⟨rfl,rfl,rfl,rfl,rfl,rfl,rfl,rfl⟩

def StartAllCreates (starts : Nat → Start) (t : Tables) (k : Nat) (p : Process) : Prop :=
  ∃ l, startLoop starts 0 (t.listLibs.take (k+1)) t.listProcess = .ok l ∧ l.getLast? = some p

theorem startLoopLast {starts : Nat → Start} {i libs r l l'} (done : startLoop starts i (libs ++ [r]) l = .ok l') :
    l'.getLast? = some (started (starts (i + libs.length)) r) := by
  induction libs generalizing i l with
  | nil =>
    obtain ⟨longer,pushed,others⟩ := bindOk.mp done
    obtain ⟨kept,_,more⟩ := bindOk.mp pushed
    cases Except.ok.inj more
    cases Except.ok.inj others
    simp
  | cons lib rest ih =>
    obtain ⟨longer,_,others⟩ := bindOk.mp done
    rw [ih others,List.length_cons,Nat.add_assoc,Nat.add_comm 1]

theorem startAllCreated {starts : Nat → Start} {t : Tables} {k r p} (listed : t.listLibs[k]? = some r)
    (created : StartAllCreates starts t k p) : p = started (starts k) r := by
  obtain ⟨l,looped,last⟩ := created
  obtain ⟨inside,rfl⟩ := List.getElem?_eq_some_iff.mp listed
  rw [List.take_succ_eq_append_getElem inside] at looped
  have pushed := startLoopLast looped
  rw [List.length_take_of_le (Nat.le_of_lt inside),Nat.zero_add] at pushed
  exact Option.some.inj (last.symm.trans pushed)

def CheckNewCreates (look : Look) (t : Tables) (r q : Process) : Prop :=
  ∃ libNew t', scan look.folder = .ok libNew ∧ (libNew.filter (isNew t.listLibs)).head? = some r ∧
    checkNew look t = .ok t' ∧ t'.listProcess.getLast? = some q

theorem checkNewCreated {look t r q} (created : CheckNewCreates look t r q) :
    ∃ junk, q = started look.start (newRecord junk r) := by
  obtain ⟨libNew,t',scanned,first,done,last⟩ := created
  obtain ⟨j,rest,found⟩ := checkLoopHead look.junk 0 first
  rw [checkNewFirst scanned found] at done
  obtain ⟨l,pushed,made⟩ := bindOk.mp done
  obtain ⟨kept,_,more⟩ := bindOk.mp pushed
  cases Except.ok.inj more
  cases Except.ok.inj made
  exact ⟨look.junk j,by simpa using last.symm⟩

theorem configurationExactly (starts : Nat → Start) (t₁ : Tables) (k : Nat) (look : Look) (t₂ : Tables)
    (r p q : Process) (listed : t₁.listLibs[k]? = some r) (first : StartAllCreates starts t₁ k p)
    (second : CheckNewCreates look t₂ r q) : SameConfiguration p q ↔ r.time = r.type := by
  obtain ⟨junk,rfl⟩ := checkNewCreated second
  cases startAllCreated listed first
  rw [sameConfigurationIff]
  simp [Alike,started,newRecord]

def configured (type time : Int) : Look :=
  ⟨⟨some ["a-1.0.0.so".toList],fun _ => some (.object type time []),fun _ => blank⟩,
    fun _ => blank,steadyStart 7⟩
def configuredLib (pid type time : Int) : Process := ⟨pid,"a".toList,1,0,0,type,time,[],1,0⟩

theorem configurationEqual : SameConfiguration (configuredLib 100 1 1) (configuredLib 107 1 1) :=
  (configurationExactly steadyStart ⟨[configuredLib 0 1 1],[]⟩ 0 (configured 1 1) ⟨[],[]⟩ (configuredLib 0 1 1) _ _
    rfl ⟨_,rfl,rfl⟩ ⟨_,_,rfl,rfl,rfl,rfl⟩).mpr rfl

theorem typeCopiedIntoTime :
    StartAllCreates steadyStart ⟨[configuredLib 0 1 5],[]⟩ 0 (configuredLib 100 1 5) ∧
    CheckNewCreates (configured 1 5) ⟨[],[]⟩ (configuredLib 0 1 5) (configuredLib 107 1 1) ∧
    ¬ SameConfiguration (configuredLib 100 1 5) (configuredLib 107 1 1) := by
  refine ⟨⟨_,rfl,rfl⟩,⟨_,_,rfl,rfl,rfl,rfl⟩,fun same => ?_⟩
  exact absurd same.1.2.2.2.2.2.1 (by decide)

end PracticeSuite.Agent
