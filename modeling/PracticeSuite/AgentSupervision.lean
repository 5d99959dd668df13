import PracticeSuite.AgentMaster

/-! Supervision over whole runs of checkState. Entries do not influence one another,
so each index follows a machine of its own; its history decides when a pid may be
replaced. -/
namespace PracticeSuite.Agent

def supervised (listProcess : List Process) (passes : Nat → Pass) : Nat → List Process
  | 0 => listProcess
  | n+1 => checkState (passes n) (supervised listProcess passes n)

def entry (passes : Nat → Pass) (i : Nat) (p : Process) : Nat → Process
  | 0 => p
  | n+1 => visit (passes n) i (entry passes i p n)

theorem supervisedEntry (listProcess passes n i) :
    (supervised listProcess passes n)[i]? = (listProcess[i]?).map (fun p => entry passes i p n) := by
  induction n with
  | zero => simp [supervised,entry]
  | succ n ih => simp only [supervised,checkState,List.getElem?_mapIdx,ih,Option.map_map]; rfl

theorem supervisedLength (listProcess passes n) :
    (supervised listProcess passes n).length = listProcess.length := by
  induction n with
  | zero => rfl
  | succ n ih => simp only [supervised,checkState,List.length_mapIdx,ih]

def Replaced (listProcess : List Process) (passes : Nat → Pass) (i n : Nat) : Prop :=
  ∃ p, (supervised listProcess passes n)[i]? = some p ∧ (passes n).alive i = false ∧
    (deathSwitch (passes n).now p).2 = true

def Dead (passes : Nat → Pass) (i n : Nat) : Prop := (passes n).alive i = false

theorem replacedEntry {listProcess : List Process} {passes i p} (start : listProcess[i]? = some p) (n) :
    Replaced listProcess passes i n ↔
      Dead passes i n ∧ (deathSwitch (passes n).now (entry passes i p n)).2 = true := by
  unfold Replaced
  rw [supervisedEntry,start]
  simp only [Option.map_some,Option.some.injEq,exists_eq_left']
  rfl

def Kept (p q : Process) : Prop :=
  q.pName = p.pName ∧ q.num1 = p.num1 ∧ q.num2 = p.num2 ∧ q.num3 = p.num3 ∧
    q.type = p.type ∧ q.time = p.time ∧ q.arg = p.arg

theorem keptRefl (p) : Kept p p := ⟨rfl,rfl,rfl,rfl,rfl,rfl,rfl⟩

theorem keptTrans {p q r} (first : Kept p q) (second : Kept q r) : Kept p r := by
  unfold Kept at *
  simp only [second,first,and_self]

theorem visitKept (pass i p) : Kept p (visit pass i p) := by
  unfold visit deathSwitch
  dsimp only
  repeat' split
  all_goals exact keptRefl p

theorem entryKept (passes i p n) : Kept p (entry passes i p n) := by
  induction n with
  | zero => exact keptRefl p
  | succ n ih => exact keptTrans ih (visitKept _ _ _)

theorem visitPid (pass i p) : (visit pass i p).pPid =
    if pass.alive i = false ∧ (deathSwitch pass.now p).2 = true then (pass.forks i).pid else p.pPid := by
  unfold visit deathSwitch
  cases pass.alive i <;> simp only [Bool.false_eq_true,if_false,if_true,true_and,false_and,reduceCtorEq]
  repeat' split
  all_goals rfl

theorem switchNever {now p} (type : p.type = 0) :
    (deathSwitch now p).2 = false ∧ (p.status = 0 → (deathSwitch now p).1.status = 0) := by
  unfold deathSwitch
  rw [if_pos type]
  split
  · exact ⟨rfl,fun _ => rfl⟩
  · exact ⟨rfl,id⟩

theorem switchAlways {now p} (never : p.type ≠ 0) (later : p.type ≠ 1) : deathSwitch now p = (p,true) := by
  unfold deathSwitch
  rw [if_neg never,if_neg later]

theorem switchNoted {now p} (type : p.type = 1) (up : p.status = 1) :
    deathSwitch now p = ({p with timeDeath := now,status := 0},false) := by
  unfold deathSwitch
  rw [if_neg (by omega),if_pos type,if_pos up]

theorem switchDue {now p} (type : p.type = 1) (down : p.status = 0) (due : now - p.timeDeath > p.time) :
    deathSwitch now p = ({p with status := 1},true) := by
  unfold deathSwitch
  rw [if_neg (by omega),if_pos type,if_neg (by omega),if_pos down,if_pos due]

theorem switchEarly {now p} (type : p.type = 1) (down : p.status = 0) (early : ¬ now - p.timeDeath > p.time) :
    deathSwitch now p = (p,false) := by
  unfold deathSwitch
  rw [if_neg (by omega),if_pos type,if_neg (by omega),if_pos down,if_neg early]

theorem visitAlive {pass i} (p) (alive : ¬ pass.alive i = false) : visit pass i p = p := by
  unfold visit
  rw [if_pos (by simpa using alive)]

theorem visitDead {pass i} (p) (dead : pass.alive i = false) : visit pass i p =
    if (deathSwitch pass.now p).2 then {(deathSwitch pass.now p).1 with pPid := (pass.forks i).pid}
    else (deathSwitch pass.now p).1 := by
  unfold visit
  rw [if_neg (by simp [dead])]

def Since (listProcess : List Process) (passes : Nat → Pass) (i n s : Nat) : Prop :=
  s ≤ n ∧ (s = 0 ∨ Replaced listProcess passes i (s-1)) ∧ ∀ l, s ≤ l → l < n → ¬ Replaced listProcess passes i l

def FirstDead (passes : Nat → Pass) (i s m : Nat) : Prop :=
  s ≤ m ∧ Dead passes i m ∧ ∀ l, s ≤ l → l < m → ¬ Dead passes i l

theorem sinceSucc {listProcess passes i n s} (since : Since listProcess passes i n s)
    (kept : ¬ Replaced listProcess passes i n) : Since listProcess passes i (n+1) s := by
  obtain ⟨bound,origin,none_⟩ := since
  have all : ∀ l, s ≤ l → l < n+1 → ¬ Replaced listProcess passes i l := by
    intro l low high
    rcases Nat.lt_succ_iff_lt_or_eq.mp high with earlier | same
    · exact none_ l low earlier
    · exact same ▸ kept
  exact ⟨by omega,origin,all⟩

theorem sinceNow {listProcess passes i n} (replaced : Replaced listProcess passes i n) :
    Since listProcess passes i (n+1) (n+1) :=
  ⟨Nat.le_refl _,.inr replaced,fun l low high => by omega⟩

def Watched (listProcess : List Process) (passes : Nat → Pass) (i n : Nat) (p : Process) : Prop :=
  ∃ s, Since listProcess passes i n s ∧
    ((p.status = 1 ∧ ∀ l, s ≤ l → l < n → ¬ Dead passes i l) ∨
      (p.status = 0 ∧ ∃ m, m < n ∧ FirstDead passes i s m ∧ p.timeDeath = (passes m).now))

theorem watchedStep {listProcess : List Process} {passes i p} (start : listProcess[i]? = some p) {n}
    (type : (entry passes i p n).type = 1) (watched : Watched listProcess passes i n (entry passes i p n)) :
    Watched listProcess passes i (n+1) (entry passes i p (n+1)) := by
  have replaced : Replaced listProcess passes i n ↔ _ := replacedEntry start n
  change Watched listProcess passes i (n+1) (visit (passes n) i (entry passes i p n))
  generalize entry passes i p n = q at *
  obtain ⟨s,since,state⟩ := watched
  by_cases dead : Dead passes i n
  · rcases state with ⟨up,alive⟩ | ⟨down,m,before,first,noted⟩
    · have switch : deathSwitch (passes n).now q = _ := switchNoted type up
      rw [visitDead q dead,switch]
      have kept : ¬ Replaced listProcess passes i n := by rw [replaced,switch]; simp
      exact ⟨s,sinceSucc since kept,.inr ⟨rfl,n,by omega,⟨since.1,dead,alive⟩,rfl⟩⟩
    · by_cases due : (passes n).now - q.timeDeath > q.time
      · have switch := switchDue type down due
        rw [visitDead q dead,switch]
        have now : Replaced listProcess passes i n := by rw [replaced,switch]; exact ⟨dead,rfl⟩
        exact ⟨n+1,sinceNow now,.inl ⟨rfl,fun l low high => by omega⟩⟩
      · have switch := switchEarly type down due
        rw [visitDead q dead,switch]
        have kept : ¬ Replaced listProcess passes i n := by rw [replaced,switch]; simp
        exact ⟨s,sinceSucc since kept,.inr ⟨down,m,by omega,first,noted⟩⟩
  · rw [visitAlive q dead]
    have kept : ¬ Replaced listProcess passes i n := fun h => dead (replaced.mp h).1
    rcases state with ⟨up,alive⟩ | ⟨down,m,before,first,noted⟩
    · have all : ∀ l, s ≤ l → l < n+1 → ¬ Dead passes i l := by
        intro l low high
        rcases Nat.lt_succ_iff_lt_or_eq.mp high with earlier | same
        · exact alive l low earlier
        · exact same ▸ dead
      exact ⟨s,sinceSucc since kept,.inl ⟨up,all⟩⟩
    · exact ⟨s,sinceSucc since kept,.inr ⟨down,m,by omega,first,noted⟩⟩

theorem watchedRun {listProcess : List Process} {passes i p} (start : listProcess[i]? = some p)
    (up : p.status = 1) (type : p.type = 1) (n) :
    Watched listProcess passes i n (entry passes i p n) := by
  induction n with
  | zero => exact ⟨0,⟨Nat.le_refl _,.inl rfl,fun l low high => by omega⟩,.inl ⟨up,fun l low high => by omega⟩⟩
  | succ n ih =>
    have same : (entry passes i p n).type = 1 := (entryKept passes i p n).2.2.2.2.1.trans type
    exact watchedStep start same ih

theorem replacedLate {listProcess : List Process} {passes i p} (start : listProcess[i]? = some p)
    (up : p.status = 1) (type : p.type = 1) {n} (replaced : Replaced listProcess passes i n) :
    ∃ s m, Since listProcess passes i n s ∧ FirstDead passes i s m ∧ m < n ∧
      (passes n).now - (passes m).now > p.time := by
  have same : (entry passes i p n).type = 1 := (entryKept passes i p n).2.2.2.2.1.trans type
  have time : (entry passes i p n).time = p.time := (entryKept passes i p n).2.2.2.2.2.1
  obtain ⟨dead,forks⟩ := (replacedEntry start n).mp replaced
  obtain ⟨s,since,state⟩ : Watched listProcess passes i n _ := watchedRun start up type n
  rcases state with ⟨running,alive⟩ | ⟨down,m,before,first,noted⟩
  · rw [switchNoted same running] at forks
    cases forks
  · by_cases due : (passes n).now - (entry passes i p n).timeDeath > (entry passes i p n).time
    · rw [noted,time] at due
      exact ⟨s,m,since,first,before,due⟩
    · rw [switchEarly same down due] at forks
      cases forks

theorem entryStopped {passes i p n} (type : p.type = 0) (down : (entry passes i p n).status = 0) {m}
    (later : n ≤ m) : (entry passes i p m).status = 0 := by
  obtain ⟨k,rfl⟩ := Nat.exists_eq_add_of_le later
  clear later
  induction k with
  | zero => exact down
  | succ k ih =>
    have same : (entry passes i p (n+k)).type = 0 := (entryKept passes i p (n+k)).2.2.2.2.1.trans type
    change (visit (passes (n+k)) i (entry passes i p (n+k))).status = 0
    by_cases dead : Dead passes i (n+k)
    · rw [visitDead _ dead,(switchNever same).1]
      exact (switchNever same).2 ih
    · rw [visitAlive _ dead]
      exact ih

theorem entryPid {listProcess : List Process} {passes i p} (start : listProcess[i]? = some p) (n) :
    (Replaced listProcess passes i n → (entry passes i p (n+1)).pPid = ((passes n).forks i).pid) ∧
    (¬ Replaced listProcess passes i n → (entry passes i p (n+1)).pPid = (entry passes i p n).pPid) := by
  have pid := visitPid (passes n) i (entry passes i p n)
  rw [replacedEntry start n]
  exact ⟨fun h => pid.trans (if_pos h),fun h => pid.trans (if_neg h)⟩

theorem entryNeverReplaced {listProcess : List Process} {passes i p} (start : listProcess[i]? = some p)
    (type : p.type = 0) (n) : ¬ Replaced listProcess passes i n ∧ (entry passes i p n).pPid = p.pPid := by
  have never : ∀ n, ¬ Replaced listProcess passes i n := by
    intro n replaced
    have same : (entry passes i p n).type = 0 := (entryKept passes i p n).2.2.2.2.1.trans type
    have forks := ((replacedEntry start n).mp replaced).2
    rw [(switchNever same).1] at forks
    cases forks
  induction n with
  | zero => exact ⟨never 0,rfl⟩
  | succ n ih => exact ⟨never (n+1),((entryPid start n).2 ih.1).trans ih.2⟩

theorem replacedWhenDead {listProcess : List Process} {passes i p} (start : listProcess[i]? = some p)
    (never : p.type ≠ 0) (later : p.type ≠ 1) (n) : Replaced listProcess passes i n ↔ Dead passes i n := by
  have same : (entry passes i p n).type = p.type := (entryKept passes i p n).2.2.2.2.1
  rw [replacedEntry start n,switchAlways (same ▸ never) (same ▸ later)]
  simp

/- For every run, index and pass n. The first two parts hold of every type: the list
keeps its length and each entry its name, version, type, time and arg; a pass writes
the pid of its fork exactly when it replaces. -/
theorem supervisionPolicy (listProcess : List Process) (up : ∀ p ∈ listProcess, p.status = 1)
    (passes : Nat → Pass) (i : Nat) (p : Process) (start : listProcess[i]? = some p) (n : Nat) :
    (supervised listProcess passes n).length = listProcess.length ∧
    (∃ q r, (supervised listProcess passes n)[i]? = some q ∧ (supervised listProcess passes (n+1))[i]? = some r ∧
      Kept p q ∧ (Replaced listProcess passes i n → r.pPid = ((passes n).forks i).pid) ∧
      (¬ Replaced listProcess passes i n → r.pPid = q.pPid)) ∧
    (p.type = 0 → ¬ Replaced listProcess passes i n ∧
      ∀ q, (supervised listProcess passes n)[i]? = some q → q.pPid = p.pPid ∧
        (q.status = 0 → ∀ m ≥ n, ∀ r, (supervised listProcess passes m)[i]? = some r → r.status = 0)) ∧
    (p.type = 1 → Replaced listProcess passes i n → Dead passes i n ∧
      ∃ s m, Since listProcess passes i n s ∧ FirstDead passes i s m ∧ m < n ∧
        (passes n).now - (passes m).now > p.time) ∧
    (p.type ≠ 0 → p.type ≠ 1 → (Replaced listProcess passes i n ↔ Dead passes i n)) := by
  have here : ∀ n, (supervised listProcess passes n)[i]? = some (entry passes i p n) := by
    intro n
    rw [supervisedEntry,start,Option.map_some]
  have running : p.status = 1 := up p (List.mem_of_getElem? start)
  refine ⟨supervisedLength _ _ _,⟨_,_,here n,here (n+1),entryKept _ _ _ _,entryPid start n⟩,?_,?_,?_⟩
  · intro type
    refine ⟨(entryNeverReplaced start type n).1,fun q found => ?_⟩
    cases Option.some.inj ((here n).symm.trans found)
    refine ⟨(entryNeverReplaced start type n).2,fun down m later r reached => ?_⟩
    cases Option.some.inj ((here m).symm.trans reached)
    exact entryStopped type down later
  · intro type replaced
    exact ⟨((replacedEntry start n).mp replaced).1,replacedLate start running type replaced⟩
  · intro never later
    exact replacedWhenDead start never later n

def sampleEntry : Process := ⟨100,"lib".toList,1,0,0,1,10,[],1,0⟩
def samplePasses (n : Nat) : Pass := ⟨fun _ => false,6*n,fun _ => ⟨0,200⟩⟩

theorem supervisionPolicySample :
    Replaced [sampleEntry] samplePasses 0 2 ∧ ∃ s m, Since [sampleEntry] samplePasses 0 2 s ∧
      FirstDead samplePasses 0 s m ∧ m < 2 ∧ (samplePasses 2).now - (samplePasses m).now > 10 := by
  have replaced : Replaced [sampleEntry] samplePasses 0 2 :=
    ⟨(supervised [sampleEntry] samplePasses 2).getD 0 sampleEntry,by decide,by decide,by decide⟩
  have policy := supervisionPolicy [sampleEntry] (by decide) samplePasses 0 sampleEntry rfl 2
  exact ⟨replaced,(policy.2.2.2.1 rfl replaced).2⟩

end PracticeSuite.Agent
