import PracticeSuite.AgentSupervision

/-! listLibs and listProcess side by side. Without fork failures the process table
can only fall behind the library table, and it does so in the checkNew calls that
find more than one new library; nothing ever closes the gap again. -/
namespace PracticeSuite.Agent

def names (l : List Process) : List Str := l.map Process.pName

def Aligned (t : Tables) : Prop :=
  t.listProcess.length = t.listLibs.length ∧
    ∀ (i : Nat) (p l : Process), t.listProcess[i]? = some p → t.listLibs[i]? = some l → p.pName = l.pName

theorem alignedNames {t} : Aligned t ↔ names t.listProcess = names t.listLibs := by
  unfold Aligned names
  constructor
  · intro aligned
    obtain ⟨size,same⟩ := aligned
    apply List.ext_getElem (by simp [size])
    intro i first second
    simp only [List.length_map] at first second
    simp only [List.getElem_map]
    exact same i _ _ (List.getElem?_eq_getElem first) (List.getElem?_eq_getElem second)
  · intro same
    have size : t.listProcess.length = t.listLibs.length := by simpa using congrArg List.length same
    refine ⟨size,fun i p l first second => ?_⟩
    have at_ := congrArg (fun l => l[i]?) same
    simpa [first,second] using at_

def Behind (t : Tables) : Prop := t.listProcess.length < t.listLibs.length

theorem notBehind {t} (aligned : Aligned t) : ¬ Behind t := by
  have size := aligned.1
  unfold Behind
  omega

def Single (look : Look) (t : Tables) : Prop :=
  ∀ libNew, scan look.folder = .ok libNew → (libNew.filter (isNew t.listLibs)).length ≤ 1

theorem checkLoopNames (listLibs junk i l) :
    names (checkLoop listLibs junk i l) = names (l.filter (isNew listLibs)) := by
  induction l generalizing i with
  | nil => rfl
  | cons lib rest ih =>
    have tail := ih (i+1)
    simp only [checkLoop,List.filter_cons]
    split
    · unfold names at *
      simp only [List.map_cons,tail]
      rfl
    · exact tail

theorem checkLoopLength (listLibs junk i l) :
    (checkLoop listLibs junk i l).length = (l.filter (isNew listLibs)).length := by
  simpa [names] using congrArg List.length (checkLoopNames listLibs junk i l)

theorem pushSteady {start : Start} (steady : start.failures = 0) (lib listProcess) :
    pushStarted start lib listProcess = .ok (listProcess ++ [started start lib]) := by
  unfold pushStarted
  rw [steady]
  rfl

theorem checkNewSteady {look t t'} (steady : look.start.failures = 0) (done : checkNew look t = .ok t') :
    ∃ libNew, scan look.folder = .ok libNew ∧
      let both := checkLoop t.listLibs look.junk 0 libNew
      t' = ⟨t.listLibs ++ both,t.listProcess ++ (both.take 1).map (started look.start)⟩ := by
  obtain ⟨⟨both,middle⟩,checked,rest⟩ := bindOk.mp done
  obtain ⟨libNew,scanned,same⟩ := bindOk.mp checked
  obtain ⟨rfl,rfl⟩ := Prod.mk.inj (Except.ok.inj same)
  refine ⟨libNew,scanned,?_⟩
  dsimp only at rest ⊢
  split at rest
  · rename_i none_
    cases Except.ok.inj rest
    simp [none_]
  · rename_i lib others first
    obtain ⟨listProcess,pushed,last⟩ := bindOk.mp rest
    rw [pushSteady steady] at pushed
    cases Except.ok.inj pushed
    rw [← Except.ok.inj last,first]
    rfl

/- Either every call counted so far was single and the tables are aligned, or one
was not and the process table is behind. -/
def Outcome (single : Prop) (t : Tables) : Prop := (single ∧ Aligned t) ∨ (¬ single ∧ Behind t)

theorem outcomeAligned {single t} (outcome : Outcome single t) : Aligned t ↔ single := by
  rcases outcome with ⟨held,aligned⟩ | ⟨failed,behind⟩
  · exact ⟨fun _ => held,fun _ => aligned⟩
  · exact ⟨fun aligned => absurd behind (notBehind aligned),fun held => absurd held failed⟩

/- What a piece of a run does to the tables, given the condition on its checkNew
calls. Pieces compose, and every operation is one. -/
def Progress (single : Prop) (t t' : Tables) : Prop :=
  (Aligned t → Outcome single t') ∧ (Behind t → Behind t')

theorem progressRefl (t) : Progress True t t := ⟨fun aligned => .inl ⟨trivial,aligned⟩,id⟩

theorem progressTrans {first second : Prop} {t u v} (here : Progress first t u) (later : Progress second u v) :
    Progress (first ∧ second) t v := by
  refine ⟨fun aligned => ?_,fun behind => later.2 (here.2 behind)⟩
  rcases here.1 aligned with ⟨held,still⟩ | ⟨failed,behind⟩
  · rcases later.1 still with ⟨rest,last⟩ | ⟨failed,behind⟩
    · exact .inl ⟨⟨held,rest⟩,last⟩
    · exact .inr ⟨fun both => failed both.2,behind⟩
  · exact .inr ⟨fun both => failed both.1,later.2 behind⟩

theorem progressIff {first second : Prop} {t u} (same : first ↔ second) (here : Progress first t u) :
    Progress second t u := propext same ▸ here

theorem onlyOk {α : Type} {x : Except Fault α} {a : α} (done : x = .ok a) (property : α → Prop) :
    (∀ b, x = .ok b → property b) ↔ property a :=
  ⟨fun all => all a done,fun held _ again => Except.ok.inj (done.symm.trans again) ▸ held⟩

theorem checkNewProgress {look t t'} (steady : look.start.failures = 0) (done : checkNew look t = .ok t') :
    Progress (Single look t) t t' := by
  obtain ⟨libNew,scanned,rfl⟩ := checkNewSteady steady done
  have single : Single look t ↔ (checkLoop t.listLibs look.junk 0 libNew).length ≤ 1 := by
    rw [checkLoopLength]
    exact onlyOk scanned (fun libNew => (libNew.filter (isNew t.listLibs)).length ≤ 1)
  refine progressIff single.symm ⟨fun aligned => ?_,fun behind => ?_⟩
  · generalize checkLoop t.listLibs look.junk 0 libNew = both
    match both with
    | [] => exact .inl ⟨by simp,by simpa using aligned⟩
    | [lib] =>
      have same := alignedNames.mp aligned
      unfold names at same
      have longer : Aligned ⟨t.listLibs ++ [lib],t.listProcess ++ [started look.start lib]⟩ :=
        alignedNames.mpr (by simp [names,same,started])
      exact .inl ⟨by simp,longer⟩
    | lib::other::rest =>
      have size := aligned.1
      exact .inr ⟨by simp,by simp [Behind,size]⟩
  · unfold Behind at *
    simp only [List.length_append,List.length_map,List.length_take]
    omega

def erased (i : Nat) (t : Tables) : Tables := ⟨t.listLibs.eraseIdx i,t.listProcess.eraseIdx i⟩

theorem erasedProgress {t i} (inside : i < t.listProcess.length) : Progress True t (erased i t) := by
  refine ⟨fun aligned => .inl ⟨trivial,?_⟩,fun behind => ?_⟩
  · have same := alignedNames.mp aligned
    unfold names at same
    apply alignedNames.mpr
    simp only [names,erased,← List.eraseIdx_map,same]
  · unfold Behind at *
    simp only [erased]
    rw [List.length_eraseIdx_of_lt inside,List.length_eraseIdx_of_lt (by omega)]
    omega

def UpdateSingle (rounds : Nat → Round) : Nat → Nat → Update → Prop
  | 0,_,_ => True
  | fuel+1,i,s => match s.tables.listProcess[i]? with
    | none => True
    | some p =>
      let s := {s with acts := s.acts ++ [.asked p.pName p.num1 p.num2 p.num3]}
      if (rounds i).newFile = [] then UpdateSingle rounds fuel (i+1) s
      else Single (rounds i).look (erased i s.tables) ∧
        ∀ s', replaceEntry (rounds i) i p s = .ok s' → UpdateSingle rounds fuel (i+1) s'

theorem updateSingleEnd {rounds fuel i s} (missing : s.tables.listProcess[i]? = none) :
    UpdateSingle rounds (fuel+1) i s = True := by
  simp only [UpdateSingle,missing]

theorem updateSingleNext {rounds fuel i s p} (here : s.tables.listProcess[i]? = some p) :
    UpdateSingle rounds (fuel+1) i s =
      let s := {s with acts := s.acts ++ [.asked p.pName p.num1 p.num2 p.num3]}
      if (rounds i).newFile = [] then UpdateSingle rounds fuel (i+1) s
      else Single (rounds i).look (erased i s.tables) ∧
        ∀ s', replaceEntry (rounds i) i p s = .ok s' → UpdateSingle rounds fuel (i+1) s' := by
  simp only [UpdateSingle,here]

theorem replaceEntryTables {round i p s s'} (done : replaceEntry round i p s = .ok s') :
    checkNew round.look (erased i s.tables) = .ok s'.tables := by
  unfold replaceEntry at done
  dsimp only at done
  split at done <;> try contradiction
  obtain ⟨tables,renewed,last⟩ := bindOk.mp done
  cases Except.ok.inj last
  exact renewed

theorem updateProgress {rounds : Nat → Round} (steady : ∀ i, (rounds i).look.start.failures = 0) {fuel i s s'}
    (done : updateLoop rounds fuel i s = .ok s') :
    Progress (UpdateSingle rounds fuel i s) s.tables s'.tables := by
  induction fuel generalizing i s with
  | zero =>
    cases Except.ok.inj done
    exact progressRefl _
  | succ fuel ih =>
    simp only [updateLoop] at done
    split at done
    · rename_i missing
      rw [updateSingleEnd missing]
      cases Except.ok.inj done
      exact progressRefl _
    · rename_i p here
      rw [updateSingleNext here]
      dsimp only
      split at done
      · rename_i quiet
        rw [if_pos quiet]
        exact ih done
      · rename_i answered
        obtain ⟨middle,replaced,rest⟩ := bindOk.mp done
        obtain ⟨inside,_⟩ := List.getElem?_eq_some_iff.mp here
        have renewed := checkNewProgress (steady i) (replaceEntryTables replaced)
        have all := progressTrans (erasedProgress inside) (progressTrans renewed (ih rest))
        rw [if_neg answered,onlyOk replaced (UpdateSingle rounds fuel (i+1))]
        exact progressIff (by simp only [true_and]) all

theorem checkStateNames (pass l) : names (checkState pass l) = names l := by
  unfold names checkState
  apply List.ext_getElem (by simp)
  intro i first second
  simp only [List.getElem_map,List.getElem_mapIdx]
  exact (visitKept _ _ _).1

def Event.Steady : Event → Prop
  | .checkState _ => True
  | .checkNew look => look.start.failures = 0
  | .update rounds => ∀ i, (rounds i).look.start.failures = 0

def EventSingle (t : Tables) : Event → Prop
  | .checkState _ => True
  | .checkNew look => Single look t
  | .update rounds => UpdateSingle rounds t.listProcess.length 0 ⟨t,agentchildForder,[]⟩

def RunSingle : Tables → List Event → Prop
  | _,[] => True
  | t,e::rest => EventSingle t e ∧ ∀ t', step t e = .ok t' → RunSingle t' rest

theorem stepProgress {t t'} {e : Event} (steady : e.Steady) (done : step t e = .ok t') :
    Progress (EventSingle t e) t t' := by
  cases e with
  | checkState pass =>
    cases Except.ok.inj done
    refine ⟨fun aligned => .inl ⟨trivial,?_⟩,fun behind => by simpa [Behind,checkState] using behind⟩
    exact alignedNames.mpr ((checkStateNames _ _).trans (alignedNames.mp aligned))
  | checkNew look => exact checkNewProgress steady done
  | update rounds =>
    obtain ⟨s,updated,last⟩ := bindOk.mp done
    cases Except.ok.inj last
    exact updateProgress steady updated

theorem runProgress {t t' events} (steady : ∀ e ∈ events, Event.Steady e) (done : run t events = .ok t') :
    Progress (RunSingle t events) t t' := by
  induction events generalizing t with
  | nil =>
    cases Except.ok.inj done
    exact progressRefl _
  | cons e rest ih =>
    obtain ⟨middle,first,others⟩ := bindOk.mp done
    have here := stepProgress (steady e List.mem_cons_self) first
    have later := ih (fun x mem => steady x (List.mem_cons_of_mem _ mem)) others
    simp only [RunSingle]
    rw [onlyOk first (fun t => RunSingle t rest)]
    exact progressTrans here later

theorem startLoopNames {starts : Nat → Start} (steady : ∀ i, (starts i).failures = 0) {i libs l l'}
    (done : startLoop starts i libs l = .ok l') : names l' = names l ++ names libs := by
  induction libs generalizing i l with
  | nil =>
    cases Except.ok.inj done
    simp [names]
  | cons lib rest ih =>
    obtain ⟨longer,pushed,others⟩ := bindOk.mp done
    rw [pushSteady (steady i)] at pushed
    cases Except.ok.inj pushed
    rw [ih others]
    simp [names,started]

theorem launchAligned {folder t} {starts : Nat → Start} (steady : ∀ i, (starts i).failures = 0)
    (done : launch folder starts = .ok t) : Aligned t := by
  obtain ⟨libs,_,all⟩ := bindOk.mp done
  obtain ⟨l,looped,last⟩ := bindOk.mp all
  cases Except.ok.inj last
  exact alignedNames.mpr (startLoopNames steady looped)

theorem alignedExactly (folder : Folder) (starts : Nat → Start) (events : List Event) (t₀ t : Tables)
    (startsSteady : ∀ i, (starts i).failures = 0) (eventsSteady : ∀ e ∈ events, Event.Steady e)
    (launched : launch folder starts = .ok t₀) (reached : run t₀ events = .ok t) :
    Aligned t ↔ RunSingle t₀ events :=
  outcomeAligned ((runProgress eventsSteady reached).1 (launchAligned startsSteady launched))

def steadyStart (i : Nat) : Start := ⟨⟨0,100 + i⟩,0⟩
def folderOf (files : List String) : Folder :=
  ⟨some (files.map String.toList),fun _ => some (.object 2 0 []),fun _ => blank⟩
def lookOf (files : List String) : Look := ⟨folderOf files,fun _ => blank,steadyStart 7⟩
def listedLib (pid : Int) (name : String) : Process := ⟨pid,name.toList,1,0,0,2,0,[],1,0⟩
def foundLib (name : String) : Process := {listedLib 0 name with time := 2}

theorem alignedExactlyOneByOne :
    Aligned ⟨[listedLib 0 "a",foundLib "b"],[listedLib 100 "a",{foundLib "b" with pPid := 107}]⟩ ∧
    RunSingle ⟨[listedLib 0 "a"],[listedLib 100 "a"]⟩ [.checkNew (lookOf ["a-1.0.0.so","b-1.0.0.so"])] := by
  have exactly := alignedExactly (folderOf ["a-1.0.0.so"]) steadyStart [.checkNew (lookOf ["a-1.0.0.so","b-1.0.0.so"])]
    ⟨[listedLib 0 "a"],[listedLib 100 "a"]⟩
    ⟨[listedLib 0 "a",foundLib "b"],[listedLib 100 "a",{foundLib "b" with pPid := 107}]⟩
    (fun _ => rfl) (fun e mem => by cases List.mem_singleton.mp mem; rfl) rfl rfl
  have aligned : Aligned ⟨[listedLib 0 "a",foundLib "b"],[listedLib 100 "a",{foundLib "b" with pPid := 107}]⟩ := by
    refine alignedNames.mpr ?_
    decide
  exact ⟨aligned,exactly.mp aligned⟩

theorem twoNewLibraries : ¬ ∀ (folder : Folder) (starts : Nat → Start) (events : List Event) (t₀ t : Tables),
    (∀ i, (starts i).failures = 0) → (∀ e ∈ events, Event.Steady e) →
    launch folder starts = .ok t₀ → run t₀ events = .ok t → Aligned t := by
  intro all
  have aligned := all (folderOf []) steadyStart [.checkNew (lookOf ["a-1.0.0.so","b-1.0.0.so"])] ⟨[],[]⟩
    ⟨[foundLib "a",foundLib "b"],[{foundLib "a" with pPid := 107}]⟩
    (fun _ => rfl) (fun e mem => by cases List.mem_singleton.mp mem; rfl) rfl rfl
  exact absurd aligned.1 (by decide)

end PracticeSuite.Agent
