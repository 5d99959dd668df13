import Mathlib

/-! The socket listing of readSocket. Two things outlive a call: the static line
counter and the global handle procinfo, which a call of kind 0 or of an unknown
kind does not open itself. What is printed for a line read as a row is a function
of the kind and the line, and is recorded as these two. -/
namespace PracticeSuite.SocketListing

variable {Line : Type}

structure Contents (Line : Type) where
  header : Line
  data : List Line
  deriving Repr

def Contents.lines (c : Contents Line) : List Line := c.header :: c.data

inductive Handle (Line : Type) where
  | null
  | opened (lines : List Line)
  | closed
  deriving Repr

structure State (Line : Type) where
  count : Nat
  procinfo : Handle Line
  deriving Repr

def start : State Line := ⟨0,.null⟩

inductive Printed (Line : Type) where
  | titles
  | row (kind : Nat) (line : Line)
  deriving Repr

inductive Fault where
  | closedHandle
  deriving DecidableEq, Repr

/- do .. while (!feof(procinfo)): the call of fgets after the last line sets the
end-of-file flag and prints nothing. -/
def lineLoop (kind : Nat) : Nat → List Line → List (Printed Line) × Nat
  | count,[] => ([],count)
  | count,buffer::rest =>
    if count ≠ 0 then
      let (printed,last) := lineLoop kind count rest
      (.row kind buffer :: printed,last)
    else
      let (printed,last) := lineLoop kind (count+1) rest
      (.titles :: printed,last)

structure Returned (Line : Type) where
  state : State Line
  printed : List (Printed Line)
  value : Int
  deriving Repr

/- What follows the switch. -/
def listing (kind : Nat) (s : State Line) : Except Fault (Returned Line) :=
  match s.procinfo with
  | .null => .ok ⟨s,[],-1⟩
  | .closed => .error .closedHandle
  | .opened lines =>
    let (printed,count) := lineLoop kind s.count lines
    .ok ⟨⟨count,.closed⟩,printed,0⟩

def procFopen (c : Contents Line) (s : State Line) : State Line := {s with procinfo := .opened c.lines}

structure Call (Line : Type) where
  kind : Nat
  tcp : Contents Line
  udp : Contents Line
  deriving Repr

def readSocket (c : Call Line) (s : State Line) : Except Fault (Returned Line) :=
  if c.kind = 0 then do
    let first ← listing 1 (procFopen c.tcp s)
    let second ← listing 2 (procFopen c.udp first.state)
    let last ← listing 0 second.state
    .ok {last with printed := first.printed ++ second.printed ++ last.printed}
  else if c.kind = 1 then listing 1 (procFopen c.tcp s)
  else if c.kind = 2 then listing 2 (procFopen c.udp s)
  else listing c.kind s

def run (s : State Line) : List (Call Line) → Except Fault (List (List (Printed Line)))
  | [] => .ok []
  | c::rest => do
    let returned ← readSocket c s
    let later ← run returned.state rest
    .ok (returned.printed :: later)

def rows : List (Printed Line) → List (Nat × Line)
  | [] => []
  | .titles::rest => rows rest
  | .row kind line::rest => (kind,line) :: rows rest

def dataRows (kind : Nat) (c : Contents Line) : List (Nat × Line) := c.data.map (fun line => (kind,line))

def Listed (c : Call Line) (printed : List (Printed Line)) : Prop :=
  (c.kind = 0 → rows printed = dataRows 1 c.tcp ++ dataRows 2 c.udp) ∧
  (c.kind = 1 → rows printed = dataRows 1 c.tcp) ∧
  (c.kind = 2 → rows printed = dataRows 2 c.udp)

def Good (s : State Line) (calls : List (Call Line)) : Prop :=
  ∃ outputs, run s calls = .ok outputs ∧ List.Forall₂ Listed calls outputs

theorem lineLoopLater (kind : Nat) {count : Nat} (later : count ≠ 0) (lines : List Line) :
    lineLoop kind count lines = (lines.map (.row kind),count) := by
  induction lines with
  | nil => rfl
  | cons buffer rest ih => simp only [lineLoop,if_pos later,ih,List.map_cons]

theorem lineLoopFirst (kind : Nat) (c : Contents Line) :
    lineLoop kind 0 c.lines = (.titles :: c.data.map (.row kind),1) := by
  simp only [Contents.lines,lineLoop,ne_eq,not_true_eq_false,if_false,Nat.zero_add,
    lineLoopLater kind Nat.one_ne_zero c.data]

theorem rowsMap (kind : Nat) (lines : List Line) :
    rows (lines.map (.row kind)) = lines.map (fun line => (kind,line)) := by
  induction lines with
  | nil => rfl
  | cons line rest ih => simp only [List.map_cons,rows,ih]

theorem listingFirst (kind : Nat) (c : Contents Line) (h : Handle Line) :
    ∃ returned, listing kind (procFopen c ⟨0,h⟩) = .ok returned ∧ returned.state = ⟨1,.closed⟩ ∧
      rows returned.printed = dataRows kind c := by
  refine ⟨⟨⟨1,.closed⟩,.titles :: c.data.map (.row kind),0⟩,?_,rfl,?_⟩
  · simp only [listing,procFopen,lineLoopFirst]
  · simp only [rows,rowsMap,dataRows]

theorem listingLater (kind : Nat) (c : Contents Line) (h : Handle Line) :
    ∃ returned, listing kind (procFopen c ⟨1,h⟩) = .ok returned ∧ returned.state = ⟨1,.closed⟩ ∧
      rows returned.printed = (kind,c.header) :: dataRows kind c := by
  refine ⟨⟨⟨1,.closed⟩,c.lines.map (.row kind),0⟩,?_,rfl,?_⟩
  · simp only [listing,procFopen,lineLoopLater kind Nat.one_ne_zero]
  · exact rowsMap kind c.lines

theorem headerNotData (kind : Nat) (c : Contents Line) : (kind,c.header) :: dataRows kind c ≠ dataRows kind c := by
  intro same
  have lengths := congrArg List.length same
  simp at lengths

theorem runCons {s : State Line} {c rest outputs} (ran : run s (c::rest) = .ok outputs) :
    ∃ returned later, readSocket c s = .ok returned ∧ run returned.state rest = .ok later ∧
      outputs = returned.printed :: later := by
  simp only [run] at ran
  cases here : readSocket c s with
  | error fault =>
    rw [here] at ran
    contradiction
  | ok returned =>
    rw [here] at ran
    cases tail : run returned.state rest with
    | error fault =>
      simp only [bind,Except.bind,tail] at ran
      contradiction
    | ok later =>
      simp only [bind,Except.bind,tail] at ran
      cases ran
      exact ⟨returned,later,rfl,tail,rfl⟩

theorem goodCons {s : State Line} {c rest} : Good s (c::rest) ↔
    ∃ returned, readSocket c s = .ok returned ∧ Listed c returned.printed ∧ Good returned.state rest := by
  refine ⟨fun good => ?_,fun good => ?_⟩
  · obtain ⟨outputs,ran,listed⟩ := good
    obtain ⟨returned,later,here,tail,rfl⟩ := runCons ran
    obtain ⟨first,others⟩ := List.forall₂_cons.mp listed
    exact ⟨returned,here,first,later,tail,others⟩
  · obtain ⟨returned,here,first,later,tail,others⟩ := good
    refine ⟨returned.printed :: later,?_,.cons first others⟩
    simp only [run,here,bind,Except.bind,tail]

theorem goodNil (s : State Line) : Good s [] := ⟨[],rfl,.nil⟩

theorem bothFaults (c : Call Line) (s : State Line) (both : c.kind = 0) :
    ∀ returned, readSocket c s ≠ .ok returned := by
  intro returned ok
  simp only [readSocket,if_pos both,bind,Except.bind,listing,procFopen] at ok
  contradiction

theorem badLater (c : Call Line) (rest : List (Call Line)) : ¬ Good ⟨1,.closed⟩ (c::rest) := by
  intro good
  obtain ⟨returned,here,listed,_⟩ := goodCons.mp good
  by_cases both : c.kind = 0
  · exact bothFaults c _ both returned here
  by_cases tcp : c.kind = 1
  · obtain ⟨actual,ok,_,printed⟩ := listingLater 1 c.tcp .closed
    simp only [readSocket,if_neg both,if_pos tcp] at here
    cases Except.ok.inj (here.symm.trans ok)
    exact headerNotData 1 c.tcp (printed.symm.trans (listed.2.1 tcp))
  by_cases udp : c.kind = 2
  · obtain ⟨actual,ok,_,printed⟩ := listingLater 2 c.udp .closed
    simp only [readSocket,if_neg both,if_neg tcp,if_pos udp] at here
    cases Except.ok.inj (here.symm.trans ok)
    exact headerNotData 2 c.udp (printed.symm.trans (listed.2.2 udp))
  · simp only [readSocket,if_neg both,if_neg tcp,if_neg udp,listing] at here
    contradiction

theorem goodFirst {c : Call Line} {rest : List (Call Line)} (file : c.kind = 1 ∨ c.kind = 2) :
    Good start (c::rest) ↔ rest = [] := by
  have read : ∃ returned, readSocket c start = .ok returned ∧ returned.state = ⟨1,.closed⟩ ∧
      Listed c returned.printed := by
    rcases file with tcp | udp
    · obtain ⟨returned,ok,state,printed⟩ := listingFirst 1 c.tcp .null
      refine ⟨returned,?_,state,by omega,fun _ => printed,by omega⟩
      simp only [readSocket,tcp,Nat.one_ne_zero,if_false,if_true]
      exact ok
    · obtain ⟨returned,ok,state,printed⟩ := listingFirst 2 c.udp .null
      refine ⟨returned,?_,state,by omega,by omega,fun _ => printed⟩
      simp only [readSocket,udp,OfNat.ofNat_ne_zero,OfNat.ofNat_ne_one,if_false,if_true]
      exact ok
  obtain ⟨returned,ok,state,listed⟩ := read
  rw [goodCons]
  refine ⟨fun good => ?_,fun none_ => ?_⟩
  · obtain ⟨actual,here,_,later⟩ := good
    cases Except.ok.inj (ok.symm.trans here)
    rw [state] at later
    cases rest with
    | nil => rfl
    | cons d more => exact absurd later (badLater d more)
  · subst none_
    exact ⟨returned,ok,listed,goodNil _⟩

theorem listingExactly (calls : List (Call Line)) :
    Good start calls ↔ ∀ before c after, calls = before ++ c :: after → c.kind ≤ 2 → c.kind ≠ 0 ∧ after = [] := by
  induction calls with
  | nil =>
    refine ⟨fun _ before c after split => ?_,fun _ => goodNil start⟩
    simp at split
  | cons d rest ih =>
    by_cases other : 2 < d.kind
    · have idle : readSocket d start = .ok ⟨start,[],-1⟩ := by
        simp only [readSocket,show d.kind ≠ 0 by omega,show d.kind ≠ 1 by omega,show d.kind ≠ 2 by omega,if_false]
        rfl
      have skip : Good start (d::rest) ↔ Good start rest := by
        rw [goodCons]
        refine ⟨fun good => ?_,fun good => ⟨_,idle,⟨by omega,by omega,by omega⟩,good⟩⟩
        obtain ⟨actual,here,_,later⟩ := good
        cases Except.ok.inj (idle.symm.trans here)
        exact later
      rw [skip,ih]
      refine ⟨fun tail before c after split low => ?_,fun all before c after split low => ?_⟩
      · cases before with
        | nil =>
          cases split
          omega
        | cons x before =>
          cases split
          exact tail before c after rfl low
      · exact all (d::before) c after (by rw [split]; rfl) low
    · by_cases both : d.kind = 0
      · refine ⟨fun good => ?_,fun all => absurd both (all [] d rest rfl (by omega)).1⟩
        obtain ⟨returned,here,_⟩ := goodCons.mp good
        exact absurd here (bothFaults d start both returned)
      · rw [goodFirst (by omega)]
        refine ⟨fun none_ before c after split low => ?_,fun all => (all [] d rest rfl (by omega)).2⟩
        subst none_
        cases before with
        | nil =>
          cases split
          exact ⟨both,rfl⟩
        | cons x before => simp at split

theorem headerListed :
    ¬ Good start [⟨1,⟨"header",["data"]⟩,⟨"header",[]⟩⟩,⟨1,⟨"header",["data"]⟩,⟨"header",[]⟩⟩] := by
  intro good
  obtain ⟨returned,here,_,later⟩ := goodCons.mp good
  cases here
  exact badLater _ _ later

end PracticeSuite.SocketListing
