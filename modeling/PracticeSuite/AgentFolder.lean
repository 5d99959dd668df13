import PracticeSuite.AgentScan

/-! What scan reads out of a name, and when its result does not depend on the order
of the directory. The numbers of a version are the pieces between the first dash
and the dots that follow; a name with fewer than three dots leaves the rest of the
array `v` as it was. -/
namespace PracticeSuite.Agent

def pieces (piece : Str) : Str → List Str
  | [] => []
  | c::rest => if c = '.' then piece :: pieces [] rest else pieces (piece ++ [c]) rest

def fields (str : Str) : List Str := pieces [] (str.drop (dash str + 1).toNat)

def numbers (junk : Process) (str : Str) : List Int :=
  let read := (fields str).map atoi
  read ++ [junk.num1,junk.num2,junk.num3].drop read.length

def Regular (str : Str) : Prop := (fields str).length ≤ 3 ∧ ∀ f ∈ fields str, f.length < 20
instance (str) : Decidable (Regular str) := by unfold Regular; infer_instance

theorem pieceCopied {str pre piece rest : Str} (split : str = pre ++ piece ++ '.' :: rest) :
    copyVer str piece.length (pre.length : Int) = if piece.length < 20 then .ok piece else .error .overrun := by
  have cut : (str.drop pre.length).take piece.length = piece := by
    rw [split,List.append_assoc,List.drop_left,List.take_left]
  have inside : ¬ ((pre.length : Int) < 0 ∨ (str.length : Int) < pre.length) := by
    rw [split]
    simp only [List.length_append]
    omega
  simp only [copyVer,if_neg inside,Int.toNat_natCast,cut]

theorem stepDot {str pre piece rest : Str} {v : List Int} {k : Nat} (split : str = pre ++ piece ++ '.' :: rest) :
    versionStep str ⟨v,k,piece.length,(pre.length : Int) - 1⟩ (pre.length + piece.length) =
      if piece.length < 20 ∧ k < 3 then
        .ok ⟨v.set k (atoi piece),k+1,0,((pre ++ piece ++ ['.']).length : Int) - 1⟩
      else .error .overrun := by
  have here : str[pre.length + piece.length]? = some '.' := by
    rw [split,← List.length_append,List.getElem?_append_right (Nat.le_refl _)]
    simp
  simp only [versionStep,here,if_true,Int.sub_add_cancel,Nat.add_sub_cancel,pieceCopied split]
  by_cases short : piece.length < 20
  · have old : ((pre.length + piece.length : Nat) : Int) = ((pre ++ piece ++ ['.']).length : Int) - 1 := by
      simp only [List.length_append,List.length_singleton]
      omega
    simp only [short,if_true,bind,Except.bind,true_and,old]
  · simp only [short,if_false,bind,Except.bind,false_and]

theorem stepOther {str pre piece rest : Str} {c : Char} {v : List Int} {k : Nat}
    (split : str = pre ++ piece ++ c :: rest) (other : c ≠ '.') :
    versionStep str ⟨v,k,piece.length,(pre.length : Int) - 1⟩ (pre.length + piece.length) =
      .ok ⟨v,k,(piece ++ [c]).length,(pre.length : Int) - 1⟩ := by
  have here : str[pre.length + piece.length]? = some c := by
    rw [split,← List.length_append,List.getElem?_append_right (Nat.le_refl _)]
    simp
  have miss : ¬ (some c = some '.') := fun same => other (Option.some.inj same)
  simp only [versionStep,here,if_neg miss,List.length_append,List.length_singleton]

theorem loopPieces (str pre piece rest : Str) (split : str = pre ++ piece ++ rest) (read : List Int)
    (junk : List Int) (three : junk.length = 3) (room : read.length + (pieces piece rest).length ≤ 3)
    (short : ∀ f ∈ pieces piece rest, f.length < 20) :
    ∃ s, (List.range' (pre.length + piece.length) rest.length).foldlM (versionStep str)
        ⟨read ++ junk.drop read.length,read.length,piece.length,(pre.length : Int) - 1⟩ = .ok s ∧
      s.v = read ++ (pieces piece rest).map atoi ++ junk.drop (read.length + (pieces piece rest).length) := by
  induction rest generalizing pre piece read with
  | nil => exact ⟨_,rfl,by simp [pieces]⟩
  | cons c rest ih =>
    rw [List.length_cons,List.range'_succ,List.foldlM_cons]
    by_cases dot : c = '.'
    · subst dot
      simp only [pieces,if_true,List.length_cons,List.forall_mem_cons] at room short
      have placed : (read ++ junk.drop read.length).set read.length (atoi piece) =
          (read ++ [atoi piece]) ++ junk.drop (read ++ [atoi piece]).length := by
        rw [List.set_append_right _ _ (Nat.le_refl _),Nat.sub_self,List.length_append,List.length_singleton,
          List.append_assoc]
        have rest_ : junk.drop read.length = junk.get ⟨read.length,by omega⟩ :: junk.drop (read.length+1) :=
          List.drop_eq_getElem_cons (by omega)
        rw [rest_]
        rfl
      rw [stepDot split,if_pos ⟨short.1,by omega⟩,placed]
      have next := ih (pre ++ piece ++ ['.']) [] (by rw [split]; simp) (read ++ [atoi piece])
        (by simp only [List.length_append,List.length_singleton]; omega) short.2
      obtain ⟨s,ran,value⟩ := next
      refine ⟨s,?_,?_⟩
      · simp only [List.length_append,List.length_singleton,List.length_nil,Nat.add_zero] at ran ⊢
        exact ran
      · rw [value]
        simp [pieces,Nat.add_assoc,Nat.add_comm]
    · have skip : pieces piece (c::rest) = pieces (piece ++ [c]) rest := by simp [pieces,dot]
      rw [skip] at room short ⊢
      rw [stepOther split dot]
      obtain ⟨s,ran,value⟩ := ih pre (piece ++ [c]) (by rw [split]; simp) read room short
      refine ⟨s,?_,value⟩
      simp only [List.length_append,List.length_singleton,← Nat.add_assoc] at ran ⊢
      exact ran

theorem loopOverruns (str pre piece rest : Str) (split : str = pre ++ piece ++ rest) (v : List Int) (k : Nat)
    (irregular : ¬ (k + (pieces piece rest).length ≤ 3 ∧ ∀ f ∈ pieces piece rest, f.length < 20))
    (start : k ≤ 3) :
    (List.range' (pre.length + piece.length) rest.length).foldlM (versionStep str)
      ⟨v,k,piece.length,(pre.length : Int) - 1⟩ = .error .overrun := by
  induction rest generalizing pre piece v k with
  | nil => exact absurd ⟨by simpa [pieces] using start,by simp [pieces]⟩ irregular
  | cons c rest ih =>
    rw [List.length_cons,List.range'_succ,List.foldlM_cons]
    by_cases dot : c = '.'
    · subst dot
      rw [stepDot split]
      split
      · rename_i fits
        simp only [pieces,if_true,List.length_cons,List.forall_mem_cons] at irregular
        have next := ih (pre ++ piece ++ ['.']) [] (by rw [split]; simp) (v.set k (atoi piece)) (k+1)
          (fun later => irregular ⟨by omega,fits.1,later.2⟩) fits.2
        simp only [List.length_append,List.length_singleton,List.length_nil,Nat.add_zero] at next ⊢
        exact next
      · rfl
    · have skip : pieces piece (c::rest) = pieces (piece ++ [c]) rest := by simp [pieces,dot]
      rw [skip] at irregular
      rw [stepOther split dot]
      have next := ih pre (piece ++ [c]) (by rw [split]; simp) v k irregular start
      simp only [List.length_append,List.length_singleton,← Nat.add_assoc] at next ⊢
      exact next

theorem dashCut (str : Str) :
    ∃ pre, str = pre ++ str.drop (dash str + 1).toNat ∧ (pre.length : Int) - 1 = dash str ∧
      pre.length = (dash str + 1).toNat := by
  unfold dash
  cases found : str.findIdx? (· = '-') with
  | none => exact ⟨[],rfl,rfl,rfl⟩
  | some n =>
    have inside : n < str.length := (List.findIdx?_eq_some_iff_findIdx_eq.mp found).1
    refine ⟨str.take (n+1),(List.take_append_drop _ _).symm,?_,?_⟩
    · simp only [List.length_take]
      omega
    · simp only [List.length_take]
      omega

theorem versionLoopNumbers {str : Str} (regular : Regular str) (junk : Process) :
    ∃ s, versionLoop str junk = .ok s ∧ s.v = numbers junk str := by
  obtain ⟨pre,split,old,start⟩ := dashCut str
  have room : ([] : List Int).length + (fields str).length ≤ 3 := by
    rw [List.length_nil,Nat.zero_add]
    exact regular.1
  obtain ⟨s,ran,value⟩ := loopPieces str pre [] (str.drop (dash str + 1).toNat) (by simpa using split) []
    [junk.num1,junk.num2,junk.num3] rfl room regular.2
  refine ⟨s,?_,?_⟩
  · rw [old] at ran
    simp only [List.length_nil,Nat.add_zero,List.drop_zero,List.nil_append,start,List.length_drop] at ran
    simp only [versionLoop]
    exact ran
  · rw [value]
    simp only [numbers,fields,List.nil_append,List.length_nil,Nat.zero_add,List.length_map]

theorem versionLoopOverruns {str : Str} (irregular : ¬ Regular str) (junk : Process) :
    versionLoop str junk = .error .overrun := by
  obtain ⟨pre,split,old,start⟩ := dashCut str
  have bad : ¬ (0 + (fields str).length ≤ 3 ∧ ∀ f ∈ fields str, f.length < 20) := by
    rw [Nat.zero_add]
    exact irregular
  have ran := loopOverruns str pre [] (str.drop (dash str + 1).toNat) (by simpa using split)
    [junk.num1,junk.num2,junk.num3] 0 bad (Nat.zero_le 3)
  rw [old] at ran
  simp only [List.length_nil,Nat.add_zero,start,List.length_drop] at ran
  simp only [versionLoop]
  exact ran

def parsed (junk : Process) (str : Str) : Process :=
  {junk with
    pName := nameOf str,num1 := (numbers junk str).getD 0 0,num2 := (numbers junk str).getD 1 0,
    num3 := (numbers junk str).getD 2 0,arg := []}

def visible (str : Str) : Bool := str.findIdx? (· = '.') ≠ some 0

def isLibrary (str : Str) : Bool := str.drop (str.length - 2) = "so".toList

theorem hiddenPassed {str : Str} (hidden : visible str = false) (config junk) :
    scanEntry config junk str = .ok .passed := by
  unfold visible at hidden
  rw [decide_eq_false_iff_not,not_not] at hidden
  simp only [scanEntry,if_pos hidden]

theorem irregularEntry {str : Str} (shown : visible str = true) (irregular : ¬ Regular str) (config junk) :
    scanEntry config junk str = .error .overrun := by
  unfold visible at shown
  rw [decide_eq_true_eq] at shown
  simp only [scanEntry,if_neg shown,versionLoopOverruns irregular,bind,Except.bind]

theorem suffixCopied (str : Str) :
    copyVer str 2 ((str.length : Int) - 2) =
      if str.length < 2 then .error .outOfRange else .ok (str.drop (str.length - 2)) := by
  unfold copyVer
  by_cases tiny : str.length < 2
  · rw [if_pos (Or.inl (by omega)),if_pos tiny]
  · have at_ : ((str.length : Int) - 2).toNat = str.length - 2 := by omega
    have all : (str.drop (str.length - 2)).take 2 = str.drop (str.length - 2) :=
      List.take_of_length_le (by rw [List.length_drop]; omega)
    have small : (str.drop (str.length - 2)).length < 20 := by
      rw [List.length_drop]
      omega
    rw [if_neg (by omega),if_neg tiny]
    simp only [at_,all,if_pos small]

theorem visibleEntry {str : Str} (shown : visible str = true) (regular : Regular str) (config junk) :
    scanEntry config junk str = match config (configPath (parsed junk str)) with
      | none => .ok .closed
      | some file => (do
        let p ← readConfig (parsed junk str) file
        if str.length < 2 then .error .outOfRange
        else .ok (if isLibrary str then .listed p else .passed)) := by
  unfold visible at shown
  rw [decide_eq_true_eq] at shown
  obtain ⟨s,ran,value⟩ := versionLoopNumbers regular junk
  have same : {junk with
      pName := nameOf str,num1 := (numbers junk str).getD 0 0,num2 := (numbers junk str).getD 1 0,
      num3 := (numbers junk str).getD 2 0,arg := []} = parsed junk str := rfl
  simp only [scanEntry,if_neg shown,ran,bind,Except.bind,value,same]
  cases config (configPath (parsed junk str)) with
  | none => rfl
  | some file =>
    dsimp only
    cases readConfig (parsed junk str) file with
    | error fault => rfl
    | ok p =>
      dsimp only
      rw [suffixCopied]
      by_cases tiny : str.length < 2
      · simp only [if_pos tiny]
      · simp only [if_neg tiny,isLibrary,decide_eq_true_eq]

def libraryName (name a b c : Str) : Str := name ++ '-' :: (a ++ '.' :: (b ++ '.' :: (c ++ '.' :: "so".toList)))

theorem piecesDot {a : Str} (dotless : '.' ∉ a) (piece rest : Str) :
    pieces piece (a ++ '.' :: rest) = (piece ++ a) :: pieces [] rest := by
  induction a generalizing piece with
  | nil => simp [pieces]
  | cons c a ih =>
    have other : c ≠ '.' := fun same => dotless (same ▸ List.mem_cons_self)
    have later := ih (fun mem => dotless (List.mem_cons_of_mem c mem)) (piece ++ [c])
    simp only [List.cons_append,pieces,if_neg other,later,List.append_assoc,List.nil_append]

theorem libraryDash {name : Str} (plain : '-' ∉ name) (rest : Str) :
    (name ++ '-' :: rest).findIdx? (· = '-') = some name.length := by
  induction name with
  | nil => rfl
  | cons c name ih =>
    have other : c ≠ '-' := fun same => plain (same ▸ List.mem_cons_self)
    have later := ih (fun mem => plain (List.mem_cons_of_mem c mem))
    simp only [List.cons_append,List.findIdx?_cons,decide_eq_true_eq,if_neg other,later,Option.map_some,
      List.length_cons]

theorem libraryNameOf {name : Str} (plain : '-' ∉ name) (a b c : Str) :
    nameOf (libraryName name a b c) = name := by
  simp only [nameOf,libraryName,libraryDash plain,List.take_left]

theorem libraryFields {name a b c : Str} (plain : '-' ∉ name) (first : '.' ∉ a) (second : '.' ∉ b)
    (third : '.' ∉ c) : fields (libraryName name a b c) = [a,b,c] := by
  have cut (rest : Str) : (name ++ '-' :: rest).drop (name.length + 1) = rest := by
    rw [← List.drop_drop,List.drop_left]
    rfl
  have at_ : ((name.length : Int) + 1).toNat = name.length + 1 := by omega
  have done : pieces [] "so".toList = [] := rfl
  simp only [fields,dash,libraryName,libraryDash plain,at_,cut,piecesDot first,piecesDot second,piecesDot third,
    List.nil_append,done]

theorem libraryIs (name a b c : Str) : isLibrary (libraryName name a b c) = true := by
  have regroup : libraryName name a b c =
      (name ++ '-' :: (a ++ '.' :: (b ++ '.' :: (c ++ ['.'])))) ++ "so".toList := by
    simp [libraryName]
  unfold isLibrary
  rw [regroup,List.length_append,decide_eq_true_eq]
  exact List.drop_left

theorem numbersFull {str : Str} (full : (fields str).length = 3) (junk : Process) :
    numbers junk str = (fields str).map atoi := by
  simp only [numbers,List.length_map,full]
  exact List.append_nil _

theorem numbersShort {str : Str} (short : (fields str).length < 3) (junk : Process) :
    (numbers junk str).getD 2 0 = junk.num3 := by
  have count : ((fields str).map atoi).length = (fields str).length := List.length_map _
  simp only [numbers]
  generalize (fields str).map atoi = read at count
  rw [count]
  rcases read with _ | ⟨x,_ | ⟨y,_ | ⟨z,rest⟩⟩⟩
  · rw [← count]
    rfl
  · rw [← count]
    rfl
  · rw [← count]
    rfl
  · simp only [List.length_cons] at count
    omega

def known (p : Process) : Process := {p with pPid := 0,timeDeath := 0}

def WellFormed (config : Str → Option Config) : Prop :=
  ∀ path file, config path = some file → ∃ type time arg, file = .object type time arg

def OrderFree (config : Str → Option Config) (entries : List Str) : Prop :=
  (∀ first second junk junk', first.Perm entries → second.Perm entries →
    ∃ l l', scan ⟨some first,config,junk⟩ = .ok l ∧ scan ⟨some second,config,junk'⟩ = .ok l' ∧
      ∀ p, p ∈ l.map known ↔ p ∈ l'.map known) ∧
  ∀ order junk l, order.Perm entries → scan ⟨some order,config,junk⟩ = .ok l →
    ∀ name a b c, '-' ∉ name → '.' ∉ a → '.' ∉ b → '.' ∉ c → libraryName name a b c ∈ entries →
      visible (libraryName name a b c) = true →
      (∀ any, config (configPath (parsed any (libraryName name a b c))) ≠ none) →
      ∃ p ∈ l, p.pName = name ∧ p.num1 = atoi a ∧ p.num2 = atoi b ∧ p.num3 = atoi c

def Complete (config : Str → Option Config) (entries : List Str) : Prop :=
  ∀ str ∈ entries, visible str = true → 2 ≤ str.length ∧
    (∀ any, config (configPath (parsed any str)) ≠ none) ∧ (isLibrary str = true → (fields str).length = 3)

/- No visible entry that could be listed, or is too short to be looked at, has a
configuration file, whatever stands for the numbers its name lacks. -/
def Barren (config : Str → Option Config) (entries : List Str) : Prop :=
  ∀ str ∈ entries, visible str = true → str.length < 2 ∨ isLibrary str = true →
    ∀ any, config (configPath (parsed any str)) = none

theorem entryClosed {config junk} {str : Str} (shown : visible str = true) (regular : Regular str)
    (missing : config (configPath (parsed junk str)) = none) : scanEntry config junk str = .ok .closed := by
  rw [visibleEntry shown regular,missing]

theorem entryTiny {config junk type time arg} {str : Str} (shown : visible str = true) (regular : Regular str)
    (found : config (configPath (parsed junk str)) = some (.object type time arg)) (tiny : str.length < 2) :
    scanEntry config junk str = .error .outOfRange := by
  rw [visibleEntry shown regular,found]
  simp only [readConfig,bind,Except.bind,if_pos tiny]

theorem entryRead {config junk type time arg} {str : Str} (shown : visible str = true) (regular : Regular str)
    (found : config (configPath (parsed junk str)) = some (.object type time arg)) (long : 2 ≤ str.length) :
    scanEntry config junk str = .ok (if isLibrary str then
      .listed {parsed junk str with type := type,time := time,arg := arg,status := 1} else .passed) := by
  rw [visibleEntry shown regular,found]
  simp only [readConfig,bind,Except.bind,if_neg (Nat.not_lt.mpr long)]

theorem scanLoopPassed {folder : Folder} {i str rest listFiles}
    (passed : scanEntry folder.config (folder.junk i) str = .ok .passed) :
    scanLoop folder i (str::rest) listFiles = scanLoop folder (i+1) rest listFiles := by
  simp only [scanLoop,passed,bind,Except.bind]

theorem scanLoopClosed {folder : Folder} {i str rest listFiles}
    (closed : scanEntry folder.config (folder.junk i) str = .ok .closed) :
    scanLoop folder i (str::rest) listFiles = .ok listFiles := by
  simp only [scanLoop,closed,bind,Except.bind]

theorem scanLoopListed {folder : Folder} {i str rest listFiles p}
    (listed : scanEntry folder.config (folder.junk i) str = .ok (.listed p)) :
    scanLoop folder i (str::rest) listFiles = scanLoop folder (i+1) rest (listFiles ++ [p]) := by
  simp only [scanLoop,listed,bind,Except.bind]

theorem scanLoopFaults {folder : Folder} {i str rest listFiles fault}
    (error : scanEntry folder.config (folder.junk i) str = .error fault) :
    scanLoop folder i (str::rest) listFiles = .error fault := by
  simp only [scanLoop,error,bind,Except.bind]

theorem scanLoopKeeps {folder : Folder} {i entries listFiles l}
    (ran : scanLoop folder i entries listFiles = .ok l) : ∀ p ∈ listFiles, p ∈ l := by
  induction entries generalizing i listFiles with
  | nil =>
    cases Except.ok.inj ran
    exact fun p mem => mem
  | cons str rest ih =>
    cases entry : scanEntry folder.config (folder.junk i) str with
    | error fault =>
      rw [scanLoopFaults entry] at ran
      contradiction
    | ok visit =>
      cases visit with
      | passed =>
        rw [scanLoopPassed entry] at ran
        exact ih ran
      | closed =>
        rw [scanLoopClosed entry] at ran
        cases Except.ok.inj ran
        exact fun p mem => mem
      | listed q =>
        rw [scanLoopListed entry] at ran
        exact fun p mem => ih ran p (List.mem_append_left [q] mem)

def expected (config : Str → Option Config) (str : Str) : List Process :=
  if visible str ∧ isLibrary str then
    match config (configPath (parsed blank str)) with
    | some (.object type time arg) => [known {parsed blank str with type := type,time := time,arg := arg,status := 1}]
    | _ => []
  else []

theorem parsedFull {str : Str} (full : (fields str).length = 3) (junk : Process) (type time arg) :
    configPath (parsed junk str) = configPath (parsed blank str) ∧
    known {parsed junk str with type := type,time := time,arg := arg,status := 1} =
      known {parsed blank str with type := type,time := time,arg := arg,status := 1} := by
  simp only [configPath,versionText,parsed,known,numbersFull full,and_self]

theorem scanComplete {folder : Folder} (wellFormed : WellFormed folder.config) {entries : List Str}
    (regular : ∀ str ∈ entries, visible str = true → Regular str) (complete : Complete folder.config entries)
    (i : Nat) (listFiles : List Process) :
    ∃ l, scanLoop folder i entries listFiles = .ok l ∧
      l.map known = listFiles.map known ++ entries.flatMap (expected folder.config) := by
  induction entries generalizing i listFiles with
  | nil => exact ⟨listFiles,rfl,by simp⟩
  | cons str rest ih =>
    have later := ih (fun e mem => regular e (List.mem_cons_of_mem str mem))
      (fun e mem => complete e (List.mem_cons_of_mem str mem)) (i+1)
    cases shown : visible str with
    | false =>
      rw [scanLoopPassed (hiddenPassed shown _ _)]
      obtain ⟨l,ran,same⟩ := later listFiles
      exact ⟨l,ran,by simp [same,expected,shown]⟩
    | true =>
      obtain ⟨long,exists_,full⟩ := complete str List.mem_cons_self shown
      obtain ⟨file,found⟩ := Option.ne_none_iff_exists'.mp (exists_ (folder.junk i))
      obtain ⟨type,time,arg,rfl⟩ := wellFormed _ _ found
      have read := entryRead shown (regular str List.mem_cons_self shown) found long
      cases library : isLibrary str with
      | false =>
        rw [library] at read
        rw [scanLoopPassed read]
        obtain ⟨l,ran,same⟩ := later listFiles
        exact ⟨l,ran,by simp [same,expected,library]⟩
      | true =>
        rw [library] at read
        rw [scanLoopListed read]
        obtain ⟨l,ran,same⟩ := later (listFiles ++ [_])
        obtain ⟨path,record⟩ := parsedFull (full library) (folder.junk i) type time arg
        have here : expected folder.config str =
            [known {parsed blank str with type := type,time := time,arg := arg,status := 1}] := by
          rw [path] at found
          simp [expected,shown,library,found]
        refine ⟨l,ran,?_⟩
        rw [same,List.map_append,List.map_singleton,record,List.flatMap_cons,here,List.append_assoc]

theorem scanBarren {folder : Folder} (wellFormed : WellFormed folder.config) {entries : List Str}
    (regular : ∀ str ∈ entries, visible str = true → Regular str) (barren : Barren folder.config entries)
    (i : Nat) (listFiles : List Process) : scanLoop folder i entries listFiles = .ok listFiles := by
  induction entries generalizing i with
  | nil => rfl
  | cons str rest ih =>
    have later := ih (fun e mem => regular e (List.mem_cons_of_mem str mem))
      (fun e mem => barren e (List.mem_cons_of_mem str mem)) (i+1)
    cases shown : visible str with
    | false => rw [scanLoopPassed (hiddenPassed shown _ _),later]
    | true =>
      have regular_ := regular str List.mem_cons_self shown
      cases found : folder.config (configPath (parsed (folder.junk i) str)) with
      | none => exact scanLoopClosed (entryClosed shown regular_ found)
      | some file =>
        obtain ⟨type,time,arg,rfl⟩ := wellFormed _ _ found
        have idle : ¬ (str.length < 2 ∨ isLibrary str = true) := by
          intro reached
          have missing := barren str List.mem_cons_self shown reached (folder.junk i)
          rw [found] at missing
          contradiction
        obtain ⟨long,other⟩ := not_or.mp idle
        have read := entryRead shown regular_ found (Nat.not_lt.mp long)
        rw [if_neg other] at read
        rw [scanLoopPassed read,later]

section
variable {config : Str → Option Config} {entries : List Str}

theorem orderFreeComplete (wellFormed : WellFormed config)
    (regular : ∀ str ∈ entries, visible str = true → Regular str) (complete : Complete config entries) :
    OrderFree config entries := by
  have listed (order junk) (perm : order.Perm entries) :
      ∃ l, scan ⟨some order,config,junk⟩ = .ok l ∧ ∀ p, p ∈ l.map known ↔ ∃ str ∈ entries, p ∈ expected config str := by
    have regular_ : ∀ str ∈ order, visible str = true → Regular str :=
      fun str mem => regular str (perm.mem_iff.mp mem)
    have complete_ : Complete config order := fun str mem => complete str (perm.mem_iff.mp mem)
    obtain ⟨l,ran,same⟩ : ∃ l, scanLoop ⟨some order,config,junk⟩ 0 order [] = .ok l ∧
        l.map known = ([] : List Process).map known ++ order.flatMap (expected config) :=
      scanComplete wellFormed regular_ complete_ 0 []
    refine ⟨l,ran,fun p => ?_⟩
    rw [same,List.map_nil,List.nil_append,List.mem_flatMap]
    simp only [perm.mem_iff]
  refine ⟨fun first second junk junk' perm perm' => ?_,fun order junk l perm ran => ?_⟩
  · obtain ⟨l,ran,mem⟩ := listed first junk perm
    obtain ⟨l',ran',mem'⟩ := listed second junk' perm'
    exact ⟨l,l',ran,ran',fun p => (mem p).trans (mem' p).symm⟩
  · intro name a b c plain dotA dotB dotC inside shown exists_
    obtain ⟨actual,ran',mem⟩ := listed order junk perm
    cases Except.ok.inj (ran.symm.trans ran')
    have parts := libraryFields plain dotA dotB dotC
    obtain ⟨file,found⟩ := Option.ne_none_iff_exists'.mp (exists_ blank)
    obtain ⟨type,time,arg,rfl⟩ := wellFormed _ _ found
    have record : known {parsed blank (libraryName name a b c) with type := type,time := time,arg := arg,status := 1} ∈
        l.map known := by
      refine (mem _).mpr ⟨_,inside,?_⟩
      simp [expected,shown,libraryIs,found]
    obtain ⟨p,listed_,same⟩ := List.mem_map.mp record
    have numbers_ : numbers blank (libraryName name a b c) = [atoi a,atoi b,atoi c] := by
      rw [numbersFull (by rw [parts]; rfl),parts]
      rfl
    have name_ := congrArg Process.pName same
    have num1 := congrArg Process.num1 same
    have num2 := congrArg Process.num2 same
    have num3 := congrArg Process.num3 same
    simp only [known,parsed,libraryNameOf plain,numbers_] at name_ num1 num2 num3
    exact ⟨p,listed_,name_,num1,num2,num3⟩

theorem orderFreeBarren (wellFormed : WellFormed config)
    (regular : ∀ str ∈ entries, visible str = true → Regular str) (barren : Barren config entries) :
    OrderFree config entries := by
  have nothing (order junk) (perm : order.Perm entries) : scan ⟨some order,config,junk⟩ = .ok [] := by
    have regular_ : ∀ str ∈ order, visible str = true → Regular str :=
      fun str mem => regular str (perm.mem_iff.mp mem)
    have barren_ : Barren config order := fun str mem => barren str (perm.mem_iff.mp mem)
    have ran : scanLoop ⟨some order,config,junk⟩ 0 order [] = .ok [] :=
      scanBarren wellFormed regular_ barren_ 0 []
    exact ran
  refine ⟨fun first second junk junk' perm perm' => ?_,fun order junk l perm ran => ?_⟩
  · exact ⟨[],[],nothing first junk perm,nothing second junk' perm',fun p => Iff.rfl⟩
  · intro name a b c plain dotA dotB dotC inside shown exists_
    exact absurd (barren _ inside shown (Or.inr (libraryIs name a b c)) blank) (exists_ blank)

theorem headPerm {str : Str} (mem : str ∈ entries) : (str :: entries.erase str).Perm entries :=
  (List.perm_cons_erase mem).symm

theorem closedFirst {str : Str} {junk : Process} (closed : scanEntry config junk str = .ok .closed) :
    scan ⟨some (str :: entries.erase str),config,fun _ => junk⟩ = .ok [] :=
  scanLoopClosed closed

theorem faultFirst {str : Str} {junk : Process} {fault : Fault}
    (error : scanEntry config junk str = .error fault) :
    scan ⟨some (str :: entries.erase str),config,fun _ => junk⟩ = .error fault :=
  scanLoopFaults error

theorem listedFirst {str : Str} {junk p : Process} {l : List Process}
    (listed : scanEntry config junk str = .ok (.listed p))
    (ran : scan ⟨some (str :: entries.erase str),config,fun _ => junk⟩ = .ok l) : p ∈ l := by
  have step : scan ⟨some (str :: entries.erase str),config,fun _ => junk⟩ =
      scanLoop ⟨some (str :: entries.erase str),config,fun _ => junk⟩ 1 (entries.erase str) ([] ++ [p]) :=
    scanLoopListed listed
  rw [step] at ran
  exact scanLoopKeeps ran p (by simp)

theorem orderFreeReads (free : OrderFree config entries) {str : Str} (mem : str ∈ entries) (junk : Process)
    (fault : Fault) : scanEntry config junk str ≠ .error fault := by
  intro error
  obtain ⟨l,_,ok,_⟩ := free.1 _ _ (fun _ => junk) (fun _ => junk) (headPerm mem) (headPerm mem)
  rw [faultFirst error] at ok
  contradiction

theorem orderFreeMissing (wellFormed : WellFormed config)
    (regular : ∀ str ∈ entries, visible str = true → Regular str) (free : OrderFree config entries)
    {str : Str} (mem : str ∈ entries) (shown : visible str = true) {junk : Process}
    (missing : config (configPath (parsed junk str)) = none) : Barren config entries := by
  have closed := entryClosed shown (regular str mem shown) missing
  intro other inside shown' reached any
  by_contra exists_
  obtain ⟨file,found⟩ := Option.ne_none_iff_exists'.mp exists_
  obtain ⟨type,time,arg,rfl⟩ := wellFormed _ _ found
  have regular' := regular other inside shown'
  by_cases tiny : other.length < 2
  · exact orderFreeReads free inside any _ (entryTiny shown' regular' found tiny)
  · have read := entryRead shown' regular' found (Nat.not_lt.mp tiny)
    rw [if_pos (reached.resolve_left tiny)] at read
    obtain ⟨l,l',ok,ok',same⟩ := free.1 _ _ (fun _ => junk) (fun _ => any) (headPerm mem) (headPerm inside)
    rw [closedFirst closed] at ok
    cases Except.ok.inj ok
    have empty := (same _).mpr (List.mem_map_of_mem (listedFirst read ok'))
    simp at empty

theorem orderFreeFull (wellFormed : WellFormed config)
    (regular : ∀ str ∈ entries, visible str = true → Regular str) (free : OrderFree config entries)
    {str : Str} (mem : str ∈ entries) (shown : visible str = true) (long : 2 ≤ str.length)
    (exists_ : ∀ any, config (configPath (parsed any str)) ≠ none) (library : isLibrary str = true) :
    (fields str).length = 3 := by
  by_contra partial_
  have short : (fields str).length < 3 := Nat.lt_of_le_of_ne (regular str mem shown).1 partial_
  obtain ⟨l₀,_,ok₀,_⟩ := free.1 entries entries (fun _ => blank) (fun _ => blank) (List.Perm.refl _) (List.Perm.refl _)
  obtain ⟨n,fresh⟩ := Infinite.exists_notMem_finset (l₀.map Process.num3).toFinset
  obtain ⟨file,found⟩ := Option.ne_none_iff_exists'.mp (exists_ {blank with num3 := n})
  obtain ⟨type,time,arg,rfl⟩ := wellFormed _ _ found
  have read := entryRead shown (regular str mem shown) found long
  rw [if_pos library] at read
  obtain ⟨l,l',ok,ok',same⟩ :=
    free.1 entries _ (fun _ => blank) (fun _ => {blank with num3 := n}) (List.Perm.refl _) (headPerm mem)
  cases Except.ok.inj (ok₀.symm.trans ok)
  obtain ⟨q,inside,equal⟩ := List.mem_map.mp ((same _).mpr (List.mem_map_of_mem (listedFirst read ok')))
  have num3 : q.num3 = n := by
    have value := congrArg Process.num3 equal
    simp only [known,parsed,numbersShort short] at value
    exact value
  exact fresh (List.mem_toFinset.mpr (num3 ▸ List.mem_map_of_mem inside))

theorem orderFreeExactly (wellFormed : WellFormed config) :
    OrderFree config entries ↔
      (∀ str ∈ entries, visible str = true → Regular str) ∧ (Complete config entries ∨ Barren config entries) := by
  refine ⟨fun free => ?_,fun either => ?_⟩
  · have regular : ∀ str ∈ entries, visible str = true → Regular str := by
      intro str mem shown
      by_contra irregular
      exact orderFreeReads free mem blank _ (irregularEntry shown irregular config blank)
    refine ⟨regular,?_⟩
    by_cases missing : ∃ str ∈ entries, visible str = true ∧ ∃ any, config (configPath (parsed any str)) = none
    · obtain ⟨str,mem,shown,junk,none_⟩ := missing
      exact Or.inr (orderFreeMissing wellFormed regular free mem shown none_)
    · refine Or.inl (fun str mem shown => ?_)
      have exists_ : ∀ any, config (configPath (parsed any str)) ≠ none :=
        fun any none_ => missing ⟨str,mem,shown,any,none_⟩
      have long : 2 ≤ str.length := by
        by_contra tiny
        obtain ⟨file,found⟩ := Option.ne_none_iff_exists'.mp (exists_ blank)
        obtain ⟨type,time,arg,rfl⟩ := wellFormed _ _ found
        exact orderFreeReads free mem blank _ (entryTiny shown (regular str mem shown) found (Nat.not_le.mp tiny))
      exact ⟨long,exists_,fun library => orderFreeFull wellFormed regular free mem shown long exists_ library⟩
  · obtain ⟨regular,complete | barren⟩ := either
    · exact orderFreeComplete wellFormed regular complete
    · exact orderFreeBarren wellFormed regular barren

end

def soleLibrary : Str := libraryName ['a'] ['1'] ['0'] ['0']

def soleConfig (path : Str) : Option Config :=
  if path = configPath (parsed blank soleLibrary) then some (.object 0 0 []) else none

theorem soleWellFormed : WellFormed soleConfig := by
  intro path file found
  unfold soleConfig at found
  split at found <;> try contradiction
  exact ⟨0,0,[],(Option.some.inj found).symm⟩

theorem soleFields : fields soleLibrary = [['1'],['0'],['0']] :=
  libraryFields (by simp) (by simp) (by simp) (by simp)

theorem soleFound (any : Process) : soleConfig (configPath (parsed any soleLibrary)) = some (.object 0 0 []) :=
  if_pos (parsedFull (by rw [soleFields]; rfl) any 0 0 []).1

theorem soleRegular : Regular soleLibrary := by
  unfold Regular
  rw [soleFields]
  decide

def secondLibrary : Str := libraryName ['b'] ['2'] ['1'] ['0']

def pairConfig (path : Str) : Option Config :=
  if path = configPath (parsed blank secondLibrary) then some (.object 1 5 ['-','v']) else soleConfig path

theorem pairWellFormed : WellFormed pairConfig := by
  intro path file found
  unfold pairConfig at found
  split at found
  · exact ⟨1,5,['-','v'],(Option.some.inj found).symm⟩
  · exact soleWellFormed path file found

theorem secondFields : fields secondLibrary = [['2'],['1'],['0']] :=
  libraryFields (by simp) (by simp) (by simp) (by simp)

theorem pairFound (any : Process) : pairConfig (configPath (parsed any soleLibrary)) = some (.object 0 0 []) ∧
    pairConfig (configPath (parsed any secondLibrary)) = some (.object 1 5 ['-','v']) := by
  constructor
  · have other : configPath (parsed any soleLibrary) ≠ configPath (parsed blank secondLibrary) := by
      rw [(parsedFull (by rw [soleFields]; rfl) any 0 0 []).1]
      decide +kernel
    exact (if_neg other).trans (soleFound any)
  · exact if_pos (parsedFull (by rw [secondFields]; rfl) any 0 0 []).1

theorem orderFreePair : OrderFree pairConfig [['.'],soleLibrary,secondLibrary] := by
  have regular : ∀ str ∈ [['.'],soleLibrary,secondLibrary], visible str = true → Regular str := by
    simp only [List.forall_mem_cons]
    refine ⟨fun shown => by simp [visible] at shown,fun _ => soleRegular,fun _ => ?_,by simp⟩
    unfold Regular
    rw [secondFields]
    decide
  refine (orderFreeExactly pairWellFormed).mpr ⟨regular,Or.inl ?_⟩
  simp only [Complete,List.forall_mem_cons]
  refine ⟨fun shown => by simp [visible] at shown,fun _ => ?_,fun _ => ?_,by simp⟩
  · exact ⟨by simp [soleLibrary,libraryName],fun any => by simp [(pairFound any).1],fun _ => by rw [soleFields]; rfl⟩
  · exact ⟨by simp [secondLibrary,libraryName],fun any => by simp [(pairFound any).2],fun _ => by rw [secondFields]; rfl⟩

def strayName : Str := ['n','o','t','e','s']

theorem strayFileHidesLibrary :
    WellFormed soleConfig ∧ (∀ str ∈ [soleLibrary,strayName], visible str = true → Regular str) ∧
      ¬ OrderFree soleConfig [soleLibrary,strayName] := by
  have regular : ∀ str ∈ [soleLibrary,strayName], visible str = true → Regular str := by
    intro str mem shown
    rcases List.mem_pair.mp mem with rfl | rfl
    · exact soleRegular
    · decide
  refine ⟨soleWellFormed,regular,fun free => ?_⟩
  have missing : soleConfig (configPath (parsed blank strayName)) = none := by decide +kernel
  have barren := orderFreeMissing soleWellFormed regular free (List.mem_pair.mpr (Or.inr rfl)) (by decide) missing
  have none_ := barren soleLibrary (List.mem_pair.mpr (Or.inl rfl)) (by decide)
    (Or.inr (libraryIs ['a'] ['1'] ['0'] ['0'])) blank
  rw [soleFound] at none_
  contradiction

end PracticeSuite.Agent
