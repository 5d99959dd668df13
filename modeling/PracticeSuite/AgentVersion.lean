import PracticeSuite.AgentFolder

/-! Version numbers in file names, three times over: the name that update and create build
for a library is read back by scan; checkAgentMaster reads the master's own name with a copy
of the same loop that takes the last number from elsewhere; and neither loop looks whether
a name has room in its buffers. -/
namespace PracticeSuite.Agent
open CInt

theorem toTextNat (n : Nat) : toText n = Nat.toDigits 10 n := Nat.toList_repr

theorem digitsText (n : Nat) : digits (Nat.toDigits 10 n) = n := by
  unfold digits
  rw [List.takeWhile_eq_self_iff.mpr (Scanf.digitsAre n)]
  exact Nat.ofDigitChars_ten_toDigits

theorem atoiDigits {d : Char} (digit : d.isDigit = true) (rest : Str) :
    atoi (d::rest) = toInt (clampLong (digits (d::rest))) := by
  have kept : (d::rest).dropWhile isspace = d::rest :=
    List.dropWhile_cons_of_neg (by simp [blankSpace.digit d digit])
  unfold atoi
  rw [kept]
  dsimp only
  split
  · rename_i eq; cases eq; cases digit
  · rename_i eq; cases eq; cases digit
  · rfl

theorem atoiText {n : Nat} (small : n < 2^31) : atoi (Nat.toDigits 10 n) = n := by
  obtain ⟨d,ds,eq,digit⟩ := Scanf.digitsCons n
  have value : digits (d::ds) = n := eq ▸ digitsText n
  have clamped : clampLong n = n := by
    unfold clampLong
    omega
  rw [eq,atoiDigits digit,value,clamped]
  exact toIntEq ⟨by omega,by omega⟩

theorem digitsDotless (n : Nat) : '.' ∉ Nat.toDigits 10 n := by
  intro mem
  cases Scanf.digitsAre n _ mem

theorem digitsShort {n : Nat} (small : n < 2^31) : (Nat.toDigits 10 n).length < 20 := by
  have short := (Nat.length_toDigits_le_iff (b := 10) (n := n) (k := 10) (by decide) (by decide)).mpr (by omega)
  omega

theorem natText {n : Int} (range : 0 ≤ n ∧ n < 2^31) : ∃ m : Nat, m < 2^31 ∧ n = m ∧ toText n = Nat.toDigits 10 m := by
  obtain ⟨m,rfl⟩ := Int.eq_ofNat_of_zero_le range.1
  exact ⟨m,by omega,rfl,toTextNat m⟩

/- The file of a library: the path that create loads it from, and the one that update
removes, without the folder. -/
def libraryFile (p : Process) : Str := versionText p ++ ".so".toList

theorem libraryFileName (p : Process) :
    libraryFile p = libraryName p.pName (toText p.num1) (toText p.num2) (toText p.num3) := by
  simp [libraryFile,versionText,libraryName]

section
variable {p : Process} (plain : '-' ∉ p.pName) (first : 0 ≤ p.num1 ∧ p.num1 < 2^31)
  (second : 0 ≤ p.num2 ∧ p.num2 < 2^31) (third : 0 ≤ p.num3 ∧ p.num3 < 2^31)
include plain first second third

theorem fileFields : fields (libraryFile p) = [toText p.num1,toText p.num2,toText p.num3] := by
  obtain ⟨a,_,_,textA⟩ := natText first
  obtain ⟨b,_,_,textB⟩ := natText second
  obtain ⟨c,_,_,textC⟩ := natText third
  rw [libraryFileName,textA,textB,textC]
  exact libraryFields plain (digitsDotless a) (digitsDotless b) (digitsDotless c)

theorem fileRegular : Regular (libraryFile p) := by
  obtain ⟨a,smallA,_,textA⟩ := natText first
  obtain ⟨b,smallB,_,textB⟩ := natText second
  obtain ⟨c,smallC,_,textC⟩ := natText third
  unfold Regular
  rw [fileFields plain first second third,textA,textB,textC]
  refine ⟨Nat.le_refl 3,fun f mem => ?_⟩
  simp only [List.mem_cons,List.not_mem_nil,or_false] at mem
  rcases mem with rfl | rfl | rfl
  · exact digitsShort smallA
  · exact digitsShort smallB
  · exact digitsShort smallC

theorem fileNumbers (junk : Process) : numbers junk (libraryFile p) = [p.num1,p.num2,p.num3] := by
  have parts := fileFields plain first second third
  obtain ⟨a,smallA,eqA,textA⟩ := natText first
  obtain ⟨b,smallB,eqB,textB⟩ := natText second
  obtain ⟨c,smallC,eqC,textC⟩ := natText third
  rw [numbersFull (by rw [parts]; rfl),parts,textA,textB,textC,eqA,eqB,eqC]
  simp only [List.map_cons,List.map_nil,atoiText smallA,atoiText smallB,atoiText smallC]

end

theorem fileVisible {p : Process} (present : p.pName ≠ []) (shown : p.pName.head? ≠ some '.') :
    visible (libraryFile p) = true := by
  obtain ⟨c,rest,eq⟩ := List.exists_cons_of_ne_nil present
  rw [eq,List.head?_cons,ne_eq,Option.some.injEq] at shown
  unfold visible
  rw [libraryFileName,eq]
  simp [libraryName,List.findIdx?_cons,shown]

theorem fileNameInverts (p : Process) (present : p.pName ≠ []) (shown : p.pName.head? ≠ some '.')
    (plain : '-' ∉ p.pName) (first : 0 ≤ p.num1 ∧ p.num1 < 2^31) (second : 0 ≤ p.num2 ∧ p.num2 < 2^31)
    (third : 0 ≤ p.num3 ∧ p.num3 < 2^31) (junk : Process) :
    nameOf (libraryFile p) = p.pName ∧
    (∃ s, versionLoop (libraryFile p) junk = .ok s ∧ s.v = [p.num1,p.num2,p.num3]) ∧
    ∀ config file, config (configPath p) = some file → file ≠ .malformed →
      ∃ q, scanEntry config junk (libraryFile p) = .ok (.listed q) ∧
        q.pName = p.pName ∧ q.num1 = p.num1 ∧ q.num2 = p.num2 ∧ q.num3 = p.num3 := by
  have name : nameOf (libraryFile p) = p.pName := by
    rw [libraryFileName]
    exact libraryNameOf plain _ _ _
  have regular := fileRegular plain first second third
  have read := fileNumbers plain first second third junk
  obtain ⟨s,ran,value⟩ := versionLoopNumbers regular junk
  refine ⟨name,⟨s,ran,value.trans read⟩,fun config file found sane => ?_⟩
  have record : parsed junk (libraryFile p) =
      {junk with pName := p.pName,num1 := p.num1,num2 := p.num2,num3 := p.num3,arg := []} := by
    unfold parsed
    rw [name,read]
    rfl
  have path : configPath (parsed junk (libraryFile p)) = configPath p := by
    rw [record]
    rfl
  have long : ¬ (libraryFile p).length < 2 := by
    unfold libraryFile
    simp
  have library : isLibrary (libraryFile p) = true := by
    rw [libraryFileName]
    exact libraryIs _ _ _ _
  rw [visibleEntry (fileVisible present shown) regular,path,found,record]
  cases file with
  | blank =>
    simp only [readConfig,bind,Except.bind,if_neg long,if_pos library]
    exact ⟨_,rfl,rfl,rfl,rfl,rfl⟩
  | malformed => exact absurd rfl sane
  | object type time arg =>
    simp only [readConfig,bind,Except.bind,if_neg long,if_pos library]
    exact ⟨_,rfl,rfl,rfl,rfl,rfl⟩

def dottedLibrary : Process := {blank with pName := ['m','y','.','l'],num1 := 0,num2 := 12,num3 := 2147483647}

theorem dottedLibraryInverts : nameOf (libraryFile dottedLibrary) = ['m','y','.','l'] ∧
    (∃ s, versionLoop (libraryFile dottedLibrary) blank = .ok s ∧ s.v = [0,12,2147483647]) ∧
    ∃ q, scanEntry (fun _ => some (.object 1 5 [])) blank (libraryFile dottedLibrary) = .ok (.listed q) ∧
      q.pName = ['m','y','.','l'] ∧ q.num1 = 0 ∧ q.num2 = 12 ∧ q.num3 = 2147483647 := by
  obtain ⟨name,numbers_,listed⟩ :=
    fileNameInverts dottedLibrary (by decide) (by decide) (by decide) (by decide) (by decide) (by decide) blank
  exact ⟨name,numbers_,listed (fun _ => some (.object 1 5 [])) (.object 1 5 []) rfl (by decide)⟩

/- Every entry that does not begin with a dot goes through the loop. The scan stays inside
`v` and `ver` exactly for the names with at most three dots behind the first dash, or in all
when there is none, and at most nineteen characters before each of them. -/
theorem entryInBounds (str : Str) :
    (∀ config junk, scanEntry config junk str ≠ .error .overrun) ↔
      (visible str = true → (fields str).length ≤ 3 ∧ ∀ f ∈ fields str, f.length < 20) := by
  constructor
  · intro inside shown
    by_contra irregular
    exact inside (fun _ => none) blank (irregularEntry shown irregular _ _)
  · intro regular config junk
    cases shown : visible str with
    | false =>
      rw [hiddenPassed shown]
      exact fun same => by cases same
    | true =>
      rw [visibleEntry shown (regular shown)]
      split
      · exact fun same => by cases same
      · rename_i file _
        cases file with
        | malformed => exact fun same => by cases same
        | blank =>
          simp only [readConfig,bind,Except.bind]
          split <;> exact fun same => by cases same
        | object type time arg =>
          simp only [readConfig,bind,Except.bind]
          split <;> exact fun same => by cases same

def fourNumbers : Str := ['a','-','1','.','2','.','3','.','4','.','s','o']
def longNumber : Str := ['a','-'] ++ List.replicate 20 '1' ++ ['.','s','o']

theorem namesLeaveBuffers : fourNumbers.length ≤ 255 ∧ longNumber.length ≤ 255 ∧
    scanEntry (fun _ => none) blank fourNumbers = .error .overrun ∧
    scanEntry (fun _ => none) blank longNumber = .error .overrun := by
  refine ⟨by decide,by decide,?_,?_⟩
  · exact irregularEntry (by decide) (by decide) _ _
  · exact irregularEntry (by decide) (by decide) _ _

def masterStep (str : Str) (s : Version) (i : Nat) : Except Fault Version :=
  let count := s.count + 1
  if str[i]? = some '.' ∨ str[i]? = some '\x00' then do
    let ver ← copyVer str (count - 1) (s.old + 1)
    if s.k < 3 then .ok ⟨s.v.set s.k (atoi ver),s.k + 1,0,i⟩ else .error .overrun
  else .ok {s with count := count}

def masterLoop (str : Str) (junk : Process) : Except Fault Version :=
  let start := (dash str + 1).toNat
  (List.range' start (str.length - start)).foldlM (masterStep str)
    ⟨[junk.num1,junk.num2,junk.num3],0,0,dash str⟩

def agentmaster : Str := ['a','g','e','n','t','m','a','s','t','e','r']

def masterEntry (junk : Process) (str : Str) : Except Fault (Option Process) :=
  if str.findIdx? (· = '.') = some 0 then .ok none
  else if nameOf str = agentmaster then do
    let s ← masterLoop str junk
    let ver ← copyVer str 1 ((str.length : Int) - 1)
    .ok (some {junk with
      pName := nameOf str,num1 := s.v.getD 0 0,num2 := s.v.getD 1 0,num3 := atoi ver,arg := []})
  else .ok none

def checkMasterLoop (junk : Nat → Process) : Nat → List Str → Except Fault (Option Process)
  | _,[] => .ok none
  | i,str::rest => do
    match ← masterEntry (junk i) str with
    | none => checkMasterLoop junk (i+1) rest
    | some p => .ok (some p)

/- `junk` is what the locals of each round hold, `p1` the record that is returned when no
entry is found; their strings are empty. -/
def checkAgentMaster (entries : Option (List Str)) (junk : Nat → Process) (p1 : Process) : Except Fault Process := do
  let found ← checkMasterLoop junk 0 (entries.getD [])
  .ok (found.getD {p1 with pName := [],arg := []})

theorem masterLoopEq {str : Str} (text : '\x00' ∉ str) (junk : Process) : masterLoop str junk = versionLoop str junk := by
  have same : masterStep str = versionStep str := by
    funext s i
    have never : ¬ str[i]? = some '\x00' := fun here => text (List.mem_of_getElem? here)
    simp only [masterStep,versionStep,never,or_false]
  unfold masterLoop versionLoop
  rw [same]

theorem lastDigit (n : Nat) : ∃ front, Nat.toDigits 10 n = front ++ [Nat.digitChar (n%10)] := by
  by_cases single : n < 10
  · exact ⟨[],by rw [Nat.toDigits_of_lt_base single,Nat.mod_eq_of_lt single]; rfl⟩
  · exact ⟨Nat.toDigits 10 (n/10),Nat.toDigits_of_base_le (by decide) (Nat.not_lt.mp single)⟩

theorem lastCopied (front : Str) (c : Char) :
    copyVer (front ++ [c]) 1 (((front ++ [c]).length : Int) - 1) = .ok [c] := by
  have at_ : (((front ++ [c]).length : Int) - 1).toNat = front.length := by
    rw [List.length_append,List.length_singleton]
    omega
  have inside : ¬ (((front ++ [c]).length : Int) - 1 < 0 ∨
      ((front ++ [c]).length : Int) < ((front ++ [c]).length : Int) - 1) := by
    rw [List.length_append,List.length_singleton]
    omega
  simp only [copyVer,if_neg inside,at_,List.drop_left]
  rfl

def masterName (a b c : Nat) : Str :=
  agentmaster ++ '-' :: (Nat.toDigits 10 a ++ '.' :: (Nat.toDigits 10 b ++ '.' :: Nat.toDigits 10 c))

theorem masterText {p : Process} (named : p.pName = agentmaster) {a b c : Nat} (first : p.num1 = a)
    (second : p.num2 = b) (third : p.num3 = c) : versionText p = masterName a b c := by
  simp [versionText,masterName,named,first,second,third,toTextNat]

theorem masterPlain : '-' ∉ agentmaster := by decide

theorem masterNameOf (a b c : Nat) : nameOf (masterName a b c) = agentmaster := by
  simp only [nameOf,masterName,libraryDash masterPlain,List.take_left]

theorem piecesDotless {a : Str} (dotless : '.' ∉ a) (piece : Str) : pieces piece a = [] := by
  induction a generalizing piece with
  | nil => rfl
  | cons c a ih =>
    have other : c ≠ '.' := fun same => dotless (same ▸ List.mem_cons_self)
    simp only [pieces,if_neg other,ih (fun mem => dotless (List.mem_cons_of_mem c mem))]

theorem masterFields (a b c : Nat) : fields (masterName a b c) = [Nat.toDigits 10 a,Nat.toDigits 10 b] := by
  have cut (rest : Str) : (agentmaster ++ '-' :: rest).drop (agentmaster.length + 1) = rest := by
    rw [← List.drop_drop,List.drop_left]
    rfl
  have at_ : ((agentmaster.length : Int) + 1).toNat = agentmaster.length + 1 := by omega
  simp only [fields,dash,masterName,libraryDash masterPlain,at_,cut,piecesDot (digitsDotless a),
    piecesDot (digitsDotless b),piecesDotless (digitsDotless c),List.nil_append]

theorem masterRegular {a b : Nat} (smallA : a < 2^31) (smallB : b < 2^31) (c : Nat) : Regular (masterName a b c) := by
  unfold Regular
  rw [masterFields]
  refine ⟨by simp,fun f mem => ?_⟩
  simp only [List.mem_cons,List.not_mem_nil,or_false] at mem
  rcases mem with rfl | rfl
  · exact digitsShort smallA
  · exact digitsShort smallB

theorem masterTextual (a b c : Nat) : '\x00' ∉ masterName a b c := by
  have digit (n : Nat) : '\x00' ∉ Nat.toDigits 10 n := fun mem => by cases Scanf.digitsAre n _ mem
  simp [masterName,digit,agentmaster]

theorem masterRead {a b : Nat} (smallA : a < 2^31) (smallB : b < 2^31) (c : Nat) (junk : Process) :
    masterEntry junk (masterName a b c) = .ok (some {junk with
      pName := agentmaster,num1 := a,num2 := b,num3 := (c%10 : Nat),arg := []}) := by
  have shown : ¬ (masterName a b c).findIdx? (· = '.') = some 0 := by
    simp [masterName,agentmaster,List.findIdx?_cons]
  obtain ⟨s,ran,value⟩ := versionLoopNumbers (masterRegular smallA smallB c) junk
  have read : s.v = [(a : Int),b,junk.num3] := by
    rw [value]
    simp only [numbers,masterFields,List.map_cons,List.map_nil,atoiText smallA,atoiText smallB]
    rfl
  obtain ⟨front,text⟩ := lastDigit c
  have split : masterName a b c =
      (agentmaster ++ '-' :: (Nat.toDigits 10 a ++ '.' :: (Nat.toDigits 10 b ++ '.' :: front))) ++
        [Nat.digitChar (c%10)] := by
    simp [masterName,text]
  have last : copyVer (masterName a b c) 1 (((masterName a b c).length : Int) - 1) = .ok [Nat.digitChar (c%10)] := by
    rw [split]
    exact lastCopied _ _
  have number : atoi [Nat.digitChar (c%10)] = (c%10 : Nat) := by
    have small : c%10 < 10 := Nat.mod_lt _ (by decide)
    rw [← Nat.toDigits_of_lt_base small]
    exact atoiText (by omega)
  simp only [masterEntry,if_neg shown,masterNameOf,if_true,masterLoopEq (masterTextual a b c),ran,last,number,read,
    bind,Except.bind]
  rfl

theorem masterSkipped {str : Str} (other : ¬ agentmaster <+: str) (junk : Process) : masterEntry junk str = .ok none := by
  have named : nameOf str ≠ agentmaster := by
    intro same
    apply other
    rw [← same]
    unfold nameOf
    split
    · exact List.take_prefix _ _
    · exact List.prefix_rfl
  simp only [masterEntry,if_neg named,ite_self]

theorem masterFound {before : List Str} (others : ∀ str ∈ before, ¬ agentmaster <+: str) {str : Str} (after : List Str)
    {junk : Nat → Process} {p : Process} (read : ∀ i, masterEntry (junk i) str = .ok (some {junk i with
      pName := p.pName,num1 := p.num1,num2 := p.num2,num3 := p.num3,arg := []})) (i : Nat) :
    ∃ k, checkMasterLoop junk i (before ++ str :: after) = .ok (some {junk k with
      pName := p.pName,num1 := p.num1,num2 := p.num2,num3 := p.num3,arg := []}) := by
  induction before generalizing i with
  | nil =>
    refine ⟨i,?_⟩
    simp only [List.nil_append,checkMasterLoop,read i,bind,Except.bind]
  | cons first rest ih =>
    obtain ⟨k,found⟩ := ih (fun e mem => others e (List.mem_cons_of_mem first mem)) (i+1)
    refine ⟨k,?_⟩
    simp only [List.cons_append,checkMasterLoop,masterSkipped (others first List.mem_cons_self),bind,Except.bind,found]

theorem masterVersionExactly (p : Process) (named : p.pName = agentmaster) (first : 0 ≤ p.num1 ∧ p.num1 < 2^31)
    (second : 0 ≤ p.num2 ∧ p.num2 < 2^31) (third : 0 ≤ p.num3 ∧ p.num3 < 2^31) (before after : List Str)
    (others : ∀ str ∈ before ++ after, ¬ agentmaster <+: str) (junk : Nat → Process) (p1 : Process) :
    (∃ q, checkAgentMaster (some (before ++ versionText p :: after)) junk p1 = .ok q ∧
      q.pName = agentmaster ∧ q.num1 = p.num1 ∧ q.num2 = p.num2 ∧ q.num3 = p.num3) ↔ p.num3 < 10 := by
  obtain ⟨a,smallA,eqA,_⟩ := natText first
  obtain ⟨b,smallB,eqB,_⟩ := natText second
  obtain ⟨c,_,eqC,_⟩ := natText third
  obtain ⟨k,found⟩ := masterFound (fun str mem => others str (List.mem_append_left _ mem)) after
    (p := {p with pName := agentmaster,num1 := a,num2 := b,num3 := (c%10 : Nat)})
    (fun i => masterRead smallA smallB c (junk i)) 0
  rw [masterText named eqA eqB eqC]
  simp only [checkAgentMaster,Option.getD_some,found,bind,Except.bind,Except.ok.injEq,exists_eq_left',eqA,eqB,eqC,true_and]
  omega

def master (num3 : Int) : Process := {blank with pName := agentmaster,num1 := 1,num2 := 0,num3 := num3}

theorem masterVersionOneDigit : ∃ q, checkAgentMaster (some [['.'],versionText (master 9)]) (fun _ => blank) blank = .ok q ∧
    q.pName = agentmaster ∧ q.num1 = 1 ∧ q.num2 = 0 ∧ q.num3 = 9 :=
  (masterVersionExactly (master 9) rfl (by decide) (by decide) (by decide) [['.']] [] (by decide) (fun _ => blank) blank).mpr
    (by decide)

theorem tenthReleaseMisread :
    checkAgentMaster (some [versionText (master 10)]) (fun _ => blank) blank = .ok (master 0) := by
  have read := masterRead (a := 1) (b := 0) (by decide) (by decide) 10 blank
  rw [masterText (p := master 10) rfl rfl rfl rfl]
  simp only [checkAgentMaster,Option.getD_some,checkMasterLoop,read,bind,Except.bind]
  rfl

end PracticeSuite.Agent
