import PracticeSuite.Trace
import PracticeSuite.AgentMaster
import PracticeSuite.AgentVersion

/-! One replacement of update as two processes on one directory: the forked child
asks for the new version and removes the old file, the parent stores the new file,
drops the old entry from both tables and lets checkNew scan. Only sleeps stand
between the two, so their steps come in any order. -/
namespace PracticeSuite.Agent

inductive Child where
  | asking
  | removing
  | exited
  deriving DecidableEq, Repr

/- `opened` is the directory at opendir, `seen` what readdir has returned so far with
the stray values each round of the scan starts from, `going` whether the scan has
met no reason to stop. `appended` is the entry that checkNew pushed. -/
inductive Parent where
  | receiving
  | killing
  | erasing
  | opening
  | reading (opened : List Str) (seen : List (Str × Process)) (going : Bool)
  | finished (appended : Option Process)
  | crashed
  deriving DecidableEq, Repr

structure Race where
  files : List Str
  child : Child
  parent : Parent
  tables : Tables
  deriving DecidableEq, Repr

/- What a replacement is about: the entry `p` at index `i`, the name the server gave,
and the names given earlier in the same pass, which stay in `empfile`. -/
structure Replacement where
  config : Str → Option Config
  i : Nat
  p : Process
  newFile : Str
  earlier : Str

inductive Move where
  | getNewVersion (g : Bool)
  | remove
  | receive (ok : Bool)
  | kill
  | erase
  | opendir (ok : Bool)
  | readdir (str : Str) (junk : Process)
  | checkNew (junk : Nat → Process) (start : Start)

def goesOn : Except Fault Visit → Bool
  | .ok .passed => true
  | .ok (.listed _) => true
  | _ => false

def lookAt (config : Str → Option Config) (seen : List (Str × Process)) (junk : Nat → Process) (start : Start) : Look :=
  ⟨⟨some (seen.map Prod.fst),config,fun n => (seen.map Prod.snd).getD n blank⟩,junk,start⟩

def pushed (look : Look) (t : Tables) : Except Fault (Option Process) := do
  let (libNew,_) ← check look t
  .ok (libNew.head?.map (started look.start))

/- A file removed after opendir may or may not be returned; one that is still there
is. The scan reads nothing after an entry that stops it. -/
def raceStep (r : Replacement) (s : Race) : Move → Option Race
  | .getNewVersion g =>
    if s.child = .asking then some {s with child := if g then .removing else .exited} else none
  | .remove =>
    if s.child = .removing then some {s with files := s.files.filter (· ≠ libraryFile r.p), child := .exited} else none
  | .receive ok =>
    if s.parent = .receiving then
      if ok then some {s with files := s.files.insert (r.earlier ++ r.newFile), parent := .killing}
      else some {s with parent := .crashed}
    else none
  | .kill => if s.parent = .killing then some {s with parent := .erasing} else none
  | .erase =>
    if s.parent = .erasing then
      if r.i < s.tables.listLibs.length then
        some {s with
          tables := ⟨s.tables.listLibs.eraseIdx r.i,s.tables.listProcess.eraseIdx r.i⟩
          parent := .opening}
      else some {s with parent := .crashed}
    else none
  | .opendir ok =>
    if s.parent = .opening then
      some {s with parent := if ok then .reading s.files [] true else .finished none}
    else none
  | .readdir str junk =>
    match s.parent with
    | .reading opened seen true =>
      if str ∈ opened ∧ str ∉ seen.map Prod.fst then
        some {s with parent := .reading opened (seen ++ [(str,junk)]) (goesOn (scanEntry r.config junk str))}
      else none
    | _ => none
  | .checkNew junk start =>
    match s.parent with
    | .reading opened seen going =>
      if going = true ∧ ¬ (∀ str ∈ opened, str ∈ s.files → str ∈ seen.map Prod.fst) then none
      else
        let look := lookAt r.config seen junk start
        match checkNew look s.tables,pushed look s.tables with
        | .ok tables,.ok appended => some {s with tables := tables, parent := .finished appended}
        | _,_ => some {s with parent := .crashed}
    | _ => none

def raceStart (files : List Str) (tables : Tables) : Race := ⟨files,.asking,.receiving,tables⟩

structure Carries (a b c : Str) (q : Process) : Prop where
  num1 : q.num1 = atoi a
  num2 : q.num2 = atoi b
  num3 : q.num3 = atoi c

theorem readConfigKeeps {p q : Process} {file : Config} (read : readConfig p file = .ok q) :
    q.pName = p.pName ∧ q.num1 = p.num1 ∧ q.num2 = p.num2 ∧ q.num3 = p.num3 := by
  cases file with
  | blank =>
    cases Except.ok.inj read
    exact ⟨rfl,rfl,rfl,rfl⟩
  | malformed => contradiction
  | object type time arg =>
    cases Except.ok.inj read
    exact ⟨rfl,rfl,rfl,rfl⟩

theorem listedParsed {config junk} {str : Str} {q : Process} (listed : scanEntry config junk str = .ok (.listed q)) :
    visible str = true ∧ q.pName = nameOf str ∧ q.num1 = (parsed junk str).num1 ∧
      q.num2 = (parsed junk str).num2 ∧ q.num3 = (parsed junk str).num3 := by
  cases shown : visible str with
  | false =>
    rw [hiddenPassed shown] at listed
    cases Except.ok.inj listed
  | true =>
    by_cases regular : Regular str
    · rw [visibleEntry shown regular] at listed
      cases found : config (configPath (parsed junk str)) with
      | none => simp [found] at listed
      | some file =>
        simp only [found] at listed
        obtain ⟨p,read,rest⟩ := bindOk.mp listed
        split at rest <;> try contradiction
        split at rest
        · cases Visit.listed.inj (Except.ok.inj rest)
          exact ⟨rfl,readConfigKeeps read⟩
        · cases Except.ok.inj rest
    · rw [irregularEntry shown regular] at listed
      contradiction

section
variable {name a b c : Str}

theorem listedCarries (plain : '-' ∉ name) (first : '.' ∉ a) (second : '.' ∉ b) (third : '.' ∉ c)
    {config junk} {q : Process} (listed : scanEntry config junk (libraryName name a b c) = .ok (.listed q)) :
    Carries a b c q := by
  have parts := libraryFields plain first second third
  have numbers_ : numbers junk (libraryName name a b c) = [atoi a,atoi b,atoi c] := by
    rw [numbersFull (by rw [parts]; rfl),parts]
    rfl
  obtain ⟨_,_,num1,num2,num3⟩ := listedParsed listed
  simp only [parsed,numbers_] at num1 num2 num3
  exact ⟨num1,num2,num3⟩

def Unlisted (name : Str) (listLibs : List Process) : Prop := ∀ l ∈ listLibs, l.pName ≠ name
instance (name listLibs) : Decidable (Unlisted name listLibs) := by unfold Unlisted; infer_instance

/- What readdir may return after `before` so that checkNew starts the new file: nothing that crashes the scan, and
until the new file nothing that ends the scan and no library that is not in listLibs. -/
def Undisturbed (r : Replacement) (listLibs : List Process) (before : List Str) (str : Str) : Except Fault Visit → Prop
  | .error _ => False
  | .ok .passed => str ≠ r.newFile
  | .ok .closed => r.newFile ∈ before
  | .ok (.listed q) => str = r.newFile ∨ r.newFile ∈ before ∨ isNew listLibs q = false

instance (r listLibs before str) : DecidablePred (Undisturbed r listLibs before str)
  | .error _ => inferInstanceAs (Decidable False)
  | .ok .passed => inferInstanceAs (Decidable (_ ≠ _))
  | .ok .closed => inferInstanceAs (Decidable (_ ∈ _))
  | .ok (.listed _) => inferInstanceAs (Decidable (_ ∨ _ ∈ _ ∨ _ = false))

def Found (name a b c : Str) (r : Replacement) (listLibs : List Process) (before : List Str) (l : List Process) : Prop :=
  if r.newFile ∈ before then ∃ q, l.find? (isNew listLibs) = some q ∧ q.pName = name ∧ Carries a b c q
  else l.find? (isNew listLibs) = none

theorem unlistedNew {listLibs : List Process} (unlisted : Unlisted name listLibs) {q : Process} (named : q.pName = name) :
    isNew listLibs q = true := by
  refine List.all_eq_true.mpr (fun l mem => decide_eq_true (fun same => unlisted l mem ?_))
  exact same.symm.trans named

variable (plain : '-' ∉ name) (first : '.' ∉ a) (second : '.' ∉ b) (third : '.' ∉ c)

include plain first second third in
theorem foundListed {r : Replacement} (file : r.newFile = libraryName name a b c) {listLibs : List Process}
    (unlisted : Unlisted name listLibs) {before : List Str} {l : List Process} {str : Str} {config junk q}
    (found : Found name a b c r listLibs before l) (listed : scanEntry config junk str = .ok (.listed q))
    (undisturbed : str = r.newFile ∨ r.newFile ∈ before ∨ isNew listLibs q = false) :
    Found name a b c r listLibs (before ++ [str]) (l ++ [q]) := by
  have grown : (l ++ [q]).find? (isNew listLibs) = (l.find? (isNew listLibs)).or ([q].find? (isNew listLibs)) := List.find?_append
  unfold Found at found ⊢
  by_cases earlier : r.newFile ∈ before
  · obtain ⟨q',head,rest⟩ := (if_pos earlier).mp found
    rw [if_pos (List.mem_append_left _ earlier)]
    rw [head,Option.some_or] at grown
    exact ⟨q',grown,rest⟩
  · rw [if_neg earlier] at found
    rw [found,Option.none_or] at grown
    by_cases here : str = r.newFile
    · rw [here,file] at listed
      have named : q.pName = name := (listedParsed listed).2.1.trans (libraryNameOf plain a b c)
      rw [if_pos (by simp [here])]
      refine ⟨q,?_,named,listedCarries plain first second third listed⟩
      rw [grown,List.find?_cons_of_pos (unlistedNew unlisted named)]
    · have known_ : isNew listLibs q = false := (undisturbed.resolve_left here).resolve_left earlier
      rw [if_neg (by simp [earlier,Ne.symm here]),grown]
      exact List.find?_cons_of_neg (by simp [known_])

include plain first second third in
theorem scanFound {r : Replacement} (file : r.newFile = libraryName name a b c) {listLibs : List Process}
    (unlisted : Unlisted name listLibs) {folder : Folder} (config : folder.config = r.config) {i : Nat}
    {order : List (Str × Process)} (junk : ∀ k e, order[k]? = some e → folder.junk (i + k) = e.2)
    {before : List Str} {l : List Process} (found : Found name a b c r listLibs before l)
    (undisturbed : ∀ front e back, order = front ++ e::back →
      Undisturbed r listLibs (before ++ front.map Prod.fst) e.1 (scanEntry r.config e.2 e.1))
    (read : r.newFile ∈ before ++ order.map Prod.fst) :
    ∃ l', scanLoop folder i (order.map Prod.fst) l = .ok l' ∧
      ∃ q, l'.find? (isNew listLibs) = some q ∧ q.pName = name ∧ Carries a b c q := by
  induction order generalizing i before l with
  | nil =>
    rw [List.map_nil,List.append_nil] at read
    exact ⟨l,rfl,(if_pos read).mp found⟩
  | cons e rest ih =>
    have here := undisturbed [] e rest rfl
    rw [List.map_nil,List.append_nil] at here
    have same : folder.junk i = e.2 := junk 0 e rfl
    have laterJunk : ∀ k e', rest[k]? = some e' → folder.junk (i + 1 + k) = e'.2 := fun k e' at_ => by
      rw [Nat.add_assoc,Nat.add_comm 1]
      exact junk (k+1) e' at_
    have later : ∀ front e' back, rest = front ++ e'::back →
        Undisturbed r listLibs ((before ++ [e.1]) ++ front.map Prod.fst) e'.1 (scanEntry r.config e'.2 e'.1) := by
      rintro front e' back rfl
      have there := undisturbed (e::front) e' back rfl
      rwa [List.map_cons,List.append_cons] at there
    have readLater : r.newFile ∈ (before ++ [e.1]) ++ rest.map Prod.fst := by
      rw [List.append_assoc]
      exact read
    rw [List.map_cons]
    cases entry : scanEntry r.config e.2 e.1 with
    | error fault =>
      rw [entry] at here
      cases here
    | ok visit =>
      rw [entry] at here
      have met : scanEntry folder.config (folder.junk i) e.1 = .ok visit := by rw [config,same,entry]
      cases visit with
      | passed =>
        rw [scanLoopPassed met]
        refine ih laterJunk ?_ later readLater
        have other : r.newFile ≠ e.1 := fun eq => here eq.symm
        simpa only [Found,List.mem_append,List.mem_singleton,other,or_false] using found
      | closed =>
        rw [scanLoopClosed met]
        exact ⟨l,rfl,(if_pos here).mp found⟩
      | listed q =>
        rw [scanLoopListed met]
        exact ih laterJunk (foundListed plain first second third file unlisted found met here) later readLater

theorem checkNewStarts {look : Look} {t : Tables} {libNew : List Process} {q : Process} (scanned : scan look.folder = .ok libNew)
    (found : libNew.find? (isNew t.listLibs) = some q) (enough : look.start.failures ≤ t.listProcess.length) :
    ∃ t' lib, checkNew look t = .ok t' ∧ pushed look t = .ok (some (started look.start lib)) ∧
      t'.listProcess.getLast? = some (started look.start lib) ∧
      lib.pName = q.pName ∧ lib.num1 = q.num1 ∧ lib.num2 = q.num2 ∧ lib.num3 = q.num3 := by
  obtain ⟨j,more,both⟩ := checkLoopHead look.junk 0 (List.head?_filter.trans found)
  have checked : check look t = .ok (newRecord (look.junk j) q :: more,⟨t.listLibs ++ newRecord (look.junk j) q :: more,t.listProcess⟩) := by
    simp only [check,scanned,bind,Except.bind,both]
  refine ⟨⟨t.listLibs ++ newRecord (look.junk j) q :: more,
    t.listProcess.take (t.listProcess.length - look.start.failures) ++ [started look.start (newRecord (look.junk j) q)]⟩,
    newRecord (look.junk j) q,?_,?_,?_,rfl,rfl,rfl,rfl⟩
  · simp only [checkNew,checked,bind,Except.bind,pushStarted,popBackDone enough]
  · simp only [pushed,checked,bind,Except.bind]
    rfl
  · exact List.getLast?_concat

def Parent.returned : Parent → List Str
  | .reading _ seen _ => seen.map Prod.fst
  | _ => []

/- The step is one of an installation: the download is stored under its own name, the erased records leave none of the library,
the child removes another file, and the scan is undisturbed. -/
def InTurn (r : Replacement) (s : Race) : Move → Prop
  | .getNewVersion _ => True
  | .remove => r.newFile ≠ libraryFile r.p
  | .receive ok => ok = true ∧ r.earlier = []
  | .kill => True
  | .erase => r.i < s.tables.listLibs.length ∧ Unlisted r.p.pName (s.tables.listLibs.eraseIdx r.i)
  | .opendir ok => ok = true
  | .readdir str junk => Undisturbed r s.tables.listLibs s.parent.returned str (scanEntry r.config junk str)
  | .checkNew _ start => start.failures ≤ s.tables.listProcess.length

instance (r s) : DecidablePred (InTurn r s)
  | .getNewVersion _ => inferInstanceAs (Decidable True)
  | .remove => inferInstanceAs (Decidable (_ ≠ _))
  | .receive _ => inferInstanceAs (Decidable (_ ∧ _))
  | .kill => inferInstanceAs (Decidable True)
  | .erase => inferInstanceAs (Decidable (_ ∧ Unlisted _ _))
  | .opendir _ => inferInstanceAs (Decidable (_ = _))
  | .readdir _ _ => inferInstanceAs (Decidable (Undisturbed _ _ _ _ _))
  | .checkNew _ _ => inferInstanceAs (Decidable (_ ≤ _))

def Installed (name a b c : Str) (s : Race) : Prop :=
  s.parent ≠ .crashed ∧ ∀ appended, s.parent = .finished appended →
    ∃ q, appended = some q ∧ s.tables.listProcess.getLast? = some q ∧ q.pName = name ∧ Carries a b c q

def OnTrack (name a b c : Str) (r : Replacement) (s : Race) : Prop :=
  match s.parent with
  | .receiving => True
  | .killing => r.newFile ∈ s.files
  | .erasing => r.newFile ∈ s.files
  | .opening => r.newFile ∈ s.files ∧ Unlisted name s.tables.listLibs
  | .reading opened seen going =>
    r.newFile ∈ s.files ∧ Unlisted name s.tables.listLibs ∧ r.newFile ∈ opened ∧
      (∀ front e back, seen = front ++ e::back →
        Undisturbed r s.tables.listLibs (front.map Prod.fst) e.1 (scanEntry r.config e.2 e.1)) ∧
      (going = false → r.newFile ∈ seen.map Prod.fst)
  | .finished _ => Installed name a b c s
  | .crashed => False

theorem undisturbedSnoc {r : Replacement} {listLibs : List Process} {seen : List (Str × Process)} {str : Str} {junk : Process}
    (undisturbed : ∀ front e back, seen = front ++ e::back →
      Undisturbed r listLibs (front.map Prod.fst) e.1 (scanEntry r.config e.2 e.1))
    (here : Undisturbed r listLibs (seen.map Prod.fst) str (scanEntry r.config junk str)) :
    ∀ front e back, seen ++ [(str,junk)] = front ++ e::back →
      Undisturbed r listLibs (front.map Prod.fst) e.1 (scanEntry r.config e.2 e.1) := by
  intro front e back split
  rcases List.eq_nil_or_concat back with rfl | ⟨rest,last,rfl⟩
  · obtain ⟨rfl,same⟩ := List.append_inj' split rfl
    cases same
    exact here
  · have longer : seen ++ [(str,junk)] = (front ++ e::rest) ++ [last] := by simpa using split
    obtain ⟨rfl,-⟩ := List.append_inj' longer rfl
    exact undisturbed front e rest rfl

theorem stopsRead {r : Replacement} {listLibs : List Process} {before : List Str} {str : Str} {visit : Except Fault Visit}
    (stopped : goesOn visit = false) (here : Undisturbed r listLibs before str visit) : r.newFile ∈ before := by
  cases visit with
  | error fault => cases here
  | ok visit =>
    cases visit with
    | closed => exact here
    | passed => cases stopped
    | listed q => cases stopped

theorem onTrackInstalled {r : Replacement} {s : Race} (track : OnTrack name a b c r s) : Installed name a b c s := by
  unfold OnTrack at track
  split at track
  · rename_i receiving
    exact ⟨by simp [receiving],by simp [receiving]⟩
  · rename_i killing
    exact ⟨by simp [killing],by simp [killing]⟩
  · rename_i erasing
    exact ⟨by simp [erasing],by simp [erasing]⟩
  · rename_i opening
    exact ⟨by simp [opening],by simp [opening]⟩
  · rename_i reading
    exact ⟨by simp [reading],by simp [reading]⟩
  · exact track
  · cases track

theorem onTrackFiles {r : Replacement} {s t : Race} (parent : t.parent = s.parent) (tables : t.tables = s.tables)
    (kept : r.newFile ∈ s.files → r.newFile ∈ t.files) (track : OnTrack name a b c r s) : OnTrack name a b c r t := by
  unfold OnTrack Installed at track ⊢
  rw [parent,tables]
  split at track
  · trivial
  · exact kept track
  · exact kept track
  · exact ⟨kept track.1,track.2⟩
  · exact ⟨kept track.1,track.2⟩
  · exact track
  · exact track

include plain first second third in
theorem checkNewOnTrack {r : Replacement} (file : r.newFile = libraryName name a b c) {s t : Race} {opened seen going junk start}
    (parent : s.parent = .reading opened seen going) (enough : start.failures ≤ s.tables.listProcess.length)
    (track : OnTrack name a b c r s) (went : raceStep r s (.checkNew junk start) = some t) : OnTrack name a b c r t := by
  unfold OnTrack at track
  rw [parent] at track
  obtain ⟨here,unlisted,listed,undisturbed,stopped⟩ := track
  simp only [raceStep,parent] at went
  split at went
  · cases went
  · rename_i complete
    have read : r.newFile ∈ seen.map Prod.fst := by
      cases going with
      | false => exact stopped rfl
      | true =>
        rw [not_and_not_right] at complete
        exact complete rfl _ listed here
    have junks : ∀ k e, seen[k]? = some e → (lookAt r.config seen junk start).folder.junk (0 + k) = e.2 := fun k e at_ => by
      simp [lookAt,List.getD_eq_getElem?_getD,at_]
    have empty : Found name a b c r s.tables.listLibs [] [] := by simp [Found]
    obtain ⟨libNew,scanned,q,found,named,carries⟩ :=
      scanFound plain first second third file unlisted rfl junks empty
        (fun front e back split => by simpa using undisturbed front e back split) (by simpa using read)
    have whole : scan (lookAt r.config seen junk start).folder = .ok libNew := scanned
    obtain ⟨t',lib,checked,appended,last,name_,num1,num2,num3⟩ := checkNewStarts whole found enough
    rw [checked,appended] at went
    cases went
    refine ⟨by simp,fun _ done => ?_⟩
    cases done
    exact ⟨_,rfl,last,name_.trans named,⟨num1.trans carries.num1,num2.trans carries.num2,num3.trans carries.num3⟩⟩

include plain first second third in
theorem onTrackStep {r : Replacement} (named : r.p.pName = name) (file : r.newFile = libraryName name a b c)
    (s m t) (turn : InTurn r s m) (track : OnTrack name a b c r s) (went : raceStep r s m = some t) : OnTrack name a b c r t := by
  cases m with
  | getNewVersion g =>
    obtain ⟨_,went⟩ := Option.ite_none_right_eq_some.mp went
    cases went
    exact onTrackFiles (s := s) rfl rfl id track
  | remove =>
    obtain ⟨_,went⟩ := Option.ite_none_right_eq_some.mp went
    cases went
    exact onTrackFiles (s := s) rfl rfl (fun mem => List.mem_filter.mpr ⟨mem,decide_eq_true turn⟩) track
  | receive ok =>
    obtain ⟨_,went⟩ := Option.ite_none_right_eq_some.mp went
    rw [if_pos turn.1,turn.2] at went
    cases went
    exact List.mem_insert_self
  | kill =>
    obtain ⟨parent,went⟩ := Option.ite_none_right_eq_some.mp went
    cases went
    unfold OnTrack at track
    rw [parent] at track
    exact track
  | erase =>
    obtain ⟨parent,went⟩ := Option.ite_none_right_eq_some.mp went
    rw [if_pos turn.1] at went
    cases went
    unfold OnTrack at track
    rw [parent] at track
    exact ⟨track,named ▸ turn.2⟩
  | opendir ok =>
    obtain ⟨parent,went⟩ := Option.ite_none_right_eq_some.mp went
    rw [if_pos (show ok = true from turn)] at went
    cases went
    unfold OnTrack at track
    rw [parent] at track
    exact ⟨track.1,track.2,track.1,by simp,by simp⟩
  | readdir str junk =>
    simp only [raceStep] at went
    split at went <;> try contradiction
    rename_i opened seen parent
    split at went <;> try contradiction
    cases went
    have here : Undisturbed r s.tables.listLibs (seen.map Prod.fst) str (scanEntry r.config junk str) := by
      simpa only [InTurn,parent,Parent.returned] using turn
    unfold OnTrack at track
    rw [parent] at track
    obtain ⟨stays,unlisted,listed,undisturbed,-⟩ := track
    refine ⟨stays,unlisted,listed,undisturbedSnoc undisturbed here,fun stopped => ?_⟩
    rw [List.map_append]
    exact List.mem_append_left _ (stopsRead stopped here)
  | checkNew junk start =>
    cases parent : s.parent with
    | reading opened seen going => exact checkNewOnTrack plain first second third file parent turn track went
    | _ => simp [raceStep,parent] at went

include plain first second third in
theorem installsNewVersion {r : Replacement} (named : r.p.pName = name) (file : r.newFile = libraryName name a b c)
    (files : List Str) (tables : Tables) (moves : List Move)
    (inTurn : Trace.EachStep (raceStep r) (raceStart files tables) (InTurn r) moves) :
    Trace.Always (raceStep r) (raceStart files tables) (Installed name a b c) moves := by
  have start : OnTrack name a b c r (raceStart files tables) := trivial
  have always := Trace.alwaysOfSteps start (onTrackStep plain first second third named file) inTurn
  intro before after t split ran
  exact onTrackInstalled (always before after t split ran)

end

def outdated : Process := ⟨7,['a'],1,0,0,0,0,[],1,0⟩
def neighbour : Process := ⟨8,['b'],1,0,0,0,0,[],1,0⟩

def release : Replacement := ⟨fun _ => some (.object 0 0 []),0,outdated,libraryName ['a'] ['1'] ['0'] ['1'],[]⟩

def outdatedStart : Race :=
  raceStart [['.'],libraryFile outdated,libraryFile neighbour] ⟨[outdated,neighbour],[outdated,neighbour]⟩

def promptRemoval : List Move :=
  [.getNewVersion true,.receive true,.kill,.erase,.opendir true,.readdir ['.'] blank,.readdir (libraryFile neighbour) blank,.remove,
    .readdir release.newFile blank,.checkNew (fun _ => blank) ⟨⟨1,9⟩,0⟩]

theorem installsPrompt : Trace.Always (raceStep release) outdatedStart (Installed ['a'] ['1'] ['0'] ['1']) promptRemoval := by
  have tested : Trace.EachStep (raceStep release) outdatedStart (fun s m => decide (InTurn release s m) = true) promptRemoval :=
    Trace.eachTested.mp (by decide +kernel)
  have inTurn : Trace.EachStep (raceStep release) outdatedStart (InTurn release) promptRemoval :=
    fun before m after t split ran => of_decide_eq_true (tested before m after t split ran)
  exact installsNewVersion (by decide) (by decide) (by decide) (by decide) rfl rfl _ _ promptRemoval inTurn

def lateRemoval : List Move :=
  [.receive true,.kill,.erase,.opendir true,.readdir ['.'] blank,.readdir (libraryFile outdated) blank,
    .readdir (libraryFile neighbour) blank,.readdir release.newFile blank,.checkNew (fun _ => blank) ⟨⟨0,9⟩,0⟩,
    .getNewVersion true,.remove]

theorem oldVersionRestarted :
    ¬ Trace.Always (raceStep release) outdatedStart (Installed ['a'] ['1'] ['0'] ['1']) lateRemoval := by
  have ends : (Trace.attempt (raceStep release) outdatedStart lateRemoval).map Race.parent =
      some (.finished (some ⟨9,['a'],1,0,0,0,0,[],1,0⟩)) := by decide +kernel
  obtain ⟨t,ran,parent⟩ := Option.map_eq_some_iff.mp ends
  intro always
  obtain ⟨q,same,-,-,carries⟩ := (always lateRemoval [] t (List.append_nil _).symm ran).2 _ parent
  cases same
  have version := carries.num3
  revert version
  decide

end PracticeSuite.Agent
