import PracticeSuite.AgentStarts

/-! One pass of update, round by round, as the server and the file system see it. The
loop erases at its own index and appends at the end of the list it walks, so each
entry is followed by the index it had when the pass began. -/
namespace PracticeSuite.Agent

/- What a round shows: the entry it asks about, with its index at the start of the
pass (none for an entry appended since), and the file it opens for a download. -/
inductive Note where
  | asked (p : Process) (origin : Option Nat)
  | opened (newFile file : Str)
  deriving DecidableEq, Repr

abbrev Origins := List (Option Nat)

def checkNewOrigins (look : Look) (t : Tables) (origins : Origins) : Origins :=
  match check look t with
  | .ok (_::_,_) => origins.take (origins.length - look.start.failures) ++ [none]
  | _ => origins

def notes (rounds : Nat → Round) : Nat → Nat → Update → Origins → List Note
  | 0,_,_,_ => []
  | fuel+1,i,s,origins => match s.tables.listProcess[i]? with
    | none => []
    | some p =>
      let s := {s with acts := s.acts ++ [.asked p.pName p.num1 p.num2 p.num3]}
      let asked := Note.asked p (origins.getD i none)
      if (rounds i).newFile = [] then asked :: notes rounds fuel (i+1) s origins
      else
        asked :: .opened (rounds i).newFile (s.empfile ++ (rounds i).newFile) ::
          match replaceEntry (rounds i) i p s with
          | .error _ => []
          | .ok s' => notes rounds fuel (i+1) s'
            (checkNewOrigins (rounds i).look (erased i s.tables) (origins.eraseIdx i))

def passNotes (rounds : Nat → Round) (t : Tables) : List Note :=
  notes rounds t.listProcess.length 0 ⟨t,agentchildForder,[]⟩ ((List.range t.listProcess.length).map some)

theorem notesEnd {rounds fuel i s origins} (missing : s.tables.listProcess[i]? = none) :
    notes rounds fuel i s origins = [] := by
  cases fuel with
  | zero => rfl
  | succ fuel => simp only [notes,missing]

theorem notesQuiet {rounds fuel i s origins p} (here : s.tables.listProcess[i]? = some p)
    (quiet : (rounds i).newFile = []) : notes rounds (fuel+1) i s origins =
      .asked p (origins.getD i none) ::
        notes rounds fuel (i+1) {s with acts := s.acts ++ [.asked p.pName p.num1 p.num2 p.num3]} origins := by
  simp only [notes,here,quiet,if_true]

theorem notesAnswered {rounds i s p} (fuel : Nat) (origins : Origins) (here : s.tables.listProcess[i]? = some p)
    (answered : (rounds i).newFile ≠ []) : ∃ rest, notes rounds (fuel+1) i s origins =
      .asked p (origins.getD i none) :: .opened (rounds i).newFile (s.empfile ++ (rounds i).newFile) :: rest ∧
      let replaced := replaceEntry (rounds i) i p
        {s with acts := s.acts ++ [.asked p.pName p.num1 p.num2 p.num3]}
      ((∃ fault, replaced = .error fault ∧ rest = []) ∨ ∃ s', replaced = .ok s' ∧
        rest = notes rounds fuel (i+1) s'
          (checkNewOrigins (rounds i).look (erased i s.tables) (origins.eraseIdx i))) := by
  simp only [notes,here,answered,if_false]
  refine ⟨_,rfl,?_⟩
  split
  · rename_i fault failed
    exact .inl ⟨fault,failed,rfl⟩
  · rename_i s' replaced
    exact .inr ⟨s',replaced,rfl⟩

def Note.act : Note → Act
  | .asked p _ => .asked p.pName p.num1 p.num2 p.num3
  | .opened _ file => .wrote file

def Act.shown : Act → Bool
  | .asked _ _ _ _ => true
  | .wrote _ => true
  | .killed _ => false

theorem replaceEntryActs {round i p s s'} (done : replaceEntry round i p s = .ok s') :
    s'.empfile = s.empfile ++ round.newFile ∧
      s'.acts = s.acts ++ [.wrote (s.empfile ++ round.newFile),.killed p.pPid] := by
  unfold replaceEntry at done
  dsimp only at done
  split at done <;> try contradiction
  obtain ⟨tables,_,last⟩ := bindOk.mp done
  cases Except.ok.inj last
  exact ⟨rfl,rfl⟩

theorem notesActs {rounds fuel i s s'} (origins : Origins) (done : updateLoop rounds fuel i s = .ok s') :
    s'.acts.filter Act.shown = s.acts.filter Act.shown ++ (notes rounds fuel i s origins).map Note.act := by
  induction fuel generalizing i s origins with
  | zero =>
    cases Except.ok.inj done
    simp [notes]
  | succ fuel ih =>
    simp only [updateLoop] at done
    split at done
    · rename_i missing
      cases Except.ok.inj done
      simp [notesEnd missing]
    · rename_i p here
      split at done
      · rename_i quiet
        rw [ih origins done,notesQuiet here quiet]
        simp [Note.act,Act.shown,List.filter_cons]
      · rename_i answered
        obtain ⟨middle,replaced,rest⟩ := bindOk.mp done
        simp only [notes,here,answered,if_false,replaced]
        rw [ih (checkNewOrigins (rounds i).look (erased i s.tables) (origins.eraseIdx i)) rest,
          (replaceEntryActs replaced).2]
        simp [Note.act,Act.shown,List.filter_cons]

structure Traced (initial : List Process) (origins : Origins) (listProcess : List Process) : Prop where
  size : origins.length = listProcess.length
  same : ∀ (j k : Nat), origins[j]? = some (some k) → listProcess[j]? = initial[k]?

theorem popBackTake {failures l l'} (done : popBack failures l = .ok l') : l' = l.take (l.length - failures) := by
  have length := popBackLength done
  exact Except.ok.inj (done.symm.trans (popBackDone (by omega)))

theorem checkNewTraced {initial look t t'} {origins : Origins} (traced : Traced initial origins t.listProcess)
    (done : checkNew look t = .ok t') : Traced initial (checkNewOrigins look t origins) t'.listProcess := by
  obtain ⟨⟨both,middle⟩,checked,rest⟩ := bindOk.mp done
  obtain ⟨libNew,_,same⟩ := bindOk.mp checked
  obtain ⟨_,rfl⟩ := Prod.mk.inj (Except.ok.inj same)
  unfold checkNewOrigins
  rw [checked]
  dsimp only at rest ⊢
  split at rest
  · cases Except.ok.inj rest
    exact traced
  · obtain ⟨l,pushed,last⟩ := bindOk.mp rest
    obtain ⟨kept,popped,more⟩ := bindOk.mp pushed
    cases Except.ok.inj more
    cases Except.ok.inj last
    cases popBackTake popped
    have size := traced.size
    refine ⟨by simp [size],fun j k found => ?_⟩
    dsimp only
    rw [size] at found
    by_cases inside : j < t.listProcess.length - look.start.failures
    · rw [List.getElem?_append_left (by simp; omega),List.getElem?_take_of_lt inside] at found ⊢
      exact traced.same j k found
    · rw [List.getElem?_append_right (by simp; omega)] at found
      obtain ⟨_,nobody⟩ := List.getElem?_eq_some_iff.mp found
      simp at nobody

theorem erasedTraced {initial : List Process} {origins : Origins} {l} (traced : Traced initial origins l) (i) :
    Traced initial (origins.eraseIdx i) (l.eraseIdx i) := by
  refine ⟨?_,fun j k found => ?_⟩
  · rw [List.length_eraseIdx,List.length_eraseIdx,traced.size]
  · rw [List.getElem?_eraseIdx] at found ⊢
    split
    · rename_i before
      rw [if_pos before] at found
      exact traced.same j k found
    · rename_i behind
      rw [if_neg behind] at found
      exact traced.same (j+1) k found

theorem notesTraced {rounds fuel i s initial} {origins : Origins} (traced : Traced initial origins s.tables.listProcess)
    {p k} (mem : .asked p (some k) ∈ notes rounds fuel i s origins) : initial[k]? = some p := by
  induction fuel generalizing i s origins with
  | zero => cases mem
  | succ fuel ih =>
    cases here : s.tables.listProcess[i]? with
    | none =>
      rw [notesEnd here] at mem
      cases mem
    | some q =>
      have asked : ∀ {p k}, Note.asked p (some k) = .asked q (origins.getD i none) → initial[k]? = some p := by
        intro p k same
        obtain ⟨rfl,origin⟩ := Note.asked.inj same
        have at_ : origins[i]? = some (some k) := by
          rw [List.getD_eq_getElem?_getD] at origin
          cases found : origins[i]? with
          | none => simp [found] at origin
          | some o => simpa [found] using origin.symm
        rw [← traced.same i k at_,here]
      by_cases quiet : (rounds i).newFile = []
      · rw [notesQuiet here quiet] at mem
        rcases List.mem_cons.mp mem with head | later
        · exact asked head
        · exact ih (by exact traced) later
      · obtain ⟨rest,eq,final⟩ := notesAnswered fuel origins here quiet
        rw [eq,List.mem_cons,List.mem_cons] at mem
        rcases mem with head | opened | later
        · exact asked head
        · cases opened
        · rcases final with ⟨_,_,rfl⟩ | ⟨s',replaced,rfl⟩
          · cases later
          · exact ih (checkNewTraced (erasedTraced traced i) (replaceEntryTables replaced)) later

theorem passNotesFaithful (rounds : Nat → Round) (t : Tables) :
    (∀ s, update rounds t = .ok s → s.acts.filter Act.shown = (passNotes rounds t).map Note.act) ∧
    ∀ p k, .asked p (some k) ∈ passNotes rounds t → t.listProcess[k]? = some p := by
  refine ⟨fun s done => ?_,fun p k mem => ?_⟩
  · simpa [passNotes] using notesActs ((List.range t.listProcess.length).map some) done
  · have traced : Traced t.listProcess ((List.range t.listProcess.length).map some) t.listProcess := by
      refine ⟨by simp,fun j k found => ?_⟩
      obtain ⟨_,same⟩ := List.getElem?_eq_some_iff.mp found
      simp only [List.getElem_map,List.getElem_range,Option.some.injEq] at same
      rw [same]
    exact notesTraced traced mem

def Note.asks (k : Nat) : Note → Bool
  | .asked _ origin => origin = some k
  | .opened _ _ => false

def VisitsEach (rounds : Nat → Round) (t : Tables) : Prop :=
  ∀ k p, t.listProcess[k]? = some p → (passNotes rounds t).filter (Note.asks k) = [.asked p (some k)]

theorem checkNewOriginsMem {look t} {origins : Origins} {j k : Nat}
    (found : (checkNewOrigins look t origins)[j]? = some (some k)) : origins[j]? = some (some k) := by
  unfold checkNewOrigins at found
  split at found
  · rw [List.getElem?_append] at found
    split at found
    · rename_i inside
      rw [List.getElem?_take_of_lt (by simp at inside; omega)] at found
      exact found
    · obtain ⟨_,nobody⟩ := List.getElem?_eq_some_iff.mp found
      simp at nobody
  · exact found

/- An entry that stands before the index of the loop is not met any more: erasing and
popping never move an entry to the right. -/
theorem notesNever {rounds fuel i s k} {origins : Origins}
    (behind : ∀ j, i ≤ j → origins[j]? ≠ some (some k)) :
    (notes rounds fuel i s origins).filter (Note.asks k) = [] := by
  induction fuel generalizing i s origins with
  | zero => rfl
  | succ fuel ih =>
    cases here : s.tables.listProcess[i]? with
    | none => rw [notesEnd here]; rfl
    | some p =>
      have other : ¬ Note.asks k (.asked p (origins.getD i none)) := by
        have miss := behind i (Nat.le_refl i)
        simp only [Note.asks,decide_eq_true_eq,List.getD_eq_getElem?_getD]
        cases found : origins[i]? with
        | none => simp
        | some o =>
          rw [found] at miss
          simpa using miss
      by_cases quiet : (rounds i).newFile = []
      · rw [notesQuiet here quiet,List.filter_cons_of_neg other]
        exact ih (fun j later => behind j (by omega))
      · obtain ⟨rest,eq,final⟩ := notesAnswered fuel origins here quiet
        rw [eq,List.filter_cons_of_neg other,List.filter_cons_of_neg (by simp [Note.asks])]
        rcases final with ⟨_,_,rfl⟩ | ⟨s',_,rfl⟩
        · rfl
        · refine ih (fun j later found => ?_)
          have moved := checkNewOriginsMem found
          rw [List.getElem?_eraseIdx_of_ge (by omega)] at moved
          exact behind (j+1) (by omega) moved

theorem originAt {n j k : Nat} (found : ((List.range n).map some)[j]? = some (some k)) : j = k := by
  obtain ⟨_,same⟩ := List.getElem?_eq_some_iff.mp found
  simpa using same

theorem answeredSkips {rounds fuel i n s q} (here : s.tables.listProcess[i]? = some q)
    (answered : (rounds i).newFile ≠ []) (origin : ((List.range n).map some).getD i none = some i) :
    (notes rounds (fuel+1) i s ((List.range n).map some)).filter (Note.asks (i+1)) = [] := by
  obtain ⟨rest,eq,final⟩ := notesAnswered fuel ((List.range n).map some) here answered
  rw [eq,origin,List.filter_cons_of_neg (by simp [Note.asks]),List.filter_cons_of_neg (by simp [Note.asks])]
  rcases final with ⟨_,_,rfl⟩ | ⟨s',_,rfl⟩
  · rfl
  · refine notesNever (fun j beyond found => ?_)
    have moved := checkNewOriginsMem found
    rw [List.getElem?_eraseIdx_of_ge (by omega)] at moved
    have := originAt moved
    omega

theorem answeredLast {rounds i s q} {origins : Origins} (here : s.tables.listProcess[i]? = some q)
    (answered : (rounds i).newFile ≠ []) : notes rounds 1 i s origins =
      [.asked q (origins.getD i none),.opened (rounds i).newFile (s.empfile ++ (rounds i).newFile)] := by
  obtain ⟨rest,eq,⟨_,_,rfl⟩ | ⟨s',_,rfl⟩⟩ := notesAnswered 0 origins here answered
  · exact eq
  · exact eq

theorem fromNext {P : Nat → Prop} {i : Nat} (here : P i) : (∀ j, i + 1 ≤ j → P j) ↔ ∀ j, i ≤ j → P j := by
  refine ⟨fun all j later => ?_,fun all j later => all j (Nat.le_of_succ_le later)⟩
  rcases Nat.eq_or_lt_of_le later with rfl | after
  · exact here
  · exact all j after

def Visits (listProcess : List Process) (i : Nat) (shown : List Note) : Prop :=
  ∀ k, i ≤ k → ∀ p, listProcess[k]? = some p → shown.filter (Note.asks k) = [.asked p (some k)]

theorem visitsAsked {l i q shown} (here : l[i]? = some q) (never : shown.filter (Note.asks i) = []) :
    Visits l i (.asked q (some i) :: shown) ↔ Visits l (i+1) shown := by
  have self : ∀ p, l[i]? = some p →
      (Note.asked q (some i) :: shown).filter (Note.asks i) = [.asked p (some i)] := by
    intro p found
    rw [List.filter_cons_of_pos (by simp [Note.asks]),never,Option.some.inj (here.symm.trans found)]
  unfold Visits
  rw [← fromNext self]
  refine forall_congr' (fun k => forall_congr' (fun after => forall_congr' (fun p => forall_congr' (fun _ => ?_))))
  have other : ¬ Note.asks k (.asked q (some i)) := by
    simp only [Note.asks,decide_eq_true_eq,Option.some.injEq]
    omega
  rw [List.filter_cons_of_neg other]

theorem notesVisit (rounds : Nat → Round) {fuel i n : Nat} {s : Update} (size : s.tables.listProcess.length = n)
    (fuelled : n = i + fuel) :
    Visits s.tables.listProcess i (notes rounds fuel i s ((List.range n).map some)) ↔
    ∀ j, i ≤ j → j + 1 < n → (rounds j).newFile = [] := by
  induction fuel generalizing i s with
  | zero =>
    refine iff_of_true (fun k later p found => ?_) (fun j _ _ => by omega)
    obtain ⟨inside,_⟩ := List.getElem?_eq_some_iff.mp found
    omega
  | succ fuel ih =>
    obtain ⟨q,here⟩ : ∃ q, s.tables.listProcess[i]? = some q :=
      ⟨_,List.getElem?_eq_getElem (show i < s.tables.listProcess.length by omega)⟩
    have origin : ((List.range n).map some).getD i none = some i := by
      simp [List.getD_eq_getElem?_getD,show i < n by omega]
    by_cases quiet : (rounds i).newFile = []
    · have never : ∀ s, (notes rounds fuel (i+1) s ((List.range n).map some)).filter (Note.asks i) = [] :=
        fun s => notesNever (fun j beyond found => by have := originAt found; omega)
      have next := ih (i := i+1) (s := {s with acts := s.acts ++ [.asked q.pName q.num1 q.num2 q.num3]}) size
        (by omega)
      rw [notesQuiet here quiet,origin,visitsAsked here (never _),next]
      exact fromNext (fun _ => quiet)
    · by_cases last : i + 1 < n
      · refine iff_of_false (fun each => ?_) (fun all => quiet (all i (Nat.le_refl i) last))
        have skipped := each (i+1) (Nat.le_succ i) _ (List.getElem?_eq_getElem (by omega))
        rw [answeredSkips here quiet origin] at skipped
        contradiction
      · obtain rfl : fuel = 0 := by omega
        rw [answeredLast here quiet,origin,visitsAsked here rfl]
        refine iff_of_true (fun k later p found => ?_) (fun j later inner => by omega)
        obtain ⟨inside,_⟩ := List.getElem?_eq_some_iff.mp found
        omega

theorem visitsExactly (rounds : Nat → Round) (t : Tables) :
    VisitsEach rounds t ↔ ∀ i, i + 1 < t.listProcess.length → (rounds i).newFile = [] := by
  unfold VisitsEach passNotes
  have pass := notesVisit rounds (s := ⟨t,agentchildForder,[]⟩) rfl (Nat.zero_add _).symm
  simpa only [Visits,Nat.zero_le,forall_const] using pass

def twoRunning : Tables := ⟨[listedLib 0 "a",listedLib 0 "b"],[listedLib 100 "a",listedLib 101 "b"]⟩
def renewFirst (i : Nat) : Round :=
  ⟨if i = 0 then "a-1.0.1.so".toList else [],lookOf ["a-1.0.1.so","b-1.0.0.so"]⟩

theorem secondNeverAsked : Aligned twoRunning ∧
    passNotes renewFirst twoRunning =
      [.asked (listedLib 100 "a") (some 0),.opened "a-1.0.1.so".toList (agentchildForder ++ "a-1.0.1.so".toList),
        .asked {foundLib "a" with pPid := 107,num3 := 1} none] ∧
    ¬ VisitsEach renewFirst twoRunning := by
  refine ⟨alignedNames.mpr rfl,rfl,fun each => ?_⟩
  have missing : (passNotes renewFirst twoRunning).filter (Note.asks 1) = [] := rfl
  cases missing.symm.trans (each 1 (listedLib 101 "b") rfl)

def DownloadsApart (rounds : Nat → Round) (t : Tables) : Prop :=
  ∀ newFile file, .opened newFile file ∈ passNotes rounds t → file = agentchildForder ++ newFile

/- How many entries a replacement leaves: one less, unless the scan finds a new library;
then each failed fork costs an entry. -/
def entriesLeft (look : Look) (i : Nat) (t : Tables) (libNew : List Process) : Nat :=
  if libNew.filter (isNew (t.listLibs.eraseIdx i)) = [] then t.listProcess.length - 1
  else t.listProcess.length - look.start.failures

/- The first answer of the pass is the only one: no entry that the replacement leaves
behind the index of the loop gets another. -/
def SingleAnswer (rounds : Nat → Round) (t : Tables) : Prop :=
  ∀ i, i < t.listProcess.length → i < t.listLibs.length → (rounds i).newFile ≠ [] →
    (∀ k < i, (rounds k).newFile = []) → ∀ libNew, scan (rounds i).look.folder = .ok libNew →
      ∀ j, i < j → j < entriesLeft (rounds i).look i t libNew → (rounds j).newFile = []

theorem entriesRenewed {look t i libNew} (inside : i < t.listProcess.length) (scanned : scan look.folder = .ok libNew)
    {j : Nat} (later : i < j) : j < entriesLeft look i t libNew ↔
      ∃ t', checkNew look (erased i t) = .ok t' ∧ j < t'.listProcess.length := by
  have length : (erased i t).listProcess.length = t.listProcess.length - 1 := List.length_eraseIdx_of_lt inside
  unfold entriesLeft
  cases new : checkLoop (erased i t).listLibs look.junk 0 libNew with
  | nil =>
    have nothing : libNew.filter (isNew (t.listLibs.eraseIdx i)) = [] := (filterNone _ look.junk _).mpr new
    rw [if_pos nothing,checkNewNothing scanned new,← length]
    simp only [Except.ok.injEq,exists_eq_left']
  | cons lib rest =>
    have found : libNew.filter (isNew (t.listLibs.eraseIdx i)) ≠ [] := by
      intro nothing
      cases new.symm.trans ((filterNone _ look.junk _).mp nothing)
    rw [if_neg found,checkNewFirst scanned new]
    constructor
    · intro left
      have pushed : pushStarted look.start lib (erased i t).listProcess = .ok
          ((erased i t).listProcess.take ((erased i t).listProcess.length - look.start.failures) ++
            [started look.start lib]) := by
        rw [pushStarted,popBackDone (by omega)]
        rfl
      rw [pushed]
      refine ⟨_,rfl,?_⟩
      simp only [List.length_append,List.length_take,List.length_singleton]
      omega
    · rintro ⟨t',done,left⟩
      obtain ⟨l,pushed,last⟩ := bindOk.mp done
      obtain ⟨kept,popped,more⟩ := bindOk.mp pushed
      cases Except.ok.inj more
      cases Except.ok.inj last
      have shorter := popBackLength popped
      simp only [List.length_append,List.length_singleton] at left
      omega

theorem answersRenewed {look t i} {P : Nat → Prop} (inside : i < t.listProcess.length) :
    (∀ t', checkNew look (erased i t) = .ok t' → ∀ j, i < j → j < t'.listProcess.length → P j) ↔
    ∀ libNew, scan look.folder = .ok libNew → ∀ j, i < j → j < entriesLeft look i t libNew → P j := by
  constructor
  · intro all libNew scanned j later left
    obtain ⟨t',done,below⟩ := (entriesRenewed inside scanned later).mp left
    exact all t' done j later below
  · intro all t' done j later below
    obtain ⟨⟨both,middle⟩,checked,rest⟩ := bindOk.mp done
    obtain ⟨libNew,scanned,same⟩ := bindOk.mp checked
    exact all libNew scanned j later ((entriesRenewed inside scanned later).mpr ⟨t',done,below⟩)

def Placed (shown : List Note) : Prop :=
  ∀ newFile file, .opened newFile file ∈ shown → file = agentchildForder ++ newFile

theorem placedNil : Placed [] := by
  intro newFile file mem
  cases mem

theorem placedAsked {p origin shown} : Placed (.asked p origin :: shown) ↔ Placed shown := by
  simp only [Placed,List.mem_cons,reduceCtorEq,false_or]

theorem placedOpened {newFile file shown} : Placed (.opened newFile file :: shown) ↔
    file = agentchildForder ++ newFile ∧ Placed shown := by
  constructor
  · intro placed
    exact ⟨placed newFile file List.mem_cons_self,fun other path mem => placed other path (List.mem_cons_of_mem _ mem)⟩
  · rintro ⟨here,later⟩ other path mem
    rcases List.mem_cons.mp mem with same | behind
    · obtain ⟨rfl,rfl⟩ := Note.opened.inj same
      exact here
    · exact later other path behind

theorem notesMisplaced {rounds : Nat → Round} {fuel i s} {origins : Origins} {earlier : Str} (some_ : earlier ≠ [])
    (path : s.empfile = agentchildForder ++ earlier) (enough : s.tables.listProcess.length ≤ i + fuel) :
    Placed (notes rounds fuel i s origins) ↔
      ∀ j, i ≤ j → j < s.tables.listProcess.length → (rounds j).newFile = [] := by
  induction fuel generalizing i s with
  | zero => exact iff_of_true placedNil (fun j later inside => by omega)
  | succ fuel ih =>
    cases here : s.tables.listProcess[i]? with
    | none =>
      rw [notesEnd here]
      have outside := List.getElem?_eq_none_iff.mp here
      exact iff_of_true placedNil (fun j later inside => by omega)
    | some p =>
      obtain ⟨inside,_⟩ := List.getElem?_eq_some_iff.mp here
      by_cases quiet : (rounds i).newFile = []
      · have next := ih (i := i+1) (s := {s with acts := s.acts ++ [.asked p.pName p.num1 p.num2 p.num3]}) path
          (by dsimp only; omega)
        rw [notesQuiet here quiet,placedAsked,next]
        exact fromNext (fun _ => quiet)
      · refine iff_of_false (fun all => ?_) (fun all => quiet (all i (Nat.le_refl i) inside))
        obtain ⟨rest,eq,_⟩ := notesAnswered fuel origins here quiet
        rw [eq,placedAsked,placedOpened] at all
        have right := all.1
        rw [path,List.append_cancel_right_eq] at right
        exact some_ (List.append_right_eq_self.mp right)

theorem replaceEntryInside {round i p s s'} (done : replaceEntry round i p s = .ok s') :
    i < s.tables.listLibs.length := by
  by_contra outside
  unfold replaceEntry at done
  rw [if_neg outside] at done
  cases done

theorem replaceEntryFails {round i p s fault} (failed : replaceEntry round i p s = .error fault)
    (inside : i < s.tables.listLibs.length) (t') : checkNew round.look (erased i s.tables) ≠ .ok t' := by
  intro renewed
  unfold replaceEntry at failed
  unfold erased at renewed
  rw [if_pos inside,renewed] at failed
  cases failed

theorem notesFirstAnswer {rounds : Nat → Round} {fuel i s p} {origins : Origins} (path : s.empfile = agentchildForder)
    (enough : s.tables.listProcess.length ≤ i + (fuel+1)) (here : s.tables.listProcess[i]? = some p)
    (answered : (rounds i).newFile ≠ []) :
    Placed (notes rounds (fuel+1) i s origins) ↔
      ∀ t', i < s.tables.listLibs.length → checkNew (rounds i).look (erased i s.tables) = .ok t' →
        ∀ j, i < j → j < t'.listProcess.length → (rounds j).newFile = [] := by
  obtain ⟨rest,eq,final⟩ := notesAnswered fuel origins here answered
  rw [eq,placedAsked,placedOpened,and_iff_right (by rw [path])]
  rcases final with ⟨fault,failed,rfl⟩ | ⟨s',replaced,rfl⟩
  · refine iff_of_true placedNil (fun t' inside renewed => ?_)
    have never := replaceEntryFails failed inside t'
    exact absurd renewed never
  · have tables := replaceEntryTables replaced
    have shorter := replaceEntryLength (by exact here) replaced
    have inside := replaceEntryInside replaced
    rw [notesMisplaced answered (by rw [(replaceEntryActs replaced).1,path]) (by dsimp only at shorter; omega)]
    refine ⟨fun all t' _ renewed => ?_,fun all => all s'.tables inside tables⟩
    cases Except.ok.inj (tables.symm.trans renewed)
    exact all

theorem notesDownloads (rounds : Nat → Round) {fuel i s} (origins : Origins) (path : s.empfile = agentchildForder)
    (enough : s.tables.listProcess.length ≤ i + fuel) :
    Placed (notes rounds fuel i s origins) ↔
      ∀ m, i ≤ m → m < s.tables.listProcess.length → (rounds m).newFile ≠ [] →
        (∀ k, i ≤ k → k < m → (rounds k).newFile = []) →
        ∀ t', m < s.tables.listLibs.length → checkNew (rounds m).look (erased m s.tables) = .ok t' →
          ∀ j, m < j → j < t'.listProcess.length → (rounds j).newFile = [] := by
  induction fuel generalizing i s with
  | zero => exact iff_of_true placedNil (fun m later inside => by omega)
  | succ fuel ih =>
    cases here : s.tables.listProcess[i]? with
    | none =>
      rw [notesEnd here]
      have outside := List.getElem?_eq_none_iff.mp here
      exact iff_of_true placedNil (fun m later inside => by omega)
    | some p =>
      obtain ⟨inside,_⟩ := List.getElem?_eq_some_iff.mp here
      by_cases quiet : (rounds i).newFile = []
      · have next := ih (i := i+1) (s := {s with acts := s.acts ++ [.asked p.pName p.num1 p.num2 p.num3]}) path
          (by dsimp only; omega)
        rw [notesQuiet here quiet,placedAsked,next]
        refine ⟨fun all m later inner first none_ => ?_,fun all m later inner first none_ => ?_⟩
        · have after : i + 1 ≤ m := Nat.lt_of_le_of_ne later (fun same => first (same ▸ quiet))
          exact all m after inner first (fun k beyond => none_ k (by omega))
        · refine all m (by omega) inner first (fun k beyond earlier => ?_)
          rcases Nat.eq_or_lt_of_le beyond with rfl | after
          · exact quiet
          · exact none_ k after earlier
      · rw [notesFirstAnswer path enough here quiet]
        refine ⟨fun all m later inner first none_ => ?_,fun all => all i (Nat.le_refl i) inside quiet (by omega)⟩
        rcases Nat.eq_or_lt_of_le later with rfl | after
        · exact all
        · exact absurd (none_ i (Nat.le_refl i) after) quiet

theorem downloadsExactly (rounds : Nat → Round) (t : Tables) :
    DownloadsApart rounds t ↔ SingleAnswer rounds t := by
  change Placed (passNotes rounds t) ↔ _
  unfold SingleAnswer passNotes
  rw [notesDownloads rounds (s := ⟨t,agentchildForder,[]⟩) ((List.range t.listProcess.length).map some) rfl
    (Nat.le_of_eq (Nat.zero_add _).symm)]
  refine forall_congr' (fun i => ?_)
  constructor
  · intro all inside listed answered first
    exact (answersRenewed inside).mp (fun t' => all (Nat.zero_le i) inside answered (fun k _ => first k) t' listed)
  · intro all _ inside answered first t' listed
    exact (answersRenewed inside).mpr (all inside listed answered (fun k => first k (Nat.zero_le k))) t'

def threeRunning : Tables :=
  ⟨[listedLib 0 "a",listedLib 0 "b",listedLib 0 "c"],[listedLib 100 "a",listedLib 101 "b",listedLib 102 "c"]⟩
def renewTwo (i : Nat) : Round :=
  ⟨if i = 0 then "a-1.0.1.so".toList else if i = 1 then "c-1.0.1.so".toList else [],
    lookOf ["a-1.0.1.so","b-1.0.0.so"]⟩

theorem secondDownloadMisplaced :
    .opened "c-1.0.1.so".toList (agentchildForder ++ "a-1.0.1.soc-1.0.1.so".toList) ∈ passNotes renewTwo threeRunning ∧
    ¬ DownloadsApart renewTwo threeRunning := by
  have mem : .opened "c-1.0.1.so".toList (agentchildForder ++ "a-1.0.1.soc-1.0.1.so".toList) ∈
      passNotes renewTwo threeRunning := by
    have shown : (passNotes renewTwo threeRunning)[3]? =
      some (.opened "c-1.0.1.so".toList (agentchildForder ++ "a-1.0.1.soc-1.0.1.so".toList)) := rfl
    exact List.mem_of_getElem? shown
  refine ⟨mem,fun apart => ?_⟩
  have same := apart _ _ mem
  contradiction

end PracticeSuite.Agent
