import PracticeSuite.SudokuSound

/-! Runs of the solver from a set of givens. The elimination passes keep every
completion and the candidate counts; promotion of a single candidate stores its
0-based index where all readers expect the 1-based value. -/
namespace PracticeSuite.Sudoku

theorem fillFold (i j : Fin 9) (ns : List (Fin 9)) (s : Solver) :
    (ns.foldl (fill i j) s).checked = s.checked ∧ (ns.foldl (fill i j) s).nominee = s.nominee ∧
    ∀ a b m, (ns.foldl (fill i j) s).data a b m =
      if a = i ∧ b = j ∧ m ∈ ns then true else s.data a b m := by
  induction ns generalizing s with
  | nil => simp
  | cons n rest ih =>
    obtain ⟨checked,nominee,data⟩ := ih (fill i j s n)
    refine ⟨checked,nominee,fun a b m => ?_⟩
    have here : (fill i j s n).data a b m = if a = i ∧ b = j ∧ m = n then true else s.data a b m :=
      putCandidateAt s.data i j n true a b m
    rw [List.foldl_cons,data,here]
    grind

theorem startCellSpec (s : Solver) (c : Fin 9 × Fin 9) :
    (startCell s c).checked = s.checked ∧
    (∀ a b, (startCell s c).nominee a b =
      if (a,b) = c ∧ s.checked a b ≠ 0 then 0 else s.nominee a b) ∧
    ∀ a b m, (startCell s c).data a b m =
      if (a,b) = c ∧ s.checked a b = 0 then true else s.data a b m := by
  obtain ⟨i,j⟩ := c
  unfold startCell
  dsimp only
  split
  · rename_i fixed
    refine ⟨rfl,fun a b => ?_,fun a b m => ?_⟩
    · by_cases cell : (a,b) = (i,j)
      · cases cell
        simp [fixed]
      · simp only [putOther _ _ cell,cell,false_and,if_false]
    · by_cases cell : (a,b) = (i,j)
      · cases cell
        simp [fixed]
      · simp only [cell,false_and,if_false]
  · rename_i unfixed
    rw [not_ne_iff] at unfixed
    obtain ⟨checked,nominee,data⟩ := fillFold i j (List.finRange 9) s
    refine ⟨checked,fun a b => ?_,fun a b m => ?_⟩
    · rw [nominee]
      by_cases cell : (a,b) = (i,j)
      · cases cell
        simp [unfixed]
      · simp only [cell,false_and,if_false]
    · rw [data]
      by_cases cell : (a,b) = (i,j)
      · cases cell
        simp [unfixed]
      · rw [if_neg (fun h => cell (Prod.ext h.1 h.2.1)),if_neg (fun h => cell h.1)]

theorem startFold (xs : List (Fin 9 × Fin 9)) (s : Solver) :
    (xs.foldl startCell s).checked = s.checked ∧
    (∀ a b, (xs.foldl startCell s).nominee a b =
      if (a,b) ∈ xs ∧ s.checked a b ≠ 0 then 0 else s.nominee a b) ∧
    ∀ a b m, (xs.foldl startCell s).data a b m =
      if (a,b) ∈ xs ∧ s.checked a b = 0 then true else s.data a b m := by
  induction xs generalizing s with
  | nil => simp
  | cons c rest ih =>
    obtain ⟨checked,nominee,data⟩ := ih (startCell s c)
    obtain ⟨checkedHere,nomineeHere,dataHere⟩ := startCellSpec s c
    refine ⟨checked.trans checkedHere,fun a b => ?_,fun a b m => ?_⟩
    · rw [List.foldl_cons,nominee,nomineeHere,checkedHere]
      grind
    · rw [List.foldl_cons,data,dataHere,checkedHere]
      grind

theorem startSpec (s : Solver) :
    (start s).checked = s.checked ∧
    (∀ a b, (start s).nominee a b = if s.checked a b = 0 then s.nominee a b else 0) ∧
    ∀ a b m, (start s).data a b m = if s.checked a b = 0 then true else s.data a b m := by
  obtain ⟨checked,nominee,data⟩ := startFold cells s
  unfold start
  refine ⟨checked,fun a b => ?_,fun a b m => ?_⟩
  · rw [nominee]
    by_cases unfixed : s.checked a b = 0 <;> simp [memCells,unfixed]
  · rw [data]
    by_cases unfixed : s.checked a b = 0 <;> simp [memCells,unfixed]

def Counted (s : Solver) : Prop :=
  ∀ i j, s.checked i j = 0 → s.nominee i j = (List.finRange 9).countP (s.data i j)

theorem countCleared {xs : List (Fin 9)} (nodup : xs.Nodup) {p : Fin 9 → Bool} {n : Fin 9} (mem : n ∈ xs)
    (held : p n = true) : xs.countP p = xs.countP (fun m => if m = n then false else p m) + 1 := by
  induction xs with
  | nil => simp at mem
  | cons x rest ih =>
    obtain ⟨fresh,nodup⟩ := List.nodup_cons.mp nodup
    rcases List.mem_cons.mp mem with rfl | inside
    · have same : rest.countP p = rest.countP (fun m => if m = n then false else p m) := by
        apply List.countP_congr
        intro m mem
        have other : m ≠ n := fun eq => fresh (eq ▸ mem)
        rw [if_neg other]
      simp [held,same]
    · have other : x ≠ n := fun eq => fresh (eq ▸ inside)
      simp only [List.countP_cons,ih nodup inside,if_neg other]
      omega

theorem Elims.counted {s t} (h : Elims s t) (counted : Counted s) : Counted t := by
  induction h with
  | refl => exact counted
  | @cut t _ i j n unfixed held needless ih =>
    intro a b free
    have before := ih a b free
    by_cases cell : (a,b) = (i,j)
    · cases cell
      have count := countCleared (List.nodup_finRange 9) (List.mem_finRange n) held
      have data : (clear t i j n).data i j = fun m => if m = n then false else t.data i j m := by
        funext m
        simp [clearData]
      rw [data]
      simp only [clear,putSame]
      omega
    · have data : (clear t i j n).data a b = t.data a b := by
        funext m
        rw [clearData,if_neg (fun same => cell (Prod.ext same.1 same.2.1))]
      rw [data]
      simp only [clear,putOther _ _ cell]
      exact before

structure Ready (g : Grid) (s : Solver) : Prop where
  sound : Sound g s
  counted : Counted s

theorem Ready.elims {g s t} (ready : Ready g s) (h : Elims s t) : Ready g t :=
  ⟨h.soundIff.mpr ready.sound,h.counted ready.counted⟩

structure Placed (g : Grid) (s : Solver) : Prop where
  cell : ∀ i j, s.checked i j = 0 ∨ (s.checked i j = g.value i j ∧ s.data i j (g.digit i j) = true)
  nominee : ∀ i j, s.nominee i j = 9

theorem unitPlaced {g s} (placed : Placed g s) {given : Fin 9 × Fin 9 × Fin 9}
    (extends_ : g.digit given.1 given.2.1 = given.2.2) : Placed g (unit s given) := by
  obtain ⟨i,j,n⟩ := given
  refine ⟨fun a b => ?_,placed.nominee⟩
  simp only [unit,putCandidateAt]
  by_cases here : (a,b) = (i,j)
  · cases here
    exact Or.inr ⟨by simpa [Grid.value] using extends_.symm,by simp [extends_]⟩
  · rw [putOther _ _ here,if_neg (fun same => here (Prod.ext same.1 same.2.1))]
    exact placed.cell a b

def given (givens : List (Fin 9 × Fin 9 × Fin 9)) : Solver := start (givens.foldl unit new)

theorem givensPlaced {g : Grid} {givens : List (Fin 9 × Fin 9 × Fin 9)}
    (extends_ : ∀ x ∈ givens, g.digit x.1 x.2.1 = x.2.2) : Placed g (givens.foldl unit new) := by
  suffices later : ∀ s, Placed g s → Placed g (givens.foldl unit s) from
    later new ⟨fun _ _ => Or.inl rfl,fun _ _ => rfl⟩
  induction givens with
  | nil => exact fun s placed => placed
  | cons x rest ih =>
    intro s placed
    exact ih (fun y mem => extends_ y (List.mem_cons_of_mem x mem)) _
      (unitPlaced placed (extends_ x List.mem_cons_self))

theorem givenReady {g : Grid} (givens : List (Fin 9 × Fin 9 × Fin 9))
    (extends_ : ∀ x ∈ givens, g.digit x.1 x.2.1 = x.2.2) : Ready g (given givens) := by
  have placed := givensPlaced extends_
  unfold given
  generalize givens.foldl unit new = s at placed
  obtain ⟨checked,nominee,data⟩ := startSpec s
  refine ⟨⟨fun i j => ?_,fun i j => ?_⟩,fun i j unfixed => ?_⟩
  · rw [data]
    split
    · rfl
    · exact ((placed.cell i j).resolve_left ‹_›).2
  · rw [checked]
    exact (placed.cell i j).imp_right And.left
  · rw [checked] at unfixed
    have all : (start s).data i j = fun _ => true := by
      funext m
      rw [data,if_pos unfixed]
    rw [nominee,if_pos unfixed,placed.nominee,all]
    rfl

def Single (s : Solver) (i j : Fin 9) : Prop := s.checked i j = 0 ∧ s.nominee i j = 1
instance (s i j) : Decidable (Single s i j) := by unfold Single; infer_instance

theorem checkCellAtSpec (r : Solver × Option Bool) (c : Fin 9 × Fin 9) :
    (checkCellAt r c).1.data = r.1.data ∧
    ∀ a b, ((checkCellAt r c).1.checked a b,(checkCellAt r c).1.nominee a b) =
      if (a,b) = c ∧ Single r.1 a b then (firstCandidate (r.1.data a b),0)
      else (r.1.checked a b,r.1.nominee a b) := by
  obtain ⟨i,j⟩ := c
  obtain ⟨s,res⟩ := r
  unfold checkCellAt
  dsimp only
  split
  · rename_i fixed
    refine ⟨rfl,fun a b => ?_⟩
    rw [if_neg]
    intro here
    obtain ⟨cell,single⟩ := here
    cases cell
    exact fixed single.1
  · rename_i unfixed
    rw [not_ne_iff] at unfixed
    split
    · rename_i one
      refine ⟨rfl,fun a b => ?_⟩
      by_cases cell : (a,b) = (i,j)
      · cases cell
        simp [Single,unfixed,one]
      · simp only [putOther _ _ cell,cell,false_and,if_false]
    · rename_i many
      refine ⟨rfl,fun a b => ?_⟩
      rw [if_neg]
      intro here
      obtain ⟨cell,single⟩ := here
      cases cell
      exact many single.2

theorem checkCellFold {xs : List (Fin 9 × Fin 9)} (nodup : xs.Nodup) (r : Solver × Option Bool) :
    (xs.foldl checkCellAt r).1.data = r.1.data ∧
    ∀ a b, ((xs.foldl checkCellAt r).1.checked a b,(xs.foldl checkCellAt r).1.nominee a b) =
      if (a,b) ∈ xs ∧ Single r.1 a b then (firstCandidate (r.1.data a b),0)
      else (r.1.checked a b,r.1.nominee a b) := by
  induction xs generalizing r with
  | nil => simp
  | cons c rest ih =>
    obtain ⟨fresh,nodup⟩ := List.nodup_cons.mp nodup
    obtain ⟨dataHere,here⟩ := checkCellAtSpec r c
    obtain ⟨data,later⟩ := ih nodup (checkCellAt r c)
    refine ⟨data.trans dataHere,fun a b => ?_⟩
    have first := here a b
    rw [List.foldl_cons,later a b,dataHere]
    by_cases cell : (a,b) = c
    · have gone : (a,b) ∉ rest := cell ▸ fresh
      rw [if_neg (fun h => gone h.1),first]
      simp [cell]
    · rw [if_neg (fun h => cell h.1)] at first
      obtain ⟨checked,nominee⟩ := Prod.mk.inj first
      simp only [Single,checked,nominee,List.mem_cons,cell,false_or]

theorem checkCellChecked (s a b) :
    (checkCell s).1.checked a b = if Single s a b then firstCandidate (s.data a b) else s.checked a b := by
  have spec := congrArg Prod.fst ((checkCellFold nodupCells (s,none)).2 a b)
  unfold checkCell
  dsimp only at spec
  rw [spec]
  split <;> split <;> simp_all [memCells]

theorem checkCellIdle {s} (idle : ∀ i j, ¬ Single s i j) : checkCell s = (s,none) := by
  have stays : ∀ xs : List (Fin 9 × Fin 9), xs.foldl checkCellAt (s,none) = (s,none) := by
    intro xs
    induction xs with
    | nil => rfl
    | cons c rest ih =>
      obtain ⟨i,j⟩ := c
      have here : checkCellAt (s,none) (i,j) = (s,none) := by
        unfold checkCellAt
        dsimp only
        split
        · rfl
        · rename_i unfixed
          rw [if_neg (fun one => idle i j ⟨not_ne_iff.mp unfixed,one⟩)]
      rw [List.foldl_cons,here,ih]
  exact stays cells

theorem singleCandidate {g s i j} (ready : Ready g s) (single : Single s i j) :
    firstCandidate (s.data i j) = (g.digit i j).castSucc := by
  have one : (List.finRange 9).countP (s.data i j) = 1 := by
    have counted := ready.counted i j single.1
    rw [single.2] at counted
    omega
  have held := ready.sound.admits i j
  unfold firstCandidate
  cases found : (List.finRange 9).find? (s.data i j) with
  | none => exact absurd held (List.find?_eq_none.mp found _ (List.mem_finRange _))
  | some k =>
    have only : k = g.digit i j := onlyOne one held (List.find?_some found)
    rw [only]

def Faithful (g : Grid) (s : Solver) : Prop := ∀ i j, s.checked i j ≠ 0 → s.checked i j = g.value i j

def SolvedKept (s : Solver) : Prop :=
  ∀ before i j after, cells = before ++ (i,j) :: after →
    Single (before.foldl checkCellAt (s,none)).1 i j → (checkCell s).1.checked i j ≠ 0

def Correct (g : Grid) : Solver → List Call → Prop
  | s,[] => Faithful g s
  | s,c::rest => Faithful g s ∧ (c = .checkCell → SolvedKept s) ∧ Correct g (call s c) rest

def NoPromotion : Solver → List Call → Prop
  | _,[] => True
  | s,c::rest => (c = .checkCell → ∀ i j, ¬ Single s i j) ∧ NoPromotion (call s c) rest

theorem Correct.faithful {g s calls} (correct : Correct g s calls) : Faithful g s := by
  cases calls with
  | nil => exact correct
  | cons c rest => exact correct.1

theorem Ready.faithful {g s} (ready : Ready g s) : Faithful g s :=
  fun i j fixed => (ready.sound.fixed i j).resolve_left fixed

theorem visited {s before i j after} (split : cells = before ++ (i,j) :: after) :
    Single (before.foldl checkCellAt (s,none)).1 i j ↔ Single s i j := by
  have nodup := nodupCells
  rw [split] at nodup
  have fresh : (i,j) ∉ before := fun mem =>
    (List.nodup_append.mp nodup).2.2 _ mem _ List.mem_cons_self rfl
  have same := (checkCellFold (List.nodup_append.mp nodup).1 (s,none)).2 i j
  rw [if_neg (fun h => fresh h.1)] at same
  obtain ⟨checked,nominee⟩ := Prod.mk.inj same
  simp only [Single,checked,nominee]

theorem promotionBreaks {g s i j} (ready : Ready g s) (single : Single s i j)
    (kept : SolvedKept s) (faithful : Faithful g (checkCell s).1) : False := by
  obtain ⟨before,after,split⟩ := List.append_of_mem (memCells (i,j))
  have fixed := kept before i j after split ((visited split).mpr single)
  have value := faithful i j fixed
  rw [checkCellChecked,if_pos single,singleCandidate ready single] at value
  have same := congrArg Fin.val value
  simp only [Grid.value,Fin.val_castSucc,Fin.val_succ] at same
  omega

theorem correctIff {g s} (ready : Ready g s) (calls : List Call) : Correct g s calls ↔ NoPromotion s calls := by
  induction calls generalizing s with
  | nil => exact ⟨fun _ => trivial,fun _ => ready.faithful⟩
  | cons c rest ih =>
    by_cases promote : c = .checkCell
    · subst promote
      refine ⟨fun correct => ?_,fun quiet => ?_⟩
      · have idle : ∀ i j, ¬ Single s i j := fun i j single =>
          promotionBreaks ready single (correct.2.1 rfl) correct.2.2.faithful
        have same : call s .checkCell = s := by rw [call,checkCellIdle idle]
        have later := correct.2.2
        rw [same] at later
        exact ⟨fun _ => idle,by rw [same]; exact (ih ready).mp later⟩
      · have idle := quiet.1 rfl
        have same : call s .checkCell = s := by rw [call,checkCellIdle idle]
        have later := quiet.2
        rw [same] at later
        exact ⟨ready.faithful,fun _ before i j after split single =>
          absurd ((visited split).mp single) (idle i j),by rw [same]; exact (ih ready).mpr later⟩
    · have next := ih (ready.elims (callElims promote))
      exact ⟨fun correct => ⟨fun h => absurd h promote,next.mp correct.2.2⟩,
        fun quiet => ⟨ready.faithful,fun h => absurd h promote,next.mpr quiet.2⟩⟩

theorem correctExactlyWithoutPromotion (givens : List (Fin 9 × Fin 9 × Fin 9)) (g : Grid)
    (extends_ : ∀ x ∈ givens, g.digit x.1 x.2.1 = x.2.2) (calls : List Call) :
    Correct g (given givens) calls ↔ NoPromotion (given givens) calls :=
  correctIff (givenReady givens extends_) calls

def fourOnes : List (Fin 9 × Fin 9 × Fin 9) := [(1,6,0),(2,3,0),(5,2,0),(8,1,0)]

theorem fourOnesExtended : ∀ x ∈ fourOnes, rotated.digit x.1 x.2.1 = x.2.2 := by decide +kernel

theorem fourOnesChecked (i j) : (given fourOnes).checked i j = if (i,j,0) ∈ fourOnes then 1 else 0 := by
  rw [given,(startSpec _).1]
  revert i j
  decide +kernel

theorem fourOnesHeld {a b v} (unfixed : (given fourOnes).checked a b = 0) (other : v ≠ 0) :
    (checkPossible (given fourOnes)).1.data a b v = true := by
  rw [checkPossibleData,if_neg]
  · rw [fourOnesChecked] at unfixed
    rw [given,(startSpec _).2.2,← (startSpec (fourOnes.foldl unit new)).1,← given,fourOnesChecked,if_pos unfixed]
  · rintro ⟨-,c,-,fixed,-⟩
    rw [fourOnesChecked] at fixed
    split at fixed
    · exact other (Fin.succ_injective 9 fixed.symm)
    · exact Fin.succ_ne_zero v fixed.symm

theorem fourOnesIdle (i j) : ¬ Single (checkPossible (given fourOnes)).1 i j := by
  rintro ⟨unfixed,one⟩
  have elims := checkPossibleElims (given fourOnes)
  rw [((givenReady fourOnes fourOnesExtended).elims elims).counted i j unfixed] at one
  rw [elims.checked] at unfixed
  have two : List.countP ((checkPossible (given fourOnes)).1.data i j) [1,2] = 2 := by
    simp [fourOnesHeld unfixed]
  have more := List.Sublist.countP_le (p := (checkPossible (given fourOnes)).1.data i j)
    (show List.Sublist [1,2] (List.finRange 9) by decide)
  omega

theorem correctFourOnes : Correct rotated (given fourOnes) [.checkPossible,.checkCell] ∧
    (given fourOnes).data 1 0 0 = true ∧ (checkPossible (given fourOnes)).1.data 1 0 0 = false := by
  refine ⟨(correctExactlyWithoutPromotion fourOnes rotated fourOnesExtended _).mpr ?_,?_,?_⟩
  · exact ⟨fun h => by contradiction,fun _ => fourOnesIdle,trivial⟩
  · rw [given,(startSpec _).2.2]
    decide
  · exact struckByPeer 1 6 (by rw [fourOnesChecked]; decide) (by rw [fourOnesChecked]; decide) (by decide)

def firstRow : List (Fin 9 × Fin 9 × Fin 9) :=
  [(0,0,0),(0,1,1),(0,2,2),(0,3,3),(0,4,4),(0,5,5),(0,6,6),(0,7,7)]

theorem firstRowExtended : ∀ x ∈ firstRow, rotated.digit x.1 x.2.1 = x.2.2 := by decide +kernel

theorem firstRowSingle : Single (checkPossible (given firstRow)).1 0 8 := by
  have ready := givenReady firstRow firstRowExtended
  have elims := checkPossibleElims (given firstRow)
  obtain ⟨checked,_,data⟩ := startSpec (firstRow.foldl unit new)
  have unfixed : (given firstRow).checked 0 8 = 0 := by
    rw [given,checked]
    decide
  have one : (List.finRange 9).countP ((checkPossible (given firstRow)).1.data 0 8) = 1 := by
    have row : (checkPossible (given firstRow)).1.data 0 8 = fun m => decide (m = 8) := by
      funext m
      by_cases last : m = 8
      · subst last
        rw [checkPossibleData,if_neg]
        · rw [given,data]
          decide
        · rw [given,checked]
          decide +kernel
      · have fixed : (given firstRow).checked 0 m = m.succ := by
          rw [given,checked]
          revert m
          decide +kernel
        have peer : ((0,8) : Fin 9 × Fin 9) ∈ peers (0,m) := by
          revert m
          decide +kernel
        rw [struckByPeer 0 m unfixed fixed peer]
        simp [last]
    rw [row]
    decide
  have free := elims.checkedAt unfixed
  exact ⟨free,by rw [elims.counted ready.counted 0 8 free,one]; rfl⟩

theorem promotionStoresIndex :
    (∀ x ∈ firstRow, rotated.digit x.1 x.2.1 = x.2.2) ∧
    ¬ Correct rotated (given firstRow) [.checkPossible,.checkCell] := by
  refine ⟨firstRowExtended,fun correct => ?_⟩
  have quiet := (correctIff (givenReady firstRow firstRowExtended) _).mp correct
  exact quiet.2.1 rfl 0 8 firstRowSingle

end PracticeSuite.Sudoku
