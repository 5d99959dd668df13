import PracticeSuite.SudokuRun

/-! The counters of the solver: after the start and any eliminations, each tells
exactly what the candidate table and the fixed cells hold. -/
namespace PracticeSuite.Sudoku

def nominees (s : Solver) (xs : List (Fin 9 × Fin 9)) : Int := (xs.map (fun c => s.nominee c.1 c.2)).sum

def fixedCells (s : Solver) (xs : List (Fin 9 × Fin 9)) : Nat := xs.countP (fun c => s.checked c.1 c.2 ≠ 0)

def Own (s : Solver) (i j : Fin 9) : Prop := ∀ m, s.data i j m = true ↔ s.checked i j = m.succ

structure Booked (s : Solver) : Prop where
  unfixed : Counted s
  fixed : ∀ i j, s.checked i j ≠ 0 → s.nominee i j = 0 ∧ Own s i j
  possibilities : s.countPossibility = nominees s cells
  fixedCount : s.countCell = fixedCells s cells

theorem clearNominees {s i j n} {xs : List (Fin 9 × Fin 9)} (nodup : xs.Nodup) :
    nominees (clear s i j n) xs = if (i,j) ∈ xs then nominees s xs - 1 else nominees s xs := by
  induction xs with
  | nil => simp [nominees]
  | cons c rest ih =>
    obtain ⟨fresh,nodup⟩ := List.nodup_cons.mp nodup
    have rest_ := ih nodup
    simp only [nominees,List.map_cons,List.sum_cons] at rest_ ⊢
    rw [rest_]
    by_cases here : (i,j) = c
    · subst here
      simp only [fresh,if_false,List.mem_cons_self,if_true,clear,putSame]
      omega
    · have other : (c.1,c.2) ≠ (i,j) := fun same => here same.symm
      simp only [List.mem_cons,here,false_or,clear,putOther _ _ other]
      split <;> omega

theorem Elims.booked {s t} (h : Elims s t) (booked : Booked s) : Booked t := by
  induction h with
  | refl => exact booked
  | @cut t earlier i j n unfixed held needless ih =>
    have step : Elims t (clear t i j n) := .cut .refl i j n unfixed held needless
    refine ⟨step.counted ih.unfixed,fun a b fixed => ?_,?_,ih.fixedCount⟩
    · have cell : (a,b) ≠ (i,j) := by
        intro same
        cases same
        exact fixed unfixed
      obtain ⟨none_,own⟩ := ih.fixed a b fixed
      refine ⟨?_,fun m => ?_⟩
      · simp only [clear,putOther _ _ cell]
        exact none_
      · rw [clearData,if_neg (fun same => cell (Prod.ext same.1 same.2.1))]
        exact own m
    · rw [clearNominees nodupCells,if_pos (memCells (i,j)),← ih.possibilities]
      rfl

theorem fillCounts (i j : Fin 9) (ns : List (Fin 9)) (s : Solver) :
    (ns.foldl (fill i j) s).countCell = s.countCell ∧
    (ns.foldl (fill i j) s).countPossibility = s.countPossibility + ns.length := by
  induction ns generalizing s with
  | nil => simp
  | cons n rest ih =>
    obtain ⟨cell,possibility⟩ := ih (fill i j s n)
    refine ⟨cell,?_⟩
    rw [List.foldl_cons,possibility]
    simp only [fill,List.length_cons]
    omega

theorem startCounts (xs : List (Fin 9 × Fin 9)) (s : Solver) :
    (xs.foldl startCell s).countCell = s.countCell + fixedCells s xs ∧
    (xs.foldl startCell s).countPossibility = s.countPossibility + 9 * (xs.length - fixedCells s xs) := by
  induction xs generalizing s with
  | nil => simp [fixedCells]
  | cons c rest ih =>
    obtain ⟨i,j⟩ := c
    obtain ⟨cell,possibility⟩ := ih (startCell s (i,j))
    have checked := (startCellSpec s (i,j)).1
    have kept : fixedCells (startCell s (i,j)) rest = fixedCells s rest := by
      unfold fixedCells
      rw [checked]
    rw [List.foldl_cons,cell,possibility,kept]
    unfold startCell
    dsimp only
    split
    · rename_i fixed
      have one : fixedCells s ((i,j)::rest) = fixedCells s rest + 1 := by simp [fixedCells,fixed]
      rw [one,List.length_cons]
      refine ⟨?_,?_⟩ <;> push_cast <;> ring
    · rename_i free
      have none_ : fixedCells s ((i,j)::rest) = fixedCells s rest := by simp [fixedCells,free]
      obtain ⟨same,more⟩ := fillCounts i j (List.finRange 9) s
      rw [none_,List.length_cons,same,more,List.length_finRange]
      refine ⟨rfl,?_⟩
      push_cast
      ring

theorem nomineesStart {s t : Solver} (xs : List (Fin 9 × Fin 9))
    (each : ∀ a b, t.nominee a b = if s.checked a b = 0 then 9 else 0) :
    nominees t xs = 9 * (xs.length - fixedCells s xs) := by
  induction xs with
  | nil => simp [nominees,fixedCells]
  | cons c rest ih =>
    simp only [nominees,fixedCells,List.map_cons,List.sum_cons,List.countP_cons,List.length_cons] at ih ⊢
    rw [ih,each]
    by_cases free : s.checked c.1 c.2 = 0
    · simp only [free,if_true,ne_eq,not_true_eq_false,decide_false,Bool.false_eq_true,if_false]
      push_cast
      ring
    · simp only [free,if_false,ne_eq,not_false_eq_true,decide_true,if_true]
      push_cast
      ring

structure Drafted (s : Solver) : Prop where
  own : ∀ i j, Own s i j
  nominee : ∀ i j, s.nominee i j = 9
  cell : s.countCell = 0
  possibility : s.countPossibility = 0

theorem unitDrafted {s i j n} (drafted : Drafted s) (free : s.checked i j = 0) :
    Drafted (unit s (i,j,n)) := by
  refine ⟨fun a b m => ?_,drafted.nominee,drafted.cell,drafted.possibility⟩
  simp only [unit,putCandidateAt]
  by_cases here : (a,b) = (i,j)
  · cases here
    rw [putSame]
    by_cases same : m = n
    · simp [same]
    · have blank : s.data i j m = false := by
        rw [Bool.eq_false_iff]
        intro held
        have value := (drafted.own i j m).mp held
        rw [free] at value
        exact Fin.succ_ne_zero m value.symm
      simp [same,blank,Ne.symm same]
  · rw [putOther _ _ here,if_neg (fun same => here (Prod.ext same.1 same.2.1))]
    exact drafted.own a b m

theorem givensDrafted {givens : List (Fin 9 × Fin 9 × Fin 9)} (once : (givens.map (fun x => (x.1,x.2.1))).Nodup) :
    Drafted (givens.foldl unit new) := by
  have blank : Drafted new :=
    ⟨fun i j m => ⟨fun held => by contradiction,fun value => absurd value.symm (Fin.succ_ne_zero m)⟩,
      fun _ _ => rfl,rfl,rfl⟩
  suffices later : ∀ s, Drafted s → (∀ x ∈ givens, s.checked x.1 x.2.1 = 0) → Drafted (givens.foldl unit s) from
    later new blank (fun _ _ => rfl)
  induction givens with
  | nil => exact fun s drafted _ => drafted
  | cons x rest ih =>
    obtain ⟨i,j,n⟩ := x
    obtain ⟨fresh,once⟩ := List.nodup_cons.mp once
    intro s drafted free
    refine ih once (unit s (i,j,n)) (unitDrafted drafted (free (i,j,n) List.mem_cons_self)) (fun y mem => ?_)
    have other : (y.1,y.2.1) ≠ (i,j) := fun same => fresh (List.mem_map.mpr ⟨y,mem,same⟩)
    simp only [unit,putOther _ _ other]
    exact free y (List.mem_cons_of_mem _ mem)

theorem startBooked {s : Solver} (drafted : Drafted s) : Booked (start s) := by
  obtain ⟨checked,nominee,data⟩ := startSpec s
  obtain ⟨cell,possibility⟩ := startCounts cells s
  simp only [drafted.nominee] at nominee
  refine ⟨fun i j unfixed => ?_,fun i j fixed => ?_,?_,?_⟩
  · rw [checked] at unfixed
    have all : (start s).data i j = fun _ => true := by
      funext m
      rw [data,if_pos unfixed]
    rw [nominee,if_pos unfixed,all]
    rfl
  · rw [checked] at fixed
    refine ⟨by rw [nominee,if_neg fixed],fun m => ?_⟩
    rw [data,if_neg fixed,checked]
    exact drafted.own i j m
  · rw [nomineesStart cells nominee]
    unfold start
    rw [possibility,drafted.possibility,zero_add]
  · have same : fixedCells (start s) cells = fixedCells s cells := by
      unfold fixedCells
      rw [checked]
    rw [same]
    unfold start
    rw [cell,drafted.cell,zero_add]

theorem bookkeeping (givens : List (Fin 9 × Fin 9 × Fin 9)) (once : (givens.map (fun x => (x.1,x.2.1))).Nodup)
    (calls : List Call) (eliminating : ∀ c ∈ calls, c ≠ .checkCell) :
    Booked (Trace.run call (given givens) calls) :=
  (runElims eliminating).booked (startBooked (givensDrafted once))

theorem bookkeepingFirstRow : Booked (Trace.run call (given firstRow) [.checkPossible,.hiddenSingle]) :=
  bookkeeping firstRow (by decide) [.checkPossible,.hiddenSingle] (by decide)

end PracticeSuite.Sudoku
