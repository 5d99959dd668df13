import PracticeSuite.Elimination
import PracticeSuite.Sudoku

/-! What the two elimination passes may do to a board: clear, one at a time,
candidates of unfixed cells that no completion needs. Each clearing is justified
on the board as it then stands, in the middle of the loops. -/
namespace PracticeSuite.Sudoku

structure Grid where
  digit : Fin 9 → Fin 9 → Fin 9
  rows : ∀ i, Elimination.Distinct (fun c : Fin 9 × Fin 9 => digit c.1 c.2) (fun j : Fin 9 => (i,j))
  columns : ∀ j, Elimination.Distinct (fun c : Fin 9 × Fin 9 => digit c.1 c.2) (fun i : Fin 9 => (i,j))
  boxes : ∀ i j, Elimination.Distinct (fun c : Fin 9 × Fin 9 => digit c.1 c.2)
    (fun p : Fin 3 × Fin 3 => (boxIndex i p.1,boxIndex j p.2))

def Grid.value (g : Grid) (i j : Fin 9) : Fin 10 := (g.digit i j).succ

structure Sound (g : Grid) (s : Solver) : Prop where
  admits : ∀ i j, s.data i j (g.digit i j) = true
  fixed : ∀ i j, s.checked i j = 0 ∨ s.checked i j = g.value i j

theorem Sound.fixedDigit {g s i j n} (sound : Sound g s) (fixed : s.checked i j = n.succ) :
    g.digit i j = n := by
  have value := (sound.fixed i j).resolve_left (by rw [fixed]; exact Fin.succ_ne_zero n)
  exact Fin.succ_injective 9 (value.symm.trans fixed)

theorem clearData (s i j n a b m) :
    (clear s i j n).data a b m = if a = i ∧ b = j ∧ m = n then false else s.data a b m :=
  putCandidateAt s.data i j n false a b m

inductive Elims (s : Solver) : Solver → Prop
  | refl : Elims s s
  | cut {t : Solver} (earlier : Elims s t) (i j n : Fin 9) (unfixed : t.checked i j = 0)
      (held : t.data i j n = true) (needless : ∀ g, Sound g t → g.digit i j ≠ n) :
      Elims s (clear t i j n)

theorem Elims.trans {s t u} (first : Elims s t) (second : Elims t u) : Elims s u := by
  induction second with
  | refl => exact first
  | cut _ i j n unfixed held needless ih => exact .cut ih i j n unfixed held needless

theorem Elims.checked {s t} (h : Elims s t) : t.checked = s.checked := by
  induction h with
  | refl => rfl
  | cut _ i j n unfixed held needless ih => exact ih

theorem Elims.checkedAt {s t i j v} (h : Elims s t) (before : s.checked i j = v) : t.checked i j = v := by
  rw [h.checked]
  exact before

theorem Elims.soundIff {s t g} (h : Elims s t) : Sound g t ↔ Sound g s := by
  induction h with
  | refl => exact Iff.rfl
  | @cut t _ i j n unfixed held needless ih =>
    rw [← ih]
    refine ⟨fun sound => ⟨fun a b => ?_,sound.fixed⟩,fun sound => ⟨fun a b => ?_,sound.fixed⟩⟩
    · have kept := sound.admits a b
      rw [clearData] at kept
      split at kept <;> try contradiction
      exact kept
    · rw [clearData,if_neg]
      · exact sound.admits a b
      · intro same
        obtain ⟨rfl,rfl,digit⟩ := same
        exact needless g sound digit

theorem foldElims {α : Type} {f : Solver → α → Solver} {s : Solver} (xs : List α)
    (each : ∀ t, ∀ x ∈ xs, Elims s t → Elims t (f t x)) : Elims s (xs.foldl f s) := by
  suffices later : ∀ t, Elims s t → Elims s (xs.foldl f t) from later s .refl
  induction xs with
  | nil => exact fun t earlier => earlier
  | cons x rest ih =>
    intro t earlier
    have here := each t x List.mem_cons_self earlier
    exact ih (fun t y mem => each t y (List.mem_cons_of_mem x mem)) (f t x) (earlier.trans here)

theorem strikeElims {n s c} (needless : s.checked c.1 c.2 = 0 → ∀ g, Sound g s → g.digit c.1 c.2 ≠ n) :
    Elims s (strike n s c) := by
  unfold strike
  split
  · rename_i live
    exact .cut .refl c.1 c.2 n live.1 live.2 (needless live.1)
  · exact .refl

theorem boxIndexSelf (i : Fin 9) : boxIndex i ⟨i.val%3,Nat.mod_lt _ (by decide)⟩ = i := by
  apply Fin.ext
  simp only [boxIndex]
  omega

theorem unitElims {Member : Type} (unit : Member → Fin 9 × Fin 9) (home : Member) (xs : List Member)
    {s : Solver} {n : Fin 9} (fixed : s.checked (unit home).1 (unit home).2 = n.succ)
    (distinct : ∀ g : Grid, Elimination.Distinct (fun c : Fin 9 × Fin 9 => g.digit c.1 c.2) unit) :
    Elims s (xs.foldl (fun t m => strike n t (unit m)) s) := by
  refine foldElims xs (fun t m _ earlier => strikeElims (fun unfixed g sound => ?_))
  have other : m ≠ home := by
    intro same
    rw [same,earlier.checked,fixed] at unfixed
    exact Fin.succ_ne_zero n unfixed
  rw [← (earlier.soundIff.mp sound).fixedDigit fixed]
  exact Elimination.peerExclusion (distinct g) other

theorem checkPossibleAtElims (s c) : Elims s (checkPossibleAt s c) := by
  obtain ⟨i,j⟩ := c
  unfold checkPossibleAt
  dsimp only
  split
  · rename_i nonzero
    have fixed : s.checked i j = ((s.checked i j).pred nonzero).succ := (Fin.succ_pred _ nonzero).symm
    generalize (s.checked i j).pred nonzero = n at fixed ⊢
    have column := unitElims (fun m : Fin 9 => (m,j)) i (List.finRange 9) fixed (fun g => g.columns j)
    have row := unitElims (fun m : Fin 9 => (i,m)) j (List.finRange 9) (column.checkedAt fixed)
      (fun g => g.rows i)
    have near := column.trans row
    have box := unitElims (fun p : Fin 3 × Fin 3 => (boxIndex i p.1,boxIndex j p.2))
      (⟨i.val%3,Nat.mod_lt _ (by decide)⟩,⟨j.val%3,Nat.mod_lt _ (by decide)⟩)
      (List.product (List.finRange 3) (List.finRange 3))
      (by
        simp only [boxIndexSelf]
        exact near.checkedAt fixed)
      (fun g => g.boxes i j)
    rw [boxCells,List.foldl_map]
    exact near.trans box
  · exact .refl

theorem checkPossibleElims (s) : Elims s (checkPossible s).1 := by
  unfold checkPossible
  dsimp only
  exact foldElims cells (fun t c _ _ => checkPossibleAtElims t c)

theorem onlyOne {p : Fin 9 → Bool} (one : (List.finRange 9).countP p = 1) {i k : Fin 9}
    (here : p i = true) (there : p k = true) : k = i := by
  rw [List.countP_eq_length_filter,List.length_eq_one_iff] at one
  obtain ⟨x,only⟩ := one
  have left : i ∈ (List.finRange 9).filter p := List.mem_filter.mpr ⟨List.mem_finRange i,here⟩
  have right : k ∈ (List.finRange 9).filter p := List.mem_filter.mpr ⟨List.mem_finRange k,there⟩
  rw [only,List.mem_singleton] at left right
  exact right.trans left.symm

theorem isolateElims {s i j n} (unfixed : s.checked i j = 0)
    (settled : ∀ g, Sound g s → g.digit i j = n) : Elims s (isolate s i j n) := by
  refine foldElims _ (fun t m _ earlier => ?_)
  split
  · exact .refl
  · rename_i live
    rw [not_or,Bool.not_eq_false] at live
    refine .cut .refl i j m (by rw [earlier.checked]; exact unfixed) live.2 (fun g sound => ?_)
    rw [settled g (earlier.soundIff.mp sound)]
    exact fun same => live.1 same.symm

theorem lineElims {s : Solver} {i j n : Fin 9} (unfixed : s.checked i j = 0) (unit : Fin 9 → Fin 9 × Fin 9)
    {home : Fin 9} (place : unit home = (i,j)) (held : s.data i j n = true)
    (distinct : ∀ g : Grid, Elimination.Distinct (fun c : Fin 9 × Fin 9 => g.digit c.1 c.2) unit) :
    Elims s (if (List.finRange 9).countP (fun k => s.data (unit k).1 (unit k).2 n) = 1
      then isolate s i j n else s) := by
  split
  · rename_i one
    refine isolateElims unfixed (fun g sound => ?_)
    have last := Elimination.lastPlace (m := home) (v := n) (fun c v => s.data c.1 c.2 v = true)
      (fun c => sound.admits c.1 c.2) (distinct g) rfl
      (fun k other => onlyOne one (by simpa only [place] using held) other)
    simpa only [place] using last
  · exact .refl

theorem isolateFold (i j n : Fin 9) (xs : List (Fin 9)) (s : Solver) (m : Fin 9) :
    (xs.foldl (fun s m => if m = n ∨ s.data i j m = false then s else clear s i j m) s).data i j m =
      if m ∈ xs ∧ m ≠ n then false else s.data i j m := by
  induction xs generalizing s with
  | nil => simp
  | cons x rest ih =>
    have here : (if x = n ∨ s.data i j x = false then s else clear s i j x).data i j m =
        if m = x ∧ m ≠ n then false else s.data i j m := by
      split
      · grind
      · rw [clearData]
        grind
    rw [List.foldl_cons,ih,here]
    grind

theorem isolateData (s i j n m) :
    (isolate s i j n).data i j m = if m = n then s.data i j n else false := by
  unfold isolate
  rw [isolateFold]
  by_cases same : m = n <;> simp [same]

theorem isolateHeld (s i j n) : (isolate s i j n).data i j n = s.data i j n := by
  rw [isolateData,if_pos rfl]

theorem hiddenSingleAtElims (i j s n) : Elims s (hiddenSingleAt i j s n) := by
  unfold hiddenSingleAt
  split
  · exact .refl
  · rename_i live
    rw [not_or,Bool.not_eq_false,not_ne_iff] at live
    have column := lineElims live.1 (fun k => (k,j)) rfl live.2 (fun g => g.columns j)
    refine column.trans ?_
    have held : (if (List.finRange 9).countP (fun k => s.data k j n) = 1
        then isolate s i j n else s).data i j n = true := by
      split
      · rw [isolateHeld]; exact live.2
      · exact live.2
    exact lineElims (by rw [column.checked]; exact live.1) (fun k => (i,k)) rfl held (fun g => g.rows i)

theorem hiddenSingleElims (s) : Elims s (hiddenSingle s).1 := by
  unfold hiddenSingle
  dsimp only
  exact foldElims cells (fun t c _ _ => foldElims _ (fun u n _ _ => hiddenSingleAtElims c.1 c.2 u n))

inductive Call where
  | checkCell | checkPossible | hiddenSingle
  deriving DecidableEq, Repr

def call (s : Solver) : Call → Solver
  | .checkCell => (checkCell s).1
  | .checkPossible => (checkPossible s).1
  | .hiddenSingle => (hiddenSingle s).1

theorem callElims {s c} (eliminating : c ≠ .checkCell) : Elims s (call s c) := by
  cases c with
  | checkCell => contradiction
  | checkPossible => exact checkPossibleElims s
  | hiddenSingle => exact hiddenSingleElims s

theorem runElims {s : Solver} {calls : List Call} (eliminating : ∀ c ∈ calls, c ≠ .checkCell) :
    Elims s (Trace.run call s calls) :=
  foldElims calls (fun _ c mem _ => callElims (eliminating c mem))

theorem eliminationKeepsCompletions (s : Solver) (g : Grid)
    (admits : ∀ i j, s.data i j (g.digit i j) = true)
    (fixed : ∀ i j, s.checked i j = 0 ∨ s.checked i j = g.value i j)
    (calls : List Call) (eliminating : ∀ c ∈ calls, c ≠ .checkCell) :
    (∀ i j, (Trace.run call s calls).data i j (g.digit i j) = true) ∧
    (Trace.run call s calls).checked = s.checked := by
  have elims := runElims (s := s) eliminating
  exact ⟨(elims.soundIff.mpr ⟨admits,fixed⟩).admits,elims.checked⟩

def rotated : Grid where
  digit i j := Fin.ofNat 9 (3*(i.val%3) + i.val/3 + j.val)
  rows := by unfold Elimination.Distinct; decide
  columns := by unfold Elimination.Distinct; decide
  boxes := by unfold Elimination.Distinct; decide

theorem strikeSpec (n s c) :
    (strike n s c).checked = s.checked ∧ ∀ a b m, (strike n s c).data a b m =
      if (a,b) = c ∧ s.checked a b = 0 ∧ m = n then false else s.data a b m := by
  obtain ⟨i,j⟩ := c
  unfold strike
  split
  · rename_i live
    refine ⟨rfl,fun a b m => ?_⟩
    rw [clearData]
    by_cases cell : (a,b) = (i,j)
    · cases cell
      simp [live.1]
    · rw [if_neg (fun h => cell (Prod.ext h.1 h.2.1)),if_neg (fun h => cell h.1)]
  · rename_i idle
    refine ⟨rfl,fun a b m => ?_⟩
    split
    · rename_i here
      obtain ⟨cell,unfixed,rfl⟩ := here
      cases cell
      exact Bool.eq_false_iff.mpr (fun held => idle ⟨unfixed,held⟩)
    · rfl

theorem strikeFold (n : Fin 9) (xs : List (Fin 9 × Fin 9)) (s : Solver) :
    (xs.foldl (strike n) s).checked = s.checked ∧ ∀ a b m, (xs.foldl (strike n) s).data a b m =
      if (a,b) ∈ xs ∧ s.checked a b = 0 ∧ m = n then false else s.data a b m := by
  induction xs generalizing s with
  | nil => simp
  | cons c rest ih =>
    obtain ⟨checked,data⟩ := ih (strike n s c)
    obtain ⟨checkedHere,dataHere⟩ := strikeSpec n s c
    refine ⟨checked.trans checkedHere,fun a b m => ?_⟩
    rw [List.foldl_cons,data,dataHere,checkedHere]
    grind

def peers (c : Fin 9 × Fin 9) : List (Fin 9 × Fin 9) :=
  (List.finRange 9).map (fun n => (n,c.2)) ++ (List.finRange 9).map (fun n => (c.1,n)) ++ boxCells c.1 c.2

theorem peersFold (n : Fin 9) (i j : Fin 9) (s : Solver) :
    (peers (i,j)).foldl (strike n) s =
      (boxCells i j).foldl (strike n) ((List.finRange 9).foldl (fun s m => strike n s (i,m))
        ((List.finRange 9).foldl (fun s m => strike n s (m,j)) s)) := by
  simp only [peers,List.foldl_append,List.foldl_map]

theorem checkPossibleAtSpec (s c) :
    (checkPossibleAt s c).checked = s.checked ∧ ∀ a b m, (checkPossibleAt s c).data a b m =
      if s.checked a b = 0 ∧ s.checked c.1 c.2 = m.succ ∧ (a,b) ∈ peers c then false else s.data a b m := by
  obtain ⟨i,j⟩ := c
  unfold checkPossibleAt
  dsimp only
  split
  · rename_i nonzero
    have fixed : s.checked i j = ((s.checked i j).pred nonzero).succ := (Fin.succ_pred _ nonzero).symm
    generalize (s.checked i j).pred nonzero = n at fixed ⊢
    rw [← peersFold]
    obtain ⟨checked,data⟩ := strikeFold n (peers (i,j)) s
    refine ⟨checked,fun a b m => ?_⟩
    have same : n.succ = m.succ ↔ m = n := ⟨fun h => (Fin.succ_injective 9 h).symm,fun h => by rw [h]⟩
    rw [data]
    simp only [fixed,same]
    grind
  · rename_i zero
    rw [not_ne_iff] at zero
    refine ⟨rfl,fun a b m => (if_neg (fun h => ?_)).symm⟩
    rw [zero] at h
    exact Fin.succ_ne_zero m h.2.1.symm

theorem clearedTwice {p q r : Prop} [Decidable p] [Decidable q] [Decidable r] (d : Bool) :
    (if p ∧ r then false else if p ∧ q then false else d) = if p ∧ (q ∨ r) then false else d := by
  by_cases p <;> by_cases q <;> by_cases r <;> simp [*]

theorem checkPossibleFold (xs : List (Fin 9 × Fin 9)) (s : Solver) :
    (xs.foldl checkPossibleAt s).checked = s.checked ∧ ∀ a b m, (xs.foldl checkPossibleAt s).data a b m =
      if s.checked a b = 0 ∧ (∃ c ∈ xs, s.checked c.1 c.2 = m.succ ∧ (a,b) ∈ peers c) then false
      else s.data a b m := by
  induction xs generalizing s with
  | nil => simp
  | cons c rest ih =>
    obtain ⟨checked,data⟩ := ih (checkPossibleAt s c)
    obtain ⟨checkedHere,dataHere⟩ := checkPossibleAtSpec s c
    refine ⟨checked.trans checkedHere,fun a b m => ?_⟩
    rw [List.foldl_cons,data,dataHere,checkedHere]
    simp only [List.mem_cons,exists_eq_or_imp]
    exact clearedTwice _

theorem checkPossibleData (s a b m) :
    (checkPossible s).1.data a b m =
      if s.checked a b = 0 ∧ (∃ c ∈ cells, s.checked c.1 c.2 = m.succ ∧ (a,b) ∈ peers c) then false
      else s.data a b m := by
  unfold checkPossible
  dsimp only
  exact (checkPossibleFold cells s).2 a b m

theorem struckByPeer {s a b m} (i j) (unfixed : s.checked a b = 0) (fixed : s.checked i j = m.succ)
    (peer : (a,b) ∈ peers (i,j)) : (checkPossible s).1.data a b m = false := by
  rw [checkPossibleData,if_pos ⟨unfixed,(i,j),memCells (i,j),fixed,peer⟩]

end PracticeSuite.Sudoku
