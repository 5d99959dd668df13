import Mathlib
import PracticeSuite.Trace

/-! The Sudoku solver, on 0-based rows, columns and candidate indices. `checked`
holds 0 for a cell that is not fixed and otherwise a value used 1-based; every
writer stores a value from 0 to 9, and any other would index outside `data`. -/
namespace PracticeSuite.Sudoku

instance nineNonzero : NeZero 9 := ⟨by omega⟩
instance tenNonzero : NeZero 10 := ⟨by omega⟩

structure Solver where
  data : Fin 9 → Fin 9 → Fin 9 → Bool
  checked : Fin 9 → Fin 9 → Fin 10
  nominee : Fin 9 → Fin 9 → Int
  countCell : Int
  countPossibility : Int

def put {α : Type} (f : Fin 9 → Fin 9 → α) (i j : Fin 9) (v : α) : Fin 9 → Fin 9 → α :=
  fun a b => if a = i ∧ b = j then v else f a b

def putCandidate (f : Fin 9 → Fin 9 → Fin 9 → Bool) (i j n : Fin 9) (v : Bool) : Fin 9 → Fin 9 → Fin 9 → Bool :=
  put f i j (fun m => if m = n then v else f i j m)

@[simp] theorem putSame {α : Type} (f : Fin 9 → Fin 9 → α) (i j v) : put f i j v i j = v := by simp [put]

theorem putOther {α : Type} (f : Fin 9 → Fin 9 → α) {i j a b} (v : α) (other : (a,b) ≠ (i,j)) :
    put f i j v a b = f a b := if_neg (fun same => other (Prod.ext same.1 same.2))

theorem putCandidateAt (f i j n v a b m) :
    putCandidate f i j n v a b m = if a = i ∧ b = j ∧ m = n then v else f a b m := by
  unfold putCandidate
  by_cases cell : (a,b) = (i,j)
  · cases cell
    simp
  · rw [putOther f _ cell,if_neg (fun same => cell (Prod.ext same.1 same.2.1))]

def cells : List (Fin 9 × Fin 9) := List.product (List.finRange 9) (List.finRange 9)

theorem memCells (c) : c ∈ cells := List.mem_product.mpr ⟨List.mem_finRange _,List.mem_finRange _⟩
theorem nodupCells : cells.Nodup := (List.nodup_finRange 9).product (List.nodup_finRange 9)

def new : Solver := ⟨fun _ _ _ => false,fun _ _ => 0,fun _ _ => 9,0,0⟩

def unit (s : Solver) (given : Fin 9 × Fin 9 × Fin 9) : Solver :=
  let (i,j,n) := given
  {s with data := putCandidate s.data i j n true, checked := put s.checked i j n.succ}

def fill (i j : Fin 9) (s : Solver) (n : Fin 9) : Solver :=
  {s with data := putCandidate s.data i j n true, countPossibility := s.countPossibility + 1}

def startCell (s : Solver) (c : Fin 9 × Fin 9) : Solver :=
  let (i,j) := c
  if s.checked i j ≠ 0 then
    {s with countCell := s.countCell + 1, nominee := put s.nominee i j 0}
  else
    (List.finRange 9).foldl (fill i j) s

def start (s : Solver) : Solver := cells.foldl startCell s

def firstCandidate (candidates : Fin 9 → Bool) : Fin 10 :=
  match (List.finRange 9).find? candidates with
  | some k => k.castSucc
  | none => Fin.last 9

/- `res` has no initial value: `none` stands for a result that was never assigned. -/
def checkCellAt (r : Solver × Option Bool) (c : Fin 9 × Fin 9) : Solver × Option Bool :=
  let (s,_) := r
  let (i,j) := c
  if s.checked i j ≠ 0 then r
  else if s.nominee i j = 1 then
    let k := firstCandidate (s.data i j)
    ({s with
      checked := put s.checked i j k
      countCell := s.countCell + 1
      countPossibility := s.countPossibility - 1
      nominee := put s.nominee i j 0},some true)
  else r

def checkCell (s : Solver) : Solver × Option Bool := cells.foldl checkCellAt (s,none)

def anySingle (s : Solver) : Bool := cells.any (fun c => s.nominee c.1 c.2 = 1)

def clear (s : Solver) (i j n : Fin 9) : Solver :=
  {s with
    data := putCandidate s.data i j n false
    nominee := put s.nominee i j (s.nominee i j - 1)
    countPossibility := s.countPossibility - 1}

def strike (n : Fin 9) (s : Solver) (c : Fin 9 × Fin 9) : Solver :=
  if s.checked c.1 c.2 = 0 ∧ s.data c.1 c.2 n = true then clear s c.1 c.2 n else s

def boxIndex (i : Fin 9) (a : Fin 3) : Fin 9 := ⟨i.val/3*3 + a.val,by omega⟩

def boxCells (i j : Fin 9) : List (Fin 9 × Fin 9) :=
  (List.product (List.finRange 3) (List.finRange 3)).map (fun p => (boxIndex i p.1,boxIndex j p.2))

def checkPossibleAt (s : Solver) (c : Fin 9 × Fin 9) : Solver :=
  let (i,j) := c
  let val := s.checked i j
  if fixed : val ≠ 0 then
    let index := val.pred fixed
    let s := (List.finRange 9).foldl (fun s n => strike index s (n,j)) s
    let s := (List.finRange 9).foldl (fun s n => strike index s (i,n)) s
    (boxCells i j).foldl (strike index) s
  else s

def checkPossible (s : Solver) : Solver × Bool :=
  let s := cells.foldl checkPossibleAt s
  (s,anySingle s)

def isolate (s : Solver) (i j n : Fin 9) : Solver :=
  (List.finRange 9).foldl (fun s m => if m = n ∨ s.data i j m = false then s else clear s i j m) s

def hiddenSingleAt (i j : Fin 9) (s : Solver) (n : Fin 9) : Solver :=
  if s.checked i j ≠ 0 ∨ s.data i j n = false then s
  else
    let s := if (List.finRange 9).countP (fun k => s.data k j n) = 1 then isolate s i j n else s
    if (List.finRange 9).countP (fun k => s.data i k n) = 1 then isolate s i j n else s

def hiddenSingle (s : Solver) : Solver × Bool :=
  let s := cells.foldl (fun s c => (List.finRange 9).foldl (hiddenSingleAt c.1 c.2) s) s
  (s,anySingle s)

end PracticeSuite.Sudoku
