import PracticeSuite.SudokuCounts

/-! The two elimination passes as a whole: checkPossible is one round of peer
elimination, told from the board on entry alone, and hiddenSingle reaches every
single of a row or column that the board on entry shows. -/
namespace PracticeSuite.Sudoku

def Peer (a b i j : Fin 9) : Prop := a = i ∨ b = j ∨ (a.val/3 = i.val/3 ∧ b.val/3 = j.val/3)

theorem memBoxIndex (a i : Fin 9) : (∃ p, boxIndex i p = a) ↔ a.val/3 = i.val/3 := by
  constructor
  · rintro ⟨p,rfl⟩
    simp only [boxIndex]
    omega
  · intro same
    refine ⟨⟨a.val%3,Nat.mod_lt _ (by decide)⟩,Fin.ext ?_⟩
    simp only [boxIndex]
    omega

theorem memPeers (a b i j : Fin 9) : (a,b) ∈ peers (i,j) ↔ Peer a b i j := by
  unfold peers boxCells Peer
  simp only [List.mem_append,List.mem_map,List.mem_finRange,true_and,Prod.mk.injEq,Prod.exists,
    List.pair_mem_product]
  rw [← memBoxIndex a i,← memBoxIndex b j]
  constructor
  · rintro ((⟨n,_,column⟩ | ⟨n,row,_⟩) | ⟨p,q,down,across⟩)
    · exact .inr (.inl column.symm)
    · exact .inl row.symm
    · exact .inr (.inr ⟨⟨p,down⟩,⟨q,across⟩⟩)
  · rintro (row | column | ⟨⟨p,down⟩,⟨q,across⟩⟩)
    · exact .inl (.inr ⟨b,row.symm,rfl⟩)
    · exact .inl (.inl ⟨a,rfl,column.symm⟩)
    · exact .inr ⟨p,q,down,across⟩

def removed (s t : Solver) (c : Fin 9 × Fin 9) : Nat :=
  (List.finRange 9).countP (fun v => s.data c.1 c.2 v && !t.data c.1 c.2 v)

theorem Elims.shrinks {s t a b m} (h : Elims s t) (held : t.data a b m = true) : s.data a b m = true := by
  induction h with
  | refl => exact held
  | cut _ i j n unfixed _ needless ih =>
    rw [clearData] at held
    split at held <;> try contradiction
    exact ih held

theorem Elims.countCell {s t} (h : Elims s t) : t.countCell = s.countCell := by
  induction h with
  | refl => rfl
  | cut _ i j n unfixed held needless ih => exact ih

theorem removedSelf (s c) : removed s s c = 0 := by
  simp [removed]

theorem removedClear {s t i j n} (h : Elims s t) (held : t.data i j n = true) (c) :
    removed s (clear t i j n) c = if c = (i,j) then removed s t c + 1 else removed s t c := by
  unfold removed
  split
  · rename_i here
    subst here
    have lost : (s.data i j n && !(clear t i j n).data i j n) = true := by
      simp [clearData,h.shrinks held]
    rw [countCleared (List.nodup_finRange 9) (List.mem_finRange n) lost]
    congr 1
    apply List.countP_congr
    intro m _
    by_cases same : m = n
    · simp [same,held]
    · simp [clearData,same]
  · rename_i elsewhere
    apply List.countP_congr
    intro m _
    rw [clearData,if_neg (fun same => elsewhere (Prod.ext same.1 same.2.1))]

theorem Elims.nominee {s t} (h : Elims s t) (a b) :
    t.nominee a b = s.nominee a b - removed s t (a,b) := by
  induction h with
  | refl => simp [removedSelf]
  | @cut t earlier i j n unfixed held needless ih =>
    rw [removedClear earlier held]
    by_cases here : (a,b) = (i,j)
    · cases here
      simp only [clear,putSame,if_true]
      push_cast
      omega
    · simp only [clear,putOther _ _ here,if_neg here]
      exact ih

theorem Elims.lowered {s t} (h : Elims s t) : nominees t cells = nominees s cells -
    ((cells.map (removed s t)).sum : Nat) := by
  unfold nominees
  generalize cells = xs
  induction xs with
  | nil => rfl
  | cons c rest ih =>
    obtain ⟨a,b⟩ := c
    simp only [List.map_cons,List.sum_cons,ih,h.nominee a b]
    push_cast
    omega

theorem Elims.possibilities {s t} (h : Elims s t) :
    t.countPossibility - nominees t cells = s.countPossibility - nominees s cells := by
  induction h with
  | refl => rfl
  | @cut t earlier i j n unfixed held needless ih =>
    rw [clearNominees nodupCells,if_pos (memCells (i,j))]
    simp only [clear]
    omega

theorem Elims.countPossibility {s t} (h : Elims s t) :
    t.countPossibility = s.countPossibility - ((cells.map (removed s t)).sum : Nat) := by
  have possibilities := h.possibilities
  rw [h.lowered] at possibilities
  linarith only [possibilities]

theorem Elims.unchanged {s t} (h : Elims s t) (data : t.data = s.data) : t = s := by
  have none_ : ∀ c, removed s t c = 0 := by
    intro c
    simp [removed,data]
  have nominee : t.nominee = s.nominee := by
    funext a b
    rw [h.nominee,none_]
    simp
  have countPossibility : t.countPossibility = s.countPossibility := by
    rw [h.countPossibility,List.map_congr_left (fun c _ => none_ c)]
    simp
  cases s
  cases t
  simp only [Solver.mk.injEq]
  exact ⟨data,h.checked,nominee,h.countCell,countPossibility⟩

def Struck (s : Solver) (a b v : Fin 9) : Prop :=
  s.checked a b = 0 ∧ ∃ i j, Peer a b i j ∧ s.checked i j = v.succ

theorem checkPossibleHeld (s a b v) :
    (checkPossible s).1.data a b v = true ↔ s.data a b v = true ∧ ¬ Struck s a b v := by
  have struck : Struck s a b v ↔
      s.checked a b = 0 ∧ ∃ c ∈ cells, s.checked c.1 c.2 = v.succ ∧ (a,b) ∈ peers c := by
    unfold Struck
    refine and_congr_right (fun _ => ⟨?_,?_⟩)
    · rintro ⟨i,j,peer,fixed⟩
      exact ⟨(i,j),memCells (i,j),fixed,(memPeers a b i j).mpr peer⟩
    · rintro ⟨⟨i,j⟩,_,fixed,peer⟩
      exact ⟨i,j,(memPeers a b i j).mp peer,fixed⟩
  rw [checkPossibleData,struck]
  split <;> simp_all

theorem anySingleIff (s) : anySingle s = true ↔ ∃ a b, s.nominee a b = 1 := by
  simp [anySingle,memCells]

theorem checkPossibleReturns (s) : (checkPossible s).2 = anySingle (checkPossible s).1 := by
  unfold checkPossible
  dsimp only

theorem oneRound (s : Solver) :
    (∀ a b v, (checkPossible s).1.data a b v = true ↔ s.data a b v = true ∧
      ¬ (s.checked a b = 0 ∧ ∃ i j, Peer a b i j ∧ s.checked i j = v.succ)) ∧
    (checkPossible s).1.checked = s.checked ∧ (checkPossible s).1.countCell = s.countCell ∧
    (∀ a b, (checkPossible s).1.nominee a b = s.nominee a b - removed s (checkPossible s).1 (a,b)) ∧
    (checkPossible s).1.countPossibility =
      s.countPossibility - ((cells.map (removed s (checkPossible s).1)).sum : Nat) ∧
    ((checkPossible s).2 = true ↔ ∃ a b, (checkPossible s).1.nominee a b = 1) ∧
    checkPossible (checkPossible s).1 = checkPossible s := by
  have elims := checkPossibleElims s
  refine ⟨checkPossibleHeld s,elims.checked,elims.countCell,elims.nominee,elims.countPossibility,
    by rw [checkPossibleReturns,anySingleIff],?_⟩
  have again := checkPossibleElims (checkPossible s).1
  have data : (checkPossible (checkPossible s).1).1.data = (checkPossible s).1.data := by
    funext a b v
    rw [Bool.eq_iff_iff,checkPossibleHeld (checkPossible s).1]
    -- what the second call would strike, the first one has struck
    have same : Struck (checkPossible s).1 a b v ↔ Struck s a b v := by
      unfold Struck
      rw [elims.checked]
    rw [same,checkPossibleHeld]
    exact and_iff_left_of_imp And.right
  have board := again.unchanged data
  exact Prod.ext board (by rw [checkPossibleReturns,board,← checkPossibleReturns])

theorem oneOnly {p : Fin 9 → Bool} {i : Fin 9} (here : p i = true) (others : ∀ k, k ≠ i → p k = false) :
    (List.finRange 9).countP p = 1 := by
  have same : p = fun k => k == i := by
    funext k
    by_cases at_ : k = i
    · simp [at_,here]
    · simp [at_,others k at_]
  rw [same]
  exact List.count_eq_one_of_mem (List.nodup_finRange 9) (List.mem_finRange i)

def Alone (s : Solver) (i j n : Fin 9) : Prop :=
  (∀ k, k ≠ j → s.data i k n = false) ∨ (∀ k, k ≠ i → s.data k j n = false)

theorem Elims.alone {s t i j n} (h : Elims s t) (alone : Alone s i j n) : Alone t i j n := by
  have gone : ∀ {a b}, s.data a b n = false → t.data a b n = false := by
    intro a b clear_
    rw [Bool.eq_false_iff] at *
    exact fun held => clear_ (h.shrinks held)
  exact alone.imp (fun row k other => gone (row k other)) (fun column k other => gone (column k other))

theorem aloneDigit {g s i j n} (sound : Sound g s) (alone : Alone s i j n) : g.digit i j = n := by
  have admits : Elimination.Admits (fun c v => s.data c.1 c.2 v = true)
      (fun c : Fin 9 × Fin 9 => g.digit c.1 c.2) := fun c => sound.admits c.1 c.2
  rcases alone with row | column
  · have last := Elimination.lastPlace (m := j) (v := n) _ admits (g.rows i) rfl (fun k held => by
      by_contra other
      simp [row k other] at held)
    exact last
  · have last := Elimination.lastPlace (m := i) (v := n) _ admits (g.columns j) rfl (fun k held => by
      by_contra other
      simp [column k other] at held)
    exact last

theorem hiddenSingleAtSettles {s i j n m} (unfixed : s.checked i j = 0) (here : s.data i j n = true)
    (alone : Alone s i j n) (held : (hiddenSingleAt i j s n).data i j m = true) : m = n := by
  have isolated : ∀ t : Solver, (isolate t i j n).data i j m = true → m = n := by
    intro t kept
    by_contra other
    rw [isolateData,if_neg other] at kept
    contradiction
  unfold hiddenSingleAt at held
  rw [if_neg (by simp [unfixed,here])] at held
  dsimp only at held
  split at held
  · split at held <;> exact isolated _ held
  · rename_i columnMany
    split at held
    · exact isolated _ held
    · rename_i rowMany
      rcases alone with row | column
      · exact absurd (oneOnly (p := fun k => s.data i k n) here row) rowMany
      · exact absurd (oneOnly (p := fun k => s.data k j n) here column) columnMany

theorem hiddenSingleReturns (s) : (hiddenSingle s).2 = anySingle (hiddenSingle s).1 := by
  unfold hiddenSingle
  dsimp only

theorem hiddenSingleVisits (s : Solver) (i j n : Fin 9) :
    ∃ t, Elims s t ∧ Elims (hiddenSingleAt i j t n) (hiddenSingle s).1 := by
  obtain ⟨cellsBefore,cellsAfter,cellSplit⟩ := List.append_of_mem (memCells (i,j))
  obtain ⟨before,after,split⟩ := List.append_of_mem (List.mem_finRange n)
  have round : ∀ (xs : List (Fin 9 × Fin 9)) (u : Solver),
      Elims u (xs.foldl (fun s c => (List.finRange 9).foldl (hiddenSingleAt c.1 c.2) s) u) :=
    fun xs u => foldElims xs (fun t c _ _ => foldElims _ (fun v m _ _ => hiddenSingleAtElims c.1 c.2 v m))
  have digits : ∀ (ns : List (Fin 9)) (u : Solver), Elims u (ns.foldl (hiddenSingleAt i j) u) :=
    fun ns u => foldElims ns (fun v m _ _ => hiddenSingleAtElims i j v m)
  refine ⟨_,(round cellsBefore s).trans (digits before _),?_⟩
  unfold hiddenSingle
  dsimp only
  rw [cellSplit,List.foldl_append,List.foldl_cons]
  dsimp only
  generalize cellsBefore.foldl _ s = u
  rw [split,List.foldl_append,List.foldl_cons]
  exact (digits after _).trans (by rw [← split]; exact round cellsAfter _)

theorem hiddenSingleLeaves {s g i j n} (sound : Sound g s) (unfixed : s.checked i j = 0) (alone : Alone s i j n) (m) :
    (hiddenSingle s).1.data i j m = true ↔ m = n := by
  have digit : g.digit i j = n := aloneDigit sound alone
  obtain ⟨t,earlier,later⟩ := hiddenSingleVisits s i j n
  have still : t.data i j n = true := by
    rw [← digit]
    exact (earlier.soundIff.mpr sound).admits i j
  have kept : (hiddenSingle s).1.data i j n = true := by
    rw [← digit]
    exact ((hiddenSingleElims s).soundIff.mpr sound).admits i j
  refine ⟨fun held => ?_,fun same => same ▸ kept⟩
  exact hiddenSingleAtSettles (earlier.checkedAt unfixed) still (earlier.alone alone) (later.shrinks held)

theorem hiddenSingleFinds (s : Solver) (g : Grid)
    (counted : ∀ i j, s.checked i j = 0 → s.nominee i j = (List.finRange 9).countP (s.data i j))
    (admits : ∀ i j, s.data i j (g.digit i j) = true)
    (fixed : ∀ i j, s.checked i j = 0 ∨ s.checked i j = g.value i j)
    (i j n : Fin 9) (unfixed : s.checked i j = 0)
    (alone : (∀ k, k ≠ j → s.data i k n = false) ∨ (∀ k, k ≠ i → s.data k j n = false)) :
    (∀ m, (hiddenSingle s).1.data i j m = true ↔ m = n) ∧ (hiddenSingle s).1.nominee i j = 1 ∧
      (hiddenSingle s).2 = true := by
  have only := hiddenSingleLeaves ⟨admits,fixed⟩ unfixed alone
  have whole := hiddenSingleElims s
  have one : (hiddenSingle s).1.nominee i j = 1 := by
    rw [whole.counted counted i j (whole.checkedAt unfixed),
      oneOnly ((only n).mpr rfl) (fun k other => Bool.eq_false_iff.mpr (fun held => other ((only k).mp held)))]
    rfl
  exact ⟨only,one,by rw [hiddenSingleReturns,anySingleIff]; exact ⟨i,j,one⟩⟩

def looseCorner : Solver where
  data i j m := m = rotated.digit i j || (i = 0 && j = 0)
  checked _ _ := 0
  nominee i j := if i = 0 ∧ j = 0 then 9 else 1
  countCell := 0
  countPossibility := 89

theorem hiddenSingleFindsCorner :
    (∀ m, (hiddenSingle looseCorner).1.data 0 0 m = true ↔ m = 0) ∧
      (hiddenSingle looseCorner).1.nominee 0 0 = 1 ∧ (hiddenSingle looseCorner).2 = true :=
  hiddenSingleFinds looseCorner rotated (by decide +kernel) (by decide +kernel) (fun _ _ => .inl rfl) 0 0 0 rfl
    (.inl (by decide +kernel))

theorem firstPass (s) : Trace.run call s [.checkPossible] = (checkPossible s).1 := by
  simp only [Trace.run,List.foldl_cons,List.foldl_nil,call]

theorem bothPasses (s) : Trace.run call s [.checkPossible,.hiddenSingle] = (hiddenSingle (checkPossible s).1).1 := by
  rw [Trace.run,List.foldl_cons,List.foldl_cons,List.foldl_nil]
  unfold call
  dsimp only

/- checkPossible leaves the 1 to a single cell of the first row, hiddenSingle takes the other candidates from it. -/
theorem eliminationKeepsRotated :
    (∀ i j, (Trace.run call (given fourOnes) [.checkPossible,.hiddenSingle]).data i j (rotated.digit i j) = true) ∧
    (Trace.run call (given fourOnes) [.checkPossible,.hiddenSingle]).checked = (given fourOnes).checked ∧
    ((given fourOnes).data 0 1 0 = true ∧ (Trace.run call (given fourOnes) [.checkPossible]).data 0 1 0 = false) ∧
    ((Trace.run call (given fourOnes) [.checkPossible]).data 0 0 8 = true ∧
      (Trace.run call (given fourOnes) [.checkPossible,.hiddenSingle]).data 0 0 8 = false) := by
  have ready := givenReady fourOnes fourOnesExtended
  have elims := checkPossibleElims (given fourOnes)
  have corner : (given fourOnes).checked 0 0 = 0 := by rw [fourOnesChecked]; decide
  have row : ∀ k, k ≠ 0 → (checkPossible (given fourOnes)).1.data 0 k 0 = false := by
    intro k other
    have places : ∀ k : Fin 9, k ≠ 0 → (0,k,0) ∉ fourOnes ∧ ∃ x ∈ fourOnes, x.2.2 = 0 ∧ (0,k) ∈ peers (x.1,x.2.1) := by
      decide +kernel
    obtain ⟨free,⟨i,j,_⟩,one,rfl,peer⟩ := places k other
    exact struckByPeer i j (by rw [fourOnesChecked,if_neg free]) (by rw [fourOnesChecked,if_pos one]; rfl) peer
  have single := hiddenSingleLeaves (ready.elims elims).sound (elims.checkedAt corner) (.inl row) 8
  obtain ⟨data,checked⟩ := eliminationKeepsCompletions (given fourOnes) rotated ready.sound.admits ready.sound.fixed
    [.checkPossible,.hiddenSingle] (by decide)
  rw [bothPasses] at data checked
  rw [bothPasses,firstPass]
  refine ⟨data,checked,⟨?_,row 1 (by decide)⟩,fourOnesHeld corner (by decide),Bool.eq_false_iff.mpr (fun held => ?_)⟩
  · rw [given,(startSpec _).2.2]
    decide
  · have same := single.mp held
    revert same
    decide

end PracticeSuite.Sudoku
