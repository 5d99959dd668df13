import PracticeSuite.ProcTable

/-! The residue list over a whole sample: it is made of all entries, and what is still in it at the end
is deleted by PID. An entry that was in it need not be the one that the deletion finds. -/
namespace PracticeSuite.ProcResidue
open LinkedHeap ProcDbase ProcTable

variable {κ : Type}

theorem hashqBelow (pid : Int) : hashq pid < 256 := by
  unfold hashq
  omega

def Table.all (t : Table κ) : List Nat := (List.range 256).flatMap t.bucket

def restat (a : Nat) (cur : Tstat κ) (d : Pdb κ) : Option (Pdb κ) := do
  let p ← d.heap a
  some (d.store a {p with tstat := cur})

section
variable {d : Pdb κ} {t : Table κ} {a : Nat}

theorem restatEq (stored : Stored d t) (residue : Residue d t) {cur : Tstat κ} (mem : a ∈ t.bucket (hashq cur.pid)) :
    ∃ e, restat a cur d = some e ∧ Stored e (t.restat a cur) ∧ Residue e (t.restat a cur) := by
  obtain ⟨p,held,-⟩ := heldNode stored mem
  have home := (stored.held _ a mem).2.1
  have unmoved : ∀ {β : Type} (field : Option (Pinfo κ) → β), field (some {p with tstat := cur}) = field (some p) →
      (fun b => field ((d.store a {p with tstat := cur}).heap b)) = fun b => field (d.heap b) := by
    intro β field kept
    funext b
    by_cases at_ : b = a
    · subst at_
      simp only [Pdb.store,Function.update_self,held,kept]
    · simp only [Pdb.store,Function.update_of_ne at_]
  have phnextEq : phnext (d.store a {p with tstat := cur}) = phnext d := unmoved (fun p => Option.bind p Pinfo.phnext) rfl
  have prnextEq : prnext (d.store a {p with tstat := cur}) = prnext d := unmoved (fun p => Option.bind p Pinfo.prnext) rfl
  have prprevEq : prprev (d.store a {p with tstat := cur}) = prprev d := unmoved (fun p => Option.bind p Pinfo.prprev) rfl
  have allocEq : ∀ b, ((d.store a {p with tstat := cur}).heap b).isSome = (d.heap b).isSome := congrFun (unmoved Option.isSome rfl)
  have tstatEq : tstat (d.store a {p with tstat := cur}) = Function.update (tstat d) a (some cur) :=
    Function.comp_update (Option.map Pinfo.tstat) _ _ _
  have samePid : ∀ b, b ∈ t.bucket (hashq (t.stat b).pid) → hashq ((t.restat a cur).stat b).pid = hashq (t.stat b).pid := by
    intro b at_
    by_cases same : b = a
    · subst same
      simp [Table.restat,home]
    · simp [Table.restat,same]
  refine ⟨_,by simp only [restat,held,bind,Option.bind_some]; rfl,⟨?_,?_,?_,stored.distinct,?_⟩,?_,?_,?_⟩
  · intro i b at_
    have old := stored.held i b at_
    refine ⟨?_,(samePid b (by rw [old.2.1]; exact at_)).trans old.2.1,old.2.2⟩
    rw [tstatEq]
    by_cases same : b = a
    · subst same
      simp [Table.restat]
    · simpa [Table.restat,same] using old.1
  · intro b alloc
    obtain ⟨below,at_⟩ := stored.only b (allocEq b ▸ alloc)
    refine ⟨below,at_.imp_right fun node => ?_⟩
    rw [samePid b node]
    exact node
  · rw [allocEq]
    exact stored.anchor
  · rw [phnextEq]
    exact stored.chains
  · rw [prnextEq,prprevEq]
    exact residue.ring
  · intro b at_
    have node := residue.nodes b at_
    rw [samePid b node]
    exact node
  · rw [prnextEq]
    exact residue.others

theorem chainResidueEq {l : List Nat} (ring : Ring (prnext d) (prprev d) presidue l) (linked : ∀ b ∈ presidue::l, (d.heap b).isSome)
    (alloc : (d.heap a).isSome) (new : a ∉ presidue::l) :
    ∃ e, chainResidue a d = some e ∧ SameCore d e ∧ Ring (prnext e) (prprev e) presidue (a::l) := by
  obtain ⟨first,back⟩ := ringFirst ring
  have memY : l.headD presidue ∈ presidue::l := by cases l <;> simp
  generalize l.headD presidue = y at first back memY
  have apart : a ≠ presidue := fun same => new (same ▸ List.mem_cons_self)
  have notY : a ≠ y := fun same => new (same ▸ memY)
  have core₁ : SameCore d (setNext a (some y) d) := setNextCore
  have core₂ : SameCore d (setNext presidue (some a) (setNext a (some y) d)) := core₁.trans setNextCore
  have core₃ : SameCore d (setPrev a (some presidue) (setNext presidue (some a) (setNext a (some y) d))) := core₂.trans setPrevCore
  have alloc₁ : ((setNext a (some y) d).heap presidue).isSome := (coreAlloc core₁).trans (linked _ List.mem_cons_self)
  have alloc₂ : ((setNext presidue (some a) (setNext a (some y) d)).heap a).isSome := (coreAlloc core₂).trans alloc
  have alloc₃ : ((setPrev a (some presidue) (setNext presidue (some a) (setNext a (some y) d))).heap y).isSome :=
    (coreAlloc core₃).trans (linked y memY)
  have nextEq : prnext (setNext presidue (some a) (setNext a (some y) d)) = Function.update (Function.update (prnext d) a (some y)) presidue
    (some a) := by
    rw [prnextSetNext alloc₁,prnextSetNext alloc]
  have prevEq : prprev (setNext presidue (some a) (setNext a (some y) d)) = prprev d := by rw [prprevSetNext,prprevSetNext]
  obtain ⟨pr,anchor⟩ := Option.isSome_iff_exists.mp (linked presidue List.mem_cons_self)
  obtain ⟨p,held⟩ := Option.isSome_iff_exists.mp alloc
  obtain ⟨pr₁,anchor₁⟩ := Option.isSome_iff_exists.mp alloc₁
  obtain ⟨p₂,held₂⟩ := Option.isSome_iff_exists.mp alloc₂
  obtain ⟨q₂,there₂⟩ := Option.isSome_iff_exists.mp ((coreAlloc core₂).trans (linked y memY))
  obtain ⟨q₃,there₃⟩ := Option.isSome_iff_exists.mp alloc₃
  have successor : pr.prnext = some y := by simpa [prnext,anchor] using first
  have own : p₂.prnext = some y := by
    have value := congrFun nextEq a
    rw [Function.update_of_ne apart,Function.update_self] at value
    simpa [prnext,held₂] using value
  have predecessor : q₂.prprev = some presidue := by
    have value := congrFun prevEq y
    rw [back] at value
    simpa [prprev,there₂] using value
  refine ⟨setPrev y (some a) (setPrev a (some presidue) (setNext presidue (some a) (setNext a (some y) d))),?_,core₃.trans setPrevCore,?_⟩
  · have backward : (setNext presidue (some a) (setNext a (some y) d)).store a ⟨p₂.phnext,some y,some presidue,p₂.tstat⟩ =
        setPrev a (some presidue) (setNext presidue (some a) (setNext a (some y) d)) := by
      simpa only [own] using storePrev held₂ (some presidue)
    simp only [chainResidue,anchor,held,bind,Option.bind_some,successor,storeNext held,anchor₁,storeNext anchor₁,held₂,own,there₂,predecessor,
      backward,there₃,storePrev there₃]
  · refine ringInsert ring new first ?_ ?_ ?_ ?_ (fun b mem => ?_) (fun b mem other => ?_)
    · rw [prnextSetPrev,prnextSetPrev,nextEq,Function.update_of_ne apart,Function.update_self]
    · rw [prnextSetPrev,prnextSetPrev,nextEq,Function.update_self]
    · rw [prprevSetPrev alloc₃,prprevSetPrev alloc₂,Function.update_of_ne notY,Function.update_self]
    · rw [prprevSetPrev alloc₃,Function.update_self]
    · have inside : b ≠ a := fun same => new (same ▸ List.mem_cons_of_mem presidue mem)
      have notFirst : b ≠ presidue := fun same => (List.nodup_cons.mp ring.distinct).1 (same ▸ mem)
      rw [prnextSetPrev,prnextSetPrev,nextEq,Function.update_of_ne notFirst,Function.update_of_ne inside]
    · have inside : b ≠ a := fun same => new (same ▸ mem)
      rw [prprevSetPrev alloc₃,prprevSetPrev alloc₂,Function.update_of_ne other,Function.update_of_ne inside,prevEq]

structure Linking (d : Pdb κ) (t : Table κ) (l : List Nat) : Prop where
  stored : Stored d t
  ring : Ring (prnext d) (prprev d) presidue l
  linked : ∀ b ∈ l, (d.heap b).isSome

theorem residueScanEq {fuel : Nat} {head : Option Nat} {rest l : List Nat} {i : Nat} (linking : Linking d t l)
    (within : ∀ a ∈ rest, a ∈ t.bucket i)
    (new : ∀ a ∈ rest, a ∉ l) (distinct : rest.Nodup) (chain : Chain (phnext d) head rest) (enough : rest.length ≤ fuel) :
    ∃ e, residueScan fuel head d = some e ∧ SameCore d e ∧ Linking e t (rest.reverse ++ l) := by
  induction rest generalizing fuel head d l with
  | nil =>
    cases chain
    exact ⟨d,by cases fuel <;> rfl,SameCore.refl d,linking⟩
  | cons a rest ih =>
    obtain ⟨rfl,chain⟩ := chain
    obtain ⟨fuel,rfl⟩ := Nat.exists_eq_succ_of_ne_zero (Nat.ne_of_gt (Nat.lt_of_lt_of_le (Nat.succ_pos _) enough))
    have mem := within a List.mem_cons_self
    have notAnchor := (linking.stored.held i a mem).2.2
    have alloc : ∀ b ∈ presidue::l, (d.heap b).isSome := by
      intro b at_
      rcases List.mem_cons.mp at_ with rfl | at_
      · exact linking.stored.anchor
      · exact linking.linked b at_
    obtain ⟨e,went,core,ring⟩ := chainResidueEq linking.ring alloc (linking.stored.alloc mem) (by simp [notAnchor,new a List.mem_cons_self])
    have next : Linking e t (a::l) := by
      refine ⟨storedCore linking.stored core,ring,fun b at_ => ?_⟩
      rw [coreAlloc core]
      rcases List.mem_cons.mp at_ with rfl | at_
      · exact linking.stored.alloc mem
      · exact linking.linked b at_
    obtain ⟨p,held,-⟩ := heldNode next.stored mem
    have link : phnext d a = p.phnext := by
      rw [← core.phnext]
      simp [phnext,held]
    obtain ⟨apart,distinct⟩ := List.nodup_cons.mp distinct
    have chain : Chain (phnext e) p.phnext rest := by
      rw [core.phnext,← link]
      exact chain
    have fresh : ∀ b ∈ rest, b ∉ a::l := fun b at_ inside =>
      (List.mem_cons.mp inside).elim (fun same => apart (same ▸ at_)) (new b (List.mem_cons_of_mem a at_))
    obtain ⟨u,rest_,core',last⟩ := ih next (fun b at_ => within b (List.mem_cons_of_mem a at_)) fresh distinct chain
      (Nat.le_of_succ_le_succ enough)
    refine ⟨u,by simp only [residueScan,went,held,bind,Option.bind_some,rest_],core.trans core',?_⟩
    rw [List.reverse_cons,List.append_assoc]
    exact last

theorem residueChainsEq {chains l : List Nat} (linking : Linking d t l) (apart : ∀ i ∈ chains, ∀ a ∈ t.bucket i, a ∉ l)
    (distinct : chains.Nodup) :
    ∃ e, residueChains chains d = some e ∧ Linking e t ((chains.flatMap t.bucket).reverse ++ l) := by
  induction chains generalizing d l with
  | nil => exact ⟨d,rfl,linking⟩
  | cons i rest ih =>
    obtain ⟨other,distinct⟩ := List.nodup_cons.mp distinct
    obtain ⟨e,went,core,next⟩ := residueScanEq linking (fun a mem => mem) (apart i List.mem_cons_self) (linking.stored.distinct i)
      (linking.stored.chains i) (bucketShort linking.stored i)
    have apart' : ∀ j ∈ rest, ∀ a ∈ t.bucket j, a ∉ (t.bucket i).reverse ++ l := by
      intro j among a mem
      have old := apart j (List.mem_cons_of_mem i among) a mem
      have elsewhere : a ∉ t.bucket i := fun here =>
        other ((linking.stored.held i a here).2.1.symm.trans (linking.stored.held j a mem).2.1 ▸ among)
      simp [old,elsewhere]
    obtain ⟨u,later,last⟩ := ih next apart' distinct
    refine ⟨u,by simp only [residueChains,went,bind,Option.bind_some,later],?_⟩
    rw [List.flatMap_cons,List.reverse_append,List.append_assoc]
    exact last

def Table.makeresidue (t : Table κ) : Table κ := {t with residue := (Table.all t).reverse}

theorem memAll (stored : Stored d t) : a ∈ Table.all t ↔ a ∈ t.bucket (hashq (t.stat a).pid) := by
  simp only [Table.all,List.mem_flatMap,List.mem_range]
  refine ⟨fun ⟨i,_,mem⟩ => ?_,fun mem => ⟨_,hashqBelow _,mem⟩⟩
  rw [(stored.held i a mem).2.1]
  exact mem

theorem makeresidueEq (stored : Stored d t) :
    ∃ e, makeresidue d = some e ∧ Stored e (Table.makeresidue t) ∧ Residue e (Table.makeresidue t) := by
  obtain ⟨pr,anchor⟩ := Option.isSome_iff_exists.mp stored.anchor
  have core₁ : SameCore d (setNext presidue (some presidue) d) := setNextCore
  have core₂ : SameCore d (setPrev presidue (some presidue) (setNext presidue (some presidue) d)) := core₁.trans setPrevCore
  have alloc₁ : ((setNext presidue (some presidue) d).heap presidue).isSome := (coreAlloc core₁).trans stored.anchor
  have started : d.store presidue {pr with prnext := some presidue, prprev := some presidue} =
      setPrev presidue (some presidue) (setNext presidue (some presidue) d) := by
    simp [Pdb.store,setPrev,setNext,anchor]
  have ring : Ring (prnext (setPrev presidue (some presidue) (setNext presidue (some presidue) d)))
      (prprev (setPrev presidue (some presidue) (setNext presidue (some presidue) d))) presidue [] := by
    refine ringEmpty ?_ ?_
    · rw [prnextSetPrev,prnextSetNext stored.anchor,Function.update_self]
    · rw [prprevSetPrev alloc₁,Function.update_self]
  have linking : Linking (setPrev presidue (some presidue) (setNext presidue (some presidue) d)) t [] :=
    ⟨storedCore stored core₂,ring,fun b mem => by cases mem⟩
  obtain ⟨e,went,done⟩ := residueChainsEq linking (fun _ _ _ _ mem => by cases mem) List.nodup_range
  rw [List.append_nil] at done
  refine ⟨e,by simp only [makeresidue,anchor,bind,Option.bind_some,started,went],?_,done.ring,fun a mem => ?_,fun i a mem out => ?_⟩
  · exact ⟨done.stored.held,done.stored.only,done.stored.anchor,done.stored.distinct,done.stored.chains⟩
  · exact (memAll stored).mp (List.mem_reverse.mp mem)
  · refine absurd (List.mem_reverse.mpr ((memAll stored).mpr ?_)) out
    rw [(stored.held i a mem).2.1]
    exact mem

def Table.clean (t : Table κ) (residue : List Nat) : Table κ :=
  residue.foldl (fun t a => t.drop (t.first (t.stat a).pid (t.stat a).isproc)) t

def Sole (t : Table κ) : Prop :=
  ∀ a ∈ t.residue, ∀ b ∈ t.residue, (t.stat a).pid = (t.stat b).pid → (t.stat a).isproc = (t.stat b).isproc → a = b

theorem sameIff {pid : Int} {isproc : Bool} : t.same pid isproc a = true ↔ (t.stat a).pid = pid ∧ (t.stat a).isproc = isproc := by
  simp [Table.same,sameTask]

theorem dropStat (found : Option Nat) (t : Table κ) : (t.drop found).stat = t.stat := by
  cases found <;> rfl

theorem firstOwn (residue : Residue d t) (mem : a ∈ t.residue) : ∃ b, t.first (t.stat a).pid (t.stat a).isproc = some b ∧
    (t.stat b).pid = (t.stat a).pid ∧ (t.stat b).isproc = (t.stat a).isproc := by
  have own : t.same (t.stat a).pid (t.stat a).isproc a = true := sameIff.mpr ⟨rfl,rfl⟩
  have found : ((t.bucket (hashq (t.stat a).pid)).find? (t.same (t.stat a).pid (t.stat a).isproc)).isSome :=
    List.find?_isSome.mpr ⟨a,residue.nodes a mem,own⟩
  obtain ⟨b,is⟩ := Option.isSome_iff_exists.mp found
  exact ⟨b,is,sameIff.mp (List.find?_some is)⟩

theorem residueShort (stored : Stored d t) (residue : Residue d t) : t.residue.length ≤ d.brk := by
  have within : t.residue ⊆ List.range d.brk := fun a mem => List.mem_range.mpr (stored.only a (stored.alloc (residue.nodes a mem))).1
  exact ((List.nodup_cons.mp residue.ring.distinct).2.subperm within).length_le.trans_eq List.length_range

theorem cleanScanEq {fuel : Nat} {kept rest : List Nat} (stored : Stored d t) (residue : Residue d t) (sole : Sole t)
    (split : t.residue = kept ++ rest)
    (enough : rest.length ≤ fuel) : ∃ e, cleanScan fuel (some (rest.headD presidue)) d = some e ∧ Stored e (Table.clean t rest) ∧
      Residue e (Table.clean t rest) := by
  induction rest generalizing fuel kept d t with
  | nil => exact ⟨d,by unfold cleanScan; rfl,stored,residue⟩
  | cons a rest ih =>
    obtain ⟨fuel,rfl⟩ := Nat.exists_eq_succ_of_ne_zero (Nat.ne_of_gt (Nat.lt_of_lt_of_le (Nat.succ_pos _) enough))
    have mem : a ∈ t.residue := by simp [split]
    have node := residue.nodes a mem
    have notAnchor := (stored.held _ a node).2.2
    obtain ⟨p,held,same⟩ := heldNode stored node
    have ring := residue.ring
    rw [split] at ring
    have link : p.prnext = some (rest.headD presidue) := by
      have next := ringNext ring
      simpa [prnext,held] using next
    obtain ⟨b,found,pid,isproc⟩ := firstOwn residue mem
    obtain ⟨e,went,stored',residue'⟩ := deltaskEq stored residue (t.stat a).pid (t.stat a).isproc (List.ne_nil_of_mem node)
    rw [found] at went stored' residue'
    -- the entry that goes is this one, or one that is not in the residue list
    have others : ∃ kept', (t.drop (some b)).residue = kept' ++ rest := by
      by_cases inside : b ∈ t.residue
      · have own : b = a := sole b inside a mem pid isproc
        subst own
        refine ⟨kept,?_⟩
        have distinct := (List.nodup_cons.mp ring.distinct).2
        simp only [Table.drop,Table.delete,split]
        rw [List.erase_append_right _ (fun at_ => (List.nodup_append.mp distinct).2.2 b at_ b List.mem_cons_self rfl),List.erase_cons_head]
      · refine ⟨kept ++ [a],?_⟩
        simp only [Table.drop,Table.delete,List.erase_of_not_mem inside]
        rw [split,List.append_assoc]
        rfl
    obtain ⟨kept',split'⟩ := others
    have sole' : Sole (t.drop (some b)) := fun x memX y memY => by
      rw [dropStat]
      exact sole x (List.mem_of_mem_erase memX) y (List.mem_of_mem_erase memY)
    obtain ⟨u,later,last⟩ := ih stored' residue' sole' split' (Nat.le_of_succ_le_succ enough)
    refine ⟨u,?_,?_⟩
    · rw [cleanScan,if_neg (by simpa using notAnchor)]
      simp only [List.headD_cons,held,same,bind,Option.bind_some,went,link,later]
    · have clean : Table.clean t (a::rest) = Table.clean (t.drop (some b)) rest := by
        simp only [Table.clean,List.foldl_cons,found]
      rw [clean]
      exact last

theorem cleanresidueEq (stored : Stored d t) (residue : Residue d t) (sole : Sole t) :
    ∃ e, cleanresidue d = some e ∧ Stored e (Table.clean t t.residue) ∧ Residue e (Table.clean t t.residue) := by
  obtain ⟨pr,anchor⟩ := Option.isSome_iff_exists.mp stored.anchor
  have first : pr.prnext = some (t.residue.headD presidue) := by
    have next := (ringFirst residue.ring).1
    simpa [prnext,anchor] using next
  obtain ⟨e,went,result⟩ := cleanScanEq stored residue sole (List.nil_append _).symm (residueShort stored residue)
  exact ⟨e,by simp only [cleanresidue,anchor,bind,Option.bind_some,first,went],result⟩

theorem srchScanEq (stored : Stored d t) (residue : Residue d t) (cur : Tstat κ) {fuel : Nat} {before rest : List Nat} {prmin : Option Nat}
    (split : t.residue = before ++ rest) (enough : rest.length ≤ fuel) (kept : ∀ a ∈ prmin, a ∈ t.residue) :
    ∃ found, srchScan cur d fuel (some (rest.headD presidue)) prmin = some found ∧ ∀ a ∈ found, a ∈ t.residue := by
  induction rest generalizing fuel before prmin with
  | nil => exact ⟨prmin,by unfold srchScan; rfl,kept⟩
  | cons a rest ih =>
    obtain ⟨fuel,rfl⟩ := Nat.exists_eq_succ_of_ne_zero (Nat.ne_of_gt (Nat.lt_of_lt_of_le (Nat.succ_pos _) enough))
    have mem : a ∈ t.residue := by simp [split]
    have node := residue.nodes a mem
    have notAnchor := (stored.held _ a node).2.2
    obtain ⟨p,held,same⟩ := heldNode stored node
    have link : p.prnext = some (rest.headD presidue) := by
      have ring := residue.ring
      rw [split] at ring
      have next := ringNext ring
      simpa [prnext,held] using next
    have split' : t.residue = (before ++ [a]) ++ rest := by simp [split]
    have short := Nat.le_of_succ_le_succ enough
    rw [srchScan,if_neg (by simpa using notAnchor)]
    simp only [List.headD_cons,held,bind,Option.bind_some,link]
    split
    · split
      · exact ⟨some a,rfl,fun b at_ => Option.some.inj at_ ▸ mem⟩
      · refine ih split' short (fun b at_ => ?_)
        split at at_
        · exact Option.some.inj at_ ▸ mem
        · exact kept b at_
    · exact ih split' short kept

theorem srchresidueEq (stored : Stored d t) (residue : Residue d t) (cur : Tstat κ) :
    ∃ found, srchresidue cur d = some found ∧ ∀ a ∈ found, a ∈ t.residue := by
  obtain ⟨pr,anchor⟩ := Option.isSome_iff_exists.mp stored.anchor
  have first : pr.prnext = some (t.residue.headD presidue) := by
    have next := (ringFirst residue.ring).1
    simpa [prnext,anchor] using next
  have nothing : ∀ a ∈ (none : Option Nat), a ∈ t.residue := fun _ at_ => by cases at_
  obtain ⟨found,went,inside⟩ := srchScanEq stored residue cur (List.nil_append _).symm (residueShort stored residue) nothing
  exact ⟨found,by simp only [srchresidue,anchor,bind,Option.bind_some,first,went],inside⟩

end

end PracticeSuite.ProcResidue
