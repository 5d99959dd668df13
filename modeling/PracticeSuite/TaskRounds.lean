import PracticeSuite.TaskDeviation

/-! Runs of samples: the process database never follows a pointer that leads nowhere, holds each task
once, and the pointer lists of a sample are exactly filled. -/
namespace PracticeSuite.TaskRounds
open LinkedHeap ProcDbase ProcTable ProcResidue TaskDeviation
open Trace (attempt attemptCons)

variable {κ : Type}

def tasks (pid : Int) (isproc : Bool) (t : Table κ) : List Nat := (t.bucket (hashq pid)).filter (t.same pid isproc)

/- What a table holds for one task: the figures of each entry, and whether it is in the residue list. -/
def view (pid : Int) (isproc : Bool) (t : Table κ) : List (Tstat κ × Bool) :=
  (tasks pid isproc t).map (fun a => (t.stat a,decide (a ∈ t.residue)))

/- One entry, or a second one older than it that is still in the residue list: the PID was reused. -/
def Legal (entries : List (Tstat κ × Bool)) : Prop := entries.length ≤ 1 ∨ ∃ new old, entries = [(new,false),(old,true)]

def Single (t : Table κ) : Prop := ∀ pid isproc, (tasks pid isproc t).length ≤ 1

def Positive (t : Table κ) : Prop := ∀ i, ∀ a ∈ t.bucket i, 0 < (t.stat a).pid

section
variable {d : Pdb κ} {t : Table κ} {a : Nat} {pid : Int} {isproc : Bool}

theorem memTasks : a ∈ tasks pid isproc t ↔
    a ∈ t.bucket (hashq (t.stat a).pid) ∧ (t.stat a).pid = pid ∧ (t.stat a).isproc = isproc := by
  simp only [tasks,List.mem_filter,sameIff]
  refine ⟨fun ⟨mem,own⟩ => ⟨?_,own⟩,fun ⟨mem,own⟩ => ⟨?_,own⟩⟩
  · rw [own.1]
    exact mem
  · rw [← own.1]
    exact mem

theorem onlyMember {α : Type} {l : List α} {x : α} (short : l.length ≤ 1) (mem : x ∈ l) : l = [x] := by
  obtain ⟨y,rfl⟩ := List.length_eq_one_iff.mp (Nat.le_antisymm short (List.length_pos_of_mem mem))
  rw [List.mem_singleton.mp mem]

theorem firstTask : t.first pid isproc = (tasks pid isproc t).head? := by
  simp only [Table.first,tasks,List.head?_filter]

theorem getTask {btime : Int} : t.get pid isproc btime = (tasks pid isproc t).find? (fun a => started btime (t.stat a)) := by
  simp only [Table.get,tasks,List.find?_filter]
  congr
  funext a
  simp [Table.wanted]

theorem tasksPush (new : ∀ i, a ∉ t.bucket i) (cur : Tstat κ) : tasks pid isproc (t.push a cur) =
    if cur.pid = pid ∧ cur.isproc = isproc then a :: tasks pid isproc t else tasks pid isproc t := by
  have older : ∀ i, (t.bucket i).filter ((t.push a cur).same pid isproc) = (t.bucket i).filter (t.same pid isproc) := by
    intro i
    refine List.filter_congr (fun b mem => ?_)
    have other : b ≠ a := fun same => new i (same ▸ mem)
    simp only [Table.same,Table.push,Function.update_of_ne other]
  by_cases here : hashq cur.pid = hashq pid
  · have bucket : (t.push a cur).bucket (hashq pid) = a :: t.bucket (hashq pid) := by
      rw [← here]
      exact Function.update_self _ _ _
    have own : (t.push a cur).same pid isproc a = decide (cur.pid = pid ∧ cur.isproc = isproc) := by
      simp [Table.same,Table.push,sameTask]
    simp only [tasks,bucket,List.filter_cons,older,own,decide_eq_true_eq]
  · have bucket : (t.push a cur).bucket (hashq pid) = t.bucket (hashq pid) := Function.update_of_ne (fun same => here same.symm) _ _
    have apart : ¬ (cur.pid = pid ∧ cur.isproc = isproc) := fun same => here (congrArg hashq same.1)
    simp only [tasks,bucket,older,if_neg apart]

theorem tasksRestat {cur : Tstat κ} (samePid : (t.stat a).pid = cur.pid) (sameProc : (t.stat a).isproc = cur.isproc) :
    tasks pid isproc (t.restat a cur) = tasks pid isproc t := by
  refine List.filter_congr (fun b _ => ?_)
  by_cases same : b = a
  · subst same
    simp [Table.same,Table.restat,sameTask,samePid,sameProc]
  · simp [Table.same,Table.restat,same]

theorem tasksDelete (buckets : ∀ i, (t.bucket i).Nodup) : tasks pid isproc (t.delete a) = (tasks pid isproc t).erase a := by
  have unmoved : (t.delete a).same pid isproc = t.same pid isproc := rfl
  by_cases here : hashq pid = hashq (t.stat a).pid
  · have bucket : (t.delete a).bucket (hashq pid) = (t.bucket (hashq pid)).erase a := by
      rw [here]
      exact Function.update_self _ _ _
    have distinct := buckets (hashq pid)
    rw [tasks,tasks,unmoved,bucket,distinct.erase_eq_filter,(distinct.filter _).erase_eq_filter,List.filter_filter,List.filter_filter]
    simp only [Bool.and_comm]
  · have bucket : (t.delete a).bucket (hashq pid) = t.bucket (hashq pid) := Function.update_of_ne here _ _
    have absent : a ∉ tasks pid isproc t := fun mem => here (congrArg hashq (memTasks.mp mem).2.1).symm
    rw [List.erase_of_not_mem absent,tasks,tasks,unmoved,bucket]

theorem tasksDrop (buckets : ∀ i, (t.bucket i).Nodup) {p : Int} {q : Bool} : tasks pid isproc (t.drop (t.first p q)) =
    if p = pid ∧ q = isproc then (tasks pid isproc t).tail else tasks pid isproc t := by
  rw [firstTask]
  cases entries : tasks p q t with
  | nil =>
    simp only [List.head?_nil,Table.drop]
    split
    · rename_i same
      rw [← same.1,← same.2,entries]
      rfl
    · rfl
  | cons b rest =>
    have own := (memTasks (a := b)).mp (entries ▸ List.mem_cons_self)
    simp only [List.head?_cons,Table.drop]
    rw [tasksDelete buckets]
    split
    · rename_i same
      rw [← same.1,← same.2,entries,List.erase_cons_head]
      rfl
    · rename_i other
      refine List.erase_of_not_mem (fun mem => other ?_)
      have again := memTasks.mp mem
      exact ⟨own.2.1.symm.trans again.2.1,own.2.2.symm.trans again.2.2⟩

end

inductive Presented (cur : Tstat κ) (t : Table κ) : Table κ → Prop where
  | idle {a} (got : t.get cur.pid cur.isproc cur.btime = some a) (same : t.stat a = cur) : Presented cur t (t.refer (some a))
  | changed {a} (got : t.get cur.pid cur.isproc cur.btime = some a) : Presented cur t ((t.refer (some a)).restat a cur)
  | added {a} (got : t.get cur.pid cur.isproc cur.btime = none) (new : ∀ i, a ∉ t.bucket i) :
      Presented cur t (t.push a {cur with wasinactive := false})

/- And for one that has exited: an entry is found, and the first entry for its task is deleted. -/
inductive Departed (cur : Tstat κ) (t : Table κ) : Table κ → Prop where
  | unknown : Departed cur t t
  | asked {a} (got : t.get cur.pid true cur.btime = some a) :
      Departed cur t ((t.refer (some a)).drop ((t.refer (some a)).first (t.stat a).pid (t.stat a).isproc))
  | searched {a} (zero : cur.pid = 0) (mem : a ∈ t.residue) : Departed cur t (t.drop (t.first (t.stat a).pid (t.stat a).isproc))

section
variable {d : Pdb κ} {t : Table κ} {a : Nat} {v : Deviation κ}

theorem getSound {pid : Int} {isproc : Bool} {btime : Int} (got : t.get pid isproc btime = some a) :
    a ∈ t.bucket (hashq pid) ∧ (t.stat a).pid = pid ∧ (t.stat a).isproc = isproc ∧ started btime (t.stat a) = true := by
  have wanted := List.find?_some got
  simp only [Table.wanted,Bool.and_eq_true] at wanted
  have key := sameIff.mp wanted.1
  exact ⟨List.mem_of_find?_eq_some got,key.1,key.2,wanted.2⟩

theorem storedRefer (stored : Stored d t) (found : Option Nat) : Stored d (t.refer found) := by
  cases found with
  | none => exact stored
  | some a => exact ⟨stored.held,stored.only,stored.anchor,stored.distinct,stored.chains⟩

theorem presentEq [DecidableEq κ] (stored : Stored d t) (residue : Residue d t) {cur : Tstat κ}
    (awake : ∀ v', v'.taskall = v.taskall → (cur.isproc = false → v'.thisproc = v.thisproc) → ∃ w, wakeProc cur v' = some w) :
    ∃ e w u, present cur d v = some (e,w) ∧ Stored e u ∧ Residue e u ∧ Presented cur t u := by
  obtain ⟨e,got,stored',residue'⟩ := gettaskEq stored residue cur.pid cur.isproc cur.btime
  obtain ⟨w,woken⟩ := awake (if cur.isproc then {v with thisproc := v.taskall.length, nprocall := v.nprocall + 1} else v)
    (by split <;> rfl) (fun thread => by simp [thread])
  simp only [present,got,bind,Option.bind_some]
  cases found : t.get cur.pid cur.isproc cur.btime with
  | none =>
    rw [found] at residue'
    obtain ⟨pushed,still⟩ := addtaskEq stored' residue' {cur with wasinactive := false}
    exact ⟨_,_,_,by simp only [woken,Option.bind_some]; rfl,pushed,still,.added found (freshBrk stored').2⟩
  | some a =>
    rw [found] at residue'
    have stored' := storedRefer stored' (some a)
    obtain ⟨mem,pid,-⟩ := getSound found
    obtain ⟨p,held,same⟩ := heldNode stored' mem
    have same : p.tstat = t.stat a := same
    simp only [held,same,Option.bind_some]
    by_cases equal : cur = t.stat a
    · rw [if_pos equal]
      exact ⟨_,_,_,rfl,stored',residue',.idle found equal.symm⟩
    · rw [if_neg equal]
      obtain ⟨f,went,pushed,still⟩ := restatEq stored' residue' mem
      exact ⟨_,_,_,by simp only [went,woken,Option.bind_some]; rfl,pushed,still,.changed found⟩

theorem exitedEq (stored : Stored d t) (residue : Residue d t) (positive : Positive t) (pretime : Int) (cur : Tstat κ) :
    ∃ e w u, exited pretime cur d v = some (e,w) ∧ Stored e u ∧ Residue e u ∧ Departed cur t u := by
  have deletes : ∀ {e : Pdb κ} {u : Table κ} {a : Nat}, Stored e u → Residue e u → a ∈ u.bucket (hashq (u.stat a).pid) →
      ∃ f, deltask (u.stat a).pid (u.stat a).isproc e = some ((u.first (u.stat a).pid (u.stat a).isproc).isSome,f) ∧
        Stored f (u.drop (u.first (u.stat a).pid (u.stat a).isproc)) ∧ Residue f (u.drop (u.first (u.stat a).pid (u.stat a).isproc)) :=
    fun stored residue mem => deltaskEq stored residue _ _ (List.ne_nil_of_mem mem)
  by_cases known : cur.pid ≠ 0
  · obtain ⟨e,got,stored',residue'⟩ := gettaskEq stored residue cur.pid true cur.btime
    cases found : t.get cur.pid true cur.btime with
    | none =>
      rw [found] at residue' got
      exact ⟨e,_,t,by simp only [exited,lastFigures,if_pos known,got,bind,Option.bind_some]; rfl,stored',residue',.unknown⟩
    | some a =>
      rw [found] at residue' got
      obtain ⟨mem,pid,-⟩ := getSound found
      have mem : a ∈ t.bucket (hashq (t.stat a).pid) := pid ▸ mem
      have stored' := storedRefer stored' (some a)
      obtain ⟨p,held,same⟩ := heldNode stored' mem
      have same : p.tstat = t.stat a := same
      obtain ⟨f,went,after⟩ := deletes stored' residue' mem
      have above : 0 < (t.stat a).pid := positive _ a mem
      have gone : ∃ deleted, deltask (t.stat a).pid (t.stat a).isproc e = some (deleted,f) := ⟨_,went⟩
      obtain ⟨deleted,gone⟩ := gone
      exact ⟨f,_,_,by simp only [exited,lastFigures,if_pos known,got,held,same,bind,Option.bind_some,if_pos above,gone]; rfl,
        after.1,after.2,.asked found⟩
  · by_cases later : pretime < cur.btime
    · exact ⟨d,_,t,by simp only [exited,lastFigures,if_neg known,if_pos later,bind,Option.bind_some]; rfl,stored,residue,.unknown⟩
    · obtain ⟨found,search,inside⟩ := srchresidueEq stored residue {cur with wasinactive := false}
      cases found with
      | none => exact ⟨d,_,t,by simp only [exited,lastFigures,if_neg known,if_neg later,search,bind,Option.bind_some]; rfl,stored,residue,
        .unknown⟩
      | some a =>
        have node := inside a rfl
        have mem := residue.nodes a node
        obtain ⟨p,held,same⟩ := heldNode stored mem
        obtain ⟨f,went,after⟩ := deletes stored residue mem
        have above : 0 < (t.stat a).pid := positive _ a mem
        exact ⟨f,_,_,by simp only [exited,lastFigures,if_neg known,if_neg later,search,held,same,bind,Option.bind_some,if_pos above,went]; rfl,
          after.1,after.2,.searched (by simpa using known) node⟩

end

section
variable {d : Pdb κ} {t u : Table κ} {a : Nat} {pid : Int} {isproc : Bool}

theorem viewAlike (same : tasks pid isproc u = tasks pid isproc t)
    (alike : ∀ a ∈ tasks pid isproc t, u.stat a = t.stat a ∧ (a ∈ u.residue ↔ a ∈ t.residue)) : view pid isproc u = view pid isproc t := by
  unfold view
  rw [same]
  exact List.map_congr_left (fun a mem => by rw [(alike a mem).1,decide_eq_decide.mpr (alike a mem).2])

theorem tasksRefer (found : Option Nat) : tasks pid isproc (t.refer found) = tasks pid isproc t := by
  cases found <;> rfl

theorem memErase (distinct : t.residue.Nodup) {b : Nat} : b ∈ t.residue.erase a ↔ b ≠ a ∧ b ∈ t.residue := distinct.mem_erase_iff

theorem presentedOther {cur : Tstat κ} (distinct : t.residue.Nodup) (presented : Presented cur t u)
    (other : ¬ (cur.pid = pid ∧ cur.isproc = isproc)) : view pid isproc u = view pid isproc t := by
  have apart : ∀ {a}, t.get cur.pid cur.isproc cur.btime = some a → ∀ b ∈ tasks pid isproc t, b ≠ a := by
    intro a got b mem same
    subst same
    obtain ⟨-,pid',isproc',-⟩ := getSound got
    have own := (memTasks.mp mem).2
    exact other ⟨pid'.symm.trans own.1,isproc'.symm.trans own.2⟩
  cases presented with
  | idle got same =>
    exact viewAlike (tasksRefer _) (fun b mem => ⟨rfl,by simp [Table.refer,memErase distinct,apart got b mem]⟩)
  | @changed a got =>
    obtain ⟨-,pid',isproc',-⟩ := getSound got
    have same : tasks pid isproc ((t.refer (some a)).restat a cur) = tasks pid isproc t := tasksRestat pid' isproc'
    refine viewAlike same (fun b mem => ⟨?_,?_⟩)
    · exact Function.update_of_ne (apart got b mem) _ _
    · simp [Table.restat,Table.refer,memErase distinct,apart got b mem]
  | added got new =>
    refine viewAlike ((tasksPush new _).trans (if_neg other)) (fun b mem => ⟨?_,Iff.rfl⟩)
    exact Function.update_of_ne (fun same => new _ (same ▸ (memTasks.mp mem).1)) _ _

def fresh (cur : Tstat κ) : Tstat κ := {cur with wasinactive := false}

def seen (cur : Tstat κ) : List (Tstat κ × Bool) → List (Tstat κ × Bool)
  | [] => [(fresh cur,false)]
  | (old,_)::rest => if started cur.btime old then (cur,false)::rest else (fresh cur,false)::(old,true)::rest

theorem presentedOwn {cur : Tstat κ} (residue : Residue d t) (presented : Presented cur t u) {old : Option (Tstat κ)}
    (waiting : view cur.pid cur.isproc t = (old.map (fun s => (s,true))).toList) :
    view cur.pid cur.isproc u = seen cur (view cur.pid cur.isproc t) := by
  have distinct := (List.nodup_cons.mp residue.ring.distinct).2
  cases entries : tasks cur.pid cur.isproc t with
  | nil =>
    have none_ : t.get cur.pid cur.isproc cur.btime = none := by rw [getTask,entries]; rfl
    cases presented with
    | idle got => rw [none_] at got; cases got
    | changed got => rw [none_] at got; cases got
    | @added a got new =>
      have outside : a ∉ t.residue := fun mem => new _ (residue.nodes a mem)
      have tasksEq : tasks cur.pid cur.isproc (t.push a (fresh cur)) = [a] := by
        rw [tasksPush new,if_pos ⟨rfl,rfl⟩,entries]
      show view cur.pid cur.isproc (t.push a (fresh cur)) = _
      simp only [view,tasksEq,entries,List.map_nil,seen,List.map_cons]
      simp [Table.push,outside]
  | cons o rest =>
    have whole : view cur.pid cur.isproc t = (t.stat o,decide (o ∈ t.residue)) :: rest.map (fun a => (t.stat a,decide (a ∈ t.residue))) := by
      simp only [view,entries,List.map_cons]
    obtain ⟨rfl,inside⟩ : rest = [] ∧ o ∈ t.residue := by
      rw [whole] at waiting
      cases old with
      | none => cases waiting
      | some s =>
        obtain ⟨first,tail⟩ := List.cons.inj waiting
        exact ⟨List.map_eq_nil_iff.mp tail,by simpa using (Prod.mk.inj first).2⟩
    have got₀ : t.get cur.pid cur.isproc cur.btime = if started cur.btime (t.stat o) then some o else none := by
      rw [getTask,entries]
      cases near : started cur.btime (t.stat o) <;> simp [near]
    rw [whole]
    by_cases near : started cur.btime (t.stat o) = true
    · rw [if_pos near] at got₀
      have gone : o ∉ t.residue.erase o := distinct.not_mem_erase
      simp only [seen,if_pos near,List.map_nil]
      cases presented with
      | @idle a got same =>
        cases Option.some.inj (got₀.symm.trans got)
        have kept : tasks cur.pid cur.isproc (t.refer (some o)) = [o] := entries
        simp only [view,kept,List.map_cons,List.map_nil]
        simp [Table.refer,gone,same]
      | @changed a got =>
        cases Option.some.inj (got₀.symm.trans got)
        obtain ⟨-,pid',isproc',-⟩ := getSound got
        have kept : tasks cur.pid cur.isproc ((t.refer (some o)).restat o cur) = [o] := (tasksRestat pid' isproc').trans entries
        simp only [view,kept,List.map_cons,List.map_nil]
        simp [Table.refer,Table.restat,gone]
      | added got => rw [got₀] at got; cases got
    · rw [if_neg near] at got₀
      simp only [seen,if_neg near,List.map_nil]
      cases presented with
      | idle got => rw [got₀] at got; cases got
      | changed got => rw [got₀] at got; cases got
      | @added a got new =>
        have outside : a ∉ t.residue := fun mem => new _ (residue.nodes a mem)
        have other : o ≠ a := fun same => new _ (same ▸ residue.nodes o inside)
        have tasksEq : tasks cur.pid cur.isproc (t.push a (fresh cur)) = [a,o] := by
          rw [tasksPush new,if_pos ⟨rfl,rfl⟩,entries]
        show view cur.pid cur.isproc (t.push a (fresh cur)) = _
        simp only [view,tasksEq,List.map_cons,List.map_nil]
        simp [Table.push,outside,inside,other]

theorem viewLength : (view pid isproc t).length = (tasks pid isproc t).length := List.length_map _

theorem tasksDistinct (stored : Stored d t) : (tasks pid isproc t).Nodup := (stored.distinct _).filter _

theorem viewDrop (stored : Stored d t) (distinct : t.residue.Nodup) {p : Int} {q : Bool} : view pid isproc (t.drop (t.first p q)) =
    if p = pid ∧ q = isproc then (view pid isproc t).tail else view pid isproc t := by
  have kept : ∀ b ∈ tasks pid isproc (t.drop (t.first p q)), (t.stat b,decide (b ∈ (t.drop (t.first p q)).residue)) =
    (t.stat b,decide (b ∈ t.residue)) := by
    intro b mem
    rw [firstTask] at mem ⊢
    cases entries : tasks p q t with
    | nil => rfl
    | cons x rest =>
      rw [entries] at mem
      have mem : b ∈ tasks pid isproc (t.delete x) := mem
      rw [tasksDelete stored.distinct,(tasksDistinct stored).mem_erase_iff] at mem
      simp [Table.drop,Table.delete,memErase distinct,mem.1]
  have statEq : (t.drop (t.first p q)).stat = t.stat := dropStat _ _
  have whole : view pid isproc (t.drop (t.first p q)) = (tasks pid isproc (t.drop (t.first p q))).map
    (fun a => (t.stat a,decide (a ∈ t.residue))) := by
    rw [view,statEq]
    exact List.map_congr_left kept
  rw [whole,tasksDrop stored.distinct]
  split
  · rw [List.map_tail]
    rfl
  · rfl

theorem legalTail {entries : List (Tstat κ × Bool)} (legal : Legal entries) : entries.tail.length ≤ 1 := by
  rcases legal with short | ⟨new,old,rfl⟩
  · rw [List.length_tail]
    omega
  · exact Nat.le_refl 1

theorem departedView {cur : Tstat κ} (stored : Stored d t) (distinct : t.residue.Nodup) (departed : Departed cur t u) :
    view pid isproc u = view pid isproc t ∨ ((view pid isproc u).length = (view pid isproc t).tail.length ∧
      (cur.pid = 0 ∨ (cur.pid = pid ∧ isproc = true))) := by
  cases departed with
  | unknown => exact Or.inl rfl
  | @asked a got =>
    obtain ⟨-,pid',isproc',-⟩ := getSound got
    have distinct' : (t.refer (some a)).residue.Nodup := distinct.erase a
    rw [viewDrop (storedRefer stored (some a)) distinct']
    split
    · rename_i same
      refine Or.inr ⟨?_,Or.inr ⟨pid'.symm.trans same.1,same.2.symm.trans isproc'⟩⟩
      rw [List.length_tail,List.length_tail,viewLength,viewLength,tasksRefer]
    · rename_i other
      refine Or.inl (viewAlike (tasksRefer _) (fun b mem => ⟨rfl,?_⟩))
      have apart : b ≠ a := fun same => other (by rw [← same]; exact (memTasks.mp mem).2)
      simp [Table.refer,memErase distinct,apart]
  | @searched a zero mem =>
    rw [viewDrop stored distinct]
    split
    · exact Or.inr ⟨rfl,Or.inl zero⟩
    · exact Or.inl rfl

theorem departedLegal {cur : Tstat κ} (stored : Stored d t) (distinct : t.residue.Nodup) (departed : Departed cur t u)
    (legal : Legal (view pid isproc t)) : Legal (view pid isproc u) := by
  rcases departedView stored distinct departed with same | ⟨shorter,-⟩
  · rw [same]
    exact legal
  · exact Or.inl (shorter.trans_le (legalTail legal))

theorem presentedPositive {cur : Tstat κ} (positive : Positive t) (above : 0 < cur.pid) (presented : Presented cur t u) : Positive u := by
  intro i b mem
  cases presented with
  | idle => exact positive i b mem
  | @changed a =>
    by_cases same : b = a
    · subst same
      simpa [Table.restat] using above
    · simpa [Table.restat,Table.refer,same] using positive i b mem
  | @added a _ new =>
    by_cases same : b = a
    · subst same
      simpa [Table.push] using above
    · have old : b ∈ t.bucket i := by
        by_cases here : i = hashq cur.pid
        · subst here
          have bucket : (t.push a (fresh cur)).bucket (hashq cur.pid) = a :: t.bucket (hashq cur.pid) := Function.update_self _ _ _
          have mem : b ∈ (t.push a (fresh cur)).bucket (hashq cur.pid) := mem
          rw [bucket] at mem
          exact (List.mem_cons.mp mem).resolve_left same
        · have bucket : (t.push a (fresh cur)).bucket i = t.bucket i := Function.update_of_ne here _ _
          exact bucket ▸ mem
      simpa [Table.push,same] using positive i b old

theorem dropBuckets (t : Table κ) (found : Option Nat) (i : Nat) : ((t.drop found).bucket i).Sublist (t.bucket i) := by
  cases found with
  | none => exact List.Sublist.refl _
  | some a =>
    by_cases here : i = hashq (t.stat a).pid
    · subst here
      have bucket : (t.drop (some a)).bucket (hashq (t.stat a).pid) = (t.bucket (hashq (t.stat a).pid)).erase a := Function.update_self _ _ _
      rw [bucket]
      exact List.erase_sublist
    · have bucket : (t.drop (some a)).bucket i = t.bucket i := Function.update_of_ne here _ _
      rw [bucket]

theorem dropPositive (positive : Positive t) (found : Option Nat) : Positive (t.drop found) := by
  intro i b mem
  rw [dropStat]
  exact positive i b ((dropBuckets t found i).subset mem)

theorem departedPositive {cur : Tstat κ} (positive : Positive t) (departed : Departed cur t u) : Positive u := by
  cases departed with
  | unknown => exact positive
  | @asked a =>
    have positive : Positive (t.refer (some a)) := positive
    exact dropPositive positive _
  | searched => exact dropPositive positive _

def isTask (pid : Int) (isproc : Bool) (t : Table κ) (a : Nat) : Bool := decide ((t.stat a).pid = pid ∧ (t.stat a).isproc = isproc)

theorem cleanKept (t : Table κ) (residue : List Nat) :
    (Table.clean t residue).stat = t.stat ∧ ∀ i, ((Table.clean t residue).bucket i).Sublist (t.bucket i) := by
  induction residue generalizing t with
  | nil => exact ⟨rfl,fun i => List.Sublist.refl _⟩
  | cons a rest ih =>
    obtain ⟨statEq,within⟩ := ih (t.drop (t.first (t.stat a).pid (t.stat a).isproc))
    exact ⟨statEq.trans (dropStat _ _),fun i => (within i).trans (dropBuckets t _ i)⟩

theorem tasksClean (buckets : ∀ i, (t.bucket i).Nodup) (residue : List Nat) :
    tasks pid isproc (Table.clean t residue) = (tasks pid isproc t).drop (residue.countP (isTask pid isproc t)) := by
  induction residue generalizing t with
  | nil => rfl
  | cons a rest ih =>
    have tasksEq := ih (fun i => (buckets i).sublist (dropBuckets t (t.first (t.stat a).pid (t.stat a).isproc) i))
    have same : isTask pid isproc (t.drop (t.first (t.stat a).pid (t.stat a).isproc)) = isTask pid isproc t := by
      unfold isTask
      rw [dropStat]
    show tasks pid isproc (Table.clean (t.drop (t.first (t.stat a).pid (t.stat a).isproc)) rest) = _
    rw [tasksEq,tasksDrop buckets,same,List.countP_cons]
    by_cases own : (t.stat a).pid = pid ∧ (t.stat a).isproc = isproc
    · rw [if_pos own,if_pos (by simpa [isTask] using own),← List.drop_one,List.drop_drop,Nat.add_comm]
    · rw [if_neg own,if_neg (by simpa [isTask] using own),Nat.add_zero]

theorem countResidue (stored : Stored d t) (residue : Residue d t) :
    t.residue.countP (isTask pid isproc t) = (view pid isproc t).countP Prod.snd := by
  have distinct := (List.nodup_cons.mp residue.ring.distinct).2
  have right : (view pid isproc t).countP Prod.snd = ((tasks pid isproc t).filter (fun a => decide (a ∈ t.residue))).length := by
    rw [view,List.countP_map,List.countP_eq_length_filter]
    rfl
  rw [right,List.countP_eq_length_filter]
  refine List.Perm.length_eq ((List.perm_ext_iff_of_nodup (distinct.filter _) ((tasksDistinct stored).filter _)).mpr (fun a => ?_))
  simp only [List.mem_filter,isTask,decide_eq_true_eq]
  constructor
  · rintro ⟨mem,own⟩
    exact ⟨memTasks.mpr ⟨residue.nodes a mem,own⟩,mem⟩
  · rintro ⟨mem,inside⟩
    exact ⟨inside,(memTasks.mp mem).2⟩

end

end PracticeSuite.TaskRounds
