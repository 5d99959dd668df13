import PracticeSuite.TaskRounds

/-! Whole samples of deviattask, and runs of them. -/
namespace PracticeSuite.TaskDatabase
open LinkedHeap ProcDbase ProcTable ProcResidue TaskDeviation TaskRounds
open Trace (attempt attemptCons)

variable {κ : Type}

def key (cur : Tstat κ) : Int × Bool := (cur.pid,cur.isproc)

structure Gathered (curtpres : List (Tstat κ)) : Prop where
  first : ∀ cur ∈ curtpres.head?, cur.isproc = true
  distinct : (curtpres.map key).Nodup
  positive : ∀ cur ∈ curtpres, 0 < cur.pid

structure Counted (v : Deviation κ) : Prop where
  all : v.nprocall = v.taskall.countP (fun s => s.gen.isproc)
  active : v.nprocactive = v.taskall.countP (fun s => s.gen.isproc && !s.gen.wasinactive)
  tasks : v.ntaskactive = v.taskall.countP (fun s => !s.gen.wasinactive)

def Placed (v : Deviation κ) : Prop := ∃ s, v.taskall[v.thisproc]? = some s ∧ s.gen.isproc = true

section
variable {d e : Pdb κ} {v w : Deviation κ} {cur : Tstat κ}

theorem wakeThread (thread : cur.isproc = false) (placed : Placed v) (counted : Counted v) (woken : wakeProc cur v = some w) :
    Placed w ∧ w.nprocall = w.taskall.countP (fun s => s.gen.isproc) ∧
      w.nprocactive = w.taskall.countP (fun s => s.gen.isproc && !s.gen.wasinactive) ∧
      w.ntaskactive = w.taskall.countP (fun s => !s.gen.wasinactive) + 1 ∧ w.taskall.length = v.taskall.length := by
  obtain ⟨s,here,isproc⟩ := placed
  obtain ⟨inside,at_⟩ := List.getElem?_eq_some_iff.mp here
  simp only [wakeProc,thread,Bool.false_eq_true,if_false,here,bind,Option.bind_some] at woken
  split at woken
  · rename_i idle
    cases Option.some.inj woken
    have all := counted.all
    have active := counted.active
    have tasks := counted.tasks
    refine ⟨⟨{s with gen := {s.gen with wasinactive := false}},by simp [inside],isproc⟩,?_,?_,?_,List.length_set⟩
    · simp only [List.countP_set inside,at_,isproc,if_true]
      have some_ : 0 < v.taskall.countP (fun s => s.gen.isproc) := List.countP_pos_iff.mpr ⟨s,at_ ▸ List.getElem_mem inside,isproc⟩
      omega
    · simp [List.countP_set inside,at_,isproc,idle,active]
    · simp [List.countP_set inside,at_,idle,tasks]
  · rename_i busy
    cases Option.some.inj woken
    exact ⟨⟨s,here,isproc⟩,counted.all,counted.active,by simp [counted.tasks],rfl⟩

theorem presentMade [DecidableEq κ] (went : present cur d v = some (e,w)) :
    ∃ s x, s.gen.isproc = cur.isproc ∧ w = {x with taskall := x.taskall ++ [s]} ∧
      let begun := if cur.isproc then {v with thisproc := v.taskall.length, nprocall := v.nprocall + 1} else v
      ((s.gen.wasinactive = true ∧ x = begun) ∨ (s.gen.wasinactive = false ∧ wakeProc cur begun = some x)) := by
  simp only [present] at went
  obtain ⟨⟨found,f⟩,-,went⟩ := Option.bind_eq_some_iff.mp went
  cases found with
  | none =>
    obtain ⟨x,woken,made⟩ := Option.bind_eq_some_iff.mp went
    cases Option.some.inj made
    exact ⟨_,x,rfl,rfl,Or.inr ⟨rfl,woken⟩⟩
  | some pinfo =>
    obtain ⟨p,-,went⟩ := Option.bind_eq_some_iff.mp went
    split at went
    · cases Option.some.inj went
      exact ⟨_,_,rfl,rfl,Or.inl ⟨rfl,rfl⟩⟩
    · obtain ⟨g,-,went⟩ := Option.bind_eq_some_iff.mp went
      obtain ⟨x,woken,made⟩ := Option.bind_eq_some_iff.mp went
      cases Option.some.inj made
      exact ⟨_,x,rfl,rfl,Or.inr ⟨rfl,woken⟩⟩

theorem presentCounted [DecidableEq κ] (counted : Counted v) (placed : cur.isproc = true ∨ Placed v) (went : present cur d v = some (e,w)) :
    Placed w ∧ Counted w ∧ w.taskall.length = v.taskall.length + 1 := by
  obtain ⟨s,x,kind,rfl,how⟩ := presentMade went
  cases proc : cur.isproc with
  | true =>
    simp only [proc,if_true] at how
    have last : (v.taskall ++ [s])[v.taskall.length]? = some s := by simp
    rcases how with ⟨idle,rfl⟩ | ⟨busy,woken⟩
    · refine ⟨⟨s,last,kind.trans proc⟩,⟨?_,?_,?_⟩,by simp⟩
      · simp [kind,proc,counted.all]
      · simp [idle,counted.active]
      · simp [idle,counted.tasks]
    · simp only [wakeProc,proc,if_true] at woken
      cases Option.some.inj woken
      refine ⟨⟨s,last,kind.trans proc⟩,⟨?_,?_,?_⟩,by simp⟩
      · simp [kind,proc,counted.all]
      · simp [kind,proc,busy,counted.active]
      · simp [busy,counted.tasks]
  | false =>
    have placed : Placed v := placed.resolve_left (by simp [proc])
    simp only [proc,Bool.false_eq_true,if_false] at how
    rcases how with ⟨idle,rfl⟩ | ⟨busy,woken⟩
    · obtain ⟨u,here,isproc⟩ := placed
      refine ⟨⟨u,?_,isproc⟩,⟨?_,?_,?_⟩,by simp⟩
      · exact (List.getElem?_append_left (List.getElem?_eq_some_iff.mp here).1).trans here
      · simp [kind,proc,counted.all]
      · simp [kind,proc,counted.active]
      · simp [idle,counted.tasks]
    · obtain ⟨⟨u,here,isproc⟩,all,active,tasks,length⟩ := wakeThread proc placed counted woken
      refine ⟨⟨u,?_,isproc⟩,⟨?_,?_,?_⟩,by simp [length]⟩
      · exact (List.getElem?_append_left (List.getElem?_eq_some_iff.mp here).1).trans here
      · simp [kind,proc,all]
      · simp [kind,proc,active]
      · simp [busy,tasks]

theorem wakeReady (placed : cur.isproc = true ∨ Placed v) (v' : Deviation κ) (same : v'.taskall = v.taskall)
    (where_ : cur.isproc = false → v'.thisproc = v.thisproc) : ∃ w, wakeProc cur v' = some w := by
  cases proc : cur.isproc with
  | true => exact ⟨_,by simp only [wakeProc,proc,if_true]; rfl⟩
  | false =>
    obtain ⟨s,here,-⟩ := placed.resolve_left (by simp [proc])
    rw [← same,← where_ proc] at here
    simp only [wakeProc,proc,Bool.false_eq_true,if_false,here,bind,Option.bind_some]
    split <;> exact ⟨_,rfl⟩

def said (s : Devstat κ) : (Int × Bool) × Option (Tstat κ) × Bool := (key s.gen,s.prestat,s.newtask)

theorem wakeSaid (woken : wakeProc cur v = some w) : w.taskall.map said = v.taskall.map said := by
  unfold wakeProc at woken
  split at woken
  · cases Option.some.inj woken
    rfl
  · obtain ⟨s,here,woken⟩ := Option.bind_eq_some_iff.mp woken
    obtain ⟨inside,rfl⟩ := List.getElem?_eq_some_iff.mp here
    split at woken
    · cases Option.some.inj woken
      rw [List.map_set]
      refine List.ext_getElem List.length_set (fun n _ _ => ?_)
      rw [List.getElem_set]
      split
      · rename_i same
        subst same
        rw [List.getElem_map]
        rfl
      · rfl
    · cases Option.some.inj woken
      rfl

def compared [DecidableEq κ] (cur : Tstat κ) : Option (Tstat κ) → Option (Tstat κ) × Bool
  | none => (none,true)
  | some old => if cur = old then (none,false) else (some old,false)

theorem presentSaid [DecidableEq κ] {t : Table κ} (stored : Stored d t) (residue : Residue d t) (went : present cur d v = some (e,w)) :
    w.taskall.map said = v.taskall.map said ++ [(key cur,compared cur ((t.get cur.pid cur.isproc cur.btime).map t.stat))] := by
  have begun : (if cur.isproc then {v with thisproc := v.taskall.length, nprocall := v.nprocall + 1} else v).taskall = v.taskall := by
    split <;> rfl
  obtain ⟨f,got,stored',-⟩ := gettaskEq stored residue cur.pid cur.isproc cur.btime
  simp only [present,got,bind,Option.bind_some] at went
  cases found : t.get cur.pid cur.isproc cur.btime with
  | none =>
    rw [found] at went
    obtain ⟨x,woken,made⟩ := Option.bind_eq_some_iff.mp went
    cases Option.some.inj made
    rw [List.map_append,wakeSaid woken,begun]
    rfl
  | some a =>
    rw [found] at went
    obtain ⟨mem,-⟩ := getSound found
    obtain ⟨p,held,same⟩ := heldNode stored' mem
    simp only [held,same,Option.bind_some] at went
    split at went
    · rename_i equal
      cases Option.some.inj went
      rw [List.map_append,begun]
      simp [said,key,compared,equal]
    · rename_i differs
      obtain ⟨g,-,went⟩ := Option.bind_eq_some_iff.mp went
      obtain ⟨x,woken,made⟩ := Option.bind_eq_some_iff.mp went
      cases Option.some.inj made
      rw [List.map_append,wakeSaid woken,begun]
      simp [said,key,compared,differs]

end

def Waits (t : Table κ) (pid : Int) (isproc : Bool) : Prop :=
  ∃ old : Option (Tstat κ), view pid isproc t = (old.map (fun s => (s,true))).toList

structure Sound (d : Pdb κ) (t : Table κ) : Prop where
  stored : Stored d t
  residue : Residue d t
  positive : Positive t

theorem Sound.distinct {d : Pdb κ} {t : Table κ} (sound : Sound d t) : t.residue.Nodup := (List.nodup_cons.mp sound.residue.ring.distinct).2

def keyed (pid : Int) (isproc : Bool) (curtpres : List (Tstat κ)) : Option (Tstat κ) := curtpres.find? (sameTask pid isproc)

theorem sameTaskKey {pid : Int} {isproc : Bool} {cur : Tstat κ} : sameTask pid isproc cur = true ↔ cur.pid = pid ∧ cur.isproc = isproc := by
  simp [sameTask]

section
variable {d : Pdb κ} {t : Table κ} {v : Deviation κ}

def recorded (pid : Int) (isproc : Bool) (t : Table κ) : Option (Tstat κ) := ((tasks pid isproc t).map t.stat).head?

theorem recordedView (pid : Int) (isproc : Bool) (t : Table κ) : recorded pid isproc t = ((view pid isproc t).map Prod.fst).head? := by
  simp only [recorded,view,List.map_map]
  rfl

def lastOf (cur : Tstat κ) (t : Table κ) : Option (Tstat κ) := (recorded cur.pid cur.isproc t).filter (started cur.btime)

theorem getWaiting {cur : Tstat κ} (waits : Waits t cur.pid cur.isproc) : (t.get cur.pid cur.isproc cur.btime).map t.stat = lastOf cur t := by
  obtain ⟨old,is⟩ := waits
  rw [lastOf,recorded,getTask]
  have length := congrArg List.length is
  rw [viewLength] at length
  cases old with
  | none => rw [List.eq_nil_of_length_eq_zero length]; rfl
  | some old =>
    obtain ⟨a,one⟩ := List.length_eq_one_iff.mp length
    rw [one]
    cases near : started cur.btime (t.stat a) <;> simp [near,Option.filter]

theorem presentsEq [DecidableEq κ] {curtpres : List (Tstat κ)} (sound : Sound d t) (counted : Counted v)
    (placed : (∀ cur ∈ curtpres.head?, cur.isproc = true) ∨ Placed v) (distinct : (curtpres.map key).Nodup)
    (positive : ∀ cur ∈ curtpres, 0 < cur.pid)
    (waits : ∀ cur ∈ curtpres, Waits t cur.pid cur.isproc) :
    ∃ e w u, presents curtpres d v = some (e,w) ∧ Sound e u ∧ Counted w ∧
      w.taskall.map said = v.taskall.map said ++ curtpres.map (fun cur => (key cur,compared cur (lastOf cur t))) ∧
      ∀ pid isproc, view pid isproc u = match keyed pid isproc curtpres with
        | none => view pid isproc t
        | some cur => seen cur (view pid isproc t) := by
  induction curtpres generalizing d t v with
  | nil => exact ⟨d,v,t,rfl,sound,counted,by simp,fun _ _ => rfl⟩
  | cons cur rest ih =>
    obtain ⟨apart,distinct⟩ := List.nodup_cons.mp (by simpa only [List.map_cons] using distinct)
    have proc : cur.isproc = true ∨ Placed v := placed.imp_left (fun first => first cur rfl)
    obtain ⟨e,w,u,went,stored,residue,presented⟩ := presentEq sound.stored sound.residue (wakeReady proc)
    obtain ⟨placed',counted',-⟩ := presentCounted counted proc went
    have sound' : Sound e u := ⟨stored,residue,presentedPositive sound.positive (positive cur List.mem_cons_self) presented⟩
    have others : ∀ pid isproc, ¬ (cur.pid = pid ∧ cur.isproc = isproc) → view pid isproc u = view pid isproc t :=
      fun pid isproc other => presentedOther sound.distinct presented other
    have unlike : ∀ x ∈ rest, view x.pid x.isproc u = view x.pid x.isproc t := fun x mem =>
      others _ _ (fun same => apart (List.mem_map.mpr ⟨x,mem,by simp only [key,same.1,same.2]⟩))
    have waits' : ∀ x ∈ rest, Waits u x.pid x.isproc := fun x mem =>
      (waits x (List.mem_cons_of_mem cur mem)).imp (fun _ is => (unlike x mem).trans is)
    have telling : w.taskall.map said = v.taskall.map said ++ [(key cur,compared cur (lastOf cur t))] := by
      rw [← getWaiting (waits cur List.mem_cons_self)]
      exact presentSaid sound.stored sound.residue went
    have same : rest.map (fun cur => (key cur,compared cur (lastOf cur u))) = rest.map (fun cur => (key cur,compared cur (lastOf cur t))) :=
      List.map_congr_left (fun x mem => by rw [lastOf,lastOf,recordedView,recordedView,unlike x mem])
    obtain ⟨f,x,z,later,sound'',counted'',telling',views⟩ := ih sound' counted' (Or.inr placed') distinct
      (fun y mem => positive y (List.mem_cons_of_mem cur mem)) waits'
    refine ⟨f,x,z,by simp only [presents,went,bind,Option.bind_some,later],sound'',counted'',?_,fun pid isproc => ?_⟩
    · rw [telling',telling,same,List.append_assoc]
      rfl
    rw [views pid isproc]
    by_cases own : cur.pid = pid ∧ cur.isproc = isproc
    · obtain ⟨rfl,rfl⟩ := own
      have notLater : keyed cur.pid cur.isproc rest = none := by
        refine List.find?_eq_none.mpr (fun y mem same => apart ?_)
        have equal := sameTaskKey.mp same
        exact List.mem_map.mpr ⟨y,mem,by simp only [key,equal.1,equal.2]⟩
      have now : keyed cur.pid cur.isproc (cur::rest) = some cur := List.find?_cons_of_pos (sameTaskKey.mpr ⟨rfl,rfl⟩)
      obtain ⟨old,is⟩ := waits cur List.mem_cons_self
      rw [notLater,now]
      exact presentedOwn sound.residue presented is
    · have skip : keyed pid isproc (cur::rest) = keyed pid isproc rest := List.find?_cons_of_neg (fun same => own (sameTaskKey.mp same))
      rw [skip,others pid isproc own]

structure Ahead (n : Nat) (v : Deviation κ) : Prop where
  all : v.nprocall = v.taskall.countP (fun s => s.gen.isproc) + n
  active : v.nprocactive = v.taskall.countP (fun s => s.gen.isproc && !s.gen.wasinactive) + n
  tasks : v.ntaskactive = v.taskall.countP (fun s => !s.gen.wasinactive)

theorem exitedMade {pretime : Int} {cur : Tstat κ} {e : Pdb κ} {w : Deviation κ} (went : exited pretime cur d v = some (e,w)) :
    ∃ s, s.gen.isproc = cur.isproc ∧ s.gen.wasinactive = false ∧ w = {v with
      taskall := v.taskall ++ [s], nprocall := v.nprocall + 1, nprocactive := v.nprocactive + 1, ntaskactive := v.ntaskactive + 1} := by
  simp only [exited] at went
  obtain ⟨⟨prestat,f⟩,-,went⟩ := Option.bind_eq_some_iff.mp went
  refine ⟨⟨if cur.pid = 0 then {cur with pid := (prestat.map Tstat.pid).getD 0, wasinactive := false} else {cur with wasinactive := false},
    prestat,prestat.isNone⟩,by dsimp only; split <;> rfl,by dsimp only; split <;> rfl,?_⟩
  cases prestat with
  | none =>
    cases Option.some.inj went
    rfl
  | some pre =>
    dsimp only at went
    split at went
    · obtain ⟨⟨_,g⟩,-,made⟩ := Option.bind_eq_some_iff.mp went
      cases Option.some.inj made
      rfl
    · cases Option.some.inj went
      rfl

theorem exitedAhead {n : Nat} {pretime : Int} {cur : Tstat κ} {e : Pdb κ} {w : Deviation κ} (ahead : Ahead n v)
    (went : exited pretime cur d v = some (e,w)) : Ahead (n + if cur.isproc then 0 else 1) w ∧ ∃ gone, w.taskall = v.taskall ++ [gone] := by
  obtain ⟨s,kind,busy,rfl⟩ := exitedMade went
  refine ⟨⟨?_,?_,?_⟩,s,rfl⟩
  · cases proc : cur.isproc
    · simp [kind,proc,ahead.all]
      omega
    · simp [kind,proc,ahead.all]
      omega
  · cases proc : cur.isproc
    · simp [kind,proc,ahead.active]
      omega
    · simp [kind,proc,busy,ahead.active]
      omega
  · simp [busy,ahead.tasks]

theorem exitsEq {n : Nat} (pretime : Int) (curpexit : List (Tstat κ)) (sound : Sound d t) (ahead : Ahead n v)
    (legal : ∀ pid isproc, Legal (view pid isproc t)) :
    ∃ e w u, exits pretime curpexit d v = some (e,w) ∧ Sound e u ∧ Ahead (n + curpexit.countP (fun cur => !cur.isproc)) w ∧
      (∃ gone : List (Devstat κ), gone.length = curpexit.length ∧ w.taskall = v.taskall ++ gone) ∧
      (∀ pid isproc, Legal (view pid isproc u)) ∧
      ∀ pid isproc, (∀ cur ∈ curpexit, cur.pid ≠ 0 ∧ ¬ (cur.pid = pid ∧ isproc = true)) → view pid isproc u = view pid isproc t := by
  induction curpexit generalizing n d t v with
  | nil => exact ⟨d,v,t,rfl,sound,ahead,⟨[],rfl,(List.append_nil _).symm⟩,legal,fun _ _ _ => rfl⟩
  | cons cur rest ih =>
    obtain ⟨e,w,u,went,stored,residue,departed⟩ := exitedEq (v := v) sound.stored sound.residue sound.positive pretime cur
    obtain ⟨ahead',gone,appended⟩ := exitedAhead ahead went
    have sound' : Sound e u := ⟨stored,residue,departedPositive sound.positive departed⟩
    obtain ⟨f,x,z,later,sound'',ahead'',⟨more,length,appended'⟩,legal',views⟩ :=
      ih sound' ahead' (fun pid isproc => departedLegal sound.stored sound.distinct departed (legal pid isproc))
    have count : n + (cur::rest).countP (fun cur => !cur.isproc) =
        n + (if cur.isproc then 0 else 1) + rest.countP (fun cur => !cur.isproc) := by
      cases proc : cur.isproc with
      | true => simp [proc]
      | false =>
        simp [proc]
        omega
    refine ⟨f,x,z,by simp only [exits,went,bind,Option.bind_some,later],sound'',count ▸ ahead'',
      ⟨gone::more,by simp only [List.length_cons,length],by rw [appended',appended,List.append_assoc]; rfl⟩,legal',fun pid isproc apart => ?_⟩
    rw [views pid isproc (fun y mem => apart y (List.mem_cons_of_mem cur mem))]
    obtain ⟨known,other⟩ := apart cur List.mem_cons_self
    rcases departedView sound.stored sound.distinct departed with same | ⟨-,zero | own⟩
    · exact same
    · exact absurd zero known
    · exact absurd own other

theorem legalSole (residue : Residue d t) (legal : ∀ pid isproc, Legal (view pid isproc t)) : Sole t := by
  intro a memA b memB pid isproc
  have inA : a ∈ tasks (t.stat b).pid (t.stat b).isproc t := memTasks.mpr ⟨residue.nodes a memA,pid,isproc⟩
  have inB : b ∈ tasks (t.stat b).pid (t.stat b).isproc t := memTasks.mpr ⟨residue.nodes b memB,rfl,rfl⟩
  revert inA inB
  rcases legal (t.stat b).pid (t.stat b).isproc with short | ⟨new,old,pair⟩
  · rw [viewLength] at short
    intro inA inB
    rw [onlyMember short inB] at inA
    exact List.mem_singleton.mp inA
  · obtain ⟨x,y,entries,outside⟩ : ∃ x y, tasks (t.stat b).pid (t.stat b).isproc t = [x,y] ∧ x ∉ t.residue := by
      obtain ⟨x,_,entries,first,more⟩ := List.map_eq_cons_iff.mp pair
      obtain ⟨y,_,rest,-,last⟩ := List.map_eq_cons_iff.mp more
      rw [List.map_eq_nil_iff.mp last] at rest
      exact ⟨x,y,entries.trans (congrArg (x :: ·) rest),by simpa using (Prod.mk.inj first).2⟩
    rw [entries]
    intro inA inB
    have isY : ∀ z ∈ [x,y], z ∈ t.residue → z = y := by
      intro z mem inside
      rcases List.mem_cons.mp mem with rfl | mem
      · exact absurd inside outside
      · exact List.mem_singleton.mp mem
    exact (isY a inA memA).trans (isY b inB memB).symm

theorem cleaned (stored : Stored d t) (residue : Residue d t) (legal : ∀ pid isproc, Legal (view pid isproc t)) :
    Single (Table.clean t t.residue) ∧ ∀ pid isproc, recorded pid isproc (Table.clean t t.residue) =
      (((view pid isproc t).drop ((view pid isproc t).countP Prod.snd)).map Prod.fst).head? := by
  constructor
  · intro pid isproc
    rw [tasksClean stored.distinct,countResidue stored residue,List.length_drop,← viewLength]
    rcases legal pid isproc with short | ⟨new,old,pair⟩
    · omega
    · rw [pair]
      exact Nat.le_refl 1
  · intro pid isproc
    rw [recorded,tasksClean stored.distinct,(cleanKept t t.residue).1,countResidue stored residue,List.map_drop,List.map_drop]
    simp only [view,List.map_map]
    rfl

/- What is recorded of a task after a sample, by what was before and what the sample has of it. A start
time that has moved by more than a second means another task, and then the old entry is the one kept. -/
def remembered (old cur : Option (Tstat κ)) : Option (Tstat κ) :=
  match cur,old with
  | none,_ => none
  | some cur,none => some (fresh cur)
  | some cur,some old => if started cur.btime old then some cur else some old

theorem startedView (stored : Stored d t) (single : Single t) (pid : Int) (isproc : Bool) :
    view pid isproc (Table.makeresidue t) = ((recorded pid isproc t).map (fun s => (s,true))).toList := by
  have same : tasks pid isproc (Table.makeresidue t) = tasks pid isproc t := rfl
  have inside : ∀ a ∈ tasks pid isproc t, a ∈ (Table.makeresidue t).residue := fun a mem =>
    List.mem_reverse.mpr ((memAll stored).mpr (memTasks.mp mem).1)
  rw [view,same,recorded]
  cases entries : tasks pid isproc t with
  | nil => rfl
  | cons a rest =>
    have mem : a ∈ tasks pid isproc t := entries ▸ List.mem_cons_self
    rw [← entries,onlyMember (single pid isproc) mem]
    simp only [List.map_cons,List.map_nil,decide_eq_true (inside a mem)]
    rfl

theorem rememberedView (old cur : Option (Tstat κ)) {entries : List (Tstat κ × Bool)}
    (is : entries = match cur with
      | none => (old.map (fun s => (s,true))).toList
      | some cur => seen cur (old.map (fun s => (s,true))).toList) :
    Legal entries ∧ ((entries.drop (entries.countP Prod.snd)).map Prod.fst).head? = remembered old cur := by
  subst is
  cases cur with
  | none => cases old <;> exact ⟨Or.inl (by simp),by simp [remembered]⟩
  | some cur =>
    cases old with
    | none => exact ⟨Or.inl (by simp [seen]),by simp [seen,remembered]⟩
    | some old =>
      by_cases near : started cur.btime old = true
      · simp [seen,remembered,near,Legal]
      · simp [seen,remembered,near,Legal]

structure Sampled [DecidableEq κ] (s : Sample κ) (t u : Table κ) (v : Deviation κ) : Prop where
  single : Single u
  positive : Positive u
  ahead : Ahead (s.curpexit.countP (fun cur => !cur.isproc)) v
  length : v.taskall.length = s.curtpres.length + s.curpexit.length
  reported : (v.taskall.map said).take s.curtpres.length = s.curtpres.map (fun cur => (key cur,compared cur (lastOf cur t)))
  recorded : ∀ pid isproc, (∀ cur ∈ s.curpexit, cur.pid ≠ 0 ∧ ¬ (cur.pid = pid ∧ isproc = true)) →
    recorded pid isproc u = remembered (recorded pid isproc t) (keyed pid isproc s.curtpres)

theorem deviattaskEq [DecidableEq κ] {s : Sample κ} (stored : Stored d t) (single : Single t) (positive : Positive t)
    (gathered : Gathered s.curtpres) :
    ∃ e v u, deviattask s d = some (e,v) ∧ Stored e u ∧ Sampled s t u v := by
  obtain ⟨e₁,made,stored₁,residue₁⟩ := makeresidueEq stored
  have views₁ := startedView stored single
  have waits : ∀ cur ∈ s.curtpres, Waits (Table.makeresidue t) cur.pid cur.isproc := fun cur _ => ⟨_,views₁ cur.pid cur.isproc⟩
  obtain ⟨e₂,v₂,t₂,present,sound₂,counted₂,said₂,views₂⟩ := presentsEq (v := .empty) ⟨stored₁,residue₁,positive⟩ ⟨rfl,rfl,rfl⟩
    (Or.inl gathered.first) gathered.distinct gathered.positive waits
  have length₂ : v₂.taskall.length = s.curtpres.length := by simpa [Deviation.empty] using congrArg List.length said₂
  have seen₂ : ∀ pid isproc, Legal (view pid isproc t₂) ∧ _ := fun pid isproc =>
    rememberedView (recorded pid isproc t) (keyed pid isproc s.curtpres) (by rw [views₂,views₁])
  obtain ⟨e₃,v₃,t₃,exit,sound₃,ahead₃,⟨gone,length₃,appended₃⟩,legal₃,views₃⟩ := exitsEq (n := 0) s.pretime s.curpexit sound₂
    ⟨counted₂.all,counted₂.active,counted₂.tasks⟩ (fun pid isproc => (seen₂ pid isproc).1)
  rw [Nat.zero_add] at ahead₃
  obtain ⟨e₄,clean,stored₄,-⟩ := cleanresidueEq sound₃.stored sound₃.residue (legalSole sound₃.residue legal₃)
  obtain ⟨single₄,recorded₄⟩ := cleaned sound₃.stored sound₃.residue legal₃
  refine ⟨e₄,v₃,_,by simp only [deviattask,made,present,exit,clean,bind,Option.bind_some],stored₄,single₄,?_,ahead₃,?_,?_,?_⟩
  · obtain ⟨statEq,within⟩ := cleanKept t₃ t₃.residue
    intro i a mem
    rw [statEq]
    exact sound₃.positive i a ((within i).subset mem)
  · rw [appended₃,List.length_append,length₃,length₂]
  · rw [appended₃,List.map_append,said₂]
    rw [List.take_append_of_le_length (by simp [Deviation.empty])]
    simp only [Deviation.empty,List.map_nil,List.nil_append]
    exact List.take_of_length_le (by simp)
  · intro pid isproc apart
    rw [recorded₄,views₃ pid isproc apart]
    exact (seen₂ pid isproc).2

end

def nextSample [DecidableEq κ] (d : Pdb κ) (s : Sample κ) : Option (Pdb κ) := (deviattask s d).map Prod.fst

/- The process exits and accounting records name another task. -/
def Spared (pid : Int) (isproc : Bool) (s : Sample κ) : Prop := ∀ cur ∈ s.curpexit, cur.pid ≠ 0 ∧ ¬ (cur.pid = pid ∧ isproc = true)

theorem emptyStored [Inhabited κ] : Stored (Pdb.empty : Pdb κ) ⟨fun _ => [],fun _ => zeroed,[]⟩ := by
  refine ⟨fun i a mem => absurd mem List.not_mem_nil,fun a alloc => ?_,rfl,fun _ => List.nodup_nil,fun _ => rfl⟩
  by_cases anchor : a = presidue
  · exact ⟨anchor ▸ Nat.one_pos,Or.inl anchor⟩
  · simp [Pdb.empty,anchor] at alloc

section
variable [DecidableEq κ] {d : Pdb κ} {t : Table κ}

theorem samplesEq {samples : List (Sample κ)} (stored : Stored d t) (single : Single t) (positive : Positive t)
    (gathered : ∀ s ∈ samples, Gathered s.curtpres) :
    ∃ e u, attempt nextSample d samples = some e ∧ Stored e u ∧ Single u ∧ Positive u ∧ ∀ pid isproc, (∀ s ∈ samples, Spared pid isproc s) →
      recorded pid isproc u = samples.foldl (fun old s => remembered old (keyed pid isproc s.curtpres)) (recorded pid isproc t) := by
  induction samples generalizing d t with
  | nil => exact ⟨d,t,rfl,stored,single,positive,fun _ _ _ => rfl⟩
  | cons s rest ih =>
    obtain ⟨e,v,u,went,stored',sampled⟩ := deviattaskEq stored single positive (gathered s List.mem_cons_self)
    obtain ⟨f,w,later,stored'',single',positive',holds⟩ := ih stored' sampled.single sampled.positive
      (fun x mem => gathered x (List.mem_cons_of_mem s mem))
    refine ⟨f,w,by simp only [attempt,nextSample,went,Option.map_some,Option.bind_some]; exact later,stored'',single',positive',
      fun pid isproc spared => ?_⟩
    rw [holds pid isproc (fun x mem => spared x (List.mem_cons_of_mem s mem)),sampled.recorded pid isproc (spared s List.mem_cons_self),
      List.foldl_cons]

end

end PracticeSuite.TaskDatabase
