import PracticeSuite.TaskDatabase

/-! What deviattask makes of any sequence of samples, told by the memory it leaves and the lists it reports. -/
namespace PracticeSuite.TaskRuns
open LinkedHeap ProcDbase ProcTable ProcResidue TaskDeviation TaskRounds TaskDatabase
open Trace (attempt attemptCons)

variable {κ : Type}

def figures (pid : Int) (isproc : Bool) (samples : List (Sample κ)) : Option (Tstat κ) :=
  samples.foldl (fun old s => remembered old (keyed pid isproc s.curtpres)) none

def Held (d : Pdb κ) (a : Nat) (s : Tstat κ) : Prop := a ≠ presidue ∧ tstat d a = some s

section
variable {d : Pdb κ} {t : Table κ} {a b : Nat} {s x : Tstat κ}

theorem heldTask (stored : Stored d t) (held : Held d a s) : a ∈ tasks s.pid s.isproc t ∧ t.stat a = s := by
  obtain ⟨node,there⟩ := held
  have alloc : (d.heap a).isSome := by rw [isSomeTstat,there]; rfl
  have mem := (stored.only a alloc).2.resolve_left node
  have is : t.stat a = s := Option.some.inj ((stored.held _ a mem).1.symm.trans there)
  exact ⟨memTasks.mpr ⟨mem,by rw [is],by rw [is]⟩,is⟩

theorem heldOnce (stored : Stored d t) (single : Single t) (left : Held d a s) (right : Held d b x) (same : key s = key x) : a = b := by
  obtain ⟨memA,-⟩ := heldTask stored left
  obtain ⟨memB,-⟩ := heldTask stored right
  obtain ⟨pid,isproc⟩ := Prod.mk.inj same
  rw [← pid,← isproc] at memB
  rw [onlyMember (single s.pid s.isproc) memB] at memA
  exact List.mem_singleton.mp memA

theorem heldRecorded (stored : Stored d t) (single : Single t) (pid : Int) (isproc : Bool) :
    (∃ a, Held d a s ∧ key s = (pid,isproc)) ↔ recorded pid isproc t = some s := by
  constructor
  · rintro ⟨a,held,own⟩
    obtain ⟨rfl,rfl⟩ := Prod.mk.inj own
    obtain ⟨mem,is⟩ := heldTask stored held
    rw [recorded,onlyMember (single s.pid s.isproc) mem,← is]
    rfl
  · intro is
    obtain ⟨a,mem,rfl⟩ := List.mem_map.mp (List.mem_of_head? is)
    obtain ⟨inside,own,kind⟩ := memTasks.mp mem
    obtain ⟨there,-,node⟩ := stored.held _ a inside
    exact ⟨a,⟨node,there⟩,by rw [key,own,kind]⟩

end

theorem rememberedOlder {old : Tstat κ} {pid : Int} {isproc : Bool} {after : List (Sample κ)}
    (reused : ∀ s ∈ after, ∃ cur, keyed pid isproc s.curtpres = some cur ∧ started cur.btime old = false) :
    after.foldl (fun old s => remembered old (keyed pid isproc s.curtpres)) (some old) = some old := by
  induction after with
  | nil => rfl
  | cons s rest ih =>
    obtain ⟨cur,here,apart⟩ := reused s List.mem_cons_self
    rw [List.foldl_cons,here]
    simp only [remembered,apart,Bool.false_eq_true,if_false]
    exact ih (fun x mem => reused x (List.mem_cons_of_mem s mem))

def first : Sample Unit := ⟨0,[⟨7,true,100,0,0,"cat",false,()⟩,⟨8,false,101,0,0,"cat",false,()⟩],[]⟩
def second : Sample Unit := ⟨400,[⟨7,true,300,0,0,"grep",false,()⟩],[⟨0,true,390,0,0,"cat",false,()⟩]⟩
def third : Sample Unit := ⟨800,[⟨7,true,300,0,0,"grep",false,()⟩],[]⟩

theorem firstGathered : Gathered first.curtpres := ⟨by decide,by decide,by decide⟩
theorem secondGathered : Gathered second.curtpres := ⟨by decide,by decide,by decide⟩
theorem thirdGathered : Gathered third.curtpres := ⟨by decide,by decide,by decide⟩

theorem allGathered : ∀ s ∈ [first,second,third], Gathered s.curtpres := by
  simp only [List.forall_mem_cons]
  exact ⟨firstGathered,secondGathered,thirdGathered,fun _ mem => absurd mem List.not_mem_nil⟩

theorem reuseGathered : ∀ s ∈ [first,third,third], Gathered s.curtpres := by
  simp only [List.forall_mem_cons]
  exact ⟨firstGathered,thirdGathered,thirdGathered,fun _ mem => absurd mem List.not_mem_nil⟩

section
variable [DecidableEq κ] [Inhabited κ]

theorem runEq (samples : List (Sample κ)) (gathered : ∀ s ∈ samples, Gathered s.curtpres) :
    ∃ d t, attempt nextSample Pdb.empty samples = some d ∧ Stored d t ∧ Single t ∧ Positive t ∧
      ∀ pid isproc, (∀ s ∈ samples, Spared pid isproc s) → recorded pid isproc t = figures pid isproc samples :=
  samplesEq emptyStored (fun _ _ => Nat.zero_le 1) (fun _ _ mem => absurd mem List.not_mem_nil) gathered

/- Whatever the samples are, deviattask follows no pointer that is NULL or was freed, ends every loop, and
leaves a database whose chains hold what is allocated, each task once. -/
theorem deviattaskNeverStuck (samples : List (Sample κ)) (gathered : ∀ s ∈ samples, Gathered s.curtpres) :
    ∃ d t, attempt nextSample Pdb.empty samples = some d ∧ Stored d t ∧
      ∀ a b s x, Held d a s → Held d b x → key s = key x → a = b := by
  obtain ⟨d,t,went,stored,single,-⟩ := runEq samples gathered
  exact ⟨d,t,went,stored,fun a b s x => heldOnce stored single⟩

theorem deviattaskNeverStuckReuse : ∃ d t, attempt nextSample Pdb.empty [first,second,third] = some d ∧ Stored d t ∧
    ∀ a b s x, Held d a s → Held d b x → key s = key x → a = b := deviattaskNeverStuck [first,second,third] allGathered

theorem figuresHeld (samples : List (Sample κ)) (pid : Int) (isproc : Bool) (gathered : ∀ s ∈ samples, Gathered s.curtpres)
    (spared : ∀ s ∈ samples, Spared pid isproc s) :
    ∃ d, attempt nextSample Pdb.empty samples = some d ∧
      ∀ s, (∃ a, Held d a s ∧ key s = (pid,isproc)) ↔ figures pid isproc samples = some s := by
  obtain ⟨d,t,went,stored,single,-,kept⟩ := runEq samples gathered
  exact ⟨d,went,fun s => by rw [← kept pid isproc spared]; exact heldRecorded stored single pid isproc⟩

theorem figuresHeldReuse : ∃ d, attempt nextSample Pdb.empty [first,third] = some d ∧
    ∀ s, (∃ a, Held d a s ∧ key s = (7,true)) ↔ figures 7 true [first,third] = some s :=
  figuresHeld [first,third] 7 true (fun s mem => reuseGathered s (by revert s; simp)) (by simp [Spared,first,third])

theorem sampleEq (samples : List (Sample κ)) (s : Sample κ) (gathered : ∀ x ∈ samples ++ [s], Gathered x.curtpres) :
    ∃ d t e v u, attempt nextSample Pdb.empty samples = some d ∧ deviattask s d = some (e,v) ∧ Sampled s t u v ∧
      (∀ pid isproc x, (∃ a, Held d a x ∧ key x = (pid,isproc)) ↔ recorded pid isproc t = some x) ∧
      ∀ pid isproc, (∀ x ∈ samples, Spared pid isproc x) → recorded pid isproc t = figures pid isproc samples := by
  obtain ⟨d,t,went,stored,single,positive,kept⟩ := runEq samples (fun x mem => gathered x (List.mem_append_left [s] mem))
  obtain ⟨e,v,u,sampled,-,holds⟩ := deviattaskEq stored single positive (gathered s (List.mem_append_right samples (List.mem_singleton.mpr rfl)))
  exact ⟨d,t,e,v,u,went,sampled,holds,fun pid isproc x => heldRecorded stored single pid isproc,kept⟩

theorem tasksCompared (samples : List (Sample κ)) (s : Sample κ) (gathered : ∀ x ∈ samples ++ [s], Gathered x.curtpres) :
    ∃ d e v, attempt nextSample Pdb.empty samples = some d ∧ deviattask s d = some (e,v) ∧ ∃ held : Int → Bool → Option (Tstat κ),
      (∀ pid isproc x, (∃ a, Held d a x ∧ key x = (pid,isproc)) ↔ held pid isproc = some x) ∧
      (∀ pid isproc, (∀ x ∈ samples, Spared pid isproc x) → held pid isproc = figures pid isproc samples) ∧
      (v.taskall.map said).take s.curtpres.length =
        s.curtpres.map (fun cur => (key cur,compared cur ((held cur.pid cur.isproc).filter (started cur.btime)))) := by
  obtain ⟨d,t,e,v,u,went,sampled,holds,held,kept⟩ := sampleEq samples s gathered
  exact ⟨d,e,v,went,sampled,fun pid isproc => recorded pid isproc t,held,kept,holds.reported⟩

theorem tasksComparedReuse : ∃ d e v, attempt nextSample Pdb.empty [first,third] = some d ∧ deviattask third d = some (e,v) ∧
    (v.taskall.map said).take 1 = [((7,true),none,true)] ∧
    ∃ a, Held d a ⟨7,true,100,0,0,"cat",false,()⟩ := by
  obtain ⟨d,e,v,went,sampled,held,inMemory,kept,reported⟩ := tasksCompared [first,third] third reuseGathered
  have older : held 7 true = some ⟨7,true,100,0,0,"cat",false,()⟩ := kept 7 true (by simp [Spared,first,third])
  obtain ⟨a,there,-⟩ := (inMemory 7 true _).mpr older
  refine ⟨d,e,v,went,sampled,?_,a,there⟩
  simp only [third,List.length_singleton,List.map_singleton,older] at reported
  exact reported

theorem listsFit (samples : List (Sample κ)) (s : Sample κ) (gathered : ∀ x ∈ samples ++ [s], Gathered x.curtpres) :
    ∃ d e v, attempt nextSample Pdb.empty samples = some d ∧ deviattask s d = some (e,v) ∧
      v.taskall.length = s.curtpres.length + s.curpexit.length ∧
      v.ntaskactive = v.taskall.countP (fun x => !x.gen.wasinactive) ∧
      (procall v).length ≤ v.nprocall ∧ (procactive v).length ≤ v.nprocactive ∧
      ((procall v).length = v.nprocall ↔ ∀ cur ∈ s.curpexit, cur.isproc = true) ∧
      ((procactive v).length = v.nprocactive ↔ ∀ cur ∈ s.curpexit, cur.isproc = true) := by
  obtain ⟨d,t,e,v,u,went,sampled,holds,-⟩ := sampleEq samples s gathered
  have processes : (∀ cur ∈ s.curpexit, cur.isproc = true) ↔ s.curpexit.countP (fun cur => !cur.isproc) = 0 := by
    simp [List.countP_eq_zero]
  have all := holds.ahead.all
  have active := holds.ahead.active
  rw [List.countP_eq_length_filter] at all active
  refine ⟨d,e,v,went,sampled,holds.length,holds.ahead.tasks,?_,?_,?_,?_⟩
  · exact all ▸ Nat.le_add_right _ _
  · exact active ▸ Nat.le_add_right _ _
  · rw [processes,all,procall]
    omega
  · rw [processes,active,procactive]
    omega

theorem listsFitReuse : ∃ d e v, attempt nextSample Pdb.empty [first] = some d ∧ deviattask second d = some (e,v) ∧
    v.taskall.length = 2 ∧ (procall v).length = v.nprocall ∧ (procactive v).length = v.nprocactive := by
  obtain ⟨d,e,v,went,sampled,length,-,-,-,all,active⟩ := listsFit [first] second (fun s mem => allGathered s (List.mem_append_left [third] mem))
  have processes : ∀ cur ∈ second.curpexit, cur.isproc = true := by decide
  exact ⟨d,e,v,went,sampled,length,all.mpr processes,active.mpr processes⟩

/- pdb_cleanresidue deletes by PID, and finds the younger of two entries first. A task that got the PID
of another between two samples is therefore reported as new in every sample from then on, and the entry
of the other stays. -/
theorem reusedPidStaysNew (before after : List (Sample κ)) (s : Sample κ) (pid : Int) (isproc : Bool) (old : Tstat κ)
    (gathered : ∀ x ∈ (before ++ after) ++ [s], Gathered x.curtpres) (spared : ∀ x ∈ before ++ after, Spared pid isproc x)
    (known : figures pid isproc before = some old)
    (reused : ∀ x ∈ after ++ [s], ∃ cur, keyed pid isproc x.curtpres = some cur ∧ started cur.btime old = false) :
    ∃ d e v, attempt nextSample Pdb.empty (before ++ after) = some d ∧ deviattask s d = some (e,v) ∧
      (∀ x, (∃ a, Held d a x ∧ key x = (pid,isproc)) ↔ x = old) ∧ ((pid,isproc),none,true) ∈ v.taskall.map said := by
  obtain ⟨d,t,e,v,u,went,sampled,holds,held,kept⟩ := sampleEq (before ++ after) s gathered
  have stays : recorded pid isproc t = some old := by
    rw [kept pid isproc spared,figures,List.foldl_append,← figures,known]
    exact rememberedOlder (fun x mem => reused x (List.mem_append_left [s] mem))
  refine ⟨d,e,v,went,sampled,fun x => ?_,?_⟩
  · rw [held,stays,Option.some.injEq]
    exact eq_comm
  · obtain ⟨cur,here,apart⟩ := reused s (List.mem_append_right after (List.mem_singleton.mpr rfl))
    obtain ⟨rfl,rfl⟩ := sameTaskKey.mp (List.find?_some here)
    have asNew : ((key cur),compared cur (lastOf cur t)) = (key cur,none,true) := by
      rw [lastOf,stays]
      simp [Option.filter,apart,compared]
    have mem := List.mem_map_of_mem (f := fun cur => (key cur,compared cur (lastOf cur t))) (List.mem_of_find?_eq_some here)
    rw [← holds.reported,asNew] at mem
    exact List.mem_of_mem_take mem

theorem reusedPidStaysNewReuse : ∃ d e v, attempt nextSample Pdb.empty ([first] ++ [third]) = some d ∧ deviattask third d = some (e,v) ∧
    (∀ x, (∃ a, Held d a x ∧ key x = ((7 : Int),true)) ↔ x = ⟨7,true,100,0,0,"cat",false,()⟩) ∧
    (((7 : Int),true),none,true) ∈ v.taskall.map said :=
  reusedPidStaysNew [first] [third] third 7 true ⟨7,true,100,0,0,"cat",false,()⟩ reuseGathered (by simp [Spared,first,third]) (by decide)
    (fun x mem => ⟨⟨7,true,300,0,0,"grep",false,()⟩,by revert x; decide,by decide⟩)

end

end PracticeSuite.TaskRuns
