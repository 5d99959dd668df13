import PracticeSuite.ProcDbase

/-! What the structures of the process database stand for: a table of the entries in each hash chain
and of those in the residue list. Each operation is shown to do to the table what it is meant to. -/
namespace PracticeSuite.ProcTable
open LinkedHeap ProcDbase

variable {κ : Type}

structure Table (κ : Type) where
  bucket : Nat → List Nat
  stat : Nat → Tstat κ
  residue : List Nat

def Table.same (pid : Int) (isproc : Bool) (t : Table κ) (a : Nat) : Bool := sameTask pid isproc (t.stat a)
def Table.wanted (pid : Int) (isproc : Bool) (btime : Int) (t : Table κ) (a : Nat) : Bool := t.same pid isproc a && started btime (t.stat a)

def Table.get (pid : Int) (isproc : Bool) (btime : Int) (t : Table κ) : Option Nat := (t.bucket (hashq pid)).find? (t.wanted pid isproc btime)
def Table.first (pid : Int) (isproc : Bool) (t : Table κ) : Option Nat := (t.bucket (hashq pid)).find? (t.same pid isproc)

def Table.refer (found : Option Nat) (t : Table κ) : Table κ :=
  match found with
  | none => t
  | some a => {t with residue := t.residue.erase a}

def Table.push (a : Nat) (cur : Tstat κ) (t : Table κ) : Table κ :=
  {t with bucket := Function.update t.bucket (hashq cur.pid) (a :: t.bucket (hashq cur.pid)), stat := Function.update t.stat a cur}

def Table.restat (a : Nat) (cur : Tstat κ) (t : Table κ) : Table κ := {t with stat := Function.update t.stat a cur}

def Table.delete (a : Nat) (t : Table κ) : Table κ :=
  {t with
    bucket := Function.update t.bucket (hashq (t.stat a).pid) ((t.bucket (hashq (t.stat a).pid)).erase a)
    residue := t.residue.erase a}

def phnext (d : Pdb κ) (a : Nat) : Option Nat := (d.heap a).bind Pinfo.phnext
def prnext (d : Pdb κ) (a : Nat) : Option Nat := (d.heap a).bind Pinfo.prnext
def prprev (d : Pdb κ) (a : Nat) : Option Nat := (d.heap a).bind Pinfo.prprev
def tstat (d : Pdb κ) (a : Nat) : Option (Tstat κ) := (d.heap a).map Pinfo.tstat

/- The hash chains hold the entries of the table, each in the chain of its PID, and nothing else is
allocated but the anchor. -/
structure Stored (d : Pdb κ) (t : Table κ) : Prop where
  held : ∀ i, ∀ a ∈ t.bucket i, tstat d a = some (t.stat a) ∧ hashq (t.stat a).pid = i ∧ a ≠ presidue
  only : ∀ a, (d.heap a).isSome → a < d.brk ∧ (a = presidue ∨ a ∈ t.bucket (hashq (t.stat a).pid))
  anchor : (d.heap presidue).isSome
  distinct : ∀ i, (t.bucket i).Nodup
  chains : ∀ i, Chain (phnext d) (d.phash i) (t.bucket i)

structure Residue (d : Pdb κ) (t : Table κ) : Prop where
  ring : Ring (prnext d) (prprev d) presidue t.residue
  nodes : ∀ a ∈ t.residue, a ∈ t.bucket (hashq (t.stat a).pid)
  others : ∀ i, ∀ a ∈ t.bucket i, a ∉ t.residue → prnext d a = none

def Table.drop (found : Option Nat) (t : Table κ) : Table κ :=
  match found with
  | none => t
  | some a => t.delete a

def setNext (a : Nat) (v : Option Nat) (d : Pdb κ) : Pdb κ :=
  {d with heap := Function.update d.heap a ((d.heap a).map (fun p => {p with prnext := v}))}
def setPrev (a : Nat) (v : Option Nat) (d : Pdb κ) : Pdb κ :=
  {d with heap := Function.update d.heap a ((d.heap a).map (fun p => {p with prprev := v}))}

structure SameCore (d e : Pdb κ) : Prop where
  phash : e.phash = d.phash
  brk : e.brk = d.brk
  tstat : tstat e = tstat d
  phnext : phnext e = phnext d

section
variable {d e f : Pdb κ} {a b : Nat} {v : Option Nat}

theorem SameCore.refl (d : Pdb κ) : SameCore d d := ⟨rfl,rfl,rfl,rfl⟩
theorem SameCore.trans (first : SameCore d e) (second : SameCore e f) : SameCore d f :=
  ⟨second.phash.trans first.phash,second.brk.trans first.brk,second.tstat.trans first.tstat,second.phnext.trans first.phnext⟩

theorem isSomeTstat : (d.heap a).isSome = (tstat d a).isSome := by simp [tstat]

theorem updatedField {β : Type} (field : Option (Pinfo κ) → β) {f : Pinfo κ → Pinfo κ} (same : ∀ p, field (some (f p)) = field (some p)) :
    (fun b => field (Function.update d.heap a ((d.heap a).map f) b)) = fun b => field (d.heap b) := by
  funext b
  by_cases here : b = a
  · subst here
    rw [Function.update_self]
    cases d.heap b with
    | none => rfl
    | some p => exact same p
  · rw [Function.update_of_ne here]

theorem setNextCore : SameCore d (setNext a v d) :=
  ⟨rfl,rfl,updatedField (fun p => p.map Pinfo.tstat) (fun _ => rfl),updatedField (fun p => p.bind Pinfo.phnext) (fun _ => rfl)⟩
theorem setPrevCore : SameCore d (setPrev a v d) :=
  ⟨rfl,rfl,updatedField (fun p => p.map Pinfo.tstat) (fun _ => rfl),updatedField (fun p => p.bind Pinfo.phnext) (fun _ => rfl)⟩

theorem prprevSetNext : prprev (setNext a v d) = prprev d := updatedField (fun p => p.bind Pinfo.prprev) (fun _ => rfl)
theorem prnextSetPrev : prnext (setPrev a v d) = prnext d := updatedField (fun p => p.bind Pinfo.prnext) (fun _ => rfl)

theorem prnextSetNext (alloc : (d.heap a).isSome) : prnext (setNext a v d) = Function.update (prnext d) a v := by
  funext b
  by_cases here : b = a
  · subst here
    obtain ⟨p,held⟩ := Option.isSome_iff_exists.mp alloc
    simp [prnext,setNext,held]
  · simp [prnext,setNext,here]

theorem prprevSetPrev (alloc : (d.heap a).isSome) : prprev (setPrev a v d) = Function.update (prprev d) a v := by
  funext b
  by_cases here : b = a
  · subst here
    obtain ⟨p,held⟩ := Option.isSome_iff_exists.mp alloc
    simp [prprev,setPrev,held]
  · simp [prprev,setPrev,here]

theorem storeNext {p : Pinfo κ} (held : d.heap a = some p) (v : Option Nat) : d.store a {p with prnext := v} = setNext a v d := by
  simp [Pdb.store,setNext,held]

theorem storePrev {p : Pinfo κ} (held : d.heap a = some p) (v : Option Nat) : d.store a {p with prprev := v} = setPrev a v d := by
  simp [Pdb.store,setPrev,held]

theorem coreAlloc (core : SameCore d e) : (e.heap a).isSome = (d.heap a).isSome := by
  rw [isSomeTstat,isSomeTstat,core.tstat]

theorem unchainNextEq {y : Nat} (next : prnext d a = some y) (alloc : (d.heap y).isSome) :
    unchainNext a d = some (setPrev y (prprev d a) d) := by
  obtain ⟨p,held,successor⟩ := Option.bind_eq_some_iff.mp next
  obtain ⟨q,there⟩ := Option.isSome_iff_exists.mp alloc
  simp [unchainNext,held,successor,there,setPrev,Pdb.store,prprev]

theorem unchainPrevEq {x : Nat} (prev : prprev d a = some x) (alloc : (d.heap x).isSome) :
    unchainPrev a d = some (setNext x (prnext d a) d) := by
  obtain ⟨p,held,predecessor⟩ := Option.bind_eq_some_iff.mp prev
  obtain ⟨q,there⟩ := Option.isSome_iff_exists.mp alloc
  simp [unchainPrev,held,predecessor,there,setNext,Pdb.store,prnext]

end

structure Unlinked (d e : Pdb κ) (a : Nat) (residue : List Nat) : Prop where
  core : SameCore d e
  ring : Ring (prnext e) (prprev e) presidue (residue.erase a)
  rest : ∀ b, b ∉ presidue::residue → prnext e b = prnext d b

section
variable {d : Pdb κ} {a : Nat} {residue : List Nat}

theorem relinked {e : Pdb κ} {x y : Nat} (core : SameCore d e) (ring : Ring (prnext d) (prprev d) presidue residue) (mem : a ∈ residue)
    (prev : prprev d a = some x) (next : prnext d a = some y) (memX : x ∈ presidue::residue)
    (nextEq : prnext e = Function.update (prnext d) x (some y)) (prevEq : prprev e = Function.update (prprev d) y (some x)) :
    Unlinked d e a residue := by
  obtain ⟨before,after,-,split,erased⟩ := List.exists_erase_eq mem
  rw [split] at ring
  refine ⟨core,?_,fun b outside => ?_⟩
  · rw [erased]
    exact ringUnlink ring prev next (by rw [nextEq,Function.update_self]) (by rw [prevEq,Function.update_self])
      (fun b _ other => by rw [nextEq,Function.update_of_ne other]) (fun b _ other => by rw [prevEq,Function.update_of_ne other])
  · rw [nextEq,Function.update_of_ne (fun same : b = x => outside (same ▸ memX))]

theorem unchained (ring : Ring (prnext d) (prprev d) presidue residue) (alloc : ∀ b ∈ presidue::residue, (d.heap b).isSome) (mem : a ∈ residue) :
    (∃ e, (unchainNext a d).bind (unchainPrev a) = some e ∧ Unlinked d e a residue) ∧
      ∃ e, (unchainPrev a d).bind (unchainNext a) = some e ∧ Unlinked d e a residue := by
  obtain ⟨x,y,prev,next,memX,memY,notX,notY⟩ := ringNeighbours ring mem
  constructor
  · have first := unchainNextEq next (alloc y memY)
    have core : SameCore d (setPrev y (some x) d) := setPrevCore
    have prev' : prprev (setPrev y (some x) d) a = some x := by rw [prprevSetPrev (alloc y memY),Function.update_of_ne notY,prev]
    have allocX : ((setPrev y (some x) d).heap x).isSome := (coreAlloc core).trans (alloc x memX)
    have second := unchainPrevEq prev' allocX
    rw [prnextSetPrev,next] at second
    refine ⟨_,by rw [first,prev,Option.bind_some,second],relinked (core.trans setNextCore) ring mem prev next memX ?_ ?_⟩
    · rw [prnextSetNext allocX,prnextSetPrev]
    · rw [prprevSetNext,prprevSetPrev (alloc y memY)]
  · have first := unchainPrevEq prev (alloc x memX)
    have core : SameCore d (setNext x (some y) d) := setNextCore
    have next' : prnext (setNext x (some y) d) a = some y := by rw [prnextSetNext (alloc x memX),Function.update_of_ne notX,next]
    have allocY : ((setNext x (some y) d).heap y).isSome := (coreAlloc core).trans (alloc y memY)
    have second := unchainNextEq next' allocY
    rw [prprevSetNext,prev] at second
    refine ⟨_,by rw [first,next,Option.bind_some,second],relinked (core.trans setPrevCore) ring mem prev next memX ?_ ?_⟩
    · rw [prnextSetPrev,prnextSetNext (alloc x memX)]
    · rw [prprevSetPrev allocY,prprevSetNext]

theorem detached {p : Pinfo κ} (ring : Ring (prnext d) (prprev d) presidue residue) (alloc : ∀ b ∈ presidue::residue, (d.heap b).isSome)
    (out : a ∉ residue → prnext d a = none) (held : d.heap a = some p) :
    (∃ e, unchain p a d = some e ∧ Unlinked d e a residue) ∧ ∃ e, unchainFirst p a d = some e ∧ Unlinked d e a residue := by
  unfold unchain unchainFirst
  have own : prnext d a = p.prnext := by simp [prnext,held]
  by_cases mem : a ∈ residue
  · obtain ⟨x,y,-,next,-⟩ := ringNeighbours ring mem
    rw [if_pos (by rw [← own,next]; rfl),if_pos (by rw [← own,next]; rfl)]
    exact unchained ring alloc mem
  · rw [← own,out mem]
    have stays : Unlinked d d a residue := ⟨SameCore.refl d,by rwa [List.erase_of_not_mem mem],fun b _ => rfl⟩
    exact ⟨⟨d,rfl,stays⟩,d,rfl,stays⟩

end

section
variable {d e : Pdb κ} {t : Table κ} {a : Nat} {i : Nat}

theorem storedCore (stored : Stored d t) (core : SameCore d e) : Stored e t := by
  refine ⟨?_,?_,?_,stored.distinct,?_⟩
  · rw [core.tstat]
    exact stored.held
  · rw [core.brk]
    intro a alloc
    exact stored.only a ((coreAlloc core).symm.trans alloc)
  · exact (coreAlloc core).trans stored.anchor
  · rw [core.phash,core.phnext]
    exact stored.chains

theorem Stored.alloc (stored : Stored d t) (mem : a ∈ t.bucket i) : (d.heap a).isSome := by
  rw [isSomeTstat,(stored.held i a mem).1]
  rfl

theorem residueAlloc (stored : Stored d t) (residue : Residue d t) : ∀ b ∈ presidue::t.residue, (d.heap b).isSome := by
  intro b mem
  rcases List.mem_cons.mp mem with rfl | mem
  · exact stored.anchor
  · exact stored.alloc (residue.nodes b mem)

theorem bucketShort (stored : Stored d t) (i : Nat) : (t.bucket i).length ≤ d.brk := by
  have within : t.bucket i ⊆ List.range d.brk := fun a mem => List.mem_range.mpr (stored.only a (stored.alloc mem)).1
  exact ((stored.distinct i).subperm within).length_le.trans_eq List.length_range

theorem referEq (stored : Stored d t) (residue : Residue d t) (mem : a ∈ t.bucket i) :
    ∃ e, refer a d = some e ∧ Stored e t ∧ Residue e {t with residue := t.residue.erase a} := by
  obtain ⟨p,held⟩ := Option.isSome_iff_exists.mp (stored.alloc mem)
  have notAnchor := (stored.held i a mem).2.2
  obtain ⟨u,went,unlinked⟩ := (detached residue.ring (residueAlloc stored residue) (residue.others i a mem) held).1
  have alloc : (u.heap a).isSome := (coreAlloc unlinked.core).trans (stored.alloc mem)
  obtain ⟨q,kept⟩ := Option.isSome_iff_exists.mp alloc
  have cleared : SameCore u (setNext a none u) := setNextCore
  have core := (unlinked.core.trans cleared).trans (setPrevCore (a := a) (v := none))
  have result : refer a d = some (setPrev a none (setNext a none u)) := by
    simp only [refer,held,bind,Option.bind_some,went,kept]
    simp [setPrev,setNext,kept,Pdb.store]
  have alloc' : ((setNext a none u).heap a).isSome := (coreAlloc cleared).trans alloc
  have nextEq : prnext (setPrev a none (setNext a none u)) = Function.update (prnext u) a none := by rw [prnextSetPrev,prnextSetNext alloc]
  have prevEq : prprev (setPrev a none (setNext a none u)) = Function.update (prprev u) a none := by rw [prprevSetPrev alloc',prprevSetNext]
  have distinct := (List.nodup_cons.mp residue.ring.distinct).2
  have gone : ∀ b ∈ presidue::t.residue.erase a, b ≠ a := by
    intro b at_ same
    subst same
    rcases List.mem_cons.mp at_ with zero | at_
    · exact notAnchor zero
    · exact (distinct.mem_erase_iff.mp at_).1 rfl
  refine ⟨_,result,storedCore stored core,⟨?_,fun b at_ => residue.nodes b (List.mem_of_mem_erase at_),fun j b at_ out => ?_⟩⟩
  · exact ringKept unlinked.ring (fun b at_ => by rw [nextEq,Function.update_of_ne (gone b at_)])
      (fun b at_ => by rw [prevEq,Function.update_of_ne (gone b at_)])
  · rw [nextEq]
    by_cases same : b = a
    · rw [same,Function.update_self]
    · have outside : b ∉ t.residue := fun inside => out ((List.mem_erase_of_ne same).mpr inside)
      rw [Function.update_of_ne same,unlinked.rest b (by simp [outside,(stored.held j b at_).2.2]),residue.others j b at_ outside]

theorem heldNode (stored : Stored d t) (mem : a ∈ t.bucket i) : ∃ p, d.heap a = some p ∧ p.tstat = t.stat a := by
  have held := (stored.held i a mem).1
  simpa only [tstat,Option.map_eq_some_iff] using held

theorem gettaskScanEq (stored : Stored d t) (residue : Residue d t) (pid : Int) (isproc : Bool) (btime : Int) {fuel : Nat} {head : Option Nat}
    {rest : List Nat} (within : ∀ a ∈ rest, a ∈ t.bucket i) (chain : Chain (phnext d) head rest) (enough : rest.length ≤ fuel) :
    ∃ e, gettaskScan pid isproc btime d fuel head = some (rest.find? (t.wanted pid isproc btime),e) ∧ Stored e t ∧
      Residue e (t.refer (rest.find? (t.wanted pid isproc btime))) := by
  induction rest generalizing fuel head with
  | nil =>
    cases chain
    exact ⟨d,by cases fuel <;> rfl,stored,residue⟩
  | cons a rest ih =>
    obtain ⟨rfl,chain⟩ := chain
    obtain ⟨fuel,rfl⟩ := Nat.exists_eq_succ_of_ne_zero (Nat.ne_of_gt (Nat.lt_of_lt_of_le (Nat.succ_pos _) enough))
    obtain ⟨p,held,same⟩ := heldNode stored (within a List.mem_cons_self)
    simp only [gettaskScan,held,same,bind,Option.bind_some]
    by_cases wanted : t.wanted pid isproc btime a = true
    · obtain ⟨e,went,kept,off⟩ := referEq stored residue (within a List.mem_cons_self)
      rw [if_pos (by exact wanted),List.find?_cons_of_pos wanted,went]
      exact ⟨e,rfl,kept,off⟩
    · rw [if_neg (by exact wanted),List.find?_cons_of_neg wanted]
      have link : phnext d a = p.phnext := by simp [phnext,held]
      rw [link] at chain
      exact ih (fun b mem => within b (List.mem_cons_of_mem a mem)) chain (Nat.le_of_succ_le_succ enough)

theorem gettaskEq (stored : Stored d t) (residue : Residue d t) (pid : Int) (isproc : Bool) (btime : Int) :
    ∃ e, gettask pid isproc btime d = some (t.get pid isproc btime,e) ∧ Stored e t ∧ Residue e (t.refer (t.get pid isproc btime)) :=
  gettaskScanEq stored residue pid isproc btime (fun _ mem => mem) (stored.chains (hashq pid)) (bucketShort stored (hashq pid))

theorem freshBrk (stored : Stored d t) : d.heap d.brk = none ∧ ∀ i, d.brk ∉ t.bucket i := by
  have free : d.heap d.brk = none := by
    by_contra some_
    exact absurd (stored.only d.brk (Option.isSome_iff_ne_none.mpr some_)).1 (Nat.lt_irrefl _)
  refine ⟨free,fun i mem => ?_⟩
  have alloc := stored.alloc mem
  rw [free] at alloc
  cases alloc

theorem addtaskEq (stored : Stored d t) (residue : Residue d t) (cur : Tstat κ) :
    Stored (addtask cur d) (t.push d.brk cur) ∧ Residue (addtask cur d) (t.push d.brk cur) := by
  obtain ⟨free,new⟩ := freshBrk stored
  have inUse : ∀ a, (d.heap a).isSome → a ≠ d.brk := fun a alloc same => by rw [same,free] at alloc; cases alloc
  have first : presidue ≠ d.brk := inUse presidue stored.anchor
  have older : ∀ i, ∀ a ∈ t.bucket i, a ≠ d.brk := fun i a mem => inUse a (stored.alloc mem)
  have tstatEq : tstat (addtask cur d) = Function.update (tstat d) d.brk (some cur) := Function.comp_update (Option.map Pinfo.tstat) _ _ _
  have phnextEq : phnext (addtask cur d) = Function.update (phnext d) d.brk (d.phash (hashq cur.pid)) :=
    Function.comp_update (fun p => Option.bind p Pinfo.phnext) _ _ _
  have prnextEq : prnext (addtask cur d) = Function.update (prnext d) d.brk none :=
    Function.comp_update (fun p => Option.bind p Pinfo.prnext) _ _ _
  have prprevEq : prprev (addtask cur d) = Function.update (prprev d) d.brk none :=
    Function.comp_update (fun p => Option.bind p Pinfo.prprev) _ _ _
  have phashEq : (addtask cur d).phash = Function.update d.phash (hashq cur.pid) (some d.brk) := by
    simp [addtask,Pdb.store]
  have here : (t.push d.brk cur).bucket (hashq cur.pid) = d.brk :: t.bucket (hashq cur.pid) := Function.update_self _ _ _
  have elsewhere : ∀ i, i ≠ hashq cur.pid → (t.push d.brk cur).bucket i = t.bucket i := fun i other => Function.update_of_ne other _ _
  have members : ∀ i a, a ∈ (t.push d.brk cur).bucket i → (a = d.brk ∧ i = hashq cur.pid) ∨ (a ∈ t.bucket i ∧ a ≠ d.brk) := by
    intro i a mem
    by_cases at_ : i = hashq cur.pid
    · subst at_
      rw [here,List.mem_cons] at mem
      exact mem.imp (fun same => ⟨same,rfl⟩) (fun old => ⟨old,older _ a old⟩)
    · rw [elsewhere i at_] at mem
      exact Or.inr ⟨mem,older i a mem⟩
  have stays : ∀ i a, a ∈ t.bucket i → a ∈ (t.push d.brk cur).bucket i := by
    intro i a mem
    by_cases at_ : i = hashq cur.pid
    · subst at_
      rw [here]
      exact List.mem_cons_of_mem _ mem
    · rwa [elsewhere i at_]
  have statOld : ∀ a, a ≠ d.brk → (t.push d.brk cur).stat a = t.stat a := fun a other => Function.update_of_ne other _ _
  refine ⟨⟨?_,?_,?_,?_,?_⟩,?_,?_,?_⟩
  · intro i a mem
    rcases members i a mem with ⟨rfl,rfl⟩ | ⟨old,other⟩
    · simp [tstatEq,Table.push,first.symm]
    · rw [tstatEq,Function.update_of_ne other,statOld a other]
      exact stored.held i a old
  · intro a alloc
    by_cases new : a = d.brk
    · subst new
      exact ⟨Nat.lt_succ_self _,Or.inr (by simp [Table.push])⟩
    · rw [isSomeTstat,tstatEq,Function.update_of_ne new,← isSomeTstat] at alloc
      obtain ⟨below,at_⟩ := stored.only a alloc
      rw [statOld a new]
      exact ⟨Nat.lt_succ_of_lt below,at_.imp_right (stays _ a)⟩
  · rw [isSomeTstat,tstatEq,Function.update_of_ne first,← isSomeTstat]
    exact stored.anchor
  · intro i
    by_cases at_ : i = hashq cur.pid
    · subst at_
      rw [here]
      exact List.nodup_cons.mpr ⟨new _,stored.distinct _⟩
    · rw [elsewhere i at_]
      exact stored.distinct i
  · intro i
    rw [phashEq,phnextEq]
    by_cases at_ : i = hashq cur.pid
    · subst at_
      rw [here,Function.update_self]
      exact chainPush (stored.chains _) (fun b mem => Function.update_of_ne (older _ b mem) _ _) (Function.update_self _ _ _)
    · rw [elsewhere i at_,Function.update_of_ne at_]
      exact chainKept (fun b mem => Function.update_of_ne (older i b mem) _ _) (stored.chains i)
  · have linked : ∀ b ∈ presidue::t.residue, b ≠ d.brk := fun b mem => inUse b (residueAlloc stored residue b mem)
    exact ringKept residue.ring (fun b mem => by rw [prnextEq,Function.update_of_ne (linked b mem)])
      (fun b mem => by rw [prprevEq,Function.update_of_ne (linked b mem)])
  · intro a mem
    have node := residue.nodes a mem
    rw [statOld a (older _ a node)]
    exact stays _ a node
  · intro i a mem out
    rw [prnextEq]
    rcases members i a mem with ⟨rfl,-⟩ | ⟨old,other⟩
    · exact Function.update_self _ _ _
    · rw [Function.update_of_ne other]
      exact residue.others i a old out

structure Spliced (d e : Pdb κ) (t : Table κ) (a : Nat) : Prop where
  brk : e.brk = d.brk
  tstat : tstat e = tstat d
  prnext : prnext e = prnext d
  prprev : prprev e = prprev d
  chains : ∀ i, Chain (phnext e) (e.phash i) ((t.delete a).bucket i)

theorem freed {u : Pdb κ} (stored : Stored d t) (residue : Residue d t) (mem : a ∈ t.bucket (hashq (t.stat a).pid)) (spliced : Spliced d e t a)
    (unlinked : Unlinked e u a t.residue) : Stored (free a u) (t.delete a) ∧ Residue (free a u) (t.delete a) := by
  have tstatEq : tstat (free a u) = Function.update (tstat d) a none := by
    rw [← spliced.tstat,← unlinked.core.tstat]
    exact Function.comp_update (Option.map Pinfo.tstat) _ _ _
  have phnextEq : phnext (free a u) = Function.update (phnext e) a none := by
    rw [← unlinked.core.phnext]
    exact Function.comp_update (fun p => Option.bind p Pinfo.phnext) _ _ _
  have prnextEq : prnext (free a u) = Function.update (prnext u) a none := Function.comp_update (fun p => Option.bind p Pinfo.prnext) _ _ _
  have prprevEq : prprev (free a u) = Function.update (prprev u) a none := Function.comp_update (fun p => Option.bind p Pinfo.prprev) _ _ _
  have notAnchor := (stored.held _ a mem).2.2
  have here : (t.delete a).bucket (hashq (t.stat a).pid) = (t.bucket (hashq (t.stat a).pid)).erase a := Function.update_self _ _ _
  have elsewhere : ∀ i, i ≠ hashq (t.stat a).pid → (t.delete a).bucket i = t.bucket i := fun i other => Function.update_of_ne other _ _
  have members : ∀ i b, b ∈ (t.delete a).bucket i ↔ b ∈ t.bucket i ∧ b ≠ a := by
    intro i b
    by_cases at_ : i = hashq (t.stat a).pid
    · subst at_
      rw [here,(stored.distinct _).mem_erase_iff,and_comm]
    · rw [elsewhere i at_]
      refine ⟨fun old => ⟨old,fun same => at_ ?_⟩,And.left⟩
      rw [← same,(stored.held i b old).2.1]
  have distinct := (List.nodup_cons.mp residue.ring.distinct).2
  have gone : ∀ b ∈ presidue::t.residue.erase a, b ≠ a := by
    intro b at_ same
    subst same
    rcases List.mem_cons.mp at_ with zero | at_
    · exact notAnchor zero
    · exact (distinct.mem_erase_iff.mp at_).1 rfl
  refine ⟨⟨?_,?_,?_,?_,?_⟩,?_,?_,?_⟩
  · intro i b at_
    obtain ⟨old,other⟩ := (members i b).mp at_
    rw [tstatEq,Function.update_of_ne other]
    exact stored.held i b old
  · intro b alloc
    rw [isSomeTstat,tstatEq] at alloc
    have other : b ≠ a := by
      intro same
      rw [same,Function.update_self] at alloc
      cases alloc
    rw [Function.update_of_ne other,← isSomeTstat] at alloc
    obtain ⟨below,at_⟩ := stored.only b alloc
    refine ⟨?_,at_.imp_right (fun old => (members _ b).mpr ⟨old,other⟩)⟩
    exact below.trans_eq (spliced.brk.symm.trans unlinked.core.brk.symm)
  · rw [isSomeTstat,tstatEq,Function.update_of_ne notAnchor.symm,← isSomeTstat]
    exact stored.anchor
  · intro i
    by_cases at_ : i = hashq (t.stat a).pid
    · subst at_
      rw [here]
      exact (stored.distinct _).erase a
    · rw [elsewhere i at_]
      exact stored.distinct i
  · intro i
    rw [phnextEq]
    have chain := spliced.chains i
    rw [← unlinked.core.phash] at chain
    exact chainKept (fun b at_ => Function.update_of_ne ((members i b).mp at_).2 _ _) chain
  · exact ringKept unlinked.ring (fun b at_ => by rw [prnextEq,Function.update_of_ne (gone b at_)])
      (fun b at_ => by rw [prprevEq,Function.update_of_ne (gone b at_)])
  · intro b at_
    obtain ⟨other,old⟩ := distinct.mem_erase_iff.mp at_
    exact (members _ b).mpr ⟨residue.nodes b old,other⟩
  · intro i b at_ out
    obtain ⟨old,other⟩ := (members i b).mp at_
    have outside : b ∉ t.residue := fun inside => out ((List.mem_erase_of_ne other).mpr inside)
    rw [prnextEq,Function.update_of_ne other,unlinked.rest b (by simp [outside,(stored.held i b old).2.2]),spliced.prnext]
    exact residue.others i b old outside

theorem splicedFreed {p : Pinfo κ} (stored : Stored d t) (residue : Residue d t) (mem : a ∈ t.bucket (hashq (t.stat a).pid))
    (spliced : Spliced d e t a) (held : e.heap a = some p) :
    (∃ u, unchain p a e = some u ∧ Stored (free a u) (t.delete a) ∧ Residue (free a u) (t.delete a)) ∧
      ∃ u, unchainFirst p a e = some u ∧ Stored (free a u) (t.delete a) ∧ Residue (free a u) (t.delete a) := by
  have ring : Ring (prnext e) (prprev e) presidue t.residue := by
    rw [spliced.prnext,spliced.prprev]
    exact residue.ring
  have alloc : ∀ b ∈ presidue::t.residue, (e.heap b).isSome := by
    intro b at_
    rw [isSomeTstat,spliced.tstat,← isSomeTstat]
    exact residueAlloc stored residue b at_
  have out : a ∉ t.residue → prnext e a = none := by
    rw [spliced.prnext]
    exact residue.others _ a mem
  obtain ⟨⟨u,went,unlinked⟩,v,went',unlinked'⟩ := detached ring alloc out held
  exact ⟨⟨u,went,freed stored residue mem spliced unlinked⟩,v,went',freed stored residue mem spliced unlinked'⟩

theorem deltaskScanEq (stored : Stored d t) (residue : Residue d t) (pid : Int) (isproc : Bool) {fuel ppp : Nat} {pp : Option Nat}
    {before rest : List Nat} (bucket : t.bucket (hashq pid) = before ++ ppp::rest) (chain : Chain (phnext d) pp rest)
    (enough : rest.length ≤ fuel) :
    ∃ e, deltaskScan pid isproc d fuel ppp pp = some ((rest.find? (t.same pid isproc)).isSome,e) ∧
      Stored e (t.drop (rest.find? (t.same pid isproc))) ∧ Residue e (t.drop (rest.find? (t.same pid isproc))) := by
  induction rest generalizing fuel ppp pp before with
  | nil =>
    cases chain
    exact ⟨d,by cases fuel <;> rfl,stored,residue⟩
  | cons a rest ih =>
    obtain ⟨rfl,chain⟩ := chain
    obtain ⟨fuel,rfl⟩ := Nat.exists_eq_succ_of_ne_zero (Nat.ne_of_gt (Nat.lt_of_lt_of_le (Nat.succ_pos _) enough))
    have mem : a ∈ t.bucket (hashq pid) := by simp [bucket]
    obtain ⟨p,held,same⟩ := heldNode stored mem
    have link : phnext d a = p.phnext := by simp [phnext,held]
    simp only [deltaskScan,held,same,bind,Option.bind_some]
    by_cases wanted : t.same pid isproc a = true
    · have home := (stored.held _ a mem).2.1
      have distinct := stored.distinct (hashq pid)
      have chains := stored.chains (hashq pid)
      rw [bucket] at distinct chains
      obtain ⟨q,before_,-⟩ := heldNode stored (a := ppp) (i := hashq pid) (by simp [bucket])
      have apart : a ≠ ppp := by grind
      have phnextEq : phnext (d.store ppp {q with phnext := p.phnext}) = Function.update (phnext d) ppp (phnext d a) := by
        rw [link]
        exact Function.comp_update (fun p => Option.bind p Pinfo.phnext) _ _ _
      have unmoved : ∀ {β : Type} (field : Option (Pinfo κ) → β), field (some {q with phnext := p.phnext}) = field (some q) →
          (fun b => field ((d.store ppp {q with phnext := p.phnext}).heap b)) = fun b => field (d.heap b) := by
        intro β field kept
        funext b
        by_cases at_ : b = ppp
        · subst at_
          simp only [Pdb.store,Function.update_self,before_,kept]
        · simp only [Pdb.store,Function.update_of_ne at_]
      have spliced : Spliced d (d.store ppp {q with phnext := p.phnext}) t a := by
        refine ⟨rfl,unmoved (Option.map Pinfo.tstat) rfl,unmoved (fun p => Option.bind p Pinfo.prnext) rfl,
          unmoved (fun p => Option.bind p Pinfo.prprev) rfl,fun i => ?_⟩
        rw [phnextEq]
        by_cases at_ : i = hashq pid
        · subst at_
          have after : (t.delete a).bucket (hashq pid) = before ++ ppp::rest := by
            simp only [Table.delete,home,Function.update_self,bucket]
            exact eraseNext distinct
          rw [after]
          exact chainCut chains distinct (Function.update_self _ _ _) (fun c at_ => Function.update_of_ne (by grind) _ _)
        · have after : (t.delete a).bucket i = t.bucket i := by
            simp only [Table.delete,home,Function.update_of_ne at_]
          rw [after]
          refine chainKept (fun b other => Function.update_of_ne (fun same => at_ ?_) _ _) (stored.chains i)
          rw [← (stored.held i b other).2.1,same,(stored.held (hashq pid) ppp (by simp [bucket])).2.1]
      have still : (d.store ppp {q with phnext := p.phnext}).heap a = some p := by simp only [Pdb.store,Function.update_of_ne apart,held]
      obtain ⟨⟨u,went,result⟩,-⟩ := splicedFreed stored residue (home ▸ mem) spliced still
      rw [if_pos (by exact wanted),List.find?_cons_of_pos wanted]
      exact ⟨free a u,by simp only [before_,Option.bind_some,went]; rfl,result⟩
    · rw [if_neg (by exact wanted),List.find?_cons_of_neg wanted]
      rw [link] at chain
      have split : t.bucket (hashq pid) = (before ++ [ppp]) ++ a::rest := by simp [bucket]
      exact ih split chain (Nat.le_of_succ_le_succ enough)

theorem deltaskEq (stored : Stored d t) (residue : Residue d t) (pid : Int) (isproc : Bool) (some_ : t.bucket (hashq pid) ≠ []) :
    ∃ e, deltask pid isproc d = some ((t.first pid isproc).isSome,e) ∧ Stored e (t.drop (t.first pid isproc)) ∧
      Residue e (t.drop (t.first pid isproc)) := by
  obtain ⟨a,rest,bucket⟩ := List.exists_cons_of_ne_nil some_
  have mem : a ∈ t.bucket (hashq pid) := by simp [bucket]
  obtain ⟨p,held,same⟩ := heldNode stored mem
  have home := (stored.held _ a mem).2.1
  have link : phnext d a = p.phnext := by simp [phnext,held]
  have chains := stored.chains (hashq pid)
  rw [bucket] at chains
  obtain ⟨head,chain⟩ := chains
  rw [link] at chain
  simp only [deltask,head,held,same,bind,Option.bind_some,Table.first,bucket]
  by_cases wanted : t.same pid isproc a = true
  · have spliced : Spliced d {d with phash := Function.update d.phash (hashq pid) p.phnext} t a := by
      refine ⟨rfl,rfl,rfl,rfl,fun i => ?_⟩
      simp only [Table.delete,home]
      by_cases at_ : i = hashq pid
      · subst at_
        rw [Function.update_self,Function.update_self,bucket,List.erase_cons_head]
        exact chain
      · rw [Function.update_of_ne at_,Function.update_of_ne at_]
        exact stored.chains i
    obtain ⟨-,u,went,result⟩ := splicedFreed stored residue (home ▸ mem) spliced held
    rw [if_pos (by exact wanted),List.find?_cons_of_pos wanted,went]
    exact ⟨free a u,rfl,result⟩
  · rw [if_neg (by exact wanted),List.find?_cons_of_neg wanted]
    have short := bucketShort stored (hashq pid)
    rw [bucket] at short
    exact deltaskScanEq stored residue pid isproc (bucket.trans (List.nil_append _).symm) chain (Nat.le_of_succ_le short)

end

end PracticeSuite.ProcTable
