import PracticeSuite.LinkedHeap
import PracticeSuite.CInt

/-! The database of the processes of the last sample: hash chains of pinfo structures, and the cyclic
residue list of those that have not been asked for since. The heap is a map from addresses; an access
through a NULL pointer, or to a structure that was freed, gets stuck. -/
namespace PracticeSuite.ProcDbase
open LinkedHeap

variable {κ : Type}

structure Tstat (κ : Type) where
  pid : Int
  isproc : Bool
  btime : Int
  ruid : Int
  rgid : Int
  name : String
  wasinactive : Bool
  others : κ
  deriving DecidableEq, Repr

structure Pinfo (κ : Type) where
  phnext : Option Nat
  prnext : Option Nat
  prprev : Option Nat
  tstat : Tstat κ

/- `brk` is the next address that calloc hands out. -/
structure Pdb (κ : Type) where
  phash : Nat → Option Nat
  heap : Nat → Option (Pinfo κ)
  brk : Nat

def presidue : Nat := 0

def zeroed [Inhabited κ] : Tstat κ := ⟨0,false,0,0,0,"",false,default⟩

def Pdb.empty [Inhabited κ] : Pdb κ := ⟨fun _ => none,fun a => if a = presidue then some ⟨none,none,none,zeroed⟩ else none,1⟩

def hashq (pid : Int) : Nat := (pid % 256).toNat

def Pdb.store (d : Pdb κ) (a : Nat) (p : Pinfo κ) : Pdb κ := {d with heap := Function.update d.heap a (some p)}

def unchainNext (pp : Nat) (d : Pdb κ) : Option (Pdb κ) := do
  let p ← d.heap pp
  let prnext ← p.prnext
  let q ← d.heap prnext
  some (d.store prnext {q with prprev := p.prprev})

def unchainPrev (pp : Nat) (d : Pdb κ) : Option (Pdb κ) := do
  let p ← d.heap pp
  let prprev ← p.prprev
  let q ← d.heap prprev
  some (d.store prprev {q with prnext := p.prnext})

def unchain (p : Pinfo κ) (pp : Nat) (d : Pdb κ) : Option (Pdb κ) :=
  if p.prnext.isSome then (unchainNext pp d).bind (unchainPrev pp) else some d
def unchainFirst (p : Pinfo κ) (pp : Nat) (d : Pdb κ) : Option (Pdb κ) :=
  if p.prnext.isSome then (unchainPrev pp d).bind (unchainNext pp) else some d

def sameTask (pid : Int) (isproc : Bool) (t : Tstat κ) : Bool := decide (t.pid = pid) && decide (t.isproc = isproc)

def started (btime : Int) (t : Tstat κ) : Bool :=
  let diff := CInt.toInt (t.btime - btime)
  !(decide (1 < diff) || decide (diff < -1))

def refer (pp : Nat) (d : Pdb κ) : Option (Pdb κ) := do
  let p ← d.heap pp
  let d ← unchain p pp d
  let p ← d.heap pp
  some (d.store pp {p with prnext := none, prprev := none})

def gettaskScan (pid : Int) (isproc : Bool) (btime : Int) (d : Pdb κ) : Nat → Option Nat → Option (Option Nat × Pdb κ)
  | _,none => some (none,d)
  | 0,some _ => none
  | fuel+1,some pp => do
    let p ← d.heap pp
    if sameTask pid isproc p.tstat && started btime p.tstat then (refer pp d).map (fun d => (some pp,d))
    else gettaskScan pid isproc btime d fuel p.phnext

def gettask (pid : Int) (isproc : Bool) (btime : Int) (d : Pdb κ) : Option (Option Nat × Pdb κ) :=
  gettaskScan pid isproc btime d d.brk (d.phash (hashq pid))

def addtask (t : Tstat κ) (d : Pdb κ) : Pdb κ :=
  let d := {d with brk := d.brk + 1}.store d.brk ⟨d.phash (hashq t.pid),none,none,t⟩
  {d with phash := Function.update d.phash (hashq t.pid) (some (d.brk - 1))}

def free (pp : Nat) (d : Pdb κ) : Pdb κ := {d with heap := Function.update d.heap pp none}

def deltaskScan (pid : Int) (isproc : Bool) (d : Pdb κ) : Nat → Nat → Option Nat → Option (Bool × Pdb κ)
  | _,_,none => some (false,d)
  | 0,_,some _ => none
  | fuel+1,ppp,some pp => do
    let p ← d.heap pp
    if sameTask pid isproc p.tstat then
      let q ← d.heap ppp
      let d := d.store ppp {q with phnext := p.phnext}
      let d ← unchain p pp d
      some (true,free pp d)
    else deltaskScan pid isproc d fuel pp p.phnext

/- The first entry is looked at without a test for an empty chain. -/
def deltask (pid : Int) (isproc : Bool) (d : Pdb κ) : Option (Bool × Pdb κ) := do
  let pp ← d.phash (hashq pid)
  let p ← d.heap pp
  if sameTask pid isproc p.tstat then
    let d := {d with phash := Function.update d.phash (hashq pid) p.phnext}
    let d ← unchainFirst p pp d
    some (true,free pp d)
  else deltaskScan pid isproc d d.brk pp p.phnext

def chainResidue (pp : Nat) (d : Pdb κ) : Option (Pdb κ) := do
  let pr ← d.heap presidue
  let p ← d.heap pp
  let d := d.store pp {p with prnext := pr.prnext}
  let pr ← d.heap presidue
  let d := d.store presidue {pr with prnext := some pp}
  let p ← d.heap pp
  let prnext ← p.prnext
  let q ← d.heap prnext
  let d := d.store pp {p with prprev := q.prprev}
  let q ← d.heap prnext
  some (d.store prnext {q with prprev := some pp})

def residueScan : Nat → Option Nat → Pdb κ → Option (Pdb κ)
  | _,none,d => some d
  | 0,some _,_ => none
  | fuel+1,some pp,d => do
    let d ← chainResidue pp d
    let p ← d.heap pp
    residueScan fuel p.phnext d

def residueChains : List Nat → Pdb κ → Option (Pdb κ)
  | [],d => some d
  | i::rest,d => do
    let d ← residueScan d.brk (d.phash i) d
    residueChains rest d

def makeresidue (d : Pdb κ) : Option (Pdb κ) := do
  let pr ← d.heap presidue
  residueChains (List.range 256) (d.store presidue {pr with prnext := some presidue, prprev := some presidue})

def cleanScan : Nat → Option Nat → Pdb κ → Option (Pdb κ)
  | fuel,pr,d =>
    if pr = some presidue then some d
    else match fuel with
    | 0 => none
    | fuel+1 => do
      let pp ← pr
      let p ← d.heap pp
      let (_,d) ← deltask p.tstat.pid p.tstat.isproc d
      cleanScan fuel p.prnext d

def cleanresidue (d : Pdb κ) : Option (Pdb κ) := do
  let pr ← d.heap presidue
  cleanScan d.brk pr.prnext d

/- pdb_srchresidue: an exact match of the start time ends the search, of the others the first is kept -/
def srchScan (t : Tstat κ) (d : Pdb κ) : Nat → Option Nat → Option Nat → Option (Option Nat)
  | fuel,pr,prmin =>
    if pr = some presidue then some prmin
    else match fuel with
    | 0 => none
    | fuel+1 => do
      let pp ← pr
      let p ← d.heap pp
      if p.tstat.ruid = t.ruid ∧ p.tstat.rgid = t.rgid ∧ p.tstat.name = t.name then
        let btimediff := p.tstat.btime - t.btime
        if btimediff = 0 then some (some pp)
        else srchScan t d fuel p.prnext (if (btimediff = -1 ∨ btimediff = 1) ∧ prmin = none then some pp else prmin)
      else srchScan t d fuel p.prnext prmin

def srchresidue (t : Tstat κ) (d : Pdb κ) : Option (Option Nat) := do
  let pr ← d.heap presidue
  srchScan t d d.brk pr.prnext none

end PracticeSuite.ProcDbase
