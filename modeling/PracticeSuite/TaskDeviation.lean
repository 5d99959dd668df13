import PracticeSuite.ProcResidue
import PracticeSuite.Trace

/-! What deviattask does with the process database in one sample after the other: each task is looked
for among those of the last sample, new ones are added, and those that were not seen are removed. -/
namespace PracticeSuite.TaskDeviation
open ProcDbase ProcTable ProcResidue
open Trace (attempt attemptCons attemptInvariant EachStep)

variable {κ : Type}

/- `prestat`: the figures of the last sample that the counters are subtracted from, none for zeros. -/
structure Devstat (κ : Type) where
  gen : Tstat κ
  prestat : Option (Tstat κ)
  newtask : Bool

structure Deviation (κ : Type) where
  taskall : List (Devstat κ)
  thisproc : Nat
  ntaskactive : Nat
  nprocall : Nat
  nprocactive : Nat

def Deviation.empty : Deviation κ := ⟨[],0,0,0,0⟩

def wakeProc (cur : Tstat κ) (v : Deviation κ) : Option (Deviation κ) :=
  if cur.isproc then some {v with ntaskactive := v.ntaskactive + 1, nprocactive := v.nprocactive + 1}
  else do
    let thisproc ← v.taskall[v.thisproc]?
    if thisproc.gen.wasinactive then some {v with
      taskall := v.taskall.set v.thisproc {thisproc with gen := {thisproc.gen with wasinactive := false}}
      ntaskactive := v.ntaskactive + 2
      nprocactive := v.nprocactive + 1}
    else some {v with ntaskactive := v.ntaskactive + 1}

def present [DecidableEq κ] (cur : Tstat κ) (d : Pdb κ) (v : Deviation κ) : Option (Pdb κ × Deviation κ) := do
  let v := if cur.isproc then {v with thisproc := v.taskall.length, nprocall := v.nprocall + 1} else v
  let (found,d) ← gettask cur.pid cur.isproc cur.btime d
  match found with
  | some pinfo =>
    let p ← d.heap pinfo
    if cur = p.tstat then
      some (d,{v with taskall := v.taskall ++ [⟨{cur with wasinactive := true},none,false⟩]})
    else
      let d ← restat pinfo cur d
      let v ← wakeProc cur v
      some (d,{v with taskall := v.taskall ++ [⟨{cur with wasinactive := false},some p.tstat,false⟩]})
  | none =>
    let v ← wakeProc cur v
    some (addtask {cur with wasinactive := false} d,{v with taskall := v.taskall ++ [⟨{cur with wasinactive := false},none,true⟩]})

def presents [DecidableEq κ] : List (Tstat κ) → Pdb κ → Deviation κ → Option (Pdb κ × Deviation κ)
  | [],d,v => some (d,v)
  | cur::rest,d,v => do
    let (d,v) ← present cur d v
    presents rest d v

/- The figures of the last sample for a process that has exited, and the database after the search. -/
def lastFigures (pretime : Int) (cur : Tstat κ) (d : Pdb κ) : Option (Option (Tstat κ) × Pdb κ) := do
  if cur.pid ≠ 0 then
    let (found,d) ← gettask cur.pid true cur.btime d
    match found with
    | none => some (none,d)
    | some pinfo =>
      let p ← d.heap pinfo
      some (some p.tstat,d)
  else if pretime < cur.btime then some (none,d)
  else
    let found ← srchresidue cur d
    match found with
    | none => some (none,d)
    | some pinfo =>
      let p ← d.heap pinfo
      some (some p.tstat,d)

/- One process that has exited; a PID of zero in the accounting record is taken from the database. -/
def exited (pretime : Int) (cur : Tstat κ) (d : Pdb κ) (v : Deviation κ) : Option (Pdb κ × Deviation κ) := do
  let cur := {cur with wasinactive := false}
  let (prestat,d) ← lastFigures pretime cur d
  let gen := if cur.pid = 0 then {cur with pid := (prestat.map Tstat.pid).getD 0} else cur
  let v := {v with
    taskall := v.taskall ++ [⟨gen,prestat,prestat.isNone⟩]
    nprocall := v.nprocall + 1
    nprocactive := v.nprocactive + 1
    ntaskactive := v.ntaskactive + 1}
  match prestat with
  | none => some (d,v)
  | some pre =>
    if 0 < pre.pid then
      let (_,d) ← deltask pre.pid pre.isproc d
      some (d,v)
    else some (d,v)

def exits (pretime : Int) : List (Tstat κ) → Pdb κ → Deviation κ → Option (Pdb κ × Deviation κ)
  | [],d,v => some (d,v)
  | cur::rest,d,v => do
    let (d,v) ← exited pretime cur d v
    exits pretime rest d v

structure Sample (κ : Type) where
  pretime : Int
  curtpres : List (Tstat κ)
  curpexit : List (Tstat κ)

def deviattask [DecidableEq κ] (s : Sample κ) (d : Pdb κ) : Option (Pdb κ × Deviation κ) := do
  let d ← makeresidue d
  let (d,v) ← presents s.curtpres d .empty
  let (d,v) ← exits s.pretime s.curpexit d v
  let d ← cleanresidue d
  some (d,v)

def procall (v : Deviation κ) : List (Devstat κ) := v.taskall.filter (fun s => s.gen.isproc)
def procactive (v : Deviation κ) : List (Devstat κ) := v.taskall.filter (fun s => s.gen.isproc && !s.gen.wasinactive)

end PracticeSuite.TaskDeviation
