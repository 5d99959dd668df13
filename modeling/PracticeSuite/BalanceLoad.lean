import PracticeSuite.CInt

/-! Placement of a transcoding job on a list of CPU and GPU devices. The scan keeps
the least remaining time of each kind in an int that starts at -1, and the index of
the device that holds it, which starts at 0. -/
namespace PracticeSuite.BalanceLoad
open CInt

inductive Resolution where
  | p240
  | p360
  | p480
  | p720
  | p960
  | p1080
  deriving DecidableEq, Repr

structure Config where
  gpu : Resolution → Resolution → Int
  cpu : Resolution → Resolution → Int

structure Device where
  gpu : Bool
  id : Int
  remainingTime : Int
  deriving DecidableEq, Repr

structure Input where
  input : Resolution
  output : Resolution
  fpsInput : Int
  duration : Int
  deriving DecidableEq, Repr

structure Scan where
  idGpu : Nat
  idCpu : Nat
  reCpu : Int
  reGpu : Int
  deriving DecidableEq, Repr

/- The body of the scan for one kind, with its index and its minimum. The minimum is
an int, so both assignments narrow. -/
def track (s : Nat × Int) (x : Device × Nat) : Nat × Int :=
  let re := if s.2 < 0 then toInt x.1.remainingTime else s.2
  if x.1.remainingTime < re then (x.2,toInt x.1.remainingTime) else (s.1,re)

def scanStep (s : Scan) (x : Device × Nat) : Scan :=
  if x.1.gpu then
    let best := track (s.idGpu,s.reGpu) x
    {s with idGpu := best.1,reGpu := best.2}
  else
    let best := track (s.idCpu,s.reCpu) x
    {s with idCpu := best.1,reCpu := best.2}

def scanDevices (devices : List Device) : Scan := devices.zipIdx.foldl scanStep ⟨0,0,-1,-1⟩

/- int64_t arithmetic; none where the C++ program has no defined behaviour. -/
def checked (n : Int) : Option Int := if Fits 64 n then some n else none

def exeTime (input : Input) (rate : Int) : Option Int := do
  let work ← checked (input.duration*input.fpsInput)
  if rate = 0 then none else some (work.tdiv rate)

def charge (devices : List Device) (i : Nat) (exe : Int) : Option (List Device) := do
  let d ← devices[i]?
  let time ← checked (d.remainingTime + exe)
  some (devices.set i {d with remainingTime := time})

def placeJob (config : Config) (devices : List Device) (input : Input) : Option (List Device) :=
  let s := scanDevices devices
  let cpu := config.cpu input.input input.output
  let gpu := config.gpu input.input input.output
  if cpu ≥ 0 ∧ gpu ≥ 0 then do
    let exeGpu ← exeTime input gpu
    let exeCpu ← exeTime input cpu
    let endGpu ← checked (s.reGpu + exeGpu)
    let endCpu ← checked (s.reCpu + exeCpu)
    if endGpu > endCpu then charge devices s.idCpu exeCpu else charge devices s.idGpu exeGpu
  else if cpu < 0 ∧ gpu ≥ 0 then do
    let exeGpu ← exeTime input gpu
    charge devices s.idGpu exeGpu
  else if cpu ≥ 0 ∧ gpu < 0 then do
    let exeCpu ← exeTime input cpu
    charge devices s.idCpu exeCpu
  else some devices

/- `list_device` may be NULL, which leaves nothing to change. -/
def balanceDevices (config : Config) (listDevice : Option (List Device)) (input : Input) :
    Option (Option (List Device)) :=
  match listDevice with
  | none => some none
  | some devices => (placeJob config devices input).map some

def ofKind (gpu : Bool) (devices : List Device) : List (Device × Nat) :=
  devices.zipIdx.filter (fun x => x.1.gpu = gpu)

def best (gpu : Bool) (devices : List Device) : Nat × Int := (ofKind gpu devices).foldl track (0,-1)

theorem scanKinds (xs : List (Device × Nat)) (s : Scan) :
    let last := xs.foldl scanStep s
    (last.idGpu,last.reGpu) = (xs.filter (fun x => x.1.gpu = true)).foldl track (s.idGpu,s.reGpu) ∧
    (last.idCpu,last.reCpu) = (xs.filter (fun x => x.1.gpu = false)).foldl track (s.idCpu,s.reCpu) := by
  induction xs generalizing s with
  | nil => exact ⟨rfl,rfl⟩
  | cons x rest ih =>
    have next := ih (scanStep s x)
    cases kind : x.1.gpu with
    | true => simpa [scanStep,kind] using next
    | false => simpa [scanStep,kind] using next

theorem scanBest (devices) : let s := scanDevices devices
    s.idGpu = (best true devices).1 ∧ s.reGpu = (best true devices).2 ∧
    s.idCpu = (best false devices).1 ∧ s.reCpu = (best false devices).2 := by
  obtain ⟨gpu,cpu⟩ := scanKinds devices.zipIdx ⟨0,0,-1,-1⟩
  exact ⟨congrArg Prod.fst gpu,congrArg Prod.snd gpu,congrArg Prod.fst cpu,congrArg Prod.snd cpu⟩

theorem toIntLe {n : Int} (nonneg : 0 ≤ n) : toInt n ≤ n := by
  unfold toInt Int.bmod
  dsimp only
  split <;> omega

theorem trackAnchor {s : Nat × Int} {x : Device × Nat} (time : 0 ≤ x.1.remainingTime) (unset : s.2 < 0) :
    track s x = (s.1,toInt x.1.remainingTime) := by
  have below := toIntLe time
  unfold track
  rw [if_pos unset]
  dsimp only
  rw [if_neg (by omega)]

theorem trackKeep {s : Nat × Int} {x : Device × Nat} (set_ : 0 ≤ s.2) (above : s.2 ≤ x.1.remainingTime) :
    track s x = s := by
  unfold track
  simp only [if_neg (Int.not_lt.mpr set_),if_neg (Int.not_lt.mpr above)]

theorem trackLower {s : Nat × Int} {x : Device × Nat} (fits : Fits 32 s.2) (time : 0 ≤ x.1.remainingTime)
    (below : x.1.remainingTime < s.2) : track s x = (x.2,x.1.remainingTime) := by
  have small : Fits 32 x.1.remainingTime := by unfold Fits at *; omega
  have set_ : ¬ s.2 < 0 := by omega
  unfold track
  simp only [if_neg set_,if_pos below,toIntEq small]

def lowest (re : Int) (xs : List (Device × Nat)) : Int := xs.foldl (fun re x => min re x.1.remainingTime) re

def Timed (xs : List (Device × Nat)) : Prop := ∀ x ∈ xs, 0 ≤ x.1.remainingTime

theorem followSet {s : Nat × Int} {xs : List (Device × Nat)} (set_ : 0 ≤ s.2) (fits : Fits 32 s.2)
    (timed : Timed xs) :
    (xs.foldl track s).2 = lowest s.2 xs ∧
    ((∀ x ∈ xs, s.2 ≤ x.1.remainingTime) ∧ xs.foldl track s = s ∨
      ∃ x ∈ xs, x.1.remainingTime < s.2 ∧ xs.foldl track s = (x.2,x.1.remainingTime) ∧
        ∀ y ∈ xs, x.1.remainingTime ≤ y.1.remainingTime) := by
  induction xs generalizing s with
  | nil => exact ⟨rfl,.inl ⟨fun x mem => (by cases mem),rfl⟩⟩
  | cons x rest ih =>
    have time := timed x List.mem_cons_self
    have later : Timed rest := fun y mem => timed y (List.mem_cons_of_mem _ mem)
    simp only [List.foldl_cons,lowest]
    by_cases below : x.1.remainingTime < s.2
    · have small : Fits 32 x.1.remainingTime := by unfold Fits at *; omega
      rw [trackLower fits time below,Int.min_eq_right (by omega)]
      obtain ⟨value,⟨least,same⟩ | ⟨y,mem,lower,same,least⟩⟩ := ih (s := (x.2,x.1.remainingTime)) time small later
      · refine ⟨value,.inr ⟨x,List.mem_cons_self,below,same,?_⟩⟩
        intro y mem
        rcases List.mem_cons.mp mem with rfl | old
        · exact Int.le_refl _
        · exact least y old
      · refine ⟨value,.inr ⟨y,List.mem_cons_of_mem _ mem,by dsimp only at lower; omega,same,?_⟩⟩
        intro z inside
        rcases List.mem_cons.mp inside with rfl | old
        · exact Int.le_of_lt lower
        · exact least z old
    · rw [trackKeep set_ (by omega),Int.min_eq_left (by omega)]
      obtain ⟨value,⟨least,same⟩ | ⟨y,mem,lower,same,least⟩⟩ := ih set_ fits later
      · refine ⟨value,.inl ⟨?_,same⟩⟩
        intro y mem
        rcases List.mem_cons.mp mem with rfl | old
        · omega
        · exact least y old
      · refine ⟨value,.inr ⟨y,List.mem_cons_of_mem _ mem,lower,same,?_⟩⟩
        intro z inside
        rcases List.mem_cons.mp inside with rfl | old
        · omega
        · exact least z old

def Wraps (x : Device × Nat) : Bool := toInt x.1.remainingTime < 0

/- The devices of a kind from the first one on whose time, narrowed to int, is not
negative: that one sets the minimum. -/
def anchored (gpu : Bool) (devices : List Device) : List (Device × Nat) :=
  (ofKind gpu devices).dropWhile Wraps

def Undercut (gpu : Bool) (devices : List Device) : Prop :=
  match anchored gpu devices with
  | [] => False
  | a::later => ∃ x ∈ later, x.1.remainingTime < toInt a.1.remainingTime

instance (gpu devices) : Decidable (Undercut gpu devices) := by
  unfold Undercut
  split <;> infer_instance

def lastTime (re : Int) (xs : List (Device × Nat)) : Int := xs.foldl (fun _ x => toInt x.1.remainingTime) re

def level (gpu : Bool) (devices : List Device) : Int :=
  match anchored gpu devices with
  | a::later => lowest (toInt a.1.remainingTime) later
  | [] => lastTime (-1) (ofKind gpu devices)

theorem followWraps {xs : List (Device × Nat)} (timed : Timed xs) (wraps : ∀ x ∈ xs, Wraps x = true)
    {s : Nat × Int} (unset : s.2 < 0) :
    xs.foldl track s = (s.1,lastTime s.2 xs) ∧ lastTime s.2 xs < 0 := by
  induction xs generalizing s with
  | nil => exact ⟨rfl,unset⟩
  | cons x rest ih =>
    have time := timed x List.mem_cons_self
    have negative : toInt x.1.remainingTime < 0 := by simpa [Wraps] using wraps x List.mem_cons_self
    rw [List.foldl_cons,trackAnchor time unset]
    exact ih (fun y mem => timed y (List.mem_cons_of_mem _ mem))
      (fun y mem => wraps y (List.mem_cons_of_mem _ mem)) negative

theorem ofKindTimed {gpu devices} (times : ∀ d ∈ devices, 0 ≤ Device.remainingTime d) :
    Timed (ofKind gpu devices) := by
  intro x mem
  have inside := (List.mem_filter.mp mem).1
  exact times x.1 (List.fst_mem_of_mem_zipIdx inside)

theorem wrapsLarge {x : Device × Nat} (time : 0 ≤ x.1.remainingTime) (wraps : Wraps x = true) :
    2^31 ≤ x.1.remainingTime := by
  have negative : toInt x.1.remainingTime < 0 := by simpa [Wraps] using wraps
  by_contra small
  have same : toInt x.1.remainingTime = x.1.remainingTime := toIntEq (by unfold Fits; omega)
  omega

theorem bestWraps {gpu devices} (times : ∀ d ∈ devices, 0 ≤ Device.remainingTime d)
    (none_ : anchored gpu devices = []) :
    ¬ Undercut gpu devices ∧ best gpu devices = (0,level gpu devices) ∧
      ∀ x ∈ ofKind gpu devices, level gpu devices ≤ x.1.remainingTime := by
  have timed : Timed (ofKind gpu devices) := ofKindTimed times
  have wraps : ∀ x ∈ ofKind gpu devices, Wraps x = true := List.dropWhile_eq_nil_iff.mp none_
  have value : level gpu devices = lastTime (-1) (ofKind gpu devices) := by unfold level; rw [none_]
  obtain ⟨followed,negative⟩ := followWraps (s := (0,-1)) timed wraps (by decide)
  rw [value]
  refine ⟨by unfold Undercut; rw [none_]; exact id,followed,fun x mem => ?_⟩
  have time := timed x mem
  dsimp only at negative
  omega

theorem anchoredSplit {gpu devices a later} (some_ : anchored gpu devices = a::later) :
    ∃ skipped, ofKind gpu devices = skipped ++ a::later ∧ (∀ x ∈ skipped, Wraps x = true) ∧ Wraps a = false := by
  refine ⟨(ofKind gpu devices).takeWhile Wraps,?_,?_,?_⟩
  · rw [← some_]
    exact List.takeWhile_append_dropWhile.symm
  · exact fun x mem => List.mem_takeWhile_imp mem
  · have head := List.head?_dropWhile_not Wraps (ofKind gpu devices)
    unfold anchored at some_
    simpa [some_] using head

theorem lowestLe (re : Int) (xs : List (Device × Nat)) :
    lowest re xs ≤ re ∧ ∀ x ∈ xs, lowest re xs ≤ x.1.remainingTime := by
  induction xs generalizing re with
  | nil => exact ⟨Int.le_refl _,fun x mem => (by cases mem)⟩
  | cons x rest ih =>
    obtain ⟨bound,least⟩ := ih (min re x.1.remainingTime)
    refine ⟨le_trans bound (Int.min_le_left _ _),fun y mem => ?_⟩
    rcases List.mem_cons.mp mem with rfl | later
    · exact le_trans bound (Int.min_le_right _ _)
    · exact least y later

theorem bestFollowed {gpu devices a skipped later} (timed : Timed (ofKind gpu devices))
    (split : ofKind gpu devices = skipped ++ a::later) (wraps : ∀ x ∈ skipped, Wraps x = true) :
    best gpu devices = later.foldl track (0,toInt a.1.remainingTime) := by
  rw [split] at timed
  have early : Timed skipped := fun x mem => timed x (List.mem_append_left _ mem)
  have time := timed a (List.mem_append_right _ List.mem_cons_self)
  obtain ⟨skippedAll,negative⟩ := followWraps (s := (0,-1)) early wraps (by decide)
  unfold best
  rw [split,List.foldl_append,skippedAll,List.foldl_cons,trackAnchor time negative]

theorem levelLe {gpu devices a skipped later} (timed : Timed (ofKind gpu devices))
    (split : ofKind gpu devices = skipped ++ a::later) (wraps : ∀ x ∈ skipped, Wraps x = true) :
    ∀ x ∈ ofKind gpu devices, lowest (toInt a.1.remainingTime) later ≤ x.1.remainingTime := by
  intro x mem
  have time := timed x mem
  obtain ⟨bound,least⟩ := lowestLe (toInt a.1.remainingTime) later
  rw [split] at mem
  rcases List.mem_append.mp mem with early | here
  · have large := wrapsLarge time (wraps x early)
    have fits := (toIntFits a.1.remainingTime).2
    omega
  · rcases List.mem_cons.mp here with rfl | behind
    · exact le_trans bound (toIntLe time)
    · exact least x behind

theorem bestAnchored {gpu devices a later} (times : ∀ d ∈ devices, 0 ≤ Device.remainingTime d)
    (some_ : anchored gpu devices = a::later) :
    (best gpu devices).2 = level gpu devices ∧
    (∀ x ∈ ofKind gpu devices, level gpu devices ≤ x.1.remainingTime) ∧
    ((¬ Undercut gpu devices ∧ (best gpu devices).1 = 0) ∨
      (Undercut gpu devices ∧ ∃ x ∈ ofKind gpu devices, (best gpu devices).1 = x.2 ∧
        level gpu devices = x.1.remainingTime)) := by
  have timed : Timed (ofKind gpu devices) := ofKindTimed times
  have value : level gpu devices = lowest (toInt a.1.remainingTime) later := by unfold level; rw [some_]
  have under : Undercut gpu devices ↔ ∃ x ∈ later, x.1.remainingTime < toInt a.1.remainingTime := by
    unfold Undercut
    rw [some_]
  obtain ⟨skipped,split,wraps,set_⟩ := anchoredSplit some_
  have inside : ∀ x ∈ later, x ∈ ofKind gpu devices := by
    intro x mem
    rw [split]
    exact List.mem_append_right _ (List.mem_cons_of_mem _ mem)
  have rest : Timed later := fun x mem => timed x (inside x mem)
  have base : 0 ≤ toInt a.1.remainingTime := by simpa [Wraps] using set_
  obtain ⟨least,choice⟩ := followSet (s := (0,toInt a.1.remainingTime)) base (toIntFits _) rest
  rw [bestFollowed timed split wraps,value]
  refine ⟨least,levelLe timed split wraps,?_⟩
  rcases choice with ⟨above,same⟩ | ⟨y,mem,lower,same,low⟩
  · refine .inl ⟨?_,by rw [same]⟩
    rw [under]
    intro found
    obtain ⟨x,later_,below⟩ := found
    exact absurd (above x later_) (Int.not_le.mpr below)
  · refine .inr ⟨under.mpr ⟨y,mem,lower⟩,y,inside y mem,by rw [same],?_⟩
    rw [← least,same]

theorem bestSpec (gpu : Bool) {devices} (times : ∀ d ∈ devices, 0 ≤ Device.remainingTime d) :
    (best gpu devices).2 = level gpu devices ∧
    (∀ x ∈ ofKind gpu devices, level gpu devices ≤ x.1.remainingTime) ∧
    ((¬ Undercut gpu devices ∧ (best gpu devices).1 = 0) ∨
      (Undercut gpu devices ∧ ∃ x ∈ ofKind gpu devices, (best gpu devices).1 = x.2 ∧
        level gpu devices = x.1.remainingTime)) := by
  cases shape : anchored gpu devices with
  | nil =>
    obtain ⟨never,same,bound⟩ := bestWraps times shape
    rw [same]
    exact ⟨rfl,bound,.inl ⟨never,rfl⟩⟩
  | cons a later => exact bestAnchored times shape

end PracticeSuite.BalanceLoad
