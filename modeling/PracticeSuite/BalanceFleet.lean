import PracticeSuite.BalancePlacement
import PracticeSuite.ListScheduling
import PracticeSuite.Trace

/-! Whole runs of balanceDevices on devices of one kind. There the index at 0 is right from the start, so
every job goes to a least loaded device. -/
namespace PracticeSuite.BalanceLoad
open CInt ListScheduling
open Trace (attempt)

def Fleet (gpu : Bool) (devices : List Device) : Prop := devices ≠ [] ∧ ∀ d ∈ devices, d.gpu = gpu

structure Suits (config : Config) (gpu : Bool) (input : Input) : Prop where
  work : 0 ≤ input.duration*input.fpsInput ∧ Fits 64 (input.duration*input.fpsInput)
  supported : 0 < rate config input gpu
  other : rate config input (!gpu) < 0

def sizes (config : Config) (gpu : Bool) (jobs : List Input) : List Int := jobs.map (fun input => exe config input gpu)

def Room (config : Config) (gpu : Bool) (jobs : List Input) (devices : List Device) : Prop :=
  ∀ d ∈ devices, 0 ≤ d.remainingTime ∧ d.remainingTime + (sizes config gpu jobs).sum < 2^31

def load (n : Nat) (devices : List Device) (i : Fin n) : Int := ((devices[i.val]?).map Device.remainingTime).getD 0

section
variable {config : Config} {gpu : Bool} {input : Input} {jobs : List Input} {devices : List Device}

theorem exeNonneg (suits : Suits config gpu input) : 0 ≤ exe config input gpu := Int.tdiv_nonneg suits.work.1 suits.supported.le

theorem sizesNonneg (suit : ∀ input ∈ jobs, Suits config gpu input) : ∀ p ∈ sizes config gpu jobs, 0 ≤ p := by
  intro p mem
  obtain ⟨input,inside,rfl⟩ := List.mem_map.mp mem
  exact exeNonneg (suit input inside)

theorem fleetBest (fleet : Fleet gpu devices) (times : ∀ d ∈ devices, 0 ≤ d.remainingTime ∧ d.remainingTime < 2^31) :
    ∃ d, devices[(best gpu devices).1]? = some d ∧ ∀ e ∈ devices, d.remainingTime ≤ e.remainingTime := by
  obtain ⟨some_,kinds⟩ := fleet
  have all : ofKind gpu devices = devices.zipIdx := List.filter_eq_self.mpr (fun x mem => by simp [kinds x.1 (List.fst_mem_of_mem_zipIdx mem)])
  obtain ⟨-,lower,⟨never,first⟩ | ⟨-,x,mem,index,least⟩⟩ := bestSpec gpu (fun d mem => (times d mem).1)
  · cases devices with
    | nil => exact absurd rfl some_
    | cons a later =>
      obtain ⟨nonneg,small⟩ := times a List.mem_cons_self
      have narrowed : toInt a.remainingTime = a.remainingTime := toIntEq ⟨by omega,by omega⟩
      have anchor : anchored gpu (a::later) = (a,0)::later.zipIdx 1 := by
        rw [anchored,all,List.zipIdx_cons,List.dropWhile_cons_of_neg]
        simp only [Wraps,narrowed]
        simpa using nonneg
      rw [Undercut,anchor] at never
      refine ⟨a,by rw [first]; rfl,fun e mem => ?_⟩
      rcases List.mem_cons.mp mem with rfl | behind
      · exact le_rfl
      · obtain ⟨k,inside,rfl⟩ := List.mem_iff_getElem.mp behind
        by_contra below
        have placed : (later[k],1+k) ∈ later.zipIdx 1 := List.mk_add_mem_zipIdx_iff_getElem?.mpr (List.getElem?_eq_getElem inside)
        have less : later[k].remainingTime < toInt a.remainingTime := by
          rw [narrowed]
          exact Int.not_le.mp below
        exact never ⟨_,placed,less⟩
  · rw [all] at mem lower
    refine ⟨x.1,by rw [index]; exact List.mem_zipIdx_iff_getElem?.mp mem,fun e inside => ?_⟩
    obtain ⟨k,bound,rfl⟩ := List.mem_iff_getElem.mp inside
    rw [← least]
    exact lower (devices[k],k) (List.mk_mem_zipIdx_iff_getElem?.mpr (List.getElem?_eq_getElem bound))

theorem loadSet {i : Nat} {d : Device} (found : devices[i]? = some d) (inside : i < devices.length) (p : Int) :
    load devices.length (grown devices i d p) = assign (load devices.length devices) ⟨i,inside⟩ p := by
  funext j
  by_cases here : j = ⟨i,inside⟩
  · subst here
    rw [assignSelf]
    simp only [load,grown,List.getElem?_set_self inside,found,Option.map_some,Option.getD_some]
  · have other : i ≠ j.val := fun same => here (Fin.ext same.symm)
    rw [assignOther here]
    simp only [load,grown,List.getElem?_set_ne other]

theorem fleetStep (fleet : Fleet gpu devices) (suits : Suits config gpu input) (suit : ∀ x ∈ jobs, Suits config gpu x)
    (room : Room config gpu (input::jobs) devices) :
    ∃ out, ∃ i : Fin devices.length, balanceDevices config (some devices) input = some (some out) ∧ out.length = devices.length ∧
      Fleet gpu out ∧ Room config gpu jobs out ∧ (∀ j, load devices.length devices i ≤ load devices.length devices j) ∧
      load devices.length out = assign (load devices.length devices) i (exe config input gpu) := by
  have later : 0 ≤ (sizes config gpu jobs).sum := List.sum_nonneg (sizesNonneg suit)
  have size := exeNonneg suits
  have whole : (sizes config gpu (input::jobs)).sum = exe config input gpu + (sizes config gpu jobs).sum := List.sum_cons
  obtain ⟨d,found,least⟩ := fleetBest fleet (fun d mem => by have := room d mem; omega)
  obtain ⟨inside,at_⟩ := List.getElem?_eq_some_iff.mp found
  have mem : d ∈ devices := at_ ▸ List.getElem_mem inside
  have bound := room d mem
  have charged : charge devices (best gpu devices).1 (exe config input gpu) =
    some (grown devices (best gpu devices).1 d (exe config input gpu)) :=
    chargeSome.mpr ⟨d,found,⟨by omega,by omega⟩,rfl⟩
  have each : ∀ e ∈ grown devices (best gpu devices).1 d (exe config input gpu),
      e = {d with remainingTime := d.remainingTime + exe config input gpu} ∨ e ∈ devices :=
        fun e inside => (List.mem_or_eq_of_mem_set inside).symm
  refine ⟨_,⟨_,inside⟩,?_,List.length_set,⟨?_,fun e inside => ?_⟩,fun e inside => ?_,fun j => ?_,loadSet found inside _⟩
  · rw [balanceDevices,placeOne suits.work.2 suits.supported suits.other,charged]
    rfl
  · exact fun none_ => fleet.1 (by simpa using none_)
  · rcases each e inside with rfl | old
    · exact fleet.2 d mem
    · exact fleet.2 e old
  · rcases each e inside with rfl | old
    · dsimp only
      omega
    · have := room e old
      omega
  · have other := least devices[j.val] (List.getElem_mem j.isLt)
    simpa [load,found] using other

theorem fleetGreedy (fleet : Fleet gpu devices) (suit : ∀ input ∈ jobs, Suits config gpu input) (room : Room config gpu jobs devices) :
    ∃ out, attempt (balanceDevices config) (some devices) jobs = some (some out) ∧ out.length = devices.length ∧
      Greedy (load devices.length devices) (sizes config gpu jobs) (load devices.length out) := by
  induction jobs generalizing devices with
  | nil => exact ⟨devices,rfl,rfl,.done _⟩
  | cons input rest ih =>
    have later := fun x mem => suit x (List.mem_cons_of_mem input mem)
    obtain ⟨next,i,went,length,fleet',room',least,placed⟩ := fleetStep fleet (suit input List.mem_cons_self) later room
    obtain ⟨out,ran,length',greedy⟩ := ih fleet' later room'
    rw [length,placed] at greedy
    exact ⟨out,by simp only [attempt,went,Option.bind_some,ran],length'.trans length,.next least greedy⟩

theorem loadMember {out : List Device} {d : Device} (mem : d ∈ out) {n : Nat} (length : out.length = n) :
    ∃ i : Fin n, load n out i = d.remainingTime := by
  obtain ⟨k,inside,rfl⟩ := List.mem_iff_getElem.mp mem
  exact ⟨⟨k,length ▸ inside⟩,by simp [load,inside]⟩

theorem loadNonneg (room : Room config gpu jobs devices) (i : Fin devices.length) : 0 ≤ load devices.length devices i := by
  simpa [load] using (room _ (List.getElem_mem i.isLt)).1

def gpuConfig : Config := ⟨fun _ _ => 90,fun _ _ => -1⟩
def gpuDevices : List Device := [⟨true,1,10⟩,⟨true,2,0⟩,⟨true,3,5⟩]
def gpuJobs : List Input := List.replicate 4 mainInput

theorem gpuFleet : Fleet true gpuDevices := ⟨by decide,by decide⟩

theorem gpuSuits : ∀ input ∈ gpuJobs, Suits gpuConfig true input := by
  intro input mem
  rw [List.eq_of_mem_replicate mem]
  exact ⟨by decide,by decide,by decide⟩

theorem gpuRoom : Room gpuConfig true gpuJobs gpuDevices := by
  unfold Room
  decide

theorem fleetWithin (fleet : Fleet gpu devices) (suit : ∀ input ∈ jobs, Suits config gpu input) (room : Room config gpu jobs devices) (q : Int)
    (start : ∀ d ∈ devices, ∀ e ∈ devices, d.remainingTime ≤ e.remainingTime + q) (small : ∀ input ∈ jobs, exe config input gpu ≤ q) :
    ∃ out, attempt (balanceDevices config) (some devices) jobs = some (some out) ∧ out.length = devices.length ∧
      ∀ d ∈ out, ∀ e ∈ out, d.remainingTime ≤ e.remainingTime + q := by
  obtain ⟨out,ran,length,greedy⟩ := fleetGreedy fleet suit room
  have spread : Spread (load devices.length devices) q := fun i j => by
    simpa [load] using start _ (List.getElem_mem i.isLt) _ (List.getElem_mem j.isLt)
  have bounded : ∀ p ∈ sizes config gpu jobs, 0 ≤ p ∧ p ≤ q := by
    intro p mem
    obtain ⟨input,inside,rfl⟩ := List.mem_map.mp mem
    exact ⟨exeNonneg (suit input inside),small input inside⟩
  refine ⟨out,ran,length,fun d memD e memE => ?_⟩
  obtain ⟨i,left⟩ := loadMember memD length
  obtain ⟨j,right⟩ := loadMember memE length
  rw [← left,← right]
  exact greedySpread greedy spread bounded i j

theorem fleetWithinGpus : ∃ out, attempt (balanceDevices gpuConfig) (some gpuDevices) gpuJobs = some (some out) ∧ out.length = 3 ∧
    ∀ d ∈ out, ∀ e ∈ out, d.remainingTime ≤ e.remainingTime + 53 :=
  fleetWithin gpuFleet gpuSuits gpuRoom 53 (by decide) (by decide)

theorem fleetBound (fleet : Fleet gpu devices) (suit : ∀ input ∈ jobs, Suits config gpu input) (room : Room config gpu jobs devices) :
    ∃ out, attempt (balanceDevices config) (some devices) jobs = some (some out) ∧
      ∀ (placed : List (Fin devices.length × Int)) (t : Int), placed.map Prod.snd = sizes config gpu jobs →
        (∀ i, assignAll (load devices.length devices) placed i ≤ t) →
          ∀ d ∈ out, devices.length * d.remainingTime ≤ (2*devices.length - 1)*t := by
  obtain ⟨out,ran,length,greedy⟩ := fleetGreedy fleet suit room
  refine ⟨out,ran,fun placed t same within d mem => ?_⟩
  obtain ⟨i,here⟩ := loadMember mem length
  have bound := greedyBound greedy (loadNonneg room) (sizesNonneg suit) same within i
  rwa [Fintype.card_fin,here] at bound

theorem fleetBoundGpus : ∃ out, attempt (balanceDevices gpuConfig) (some gpuDevices) gpuJobs = some (some out) ∧
    ∀ (placed : List (Fin 3 × Int)) (t : Int), placed.map Prod.snd = sizes gpuConfig true gpuJobs →
      (∀ i, assignAll (load 3 gpuDevices) placed i ≤ t) → ∀ d ∈ out, 3*d.remainingTime ≤ (2*3 - 1)*t :=
  fleetBound gpuFleet gpuSuits gpuRoom

end

end PracticeSuite.BalanceLoad
