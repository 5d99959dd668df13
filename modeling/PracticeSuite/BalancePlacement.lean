import PracticeSuite.BalanceLoad

/-! Earliest-completion placement, and exactly when balanceDevices achieves it. The
recorded index is right when the scan moved it; an index still at 0 means either that
the kind has no device or that its first device is already the least loaded. -/
namespace PracticeSuite.BalanceLoad
open CInt

variable (config : Config) (input : Input)

def rate (gpu : Bool) : Int :=
  if gpu then config.gpu input.input input.output else config.cpu input.input input.output

def exe (gpu : Bool) : Int := (input.duration*input.fpsInput).tdiv (rate config input gpu)

def Capable (d : Device) : Prop := 0 < rate config input d.gpu

def finish (d : Device) : Int := d.remainingTime + exe config input d.gpu

def Earliest (devices : List Device) (i : Nat) (d : Device) : Prop :=
  devices[i]? = some d ∧ Capable config input d ∧
    ∀ e ∈ devices, Capable config input e → finish config input d ≤ finish config input e

def grown (devices : List Device) (i : Nat) (d : Device) (time : Int) : List Device :=
  devices.set i {d with remainingTime := d.remainingTime + time}

def Placed (devices : List Device) : Prop :=
  ∃ out, balanceDevices config (some devices) input = some (some out) ∧
    ((∃ d ∈ devices, Capable config input d) →
      ∃ i d, Earliest config input devices i d ∧ out = grown devices i d (exe config input d.gpu)) ∧
    ((∀ d ∈ devices, ¬ Capable config input d) → out = devices)

/- The kind whose device is charged: the only supported one, or the one whose minimum
plus execution time is smaller, the GPU on a tie. -/
def Chosen (devices : List Device) (gpu : Bool) : Prop :=
  0 < rate config input gpu ∧ (0 < rate config input (!gpu) →
    Fits 64 (level true devices + exe config input true) ∧
    Fits 64 (level false devices + exe config input false) ∧
    (gpu = false ↔ level true devices + exe config input true > level false devices + exe config input false))

def Lands (devices : List Device) (gpu : Bool) : Prop :=
  (Undercut gpu devices ∧ Fits 64 (level gpu devices + exe config input gpu)) ∨
  (¬ Undercut gpu devices ∧ ∃ d, devices[0]? = some d ∧ Fits 64 (d.remainingTime + exe config input gpu) ∧
    ((Earliest config input devices 0 d ∧ exe config input d.gpu = exe config input gpu) ∨
      (exe config input gpu = 0 ∧ ((∃ e ∈ devices, Capable config input e) →
        ∃ i e, Earliest config input devices i e ∧ exe config input e.gpu = 0))))

theorem chargeSome {devices i time out} : charge devices i time = some out ↔
    ∃ d, devices[i]? = some d ∧ Fits 64 (d.remainingTime + time) ∧ out = grown devices i d time := by
  unfold charge
  simp only [bind,Option.bind_eq_some_iff,checked,Option.some.injEq,Option.ite_none_right_eq_some]
  constructor
  · intro h
    obtain ⟨d,found,total,⟨fits,rfl⟩,rfl⟩ := h
    exact ⟨d,found,fits,rfl⟩
  · intro h
    obtain ⟨d,found,fits,rfl⟩ := h
    exact ⟨d,found,_,⟨fits,rfl⟩,rfl⟩

theorem grownZero {devices : List Device} {i d} (found : devices[i]? = some d) : grown devices i d 0 = devices := by
  obtain ⟨inside,rfl⟩ := List.getElem?_eq_some_iff.mp found
  unfold grown
  rw [Int.add_zero]
  exact List.set_getElem_self inside

theorem grownHere {devices : List Device} {i d} (found : devices[i]? = some d) (time : Int) :
    ((grown devices i d time)[i]?).map Device.remainingTime = some (d.remainingTime + time) := by
  obtain ⟨inside,_⟩ := List.getElem?_eq_some_iff.mp found
  simp [grown,inside]

theorem grownElsewhere {devices : List Device} {i j d e} (other : i ≠ j) (found : devices[j]? = some e) (time : Int) :
    ((grown devices i d time)[j]?).map Device.remainingTime = some e.remainingTime := by
  simp [grown,other,found]

theorem grownEq {devices : List Device} {i j d e a b} (first : devices[i]? = some d) (second : devices[j]? = some e) :
    grown devices i d a = grown devices j e b ↔ (a = 0 ∧ b = 0) ∨ (i = j ∧ a = b) := by
  constructor
  · intro same
    have left := grownHere first a
    have right := grownHere second b
    by_cases index : i = j
    · subst index
      cases Option.some.inj (first.symm.trans second)
      rw [same,right] at left
      have total := Option.some.inj left
      exact .inr ⟨rfl,by omega⟩
    · rw [same,grownElsewhere (fun h => index h.symm) first] at left
      rw [← same,grownElsewhere index second] at right
      have here := Option.some.inj left
      have there := Option.some.inj right
      exact .inl ⟨by omega,by omega⟩
  · intro h
    rcases h with ⟨rfl,rfl⟩ | ⟨rfl,rfl⟩
    · rw [grownZero first,grownZero second]
    · cases Option.some.inj (first.symm.trans second)
      rfl

variable {config input}

theorem exeTimeRate {gpu} (nonzero : rate config input gpu ≠ 0)
    (work : Fits 64 (input.duration*input.fpsInput)) :
    exeTime input (rate config input gpu) = some (exe config input gpu) := by
  unfold exeTime checked
  rw [if_pos work]
  simp only [bind,Option.bind_some,if_neg nonzero]
  rfl

theorem placeJobEq (devices) : placeJob config devices input =
    if rate config input false ≥ 0 ∧ rate config input true ≥ 0 then do
      let exeGpu ← exeTime input (rate config input true)
      let exeCpu ← exeTime input (rate config input false)
      let endGpu ← checked ((best true devices).2 + exeGpu)
      let endCpu ← checked ((best false devices).2 + exeCpu)
      if endGpu > endCpu then charge devices (best false devices).1 exeCpu
      else charge devices (best true devices).1 exeGpu
    else if rate config input false < 0 ∧ rate config input true ≥ 0 then do
      let exeGpu ← exeTime input (rate config input true)
      charge devices (best true devices).1 exeGpu
    else if rate config input false ≥ 0 ∧ rate config input true < 0 then do
      let exeCpu ← exeTime input (rate config input false)
      charge devices (best false devices).1 exeCpu
    else some devices := by
  obtain ⟨idGpu,reGpu,idCpu,reCpu⟩ := scanBest devices
  rw [← idGpu,← reGpu,← idCpu,← reCpu]
  rfl

theorem placeNone {devices} (gpu : rate config input true < 0) (cpu : rate config input false < 0) :
    placeJob config devices input = some devices := by
  rw [placeJobEq,if_neg (by omega),if_neg (by omega),if_neg (by omega)]

theorem placeOne {devices gpu} (work : Fits 64 (input.duration*input.fpsInput))
    (supported : 0 < rate config input gpu) (other : rate config input (!gpu) < 0) :
    placeJob config devices input = charge devices (best gpu devices).1 (exe config input gpu) := by
  have time := exeTimeRate (by omega : rate config input gpu ≠ 0) work
  cases gpu with
  | true =>
    simp only [Bool.not_true] at other
    rw [placeJobEq,if_neg (by omega),if_pos ⟨other,by omega⟩,time]
    rfl
  | false =>
    simp only [Bool.not_false] at other
    rw [placeJobEq,if_neg (by omega),if_neg (by omega),if_pos ⟨by omega,other⟩,time]
    rfl

theorem placeBoth {devices} (work : Fits 64 (input.duration*input.fpsInput))
    (times : ∀ d ∈ devices, 0 ≤ Device.remainingTime d)
    (gpu : 0 < rate config input true) (cpu : 0 < rate config input false) :
    placeJob config devices input = (do
      let endGpu ← checked (level true devices + exe config input true)
      let endCpu ← checked (level false devices + exe config input false)
      if endGpu > endCpu then charge devices (best false devices).1 (exe config input false)
      else charge devices (best true devices).1 (exe config input true)) := by
  have gpuTime := exeTimeRate (by omega : rate config input true ≠ 0) work
  have cpuTime := exeTimeRate (by omega : rate config input false ≠ 0) work
  rw [placeJobEq,if_pos ⟨by omega,by omega⟩,gpuTime,cpuTime,(bestSpec true times).1,(bestSpec false times).1]
  rfl

theorem placeChosen {devices gpu} (work : Fits 64 (input.duration*input.fpsInput))
    (times : ∀ d ∈ devices, 0 ≤ Device.remainingTime d)
    (nonzero : ∀ gpu, rate config input gpu ≠ 0) (chosen : Chosen config input devices gpu) :
    placeJob config devices input = charge devices (best gpu devices).1 (exe config input gpu) := by
  obtain ⟨supported,compared⟩ := chosen
  by_cases both : 0 < rate config input (!gpu)
  · obtain ⟨gpuFits,cpuFits,smaller⟩ := compared both
    cases gpu with
    | true =>
      have kept : ¬ level true devices + exe config input true > level false devices + exe config input false :=
        fun h => by simpa using smaller.mpr h
      rw [placeBoth work times supported both]
      simp only [checked,if_pos gpuFits,if_pos cpuFits,bind,Option.bind_some,if_neg kept]
    | false =>
      rw [placeBoth work times both supported]
      simp only [checked,if_pos gpuFits,if_pos cpuFits,bind,Option.bind_some,if_pos (smaller.mp rfl)]
  · have other := nonzero (!gpu)
    exact placeOne work supported (by omega)

theorem placeSome {devices out} (work : Fits 64 (input.duration*input.fpsInput))
    (times : ∀ d ∈ devices, 0 ≤ Device.remainingTime d) (nonzero : ∀ gpu, rate config input gpu ≠ 0)
    (placed : placeJob config devices input = some out) :
    (rate config input true < 0 ∧ rate config input false < 0) ∨ ∃ gpu, Chosen config input devices gpu := by
  have gpuRate := nonzero true
  have cpuRate := nonzero false
  by_cases gpu : 0 < rate config input true
  · by_cases cpu : 0 < rate config input false
    · rw [placeBoth work times gpu cpu] at placed
      simp only [bind,Option.bind_eq_some_iff,checked,Option.ite_none_right_eq_some,Option.some.injEq] at placed
      obtain ⟨_,⟨gpuFits,rfl⟩,_,⟨cpuFits,rfl⟩,_⟩ := placed
      by_cases smaller : level true devices + exe config input true > level false devices + exe config input false
      · exact .inr ⟨false,cpu,fun _ => ⟨gpuFits,cpuFits,by simp [smaller]⟩⟩
      · exact .inr ⟨true,gpu,fun _ => ⟨gpuFits,cpuFits,by simpa using smaller⟩⟩
    · exact .inr ⟨true,gpu,fun h => absurd h cpu⟩
  · by_cases cpu : 0 < rate config input false
    · exact .inr ⟨false,cpu,fun h => absurd h gpu⟩
    · exact .inl ⟨by omega,by omega⟩

theorem chosenEarliest {devices gpu} (times : ∀ d ∈ devices, 0 ≤ Device.remainingTime d)
    (chosen : Chosen config input devices gpu) {x : Device × Nat} (mem : x ∈ ofKind gpu devices)
    (least : level gpu devices = x.1.remainingTime) : Earliest config input devices x.2 x.1 := by
  obtain ⟨inside,kind⟩ := List.mem_filter.mp mem
  have same : x.1.gpu = gpu := by simpa using kind
  refine ⟨List.mem_zipIdx_iff_getElem?.mp inside,by unfold Capable; rw [same]; exact chosen.1,?_⟩
  intro e listed capable
  unfold Capable at capable
  unfold finish
  rw [same,← least]
  obtain ⟨j,found⟩ := List.mem_iff_getElem?.mp listed
  have bound : level e.gpu devices ≤ e.remainingTime :=
    (bestSpec e.gpu times).2.1 (e,j)
      (List.mem_filter.mpr ⟨List.mem_zipIdx_iff_getElem?.mpr found,by simp⟩)
  by_cases kin : e.gpu = gpu
  · rw [kin] at bound ⊢
    omega
  · have opposite : e.gpu = !gpu := by cases h : e.gpu <;> cases g : gpu <;> simp_all
    rw [opposite] at bound capable ⊢
    obtain ⟨_,_,smaller⟩ := chosen.2 capable
    cases gpu with
    | true =>
      have kept : ¬ level true devices + exe config input true > level false devices + exe config input false :=
        fun h => by simpa using smaller.mpr h
      simp only [Bool.not_true] at bound ⊢
      omega
    | false =>
      have less := smaller.mp rfl
      simp only [Bool.not_false] at bound ⊢
      omega

theorem balanceSome {devices out} : balanceDevices config (some devices) input = some (some out) ↔
    placeJob config devices input = some out := by
  simp [balanceDevices]

theorem additionRight {devices i d time} (found : devices[i]? = some d) :
    (((∃ e ∈ devices, Capable config input e) → ∃ j e, Earliest config input devices j e ∧
        grown devices i d time = grown devices j e (exe config input e.gpu)) ∧
      ((∀ e ∈ devices, ¬ Capable config input e) → grown devices i d time = devices)) ↔
    ((Earliest config input devices i d ∧ exe config input d.gpu = time) ∨
      (time = 0 ∧ ((∃ e ∈ devices, Capable config input e) →
        ∃ j e, Earliest config input devices j e ∧ exe config input e.gpu = 0))) := by
  constructor
  · intro right
    obtain ⟨capable,incapable⟩ := right
    by_cases some_ : ∃ e ∈ devices, Capable config input e
    · obtain ⟨j,e,first,same⟩ := capable some_
      rcases (grownEq found first.1).mp same with ⟨zero,none_⟩ | ⟨rfl,equal⟩
      · exact .inr ⟨zero,fun _ => ⟨j,e,first,none_⟩⟩
      · cases Option.some.inj (found.symm.trans first.1)
        exact .inl ⟨first,equal.symm⟩
    · have unchanged := incapable (fun e mem able => some_ ⟨e,mem,able⟩)
      have here := grownHere found time
      rw [unchanged,found] at here
      have total := Option.some.inj here
      exact .inr ⟨by omega,fun h => absurd h some_⟩
  · intro right
    rcases right with ⟨first,equal⟩ | ⟨rfl,free⟩
    · have listed := List.mem_of_getElem? first.1
      exact ⟨fun _ => ⟨i,d,first,by rw [equal]⟩,fun none_ => absurd first.2.1 (none_ d listed)⟩
    · refine ⟨fun some_ => ?_,fun _ => grownZero found⟩
      obtain ⟨j,e,first,zero⟩ := free some_
      exact ⟨j,e,first,by rw [zero,grownZero found,grownZero first.1]⟩

theorem placedLands {devices gpu} (work : Fits 64 (input.duration*input.fpsInput))
    (times : ∀ d ∈ devices, 0 ≤ Device.remainingTime d)
    (nonzero : ∀ gpu, rate config input gpu ≠ 0) (chosen : Chosen config input devices gpu) :
    Placed config input devices ↔ Lands config input devices gpu := by
  have place := placeChosen work times nonzero chosen
  have step : Placed config input devices ↔ ∃ d, devices[(best gpu devices).1]? = some d ∧
      Fits 64 (d.remainingTime + exe config input gpu) ∧
      ((Earliest config input devices (best gpu devices).1 d ∧ exe config input d.gpu = exe config input gpu) ∨
        (exe config input gpu = 0 ∧ ((∃ e ∈ devices, Capable config input e) →
          ∃ j e, Earliest config input devices j e ∧ exe config input e.gpu = 0))) := by
    unfold Placed
    simp only [balanceSome,place,chargeSome]
    constructor
    · intro h
      obtain ⟨out,⟨d,found,fits,rfl⟩,right⟩ := h
      exact ⟨d,found,fits,(additionRight found).mp right⟩
    · intro h
      obtain ⟨d,found,fits,right⟩ := h
      exact ⟨_,⟨d,found,fits,rfl⟩,(additionRight found).mpr right⟩
  rw [step]
  unfold Lands
  rcases (bestSpec gpu times).2.2 with ⟨never,zero⟩ | ⟨under,x,mem,index,least⟩
  · rw [zero]
    simp only [never,false_and,false_or,not_false_eq_true,true_and]
  · have first := chosenEarliest times chosen mem least
    have same : x.1.gpu = gpu := by simpa using (List.mem_filter.mp mem).2
    simp only [under,true_and,not_true_eq_false,false_and,or_false]
    rw [index,least]
    constructor
    · intro h
      obtain ⟨d,found,fits,_⟩ := h
      cases Option.some.inj (first.1.symm.trans found)
      exact fits
    · intro fits
      exact ⟨x.1,first.1,fits,.inl ⟨first,by rw [same]⟩⟩

theorem placedExactly (config : Config) (input : Input) (devices : List Device)
    (times : ∀ d ∈ devices, 0 ≤ d.remainingTime)
    (cpuRate : rate config input false ≠ 0) (gpuRate : rate config input true ≠ 0)
    (work : Fits 64 (input.duration*input.fpsInput)) :
    Placed config input devices ↔
      (rate config input true < 0 ∧ rate config input false < 0) ∨
        ∃ gpu, Chosen config input devices gpu ∧ Lands config input devices gpu := by
  have nonzero : ∀ gpu, rate config input gpu ≠ 0 := fun gpu => by cases gpu <;> assumption
  constructor
  · intro placed
    have result := placed
    obtain ⟨out,done,_⟩ := result
    rcases placeSome work times nonzero (balanceSome.mp done) with unsupported | ⟨gpu,chosen⟩
    · exact .inl unsupported
    · exact .inr ⟨gpu,chosen,(placedLands work times nonzero chosen).mp placed⟩
  · intro h
    rcases h with ⟨gpu,cpu⟩ | ⟨gpu,chosen,lands⟩
    · have incapable : ∀ d : Device, ¬ Capable config input d := by
        intro d
        unfold Capable
        cases d.gpu <;> omega
      refine ⟨devices,balanceSome.mpr (placeNone gpu cpu),fun some_ => ?_,fun _ => rfl⟩
      obtain ⟨d,_,able⟩ := some_
      exact absurd able (incapable d)
    · exact (placedLands work times nonzero chosen).mpr lands

def mainConfig : Config := ⟨fun _ _ => 360,fun _ _ => 90⟩
def mainInput : Input := ⟨.p1080,.p720,40,120⟩
def mainDevices : List Device := [⟨false,1,50⟩,⟨true,1,100⟩,⟨true,2,50⟩,⟨true,3,300⟩,⟨true,4,200⟩]

theorem placedExactlyMain : Placed mainConfig mainInput mainDevices :=
  (placedExactly mainConfig mainInput mainDevices (by decide) (by decide) (by decide) (by decide)).mpr
    (.inr ⟨true,by unfold Chosen; decide,.inl (by decide)⟩)

def twoDevices : List Device := [⟨false,1,50⟩,⟨true,1,10⟩]

theorem firstDeviceCharged : ¬ ∀ (config : Config) (input : Input) (devices : List Device), devices ≠ [] →
    (∀ d ∈ devices, 0 ≤ d.remainingTime) → rate config input false ≠ 0 → rate config input true ≠ 0 →
    Fits 64 (input.duration*input.fpsInput) → Placed config input devices := by
  intro all
  obtain ⟨out,done,right,_⟩ := all mainConfig mainInput twoDevices
    (by decide) (by decide) (by decide) (by decide) (by decide)
  have result : balanceDevices mainConfig (some twoDevices) mainInput =
      some (some (grown twoDevices 0 ⟨false,1,50⟩ 13)) := by decide
  cases Option.some.inj (Option.some.inj (result.symm.trans done))
  obtain ⟨i,d,⟨found,_⟩,same⟩ := right ⟨⟨true,1,10⟩,by decide,by unfold Capable; decide⟩
  rcases (grownEq rfl found).mp same with ⟨zero,_⟩ | ⟨rfl,equal⟩
  · cases zero
  · cases found
    exact absurd equal (by decide)

end PracticeSuite.BalanceLoad
