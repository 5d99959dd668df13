import PracticeSuite.SegmentedLog

/-! The shadow files of process accounting: atopacctd copies what the kernel writes into numbered
files of one maximum size and keeps the number of the newest in the file current. Each step here is
one access to the files, so that a client may come between any two. -/
namespace PracticeSuite.ShadowFiles
open SegmentedLog

variable {β : Type}

structure Config where
  arecsize : Nat
  maxshadowrec : Nat
  recorded : 0 < arecsize
  aligned : arecsize ∣ 128
  roomy : 16000 ≤ maxshadowrec * arecsize

def Config.maxshadowsz (c : Config) : Nat := c.maxshadowrec * c.arecsize

def standard : Config := ⟨64,10000,by decide,by decide,by decide⟩

def maxorigsz : Nat := 1024*1024

structure Records (c : Config) (β : Type) where
  bytes : List β
  whole : c.arecsize ∣ bytes.length

/- Where atopacctd stands, with what is left for the next shadow file: after a full file, in gcshadows
(`test`: it holds the write lock on the oldest file, `unlink`: it has given it up), and where the last
client has left. -/
inductive Stage (β : Type) where
  | waiting
  | create (rest : List β)
  | wipe (rest : List β)
  | announce (rest : List β)
  | remainder (rest : List β)
  | test (restarting : Bool)
  | unlink (restarting : Bool)
  | sweep
  | rewipe
  | reannounce

/- `account` is the accounting file with the offset `afd` of the daemon; `current` is the number in the
file current, none while that file is empty. `taken` is all that awaitprocterm has read, `passed` what
was written to shadow files since number 0 was created. -/
structure Daemon (β : Type) where
  account : List β
  afd : Nat
  atotsize : Nat
  stotsize : Nat
  oldshadow : Nat
  curshadow : Nat
  shadowbusy : Bool
  stage : Stage β
  shadows : Nat → Option (List β)
  current : Option Nat
  taken : List β
  passed : List β

def initial : Daemon β := ⟨[],0,0,0,0,0,false,.waiting,fun n => if n = 0 then some [] else none,some 0,[],[]⟩

/- `filled`: the file system is filled for more than 95%. -/
def pass2shadow (filled : Bool) (sbuf : List β) (d : Daemon β) : Daemon β :=
  if filled then d
  else {d with
    shadows := Function.update d.shadows d.curshadow ((d.shadows d.curshadow).map (· ++ sbuf))
    stotsize := d.stotsize + sbuf.length
    passed := d.passed ++ sbuf}

def receive (c : Config) (filled : Bool) (abuf : List β) (d : Daemon β) : Daemon β :=
  let partsz := if d.stotsize + abuf.length ≤ c.maxshadowsz then abuf.length else c.maxshadowsz - d.stotsize
  let d := pass2shadow filled (abuf.take partsz) {d with shadowbusy := true}
  if c.maxshadowsz ≤ d.stotsize then {d with stage := .create (abuf.drop partsz)} else d

def maintain (truncates : Bool) (abuf : List β) (d : Daemon β) : Daemon β :=
  let atotsize := (d.atotsize + abuf.length) % 2^64
  let d := {d with taken := d.taken ++ abuf}
  if maxorigsz ≤ atotsize && truncates then {d with account := [], afd := 0, atotsize := 0}
  else {d with afd := d.afd + abuf.length, atotsize := atotsize}

/- From the read on; `clients`: NUMCLIENTS is not 0. -/
def awaitprocterm (c : Config) (clients filled truncates : Bool) (d : Daemon β) : Option (Daemon β) :=
  match d.stage with
  | .waiting =>
    let abuf := slice d.account d.afd 16000
    if abuf.isEmpty then none
    else
      let d := maintain truncates abuf d
      if clients then some (receive c filled abuf d)
      else if d.shadowbusy then some {d with stage := .sweep}
      else some d
  | _ => none

/- awaitprocterm at the end of the file, after NORECINTERVAL seconds: `records` is what the kernel has
written until swonpacct reads again, none when accounting cannot be switched on. -/
def reactivate (records : Option (List β)) (d : Daemon β) : Option (Daemon β) :=
  match d.stage with
  | .waiting =>
    if d.account.length ≤ d.afd then
      match records with
      | none => some {d with account := [], afd := 0, atotsize := 2^64 - 1}
      | some [] => none
      | some records => some {d with account := records, afd := min 4096 records.length, atotsize := min 4096 records.length}
    else none
  | _ => none

/- One iteration of gcshadows up to its lock; none is where it ends. -/
def gcshadows (locked : Nat → Bool) (curshadow : Nat) (restarting : Bool) (d : Daemon β) : Option (Daemon β) :=
  if d.oldshadow < curshadow then
    match d.shadows d.oldshadow with
    | none => none
    | some _ => if locked d.oldshadow then none else some {d with stage := .test restarting}
  else none

def restart (d : Daemon β) : Daemon β :=
  {d with
    oldshadow := 0
    curshadow := 0
    stotsize := 0
    shadows := Function.update d.shadows 0 (some [])
    stage := .rewipe
    passed := []}

/- The next access of awaitprocterm: createshadow, the two writes of setcurrent, the rest of the data,
and gcshadows with what follows it. -/
def proceed (locked : Nat → Bool) (filled : Bool) (d : Daemon β) : Option (Daemon β) :=
  match d.stage with
  | .waiting => none
  | .create rest => some {d with
      curshadow := d.curshadow + 1
      shadows := Function.update d.shadows (d.curshadow + 1) (some [])
      stage := .wipe rest}
  | .wipe rest => some {d with current := none, stage := .announce rest}
  | .announce rest => some {d with current := some d.curshadow, stotsize := 0, stage := .remainder rest}
  | .remainder rest =>
    let d := {d with stage := .waiting}
    some (if rest.isEmpty then d else pass2shadow filled rest d)
  | .test restarting => some {d with stage := .unlink restarting}
  | .unlink restarting => some {d with
      shadows := Function.update d.shadows d.oldshadow none
      oldshadow := d.oldshadow + 1
      stage := if restarting then .sweep else .waiting}
  | .sweep => some ((gcshadows locked (d.curshadow + 1) true d).getD (restart d))
  | .rewipe => some {d with current := none, stage := .reannounce}
  | .reannounce => some {d with current := some d.curshadow, shadowbusy := false, stage := .waiting}

def collect (locked : Nat → Bool) (d : Daemon β) : Option (Daemon β) :=
  match d.stage with
  | .waiting => if d.shadowbusy then gcshadows locked d.curshadow false d else none
  | _ => none

inductive Action (c : Config) (β : Type) where
  | terminate (records : Records c β)
  | await (filled truncates : Bool)
  | reactivate (records : Option (Records c β))
  | proceed (filled : Bool)
  | collect

def Daemon.step (c : Config) (clients : Bool) (locked : Nat → Bool) (d : Daemon β) : Action c β → Option (Daemon β)
  | .terminate records => some {d with account := d.account ++ records.bytes}
  | .await filled truncates => awaitprocterm c clients filled truncates d
  | .reactivate records => ShadowFiles.reactivate (records.map Records.bytes) d
  | .proceed filled => ShadowFiles.proceed locked filled d
  | .collect => ShadowFiles.collect locked d

structure Rest (c : Config) (rest : List β) : Prop where
  whole : c.arecsize ∣ rest.length
  small : rest.length < c.maxshadowsz

def Daemon.restarting (d : Daemon β) : Bool :=
  match d.stage with
  | .test restarting | .unlink restarting => restarting
  | .sweep | .rewipe | .reannounce => true
  | _ => false

def Daemon.tests (d : Daemon β) (n : Nat) : Bool :=
  match d.stage with
  | .test _ => d.oldshadow = n
  | _ => false

def Daemon.oldest (d : Daemon β) : Nat :=
  match d.stage with
  | .test _ | .unlink _ => d.oldshadow + 1
  | _ => d.oldshadow

def announced (d : Daemon β) : Nat :=
  match d.stage with
  | .wipe _ | .announce _ => d.curshadow - 1
  | _ => d.curshadow

structure Accounted (c : Config) (account : List β) (afd : Nat) : Prop where
  inside : afd ≤ account.length
  account : c.arecsize ∣ account.length
  afd : c.arecsize ∣ afd

def Filling (c : Config) (d : Daemon β) : Prop := d.passed.length = c.maxshadowsz*d.curshadow + d.stotsize ∧ d.stotsize < c.maxshadowsz

def StageValid (c : Config) (d : Daemon β) : Prop :=
  match d.stage with
  | .waiting | .test false | .unlink false => Filling c d ∧ d.current = some d.curshadow
  | .create rest => d.passed.length = c.maxshadowsz*(d.curshadow+1) ∧ d.current = some d.curshadow ∧ Rest c rest
  | .wipe rest => d.passed.length = c.maxshadowsz*d.curshadow ∧ 0 < d.curshadow ∧ d.current = some (d.curshadow-1) ∧ Rest c rest
  | .announce rest => d.passed.length = c.maxshadowsz*d.curshadow ∧ 0 < d.curshadow ∧ d.current = none ∧ Rest c rest
  | .remainder rest => d.passed.length = c.maxshadowsz*d.curshadow ∧ d.stotsize = 0 ∧ d.current = some d.curshadow ∧ Rest c rest
  | .test true | .unlink true | .sweep => Filling c d
  | .rewipe | .reannounce => Filling c d ∧ d.oldshadow = 0

/- The files from the oldest to the newest are the segments of what was passed; above the newest there may
be files that were locked when the files were started over. -/
structure Valid (c : Config) (d : Daemon β) : Prop where
  accounted : Accounted c d.account d.afd
  named : d.restarting = false → d.oldest ≤ announced d
  shadows : ∀ n ≤ d.curshadow, d.shadows n = if d.oldshadow ≤ n then some (segment c.maxshadowsz d.passed n) else none
  whole : c.arecsize ∣ d.passed.length
  stage : StageValid c d

theorem roomyPositive (c : Config) : 0 < c.maxshadowsz := Nat.lt_of_lt_of_le (by decide) c.roomy

theorem wholeMax (c : Config) : c.arecsize ∣ c.maxshadowsz := Nat.dvd_mul_left _ _

theorem wholeMin {a m n : Nat} (first : a ∣ m) (second : a ∣ n) : a ∣ min m n := by
  rcases Nat.le_total m n with le | le
  · rwa [Nat.min_eq_left le]
  · rwa [Nat.min_eq_right le]

theorem initialValid (c : Config) : Valid c (initial : Daemon β) := by
  refine ⟨⟨Nat.le_refl 0,Nat.dvd_zero _,Nat.dvd_zero _⟩,fun _ => Nat.le_refl 0,fun n least => ?_,Nat.dvd_zero _,?_⟩
  · cases Nat.le_zero.mp least
    rw [segmentEmpty (by simp [initial])]
    rfl
  · exact ⟨⟨by simp [initial],roomyPositive c⟩,rfl⟩

theorem Valid.extent {c : Config} {d : Daemon β} (valid : Valid c d) :
    c.maxshadowsz*d.curshadow ≤ d.passed.length ∧ d.passed.length ≤ c.maxshadowsz*(d.curshadow+1) := by
  have stage := valid.stage
  have next := Nat.mul_add_one c.maxshadowsz d.curshadow
  unfold StageValid Filling at stage
  split at stage <;> omega

theorem Valid.held {c : Config} {d : Daemon β} (valid : Valid c d) {n : Nat} (old : d.oldshadow ≤ n) (new : n ≤ d.curshadow) :
    d.shadows n = some (segment c.maxshadowsz d.passed n) := by
  rw [valid.shadows n new,if_pos old]

theorem announcedLe (d : Daemon β) : announced d ≤ d.curshadow := by
  unfold announced
  split <;> omega

theorem announcedNear (d : Daemon β) : d.curshadow ≤ announced d + 1 := by
  unfold announced
  split <;> omega

theorem oldestLe (d : Daemon β) : d.oldshadow ≤ d.oldest := by
  unfold Daemon.oldest
  split <;> omega

theorem Valid.announcedExtent {c : Config} {d : Daemon β} (valid : Valid c d) (settled : d.restarting = false) :
    d.passed.length ≤ c.maxshadowsz*(announced d + 1) ∧ ∀ n ∈ d.current, n = announced d := by
  have stage := valid.stage
  have extent := valid.extent
  unfold StageValid at stage
  unfold announced
  unfold Daemon.restarting at settled
  split at stage <;> rename_i here <;> simp only [here] at settled ⊢
  · exact ⟨extent.2,by simp [stage.2]⟩
  · exact ⟨extent.2,by simp [stage.2]⟩
  · exact ⟨extent.2,by simp [stage.2]⟩
  · exact ⟨extent.2,by simp [stage.2.1]⟩
  · have last : d.curshadow - 1 + 1 = d.curshadow := by omega
    exact ⟨by rw [last]; omega,by simp [stage.2.2.1]⟩
  · have last : d.curshadow - 1 + 1 = d.curshadow := by omega
    exact ⟨by rw [last]; omega,by simp [stage.2.2.1]⟩
  · exact ⟨extent.2,by simp [stage.2.2.1]⟩
  all_goals cases settled

theorem untested {d : Daemon β} {n : Nat} (kept : d.oldest ≤ n) : d.tests n = false := by
  unfold Daemon.tests
  split
  · rename_i here
    simp only [Daemon.oldest,here] at kept
    exact decide_eq_false (by omega)
  · rfl

section
variable {c : Config} {d t : Daemon β} {locked : Nat → Bool}

theorem Valid.restage (valid : Valid c d) {stage : Stage β}
    (named : {d with stage := stage}.restarting = false → {d with stage := stage}.oldest ≤ announced {d with stage := stage})
    (kept : StageValid c {d with stage := stage}) : Valid c {d with stage := stage} :=
  ⟨valid.accounted,named,valid.shadows,valid.whole,kept⟩

theorem passShadows (valid : Valid c d) (there : d.oldshadow ≤ d.curshadow) {sbuf : List β}
    (fits : d.passed.length + sbuf.length ≤ c.maxshadowsz*(d.curshadow+1)) (n : Nat) (new : n ≤ d.curshadow) :
    Function.update d.shadows d.curshadow ((d.shadows d.curshadow).map (· ++ sbuf)) n =
      if d.oldshadow ≤ n then some (segment c.maxshadowsz (d.passed ++ sbuf) n) else none := by
  by_cases here : n = d.curshadow
  · subst here
    rw [Function.update_self,valid.held there le_rfl,if_pos there,segmentGrown valid.extent.1 fits]
    rfl
  · rw [Function.update_of_ne here,valid.shadows n new]
    split
    · have full : c.maxshadowsz*(n+1) ≤ d.passed.length := (Nat.mul_le_mul_left _ (by omega)).trans valid.extent.1
      rw [segmentKept full]
    · rfl

theorem createShadows (valid : Valid c d) (there : d.oldshadow ≤ d.curshadow) (n : Nat) (new : n ≤ d.curshadow+1) :
    Function.update d.shadows (d.curshadow+1) (some []) n =
      if d.oldshadow ≤ n then some (segment c.maxshadowsz d.passed n) else none := by
  by_cases last : n = d.curshadow+1
  · subst last
    rw [Function.update_self,segmentEmpty valid.extent.2,if_pos (by omega)]
  · rw [Function.update_of_ne last,valid.shadows n (by omega)]

theorem receiveValid (valid : Valid c d) (waiting : d.stage = .waiting) (filled : Bool) {abuf : List β}
    (whole : c.arecsize ∣ abuf.length) (bounded : abuf.length ≤ 16000) : Valid c (receive c filled abuf d) := by
  have stage := valid.stage
  simp only [StageValid,waiting] at stage
  obtain ⟨⟨length,room⟩,current⟩ := stage
  have there : d.oldshadow ≤ d.curshadow := by
    simpa only [Daemon.oldest,announced,waiting] using valid.named (by simp only [Daemon.restarting,waiting])
  have next := Nat.mul_add_one c.maxshadowsz d.curshadow
  have roomy : 16000 ≤ c.maxshadowsz := c.roomy
  cases filled with
  | true =>
    have stays : ¬ c.maxshadowsz ≤ d.stotsize := by omega
    simp only [receive,pass2shadow,if_true,if_neg stays]
    exact ⟨valid.accounted,fun _ => by simpa only [Daemon.oldest,announced,waiting] using there,valid.shadows,valid.whole,
      by simp only [StageValid,waiting]; exact ⟨⟨length,room⟩,current⟩⟩
  | false =>
    have partWhole : ∀ n, c.arecsize ∣ n → c.arecsize ∣ (d.passed ++ abuf.take n).length := by
      intro n whole_
      rw [List.length_append,List.length_take]
      exact Nat.dvd_add valid.whole (wholeMin whole_ whole)
    by_cases fits : d.stotsize + abuf.length ≤ c.maxshadowsz
    · have shadows := passShadows valid there (show d.passed.length + abuf.length ≤ _ by omega)
      have all := partWhole _ whole
      rw [List.take_length] at all
      simp only [receive,pass2shadow,Bool.false_eq_true,if_false,if_pos fits,List.take_length,List.drop_length]
      split
      · rename_i reached
        refine ⟨valid.accounted,fun _ => there,shadows,all,?_⟩
        simp only [StageValid,List.length_append]
        exact ⟨by omega,current,⟨Nat.dvd_zero _,roomyPositive c⟩⟩
      · rename_i open_
        refine ⟨valid.accounted,fun _ => by simpa only [Daemon.oldest,announced,waiting] using there,shadows,all,?_⟩
        simp only [StageValid,Filling,waiting,List.length_append]
        exact ⟨⟨by omega,by omega⟩,current⟩
    · have partLength : (abuf.take (c.maxshadowsz - d.stotsize)).length = c.maxshadowsz - d.stotsize := by
        rw [List.length_take]
        omega
      have shadows := passShadows valid there (show d.passed.length + (abuf.take (c.maxshadowsz - d.stotsize)).length ≤ _ by omega)
      have stotWhole : c.arecsize ∣ d.stotsize := by
        have := valid.whole
        rw [length] at this
        exact (Nat.dvd_add_right ((wholeMax c).mul_right _)).mp this
      have partsz : c.arecsize ∣ c.maxshadowsz - d.stotsize := Nat.dvd_sub (wholeMax c) stotWhole
      have reached : c.maxshadowsz ≤ d.stotsize + (abuf.take (c.maxshadowsz - d.stotsize)).length := by omega
      simp only [receive,pass2shadow,Bool.false_eq_true,if_false,if_neg fits,if_pos reached]
      refine ⟨valid.accounted,fun _ => there,shadows,partWhole _ partsz,?_⟩
      simp only [StageValid,List.length_append]
      refine ⟨by omega,current,⟨?_,?_⟩⟩
      · rw [List.length_drop]
        exact Nat.dvd_sub whole partsz
      · rw [List.length_drop]
        omega

theorem readWhole (accounted : Accounted c d.account d.afd) :
    c.arecsize ∣ (slice d.account d.afd 16000).length ∧ (slice d.account d.afd 16000).length ≤ 16000 ∧
      d.afd + (slice d.account d.afd 16000).length ≤ d.account.length := by
  have inside := accounted.inside
  rw [sliceLength]
  exact ⟨wholeMin (c.aligned.trans (by decide)) (Nat.dvd_sub accounted.account accounted.afd),by omega,by omega⟩

theorem maintainAccounted (accounted : Accounted c d.account d.afd) (truncates : Bool) :
    Accounted c (maintain truncates (slice d.account d.afd 16000) d).account (maintain truncates (slice d.account d.afd 16000) d).afd := by
  obtain ⟨whole,-,inside⟩ := readWhole accounted
  unfold maintain
  dsimp only
  split
  · exact ⟨Nat.le_refl 0,Nat.dvd_zero _,Nat.dvd_zero _⟩
  · exact ⟨inside,accounted.account,Nat.dvd_add accounted.afd whole⟩

theorem maintainMade (truncates : Bool) (abuf : List β) (d : Daemon β) : ∃ account afd atotsize,
    maintain truncates abuf d = {d with account := account, afd := afd, atotsize := atotsize, taken := d.taken ++ abuf} := by
  unfold maintain
  dsimp only
  split <;> exact ⟨_,_,_,rfl⟩

theorem maintainValid (valid : Valid c d) (truncates : Bool) : Valid c (maintain truncates (slice d.account d.afd 16000) d) := by
  have accounted := maintainAccounted valid.accounted truncates
  obtain ⟨account,afd,atotsize,made⟩ := maintainMade truncates (slice d.account d.afd 16000) d
  rw [made] at accounted ⊢
  exact ⟨accounted,valid.named,valid.shadows,valid.whole,valid.stage⟩

theorem awaitWent {clients filled truncates : Bool} (went : awaitprocterm c clients filled truncates d = some t) :
    d.stage = .waiting ∧ ∃ u, maintain truncates (slice d.account d.afd 16000) d = u ∧
      (clients = true ∧ t = receive c filled (slice d.account d.afd 16000) u ∨
        clients = false ∧ (t = {u with stage := .sweep} ∨ t = u)) := by
  unfold awaitprocterm at went
  split at went <;> try contradiction
  rename_i waiting
  dsimp only at went
  split at went <;> try contradiction
  refine ⟨waiting,_,rfl,?_⟩
  split at went
  · rename_i some_
    exact Or.inl ⟨some_,(Option.some.inj went).symm⟩
  · rename_i nobody
    refine Or.inr ⟨by simpa using nobody,?_⟩
    split at went
    · exact Or.inl (Option.some.inj went).symm
    · exact Or.inr (Option.some.inj went).symm

theorem awaitValid (valid : Valid c d) {clients filled truncates : Bool} (went : awaitprocterm c clients filled truncates d = some t) :
    Valid c t := by
  obtain ⟨whole,bounded,-⟩ := readWhole valid.accounted
  obtain ⟨waiting,u,made,which⟩ := awaitWent went
  have kept := maintainValid valid truncates
  obtain ⟨account,afd,atotsize,same⟩ := maintainMade truncates (slice d.account d.afd 16000) d
  have still : u.stage = .waiting := by rw [← made,same,waiting]
  rw [made] at kept
  rcases which with ⟨-,rfl⟩ | ⟨-,rfl | rfl⟩
  · exact receiveValid kept still filled whole bounded
  · have filling := kept.stage
    simp only [StageValid,still] at filling
    exact kept.restage (fun no => by cases no) filling.1
  · exact kept

theorem reactivateWent {records : Option (List β)} (went : reactivate records d = some t) :
    ∃ atotsize, t = {d with account := records.getD [], afd := min 4096 (records.getD []).length, atotsize := atotsize} := by
  unfold reactivate at went
  split at went <;> try contradiction
  split at went <;> try contradiction
  split at went <;> try contradiction
  · exact ⟨_,(Option.some.inj went).symm⟩
  · exact ⟨_,(Option.some.inj went).symm⟩

theorem reactivateValid (valid : Valid c d) {records : Option (Records c β)} (went : reactivate (records.map Records.bytes) d = some t) :
    Valid c t := by
  obtain ⟨atotsize,rfl⟩ := reactivateWent went
  have whole : c.arecsize ∣ ((records.map Records.bytes).getD []).length := by
    cases records with
    | none => exact Nat.dvd_zero _
    | some records => exact records.whole
  exact ⟨⟨Nat.min_le_right _ _,whole,wholeMin (c.aligned.trans (by decide)) whole⟩,valid.named,valid.shadows,valid.whole,valid.stage⟩

theorem gcshadowsWent {stop : Nat} {restarting : Bool} (went : gcshadows locked stop restarting d = some t) :
    d.oldshadow < stop ∧ locked d.oldshadow = false ∧ t = {d with stage := .test restarting} := by
  unfold gcshadows at went
  split at went <;> try contradiction
  rename_i more
  split at went <;> try contradiction
  split at went <;> try contradiction
  rename_i free
  exact ⟨more,by simpa using free,(Option.some.inj went).symm⟩

theorem collectWent (went : collect locked d = some t) :
    d.stage = .waiting ∧ d.oldshadow < d.curshadow ∧ locked d.oldshadow = false ∧ t = {d with stage := .test false} := by
  unfold collect at went
  split at went <;> try contradiction
  rename_i waiting
  split at went <;> try contradiction
  exact ⟨waiting,gcshadowsWent went⟩

theorem collectValid (valid : Valid c d) (went : collect locked d = some t) : Valid c t := by
  obtain ⟨waiting,more,-,rfl⟩ := collectWent went
  have stage := valid.stage
  simp only [StageValid,waiting] at stage
  exact valid.restage (fun _ => more) stage

theorem restartValid (valid : Valid c d) : Valid c (restart d) := by
  refine ⟨valid.accounted,fun no => by simp [restart,Daemon.restarting] at no,fun n least => ?_,Nat.dvd_zero _,?_⟩
  · have zero : n = 0 := Nat.le_zero.mp least
    subst zero
    rw [if_pos (show (restart d).oldshadow ≤ 0 from le_rfl),segmentEmpty (by simp [restart])]
    simp only [restart,Function.update_self]
  · exact ⟨⟨by simp [restart],roomyPositive c⟩,rfl⟩

theorem unlinkShadows (valid : Valid c d) (n : Nat) (new : n ≤ d.curshadow) :
    Function.update d.shadows d.oldshadow none n = if d.oldshadow + 1 ≤ n then some (segment c.maxshadowsz d.passed n) else none := by
  by_cases here : n = d.oldshadow
  · subst here
    rw [Function.update_self,if_neg (by omega)]
  · rw [Function.update_of_ne here,valid.shadows n new]
    exact if_congr (by omega) rfl rfl

theorem proceedValid (valid : Valid c d) {filled : Bool} (went : proceed locked filled d = some t) : Valid c t := by
  have stage := valid.stage
  have named := valid.named
  unfold proceed at went
  split at went <;> (try contradiction) <;> cases Option.some.inj went
  · rename_i rest here
    simp only [StageValid,Daemon.restarting,Daemon.oldest,announced,here,forall_const] at stage named
    obtain ⟨length,current,small⟩ := stage
    refine ⟨valid.accounted,fun _ => named,createShadows valid named,valid.whole,?_⟩
    simp only [StageValid]
    exact ⟨length,by omega,by simpa using current,small⟩
  · rename_i rest here
    simp only [StageValid,Daemon.restarting,Daemon.oldest,announced,here,forall_const] at stage named
    exact ⟨valid.accounted,fun _ => named,valid.shadows,valid.whole,by simp only [StageValid]; exact ⟨stage.1,stage.2.1,trivial,stage.2.2.2⟩⟩
  · rename_i rest here
    simp only [StageValid,Daemon.restarting,Daemon.oldest,announced,here,forall_const] at stage named
    exact ⟨valid.accounted,fun _ => named.trans (Nat.sub_le _ _),valid.shadows,valid.whole,
      by simp only [StageValid]; exact ⟨stage.1,trivial,trivial,stage.2.2.2⟩⟩
  · rename_i rest here
    simp only [StageValid,Daemon.restarting,Daemon.oldest,announced,here,forall_const] at stage named
    obtain ⟨length,empty,current,small⟩ := stage
    have dropped : Valid c {d with stage := .waiting} :=
      ⟨valid.accounted,fun _ => named,valid.shadows,valid.whole,
        by simp only [StageValid,Filling]; exact ⟨⟨by omega,by have := roomyPositive c; omega⟩,current⟩⟩
    split
    · exact dropped
    · cases filled with
      | true => exact dropped
      | false =>
        have room := small.small
        have next := Nat.mul_add_one c.maxshadowsz d.curshadow
        have shadows := passShadows valid named (show d.passed.length + rest.length ≤ _ by omega)
        simp only [pass2shadow,Bool.false_eq_true,if_false]
        refine ⟨valid.accounted,fun _ => named,shadows,?_,?_⟩
        · rw [List.length_append]
          exact Nat.dvd_add valid.whole small.whole
        · simp only [StageValid,Filling,List.length_append]
          exact ⟨⟨by omega,by omega⟩,current⟩
  · rename_i restarting here
    cases restarting with
    | false =>
      simp only [StageValid,Daemon.restarting,Daemon.oldest,announced,here,forall_const] at stage named
      exact valid.restage (fun _ => named) stage
    | true =>
      simp only [StageValid,here] at stage
      exact valid.restage (fun no => by cases no) stage
  · rename_i restarting here
    cases restarting with
    | false =>
      simp only [StageValid,Daemon.restarting,Daemon.oldest,announced,here,forall_const] at stage named
      exact ⟨valid.accounted,fun _ => named,unlinkShadows valid,valid.whole,by simp only [StageValid]; exact stage⟩
    | true =>
      simp only [StageValid,here] at stage
      exact ⟨valid.accounted,fun no => by simp [Daemon.restarting] at no,unlinkShadows valid,valid.whole,by simp only [StageValid]; exact stage⟩
  · rename_i here
    simp only [StageValid,here] at stage
    cases more : gcshadows locked (d.curshadow + 1) true d with
    | none => exact restartValid valid
    | some u =>
      obtain ⟨-,-,rfl⟩ := gcshadowsWent more
      exact valid.restage (fun no => by cases no) stage
  · rename_i here
    simp only [StageValid,here] at stage
    exact ⟨valid.accounted,fun no => by simp [Daemon.restarting] at no,valid.shadows,valid.whole,by simp only [StageValid]; exact stage⟩
  · rename_i here
    simp only [StageValid,here] at stage
    exact ⟨valid.accounted,fun _ => by simp only [Daemon.oldest,stage.2]; exact Nat.zero_le _,valid.shadows,valid.whole,
      by simp only [StageValid]; exact ⟨stage.1,trivial⟩⟩

theorem stepValid (valid : Valid c d) {clients : Bool} {a : Action c β} (went : d.step c clients locked a = some t) : Valid c t := by
  cases a with
  | terminate records =>
    cases Option.some.inj went
    have accounted := valid.accounted
    refine ⟨⟨?_,?_,accounted.afd⟩,valid.named,valid.shadows,valid.whole,valid.stage⟩
    · rw [List.length_append]
      exact accounted.inside.trans (Nat.le_add_right _ _)
    · rw [List.length_append]
      exact Nat.dvd_add accounted.account records.whole
  | await filled truncates => exact awaitValid valid went
  | reactivate records => exact reactivateValid valid went
  | proceed filled => exact proceedValid valid went
  | collect => exact collectValid valid went

end

structure Grown (locked : Nat → Bool) (d t : Daemon β) : Prop where
  passed : d.passed <+: t.passed
  newest : d.curshadow ≤ t.curshadow
  settled : t.restarting = false
  kept : ∀ n, locked n = true → d.oldest ≤ n → t.oldest ≤ n

theorem Grown.length {locked : Nat → Bool} {d t : Daemon β} (grown : Grown locked d t) : d.passed.length ≤ t.passed.length :=
  grown.passed.length_le

section
variable {c : Config} {d t : Daemon β} {locked : Nat → Bool}

theorem passSteady (filled : Bool) (sbuf : List β) (d : Daemon β) :
    (pass2shadow filled sbuf d).stage = d.stage ∧ (pass2shadow filled sbuf d).oldshadow = d.oldshadow ∧
      (pass2shadow filled sbuf d).curshadow = d.curshadow ∧ (pass2shadow filled sbuf d).current = d.current ∧
      d.passed <+: (pass2shadow filled sbuf d).passed := by
  cases filled with
  | true => exact ⟨rfl,rfl,rfl,rfl,List.prefix_rfl⟩
  | false => exact ⟨rfl,rfl,rfl,rfl,List.prefix_append _ _⟩

theorem receiveSteady (c : Config) (filled : Bool) (abuf : List β) (waiting : d.stage = .waiting) :
    d.passed <+: (receive c filled abuf d).passed ∧ (receive c filled abuf d).curshadow = d.curshadow ∧
      (receive c filled abuf d).oldest = d.oldshadow ∧ (receive c filled abuf d).restarting = false ∧
      (receive c filled abuf d).current = d.current := by
  unfold receive
  dsimp only
  generalize (if d.stotsize + abuf.length ≤ c.maxshadowsz then abuf.length else c.maxshadowsz - d.stotsize) = partsz
  obtain ⟨stage,old,new,current,passed⟩ := passSteady filled (abuf.take partsz) {d with shadowbusy := true}
  split
  · exact ⟨passed,new,by simpa only [Daemon.oldest] using old,rfl,current⟩
  · have still := stage.trans waiting
    exact ⟨passed,new,by simpa only [Daemon.oldest,still] using old,by simp only [Daemon.restarting,still],current⟩

def Action.wipes (d : Daemon β) : Action c β → Bool
  | .proceed _ => match d.stage with
    | .wipe _ => true
    | _ => false
  | _ => false

theorem stepGrown (settled : d.restarting = false) {a : Action c β} (went : d.step c true locked a = some t) : Grown locked d t := by
  cases a with
  | terminate records =>
    cases Option.some.inj went
    exact ⟨List.prefix_rfl,le_rfl,settled,fun _ _ => id⟩
  | await filled truncates =>
    obtain ⟨waiting,u,made,⟨-,rfl⟩ | ⟨none_,-⟩⟩ := awaitWent went
    · obtain ⟨account,afd,atotsize,same⟩ := maintainMade truncates (slice d.account d.afd 16000) d
      have still : u.stage = .waiting := by rw [← made,same,waiting]
      obtain ⟨more,new,kept,on,-⟩ := receiveSteady c filled (slice d.account d.afd 16000) still
      rw [← made,same] at more new kept on ⊢
      refine ⟨more,new.ge,on,fun n _ least => ?_⟩
      rw [kept]
      exact (oldestLe d).trans least
    · cases none_
  | reactivate records =>
    obtain ⟨atotsize,rfl⟩ := reactivateWent went
    exact ⟨List.prefix_rfl,le_rfl,settled,fun _ _ => id⟩
  | proceed filled =>
    simp only [Daemon.step,proceed] at went
    unfold Daemon.restarting at settled
    split at went <;> (try contradiction) <;> rename_i here <;> simp only [here] at settled <;> cases Option.some.inj went
    · exact ⟨List.prefix_rfl,Nat.le_succ _,rfl,fun n _ least => by simpa only [Daemon.oldest,here] using least⟩
    · exact ⟨List.prefix_rfl,le_rfl,rfl,fun n _ least => by simpa only [Daemon.oldest,here] using least⟩
    · exact ⟨List.prefix_rfl,le_rfl,rfl,fun n _ least => by simpa only [Daemon.oldest,here] using least⟩
    · rename_i rest
      split
      · exact ⟨List.prefix_rfl,le_rfl,rfl,fun n _ least => by simpa only [Daemon.oldest,here] using least⟩
      · obtain ⟨stage,old,new,-,passed⟩ := passSteady filled rest {d with stage := .waiting}
        exact ⟨passed,new.ge,by simp only [Daemon.restarting,stage],fun n _ least => by simpa only [Daemon.oldest,stage,old,here] using least⟩
    · exact ⟨List.prefix_rfl,le_rfl,settled,fun n _ least => by simpa only [Daemon.oldest,here] using least⟩
    · cases settled
      exact ⟨List.prefix_rfl,le_rfl,rfl,fun n _ least => by simpa [Daemon.oldest,here] using least⟩
    all_goals cases settled
  | collect =>
    obtain ⟨waiting,-,free,rfl⟩ := collectWent went
    refine ⟨List.prefix_rfl,le_rfl,rfl,fun n taken least => ?_⟩
    simp only [Daemon.oldest,waiting] at least ⊢
    have other : d.oldshadow ≠ n := by
      rintro rfl
      rw [taken] at free
      cases free
    omega

theorem currentKept (valid : Valid c d) (settled : d.restarting = false) {seq : Nat} (current : d.current = some seq) {a : Action c β}
    (still : a.wipes d = false) (went : d.step c true locked a = some t) : t.current = some seq := by
  cases a with
  | terminate records =>
    cases Option.some.inj went
    exact current
  | await filled truncates =>
    obtain ⟨waiting,u,made,⟨-,rfl⟩ | ⟨none_,-⟩⟩ := awaitWent went
    · obtain ⟨account,afd,atotsize,same⟩ := maintainMade truncates (slice d.account d.afd 16000) d
      have still : u.stage = .waiting := by rw [← made,same,waiting]
      rw [(receiveSteady c filled (slice d.account d.afd 16000) still).2.2.2.2,← made,same]
      exact current
    · cases none_
  | reactivate records =>
    obtain ⟨atotsize,rfl⟩ := reactivateWent went
    exact current
  | proceed filled =>
    have stage := valid.stage
    simp only [Daemon.step,proceed] at went
    unfold Daemon.restarting at settled
    unfold StageValid at stage
    unfold Action.wipes at still
    split at went <;> (try contradiction) <;> rename_i here <;> simp only [here] at settled stage still <;> cases Option.some.inj went
    · exact current
    · cases still
    · rw [stage.2.2.1] at current
      cases current
    · rename_i rest
      split
      · exact current
      · exact (passSteady filled rest {d with stage := .waiting}).2.2.2.1.trans current
    · exact current
    · exact current
    all_goals cases settled
  | collect =>
    obtain ⟨-,-,-,rfl⟩ := collectWent went
    exact current

end

end PracticeSuite.ShadowFiles
