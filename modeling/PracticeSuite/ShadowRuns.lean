import PracticeSuite.ShadowReaders

/-! Runs of atopacctd and its clients: what the shadow files hold in every state, and that a client is
handed what the daemon took from the kernel since it registered, whatever the other clients do. -/
namespace PracticeSuite.ShadowRuns
open SegmentedLog ShadowFiles ShadowReaders
open Trace (attempt attemptCons attemptInvariant EachStep eachCons eachPrefix eachSuffix eachTested alwaysOfSteps)

variable {β ι : Type}

section
variable {c : Config} {d t : Daemon β} {locked : Nat → Bool}

def Action.filled : Action c β → Bool
  | .await filled _ => filled
  | .proceed filled => filled
  | _ => false

def pending (d : Daemon β) : List β :=
  match d.stage with
  | .create rest | .wipe rest | .announce rest | .remainder rest => rest
  | _ => []

theorem receivePassed (c : Config) (abuf : List β) (waiting : d.stage = .waiting) :
    (receive c false abuf d).passed ++ pending (receive c false abuf d) = d.passed ++ abuf ∧ (receive c false abuf d).taken = d.taken := by
  by_cases fits : d.stotsize + abuf.length ≤ c.maxshadowsz
  · simp only [receive,pass2shadow,Bool.false_eq_true,if_false,if_pos fits,List.take_length,List.drop_length]
    split <;> simp [pending,waiting]
  · have reached : c.maxshadowsz ≤ d.stotsize + (abuf.take (c.maxshadowsz - d.stotsize)).length := by
      rw [List.length_take]
      omega
    simp only [receive,pass2shadow,Bool.false_eq_true,if_false,if_neg fits,if_pos reached,pending,List.append_assoc,List.take_append_drop]
    exact ⟨trivial,trivial⟩

theorem proceedPassed (settled : d.restarting = false) (went : proceed locked false d = some t) :
    t.passed ++ pending t = d.passed ++ pending d ∧ t.taken = d.taken := by
  unfold proceed at went
  unfold Daemon.restarting at settled
  split at went <;> (try contradiction) <;> rename_i here <;> simp only [here] at settled <;> cases Option.some.inj went
  · simp only [pending,here,and_self]
  · simp only [pending,here,and_self]
  · simp only [pending,here,and_self]
  · rename_i rest
    cases rest with
    | nil => simp [pending,here]
    | cons b rest => simp [pending,here,pass2shadow]
  · simp only [pending,here,and_self]
  · cases settled
    simp [pending,here]
  all_goals cases settled

theorem stepPassed (settled : d.restarting = false) {a : Action c β} (room : Action.filled a = false) (went : d.step c true locked a = some t) :
    ∃ more, t.taken = d.taken ++ more ∧ t.passed ++ pending t = d.passed ++ pending d ++ more := by
  cases a with
  | terminate records =>
    cases Option.some.inj went
    exact ⟨[],(List.append_nil _).symm,(List.append_nil _).symm⟩
  | await filled truncates =>
    cases room
    obtain ⟨waiting,u,made,⟨-,rfl⟩ | ⟨none_,-⟩⟩ := awaitWent went
    · obtain ⟨account,afd,atotsize,same⟩ := maintainMade truncates (slice d.account d.afd 16000) d
      have still : u.stage = .waiting := by rw [← made,same,waiting]
      obtain ⟨log,taken⟩ := receivePassed c (slice d.account d.afd 16000) still
      have nothing : pending d = [] := by simp only [pending,waiting]
      refine ⟨slice d.account d.afd 16000,?_,?_⟩
      · rw [taken,← made,same]
      · rw [log,nothing,List.append_nil,← made,same]
    · cases none_
  | reactivate records =>
    obtain ⟨atotsize,rfl⟩ := reactivateWent went
    exact ⟨[],(List.append_nil _).symm,(List.append_nil _).symm⟩
  | proceed filled =>
    cases room
    obtain ⟨log,same⟩ := proceedPassed settled went
    exact ⟨[],by rw [same,List.append_nil],by rw [log,List.append_nil]⟩
  | collect =>
    obtain ⟨waiting,-,-,rfl⟩ := collectWent went
    exact ⟨[],(List.append_nil _).symm,by simp only [pending,waiting,List.append_nil]⟩

def tidy (locked : Nat → Bool) (d : Daemon β) : Action c β → Bool
  | .proceed _ => match d.stage with
    | .sweep => !(d.oldshadow ≤ d.curshadow && locked d.oldshadow)
    | _ => true
  | _ => true

theorem passAbove (filled : Bool) (sbuf : List β) {n : Nat} (above : d.curshadow < n) :
    (pass2shadow filled sbuf d).shadows n = d.shadows n := by
  cases filled with
  | true => rfl
  | false => exact Function.update_of_ne above.ne' _ _

theorem receiveAbove (c : Config) (filled : Bool) (abuf : List β) {n : Nat} (above : d.curshadow < n) :
    (receive c filled abuf d).shadows n = d.shadows n := by
  unfold receive
  dsimp only
  generalize (if d.stotsize + abuf.length ≤ c.maxshadowsz then abuf.length else c.maxshadowsz - d.stotsize) = partsz
  split <;> exact passAbove filled (abuf.take partsz) (d := {d with shadowbusy := true}) above

theorem stepTidy (valid : Valid c d) (above : ∀ n, d.curshadow < n → d.shadows n = none) {clients : Bool} {a : Action c β}
    (clear : tidy locked d a = true) (went : d.step c clients locked a = some t) : ∀ n, t.curshadow < n → t.shadows n = none := by
  cases a with
  | terminate records =>
    cases Option.some.inj went
    exact above
  | await filled truncates =>
    obtain ⟨waiting,u,made,which⟩ := awaitWent went
    obtain ⟨account,afd,atotsize,same⟩ := maintainMade truncates (slice d.account d.afd 16000) d
    have still : u.stage = .waiting := by rw [← made,same,waiting]
    have clean : ∀ n, u.curshadow < n → u.shadows n = none := by
      rw [← made,same]
      exact above
    rcases which with ⟨-,rfl⟩ | ⟨-,rfl | rfl⟩
    · intro n later
      rw [(receiveSteady c filled (slice d.account d.afd 16000) still).2.1] at later
      rw [receiveAbove c filled _ later]
      exact clean n later
    · exact clean
    · exact clean
  | reactivate records =>
    obtain ⟨atotsize,rfl⟩ := reactivateWent went
    exact above
  | proceed filled =>
    simp only [Daemon.step,proceed] at went
    unfold tidy at clear
    split at went <;> (try contradiction) <;> rename_i here <;> simp only [here] at clear <;> cases Option.some.inj went
    · intro n later
      exact (Function.update_of_ne (Nat.ne_of_gt later) _ _).trans (above n (Nat.lt_of_succ_lt later))
    · exact above
    · exact above
    · rename_i rest
      split
      · exact above
      · intro n later
        rw [(passSteady filled rest {d with stage := .waiting}).2.2.1] at later
        exact (passAbove filled rest later).trans (above n later)
    · exact above
    · intro n later
      by_cases oldest : n = d.oldshadow
      · rw [oldest]
        exact Function.update_self _ _ _
      · exact (Function.update_of_ne oldest _ _).trans (above n later)
    · cases more : gcshadows locked (d.curshadow + 1) true d with
      | some u =>
        obtain ⟨-,-,rfl⟩ := gcshadowsWent more
        exact above
      | none =>
        -- gcshadows ended without a lock in its way, so that nothing is left
        have removed : d.curshadow < d.oldshadow := by
          by_contra left
          have old : d.oldshadow ≤ d.curshadow := Nat.not_lt.mp left
          have free : locked d.oldshadow = false := by simpa [old] using clear
          simp [gcshadows,Nat.lt_succ_of_le old,valid.held le_rfl old,free] at more
        intro n later
        simp only [Option.getD_none,restart] at later ⊢
        rw [Function.update_of_ne later.ne']
        rcases Nat.lt_or_ge d.curshadow n with new | old
        · exact above n new
        · rw [valid.shadows n old,if_neg (by omega)]
    · exact above
    · exact above
  | collect =>
    obtain ⟨-,-,-,rfl⟩ := collectWent went
    exact above

end

/- records of 64 bytes; a client that waits for the first one, registers behind it and takes the second -/
def ends (pid : Nat) : Event standard Nat Unit := .daemon (.terminate ⟨List.replicate 64 pid,by simp [standard]⟩)
def awaits : Event standard Nat Unit := .daemon (.await false true)

def registration : List (Event standard Nat Unit) :=
  [.client () .register,.client () .register,.client () .register,.client () .register,ends 7,awaits,.client () .register]
def sampling : List (Event standard Nat Unit) :=
  [.client () .register,.client () .register,ends 8,awaits,.client () (.next 5),.client () (.next 5),.client () (.next 5),.client () (.next 5),
    .client () (.next 5)]

def reached (events : List (Event standard Nat Unit)) : State Nat Unit := (attempt (step standard) State.initial events).getD State.initial

def Event.tidy [Fintype ι] {c : Config} (s : State β ι) : Event c β ι → Bool
  | .daemon a => ShadowRuns.tidy (locked s) s.daemon a
  | .client _ _ => true

section
variable [DecidableEq ι] [Fintype ι] {c : Config} {s t : State β ι}

def Event.filled {c : Config} : Event c β ι → Bool
  | .daemon a => Action.filled a
  | .client _ _ => false

def Event.leaves {c : Config} (i : ι) : Event c β ι → Bool
  | .client j .acctswoff | .client j .undo => j = i
  | _ => false

theorem switchKept (d : Daemon β) (r : Reader β) : (switchshadow d r).start = r.start ∧ (switchshadow d r).began = r.began ∧
    (switchshadow d r).delivered = r.delivered ∧ (switchshadow d r).skipped = r.skipped := by
  unfold switchshadow
  dsimp only
  split
  · split <;> exact ⟨rfl,rfl,rfl,rfl⟩
  · exact ⟨rfl,rfl,rfl,rfl⟩

theorem nextStart {d : Daemon β} {r u : Reader β} {nrprocs : Nat} (went : r.next c d nrprocs = some u) : u.start = r.start := by
  unfold Reader.next at went
  split at went
  · obtain ⟨_,-,made⟩ := Option.bind_eq_some_iff.mp went
    cases Option.some.inj made
    rfl
  · split at went <;> cases Option.some.inj went <;> rfl
  · cases Option.some.inj went
    rfl
  · obtain ⟨_,-,made⟩ := Option.bind_eq_some_iff.mp went
    cases Option.some.inj made
    rfl
  · cases Option.some.inj went
    rfl
  · split at went
    · cases Option.some.inj went
      exact (switchKept d r).1
    · obtain ⟨_,-,made⟩ := Option.bind_eq_some_iff.mp went
      cases Option.some.inj made
      rfl
  · obtain ⟨_,-,made⟩ := Option.bind_eq_some_iff.mp went
    cases Option.some.inj made
    rfl
  · obtain ⟨_,-,made⟩ := Option.bind_eq_some_iff.mp went
    cases Option.some.inj made
    rfl
  · split at went <;> cases Option.some.inj went <;> rfl
  · cases Option.some.inj went
    rfl
  · cases Option.some.inj went
    exact (switchKept d r).1

def Since (n : Nat) : Client β → Prop
  | .counting r => r.began = n ∧ r.sample ≠ .idle
  | .sized r => r.began = n
  | .reading r => r.start = n
  | _ => False

theorem followSince {d t : Daemon β} {n : Nat} {k : Client β} (since : Since n k) : Since n (k.follow d t) := by
  have same : ∀ r : Reader β, (r.follow d t).began = r.began ∧ (r.follow d t).start = r.start ∧ (r.follow d t).sample = r.sample := by
    intro r
    unfold Reader.follow
    split <;> exact ⟨rfl,rfl,rfl⟩
  cases k with
  | counting r => simpa only [Client.follow,Since,same r] using since
  | sized r => simpa only [Client.follow,Since,same r] using since
  | reading r => simpa only [Client.follow,Since,same r] using since
  | _ => exact since

theorem accessSince {d : Daemon β} {n : Nat} {k l : Client β} (daemon : ShadowFiles.Valid c d) (valid : k.Valid c d)
    (since : Since n k) {a : Access} (on : a ≠ .acctswoff ∧ a ≠ .undo) (went : k.access c d a = some l) : Since n l := by
  unfold Client.access at went
  split at went <;> try contradiction
  · unfold acctswon at went
    split at went <;> try contradiction
    · rename_i r
      split at went
      · cases Option.some.inj went
        exact since.1
      · rename_i uncounted
        obtain ⟨u,moved,rfl⟩ := Option.map_eq_some_iff.mp went
        have counting := valid.2
        unfold Counting at counting
        split at counting
        · rename_i idle
          exact absurd idle since.2
        · rename_i here
          simp only [Reader.next,here,valid.1.current,if_true] at moved
          cases Option.some.inj moved
          exact ⟨since.1,by simp⟩
        · rename_i here
          exact absurd here (uncounted _)
        · cases counting
    · rw [untested (valid.1.held daemon).1,Bool.and_false] at went
      cases Option.some.inj went
      exact since
  · obtain ⟨u,moved,rfl⟩ := Option.map_eq_some_iff.mp went
    exact (nextStart moved).trans since

theorem stepSince {i : ι} (served : Served c i s) {n : Nat} (since : Since n (s.clients i)) {e : Event c β ι} (stays : Event.leaves i e = false)
    (room : Event.filled e = false) (went : step c s e = some t) :
    Since n (t.clients i) ∧ ∃ more, t.daemon.taken = s.daemon.taken ++ more ∧
      t.daemon.passed ++ pending t.daemon = s.daemon.passed ++ pending s.daemon ++ more := by
  have quiet : ∀ {d : Daemon β}, d = s.daemon → ∃ more, d.taken = s.daemon.taken ++ more ∧
      d.passed ++ pending d = s.daemon.passed ++ pending s.daemon ++ more :=
    fun same => ⟨[],by rw [same,List.append_nil],by rw [same,List.append_nil]⟩
  rcases stepClient went i with ⟨a,rfl,moved,follows⟩ | ⟨j,a,rfl,-,same,still⟩ | ⟨a,rfl,same,moved⟩
  · have settled : s.daemon.restarting = false ∧ (s.clients i).present = true := by
      have client := served.client
      revert since client
      cases s.clients i with
      | counting r => exact fun _ client => ⟨client.1.settled,rfl⟩
      | sized r => exact fun _ client => ⟨client.1.settled,rfl⟩
      | reading r => exact fun _ client => ⟨client.settled,rfl⟩
      | _ => exact fun since => since.elim
    rw [presentClients settled.2] at moved
    rw [follows]
    exact ⟨followSince since,stepPassed settled.1 room moved⟩
  · rw [still]
    exact ⟨since,quiet same⟩
  · refine ⟨accessSince served.daemon served.client since ?_ moved,quiet same⟩
    constructor
    · rintro rfl
      simp [Event.leaves] at stays
    · rintro rfl
      simp [Event.leaves] at stays

def orderly (i : ι) (s : State β ι) (e : Event c β ι) : Bool := undisturbed i s e && timely i s e

theorem servedRun {i : ι} {events : List (Event c β ι)} (served : Served c i s)
    (calm : EachStep (step c) s (fun s e => orderly i s e = true) events)
    (ran : attempt (step c) s events = some t) : Served c i t := by
  have keeps : ∀ (s : State β ι) e t, orderly i s e = true → Served c i s → step c s e = some t → Served c i t := by
    intro s e t calm served went
    have both := Bool.and_eq_true_iff.mp calm
    exact stepServed served both.1 both.2 went
  exact alwaysOfSteps served keeps calm events [] t (List.append_nil _).symm ran

theorem sinceRun {i : ι} {n : Nat} {events : List (Event c β ι)} (served : Served c i s) (since : Since n (s.clients i))
    (calm : EachStep (step c) s (fun s e => orderly i s e = true) events) (stays : ∀ e ∈ events, Event.leaves i e = false)
    (room : ∀ e ∈ events, Event.filled e = false) (ran : attempt (step c) s events = some t) :
    Since n (t.clients i) ∧ ∃ more, t.daemon.taken = s.daemon.taken ++ more ∧
      t.daemon.passed ++ pending t.daemon = s.daemon.passed ++ pending s.daemon ++ more := by
  induction events generalizing s with
  | nil =>
    cases Option.some.inj ran
    exact ⟨since,[],(List.append_nil _).symm,(List.append_nil _).symm⟩
  | cons e rest ih =>
    obtain ⟨u,first,later⟩ := attemptCons ran
    obtain ⟨now,calm⟩ := eachCons.mp calm
    have both := Bool.and_eq_true_iff.mp now
    obtain ⟨still,one,taken,passed⟩ := stepSince served since (stays e List.mem_cons_self) (room e List.mem_cons_self) first
    obtain ⟨last,more,all,log⟩ := ih (stepServed served both.1 both.2 first) still (calm u first)
      (fun x mem => stays x (List.mem_cons_of_mem e mem))
      (fun x mem => room x (List.mem_cons_of_mem e mem)) later
    exact ⟨last,one ++ more,by rw [all,taken,List.append_assoc],by rw [log,passed,List.append_assoc _ one]⟩

end

def owed : Sample → Nat
  | .idle | .skip _ => 0
  | .full numrecs _ | .newest numrecs _ _ | .counted numrecs => numrecs.toNat
  | .record left rest _ | .status left rest | .read left rest _ => left + rest
  | .photographed rest => rest

def claimedTo (c : Config) (r : Reader β) : Nat := r.start + c.arecsize*(r.delivered.length + r.skipped + owed r.sample)

def Caught (c : Config) (d : Daemon β) (r : Reader β) : Prop :=
  match r.sample with
  | .full _ _ => r.began ≤ d.passed.length
  | .newest _ newseq _ => r.began ≤ d.passed.length ∧ r.began ≤ c.maxshadowsz*(newseq+1)
  | _ => r.began ≤ claimedTo c r

/- setcurrent empties the file current before it writes the new number; the count of a client that
looks in between ends at its own file. -/
def unreadable (d : Daemon β) (r : Reader β) : Bool :=
  match r.sample with
  | .full _ _ => d.current.isNone
  | _ => false

def readable [DecidableEq ι] {c : Config} (i : ι) (s : State β ι) (e : Event c β ι) : Bool := whenNext i (fun d r => !unreadable d r) s e

section
variable {c : Config} {d : Daemon β} {r u : Reader β}

theorem caughtGrown {t : Daemon β} {locked : Nat → Bool} (caught : Caught c d r) (grown : Grown locked d t) : Caught c t r := by
  unfold Caught at caught ⊢
  split at caught
  · exact caught.trans grown.length
  · exact ⟨caught.1.trans grown.length,caught.2⟩
  · exact caught

theorem idleCaught (daemon : ShadowFiles.Valid c d) (valid : r.Valid c d) (here : r.sample = .idle) {nrprocs : Nat}
    (went : r.next c d nrprocs = some u) : Caught c d u := by
  have position : r.position c = c.maxshadowsz*r.acctfd + r.offset := by simp only [Reader.position,here]
  have sample := valid.sample
  simp only [SampleValid,here] at sample
  obtain ⟨same,small,ahead⟩ := sample
  obtain ⟨inside,atMost,full,whole⟩ := fileSize daemon valid.held.2
  have file := valid.opened daemon
  revert inside atMost full whole file
  generalize segment c.maxshadowsz d.passed r.acctfd = statacc
  intro inside atMost full whole file
  obtain ⟨k,count,reach⟩ := numrecsEq (show r.offset ≤ statacc.length by omega) whole (valid.offsetWhole position)
  simp only [Reader.next,here,file,bind,Option.bind_some] at went
  cases Option.some.inj went
  split
  · rename_i room
    have notFull : statacc.length < c.maxshadowsz := by
      by_contra most
      exact absurd ((Nat.le_div_iff_mul_le c.recorded).mpr (Nat.not_lt.mp most)) (Nat.not_le.mpr room)
    have consumed := valid.consumed
    rw [← same] at count
    simp only [Caught,claimedTo,owed,count,Int.toNat_natCast,Nat.mul_add _ _ k]
    omega
  · exact le_rfl

theorem fullCaught (daemon : ShadowFiles.Valid c d) (valid : r.Valid c d) {numrecs : Int} {stSize : Nat} (here : r.sample = .full numrecs stSize)
    (caught : Caught c d r) (known : d.current ≠ none) {nrprocs : Nat} (went : r.next c d nrprocs = some u) : Caught c d u := by
  have sample := valid.sample
  have consumed := valid.consumed
  simp only [SampleValid,Caught,Reader.position,here] at sample caught consumed
  obtain ⟨k,rfl,ahead,reach⟩ := sample
  obtain ⟨extent,told⟩ := daemon.announcedExtent valid.settled
  obtain ⟨newseq,current⟩ := Option.ne_none_iff_exists'.mp known
  rw [← told newseq current] at extent
  simp only [Reader.next,here,current] at went
  cases Option.some.inj went
  split
  · -- its own file is the newest, and it counts on all of it
    rename_i own
    rw [own,valid.same,Nat.mul_add_one] at extent
    simp only [Caught,claimedTo,owed,Int.toNat_natCast,Nat.mul_add _ _ k]
    omega
  · exact ⟨caught,caught.trans extent⟩

theorem newestCaught (daemon : ShadowFiles.Valid c d) (valid : r.Valid c d) {numrecs : Int} {newseq stSize : Nat}
    (here : r.sample = .newest numrecs newseq stSize) (caught : Caught c d r) {nrprocs : Nat}
    (went : r.next c d nrprocs = some u) : Caught c d u := by
  have sample := valid.sample
  have consumed := valid.consumed
  simp only [SampleValid,Caught,Reader.position,here] at sample caught consumed
  obtain ⟨k,rfl,ahead,reach,later,newest⟩ := sample
  have held := daemon.held ((oldestLe d).trans (valid.held.1.trans later.le)) newest
  obtain ⟨inside,atMost,full,whole⟩ := fileSize daemon newest
  simp only [Reader.next,here,held] at went
  cases Option.some.inj went
  have next := Nat.mul_add_one c.maxshadowsz newseq
  obtain ⟨between,rfl⟩ : ∃ between, newseq = r.acctfd + 1 + between := ⟨newseq - r.acctfd - 1,by omega⟩
  obtain ⟨count,counted⟩ := countNewest valid.same between reach whole
  have split := Nat.mul_add c.arecsize (r.delivered.length + r.skipped)
  simp only [Caught,claimedTo,owed,count,Int.toNat_natCast,split]
  omega

theorem readClaimed (c : Config) (r : Reader β) (file : List β) {s : Sample} {n : Nat} (less : owed s + 1 = n) :
    claimedTo c {readRecord c file r with sample := s} = r.start + c.arecsize*(r.delivered.length + r.skipped + n) := by
  simp only [claimedTo,readRecord,List.length_append,List.length_singleton,← less]
  congr 2
  omega

theorem laterCaught (valid : r.Valid c d) (caught : Caught c d r) {nrprocs : Nat} (went : r.next c d nrprocs = some u)
    (idle : r.sample ≠ .idle) (full : ∀ numrecs stSize, r.sample ≠ .full numrecs stSize)
    (newest : ∀ numrecs newseq stSize, r.sample ≠ .newest numrecs newseq stSize) : Caught c d u := by
  have sample := valid.sample
  cases here : r.sample with
  | idle => exact absurd here idle
  | full numrecs stSize => exact absurd here (full numrecs stSize)
  | newest numrecs newseq stSize => exact absurd here (newest numrecs newseq stSize)
  | counted numrecs =>
    simp only [Reader.next,here] at went
    obtain ⟨statacc,-,made⟩ := Option.bind_eq_some_iff.mp went
    cases Option.some.inj made
    simp only [Caught,claimedTo,owed,here] at caught ⊢
    rwa [Nat.add_sub_of_le (Nat.min_le_right _ _)]
  | record left rest stSize =>
    cases left with
    | zero =>
      simp only [Reader.next,here] at went
      cases Option.some.inj went
      simpa only [Caught,claimedTo,owed,here,Nat.zero_add] using caught
    | succ left =>
      simp only [Reader.next,here] at went
      split at went
      · cases Option.some.inj went
        obtain ⟨start,began,delivered,skipped⟩ := switchKept d r
        simpa only [Caught,claimedTo,owed,here,start,began,delivered,skipped] using caught
      · obtain ⟨file,-,made⟩ := Option.bind_eq_some_iff.mp went
        cases Option.some.inj made
        simp only [Caught,claimedTo,owed,here] at caught
        exact caught.trans_eq (readClaimed c r file (by simp only [owed]; omega)).symm
  | status left rest =>
    simp only [Reader.next,here] at went
    obtain ⟨statacc,-,made⟩ := Option.bind_eq_some_iff.mp went
    cases Option.some.inj made
    simpa only [Caught,claimedTo,owed,here] using caught
  | read left rest stSize =>
    simp only [Reader.next,here] at went
    simp only [SampleValid,here] at sample
    obtain ⟨file,-,made⟩ := Option.bind_eq_some_iff.mp went
    cases Option.some.inj made
    simp only [Caught,claimedTo,owed,here] at caught
    exact caught.trans_eq (readClaimed c r file (by simp only [owed]; omega)).symm
  | photographed rest =>
    simp only [Reader.next,here] at went
    split at went
    · rename_i none
      cases Option.some.inj went
      simpa only [Caught,claimedTo,owed,here,none] using caught
    · cases Option.some.inj went
      simpa only [Caught,claimedTo,owed,here,Nat.add_zero,Nat.add_assoc] using caught
  | skip switches =>
    cases switches with
    | zero =>
      simp only [Reader.next,here] at went
      cases Option.some.inj went
      simpa only [Caught,claimedTo,owed,here] using caught
    | succ switches =>
      simp only [Reader.next,here] at went
      cases Option.some.inj went
      obtain ⟨start,began,delivered,skipped⟩ := switchKept d r
      simpa only [Caught,claimedTo,owed,here,start,began,delivered,skipped] using caught

theorem nextCaught (daemon : ShadowFiles.Valid c d) (valid : r.Valid c d) (caught : Caught c d r)
    (known : unreadable d r = false) {nrprocs : Nat}
    (went : r.next c d nrprocs = some u) : Caught c d u := by
  cases here : r.sample with
  | idle => exact idleCaught daemon valid here went
  | full numrecs stSize => exact fullCaught daemon valid here caught (Option.isSome_iff_ne_none.mp (by simpa [unreadable,here] using known)) went
  | newest => exact newestCaught daemon valid here caught went
  | _ => exact laterCaught valid caught went (by simp [here]) (by simp [here]) (by simp [here])

def Client.Caught (c : Config) (d : Daemon β) : Client β → Prop
  | .reading r => ShadowRuns.Caught c d r
  | _ => True

theorem accessCaught (daemon : ShadowFiles.Valid c d) {k l : Client β} (valid : k.Valid c d) (caught : Client.Caught c d k) {a : Access}
    (known : ∀ r nrprocs, k = .reading r → a = .next nrprocs → unreadable d r = false) (went : k.access c d a = some l) :
    Client.Caught c d l := by
  unfold Client.access at went
  split at went <;> try contradiction
  · unfold acctswon at went
    split at went <;> try contradiction
    · cases Option.some.inj went
      trivial
    · cases Option.some.inj went
      split <;> trivial
    · cases Option.some.inj went
      split <;> trivial
    · obtain ⟨file,-,rfl⟩ := Option.map_eq_some_iff.mp went
      dsimp only
      split <;> trivial
    · split at went
      · cases Option.some.inj went
        trivial
      · obtain ⟨u,-,rfl⟩ := Option.map_eq_some_iff.mp went
        trivial
    · cases Option.some.inj went
      split
      · trivial
      · simp only [Client.Caught,Caught,valid.2.idle]
        exact Nat.le_add_right _ _
  · cases Option.some.inj went
    trivial
  · obtain ⟨u,moved,rfl⟩ := Option.map_eq_some_iff.mp went
    exact nextCaught daemon valid caught (known _ _ rfl rfl) moved
  · cases Option.some.inj went
    trivial
  · split at went <;> try contradiction
    cases Option.some.inj went
    trivial
  · cases Option.some.inj went
    trivial

end

section
variable [DecidableEq ι] [Fintype ι] {c : Config} {s t : State β ι}

theorem stepCaught {i : ι} (served : Served c i s) {e : Event c β ι} (known : readable i s e = true)
    (caught : Client.Caught c s.daemon (s.clients i)) (went : step c s e = some t) : Client.Caught c t.daemon (t.clients i) := by
  rcases stepClient went i with ⟨a,rfl,moved,follows⟩ | ⟨j,a,rfl,-,same,still⟩ | ⟨a,rfl,same,moved⟩
  · rw [follows]
    cases here : s.clients i with
    | reading r =>
      rw [here] at caught
      have held : r.Valid c s.daemon := by
        have client := served.client
        rwa [here] at client
      rw [presentClients (i := i) (by rw [here]; rfl)] at moved
      simp only [Client.follow,Reader.follow]
      split <;> exact caughtGrown caught (stepGrown held.settled moved)
    | _ => trivial
  · rw [same,still]
    exact caught
  · rw [same]
    refine accessCaught served.daemon served.client caught (fun r nrprocs reading own => ?_) moved
    subst own
    simpa [readable,whenNext,reading] using known

omit [DecidableEq ι] [Fintype ι] in
/- acctrepos does come too early when it skips to the very end of the newest file and atopacctd has not
created the next one yet. The switch then keeps the old file, the client stands at its beginning
again, one file behind the records it has taken, and curshadowseq no longer names the file. -/
theorem skipTooEarly {i : ι} (served : Served c i s) {r : Reader β} (reading : s.clients i = .reading r)
    (early : r.early s.daemon = true) (nrprocs : Nat) (d : Daemon β) :
    (∃ rest, s.daemon.stage = .create rest) ∧ (s.daemon.shadows (r.acctfd + 1) = none →
      ∃ u v, r.next c s.daemon nrprocs = some u ∧ u.next c d nrprocs = some v ∧ v.sample = .idle ∧ v.acctfd = r.acctfd ∧ v.offset = 0 ∧
        v.curshadowseq = v.acctfd + 1 ∧ v.position c + c.maxshadowsz = v.start + c.arecsize*(v.delivered.length + v.skipped)) := by
  obtain ⟨k,skipping,late⟩ : ∃ k, r.sample = .skip (k+1) ∧ s.daemon.curshadow ≤ r.acctfd := by
    unfold Reader.early at early
    split at early
    · exact ⟨_,‹_›,by simpa using early⟩
    · cases early
  have held : r.Valid c s.daemon := by
    have client := served.client
    rwa [reading] at client
  have consumed := held.consumed
  have sample := held.sample
  have stage := served.daemon.stage
  have extent := served.daemon.extent
  have own : r.acctfd = s.daemon.curshadow := Nat.le_antisymm held.held.2 late
  have room := roomyPositive c
  simp only [SampleValid,Reader.position,skipping] at sample consumed
  have further : c.maxshadowsz*(r.acctfd + (k+1)) = c.maxshadowsz*(s.daemon.curshadow+1) + c.maxshadowsz*k := by
    rw [own]
    ring
  have single : k = 0 := by
    by_contra more
    have := Nat.le_mul_of_pos_right c.maxshadowsz (Nat.pos_of_ne_zero more)
    omega
  subst single
  have next := Nat.mul_add_one c.maxshadowsz s.daemon.curshadow
  have ended : s.daemon.passed.length = c.maxshadowsz*(s.daemon.curshadow+1) ∧ r.acctsize = 0 := by omega
  refine ⟨?_,fun absent => ?_⟩
  · cases here : s.daemon.stage with
    | create rest => exact ⟨rest,rfl⟩
    | test restarting | unlink restarting => cases restarting <;> simp only [StageValid,Filling,here] at stage <;> omega
    | _ =>
      simp only [StageValid,Filling,here] at stage
      omega
  · have switched : switchshadow s.daemon r = {r with curshadowseq := r.acctfd + 1} := by simp only [switchshadow,held.same,absent]
    let last : Reader β := {r with curshadowseq := r.acctfd + 1, offset := r.acctsize, sample := .idle}
    refine ⟨_,last,by simp only [Reader.next,skipping,switched]; rfl,by simp only [Reader.next]; rfl,rfl,rfl,ended.2,rfl,?_⟩
    simp only [last,Reader.position,ended.2]
    rw [← consumed,further,ended.2,own,next]
    rfl

/- one client at the end of the first file, all of whose records it skipped, before the second is there -/
def fileOne : List Nat := List.replicate standard.maxshadowsz 7
def skipping : Reader Nat := ⟨0,0,none,64,0,.skip 1,[],9999,64,standard.maxshadowsz⟩
def full : State Nat Unit :=
  ⟨⟨[],0,0,standard.maxshadowsz,0,0,true,.create [],fun n => if n = 0 then some fileOne else none,some 0,fileOne,fileOne⟩,
    fun _ => .reading skipping⟩

theorem fullServed : Served standard () full := by
  have length : fileOne.length = 640000 := List.length_replicate
  have size : standard.maxshadowsz = 640000 := rfl
  refine ⟨⟨⟨le_rfl,Nat.dvd_zero _,Nat.dvd_zero _⟩,fun _ => le_rfl,fun n least => ?_,?_,?_⟩,?_⟩
  · have zero : n = 0 := Nat.le_zero.mp least
    subst zero
    have kept : segment standard.maxshadowsz fileOne 0 = fileOne := List.take_of_length_le (by simp [length,size])
    simp only [full,if_true,le_refl,kept]
  · simp only [full,length]
    decide
  · simp only [StageValid,full,length]
    exact ⟨by decide,trivial,Nat.dvd_zero _,by decide⟩
  · refine ⟨rfl,⟨le_rfl,le_rfl⟩,rfl,rfl,by decide,by decide,List.nil_sublist _,Nat.zero_le _,?_⟩
    simp only [full,length]
    decide

theorem skipTooEarlyFull : ∃ u v, skipping.next standard full.daemon 0 = some u ∧ u.next standard full.daemon 0 = some v ∧ v.sample = .idle ∧
    v.acctfd = 0 ∧ v.offset = 0 ∧ v.curshadowseq = v.acctfd + 1 ∧ v.position standard + 640000 = v.start + 64*(v.delivered.length + v.skipped) :=
  (skipTooEarly fullServed (r := skipping) rfl rfl 0 full.daemon).2 rfl

end

end PracticeSuite.ShadowRuns
