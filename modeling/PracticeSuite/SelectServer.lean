import Mathlib
import PracticeSuite.Trace

/-! The select loop of the test server. The clients decide which descriptors are
ready at a call of select and what recv returns on them; the set passed to select
is the previous result with the listening socket and the connections added, and
its bound comes from find_max_fd, which does not look at the connections. -/
namespace PracticeSuite.SelectServer
open Trace (Halts haltsMoves haltsFixed)

def lowestUnused (used : Finset Nat) : Nat := Nat.find (Infinite.exists_notMem_finset used)

theorem lowestEq {used : Finset Nat} {fd : Nat} (free : fd ∉ used) (below : ∀ n < fd, n ∈ used) :
    lowestUnused used = fd :=
  (Nat.find_eq_iff _).mpr ⟨free,fun n less => not_not.mpr (below n less)⟩

theorem lowestFree (used : Finset Nat) : lowestUnused used ∉ used :=
  Nat.find_spec (Infinite.exists_notMem_finset used)

theorem belowLowest {used : Finset Nat} {n : Nat} (less : n < lowestUnused used) : n ∈ used :=
  not_not.mp (Nat.find_min (Infinite.exists_notMem_finset used) less)

/- `used` holds the open descriptors of the process. The server closes none. -/
structure State where
  connectfd : List Nat
  rfds : Finset Nat
  used : Finset Nat

def findMaxFd (a : Nat) (_ : List Nat) : Nat := a + 1

/- What the clients bring about in one iteration. On an error select leaves the
set alone. -/
inductive Answer where
  | failed
  | returned (ready : Finset Nat) (recv : Nat → Int)

def watched (listenfd : Nat) (s : State) : Finset Nat :=
  s.connectfd.foldl (fun rfds fd => insert fd rfds) (insert listenfd s.rfds)

def nfds (listenfd : Nat) (s : State) : Nat := findMaxFd listenfd s.connectfd + 1

def select (listenfd : Nat) (s : State) (ready : Finset Nat) : Finset Nat :=
  (watched listenfd s).filter (fun fd => fd < nfds listenfd s ∧ fd ∈ ready)

/- The inner while loop. `done` are the entries before the index; a descriptor that
is not set changes neither the index nor the vector, and the loop never ends. What is read is also
sent back, which is left out: no select call follows a send that kills the server. -/
def serveLoop (rfds : Finset Nat) (recv : Nat → Int) (done : List Nat) : List Nat → Option (List Nat)
  | [] => some done
  | fd::rest =>
    if fd ∈ rfds then
      if recv fd = 0 then serveLoop rfds recv done rest else serveLoop rfds recv (done ++ [fd]) rest
    else none

def iterate (listenfd : Nat) (s : State) : Answer → Option State
  | .failed => some {s with rfds := watched listenfd s}
  | .returned ready recv =>
    let rfds := select listenfd s ready
    if rfds = ∅ then some {s with rfds := rfds}
    else if listenfd ∈ rfds then
      let connfd := lowestUnused s.used
      some ⟨s.connectfd ++ [connfd],rfds,insert connfd s.used⟩
    else (serveLoop rfds recv [] s.connectfd).map (fun connectfd => {s with connectfd := connectfd, rfds := rfds})

def serveStep (rfds : Finset Nat) (recv : Nat → Int) (v : Nat × List Nat) : Option (Nat × List Nat) :=
  match v.2[v.1]? with
  | none => none
  | some fd =>
    if fd ∈ rfds then
      if recv fd = 0 then some (v.1,v.2.eraseIdx v.1) else some (v.1+1,v.2)
    else some v

theorem serveStepAt (rfds : Finset Nat) (recv : Nat → Int) (done : List Nat) (fd : Nat) (rest : List Nat) :
    serveStep rfds recv (done.length,done ++ fd :: rest) =
      if fd ∈ rfds then
        if recv fd = 0 then some (done.length,done ++ rest) else some ((done ++ [fd]).length,(done ++ [fd]) ++ rest)
      else some (done.length,done ++ fd :: rest) := by
  simp [serveStep,List.eraseIdx_append_of_length_le]

theorem serveHalts (rfds : Finset Nat) (recv : Nat → Int) (done todo : List Nat) (last : Nat × List Nat) :
    Halts (serveStep rfds recv) (done.length,done ++ todo) last ↔
      serveLoop rfds recv done todo = some last.2 ∧ last.1 = last.2.length := by
  induction todo generalizing done with
  | nil =>
    have stop : serveStep rfds recv (done.length,done ++ []) = none := by simp [serveStep]
    refine ⟨fun halts => ?_,fun result => ?_⟩
    · cases Trace.haltsUnique halts (.here stop)
      simp [serveLoop]
    · obtain ⟨same,index⟩ := result
      have last_ : last = (done.length,done ++ []) := by
        refine Prod.ext ?_ ?_
        · rw [index,← Option.some.inj same]
        · rw [← Option.some.inj same,List.append_nil]
      rw [last_]
      exact .here stop
  | cons fd rest ih =>
    have moves := serveStepAt rfds recv done fd rest
    simp only [serveLoop]
    split
    · rename_i set
      rw [if_pos set] at moves
      split
      · rename_i zero
        rw [if_pos zero] at moves
        exact ⟨fun halts => (ih done).mp (haltsMoves moves halts),fun result => .later moves ((ih done).mpr result)⟩
      · rename_i some_
        rw [if_neg some_] at moves
        exact ⟨fun halts => (ih (done ++ [fd])).mp (haltsMoves moves halts),
          fun result => .later moves ((ih (done ++ [fd])).mpr result)⟩
    · rename_i unset
      rw [if_neg unset] at moves
      exact ⟨fun halts => absurd halts (haltsFixed moves),fun result => by simp at result⟩

def Exact (listenfd : Nat) (s : State) : Prop :=
  (∀ fd ∈ s.connectfd, fd ∈ watched listenfd s ∧ fd < nfds listenfd s) ∧
  ∀ fd ∈ watched listenfd s, fd = listenfd ∨ fd ∈ s.connectfd

/- Whether the iteration keeps it so: an accept gets the descriptor right after the
listening one, and no connection is found closed. -/
def Harmless (listenfd : Nat) (s : State) : Answer → Prop
  | .failed => True
  | .returned ready recv =>
    (listenfd ∈ select listenfd s ready → listenfd+1 ∉ s.used) ∧
    (listenfd ∉ select listenfd s ready → ∀ fd ∈ s.connectfd, fd ∈ select listenfd s ready → recv fd ≠ 0)

theorem memWatched {listenfd fd : Nat} {s : State} :
    fd ∈ watched listenfd s ↔ fd ∈ s.connectfd ∨ fd = listenfd ∨ fd ∈ s.rfds := by
  have added : ∀ (xs : List Nat) (rfds : Finset Nat),
      fd ∈ xs.foldl (fun rfds fd => insert fd rfds) rfds ↔ fd ∈ xs ∨ fd ∈ rfds := by
    intro xs
    induction xs with
    | nil => simp
    | cons x rest ih =>
      intro rfds
      rw [List.foldl_cons,ih,Finset.mem_insert,List.mem_cons]
      tauto
  rw [watched,added,Finset.mem_insert]

structure Clean (listenfd : Nat) (s : State) : Prop where
  below : ∀ n ≤ listenfd, n ∈ s.used
  connections : s.connectfd = [] ∨ s.connectfd = [listenfd+1] ∧ listenfd+1 ∈ s.used
  set : ∀ fd ∈ s.rfds, fd = listenfd ∨ fd ∈ s.connectfd

theorem cleanWatched {listenfd s} (clean : Clean listenfd s) :
    ∀ fd ∈ watched listenfd s, fd = listenfd ∨ fd ∈ s.connectfd := by
  intro fd mem
  rcases memWatched.mp mem with connected | here | old
  · exact Or.inr connected
  · exact Or.inl here
  · exact clean.set fd old

theorem cleanExact {listenfd s} (clean : Clean listenfd s) : Exact listenfd s := by
  refine ⟨fun fd mem => ⟨memWatched.mpr (Or.inl mem),?_⟩,cleanWatched clean⟩
  rcases clean.connections with none_ | ⟨one,_⟩
  · simp [none_] at mem
  · rw [one,List.mem_singleton] at mem
    simp only [nfds,findMaxFd]
    omega

theorem selectWatched {listenfd fd : Nat} {s : State} {ready} (mem : fd ∈ select listenfd s ready) :
    fd ∈ watched listenfd s := (Finset.mem_filter.mp mem).1

theorem cleanServes {listenfd s ready} (clean : Clean listenfd s) (ready_ : select listenfd s ready ≠ ∅)
    (quiet : listenfd ∉ select listenfd s ready) :
    s.connectfd = [listenfd+1] ∧ listenfd+1 ∈ select listenfd s ready := by
  obtain ⟨fd,mem⟩ := Finset.nonempty_iff_ne_empty.mpr ready_
  have other : fd ≠ listenfd := fun same => quiet (same ▸ mem)
  have connected := (cleanWatched clean fd (selectWatched mem)).resolve_left other
  rcases clean.connections with none_ | ⟨one,_⟩
  · simp [none_] at connected
  · rw [one,List.mem_singleton] at connected
    exact ⟨one,connected ▸ mem⟩

theorem cleanStep {listenfd} {s t : State} {a : Answer} (clean : Clean listenfd s)
    (harmless : Harmless listenfd s a) (went : iterate listenfd s a = some t) : Clean listenfd t := by
  cases a with
  | failed =>
    cases Option.some.inj went
    exact ⟨clean.below,clean.connections,cleanWatched clean⟩
  | returned ready recv =>
    have kept : ∀ fd ∈ select listenfd s ready, fd = listenfd ∨ fd ∈ s.connectfd :=
      fun fd mem => cleanWatched clean fd (selectWatched mem)
    simp only [iterate] at went
    split at went
    · cases Option.some.inj went
      exact ⟨clean.below,clean.connections,kept⟩
    · rename_i ready_
      split at went
      · rename_i listens
        cases Option.some.inj went
        have free := harmless.1 listens
        have next : lowestUnused s.used = listenfd+1 :=
          lowestEq free (fun n less => clean.below n (by omega))
        have empty : s.connectfd = [] := clean.connections.resolve_right (fun one => free one.2)
        refine ⟨fun n le => Finset.mem_insert_of_mem (clean.below n le),Or.inr ?_,fun fd mem => ?_⟩
        · simp [next,empty]
        · have only := (kept fd mem).resolve_right (by simp [empty])
          exact Or.inl only
      · rename_i quiet
        obtain ⟨one,set⟩ := cleanServes clean ready_ quiet
        have alive := harmless.2 quiet (listenfd+1) (by simp [one]) set
        simp only [one,serveLoop,if_pos set,if_neg alive,Option.map_some] at went
        cases Option.some.inj went
        exact ⟨clean.below,Or.inr ⟨rfl,(clean.connections.resolve_left (by simp [one])).2⟩,by rw [one] at kept; exact kept⟩

theorem harmBreaks {listenfd} {s : State} {a : Answer} (clean : Clean listenfd s)
    (harmful : ¬ Harmless listenfd s a) : ∃ t, iterate listenfd s a = some t ∧ ¬ Exact listenfd t := by
  cases a with
  | failed => exact absurd trivial harmful
  | returned ready recv =>
    by_cases listens : listenfd ∈ select listenfd s ready
    · have taken : listenfd+1 ∈ s.used := by
        by_contra free
        exact harmful ⟨fun _ => free,fun quiet => absurd listens quiet⟩
      have high : listenfd+1 < lowestUnused s.used := by
        by_contra low
        apply lowestFree s.used
        rcases Nat.lt_or_eq_of_le (Nat.not_lt.mp low) with less | same
        · exact clean.below _ (by omega)
        · rw [same]
          exact taken
      have ready_ : select listenfd s ready ≠ ∅ := Finset.ne_empty_of_mem listens
      refine ⟨⟨s.connectfd ++ [lowestUnused s.used],select listenfd s ready,insert (lowestUnused s.used) s.used⟩,?_,
        fun exact_ => ?_⟩
      · simp only [iterate,if_neg ready_,if_pos listens]
      have bound := (exact_.1 (lowestUnused s.used) (by simp)).2
      simp only [nfds,findMaxFd] at bound
      omega
    · have closing : ∃ fd ∈ s.connectfd, fd ∈ select listenfd s ready ∧ recv fd = 0 := by
        by_contra none_
        refine harmful ⟨fun here => absurd here listens,fun _ fd mem set zero => none_ ⟨fd,mem,set,zero⟩⟩
      obtain ⟨fd,mem,set,zero⟩ := closing
      have ready_ : select listenfd s ready ≠ ∅ := Finset.ne_empty_of_mem set
      obtain ⟨one,inside⟩ := cleanServes clean ready_ listens
      rw [one,List.mem_singleton] at mem
      subst mem
      refine ⟨⟨[],select listenfd s ready,s.used⟩,?_,fun exact_ => ?_⟩
      · simp only [iterate,if_neg ready_,if_neg listens,one,serveLoop,if_pos inside,if_pos zero,Option.map_some]
      · have stale := exact_.2 (listenfd+1) (memWatched.mpr (Or.inr (Or.inr inside)))
        simp at stale

theorem exactIff {listenfd} {s : State} (clean : Clean listenfd s) (answers : List Answer) :
    Trace.Always (iterate listenfd) s (Exact listenfd) answers ↔
      Trace.EachStep (iterate listenfd) s (Harmless listenfd) answers := by
  induction answers generalizing s with
  | nil => exact ⟨fun _ => Trace.eachNil _ _ _,fun _ => Trace.alwaysNil.mpr (cleanExact clean)⟩
  | cons a rest ih =>
    rw [Trace.alwaysCons,Trace.eachCons]
    refine ⟨fun always => ?_,fun each => ⟨cleanExact clean,fun t went => ?_⟩⟩
    · have harmless : Harmless listenfd s a := by
        by_contra harmful
        obtain ⟨t,went,broken⟩ := harmBreaks clean harmful
        exact broken (always.2 t went [] rest t rfl rfl)
      exact ⟨harmless,fun t went => (ih (cleanStep clean harmless went)).mp (always.2 t went)⟩
    · exact (ih (cleanStep clean each.1 went)).mpr (each.2 t went)

/- The server as it enters the loop, in a process that started with the descriptors
`inherited`. -/
def listening (inherited : Finset Nat) : Nat := lowestUnused inherited

def initial (inherited : Finset Nat) : State := ⟨[],∅,insert (listening inherited) inherited⟩

theorem initialClean (inherited : Finset Nat) : Clean (listening inherited) (initial inherited) := by
  refine ⟨fun n le => ?_,Or.inl rfl,fun fd mem => by simp [initial] at mem⟩
  rcases Nat.lt_or_eq_of_le le with less | same
  · exact Finset.mem_insert_of_mem (belowLowest less)
  · rw [same]
    exact Finset.mem_insert_self _ _

theorem watchesExactly (inherited : Finset Nat) (answers : List Answer) :
    Trace.Always (iterate (listening inherited)) (initial inherited) (Exact (listening inherited)) answers ↔
      Trace.EachStep (iterate (listening inherited)) (initial inherited) (Harmless (listening inherited)) answers :=
  exactIff (initialClean inherited) answers

theorem secondConnectionUnwatched :
    ¬ Trace.Always (iterate (listening {0,1,2})) (initial {0,1,2}) (Exact (listening {0,1,2}))
      [.returned {3} (fun _ => 1),.returned {3} (fun _ => 1)] := by
  have listens : listening {0,1,2} = 3 := lowestEq (by decide) (by decide)
  have first : lowestUnused {3,0,1,2} = 4 := lowestEq (by decide) (by decide)
  have second : lowestUnused {4,3,0,1,2} = 5 := lowestEq (by decide) (by decide)
  rw [initial,listens]
  intro always
  have ready : select 3 ⟨[],∅,{3,0,1,2}⟩ {3} = {3} := by decide
  have accept : iterate 3 ⟨[],∅,{3,0,1,2}⟩ (.returned {3} (fun _ => 1)) = some ⟨[4],{3},{4,3,0,1,2}⟩ := by
    simp only [iterate,ready,first]
    rfl
  have again : select 3 ⟨[4],{3},{4,3,0,1,2}⟩ {3} = {3} := by decide
  have accept' : iterate 3 ⟨[4],{3},{4,3,0,1,2}⟩ (.returned {3} (fun _ => 1)) =
      some ⟨[4,5],{3},{5,4,3,0,1,2}⟩ := by
    simp only [iterate,again,second]
    rfl
  have exact_ := ((Trace.alwaysCons.mp ((Trace.alwaysCons.mp always).2 _ accept)).2 _ accept') [] [] _ rfl rfl
  have bound := (exact_.1 5 (by decide)).2
  simp [nfds,findMaxFd] at bound

/- How a call of send ends. Behind a reset connection it raises SIGPIPE, and it waits for a client that does not read. -/
inductive Sent where
  | returns
  | blocks
  | kills
  deriving DecidableEq, Repr

inductive Status where
  | running
  | blocked
  | killed
  deriving DecidableEq, Repr

structure Serving where
  i : Nat
  connectfd : List Nat
  received : List Nat
  status : Status
  deriving DecidableEq, Repr

/- serveStep with the descriptors that recv was called on and with the send that follows, which is made
after -1 too and then given the largest size there is. -/
def dispatchStep (rfds : Finset Nat) (recv : Nat → Int) (send : Nat → Sent) (s : Serving) : Option Serving :=
  match s.status with
  | .killed => none
  | .blocked => some s
  | .running =>
    match s.connectfd[s.i]? with
    | none => none
    | some fd =>
      if fd ∈ rfds then
        if recv fd = 0 then some ⟨s.i,s.connectfd.eraseIdx s.i,s.received ++ [fd],.running⟩
        else match send fd with
          | .returns => some ⟨s.i+1,s.connectfd,s.received ++ [fd],.running⟩
          | .blocks => some ⟨s.i,s.connectfd,s.received ++ [fd],.blocked⟩
          | .kills => some ⟨s.i,s.connectfd,s.received ++ [fd],.killed⟩
      else some s

theorem dispatchServes (rfds : Finset Nat) (recv : Nat → Int) {send : Nat → Sent} (returns : ∀ fd, send fd = .returns) {s : Serving}
    (running : s.status = .running) :
    (dispatchStep rfds recv send s).map (fun s => (s.i,s.connectfd)) = serveStep rfds recv (s.i,s.connectfd) := by
  simp only [dispatchStep,serveStep,running,returns]
  split
  · rfl
  · repeat' split
    all_goals rfl

section
variable {rfds : Finset Nat} {recv : Nat → Int} {send : Nat → Sent}

theorem dispatchStepAt (done : List Nat) (fd : Nat) (rest received : List Nat) :
    dispatchStep rfds recv send ⟨done.length,done ++ fd :: rest,received,.running⟩ =
      if fd ∈ rfds then
        if recv fd = 0 then some ⟨done.length,done ++ rest,received ++ [fd],.running⟩
        else match send fd with
          | .returns => some ⟨(done ++ [fd]).length,(done ++ [fd]) ++ rest,received ++ [fd],.running⟩
          | .blocks => some ⟨done.length,done ++ fd :: rest,received ++ [fd],.blocked⟩
          | .kills => some ⟨done.length,done ++ fd :: rest,received ++ [fd],.killed⟩
      else some ⟨done.length,done ++ fd :: rest,received,.running⟩ := by
  simp [dispatchStep,List.eraseIdx_append_of_length_le]

def Answered (recv : Nat → Int) (send : Nat → Sent) (fd : Nat) : Prop := recv fd ≠ 0 → send fd = .returns
instance (recv send fd) : Decidable (Answered recv send fd) := by unfold Answered; infer_instance

theorem dispatchHalts {todo : List Nat} (all : ∀ fd ∈ todo, fd ∈ rfds ∧ Answered recv send fd) (done received : List Nat) :
    ∃ last, Halts (dispatchStep rfds recv send) ⟨done.length,done ++ todo,received,.running⟩ last ∧
      last.status = .running ∧ last.connectfd = done ++ todo.filter (recv · ≠ 0) ∧ last.received = received ++ todo := by
  induction todo generalizing done received with
  | nil => exact ⟨_,.here (by simp [dispatchStep]),rfl,by simp,by simp⟩
  | cons fd rest ih =>
    have moves := @dispatchStepAt rfds recv send done fd rest received
    have later := fun fd mem => all fd (List.mem_cons_of_mem _ mem)
    obtain ⟨set,answered⟩ := all fd List.mem_cons_self
    rw [if_pos set] at moves
    by_cases zero : recv fd = 0
    · rw [if_pos zero] at moves
      obtain ⟨last,halts,running,kept,calls⟩ := ih later done (received ++ [fd])
      exact ⟨last,.later moves halts,running,by simp [kept,zero],by simp [calls]⟩
    · rw [if_neg zero,answered zero] at moves
      obtain ⟨last,halts,running,kept,calls⟩ := ih later (done ++ [fd]) (received ++ [fd])
      exact ⟨last,.later moves halts,running,by simp [kept,zero],by simp [calls]⟩

theorem dispatchStuck {s last : Serving} (blocked : s.status = .blocked) : ¬ Halts (dispatchStep rfds recv send) s last :=
  haltsFixed (by simp only [dispatchStep,blocked])

theorem dispatchKilled {s last : Serving} (killed : s.status = .killed) (halts : Halts (dispatchStep rfds recv send) s last) : last = s :=
  Trace.haltsUnique halts (.here (by simp only [dispatchStep,killed]))

theorem dispatchEnded {todo done received : List Nat} {last : Serving}
    (halts : Halts (dispatchStep rfds recv send) ⟨done.length,done ++ todo,received,.running⟩ last) (running : last.status = .running) :
    ∀ fd ∈ todo, fd ∈ rfds ∧ Answered recv send fd := by
  induction todo generalizing done received with
  | nil => exact fun fd mem => absurd mem List.not_mem_nil
  | cons fd rest ih =>
    have moves := @dispatchStepAt rfds recv send done fd rest received
    split at moves
    · rename_i set
      have first : Answered recv send fd ∧ ∀ fd ∈ rest, fd ∈ rfds ∧ Answered recv send fd := by
        split at moves
        · rename_i zero
          exact ⟨fun other => absurd zero other,ih (haltsMoves moves halts)⟩
        · split at moves
          · rename_i returns
            exact ⟨fun _ => returns,ih (haltsMoves moves halts)⟩
          · exact absurd (haltsMoves moves halts) (dispatchStuck rfl)
          · rw [dispatchKilled rfl (haltsMoves moves halts)] at running
            cases running
      rw [List.forall_mem_cons]
      exact ⟨⟨set,first.1⟩,first.2⟩
    · exact absurd halts (haltsFixed moves)

end

def DispatchesOnce (rfds : Finset Nat) (recv : Nat → Int) (send : Nat → Sent) (connectfd : List Nat) : Prop :=
  ∃ last, Halts (dispatchStep rfds recv send) ⟨0,connectfd,[],.running⟩ last ∧ last.status = .running ∧
    (∀ fd, last.received.count fd = if fd ∈ connectfd ∧ fd ∈ rfds then 1 else 0) ∧
    last.connectfd = connectfd.filter (fun fd => ¬ (fd ∈ rfds ∧ recv fd = 0))

theorem dispatchesExactly (rfds : Finset Nat) (recv : Nat → Int) (send : Nat → Sent) (connectfd : List Nat) (distinct : connectfd.Nodup) :
    DispatchesOnce rfds recv send connectfd ↔
      (∀ fd ∈ connectfd, fd ∈ rfds) ∧ ∀ fd ∈ connectfd, recv fd ≠ 0 → send fd = .returns := by
  constructor
  · rintro ⟨last,halts,running,-⟩
    have ended : ∀ fd ∈ connectfd, fd ∈ rfds ∧ Answered recv send fd := @dispatchEnded rfds recv send connectfd [] [] last halts running
    exact ⟨fun fd mem => (ended fd mem).1,fun fd mem => (ended fd mem).2⟩
  · rintro ⟨all,answered⟩
    obtain ⟨last,halts,running,kept,calls⟩ : ∃ last, Halts (dispatchStep rfds recv send) ⟨0,connectfd,[],.running⟩ last ∧
        last.status = .running ∧ last.connectfd = [] ++ connectfd.filter (recv · ≠ 0) ∧ last.received = [] ++ connectfd :=
      dispatchHalts (fun fd mem => ⟨all fd mem,answered fd mem⟩) [] []
    refine ⟨last,halts,running,fun fd => ?_,?_⟩
    · rw [calls,List.nil_append]
      by_cases mem : fd ∈ connectfd
      · rw [if_pos ⟨mem,all fd mem⟩,List.count_eq_one_of_mem distinct mem]
      · rw [if_neg (fun both => mem both.1),List.count_eq_zero_of_not_mem mem]
    · rw [kept,List.nil_append]
      exact List.filter_congr (fun fd mem => by simp [all fd mem])

theorem dispatchesBoth : DispatchesOnce {4,5} (fun fd => if fd = 4 then 0 else 3) (fun fd => if fd = 4 then .kills else .returns) [4,5] :=
  (dispatchesExactly {4,5} _ _ [4,5] (by decide)).mpr (by decide)

theorem idleConnectionSpins : [5,4].Nodup ∧ ¬ DispatchesOnce {4} (fun _ => 1) (fun _ => .returns) [5,4] ∧
    ¬ DispatchesOnce {4} (fun _ => -1) (fun _ => .kills) [4] := by
  refine ⟨by decide,?_,?_⟩
  · rintro ⟨last,halts,running,-⟩
    have ready := @dispatchEnded {4} _ _ [5,4] [] [] last halts running 5 List.mem_cons_self
    revert ready
    decide
  · rintro ⟨last,halts,running,-⟩
    have returned := (@dispatchEnded {4} _ _ [4] [] [] last halts running 4 List.mem_cons_self).2 (by decide)
    cases returned

end PracticeSuite.SelectServer
