import Mathlib.Data.List.Induction

/-! Finite runs of a deterministic machine and the histories they leave.
A latch is an observation that some events set and others clear; after a run it
is read off the history alone, as a setting event that no clearing event follows. -/
namespace PracticeSuite.Trace

variable {σ ε : Type}

def run (step : σ → ε → σ) (s : σ) (events : List ε) : σ := events.foldl step s

theorem runSnoc (step : σ → ε → σ) (s : σ) (events : List ε) (e : ε) :
    run step s (events ++ [e]) = step (run step s events) e := by
  simp only [run,List.foldl_append,List.foldl_cons,List.foldl_nil]

theorem runInvariant {step : σ → ε → σ} {property : σ → Prop} {s}
    (preserves : ∀ s e, property s → property (step s e)) (start : property s)
    (events : List ε) : property (run step s events) := by
  induction events generalizing s with
  | nil => exact start
  | cons e rest ih => exact ih (preserves s e start)

theorem runAlike {step : σ → ε → σ} {alike : ε → ε → Prop} (each : ∀ s e d, alike e d → step s e = step s d)
    {events others : List ε} (paired : List.Forall₂ alike events others) (s : σ) :
    run step s events = run step s others := by
  induction paired generalizing s with
  | nil => rfl
  | cons same _ ih =>
    simp only [run,List.foldl_cons] at ih ⊢
    rw [each s _ _ same]
    exact ih _

/- Arming may look at the state in which the event is met; disarming may not,
so that a history of events is enough to tell whether the latch is still set. -/
def Armed (step : σ → ε → σ) (s : σ) (arm : σ → ε → Prop) (disarm : ε → Prop)
    (events : List ε) : Prop :=
  ∃ before e after, events = before ++ e :: after ∧ arm (run step s before) e ∧
    ∀ x ∈ after, ¬ disarm x

theorem armedNil (step : σ → ε → σ) (s arm disarm) : ¬ Armed step s arm disarm [] := by
  intro armed
  obtain ⟨before,e,after,split,_⟩ := armed
  simp at split

theorem armedSnoc (step : σ → ε → σ) (s arm disarm) (events : List ε) (e : ε) :
    Armed step s arm disarm (events ++ [e]) ↔
      arm (run step s events) e ∨ (Armed step s arm disarm events ∧ ¬ disarm e) := by
  constructor
  · intro h
    obtain ⟨before,x,after,split,armed,quiet⟩ := h
    rcases List.eq_nil_or_concat after with rfl | ⟨rest,last,rfl⟩
    · obtain ⟨rfl,same⟩ := List.append_inj' split rfl
      cases same
      exact Or.inl armed
    · have split' : events ++ [e] = (before ++ x :: rest) ++ [last] := by simpa using split
      obtain ⟨rfl,same⟩ := List.append_inj' split' rfl
      cases same
      exact Or.inr ⟨⟨before,x,rest,rfl,armed,fun y mem => quiet y (by simp [mem])⟩,quiet e (by simp)⟩
  · intro h
    rcases h with armed | ⟨⟨before,x,after,rfl,armed,quiet⟩,still⟩
    · exact ⟨events,e,[],rfl,armed,by simp⟩
    · refine ⟨before,x,after ++ [e],by simp,armed,?_⟩
      intro y mem
      rcases List.mem_append.mp mem with old | new
      · exact quiet y old
      · rw [List.mem_singleton.mp new]
        exact still

theorem latchRun (observe : σ → Prop) {step : σ → ε → σ} {s} {invariant : σ → Prop}
    {arm : σ → ε → Prop} {disarm : ε → Prop}
    (preserves : ∀ s e, invariant s → invariant (step s e)) (start : invariant s)
    (dark : ¬ observe s)
    (locally : ∀ s e, invariant s → (observe (step s e) ↔ arm s e ∨ (observe s ∧ ¬ disarm e)))
    (events : List ε) : observe (run step s events) ↔ Armed step s arm disarm events := by
  induction events using List.reverseRecOn with
  | nil => exact ⟨fun seen => absurd seen dark,fun armed => absurd armed (armedNil step s arm disarm)⟩
  | append_singleton events e ih =>
    rw [runSnoc,armedSnoc,locally _ e (runInvariant preserves start events),ih]

inductive Halts (next : σ → Option σ) : σ → σ → Prop where
  | here {s} (stop : next s = none) : Halts next s s
  | later {s t u} (go : next s = some t) (rest : Halts next t u) : Halts next s u

theorem haltsUnique {next : σ → Option σ} {s t u} (first : Halts next s t) (second : Halts next s u) :
    t = u := by
  induction first with
  | here stop =>
    cases second with
    | here => rfl
    | later go => simp [stop] at go
  | later go rest ih =>
    cases second with
    | here stop => simp [stop] at go
    | later go' rest' =>
      have same := Option.some.inj (go.symm.trans go')
      subst same
      exact ih rest'

theorem haltsMoves {next : σ → Option σ} {s t u} (go : next s = some t) (halts : Halts next s u) :
    Halts next t u := by
  cases halts with
  | here stop => simp [stop] at go
  | later go' rest =>
    cases Option.some.inj (go.symm.trans go')
    exact rest

theorem haltsFixed {next : σ → Option σ} {s u} (fixed : next s = some s) : ¬ Halts next s u := by
  intro halts
  induction halts with
  | here stop => simp [stop] at fixed
  | later go rest ih =>
    cases Option.some.inj (fixed.symm.trans go)
    exact ih fixed

def attempt (step : σ → ε → Option σ) : σ → List ε → Option σ
  | s,[] => some s
  | s,e::rest => (step s e).bind (fun t => attempt step t rest)

theorem attemptCons {step : σ → ε → Option σ} {s e rest u} (ran : attempt step s (e::rest) = some u) :
    ∃ t, step s e = some t ∧ attempt step t rest = some u :=
  Option.bind_eq_some_iff.mp ran

theorem attemptInvariant {step : σ → ε → Option σ} {property : σ → Prop} {s t} {events : List ε}
    (preserves : ∀ s e t, property s → step s e = some t → property t) (start : property s)
    (ran : attempt step s events = some t) : property t := by
  induction events generalizing s with
  | nil => exact Option.some.inj ran ▸ start
  | cons e rest ih =>
    obtain ⟨u,first,later⟩ := attemptCons ran
    exact ih (preserves s e u start first) later

theorem attemptGuarded {step : σ → ε → Option σ} {next : σ → ε → σ} {allowed : ε → Prop} [DecidablePred allowed]
    (each : ∀ s e, step s e = if allowed e then some (next s e) else none) (s : σ) (events : List ε) :
    attempt step s events = if ∀ e ∈ events, allowed e then some (run next s events) else none := by
  induction events generalizing s with
  | nil => simp [attempt,run]
  | cons e rest ih =>
    rw [attempt,each]
    by_cases here : allowed e
    · rw [if_pos here,Option.bind_some,ih]
      simp only [List.forall_mem_cons,here,true_and]
      rfl
    · rw [if_neg here,if_neg (fun all => here (all e List.mem_cons_self))]
      rfl

/- What holds in every state a run goes through, and of every event with the state
in which it is met. -/
def Always (step : σ → ε → Option σ) (s : σ) (property : σ → Prop) (events : List ε) : Prop :=
  ∀ before after t, events = before ++ after → attempt step s before = some t → property t

def EachStep (step : σ → ε → Option σ) (s : σ) (property : σ → ε → Prop) (events : List ε) : Prop :=
  ∀ before e after t, events = before ++ e :: after → attempt step s before = some t → property t e

theorem alwaysNil {step : σ → ε → Option σ} {s} {property : σ → Prop} :
    Always step s property [] ↔ property s := by
  refine ⟨fun all => all [] [] s rfl rfl,fun here before after t split ran => ?_⟩
  obtain ⟨rfl,_⟩ := List.append_eq_nil_iff.mp split.symm
  cases Option.some.inj ran
  exact here

theorem alwaysCons {step : σ → ε → Option σ} {s e rest} {property : σ → Prop} :
    Always step s property (e::rest) ↔ property s ∧ ∀ t, step s e = some t → Always step t property rest := by
  refine ⟨fun all => ⟨all [] (e::rest) s rfl rfl,fun t first before after u split ran => ?_⟩,fun both => ?_⟩
  · refine all (e::before) after u (by rw [split]; rfl) ?_
    simp only [attempt,first,Option.bind_some,ran]
  · intro before after u split ran
    cases before with
    | nil =>
      cases Option.some.inj ran
      exact both.1
    | cons d before =>
      cases split
      obtain ⟨t,first,later⟩ := attemptCons ran
      exact both.2 t first before after u rfl later

theorem eachNil (step : σ → ε → Option σ) (s) (property : σ → ε → Prop) : EachStep step s property [] := by
  intro before e after t split
  simp at split

theorem eachCons {step : σ → ε → Option σ} {s e rest} {property : σ → ε → Prop} :
    EachStep step s property (e::rest) ↔
      property s e ∧ ∀ t, step s e = some t → EachStep step t property rest := by
  refine ⟨fun all => ⟨all [] e rest s rfl rfl,fun t first before d after u split ran => ?_⟩,fun both => ?_⟩
  · refine all (e::before) d after u (by rw [split]; rfl) ?_
    simp only [attempt,first,Option.bind_some,ran]
  · intro before d after u split ran
    cases before with
    | nil =>
      cases split
      cases Option.some.inj ran
      exact both.1
    | cons x before =>
      cases split
      obtain ⟨t,first,later⟩ := attemptCons ran
      exact both.2 t first before d after u rfl later

theorem eachPrefix {step : σ → ε → Option σ} {s} {property : σ → ε → Prop} {first second : List ε}
    (each : EachStep step s property (first ++ second)) : EachStep step s property first := by
  intro before e after t split ran
  exact each before e (after ++ second) t (by rw [split,List.append_assoc,List.cons_append]) ran

theorem eachSuffix {step : σ → ε → Option σ} {s t} {property : σ → ε → Prop} {first second : List ε}
    (each : EachStep step s property (first ++ second)) (ran : attempt step s first = some t) : EachStep step t property second := by
  induction first generalizing s with
  | nil => exact Option.some.inj ran ▸ each
  | cons e rest ih =>
    obtain ⟨u,went,later⟩ := attemptCons ran
    exact ih ((eachCons.mp each).2 u went) later

def eachTest (step : σ → ε → Option σ) (test : σ → ε → Bool) : σ → List ε → Bool
  | _,[] => true
  | s,e::rest => test s e && (step s e).all (fun t => eachTest step test t rest)

theorem eachTested {step : σ → ε → Option σ} {test : σ → ε → Bool} {s} {events : List ε} :
    eachTest step test s events = true ↔ EachStep step s (fun s e => test s e = true) events := by
  induction events generalizing s with
  | nil => exact iff_of_true rfl (eachNil _ _ _)
  | cons e rest ih => simp only [eachTest,Bool.and_eq_true,Option.all_eq_true,eachCons,ih]

theorem alwaysOfSteps {step : σ → ε → Option σ} {invariant : σ → Prop} {condition : σ → ε → Prop} {s}
    {events : List ε} (start : invariant s)
    (keeps : ∀ s e t, condition s e → invariant s → step s e = some t → invariant t)
    (each : EachStep step s condition events) : Always step s invariant events := by
  induction events generalizing s with
  | nil => exact alwaysNil.mpr start
  | cons e rest ih =>
    obtain ⟨here,later⟩ := eachCons.mp each
    exact alwaysCons.mpr ⟨start,fun t went => ih (keeps s e t here start went) (later t went)⟩

theorem stepsOfAlways {step : σ → ε → Option σ} {property : σ → Prop} {condition : σ → ε → Prop} {s t}
    {events : List ε} (shows : ∀ s e t, step s e = some t → property t → condition s e)
    (ran : attempt step s events = some t) (always : Always step s property events) : EachStep step s condition events := by
  induction events generalizing s with
  | nil => exact eachNil step s condition
  | cons e rest ih =>
    obtain ⟨u,first,later⟩ := attemptCons ran
    have behind := (alwaysCons.mp always).2 u first
    refine eachCons.mpr ⟨shows s e u first (behind [] rest u rfl rfl),fun v went => ?_⟩
    cases Option.some.inj (first.symm.trans went)
    exact ih later behind

end PracticeSuite.Trace
