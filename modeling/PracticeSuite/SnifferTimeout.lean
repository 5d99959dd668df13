import PracticeSuite.Trace
import PracticeSuite.SnifferQueue

/-! The body of check_timeout one iteration at a time: an index, the vector it
walks and the number of clock readings so far. The recursive form of the call is
where every execution of the loop ends. -/
namespace PracticeSuite.SnifferQueue
open Trace (Halts haltsUnique)

structure Pass where
  queue : Queue
  i : Nat
  reads : Nat
  deriving DecidableEq, Repr

/- The erased element is the first one that equals the copy made of the entry at
the index. It is always found: the entry itself is one. -/
def timeoutStep (clock : Nat → Int) (s : Pass) : Option Pass :=
  match s.queue[s.i]? with
  | none => none
  | some conn =>
    if timeout < clock s.reads - conn.lastime then
      some ⟨s.queue.eraseP (fun a => a.equal conn),0,s.reads+1⟩
    else some ⟨s.queue,s.i+1,s.reads+1⟩

theorem stepOld {clock queue i n} {a : Address} (at_ : queue[i]? = some a)
    (old : timeout < clock n - a.lastime) :
    timeoutStep clock ⟨queue,i,n⟩ = some ⟨queue.eraseP (fun b => b.equal a),0,n+1⟩ := by
  simp only [timeoutStep,at_,if_pos old]

theorem stepYoung {clock queue i n} {a : Address} (at_ : queue[i]? = some a)
    (young : ¬ timeout < clock n - a.lastime) :
    timeoutStep clock ⟨queue,i,n⟩ = some ⟨queue,i+1,n+1⟩ := by
  simp only [timeoutStep,at_,if_neg young]

theorem dropCons {queue : Queue} {i : Nat} {a : Address} {rest : Queue} (tail : queue.drop i = a::rest) :
    queue[i]? = some a ∧ queue.drop (i+1) = rest := by
  constructor
  · rw [← List.head?_drop,tail]
    rfl
  · rw [← List.tail_drop,tail]
    rfl

theorem passEnds {clock queue i n} (none_ : firstExpired clock n (queue.drop i) = none) :
    ∃ j m, Halts (timeoutStep clock) ⟨queue,i,n⟩ ⟨queue,j,m⟩ := by
  generalize tail : queue.drop i = rest at none_
  induction rest generalizing i n with
  | nil =>
    have past : queue[i]? = none := List.getElem?_eq_none (List.drop_eq_nil_iff.mp tail)
    exact ⟨i,n,.here (by simp [timeoutStep,past])⟩
  | cons a rest ih =>
    obtain ⟨at_,tail'⟩ := dropCons tail
    simp only [firstExpired] at none_
    split at none_ <;> try contradiction
    rename_i young
    obtain ⟨j,m,ends⟩ := ih tail' none_
    exact ⟨j,m,.later (stepYoung at_ young) ends⟩

theorem passErases {clock queue i n a next last}
    (found : firstExpired clock n (queue.drop i) = some (a,next))
    (ends : Halts (timeoutStep clock) ⟨queue.eraseP (fun b => b.equal a),0,next⟩ last) :
    Halts (timeoutStep clock) ⟨queue,i,n⟩ last := by
  generalize tail : queue.drop i = rest at found
  induction rest generalizing i n with
  | nil => simp [firstExpired] at found
  | cons b rest ih =>
    obtain ⟨at_,tail'⟩ := dropCons tail
    simp only [firstExpired] at found
    split at found
    · rename_i old
      cases Option.some.inj found
      exact .later (stepOld at_ old) ends
    · rename_i young
      exact .later (stepYoung at_ young) (ih tail' found)

/- Every restart follows an erasure, so the induction is on a bound of the
length; neither distinctness nor the order of the clock readings is needed. -/
theorem sweepHalts (clock : Nat → Int) {restarts : Nat} (n : Nat) (queue : Queue)
    (enough : queue.length ≤ restarts) :
    ∃ j m, Halts (timeoutStep clock) ⟨queue,0,n⟩ ⟨sweep clock restarts n queue,j,m⟩ := by
  induction restarts generalizing n queue with
  | zero =>
    have empty : queue = [] := List.eq_nil_of_length_eq_zero (Nat.le_zero.mp enough)
    subst empty
    exact ⟨0,n,.here rfl⟩
  | succ restarts ih =>
    simp only [sweep]
    split
    · rename_i none_
      exact passEnds none_
    · rename_i a next found
      have shorter := eraseShrinks (firstExpiredMem found)
      obtain ⟨j,m,ends⟩ := ih next (queue.eraseP (fun b => b.equal a)) (by omega)
      exact ⟨j,m,passErases found ends⟩

theorem checkTimeoutHalts (clock queue) :
    ∃ j m, Halts (timeoutStep clock) ⟨queue,0,0⟩ ⟨checkTimeout clock queue,j,m⟩ :=
  sweepHalts clock 0 queue (Nat.le_refl _)

inductive Operation where
  | push (conn : Address)
  | remove (ipSrc ipDst : UInt32) (thSport thDport : UInt16)
  | timeout (clock : Nat → Int)

def operate (queue : Queue) : Operation → Queue
  | .push conn => elementPush queue conn
  | .remove ipSrc ipDst thSport thDport => elementRemove queue ipSrc ipDst thSport thDport
  | .timeout clock => checkTimeout clock queue

theorem operateDistinct (queue op) (distinct : Distinct queue) : Distinct (operate queue op) := by
  cases op with
  | push conn =>
    simp only [operate,pushEq]
    exact KeyedList.distinctPushNew distinct
  | remove ipSrc ipDst thSport thDport =>
    simp only [operate,removeEq]
    exact KeyedList.distinctEraseKey distinct
  | timeout clock => exact KeyedList.distinctSublist (checkTimeoutSublist clock queue) distinct

theorem distinctPairwise (queue : Queue) : Distinct queue ↔ queue.Pairwise (fun a b => a.equal b = false) := by
  simp only [equalIff,decide_eq_false_iff_not]
  exact List.pairwise_map

/- The loop of check_timeout ends, and on a queue without equal entries it is a
filter as long as the clock stands still. The readings may come in any order. -/
theorem timeoutFilters {queue : Queue} (distinct : queue.Pairwise (fun a b => a.equal b = false))
    (clock : Nat → Int) :
    (∀ operations, (Trace.run operate [] operations).Pairwise (fun a b => a.equal b = false)) ∧
    (∃ last, Halts (timeoutStep clock) ⟨queue,0,0⟩ last) ∧
    ∀ last, Halts (timeoutStep clock) ⟨queue,0,0⟩ last → last.queue = checkTimeout clock queue ∧
      ∀ now, (∀ n, clock n = now) → last.queue = queue.filter (fun a => now - a.lastime ≤ 2) := by
  obtain ⟨j,m,ends⟩ := checkTimeoutHalts clock queue
  have empty : Distinct [] := List.nodup_nil
  have reached (operations) : Distinct (Trace.run operate [] operations) :=
    Trace.runInvariant operateDistinct empty operations
  refine ⟨fun operations => (distinctPairwise _).mp (reached operations),⟨_,ends⟩,?_⟩
  intro last halts
  have same := haltsUnique halts ends
  subst same
  refine ⟨rfl,?_⟩
  intro now still
  have constant : clock = fun _ => now := funext still
  subst constant
  exact checkTimeoutFilter ((distinctPairwise queue).mpr distinct)

theorem timeoutFiltersStale :
    ∃ last, Halts (timeoutStep (fun _ => 10)) ⟨[⟨1,2,3,4,7⟩,⟨2,1,4,3,8⟩],0,0⟩ last ∧ last.queue = [⟨2,1,4,3,8⟩] := by
  have distinct : [⟨1,2,3,4,7⟩,⟨2,1,4,3,8⟩].Pairwise (fun a b : Address => a.equal b = false) := by decide
  obtain ⟨_,⟨last,halts⟩,results⟩ := timeoutFilters distinct (fun _ => 10)
  refine ⟨last,halts,?_⟩
  rw [(results last halts).2 10 (fun _ => rfl)]
  decide

end PracticeSuite.SnifferQueue
