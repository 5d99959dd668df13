import Mathlib
import PracticeSuite.KeyedList

/-! Hash tables with chains. A node is appended to the chain its key hashes to
unless the chain has the key already, so the first node of a key stays. -/
namespace PracticeSuite.ChainedTable
open KeyedList (lookup pushNew Distinct)

variable {α κ : Type} [DecidableEq κ] {n : Nat}

def find (key : α → κ) (hash : κ → Fin n) (k : κ) (table : Fin n → List α) : Option α :=
  lookup key k (table (hash k))

def insert (key : α → κ) (hash : κ → Fin n) (a : α) (table : Fin n → List α) : Fin n → List α :=
  Function.update table (hash (key a)) (pushNew key a (table (hash (key a))))

structure Valid (key : α → κ) (hash : κ → Fin n) (table : Fin n → List α) : Prop where
  placed : ∀ h, ∀ a ∈ table h, hash (key a) = h
  distinct : ∀ h, Distinct key (table h)

variable {key : α → κ} {hash : κ → Fin n} {table : Fin n → List α}

omit [DecidableEq κ] in
theorem emptyValid : Valid key hash (fun _ => []) := ⟨fun h a mem => by simp at mem,fun h => List.nodup_nil⟩

theorem insertValid {a : α} (valid : Valid key hash table) : Valid key hash (insert key hash a table) := by
  unfold insert
  refine ⟨fun h b mem => ?_,fun h => ?_⟩
  · by_cases here : h = hash (key a)
    · subst here
      rw [Function.update_self,KeyedList.memPushNew] at mem
      rcases mem with old | ⟨rfl,_⟩
      · exact valid.placed _ b old
      · rfl
    · rw [Function.update_of_ne here] at mem
      exact valid.placed h b mem
  · by_cases here : h = hash (key a)
    · subst here
      rw [Function.update_self]
      exact KeyedList.distinctPushNew (valid.distinct _)
    · rw [Function.update_of_ne here]
      exact valid.distinct h

theorem findInsert (a : α) (k : κ) :
    find key hash k (insert key hash a table) =
      if k = key a then some ((find key hash k table).getD a) else find key hash k table := by
  unfold find insert
  by_cases bucket : hash k = hash (key a)
  · rw [bucket,Function.update_self,KeyedList.lookupPushNew]
  · have other : k ≠ key a := fun same => bucket (by rw [same])
    rw [Function.update_of_ne bucket,if_neg other]

omit [DecidableEq κ] in
theorem distinctNodes (valid : Valid key hash table) :
    (((List.finRange n).flatMap table).map key).Nodup := by
  rw [List.map_flatMap,List.nodup_flatMap]
  refine ⟨fun h _ => valid.distinct h,(List.nodup_finRange n).imp ?_⟩
  intro h h' different k left right
  obtain ⟨a,inside,rfl⟩ := List.mem_map.mp left
  obtain ⟨b,inside',same⟩ := List.mem_map.mp right
  apply different
  rw [← valid.placed h a inside,← same,valid.placed h' b inside']

end PracticeSuite.ChainedTable
