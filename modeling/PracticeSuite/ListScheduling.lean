import Mathlib.Algebra.BigOperators.Group.Finset.Basic
import Mathlib.Algebra.Order.BigOperators.Group.Finset
import Mathlib.Algebra.Order.Ring.Defs
import Mathlib.Data.Fintype.BigOperators
import Mathlib.Tactic.Linarith
import Mathlib.Tactic.Ring

/-! Jobs placed one after the other on machines of the same kind, and what placing each on a machine
with the least load achieves. -/
namespace PracticeSuite.ListScheduling

variable {ι α : Type} [DecidableEq ι] [CommRing α]

def assign (load : ι → α) (i : ι) (p : α) : ι → α := Function.update load i (load i + p)

def assignAll (load : ι → α) (placed : List (ι × α)) : ι → α := placed.foldl (fun load x => assign load x.1 x.2) load

inductive Greedy [LE α] : (ι → α) → List α → (ι → α) → Prop
  | done (load : ι → α) : Greedy load [] load
  | next {load last : ι → α} {i : ι} {p : α} {rest : List α} (least : ∀ j, load i ≤ load j)
      (later : Greedy (assign load i p) rest last) : Greedy load (p::rest) last

def Spread [LE α] (load : ι → α) (p : α) : Prop := ∀ i j, load i ≤ load j + p

section
variable {load last : ι → α} {i : ι} {p q : α} {jobs : List α} {placed : List (ι × α)}

theorem assignSelf : assign load i p i = load i + p := Function.update_self _ _ _

theorem assignOther {j : ι} (other : j ≠ i) : assign load i p j = load j := Function.update_of_ne other _ _

theorem assignTotal [Fintype ι] (load : ι → α) (i : ι) (p : α) : ∑ j, assign load i p j = (∑ j, load j) + p := by
  rw [assign,Finset.sum_update_of_mem (Finset.mem_univ i),← Finset.add_sum_erase _ load (Finset.mem_univ i),Finset.sdiff_singleton_eq_erase]
  ring

theorem assignAllTotal [Fintype ι] (load : ι → α) (placed : List (ι × α)) :
    ∑ j, assignAll load placed j = (∑ j, load j) + (placed.map Prod.snd).sum := by
  induction placed generalizing load with
  | nil => simp [assignAll]
  | cons x rest ih =>
    have next := ih (assign load x.1 x.2)
    rw [assignTotal] at next
    rw [List.map_cons,List.sum_cons]
    exact next.trans (by ring)

variable [LinearOrder α] [IsStrictOrderedRing α]

theorem assignGrows (nonneg : 0 ≤ p) (j : ι) : load j ≤ assign load i p j := by
  by_cases here : j = i
  · subst here
    rw [assignSelf]
    exact le_add_of_nonneg_right nonneg
  · rw [assignOther here]

theorem assignSpread (spread : Spread load q) (least : ∀ j, load i ≤ load j) (nonneg : 0 ≤ p) (small : p ≤ q) : Spread (assign load i p) q := by
  intro a b
  have grows : load b ≤ assign load i p b := assignGrows nonneg b
  by_cases here : a = i
  · subst here
    rw [assignSelf]
    linarith [least b]
  · rw [assignOther here]
    linarith [spread a b]

theorem greedySpread (greedy : Greedy load jobs last) (spread : Spread load q) (sizes : ∀ p ∈ jobs, 0 ≤ p ∧ p ≤ q) : Spread last q := by
  induction greedy with
  | done => exact spread
  | next least _ ih =>
    obtain ⟨nonneg,small⟩ := sizes _ List.mem_cons_self
    exact ih (assignSpread spread least nonneg small) (fun p mem => sizes p (List.mem_cons_of_mem _ mem))

omit [IsStrictOrderedRing α] in
theorem greedyTotal [Fintype ι] (greedy : Greedy load jobs last) : ∑ j, last j = (∑ j, load j) + jobs.sum := by
  induction greedy with
  | done => simp
  | next _ _ ih =>
    rw [ih,assignTotal,List.sum_cons]
    ring

theorem assignAllGrows (sizes : ∀ x ∈ placed, 0 ≤ x.2) (j : ι) : load j ≤ assignAll load placed j := by
  induction placed generalizing load with
  | nil => exact le_rfl
  | cons x rest ih =>
    exact (assignGrows (sizes x List.mem_cons_self) j).trans (ih (fun y mem => sizes y (List.mem_cons_of_mem x mem)))

theorem assignAllHas (nonneg : ∀ j, 0 ≤ load j) (sizes : ∀ x ∈ placed, 0 ≤ x.2) {x : ι × α} (mem : x ∈ placed) :
    ∃ j, x.2 ≤ assignAll load placed j := by
  induction placed generalizing load with
  | nil => exact absurd mem List.not_mem_nil
  | cons y rest ih =>
    have size := sizes y List.mem_cons_self
    have later := fun z mem => sizes z (List.mem_cons_of_mem y mem)
    rcases List.mem_cons.mp mem with rfl | behind
    · have own : x.2 ≤ assign load x.1 x.2 x.1 := by
        rw [assignSelf]
        exact le_add_of_nonneg_left (nonneg x.1)
      exact ⟨x.1,own.trans (assignAllGrows later x.1)⟩
    · exact ih (fun j => (nonneg j).trans (assignGrows size j)) later behind

theorem greedyAverage [Fintype ι] (greedy : Greedy load jobs last) (spread : Spread load q) (sizes : ∀ p ∈ jobs, 0 ≤ p ∧ p ≤ q) (i : ι) :
    Fintype.card ι * last i ≤ (∑ j, load j) + jobs.sum + (Fintype.card ι - 1)*q := by
  have bound : ∑ j ∈ Finset.univ.erase i, last i ≤ ∑ j ∈ Finset.univ.erase i, (last j + q) :=
    Finset.sum_le_sum (fun j _ => greedySpread greedy spread sizes i j)
  have count : ((Finset.univ.erase i).card : α) = Fintype.card ι - 1 := by
    rw [Finset.card_erase_of_mem (Finset.mem_univ i),Finset.card_univ,Nat.cast_sub (Fintype.card_pos_iff.mpr ⟨i⟩),Nat.cast_one]
  rw [Finset.sum_const,Finset.sum_add_distrib,Finset.sum_const,nsmul_eq_mul,nsmul_eq_mul,count] at bound
  have total := greedyTotal greedy
  rw [← Finset.add_sum_erase _ last (Finset.mem_univ i)] at total
  linarith

theorem greedyBound [Fintype ι] (greedy : Greedy load jobs last) (nonneg : ∀ j, 0 ≤ load j) (sizes : ∀ p ∈ jobs, 0 ≤ p)
    (other : placed.map Prod.snd = jobs) {t : α} (within : ∀ j, assignAll load placed j ≤ t) (i : ι) :
    Fintype.card ι * last i ≤ (2*Fintype.card ι - 1)*t := by
  subst other
  have placedSizes : ∀ x ∈ placed, 0 ≤ x.2 := fun x mem => sizes x.2 (List.mem_map_of_mem mem)
  have small : ∀ p ∈ placed.map Prod.snd, 0 ≤ p ∧ p ≤ t := by
    intro p mem
    obtain ⟨x,inside,rfl⟩ := List.mem_map.mp mem
    obtain ⟨j,has⟩ := assignAllHas nonneg placedSizes inside
    exact ⟨placedSizes x inside,has.trans (within j)⟩
  have spread : Spread load t := fun a b => by
    have start := (assignAllGrows placedSizes a).trans (within a)
    linarith [nonneg b]
  have average := greedyAverage greedy spread small i
  have total : ∑ j, assignAll load placed j ≤ ∑ _j : ι, t := Finset.sum_le_sum (fun j _ => within j)
  rw [assignAllTotal,Finset.sum_const,nsmul_eq_mul,Finset.card_univ] at total
  linarith

end

end PracticeSuite.ListScheduling
