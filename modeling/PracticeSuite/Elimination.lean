import Mathlib.Data.Fintype.EquivFin

/-! Candidate elimination for assignments in which the members of a unit take
different values. A candidate table admits an assignment when it still holds the
value of every place; the rules below tell which candidates no admitted
assignment needs. -/
namespace PracticeSuite.Elimination

variable {Place Value Member : Type}

def Admits (candidates : Place → Value → Prop) (assignment : Place → Value) : Prop :=
  ∀ p, candidates p (assignment p)

def Distinct (assignment : Place → Value) (unit : Member → Place) : Prop :=
  Function.Injective (fun m => assignment (unit m))

theorem peerExclusion {assignment : Place → Value} {unit : Member → Place}
    (distinct : Distinct assignment unit) {m m' : Member} (different : m ≠ m') :
    assignment (unit m) ≠ assignment (unit m') :=
  fun same => different (distinct same)

theorem lastPlace [Fintype Member] [Fintype Value] (candidates : Place → Value → Prop)
    {assignment : Place → Value} {unit : Member → Place} (admits : Admits candidates assignment)
    (distinct : Distinct assignment unit) (full : Fintype.card Member = Fintype.card Value)
    {m : Member} {v : Value} (only : ∀ m', candidates (unit m') v → m' = m) :
    assignment (unit m) = v := by
  have onto := ((Fintype.bijective_iff_injective_and_card _).mpr ⟨distinct,full⟩).2
  obtain ⟨m',takes⟩ := onto v
  have held : candidates (unit m') v := takes ▸ admits (unit m')
  rw [← only m' held]
  exact takes

end PracticeSuite.Elimination
