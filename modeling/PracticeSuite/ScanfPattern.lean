import PracticeSuite.Strtoul

/-! More of sscanf, for formats that also hold literal characters, hexadecimal conversions,
sets of characters and conversions that assign nothing. The other conversions, the assigned
values and their types are those of the plain formats. -/
namespace PracticeSuite.ScanfPattern
open Scanf (CType Value splitSign assign)
open Strtoul (belongs ofDigits)

inductive Conversion where
  | plain (conversion : Scanf.Conversion)
  | hex (t : CType)
  | set (width : Nat) (member : Char → Bool)

inductive Directive (α : Type) where
  | white
  | literal (c : Char)
  | convert (target : α) (conversion : Conversion)
  | skip (conversion : Conversion)

def hexPrefix : List Char → List Char
  | '0'::x::rest => if x = 'x' ∨ x = 'X' then rest else '0'::x::rest
  | rest => rest

def scanHex (input : List Char) : Option (Int × List Char) :=
  let signed := splitSign input
  let rest := hexPrefix signed.2
  let digits := rest.takeWhile (belongs 16)
  if digits = [] then none else some (signed.1*ofDigits 16 digits,rest.dropWhile (belongs 16))

section
variable (space : Char → Bool) (other : CType → Int → Int)

def Conversion.scan : Conversion → List Char → Option (Value × List Char)
  | .plain conversion,input => conversion.scan space other input
  | .hex t,input => (scanHex (input.dropWhile space)).map (fun r => (.number (t.store other r.1),r.2))
  | .set width member,input =>
    let text := (input.take width).takeWhile member
    if text = [] then none else some (.text text,input.drop text.length)

variable {α : Type}

def scan : List (Directive α) → List Char → List (α × Value)
  | [],_ => []
  | .white::format,input => scan format (input.dropWhile space)
  | .literal c::format,input => if input.head? = some c then scan format input.tail else []
  | .convert target conversion::format,input =>
    match conversion.scan space other input with
    | none => []
    | some (value,rest) => (target,value) :: scan format rest
  | .skip conversion::format,input =>
    match conversion.scan space other input with
    | none => []
    | some (_,rest) => scan format rest

def count (format : List (Directive α)) (input : List Char) : Nat := (scan space other format input).length

def sscanf [DecidableEq α] (format : List (Directive α)) (input : List Char) (memory : α → Value) : α → Value :=
  assign memory (scan space other format input)

def targets : List (Directive α) → List α
  | [] => []
  | .convert target _::format => target :: targets format
  | _::format => targets format

theorem scanTargets (format : List (Directive α)) (input : List Char) :
    (scan space other format input).map Prod.fst <+: targets format := by
  induction format generalizing input with
  | nil => exact List.nil_prefix
  | cons directive format ih =>
    cases directive with
    | white => exact ih _
    | literal c =>
      simp only [scan,targets]
      split
      · exact ih _
      · exact List.nil_prefix
    | convert target conversion =>
      simp only [scan,targets]
      split
      · exact List.nil_prefix
      · exact List.cons_prefix_cons.mpr ⟨rfl,ih _⟩
    | skip conversion =>
      simp only [scan,targets]
      split
      · exact List.nil_prefix
      · exact ih _

theorem countBound (format : List (Directive α)) (input : List Char) : count space other format input ≤ (targets format).length := by
  have bound := (scanTargets space other format input).length_le
  rwa [List.length_map] at bound

theorem scanAll {format : List (Directive α)} {input : List Char} (all : count space other format input = (targets format).length) :
    (scan space other format input).map Prod.fst = targets format := by
  apply (scanTargets space other format input).eq_of_length
  rw [List.length_map]
  exact all

theorem lastUntouched {format : List (Directive α)} {input : List Char} {before : List α} {a : α}
    (order : targets format = before ++ [a]) (fresh : a ∉ before)
    (missed : count space other format input ≠ (targets format).length) : a ∉ (scan space other format input).map Prod.fst := by
  intro mem
  have bound := countBound space other format input
  have front : (scan space other format input).map Prod.fst <+: before := by
    have whole := scanTargets space other format input
    rw [order] at whole bound missed
    apply List.prefix_of_prefix_length_le whole (List.prefix_append before [a])
    rw [List.length_map]
    rw [List.length_append,List.length_singleton] at bound missed
    unfold count at bound missed
    omega
  exact fresh (front.subset mem)

theorem scanSource {format : List (Directive α)} {input : List Char} {a : α} {value : Value}
    (mem : (a,value) ∈ scan space other format input) :
    ∃ conversion, .convert a conversion ∈ format ∧ ∃ text rest, conversion.scan space other text = some (value,rest) := by
  induction format generalizing input with
  | nil => cases mem
  | cons directive format ih =>
    have later : ∀ {input}, (a,value) ∈ scan space other format input → ∃ conversion, .convert a conversion ∈ directive::format ∧
        ∃ text rest, conversion.scan space other text = some (value,rest) := by
      intro input mem
      obtain ⟨conversion,listed,read⟩ := ih mem
      exact ⟨conversion,List.mem_cons_of_mem _ listed,read⟩
    cases directive with
    | white => exact later mem
    | literal c =>
      simp only [scan] at mem
      split at mem
      · exact later mem
      · cases mem
    | convert target conversion =>
      simp only [scan] at mem
      split at mem
      · cases mem
      · rename_i read
        rcases List.mem_cons.mp mem with here | after
        · cases here
          exact ⟨conversion,List.mem_cons_self,_,_,read⟩
        · exact later after
    | skip conversion =>
      simp only [scan] at mem
      split at mem
      · cases mem
      · exact later mem

theorem setMember {width : Nat} {member : Char → Bool} {input rest : List Char} {value : Value}
    (read : (Conversion.set width member).scan space other input = some (value,rest)) :
    ∃ text, value = .text text ∧ ∀ c ∈ text, member c = true := by
  simp only [Conversion.scan] at read
  split at read
  · cases read
  · cases read
    exact ⟨_,rfl,fun c mem => List.mem_takeWhile_imp mem⟩

end

section
variable {α : Type} [DecidableEq α]

theorem assignCases (memory : α → Value) (assigned : List (α × Value)) (a : α) :
    assign memory assigned a = memory a ∨ (a,assign memory assigned a) ∈ assigned := by
  induction assigned generalizing memory with
  | nil => exact Or.inl rfl
  | cons first rest ih =>
    change assign (Function.update memory first.1 first.2) rest a = memory a ∨
      (a,assign (Function.update memory first.1 first.2) rest a) ∈ first::rest
    rcases ih (Function.update memory first.1 first.2) with kept | later
    · by_cases same : a = first.1
      · subst same
        rw [kept,Function.update_self]
        exact Or.inr List.mem_cons_self
      · rw [kept,Function.update_of_ne same]
        exact Or.inl rfl
    · exact Or.inr (List.mem_cons_of_mem _ later)

theorem assignDetermined {assigned : List (α × Value)} {a : α} (touched : a ∈ assigned.map Prod.fst) (memory memory' : α → Value) :
    assign memory assigned a = assign memory' assigned a := by
  induction assigned generalizing memory memory' with
  | nil => cases touched
  | cons first rest ih =>
    change assign (Function.update memory first.1 first.2) rest a = assign (Function.update memory' first.1 first.2) rest a
    by_cases later : a ∈ rest.map Prod.fst
    · exact ih later _ _
    · have here : a = first.1 := (List.mem_cons.mp touched).resolve_right later
      rw [Scanf.assignOther later,Scanf.assignOther later,here,Function.update_self,Function.update_self]

end

end PracticeSuite.ScanfPattern
