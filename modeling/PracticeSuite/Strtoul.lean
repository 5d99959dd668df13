import PracticeSuite.Scanf

/-! strtoul with base 0, as the C standard describes it for a 64-bit unsigned long, and the
grammar of the texts it reads to their end. Which characters are white space is a parameter. -/
namespace PracticeSuite.Strtoul
open Scanf (Blank splitSign splitSignDigit digitCode)

def digitValue (c : Char) : Option Nat :=
  if c.isDigit then some (c.toNat - 48)
  else if c.isLower then some (c.toNat - 97 + 10)
  else if c.isUpper then some (c.toNat - 65 + 10)
  else none

def belongs (base : Nat) (c : Char) : Bool := (digitValue c).any (· < base)

def ofDigits (base : Nat) (digits : List Char) : Nat := digits.foldl (fun n c => base*n + (digitValue c).getD 0) 0

/- The prefix 0x belongs to the number only where a digit follows it; any other leading zero is
an octal digit. -/
def radix : List Char → Nat × List Char
  | '0'::x::d::rest => if (x = 'x' ∨ x = 'X') ∧ belongs 16 d = true then (16,d::rest) else (8,'0'::x::d::rest)
  | '0'::rest => (8,'0'::rest)
  | rest => (10,rest)

def maximum : Nat := 2^64 - 1

section
variable (space : Char → Bool)

/- The value and what `endptr` is left at. Where no number stands, that is the text itself. -/
def strtoul (nptr : List Char) : Nat × List Char :=
  let signed := splitSign (nptr.dropWhile space)
  let (base,rest) := radix signed.2
  let digits := rest.takeWhile (belongs base)
  if digits = [] then (0,nptr)
  else
    let value := ofDigits base digits
    (if maximum < value then maximum else (signed.1*value % 2^64).toNat,rest.dropWhile (belongs base))

end

inductive Numeral : List Char → Nat → Prop
  | decimal {d : Char} {digits : List Char} (nonzero : d ≠ '0') (all : ∀ c ∈ d::digits, belongs 10 c = true) :
      Numeral (d::digits) (ofDigits 10 (d::digits))
  | octal {digits : List Char} (all : ∀ c ∈ digits, belongs 8 c = true) : Numeral ('0'::digits) (ofDigits 8 ('0'::digits))
  | hex {x d : Char} {digits : List Char} (mark : x = 'x' ∨ x = 'X') (all : ∀ c ∈ d::digits, belongs 16 c = true) :
      Numeral ('0'::x::d::digits) (ofDigits 16 (d::digits))

inductive Sign : List Char → Int → Prop
  | absent : Sign [] 1
  | plus : Sign ['+'] 1
  | minus : Sign ['-'] (-1)

structure Reads (space : Char → Bool) (text : List Char) (n : Nat) : Prop where
  parts : ∃ blanks sign body s value, text = blanks ++ (sign ++ body) ∧ (∀ c ∈ blanks, space c = true) ∧
    Sign sign s ∧ Numeral body value ∧ value ≤ maximum ∧ n = (s*value % 2^64).toNat

theorem belongsTen (c : Char) : belongs 10 c = c.isDigit := by
  unfold belongs digitValue
  by_cases digit : c.isDigit = true
  · have code := digitCode digit
    rw [if_pos digit,digit]
    simp only [Option.any_some,decide_eq_true_eq]
    omega
  · rw [if_neg digit]
    rw [Bool.not_eq_true] at digit
    rw [digit]
    split
    · simp
    · split
      · simp
      · rfl

theorem belongsDigit {base : Nat} (small : base ≤ 10) {c : Char} (digit : belongs base c = true) : c.isDigit = true := by
  rw [← belongsTen]
  unfold belongs at digit ⊢
  rw [Option.any_eq_true] at digit ⊢
  obtain ⟨value,read,less⟩ := digit
  exact ⟨value,read,by simp only [decide_eq_true_eq] at less ⊢; omega⟩

theorem numeralDigit {body : List Char} {value : Nat} (numeral : Numeral body value) :
    ∃ d rest, body = d::rest ∧ d.isDigit = true := by
  cases numeral with
  | decimal nonzero all => exact ⟨_,_,rfl,belongsDigit le_rfl (all _ List.mem_cons_self)⟩
  | octal all => exact ⟨_,_,rfl,rfl⟩
  | hex mark all => exact ⟨_,_,rfl,rfl⟩

theorem radixDecimal {d : Char} (nonzero : d ≠ '0') (digits : List Char) : radix (d::digits) = (10,d::digits) := by
  unfold radix
  split
  · rename_i eq; cases eq; contradiction
  · rename_i eq; cases eq; contradiction
  · rfl

theorem radixOctal {digits : List Char} (all : ∀ c ∈ digits, belongs 8 c = true) :
    radix ('0'::digits) = (8,'0'::digits) := by
  match digits with
  | [] => rfl
  | [_] => rfl
  | x::d::rest =>
    have digit := all x List.mem_cons_self
    have unmarked : ¬ ((x = 'x' ∨ x = 'X') ∧ belongs 16 d = true) := by
      rintro ⟨rfl | rfl,-⟩
      · exact absurd digit (by decide)
      · exact absurd digit (by decide)
    exact if_neg unmarked

theorem radixHex {x d : Char} (mark : x = 'x' ∨ x = 'X') (digit : belongs 16 d = true) (digits : List Char) :
    radix ('0'::x::d::digits) = (16,d::digits) := if_pos ⟨mark,digit⟩

theorem numeralRadix {body : List Char} {value : Nat} (numeral : Numeral body value) :
    ∃ base rest, radix body = (base,rest) ∧ rest ≠ [] ∧ (∀ c ∈ rest, belongs base c = true) ∧ ofDigits base rest = value := by
  cases numeral with
  | decimal nonzero all => exact ⟨10,_,radixDecimal nonzero _,List.cons_ne_nil _ _,all,rfl⟩
  | octal all =>
    refine ⟨8,_,radixOctal all,List.cons_ne_nil _ _,fun c mem => ?_,rfl⟩
    rcases List.mem_cons.mp mem with zero | digit
    · rw [zero]
      decide
    · exact all c digit
  | hex mark all => exact ⟨16,_,radixHex mark (all _ List.mem_cons_self) _,List.cons_ne_nil _ _,all,rfl⟩

theorem radixNumeral {body rest : List Char} {base : Nat} (split : radix body = (base,rest)) (present : rest ≠ [])
    (all : ∀ c ∈ rest, belongs base c = true) : Numeral body (ofDigits base rest) := by
  unfold radix at split
  split at split
  · rename_i x d digits
    split at split
    · rename_i hex
      cases split
      exact .hex hex.1 all
    · cases split
      exact .octal fun c mem => all c (List.mem_cons_of_mem _ mem)
  · rename_i digits short
    cases split
    exact .octal fun c mem => all c (List.mem_cons_of_mem _ mem)
  · rename_i other
    cases split
    obtain ⟨d,digits,eq⟩ := List.exists_cons_of_ne_nil present
    subst eq
    refine .decimal ?_ all
    rintro rfl
    exact other _ rfl

theorem signSplit {sign body : List Char} {s : Int} {value : Nat} (signed : Sign sign s) (numeral : Numeral body value) :
    splitSign (sign ++ body) = (s,body) := by
  obtain ⟨d,rest,rfl,digit⟩ := numeralDigit numeral
  cases signed with
  | absent => exact splitSignDigit digit rest
  | plus => rfl
  | minus => rfl

theorem splitSigned (text : List Char) : ∃ sign, text = sign ++ (splitSign text).2 ∧ Sign sign (splitSign text).1 := by
  unfold splitSign
  split
  · exact ⟨['-'],rfl,.minus⟩
  · exact ⟨['+'],rfl,.plus⟩
  · exact ⟨[],rfl,.absent⟩

section
variable {space : Char → Bool} (blank : Blank space) (plus : space '+' = false)
include blank plus

theorem signVisible {sign body : List Char} {s : Int} {value : Nat} (signed : Sign sign s) (numeral : Numeral body value) :
    ∃ c rest, sign ++ body = c::rest ∧ space c = false := by
  obtain ⟨d,rest,rfl,digit⟩ := numeralDigit numeral
  cases signed with
  | absent => exact ⟨_,_,rfl,blank.digit d digit⟩
  | plus => exact ⟨_,_,rfl,plus⟩
  | minus => exact ⟨_,_,rfl,blank.minus⟩

theorem readsWhole {text : List Char} {n : Nat} (reads : Reads space text n) : strtoul space text = (n,[]) := by
  obtain ⟨blanks,sign,body,s,value,rfl,spaces,signed,numeral,small,rfl⟩ := reads.parts
  obtain ⟨c,more,first,visible⟩ := signVisible blank plus signed numeral
  obtain ⟨base,rest,split,present,all,same⟩ := numeralRadix numeral
  have skip : (blanks ++ (sign ++ body)).dropWhile space = sign ++ body := by
    rw [List.dropWhile_append_of_pos spaces,first,List.dropWhile_cons_of_neg (by simp [visible])]
  have taken : rest.takeWhile (belongs base) = rest := List.takeWhile_eq_self_iff.mpr all
  have left : rest.dropWhile (belongs base) = [] := List.dropWhile_eq_nil_iff.mpr all
  simp only [strtoul,skip,signSplit signed numeral,split,taken,left,present,if_false,same]
  rw [if_neg (by omega)]

theorem wholeRead {text : List Char} {n : Nat} (small : n < maximum) :
    strtoul space text = (n,[]) ↔ text = [] ∧ n = 0 ∨ Reads space text n := by
  constructor
  · intro read
    obtain ⟨sign,parts,signed⟩ := splitSigned (text.dropWhile space)
    cases split : radix (splitSign (text.dropWhile space)).2 with
    | mk base rest =>
      simp only [strtoul,split] at read
      split at read
      · cases read
        exact Or.inl ⟨rfl,rfl⟩
      · rename_i some
        simp only [Prod.mk.injEq] at read
        obtain ⟨value,ended⟩ := read
        have all := List.dropWhile_eq_nil_iff.mp ended
        have taken : rest.takeWhile (belongs base) = rest := List.takeWhile_eq_self_iff.mpr all
        rw [taken] at value some
        have fits : ofDigits base rest ≤ maximum := by
          by_contra large
          rw [if_pos (by omega)] at value
          omega
        rw [if_neg (by omega)] at value
        refine Or.inr ⟨text.takeWhile space,sign,_,_,_,?_,fun c => List.mem_takeWhile_imp,signed,
          radixNumeral split some all,fits,value.symm⟩
        rw [← parts,List.takeWhile_append_dropWhile]
  · rintro (⟨rfl,rfl⟩ | reads)
    · rfl
    · exact readsWhole blank plus reads

end

theorem ofDigitsTen (digits : List Char) : (∀ c ∈ digits, c.isDigit = true) → ofDigits 10 digits = Nat.ofDigitChars 10 digits 0 := by
  have general : ∀ n, (∀ c ∈ digits, c.isDigit = true) →
      digits.foldl (fun n c => 10*n + (digitValue c).getD 0) n = Nat.ofDigitChars 10 digits n := by
    induction digits with
    | nil => exact fun _ _ => rfl
    | cons c rest ih =>
      intro n all
      have value : digitValue c = some (c.toNat - 48) := if_pos (all c List.mem_cons_self)
      rw [List.foldl_cons,ih _ fun d mem => all d (List.mem_cons_of_mem _ mem),value,Nat.ofDigitChars_cons]
      rfl
  exact general 0

theorem toDigitsHead : ∀ {n : Nat}, n ≠ 0 → ∃ d rest, Nat.toDigits 10 n = d::rest ∧ d.isDigit = true ∧ d ≠ '0' := by
  intro n
  induction n using Nat.strong_induction_on with
  | _ n ih =>
    intro nonzero
    by_cases single : n < 10
    · refine ⟨n.digitChar,[],Nat.toDigits_of_lt_base single,?_⟩
      interval_cases n
      all_goals first | contradiction | decide
    · obtain ⟨d,rest,eq,digit⟩ := ih (n/10) (by omega) (by omega)
      refine ⟨d,rest ++ [(n%10).digitChar],?_,digit⟩
      rw [Nat.toDigits_of_base_le (by decide) (by omega),eq]
      rfl

theorem digitCharValue {c : Char} (digit : c.isDigit = true) : c.toNat - 48 < 10 ∧ Nat.digitChar (c.toNat - 48) = c := by
  have code := digitCode digit
  refine ⟨by omega,?_⟩
  apply Char.toNat_inj.mp
  rw [Nat.toNat_digitChar_of_lt_ten (by omega)]
  omega

theorem digitsContinue {digits : List Char} (all : ∀ c ∈ digits, c.isDigit = true) {n : Nat} (positive : 0 < n) :
    Nat.toDigits 10 (Nat.ofDigitChars 10 digits n) = Nat.toDigits 10 n ++ digits := by
  induction digits generalizing n with
  | nil => rw [Nat.ofDigitChars_nil,List.append_nil]
  | cons c rest ih =>
    obtain ⟨small,same⟩ := digitCharValue (all c List.mem_cons_self)
    have next : 0 < 10*n + (c.toNat - '0'.toNat) := by omega
    rw [Nat.ofDigitChars_cons,ih (fun d mem => all d (List.mem_cons_of_mem _ mem)) next]
    have digit : Nat.toDigits 10 (10*n + (c.toNat - '0'.toNat)) = Nat.toDigits 10 n ++ [c] := by
      have step := Nat.toDigits_append_toDigits (b := 10) (by decide) positive small
      rw [Nat.toDigits_of_lt_base small,same] at step
      exact step.symm
    rw [digit,List.append_assoc,List.singleton_append]

theorem digitsCanonical {d : Char} {rest : List Char} (nonzero : d ≠ '0') (all : ∀ c ∈ d::rest, c.isDigit = true) :
    Nat.toDigits 10 (Nat.ofDigitChars 10 (d::rest) 0) = d::rest := by
  obtain ⟨small,same⟩ := digitCharValue (all d List.mem_cons_self)
  have positive : 0 < 10*0 + (d.toNat - '0'.toNat) := by
    by_contra zero
    have value : d.toNat - 48 = 0 := Nat.eq_zero_of_not_pos (by simpa using zero)
    rw [value] at same
    exact nonzero same.symm
  have first : Nat.toDigits 10 (10*0 + (d.toNat - '0'.toNat)) = [d] := by
    rw [Nat.mul_zero,Nat.zero_add]
    exact (Nat.toDigits_of_lt_base small).trans (congrArg (fun c => [c]) same)
  rw [Nat.ofDigitChars_cons,digitsContinue (fun c mem => all c (List.mem_cons_of_mem _ mem)) positive,first]
  rfl

theorem readsPlain {space : Char → Bool} (blank : Blank space) {d : Char} (digit : d.isDigit = true) (nonzero : d ≠ '0')
    (rest : List Char) (n : Nat) : Reads space (d::rest) n ↔ n ≤ maximum ∧ d::rest = Nat.toDigits 10 n := by
  constructor
  · rintro ⟨blanks,sign,body,s,value,parts,spaces,signed,numeral,small,rfl⟩
    have unblanked : blanks = [] := by
      cases blanks with
      | nil => rfl
      | cons c more =>
        have same : d = c := (List.cons.inj parts).1
        have visible := blank.digit d digit
        rw [same,spaces c List.mem_cons_self] at visible
        cases visible
    subst unblanked
    have unsigned : sign = [] ∧ s = 1 := by
      cases signed with
      | absent => exact ⟨rfl,rfl⟩
      | plus => cases (List.cons.inj parts).1; cases digit
      | minus => cases (List.cons.inj parts).1; cases digit
    obtain ⟨rfl,rfl⟩ := unsigned
    cases numeral with
    | decimal first all =>
      cases parts
      have digits : ∀ c ∈ d::rest, c.isDigit = true := fun c mem => belongsTen c ▸ all c mem
      have value : (1*(ofDigits 10 (d::rest) : Int) % 2^64).toNat = ofDigits 10 (d::rest) := by
        unfold maximum at small
        omega
      rw [value]
      refine ⟨small,?_⟩
      rw [ofDigitsTen _ digits,digitsCanonical nonzero digits]
    | octal all => cases (List.cons.inj parts).1; contradiction
    | hex mark all => cases (List.cons.inj parts).1; contradiction
  · rintro ⟨small,eq⟩
    have all : ∀ c ∈ d::rest, c.isDigit = true := by
      rw [eq]
      exact Scanf.digitsAre n
    have value : ofDigits 10 (d::rest) = n := by
      rw [ofDigitsTen _ all,eq,Nat.ofDigitChars_ten_toDigits]
    refine ⟨[],[],d::rest,1,n,rfl,by simp,.absent,?_,small,?_⟩
    · have numeral := Numeral.decimal nonzero fun c mem => (belongsTen c).trans (all c mem)
      rwa [value] at numeral
    · unfold maximum at small
      omega

theorem strtoulBound (space) (text : List Char) : (strtoul space text).1 ≤ maximum := by
  simp only [strtoul]
  split
  · exact Nat.zero_le _
  · split
    · exact le_rfl
    · unfold maximum
      omega

end PracticeSuite.Strtoul
