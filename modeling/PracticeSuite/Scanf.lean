import Mathlib

/-! sscanf as the C standard describes it, for white space and the conversions of decimal
integers, words and single characters. The directives are executed in turn until one
fails; what was assigned before stays assigned. Which characters are white space, and what
an integer outside its type stores, are parameters. -/
namespace PracticeSuite.Scanf

inductive CType where
  | int | uint | long | ulong | ullong
  deriving DecidableEq, Repr

def CType.signed : CType → Bool
  | .int | .long => true
  | .uint | .ulong | .ullong => false

def CType.width : CType → Nat
  | .int | .uint => 32
  | .long | .ulong | .ullong => 64

def CType.InRange (t : CType) (n : Int) : Prop :=
  if t.signed then -(2:Int)^(t.width-1) ≤ n ∧ n < 2^(t.width-1) else 0 ≤ n ∧ n < 2^t.width

instance (t n) : Decidable (CType.InRange t n) := by unfold CType.InRange; infer_instance

/- A sign in front of an unsigned number negates it in its type. The standard leaves open
what any other number outside the range does. -/
def CType.store (other : CType → Int → Int) (t : CType) (n : Int) : Int :=
  if t.InRange n then n
  else if t.signed = false ∧ -(2:Int)^t.width < n ∧ n < 0 then n + 2^t.width
  else other t n

inductive Conversion where
  | number (t : CType)
  | word
  | char
  deriving DecidableEq, Repr

inductive Value where
  | number (n : Int)
  | text (s : List Char)
  | char (c : Char)
  deriving DecidableEq, Repr

inductive Directive (α : Type) where
  | white
  | convert (target : α) (conversion : Conversion)
  deriving DecidableEq, Repr

def splitSign : List Char → Int × List Char
  | '-'::rest => (-1,rest)
  | '+'::rest => (1,rest)
  | rest => (1,rest)

def scanDecimal (input : List Char) : Option (Int × List Char) :=
  let rest := (splitSign input).2
  let digits := rest.takeWhile Char.isDigit
  if digits = [] then none
  else some ((splitSign input).1*Nat.ofDigitChars 10 digits 0,rest.dropWhile Char.isDigit)

section
variable (space : Char → Bool) (other : CType → Int → Int)

def Conversion.scan : Conversion → List Char → Option (Value × List Char)
  | .number t,input => (scanDecimal (input.dropWhile space)).map (fun r => (.number (t.store other r.1),r.2))
  | .word,input =>
    let rest := input.dropWhile space
    let word := rest.takeWhile (fun c => !space c)
    if word = [] then none else some (.text word,rest.dropWhile (fun c => !space c))
  | .char,[] => none
  | .char,c::rest => some (.char c,rest)

variable {α : Type}

def scan : List (Directive α) → List Char → List (α × Value)
  | [],_ => []
  | .white::format,input => scan format (input.dropWhile space)
  | .convert target conversion::format,input =>
    match conversion.scan space other input with
    | none => []
    | some (value,rest) => (target,value) :: scan format rest

def assign [DecidableEq α] (memory : α → Value) (assigned : List (α × Value)) : α → Value :=
  assigned.foldl (fun memory a => Function.update memory a.1 a.2) memory

def sscanf [DecidableEq α] (format : List (Directive α)) (input : List Char) (memory : α → Value) : α → Value :=
  assign memory (scan space other format input)

def spaced (conversions : List (α × Conversion)) : List (Directive α) :=
  conversions.flatMap (fun c => [.white,.convert c.1 c.2])

def numeric (number : α × CType) : α × Conversion := (number.1,.number number.2)

theorem scanConvert {conversion : Conversion} {input rest : List Char} {value : Value}
    (read : conversion.scan space other input = some (value,rest)) (target : α) (format : List (Directive α)) :
    scan space other (.convert target conversion :: format) input = (target,value) :: scan space other format rest := by
  simp only [scan,read]

theorem scanSpaced (first : α × Conversion) (rest : List (α × Conversion)) (input : List Char) :
    scan space other (spaced (first::rest)) input =
      match first.2.scan space other (input.dropWhile space) with
      | none => []
      | some (value,remaining) => (first.1,value) :: scan space other (spaced rest) remaining := rfl

end

theorem storeInRange (other) {t : CType} {n : Int} (inside : t.InRange n) : t.store other n = n := if_pos inside

theorem assignOther {α : Type} [DecidableEq α] {a : α} {assigned : List (α × Value)}
    (untouched : a ∉ assigned.map Prod.fst) (memory : α → Value) : assign memory assigned a = memory a := by
  induction assigned generalizing memory with
  | nil => rfl
  | cons first rest ih =>
    simp only [List.map_cons,List.mem_cons,not_or] at untouched
    change assign (Function.update memory first.1 first.2) rest a = memory a
    rw [ih untouched.2,Function.update_of_ne untouched.1]

theorem assignOf {α : Type} [DecidableEq α] {a : α} {value : Value} {assigned : List (α × Value)}
    (distinct : (assigned.map Prod.fst).Nodup) (mem : (a,value) ∈ assigned) (memory : α → Value) :
    assign memory assigned a = value := by
  induction assigned generalizing memory with
  | nil => cases mem
  | cons first rest ih =>
    simp only [List.map_cons,List.nodup_cons] at distinct
    change assign (Function.update memory first.1 first.2) rest a = value
    rcases List.mem_cons.mp mem with here | later
    · subst here
      rw [assignOther distinct.1,Function.update_self]
    · exact ih distinct.2 later _

theorem scanTargets {α : Type} (space other) (conversions : List (α × Conversion)) (input : List Char) :
    (scan space other (spaced conversions) input).map Prod.fst <+: conversions.map Prod.fst := by
  induction conversions generalizing input with
  | nil => exact List.nil_prefix
  | cons first rest ih =>
    rw [scanSpaced]
    split
    · exact List.nil_prefix
    · exact List.cons_prefix_cons.mpr ⟨rfl,ih _⟩

theorem stretchRead {p : Char → Bool} {stretch rest : List Char} (belong : ∀ c ∈ stretch, p c = true)
    (stop : ∀ c ∈ rest.head?, p c = false) :
    (stretch ++ rest).takeWhile p = stretch ∧ (stretch ++ rest).dropWhile p = rest := by
  rw [List.takeWhile_append_of_pos belong,List.dropWhile_append_of_pos belong]
  cases rest with
  | nil => simp
  | cons c rest =>
    have no := stop c rfl
    simp [no]

theorem digitCode {c : Char} (digit : c.isDigit = true) : 48 ≤ c.toNat ∧ c.toNat ≤ 57 := by
  unfold Char.isDigit at digit
  simp only [Bool.and_eq_true,decide_eq_true_eq] at digit
  exact digit

def decimal : Int → List Char
  | .ofNat n => Nat.toDigits 10 n
  | .negSucc n => '-' :: Nat.toDigits 10 (n+1)

theorem digitsAre (n : Nat) : ∀ c ∈ Nat.toDigits 10 n, c.isDigit = true :=
  fun _ mem => Nat.isDigit_of_mem_toDigits (by decide) (by decide) mem

theorem digitsCons (n : Nat) : ∃ d ds, Nat.toDigits 10 n = d::ds ∧ d.isDigit = true := by
  obtain ⟨d,ds,eq⟩ := List.exists_cons_of_ne_nil (Nat.toDigits_ne_nil (b := 10) (n := n))
  refine ⟨d,ds,eq,digitsAre n d ?_⟩
  rw [eq]
  exact List.mem_cons_self

theorem splitSignDigit {d : Char} (digit : d.isDigit = true) (rest : List Char) :
    splitSign (d::rest) = (1,d::rest) := by
  unfold splitSign
  split
  · rename_i eq; cases eq; cases digit
  · rename_i eq; cases eq; cases digit
  · rfl

theorem scanDecimalText (n : Int) {rest : List Char} (stop : ∀ c ∈ rest.head?, c.isDigit = false) :
    scanDecimal (decimal n ++ rest) = some (n,rest) := by
  unfold scanDecimal
  cases n with
  | ofNat n =>
    obtain ⟨d,ds,eq,digit⟩ := digitsCons n
    have sign : splitSign (Nat.toDigits 10 n ++ rest) = (1,Nat.toDigits 10 n ++ rest) := by
      rw [eq]
      exact splitSignDigit digit _
    obtain ⟨read,left⟩ := stretchRead (digitsAre n) stop
    simp only [decimal,sign,read,left,Nat.toDigits_ne_nil,if_false,Nat.ofDigitChars_ten_toDigits,one_mul]
    rfl
  | negSucc n =>
    obtain ⟨read,left⟩ := stretchRead (digitsAre (n+1)) stop
    simp only [decimal,List.cons_append,splitSign,read,left,Nat.toDigits_ne_nil,if_false,Nat.ofDigitChars_ten_toDigits]
    congr 2
    omega

/- White space as a locale may define it: at least the blank, never part of a number. -/
structure Blank (space : Char → Bool) : Prop where
  separator : space ' ' = true
  digit : ∀ c, c.isDigit = true → space c = false
  minus : space '-' = false

theorem Blank.beforeDigits {space} (blank : Blank space) {rest : List Char} (spaceNext : ∀ c ∈ rest.head?, space c = true) :
    ∀ c ∈ rest.head?, c.isDigit = false := by
  intro c mem
  by_contra digit
  have visible := blank.digit c (Bool.not_eq_false _ ▸ digit)
  rw [spaceNext c mem] at visible
  cases visible

structure Item (α : Type) where
  target : α
  conversion : Conversion
  text : List Char
  value : Value

/- The text begins with what no white space skips, and is read back whatever white
space follows. -/
structure Item.Clean {α : Type} (space : Char → Bool) (other : CType → Int → Int) (f : Item α) : Prop where
  visible : ∃ c rest, f.text = c::rest ∧ space c = false
  readBack : ∀ rest : List Char, (∀ c ∈ rest.head?, space c = true) →
    f.conversion.scan space other (f.text ++ rest) = some (f.value,rest)

theorem visibleKept {space : Char → Bool} {text : List Char} (visible : ∃ c rest, text = c::rest ∧ space c = false)
    (rest : List Char) : (text ++ rest).dropWhile space = text ++ rest := by
  obtain ⟨c,more,eq,no⟩ := visible
  rw [eq,List.cons_append,List.dropWhile_cons_of_neg (by simp [no])]

theorem decimalVisible {space} (blank : Blank space) (n : Int) : ∃ c rest, decimal n = c::rest ∧ space c = false := by
  cases n with
  | ofNat n =>
    obtain ⟨d,ds,eq,digit⟩ := digitsCons n
    exact ⟨d,ds,eq,blank.digit d digit⟩
  | negSucc n => exact ⟨'-',Nat.toDigits 10 (n+1),rfl,blank.minus⟩

theorem decimalBlankless {space} (blank : Blank space) (n : Int) : ∀ c ∈ decimal n, space c = false := by
  intro c mem
  cases n with
  | ofNat n => exact blank.digit c (digitsAre n c mem)
  | negSucc n =>
    rcases List.mem_cons.mp mem with minus | digit
    · exact minus ▸ blank.minus
    · exact blank.digit c (digitsAre (n+1) c digit)

theorem numberClean {α : Type} {space} (blank : Blank space) (other) {t : CType} {n : Int} (inside : t.InRange n) (target : α) :
    (⟨target,.number t,decimal n,.number n⟩ : Item α).Clean space other := by
  refine ⟨decimalVisible blank n,fun rest next => ?_⟩
  simp only [Conversion.scan,visibleKept (decimalVisible blank n) rest,scanDecimalText n (blank.beforeDigits next),Option.map_some,
    storeInRange other inside]

theorem wordClean {α : Type} {space : Char → Bool} (other) {word : List Char} (present : word ≠ [])
    (visible : ∀ c ∈ word, space c = false) (target : α) :
    (⟨target,.word,word,.text word⟩ : Item α).Clean space other := by
  obtain ⟨c,text,eq⟩ := List.exists_cons_of_ne_nil present
  have first : ∃ c rest, word = c::rest ∧ space c = false := ⟨c,text,eq,visible c (eq ▸ List.mem_cons_self)⟩
  refine ⟨first,fun rest next => ?_⟩
  have belong : ∀ c ∈ word, (!space c) = true := fun c mem => by simp [visible c mem]
  have stop : ∀ c ∈ rest.head?, (!space c) = false := fun c mem => by simp [next c mem]
  obtain ⟨read,left⟩ := stretchRead belong stop
  simp only [Conversion.scan,visibleKept first rest,read,left,present,if_false]

theorem charClean {α : Type} {space : Char → Bool} (other) {c : Char} (visible : space c = false) (target : α) :
    (⟨target,.char,[c],.char c⟩ : Item α).Clean space other :=
  ⟨⟨c,[],rfl,visible⟩,fun _ _ => rfl⟩

def Item.directive {α : Type} (f : Item α) : α × Conversion := (f.target,f.conversion)
def Item.assigned {α : Type} (f : Item α) : α × Value := (f.target,f.value)

def written {α : Type} (items : List (Item α)) : List Char := items.flatMap (fun f => ' ' :: f.text)

theorem writtenLength {α : Type} {items : List (Item α)} {k : Nat} (short : ∀ f ∈ items, f.text.length ≤ k) :
    (written items).length ≤ items.length*(k+1) := by
  induction items with
  | nil => exact Nat.zero_le _
  | cons f rest ih =>
    have here := short f List.mem_cons_self
    have later := ih (fun g mem => short g (List.mem_cons_of_mem _ mem))
    simp only [written,List.flatMap_cons,List.length_append,List.length_cons,Nat.succ_mul] at later ⊢
    omega

theorem writtenNext {α : Type} {space} (blank : Blank space) (items : List (Item α)) {tail : List Char}
    (next : ∀ c ∈ tail.head?, space c = true) : ∀ c ∈ (written items ++ tail).head?, space c = true := by
  cases items with
  | nil => exact next
  | cons f rest =>
    intro c mem
    cases mem
    exact blank.separator

theorem scanWritten {α : Type} {space other} (blank : Blank space) (items : List (Item α))
    (clean : ∀ f ∈ items, f.Clean space other) (more : List (α × Conversion)) {tail : List Char}
    (next : ∀ c ∈ tail.head?, space c = true) :
    scan space other (spaced (items.map Item.directive ++ more)) (written items ++ tail) =
      items.map Item.assigned ++ scan space other (spaced more) tail := by
  induction items with
  | nil => rfl
  | cons f rest ih =>
    have here := clean f List.mem_cons_self
    have skip : (written (f::rest) ++ tail).dropWhile space = f.text ++ (written rest ++ tail) := by
      change (' ' :: (f.text ++ written rest) ++ tail).dropWhile space = _
      rw [List.cons_append,List.dropWhile_cons_of_pos blank.separator,List.append_assoc,visibleKept here.visible]
    have read : f.directive.2.scan space other (f.text ++ (written rest ++ tail)) = some (f.value,written rest ++ tail) :=
      here.readBack _ (writtenNext blank rest next)
    rw [List.map_cons,List.cons_append,scanSpaced,skip,read]
    dsimp only
    rw [ih (fun g mem => clean g (List.mem_cons_of_mem _ mem))]
    rfl

def reach (space : Char → Bool) (c : Char) : Bool := space c || c.isDigit || c = '-' || c = '+'

theorem reachAppend {space} {used : List Char} (inside : ∀ c ∈ used, reach space c = true) (rest : List Char) :
    ((used ++ rest).takeWhile (reach space)).length = used.length + (rest.takeWhile (reach space)).length := by
  rw [List.takeWhile_append_of_pos inside,List.length_append]

theorem reachSkips (space) (input : List Char) :
    ((input.dropWhile space).takeWhile (reach space)).length ≤ (input.takeWhile (reach space)).length := by
  have inside : ∀ c ∈ input.takeWhile space, reach space c = true := by
    intro c mem
    have blank := List.mem_takeWhile_imp mem
    simp [reach,blank]
  have split := reachAppend inside (input.dropWhile space)
  rw [List.takeWhile_append_dropWhile] at split
  omega

theorem splitSignUsed (input : List Char) :
    ∃ sign, input = sign ++ (splitSign input).2 ∧ ∀ c ∈ sign, c = '-' ∨ c = '+' := by
  unfold splitSign
  split
  · exact ⟨['-'],rfl,by simp⟩
  · exact ⟨['+'],rfl,by simp⟩
  · exact ⟨[],rfl,by simp⟩

theorem scanDecimalReach (space) {input rest : List Char} {n : Int} (read : scanDecimal input = some (n,rest)) :
    (rest.takeWhile (reach space)).length + 1 ≤ (input.takeWhile (reach space)).length := by
  obtain ⟨sign,eq,signs⟩ := splitSignUsed input
  unfold scanDecimal at read
  dsimp only at read
  split at read
  · cases read
  · rename_i digits
    cases read
    have signReach : ∀ c ∈ sign, reach space c = true := fun c mem => by
      rcases signs c mem with minus | plus
      · simp [reach,minus]
      · simp [reach,plus]
    have digitReach : ∀ c ∈ (splitSign input).2.takeWhile Char.isDigit, reach space c = true := fun c mem => by
      have digit := List.mem_takeWhile_imp mem
      simp [reach,digit]
    have whole := reachAppend signReach (splitSign input).2
    have behind := reachAppend digitReach ((splitSign input).2.dropWhile Char.isDigit)
    rw [← eq] at whole
    rw [List.takeWhile_append_dropWhile] at behind
    have one := List.length_pos_iff.mpr digits
    omega

theorem scanReach {α : Type} (space other) (numbers : List (α × CType)) (input : List Char) :
    (scan space other (spaced (numbers.map numeric)) input).length ≤
      (input.takeWhile (reach space)).length := by
  induction numbers generalizing input with
  | nil => exact Nat.zero_le _
  | cons first rest ih =>
    have skipped := reachSkips space input
    have again := reachSkips space (input.dropWhile space)
    rw [List.map_cons,scanSpaced]
    cases read : scanDecimal ((input.dropWhile space).dropWhile space) with
    | none =>
      simp only [numeric,Conversion.scan,read,Option.map_none,List.length_nil,Nat.zero_le]
    | some r =>
      have used := scanDecimalReach space read
      have later := ih r.2
      simp only [numeric,Conversion.scan,read,Option.map_some,List.length_cons]
      omega

end PracticeSuite.Scanf
