/-!
# Decimal numerals

Natural numbers are written with ASCII digits, without leading zeros. Reading accepts any number
of leading zeros and checks the value against a bound. The reader inverts the writer.
-/
namespace ApiAtlas.Decimal

def digitChar (d : Nat) : Char := Char.ofNat (48 + d)

def digitValue (c : Char) : Nat := c.toNat - 48

def isDigit (c : Char) : Bool := decide (48 ≤ c.toNat) && decide (c.toNat ≤ 57)

/-- The digits of a number, most significant first. -/
def digits (n : Nat) : List Char :=
  if n < 10 then [digitChar n] else digits (n / 10) ++ [digitChar (n % 10)]
termination_by n
decreasing_by omega

def numeral (n : Nat) : String := String.ofList (digits n)

def valueOf (cs : List Char) : Nat := cs.foldl (fun n c => 10 * n + digitValue c) 0

/-- Numeral of an integer; a minus sign stands in front of a negative one. -/
def intNumeral : Int → String
  | .ofNat n => numeral n
  | .negSucc n => "-" ++ numeral (n + 1)

/-- Why a run of digits is no number of the wanted range. -/
inductive NumeralError where
  | empty
  | tooLarge
  deriving DecidableEq, Repr

def NumeralError.message : NumeralError → String
  | .empty => "cannot parse integer from empty string"
  | .tooLarge => "number too large to fit in target type"

/-- The value of a run of digits that holds at least one and stays below the bound. -/
def readBelow (bound : Nat) (cs : List Char) : Except NumeralError Nat :=
  if cs.isEmpty then .error .empty
  else if valueOf cs < bound then .ok (valueOf cs)
  else .error .tooLarge

/-- One more than the greatest value of a 64-bit word. -/
def wordBound : Nat := Nat.pow 2 64

/-- Whether a text is a word-sized index: digits, with an optional plus sign in front. -/
def isIndex (text : String) : Bool :=
  let body := match text.toList with
    | '+' :: rest => rest
    | cs => cs
  !body.isEmpty && body.all isDigit && decide (valueOf body < wordBound)

theorem digitValue_digitChar {d : Nat} (h : d < 10) : digitValue (digitChar d) = d := by
  have all : ∀ d : Fin 10, digitValue (digitChar d) = d := by decide
  exact all ⟨d, h⟩

theorem isDigit_digitChar {d : Nat} (h : d < 10) : isDigit (digitChar d) = true := by
  have all : ∀ d : Fin 10, isDigit (digitChar d) = true := by decide
  exact all ⟨d, h⟩

/-- Reading the digits of a number gives it back. -/
theorem valueOf_digits (n : Nat) : valueOf (digits n) = n := by
  induction n using Nat.strongRecOn with
  | ind n ih =>
      rw [digits]
      split
      · next h => simp [valueOf, digitValue_digitChar h]
      · next h =>
          have hd : n % 10 < 10 := Nat.mod_lt _ (by decide)
          have ih' := ih (n / 10) (by omega)
          simp only [valueOf, List.foldl_append, List.foldl_cons, List.foldl_nil] at ih' ⊢
          rw [ih', digitValue_digitChar hd]
          omega

theorem digits_ne_nil (n : Nat) : digits n ≠ [] := by
  rw [digits]; split <;> simp

theorem all_isDigit_digits (n : Nat) : ∀ c ∈ digits n, isDigit c = true := by
  induction n using Nat.strongRecOn with
  | ind n ih =>
      rw [digits]
      split
      · next h => intro c hc; simp at hc; subst hc; exact isDigit_digitChar h
      · next h =>
          intro c hc
          rcases List.mem_append.1 hc with hc | hc
          · exact ih (n / 10) (by omega) c hc
          · simp at hc; subst hc; exact isDigit_digitChar (Nat.mod_lt _ (by decide))

/-- Different numbers have different numerals. -/
theorem numeral_inj {m n : Nat} (h : numeral m = numeral n) : m = n := by
  have h' := congrArg String.toList h
  simp only [numeral, String.toList_ofList] at h'
  rw [← valueOf_digits m, ← valueOf_digits n, h']

end ApiAtlas.Decimal
