import LainLang.Compiler.Unfold
import LainLang.Lib.Parse
import LainLang.Js.NumberText
/-!
# Reading expressions

The alternatives of `parseExpr` overlap: digits, `#` and quotes are symbol
characters as well, so an atom is what the alternatives before it refuse. The
combinators are those of parse-combinator, assumed to do what `Lib.Parse` says:
a choice gives each alternative the same text.
-/
open LainLang.Lib LainLang.Js
open LainLang.Lib.Parser

namespace LainLang.Compiler

/-! ## Numbers -/

/-- The natural number with the fewest digits that is rounded to the double `x`:
a multiple of the highest power of ten up to `k`, the nearer one if there are two. -/
def shortest (x : ℕ) : ℕ → ℕ
  | 0 => x
  | k + 1 =>
    let unit := 10 ^ (k + 1)
    let below := x / unit * unit
    let above := below + unit
    let nearer := x - below < above - x ∨ x - below = above - x ∧ x / unit % 2 = 0
    if roundDouble below = x ∧ (nearer ∨ roundDouble above ≠ x) then below
    else if roundDouble above = x then above
    else shortest x k

/-- `Number(digits)`. -/
def Number (digits : List Char) : JsNumber :=
  let x := (roundDouble (Nat.ofDigitChars 10 digits 0)).toNat
  if x.log2 < 1024 then .ofNat (shortest x (Nat.toDigits 10 x).length) else .infinity false

/-- Only the number itself is rounded to a number below `2 ^ 53`. -/
theorem eq_of_roundDouble {m x : ℕ} (hx : x < 2 ^ 53) (h : roundDouble m = x) : m = x := by
  by_cases hm : m < 2 ^ 53
  · rw [roundDouble_of_lt (by simpa using hm)] at h
    exact_mod_cast h
  · -- Any other number is rounded to a multiple that is no smaller than `2 ^ 53`.
    have hge : 53 ≤ m.log2 := (Nat.le_log2 (by omega)).2 (by omega)
    have hle : 2 ^ 52 * 2 ^ (m.log2 - 52) ≤ m := by
      rw [← pow_add, Nat.add_sub_cancel' (by omega)]
      exact Nat.log2_self_le (by omega)
    have hquot : 2 ^ 52 ≤ m / 2 ^ (m.log2 - 52) := (Nat.le_div_iff_mul_le (by positivity)).2 hle
    have htwo : 2 ^ 1 ≤ 2 ^ (m.log2 - 52) := Nat.pow_le_pow_right (by decide) (by omega)
    have hlow : 2 ^ 53 ≤ m / 2 ^ (m.log2 - 52) * 2 ^ (m.log2 - 52) := Nat.mul_le_mul hquot htwo
    have hup := Nat.mul_le_mul_right (2 ^ (m.log2 - 52)) (Nat.le_succ (m / 2 ^ (m.log2 - 52)))
    have hsign : (m : ℤ).sign = 1 := Int.sign_eq_one_of_pos (by omega)
    rw [roundDouble, hsign, one_mul, Int.natAbs_natCast] at h
    split at h
    · exact absurd (by exact_mod_cast h) (hx.trans_le hlow).ne'
    · exact absurd (by exact_mod_cast h) (hx.trans_le (hlow.trans hup)).ne'

theorem shortest_of_lt {x : ℕ} (hx : x < 2 ^ 53) (k : ℕ) : shortest x k = x := by
  induction k with
  | zero => rfl
  | succ k ih =>
    rw [shortest]
    split
    · rename_i h
      exact eq_of_roundDouble hx (by exact_mod_cast h.1)
    split
    · rename_i h
      exact eq_of_roundDouble hx (by exact_mod_cast h)
    · exact ih

theorem Number_of_lt {digits : List Char} (h : Nat.ofDigitChars 10 digits 0 < 2 ^ 53) :
    Number digits = .ofNat (Nat.ofDigitChars 10 digits 0) := by
  have hround : roundDouble (Nat.ofDigitChars 10 digits 0) = Nat.ofDigitChars 10 digits 0 :=
    roundDouble_of_lt (by simpa using h)
  have hlog : (Nat.ofDigitChars 10 digits 0).log2 < 1024 := by
    rcases Nat.eq_zero_or_pos (Nat.ofDigitChars 10 digits 0) with h0 | hpos
    · simp [h0]
    · exact ((Nat.log2_lt hpos.ne').2 h).trans (by decide)
  rw [Number, hround, Int.toNat_natCast, if_pos hlog, shortest_of_lt h]

/-! ## The grammar's parsers -/

/-- The character classes of the parser library. -/
structure Alphabet where
  letter : Char → Bool
  digit : Char → Bool
  digit_eq : ∀ c, digit c = c.isDigit
  letter_ne : ∀ c, letter c = true → c ∉ ['(', ')', '\'', ' ', '\t', '\r', '\n']

/-- The letters and digits of ASCII. -/
def Alphabet.ascii : Alphabet where
  letter := Char.isAlpha
  digit := Char.isDigit
  digit_eq _ := rfl
  letter_ne c h hmem := by
    simp only [List.mem_cons, List.not_mem_nil, or_false] at hmem
    rcases hmem with rfl | rfl | rfl | rfl | rfl | rfl | rfl <;> exact absurd h (by decide)

/-- The parser of one character. -/
def char (c : Char) : Parser Char Char := satisfy (· == c)

/-- The parser of one of the characters. -/
def oneOf (chars : String) : Parser Char Char := satisfy fun c => chars.toList.contains c

/-- The parser of any other character. -/
def noneOf (chars : String) : Parser Char Char := satisfy fun c => !chars.toList.contains c

/-- An element of type `String`. -/
def lainStr (val : String) : LainExpr := .element .string (.str val)

/-- An element of type `Number`. -/
def lainNumber (val : JsNumber) : LainExpr := .element .number (.num val)

/-- An element of type `Boolean`. -/
def lainBoolean (val : Bool) : LainExpr := .element .boolean (.bool val)

/-- An element of type `Symbol`. -/
def lainSymbol (val : String) : LainExpr := lain_symbol val

/-- The characters of `symbol`, the double quote among them. -/
def symbolChars : String := "!#$%&|*+-/:<=>?@^_~\""

/-- The parser of one symbol character. -/
def symbol : Parser Char Char := oneOf symbolChars

/-- The characters of `space`. -/
def spaceChars : String := "\t\r\n "

/-- The parser of one space. -/
def space : Parser Char Char := oneOf spaceChars

/-- One space or more. -/
def spaces : Parser Char Unit := skipMany1 space

/-- A string ends at the next quote; nothing is escaped. -/
def parseString : Parser Char LainExpr := do
  let _ ← char '"'
  let x ← many (noneOf "\"")
  let _ ← char '"'
  return lainStr (String.ofList x)

/-- `#t` or `#f`. -/
def parseBoolean : Parser Char LainExpr := do
  let _ ← char '#'
  let rest ← choice [char 't', char 'f']
  return if rest = 't' then lainBoolean true else lainBoolean false

variable (A : Alphabet)

/-- Letters, symbol characters and digits, in any order. -/
def parseAtom : Parser Char LainExpr := do
  let all ← many1 (choice [satisfy A.letter, symbol, satisfy A.digit])
  return lainSymbol (String.ofList all)

/-- Digits. -/
def parseNumber : Parser Char LainExpr := do
  let x ← many1 (satisfy A.digit)
  return lainNumber (Number x)

/-- A list behind the quote is spliced into the quoted list. -/
def quoted : LainExpr → LainExpr
  | .list items => .list (lainSymbol "quote" :: items)
  | x => .list [lainSymbol "quote", x]

/-- A quote and an expression. -/
def parseQuoted (parseExpr : Parser Char LainExpr) : Parser Char LainExpr := do
  let _ ← char '\''
  let x ← parseExpr
  return quoted x

/-- Expressions with spaces between them, in parentheses. -/
def parseList (parseExpr : Parser Char LainExpr) : Parser Char LainExpr := do
  let _ ← char '('
  let x ← sepBy parseExpr spaces
  let _ ← char ')'
  return .list x

/-- At most `n` brackets and quotes deep. -/
def parseExprUpto : ℕ → Parser Char LainExpr
  | 0 => fun _ => none
  | n + 1 =>
    choice [parseNumber A, parseBoolean, parseString, parseAtom A, parseQuoted (parseExprUpto n),
      parseList (parseExprUpto n)]

/-- Every bracket and every quote takes a character. -/
def parseExpr : Parser Char LainExpr := fun s => parseExprUpto A (s.length + 1) s

end LainLang.Compiler
