import LainLang.Js.Text
import Mathlib.Data.Nat.Digits.Defs
import Mathlib.Tactic.Positivity
/-!
# JSON values

Numbers are kept as the decimal that `Number.prototype.toString` prints, which
determines a double; `-0` and `0` are two numbers.
-/

namespace LainLang.Js

/-- `± mantissa * 10 ^ exponent`, with no trailing zero in the mantissa. -/
structure Decimal where
  negative : Bool
  mantissa : ℕ
  exponent : ℤ
  canonical : mantissa % 10 ≠ 0 ∨ mantissa = 0 ∧ exponent = 0
  deriving DecidableEq

/-- A number: a decimal, NaN or an infinity. -/
inductive JsNumber where
  | nan
  | infinity (negative : Bool)
  | finite (d : Decimal)
  deriving DecidableEq

/-- What `JSON.stringify` is given. -/
inductive Json where
  | null
  | bool (b : Bool)
  | num (n : JsNumber)
  | str (s : String)
  | arr (items : List Json)
  | obj (fields : List (String × Json))

/-! ## Natural numbers as doubles -/

/-- The zeros a number ends with, if there are at most `fuel`. -/
def trailingZeros : ℕ → ℕ → ℕ
  | 0, _ => 0
  | fuel + 1, n => if n % 10 = 0 then trailingZeros fuel (n / 10) + 1 else 0

theorem trailingZeros_spec {fuel n : ℕ} (hn : 0 < n) (hfuel : n ≤ fuel) :
    ∃ m, n = m * 10 ^ trailingZeros fuel n ∧ m % 10 ≠ 0 := by
  induction fuel generalizing n with
  | zero => omega
  | succ fuel ih =>
    by_cases h : n % 10 = 0
    · obtain ⟨m, hm, hm0⟩ := ih (n := n / 10) (by omega) (by omega)
      refine ⟨m, ?_, hm0⟩
      rw [trailingZeros, if_pos h, pow_succ, ← mul_assoc, ← hm]
      omega
    · exact ⟨n, by simp [trailingZeros, h], h⟩

theorem div_trailingZeros {n : ℕ} (hn : 0 < n) :
    n / 10 ^ trailingZeros n n * 10 ^ trailingZeros n n = n ∧ n / 10 ^ trailingZeros n n % 10 ≠ 0 := by
  obtain ⟨m, hm, hm0⟩ := trailingZeros_spec hn le_rfl
  have hdiv : n / 10 ^ trailingZeros n n = m := Nat.div_eq_of_eq_mul_left (by positivity) hm
  rw [hdiv]
  exact ⟨hm.symm, hm0⟩

/-- A natural number, its trailing zeros in the exponent. -/
def Decimal.ofNat (n : ℕ) : Decimal where
  negative := false
  mantissa := n / 10 ^ trailingZeros n n
  exponent := if n = 0 then 0 else trailingZeros n n
  canonical := by
    by_cases h : n = 0
    · simp [h]
    · exact .inl (div_trailingZeros (Nat.pos_of_ne_zero h)).2

theorem Decimal.eq_zero_of_mantissa {n : ℕ} (h : (Decimal.ofNat n).mantissa = 0) : n = 0 := by
  by_contra hn
  have := (div_trailingZeros (Nat.pos_of_ne_zero hn)).2
  simp only [Decimal.ofNat] at h
  simp [h] at this

theorem Decimal.ofNat_injective {m n : ℕ} (h : Decimal.ofNat m = Decimal.ofNat n) : m = n := by
  have hm : (Decimal.ofNat m).mantissa = (Decimal.ofNat n).mantissa := by rw [h]
  have he : (Decimal.ofNat m).exponent = (Decimal.ofNat n).exponent := by rw [h]
  rcases Nat.eq_zero_or_pos m with rfl | hmpos
  · exact (eq_zero_of_mantissa (hm.symm.trans (by simp [Decimal.ofNat]))).symm
  · rcases Nat.eq_zero_or_pos n with rfl | hnpos
    · exact eq_zero_of_mantissa (hm.trans (by simp [Decimal.ofNat]))
    · simp only [Decimal.ofNat, Nat.pos_iff_ne_zero.1 hmpos, Nat.pos_iff_ne_zero.1 hnpos, if_false, Int.natCast_inj] at hm he
      rw [← (div_trailingZeros hmpos).1, ← (div_trailingZeros hnpos).1, hm, he]

/-- A natural number as a number of the language. -/
def JsNumber.ofNat (n : ℕ) : JsNumber := .finite (.ofNat n)

/-! ## Printing numbers -/

/-- The text of so many zeros. -/
def zeros (n : ℕ) : List Char := List.replicate n '0'

/-- The digits of a decimal without its sign: `Number::toString` on `k` digits
with the point after digit `n`. -/
def placePoint (digits : List Char) (n : ℤ) : List Char :=
  let k := digits.length
  if (k : ℤ) ≤ n ∧ n ≤ 21 then digits ++ zeros (n - k).toNat
  else if 0 < n ∧ n ≤ 21 then digits.take n.toNat ++ '.' :: digits.drop n.toNat
  else if -6 < n ∧ n ≤ 0 then '0' :: '.' :: (zeros (-n).toNat ++ digits)
  else
    let sign := if n - 1 < 0 then '-' else '+'
    let fraction := if k = 1 then [] else '.' :: digits.drop 1
    digits.take 1 ++ fraction ++ 'e' :: sign :: Nat.toDigits 10 (n - 1).natAbs

/-- `Number::toString` of a finite number, by the position of its point. -/
def Decimal.text (d : Decimal) : List Char :=
  if d.mantissa = 0 then ['0']
  else
    let digits := Nat.toDigits 10 d.mantissa
    (if d.negative then ['-'] else []) ++ placePoint digits (digits.length + d.exponent)

/-- `String(n)`. -/
def JsNumber.toText : JsNumber → String
  | .nan => "NaN"
  | .infinity negative => if negative then "-Infinity" else "Infinity"
  | .finite d => String.ofList d.text

/-! ## `JSON.stringify` -/

/-- The digit of a number below 16. -/
def hexDigit (n : ℕ) : Char := if n < 10 then Char.ofNat (48 + n) else Char.ofNat (87 + n)

/-- A character as it stands in quotes. -/
def escapeChar (c : Char) : List Char :=
  if c = '"' then ['\\', '"']
  else if c = '\\' then ['\\', '\\']
  else if c.toNat = 8 then ['\\', 'b']
  else if c.toNat = 9 then ['\\', 't']
  else if c.toNat = 10 then ['\\', 'n']
  else if c.toNat = 12 then ['\\', 'f']
  else if c.toNat = 13 then ['\\', 'r']
  else if c.toNat < 32 then ['\\', 'u', '0', '0', hexDigit (c.toNat / 16), hexDigit (c.toNat % 16)]
  else [c]

/-- `JSON.stringify` of a string. -/
def quoteString (s : String) : String := "\"" ++ String.ofList (s.toList.flatMap escapeChar) ++ "\""

mutual

/-- `JSON.stringify(value)` on a JSON value. -/
def stringify : Json → String
  | .null => "null"
  | .bool b => if b then "true" else "false"
  | .num (.finite d) => (JsNumber.finite d).toText
  | .num _ => "null"
  | .str s => quoteString s
  | .arr items => "[" ++ ",".intercalate (stringifyItems items) ++ "]"
  | .obj fields => "\x7b" ++ ",".intercalate (stringifyFields fields) ++ "\x7d"

/-- The items of an array, each as its text. -/
def stringifyItems : List Json → List String
  | [] => []
  | x :: xs => stringify x :: stringifyItems xs

/-- The fields of an object, each as its key and its text. -/
def stringifyFields : List (String × Json) → List String
  | [] => []
  | (k, v) :: fs => (quoteString k ++ ":" ++ stringify v) :: stringifyFields fs

end

/-- `obj[key]`, with `none` for `undefined`. -/
def property (fields : List (String × V)) (key : String) : Option V :=
  (fields.find? (fun f => f.1 = key)).map Prod.snd

/-- `a ?? b`. -/
def orElseNullish (a b : Option Json) : Option Json :=
  match a with
  | none => b
  | some .null => b
  | some v => some v

example : stringify (.obj [("a", .arr [.num (.finite ⟨true, 15, -1, by decide⟩), .null]), ("b", .str "\"\n")]) =
    "\x7b\"a\":[-1.5,null],\"b\":\"\\\"\\n\"\x7d" := by decide

end LainLang.Js
