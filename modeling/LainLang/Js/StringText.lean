import LainLang.Js.Json
import LainLang.Lib.Codes
import Mathlib.Tactic.IntervalCases
/-!
# Strings and their texts

The text of a string is read back: a backslash starts an escape, and the first
quote that none starts ends the text.
-/
open LainLang.Lib

namespace LainLang.Js

/-! ## Reading an escape -/

/-- The number of a hexadecimal digit. -/
def hexValue (c : Char) : ℕ := if c.toNat < 58 then c.toNat - 48 else c.toNat - 87

/-- The character that stands for an escape, behind its backslash. -/
def readEscape (c : Char) (rest : List Char) : Char × List Char :=
  if c = 'b' then (Char.ofNat 8, rest)
  else if c = 't' then (Char.ofNat 9, rest)
  else if c = 'n' then (Char.ofNat 10, rest)
  else if c = 'f' then (Char.ofNat 12, rest)
  else if c = 'r' then (Char.ofNat 13, rest)
  else if c = 'u' then (Char.ofNat (16 * hexValue (rest.getD 2 ' ') + hexValue (rest.getD 3 ' ')), rest.drop 4)
  else (c, rest)

/-- The first character of a string's text, and what follows. -/
def readChar : List Char → Option (Char × List Char)
  | [] => none
  | c :: rest => if c = '\\' then rest.head?.map (readEscape · rest.tail) else some (c, rest)

theorem hexValue_hexDigit {n : ℕ} (h : n < 16) : hexValue (hexDigit n) = n := by
  interval_cases n <;> rfl

theorem readChar_escapeChar (c : Char) (rest : List Char) : readChar (escapeChar c ++ rest) = some (c, rest) := by
  have hcode : ∀ n, c.toNat = n → Char.ofNat n = c := fun n h => h ▸ Char.ofNat_toNat c
  unfold escapeChar
  split_ifs with h1 h2 h3 h4 h5 h6 h7 h8
  · rw [h1]; rfl
  · rw [h2]; rfl
  · rw [← hcode _ h3]; rfl
  · rw [← hcode _ h4]; rfl
  · rw [← hcode _ h5]; rfl
  · rw [← hcode _ h6]; rfl
  · rw [← hcode _ h7]; rfl
  · -- Another control character: its two hexadecimal digits give its code.
    have hvalue : 16 * hexValue (hexDigit (c.toNat / 16)) + hexValue (hexDigit (c.toNat % 16)) = c.toNat := by
      rw [hexValue_hexDigit (by omega), hexValue_hexDigit (by omega)]
      omega
    have hread : readChar ('\\' :: 'u' :: '0' :: '0' :: hexDigit (c.toNat / 16) :: hexDigit (c.toNat % 16) :: rest) =
        some (Char.ofNat (16 * hexValue (hexDigit (c.toNat / 16)) + hexValue (hexDigit (c.toNat % 16))), rest) := rfl
    rw [hvalue, Char.ofNat_toNat] at hread
    exact hread
  · simp [readChar, h2]

theorem opens_escapeChar (c : Char) : Opens escapeChar '"' c := by
  unfold Opens escapeChar
  split_ifs with h1
  iterate 8 exact ⟨'\\', rfl, by decide⟩
  exact ⟨c, rfl, h1⟩

/-- A string is told by its text from whatever follows. -/
theorem quoteString_inj {a b : String} {r s : List Char} (h : (quoteString a).toList ++ r = (quoteString b).toList ++ s) :
    a = b ∧ r = s := by
  have htext : ∀ (t : String) (l : List Char),
      (quoteString t).toList ++ l = '"' :: (t.toList.flatMap escapeChar ++ '"' :: l) := by
    intro t l
    simp [quoteString]
  rw [htext, htext] at h
  -- The escapes of two characters are told apart by reading one of them.
  have htold : ∀ c d : Char, ToldApart (fun _ => True) escapeChar Eq c d := by
    intro c d l m _ _ hcd
    have hread := readChar_escapeChar c l
    rw [hcd, readChar_escapeChar] at hread
    have hpair := Option.some.inj hread
    exact ⟨(Prod.mk.inj hpair).1.symm, (Prod.mk.inj hpair).2.symm⟩
  obtain ⟨hchars, hrest⟩ := flatMap_inj (fun c _ => opens_escapeChar c) (fun c _ => opens_escapeChar c)
    (fun c _ d _ => htold c d) (List.cons.inj h).2
  rw [List.forall₂_eq_eq_eq] at hchars
  exact ⟨String.toList_inj.1 hchars, hrest⟩

end LainLang.Js
