import Mathlib.Data.List.Sort
import Mathlib.Data.String.Basic
/-!
# Strings as the runtime reads them

A JavaScript string is compared, searched and cut by its UTF-16 code units.
Searching and cutting at an ASCII marker come out the same on characters, so
only the order is stated on code units: it is the one `<=` and `sort()` use.
-/

namespace LainLang.Js

/-- UTF-16 code units of a character. -/
def utf16Units (c : Char) : List ℕ :=
  let n := c.toNat
  if n < 0x10000 then [n] else [0xD800 + (n - 0x10000) / 0x400, 0xDC00 + (n - 0x10000) % 0x400]

/-- The UTF-16 code units of a string. -/
def utf16 (s : String) : List ℕ := s.toList.flatMap utf16Units

/-- `a <= b` on strings. -/
def stringLe (a b : String) : Bool := decide (utf16 a ≤ utf16 b)

/-- `array.sort()` on strings. -/
def sortStrings (l : List String) : List String := l.insertionSort (fun a b => stringLe a b = true)

/-- `s.endsWith(t)`. -/
def endsWith (s t : String) : Bool := t.toList.isSuffixOf s.toList

/-- `s.startsWith(t)`. -/
def startsWith (s t : String) : Bool := t.toList.isPrefixOf s.toList

/-- The first position at which `t` stands in `s`, on characters. -/
def indexOfList (t : List Char) : List Char → Option ℕ
  | [] => if t = [] then some 0 else none
  | c :: s => if t.isPrefixOf (c :: s) then some 0 else (indexOfList t s).map (· + 1)

/-- `s.indexOf(t)`, with `none` for -1. -/
def indexOf (s t : String) : Option ℕ := indexOfList t.toList s.toList

/-- `s.includes(t)`. -/
def includes (s t : String) : Bool := (indexOf s t).isSome

/-- `s.slice(0, n)`. -/
def sliceTo (s : String) (n : ℕ) : String := String.ofList (s.toList.take n)

/-- `s.slice(n)`. -/
def sliceFrom (s : String) (n : ℕ) : String := String.ofList (s.toList.drop n)

/-- `s.slice(0, -n)`. -/
def dropLast (s : String) (n : ℕ) : String := String.ofList (s.toList.take (s.toList.length - n))

/-- The characters `trim` and `\s` know. -/
def isSpace (c : Char) : Bool :=
  let n := c.toNat
  (9 ≤ n && n ≤ 13) || n = 32 || n = 0xA0 || n = 0x1680 || (0x2000 ≤ n && n ≤ 0x200A) || n = 0x2028 || n = 0x2029 ||
    n = 0x202F || n = 0x205F || n = 0x3000 || n = 0xFEFF

/-- `s.trim()`. -/
def trim (s : String) : String :=
  String.ofList (((s.toList.dropWhile isSpace).reverse.dropWhile isSpace).reverse)

/-- `s.split(/\s+/)` of a trimmed string that is not empty. -/
def splitSpaces (s : String) : List String :=
  ((s.toList.splitOnP isSpace).filter (!·.isEmpty)).map String.ofList

/-- The number that a run of digits at the start spells. -/
def digits (cs : List Char) : Option ℤ :=
  let ds := cs.takeWhile Char.isDigit
  if ds = [] then none else some (ds.foldl (fun n d => 10 * n + (d.toNat - 48 : ℕ)) 0)

/-- `parseInt(s, 10)`, with `none` for NaN. -/
def parseInt (s : String) : Option ℤ :=
  match s.toList.dropWhile isSpace with
  | '-' :: cs => (digits cs).map (- ·)
  | '+' :: cs => digits cs
  | cs => digits cs

/-- `s.toLowerCase()` of an ASCII string. -/
def toLowerCase (s : String) : String := String.ofList (s.toList.map Char.toLower)

theorem sortStrings_perm (l : List String) : (sortStrings l).Perm l := List.perm_insertionSort _ l

theorem mem_sortStrings (l : List String) (s : String) : s ∈ sortStrings l ↔ s ∈ l :=
  (sortStrings_perm l).mem_iff

@[simp] theorem utf16_append (s t : String) : utf16 (s ++ t) = utf16 s ++ utf16 t := by simp [utf16]

theorem length_utf16_le (s : String) : (utf16 s).length ≤ s.utf8ByteSize := by
  induction s using String.push_induction with
  | empty => simp [utf16]
  | push s c ih =>
    have hunits : (utf16Units c).length ≤ c.utf8Size := by
      unfold utf16Units Char.utf8Size
      simp only [Char.toNat]
      split_ifs <;> simp_all [UInt32.le_iff_toNat_le]
      omega
    have hpush : utf16 (s.push c) = utf16 s ++ utf16Units c := by simp [utf16]
    rw [hpush, List.length_append, String.utf8ByteSize_push]
    omega

theorem append_left_cancel {a b c : String} (h : a ++ b = a ++ c) : b = c := by
  have := congrArg String.toList h
  simp only [String.toList_append, List.append_cancel_left_eq] at this
  exact String.toList_inj.1 this

/-- A character is told from what follows it. -/
theorem utf16Units_append_inj {c d : Char} {xs ys : List ℕ} (h : utf16Units c ++ xs = utf16Units d ++ ys) :
    c = d ∧ xs = ys := by
  have hc : c.toNat < 0xd800 ∨ 0xdfff < c.toNat ∧ c.toNat < 0x110000 := c.valid
  have hd : d.toNat < 0xd800 ∨ 0xdfff < d.toNat ∧ d.toNat < 0x110000 := d.valid
  unfold utf16Units at h
  dsimp only at h
  split at h <;> split at h <;> simp only [List.cons_append, List.nil_append, List.cons.injEq] at h
  · exact ⟨Char.toNat_inj.1 h.1, h.2⟩
  · omega
  · omega
  · exact ⟨Char.toNat_inj.1 (by omega), h.2.2⟩

theorem utf16_injective : Function.Injective utf16 := by
  intro a b h
  have hlist : ∀ cs ds : List Char, cs.flatMap utf16Units = ds.flatMap utf16Units → cs = ds := by
    intro cs
    induction cs with
    | nil =>
      intro ds hds
      cases ds with
      | nil => rfl
      | cons d ds =>
        rw [List.flatMap_cons] at hds
        unfold utf16Units at hds
        dsimp only at hds
        split at hds <;> simp at hds
    | cons c cs ih =>
      intro ds hds
      cases ds with
      | nil =>
        rw [List.flatMap_cons] at hds
        unfold utf16Units at hds
        dsimp only at hds
        split at hds <;> simp at hds
      | cons d ds =>
        obtain ⟨rfl, htail⟩ := utf16Units_append_inj hds
        rw [ih ds htail]
  exact String.toList_inj.1 (hlist _ _ h)

/-- The order of two different strings. -/
theorem stringLe_eq_not {a b : String} (hne : a ≠ b) : stringLe a b = !stringLe b a := by
  have hunits : utf16 a ≠ utf16 b := fun h => hne (utf16_injective h)
  rcases lt_or_gt_of_ne hunits with h | h
  · simp [stringLe, h.le, h]
  · simp [stringLe, h.le, h]

/-! ## The first `::` -/

/-- Without `::`, and without a colon at the end that could begin one. -/
def NoColons (s : List Char) : Prop := indexOfList [':', ':'] s = none ∧ s.getLast? ≠ some ':'

theorem NoColons.nil : NoColons [] := by simp [NoColons, indexOfList]

theorem startsColons_iff {c d : Char} {s : List Char} :
    [':', ':'].isPrefixOf (c :: d :: s) = true ↔ c = ':' ∧ d = ':' := by
  simp only [List.isPrefixOf_iff_prefix, List.cons_prefix_cons, List.nil_prefix, and_true]
  exact and_congr eq_comm eq_comm

theorem noColons_cons {c : Char} {s : List Char} :
    NoColons (c :: s) ↔ NoColons s ∧ (c = ':' → s.head? ≠ some ':' ∧ s ≠ []) := by
  cases s with
  | nil => simp [NoColons, indexOfList]
  | cons d s =>
    simp only [NoColons, List.getLast?_cons_cons, List.head?_cons]
    rw [indexOfList]
    by_cases hboth : c = ':' ∧ d = ':'
    · simp [hboth.1, hboth.2]
    · rw [if_neg (mt startsColons_iff.1 hboth)]
      have hhead : c = ':' → ¬ d = ':' := fun hc hd => hboth ⟨hc, hd⟩
      simp
      exact fun _ _ => hhead

/-- `::` is found behind what has none. -/
theorem indexOfList_colons {s : List Char} (h : NoColons s) (rest : List Char) :
    indexOfList [':', ':'] (s ++ ':' :: ':' :: rest) = some s.length := by
  induction s with
  | nil => simp [indexOfList]
  | cons c s ih =>
    obtain ⟨htail, hc⟩ := noColons_cons.1 h
    have hno : ¬ [':', ':'].isPrefixOf (c :: (s ++ ':' :: ':' :: rest)) = true := by
      cases s with
      | nil =>
        rw [List.nil_append, startsColons_iff]
        rintro ⟨rfl, -⟩
        exact absurd rfl (hc rfl).2
      | cons d s =>
        rw [List.cons_append, startsColons_iff]
        rintro ⟨rfl, rfl⟩
        exact absurd rfl (hc rfl).1
    rw [List.cons_append, indexOfList, if_neg hno, ih htail]
    rfl

/-- What stands before the first `::` has none. -/
theorem noColons_take {s : List Char} {i : ℕ} (h : indexOfList [':', ':'] s = some i) : NoColons (s.take i) := by
  induction s generalizing i with
  | nil => simp [indexOfList] at h
  | cons c s ih =>
    rw [indexOfList] at h
    split at h
    · cases h
      exact .nil
    · rename_i hno
      obtain ⟨j, hj, rfl⟩ := Option.map_eq_some_iff.1 h
      rw [List.take_succ_cons, noColons_cons]
      refine ⟨ih hj, ?_⟩
      rintro rfl
      cases s with
      | nil => simp [indexOfList] at hj
      | cons d s =>
        have hd : d ≠ ':' := by
          rintro rfl
          simp at hno
        rw [indexOfList] at hj
        split at hj
        · rename_i hpre
          rw [List.isPrefixOf_iff_prefix, List.cons_prefix_cons] at hpre
          exact absurd hpre.1.symm hd
        · obtain ⟨k, -, rfl⟩ := Option.map_eq_some_iff.1 hj
          simp [hd]

/-- Texts that agree agree before and behind the first `::`. -/
theorem colons_append_inj {s t r u : List Char} (hs : NoColons s) (ht : NoColons t)
    (h : s ++ ':' :: ':' :: r = t ++ ':' :: ':' :: u) : s = t ∧ r = u := by
  have hlen : s.length = t.length := by
    have := congrArg (indexOfList [':', ':']) h
    rw [indexOfList_colons hs, indexOfList_colons ht] at this
    exact Option.some.inj this
  obtain ⟨hst, hru⟩ := List.append_inj h hlen
  simp only [List.cons.injEq, true_and] at hru
  exact ⟨hst, hru⟩

end LainLang.Js
