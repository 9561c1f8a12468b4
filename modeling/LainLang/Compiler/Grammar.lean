import LainLang.Compiler.Parser
/-!
# What `parseExpr` reads

The alternatives of the parser as rules, each with what the others before it
refuse, and the two shown to agree.
-/
open LainLang.Lib LainLang.Js
open LainLang.Lib.Parser

namespace LainLang.Compiler

variable (A : Alphabet)

/-- A character of `parseAtom`. -/
def Alphabet.AtomChar (c : Char) : Prop := A.letter c = true ∨ c ∈ symbolChars.toList ∨ A.digit c = true

instance (c : Char) : Decidable (A.AtomChar c) := inferInstanceAs (Decidable (_ ∨ _ ∨ _))

/-- A character of `space`. -/
def Space (c : Char) : Prop := c ∈ spaceChars.toList

/-- What no alternative before `parseAtom` takes. -/
structure Refused (s : List Char) : Prop where
  number : ∀ c ∈ s.head?, A.digit c = false
  boolean : ∀ rest, s ≠ '#' :: 't' :: rest ∧ s ≠ '#' :: 'f' :: rest
  string : ∀ rest, s = '"' :: rest → '"' ∉ rest

/-- An expression, the items of a list up to its bracket, and those behind the first. -/
inductive Form where
  | expr | items | more

/-- The texts of a form, what they read as and what is left behind them. -/
inductive Derives : Form → List Char → List LainExpr → List Char → Prop where
  | number {digits rest : List Char} (hne : digits ≠ []) (hdigits : ∀ c ∈ digits, A.digit c = true)
      (hstop : Stops (fun c => A.digit c = false) rest) :
      Derives .expr (digits ++ rest) [lainNumber (Number digits)] rest
  | true_ (rest : List Char) : Derives .expr ('#' :: 't' :: rest) [lainBoolean true] rest
  | false_ (rest : List Char) : Derives .expr ('#' :: 'f' :: rest) [lainBoolean false] rest
  | string {x : List Char} (hx : '"' ∉ x) (rest : List Char) :
      Derives .expr ('"' :: (x ++ '"' :: rest)) [lainStr (String.ofList x)] rest
  | atom {all rest : List Char} (hne : all ≠ []) (hall : ∀ c ∈ all, A.AtomChar c)
      (hstop : Stops (fun c => ¬A.AtomChar c) rest) (hrefused : Refused A (all ++ rest)) :
      Derives .expr (all ++ rest) [lainSymbol (String.ofList all)] rest
  | quoted {s rest : List Char} {x : LainExpr} (h : Derives .expr s [x] rest) :
      Derives .expr ('\'' :: s) [quoted x] rest
  | list {s rest : List Char} {xs : List LainExpr} (h : Derives .items s xs rest) :
      Derives .expr ('(' :: s) [.list xs] rest
  | empty (rest : List Char) : Derives .items (')' :: rest) [] rest
  | items {s s' rest : List Char} {x : LainExpr} {xs : List LainExpr} (hx : Derives .expr s [x] s')
      (hxs : Derives .more s' xs rest) : Derives .items s (x :: xs) rest
  | close (rest : List Char) : Derives .more (')' :: rest) [] rest
  | more {blanks s s' rest : List Char} {x : LainExpr} {xs : List LainExpr} (hne : blanks ≠ [])
      (hblanks : ∀ c ∈ blanks, Space c) (hx : Derives .expr s [x] s') (hxs : Derives .more s' xs rest) :
      Derives .more (blanks ++ s) (x :: xs) rest

variable {A}

/-! ## The parsers of the alternatives -/

theorem char_eq_some {c d : Char} {s rest : List Char} : char c s = some (d, rest) ↔ s = c :: rest ∧ d = c := by
  rw [char, satisfy_eq_some]
  constructor
  · rintro ⟨rfl, h⟩
    obtain rfl := eq_of_beq h
    exact ⟨rfl, rfl⟩
  · rintro ⟨rfl, rfl⟩
    exact ⟨rfl, beq_self_eq_true _⟩

/-- A parser that reads `c` first. -/
theorem char_bind_eq_some {α : Type} {c : Char} {f : Char → Parser Char α} {s rest : List Char} {y : α} :
    (char c >>= f) s = some (y, rest) ↔ ∃ s', s = c :: s' ∧ f c s' = some (y, rest) := by
  rw [bind_eq_some]
  constructor
  · rintro ⟨d, s', hd, h⟩
    obtain ⟨rfl, rfl⟩ := char_eq_some.1 hd
    exact ⟨s', rfl, h⟩
  · rintro ⟨s', rfl, h⟩
    exact ⟨c, s', char_eq_some.2 ⟨rfl, rfl⟩, h⟩

theorem parseNumber_eq_some {s rest : List Char} {e : LainExpr} :
    parseNumber A s = some (e, rest) ↔ ∃ digits, s = digits ++ rest ∧ digits ≠ [] ∧
      (∀ c ∈ digits, A.digit c = true) ∧ Stops (fun c => A.digit c = false) rest ∧ e = lainNumber (Number digits) := by
  rw [parseNumber, bind_eq_some]
  constructor
  · rintro ⟨digits, s', hdigits, h⟩
    cases h
    obtain ⟨rfl, hne, hall, hstop⟩ := many1_satisfy_eq_some.1 hdigits
    exact ⟨digits, rfl, hne, hall, hstop, rfl⟩
  · rintro ⟨digits, rfl, hne, hall, hstop, rfl⟩
    exact ⟨digits, rest, many1_satisfy_eq_some.2 ⟨rfl, hne, hall, hstop⟩, rfl⟩

theorem parseBoolean_eq_some {s rest : List Char} {e : LainExpr} :
    parseBoolean s = some (e, rest) ↔
      s = '#' :: 't' :: rest ∧ e = lainBoolean true ∨ s = '#' :: 'f' :: rest ∧ e = lainBoolean false := by
  rw [parseBoolean, char_bind_eq_some]
  constructor
  · rintro ⟨s', rfl, h⟩
    obtain ⟨d, s'', hd, h⟩ := bind_eq_some.1 h
    cases h
    rcases Option.or_eq_some_iff.1 hd with ht | ⟨-, hd⟩
    · obtain ⟨rfl, rfl⟩ := char_eq_some.1 ht
      exact .inl ⟨rfl, rfl⟩
    · rcases Option.or_eq_some_iff.1 hd with hf | ⟨-, hnone⟩
      · obtain ⟨rfl, rfl⟩ := char_eq_some.1 hf
        exact .inr ⟨rfl, rfl⟩
      · cases hnone
  · rintro (⟨rfl, rfl⟩ | ⟨rfl, rfl⟩)
    · exact ⟨'t' :: rest, rfl, rfl⟩
    · exact ⟨'f' :: rest, rfl, rfl⟩

theorem parseString_eq_some {s rest : List Char} {e : LainExpr} :
    parseString s = some (e, rest) ↔
      ∃ x, s = '"' :: (x ++ '"' :: rest) ∧ '"' ∉ x ∧ e = lainStr (String.ofList x) := by
  have hchar : ∀ c, (!"\"".toList.contains c) = true ↔ c ≠ '"' := by simp
  rw [parseString, char_bind_eq_some]
  constructor
  · rintro ⟨s', rfl, h⟩
    obtain ⟨x, s'', hx, h⟩ := bind_eq_some.1 h
    obtain ⟨t, rfl, h⟩ := char_bind_eq_some.1 h
    cases h
    obtain ⟨rfl, hall, -⟩ := many_satisfy_eq_some.1 hx
    exact ⟨x, rfl, fun hmem => (hchar _).1 (hall _ hmem) rfl, rfl⟩
  · rintro ⟨x, rfl, hx, rfl⟩
    have hall : ∀ c ∈ x, (!"\"".toList.contains c) = true := fun c hc => (hchar c).2 fun h => hx (h ▸ hc)
    have hstop : Stops (fun c => (!"\"".toList.contains c) = false) ('"' :: rest) :=
      .cons (by simp) rest
    exact ⟨_, rfl, bind_eq_some.2 ⟨x, '"' :: rest, many_satisfy_eq_some.2 ⟨rfl, hall, hstop⟩,
      char_bind_eq_some.2 ⟨rest, rfl, rfl⟩⟩⟩

/-- `parseAtom` repeats one character class. -/
def Alphabet.atomChar (A : Alphabet) (c : Char) : Bool :=
  [A.letter, fun c => symbolChars.toList.contains c, A.digit].any fun f => f c

theorem atomChar_iff {c : Char} : A.atomChar c = true ↔ A.AtomChar c := by
  simp [Alphabet.atomChar, Alphabet.AtomChar]

theorem parseAtom_eq_some {s rest : List Char} {e : LainExpr} :
    parseAtom A s = some (e, rest) ↔ ∃ all, s = all ++ rest ∧ all ≠ [] ∧ (∀ c ∈ all, A.AtomChar c) ∧
      Stops (fun c => ¬A.AtomChar c) rest ∧ e = lainSymbol (String.ofList all) := by
  have hclass : choice [satisfy A.letter, symbol, satisfy A.digit] = satisfy A.atomChar :=
    choice_satisfy [A.letter, fun c => symbolChars.toList.contains c, A.digit]
  have hmany : ∀ {all}, many1 (satisfy A.atomChar) s = some (all, rest) ↔ s = all ++ rest ∧ all ≠ [] ∧
      (∀ c ∈ all, A.AtomChar c) ∧ Stops (fun c => ¬A.AtomChar c) rest := by
    intro all
    simp only [many1_satisfy_eq_some, ← atomChar_iff, Bool.not_eq_true]
  rw [parseAtom, hclass, bind_eq_some]
  constructor
  · rintro ⟨all, s', hall, h⟩
    cases h
    obtain ⟨rfl, hne, hchars, hstop⟩ := hmany.1 hall
    exact ⟨all, rfl, hne, hchars, hstop, rfl⟩
  · rintro ⟨all, hs, hne, hchars, hstop, rfl⟩
    exact ⟨all, rest, hmany.2 ⟨hs, hne, hchars, hstop⟩, rfl⟩

variable {p : Parser Char LainExpr}

theorem parseQuoted_eq_some {s rest : List Char} {e : LainExpr} :
    parseQuoted p s = some (e, rest) ↔ ∃ s' x, s = '\'' :: s' ∧ p s' = some (x, rest) ∧ e = quoted x := by
  rw [parseQuoted, char_bind_eq_some]
  constructor
  · rintro ⟨s', rfl, h⟩
    obtain ⟨x, s'', hx, h⟩ := bind_eq_some.1 h
    cases h
    exact ⟨s', x, rfl, hx, rfl⟩
  · rintro ⟨s', x, rfl, hx, rfl⟩
    exact ⟨s', rfl, bind_eq_some.2 ⟨x, rest, hx, rfl⟩⟩

theorem parseList_eq_some {s rest : List Char} {e : LainExpr} :
    parseList p s = some (e, rest) ↔
      ∃ s' xs, s = '(' :: s' ∧ sepBy p spaces s' = some (xs, ')' :: rest) ∧ e = .list xs := by
  rw [parseList, char_bind_eq_some]
  constructor
  · rintro ⟨s', rfl, h⟩
    obtain ⟨xs, s'', hxs, h⟩ := bind_eq_some.1 h
    obtain ⟨t, rfl, h⟩ := char_bind_eq_some.1 h
    cases h
    exact ⟨s', xs, rfl, hxs, rfl⟩
  · rintro ⟨s', xs, rfl, hxs, rfl⟩
    exact ⟨s', rfl, bind_eq_some.2 ⟨xs, ')' :: rest, hxs, char_bind_eq_some.2 ⟨rest, rfl, rfl⟩⟩⟩

/-! ## The rules and the parsers agree -/

theorem parseNumber_eq_none {s : List Char} : parseNumber A s = none ↔ ∀ c ∈ s.head?, A.digit c = false := by
  constructor
  · intro h c hc
    by_contra hdigit
    obtain ⟨cs, rfl⟩ := List.head?_eq_some_iff.1 hc
    have hsome : parseNumber A (c :: cs) = some (_, (c :: cs).dropWhile A.digit) :=
      parseNumber_eq_some.2 ⟨(c :: cs).takeWhile A.digit, List.takeWhile_append_dropWhile.symm,
        by rw [List.takeWhile_cons_of_pos (by simpa using hdigit)]; simp,
        fun _ hd => List.mem_takeWhile_imp hd, stops_dropWhile _ _, rfl⟩
    exact absurd (h.symm.trans hsome) nofun
  · intro h
    exact ((Begins.satisfy A.digit).many1.bind _) s fun c hc => by simp [h c hc]

theorem parseBoolean_eq_none {s : List Char} :
    parseBoolean s = none ↔ ∀ rest, s ≠ '#' :: 't' :: rest ∧ s ≠ '#' :: 'f' :: rest := by
  constructor
  · intro h rest
    refine ⟨fun hs => ?_, fun hs => ?_⟩
    · exact absurd (h.symm.trans (parseBoolean_eq_some.2 (.inl ⟨hs, rfl⟩))) nofun
    · exact absurd (h.symm.trans (parseBoolean_eq_some.2 (.inr ⟨hs, rfl⟩))) nofun
  · intro h
    by_contra hne
    obtain ⟨⟨e, rest⟩, hsome⟩ := Option.ne_none_iff_exists'.1 hne
    rcases parseBoolean_eq_some.1 hsome with ⟨hs, -⟩ | ⟨hs, -⟩
    · exact (h rest).1 hs
    · exact (h rest).2 hs

theorem parseString_eq_none {s : List Char} : parseString s = none ↔ ∀ rest, s = '"' :: rest → '"' ∉ rest := by
  constructor
  · intro h rest hs hmem
    obtain ⟨x, r, rfl, hx⟩ := List.eq_append_cons_of_mem hmem
    exact absurd (h.symm.trans (parseString_eq_some.2 ⟨x, hs, hx, rfl⟩)) nofun
  · intro h
    by_contra hne
    obtain ⟨⟨e, rest⟩, hsome⟩ := Option.ne_none_iff_exists'.1 hne
    obtain ⟨x, hs, -, -⟩ := parseString_eq_some.1 hsome
    exact h _ hs (by simp)

theorem refused_iff {s : List Char} :
    Refused A s ↔ parseNumber A s = none ∧ parseBoolean s = none ∧ parseString s = none := by
  rw [parseNumber_eq_none, parseBoolean_eq_none, parseString_eq_none]
  exact ⟨fun h => ⟨h.number, h.boolean, h.string⟩, fun h => ⟨h.1, h.2.1, h.2.2⟩⟩

/-- Whatever is derived takes a character. -/
theorem Derives.length_lt {form : Form} {s rest : List Char} {xs : List LainExpr} (h : Derives A form s xs rest) :
    rest.length < s.length := by
  induction h with
  | number hne _ _ =>
    have := List.length_pos_iff.2 hne
    simp only [List.length_append]
    omega
  | atom hne _ _ _ =>
    have := List.length_pos_iff.2 hne
    simp only [List.length_append]
    omega
  | quoted _ ih => exact ih.trans (by simp)
  | list _ ih => exact ih.trans (by simp)
  | items _ _ hx hxs => exact hxs.trans hx
  | more _ _ _ _ hx hxs =>
    simp only [List.length_append]
    omega
  | _ =>
    simp only [List.length_cons, List.length_append]
    omega

/-- A character an expression may start with. -/
def Starts (A : Alphabet) (c : Char) : Prop := A.AtomChar c ∨ c = '\'' ∨ c = '('

theorem not_atomChar {c : Char} (h : c ∈ ['(', ')', '\'', ' ', '\t', '\r', '\n']) : ¬A.AtomChar c := by
  have hsymbol : c ∉ symbolChars.toList := by
    simp only [List.mem_cons, List.not_mem_nil, or_false] at h
    rcases h with rfl | rfl | rfl | rfl | rfl | rfl | rfl <;> decide
  have hdigit : A.digit c ≠ true := by
    simp only [List.mem_cons, List.not_mem_nil, or_false] at h
    rw [A.digit_eq]
    rcases h with rfl | rfl | rfl | rfl | rfl | rfl | rfl <;> decide
  rintro (hl | hs | hd)
  · exact A.letter_ne c hl h
  · exact hsymbol hs
  · exact hdigit hd

theorem not_starts {c : Char} (h : c ∈ [')', ' ', '\t', '\r', '\n']) : ¬Starts A c := by
  rintro (hatom | rfl | rfl)
  · exact not_atomChar (by simp at h ⊢; tauto) hatom
  · simp at h
  · simp at h

theorem Space.mem {c : Char} (h : Space c) : c ∈ [')', ' ', '\t', '\r', '\n'] := by
  simp only [Space, spaceChars] at h
  simp at h ⊢
  tauto

/-! ### Which alternative is taken -/

section alternatives

variable {n : ℕ} {s : List Char} {r : LainExpr × List Char}

theorem parse_of_number (h : parseNumber A s = some r) : parseExprUpto A (n + 1) s = some r := choice_cons_of_some h

theorem parse_of_boolean (hnumber : parseNumber A s = none) (h : parseBoolean s = some r) :
    parseExprUpto A (n + 1) s = some r := by
  rw [parseExprUpto, choice_cons_of_none hnumber, choice_cons_of_some h]

theorem parse_of_string (hnumber : parseNumber A s = none) (hboolean : parseBoolean s = none)
    (h : parseString s = some r) : parseExprUpto A (n + 1) s = some r := by
  rw [parseExprUpto, choice_cons_of_none hnumber, choice_cons_of_none hboolean, choice_cons_of_some h]

theorem parse_of_refused (hs : Refused A s) :
    parseExprUpto A (n + 1) s =
      choice [parseAtom A, parseQuoted (parseExprUpto A n), parseList (parseExprUpto A n)] s := by
  obtain ⟨hnumber, hboolean, hstring⟩ := refused_iff.1 hs
  rw [parseExprUpto, choice_cons_of_none hnumber, choice_cons_of_none hboolean, choice_cons_of_none hstring]

theorem parse_of_atom (hs : Refused A s) (h : parseAtom A s = some r) : parseExprUpto A (n + 1) s = some r := by
  rw [parse_of_refused hs, choice_cons_of_some h]

end alternatives

/-- Behind `parseAtom` come the alternatives for texts that do not start an atom. -/
theorem parse_other {n : ℕ} {s : List Char} (hs : ∀ c ∈ s.head?, ¬A.AtomChar c) :
    parseExprUpto A (n + 1) s = choice [parseQuoted (parseExprUpto A n), parseList (parseExprUpto A n)] s := by
  have hrefused : Refused A s := by
    refine ⟨fun c hc => ?_, fun rest => ⟨?_, ?_⟩, ?_⟩
    · exact Bool.eq_false_iff.2 fun hd => hs c hc (.inr (.inr hd))
    · rintro rfl
      exact hs '#' rfl (.inr (.inl (by decide)))
    · rintro rfl
      exact hs '#' rfl (.inr (.inl (by decide)))
    · rintro rest rfl
      exact absurd (.inr (.inl (by decide))) (hs '"' rfl)
  have hatom : parseAtom A s = none := by
    by_contra hne
    obtain ⟨⟨e, rest⟩, hsome⟩ := Option.ne_none_iff_exists'.1 hne
    obtain ⟨all, rfl, hne, hall, -⟩ := parseAtom_eq_some.1 hsome
    obtain ⟨c, cs, rfl⟩ := List.exists_cons_of_ne_nil hne
    exact hs c rfl (hall c List.mem_cons_self)
  rw [parse_of_refused hrefused, choice_cons_of_none hatom]

theorem begins_parseQuoted : Begins (fun c => (c == '\'') = true) (parseQuoted p) := (Begins.satisfy _).bind _

theorem begins_parseList : Begins (fun c => (c == '(') = true) (parseList p) := (Begins.satisfy _).bind _

theorem begins_parseExprUpto (n : ℕ) : Begins (Starts A) (parseExprUpto A n) := by
  intro s hs
  cases n with
  | zero => rfl
  | succ n =>
    have hquoted : parseQuoted (parseExprUpto A n) s = none :=
      begins_parseQuoted s fun c hc h => hs c hc (.inr (.inl (eq_of_beq h)))
    have hlist : parseList (parseExprUpto A n) s = none :=
      begins_parseList s fun c hc h => hs c hc (.inr (.inr (eq_of_beq h)))
    rw [parse_other fun c hc h => hs c hc (.inl h), choice_cons_of_none hquoted, choice_cons_of_none hlist, choice]

/-- A separator stops in front of an expression, and an expression does not start
with a separator or a closing bracket. -/
theorem spaces_eq_some {s rest : List Char} :
    spaces s = some ((), rest) ↔
      ∃ blanks, s = blanks ++ rest ∧ blanks ≠ [] ∧ (∀ c ∈ blanks, Space c) ∧ Stops (fun c => ¬Space c) rest := by
  rw [spaces, skipMany1, bind_eq_some]
  constructor
  · rintro ⟨blanks, s', h, hpure⟩
    cases hpure
    obtain ⟨rfl, hne, hall, hstop⟩ := many1_satisfy_eq_some.1 h
    refine ⟨blanks, rfl, hne, fun c hc => by simpa [Space] using hall c hc, fun c hc => by simpa [Space] using hstop c hc⟩
  · rintro ⟨blanks, rfl, hne, hall, hstop⟩
    refine ⟨blanks, rest, many1_satisfy_eq_some.2 ⟨rfl, hne, fun c hc => ?_, fun c hc => ?_⟩, rfl⟩
    · simpa [Space] using hall c hc
    · simpa [Space] using hstop c hc

theorem consumes_spaces : Consumes spaces := by
  intro s u rest h
  obtain ⟨blanks, rfl, hne, -⟩ := spaces_eq_some.1 h
  have := List.length_pos_iff.2 hne
  simp only [List.length_append]
  omega

/-- The turns of a list, up to its bracket. -/
theorem derives_more {p : Parser Char LainExpr} (hp : ∀ s e rest, p s = some (e, rest) → Derives A .expr s [e] rest)
    {s rest : List Char} {xs : List LainExpr} (h : Turns (do let _ ← spaces; p) s xs (')' :: rest)) :
    Derives A .more s xs rest := by
  generalize hs : ')' :: rest = t at h
  induction h with
  | stop _ =>
    subst hs
    exact .close rest
  | turn hturn _ ih =>
    obtain ⟨_, s', hspaces, hx⟩ := bind_eq_some.1 hturn
    obtain ⟨blanks, rfl, hne, hall, -⟩ := spaces_eq_some.1 hspaces
    exact .more hne hall (hp _ _ _ hx) (ih hs)

theorem derives_items_of_sepBy {p : Parser Char LainExpr}
    (hp : ∀ s e rest, p s = some (e, rest) → Derives A .expr s [e] rest) {s rest : List Char} {xs : List LainExpr}
    (h : sepBy p spaces s = some (xs, ')' :: rest)) : Derives A .items s xs rest := by
  have hconsumes : Consumes p := fun s e rest h => (hp s e rest h).length_lt
  rcases (sepBy_eq_some hconsumes consumes_spaces).1 h with ⟨-, rfl, rfl⟩ | ⟨x, s', ys, hx, rfl, hys⟩
  · exact .empty rest
  · exact .items (hp _ _ _ hx) (derives_more hp hys)

/-- Whatever the parser reads is derived. -/
theorem derives_of_parse {n : ℕ} {s rest : List Char} {e : LainExpr} (h : parseExprUpto A n s = some (e, rest)) :
    Derives A .expr s [e] rest := by
  induction n generalizing s e rest with
  | zero => cases h
  | succ n ih =>
    rcases Option.or_eq_some_iff.1 h with hnumber | ⟨hnumber, h⟩
    · obtain ⟨digits, rfl, hne, hall, hstop, rfl⟩ := parseNumber_eq_some.1 hnumber
      exact .number hne hall hstop
    rcases Option.or_eq_some_iff.1 h with hboolean | ⟨hboolean, h⟩
    · rcases parseBoolean_eq_some.1 hboolean with ⟨rfl, rfl⟩ | ⟨rfl, rfl⟩
      · exact .true_ rest
      · exact .false_ rest
    rcases Option.or_eq_some_iff.1 h with hstring | ⟨hstring, h⟩
    · obtain ⟨x, rfl, hx, rfl⟩ := parseString_eq_some.1 hstring
      exact .string hx rest
    rcases Option.or_eq_some_iff.1 h with hatom | ⟨-, h⟩
    · -- The atom stands because the three alternatives before it have failed.
      obtain ⟨all, rfl, hne, hall, hstop, rfl⟩ := parseAtom_eq_some.1 hatom
      exact .atom hne hall hstop (refused_iff.2 ⟨hnumber, hboolean, hstring⟩)
    rcases Option.or_eq_some_iff.1 h with hquoted | ⟨-, h⟩
    · obtain ⟨s', x, rfl, hx, rfl⟩ := parseQuoted_eq_some.1 hquoted
      exact .quoted (ih hx)
    rcases Option.or_eq_some_iff.1 h with hlist | ⟨-, h⟩
    · obtain ⟨s', xs, rfl, hxs, rfl⟩ := parseList_eq_some.1 hlist
      exact .list (derives_items_of_sepBy (fun _ _ _ => ih) hxs)
    · cases h

/-- The run of the parser that a rule stands for, with fuel for the text. -/
def Reads (A : Alphabet) : Form → List Char → List LainExpr → List Char → Prop
  | .expr, s, xs, rest => ∀ n, s.length ≤ n → ∃ x, xs = [x] ∧ parseExprUpto A (n + 1) s = some (x, rest)
  | .items, s, xs, rest => ∀ n, s.length ≤ n → sepBy (parseExprUpto A (n + 1)) spaces s = some (xs, ')' :: rest)
  | .more, s, xs, rest =>
    ∀ n, s.length ≤ n → Turns (do let _ ← spaces; parseExprUpto A (n + 1)) s xs (')' :: rest)

theorem consumes_parseExprUpto (n : ℕ) : Consumes (parseExprUpto A n) := fun _ _ _ h => (derives_of_parse h).length_lt

theorem parse_more_close (n : ℕ) (rest : List Char) :
    (do let _ ← spaces; parseExprUpto A n : Parser Char LainExpr) (')' :: rest) = none := by
  refine bind_of_none ?_
  by_contra hne
  obtain ⟨⟨_, s'⟩, hsome⟩ := Option.ne_none_iff_exists'.1 hne
  obtain ⟨blanks, hs, hnil, hall, -⟩ := spaces_eq_some.1 hsome
  obtain ⟨c, cs, rfl⟩ := List.exists_cons_of_ne_nil hnil
  obtain ⟨rfl, -⟩ := List.cons.inj hs
  exact absurd (hall _ List.mem_cons_self) (by simp [Space, spaceChars])

theorem parse_close (n : ℕ) (rest : List Char) : parseExprUpto A n (')' :: rest) = none :=
  (begins_parseExprUpto n).cons (not_starts (by simp)) rest

/-- Each rule is a run of the parser. -/
theorem Derives.reads {form : Form} {s rest : List Char} {xs : List LainExpr} (h : Derives A form s xs rest) :
    Reads A form s xs rest := by
  induction h with
  | number hne hall hstop =>
    exact fun n _ => ⟨_, rfl, parse_of_number (parseNumber_eq_some.2 ⟨_, rfl, hne, hall, hstop, rfl⟩)⟩
  | true_ rest =>
    have hnumber : parseNumber A ('#' :: 't' :: rest) = none := parseNumber_eq_none.2 (by simp [A.digit_eq])
    exact fun n _ => ⟨_, rfl, parse_of_boolean hnumber (parseBoolean_eq_some.2 (.inl ⟨rfl, rfl⟩))⟩
  | false_ rest =>
    have hnumber : parseNumber A ('#' :: 'f' :: rest) = none := parseNumber_eq_none.2 (by simp [A.digit_eq])
    exact fun n _ => ⟨_, rfl, parse_of_boolean hnumber (parseBoolean_eq_some.2 (.inr ⟨rfl, rfl⟩))⟩
  | @string x hx rest =>
    have hnumber : parseNumber A ('"' :: (x ++ '"' :: rest)) = none := parseNumber_eq_none.2 (by simp [A.digit_eq])
    have hboolean : parseBoolean ('"' :: (x ++ '"' :: rest)) = none := parseBoolean_eq_none.2 (by simp)
    exact fun n _ => ⟨_, rfl, parse_of_string hnumber hboolean (parseString_eq_some.2 ⟨x, rfl, hx, rfl⟩)⟩
  | atom hne hall hstop hrefused =>
    exact fun n _ => ⟨_, rfl, parse_of_atom hrefused (parseAtom_eq_some.2 ⟨_, rfl, hne, hall, hstop, rfl⟩)⟩
  | quoted _ ih =>
    -- The quote takes a character, and the fuel one step.
    rintro (_ | n) hn
    · simp at hn
    obtain ⟨x, hsingle, hx⟩ := ih n (by simpa using hn)
    cases hsingle
    refine ⟨_, rfl, ?_⟩
    rw [parse_other fun c hc => by cases hc; exact not_atomChar (by simp)]
    exact choice_cons_of_some (parseQuoted_eq_some.2 ⟨_, _, rfl, hx, rfl⟩)
  | list _ ih =>
    rintro (_ | n) hn
    · simp at hn
    -- The items are read with the fuel that the bracket leaves.
    have hitems := ih n (by simpa using hn)
    refine ⟨_, rfl, ?_⟩
    rw [parse_other fun c hc => by cases hc; exact not_atomChar (by simp),
      choice_cons_of_none (begins_parseQuoted.cons (by simp) _)]
    exact choice_cons_of_some (parseList_eq_some.2 ⟨_, _, rfl, hitems, rfl⟩)
  | empty rest =>
    intro n _
    exact (sepBy_eq_some (consumes_parseExprUpto _) consumes_spaces).2 (.inl ⟨parse_close _ rest, rfl, rfl⟩)
  | items hx hxs ihx ihxs =>
    intro n hn
    obtain ⟨x, hsingle, hparse⟩ := ihx n hn
    cases hsingle
    have hmore := ihxs n (hx.length_lt.le.trans hn)
    exact (sepBy_eq_some (consumes_parseExprUpto _) consumes_spaces).2 (.inr ⟨_, _, _, hparse, rfl, hmore⟩)
  | close rest => exact fun n _ => .stop (parse_more_close _ rest)
  | @more blanks s s' rest x xs hne hall hx hxs ihx ihxs =>
    intro n hn
    simp only [List.length_append] at hn
    obtain ⟨y, hsingle, hparse⟩ := ihx n (by omega)
    cases hsingle
    -- The separator does not run into the item: no item starts with white space.
    have hstop : Stops (fun c => ¬Space c) s := by
      intro c hc hspace
      obtain ⟨cs, rfl⟩ := List.head?_eq_some_iff.1 hc
      exact absurd (((begins_parseExprUpto _).cons (not_starts hspace.mem) cs).symm.trans hparse) nofun
    have hspaces := spaces_eq_some.2 ⟨blanks, rfl, hne, hall, hstop⟩
    have hlt := hx.length_lt
    exact .turn (bind_eq_some.2 ⟨(), s, hspaces, hparse⟩) (ihxs n (by omega))

/-- `parseExpr` reads what the rules derive. -/
theorem parseExpr_eq_some {s rest : List Char} {e : LainExpr} :
    parseExpr A s = some (e, rest) ↔ Derives A .expr s [e] rest := by
  constructor
  · exact derives_of_parse
  · intro h
    obtain ⟨x, hx, hparse⟩ := h.reads s.length le_rfl
    cases hx
    exact hparse

theorem Derives.unique {s rest rest' : List Char} {e e' : LainExpr} (h : Derives A .expr s [e] rest)
    (h' : Derives A .expr s [e'] rest') : e = e' ∧ rest = rest' :=
  Prod.mk.inj (Option.some.inj ((parseExpr_eq_some.2 h).symm.trans (parseExpr_eq_some.2 h')))

theorem derives_quoted {s rest : List Char} {e : LainExpr} :
    Derives A .expr ('\'' :: s) [e] rest ↔ ∃ x, Derives A .expr s [x] rest ∧ e = quoted x := by
  constructor
  · intro h
    have hparse := parseExpr_eq_some.2 h
    rw [parseExpr, parse_other fun c hc => by cases hc; exact not_atomChar (by simp)] at hparse
    rcases Option.or_eq_some_iff.1 hparse with hquoted | ⟨-, hlist⟩
    · obtain ⟨s', x, hs, hx, rfl⟩ := parseQuoted_eq_some.1 hquoted
      obtain ⟨-, rfl⟩ := List.cons.inj hs
      exact ⟨x, derives_of_parse hx, rfl⟩
    · rw [choice_cons_of_none (begins_parseList.cons (by simp) _)] at hlist
      cases hlist
  · rintro ⟨x, hx, rfl⟩
    exact .quoted hx

theorem derives_list {s rest : List Char} {e : LainExpr} :
    Derives A .expr ('(' :: s) [e] rest ↔ ∃ xs, Derives A .items s xs rest ∧ e = .list xs := by
  constructor
  · intro h
    have hparse := parseExpr_eq_some.2 h
    rw [parseExpr, parse_other fun c hc => by cases hc; exact not_atomChar (by simp),
      choice_cons_of_none (begins_parseQuoted.cons (by simp) _)] at hparse
    rcases Option.or_eq_some_iff.1 hparse with hlist | ⟨-, hnone⟩
    · obtain ⟨s', xs, hs, hxs, rfl⟩ := parseList_eq_some.1 hlist
      obtain ⟨-, rfl⟩ := List.cons.inj hs
      exact ⟨xs, derives_items_of_sepBy (fun _ _ _ => derives_of_parse) hxs, rfl⟩
    · cases hnone
  · rintro ⟨xs, hxs, rfl⟩
    exact .list hxs

end LainLang.Compiler
