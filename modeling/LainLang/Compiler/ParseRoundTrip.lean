import LainLang.Compiler.Grammar
/-!
# Reading what is printed

A printed expression is read as that expression, whatever follows it: a blank, a
closing bracket or nothing.
-/
open LainLang.Lib LainLang.Js
open LainLang.Lib.Parser

namespace LainLang.Compiler

/-! ## Printing -/

mutual

/-- Elements are separated by single spaces inside their brackets. -/
def LainExpr.print : LainExpr → List Char
  | .element .number (.num n) => n.toText.toList
  | .element .boolean (.bool b) => ['#', if b then 't' else 'f']
  | .element .string (.str s) => '"' :: (s.toList ++ ['"'])
  | .element .symbol (.str s) => s.toList
  | .list items => '(' :: ([' '].intercalate (LainExpr.printItems items) ++ [')'])
  | _ => []

/-- The items of a list, each as its text. -/
def LainExpr.printItems : List LainExpr → List (List Char)
  | [] => []
  | x :: xs => x.print :: LainExpr.printItems xs

end

theorem printItems_eq (xs : List LainExpr) : LainExpr.printItems xs = xs.map LainExpr.print := by
  induction xs with
  | nil => simp [LainExpr.printItems]
  | cons x xs ih => simp [LainExpr.printItems, ih]

theorem print_list (xs : List LainExpr) :
    (LainExpr.list xs).print = '(' :: ([' '].intercalate (xs.map LainExpr.print) ++ [')']) := by
  rw [LainExpr.print, printItems_eq]

variable (A : Alphabet)

/-- Letters, digits and symbol characters that do not start like another token. -/
structure SymbolName (name : List Char) : Prop where
  ne_nil : name ≠ []
  chars : ∀ c ∈ name, A.AtomChar c
  head : ∀ c ∈ name.head?, A.digit c = false ∧ c ≠ '#' ∧ c ≠ '"'

/-- The expressions that have a printed form. -/
inductive Printable : LainExpr → Prop where
  | number {n : ℕ} (h : n < 2 ^ 53) : Printable (lainNumber (.ofNat n))
  | boolean (b : Bool) : Printable (lainBoolean b)
  | string {s : String} (h : '"' ∉ s.toList) : Printable (lainStr s)
  | symbol {name : String} (h : SymbolName A name.toList) : Printable (lainSymbol name)
  | list {xs : List LainExpr} (h : ∀ x ∈ xs, Printable x) : Printable (.list xs)

/-! ## Tokens -/

/-- What may stand behind an expression. -/
def Behind (c : Char) : Prop := c = ' ' ∨ c = ')'

variable {A}

theorem Behind.not_atomChar {c : Char} (h : Behind c) : ¬A.AtomChar c := by
  rcases h with rfl | rfl
  · exact Compiler.not_atomChar (by simp)
  · exact Compiler.not_atomChar (by simp)

theorem Behind.not_digit {c : Char} (h : Behind c) : A.digit c = false :=
  Bool.eq_false_iff.2 fun hd => h.not_atomChar (.inr (.inr hd))

variable {k : List Char}

theorem derives_number {n : ℕ} (hn : n < 2 ^ 53) (hk : Stops Behind k) :
    Derives A .expr ((lainNumber (.ofNat n)).print ++ k) [lainNumber (.ofNat n)] k := by
  obtain ⟨hdigits, hne, hvalue⟩ := Decimal.text_ofNat (n := n) (hn.trans (by norm_num))
  have hnumber : Number (Decimal.ofNat n).text = .ofNat n := by
    rw [Number_of_lt (by rw [hvalue]; exact hn), hvalue]
  have hprint : (lainNumber (.ofNat n)).print = (Decimal.ofNat n).text := by
    simp [lainNumber, LainExpr.print, JsNumber.toText, JsNumber.ofNat]
  rw [hprint, ← hnumber]
  exact .number hne (fun c hc => (A.digit_eq c).trans (hdigits c hc)) fun c hc => (hk c hc).not_digit

theorem derives_boolean (b : Bool) (k : List Char) : Derives A .expr ((lainBoolean b).print ++ k) [lainBoolean b] k := by
  cases b with
  | true => exact .true_ k
  | false => exact .false_ k

theorem derives_string {s : String} (hs : '"' ∉ s.toList) (k : List Char) :
    Derives A .expr ((lainStr s).print ++ k) [lainStr s] k := by
  have h := Derives.string (A := A) hs k
  rw [String.ofList_toList] at h
  simpa [lainStr, LainExpr.print] using h

theorem derives_symbol {name : String} (h : SymbolName A name.toList) (hk : Stops Behind k) :
    Derives A .expr ((lainSymbol name).print ++ k) [lainSymbol name] k := by
  obtain ⟨c, cs, hname⟩ := List.exists_cons_of_ne_nil h.ne_nil
  obtain ⟨hdigit, hhash, hquote⟩ := h.head c (by simp [hname])
  -- The alternatives before symbols all ask for a first character that it does not have.
  have hrefused : Refused A (name.toList ++ k) := by
    rw [hname]
    refine ⟨fun d hd => ?_, fun rest => ⟨?_, ?_⟩, ?_⟩
    · cases hd
      exact hdigit
    · exact fun heq => hhash (List.cons.inj heq).1
    · exact fun heq => hhash (List.cons.inj heq).1
    · exact fun rest heq => absurd (List.cons.inj heq).1 hquote
  have hatom := Derives.atom h.ne_nil h.chars (fun c hc => (hk c hc).not_atomChar) hrefused
  rw [String.ofList_toList] at hatom
  simpa [lainSymbol, lain_symbol, LainExpr.print] using hatom

/-! ## Lists -/

/-- The text of the items behind the first one. -/
theorem derives_behind {xs : List LainExpr}
    (h : ∀ x ∈ xs, ∀ k, Stops Behind k → Derives A .expr (x.print ++ k) [x] k) (rest : List Char) :
    Derives A .more (behind ' ' ')' (xs.map LainExpr.print) rest) xs rest := by
  induction xs with
  | nil => exact .close rest
  | cons x xs ih =>
    rw [List.forall_mem_cons] at h
    have htext : behind ' ' ')' ((x :: xs).map LainExpr.print) rest =
        [' '] ++ (x.print ++ behind ' ' ')' (xs.map LainExpr.print) rest) := by
      rw [List.map_cons, behind, if_neg (List.cons_ne_nil _ _), intercalate_cons_append]
      rfl
    have hstop : Stops Behind (behind ' ' ')' (xs.map LainExpr.print) rest) := stops_behind (.inl rfl) (.inr rfl) _ rest
    rw [htext]
    exact .more (by simp) (by simp [Space, spaceChars]) (h.1 _ hstop) (ih h.2)

theorem derives_items {xs : List LainExpr}
    (h : ∀ x ∈ xs, ∀ k, Stops Behind k → Derives A .expr (x.print ++ k) [x] k) (rest : List Char) :
    Derives A .items ([' '].intercalate (xs.map LainExpr.print) ++ ')' :: rest) xs rest := by
  cases xs with
  | nil => exact .empty rest
  | cons x xs =>
    rw [List.forall_mem_cons] at h
    rw [List.map_cons, intercalate_cons_append]
    exact .items (h.1 _ (stops_behind (.inl rfl) (.inr rfl) _ rest)) (derives_behind h.2 rest)

/-! ## The round trip -/

theorem Printable.derives {e : LainExpr} (he : Printable A e) (hk : Stops Behind k) :
    Derives A .expr (e.print ++ k) [e] k := by
  induction he generalizing k with
  | number hn => exact derives_number hn hk
  | boolean b => exact derives_boolean b k
  | string hs => exact derives_string hs k
  | symbol hname => exact derives_symbol hname hk
  | list _ ih =>
    rw [print_list, List.cons_append, List.append_assoc]
    -- The closing bracket ends the list, so nothing is asked of what follows.
    exact .list (derives_items (fun x hx k hk => ih x hx hk) k)

/-- A printed expression is read whole, and as itself. -/
theorem parse_print {e : LainExpr} (he : Printable A e) : parseExpr A e.print = some (e, []) := by
  have h := he.derives (k := []) .nil
  rw [List.append_nil] at h
  exact parseExpr_eq_some.2 h

/-- `(add-1 () "a b" (#t 12))`. -/
theorem parse_print_call :
    let e : LainExpr :=
      .list [lainSymbol "add-1", .list [], lainStr "a b", .list [lainBoolean true, lainNumber (.ofNat 12)]]
    parseExpr .ascii e.print = some (e, []) := by
  have hname : SymbolName .ascii "add-1".toList := by
    have hchars : "add-1".toList = ['a', 'd', 'd', '-', '1'] := by simp
    rw [hchars]
    refine ⟨List.cons_ne_nil _ _, ?_, by simp [Alphabet.ascii]⟩
    simp only [List.forall_mem_cons]
    exact ⟨.inl rfl, .inl rfl, .inl rfl, .inr (.inl (by decide)), .inr (.inr rfl), by simp⟩
  refine parse_print (.list ?_)
  simp only [List.forall_mem_cons]
  refine ⟨.symbol hname, .list (by simp), .string (by simp), .list ?_, by simp⟩
  simp only [List.forall_mem_cons]
  exact ⟨.boolean true, .number (by norm_num), by simp⟩

end LainLang.Compiler
