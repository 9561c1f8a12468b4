import LainLang.Compiler.Grammar
import LainLang.Lib.Effect
/-!
# Entering a program

`run` and `raw_compile` throw where the parser fails. Where it succeeds they do not
look at the text it left, so a program is compiled as the longest expression it
starts with.
-/
open LainLang.Lib LainLang.Js
open LainLang.Lib.Parser

namespace LainLang.Compiler

/-- What the entry points call: the compilers, the maker of source cells and the
text of a failed parse. -/
structure Backend (State Env Cell Out : Type) where
  compile : LainExpr → Env → EStateM String State Out
  incremental_compile : LainExpr → Env → Cell → JsNumber → EStateM String State Out
  source_constant_cell : String → EStateM String State Cell
  report : String → String

section entry

variable (A : Alphabet) {State Env Cell Out : Type} (B : Backend State Env Cell Out)

/-- `parse` fails only where the parser does; what is left of the text is dropped. -/
def parse (code : String) : Except String LainExpr :=
  match parseExpr A code.toList with
  | some (value, _) => .ok value
  | none => .error ("Parse failed: " ++ B.report code)

/-- What `run` does with a parsed program. -/
def incremental (env : Env) (source : Option Cell) (timestamp : Option JsNumber) (expr : LainExpr) :
    EStateM String State Out := do
  let source ← source.elim (B.source_constant_cell "source") pure
  B.incremental_compile expr env source (timestamp.getD (.ofNat 0))

/-- `run`: what does not parse is thrown. -/
def run (code : String) (env : Env) (source : Option Cell) (timestamp : Option JsNumber) : EStateM String State Out :=
  match parse A B code with
  | .ok expr => incremental B env source timestamp expr
  | .error failure => throw failure

/-- `raw_compile`, which goes to the compiler without a source and a timestamp. -/
def raw_compile (code : String) (env : Env) : EStateM String State Out :=
  match parse A B code with
  | .ok expr => B.compile expr env
  | .error failure => throw failure

variable {A} {code : String}

theorem run_of_none (h : parseExpr A code.toList = none) (env : Env) (source : Option Cell)
    (timestamp : Option JsNumber) :
    run A B code env source timestamp = throw ("Parse failed: " ++ B.report code) := by
  rw [run, parse, h]

theorem run_of_some {e : LainExpr} {rest : List Char} (h : parseExpr A code.toList = some (e, rest)) (env : Env)
    (source : Option Cell) (timestamp : Option JsNumber) :
    run A B code env source timestamp = incremental B env source timestamp e := by
  rw [run, parse, h]

theorem raw_compile_of_none (h : parseExpr A code.toList = none) (env : Env) :
    raw_compile A B code env = throw ("Parse failed: " ++ B.report code) := by
  rw [raw_compile, parse, h]

theorem raw_compile_of_some {e : LainExpr} {rest : List Char} (h : parseExpr A code.toList = some (e, rest)) (env : Env) :
    raw_compile A B code env = B.compile e env := by
  rw [raw_compile, parse, h]

end entry

variable (A : Alphabet)

/-- Only space characters. -/
def Blank (s : List Char) : Prop := ∀ c ∈ s, Space c

/-- Up to the white space around it, the text is read as `e` with nothing left. -/
def Accounts (text : List Char) (e : LainExpr) : Prop :=
  ∃ before body after, text = before ++ (body ++ after) ∧ Blank before ∧ Blank after ∧ parseExpr A body = some (e, [])

/-- The program is rejected, or what is compiled accounts for all of its text. -/
def AcceptedWhole (code : String) : Prop :=
  ∀ (State Env Cell Out : Type) (B : Backend State Env Cell Out) (env : Env) (source : Option Cell)
    (timestamp : Option JsNumber),
    (run A B code env source timestamp = throw ("Parse failed: " ++ B.report code) ∨
      ∃ e, Accounts A code.toList e ∧ run A B code env source timestamp = incremental B env source timestamp e) ∧
    (raw_compile A B code env = throw ("Parse failed: " ++ B.report code) ∨
      ∃ e, Accounts A code.toList e ∧ raw_compile A B code env = B.compile e env)

/-! ## Text behind an expression -/

/-- What stands behind the token at the front of a text. -/
def behindToken (s : List Char) : List Char :=
  if s.head?.any A.digit then s.dropWhile A.digit
  else if s.take 2 = ['#', 't'] ∨ s.take 2 = ['#', 'f'] then s.drop 2
  else if s.head? = some '"' ∧ '"' ∈ s.tail then (s.tail.dropWhile (· != '"')).tail
  else s.dropWhile A.atomChar

/-- Only white space is behind the token, or the list, that a text starts with once
its quotes are skipped. -/
def Whole : List Char → Prop
  | [] => True
  | c :: cs =>
    if c = '\'' then Whole cs
    else if c = '(' then ∀ xs rest, Derives A .items cs xs rest → Blank rest
    else A.AtomChar c → Blank (behindToken A (c :: cs))

variable {A}

theorem Space.not_atomChar {c : Char} (h : Space c) : ¬A.AtomChar c :=
  Compiler.not_atomChar (by have := h.mem; simp at this ⊢; tauto)

theorem Blank.stops {k : List Char} (h : Blank k) : Stops Space k := fun c hc => h c (List.mem_of_mem_head? hc)

theorem stops_digit {k : List Char} (h : Stops Space k) : Stops (fun c => A.digit c = false) k := fun c hc =>
  Bool.eq_false_iff.2 fun hd => (h c hc).not_atomChar (.inr (.inr hd))

theorem stops_atom {k : List Char} (h : Stops Space k) : Stops (fun c => ¬A.AtomChar c) k := fun c hc =>
  (h c hc).not_atomChar

/-- White space behind a text is not taken for a part of its token. -/
theorem Refused.append_blank {s k : List Char} (hs : s ≠ []) (h : Refused A s) (hk : Blank k) : Refused A (s ++ k) := by
  obtain ⟨c, cs, rfl⟩ := List.exists_cons_of_ne_nil hs
  have hbool : ∀ b, b = 't' ∨ b = 'f' → ∀ rest, (c :: cs) ++ k ≠ '#' :: b :: rest := by
    intro b hb rest heq
    obtain ⟨rfl, htail⟩ := List.cons.inj heq
    cases cs with
    | nil =>
      have hk' : k = b :: rest := htail
      have := (hk b (by simp [hk'])).mem
      rcases hb with rfl | rfl <;> simp at this
    | cons d cs =>
      obtain ⟨rfl, -⟩ := List.cons.inj htail
      rcases hb with rfl | rfl
      · exact (h.boolean cs).1 rfl
      · exact (h.boolean cs).2 rfl
  refine ⟨h.number, fun rest => ⟨hbool 't' (.inl rfl) rest, hbool 'f' (.inr rfl) rest⟩, ?_⟩
  intro rest heq
  obtain ⟨rfl, rfl⟩ := List.cons.inj heq
  intro hmem
  rcases List.mem_append.1 hmem with hmem | hmem
  · exact h.string cs rfl hmem
  · have := (hk _ hmem).mem
    simp at this

theorem Refused.of_append {s k : List Char} (h : Refused A (s ++ k)) : Refused A s := by
  refine ⟨fun c hc => h.number c ?_, fun rest => ⟨?_, ?_⟩, ?_⟩
  · rw [List.head?_append, hc]
    rfl
  · rintro rfl
    exact (h.boolean (rest ++ k)).1 rfl
  · rintro rfl
    exact (h.boolean (rest ++ k)).2 rfl
  · rintro rest rfl hmem
    exact h.string (rest ++ k) rfl (List.mem_append_left k hmem)

/-- White space behind a text is left as it is. -/
theorem Derives.append_blank {form : Form} {s rest k : List Char} {xs : List LainExpr} (h : Derives A form s xs rest)
    (hk : Blank k) : Derives A form (s ++ k) xs (rest ++ k) := by
  induction h with
  | number hne hall hstop =>
    rw [List.append_assoc]
    exact .number hne hall (hstop.append (stops_digit hk.stops))
  | true_ rest => exact .true_ (rest ++ k)
  | false_ rest => exact .false_ (rest ++ k)
  | @string x hx rest =>
    have htext : '"' :: (x ++ '"' :: rest) ++ k = '"' :: (x ++ '"' :: (rest ++ k)) := by simp
    rw [htext]
    exact .string hx (rest ++ k)
  | atom hne hall hstop hrefused =>
    have hrefused := hrefused.append_blank (by simp [hne]) hk
    rw [List.append_assoc] at hrefused ⊢
    exact .atom hne hall (hstop.append (stops_atom hk.stops)) hrefused
  | quoted _ ih => exact .quoted ih
  | list _ ih => exact .list ih
  | empty rest => exact .empty (rest ++ k)
  | items _ _ ihx ihxs => exact .items ihx ihxs
  | close rest => exact .close (rest ++ k)
  | more hne hall _ _ ihx ihxs =>
    rw [List.append_assoc]
    exact .more hne hall ihx ihxs

/-- An expression does not depend on the end of what is behind it. -/
theorem Derives.cut {form : Form} {s r k : List Char} {xs : List LainExpr} (h : Derives A form s xs (r ++ k)) :
    ∃ b, s = b ++ k ∧ Derives A form b xs r := by
  generalize ht : r ++ k = t at h
  induction h generalizing r with
  | @number digits rest hne hall hstop =>
    subst ht
    exact ⟨digits ++ r, (List.append_assoc _ _ _).symm, .number hne hall hstop.of_append⟩
  | true_ rest =>
    subst ht
    exact ⟨'#' :: 't' :: r, rfl, .true_ r⟩
  | false_ rest =>
    subst ht
    exact ⟨'#' :: 'f' :: r, rfl, .false_ r⟩
  | @string x hx rest =>
    subst ht
    exact ⟨'"' :: (x ++ '"' :: r), by simp, .string hx r⟩
  | @atom all rest hne hall hstop hrefused =>
    subst ht
    rw [← List.append_assoc] at hrefused
    exact ⟨all ++ r, (List.append_assoc _ _ _).symm, .atom hne hall hstop.of_append hrefused.of_append⟩
  | quoted _ ih =>
    obtain ⟨b, rfl, hb⟩ := ih ht
    exact ⟨'\'' :: b, rfl, .quoted hb⟩
  | list _ ih =>
    obtain ⟨b, rfl, hb⟩ := ih ht
    exact ⟨'(' :: b, rfl, .list hb⟩
  | empty rest =>
    subst ht
    exact ⟨')' :: r, rfl, .empty r⟩
  | items _ _ ihx ihxs =>
    obtain ⟨b', rfl, hmore⟩ := ihxs ht
    obtain ⟨b, rfl, hx⟩ := ihx rfl
    exact ⟨b, rfl, .items hx hmore⟩
  | close rest =>
    subst ht
    exact ⟨')' :: r, rfl, .close r⟩
  | @more blanks _ _ _ _ _ hne hall _ _ ihx ihxs =>
    obtain ⟨b', rfl, hmore⟩ := ihxs ht
    obtain ⟨b, rfl, hx⟩ := ihx rfl
    exact ⟨blanks ++ b, (List.append_assoc _ _ _).symm, .more hne hall hx hmore⟩

/-! ## Programs that are compiled whole -/

/-- Every reading of the text leaves white space only. -/
def LeavesBlank (A : Alphabet) (s : List Char) : Prop := ∀ e rest, Derives A .expr s [e] rest → Blank rest

theorem accounts_of_blank {s rest : List Char} {e : LainExpr} (h : Derives A .expr s [e] rest) (hrest : Blank rest) :
    Accounts A s e := by
  obtain ⟨body, rfl, hbody⟩ := Derives.cut (r := []) h
  exact ⟨[], body, rest, rfl, fun _ hc => absurd hc (by simp), hrest, parseExpr_eq_some.2 hbody⟩

/-- A text that is read does not start with white space. -/
theorem not_space_of_derives {c : Char} {s rest : List Char} {e : LainExpr} (h : Derives A .expr (c :: s) [e] rest) :
    ¬Space c := by
  intro hc
  exact absurd (((begins_parseExprUpto _).cons (not_starts hc.mem) s).symm.trans (parseExpr_eq_some.2 h)) nofun

theorem blank_of_accounts {s rest : List Char} {e : LainExpr} (h : Derives A .expr s [e] rest) (he : Accounts A s e) :
    Blank rest := by
  obtain ⟨before, body, after, rfl, hbefore, hafter, hbody⟩ := he
  cases before with
  | nil =>
    have hwhole := (parseExpr_eq_some.1 hbody).append_blank hafter
    obtain ⟨-, rfl⟩ := h.unique hwhole
    exact hafter
  | cons c before => exact absurd (hbefore c List.mem_cons_self) (not_space_of_derives h)

/-- The backend whose compilers answer with what they are given. -/
def echo : Backend Unit Unit Unit LainExpr where
  compile expr _ := pure expr
  incremental_compile expr _ _ _ := pure expr
  source_constant_cell _ := pure ()
  report _ := ""

theorem acceptedWhole_iff_leavesBlank {code : String} : AcceptedWhole A code ↔ LeavesBlank A code.toList := by
  constructor
  · intro h e rest he
    have hcompile := raw_compile_of_some echo (parseExpr_eq_some.2 he) ()
    rcases (h Unit Unit Unit LainExpr echo () none none).2 with hthrow | ⟨e', hwhole, hcompile'⟩
    · cases congrFun (hcompile.symm.trans hthrow) ()
    · cases congrFun (hcompile.symm.trans hcompile') ()
      exact blank_of_accounts he hwhole
  · intro h State Env Cell Out B env source timestamp
    cases hparse : parseExpr A code.toList with
    | none => exact ⟨.inl (run_of_none B hparse env source timestamp), .inl (raw_compile_of_none B hparse env)⟩
    | some r =>
      obtain ⟨e, rest⟩ := r
      have he := parseExpr_eq_some.1 hparse
      have hwhole := accounts_of_blank he (h e rest he)
      exact ⟨.inr ⟨e, hwhole, run_of_some B hparse env source timestamp⟩,
        .inr ⟨e, hwhole, raw_compile_of_some B hparse env⟩⟩

theorem derives_digit_run {c : Char} (hc : A.digit c = true) (cs : List Char) :
    ∃ e, Derives A .expr (c :: cs) [e] ((c :: cs).dropWhile A.digit) := by
  have hne : (c :: cs).takeWhile A.digit ≠ [] := by
    rw [List.takeWhile_cons_of_pos hc]
    exact List.cons_ne_nil _ _
  have h := Derives.number (A := A) hne (fun _ hd => List.mem_takeWhile_imp hd) (stops_dropWhile A.digit (c :: cs))
  rw [List.takeWhile_append_dropWhile] at h
  exact ⟨_, h⟩

theorem derives_closed_string {cs : List Char} (hclosed : '"' ∈ cs) :
    ∃ e, Derives A .expr ('"' :: cs) [e] (cs.dropWhile (· != '"')).tail := by
  obtain ⟨x, r, rfl, hx⟩ := List.eq_append_cons_of_mem hclosed
  have hne : ∀ d ∈ x, (d != '"') = true := fun d hd => bne_iff_ne.2 fun h => hx (h ▸ hd)
  rw [dropWhile_append_of_stops hne (.cons (by simp) r), List.tail_cons]
  exact ⟨_, .string hx r⟩

theorem derives_atom_run {c : Char} {cs : List Char} (hc : A.AtomChar c) (hrefused : Refused A (c :: cs)) :
    ∃ e, Derives A .expr (c :: cs) [e] ((c :: cs).dropWhile A.atomChar) := by
  have hne : (c :: cs).takeWhile A.atomChar ≠ [] := by
    rw [List.takeWhile_cons_of_pos (atomChar_iff.2 hc)]
    exact List.cons_ne_nil _ _
  have hall : ∀ d ∈ (c :: cs).takeWhile A.atomChar, A.AtomChar d := fun _ hd =>
    atomChar_iff.1 (List.mem_takeWhile_imp hd)
  have hstop : Stops (fun d => ¬A.AtomChar d) ((c :: cs).dropWhile A.atomChar) := by
    intro d hd
    rw [← atomChar_iff, stops_dropWhile A.atomChar (c :: cs) d hd]
    exact Bool.false_ne_true
  have h := @Derives.atom A ((c :: cs).takeWhile A.atomChar) _ hne hall hstop
    (by rwa [List.takeWhile_append_dropWhile])
  rw [List.takeWhile_append_dropWhile] at h
  exact ⟨_, h⟩

/-- A text that starts with a character of an atom starts with a token. -/
theorem derives_token {c : Char} (hc : A.AtomChar c) (cs : List Char) :
    ∃ e, Derives A .expr (c :: cs) [e] (behindToken A (c :: cs)) := by
  unfold behindToken
  split
  · rename_i hdigit
    exact derives_digit_run hdigit cs
  rename_i hdigit
  split
  · rename_i hbool
    cases cs with
    | nil => simp at hbool
    | cons d cs =>
      simp only [List.take_succ_cons, List.take_zero, List.cons.injEq, and_true] at hbool
      rcases hbool with ⟨rfl, rfl⟩ | ⟨rfl, rfl⟩
      · exact ⟨_, .true_ cs⟩
      · exact ⟨_, .false_ cs⟩
  rename_i hbool
  split
  · rename_i hstring
    obtain ⟨hquote, hclosed⟩ := hstring
    cases hquote
    exact derives_closed_string hclosed
  rename_i hstring
  -- An open quote and a lone `#` are characters of an atom.
  refine derives_atom_run hc ⟨fun d hd => ?_, fun rest => ⟨?_, ?_⟩, ?_⟩
  · cases hd
    exact Bool.eq_false_iff.2 hdigit
  · intro heq
    exact hbool (.inl (by rw [heq]; rfl))
  · intro heq
    exact hbool (.inr (by rw [heq]; rfl))
  · intro rest heq hmem
    exact hstring (by rw [heq]; exact ⟨rfl, hmem⟩)

theorem leavesBlank_iff_whole {s : List Char} : LeavesBlank A s ↔ Whole A s := by
  induction s with
  | nil => exact iff_of_true (fun e rest h => absurd h.length_lt (Nat.not_lt_zero _)) trivial
  | cons c cs ih =>
    rw [Whole]
    split
    · rename_i hc
      subst hc
      rw [← ih]
      constructor
      · exact fun h e rest he => h (quoted e) rest (.quoted he)
      · intro h e rest he
        obtain ⟨x, hx, -⟩ := derives_quoted.1 he
        exact h x rest hx
    split
    · rename_i hc
      subst hc
      constructor
      · exact fun h xs rest hxs => h (.list xs) rest (.list hxs)
      · intro h e rest he
        obtain ⟨xs, hxs, -⟩ := derives_list.1 he
        exact h xs rest hxs
    · rename_i hquote hbracket
      constructor
      · intro h hatom
        obtain ⟨e, he⟩ := derives_token hatom cs
        exact h e _ he
      · intro h e rest he
        by_cases hatom : A.AtomChar c
        · obtain ⟨e', he'⟩ := derives_token hatom cs
          obtain ⟨-, rfl⟩ := he.unique he'
          exact h hatom
        · have hstart : ¬Starts A c := by
            rintro (h | h | h)
            · exact hatom h
            · exact hquote h
            · exact hbracket h
          exact absurd (((begins_parseExprUpto _).cons hstart cs).symm.trans (parseExpr_eq_some.2 he)) nofun

/-- A program is rejected or compiled whole exactly when only white space is behind
the token or the list that it starts with. -/
theorem accepted_whole_iff (A : Alphabet) (code : String) : AcceptedWhole A code ↔ Whole A code.toList :=
  acceptedWhole_iff_leavesBlank.trans leavesBlank_iff_whole

/-- `3.14` is compiled as `3`. -/
theorem decimal_compiled_as_prefix : ¬AcceptedWhole .ascii "3.14" := by
  rw [acceptedWhole_iff_leavesBlank]
  intro h
  have hstop : Stops (fun c => Alphabet.ascii.digit c = false) ['.', '1', '4'] := fun c hc => by
    cases hc
    rfl
  have hread : Derives .ascii .expr (['3'] ++ ['.', '1', '4']) [lainNumber (Number ['3'])] ['.', '1', '4'] :=
    .number (by simp) (by simp [Alphabet.ascii]) hstop
  exact absurd (h _ _ hread '.' (by simp)) (by simp [Space, spaceChars])

end LainLang.Compiler
