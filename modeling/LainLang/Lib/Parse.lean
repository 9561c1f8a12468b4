import LainLang.Lib.Codes
import Mathlib.Data.List.TakeWhile
/-!
# Parser combinators

A parser takes symbols from the front of a text or fails. A choice tries its
parsers in order, each on the same text, and a repetition goes on until its
parser fails.
-/

namespace LainLang.Lib

/-- `none` is failure; a value comes with the rest of the text. -/
abbrev Parser (σ : Type) := StateT (List σ) Option

namespace Parser

variable {σ α β : Type}

/-- Takes one symbol of a kind. -/
def satisfy (f : σ → Bool) : Parser σ σ
  | [] => none
  | c :: cs => if f c then some (c, cs) else none

/-- The first of the parsers that succeeds. -/
def choice : List (Parser σ α) → Parser σ α
  | [] => fun _ => none
  | p :: ps => fun s => (p s).or (choice ps s)

/-- A repetition of at most so many turns. -/
def manyUpto (p : Parser σ α) : ℕ → Parser σ (List α)
  | 0 => pure []
  | n + 1 => fun s =>
    match p s with
    | none => some ([], s)
    | some (x, rest) => (manyUpto p n rest).map fun r => (x :: r.1, r.2)

/-- Every turn takes a symbol, so there are no more turns than symbols. -/
def many (p : Parser σ α) : Parser σ (List α) := fun s => manyUpto p s.length s

/-- One turn of the parser or more. -/
def many1 (p : Parser σ α) : Parser σ (List α) := do
  let x ← p
  let xs ← many p
  return x :: xs

/-- One turn or more, and nothing kept of them. -/
def skipMany1 (p : Parser σ α) : Parser σ Unit := do
  let _ ← many1 p

/-- Turns of the parser with the separator between them, none of them also. -/
def sepBy (p : Parser σ α) (sep : Parser σ β) : Parser σ (List α) :=
  choice [do
    let x ← p
    let xs ← many do
      let _ ← sep
      p
    return x :: xs, pure []]

/-! ## What combinators do -/

theorem bind_of_some {p : Parser σ α} {f : α → Parser σ β} {s rest : List σ} {x : α} (h : p s = some (x, rest)) :
    (p >>= f) s = f x rest := by
  change (p s).bind _ = _
  rw [h]
  rfl

theorem bind_of_none {p : Parser σ α} {f : α → Parser σ β} {s : List σ} (h : p s = none) : (p >>= f) s = none := by
  change (p s).bind _ = _
  rw [h]
  rfl

/-- A sequence that succeeds: both of its halves do. -/
theorem bind_eq_some {p : Parser σ α} {f : α → Parser σ β} {s rest : List σ} {y : β} :
    (p >>= f) s = some (y, rest) ↔ ∃ x s', p s = some (x, s') ∧ f x s' = some (y, rest) := by
  cases h : p s with
  | none => simp [bind_of_none h]
  | some r =>
    obtain ⟨x, s'⟩ := r
    rw [bind_of_some h]
    constructor
    · exact fun hf => ⟨x, s', rfl, hf⟩
    · rintro ⟨x', s'', hx, hf⟩
      cases hx
      exact hf

theorem choice_cons_of_none {p : Parser σ α} {ps : List (Parser σ α)} {s : List σ} (h : p s = none) :
    choice (p :: ps) s = choice ps s := by
  change (p s).or (choice ps s) = _
  rw [h, Option.none_or]

theorem choice_cons_of_some {p : Parser σ α} {ps : List (Parser σ α)} {s : List σ} {r : α × List σ} (h : p s = some r) :
    choice (p :: ps) s = some r := by
  change (p s).or (choice ps s) = _
  rw [h, Option.some_or]

theorem satisfy_cons (f : σ → Bool) (c : σ) (cs : List σ) :
    satisfy f (c :: cs) = if f c then some (c, cs) else none := rfl

theorem satisfy_eq_some {f : σ → Bool} {s rest : List σ} {c : σ} :
    satisfy f s = some (c, rest) ↔ s = c :: rest ∧ f c = true := by
  cases s with
  | nil => simp [satisfy]
  | cons d cs =>
    rw [satisfy_cons]
    split
    · rename_i hd
      simp only [Option.some.injEq, Prod.mk.injEq, List.cons.injEq]
      constructor
      · rintro ⟨rfl, rfl⟩
        exact ⟨⟨rfl, rfl⟩, hd⟩
      · exact fun h => h.1
    · rename_i hd
      refine iff_of_false (by simp) ?_
      rintro ⟨h, hc⟩
      obtain ⟨rfl, -⟩ := List.cons.inj h
      exact hd hc

/-- A choice of single symbols. -/
theorem choice_satisfy (fs : List (σ → Bool)) : choice (fs.map satisfy) = satisfy fun c => fs.any fun f => f c := by
  funext s
  induction fs with
  | nil => cases s <;> rfl
  | cons f fs ih =>
    change (satisfy f s).or (choice (fs.map satisfy) s) = _
    rw [ih]
    cases s with
    | nil => rfl
    | cons c cs =>
      simp only [satisfy_cons, List.any_cons, Bool.or_eq_true]
      by_cases hf : f c = true
      · simp [hf]
      · simp [hf]

/-- Every success takes a symbol. -/
def Consumes (p : Parser σ α) : Prop := ∀ s x rest, p s = some (x, rest) → rest.length < s.length

theorem Consumes.satisfy (f : σ → Bool) : Consumes (satisfy f) := by
  intro s x rest h
  obtain ⟨rfl, -⟩ := satisfy_eq_some.1 h
  simp

theorem Consumes.bind {p : Parser σ α} (hp : Consumes p) {f : α → Parser σ β}
    (hf : ∀ x s y rest, f x s = some (y, rest) → rest.length ≤ s.length) : Consumes (p >>= f) := by
  intro s y rest h
  obtain ⟨x, s', hx, hy⟩ := bind_eq_some.1 h
  exact (hf x s' y rest hy).trans_lt (hp s x s' hx)

/-! ## Repetitions -/

/-- The turns of a repetition, up to where its parser fails. -/
inductive Turns (p : Parser σ α) : List σ → List α → List σ → Prop where
  | stop {s : List σ} (h : p s = none) : Turns p s [] s
  | turn {s s' rest : List σ} {x : α} {xs : List α} (h : p s = some (x, s')) (hrest : Turns p s' xs rest) :
      Turns p s (x :: xs) rest

theorem manyUpto_turns {p : Parser σ α} (hp : Consumes p) {n : ℕ} {s : List σ} (hn : s.length ≤ n) :
    ∃ xs rest, manyUpto p n s = some (xs, rest) ∧ Turns p s xs rest := by
  induction n generalizing s with
  | zero =>
    obtain rfl := List.length_eq_zero_iff.1 (Nat.le_zero.1 hn)
    -- Out of turns is out of text, where a parser that consumes fails.
    have hnone : p [] = none := by
      by_contra hne
      obtain ⟨⟨x, rest⟩, hx⟩ := Option.ne_none_iff_exists'.1 hne
      exact absurd (hp _ _ _ hx) (by simp)
    exact ⟨[], [], rfl, .stop hnone⟩
  | succ n ih =>
    cases hs : p s with
    | none => exact ⟨[], s, by simp [manyUpto, hs], .stop hs⟩
    | some r =>
      obtain ⟨x, s'⟩ := r
      have hlt := hp s x s' hs
      obtain ⟨xs, rest, hmany, hturns⟩ := @ih s' (by omega)
      exact ⟨x :: xs, rest, by simp [manyUpto, hs, hmany], .turn hs hturns⟩

theorem Turns.unique {p : Parser σ α} {s rest rest' : List σ} {xs xs' : List α} (h : Turns p s xs rest)
    (h' : Turns p s xs' rest') : xs = xs' ∧ rest = rest' := by
  induction h generalizing xs' rest' with
  | stop h =>
    cases h' with
    | stop _ => exact ⟨rfl, rfl⟩
    | turn hx _ => exact absurd (h.symm.trans hx) nofun
  | turn h _ ih =>
    cases h' with
    | stop hnone => exact absurd (hnone.symm.trans h) nofun
    | turn hx hrest =>
      obtain ⟨rfl, rfl⟩ := Prod.mk.inj (Option.some.inj (h.symm.trans hx))
      obtain ⟨rfl, rfl⟩ := ih hrest
      exact ⟨rfl, rfl⟩

theorem many_total {p : Parser σ α} (hp : Consumes p) (s : List σ) : ∃ xs rest, many p s = some (xs, rest) := by
  obtain ⟨xs, rest, h, -⟩ := manyUpto_turns hp (le_refl s.length)
  exact ⟨xs, rest, h⟩

theorem many_eq_some {p : Parser σ α} (hp : Consumes p) {s rest : List σ} {xs : List α} :
    many p s = some (xs, rest) ↔ Turns p s xs rest := by
  obtain ⟨ys, rest', hmany, hturns⟩ := manyUpto_turns hp (le_refl s.length)
  rw [many, hmany]
  constructor
  · rintro h
    cases h
    exact hturns
  · intro h
    obtain ⟨rfl, rfl⟩ := h.unique hturns
    rfl

/-- The longest run of symbols. -/
theorem many_satisfy (f : σ → Bool) (s : List σ) : many (satisfy f) s = some (s.takeWhile f, s.dropWhile f) := by
  rw [many_eq_some (.satisfy f)]
  induction s with
  | nil => exact .stop rfl
  | cons c cs ih =>
    by_cases hc : f c = true
    · rw [List.takeWhile_cons_of_pos hc, List.dropWhile_cons_of_pos hc]
      exact .turn (satisfy_eq_some.2 ⟨rfl, hc⟩) ih
    · rw [List.takeWhile_cons_of_neg hc, List.dropWhile_cons_of_neg hc]
      exact .stop (by rw [satisfy_cons, if_neg hc])

theorem stops_dropWhile (f : σ → Bool) (s : List σ) : Stops (fun c => f c = false) (s.dropWhile f) := by
  intro c hc
  have h := List.head?_dropWhile_not f s
  rw [hc] at h
  exact h

theorem takeWhile_append_of_stops {f : σ → Bool} {a r : List σ} (ha : ∀ c ∈ a, f c = true)
    (hr : Stops (fun c => f c = false) r) : (a ++ r).takeWhile f = a := by
  rw [List.takeWhile_append_of_pos ha]
  cases r with
  | nil => simp
  | cons c r => rw [List.takeWhile_cons_of_neg (by simp [hr c rfl]), List.append_nil]

theorem dropWhile_append_of_stops {f : σ → Bool} {a r : List σ} (ha : ∀ c ∈ a, f c = true)
    (hr : Stops (fun c => f c = false) r) : (a ++ r).dropWhile f = r := by
  rw [List.dropWhile_append_of_pos ha]
  cases r with
  | nil => simp
  | cons c r => rw [List.dropWhile_cons_of_neg (by simp [hr c rfl])]

theorem many_satisfy_eq_some {f : σ → Bool} {s rest cs : List σ} :
    many (satisfy f) s = some (cs, rest) ↔
      s = cs ++ rest ∧ (∀ c ∈ cs, f c = true) ∧ Stops (fun c => f c = false) rest := by
  rw [many_satisfy]
  constructor
  · intro h
    cases h
    exact ⟨(List.takeWhile_append_dropWhile).symm, fun _ hc => List.mem_takeWhile_imp hc, stops_dropWhile f s⟩
  · rintro ⟨rfl, hf, hstop⟩
    rw [takeWhile_append_of_stops hf hstop, dropWhile_append_of_stops hf hstop]

theorem many1_satisfy_eq_some {f : σ → Bool} {s rest cs : List σ} :
    many1 (satisfy f) s = some (cs, rest) ↔
      s = cs ++ rest ∧ cs ≠ [] ∧ (∀ c ∈ cs, f c = true) ∧ Stops (fun c => f c = false) rest := by
  constructor
  · intro h
    obtain ⟨c, s', hc, hmany⟩ := bind_eq_some.1 h
    obtain ⟨ds, s'', hds, hpure⟩ := bind_eq_some.1 hmany
    cases hpure
    obtain ⟨rfl, hf⟩ := satisfy_eq_some.1 hc
    obtain ⟨rfl, hall, hstop⟩ := many_satisfy_eq_some.1 hds
    exact ⟨rfl, by simp, List.forall_mem_cons.2 ⟨hf, hall⟩, hstop⟩
  · rintro ⟨rfl, hne, hf, hstop⟩
    cases cs with
    | nil => exact absurd rfl hne
    | cons c ds =>
      rw [List.forall_mem_cons] at hf
      have hmany : many (satisfy f) (ds ++ rest) = some (ds, rest) := many_satisfy_eq_some.2 ⟨rfl, hf.2, hstop⟩
      exact bind_eq_some.2 ⟨c, ds ++ rest, satisfy_eq_some.2 ⟨rfl, hf.1⟩, bind_eq_some.2 ⟨ds, rest, hmany, rfl⟩⟩

/-- Items with separators between them: none, or one and a turn for each other. -/
theorem sepBy_eq_some {p : Parser σ α} {sep : Parser σ β} (hp : Consumes p) (hsep : Consumes sep) {s rest : List σ}
    {xs : List α} :
    sepBy p sep s = some (xs, rest) ↔ p s = none ∧ xs = [] ∧ rest = s ∨
      ∃ x s' ys, p s = some (x, s') ∧ xs = x :: ys ∧ Turns (do let _ ← sep; p) s' ys rest := by
  have hturn : Consumes (do let _ ← sep; p) := hsep.bind fun _ s y rest h => (hp s y rest h).le
  cases hs : p s with
  | none =>
    rw [sepBy, choice_cons_of_none (bind_of_none hs), choice_cons_of_some (r := ([], s)) rfl]
    constructor
    · intro h
      cases h
      exact .inl ⟨rfl, rfl, rfl⟩
    · rintro (⟨-, rfl, rfl⟩ | ⟨x, s', ys, hx, -, -⟩)
      · rfl
      · exact absurd hx nofun
  | some r =>
    obtain ⟨x, s'⟩ := r
    obtain ⟨ys, rest', hys⟩ := many_total hturn s'
    -- The first alternative succeeds, since the repetition behind the first item does.
    have hitems : (do let x ← p; let xs ← many (do let _ ← sep; p); return x :: xs) s = some (x :: ys, rest') :=
      bind_eq_some.2 ⟨x, s', hs, bind_eq_some.2 ⟨ys, rest', hys, rfl⟩⟩
    rw [sepBy, choice_cons_of_some hitems]
    constructor
    · intro h
      cases h
      exact .inr ⟨x, s', ys, rfl, rfl, (many_eq_some hturn).1 hys⟩
    · rintro (⟨hnone, -, -⟩ | ⟨x', s'', ys', hx, rfl, hrest⟩)
      · exact absurd hnone nofun
      · cases hx
        obtain ⟨rfl, rfl⟩ := ((many_eq_some hturn).1 hys).unique hrest
        rfl

/-! ## First symbols -/

/-- The parser takes no text that does not start with such a symbol. -/
def Begins (f : σ → Prop) (p : Parser σ α) : Prop := ∀ s, (∀ c ∈ s.head?, ¬f c) → p s = none

theorem Begins.satisfy (f : σ → Bool) : Begins (fun c => f c = true) (satisfy f) := by
  intro s h
  cases s with
  | nil => rfl
  | cons c cs => rw [satisfy_cons, if_neg (h c rfl)]

theorem Begins.bind {f : σ → Prop} {p : Parser σ α} (hp : Begins f p) (g : α → Parser σ β) : Begins f (p >>= g) :=
  fun s h => bind_of_none (hp s h)

theorem Begins.many1 {f : σ → Prop} {p : Parser σ α} (hp : Begins f p) : Begins f (many1 p) := hp.bind _

theorem Begins.cons {f : σ → Prop} {p : Parser σ α} (hp : Begins f p) {c : σ} (h : ¬f c) (cs : List σ) :
    p (c :: cs) = none :=
  hp (c :: cs) fun d hd => by
    cases hd
    exact h

end Parser

end LainLang.Lib
