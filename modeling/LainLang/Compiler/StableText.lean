import LainLang.Compiler.Hash
import LainLang.Js.NumberText
import LainLang.Js.StringText
import Mathlib.Data.List.Nodup
/-!
# The text of a tree

`stableStringify` sorts the fields of an object by their keys, so the order in
which they were set does not show. Nothing else is lost: the first character of
a text tells the kind of the tree, and what ends the text of an item or of a
field is no part of it.
-/
open LainLang.Lib LainLang.Js

namespace LainLang.Compiler

variable {Cell : Type}

/-! ## JSON trees -/

/-- Trees with no cell, finite numbers and objects with distinct keys. -/
inductive IsJson : Data Cell → Prop
  | null : IsJson .null
  | str (s : String) : IsJson (.str s)
  | num (d : Decimal) : IsJson (.num (.finite d))
  | bool (b : Bool) : IsJson (.bool b)
  | arr {items : List (Data Cell)} (hitems : ∀ x ∈ items, IsJson x) : IsJson (.arr items)
  | obj {fields : List (String × Data Cell)} (hkeys : (fields.map Prod.fst).Nodup)
      (hfields : ∀ f ∈ fields, IsJson f.2) : IsJson (.obj fields)

/-- Equal up to the order of properties. The two zeros are one number. -/
inductive SameJson : Data Cell → Data Cell → Prop
  | null : SameJson .null .null
  | str (s : String) : SameJson (.str s) (.str s)
  | num {d d' : Decimal} (h : d = d' ∨ d.mantissa = 0 ∧ d'.mantissa = 0) : SameJson (.num (.finite d)) (.num (.finite d'))
  | bool (b : Bool) : SameJson (.bool b) (.bool b)
  | arr {xs ys : List (Data Cell)} (hlen : xs.length = ys.length)
      (hitems : ∀ x y, (x, y) ∈ xs.zip ys → SameJson x y) : SameJson (.arr xs) (.arr ys)
  | obj {fs gs : List (String × Data Cell)} (hkeys : ∀ k, k ∈ fs.map Prod.fst ↔ k ∈ gs.map Prod.fst)
      (hfields : ∀ k x y, (k, x) ∈ fs → (k, y) ∈ gs → SameJson x y) : SameJson (.obj fs) (.obj gs)

/-! ## Fields in order -/

section fields
variable {V W : Type}

instance : Std.Total (fun f g : String × V => stringLe f.1 g.1 = true) :=
  ⟨fun f g => by simpa [stringLe] using le_total (utf16 f.1) (utf16 g.1)⟩

instance : IsTrans (String × V) (fun f g => stringLe f.1 g.1 = true) :=
  ⟨fun _ _ _ hfg hgh => decide_eq_true ((of_decide_eq_true hfg).trans (of_decide_eq_true hgh))⟩

/-- The fields by the order of their keys. -/
def sortFields (fs : List (String × V)) : List (String × V) := fs.insertionSort (fun f g => stringLe f.1 g.1 = true)

theorem sortFields_perm (fs : List (String × V)) : (sortFields fs).Perm fs := List.perm_insertionSort _ fs

theorem mem_sortFields {fs : List (String × V)} {f : String × V} : f ∈ sortFields fs ↔ f ∈ fs :=
  (sortFields_perm fs).mem_iff

theorem map_sortFields (φ : V → W) (fs : List (String × V)) :
    (sortFields fs).map (fun f => (f.1, φ f.2)) = sortFields (fs.map fun f => (f.1, φ f.2)) :=
  List.map_insertionSort _ _ _ fs fun _ _ _ _ => Iff.rfl

theorem fields_unique {fs : List (String × V)} (hkeys : (fs.map Prod.fst).Nodup) {k : String} {x y : V} (hx : (k, x) ∈ fs)
    (hy : (k, y) ∈ fs) : x = y := congrArg Prod.snd (List.inj_on_of_nodup_map hkeys hx hy rfl)

/-- The order of fields with distinct keys rests on the fields alone. -/
theorem sortFields_congr {fs gs : List (String × V)} (hfs : (fs.map Prod.fst).Nodup) (hgs : (gs.map Prod.fst).Nodup)
    (h : ∀ f, f ∈ fs ↔ f ∈ gs) : sortFields fs = sortFields gs := by
  have hperm : fs.Perm gs := (List.perm_ext_iff_of_nodup hfs.of_map hgs.of_map).2 h
  have hsorted : ∀ l : List (String × V), (sortFields l).Pairwise (fun f g => stringLe f.1 g.1 = true) :=
    fun l => List.pairwise_insertionSort _ l
  refine ((sortFields_perm fs).trans (hperm.trans (sortFields_perm gs).symm)).eq_of_pairwise ?_ (hsorted fs) (hsorted gs)
  intro f g hf hg hfg hgf
  -- Keys that are below each other are one key, which one field has.
  have hunits : utf16 f.1 = utf16 g.1 := le_antisymm (of_decide_eq_true hfg) (of_decide_eq_true hgf)
  exact List.inj_on_of_nodup_map hfs (mem_sortFields.1 hf) ((h g).2 (mem_sortFields.1 hg)) (utf16_injective hunits)

end fields

/-! ## Texts -/

variable (cell_text : Cell → String)

/-- The characters of a stable text. -/
def text (x : Data Cell) : List Char := (stableStringify cell_text x).toList

/-- A key and its value, as they stand in the text of an object. -/
def fieldText (f : String × Data Cell) : List Char := (quoteString f.1).toList ++ ':' :: text cell_text f.2

theorem stableStringify_items_eq (xs : List (Data Cell)) :
    stableStringify_items cell_text xs = xs.map (stableStringify cell_text) := by
  induction xs with
  | nil => rw [stableStringify_items, List.map_nil]
  | cons x xs ih => rw [stableStringify_items, ih, List.map_cons]

theorem stableStringify_fields_eq (fs : List (String × Data Cell)) :
    stableStringify_fields cell_text fs = fs.map fun f => (f.1, stableStringify cell_text f.2) := by
  induction fs with
  | nil => rw [stableStringify_fields, List.map_nil]
  | cons f fs ih => rw [stableStringify_fields, ih, List.map_cons]

theorem text_arr (xs : List (Data Cell)) :
    text cell_text (.arr xs) = '[' :: ([','].intercalate (xs.map (text cell_text)) ++ [']']) := by
  have hitems : (xs.map (stableStringify cell_text)).map String.toList = xs.map (text cell_text) := List.map_map
  rw [text, stableStringify, stableStringify_items_eq]
  simp [String.toList_intercalate, hitems, -List.map_map]

theorem stableStringify_obj (fs : List (String × Data Cell)) :
    stableStringify cell_text (.obj fs) = "\x7b" ++ ",".intercalate ((sortFields (stableStringify_fields cell_text fs)).map
      fun f => quoteString f.1 ++ ":" ++ f.2) ++ "\x7d" := by
  rw [stableStringify]
  rfl

theorem text_obj (fs : List (String × Data Cell)) :
    text cell_text (.obj fs) = '\x7b' :: ([','].intercalate ((sortFields fs).map (fieldText cell_text)) ++ ['\x7d']) := by
  have hfields : ((sortFields fs).map fun f => quoteString f.1 ++ ":" ++ stableStringify cell_text f.2).map String.toList =
      (sortFields fs).map (fieldText cell_text) := by
    simp [fieldText, text]
  rw [text, stableStringify_obj, stableStringify_fields_eq, ← map_sortFields, List.map_map]
  simp [String.toList_intercalate, ← hfields, Function.comp_def]

/-! ### The kind of a tree -/

/-- The constructor of a value, as a number. -/
def kind : Data Cell → ℕ
  | .null => 0
  | .str _ => 1
  | .num _ => 2
  | .bool _ => 3
  | .cell _ => 4
  | .arr _ => 5
  | .obj _ => 6

/-- The kind of tree whose text starts with a character. -/
def kindOfText (c : Char) : ℕ :=
  if c = 'n' then 0 else if c = '"' then 1 else if c = 't' ∨ c = 'f' then 3 else if c = '[' then 5
  else if c = '\x7b' then 6 else 2

instance : DecidablePred NumberChar := fun c => inferInstanceAs (Decidable (c.isDigit = true ∨ c ∈ ['-', '+', '.', 'e']))

theorem numberChar_ne {c : Char} (h : NumberChar c) {d : Char} (hd : ¬NumberChar d) : c ≠ d := fun heq => hd (heq ▸ h)

theorem kindOfText_numberChar {c : Char} (h : NumberChar c) : kindOfText c = 2 := by
  have hne : ∀ d, ¬NumberChar d → c ≠ d := fun d hd => numberChar_ne h hd
  simp [kindOfText, hne 'n' (by decide), hne '"' (by decide), hne 't' (by decide), hne 'f' (by decide),
    hne '[' (by decide), hne '\x7b' (by decide)]

theorem text_head {x : Data Cell} (hx : IsJson x) :
    ∃ c ∈ (text cell_text x).head?, kindOfText c = kind x ∧ c ≠ ']' := by
  cases hx with
  | null => exact ⟨'n', by simp [text, stableStringify, stringify], rfl, by decide⟩
  | str s => exact ⟨'"', by simp [text, stableStringify, stringify, quoteString], rfl, by decide⟩
  | num d =>
    obtain ⟨c, hc, hnum⟩ := d.text_head
    exact ⟨c, by simpa [text, stableStringify, stringify, JsNumber.toText] using hc, kindOfText_numberChar hnum,
      numberChar_ne hnum (by decide)⟩
  | bool b =>
    cases b with
    | false => exact ⟨'f', by simp [text, stableStringify, stringify], rfl, by decide⟩
    | true => exact ⟨'t', by simp [text, stableStringify, stringify], rfl, by decide⟩
  | arr => exact ⟨'[', by simp [text_arr], rfl, by decide⟩
  | obj => exact ⟨'\x7b', by simp [text_obj], rfl, by decide⟩

theorem kind_eq {x y : Data Cell} (hx : IsJson x) (hy : IsJson y) {r s : List Char}
    (h : text cell_text x ++ r = text cell_text y ++ s) : kind x = kind y := by
  obtain ⟨c, hc, hkind, -⟩ := text_head cell_text hx
  obtain ⟨d, hd, hkind', -⟩ := text_head cell_text hy
  have hcd : (text cell_text x ++ r).head? = (text cell_text y ++ s).head? := congrArg _ h
  rw [List.head?_append, List.head?_append, Option.mem_def.1 hc, Option.mem_def.1 hd] at hcd
  obtain rfl : c = d := Option.some.inj hcd
  rw [← hkind, hkind']

/-! ### Trees by their texts -/

/-- What stands behind an item or a field. -/
def Ends (c : Char) : Prop := c ∈ [',', ']', '\x7d']

theorem numberChar_not_ends {c : Char} (h : NumberChar c) : ¬Ends c := by
  intro hends
  simp only [Ends, List.mem_cons, List.not_mem_nil, or_false] at hends
  rcases hends with rfl | rfl | rfl <;> exact absurd h (by decide)

/-- Fields that agree one by one, in any order. -/
theorem sameJson_obj {fs gs : List (String × Data Cell)} (hgs : (gs.map Prod.fst).Nodup)
    (h : List.Forall₂ (fun f g => f.1 = g.1 ∧ SameJson f.2 g.2) (sortFields fs) (sortFields gs)) :
    SameJson (.obj fs) (.obj gs) := by
  have hpartner : ∀ {f}, f ∈ fs → ∃ g ∈ gs, f.1 = g.1 ∧ SameJson f.2 g.2 := by
    intro f hf
    obtain ⟨i, hi, rfl⟩ := List.mem_iff_getElem.1 (mem_sortFields.2 hf)
    have hi' : i < (sortFields gs).length := h.length_eq ▸ hi
    exact ⟨_, mem_sortFields.1 (List.getElem_mem hi'), h.get hi hi'⟩
  have hpartner' : ∀ {g}, g ∈ gs → ∃ f ∈ fs, f.1 = g.1 := by
    intro g hg
    obtain ⟨i, hi, rfl⟩ := List.mem_iff_getElem.1 (mem_sortFields.2 hg)
    have hi' : i < (sortFields fs).length := h.length_eq ▸ hi
    exact ⟨_, mem_sortFields.1 (List.getElem_mem hi'), (h.get hi' hi).1⟩
  refine .obj (fun k => ⟨fun hk => ?_, fun hk => ?_⟩) fun k x y hx hy => ?_
  · obtain ⟨f, hf, rfl⟩ := List.mem_map.1 hk
    obtain ⟨g, hg, hkey, -⟩ := hpartner hf
    exact hkey ▸ List.mem_map_of_mem hg
  · obtain ⟨g, hg, rfl⟩ := List.mem_map.1 hk
    obtain ⟨f, hf, hkey⟩ := hpartner' hg
    exact hkey ▸ List.mem_map_of_mem hf
  · obtain ⟨⟨l, z⟩, hg, hkey, hsame⟩ := hpartner hx
    dsimp only at hkey hsame
    subst hkey
    rwa [fields_unique hgs hy hg]

theorem text_num (d : Decimal) : text cell_text (.num (.finite d)) = d.text := by
  simp [text, stableStringify, stringify, JsNumber.toText]

theorem toldApart_num (d d' : Decimal) :
    ToldApart Ends (text cell_text) SameJson (.num (.finite d)) (.num (.finite d')) := by
  intro r s hr hs h
  rw [text_num, text_num] at h
  -- No character of a number ends it.
  obtain ⟨hd, hrest⟩ := append_inj_of_stops (fun c hc => numberChar_not_ends (d.text_chars c hc))
    (fun c hc => numberChar_not_ends (d'.text_chars c hc)) hr hs h
  exact ⟨.num (Decimal.text_inj hd), hrest⟩

theorem toldApart_arr {xs ys : List (Data Cell)} (hxs : ∀ x ∈ xs, IsJson x) (hys : ∀ y ∈ ys, IsJson y)
    (h : ∀ x ∈ xs, ∀ y ∈ ys, ToldApart Ends (text cell_text) SameJson x y) :
    ToldApart Ends (text cell_text) SameJson (.arr xs) (.arr ys) := by
  intro r s _ _ htext
  have hopens : ∀ x, IsJson x → Opens (text cell_text) ']' x := by
    intro x hx
    obtain ⟨c, hc, -, hne⟩ := text_head cell_text hx
    exact ⟨c, hc, hne⟩
  simp only [text_arr, List.cons_append, List.append_assoc, List.nil_append] at htext
  obtain ⟨hsame, hrest⟩ := intercalate_inj (by simp [Ends]) (by simp [Ends]) (by decide)
    (fun x hx => hopens x (hxs x hx)) (fun y hy => hopens y (hys y hy)) h (List.cons.inj htext).2
  rw [List.forall₂_iff_zip] at hsame
  exact ⟨.arr hsame.1 fun x y hxy => hsame.2 hxy, hrest⟩

/-- A field is told apart by its quoted key, then by its value. -/
theorem toldApart_field {f g : String × Data Cell} (h : ToldApart Ends (text cell_text) SameJson f.2 g.2) :
    ToldApart Ends (fieldText cell_text) (fun f g => f.1 = g.1 ∧ SameJson f.2 g.2) f g := by
  intro r s hr hs htext
  simp only [fieldText, List.append_assoc, List.cons_append] at htext
  obtain ⟨hkey, hvalue⟩ := quoteString_inj htext
  obtain ⟨hsame, hrest⟩ := h r s hr hs (List.cons.inj hvalue).2
  exact ⟨⟨hkey, hsame⟩, hrest⟩

theorem toldApart_obj {fs gs : List (String × Data Cell)} (hkeys : (gs.map Prod.fst).Nodup)
    (h : ∀ f ∈ fs, ∀ g ∈ gs, ToldApart Ends (text cell_text) SameJson f.2 g.2) :
    ToldApart Ends (text cell_text) SameJson (.obj fs) (.obj gs) := by
  intro r s _ _ htext
  have hopens : ∀ f, Opens (fieldText cell_text) '\x7d' f := fun f =>
    ⟨'"', by simp [fieldText, quoteString], by decide⟩
  simp only [text_obj, List.cons_append, List.append_assoc, List.nil_append] at htext
  obtain ⟨hsame, hrest⟩ := intercalate_inj (by simp [Ends]) (by simp [Ends]) (by decide)
    (fun f _ => hopens f) (fun g _ => hopens g)
    (fun f hf g hg => toldApart_field cell_text (h f (mem_sortFields.1 hf) g (mem_sortFields.1 hg)))
    (List.cons.inj htext).2
  exact ⟨sameJson_obj hkeys hsame, hrest⟩

/-- The first character tells the kinds apart; within a kind the induction is on
the tree. -/
theorem toldApart_text {x : Data Cell} (hx : IsJson x) :
    ∀ y, IsJson y → ToldApart Ends (text cell_text) SameJson x y := by
  induction hx with
  | null =>
    intro y hy r s hr hs h
    have hkind := kind_eq cell_text .null hy h
    cases hy with
    | null => exact ⟨.null, List.append_cancel_left h⟩
    | _ => cases hkind
  | str a =>
    intro y hy r s hr hs h
    have hkind := kind_eq cell_text (.str a) hy h
    cases hy with
    | str b =>
      obtain ⟨rfl, hrest⟩ := quoteString_inj h
      exact ⟨.str a, hrest⟩
    | _ => cases hkind
  | num d =>
    intro y hy r s hr hs h
    have hkind := kind_eq cell_text (.num d) hy h
    cases hy with
    | num d' => exact toldApart_num cell_text d d' r s hr hs h
    | _ => cases hkind
  | bool b =>
    intro y hy r s hr hs h
    have hkind := kind_eq cell_text (.bool b) hy h
    cases hy with
    | bool b' =>
      cases b <;> cases b' <;> simp [text, stableStringify, stringify] at h
      · exact ⟨.bool _, h⟩
      · exact ⟨.bool _, h⟩
    | _ => cases hkind
  | arr hxs ih =>
    intro y hy r s hr hs h
    have hkind := kind_eq cell_text (.arr hxs) hy h
    cases hy with
    | arr hys => exact toldApart_arr cell_text hxs hys (fun x hx y hy => ih x hx y (hys y hy)) r s hr hs h
    | _ => cases hkind
  | obj hkeys hfs ih =>
    intro y hy r s hr hs h
    have hkind := kind_eq cell_text (.obj hkeys hfs) hy h
    cases hy with
    | obj hkeys' hgs =>
      exact toldApart_obj cell_text hkeys' (fun f hf g hg => ih f hf g.2 (hgs g hg)) r s hr hs h
    | _ => cases hkind

theorem stableStringify_congr {x y : Data Cell} (h : SameJson x y) :
    IsJson x → IsJson y → stableStringify cell_text x = stableStringify cell_text y := by
  induction h with
  | null => exact fun _ _ => rfl
  | str s => exact fun _ _ => rfl
  | bool b => exact fun _ _ => rfl
  | num h =>
    intro _ _
    rcases h with rfl | ⟨hd, hd'⟩
    · rfl
    · simp [stableStringify, stringify, JsNumber.toText, Decimal.text, hd, hd']
  | @arr xs ys hlen _ ih =>
    intro hx hy
    cases hx with | arr hxs => ?_
    cases hy with | arr hys => ?_
    have hitems : xs.map (stableStringify cell_text) = ys.map (stableStringify cell_text) := by
      rw [← List.forall₂_eq_eq_eq, List.forall₂_map_left_iff, List.forall₂_map_right_iff, List.forall₂_iff_zip]
      exact ⟨hlen, fun hab => ih _ _ hab (hxs _ (List.of_mem_zip hab).1) (hys _ (List.of_mem_zip hab).2)⟩
    simp only [stableStringify, stableStringify_items_eq, hitems]
  | @obj fs gs hsame _ ih =>
    intro hx hy
    cases hx with | obj hkeys hfs => ?_
    cases hy with | obj hkeys' hgs => ?_
    have hmap : ∀ l : List (String × Data Cell),
        (l.map fun f => (f.1, stableStringify cell_text f.2)).map Prod.fst = l.map Prod.fst := by
      intro l
      simp
    rw [stableStringify_obj, stableStringify_obj]
    congr 4
    rw [stableStringify_fields_eq, stableStringify_fields_eq]
    refine sortFields_congr ((hmap fs).symm ▸ hkeys) ((hmap gs).symm ▸ hkeys') fun f => ?_
    simp only [List.mem_map, Prod.exists]
    constructor
    · rintro ⟨k, x, hf, rfl⟩
      obtain ⟨⟨_, y⟩, hg, rfl⟩ := List.mem_map.1 ((hsame k).1 (List.mem_map_of_mem hf))
      exact ⟨_, y, hg, by rw [ih _ x y hf hg (hfs _ hf) (hgs _ hg)]⟩
    · rintro ⟨k, y, hg, rfl⟩
      obtain ⟨⟨_, x⟩, hf, rfl⟩ := List.mem_map.1 ((hsame k).2 (List.mem_map_of_mem hg))
      exact ⟨_, x, hf, by rw [ih _ x y hf hg (hfs _ hf) (hgs _ hg)]⟩

/-- Two JSON trees have one text exactly if they are equal up to the order of
properties. -/
theorem stableStringify_eq_iff {x y : Data Cell} (hx : IsJson x) (hy : IsJson y) :
    stableStringify cell_text x = stableStringify cell_text y ↔ SameJson x y := by
  constructor
  · intro h
    have htext : text cell_text x ++ [] = text cell_text y ++ [] := by rw [text, text, h]
    exact (toldApart_text cell_text hx y hy [] [] .nil .nil htext).1
  · exact fun h => stableStringify_congr cell_text h hx hy

theorem stableStringify_eq_iff_reordered :
    stableStringify (Empty.elim : Empty → String) (.obj [("b", .null), ("a", .bool true)]) =
      stableStringify Empty.elim (.obj [("a", .bool true), ("b", .null)]) :=
  (stableStringify_eq_iff Empty.elim
    (.obj (by decide) (by simp [IsJson.null, IsJson.bool]))
    (.obj (by decide) (by simp [IsJson.null, IsJson.bool]))).2
    (.obj (by simp [or_comm]) (by
      intro k x y hx hy
      simp only [List.mem_cons, List.not_mem_nil, Prod.mk.injEq, or_false] at hx hy
      rcases hx with ⟨rfl, rfl⟩ | ⟨rfl, rfl⟩ <;> simp at hy <;> subst hy
      · exact .null
      · exact .bool true))

end LainLang.Compiler
