import LainLang.Grpc.CardSlotSync
/-!
# Slot keys

A slot key is a card id with a slot behind it and nothing in between. Cutting it
loses no character, and gives back the id and the slot unless the id could be
taken to run into a `::` of its own.
-/
open LainLang.Lib LainLang.Js

namespace LainLang.Grpc

/-- The slots of a card. -/
def card_slots : List String := [slot_code, slot_this, slot_left, slot_right, slot_above, slot_below]

/-- Without `::`, and without a colon at the end that could begin one. -/
def CleanId (id : String) : Prop := includes id "::" = false ∧ endsWith id ":" = false

/-- What an open session sends for the output of a card's slot. -/
def card_output_message (cardId slot : String) (value : Option Json) : ServerMessage :=
  to_card_update_message (cardId ++ slot) (some ⟨cardId, value⟩)

/-! ## Cutting a key -/

theorem dropLast_append_suffix {s t : String} {n : ℕ} (hn : t.toList.length = n) (h : endsWith s t = true) :
    dropLast s n ++ t = s := by
  rw [endsWith, List.isSuffixOf_iff_suffix] at h
  obtain ⟨before, hbefore⟩ := h
  apply String.toList_inj.1
  rw [dropLast, String.toList_append, String.toList_ofList, ← hbefore, ← hn]
  simp

theorem sliceTo_append_sliceFrom (s : String) (n : ℕ) : sliceTo s n ++ sliceFrom s n = s := by
  apply String.toList_inj.1
  simp [sliceTo, sliceFrom]

theorem key_to_card_and_slot_append (key : String) :
    (key_to_card_and_slot key).card_id ++ (key_to_card_and_slot key).slot = key := by
  unfold key_to_card_and_slot
  split
  · rename_i hcode
    have hlen : "code".toList.length = 4 := by decide
    exact dropLast_append_suffix hlen hcode
  · split
    · exact sliceTo_append_sliceFrom key _
    · simp

/-! ## Cutting an id and a slot -/

theorem cleanId_iff {id : String} : CleanId id ↔ NoColons id.toList := by
  have hlast : endsWith id ":" = false ↔ id.toList.getLast? ≠ some ':' := by
    rw [endsWith, ← Bool.not_eq_true, List.isSuffixOf_iff_suffix]
    refine not_congr ⟨?_, fun h => ?_⟩
    · rintro ⟨before, h⟩
      rw [← h]
      exact List.getLast?_concat
    · obtain ⟨before, hbefore⟩ := List.getLast?_eq_some_iff.1 h
      exact ⟨before, hbefore.symm⟩
  rw [CleanId, hlast, includes, indexOf, NoColons]
  simp

/-- Every slot but `code` begins with `::` and does not end in `code`. -/
structure ColonSlot (slot : String) : Prop where
  colons : ∃ letters, slot.toList = ':' :: ':' :: letters
  long : "code".toList.length ≤ slot.toList.length
  not_code : ¬ "code".toList <:+ slot.toList

theorem card_slots_cases {slot : String} (h : slot ∈ card_slots) : slot = slot_code ∨ ColonSlot slot := by
  simp only [card_slots, List.mem_cons, List.not_mem_nil, or_false] at h
  rcases h with rfl | rfl | rfl | rfl | rfl | rfl
  · exact .inl rfl
  all_goals exact .inr ⟨⟨_, rfl⟩, by decide, by decide⟩

theorem ColonSlot.ne_code {slot : String} (h : ColonSlot slot) : slot ≠ slot_code := by
  rintro rfl
  exact h.not_code List.suffix_rfl

theorem ColonSlot.endsWith_append {slot : String} (h : ColonSlot slot) (id : String) :
    endsWith (id ++ slot) "code" = false := by
  rw [endsWith, ← Bool.not_eq_true, List.isSuffixOf_iff_suffix, String.toList_append]
  intro hsuffix
  exact h.not_code (List.suffix_of_suffix_length_le hsuffix (List.suffix_append ..) h.long)

theorem parse_append_code (id : String) : key_to_card_and_slot (id ++ slot_code) = ⟨id, slot_code⟩ := by
  have hcode : endsWith (id ++ slot_code) "code" = true := by
    rw [endsWith, List.isSuffixOf_iff_suffix, String.toList_append]
    exact List.suffix_append ..
  have hid : dropLast (id ++ slot_code) 4 = id := by
    apply String.toList_inj.1
    simp [dropLast, slot_code]
  rw [key_to_card_and_slot, if_pos hcode, hid, slot_code]

/-- The first `::` of the key is that of the slot. -/
theorem parse_append_clean {id slot : String} (hslot : ColonSlot slot) (hid : CleanId id) :
    key_to_card_and_slot (id ++ slot) = ⟨id, slot⟩ := by
  have hindex : indexOf (id ++ slot) "::" = some id.toList.length := by
    obtain ⟨letters, hletters⟩ := hslot.colons
    rw [indexOf, String.toList_append, hletters]
    exact indexOfList_colons (cleanId_iff.1 hid) letters
  rw [key_to_card_and_slot, hslot.endsWith_append, hindex]
  simp [sliceTo, sliceFrom]

theorem clean_of_parse_append {id slot : String} (hslot : ColonSlot slot)
    (h : key_to_card_and_slot (id ++ slot) = ⟨id, slot⟩) : CleanId id := by
  rw [key_to_card_and_slot, hslot.endsWith_append] at h
  cases hi : indexOf (id ++ slot) "::" with
  | none =>
    -- Without a `::` the key has no slot at all.
    rw [hi] at h
    obtain ⟨letters, hletters⟩ := hslot.colons
    have hempty : slot = "" := ((CardAndSlot.mk.injEq ..).mp h).2.symm
    rw [hempty] at hletters
    cases hletters
  | some i =>
    rw [hi] at h
    have hid : sliceTo (id ++ slot) i = id := ((CardAndSlot.mk.injEq ..).mp h).1
    rw [cleanId_iff, ← hid]
    simpa [sliceTo] using noColons_take hi

theorem parse_append_iff {id slot : String} (h : slot ∈ card_slots) :
    key_to_card_and_slot (id ++ slot) = ⟨id, slot⟩ ↔ slot = slot_code ∨ CleanId id := by
  rcases card_slots_cases h with rfl | hslot
  · simp only [true_or, iff_true]
    exact parse_append_code id
  · simp only [hslot.ne_code, false_or]
    exact ⟨clean_of_parse_append hslot, parse_append_clean hslot⟩

/-- Cutting a key loses nothing; it gives back the id and the slot, and a runtime
output reaches the client under them, exactly for `code` and for ids without a
`::` or a colon at the end. -/
theorem slot_key_codec :
    (∀ key, (key_to_card_and_slot key).card_id ++ (key_to_card_and_slot key).slot = key) ∧
      ∀ id slot, slot ∈ card_slots →
        (key_to_card_and_slot (id ++ slot) = ⟨id, slot⟩ ↔ slot = slot_code ∨ CleanId id) ∧
        ∀ value, card_output_message id slot value = .cardUpdate id slot (some ⟨id, value⟩) ↔
          slot = slot_code ∨ CleanId id := by
  refine ⟨key_to_card_and_slot_append, fun id slot h => ⟨parse_append_iff h, fun value => ?_⟩⟩
  rw [← parse_append_iff h, card_output_message, to_card_update_message]
  constructor
  · intro hmessage
    obtain ⟨hid, hslot, -⟩ := (ServerMessage.cardUpdate.injEq ..).mp hmessage
    exact congrArg₂ CardAndSlot.mk hid hslot
  · intro hparse
    rw [hparse]

theorem slot_key_codec_at_this : key_to_card_and_slot ("a:b" ++ slot_this) = ⟨"a:b", slot_this⟩ ∧
    key_to_card_and_slot ("a:" ++ slot_this) ≠ ⟨"a:", slot_this⟩ := by
  have hclean : CleanId "a:b" := by
    unfold CleanId
    decide
  have hcolon : ¬ (slot_this = slot_code ∨ CleanId "a:") := by
    unfold CleanId
    decide
  exact ⟨(slot_key_codec.2 "a:b" slot_this (by decide)).1.2 (.inr hclean),
    mt (slot_key_codec.2 "a:" slot_this (by decide)).1.1 hcolon⟩

end LainLang.Grpc
