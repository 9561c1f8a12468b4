import Mathlib.Data.List.Nodup
import Mathlib.Data.List.Perm.Basic
import Mathlib.Data.Set.Insert
/-!
# Resources and who holds them

Of the resources that were made, each is held or was given back, once.
-/

namespace LainLang.Lib

variable {R : Type}

/-- Each resource was made once, and is held unless it was given back, which happens
once. -/
structure Balanced (made : List R) (held : Set R) (gone : List R) : Prop where
  made_once : made.Nodup
  gone_once : gone.Nodup
  account : ∀ r, r ∈ made ↔ r ∈ held ∨ r ∈ gone
  apart : ∀ r ∈ held, r ∉ gone

namespace Balanced

variable {made gone : List R} {held : Set R}

theorem start : Balanced ([] : List R) ∅ [] := ⟨List.nodup_nil, List.nodup_nil, by simp, by simp⟩

/-- New resources are held. -/
theorem make (h : Balanced made held gone) {new : List R} (hnew : new.Nodup) (hfresh : ∀ r ∈ new, r ∉ made) :
    Balanced (made ++ new) (held ∪ {r | r ∈ new}) gone where
  made_once := List.Nodup.append h.made_once hnew fun r hr hrnew => hfresh r hrnew hr
  gone_once := h.gone_once
  account r := by
    rw [List.mem_append, h.account]
    simp only [Set.mem_union, Set.mem_ofPred_eq]
    tauto
  apart := by
    rintro r (hr | hr)
    · exact h.apart r hr
    · exact fun hgone => hfresh r hr ((h.account r).2 (.inr hgone))

/-- What is held can be given back. -/
theorem release (h : Balanced made held gone) {rs : List R} (hrs : rs.Nodup) (hheld : ∀ r ∈ rs, r ∈ held) :
    Balanced made (held \ {r | r ∈ rs}) (gone ++ rs) where
  made_once := h.made_once
  gone_once := List.Nodup.append h.gone_once hrs fun r hgone hr => h.apart r (hheld r hr) hgone
  account r := by
    rw [h.account, List.mem_append]
    simp only [Set.mem_sdiff, Set.mem_ofPred_eq]
    have := hheld r
    tauto
  apart := by
    rintro r ⟨hr, hnot⟩ hgone
    rcases List.mem_append.1 hgone with hgone | hgone
    · exact h.apart r hr hgone
    · exact hnot hgone

end Balanced

end LainLang.Lib
