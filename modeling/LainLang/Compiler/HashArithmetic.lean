import LainLang.Compiler.Hash
/-!
# The arithmetic of the hash

`simpleHash` adds to a double and wraps only the shifted copy of it. For a text
of fewer than `2 ^ 21` code units no sum is rounded, so the accumulator stays the
true hash up to a multiple of `2 ^ 32`, which `>>> 0` takes away.
-/
open LainLang.Js

namespace LainLang.Compiler

/-- The hash of a list of code units, with no bound on the numbers. -/
def djb2 (codes : List ℕ) : ℕ := codes.foldl (fun h c => 33 * h + c) 5381

/-- The value of `hash` after these code units. -/
def accumulator (codes : List ℕ) : ℤ := codes.foldl hashStep 5381

theorem djb2_append_single (codes : List ℕ) (code : ℕ) : djb2 (codes ++ [code]) = 33 * djb2 codes + code := by
  simp [djb2]

theorem accumulator_append_single (codes : List ℕ) (code : ℕ) :
    accumulator (codes ++ [code]) = hashStep (accumulator codes) code := by
  simp [accumulator]

/-- The accumulator has grown by at most 32 bits a step, and follows the hash. -/
structure Follows (hash : ℤ) (codes : List ℕ) : Prop where
  bound : hash.natAbs ≤ 5381 + codes.length * (2 ^ 31 + 2 ^ 16)
  congruent : hash % 2 ^ 32 = djb2 codes % 2 ^ 32

theorem Follows.lt {hash : ℤ} {codes : List ℕ} (h : Follows hash codes) (hlen : codes.length < 2 ^ 21) :
    hash.natAbs < 2 ^ 53 := by
  have := h.bound
  -- `2 ^ 21 * 2 ^ 31` is `2 ^ 52`, which leaves room for the code units.
  omega

theorem Follows.step {hash : ℤ} {codes : List ℕ} (h : Follows hash codes) {code : ℕ} (hcode : code < 2 ^ 16)
    (hlen : codes.length < 2 ^ 21) : Follows (hashStep hash code) (codes ++ [code]) := by
  have hbound := h.bound
  obtain ⟨hmod, hle⟩ := @hashStep_spec hash code hcode (by omega)
  refine ⟨?_, ?_⟩
  · rw [List.length_append, List.length_singleton]
    omega
  · have hcongruent := h.congruent
    rw [djb2_append_single, hmod]
    push_cast
    -- The step keeps the congruence, since it adds the code to 33 times the hash.
    omega

theorem follows_accumulator {codes : List ℕ} (hcodes : ∀ code ∈ codes, code < 2 ^ 16) (hlen : codes.length < 2 ^ 21) :
    Follows (accumulator codes) codes := by
  induction codes using List.reverseRecOn with
  | nil => exact ⟨le_rfl, rfl⟩
  | append_singleton codes code ih =>
    rw [List.length_append, List.length_singleton] at hlen
    have hcode : code < 2 ^ 16 := hcodes code (by simp)
    have hprev := ih (fun c hc => hcodes c (List.mem_append_left _ hc)) (by omega)
    rw [accumulator_append_single]
    exact hprev.step hcode (by omega)

/-- Neither sum of a step is rounded. -/
theorem Follows.hashStep_eq {hash : ℤ} {codes : List ℕ} (h : Follows hash codes) {code : ℕ} (hcode : code < 2 ^ 16)
    (hlen : codes.length < 2 ^ 21) :
    roundDouble (shiftLeft hash 5 + hash) = shiftLeft hash 5 + hash ∧
      hashStep hash code = shiftLeft hash 5 + hash + code := by
  have hbound := h.bound
  have hlt : shiftLeft hash 5 < 2 ^ 31 := Int.bmod_lt (by norm_num)
  have hge : -(2 ^ 31) ≤ shiftLeft hash 5 := Int.le_bmod (by norm_num)
  have hsum : roundDouble (shiftLeft hash 5 + hash) = shiftLeft hash 5 + hash := roundDouble_of_lt (by omega)
  exact ⟨hsum, by rw [hashStep, hsum, roundDouble_of_lt (by omega)]⟩

/-- The hash of a text is the true one on 32 bits. On the way there the
accumulator is exact, and so are the two sums of every step. -/
theorem simpleHash_precise (str : String) (h : (utf16 str).length < 2 ^ 21) :
    simpleHash str = String.ofList (Nat.toDigits 16 (djb2 (utf16 str) % 2 ^ 32)) ∧
      (∀ codes, codes <+: utf16 str →
        (accumulator codes).natAbs < 2 ^ 53 ∧ accumulator codes % 2 ^ 32 = djb2 codes % 2 ^ 32) ∧
      ∀ (codes : List ℕ) (code : ℕ), codes ++ [code] <+: utf16 str →
        roundDouble (shiftLeft (accumulator codes) 5 + accumulator codes) =
            shiftLeft (accumulator codes) 5 + accumulator codes ∧
          accumulator (codes ++ [code]) = shiftLeft (accumulator codes) 5 + accumulator codes + code := by
  have hunits : ∀ code ∈ utf16 str, code < 2 ^ 16 := fun code => utf16_lt
  have hfollows : ∀ codes, codes <+: utf16 str → codes.length < 2 ^ 21 ∧ Follows (accumulator codes) codes := by
    intro codes hcodes
    have hlen : codes.length < 2 ^ 21 := hcodes.length_le.trans_lt h
    exact ⟨hlen, follows_accumulator (fun c hc => hunits c (hcodes.subset hc)) hlen⟩
  refine ⟨?_, fun codes hcodes => ?_, fun codes code hcodes => ?_⟩
  · have hmod : accumulator (utf16 str) % 2 ^ 32 = (djb2 (utf16 str) : ℤ) % 2 ^ 32 :=
      (hfollows _ List.prefix_rfl).2.congruent
    have hnat : (accumulator (utf16 str) % 2 ^ 32).toNat = djb2 (utf16 str) % 2 ^ 32 := by omega
    rw [← hnat]
    rfl
  · obtain ⟨hlen, hf⟩ := hfollows codes hcodes
    exact ⟨hf.lt hlen, hf.congruent⟩
  · obtain ⟨hlen, hf⟩ := hfollows codes ((List.prefix_append codes [code]).trans hcodes)
    rw [accumulator_append_single]
    exact hf.hashStep_eq (hunits code (hcodes.subset (by simp))) hlen

theorem simpleHash_precise_word :
    (utf16 "lain").length < 2 ^ 21 ∧ simpleHash "lain" = String.ofList (Nat.toDigits 16 (djb2 (utf16 "lain") % 2 ^ 32)) :=
  ⟨by decide, (simpleHash_precise "lain" (by decide)).1⟩

end LainLang.Compiler
