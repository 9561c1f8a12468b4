import LainLang.Js.Json
import LainLang.Lib.Effect
import LainLang.Lib.OrdMap
import Mathlib.Data.Int.Init
/-!
# Content hashes

`get_hash` hashes the text of an object and remembers the hash under the
object's identity. The text of a cell, an object of the propagator library, is a
parameter: `cell_text`.
-/
open LainLang.Lib LainLang.Js

namespace LainLang.Compiler

/-! ## Text -/

/-- Data that is hashed: plain data in which cells stand. -/
inductive Data (Cell : Type) where
  | null
  | str (s : String)
  | num (n : JsNumber)
  | bool (b : Bool)
  | cell (c : Cell)
  | arr (items : List (Data Cell))
  | obj (fields : List (String × Data Cell))

section text
variable {Cell : Type} (cell_text : Cell → String)

mutual

/-- The keys of an object are distinct, so sorting them sorts its fields. -/
def stableStringify : Data Cell → String
  | .null => stringify .null
  | .str s => stringify (.str s)
  | .num n => stringify (.num n)
  | .bool b => stringify (.bool b)
  | .cell c => cell_text c
  | .arr items => "[" ++ ",".intercalate (stableStringify_items items) ++ "]"
  | .obj fields =>
    let sorted := (stableStringify_fields fields).insertionSort (fun f g => stringLe f.1 g.1 = true)
    "\x7b" ++ ",".intercalate (sorted.map fun f => quoteString f.1 ++ ":" ++ f.2) ++ "\x7d"

/-- `obj.map(stableStringify)` of an array. -/
def stableStringify_items : List (Data Cell) → List String
  | [] => []
  | x :: xs => stableStringify x :: stableStringify_items xs

/-- The fields of an object with their texts, not sorted yet. -/
def stableStringify_fields : List (String × Data Cell) → List (String × String)
  | [] => []
  | (k, x) :: fs => (k, stableStringify x) :: stableStringify_fields fs

end

end text

/-! ## Hashes -/

/-- The double nearest to an integer; a tie goes to the even one. -/
def roundDouble (x : ℤ) : ℤ :=
  let e := x.natAbs.log2 - 52
  let q := x.natAbs / 2 ^ e
  let r := x.natAbs % 2 ^ e
  x.sign * (if 2 * r < 2 ^ e ∨ 2 * r = 2 ^ e ∧ q % 2 = 0 then q * 2 ^ e else (q + 1) * 2 ^ e)

/-- `x << n`, on 32 bits. -/
def shiftLeft (x : ℤ) (n : ℕ) : ℤ := Int.bmod (Int.bmod x (2 ^ 32) * 2 ^ n) (2 ^ 32)

/-- The sums are sums of doubles. -/
def hashStep (hash : ℤ) (code : ℕ) : ℤ := roundDouble (roundDouble (shiftLeft hash 5 + hash) + code)

/-- `(hash >>> 0).toString(16)`. -/
def hexText (hash : ℤ) : String := String.ofList (Nat.toDigits 16 (hash % 2 ^ 32).toNat)

/-- The djb2 hash, computed on doubles and truncated at the end. -/
def simpleHash (str : String) : String := hexText ((utf16 str).foldl hashStep 5381)

/-! ### Texts with the same hash -/

theorem roundDouble_of_lt {x : ℤ} (h : x.natAbs < 2 ^ 53) : roundDouble x = x := by
  have hlog : x.natAbs.log2 - 52 = 0 := by
    by_cases h0 : x.natAbs = 0
    · simp [h0]
    · have := (Nat.log2_lt h0).2 h
      omega
  simp only [roundDouble, hlog, pow_zero, Nat.div_one, Nat.mod_one, mul_zero, mul_one]
  exact Int.sign_mul_natAbs x

/-- While no sum needs rounding, a step is `33 * hash + code` up to `2 ^ 32`, and
adds at most 32 bits. -/
theorem hashStep_spec {hash : ℤ} {code : ℕ} (hcode : code < 2 ^ 16) (h : hash.natAbs + (2 ^ 31 + 2 ^ 16) < 2 ^ 53) :
    hashStep hash code % 2 ^ 32 = (33 * hash + code) % 2 ^ 32 ∧
      (hashStep hash code).natAbs ≤ hash.natAbs + (2 ^ 31 + 2 ^ 16) := by
  have hle : shiftLeft hash 5 < 2 ^ 31 := Int.bmod_lt (by norm_num)
  have hge : -(2 ^ 31) ≤ shiftLeft hash 5 := Int.le_bmod (by norm_num)
  have hmod : shiftLeft hash 5 % 2 ^ 32 = hash * 2 ^ 5 % 2 ^ 32 := by
    rw [shiftLeft, Int.bmod_mul_bmod]
    exact Int.bmod_emod
  have hsum : roundDouble (shiftLeft hash 5 + hash) = shiftLeft hash 5 + hash := roundDouble_of_lt (by omega)
  have hstep : hashStep hash code = shiftLeft hash 5 + hash + code := by
    rw [hashStep, hsum, roundDouble_of_lt (by omega)]
  rw [hstep]
  constructor <;> omega

/-- The code units of a text as digits to the base 33, after the digits `hash`. -/
def polynomial (hash : ℤ) (codes : List ℕ) : ℤ := codes.foldl (fun (hash : ℤ) (code : ℕ) => 33 * hash + code) hash

theorem polynomial_emod {hash hash' : ℤ} (h : hash % 2 ^ 32 = hash' % 2 ^ 32) (codes : List ℕ) :
    polynomial hash codes % 2 ^ 32 = polynomial hash' codes % 2 ^ 32 := by
  induction codes generalizing hash hash' with
  | nil => exact h
  | cons code codes ih =>
    have hstep : (33 * hash + code) % 2 ^ 32 = (33 * hash' + code) % 2 ^ 32 := by omega
    exact ih hstep

theorem foldl_hashStep {hash : ℤ} {codes : List ℕ} (hcodes : ∀ code ∈ codes, code < 2 ^ 16)
    (h : hash.natAbs + codes.length * (2 ^ 31 + 2 ^ 16) < 2 ^ 53) :
    codes.foldl hashStep hash % 2 ^ 32 = polynomial hash codes % 2 ^ 32 := by
  induction codes generalizing hash with
  | nil => rfl
  | cons code codes ih =>
    simp only [List.length_cons] at h
    obtain ⟨hmod, hle⟩ := @hashStep_spec hash code (hcodes code List.mem_cons_self) (by omega)
    have hbound : (hashStep hash code).natAbs + codes.length * (2 ^ 31 + 2 ^ 16) < 2 ^ 53 := by omega
    rw [List.foldl_cons, ih (fun c hc => hcodes c (List.mem_cons_of_mem _ hc)) hbound]
    exact polynomial_emod hmod codes

theorem utf16_lt {str : String} {code : ℕ} (h : code ∈ utf16 str) : code < 2 ^ 16 := by
  obtain ⟨c, -, hc⟩ := List.mem_flatMap.1 h
  unfold utf16Units at hc
  have hvalid : c.toNat < 0xd800 ∨ 0xdfff < c.toNat ∧ c.toNat < 0x110000 := c.valid
  dsimp only at hc
  split at hc
  · simp only [List.mem_singleton] at hc
    omega
  · simp only [List.mem_cons, List.not_mem_nil, or_false] at hc
    omega

/-- The hash of a text below two million code units is that of its digits. -/
theorem simpleHash_eq {str : String} (h : (utf16 str).length ≤ 2 ^ 21) :
    simpleHash str = hexText (polynomial 5381 (utf16 str)) := by
  unfold simpleHash hexText
  rw [foldl_hashStep (fun code => utf16_lt) (by omega)]

/-- Two neighbouring code units may be exchanged for any two of the same weight. -/
theorem simpleHash_exchange {pair pair' : String} {c d c' d' : ℕ} (hpair : utf16 pair = [c, d])
    (hpair' : utf16 pair' = [c', d']) (hweight : 33 * c + d = 33 * c' + d') {before after : String}
    (h : before.utf8ByteSize + after.utf8ByteSize < 2 ^ 20) :
    simpleHash (before ++ pair ++ after) = simpleHash (before ++ pair' ++ after) := by
  have hbefore := length_utf16_le before
  have hafter := length_utf16_le after
  rw [simpleHash_eq (by simp [hpair]; omega), simpleHash_eq (by simp [hpair']; omega)]
  congr 1
  simp only [utf16_append, hpair, hpair', polynomial, List.foldl_append, List.foldl_cons, List.foldl_nil]
  congr 1
  have : (33 * c + d : ℤ) = 33 * c' + d' := by exact_mod_cast hweight
  linarith

/-! ## The hash store -/

section store
variable {Obj : Type}

/-- A cell of the `FinalizationRegistry`. -/
structure Registration (Obj : Type) where
  target : Obj
  heldValue : String
  unregisterToken : Option Obj

/-- `hashToRef` holds weak references, and `collected` are the objects that the
collector has taken. -/
structure HashStore (Obj : Type) where
  hashToRef : OrdMap String Obj
  objectToHash : OrdMap Obj String
  registry : List (Registration Obj)
  collected : List Obj

/-- `new HashStore()`. -/
def HashStore.empty : HashStore Obj := ⟨.empty, .empty, [], []⟩

variable [DecidableEq Obj]

namespace HashStore

/-- `ref.deref()`. -/
def deref (store : HashStore Obj) (obj : Obj) : Option Obj := if obj ∈ store.collected then none else some obj

/-- `hashToRef.delete(hash)`. -/
def dropHash (store : HashStore Obj) (hash : String) : HashStore Obj :=
  { store with hashToRef := store.hashToRef.delete hash }

/-- The live object in the slot of a hash. -/
def get (hash : String) (store : HashStore Obj) : Option Obj × HashStore Obj :=
  match store.hashToRef.get? hash with
  | none => (none, store)
  | some ref =>
    match store.deref ref with
    -- The object was collected, its entry goes too.
    | none => (none, store.dropHash hash)
    | some obj => (some obj, store)

/-- The object is registered without a token to unregister it by. -/
def set (hash : String) (obj : Obj) (store : HashStore Obj) : HashStore Obj :=
  { store with
    hashToRef := store.hashToRef.set hash obj
    objectToHash := store.objectToHash.set obj hash
    registry := store.registry ++ [⟨obj, hash, none⟩] }

/-- `has` looks as `get` does. -/
def has (hash : String) (store : HashStore Obj) : Bool × HashStore Obj :=
  ((store.get hash).1.isSome, (store.get hash).2)

/-- `created` is what the creator would return. -/
def get_or_set (hash : String) (created : Obj) (store : HashStore Obj) : Obj × HashStore Obj :=
  match store.get hash with
  | (some existing, store) => (existing, store)
  | (none, store) => (created, store.set hash created)

/-- `objectToHash.get(obj)`, with `undefined` read as the other false string. -/
def remembered (store : HashStore Obj) (obj : Obj) : String := (store.objectToHash.get? obj).getD ""

/-- `registry.unregister(token)`. -/
def unregister (token : Obj) (store : HashStore Obj) : HashStore Obj :=
  { store with registry := store.registry.filter (·.unregisterToken ≠ some token) }

/-- Clears the slot of the hash remembered for an object, whoever is in it. -/
def delete (obj : Obj) (store : HashStore Obj) : HashStore Obj :=
  let hash := store.remembered obj
  if hash = "" then store
  else
    let objectToHash := store.objectToHash.delete obj
    ({ store with hashToRef := store.hashToRef.delete hash, objectToHash } : HashStore Obj).unregister obj

/-- Clears the slot of a hash, and what is remembered for the object in it. -/
def deleteByHash (hash : String) (store : HashStore Obj) : HashStore Obj :=
  match store.hashToRef.get? hash with
  | none => store
  | some ref =>
    match store.deref ref with
    | none => store.dropHash hash
    | some obj =>
      (({ store with objectToHash := store.objectToHash.delete obj } : HashStore Obj).unregister obj).dropHash hash

end HashStore

/-- `serialized` is the text of the object when it is hashed. -/
def calculate_hash (serialized : String) (obj : Obj) : StateM (HashStore Obj) String := do
  let hash := simpleHash serialized
  if ¬ (← modifyGet (HashStore.has hash)) then
    modify (HashStore.set hash obj)
  return hash

/-- The remembered hash, or that of the text, under which the object is stored then. -/
def get_hash (serialized : String) (obj : Obj) : StateM (HashStore Obj) String := do
  let existingHash := (← get).remembered obj
  if existingHash ≠ "" then
    return existingHash
  else
    let hash ← calculate_hash serialized obj
    modify (HashStore.set hash obj)
    return hash

/-! ### What hashing an object does -/

variable {Cell : Type} (cell_text : Cell → String) (data : Obj → Data Cell)

/-- The hash of an object: the one the store remembers, or else that of its text. -/
def HashStore.hashOf (store : HashStore Obj) (obj : Obj) : String :=
  if store.remembered obj ≠ "" then store.remembered obj
  else simpleHash (stableStringify cell_text (data obj))

theorem simpleHash_ne_empty (str : String) : simpleHash str ≠ "" := by
  intro h
  have hlist := congrArg String.toList h
  simp only [simpleHash, hexText, String.toList_ofList, String.toList_empty] at hlist
  exact Nat.toDigits_ne_nil hlist

theorem remembered_set (hash : String) (obj obj' : Obj) (store : HashStore Obj) :
    (store.set hash obj).remembered obj' = if obj' = obj then hash else store.remembered obj' := by
  simp only [HashStore.remembered, HashStore.set, OrdMap.get?_set]
  split <;> rfl

/-- Looking a hash up makes no object forget its own. -/
theorem remembered_has (hash : String) (store : HashStore Obj) (obj : Obj) :
    (store.has hash).2.remembered obj = store.remembered obj := by
  unfold HashStore.has HashStore.get
  cases store.hashToRef.get? hash with
  | none => rfl
  | some ref =>
    dsimp only
    cases store.deref ref with
    | none => rfl
    | some obj => rfl

theorem calculate_hash_run (serialized : String) (obj : Obj) (store : HashStore Obj) :
    (calculate_hash serialized obj).run store =
      (simpleHash serialized, if (store.has (simpleHash serialized)).1 then (store.has (simpleHash serialized)).2
        else (store.has (simpleHash serialized)).2.set (simpleHash serialized) obj) := by
  cases h : (store.has (simpleHash serialized)).1
  · simp [calculate_hash, h]; rfl
  · simp [calculate_hash, h]; rfl

/-- The hash that is remembered is returned; otherwise that of the text is, and the object
takes its slot. -/
theorem get_hash_eq (serialized : String) (obj : Obj) (store : HashStore Obj) :
    (get_hash serialized obj).run store =
      if store.remembered obj ≠ "" then (store.remembered obj, store)
      else (simpleHash serialized, ((calculate_hash serialized obj).run store).2.set (simpleHash serialized) obj) := by
  by_cases h : store.remembered obj = ""
  · simp [get_hash, h, calculate_hash_run]; rfl
  · simp [get_hash, h]; rfl

/-- Hashing an object returns its hash and changes the hash of no object. -/
theorem get_hash_run (obj : Obj) (store : HashStore Obj) :
    ∃ store', (get_hash (stableStringify cell_text (data obj)) obj).run store =
      (store.hashOf cell_text data obj, store') ∧
      ∀ obj', store'.hashOf cell_text data obj' = store.hashOf cell_text data obj' := by
  rw [get_hash_eq]
  by_cases h : store.remembered obj = ""
  · rw [if_neg (not_not.2 h)]
    refine ⟨_, by rw [HashStore.hashOf, if_neg (not_not.2 h)], fun obj' => ?_⟩
    have hkept : ∀ other, other ≠ obj →
        ((calculate_hash (stableStringify cell_text (data obj)) obj).run store).2.remembered other =
          store.remembered other := by
      intro other hne
      rw [calculate_hash_run]
      dsimp only
      split
      · exact remembered_has ..
      · rw [remembered_set, if_neg hne, remembered_has]
    simp only [HashStore.hashOf, remembered_set]
    by_cases hobj : obj' = obj
    · simp [hobj, h, simpleHash_ne_empty]
    · simp [hobj, hkept obj' hobj]
  · exact ⟨store, by rw [if_pos h, HashStore.hashOf, if_pos h], fun _ => rfl⟩

end store

end LainLang.Compiler
