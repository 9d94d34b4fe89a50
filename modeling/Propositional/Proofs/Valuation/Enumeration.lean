import Mathlib.Algebra.Group.Nat.Defs
import Propositional.Proofs.Valuation.Keys

/-!
# The valuations of a list of variables

The enumeration of the valuations of `n` different variables holds each of them exactly once, and there are `2 ^ n`
(`mem_valuations`, `nodup_valuations`, `length_valuations`). Each gives its values to these variables, in their order, and to no
others.
-/

namespace Propositional

/-- There are two to the number of places rows of truth values. -/
theorem length_bitRows (n : Nat) : (bitRows n).length = 2 ^ n := by
  induction n with
  | zero => rfl
  | succ n ih =>
    simp only [bitRows, List.length_append, List.length_map, ih]
    omega

/-- The rows are all lists of truth values with as many places. -/
theorem mem_bitRows {n : Nat} : ∀ {bits : List Bool}, bits ∈ bitRows n ↔ bits.length = n := by
  induction n with
  | zero => simp [bitRows]
  | succ n ih =>
    intro bits
    cases bits with
    | nil => simp [bitRows]
    | cons b bits => cases b <;> simp [bitRows, ih]

/-- No row comes twice. -/
theorem nodup_bitRows (n : Nat) : (bitRows n).Nodup := by
  induction n with
  | zero => simp [bitRows]
  | succ n ih =>
    refine List.nodup_append.mpr ⟨ih.map List.cons_injective, ih.map List.cons_injective, ?_⟩
    intro bits h bits' h'
    obtain ⟨c, -, rfl⟩ := List.mem_map.mp h
    obtain ⟨c', -, rfl⟩ := List.mem_map.mp h'
    simp

namespace Valuation

variable {α : Type}

/-- Names with a value each are the keys of the valuation. -/
theorem keys_zip {xs : List α} {bits : List Bool} (h : bits.length = xs.length) : keys (xs.zip bits) = xs :=
  List.map_fst_zip (Nat.le_of_eq h.symm)

variable [DecidableEq α] {xs : List α}

/-- The valuation of a row of truth values pairs them with the variables. -/
theorem ofPairs_zip (hx : xs.Nodup) {bits : List Bool} (h : bits ∈ bitRows xs.length) :
    ofPairs (xs.zip bits) = xs.zip bits := by
  apply ofPairs_eq_self
  rwa [keys_zip (mem_bitRows.mp h)]

/-- The valuations of different variables are those that give a value to each of them and to nothing else. -/
theorem mem_valuations (hx : xs.Nodup) {v : Valuation α} : v ∈ valuations xs ↔ v.keys = xs := by
  constructor
  · intro h
    obtain ⟨bits, hb, rfl⟩ := List.mem_map.mp h
    rw [ofPairs_zip hx hb, keys_zip (mem_bitRows.mp hb)]
  · rintro rfl
    have hbits : v.map Prod.snd ∈ bitRows v.keys.length := mem_bitRows.mpr (by simp [keys])
    refine List.mem_map.mpr ⟨v.map Prod.snd, hbits, ?_⟩
    rw [ofPairs_zip hx hbits]
    exact (List.zip_of_prod rfl rfl).symm

/-- No valuation of distinct variables comes twice. -/
theorem nodup_valuations (hx : xs.Nodup) : (valuations xs).Nodup := by
  refine List.Nodup.map_on (fun bits hb bits' hb' h => ?_) (nodup_bitRows _)
  rw [ofPairs_zip hx hb, ofPairs_zip hx hb'] at h
  rw [← List.map_snd_zip (Nat.le_of_eq (mem_bitRows.mp hb)), h, List.map_snd_zip (Nat.le_of_eq (mem_bitRows.mp hb'))]

/-- There are two to the number of variables valuations. -/
theorem length_valuations (xs : List α) : (valuations xs).length = 2 ^ xs.length := by
  rw [valuations, List.length_map, length_bitRows]

end Valuation

end Propositional
