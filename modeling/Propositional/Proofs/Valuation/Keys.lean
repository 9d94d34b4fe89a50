import Mathlib.Data.List.Nodup
import Propositional.Valuation

/-!
# Keys of a valuation

The variables that a valuation gives values to. A valuation without repeated variables is all in its pairs: their order does not
matter for the values (`lookup_eq_of_perm`), and describing it by its pairs gives it back (`ofPairs_eq_self`).
-/

namespace Propositional.Valuation

variable {α : Type}

/-- The variables that have a value, in the order of the valuation. -/
def keys (v : Valuation α) : List α := v.map Prod.fst

/-- The valuation that gives each of the variables the value of a function. -/
def assign (xs : List α) (val : α → Bool) : Valuation α := xs.map fun x => (x, val x)

@[simp] theorem keys_nil : keys ([] : Valuation α) = [] := rfl

@[simp] theorem keys_cons (p : α × Bool) (v : Valuation α) : keys (p :: v) = p.1 :: keys v := rfl

/-- A valuation made for variables has them as keys. -/
@[simp] theorem keys_assign (xs : List α) (val : α → Bool) : (assign xs val).keys = xs := by
  rw [keys, assign, List.map_map]
  exact List.map_id xs

variable [DecidableEq α]

/-- The part of a valuation that is about the given variables. -/
def restrict (xs : List α) (v : Valuation α) : Valuation α := v.filter fun p => p.1 ∈ xs

/-- A valuation that is restricted keeps its keys among the variables. -/
theorem keys_restrict (xs : List α) (v : Valuation α) : (v.restrict xs).keys = v.keys.filter (· ∈ xs) := by
  simp only [keys, restrict, List.filter_map]
  rfl

/-! ## Values of keys -/

theorem lookup_cons_self (p : α × Bool) (v : Valuation α) : List.lookup p.1 (p :: v) = some p.2 := List.lookup_cons_self

theorem lookup_cons_of_ne {p : α × Bool} {x : α} (h : x ≠ p.1) (v : Valuation α) : List.lookup x (p :: v) = v.lookup x := by
  obtain ⟨y, b⟩ := p
  rw [List.lookup_cons, beq_eq_false_iff_ne.mpr h]

/-- A variable has a value exactly if it is a key. -/
theorem isSome_lookup_iff {v : Valuation α} {x : α} : (v.lookup x).isSome ↔ x ∈ v.keys := by
  rw [List.lookup_isSome_iff, keys, List.mem_map]
  simp only [beq_iff_eq, @eq_comm α x]

/-- A variable has the value it is given. -/
theorem lookup_assign {xs : List α} {x : α} (h : x ∈ xs) (val : α → Bool) : (assign xs val).lookup x = some (val x) := by
  induction xs with
  | nil => cases h
  | cons y xs ih =>
    by_cases hy : x = y
    · subst hy
      exact lookup_cons_self (x, val x) (assign xs val)
    · exact (lookup_cons_of_ne hy (assign xs val)).trans (ih ((List.mem_cons.mp h).resolve_left hy))

/-- Restricting a valuation leaves the values of the variables as they are. -/
theorem lookup_restrict {xs : List α} {x : α} (h : x ∈ xs) (v : Valuation α) : (v.restrict xs).lookup x = v.lookup x := by
  induction v with
  | nil => rfl
  | cons p v ih =>
    by_cases hp : x = p.1
    · subst hp
      rw [lookup_cons_self, restrict, List.filter_cons, if_pos (by simpa using h), lookup_cons_self]
    · rw [lookup_cons_of_ne hp, ← ih]
      unfold restrict
      rw [List.filter_cons]
      split
      · exact lookup_cons_of_ne hp _
      · rfl

/-- Without repeated variables, a variable has the value that it is paired with. -/
theorem lookup_eq_some_iff_mem {v : Valuation α} (hv : v.keys.Nodup) {x : α} {b : Bool} : v.lookup x = some b ↔ (x, b) ∈ v := by
  induction v with
  | nil => simp
  | cons p v ih =>
    obtain ⟨hp, hv⟩ := List.nodup_cons.mp hv
    by_cases hx : x = p.1
    · subst hx
      have hnot : (p.1, b) ∉ v := fun h => hp (List.mem_map.mpr ⟨_, h, rfl⟩)
      rw [lookup_cons_self]
      simp [hnot, Prod.ext_iff, eq_comm]
    · have hpair : (x, b) ≠ p := fun h => hx (by rw [← h])
      rw [lookup_cons_of_ne hx]
      simp [ih hv, hpair]

/-- The order of a valuation without repeated variables does not matter for the values. -/
theorem lookup_eq_of_perm {v w : Valuation α} (hv : v.keys.Nodup) (h : w.Perm v) (x : α) : w.lookup x = v.lookup x := by
  have hw : w.keys.Nodup := (h.map Prod.fst).nodup_iff.mpr hv
  ext b
  rw [lookup_eq_some_iff_mem hw, lookup_eq_some_iff_mem hv, h.mem_iff]

/-! ## The same values in another order -/

/-- A valuation with distinct keys gives each of them its value. -/
theorem eq_assign_value {v : Valuation α} (hv : v.keys.Nodup) : v = assign v.keys v.value := by
  have hpair : ∀ p ∈ v, (p.1, v.value p.1) = p := fun p hp => by
    rw [value, (lookup_eq_some_iff_mem hv).mpr hp, Option.getD_some]
  rw [assign, keys, List.map_map]
  exact (List.map_id v).symm.trans (List.map_congr_left fun p hp => (hpair p hp).symm)

/-- A valuation of the same variables gives the same values exactly if it assigns them in its own order. -/
theorem perm_iff_eq_assign {v w : Valuation α} (hv : v.keys.Nodup) (h : w.keys.Perm v.keys) :
    w.Perm v ↔ w = assign w.keys v.value := by
  constructor
  · intro hperm
    have hvalue : w.value = v.value := funext fun x => by rw [value, value, lookup_eq_of_perm hv hperm]
    rw [← hvalue]
    exact eq_assign_value (h.nodup_iff.mpr hv)
  · intro hw
    have hmap : (assign w.keys v.value).Perm (assign v.keys v.value) := h.map _
    rwa [← hw, ← eq_assign_value hv] at hmap

/-! ## Pairs -/

/-- A new key is set behind the others. -/
theorem set_of_notMem {v : Valuation α} {x : α} (h : x ∉ v.keys) (b : Bool) : v.set x b = v ++ [(x, b)] := by
  induction v with
  | nil => rfl
  | cons p v ih =>
    obtain ⟨hp, hv⟩ : x ≠ p.1 ∧ x ∉ keys v := by simpa using h
    rw [set, if_neg (fun he => hp he.symm), ih hv]
    rfl

/-- Pairs without a repeated variable are the valuation that they describe. -/
theorem ofPairs_eq_self {ps : List (α × Bool)} (h : (keys ps).Nodup) : ofPairs ps = ps := by
  have hfold : ∀ (qs : List (α × Bool)) (v : Valuation α), (keys (v ++ qs)).Nodup →
      qs.foldl (fun v p => set p.1 p.2 v) v = v ++ qs := by
    intro qs
    induction qs with
    | nil => intro v _; simp
    | cons q qs ih =>
      intro v hnodup
      have hq : q.1 ∉ keys v := by
        intro hm
        simp only [keys, List.map_append, List.map_cons] at hnodup
        exact (List.nodup_append.mp hnodup).2.2 q.1 hm q.1 List.mem_cons_self rfl
      rw [List.foldl_cons, set_of_notMem hq, ih _ (by simpa using hnodup)]
      simp
  simpa [ofPairs] using hfold ps [] (by simpa using h)

end Propositional.Valuation
