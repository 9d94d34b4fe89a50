import Mathlib.Data.List.Nodup
import Propositional.Proofs.Valuation.Enumeration

/-!
# The order of the valuations

The valuations of a list of variables stand in the order of the logic books. The values of a row are the binary digits of the
number of rows behind it, the first variable having the highest digit (`Valuation.lookup_of_getElem?_valuations`). So the rows
decrease in the lexicographic order of the variables, and each variable changes its value at a pace of its own
(`valuations_textbook`).
-/

namespace Propositional

/-! ## Rows of truth values -/

/-- With one more place the rows come twice, first with true before them and then with false. -/
theorem getElem?_bitRows_succ (n i : Nat) : (bitRows (n + 1))[i]? =
    if i < 2 ^ n then (bitRows n)[i]?.map (true :: ·) else (bitRows n)[i - 2 ^ n]?.map (false :: ·) := by
  rw [bitRows, List.getElem?_append, List.length_map, length_bitRows]
  split <;> rw [List.getElem?_map]

/-- A row has a number below the number of rows. -/
theorem lt_of_getElem?_bitRows {n i : Nat} {bits : List Bool} (h : (bitRows n)[i]? = some bits) : i < 2 ^ n := by
  obtain ⟨hi, -⟩ := List.getElem?_eq_some_iff.mp h
  rwa [length_bitRows] at hi

/-- The value in place `j` of row `i` is false if the number of the row has the digit of that place, and true otherwise. The first
place tells the two halves of the rows apart; the others have the same digits in both. -/
theorem getElem?_of_getElem?_bitRows {n i : Nat} {bits : List Bool} (h : (bitRows n)[i]? = some bits) {j : Nat} (hj : j < n) :
    bits[j]? = some !i.testBit (n - 1 - j) := by
  induction n generalizing i bits j with
  | zero => omega
  | succ n ih =>
    have hi := lt_of_getElem?_bitRows h
    rw [getElem?_bitRows_succ] at h
    split at h
    · rename_i hlt
      obtain ⟨rest, hrest, rfl⟩ := Option.map_eq_some_iff.mp h
      cases j with
      | zero => simp [Nat.testBit_lt_two_pow hlt]
      | succ j =>
        have ih := ih hrest (Nat.lt_of_succ_lt_succ hj)
        rwa [List.getElem?_cons_succ, show n + 1 - 1 - (j + 1) = n - 1 - j by omega]
    · rename_i hge
      obtain ⟨rest, hrest, rfl⟩ := Option.map_eq_some_iff.mp h
      obtain ⟨k, rfl⟩ : ∃ k, i = 2 ^ n + k := ⟨i - 2 ^ n, by omega⟩
      rw [Nat.add_sub_cancel_left] at hrest
      cases j with
      | zero =>
        have hk : k < 2 ^ n := lt_of_getElem?_bitRows hrest
        simp [Nat.testBit_two_pow_add_eq, Nat.testBit_lt_two_pow hk]
      | succ j =>
        have ih := ih hrest (Nat.lt_of_succ_lt_succ hj)
        rwa [List.getElem?_cons_succ, show n + 1 - 1 - (j + 1) = n - 1 - j by omega, Nat.testBit_two_pow_add_gt (by omega)]

/-- The rows are in decreasing order. -/
theorem pairwise_bitRows (n : Nat) : (bitRows n).Pairwise fun bits bits' => bits' < bits := by
  induction n with
  | zero => simp [bitRows]
  | succ n ih =>
    have hhalf : ∀ b : Bool, ((bitRows n).map (b :: ·)).Pairwise fun bits bits' => bits' < bits := fun b =>
      List.pairwise_map.mpr (ih.imp fun h => List.cons_lt_cons_iff.mpr (.inr ⟨rfl, h⟩))
    refine List.pairwise_append.mpr ⟨hhalf true, hhalf false, fun bits h bits' h' => ?_⟩
    obtain ⟨rest, -, rfl⟩ := List.mem_map.mp h
    obtain ⟨rest', -, rfl⟩ := List.mem_map.mp h'
    exact List.cons_lt_cons_iff.mpr (.inl (by decide))

/-- The number of rows behind a row has the digits that the number of the row has not. -/
theorem testBit_behind {n i k : Nat} (hi : i < 2 ^ n) (hk : k < n) : (2 ^ n - 1 - i).testBit k = !i.testBit k := by
  rw [Nat.sub_sub, Nat.add_comm, Nat.testBit_two_pow_sub_succ hi, decide_eq_true hk, Bool.true_and]

/-- A binary digit stays when a number is followed by the next, unless the next is a multiple of the digit's weight. -/
theorem testBit_succ_ne_iff (i k : Nat) : (i + 1).testBit k ≠ i.testBit k ↔ 2 ^ k ∣ i + 1 := by
  rw [Nat.testBit_eq_decide_div_mod_eq, Nat.testBit_eq_decide_div_mod_eq, Nat.succ_div, ne_eq, decide_eq_decide]
  split <;> omega

/-! ## Valuations -/

namespace Valuation

variable {α : Type} [DecidableEq α] {xs : List α}

/-- The rows are the values of the valuations, in the order of the variables. -/
theorem map_snd_ofPairs_zip (hx : xs.Nodup) {bits : List Bool} (h : bits ∈ bitRows xs.length) :
    (ofPairs (xs.zip bits)).map Prod.snd = bits := by
  rw [ofPairs_zip hx h, List.map_snd_zip (Nat.le_of_eq (mem_bitRows.mp h))]

/-- The value of a variable in row `i` is the digit of its place in the number of rows behind. -/
theorem lookup_of_getElem?_valuations (hx : xs.Nodup) {i : Nat} {v : Valuation α} (h : (valuations xs)[i]? = some v) {j : Nat}
    {x : α} (hj : xs[j]? = some x) : v.lookup x = some ((2 ^ xs.length - 1 - i).testBit (xs.length - 1 - j)) := by
  obtain ⟨bits, hbits, rfl⟩ := Option.map_eq_some_iff.mp ((List.getElem?_map ..).symm.trans h)
  have hmem := List.mem_of_getElem? hbits
  obtain ⟨hlt, -⟩ := List.getElem?_eq_some_iff.mp hj
  have hpair : (x, !i.testBit (xs.length - 1 - j)) ∈ xs.zip bits :=
    List.mem_of_getElem? (List.getElem?_zip_eq_some.mpr ⟨hj, getElem?_of_getElem?_bitRows hbits hlt⟩)
  rw [ofPairs_zip hx hmem, testBit_behind (lt_of_getElem?_bitRows hbits) (by omega)]
  exact (lookup_eq_some_iff_mem (by rwa [keys_zip (mem_bitRows.mp hmem)])).mpr hpair

/-- A row whose number has the same digit in all places gives all variables the same value. -/
theorem eq_assign_of_getElem?_valuations (hx : xs.Nodup) {i : Nat} {v : Valuation α} (h : (valuations xs)[i]? = some v) {b : Bool}
    (hb : ∀ k < xs.length, (2 ^ xs.length - 1 - i).testBit k = b) : v = assign xs fun _ => b := by
  have hkeys := (mem_valuations hx).mp (List.mem_of_getElem? h)
  have hv : v = assign v.keys v.value := eq_assign_value (by rwa [hkeys])
  rw [hkeys] at hv
  rw [hv]
  refine List.map_congr_left fun x hm => congrArg (x, ·) ?_
  obtain ⟨j, hj⟩ := List.getElem?_of_mem hm
  obtain ⟨hlt, -⟩ := List.getElem?_eq_some_iff.mp hj
  rw [value, lookup_of_getElem?_valuations hx h hj, Option.getD_some, hb _ (by omega)]

end Valuation

/-- The enumeration of the valuations of `n` different variables is that of the logic books: it has `2 ^ n` rows, every
assignment of truth values to the variables is one of them exactly once, each row lists the variables in their order, and the
rows strictly decrease in the lexicographic order of their values with true above false, from all true to all false. In row `i`
the variable in place `j` has the binary digit `n - 1 - j` of `2 ^ n - 1 - i` for its value, and it changes its value after
every `2 ^ (n - 1 - j)` rows and nowhere else. -/
theorem valuations_textbook {α : Type} [DecidableEq α] {xs : List α} (hx : xs.Nodup) :
    (valuations xs).length = 2 ^ xs.length ∧
    (∀ val : α → Bool, (valuations xs).count (Valuation.assign xs val) = 1) ∧
    (∀ v ∈ valuations xs, v.keys = xs) ∧
    (valuations xs).Pairwise (fun v w => w.map Prod.snd < v.map Prod.snd) ∧
    (valuations xs).head? = some (Valuation.assign xs fun _ => true) ∧
    (valuations xs).getLast? = some (Valuation.assign xs fun _ => false) ∧
    ∀ (i : Nat) (v : Valuation α), (valuations xs)[i]? = some v → ∀ (j : Nat) (x : α), xs[j]? = some x →
      v.lookup x = some ((2 ^ xs.length - 1 - i).testBit (xs.length - 1 - j)) ∧
      ∀ w, (valuations xs)[i + 1]? = some w → (w.value x ≠ v.value x ↔ 2 ^ (xs.length - 1 - j) ∣ i + 1) := by
  have hlength := Valuation.length_valuations xs
  have hpos : 0 < 2 ^ xs.length := Nat.two_pow_pos _
  refine ⟨hlength, fun val => ?_, fun v hv => (Valuation.mem_valuations hx).mp hv, ?_, ?_, ?_, fun i v hv j x hj => ?_⟩
  · exact List.count_eq_one_of_mem (Valuation.nodup_valuations hx)
      ((Valuation.mem_valuations hx).mpr (Valuation.keys_assign xs val))
  · refine List.pairwise_map.mpr ((pairwise_bitRows xs.length).imp_of_mem fun hb hb' h => ?_)
    rwa [Valuation.map_snd_ofPairs_zip hx hb, Valuation.map_snd_ofPairs_zip hx hb']
  · obtain ⟨v, hv⟩ : ∃ v, (valuations xs)[0]? = some v := ⟨_, List.getElem?_eq_getElem (by omega)⟩
    rw [List.head?_eq_getElem?, hv, Valuation.eq_assign_of_getElem?_valuations hx hv fun k hk => ?_]
    rw [Nat.sub_zero, Nat.testBit_two_pow_sub_one, decide_eq_true hk]
  · obtain ⟨v, hv⟩ : ∃ v, (valuations xs)[2 ^ xs.length - 1]? = some v := ⟨_, List.getElem?_eq_getElem (by omega)⟩
    rw [List.getLast?_eq_getElem?, hlength, hv, Valuation.eq_assign_of_getElem?_valuations hx hv fun k _ => ?_]
    rw [Nat.sub_self, Nat.zero_testBit]
  · have hlookup := Valuation.lookup_of_getElem?_valuations hx hv hj
    refine ⟨hlookup, fun w hw => ?_⟩
    obtain ⟨hi, -⟩ := List.getElem?_eq_some_iff.mp hw
    obtain ⟨hlt, -⟩ := List.getElem?_eq_some_iff.mp hj
    rw [hlength] at hi
    rw [Valuation.value, Valuation.value, hlookup, Valuation.lookup_of_getElem?_valuations hx hw hj, Option.getD_some,
      Option.getD_some, testBit_behind hi (by omega), testBit_behind (by omega) (by omega), ← testBit_succ_ne_iff]
    exact not_congr Bool.not_inj_iff

/-- Two variables in an order that is not the alphabetical one. The second variable changes its value after every row, and the
first one between the second row and the third. -/
theorem valuations_textbook_b_a : ['B', 'A'].Nodup ∧
    valuations ['B', 'A'] = [[('B', true), ('A', true)], [('B', true), ('A', false)], [('B', false), ('A', true)],
      [('B', false), ('A', false)]] ∧
    (valuations ['B', 'A']).length = 2 ^ 2 ∧
    (valuations ['B', 'A']).count (Valuation.assign ['B', 'A'] (· == 'A')) = 1 ∧
    (valuations ['B', 'A']).Pairwise (fun v w => w.map Prod.snd < v.map Prod.snd) ∧
    (valuations ['B', 'A']).getLast? = some [('B', false), ('A', false)] ∧
    Valuation.value [('B', false), ('A', true)] 'B' ≠ Valuation.value [('B', true), ('A', false)] 'B' := by
  obtain ⟨hlength, hcount, -, horder, -, hlast, hrows⟩ := valuations_textbook (show ['B', 'A'].Nodup by decide)
  exact ⟨by decide, by decide, hlength, hcount _, horder, hlast, ((hrows 1 _ rfl 0 'B' rfl).2 _ rfl).mpr (by decide)⟩

end Propositional
