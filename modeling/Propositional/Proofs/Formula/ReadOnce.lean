import Mathlib.Data.List.Nodup
import Mathlib.Data.List.Perm.Subperm
import Mathlib.Logic.Function.Basic
import Mathlib.Tactic.Ring
import Propositional.Proofs.Formula.Bracketing

/-!
# Trees that read every leaf once

The leaves of such a tree are independent of each other: what stands around a part of the tree does not look at the leaves of
the part (`exists_context`), and all leaves but some can be fixed so that each of these still counts
(`exists_sensitive`).

Both facts about values follow from one number. The slope of a function in a leaf is its change when the leaf becomes true. Taken
in all leaves of the tree, one after the other, the slopes come to a constant that is a product over the nodes of the tree, and
never to zero (`slopes_leaves`). So two trees with the same leaves and the same nodes never have opposite values
(`not_opposite`), however the nodes are nested.
-/

namespace Propositional

variable {ω α β : Type}

/-! ## Leaves and parts -/

/-- The leaves of a tree, from left to right. -/
def Tree.leaves : Tree ω α → List α
  | leaf a => [a]
  | not t => t.leaves
  | binary _ t u => t.leaves ++ u.leaves

/-- A tree stands in another one. -/
inductive Tree.IsPart (s : Tree ω α) : Tree ω α → Prop where
  | refl : IsPart s s
  | not {t : Tree ω α} : IsPart s t → IsPart s (.not t)
  | left {k : ω} {t u : Tree ω α} : IsPart s t → IsPart s (.binary k t u)
  | right {k : ω} {t u : Tree ω α} : IsPart s u → IsPart s (.binary k t u)

namespace Tree

/-- A tree has a leaf. -/
theorem leaves_ne_nil (t : Tree ω α) : t.leaves ≠ [] := by
  induction t with
  | leaf a => simp [leaves]
  | not t ih => exact ih
  | binary k t u iht _ => simp [leaves, iht]

/-- The leaves of a part follow one another among those of the whole. -/
theorem IsPart.isInfix {s t : Tree ω α} (h : s.IsPart t) : s.leaves <:+: t.leaves := by
  induction h with
  | refl => exact List.infix_rfl
  | not _ ih => exact ih
  | left _ ih => exact ih.trans (List.prefix_append _ _).isInfix
  | right _ ih => exact ih.trans (List.suffix_append _ _).isInfix

end Tree

/-- A function of the values of leaves does not look at some of them. -/
def Ignores (ls : List α) (f : (α → Bool) → β) : Prop :=
  ∀ val val', (∀ a, a ∉ ls → val a = val' a) → f val = f val'

/-- What is not looked at among more leaves is not looked at among fewer. -/
theorem Ignores.mono {ls ls' : List α} {f : (α → Bool) → β} (h : Ignores ls' f) (hs : ls ⊆ ls') : Ignores ls f :=
  fun val val' heq => h val val' fun a ha => heq a fun hm => ha (hs hm)

namespace Bracketing

/-- Only the values of the leaves count. -/
theorem eval_congr {t : Bracketing α} {val val' : α → Bool} (h : ∀ a ∈ t.leaves, val a = val' a) : t.eval val = t.eval val' := by
  induction t with
  | leaf a => exact h a List.mem_cons_self
  | not t ih => rw [eval, eval, ih h]
  | binary k t u iht ihu =>
    rw [eval, eval, iht fun a ha => h a (List.mem_append_left _ ha), ihu fun a ha => h a (List.mem_append_right _ ha)]

/-- A bracketing does not look at leaves that it does not have. -/
theorem ignores {t : Bracketing α} {ls : List α} (h : t.leaves.Disjoint ls) : Ignores ls t.eval :=
  fun _ _ heq => eval_congr fun a ha => heq a (h ha)

/-- What stands around a part of the tree does not look at the leaves of the part. -/
theorem exists_context {s t : Bracketing α} (h : s.IsPart t) (hd : t.leaves.Nodup) :
    ∃ φ : (α → Bool) → Bool → Bool, (∀ val, t.eval val = φ val (s.eval val)) ∧ Ignores s.leaves φ := by
  induction h with
  | refl => exact ⟨fun _ b => b, fun _ => rfl, fun _ _ _ => rfl⟩
  | not _ ih =>
    obtain ⟨φ, heval, hi⟩ := ih hd
    refine ⟨fun val b => !φ val b, fun val => by rw [eval, heval], fun val val' heq => ?_⟩
    simp only [hi val val' heq]
  | @left k t u hs ih =>
    obtain ⟨hdt, -, hdis⟩ := List.nodup_append'.mp hd
    obtain ⟨φ, heval, hi⟩ := ih hdt
    have hu : Ignores s.leaves (eval · u) := ignores fun a ha hm => hdis (hs.isInfix.subset hm) ha
    refine ⟨fun val b => k.apply (φ val b) (eval val u), fun val => by rw [eval, heval], fun val val' heq => ?_⟩
    simp only [hi val val' heq, show eval val u = eval val' u from hu val val' heq]
  | @right k t u hs ih =>
    obtain ⟨-, hdu, hdis⟩ := List.nodup_append'.mp hd
    obtain ⟨φ, heval, hi⟩ := ih hdu
    have ht : Ignores s.leaves (eval · t) := ignores fun a ha hm => hdis ha (hs.isInfix.subset hm)
    refine ⟨fun val b => k.apply (eval val t) (φ val b), fun val => by rw [eval, heval], fun val val' heq => ?_⟩
    simp only [hi val val' heq, show eval val t = eval val' t from ht val val' heq]

end Bracketing

/-! ## Slopes -/

section Slopes

variable [DecidableEq α]

/-- The change of a function when a leaf becomes true. -/
def slope (a : α) (f : (α → Bool) → Int) (val : α → Bool) : Int :=
  f (Function.update val a true) - f (Function.update val a false)

/-- The slope in some leaves, one after the other. -/
def slopes (ls : List α) (f : (α → Bool) → Int) : (α → Bool) → Int := ls.foldr slope f

variable {ls ls' : List α} {f g : (α → Bool) → Int} {val : α → Bool}

/-- The slope in some leaves and then in others is that in all of them. -/
theorem slopes_append (ls ls' : List α) (f : (α → Bool) → Int) : slopes (ls ++ ls') f = slopes ls (slopes ls' f) :=
  List.foldr_append

/-- The slopes in two leaves are taken in any order. -/
theorem slope_comm (a b : α) (f : (α → Bool) → Int) : slope a (slope b f) = slope b (slope a f) := by
  funext val
  by_cases h : a = b
  · rw [h]
  · simp only [slope, Function.update_comm h]
    ring

/-- The slope in some leaves does not depend on their order. -/
theorem slopes_perm (h : ls.Perm ls') (f : (α → Bool) → Int) : slopes ls f = slopes ls' f := by
  have : LeftCommutative (slope (α := α)) := ⟨slope_comm⟩
  exact h.foldr_eq f

/-- The slope of a sum is the sum of the slopes. -/
theorem slopes_add (ls : List α) (f g : (α → Bool) → Int) :
    (slopes ls fun val => f val + g val) = fun val => slopes ls f val + slopes ls g val := by
  induction ls with
  | nil => rfl
  | cons a ls ih =>
    funext val
    simp only [slopes, List.foldr_cons] at ih ⊢
    rw [ih]
    simp only [slope]
    ring

/-- A factor that does not look at the leaves is kept. -/
theorem slopes_mul (h : Ignores ls f) (g : (α → Bool) → Int) :
    (slopes ls fun val => f val * g val) = fun val => f val * slopes ls g val := by
  induction ls with
  | nil => rfl
  | cons a ls ih =>
    funext val
    have hf : ∀ b, f (Function.update val a b) = f val := by
      intro b
      refine h _ _ fun c hc => Function.update_of_ne ?_ _ _
      rintro rfl
      exact hc List.mem_cons_self
    simp only [slopes, List.foldr_cons] at ih ⊢
    rw [ih (h.mono (List.subset_cons_self _ _))]
    simp only [slope, hf]
    ring

/-- A function that does not look at the leaves has no slope in them. -/
theorem slopes_of_ignores (h : Ignores ls f) (hne : ls ≠ []) : slopes ls f = fun _ => 0 := by
  have hone : slopes ls (fun _ => 1) = fun _ => 0 := by
    cases ls with
    | nil => exact absurd rfl hne
    | cons a ls =>
      clear h hne
      induction ls generalizing a with
      | nil => rfl
      | cons b ls ih =>
        funext val
        have hb := ih b
        simp only [slopes, List.foldr_cons] at hb ⊢
        rw [hb]
        rfl
  have hmul := slopes_mul h fun _ => 1
  simpa [hone] using hmul

/-- A constant has no slope. -/
theorem slopes_const (c : Int) (hne : ls ≠ []) : slopes ls (fun _ => c) = fun _ => 0 :=
  slopes_of_ignores (fun _ _ _ => rfl) hne

/-- A constant factor is a factor of the slope. -/
theorem slopes_const_mul (c : Int) (ls : List α) (f : (α → Bool) → Int) :
    (slopes ls fun val => c * f val) = fun val => c * slopes ls f val :=
  slopes_mul (f := fun _ => c) (fun _ _ _ => rfl) f

/-- Of a polynomial in two functions, one of some leaves and one of others, only the last term has a slope in all of them. -/
theorem slopes_bilinear {p q : Int} (a b c d : Int) (hf : Ignores ls' f) (hne : ls ≠ []) (hne' : ls' ≠ [])
    (hp : slopes ls f = fun _ => p) (hq : slopes ls' g = fun _ => q) :
    (slopes (ls ++ ls') fun val => a + b * f val + c * g val + d * (f val * g val)) = fun _ => d * p * q := by
  have hinner : (slopes ls' fun val => a + b * f val + c * g val + d * (f val * g val)) = fun val => c * q + d * q * f val := by
    rw [slopes_add ls' (fun val => a + b * f val + c * g val) fun val => d * (f val * g val),
      slopes_add ls' (fun val => a + b * f val) fun val => c * g val, slopes_add ls' (fun _ => a) fun val => b * f val,
      slopes_const a hne', slopes_const_mul b, slopes_const_mul c, slopes_const_mul d, slopes_of_ignores hf hne',
      slopes_mul hf, hq]
    funext val
    ring
  rw [slopes_append, hinner, slopes_add ls (fun _ => c * q) fun val => d * q * f val, slopes_const _ hne, slopes_const_mul, hp]
  funext val
  ring

/-- Where there is a slope, the function has another value than zero. -/
theorem exists_ne_zero_of_slopes (h : slopes ls f val ≠ 0) : ∃ val', (∀ a, a ∉ ls → val' a = val a) ∧ f val' ≠ 0 := by
  induction ls generalizing val with
  | nil => exact ⟨val, fun _ _ => rfl, h⟩
  | cons a ls ih =>
    have hstep : ∃ b, slopes ls f (Function.update val a b) ≠ 0 := by
      by_contra hno
      have hzero : ∀ b, slopes ls f (Function.update val a b) = 0 := by simpa using hno
      apply h
      change slopes ls f (Function.update val a true) - slopes ls f (Function.update val a false) = 0
      rw [hzero, hzero, sub_self]
    obtain ⟨b, hb⟩ := hstep
    obtain ⟨val', hval, hne⟩ := ih hb
    refine ⟨val', fun c hc => ?_, hne⟩
    rw [List.mem_cons, not_or] at hc
    rw [hval c hc.2, Function.update_of_ne hc.1]

end Slopes

/-! ## The slope of a tree in all its leaves -/

/-- The slope of an operation in both operands. -/
def Link.weight (k : Link) : Int :=
  (k.apply true true).toInt - (k.apply true false).toInt - (k.apply false true).toInt + (k.apply false false).toInt

/-- No operation has the weight zero. -/
theorem Link.weight_ne_zero (k : Link) : k.weight ≠ 0 := by
  rcases k with (_ | _ | _ | _) | _ <;> decide

/-- An operation as a polynomial in its operands. -/
theorem Link.toInt_apply (k : Link) (a b : Bool) :
    (k.apply a b).toInt = (k.apply false false).toInt + ((k.apply true false).toInt - (k.apply false false).toInt) * a.toInt +
      ((k.apply false true).toInt - (k.apply false false).toInt) * b.toInt + k.weight * (a.toInt * b.toInt) := by
  rcases k with (_ | _ | _ | _) | _ <;> cases a <;> cases b <;> rfl

namespace Bracketing

/-- The product over the nodes of a bracketing that its slope comes to. -/
def weight : Bracketing α → Int
  | .leaf _ => 1
  | .not t => -weight t
  | .binary k t u => k.weight * weight t * weight u

/-- No bracketing has the weight zero. -/
theorem weight_ne_zero (t : Bracketing α) : t.weight ≠ 0 := by
  induction t with
  | leaf a => exact one_ne_zero
  | not t ih => simpa [weight] using ih
  | binary k t u iht ihu => exact mul_ne_zero (mul_ne_zero k.weight_ne_zero iht) ihu

variable [DecidableEq α]

/-- With distinct leaves, the slope of a bracketing in all of them is its weight. -/
theorem slopes_leaves {t : Bracketing α} (hd : t.leaves.Nodup) :
    (slopes t.leaves fun val => (t.eval val).toInt) = fun _ => t.weight := by
  induction t with
  | leaf a =>
    funext val
    simp [Tree.leaves, slopes, slope, eval, weight]
  | not t ih =>
    have hnot : ∀ val, (eval val (.not t)).toInt = 1 + -1 * (eval val t).toInt := by
      intro val
      rw [eval]
      cases eval val t <;> rfl
    have hne := t.leaves_ne_nil
    simp only [hnot]
    rw [Tree.leaves, slopes_add t.leaves (fun _ => 1) fun val => -1 * (eval val t).toInt, slopes_const 1 hne, slopes_const_mul,
      ih hd]
    funext val
    rw [weight]
    ring
  | binary k t u iht ihu =>
    obtain ⟨hdt, hdu, hdis⟩ := List.nodup_append'.mp hd
    have hi : Ignores u.leaves fun val => (eval val t).toInt := fun val val' heq =>
      congrArg Bool.toInt (ignores hdis val val' heq)
    have happly : ∀ val, (eval val (.binary k t u)).toInt = _ := fun val => k.toInt_apply (eval val t) (eval val u)
    simp only [happly]
    exact slopes_bilinear _ _ _ _ hi t.leaves_ne_nil u.leaves_ne_nil (iht hdt) (ihu hdu)

/-- All leaves but some can be fixed so that each of these still counts. -/
theorem exists_sensitive {t : Bracketing α} (hd : t.leaves.Nodup) {ls : List α} (hls : ls.Nodup) (hs : ls ⊆ t.leaves) :
    ∃ base : α → Bool, ∀ a ∈ ls, ∃ val val', (∀ b, b ∉ ls → val b = base b) ∧ (∀ b, b ≠ a → val b = val' b) ∧
      t.eval val ≠ t.eval val' := by
  obtain ⟨rest, hperm⟩ : ∃ rest, t.leaves.Perm (rest ++ ls) := by
    obtain ⟨ls', hls', hsub⟩ := List.subperm_of_subset hls hs
    obtain ⟨rest, hrest⟩ := hsub.exists_perm_append
    exact ⟨rest, hrest.trans ((hls'.append_right rest).trans List.perm_append_comm)⟩
  have hne : slopes (rest ++ ls) (fun val => (t.eval val).toInt) (fun _ => false) ≠ 0 := by
    rw [← slopes_perm hperm, slopes_leaves hd]
    exact t.weight_ne_zero
  rw [slopes_append] at hne
  obtain ⟨base, -, hbase⟩ := exists_ne_zero_of_slopes hne
  refine ⟨base, fun a ha => ?_⟩
  rw [slopes_perm ((List.perm_cons_erase ha).trans (List.perm_append_singleton a _).symm), slopes_append] at hbase
  obtain ⟨val, hval, hslope⟩ := exists_ne_zero_of_slopes hbase
  refine ⟨Function.update val a true, Function.update val a false, fun b hb => ?_, fun b hb => ?_, fun heq => hslope ?_⟩
  · have hba : b ≠ a := fun h => hb (h ▸ ha)
    rw [Function.update_of_ne hba]
    exact hval b fun hm => hb (List.mem_of_mem_erase hm)
  · rw [Function.update_of_ne hb, Function.update_of_ne hb]
  · simp only [slopes, List.foldr_cons, List.foldr_nil, slope, heq, sub_self]

/-- Two trees with the same leaves and the same product over their nodes do not have opposite values. -/
theorem not_opposite {t u : Bracketing α} (hd : t.leaves.Nodup) (hl : t.leaves = u.leaves) (hw : t.weight = u.weight) :
    ¬∀ val, t.eval val = !u.eval val := by
  intro h
  have hopp : (slopes (Tree.not u).leaves fun val => (eval val (.not u)).toInt) = fun _ => weight (.not u) :=
    slopes_leaves (by rwa [Tree.leaves, ← hl])
  have heval : ∀ val, eval val (.not u) = t.eval val := fun val => by rw [h, eval]
  simp only [heval] at hopp
  rw [Tree.leaves, ← hl, slopes_leaves hd] at hopp
  have hweight : t.weight = -t.weight := by
    have := congrFun hopp fun _ => false
    rwa [weight, ← hw] at this
  exact t.weight_ne_zero (by omega)

end Bracketing

end Propositional
