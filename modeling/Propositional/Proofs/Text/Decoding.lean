import Propositional.Text.Decoding
import Mathlib.Algebra.Group.Nat.Defs
import Mathlib.Data.List.Basic
import Mathlib.Tactic.SplitIfs

/-!
# Exactness of decoding

Bytes are decoded exactly if they are the bytes of a text, and then to that text (`decode_eq_ok_iff`). A character that is begun
with the higher bits of its number goes on with the lower ones, six in each byte, and with nothing else (`goOn_eq_ok_iff`).
-/

namespace Propositional.Text

/-- The bytes of a text. -/
def encode (s : List Char) : List UInt8 := s.flatMap String.utf8EncodeChar

/-! ## The bytes behind the first -/

/-- The byte behind the first of a character that has the lowest six bits of a number. -/
def tailByte (n : Nat) : UInt8 := UInt8.ofNat (n % 64 + 0x80)

/-- The bytes behind the first of a character for the lowest bits of a number, six in each. -/
def tailBytes : Nat → Nat → List UInt8
  | 0, _ => []
  | k + 1, n => tailByte (n / 64 ^ k) :: tailBytes k n

/-- What such a byte is. -/
theorem toNat_tailByte (n : Nat) : (tailByte n).toNat = n % 64 + 0x80 := by
  rw [tailByte, UInt8.toNat_ofNat']
  omega

/-- The number of a character has the higher bits that are read of it, and the byte for the next six is within the bounds. -/
structure Begun.Leads (p : Begun) (n : Nat) : Prop where
  number : n / 64 ^ p.missing = p.number
  bounds : ∀ k, p.missing = k + 1 → p.low ≤ n / 64 ^ k % 64 + 0x80 ∧ n / 64 ^ k % 64 + 0x80 ≤ p.high

/-- The bounds of the next byte are no wider than the usual ones. -/
structure Begun.IsBounded (p : Begun) : Prop where
  low : 0x80 ≤ p.low
  high : p.high ≤ 0xBF

/-- Behind its next byte, a character has the usual bounds. -/
theorem Begun.isBounded_next (p : Begun) (byte : Nat) : (p.next byte).IsBounded := ⟨Nat.le_refl _, Nat.le_refl _⟩

/-- A number is led to by the bits read of it with the next byte exactly if it is so without it and the byte is that of the
number. -/
theorem Begun.leads_next_iff {p : Begun} (hp : p.IsBounded) {n k : Nat} (hk : p.missing = k + 1) {b : UInt8} :
    (p.low ≤ b.toNat ∧ b.toNat ≤ p.high) ∧ (p.next b.toNat).Leads n ↔ p.Leads n ∧ b = tailByte (n / 64 ^ k) := by
  have hdiv : n / 64 ^ (k + 1) = n / 64 ^ k / 64 := by rw [Nat.pow_succ, Nat.div_div_eq_div_mul]
  have hmissing : (p.next b.toNat).missing = k := by
    show p.missing - 1 = k
    rw [hk, Nat.add_sub_cancel]
  have hnumber : (p.next b.toNat).number = p.number * 64 + (b.toNat - 0x80) := rfl
  rw [← UInt8.toNat_inj, toNat_tailByte]
  obtain ⟨hlow, hhigh⟩ := hp
  constructor
  · rintro ⟨hb, hnext, -⟩
    rw [hmissing, hnumber] at hnext
    have hbyte : b.toNat = n / 64 ^ k % 64 + 0x80 := by omega
    refine ⟨⟨by rw [hk, hdiv]; omega, fun j hj => ?_⟩, hbyte⟩
    obtain rfl : k = j := by omega
    rwa [← hbyte]
  · rintro ⟨⟨hlead, hbounds⟩, hbyte⟩
    rw [hk, hdiv] at hlead
    refine ⟨by rw [hbyte]; exact hbounds k hk, ?_, fun j _ => ?_⟩
    · rw [hmissing, hnumber]
      omega
    · show 0x80 ≤ _ ∧ _ ≤ 0xBF
      omega

/-- What is read behind a byte: the rest of its character, or the rest of the text if it ends its character. -/
def goOn (position : Nat) (p : Begun) (bs : List UInt8) : Except DecodingFault (List Char) :=
  if p.missing = 0 then (decodeFrom position none bs).map (Char.ofNat p.number :: ·) else decodeFrom position (some p) bs

/-- A byte that a character starts or goes on with is followed by what is read behind it. -/
theorem decodeFrom_cons {position : Nat} {pending : Option Begun} {b : UInt8} {p : Begun}
    (h : readByte position pending b.toNat = .ok p) (bs : List UInt8) :
    decodeFrom position pending (b :: bs) = goOn (position + 1) p bs := by
  rw [decodeFrom, h]
  rfl

/-- A character goes on with a byte within its bounds. -/
theorem readByte_some {position byte : Nat} {p : Begun} (h : p.low ≤ byte ∧ byte ≤ p.high) :
    readByte position (some p) byte = .ok (p.next byte) := if_pos h

/-- A text has a character before the rest of it exactly if the rest is a text. -/
theorem map_cons_eq_ok_iff {x : Except DecodingFault (List Char)} {c : Char} {s : List Char} :
    x.map (c :: ·) = .ok s ↔ ∃ s', x = .ok s' ∧ s = c :: s' := by
  cases x <;> simp [Except.map, eq_comm]

/-- Behind a byte there are the other bytes of its character, and then the rest of the text. -/
theorem goOn_eq_ok_iff {p : Begun} (hp : p.IsBounded) {position : Nat} {bs : List UInt8} {s : List Char} :
    goOn position p bs = .ok s ↔ ∃ n rest s', p.Leads n ∧ bs = tailBytes p.missing n ++ rest ∧ s = Char.ofNat n :: s' ∧
      decodeFrom (position + p.missing) none rest = .ok s' := by
  generalize hk : p.missing = k
  induction k generalizing p position bs with
  | zero =>
    rw [goOn, if_pos hk, map_cons_eq_ok_iff]
    have hleads : ∀ n, p.Leads n ↔ n = p.number := by
      intro n
      refine ⟨fun h => ?_, fun h => ⟨?_, fun k hk' => ?_⟩⟩
      · rw [← h.number, hk, Nat.pow_zero, Nat.div_one]
      · rw [hk, Nat.pow_zero, Nat.div_one, h]
      · omega
    simp only [hleads, tailBytes, List.nil_append, Nat.add_zero]
    constructor
    · rintro ⟨s', h, rfl⟩
      exact ⟨_, _, s', rfl, rfl, rfl, h⟩
    · rintro ⟨_, _, s', rfl, rfl, rfl, h⟩
      exact ⟨s', h, rfl⟩
  | succ k ih =>
    rw [goOn, if_neg (by omega)]
    have hmissing : ∀ b, (p.next b).missing = k := by
      intro b
      show p.missing - 1 = k
      omega
    have hposition : position + (k + 1) = position + 1 + k := by omega
    rw [hposition]
    constructor
    · intro h
      cases bs with
      | nil => cases h
      | cons b bs =>
        by_cases hb : p.low ≤ b.toNat ∧ b.toNat ≤ p.high
        · rw [decodeFrom_cons (readByte_some hb), ih (p.isBounded_next _) (hmissing _)] at h
          obtain ⟨n, rest, s', hnext, rfl, hs, hrest⟩ := h
          obtain ⟨hn, hbyte⟩ := (Begun.leads_next_iff hp hk).mp ⟨hb, hnext⟩
          exact ⟨n, rest, s', hn, by rw [tailBytes, ← hbyte]; rfl, hs, hrest⟩
        · rw [decodeFrom, readByte, if_neg hb] at h
          cases h
    · rintro ⟨n, rest, s', hn, rfl, hs, hrest⟩
      obtain ⟨hb, hnext⟩ := (Begun.leads_next_iff hp hk).mpr ⟨hn, rfl⟩
      show decodeFrom position (some p) (tailByte (n / 64 ^ k) :: (tailBytes k n ++ rest)) = .ok s
      rw [decodeFrom_cons (readByte_some hb), ih (p.isBounded_next _) (hmissing _)]
      exact ⟨n, rest, s', hnext, rfl, hs, hrest⟩

/-! ## The first byte -/

section First

variable {position byte : Nat}

/-- The first and only byte of a character below 128. -/
theorem begun?_one (h : byte < 0x80) : begun? position byte = some ⟨position, byte, byte, 0, 0x80, 0xBF⟩ := if_pos h

/-- The first of two bytes. -/
theorem begun?_two (h : 0xC2 ≤ byte) (h' : byte < 0xE0) :
    begun? position byte = some ⟨position, byte, byte - 0xC0, 1, 0x80, 0xBF⟩ := by
  rw [begun?, if_neg (by omega), if_neg (by omega), if_pos h']

/-- The first of three bytes. -/
theorem begun?_three (h : 0xE0 ≤ byte) (h' : byte < 0xF0) : begun? position byte =
    some ⟨position, byte, byte - 0xE0, 2, if byte = 0xE0 then 0xA0 else 0x80, if byte = 0xED then 0x9F else 0xBF⟩ := by
  rw [begun?, if_neg (by omega), if_neg (by omega), if_neg (by omega), if_pos h']

/-- The first of four bytes. -/
theorem begun?_four (h : 0xF0 ≤ byte) (h' : byte < 0xF5) : begun? position byte =
    some ⟨position, byte, byte - 0xF0, 3, if byte = 0xF0 then 0x90 else 0x80, if byte = 0xF4 then 0x8F else 0xBF⟩ := by
  rw [begun?, if_neg (by omega), if_neg (by omega), if_neg (by omega), if_neg (by omega), if_pos h']

/-- A byte that starts a character is the first of one, two, three or four. -/
theorem begun?_cases {p : Begun} (h : begun? position byte = some p) :
    byte < 0x80 ∨ (0xC2 ≤ byte ∧ byte < 0xE0) ∨ (0xE0 ≤ byte ∧ byte < 0xF0) ∨ 0xF0 ≤ byte ∧ byte < 0xF5 := by
  unfold begun? at h
  split_ifs at h <;> omega

/-- A byte that starts a character has bounds for the next that are no wider than the usual ones. -/
theorem isBounded_of_begun? {p : Begun} (h : begun? position byte = some p) : p.IsBounded := by
  have hlow : ∀ m, (if byte = m then 0xA0 else 0x80) ≥ 0x80 ∧ (if byte = m then 0x90 else 0x80) ≥ 0x80 := by
    intro m
    split_ifs <;> omega
  have hhigh : ∀ m, (if byte = m then 0x9F else 0xBF) ≤ 0xBF ∧ (if byte = m then 0x8F else 0xBF) ≤ 0xBF := by
    intro m
    split_ifs <;> omega
  rcases begun?_cases h with h1 | ⟨h2, h2'⟩ | ⟨h3, h3'⟩ | ⟨h4, h4'⟩
  · rw [begun?_one h1] at h
    cases h
    exact ⟨Nat.le_refl _, Nat.le_refl _⟩
  · rw [begun?_two h2 h2'] at h
    cases h
    exact ⟨Nat.le_refl _, Nat.le_refl _⟩
  · rw [begun?_three h3 h3'] at h
    cases h
    exact ⟨(hlow _).1, (hhigh _).1⟩
  · rw [begun?_four h4 h4'] at h
    cases h
    exact ⟨(hlow _).2, (hhigh _).2⟩

/-- The numbers that the first byte of a character leads to, with the bounds of the next. -/
theorem leads_iff {p : Begun} {n k : Nat} (hk : p.missing = k + 1) :
    p.Leads n ↔ n / 64 ^ (k + 1) = p.number ∧ p.low ≤ n / 64 ^ k % 64 + 0x80 ∧ n / 64 ^ k % 64 + 0x80 ≤ p.high := by
  constructor
  · rintro ⟨hnumber, hbounds⟩
    exact ⟨hk ▸ hnumber, hbounds k hk⟩
  · rintro ⟨hnumber, hbounds⟩
    refine ⟨hk ▸ hnumber, fun j hj => ?_⟩
    obtain rfl : j = k := by omega
    exact hbounds

/-- A byte below 128 leads to itself. -/
theorem leads_one_iff {n : Nat} : (⟨position, byte, byte, 0, 0x80, 0xBF⟩ : Begun).Leads n ↔ n = byte := by
  constructor
  · rintro ⟨hnumber, -⟩
    rwa [Nat.pow_zero, Nat.div_one] at hnumber
  · rintro rfl
    exact ⟨by rw [Nat.pow_zero, Nat.div_one], nofun⟩

/-- The first of two bytes leads to numbers below 0x800. -/
theorem leads_two_iff {n : Nat} (h : 0xC2 ≤ byte) (h' : byte < 0xE0) :
    (⟨position, byte, byte - 0xC0, 1, 0x80, 0xBF⟩ : Begun).Leads n ↔
      byte = n / 64 + 0xC0 ∧ 0x80 ≤ n ∧ n < 0x800 := by
  rw [leads_iff rfl]
  dsimp only
  omega

/-- The first of three bytes leads to numbers from there on below 0x10000, except surrogates. -/
theorem leads_three_iff {n : Nat} (h : 0xE0 ≤ byte) (h' : byte < 0xF0) :
    (⟨position, byte, byte - 0xE0, 2, if byte = 0xE0 then 0xA0 else 0x80, if byte = 0xED then 0x9F else 0xBF⟩ : Begun).Leads n ↔
      byte = n / 4096 + 0xE0 ∧ 0x800 ≤ n ∧ n < 0x10000 ∧ (n < 0xD800 ∨ 0xDFFF < n) := by
  rw [leads_iff rfl]
  dsimp only
  split_ifs <;> omega

/-- The first of four bytes leads to the numbers of characters from there on. -/
theorem leads_four_iff {n : Nat} (h : 0xF0 ≤ byte) (h' : byte < 0xF5) :
    (⟨position, byte, byte - 0xF0, 3, if byte = 0xF0 then 0x90 else 0x80, if byte = 0xF4 then 0x8F else 0xBF⟩ : Begun).Leads n ↔
      byte = n / 262144 + 0xF0 ∧ 0x10000 ≤ n ∧ n < 0x110000 := by
  rw [leads_iff rfl]
  dsimp only
  split_ifs <;> omega

end First

/-- The bytes of a character, by the size of its number. -/
theorem utf8EncodeChar_eq (c : Char) : String.utf8EncodeChar c =
    if c.toNat < 0x80 then [UInt8.ofNat c.toNat]
    else if c.toNat < 0x800 then UInt8.ofNat (c.toNat / 64 + 0xC0) :: tailBytes 1 c.toNat
    else if c.toNat < 0x10000 then UInt8.ofNat (c.toNat / 4096 + 0xE0) :: tailBytes 2 c.toNat
    else UInt8.ofNat (c.toNat / 262144 + 0xF0) :: tailBytes 3 c.toNat := by
  have hlt : c.toNat < 0x110000 := by
    rcases c.valid with h | h
    · exact Nat.lt_trans h (by decide)
    · exact h.2
  have hval : c.val.toNat = c.toNat := rfl
  unfold String.utf8EncodeChar
  dsimp only
  rw [hval]
  generalize c.toNat = n at hlt
  have hone : n < 0x80 ↔ n ≤ 0x7f := Nat.lt_succ_iff
  have htwo : n < 0x800 ↔ n ≤ 0x7ff := Nat.lt_succ_iff
  have hthree : n < 0x10000 ↔ n ≤ 0xffff := Nat.lt_succ_iff
  simp only [hone, htwo, hthree, tailBytes, tailByte, Nat.pow_zero, Nat.div_one, Nat.reducePow]
  split_ifs with h1 h2 h3
  · rfl
  · rw [Nat.mod_eq_of_lt (show n / 64 < 32 by omega)]
  · rw [Nat.mod_eq_of_lt (show n / 4096 < 16 by omega)]
  · rw [Nat.mod_eq_of_lt (show n / 262144 < 8 by omega)]

/-- A byte that is given by a number below 256. -/
theorem toNat_ofNat_byte {m : Nat} (h : m < 256) : (UInt8.ofNat m).toNat = m := by
  rw [UInt8.toNat_ofNat', Nat.mod_eq_of_lt h]

/-- A byte is given by its number. -/
theorem eq_ofNat_byte {b : UInt8} {m : Nat} (h : b.toNat = m) : b = UInt8.ofNat m := by
  rw [← h, UInt8.ofNat_toNat]

/-- The bytes of a character are a first byte that leads to its number, and those that follow it. -/
theorem exists_begun? (c : Char) (position : Nat) : ∃ b p, begun? position b.toNat = some p ∧ p.Leads c.toNat ∧
    String.utf8EncodeChar c = b :: tailBytes p.missing c.toNat := by
  have hvalid : c.toNat < 0xD800 ∨ 0xDFFF < c.toNat ∧ c.toNat < 0x110000 := c.valid
  rw [utf8EncodeChar_eq]
  generalize c.toNat = n at hvalid
  split_ifs with h1 h2 h3
  · have hbyte := toNat_ofNat_byte (show n < 256 by omega)
    refine ⟨_, _, begun?_one (by rwa [hbyte]), ?_, rfl⟩
    rw [leads_one_iff, hbyte]
  · have hbyte := toNat_ofNat_byte (show n / 64 + 0xC0 < 256 by omega)
    have hlow : 0xC2 ≤ n / 64 + 0xC0 := by omega
    have hhigh : n / 64 + 0xC0 < 0xE0 := by omega
    refine ⟨_, _, by rw [hbyte]; exact begun?_two hlow hhigh, (leads_two_iff hlow hhigh).mpr ?_, rfl⟩
    omega
  · have hbyte := toNat_ofNat_byte (show n / 4096 + 0xE0 < 256 by omega)
    have hlow : 0xE0 ≤ n / 4096 + 0xE0 := by omega
    have hhigh : n / 4096 + 0xE0 < 0xF0 := by omega
    refine ⟨_, _, by rw [hbyte]; exact begun?_three hlow hhigh, (leads_three_iff hlow hhigh).mpr ?_, rfl⟩
    omega
  · have hbyte := toNat_ofNat_byte (show n / 262144 + 0xF0 < 256 by omega)
    have hlow : 0xF0 ≤ n / 262144 + 0xF0 := by omega
    have hhigh : n / 262144 + 0xF0 < 0xF5 := by omega
    refine ⟨_, _, by rw [hbyte]; exact begun?_four hlow hhigh, (leads_four_iff hlow hhigh).mpr ?_, rfl⟩
    omega

/-- The number of a character given by a number. -/
theorem toNat_ofNat_char {n : Nat} (h : n.isValidChar) : (Char.ofNat n).toNat = n := by
  rw [Char.ofNat, dif_pos h]
  rfl

/-- A first byte and those that follow it for a number that it leads to are the bytes of the character with this number. -/
theorem utf8EncodeChar_of_begun? {position n : Nat} {b : UInt8} {p : Begun} (hp : begun? position b.toNat = some p)
    (hn : p.Leads n) : String.utf8EncodeChar (Char.ofNat n) = b :: tailBytes p.missing n := by
  rcases begun?_cases hp with h1 | ⟨h2, h2'⟩ | ⟨h3, h3'⟩ | ⟨h4, h4'⟩
  · rw [begun?_one h1] at hp
    cases hp
    have hbyte := leads_one_iff.mp hn
    rw [utf8EncodeChar_eq, toNat_ofNat_char (.inl (by omega)), if_pos (by omega), eq_ofNat_byte hbyte.symm]
    rfl
  · rw [begun?_two h2 h2'] at hp
    cases hp
    obtain ⟨hbyte, hlow, hhigh⟩ := (leads_two_iff h2 h2').mp hn
    rw [utf8EncodeChar_eq, toNat_ofNat_char (.inl (by omega)), if_neg (by omega), if_pos (by omega), ← eq_ofNat_byte hbyte]
  · rw [begun?_three h3 h3'] at hp
    cases hp
    obtain ⟨hbyte, hlow, hhigh, hvalid⟩ := (leads_three_iff h3 h3').mp hn
    have hvalid : n.isValidChar := by
      rcases hvalid with h | h
      · exact .inl h
      · exact .inr ⟨h, by omega⟩
    rw [utf8EncodeChar_eq, toNat_ofNat_char hvalid, if_neg (by omega), if_neg (by omega), if_pos (by omega),
      ← eq_ofNat_byte hbyte]
  · rw [begun?_four h4 h4'] at hp
    cases hp
    obtain ⟨hbyte, hlow, hhigh⟩ := (leads_four_iff h4 h4').mp hn
    rw [utf8EncodeChar_eq, toNat_ofNat_char (.inr ⟨by omega, hhigh⟩), if_neg (by omega), if_neg (by omega), if_neg (by omega),
      ← eq_ofNat_byte hbyte]

/-! ## Texts -/

/-- A byte starts a character exactly if one starts with it. -/
theorem readByte_none_eq_ok_iff {position byte : Nat} {p : Begun} :
    readByte position none byte = .ok p ↔ begun? position byte = some p := by
  rw [readByte]
  cases begun? position byte <;> simp

/-- Bytes from a position on are decoded exactly if they are the bytes of a text, and then to that text. -/
theorem decodeFrom_eq_ok_iff {position : Nat} {bytes : List UInt8} {s : List Char} :
    decodeFrom position none bytes = .ok s ↔ bytes = encode s := by
  constructor
  · intro h
    induction hlength : bytes.length using Nat.strongRecOn generalizing position bytes s with
    | ind length ih =>
      cases bytes with
      | nil =>
        rw [← Except.ok.inj h]
        rfl
      | cons b bs =>
        cases hread : readByte position none b.toNat with
        | error f =>
          rw [decodeFrom, hread] at h
          cases h
        | ok p =>
          have hp := readByte_none_eq_ok_iff.mp hread
          rw [decodeFrom_cons hread, goOn_eq_ok_iff (isBounded_of_begun? hp)] at h
          obtain ⟨n, rest, s', hn, rfl, rfl, hrest⟩ := h
          have hshorter : rest.length < length := by
            rw [← hlength, List.length_cons, List.length_append]
            omega
          rw [ih _ hshorter hrest rfl, encode, encode, List.flatMap_cons, utf8EncodeChar_of_begun? hp hn, List.cons_append]
  · rintro rfl
    induction s generalizing position with
    | nil => rfl
    | cons c s ih =>
      obtain ⟨b, p, hp, hn, hc⟩ := exists_begun? c position
      rw [encode, List.flatMap_cons, hc, List.cons_append, decodeFrom_cons (readByte_none_eq_ok_iff.mpr hp),
        goOn_eq_ok_iff (isBounded_of_begun? hp)]
      exact ⟨_, _, s, hn, rfl, by rw [Char.ofNat_toNat], ih⟩

/-- Bytes are decoded exactly if they are the bytes of a text, and then to that text. -/
theorem decode_eq_ok_iff {bytes : List UInt8} {s : List Char} : decode bytes = .ok s ↔ bytes = encode s := decodeFrom_eq_ok_iff

end Propositional.Text
