import SsaCompiler.Text.Utf8
import Mathlib.Data.List.Basic

/-!
Reading a character is reading UTF-8. A character is read exactly where its encoding stands, and
what comes close to an encoding is refused: longer spellings, spellings of surrogates and of
numbers that are too large, lead bytes that cannot begin a character, and encodings that break off.
-/
namespace SsaCompiler.Text

/-- The numbers of bytes a character can have. -/
inductive Width
  | one
  | two
  | three
  | four

namespace Width

def bytes : Width → Nat
  | one => 1
  | two => 2
  | three => 3
  | four => 4

/-- Larger numbers do not fit. -/
def bound : Width → Nat
  | one => 0x80
  | two => 0x800
  | three => 0x10000
  | four => 0x200000

/-- Smaller numbers have a shorter spelling. -/
def least : Width → Nat
  | one => 0
  | two => 0x80
  | three => 0x800
  | four => 0x10000

/-- The bytes of a number, whether or not it is a character or could be spelled in fewer. -/
def spell : Width → Nat → List UInt8
  | one, n => [.ofNat n]
  | two, n => [.ofNat (n / 64 + 192), .ofNat (n % 64 + 128)]
  | three, n => [.ofNat (n / 4096 + 224), .ofNat (n / 64 % 64 + 128), .ofNat (n % 64 + 128)]
  | four, n => [.ofNat (n / 262144 + 240), .ofNat (n / 4096 % 64 + 128),
      .ofNat (n / 64 % 64 + 128), .ofNat (n % 64 + 128)]

end Width

theorem toNat_ofNat_of_lt {n : Nat} (h : n < 256) : (UInt8.ofNat n).toNat = n := by
  rw [UInt8.toNat_ofNat']
  exact Nat.mod_eq_of_lt h

theorem continuation_ofNat (x : Nat) :
    continuation (UInt8.ofNat (x % 64 + 128)) = some (x % 64) := by
  have hx : (UInt8.ofNat (x % 64 + 128)).toNat = x % 64 + 128 := toNat_ofNat_of_lt (by omega)
  unfold continuation
  rw [hx, if_pos (by omega), Nat.add_sub_cancel]

theorem scalar_toNat {least n : Nat} {c : Char} (hn : n = c.toNat) (hleast : least ≤ c.toNat) :
    scalar least n = some c := by
  subst hn
  unfold scalar
  rw [if_pos ⟨hleast, c.valid⟩, Char.ofNat_toNat]

theorem toNat_lt (c : Char) : c.toNat < 0x110000 := by
  have hvalid := c.valid
  simp only [UInt32.isValidChar, Nat.isValidChar] at hvalid
  show c.val.toNat < 0x110000
  omega

theorem scalar_eq_none {least n : Nat} (h : n < least ∨ ¬ n.isValidChar) : scalar least n = none :=
  if_neg fun hn => h.elim (Nat.not_lt.mpr hn.1) (· hn.2)

/-- A spelled number is read as the character it stands for, if there is no shorter spelling. -/
theorem decodeChar_spell {w : Width} {n : Nat} (h : n < w.bound) (bs : List UInt8) :
    decodeChar (w.spell n ++ bs) =
      (scalar w.least n).elim (.error .illFormed) (.ok ⟨·, w.bytes⟩) := by
  cases w <;> simp only [Width.bound] at h <;>
    simp only [Width.spell, Width.least, Width.bytes, List.cons_append, List.nil_append, decodeChar,
      decodeFrom, continuation_ofNat, Option.bind_eq_bind, Option.bind_some]
  case one =>
    have hn : scalar 0 n = some (Char.ofNat n) := if_pos ⟨Nat.zero_le n, .inl (by omega)⟩
    rw [toNat_ofNat_of_lt (by omega), if_pos h, hn]
    rfl
  case two =>
    rw [toNat_ofNat_of_lt (by omega), if_neg (by omega)]
    by_cases hn : n < 0x80
    · rw [if_pos (by omega), scalar_eq_none (.inl hn)]
      rfl
    · rw [if_neg (by omega), if_pos (by omega), show (n / 64 + 192 - 0xc0) * 0x40 + n % 64 = n by omega]
      cases scalar 0x80 n <;> rfl
  case three =>
    rw [toNat_ofNat_of_lt (by omega), if_neg (by omega), if_neg (by omega), if_neg (by omega),
      if_pos (by omega), show ((n / 4096 + 224 - 0xe0) * 0x40 + n / 64 % 64) * 0x40 + n % 64 = n by omega]
    cases scalar 0x800 n <;> rfl
  case four =>
    rw [toNat_ofNat_of_lt (by omega), if_neg (by omega), if_neg (by omega), if_neg (by omega),
      if_neg (by omega)]
    by_cases hn : n < 0x140000
    · rw [if_pos (by omega), show (((n / 262144 + 240 - 0xf0) * 0x40 + n / 4096 % 64) * 0x40 +
        n / 64 % 64) * 0x40 + n % 64 = n by omega]
      cases scalar 0x10000 n <;> rfl
    · rw [if_neg (by omega), scalar_eq_none (.inr (by simp only [Nat.isValidChar]; omega))]
      rfl

/-- The encoding of a character is its shortest spelling. -/
theorem utf8EncodeChar_eq_spell (c : Char) : ∃ w : Width, String.utf8EncodeChar c = w.spell c.toNat ∧
    w.least ≤ c.toNat ∧ c.toNat < w.bound := by
  have hlt := toNat_lt c
  rw [String.utf8EncodeChar, show c.val.toNat = c.toNat from rfl]
  generalize c.toNat = n at hlt
  split
  · exact ⟨.one, rfl, Nat.zero_le n, by simp only [Width.bound]; omega⟩
  split
  · refine ⟨.two, ?_, by simp only [Width.bound, Width.least]; omega⟩
    rw [Nat.mod_eq_of_lt (by omega)]
    rfl
  split
  · refine ⟨.three, ?_, by simp only [Width.bound, Width.least]; omega⟩
    rw [Nat.mod_eq_of_lt (a := n / 4096) (by omega)]
    rfl
  · refine ⟨.four, ?_, by simp only [Width.bound, Width.least]; omega⟩
    rw [Nat.mod_eq_of_lt (a := n / 262144) (by omega)]
    rfl

/-- A character is read back from its encoding. -/
theorem decodeChar_utf8EncodeChar (c : Char) (rest : List UInt8) :
    decodeChar (String.utf8EncodeChar c ++ rest) = .ok (c, (String.utf8EncodeChar c).length) := by
  obtain ⟨w, heq, hleast, hbound⟩ := utf8EncodeChar_eq_spell c
  rw [heq, decodeChar_spell hbound, scalar_toNat rfl hleast]
  cases w <;> rfl

theorem eq_ofNat {b : UInt8} {n : Nat} (h : b.toNat = n) : b = UInt8.ofNat n := by
  rw [← h, UInt8.ofNat_toNat]

theorem continuation_eq_some {b : UInt8} {x : Nat} (h : continuation b = some x) :
    b.toNat = x + 128 ∧ x < 64 := by
  simp only [continuation, Option.ite_none_right_eq_some, Option.some.injEq] at h
  omega

theorem scalar_eq_some {least n : Nat} {c : Char} (h : scalar least n = some c) :
    c.val.toNat = n ∧ least ≤ n := by
  simp only [scalar, Option.ite_none_right_eq_some, Option.some.injEq] at h
  obtain ⟨⟨hleast, hvalid⟩, rfl⟩ := h
  refine ⟨?_, hleast⟩
  unfold Char.ofNat
  rw [dif_pos hvalid]
  rfl

/-- What is read as a character is its encoding. -/
theorem decodeFrom_eq_some {b : UInt8} {bs : List UInt8} {c : Char} {w : Nat}
    (h : decodeFrom b.toNat bs = some (c, w)) :
    ∃ rest, b :: bs = String.utf8EncodeChar c ++ rest ∧ w = (String.utf8EncodeChar c).length := by
  unfold decodeFrom at h
  rw [String.utf8EncodeChar]
  split at h
  · obtain ⟨rfl, rfl⟩ := Prod.mk.inj (Option.some.inj h)
    have hscalar : scalar 0 b.toNat = some (Char.ofNat b.toNat) :=
      if_pos ⟨Nat.zero_le _, .inl (by omega)⟩
    have hc : (Char.ofNat b.toNat).val.toNat = b.toNat := (scalar_eq_some hscalar).1
    rw [hc, if_pos (by omega)]
    exact ⟨bs, by rw [UInt8.ofNat_toNat]; rfl, rfl⟩
  split at h
  · cases h
  split at h
  · split at h
    · rename_i b1 rest
      simp only [Option.bind_eq_bind, Option.bind_eq_some_iff, Option.pure_def, Option.some.injEq,
        Prod.mk.injEq] at h
      obtain ⟨x, hx, c', hc, rfl, rfl⟩ := h
      have hx := continuation_eq_some hx
      obtain ⟨hn, hleast⟩ := scalar_eq_some hc
      rw [if_neg (by omega), if_pos (by omega)]
      refine ⟨rest, ?_, rfl⟩
      rw [eq_ofNat (b := b) (n := c'.val.toNat / 64 % 32 + 192) (by omega),
        eq_ofNat (b := b1) (n := c'.val.toNat % 64 + 128) (by omega)]
      rfl
    · cases h
  split at h
  · split at h
    · rename_i b1 b2 rest
      simp only [Option.bind_eq_bind, Option.bind_eq_some_iff, Option.pure_def, Option.some.injEq,
        Prod.mk.injEq] at h
      obtain ⟨x, hx, y, hy, c', hc, rfl, rfl⟩ := h
      have hx := continuation_eq_some hx
      have hy := continuation_eq_some hy
      obtain ⟨hn, hleast⟩ := scalar_eq_some hc
      rw [if_neg (by omega), if_neg (by omega), if_pos (by omega)]
      refine ⟨rest, ?_, rfl⟩
      rw [eq_ofNat (b := b) (n := c'.val.toNat / 4096 % 16 + 224) (by omega),
        eq_ofNat (b := b1) (n := c'.val.toNat / 64 % 64 + 128) (by omega),
        eq_ofNat (b := b2) (n := c'.val.toNat % 64 + 128) (by omega)]
      rfl
    · cases h
  split at h
  · split at h
    · rename_i b1 b2 b3 rest
      simp only [Option.bind_eq_bind, Option.bind_eq_some_iff, Option.pure_def, Option.some.injEq,
        Prod.mk.injEq] at h
      obtain ⟨x, hx, y, hy, z, hz, c', hc, rfl, rfl⟩ := h
      have hx := continuation_eq_some hx
      have hy := continuation_eq_some hy
      have hz := continuation_eq_some hz
      obtain ⟨hn, hleast⟩ := scalar_eq_some hc
      rw [if_neg (by omega), if_neg (by omega), if_neg (by omega)]
      refine ⟨rest, ?_, rfl⟩
      rw [eq_ofNat (b := b) (n := c'.val.toNat / 262144 % 8 + 240) (by omega),
        eq_ofNat (b := b1) (n := c'.val.toNat / 4096 % 64 + 128) (by omega),
        eq_ofNat (b := b2) (n := c'.val.toNat / 64 % 64 + 128) (by omega),
        eq_ofNat (b := b3) (n := c'.val.toNat % 64 + 128) (by omega)]
      rfl
    · cases h
  · cases h

theorem decodeChar_eq_ok {bs : List UInt8} {c : Char} {w : Nat} (h : decodeChar bs = .ok (c, w)) :
    ∃ rest, bs = String.utf8EncodeChar c ++ rest ∧ w = (String.utf8EncodeChar c).length := by
  cases bs with
  | nil => cases h
  | cons b bs =>
    cases hd : decodeFrom b.toNat bs with
    | none =>
      rw [decodeChar, hd] at h
      cases h
    | some r =>
      rw [decodeChar, hd] at h
      obtain rfl := Except.ok.inj h
      exact decodeFrom_eq_some hd

/-- How many bytes follow a lead byte. -/
def trailing (lead : Nat) : Nat :=
  if lead < 0xc0 then 0 else if lead < 0xe0 then 1 else if lead < 0xf0 then 2 else 3

/-- What is read has all its bytes. -/
theorem continuation_of_decodeFrom {lead : Nat} {bs : List UInt8} {r : Char × Nat}
    (h : decodeFrom lead bs = some r) :
    trailing lead ≤ bs.length ∧ ∀ b ∈ bs.take (trailing lead), continuation b ≠ none := by
  unfold decodeFrom at h
  unfold trailing
  split_ifs at h ⊢ <;> (try omega)
  · simp
  all_goals
    split at h
    case h_2 => cases h
    simp only [Option.bind_eq_bind, Option.bind_eq_some_iff] at h
  · obtain ⟨x, hx, -⟩ := h
    simp [hx]
  · obtain ⟨x, hx, y, hy, -⟩ := h
    simp [hx, hy]
  · obtain ⟨x, hx, y, hy, z, hz, -⟩ := h
    simp [hx, hy, hz]

/-- The bytes of a spelling are as many as its lead byte says. -/
theorem spell_eq_cons {w : Width} {n : Nat} (h : n < w.bound) :
    ∃ b bs, w.spell n = b :: bs ∧ bs.length = trailing b.toNat := by
  cases w <;> simp only [Width.bound] at h <;> refine ⟨_, _, rfl, ?_⟩ <;>
    rw [toNat_ofNat_of_lt (by omega)] <;> grind [trailing]

/-- A sequence that breaks off is refused. -/
theorem decodeChar_cut {w : Width} {n k : Nat} {bs : List UInt8} (h : n < w.bound)
    (hk : k + 1 < (w.spell n).length) (hbs : ∀ b ∈ bs.head?, continuation b = none) :
    decodeChar ((w.spell n).take (k + 1) ++ bs) = .error .illFormed := by
  obtain ⟨b, conts, heq, hlen⟩ := spell_eq_cons h
  rw [heq, List.length_cons] at hk
  rw [heq, List.take_succ_cons, List.cons_append, decodeChar]
  cases hd : decodeFrom b.toNat (conts.take k ++ bs) with
  | none => rfl
  | some r =>
    obtain ⟨hle, hall⟩ := continuation_of_decodeFrom hd
    cases bs with
    | nil =>
      simp at hle
      omega
    | cons c bs =>
      refine absurd (hbs c rfl) (hall c ?_)
      rw [List.take_append, List.length_take]
      refine List.mem_append_right _ ?_
      rw [← hlen, show conts.length - min k conts.length = (conts.length - k - 1) + 1 by omega]
      exact List.mem_cons_self

/-- Exactly the encodings of characters are read. Spellings of other numbers, longer spellings, bytes
that begin no character and encodings that break off are refused. -/
theorem decodeChar_exact (bs : List UInt8) :
    (∀ c w, decodeChar bs = .ok (c, w) ↔
      String.utf8EncodeChar c <+: bs ∧ w = (String.utf8EncodeChar c).length) ∧
    (∀ c, decodeChar (String.utf8EncodeChar c ++ bs) =
      .ok (c, (String.utf8EncodeChar c).length)) ∧
    (∀ (w : Width) (n : Nat), n < w.bound → (n < w.least ∨ ¬ n.isValidChar) →
      decodeChar (w.spell n ++ bs) = .error .illFormed) ∧
    (∀ b : UInt8, 0x80 ≤ b.toNat ∧ b.toNat < 0xc2 ∨ 0xf5 ≤ b.toNat →
      decodeChar (b :: bs) = .error .illFormed) ∧
    ∀ c k, k + 1 < (String.utf8EncodeChar c).length → (∀ b ∈ bs.head?, continuation b = none) →
      decodeChar ((String.utf8EncodeChar c).take (k + 1) ++ bs) = .error .illFormed := by
  refine ⟨fun c w => ⟨fun h => ?_, ?_⟩, fun c => decodeChar_utf8EncodeChar c bs,
    fun w n hn hbad => ?_, fun b hb => ?_, fun c k hk hbs => ?_⟩
  · obtain ⟨rest, rfl, hw⟩ := decodeChar_eq_ok h
    exact ⟨List.prefix_append _ _, hw⟩
  · rintro ⟨⟨rest, rfl⟩, rfl⟩
    exact decodeChar_utf8EncodeChar c rest
  · rw [decodeChar_spell hn, scalar_eq_none hbad]
    rfl
  · have hnone : decodeFrom b.toNat bs = none := by
      unfold decodeFrom
      rcases hb with hb | hb
      · rw [if_neg (by omega), if_pos hb.2]
      · repeat rw [if_neg (by omega)]
    rw [decodeChar, hnone]
  · obtain ⟨w, heq, -, hbound⟩ := utf8EncodeChar_eq_spell c
    rw [heq] at hk ⊢
    exact decodeChar_cut hbound hk hbs

theorem near_encodings_refused :
    decodeChar (Width.two.spell 0x2f ++ [0x41]) = .error .illFormed ∧
    decodeChar (Width.three.spell 0xd800 ++ [0x41]) = .error .illFormed ∧
    decodeChar (Width.four.spell 0x110000 ++ [0x41]) = .error .illFormed ∧
    decodeChar ((String.utf8EncodeChar '€').take 2 ++ [0x41]) = .error .illFormed := by
  obtain ⟨-, -, hspell, -, hcut⟩ := decodeChar_exact [0x41]
  exact ⟨hspell .two 0x2f (by decide +kernel) (by decide +kernel),
    hspell .three 0xd800 (by decide +kernel) (by decide +kernel),
    hspell .four 0x110000 (by decide +kernel) (by decide +kernel),
    hcut '€' 1 (by decide +kernel) (by decide +kernel)⟩

end SsaCompiler.Text
