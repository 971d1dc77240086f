import SsaCompiler.Source
import SsaCompiler.Proofs.Reading.Characters

/-!
Source texts of strings. Reading the bytes of a string gives back its characters, if there is no
null character and no byte order mark among them. The text of two byte strings with a line end
between them is read in two parts.
-/
namespace SsaCompiler

namespace Text

/-- The byte of a line end stands for a line end only. -/
theorem count_utf8EncodeChar (c : Char) : (String.utf8EncodeChar c).count 10 = [c].count '\n' := by
  by_cases hc : c = '\n'
  · subst hc
    decide
  have hne : c.val.toNat ≠ 10 := fun h => hc (Char.ext (UInt32.toNat_inj.mp h))
  have hbyte : ∀ {n : Nat}, n < 256 → n ≠ 10 → (10 : UInt8) ≠ UInt8.ofNat n := by
    intro n hlt hn heq
    have hten := congrArg UInt8.toNat heq
    rw [toNat_ofNat_of_lt hlt] at hten
    exact hn hten.symm
  have hnone : [c].count '\n' = 0 := by simp [hc]
  rw [hnone, List.count_eq_zero, String.utf8EncodeChar]
  split
  · simpa using hbyte (by omega) hne
  split
  · simp only [List.mem_cons, List.not_mem_nil, or_false, not_or]
    exact ⟨hbyte (by omega) (by omega), hbyte (by omega) (by omega)⟩
  split
  · simp only [List.mem_cons, List.not_mem_nil, or_false, not_or]
    exact ⟨hbyte (by omega) (by omega), hbyte (by omega) (by omega), hbyte (by omega) (by omega)⟩
  · simp only [List.mem_cons, List.not_mem_nil, or_false, not_or]
    exact ⟨hbyte (by omega) (by omega), hbyte (by omega) (by omega), hbyte (by omega) (by omega),
      hbyte (by omega) (by omega)⟩

end Text

namespace Source

/-- A character that can stand anywhere in a source text. -/
def Plain (c : Char) : Prop := c.toNat ≠ 0 ∧ c ≠ byteOrderMark

instance (c : Char) : Decidable (Plain c) :=
  inferInstanceAs (Decidable (c.toNat ≠ 0 ∧ c ≠ byteOrderMark))

theorem faultOf_eq_none {c : Char} (h : Plain c) (first : Bool) : faultOf first c = none := by
  unfold faultOf
  rw [if_neg h.1, if_neg fun hc => h.2 hc.1]

theorem readFrom_append (first : Bool) (skipped bs : List UInt8) :
    readFrom first skipped.length (skipped ++ bs) = readFrom first 0 bs := by
  induction skipped with
  | nil => rfl
  | cons b skipped ih => exact ih

/-- Reading a character at the start of a byte string. -/
theorem readFrom_char {first : Bool} {c : Char} (h : faultOf first c = none) (bs : List UInt8) :
    readFrom first 0 (String.utf8EncodeChar c ++ bs) =
      ⟨c :: (readFrom false 0 bs).chars, (readFrom false 0 bs).fault⟩ := by
  have hread := Text.decodeChar_utf8EncodeChar c bs
  cases hbytes : String.utf8EncodeChar c with
  | nil => exact absurd hbytes String.utf8EncodeChar_ne_nil
  | cons b more =>
    rw [hbytes] at hread
    rw [List.cons_append] at hread ⊢
    rw [readFrom, hread]
    dsimp only
    rw [h, List.length_cons, Nat.add_sub_cancel, readFrom_append]

theorem readFrom_fault {first : Bool} {c : Char} {f : Fault} (h : faultOf first c = some f)
    (bs : List UInt8) : readFrom first 0 (String.utf8EncodeChar c ++ bs) = ⟨[], some f⟩ := by
  have hread := Text.decodeChar_utf8EncodeChar c bs
  cases hbytes : String.utf8EncodeChar c with
  | nil => exact absurd hbytes String.utf8EncodeChar_ne_nil
  | cons b more =>
    rw [hbytes] at hread
    rw [List.cons_append] at hread ⊢
    rw [readFrom, hread]
    dsimp only
    rw [h]

theorem readFrom_utf8Encode {cs : List Char} (h : ∀ c ∈ cs, Plain c) (first : Bool) :
    readFrom first 0 (cs.flatMap String.utf8EncodeChar) = ⟨cs, none⟩ := by
  induction cs generalizing first with
  | nil => rfl
  | cons c cs ih =>
    obtain ⟨hc, hcs⟩ := List.forall_mem_cons.mp h
    rw [List.flatMap_cons, readFrom_char (faultOf_eq_none hc first), ih hcs]

/-- Bytes are read up to their end, up to a character that makes a fault, or up to what is no
character. -/
theorem readFrom_cases (first : Bool) (bs : List UInt8) :
    bs = [] ∨
      readFrom first 0 bs = ⟨[], some .illFormed⟩ ∧ readFrom (!first) 0 bs = ⟨[], some .illFormed⟩ ∨
      ∃ c rest, bs = String.utf8EncodeChar c ++ rest := by
  cases bs with
  | nil => exact .inl rfl
  | cons b bs =>
    right
    cases hd : Text.decodeChar (b :: bs) with
    | error e =>
      left
      constructor <;> rw [readFrom, hd]
    | ok r =>
      obtain ⟨rest, hrest, _⟩ := Text.decodeChar_eq_ok hd
      exact .inr ⟨r.1, rest, hrest⟩

/-- A text that was read to its end, and a line end behind it, are read before what follows. -/
theorem readFrom_line {first : Bool} {bs : List UInt8} {cs : List Char}
    (h : readFrom first 0 bs = ⟨cs, none⟩) (more : List UInt8) :
    readFrom first 0 (bs ++ 10 :: more) =
        ⟨cs ++ '\n' :: (readFrom false 0 more).chars, (readFrom false 0 more).fault⟩ ∧
      cs.count '\n' = bs.count 10 := by
  induction hn : bs.length using Nat.strongRecOn generalizing first bs cs with
  | ind n ih =>
    obtain rfl | ⟨hbad, _⟩ | ⟨c, rest, rfl⟩ := readFrom_cases first bs
    · obtain ⟨rfl, _⟩ := Source.mk.inj h
      exact ⟨readFrom_char (c := '\n') (by cases first <;> decide) more, rfl⟩
    · rw [hbad] at h
      cases (Source.mk.inj h).2
    · cases hf : faultOf first c with
      | some f =>
        rw [readFrom_fault hf] at h
        cases (Source.mk.inj h).2
      | none =>
        rw [readFrom_char hf] at h
        obtain ⟨rfl, hfault⟩ := Source.mk.inj h
        have hlen : rest.length < n := by
          rw [← hn, List.length_append]
          have := List.length_pos_of_ne_nil (String.utf8EncodeChar_ne_nil (c := c))
          omega
        have hrest : readFrom false 0 rest = ⟨(readFrom false 0 rest).chars, none⟩ := by rw [← hfault]
        obtain ⟨hread, hcount⟩ := ih rest.length hlen hrest rfl
        rw [List.append_assoc, readFrom_char hf, hread, List.count_append,
          Text.count_utf8EncodeChar, ← hcount, ← List.count_append]
        exact ⟨rfl, rfl⟩

/-- Only a byte order mark is read differently at the beginning of a text. -/
theorem readFrom_first {bs : List UInt8} (h : ¬ String.utf8EncodeChar byteOrderMark <+: bs) :
    readFrom true 0 bs = readFrom false 0 bs := by
  obtain rfl | ⟨hfirst, hlater⟩ | ⟨c, rest, rfl⟩ := readFrom_cases true bs
  · rfl
  · exact hfirst.trans hlater.symm
  · have hc : c ≠ byteOrderMark := by
      rintro rfl
      exact h (List.prefix_append _ _)
    have hsame : faultOf true c = faultOf false c := by simp [faultOf, hc]
    cases hf : faultOf false c with
    | some f => rw [readFrom_fault hf, readFrom_fault (hsame.trans hf)]
    | none => rw [readFrom_char hf, readFrom_char (hsame.trans hf)]

/-- A byte order mark is not read behind the beginning of a text. -/
theorem head_readFrom {bs : List UInt8} {c : Char} {cs : List Char}
    (h : (readFrom false 0 bs).chars = c :: cs) : c ≠ byteOrderMark := by
  obtain rfl | ⟨hbad, _⟩ | ⟨d, rest, rfl⟩ := readFrom_cases false bs
  · cases h
  · rw [hbad] at h
    cases h
  · cases hf : faultOf false d with
    | some f =>
      rw [readFrom_fault hf] at h
      cases h
    | none =>
      rw [readFrom_char hf] at h
      obtain ⟨rfl, _⟩ := List.cons.inj h
      rintro rfl
      exact absurd hf (by decide)

/-- A string is read as its characters. -/
theorem ofString_eq {s : String} (h : ∀ c ∈ s.toList, Plain c) : ofString s = ⟨s.toList, none⟩ := by
  unfold ofString ofBytes String.toUTF8
  rw [← String.utf8Encode_toList, List.utf8Encode]
  rw [show (s.toList.flatMap String.utf8EncodeChar).toByteArray.data.toList =
    s.toList.flatMap String.utf8EncodeChar by simp]
  exact readFrom_utf8Encode h true

end Source

end SsaCompiler
