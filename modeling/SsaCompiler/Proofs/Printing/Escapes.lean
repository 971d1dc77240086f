import Mathlib.Data.Char
import SsaCompiler.Proofs.Printing.Names

/-!
Escaped texts can be read back. Between quotes a printable character stands for itself and a backslash
begins the two hexadecimal digits of a byte; reading a text in this way gives the bytes that it was
written from. A string constant of a module is declared with as many bytes as its text stands for, and
one more for the null byte behind them.
-/
namespace SsaCompiler

namespace Text

/-- The value of an upper-case hexadecimal digit. -/
def hexValue? (c : Char) : Option Nat :=
  if '0' ≤ c ∧ c ≤ '9' then some (c.toNat - '0'.toNat)
  else if 'A' ≤ c ∧ c ≤ 'F' then some (c.toNat - 'A'.toNat + 10)
  else none

/-- Characters that stand for themselves between quotes. -/
def isLiteral (c : Char) : Bool := ' ' ≤ c && c ≤ '~' && c ≠ '"' && c ≠ '\\'

/-- The bytes that a text between quotes stands for. Every backslash has to begin an escape. -/
def unescape : List Char → Option (List UInt8)
  | [] => some []
  | '\\' :: high :: low :: cs => do
    let x ← hexValue? high
    let y ← hexValue? low
    return .ofNat (16 * x + y) :: (← unescape cs)
  | c :: cs => if isLiteral c then do return .ofNat c.toNat :: (← unescape cs) else none

variable {c : Char} {cs : List Char} {bs : List UInt8}

theorem isLiteral_iff : isLiteral c = true ↔ ' ' ≤ c ∧ c ≤ '~' ∧ c ≠ '"' ∧ c ≠ '\\' := by
  simp [isLiteral, and_assoc]

theorem unescape_literal (hc : isLiteral c = true) (cs : List Char) :
    unescape (c :: cs) = (unescape cs).map (.ofNat c.toNat :: ·) := by
  have hslash : c ≠ '\\' := (isLiteral_iff.mp hc).2.2.2
  rw [unescape.eq_def]
  split
  · next heq => cases heq
  · next heq => exact absurd (List.cons.inj heq).1 hslash
  · next heq =>
    obtain ⟨rfl, rfl⟩ := List.cons.inj heq
    rw [if_pos hc]
    cases unescape cs <;> rfl

theorem hexValue?_hexDigit : ∀ n < 16, hexValue? (hexDigit n) = some n := by decide

theorem unescape_digits {x y : Nat} (hx : x < 16) (hy : y < 16) (cs : List Char) :
    unescape ('\\' :: hexDigit x :: hexDigit y :: cs) =
      (unescape cs).map (.ofNat (16 * x + y) :: ·) := by
  rw [unescape, hexValue?_hexDigit x hx, hexValue?_hexDigit y hy]
  cases unescape cs <;> rfl

theorem unescape_escapeByte (b : UInt8) (cs : List Char) :
    unescape (escapeByte b ++ cs) = (unescape cs).map (b :: ·) := by
  have hb := b.toNat_lt
  unfold escapeByte
  split
  · next h =>
    have hall : ∀ n < 0x7f, 0x20 ≤ n ∧ n ≠ 0x22 ∧ n ≠ 0x5c →
        isLiteral (Char.ofNat n) = true ∧ (Char.ofNat n).toNat = n := by decide
    obtain ⟨hliteral, hnat⟩ := hall b.toNat h.2.1 ⟨h.1, h.2.2⟩
    rw [List.singleton_append, unescape_literal hliteral, hnat, UInt8.ofNat_toNat]
  · have hsum : 16 * (b.toNat / 16) + b.toNat % 16 = b.toNat := by omega
    rw [List.cons_append, List.cons_append, List.singleton_append,
      unescape_digits (by omega) (by omega), hsum, UInt8.ofNat_toNat]

/-- Reading an escaped text gives the bytes of the text. -/
theorem unescape_escape (s : String) : unescape (escape s).toList = some s.toUTF8.data.toList := by
  unfold escape
  rw [String.toList_ofList]
  induction s.toUTF8.data.toList with
  | nil => rfl
  | cons b bs ih => rw [List.flatMap_cons, unescape_escapeByte, ih, Option.map_some]

theorem isLiteral_of_hexValue? {x : Nat} (h : hexValue? c = some x) : isLiteral c = true := by
  unfold hexValue? at h
  rw [isLiteral_iff]
  split at h
  · next hc => exact ⟨le_trans (by decide) hc.1, hc.2.trans (by decide),
      fun heq => absurd (heq ▸ hc.1) (by decide), fun heq => absurd (heq ▸ hc.2) (by decide)⟩
  · split at h
    · next hc => exact ⟨le_trans (by decide) hc.1, hc.2.trans (by decide),
        fun heq => absurd (heq ▸ hc.1) (by decide), fun heq => absurd (heq ▸ hc.2) (by decide)⟩
    · cases h

/-- A backslash in front of `cs` begins an escape. -/
def BeginsEscape (cs : List Char) : Prop :=
  ∃ high low rest, cs = high :: low :: rest ∧ (hexValue? high).isSome = true ∧
    (hexValue? low).isSome = true

/-- What can be read is printable and has no quote in it, and every backslash begins an escape. -/
theorem wellFormed_of_unescape (h : unescape cs = some bs) :
    (∀ c ∈ cs, ' ' ≤ c ∧ c ≤ '~' ∧ c ≠ '"') ∧
      ∀ front back, cs = front ++ '\\' :: back → BeginsEscape back := by
  fun_induction unescape cs generalizing bs with
  | case1 => simp
  | case2 high low cs ih =>
    simp only [Option.bind_eq_bind, Option.bind_eq_some_iff] at h
    obtain ⟨x, hx, y, hy, bytes, hbytes, -⟩ := h
    have hhigh := isLiteral_iff.mp (isLiteral_of_hexValue? hx)
    have hlow := isLiteral_iff.mp (isLiteral_of_hexValue? hy)
    obtain ⟨hprint, hbegins⟩ := ih hbytes
    refine ⟨?_, fun front back hcs => ?_⟩
    · simp only [List.forall_mem_cons]
      exact ⟨by decide, ⟨hhigh.1, hhigh.2.1, hhigh.2.2.1⟩, ⟨hlow.1, hlow.2.1, hlow.2.2.1⟩, hprint⟩
    · rcases front with _ | ⟨a, _ | ⟨b, _ | ⟨d, front⟩⟩⟩
      · obtain ⟨-, rfl⟩ := List.cons.inj hcs
        exact ⟨high, low, cs, rfl, by simp [hx], by simp [hy]⟩
      · obtain ⟨-, hcs⟩ := List.cons.inj hcs
        exact absurd (List.cons.inj hcs).1 hhigh.2.2.2
      · obtain ⟨-, hcs⟩ := List.cons.inj (List.cons.inj hcs).2
        exact absurd (List.cons.inj hcs).1 hlow.2.2.2
      · obtain ⟨-, hcs⟩ := List.cons.inj (List.cons.inj (List.cons.inj hcs).2).2
        exact hbegins front back hcs
  | case3 c cs _ hc ih =>
    simp only [Option.bind_eq_bind, Option.bind_eq_some_iff] at h
    obtain ⟨bytes, hbytes, -⟩ := h
    obtain ⟨hprint, hbegins⟩ := ih hbytes
    have hc := isLiteral_iff.mp hc
    refine ⟨List.forall_mem_cons.mpr ⟨⟨hc.1, hc.2.1, hc.2.2.1⟩, hprint⟩, fun front back hcs => ?_⟩
    rcases front with _ | ⟨a, front⟩
    · exact absurd (List.cons.inj hcs).1 hc.2.2.2
    · exact hbegins front back (List.cons.inj hcs).2
  | case4 => cases h

/-- The pattern of bare names: letters, digits and some signs, with no digit in front. -/
def PlainName (name : String) : Prop :=
  let start (c : Char) := 'a' ≤ c ∧ c ≤ 'z' ∨ 'A' ≤ c ∧ c ≤ 'Z' ∨ c ∈ ['-', '$', '.', '_']
  ∃ c cs, name.toList = c :: cs ∧ start c ∧ ∀ d ∈ cs, start d ∨ '0' ≤ d ∧ d ≤ '9'

theorem isAlpha_iff : c.isAlpha = true ↔ 'a' ≤ c ∧ c ≤ 'z' ∨ 'A' ≤ c ∧ c ≤ 'Z' := by
  change (decide ('A'.val ≤ c.val ∧ c.val ≤ 'Z'.val) ||
    decide ('a'.val ≤ c.val) && decide (c.val ≤ 'z'.val)) = true ↔ _
  simp only [Bool.or_eq_true, Bool.and_eq_true, decide_eq_true_eq, Char.le_def]
  exact or_comm

theorem isNameStart_iff : isNameStart c = true ↔
    'a' ≤ c ∧ c ≤ 'z' ∨ 'A' ≤ c ∧ c ≤ 'Z' ∨ c ∈ ['-', '$', '.', '_'] := by
  simp [isNameStart, isAlpha_iff, or_assoc]

theorem isPlainName_iff (name : String) : isPlainName name.toList = true ↔ PlainName name := by
  unfold PlainName
  cases name.toList with
  | nil => simp [isPlainName]
  | cons c cs => simp [isPlainName, isNameStart_iff, Char.isDigit, Char.le_def]

end Text

namespace Ir.Module

/-- The declaration of a string constant stands in the text of the module. -/
theorem exists_text_eq {m : Module} {i : Nat} {s : String} (h : m.strings[i]? = some s) :
    ∃ before behind, m.text = before ++ stringText (s, i) ++ behind := by
  obtain ⟨front, back, hsplit⟩ : ∃ front back, m.strings.zipIdx = front ++ (s, i) :: back :=
    List.append_of_mem (List.mk_mem_zipIdx_iff_getElem?.mpr h)
  have hassoc : ∀ head routines functions : String,
      head ++ String.join ((front ++ (s, i) :: back).map stringText) ++ routines ++ functions =
        (head ++ String.join (front.map stringText)) ++ stringText (s, i) ++
          (String.join (back.map stringText) ++ routines ++ functions) := by
    intro head routines functions
    simp only [List.map_append, List.map_cons, String.join_append, String.join_cons,
      String.append_assoc]
  unfold text
  rw [hsplit]
  exact ⟨_, _, hassoc _ _ _⟩

end Ir.Module

open Text

/-- What is written between quotes is printable and has no quote in it, a backslash only begins an
escape, and the bytes of the text can be read back. A string constant is declared with one byte more
than its text stands for. Different names are written differently, bare if they have the pattern of
bare names and between quotes otherwise. -/
theorem written_reads_back :
    (∀ s : String, (∀ c ∈ (escape s).toList, ' ' ≤ c ∧ c ≤ '~' ∧ c ≠ '"') ∧
      (∀ front back, (escape s).toList = front ++ '\\' :: back → BeginsEscape back) ∧
      unescape (escape s).toList = some s.toUTF8.data.toList) ∧
    (∀ (m : Ir.Module) (i : Nat) (s : String), m.strings[i]? = some s →
      ∃ bytes before behind, unescape (escape s).toList = some bytes ∧
        m.text = before ++ ("@.str." ++ toString i ++ " = private unnamed_addr constant [" ++
          toString (bytes.length + 1) ++ " x i8] c\"" ++ escape s ++ "\\00\"\n") ++ behind) ∧
    (∀ a b, quote a = quote b → a = b) ∧
    ∀ name, PlainName name ∧ quote name = name ∨
      ¬ PlainName name ∧ quote name = "\"" ++ escape name ++ "\"" := by
  refine ⟨fun s => ?_, fun m i s h => ?_, fun a b h => quote_injective h, fun name => ?_⟩
  · obtain ⟨hprint, hbegins⟩ := wellFormed_of_unescape (unescape_escape s)
    exact ⟨hprint, hbegins, unescape_escape s⟩
  · obtain ⟨before, behind, htext⟩ := Ir.Module.exists_text_eq h
    exact ⟨_, before, behind, unescape_escape s, htext⟩
  · rw [← isPlainName_iff]
    unfold quote
    by_cases hplain : isPlainName name.toList = true
    · exact .inl ⟨hplain, if_pos hplain⟩
    · exact .inr ⟨hplain, if_neg hplain⟩

/-- A module whose string has a quote and a letter of two bytes in it. -/
def accented : Ir.Module := { Ir.Module.empty "accented" with strings := ["\"é"] }

theorem accented_reads_back : accented.strings[0]? = some "\"é" ∧
    ∃ bytes before behind, unescape (escape "\"é").toList = some bytes ∧
      accented.text = before ++ ("@.str." ++ toString 0 ++ " = private unnamed_addr constant [" ++
        toString (bytes.length + 1) ++ " x i8] c\"" ++ escape "\"é" ++ "\\00\"\n") ++ behind :=
  ⟨rfl, written_reads_back.2.1 accented 0 "\"é" rfl⟩

end SsaCompiler
