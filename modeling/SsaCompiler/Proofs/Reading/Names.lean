import SsaCompiler.Proofs.Reading.Printing
import SsaCompiler.Proofs.Typing.Callees

/-!
Names in texts. A word starts with a letter, so no text names the function of the statements outside of
functions.
-/
namespace SsaCompiler

open Compilation (toplevelName)

/-- What the scanner gives, if anything, satisfies `Q`. -/
def Scan.Gives {α : Type} (Q : α → Prop) (s : Scan α) : Prop := ∀ ⦃a⦄, s.outcome = .ok a → Q a

section Scanning

variable {α β : Type} {Q : β → Prop} {s : Scan α} {fault : Option Fault} {mark pos : Position}
  {c : Char} {cs : List Char}

theorem Scan.Gives.of_eq {a : β} {cur : Cursor} (h : Q a) : Scan.Gives Q ⟨.ok a, cur⟩ := by
  intro b hb
  cases hb
  exact h

theorem Scan.Gives.map {P : α → Prop} {f : α → β} (h : s.Gives P) (hf : ∀ a, P a → Q (f a)) :
    (s.map f).Gives Q := by
  intro b hb
  obtain ⟨outcome, cur⟩ := s
  cases outcome with
  | error e => cases hb
  | ok a =>
    cases hb
    exact hf a (h rfl)

theorem gives_andThen {k : α → Cursor → Scan β} (hk : ∀ a cur, (k a cur).Gives Q) :
    (s.andThen k).Gives Q := by
  intro b hb
  obtain ⟨outcome, cur⟩ := s
  cases outcome with
  | error e => cases hb
  | ok a => exact hk a cur hb

theorem gives_onward {k : Position → Scan β} (hk : ∀ pos, (k pos).Gives Q) :
    (onward fault mark c cs pos k).Gives Q := by
  unfold onward
  split
  · intro b hb
    cases hb
  · exact hk _

theorem gives_takeWhile {p : Char → Bool} (cs : List Char) {pos : Position} :
    (takeWhile fault mark p cs pos).Gives fun w => ∀ c ∈ w, p c = true := by
  induction cs generalizing pos with
  | nil => exact .of_eq nofun
  | cons c cs ih =>
    unfold takeWhile
    split
    · rename_i hc
      exact gives_onward fun _ => ih.map fun w hw => List.forall_mem_cons.mpr ⟨hc, hw⟩
    · exact .of_eq nofun

theorem IsIdentifier.ne_toplevelName {name : String} (h : IsIdentifier name) :
    name ≠ toplevelName := by
  rintro rfl
  exact absurd h.first (by decide)

theorem IsIdentifier.point_notMem {name : String} (h : IsIdentifier name) : '.' ∉ name.toList :=
  fun hmem => absurd (h.chars _ hmem) (by decide)

/-- What is taken for an identifier is one. -/
def Token.Ordinary (t : Token) : Prop := ∀ name, t = .identifier name → IsIdentifier name

theorem ordinary_ofWord {w : List Char} (hfirst : w.head?.any Text.isAlphabetic = true)
    (hw : ∀ c ∈ w, isWordChar c = true) : (Token.ofWord (String.ofList w)).Ordinary := by
  unfold Token.ofWord
  split
  · exact nofun
  · rename_i hnone
    rintro _ ⟨⟩
    rw [List.find?_eq_none] at hnone
    exact ⟨by simpa using hfirst, by simpa using hw, fun k hk => by simpa using hnone k hk⟩

theorem gives_scanWord (hc : Text.isAlphabetic c = true) :
    (scanWord fault mark (c :: cs) pos).Gives Token.Ordinary := by
  have hword : (takeWhile fault mark isWordChar (c :: cs) pos).Gives fun w =>
      w.head?.any Text.isAlphabetic = true ∧ ∀ c ∈ w, isWordChar c = true := by
    have hchar : isWordChar c = true := by simp [isWordChar, hc]
    rw [takeWhile, if_pos hchar]
    exact gives_onward fun pos => (gives_takeWhile cs).map fun w hw =>
      ⟨hc, List.forall_mem_cons.mpr ⟨hchar, hw⟩⟩
  exact hword.map fun w hw => ordinary_ofWord hw.1 hw.2

theorem ordinary_signOf (c : Char) : (signOf c).Ordinary := by
  unfold signOf
  repeat' split
  all_goals exact nofun

theorem gives_scanLexeme {o : LexOptions} :
    (scanLexeme o fault mark c cs pos).Gives Token.Ordinary := by
  unfold scanLexeme
  split
  · exact gives_scanWord ‹_›
  · split
    · refine gives_andThen fun text cur => ?_
      split
      · exact .of_eq nofun
      · exact fun _ ht => nomatch ht
    · split
      · refine gives_onward fun pos => gives_andThen fun text cur => ?_
        split
        · split
          · exact fun _ ht => nomatch ht
          · exact .of_eq nofun
        · exact gives_onward fun pos => .of_eq nofun
      · refine gives_onward fun pos => ?_
        split
        · exact gives_onward fun pos => .of_eq nofun
        · exact .of_eq (ordinary_signOf c)

theorem ordinary_of_advance {lx next : Lexer} {t : Token} (h : lx.advance = (.ok t, next)) :
    t.Ordinary := by
  have hscan : lx.scan.Gives Token.Ordinary := by
    refine gives_andThen fun _ cur => gives_andThen fun _ cur => ?_
    split
    · exact .of_eq nofun
    · exact gives_scanLexeme
  unfold Lexer.advance at h
  split at h
  · rename_i t' cur hs
    cases h
    exact hscan (congrArg Scan.outcome hs)
  · cases h

end Scanning

/-- What holds of every item that is read. -/
structure ItemRead (item : Item) : Prop where
  avoids : item.Avoids
  params : ∀ proto, item.proto? = some proto → ∀ p ∈ proto.params, IsIdentifier p.name

end SsaCompiler
