import SsaCompiler.Lexer.Run
import SsaCompiler.Proofs.Reading.Printing

/-!
Tokens of a printed text. The text of a token that a space or the end of the text follows is scanned
as this token, and the scan stops behind it. So the tokens of a text with spaces between them are
those that it was made from.
-/
namespace SsaCompiler

/-- The scan gives `a`, and the characters `rest` are left. -/
def Scan.Leaves {α : Type} (s : Scan α) (a : α) (rest : List Char) : Prop :=
  s.outcome = .ok a ∧ s.cursor.chars = rest

namespace Scan.Leaves

variable {α β : Type} {s : Scan α} {a : α} {rest mid : List Char}

theorem map (h : s.Leaves a rest) (f : α → β) : (s.map f).Leaves (f a) rest := by
  refine ⟨?_, h.2⟩
  show s.outcome.map f = _
  rw [h.1]
  rfl

theorem andThen {k : α → Cursor → Scan β} {b : β} (h : s.Leaves a mid)
    (hk : ∀ cur, cur.chars = mid → (k a cur).Leaves b rest) : (s.andThen k).Leaves b rest := by
  obtain ⟨outcome, cur⟩ := s
  obtain ⟨rfl, hcur⟩ : outcome = .ok a ∧ cur.chars = mid := h
  exact hk cur hcur

end Scan.Leaves

/-- What can stand behind a token: nothing, or a space. -/
def Parted (rest : List Char) : Prop := ∀ c ∈ rest.head?, c = ' '

section Lexemes

variable {w rest : List Char}

/-- In a text without a fault one can always go on. -/
theorem onward_none {α : Type} (mark : Position) (c : Char) (cs : List Char) (pos : Position)
    (k : Position → Scan α) : onward none mark c cs pos k = k (pos.step c cs) := by
  cases cs <;> rfl

theorem takeWhile_leaves {p : Char → Bool} (hw : ∀ c ∈ w, p c = true)
    (hrest : ∀ c ∈ rest.head?, p c = false) (mark pos : Position) :
    (takeWhile none mark p (w ++ rest) pos).Leaves w rest := by
  induction w generalizing pos with
  | nil =>
    cases rest with
    | nil => exact ⟨rfl, rfl⟩
    | cons c rest =>
      rw [List.nil_append]
      unfold takeWhile
      rw [if_neg (by simp [hrest c rfl])]
      exact ⟨rfl, rfl⟩
  | cons c w ih =>
    rw [List.cons_append]
    unfold takeWhile
    rw [if_pos (hw c List.mem_cons_self), onward_none]
    exact (ih (fun d hd => hw d (List.mem_cons_of_mem c hd)) _).map _

theorem takeNumber_leaves {taken : List Char} (hw : ∀ c ∈ w, c = '.' ∨ c.isDigit = true)
    (hpoint : taken.count '.' + w.count '.' ≤ 1)
    (hrest : ∀ c ∈ rest.head?, c ≠ '.' ∧ c.isDigit = false) (mark pos : Position) :
    (takeNumber none mark taken (w ++ rest) pos).Leaves (taken.reverse ++ w) rest := by
  induction w generalizing taken pos with
  | nil =>
    rw [List.append_nil, List.nil_append]
    cases rest with
    | nil => exact ⟨rfl, rfl⟩
    | cons c rest =>
      obtain ⟨hc, hd⟩ := hrest c rfl
      unfold takeNumber
      rw [if_neg (fun h => hc h.1), if_neg (by simp [hc, hd])]
      exact ⟨rfl, rfl⟩
  | cons c w ih =>
    have hfirst : ¬ (c = '.' ∧ '.' ∈ taken) := by
      rintro ⟨rfl, hmem⟩
      have := List.count_pos_iff.mpr hmem
      rw [List.count_cons_self] at hpoint
      omega
    have hcount : (c :: taken).count '.' + w.count '.' ≤ 1 := by
      rw [List.count_cons] at hpoint ⊢
      omega
    rw [List.cons_append]
    unfold takeNumber
    rw [if_neg hfirst, if_pos (hw c List.mem_cons_self), onward_none]
    simpa using ih (fun d hd => hw d (List.mem_cons_of_mem c hd)) hcount _

theorem not_alphabetic_of_isDigit {c : Char} (h : c.isDigit = true) :
    Text.isAlphabetic c = false := by
  have hdigits : ∀ n < 58, 48 ≤ n → Text.isAlphabetic (Char.ofNat n) = false := by decide
  obtain ⟨hlow, hhigh⟩ := Char.isDigit_iff_toNat.mp h
  have := hdigits c.toNat (Nat.lt_succ_of_le hhigh) hlow
  rwa [Char.ofNat_toNat] at this

theorem scanLexeme_word (hfirst : w.head?.any Text.isAlphabetic = true)
    (hw : ∀ c ∈ w, isWordChar c = true) (hrest : Parted rest) :
    ∃ c cs, w = c :: cs ∧ Text.isAlphabetic c = true ∧ ∀ o mark pos,
      (scanLexeme o none mark c (cs ++ rest) pos).Leaves (.ofWord (String.ofList w)) rest := by
  cases w with
  | nil => cases hfirst
  | cons c cs =>
    have hc : Text.isAlphabetic c = true := hfirst
    refine ⟨c, cs, rfl, hc, ?_⟩
    intro o mark pos
    unfold scanLexeme scanWord
    rw [if_pos hc]
    refine (takeWhile_leaves hw ?_ mark pos).map _
    intro d hd
    rw [hrest d hd]
    decide

/-- A text of digits, with at most one point, is scanned as the number that it is read as. -/
theorem scanLexeme_number {n : Number} (hw : ∀ c ∈ w, c = '.' ∨ c.isDigit = true)
    (hpoint : w.count '.' ≤ 1) (hread : Number.read w ('.' ∈ w) = .ok n)
    (hstart : ∀ c cs, w = c :: cs → startsNumber c cs = true) (hrest : Parted rest) :
    ∃ c cs, w = c :: cs ∧ ∀ o mark pos,
      (scanLexeme o none mark c (cs ++ rest) pos).Leaves (.number n) rest := by
  cases w with
  | nil => cases hread
  | cons c cs =>
    refine ⟨c, cs, rfl, ?_⟩
    intro o mark pos
    have hc : Text.isAlphabetic c = false := by
      rcases hw c List.mem_cons_self with rfl | hd
      · decide
      · exact not_alphabetic_of_isDigit hd
    have hs : startsNumber c (cs ++ rest) = true := by
      have := hstart c cs rfl
      unfold startsNumber at this ⊢
      cases cs with
      | nil => simpa using Or.inl (by simpa using this)
      | cons d ds => simpa using this
    unfold scanLexeme
    rw [if_neg (by simp [hc]), if_pos hs]
    unfold scanNumber
    refine (takeNumber_leaves hw ?_ ?_ mark pos).andThen ?_
    · simpa using hpoint
    · intro d hd
      rw [hrest d hd]
      decide
    · intro cur hcur
      rw [List.reverse_nil, List.nil_append, hread]
      exact ⟨rfl, hcur⟩

theorem scanLexeme_string (hw : ∀ c ∈ w, c ≠ '"') (o : LexOptions) (mark pos : Position) :
    (scanLexeme o none mark '"' (w ++ '"' :: rest) pos).Leaves (.string (String.ofList w))
      rest := by
  have hquote : startsNumber '"' (w ++ '"' :: rest) = false := rfl
  unfold scanLexeme
  rw [if_neg (by decide), if_neg (by simp [hquote]), if_pos rfl, onward_none]
  unfold scanString
  refine (takeWhile_leaves (fun c hc => decide_eq_true (hw c hc)) ?_ mark _).andThen ?_
  · intro c hc
    cases hc
    rfl
  · intro cur hcur
    rw [hcur]
    dsimp only
    rw [onward_none]
    exact ⟨rfl, rfl⟩

/-- The signs that make tokens of their own. -/
def otherSigns : List Char :=
  ['+', '-', '*', '/', '<', '>', '!', '~', '%', '&', '|', '^', ',', '[', ']']

def signs : List Char := ['(', ')', '\x7b', '\x7d', '@', '='] ++ otherSigns

/-- Only an equals sign depends on what stands behind it. -/
theorem scanSign_leaves {c : Char} (hrest : c = '=' → Parted rest) (mark pos : Position) :
    (scanSign none mark c rest pos).Leaves (signOf c) rest := by
  unfold scanSign
  rw [onward_none]
  split
  · cases hrest rfl '=' rfl
  · exact ⟨rfl, rfl⟩

theorem scanLexeme_sign {c : Char} (hc : c ∈ signs) (hrest : c = '=' → Parted rest)
    (o : LexOptions) (mark pos : Position) :
    (scanLexeme o none mark c rest pos).Leaves (signOf c) rest := by
  have hall : ∀ c ∈ signs, Text.isAlphabetic c = false ∧ c.isDigit = false ∧ c ≠ '.' ∧ c ≠ '"' :=
    forall_mem_of_all (by decide)
  obtain ⟨halpha, hdigit, hpoint, hquote⟩ := hall c hc
  have hnumber : startsNumber c rest = false := by simp [startsNumber, hdigit, hpoint]
  unfold scanLexeme
  rw [if_neg (by simp [halpha]), if_neg (by simp [hnumber]), if_neg hquote]
  exact scanSign_leaves hrest mark pos

theorem scanLexeme_equal (o : LexOptions) (mark pos : Position) :
    (scanLexeme o none mark '=' ('=' :: rest) pos).Leaves .equal rest := by
  have hnumber : startsNumber '=' ('=' :: rest) = false := rfl
  unfold scanLexeme
  rw [if_neg (by decide), if_neg (by simp [hnumber]), if_neg (by decide)]
  unfold scanSign
  rw [onward_none]
  show (onward none mark '=' rest _ _).Leaves _ _
  rw [onward_none]
  exact ⟨rfl, rfl⟩

end Lexemes

section Numbers

theorem Number.digitsValue_toDigits (n : Nat) : Number.digitsValue (Nat.toDigits 10 n) = n := by
  rw [Number.digitsValue, ← Nat.ofDigitChars_eq_foldl, Nat.ofDigitChars_ten_toDigits]

section Digits

variable {w : List Char}

theorem Number.splitSign_of_number (hw : ∀ c ∈ w, c = '.' ∨ c.isDigit = true) :
    Number.splitSign w = (false, w) := by
  unfold Number.splitSign
  split
  · exact absurd (hw '-' (by simp)) (by decide)
  · exact absurd (hw '+' (by simp)) (by decide)
  · rfl

theorem Number.readNat?_digits (hw : ∀ c ∈ w, c.isDigit = true) (hne : w ≠ []) :
    Number.readNat? w = some (Number.digitsValue w) := by
  unfold Number.readNat?
  exact if_neg (by simpa [hne] using hw)

/-- Digits whose value fits are read as an integer. -/
theorem Number.readInt?_digits (hw : ∀ c ∈ w, c.isDigit = true) (hne : w ≠ [])
    (hvalue : Number.digitsValue w < 2 ^ 63) :
    Number.readInt? w = some (Int64.ofInt (Number.digitsValue w)) := by
  have hv : ∀ n : Nat, (if false = true then -(n : Int) else n) = n := fun _ => if_neg (by decide)
  unfold Number.readInt?
  rw [Number.splitSign_of_number fun c hc => .inr (hw c hc)]
  dsimp only
  rw [Number.readNat?_digits hw hne, Option.bind_eq_bind, Option.bind_some, hv]
  refine if_pos ?_
  rw [show Int64.minValue.toInt = -2 ^ 63 from rfl, show Int64.maxValue.toInt = 2 ^ 63 - 1 from rfl]
  omega

end Digits

theorem Number.isDigit_toDigits (m : Nat) : ∀ c ∈ Nat.toDigits 10 m, c.isDigit = true :=
  fun _ hc => Nat.isDigit_of_mem_toDigits (by decide) (by decide) hc

theorem Number.readNat?_toDigits (m : Nat) : Number.readNat? (Nat.toDigits 10 m) = some m := by
  rw [Number.readNat?_digits (Number.isDigit_toDigits m) Nat.toDigits_ne_nil,
    Number.digitsValue_toDigits]

theorem Number.readInt?_toDigits {m : Nat} (h : m < 2 ^ 63) :
    Number.readInt? (Nat.toDigits 10 m) = some (Int64.ofInt m) := by
  have hvalue := Number.digitsValue_toDigits m
  rw [Number.readInt?_digits (Number.isDigit_toDigits m) Nat.toDigits_ne_nil (by rwa [hvalue]), hvalue]

/-- The decimal digits of an integer are read as this integer. -/
theorem Number.read_toDigits {n : Int64} (h : 0 ≤ n) :
    Number.read (Nat.toDigits 10 n.toInt.toNat) false = .ok (.int n) := by
  have hn : 0 ≤ n.toInt := by simpa using Int64.le_iff_toInt_le.mp h
  have hlt := n.toInt_lt
  have hint := Number.readInt?_toDigits (m := n.toInt.toNat) (by omega)
  rw [Int.toNat_of_nonneg hn, Int64.ofInt_toInt] at hint
  unfold Number.read
  rw [if_neg (by decide), hint]

theorem Number.point_notMem_toDigits (m : Nat) : '.' ∉ Nat.toDigits 10 m := by
  intro hmem
  cases Number.isDigit_toDigits m _ hmem

/-- A float literal does not consist of a point alone. -/
theorem Number.Spells.starts {text : List Char} {x : Double} (h : Number.Spells text x) {c : Char}
    {cs : List Char} (htext : text = c :: cs) : startsNumber c cs = true := by
  subst htext
  unfold startsNumber
  rcases h.chars c List.mem_cons_self with rfl | hdigit
  · cases cs with
    | nil => cases h.read
    | cons d ds =>
      have hd : d ≠ '.' := by
        rintro rfl
        have hpoint := h.point
        simp at hpoint
      have := (h.chars d (by simp)).resolve_left hd
      simp [this]
  · simp [hdigit]

end Numbers

/-- Tokens that the text of a program can hold. -/
def Token.Readable (style : PrintStyle) : Token → Prop
  | .eof => False
  | .identifier name => IsIdentifier name
  | .number (.int n) => 0 ≤ n
  | .number (.float x) => Number.Spells (style.literal x) x
  | .string text => ∀ c ∈ text.toList, c ≠ '"' ∧ Source.Plain c
  | .other c => c ∈ otherSigns
  | _ => True

theorem Token.ofWord_keyword (k : Keyword) : Token.ofWord k.word = .keyword k := by
  cases k <;> decide

theorem IsIdentifier.ofWord {name : String} (h : IsIdentifier name) :
    Token.ofWord name = .identifier name := by
  have hnone : Keyword.all.find? (·.word = name) = none := by
    rw [List.find?_eq_none]
    intro k hk
    simpa using h.free k hk
  unfold Token.ofWord
  rw [hnone]

/-- How the text of a token begins: it is not skipped as layout and does not open a comment. -/
def Opens (c : Char) (cs : List Char) : Prop :=
  c ∉ [' ', '\t', '\n', '\r'] ∧ (c = '/' → cs = [])

theorem opens_of_isAlphabetic {c : Char} (cs : List Char) (h : Text.isAlphabetic c = true) :
    Opens c cs := by
  have hblank : ∀ d ∈ ['/', ' ', '\t', '\n', '\r'], Text.isAlphabetic d = false :=
    forall_mem_of_all (by decide)
  refine ⟨?_, ?_⟩
  · intro hmem
    rw [hblank c (List.mem_cons_of_mem _ hmem)] at h
    cases h
  · rintro rfl
    cases h

theorem opens_of_number {c : Char} (cs : List Char) (h : c = '.' ∨ c.isDigit = true) :
    Opens c cs := by
  have hblank : ∀ d ∈ ['/', ' ', '\t', '\n', '\r'], ¬ (d = '.' ∨ d.isDigit = true) :=
    forall_mem_of_all (by decide)
  refine ⟨?_, ?_⟩
  · intro hmem
    exact hblank c (List.mem_cons_of_mem _ hmem) h
  · intro hc
    exact absurd h (hblank c (by simp [hc]))

theorem opens_of_sign {c : Char} (h : c ∈ signs) : Opens c [] := by
  have hall : ∀ c ∈ signs, c ∉ [' ', '\t', '\n', '\r'] :=
    forall_mem_of_all (by decide)
  exact ⟨hall c h, fun _ => rfl⟩

theorem scanLexeme_spell_sign {style : PrintStyle} {t : Token} {c : Char} {rest : List Char}
    (hc : c ∈ signs) (ht : signOf c = t) (hspell : style.spell t = [c])
    (hrest : c = '=' → Parted rest) : ∃ c cs, style.spell t = c :: cs ∧ Opens c cs ∧
      ∀ o mark pos, (scanLexeme o none mark c (cs ++ rest) pos).Leaves t rest := by
  refine ⟨c, [], hspell, opens_of_sign hc, ?_⟩
  intro o mark pos
  rw [← ht]
  exact scanLexeme_sign hc hrest o mark pos

/-- The text of a token is scanned as this token, up to its end. -/
theorem scanLexeme_spell {style : PrintStyle} {t : Token} (h : t.Readable style) {rest : List Char}
    (hrest : Parted rest) : ∃ c cs, style.spell t = c :: cs ∧ Opens c cs ∧ ∀ o mark pos,
      (scanLexeme o none mark c (cs ++ rest) pos).Leaves t rest := by
  cases t with
  | eof => exact h.elim
  | identifier name =>
    have hname : IsIdentifier name := h
    obtain ⟨c, cs, hcs, halpha, hscan⟩ := scanLexeme_word hname.first hname.chars hrest
    rw [String.ofList_toList, hname.ofWord] at hscan
    exact ⟨c, cs, hcs, opens_of_isAlphabetic cs halpha, hscan⟩
  | keyword k =>
    have hfirst : k.word.toList.head?.any Text.isAlphabetic = true := by cases k <;> decide
    have hchars : ∀ c ∈ k.word.toList, isWordChar c = true := by
      cases k <;> exact forall_mem_of_all (by decide)
    obtain ⟨c, cs, hcs, halpha, hscan⟩ := scanLexeme_word hfirst hchars hrest
    rw [String.ofList_toList, Token.ofWord_keyword] at hscan
    exact ⟨c, cs, hcs, opens_of_isAlphabetic cs halpha, hscan⟩
  | number value =>
    cases value with
    | int n =>
      have hn : 0 ≤ n := h
      have hpoint := Number.point_notMem_toDigits n.toInt.toNat
      have hdigits := Number.isDigit_toDigits n.toInt.toNat
      have hread : Number.read (Nat.toDigits 10 n.toInt.toNat)
          ('.' ∈ Nat.toDigits 10 n.toInt.toNat) = .ok (.int n) := by
        rw [decide_eq_false hpoint]
        exact Number.read_toDigits hn
      obtain ⟨c, cs, hcs, hscan⟩ := scanLexeme_number (fun c hc => .inr (hdigits c hc))
        (by rw [List.count_eq_zero.mpr hpoint]; decide) hread
        (fun c cs hcs => by simp [startsNumber, hdigits c (by rw [hcs]; exact List.mem_cons_self)])
        hrest
      refine ⟨c, cs, hcs, opens_of_number cs (.inr ?_), hscan⟩
      exact hdigits c (by rw [hcs]; exact List.mem_cons_self)
    | float x =>
      have hx : Number.Spells (style.literal x) x := h
      have hmem : '.' ∈ style.literal x := List.count_pos_iff.mp (by rw [hx.point]; decide)
      have hread : Number.read (style.literal x) ('.' ∈ style.literal x) = .ok (.float x) := by
        rw [decide_eq_true hmem]
        exact hx.read
      obtain ⟨c, cs, hcs, hscan⟩ := scanLexeme_number hx.chars (Nat.le_of_eq hx.point) hread
        (fun c cs hcs => hx.starts hcs) hrest
      refine ⟨c, cs, hcs, opens_of_number cs ?_, hscan⟩
      exact hx.chars c (by rw [hcs]; exact List.mem_cons_self)
  | string text =>
    have htext : ∀ c ∈ text.toList, c ≠ '"' ∧ Source.Plain c := h
    refine ⟨'"', text.toList ++ ['"'], rfl, ⟨by decide, fun hc => by cases hc⟩, ?_⟩
    intro o mark pos
    rw [← String.ofList_toList (s := text)]
    simpa using scanLexeme_string (fun c hc => (htext c hc).1) o mark pos
  | leftParen => exact scanLexeme_spell_sign (c := '(') (by decide) rfl rfl fun _ => hrest
  | rightParen => exact scanLexeme_spell_sign (c := ')') (by decide) rfl rfl fun _ => hrest
  | leftBrace => exact scanLexeme_spell_sign (c := '\x7b') (by decide) rfl rfl fun _ => hrest
  | rightBrace => exact scanLexeme_spell_sign (c := '\x7d') (by decide) rfl rfl fun _ => hrest
  | atSign => exact scanLexeme_spell_sign (c := '@') (by decide) rfl rfl fun _ => hrest
  | assign => exact scanLexeme_spell_sign (c := '=') (by decide) rfl rfl fun _ => hrest
  | equal => exact ⟨'=', ['='], rfl, ⟨by decide, fun hc => by cases hc⟩, scanLexeme_equal⟩
  | other c =>
    have hall : ∀ c ∈ otherSigns, c ∈ signs ∧ signOf c = .other c :=
      forall_mem_of_all (by decide)
    obtain ⟨hc, hc'⟩ := hall c h
    exact scanLexeme_spell_sign hc hc' rfl fun _ => hrest

section Plainness

theorem plain_of_isWordChar {c : Char} (h : isWordChar c = true) : Source.Plain c := by
  refine ⟨?_, ?_⟩
  · intro hc
    have hnull : isWordChar (Char.ofNat 0) = false := by decide
    rw [← hc, Char.ofNat_toNat, h] at hnull
    cases hnull
  · rintro rfl
    have hmark : isWordChar Source.byteOrderMark = false := by decide +kernel
    rw [h] at hmark
    cases hmark

theorem plain_of_lt {c : Char} (h : 0 < c.toNat) (h' : c.toNat < 128) : Source.Plain c := by
  refine ⟨by omega, ?_⟩
  rintro rfl
  exact absurd h' (by decide)

theorem plain_of_number {c : Char} (h : c = '.' ∨ c.isDigit = true) : Source.Plain c := by
  rcases h with rfl | hdigit
  · exact plain_of_lt (by decide) (by decide)
  · obtain ⟨hlow, hhigh⟩ := Char.isDigit_iff_toNat.mp hdigit
    have hzero : '0'.toNat = 48 := rfl
    have hnine : '9'.toNat = 57 := rfl
    exact plain_of_lt (by omega) (by omega)

theorem plain_of_sign {c : Char} (h : c ∈ signs) : Source.Plain c := by
  have hall : ∀ c ∈ signs, 0 < c.toNat ∧ c.toNat < 128 :=
    forall_mem_of_all (by decide)
  exact plain_of_lt (hall c h).1 (hall c h).2

/-- The texts of tokens can stand in a source text. -/
theorem Token.Readable.plain {style : PrintStyle} {t : Token} (h : t.Readable style) {c : Char}
    (hc : c ∈ style.spell t) : Source.Plain c := by
  cases t with
  | eof => exact h.elim
  | identifier name => exact plain_of_isWordChar (IsIdentifier.chars h c hc)
  | keyword k =>
    have hchars : ∀ c ∈ k.word.toList, isWordChar c = true := by
      cases k <;> exact forall_mem_of_all (by decide)
    exact plain_of_isWordChar (hchars c hc)
  | number value =>
    cases value with
    | int n => exact plain_of_number (.inr (Number.isDigit_toDigits _ c hc))
    | float x => exact plain_of_number (Number.Spells.chars h c hc)
  | string text =>
    have hquote : Source.Plain '"' := plain_of_lt (by decide) (by decide)
    have hmem : c = '"' ∨ c ∈ text.toList ∨ c = '"' := by simpa [PrintStyle.spell] using hc
    rcases hmem with rfl | hmem | rfl
    · exact hquote
    · exact (h c hmem).2
    · exact hquote
  | leftParen | rightParen | leftBrace | rightBrace | atSign | assign =>
    exact plain_of_sign (by rw [List.mem_singleton.mp hc]; decide)
  | equal =>
    have hmem : c = '=' := by simpa [PrintStyle.spell] using hc
    exact plain_of_sign (by rw [hmem]; decide)
  | other d =>
    rw [List.mem_singleton.mp hc]
    exact plain_of_sign (List.mem_append_right _ h)

end Plainness

section Runs

variable {style : PrintStyle} {lx : Lexer} {t : Token} {ts : List Token}

theorem skipGap_opens {c : Char} {cs rest : List Char} (h : Opens c cs)
    (hrest : c = '/' → Parted rest) (o : LexOptions) (pos mark : Position) :
    (skipGap o none .outside (c :: (cs ++ rest)) pos mark).Leaves () (c :: (cs ++ rest)) := by
  have hskips : o.skips c = false := by
    have hblank := h.1
    simp only [List.mem_cons, List.not_mem_nil, or_false, not_or] at hblank
    simp [LexOptions.skips, hblank]
  have hcomment : ∀ d ds, d ≠ ' ' → c = '/' → cs ++ rest = d :: ds → False := by
    intro d ds hd hc hds
    rw [h.2 hc, List.nil_append] at hds
    exact hd (hrest hc d (by simp [hds]))
  rw [skipGap, if_neg (by simp [hskips])]
  · exact ⟨rfl, rfl⟩
  · exact fun ds => hcomment '/' ds (by decide)
  · exact fun ds => hcomment '*' ds (by decide)

theorem skipGap_space {o : LexOptions} (ho : o.ignoreSpace = true) (cs : List Char)
    (pos mark : Position) : skipGap o none .outside (' ' :: cs) pos mark =
      skipGap o none .outside cs (pos.step ' ' cs) mark := by
  rw [skipGap, if_pos (by simp [LexOptions.skips, ho]), onward_none]
  · intro ds hc
    cases hc
  · intro ds hc
    cases hc

/-- The characters that the lexer has left are the texts of the tokens, maybe behind a space. -/
structure Lexer.Spells (style : PrintStyle) (lx : Lexer) (ts : List Token) : Prop where
  faultless : lx.fault = none
  spaces : lx.options.ignoreSpace = true
  chars : ∃ gap, (gap = [] ∨ gap = [' ']) ∧ lx.cursor.chars = gap ++ style.joined ts
  readable : ∀ t ∈ ts, t.Readable style

/-- Behind the text of a token stands a space, if anything, unless the token is part of `!=`. -/
theorem PrintStyle.joined_cons (style : PrintStyle) (t : Token) (ts : List Token) :
    ∃ gap, (gap = [] ∨ gap = [' ']) ∧
      style.joined (t :: ts) = style.spell t ++ (gap ++ style.joined ts) ∧
      (t ≠ .other '!' → Parted (gap ++ style.joined ts)) := by
  cases ts with
  | nil =>
    refine ⟨[], .inl rfl, by simp [PrintStyle.joined], ?_⟩
    intro _ c hc
    cases hc
  | cons u us =>
    by_cases hglues : style.glues t u = true
    · refine ⟨[], .inl rfl, by simp [PrintStyle.joined, hglues], ?_⟩
      intro ht
      simp [PrintStyle.glues, ht] at hglues
    · refine ⟨[' '], .inr rfl, by simp [PrintStyle.joined, hglues], ?_⟩
      intro _ c hc
      cases hc
      rfl

theorem PrintStyle.joined_plain (h : ∀ t ∈ ts, t.Readable style) :
    ∀ c ∈ style.joined ts, Source.Plain c := by
  induction ts with
  | nil =>
    intro c hc
    cases hc
  | cons t ts ih =>
    intro c hc
    obtain ⟨gap, hgap, hjoined, _⟩ := style.joined_cons t ts
    rw [hjoined] at hc
    rcases List.mem_append.mp hc with hc | hc
    · exact (h t List.mem_cons_self).plain hc
    rcases List.mem_append.mp hc with hc | hc
    · have hspace : c = ' ' := by
        rcases hgap with rfl | rfl
        · cases hc
        · exact List.mem_singleton.mp hc
      rw [hspace]
      exact plain_of_lt (by decide) (by decide)
    · exact ih (fun u hu => h u (List.mem_cons_of_mem t hu)) c hc

namespace Lexer.Spells

theorem head_ne_byteOrderMark (h : lx.Spells style ts) {c : Char} {cs : List Char}
    (hcs : lx.cursor.chars = c :: cs) : c ≠ Source.byteOrderMark := by
  obtain ⟨gap, hgap, hchars⟩ := h.chars
  rcases hgap with rfl | rfl
  · have hc : c ∈ style.joined ts := by
      rw [List.nil_append] at hchars
      rw [← hchars, hcs]
      exact List.mem_cons_self
    exact (PrintStyle.joined_plain h.readable c hc).2
  · rw [hcs] at hchars
    cases hchars
    decide

theorem enter_leaves (h : lx.Spells style ts) :
    (if lx.started then ⟨.ok (), lx.cursor⟩ else enter lx.fault lx.cursor : Scan Unit).Leaves ()
      lx.cursor.chars := by
  split
  · exact ⟨rfl, rfl⟩
  · unfold enter
    split
    · exact ⟨rfl, rfl⟩
    · next hfault => rw [h.faultless] at hfault; cases hfault
    · next c cs hcs =>
      rw [if_neg (h.head_ne_byteOrderMark hcs)]
      exact ⟨rfl, hcs.symm⟩

theorem advance_eq {t : Token} {left : List Token} {gap : List Char} (h : lx.Spells style ts)
    (hgap : gap = [] ∨ gap = [' ']) (hscan : lx.scan.Leaves t (gap ++ style.joined left))
    (hleft : ∀ u ∈ left, u ∈ ts) :
    ∃ next, lx.advance = (.ok t, next) ∧ next.Spells style left := by
  have hok : lx.scan = ⟨.ok t, lx.scan.cursor⟩ := by
    rw [← hscan.1]
  refine ⟨{ lx with cursor := lx.scan.cursor, started := true, token := t }, ?_, ?_⟩
  · unfold advance
    rw [hok]
  · exact ⟨h.faultless, h.spaces, ⟨gap, hgap, hscan.2⟩, fun u hu => h.readable u (hleft u hu)⟩

/-- The lexer gives the next token of its text and goes on to the others. -/
theorem advance_cons (h : lx.Spells style (t :: ts)) :
    ∃ next, lx.advance = (.ok t, next) ∧ next.Spells style ts := by
  obtain ⟨gap, hgap, hjoined, hparted⟩ := style.joined_cons t ts
  obtain ⟨c, cs, hspell, hopens, hslash, hlexeme⟩ : ∃ c cs, style.spell t = c :: cs ∧ Opens c cs ∧
      (c = '/' → Parted (gap ++ style.joined ts)) ∧ ∀ o mark pos,
        (scanLexeme o none mark c (cs ++ (gap ++ style.joined ts)) pos).Leaves t
          (gap ++ style.joined ts) := by
    by_cases ht : t = .other '!'
    · subst ht
      have hmark : '!' ≠ '/' ∧ '!' ≠ '=' := by decide
      exact ⟨'!', [], rfl, opens_of_sign (by decide), fun hc => absurd hc hmark.1,
        scanLexeme_sign (by decide) fun hc => absurd hc hmark.2⟩
    · obtain ⟨c, cs, hspell, hopens, hlexeme⟩ :=
        scanLexeme_spell (h.readable t List.mem_cons_self) (hparted ht)
      exact ⟨c, cs, hspell, hopens, fun _ => hparted ht, hlexeme⟩
  refine h.advance_eq hgap ?_ fun u hu => List.mem_cons_of_mem t hu
  unfold scan
  refine h.enter_leaves.andThen ?_
  intro cur hcur
  have hskip : (skipGap lx.options lx.fault .outside cur.chars cur.pos cur.mark).Leaves ()
      (c :: (cs ++ (gap ++ style.joined ts))) := by
    obtain ⟨front, hfront, hchars⟩ := h.chars
    rw [hcur, h.faultless, hchars, hjoined, hspell, List.cons_append]
    rcases hfront with rfl | rfl
    · exact skipGap_opens hopens hslash _ _ _
    · rw [List.cons_append, List.nil_append, skipGap_space h.spaces]
      exact skipGap_opens hopens hslash _ _ _
  refine hskip.andThen ?_
  intro cur hcur
  rw [hcur]
  dsimp only
  rw [h.faultless]
  exact hlexeme lx.options cur.mark cur.pos

/-- At the end of its text the lexer stays there. -/
theorem advance_nil (h : lx.Spells style []) :
    ∃ next, lx.advance = (.ok .eof, next) ∧ next.Spells style [] := by
  refine h.advance_eq (.inl rfl) ?_ fun u hu => hu
  unfold scan
  refine h.enter_leaves.andThen ?_
  intro cur hcur
  have hskip : (skipGap lx.options lx.fault .outside cur.chars cur.pos cur.mark).Leaves () [] := by
    obtain ⟨front, hfront, hchars⟩ := h.chars
    rw [hcur, h.faultless, hchars]
    rcases hfront with rfl | rfl
    · rw [List.nil_append, PrintStyle.joined, skipGap]
      exact ⟨rfl, rfl⟩
    · rw [List.cons_append, List.nil_append, skipGap_space h.spaces, PrintStyle.joined, skipGap]
      exact ⟨rfl, rfl⟩
  refine hskip.andThen ?_
  intro cur hcur
  rw [hcur]
  exact ⟨rfl, hcur⟩

/-- The run of a lexer gives the tokens of its text. -/
theorem run_tokens (h : lx.Spells style ts) :
    lx.run.tokens.map (·.token) = ts ∧ lx.run.error = none ∧ lx.run.lexer.Spells style [] := by
  induction ts generalizing lx with
  | nil =>
    obtain ⟨next, hadvance, hnext⟩ := h.advance_nil
    rw [run_of_ok hadvance, if_pos rfl]
    exact ⟨rfl, rfl, hnext⟩
  | cons t ts ih =>
    obtain ⟨next, hadvance, hnext⟩ := h.advance_cons
    have ht : t ≠ .eof := by
      rintro rfl
      exact h.readable .eof List.mem_cons_self
    obtain ⟨htokens, herror, hend⟩ := ih hnext
    rw [run_of_ok hadvance, if_neg ht]
    exact ⟨congrArg (t :: ·) htokens, herror, hend⟩

end Lexer.Spells

/-- The lexer at the start of a printed text. -/
theorem Lexer.spells_ofSource (hts : ∀ t ∈ ts, t.Readable style) (strict : Bool) :
    (Lexer.ofSource (.ofString (String.ofList (style.joined ts))) { strict }).Spells style ts := by
  have hplain : ∀ c ∈ (String.ofList (style.joined ts)).toList, Source.Plain c := by
    rw [String.toList_ofList]
    exact PrintStyle.joined_plain hts
  rw [Source.ofString_eq hplain, String.toList_ofList]
  exact ⟨rfl, rfl, ⟨[], .inl rfl, rfl⟩, hts⟩

end Runs

section Programs

variable (style : PrintStyle)

/-- Only tokens that a text can hold. -/
def AllReadable (ts : List Token) : Prop := ∀ t ∈ ts, t.Readable style

variable {style} {t : Token} {ts us : List Token}

@[simp] theorem allReadable_nil : AllReadable style [] := fun _ ht => by cases ht

@[simp] theorem allReadable_cons :
    AllReadable style (t :: ts) ↔ t.Readable style ∧ AllReadable style ts := List.forall_mem_cons

@[simp] theorem allReadable_append :
    AllReadable style (ts ++ us) ↔ AllReadable style ts ∧ AllReadable style us :=
  List.forall_mem_append

theorem AllReadable.enclosed (h : AllReadable style ts) (b : Bool) :
    AllReadable style (enclosed b ts) := by
  cases b with
  | false => exact h
  | true => simpa [SsaCompiler.enclosed, Token.Readable] using h

theorem Operator.Printable.readable {op : Operator} (h : op.Printable) :
    AllReadable style op.tokens := by
  cases op with
  | custom c =>
    have hall : ∀ c ∈ ['%', '&', '|', '^'], c ∈ otherSigns :=
      forall_mem_of_all (by decide)
    simpa [Operator.tokens, Token.Readable] using hall c h
  | _ => simp [Operator.tokens, Token.Readable, otherSigns]

mutual

theorem Expr.readable_tokens : ∀ e : Expr, e.Printable style → AllReadable style e.tokens
  | .string text, h => by
    rw [Expr.tokens]
    exact allReadable_cons.mpr ⟨h, allReadable_nil⟩
  | .number (.int n), h => by
    rw [Expr.tokens]
    exact allReadable_cons.mpr ⟨h, allReadable_nil⟩
  | .number (.float x), h => by
    rw [Expr.tokens]
    exact allReadable_cons.mpr ⟨h, allReadable_nil⟩
  | .bool value, _ => by simp [Expr.tokens, Token.Readable]
  | .variable name, h => by
    rw [Expr.tokens]
    exact allReadable_cons.mpr ⟨h, allReadable_nil⟩
  | .binary op lhs rhs, h => by
    simp only [Expr.tokens, allReadable_append]
    exact ⟨⟨(Expr.readable_tokens lhs h.2.1).enclosed _, h.1.readable⟩,
      (Expr.readable_tokens rhs h.2.2).enclosed _⟩
  | .unary c operand, h => by
    have hall : ∀ c ∈ Parser.unaryOperators, c ∈ otherSigns :=
      forall_mem_of_all (by decide)
    simp only [Expr.tokens, allReadable_cons]
    exact ⟨hall c h.1, (Expr.readable_tokens operand h.2).enclosed _⟩
  | .call callee args, h => by
    simpa [Expr.tokens, Token.Readable] using ⟨h.1, readable_exprsTokens args h.2⟩
  | .sequence elements, h => by
    simpa [Expr.tokens, Token.Readable, otherSigns] using readable_exprsTokens elements h

theorem readable_exprsTokens :
    ∀ es : List Expr, ExprsPrintable style es → AllReadable style (exprsTokens es)
  | [], _ => allReadable_nil
  | [e], h => by
    simp only [exprsTokens]
    exact Expr.readable_tokens e h.1
  | e :: e' :: es, h => by
    have hcomma : (Token.other ',').Readable style := show ',' ∈ otherSigns by decide
    simp only [exprsTokens, allReadable_append, allReadable_cons]
    exact ⟨Expr.readable_tokens e h.1, hcomma, readable_exprsTokens (e' :: es) h.2⟩

end

mutual

theorem Stmt.readable_tokens : ∀ stmt : Stmt, stmt.Printable style → AllReadable style stmt.tokens
  | .expr e, h => by
    simp only [Stmt.tokens]
    exact (Expr.readable_tokens e h).enclosed true
  | .ret none, _ => by simp [Stmt.tokens, Token.Readable]
  | .ret (some e), h => by
    simp only [Stmt.tokens, allReadable_cons]
    exact ⟨trivial, (Expr.readable_tokens e h).enclosed true⟩
  | .branch condition thenBlock rest, h => by
    have hcondition := (Expr.readable_tokens condition h.1).enclosed true
    simpa [Stmt.tokens, Token.Readable] using
      ⟨hcondition, readable_stmtsTokens thenBlock h.2.1, ElseChain.readable_tokens rest h.2.2⟩
  | .whileLoop condition body, h => by
    have hcondition := (Expr.readable_tokens condition h.1).enclosed true
    simpa [Stmt.tokens, Token.Readable] using ⟨hcondition, readable_stmtsTokens body h.2⟩
  | .forIn index element sequence body, h => by
    have hsequence := (Expr.readable_tokens sequence h.2.2.1).enclosed true
    have hbody := readable_stmtsTokens body h.2.2.2
    cases index with
    | none => simpa [Stmt.tokens, Token.Readable] using ⟨h.2.1, hsequence, hbody⟩
    | some i =>
      simpa [Stmt.tokens, Token.Readable, otherSigns] using ⟨h.1 i rfl, h.2.1, hsequence, hbody⟩

theorem readable_stmtsTokens :
    ∀ stmts : List Stmt, StmtsPrintable style stmts → AllReadable style (stmtsTokens stmts)
  | [], _ => allReadable_nil
  | stmt :: stmts, h => by
    simp only [stmtsTokens, allReadable_append]
    exact ⟨Stmt.readable_tokens stmt h.1, readable_stmtsTokens stmts h.2.2⟩

theorem ElseChain.readable_tokens :
    ∀ chain : ElseChain, chain.Printable style → AllReadable style chain.tokens
  | .none, _ => allReadable_nil
  | .otherwise block, h => by
    simpa [ElseChain.tokens, Token.Readable] using readable_stmtsTokens block h
  | .elseIf condition block rest, h => by
    have hcondition := (Expr.readable_tokens condition h.1).enclosed true
    simpa [ElseChain.tokens, Token.Readable] using
      ⟨hcondition, readable_stmtsTokens block h.2.1, ElseChain.readable_tokens rest h.2.2⟩

end

theorem TypeName.Printable.readable {ty : TypeName} (h : ty.Printable) :
    AllReadable style ty.tokens := by
  unfold TypeName.tokens
  cases hlen : ty.len with
  | none => simpa [Token.Readable] using h.1
  | some n =>
    have hn : 0 ≤ Int64.ofNat n :=
      Int64.le_iff_toInt_le.mpr (by rw [Int64.toInt_ofNat_of_lt (h.2 n hlen)]; simp)
    simpa [Token.Readable, otherSigns] using ⟨h.1, hn⟩

theorem readable_paramsTokens {ps : List Param}
    (h : ∀ p ∈ ps, IsIdentifier p.name ∧ p.type.Printable) :
    AllReadable style (paramsTokens ps) := by
  have hparam : ∀ p ∈ ps, AllReadable style p.tokens := by
    intro p hp
    rw [Param.tokens, allReadable_cons]
    exact ⟨(h p hp).1, (h p hp).2.readable⟩
  have hcomma : (Token.other ',').Readable style := show ',' ∈ otherSigns by decide
  fun_induction paramsTokens ps with
  | case1 => exact allReadable_nil
  | case2 p => exact hparam p List.mem_cons_self
  | case3 p ps _ ih =>
    rw [allReadable_append, allReadable_cons]
    exact ⟨hparam p List.mem_cons_self, hcomma,
      ih (fun q hq => h q (List.mem_cons_of_mem p hq))
        fun q hq => hparam q (List.mem_cons_of_mem p hq)⟩

theorem readable_definableNames : ∀ p ∈ definableNames, AllReadable style p.2 := by
  have hall : ∀ c ∈ Parser.definableOperators, (Token.other c).Readable style := by
    have hsigns : ∀ c ∈ Parser.definableOperators, c ∈ otherSigns :=
      forall_mem_of_all (by decide)
    exact hsigns
  intro p hp
  rcases List.mem_cons.mp hp with rfl | hp
  · simp [Token.Readable]
  rcases List.mem_cons.mp hp with rfl | hp
  · simp [Token.Readable, otherSigns]
  obtain ⟨c, hc, rfl⟩ := List.mem_map.mp hp
  simpa using hall c hc

theorem IsFunctionName.readable {name : String} (h : IsFunctionName name) :
    AllReadable style (nameTokens name) := by
  rcases h with h | ⟨p, hp, rfl⟩
  · rw [nameTokens_of_isIdentifier h]
    exact allReadable_cons.mpr ⟨h, allReadable_nil⟩
  · rw [nameTokens_of_mem hp]
    obtain ⟨word, hword, hp⟩ := List.mem_flatMap.mp hp
    obtain ⟨q, hq, rfl⟩ := List.mem_map.mp hp
    have hwords : ∀ w ∈ ["binary", "unary"], IsIdentifier w := by decide
    exact allReadable_cons.mpr ⟨hwords word hword, readable_definableNames q hq⟩

theorem Prototype.Printable.readable {proto : Prototype} (h : proto.Printable) :
    AllReadable style proto.tokens := by
  simpa [Prototype.tokens, Token.Readable] using
    ⟨h.1.readable, readable_paramsTokens h.2.1, h.2.2.readable⟩

theorem Item.Printable.readable {item : Item} (h : item.Printable style) :
    AllReadable style (item.tokens style) := by
  cases item with
  | function decl =>
    simpa [Item.tokens, Token.Readable] using ⟨h.1.readable, readable_stmtsTokens decl.body h.2⟩
  | foreign proto =>
    have hproto : AllReadable style proto.tokens := Prototype.Printable.readable h
    cases hannounced : style.announced with
    | false => simpa [Item.tokens, hannounced, Token.Readable] using hproto
    | true => simpa [Item.tokens, hannounced, Token.Readable] using hproto
  | statement stmt => exact stmt.readable_tokens h

/-- A printed program consists of tokens that a text can hold. -/
theorem ProgramPrintable.readable {items : List Item} (h : ProgramPrintable style items) :
    AllReadable style (programTokens style items) := by
  induction items with
  | nil => exact allReadable_nil
  | cons item items ih =>
    rw [programTokens, List.flatMap_cons, allReadable_append]
    exact ⟨h.1.readable, ih h.2.2⟩

end Programs

end SsaCompiler
