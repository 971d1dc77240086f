import Mathlib.Data.List.TakeWhile
import SsaCompiler.Proofs.Reading.Composition
import SsaCompiler.Proofs.Reading.Names

/-!
Lexing loses nothing. A text that is read without an error is a sequence of gaps and lexemes, one
lexeme for each token, and a token is placed by the lines and columns in front of its lexeme. Behind
the last lexeme there may stand a string or a block comment that is not closed, if the lexer is not
strict. A text without a fault fails to be read for few reasons, and the text shows which.
-/
namespace SsaCompiler

open Source (byteOrderMark)

section Grammar

/-- Characters that end a line. -/
def IsLineEnd (c : Char) : Prop := c = '\n' ∨ c = '\r'

/-- The text of a block comment ends where a star and a slash stand in it. -/
def Closes (body : List Char) : Prop := ['*', '/'] <:+: body

/-- What stands between lexemes, in front of `rest`: layout that is skipped, and comments. -/
inductive Gap (o : LexOptions) (rest : List Char) : List Char → Prop
  | nil : Gap o rest []
  | layout {c : Char} {gap : List Char} (hc : o.skips c = true) (hgap : Gap o rest gap) :
    Gap o rest (c :: gap)
  | line {body gap : List Char} (hbody : ∀ c ∈ body, ¬ IsLineEnd c)
    (hend : ∀ c ∈ (gap ++ rest).head?, IsLineEnd c) (hgap : Gap o rest gap) :
    Gap o rest ('/' :: '/' :: (body ++ gap))
  | block {body gap : List Char} (hbody : ¬ Closes body) (hgap : Gap o rest gap) :
    Gap o rest ('/' :: '*' :: (body ++ '*' :: '/' :: gap))

/-- The lexeme of a token. -/
def Token.Lexeme : Token → List Char → Prop
  | .eof, _ => False
  | .identifier name, w => IsIdentifier name ∧ w = name.toList
  | .number n, w => (∀ c ∈ w, c = '.' ∨ c.isDigit = true) ∧ w.count '.' ≤ 1 ∧
      Number.read w ('.' ∈ w) = .ok n
  | .string text, w => '"' ∉ text.toList ∧ w = '"' :: (text.toList ++ ['"'])
  | .leftParen, w => w = ['(']
  | .rightParen, w => w = [')']
  | .leftBrace, w => w = ['\x7b']
  | .rightBrace, w => w = ['\x7d']
  | .atSign, w => w = ['@']
  | .assign, w => w = ['=']
  | .equal, w => w = ['=', '=']
  | .keyword k, w => w = k.word.toList
  | .other c, w => w = [c]

/-- A string or a block comment that the text ends in. -/
inductive Unclosed : List Char → Prop
  | string {body : List Char} (h : '"' ∉ body) : Unclosed ('"' :: body)
  | comment {body : List Char} (h : ¬ Closes body) : Unclosed ('/' :: '*' :: body)

/-- The place of the character behind `done`, which stands at the beginning of the text. -/
def Position.following (done : List Char) : Position :=
  ⟨1 + done.count '\n', 1 + (done.reverse.takeWhile (· ≠ '\n')).length⟩

/-- Behind `done`, the text is a sequence of gaps and of the lexemes of the tokens, which are placed
where their lexemes begin. What stands behind the text is `tail`. -/
inductive Splits (o : LexOptions) (tail : List Char) :
    List Char → List Char → List PlacedToken → Prop
  | ended {done gap : List Char} (hgap : Gap o tail gap) : Splits o tail done gap []
  | token {done gap lexeme text : List Char} {t : Token} {ts : List PlacedToken}
    (hgap : Gap o (lexeme ++ (text ++ tail)) gap) (hlexeme : t.Lexeme lexeme)
    (hrest : Splits o tail (done ++ (gap ++ lexeme)) text ts) :
    Splits o tail done (gap ++ lexeme ++ text) (⟨t, .following (done ++ gap)⟩ :: ts)

/-- Why a text cannot be read on, and what it then begins with: a number with a second point, a number
that is too large, and, for a strict lexer, a string or a block comment that the text ends in. -/
inductive Culprit (o : LexOptions) : LexCause → List Char → Prop
  | secondPoint {w rest : List Char} (hw : ∀ c ∈ w, c = '.' ∨ c.isDigit = true)
    (hpoint : w.count '.' = 1) (hdigit : ∃ c ∈ w, c.isDigit = true) :
    Culprit o (.secondPoint (String.ofList w)) (w ++ '.' :: rest)
  | overflow {w rest : List Char} (hw : ∀ c ∈ w, c.isDigit = true)
    (hrest : ∀ c ∈ rest.head?, ¬ (c = '.' ∨ c.isDigit = true))
    (hvalue : 2 ^ 63 ≤ Number.digitsValue w) :
    Culprit o (.number (.integer (String.ofList w))) (w ++ rest)
  | string {body : List Char} (ho : o.strict = true) (h : '"' ∉ body) :
    Culprit o .unterminatedString ('"' :: body)
  | comment {body : List Char} (ho : o.strict = true) (h : ¬ Closes body) :
    Culprit o .unterminatedComment ('/' :: '*' :: body)

end Grammar

variable {α β : Type} {o : LexOptions} {fault : Option Fault} {c : Char} {done cs w : List Char}
  {mark pos : Position} {E E' : LexCause → Prop} {Q : List Char → α → Cursor → Prop}

section Taking

theorem Position.following_concat (done : List Char) (c : Char) :
    following (done ++ [c]) = ((following done).past c).right := by
  unfold following past right
  by_cases hc : c = '\n'
  · subst hc
    simp [Nat.add_assoc]
  · simp [hc]
    omega

/-- In a text with this fault, `done` has been left for `cs`, at the place `pos`. The fault is not
reached. -/
structure At (fault : Option Fault) (done cs : List Char) (pos : Position) : Prop where
  place : cs ≠ [] → pos = .following done
  faultless : cs = [] → fault = none

/-- The scan takes characters from the beginning of `cs`, with `Q` for what it takes, what it gives and
where it ends; or it fails at the fault or because of `E`. -/
def Scan.Takes (fault : Option Fault) (done cs : List Char) (Q : List Char → α → Cursor → Prop)
    (E : LexCause → Prop) : Scan α → Prop
  | ⟨.ok a, cur⟩ => ∃ w, cs = w ++ cur.chars ∧ At fault (done ++ w) cur.chars cur.pos ∧ Q w a cur
  | ⟨.error e, _⟩ => (∃ f, fault = some f ∧ e.cause = .fault f) ∨ E e.cause

namespace Scan.Takes

variable {s : Scan α}

theorem ok {a : α} (hat : At fault done cs pos) (h : Q [] a ⟨cs, pos, mark⟩) :
    Takes fault done cs Q E ⟨.ok a, cs, pos, mark⟩ :=
  ⟨[], rfl, by rwa [List.append_nil], h⟩

theorem imp {Q' : List Char → α → Cursor → Prop} (h : s.Takes fault done cs Q E)
    (hQ : ∀ w a cur, cs = w ++ cur.chars → Q w a cur → Q' w a cur) (hE : ∀ cause, E cause → E' cause) :
    s.Takes fault done cs Q' E' := by
  obtain ⟨outcome, cur⟩ := s
  cases outcome with
  | ok a =>
    obtain ⟨w, hw, hat, hq⟩ := h
    exact ⟨w, hw, hat, hQ w a cur hw hq⟩
  | error e => exact h.imp_right (hE _)

theorem map {f : α → β} {Q : List Char → β → Cursor → Prop}
    (h : s.Takes fault done cs (fun w a cur => Q w (f a) cur) E) :
    (s.map f).Takes fault done cs Q E := by
  obtain ⟨outcome, cur⟩ := s
  cases outcome with
  | ok a => exact h
  | error e => exact h

/-- Taking some characters, and then more. -/
theorem append {rest : List Char}
    (h : s.Takes fault (done ++ w) rest (fun w' => Q (w ++ w')) E) (hcs : cs = w ++ rest) :
    s.Takes fault done cs Q E := by
  obtain ⟨outcome, cur⟩ := s
  cases outcome with
  | ok a =>
    obtain ⟨w', hw', hat, hq⟩ := h
    exact ⟨w ++ w', by rw [hcs, hw', List.append_assoc], by rwa [← List.append_assoc], hq⟩
  | error e => exact h

theorem andThen {k : α → Cursor → Scan β} {Q' : List Char → β → Cursor → Prop}
    (h : s.Takes fault done cs Q E)
    (hk : ∀ w a cur, cs = w ++ cur.chars → At fault (done ++ w) cur.chars cur.pos → Q w a cur →
      (k a cur).Takes fault (done ++ w) cur.chars (fun w' => Q' (w ++ w')) E) :
    (s.andThen k).Takes fault done cs Q' E := by
  obtain ⟨outcome, cur⟩ := s
  cases outcome with
  | ok a =>
    obtain ⟨w, hw, hat, hq⟩ := h
    exact (hk w a cur hw hat hq).append hw
  | error e => exact h

end Scan.Takes

theorem At.step (h : At fault done (c :: cs) pos) (hend : cs = [] → fault = none) :
    At fault (done ++ [c]) cs (pos.step c cs) := by
  refine ⟨fun hcs => ?_, hend⟩
  rw [Position.following_concat, ← h.place (List.cons_ne_nil c cs), Position.step,
    if_neg (by simpa using hcs)]

/-- In front of another character there is no fault, and only a line end opens a line. -/
theorem At.right {d : Char} (h : At fault done (c :: d :: cs) pos) (hc : c ≠ '\n') :
    At fault (done ++ [c]) (d :: cs) pos.right := by
  have hstep := h.step (by simp)
  rwa [Position.step, Position.past, if_neg hc] at hstep

theorem takes_onward {k : Position → Scan α} (hat : At fault done (c :: cs) pos)
    (hk : ∀ q, At fault (done ++ [c]) cs q →
      (k q).Takes fault (done ++ [c]) cs (fun w => Q (c :: w)) E) :
    (onward fault mark c cs pos k).Takes fault done (c :: cs) Q E := by
  unfold onward
  split
  · exact .inl ⟨_, rfl, rfl⟩
  · next hnofault =>
    refine (hk _ (hat.step fun hcs => ?_)).append rfl
    cases fault with
    | none => rfl
    | some f => exact absurd hcs fun hcs => hnofault f hcs rfl

end Taking

section Gaps

/-- Behind a gap the text goes on as `P` says. -/
def BehindGap (o : LexOptions) (P : List Char → Prop) (cs : List Char) : Prop :=
  ∃ gap rest, cs = gap ++ rest ∧ Gap o rest gap ∧ P rest

/-- From inside a gap on, the text leads to where it goes on as `P` says. For a block comment that is
not closed, this is where the comment begins. -/
def GapMode.Leads (o : LexOptions) (P : List Char → Prop) (cs : List Char) : GapMode → Prop
  | .outside => BehindGap o P cs
  | .lineComment => ∃ body rest, cs = body ++ rest ∧ (∀ c ∈ body, ¬ IsLineEnd c) ∧
      (∀ c ∈ rest.head?, IsLineEnd c) ∧ BehindGap o P rest
  | .blockComment _ => (∃ body rest, cs = body ++ '*' :: '/' :: rest ∧ ¬ Closes body ∧
      BehindGap o P rest) ∨ ¬ Closes cs ∧ ∀ body, ¬ Closes body → P ('/' :: '*' :: body)

variable {P : List Char → Prop} {start : Position}

theorem BehindGap.nil (h : P cs) : BehindGap o P cs := ⟨[], cs, rfl, .nil, h⟩

theorem BehindGap.layout (hc : o.skips c = true) (h : BehindGap o P cs) :
    BehindGap o P (c :: cs) := by
  obtain ⟨gap, rest, rfl, hgap, h⟩ := h
  exact ⟨c :: gap, rest, rfl, .layout hc hgap, h⟩

theorem BehindGap.line (h : GapMode.lineComment.Leads o P cs) :
    BehindGap o P ('/' :: '/' :: cs) := by
  obtain ⟨body, _, rfl, hbody, hend, gap, rest, rfl, hgap, h⟩ := h
  exact ⟨'/' :: '/' :: (body ++ gap), rest, by simp, .line hbody hend hgap, h⟩

theorem BehindGap.block (h : (GapMode.blockComment start).Leads o P cs) :
    BehindGap o P ('/' :: '*' :: cs) := by
  obtain ⟨body, _, rfl, hbody, gap, rest, rfl, hgap, h⟩ | ⟨hopen, h⟩ := h
  · exact ⟨'/' :: '*' :: (body ++ '*' :: '/' :: gap), rest, by simp, .block hbody hgap, h⟩
  · exact .nil (h cs hopen)

theorem not_closes_nil : ¬ Closes [] := by simp [Closes]

/-- A block comment goes on if its first characters do not close it. -/
theorem not_closes_cons {body : List Char} (hbody : ¬ Closes body)
    (hopen : ∀ rest, c = '*' → body = '/' :: rest → False) : ¬ Closes (c :: body) := by
  intro h
  rcases List.infix_cons_iff.mp h with hfirst | hlater
  · obtain ⟨rest, hrest⟩ := hfirst
    obtain ⟨hc, hbody⟩ := List.cons.inj hrest
    exact hopen rest hc.symm hbody.symm
  · exact hbody hlater

theorem leads_comment (hopen : ∀ rest, c = '*' → cs = '/' :: rest → False)
    (h : (GapMode.blockComment start).Leads o P cs) :
    (GapMode.blockComment start).Leads o P (c :: cs) := by
  rcases h with ⟨body, rest, rfl, hbody, h⟩ | ⟨hcs, h⟩
  · refine .inl ⟨c :: body, rest, rfl, not_closes_cons hbody ?_, h⟩
    rintro _ hc rfl
    exact hopen _ hc rfl
  · exact .inr ⟨not_closes_cons hcs hopen, h⟩

theorem leads_line (hc : ¬ IsLineEnd c) (h : GapMode.lineComment.Leads o P cs) :
    GapMode.lineComment.Leads o P (c :: cs) := by
  obtain ⟨body, rest, rfl, hbody, hend, h⟩ := h
  exact ⟨c :: body, rest, rfl, List.forall_mem_cons.mpr ⟨hc, hbody⟩, hend, h⟩

theorem leads_lineEnd (hc : IsLineEnd c) (h : BehindGap o P (c :: cs)) :
    GapMode.lineComment.Leads o P (c :: cs) := by
  refine ⟨[], c :: cs, rfl, by simp, ?_, h⟩
  rintro _ ⟨⟩
  exact hc

/-- Where skipping a gap ends: in front of a lexeme, at the end of the text, or, for a lexer that is
not strict, in a comment that is not closed. -/
def GapEnds (o : LexOptions) (cur : Cursor) (rest : List Char) : Prop :=
  rest = cur.chars ∧ cur.mark = cur.pos ∨ o.strict = false ∧ cur.chars = [] ∧ Unclosed rest

-- A gap is skipped, or a culprit in it is met, for the same reasons: each step leads on.
theorem skipGap_takes (mode : GapMode) (hat : At fault done cs pos) :
    (skipGap o fault mode cs pos mark).Takes fault done cs
      (fun _ _ cur => mode.Leads o (GapEnds o cur) cs)
      (fun cause => mode.Leads o (Culprit o cause) cs) := by
  fun_induction skipGap o fault mode cs pos mark generalizing done with
  | case1 start pos mark =>
    cases ho : o.strict with
    | true => exact .inr (.inr ⟨not_closes_nil, fun _ h => .comment ho h⟩)
    | false => exact .ok hat (.inr ⟨not_closes_nil, fun _ h => .inr ⟨ho, rfl, .comment h⟩⟩)
  | case2 start cs pos mark ih =>
    refine (takes_onward (hat.right (by decide)) fun q hq => ?_).append (w := ['*']) rfl
    exact (ih q hq).imp (fun _ _ _ _ h => .inl ⟨[], cs, rfl, not_closes_nil, h⟩)
      fun _ h => .inl ⟨[], cs, rfl, not_closes_nil, h⟩
  | case3 start c cs pos mark hopen ih =>
    exact takes_onward hat fun q hq =>
      (ih q hq).imp (fun _ _ _ _ h => leads_comment hopen h) fun _ h => leads_comment hopen h
  | case4 pos mark => exact .ok hat ⟨[], [], rfl, by simp, by simp, .nil (.inl ⟨rfl, rfl⟩)⟩
  | case5 c cs pos mark hend hskip ih =>
    exact takes_onward hat fun q hq => (ih q hq).imp
      (fun _ _ _ _ h => leads_lineEnd hend (.layout hskip h))
      fun _ h => leads_lineEnd hend (.layout hskip h)
  | case6 c cs pos mark hend hskip => exact .ok hat (leads_lineEnd hend (.nil (.inl ⟨rfl, rfl⟩)))
  | case7 c cs pos mark hend ih =>
    exact takes_onward hat fun q hq =>
      (ih q hq).imp (fun _ _ _ _ h => leads_line hend h) fun _ h => leads_line hend h
  | case8 pos mark => exact .ok hat (.nil (.inl ⟨rfl, rfl⟩))
  | case9 cs pos mark ih =>
    refine (takes_onward (hat.right (by decide)) fun q hq => ?_).append (w := ['/']) rfl
    exact (ih q hq).imp (fun _ _ _ _ h => .line h) fun _ h => .line h
  | case10 cs pos mark ih =>
    refine (takes_onward (hat.right (by decide)) fun q hq => ?_).append (w := ['/']) rfl
    exact (ih q hq).imp (fun _ _ _ _ h => .block h) fun _ h => .block h
  | case11 c cs pos mark hline hblock hskip ih =>
    exact takes_onward hat fun q hq =>
      (ih q hq).imp (fun _ _ _ _ h => .layout hskip h) fun _ h => .layout hskip h
  | case12 c cs pos mark hline hblock hskip => exact .ok hat (.nil (.inl ⟨rfl, rfl⟩))

end Gaps

section Numbers

/-- Digits with a point before, between or behind them are a decimal number. -/
theorem Number.readDecimal?_point {whole fraction : List Char}
    (hwhole : ∀ c ∈ whole, c.isDigit = true) (hfraction : ∀ c ∈ fraction, c.isDigit = true)
    (hne : whole ++ fraction ≠ []) : ∃ d, Number.readDecimal? (whole ++ '.' :: fraction) = some d := by
  have htake : (whole ++ '.' :: fraction).takeWhile Char.isDigit = whole := by
    rw [List.takeWhile_append_of_pos hwhole, List.takeWhile_cons_of_neg (by decide), List.append_nil]
  have hdrop : (whole ++ '.' :: fraction).dropWhile Char.isDigit = '.' :: fraction := by
    rw [List.dropWhile_append_of_pos hwhole, List.dropWhile_cons_of_neg (by decide)]
  have hrest : fraction.dropWhile Char.isDigit = [] := List.dropWhile_eq_nil_iff.mpr hfraction
  unfold Number.readDecimal?
  simp only [htake, hdrop, hrest, List.takeWhile_eq_self_iff.mpr hfraction]
  rw [if_neg (by simpa using hne)]
  exact ⟨_, rfl⟩

/-- A number of digits and at most one point fails to be read only if it is an integer that is too
large. -/
theorem Number.read_error {e : NumberError} (hw : ∀ c ∈ w, c = '.' ∨ c.isDigit = true)
    (hpoint : w.count '.' ≤ 1) (hdigit : ∃ c ∈ w, c.isDigit = true)
    (h : Number.read w ('.' ∈ w) = .error e) :
    e = .integer (String.ofList w) ∧ (∀ c ∈ w, c.isDigit = true) ∧ 2 ^ 63 ≤ Number.digitsValue w := by
  have hsign := Number.splitSign_of_number hw
  obtain ⟨d, hd, hdigit⟩ := hdigit
  unfold Number.read at h
  by_cases hmem : '.' ∈ w
  · obtain ⟨whole, fraction, rfl⟩ := List.append_of_mem hmem
    have hnone : '.' ∉ whole ∧ '.' ∉ fraction := by
      rw [List.count_append, List.count_cons_self] at hpoint
      exact ⟨List.count_eq_zero.mp (by omega), List.count_eq_zero.mp (by omega)⟩
    have hdigits : ∀ c ∈ whole ++ fraction, c.isDigit = true := by
      intro c hc
      have hdot : c ≠ '.' := by
        rintro rfl
        simp [hnone] at hc
      exact (hw c (by simp at hc ⊢; tauto)).resolve_left hdot
    have hne : whole ++ fraction ≠ [] := by
      intro hnil
      obtain ⟨rfl, rfl⟩ := List.append_eq_nil_iff.mp hnil
      obtain rfl := List.mem_singleton.mp hd
      cases hdigit
    obtain ⟨decimal, hdecimal⟩ := Number.readDecimal?_point
      (fun c hc => hdigits c (List.mem_append_left _ hc))
      (fun c hc => hdigits c (List.mem_append_right _ hc)) hne
    rw [if_pos (by simp), if_neg (by simp), Number.readFloat?, hsign] at h
    dsimp only at h
    rw [hdecimal] at h
    cases h
  · have hdigits : ∀ c ∈ w, c.isDigit = true := fun c hc =>
      (hw c hc).resolve_left fun hdot => hmem (hdot ▸ hc)
    rw [if_neg (by simpa using hmem)] at h
    by_cases hvalue : Number.digitsValue w < 2 ^ 63
    · rw [Number.readInt?_digits hdigits (List.ne_nil_of_mem hd) hvalue] at h
      cases h
    · split at h
      · cases h
      · cases h
        exact ⟨rfl, hdigits, by omega⟩

end Numbers

section Lexemes

theorem takeWhile_takes (p : Char → Bool) (hat : At fault done cs pos) :
    (takeWhile fault mark p cs pos).Takes fault done cs (fun w text cur => text = w ∧
      (∀ c ∈ w, p c = true) ∧ (∀ c ∈ cur.chars.head?, p c = false) ∧ cur.mark = mark) E := by
  induction cs generalizing done pos with
  | nil => exact .ok hat ⟨rfl, by simp, by simp, rfl⟩
  | cons c cs ih =>
    unfold takeWhile
    split
    · next hc =>
      refine takes_onward hat fun q hq => .map ((ih hq).imp (fun w text cur _ h => ?_) fun _ h => h)
      obtain ⟨rfl, hw, hrest, hmark⟩ := h
      exact ⟨rfl, List.forall_mem_cons.mpr ⟨hc, hw⟩, hrest, hmark⟩
    · next hc =>
      refine .ok hat ⟨rfl, by simp, ?_, rfl⟩
      rintro _ ⟨⟩
      exact Bool.eq_false_iff.mpr hc

theorem takeNumber_takes (taken : List Char) (hat : At fault done cs pos) :
    (takeNumber fault mark taken cs pos).Takes fault done cs (fun w text cur =>
      text = taken.reverse ++ w ∧ (∀ c ∈ w, c = '.' ∨ c.isDigit = true) ∧
        (taken.count '.' ≤ 1 → taken.count '.' + w.count '.' ≤ 1) ∧
        (∀ c ∈ cur.chars.head?, ¬ (c = '.' ∨ c.isDigit = true)) ∧ cur.mark = mark)
      (fun cause => ∃ w rest, cs = w ++ '.' :: rest ∧ (∀ c ∈ w, c = '.' ∨ c.isDigit = true) ∧
        (taken.count '.' ≤ 1 → taken.count '.' + w.count '.' = 1) ∧
        cause = .secondPoint (String.ofList (taken.reverse ++ w))) := by
  induction cs generalizing done pos taken with
  | nil => exact .ok hat ⟨by simp, by simp, by simp, by simp, rfl⟩
  | cons c cs ih =>
    unfold takeNumber
    split
    · next hpoint =>
      obtain ⟨rfl, hmem⟩ := hpoint
      have hcount := List.count_pos_iff.mpr hmem
      exact .inr ⟨[], cs, rfl, by simp, fun _ => by simp; omega, by simp⟩
    · next hpoint =>
      split
      · next hc =>
        -- A point is taken only if there is none before it.
        have hcount : taken.count '.' ≤ 1 → (c :: taken).count '.' ≤ 1 := by
          intro hle
          by_cases hdot : c = '.'
          · have hnone : taken.count '.' = 0 :=
              List.count_eq_zero.mpr fun hmem => hpoint ⟨hdot, hmem⟩
            simp [hdot, hnone]
          · rwa [List.count_cons_of_ne hdot]
        have hmove : ∀ w : List Char,
            (c :: taken).count '.' + w.count '.' = taken.count '.' + (c :: w).count '.' := by
          intro w
          simp only [List.count_cons]
          omega
        refine takes_onward hat fun q hq => (ih (c :: taken) hq).imp (fun w text cur _ h => ?_)
          fun cause h => ?_
        · obtain ⟨rfl, hw, hle, hrest, hmark⟩ := h
          refine ⟨by simp, List.forall_mem_cons.mpr ⟨hc, hw⟩, fun h => ?_, hrest, hmark⟩
          rw [← hmove]
          exact hle (hcount h)
        · obtain ⟨w, rest, rfl, hw, hone, rfl⟩ := h
          refine ⟨c :: w, rest, rfl, List.forall_mem_cons.mpr ⟨hc, hw⟩, fun h => ?_, by simp⟩
          rw [← hmove]
          exact hone (hcount h)
      · next hc =>
        refine .ok hat ⟨by simp, by simp, by simp, ?_, rfl⟩
        rintro _ ⟨⟩
        exact hc

/-- A lexeme of the token is taken, or a string that the text ends in. -/
def Lexed (o : LexOptions) (mark : Position) (w : List Char) (t : Token) (cur : Cursor) : Prop :=
  cur.mark = mark ∧
    (t.Lexeme w ∨ t = .eof ∧ o.strict = false ∧ cur.chars = [] ∧ Unclosed w)

theorem lexeme_ofWord (hfirst : w.head?.any Text.isAlphabetic = true)
    (hw : ∀ c ∈ w, isWordChar c = true) : (Token.ofWord (String.ofList w)).Lexeme w := by
  have hordinary := ordinary_ofWord hfirst hw
  unfold Token.ofWord at hordinary ⊢
  split
  · next k hk =>
    have hword : k.word = String.ofList w := by simpa using List.find?_some hk
    show w = k.word.toList
    rw [hword, String.toList_ofList]
  · next hnone =>
    rw [hnone] at hordinary
    exact ⟨hordinary _ rfl, String.toList_ofList.symm⟩

theorem scanWord_takes (hat : At fault done (c :: cs) pos) (hc : Text.isAlphabetic c = true) :
    (scanWord fault mark (c :: cs) pos).Takes fault done (c :: cs) (Lexed o mark) E := by
  refine .map ((takeWhile_takes isWordChar hat).imp (fun w text cur hcs h => ?_) fun _ h => h)
  obtain ⟨rfl, hw, hrest, hmark⟩ := h
  refine ⟨hmark, .inl (lexeme_ofWord ?_ hw)⟩
  cases text with
  | nil =>
    have hchar := hrest c (by rw [← List.nil_append cur.chars, ← hcs]; rfl)
    simp [isWordChar, hc] at hchar
  | cons d ds =>
    obtain ⟨rfl, -⟩ := List.cons.inj hcs
    exact hc

/-- A number starts with a digit, or with a point and a digit. -/
theorem digit_of_startsNumber {rest : List Char} (hc : startsNumber c cs = true) (hne : w ≠ [])
    (hcs : c :: cs = w ++ rest) (hrest : ∀ d ∈ rest.head?, d.isDigit = false) :
    ∃ d ∈ w, d.isDigit = true := by
  obtain ⟨d, w, rfl⟩ := List.exists_cons_of_ne_nil hne
  obtain ⟨rfl, rfl⟩ := List.cons.inj hcs
  simp only [startsNumber, Bool.or_eq_true, Bool.and_eq_true] at hc
  rcases hc with hdigit | ⟨-, hnext⟩
  · exact ⟨c, List.mem_cons_self, hdigit⟩
  · obtain ⟨e, he, hdigit⟩ := (Option.any_eq_true _ _).mp hnext
    cases w with
    | nil => exact absurd hdigit (by simp [hrest e he])
    | cons f w =>
      obtain rfl : f = e := Option.some.inj he
      exact ⟨f, by simp, hdigit⟩

theorem scanNumber_takes (hat : At fault done (c :: cs) pos) (hc : startsNumber c cs = true) :
    (scanNumber fault mark (c :: cs) pos).Takes fault done (c :: cs) (Lexed o mark)
      (Culprit o · (c :: cs)) := by
  refine ((takeNumber_takes [] hat).imp (fun _ _ _ _ h => h) fun cause h => ?_).andThen
    fun w text cur hcs hat h => ?_
  · obtain ⟨w, rest, hcs, hw, hone, rfl⟩ := h
    have hone : w.count '.' = 1 := by simpa using hone
    have hne : w ≠ [] := by
      rintro rfl
      cases hone
    have hdigit : ∃ d ∈ w, d.isDigit = true := by
      refine digit_of_startsNumber hc hne hcs ?_
      rintro _ ⟨⟩
      rfl
    rw [hcs]
    exact .secondPoint hw hone hdigit
  · obtain ⟨rfl, hw, hle, hrest, hmark⟩ := h
    have hle : text.count '.' ≤ 1 := by simpa using hle
    have hne : text ≠ [] := by
      rintro rfl
      have hfirst := hrest c (by rw [← List.nil_append cur.chars, ← hcs]; rfl)
      simp only [startsNumber, Bool.or_eq_true, Bool.and_eq_true, decide_eq_true_eq] at hc
      exact hfirst (hc.symm.imp_left And.left)
    split
    · next n hread =>
      refine .ok hat ⟨hmark, .inl ?_⟩
      rw [List.append_nil]
      exact ⟨hw, hle, hread⟩
    · next e hread =>
      have hdigit := digit_of_startsNumber hc hne hcs fun d hd => by
        simpa using fun h => hrest d hd (.inr h)
      obtain ⟨rfl, hdigits, hvalue⟩ := Number.read_error hw hle hdigit hread
      rw [hcs]
      exact .inr (.overflow hdigits hrest hvalue)

theorem scanString_takes (hat : At fault done cs pos) :
    (scanString o.strict fault mark cs pos).Takes fault done cs (fun w => Lexed o mark ('"' :: w))
      (Culprit o · ('"' :: cs)) := by
  refine (takeWhile_takes (· ≠ '"') hat).andThen fun w text cur hcs hat h => ?_
  obtain ⟨rfl, hw, hrest, hmark⟩ := h
  have hquote : '"' ∉ text := fun hmem => by simpa using hw _ hmem
  split
  · next hnil =>
    rw [hnil, List.append_nil] at hcs
    cases ho : o.strict with
    | true => exact .inr (.string ho (hcs ▸ hquote))
    | false =>
      refine .ok hat ⟨hmark, .inr ⟨rfl, ho, hnil, ?_⟩⟩
      rw [List.append_nil]
      exact .string hquote
  · next d rest hd =>
    rw [hd] at hat hrest ⊢
    obtain rfl : d = '"' := by simpa using hrest d rfl
    refine takes_onward hat fun q hq => .ok hq ⟨rfl, .inl ?_⟩
    exact ⟨by rwa [String.toList_ofList], by simp⟩

theorem lexeme_signOf (c : Char) : (signOf c).Lexeme [c] := by
  unfold signOf
  repeat' split
  all_goals simp_all [Token.Lexeme]

theorem scanSign_takes (hat : At fault done (c :: cs) pos) :
    (scanSign fault mark c cs pos).Takes fault done (c :: cs) (Lexed o mark) E := by
  refine takes_onward hat fun q hq => ?_
  split
  · exact takes_onward hq fun q hq => .ok hq ⟨rfl, .inl rfl⟩
  · exact .ok hq ⟨rfl, .inl (lexeme_signOf c)⟩

theorem scanLexeme_takes (hat : At fault done (c :: cs) pos) :
    (scanLexeme o fault mark c cs pos).Takes fault done (c :: cs) (Lexed o mark)
      (Culprit o · (c :: cs)) := by
  unfold scanLexeme
  split
  · next hc => exact scanWord_takes hat hc
  split
  · next hc => exact scanNumber_takes hat hc
  split
  · next hc =>
    subst hc
    exact takes_onward hat fun q hq => scanString_takes hq
  · exact scanSign_takes hat

end Lexemes

section Runs

variable {lx : Lexer}

/-- What may stand behind the last lexeme and its gap. -/
def Unfinished (o : LexOptions) (tail : List Char) : Prop :=
  tail = [] ∨ o.strict = false ∧ Unclosed tail

/-- A token is read: its lexeme behind a gap, or the end of the text. -/
def Reads (o : LexOptions) (done w : List Char) (t : Token) (cur : Cursor) : Prop :=
  ∃ gap taken, w = gap ++ taken ∧ Gap o (taken ++ cur.chars) gap ∧
    (t.Lexeme taken ∧ cur.mark = .following (done ++ gap) ∨
      t = .eof ∧ cur.chars = [] ∧ Unfinished o taken)

/-- Behind what has been left, a token is read or the text shows why not. -/
theorem scan_takes (hstarted : lx.started = true)
    (hat : At lx.fault done lx.cursor.chars lx.cursor.pos) :
    lx.scan.Takes lx.fault done lx.cursor.chars (Reads lx.options done)
      fun cause => BehindGap lx.options (Culprit lx.options cause) lx.cursor.chars := by
  have hentered : lx.entered = ⟨.ok (), lx.cursor⟩ := if_pos hstarted
  rw [Lexer.scan_eq, hentered]
  refine (skipGap_takes .outside hat).andThen fun w _ cur hcs hat h => ?_
  obtain ⟨chars, pos, mark⟩ := cur
  obtain ⟨gap, rest, hrest, hgap, ⟨rfl, hmark⟩ | ⟨ho, hnil, hunclosed⟩⟩ := h
  · obtain rfl : w = gap := List.append_cancel_right (hcs.symm.trans hrest)
    cases rest with
    | nil => exact .ok hat ⟨w, [], rfl, hgap, .inr ⟨rfl, rfl, .inl rfl⟩⟩
    | cons c cs =>
      refine (scanLexeme_takes hat).imp (fun taken t cur hchars h => ?_)
        fun _ h => ⟨w, c :: cs, hcs, hgap, h⟩
      obtain ⟨hplace, h⟩ := h
      refine ⟨w, taken, rfl, hchars ▸ hgap, ?_⟩
      rcases h with hlexeme | ⟨rfl, ho, hnil, hunclosed⟩
      · exact .inl ⟨hlexeme, (hplace.trans hmark).trans (hat.place (by simp))⟩
      · exact .inr ⟨rfl, hnil, .inr ⟨ho, hunclosed⟩⟩
  · obtain rfl : chars = [] := hnil
    rw [hcs, List.append_nil] at hrest
    refine .ok hat ⟨gap, rest, ?_, ?_, .inr ⟨rfl, rfl, .inr ⟨ho, hunclosed⟩⟩⟩
    · rw [List.append_nil, hrest]
    · rwa [List.append_nil]

/-- Where a run ends: at the fault, or behind the text that is split into the tokens, at the end or in
front of a culprit. -/
def RunEnds (o : LexOptions) (fault : Option Fault) (done cs : List Char) (run : TokenRun) : Prop :=
  (∃ e f, run.error = some e ∧ fault = some f ∧ e.cause = .fault f) ∨
    ∃ text rest, cs = text ++ rest ∧ Splits o rest done text run.tokens ∧
      match run.error with
      | none => fault = none ∧ Unfinished o rest
      | some e => Culprit o e.cause rest

theorem advance_eq_ok {t : Token} {next : Lexer} (h : lx.advance = (.ok t, next)) :
    ∃ cur, lx.scan = ⟨.ok t, cur⟩ ∧ next = lx.behind t cur := by
  unfold Lexer.advance at h
  split at h
  · next cur hscan =>
    cases h
    exact ⟨cur, hscan, rfl⟩
  · cases h

theorem advance_eq_error {e : LexError} {next : Lexer} (h : lx.advance = (.error e, next)) :
    ∃ cur, lx.scan = ⟨.error e, cur⟩ := by
  unfold Lexer.advance at h
  split at h
  · cases h
  · next cur hscan =>
    cases h
    exact ⟨cur, hscan⟩

theorem run_ends (lx : Lexer) : lx.started = true → ∀ done,
    At lx.fault done lx.cursor.chars lx.cursor.pos →
      RunEnds lx.options lx.fault done lx.cursor.chars lx.run := by
  fun_induction Lexer.run lx with
  | case1 lx e next h =>
    intro hstarted done hat
    have hscan := scan_takes hstarted hat
    obtain ⟨cur, herror⟩ := advance_eq_error h
    rw [herror] at hscan
    obtain ⟨f, hf, hcause⟩ | ⟨gap, rest, hcs, hgap, hculprit⟩ := hscan
    · exact .inl ⟨e, f, rfl, hf, hcause⟩
    · exact .inr ⟨gap, rest, hcs, .ended hgap, hculprit⟩
  | case2 lx next h =>
    intro hstarted done hat
    have hscan := scan_takes hstarted hat
    obtain ⟨cur, hok, rfl⟩ := advance_eq_ok h
    rw [hok] at hscan
    obtain ⟨w, hcs, hend, gap, tail, rfl, hgap, hlexeme | ⟨-, hnil, htail⟩⟩ := hscan
    · exact hlexeme.1.elim
    · rw [hnil, List.append_nil] at hcs hgap
      exact .inr ⟨gap, tail, hcs, .ended hgap, hend.faultless hnil, htail⟩
  | case3 lx t next h ht hlt rest ih =>
    intro hstarted done hat
    have hscan := scan_takes hstarted hat
    obtain ⟨cur, hok, rfl⟩ := advance_eq_ok h
    rw [hok] at hscan
    obtain ⟨w, hcs, hend, gap, lexeme, rfl, hgap, ⟨hlexeme, hmark⟩ | ⟨heof, -⟩⟩ := hscan
    · have hrest : RunEnds lx.options lx.fault (done ++ (gap ++ lexeme)) cur.chars rest :=
        ih rfl _ hend
      obtain hfault | ⟨text, tail, htext, hsplits, htail⟩ := hrest
      · exact .inl hfault
      · rw [htext] at hcs hgap
        have hplace : (lx.behind t cur).position = .following (done ++ gap) := hmark
        refine .inr ⟨gap ++ lexeme ++ text, tail, by simp [hcs], ?_, htail⟩
        rw [hplace]
        exact .token hgap hlexeme hsplits
    · exact absurd heof ht

end Runs

section Sources

variable {bytes : List UInt8}

namespace Source

/-- The bytes are the encoding of a text that can be read: it has no null character, and a byte order
mark only in front. -/
structure Encodes (bytes : List UInt8) (cs : List Char) : Prop where
  encoding : bytes = cs.flatMap String.utf8EncodeChar
  nonNull : ∀ c ∈ cs, c.toNat ≠ 0
  unmarked : byteOrderMark ∉ cs.tail

theorem readFrom_eq_faultless {first : Bool} (h : readFrom first 0 bytes = ⟨cs, none⟩) :
    bytes = [] ∧ cs = [] ∨ ∃ c rest ds, bytes = String.utf8EncodeChar c ++ rest ∧ cs = c :: ds ∧
      faultOf first c = none ∧ readFrom false 0 rest = ⟨ds, none⟩ := by
  obtain rfl | ⟨hbad, -⟩ | ⟨c, rest, rfl⟩ := readFrom_cases first bytes
  · obtain ⟨rfl, -⟩ := Source.mk.inj h
    exact .inl ⟨rfl, rfl⟩
  · rw [hbad] at h
    cases (Source.mk.inj h).2
  · cases hf : faultOf first c with
    | some f =>
      rw [readFrom_fault hf] at h
      cases (Source.mk.inj h).2
    | none =>
      rw [readFrom_char hf] at h
      obtain ⟨rfl, hfault⟩ := Source.mk.inj h
      exact .inr ⟨c, rest, _, rfl, rfl, hf, by rw [← hfault]⟩

theorem nonNull_of_faultOf {first : Bool} (h : faultOf first c = none) : c.toNat ≠ 0 := by
  intro hnull
  rw [faultOf, if_pos hnull] at h
  cases h

theorem plain_of_faultOf (h : faultOf false c = none) : Plain c := by
  refine ⟨nonNull_of_faultOf h, ?_⟩
  rintro rfl
  exact absurd h (by decide)

theorem plain_of_readFrom (h : readFrom false 0 bytes = ⟨cs, none⟩) :
    bytes = cs.flatMap String.utf8EncodeChar ∧ ∀ c ∈ cs, Plain c := by
  induction cs generalizing bytes with
  | nil =>
    obtain ⟨rfl, -⟩ | ⟨c, rest, ds, -, hcs, -⟩ := readFrom_eq_faultless h
    · exact ⟨rfl, by simp⟩
    · cases hcs
  | cons d cs ih =>
    obtain ⟨-, hcs⟩ | ⟨c, rest, ds, rfl, hcs, hf, hrest⟩ := readFrom_eq_faultless h
    · cases hcs
    · cases hcs
      obtain ⟨rfl, hplain⟩ := ih hrest
      exact ⟨rfl, List.forall_mem_cons.mpr ⟨plain_of_faultOf hf, hplain⟩⟩

/-- A text is read to its end exactly if its bytes are such an encoding. -/
theorem ofBytes_eq_iff : ofBytes bytes = ⟨cs, none⟩ ↔ Encodes bytes cs := by
  constructor
  · intro h
    obtain ⟨rfl, rfl⟩ | ⟨c, rest, ds, rfl, rfl, hf, hrest⟩ := readFrom_eq_faultless h
    · exact ⟨rfl, by simp, by simp⟩
    · obtain ⟨rfl, hplain⟩ := plain_of_readFrom hrest
      exact ⟨rfl, List.forall_mem_cons.mpr ⟨nonNull_of_faultOf hf, fun d hd => (hplain d hd).1⟩,
        fun hmark => (hplain _ hmark).2 rfl⟩
  · rintro ⟨rfl, hnull, hmark⟩
    cases cs with
    | nil => rfl
    | cons c cs =>
      obtain ⟨hc, hcs⟩ := List.forall_mem_cons.mp hnull
      have hfirst : faultOf true c = none := by simp [faultOf, hc]
      have hplain : ∀ d ∈ cs, Plain d := fun d hd =>
        ⟨hcs d hd, fun hbom => hmark (hbom ▸ hd)⟩
      rw [ofBytes, List.flatMap_cons, readFrom_char hfirst, readFrom_utf8Encode hplain]

end Source

namespace Lexer

theorem run_of_entered {lx : Lexer} {cur : Cursor} (h : lx.entered = ⟨.ok (), cur⟩) :
    lx.run = { lx with cursor := cur, started := true : Lexer }.run := by
  have hadvance : lx.advance = { lx with cursor := cur, started := true : Lexer }.advance := by
    unfold advance
    rw [scan_eq, scan_eq, h]
    rfl
  cases hnext : lx.advance with
  | mk r next =>
    cases r with
    | error e => exact (run_of_error hnext).trans (run_of_error (hadvance ▸ hnext)).symm
    | ok t => exact (run_of_ok hnext).trans (run_of_ok (hadvance ▸ hnext)).symm

theorem runEnds_of_entered (lx : Lexer) {cur : Cursor} (h : lx.entered = ⟨.ok (), cur⟩)
    (hat : At lx.fault [] cur.chars cur.pos) :
    RunEnds lx.options lx.fault [] cur.chars lx.run := by
  rw [run_of_entered h]
  exact run_ends { lx with cursor := cur, started := true } rfl [] hat

theorem runEnds_of_fault (lx : Lexer) {f : Fault} {place : Position} {cur : Cursor}
    (hfault : lx.fault = some f) (h : lx.entered = ⟨.error ⟨.fault f, place⟩, cur⟩) :
    RunEnds lx.options lx.fault [] cs lx.run := by
  have hadvance : lx.advance =
      (.error ⟨.fault f, place⟩, { lx with cursor := cur, started := true }) := by
    unfold advance
    rw [scan_eq, h]
    rfl
  rw [run_of_error hadvance]
  exact .inl ⟨_, f, rfl, hfault, rfl⟩

/-- A source is read behind the byte order mark that it may begin with. -/
theorem ofSource_ends (source : Source) (o : LexOptions) : ∃ bom cs, source.chars = bom ++ cs ∧
    (bom = [] ∧ cs.head? ≠ some byteOrderMark ∨ bom = [byteOrderMark]) ∧
      RunEnds o source.fault [] cs (ofSource source o).run := by
  obtain ⟨_ | ⟨c, cs⟩, fault⟩ := source
  · refine ⟨[], [], rfl, .inl ⟨rfl, by simp⟩, ?_⟩
    cases fault with
    | none =>
      exact runEnds_of_entered (ofSource ⟨[], none⟩ o) rfl ⟨fun h => absurd rfl h, fun _ => rfl⟩
    | some f => exact runEnds_of_fault (ofSource ⟨[], some f⟩ o) rfl rfl
  · by_cases hc : c = byteOrderMark
    · subst hc
      refine ⟨[byteOrderMark], cs, rfl, .inr rfl, ?_⟩
      have hentered : (ofSource ⟨byteOrderMark :: cs, fault⟩ o).entered =
          onward fault .unset byteOrderMark cs .start fun pos => ⟨.ok (), cs, pos, .unset⟩ := rfl
      unfold onward at hentered
      split at hentered
      · exact runEnds_of_fault (ofSource _ o) rfl hentered
      · next hnofault =>
        refine runEnds_of_entered (ofSource _ o) hentered ⟨fun hcs => ?_, fun hcs => ?_⟩
        · show Position.step .start byteOrderMark cs = _
          rw [Position.step, if_neg (by simpa using hcs)]
          rfl
        · cases fault with
          | none => rfl
          | some f => exact absurd rfl (hnofault f hcs)
    · refine ⟨[], c :: cs, rfl, .inl ⟨rfl, fun h => hc (Option.some.inj h)⟩, ?_⟩
      have hentered : (ofSource ⟨c :: cs, fault⟩ o).entered =
          ⟨.ok (), c :: cs, Position.start.right, .unset⟩ := if_neg hc
      exact runEnds_of_entered (ofSource _ o) hentered ⟨fun _ => rfl, by simp⟩

end Lexer

/-- Lexing is lossless. If the tokens of a byte string can be read without an error, it is the
encoding of a text that is split into gaps and the lexemes of the tokens, behind an optional byte order
mark, and the tokens are placed where their lexemes begin. Only a string or a block comment that is not
closed may stand behind the last lexeme and its gap, and only for a lexer that is not strict. -/
theorem run_splits {o : LexOptions}
    (h : (Lexer.ofSource (.ofBytes bytes) o).run.error = none) :
    ∃ bom text tail, Source.Encodes bytes (bom ++ (text ++ tail)) ∧
      (bom = [] ∨ bom = [byteOrderMark]) ∧ byteOrderMark ∉ text ++ tail ∧
      Splits o tail [] text (Lexer.ofSource (.ofBytes bytes) o).run.tokens ∧ Unfinished o tail := by
  obtain ⟨bom, cs, hchars, hbom, hends⟩ := Lexer.ofSource_ends (.ofBytes bytes) o
  obtain ⟨e, f, he, -⟩ | ⟨text, tail, rfl, hsplits, htail⟩ := hends
  · rw [h] at he
    cases he
  rw [h] at htail
  obtain ⟨hfault, htail⟩ := htail
  have hencodes : Source.Encodes bytes (bom ++ (text ++ tail)) := by
    rw [← Source.ofBytes_eq_iff, ← hchars, ← hfault]
  refine ⟨bom, text, tail, hencodes, hbom.imp_left And.left, ?_, hsplits, htail⟩
  have hunmarked := hencodes.unmarked
  rcases hbom with ⟨rfl, hhead⟩ | rfl
  · cases hcs : text ++ tail with
    | nil => exact List.not_mem_nil
    | cons c cs =>
      rw [hcs] at hhead hunmarked
      rintro (_ | ⟨_, hmem⟩)
      · exact hhead rfl
      · exact hunmarked hmem
  · exact hunmarked

/-- A marked text with a comment in it, ending in a string that is not closed. -/
def dangling : List Char := [byteOrderMark, 'n', '/', '*', '*', '/', '\n', '=', '=', '"', 'x']

theorem dangling_splits :
    (Lexer.ofSource (.ofBytes (dangling.flatMap String.utf8EncodeChar)) {}).run.error = none ∧
    ∃ bom text tail,
      Source.Encodes (dangling.flatMap String.utf8EncodeChar) (bom ++ (text ++ tail)) ∧
      (bom = [] ∨ bom = [byteOrderMark]) ∧ byteOrderMark ∉ text ++ tail ∧
      Splits {} tail [] text
        (Lexer.ofSource (.ofBytes (dangling.flatMap String.utf8EncodeChar)) {}).run.tokens ∧
      Unfinished {} tail := by
  have hencodes : Source.Encodes (dangling.flatMap String.utf8EncodeChar) dangling :=
    ⟨rfl, forall_mem_of_all (by decide), by decide⟩
  have h : (Lexer.ofSource (.ofBytes (dangling.flatMap String.utf8EncodeChar)) {}).run.error =
      none := by
    rw [Source.ofBytes_eq_iff.mpr hencodes]
    decide +kernel
  exact ⟨h, run_splits h⟩

/-- The lexer checks every byte. If all tokens can be read, the byte string is the encoding of a text
without null characters, with a byte order mark only in front. If it is one, the tokens fail to be read
only in front of a culprit, behind the tokens that could be read. -/
theorem tokens_checks (bytes : List UInt8) (o : LexOptions) :
    (∀ ts, (Lexer.ofSource (.ofBytes bytes) o).tokens = .ok ts → ∃ cs, Source.Encodes bytes cs) ∧
      ∀ cs e, Source.Encodes bytes cs → (Lexer.ofSource (.ofBytes bytes) o).tokens = .error e →
        ∃ bom text rest, cs = bom ++ (text ++ rest) ∧ (bom = [] ∨ bom = [byteOrderMark]) ∧
          Splits o rest [] text (Lexer.ofSource (.ofBytes bytes) o).run.tokens ∧
          Culprit o e.cause rest := by
  obtain ⟨bom, cs, hchars, hbom, hends⟩ := Lexer.ofSource_ends (.ofBytes bytes) o
  unfold RunEnds at hends
  unfold Lexer.tokens
  dsimp only
  constructor
  · intro ts hts
    split at hts
    · cases hts
    · next hnone =>
      rw [hnone] at hends
      obtain ⟨e, f, he, -⟩ | ⟨text, tail, -, -, hfault, -⟩ := hends
      · cases he
      · exact ⟨_, Source.ofBytes_eq_iff.mp (congrArg (Source.mk _) hfault)⟩
  · intro cs' e hencodes he
    have hsource := Source.ofBytes_eq_iff.mpr hencodes
    split at he
    · next e' herror =>
      cases he
      obtain ⟨e', f, -, hf, -⟩ | ⟨text, rest, rfl, hsplits, hculprit⟩ := hends
      · rw [hsource] at hf
        cases hf
      · rw [herror] at hculprit
        rw [hsource] at hchars
        exact ⟨bom, text, rest, hchars, hbom.imp_left And.left, hsplits, hculprit⟩
    · cases he

/-- A number with two points. -/
def twoPoints : List Char := ['a', ' ', '1', '.', '2', '.']

theorem twoPoints_checks :
    Source.Encodes (twoPoints.flatMap String.utf8EncodeChar) twoPoints ∧
    (Lexer.ofSource (.ofBytes (twoPoints.flatMap String.utf8EncodeChar)) {}).tokens =
      .error ⟨.secondPoint "1.2", 1, 6⟩ ∧
    ∃ bom text rest, twoPoints = bom ++ (text ++ rest) ∧ (bom = [] ∨ bom = [byteOrderMark]) ∧
      Splits {} rest [] text
        (Lexer.ofSource (.ofBytes (twoPoints.flatMap String.utf8EncodeChar)) {}).run.tokens ∧
      Culprit {} (.secondPoint "1.2") rest := by
  have hencodes : Source.Encodes (twoPoints.flatMap String.utf8EncodeChar) twoPoints :=
    ⟨rfl, forall_mem_of_all (by decide), by decide⟩
  have herror : (Lexer.ofSource (.ofBytes (twoPoints.flatMap String.utf8EncodeChar)) {}).tokens =
      .error ⟨.secondPoint "1.2", 1, 6⟩ := by
    rw [Source.ofBytes_eq_iff.mpr hencodes]
    decide +kernel
  exact ⟨hencodes, herror, (tokens_checks _ {}).2 _ _ hencodes herror⟩

end Sources

end SsaCompiler
