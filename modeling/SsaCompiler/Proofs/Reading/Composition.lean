import SsaCompiler.Proofs.Reading.Lexing

/-!
Lexing a text in parts. A line end closes whatever a lexeme, a gap or a line comment had begun, so what
stands behind it is scanned as a text of its own, some lines further down. A text whose tokens could be
read has no fault, since the lexer meets a fault before it gets to the end.
-/
namespace SsaCompiler

variable {α β : Type} {o : LexOptions} {fault : Option Fault} {k n : Nat} {c : Char}
  {cs more : List Char} {mark mark' pos pos' : Position} {p : Char → Bool}

section Sinking

/-- The place `k` lines further down. -/
def Position.down (k : Nat) (p : Position) : Position := ⟨p.line + k, p.col⟩

namespace Position

theorem right_down (p : Position) : (p.down k).right = p.right.down k := rfl

theorem past_down (p : Position) (c : Char) : (p.down k).past c = (p.past c).down k := by
  unfold past
  split
  · simp [down, Nat.add_right_comm]
  · rfl

theorem step_down (p : Position) (c : Char) (cs : List Char) :
    (p.down k).step c cs = (p.step c cs).down k := by
  unfold step
  split
  · exact past_down p c
  · rw [past_down, right_down]

end Position

def LexError.down (k : Nat) (e : LexError) : LexError := ⟨e.cause, e.pos.down k⟩

def Cursor.down (k : Nat) (cur : Cursor) : Cursor := ⟨cur.chars, cur.pos.down k, cur.mark.down k⟩

def GapMode.down (k : Nat) : GapMode → GapMode
  | .outside => .outside
  | .lineComment => .lineComment
  | .blockComment start => .blockComment (start.down k)

/-- The second scan does the same as the first one, `k` lines further down. -/
structure Scan.Sinks (k : Nat) (s s' : Scan α) : Prop where
  outcome : s'.outcome = s.outcome.mapError (·.down k)
  cursor : ∀ a, s.outcome = .ok a → s'.cursor = s.cursor.down k

namespace Scan.Sinks

variable {s s' : Scan α}

theorem ok (a : α) (cur : Cursor) : Sinks k ⟨.ok a, cur⟩ ⟨.ok a, cur.down k⟩ := ⟨rfl, fun _ _ => rfl⟩

theorem error (e : LexError) (cur cur' : Cursor) :
    Sinks k (⟨.error e, cur⟩ : Scan α) ⟨.error (e.down k), cur'⟩ := ⟨rfl, fun _ h => by cases h⟩

theorem map (h : Sinks k s s') (f : α → β) : Sinks k (s.map f) (s'.map f) := by
  obtain ⟨outcome, cur⟩ := s
  obtain ⟨outcome', cur'⟩ := s'
  obtain ⟨rfl, hcur⟩ := h
  cases outcome with
  | ok a => exact ⟨rfl, fun _ _ => hcur a rfl⟩
  | error e => exact ⟨rfl, fun _ h => by cases h⟩

theorem andThen {f f' : α → Cursor → Scan β} (h : Sinks k s s')
    (hf : ∀ a cur, s = ⟨.ok a, cur⟩ → Sinks k (f a cur) (f' a (cur.down k))) :
    Sinks k (s.andThen f) (s'.andThen f') := by
  obtain ⟨outcome, cur⟩ := s
  obtain ⟨outcome', cur'⟩ := s'
  obtain ⟨rfl, hcur⟩ := h
  cases outcome with
  | ok a =>
    obtain rfl : cur' = cur.down k := hcur a rfl
    exact hf a cur rfl
  | error e => exact .error e _ _

theorem onward {f f' : Position → Scan α} (hf : ∀ q, Sinks k (f q) (f' (q.down k))) :
    Sinks k (onward fault mark c cs pos f) (onward fault mark' c cs (pos.down k) f') := by
  unfold SsaCompiler.onward
  split
  · rw [Position.past_down, Position.right_down]
    exact .error _ _ _
  · rw [Position.step_down]
    exact hf _

theorem takeWhile (cs : List Char) : Sinks k (takeWhile fault mark p cs pos)
    (takeWhile fault (mark.down k) p cs (pos.down k)) := by
  induction cs generalizing pos with
  | nil => exact .ok _ _
  | cons c cs ih =>
    unfold SsaCompiler.takeWhile
    split
    · exact .onward fun q => ih.map _
    · exact .ok _ _

theorem takeNumber (taken cs : List Char) : Sinks k (takeNumber fault mark taken cs pos)
    (takeNumber fault (mark.down k) taken cs (pos.down k)) := by
  induction cs generalizing pos taken with
  | nil => exact .ok _ _
  | cons c cs ih =>
    unfold SsaCompiler.takeNumber
    split
    · exact .error _ _ _
    split
    · exact .onward fun q => ih _
    · exact .ok _ _

/-- The mark before a gap does not matter. -/
theorem skipGap (ho : o.strict = true) (mode : GapMode) (cs : List Char) (pos mark mark' : Position) :
    Sinks k (skipGap o fault mode cs pos mark)
      (skipGap o fault (mode.down k) cs (pos.down k) mark') := by
  fun_induction SsaCompiler.skipGap o fault mode cs pos mark generalizing mark' with
  | case1 start pos mark =>
    rw [GapMode.down, skipGap.eq_1, if_pos ho, if_pos ho]
    exact .error _ _ _
  | case2 start cs pos mark ih =>
    rw [GapMode.down, skipGap.eq_2, Position.right_down]
    exact .onward fun q => ih q mark'
  | case3 start c cs pos mark hopen ih =>
    rw [GapMode.down, skipGap.eq_3 _ _ _ _ _ _ _ hopen]
    exact .onward fun q => ih q mark'
  | case4 pos mark => exact .ok _ _
  | case5 c cs pos mark hend hskip ih =>
    rw [GapMode.down, skipGap.eq_5, if_pos hend, if_pos hskip]
    exact .onward fun q => ih q mark'
  | case6 c cs pos mark hend hskip =>
    rw [GapMode.down, skipGap.eq_5, if_pos hend, if_neg hskip]
    exact .ok _ _
  | case7 c cs pos mark hend ih =>
    rw [GapMode.down, skipGap.eq_5, if_neg hend]
    exact .onward fun q => ih q mark'
  | case8 pos mark => exact .ok _ _
  | case9 cs pos mark ih =>
    rw [GapMode.down, skipGap.eq_7, Position.right_down]
    exact .onward fun q => ih q _
  | case10 cs pos mark ih =>
    rw [GapMode.down, skipGap.eq_8, Position.right_down]
    exact .onward fun q => ih q _
  | case11 c cs pos mark hline hblock hskip ih =>
    rw [GapMode.down, skipGap.eq_9 _ _ _ _ _ _ hline hblock, if_pos hskip]
    exact .onward fun q => ih q mark'
  | case12 c cs pos mark hline hblock hskip =>
    rw [GapMode.down, skipGap.eq_9 _ _ _ _ _ _ hline hblock, if_neg hskip]
    exact .ok _ _

theorem scanNumber (cs : List Char) : Sinks k (scanNumber fault mark cs pos)
    (scanNumber fault (mark.down k) cs (pos.down k)) := by
  refine (takeNumber [] cs).andThen fun text cur _ => ?_
  split
  · exact .ok _ _
  · exact .error _ _ _

theorem scanString (strict : Bool) (cs : List Char) : Sinks k (scanString strict fault mark cs pos)
    (scanString strict fault (mark.down k) cs (pos.down k)) := by
  refine (takeWhile cs).andThen fun text cur _ => ?_
  obtain ⟨_ | ⟨c, rest⟩, q, m⟩ := cur
  · cases strict with
    | true => exact .error _ _ _
    | false => exact .ok _ _
  · exact .onward fun q => .ok _ _

theorem scanSign (c : Char) (cs : List Char) : Sinks k (scanSign fault mark c cs pos)
    (scanSign fault (mark.down k) c cs (pos.down k)) := by
  refine .onward fun q => ?_
  split
  · exact .onward fun q => .ok _ _
  · exact .ok _ _

theorem scanLexeme (c : Char) (cs : List Char) : Sinks k (scanLexeme o fault mark c cs pos)
    (scanLexeme o fault (mark.down k) c cs (pos.down k)) := by
  unfold SsaCompiler.scanLexeme
  split
  · exact (takeWhile _).map _
  split
  · exact scanNumber _
  split
  · exact .onward fun q => scanString _ cs
  · exact scanSign c cs

end Scan.Sinks

end Sinking

section Faults

variable {f : Fault}

/-- The scan does not get to the end of the text. -/
def Scan.Stays (s : Scan α) : Prop := ∀ a, s.outcome = .ok a → s.cursor.chars ≠ []

namespace Scan.Stays

variable {s : Scan α}

theorem map (h : s.Stays) (g : α → β) : (s.map g).Stays := by
  obtain ⟨outcome, cur⟩ := s
  cases outcome with
  | ok a => exact fun _ _ => h a rfl
  | error e => exact fun _ h => by cases h

theorem andThen {g : α → Cursor → Scan β} (h : s.Stays)
    (hg : ∀ a cur, cur.chars ≠ [] → (g a cur).Stays) : (s.andThen g).Stays := by
  obtain ⟨outcome, cur⟩ := s
  cases outcome with
  | ok a => exact hg a cur (h a rfl)
  | error e => exact fun _ h => by cases h

/-- One cannot go on to a fault. -/
theorem onward {g : Position → Scan α} (hg : cs ≠ [] → ∀ q, (g q).Stays) :
    (onward (some f) mark c cs pos g).Stays := by
  cases cs with
  | nil => exact fun _ h => by cases h
  | cons d ds => exact hg (List.cons_ne_nil d ds) _

theorem takeWhile (hcs : cs ≠ []) : (takeWhile (some f) mark p cs pos).Stays := by
  induction cs generalizing pos with
  | nil => exact absurd rfl hcs
  | cons c cs ih =>
    unfold SsaCompiler.takeWhile
    split
    · exact .onward fun hcs q => (ih hcs).map _
    · exact fun _ _ => List.cons_ne_nil c cs

theorem takeNumber (taken : List Char) (hcs : cs ≠ []) :
    (takeNumber (some f) mark taken cs pos).Stays := by
  induction cs generalizing pos taken with
  | nil => exact absurd rfl hcs
  | cons c cs ih =>
    unfold SsaCompiler.takeNumber
    split
    · exact fun _ h => by cases h
    split
    · exact .onward fun hcs q => ih _ hcs
    · exact fun _ _ => List.cons_ne_nil c cs

theorem skipGap (mode : GapMode) (hcs : cs ≠ []) : (skipGap o (some f) mode cs pos mark).Stays := by
  fun_induction SsaCompiler.skipGap o (some f) mode cs pos mark with
  | case1 | case4 | case8 => exact absurd rfl hcs
  | case2 start cs pos mark ih => exact .onward fun hcs q => ih q hcs
  | case3 start c cs pos mark _ ih => exact .onward fun hcs q => ih q hcs
  | case5 c cs pos mark _ _ ih => exact .onward fun hcs q => ih q hcs
  | case6 c cs pos mark _ _ => exact fun _ _ => hcs
  | case7 c cs pos mark _ ih => exact .onward fun hcs q => ih q hcs
  | case9 cs pos mark ih => exact .onward fun hcs q => ih q hcs
  | case10 cs pos mark ih => exact .onward fun hcs q => ih q hcs
  | case11 c cs pos mark _ _ _ ih => exact .onward fun hcs q => ih q hcs
  | case12 c cs pos mark _ _ _ => exact fun _ _ => hcs

theorem scanNumber (hcs : cs ≠ []) : (scanNumber (some f) mark cs pos).Stays := by
  refine (takeNumber [] hcs).andThen fun text cur hcur => ?_
  split
  · exact fun _ _ => hcur
  · exact fun _ h => by cases h

theorem scanString (strict : Bool) (hcs : cs ≠ []) :
    (scanString strict (some f) mark cs pos).Stays := by
  refine (takeWhile hcs).andThen fun text cur hcur => ?_
  split
  · next hnil => exact absurd hnil hcur
  · exact .onward fun hrest q _ _ => hrest

theorem scanSign (c : Char) (cs : List Char) : (scanSign (some f) mark c cs pos).Stays := by
  refine .onward fun hcs q => ?_
  split
  · exact .onward fun hrest q _ _ => hrest
  · exact fun _ _ => hcs

theorem scanLexeme (c : Char) (cs : List Char) : (scanLexeme o (some f) mark c cs pos).Stays := by
  unfold SsaCompiler.scanLexeme
  split
  · exact (takeWhile (List.cons_ne_nil c cs)).map _
  split
  · exact scanNumber (List.cons_ne_nil c cs)
  split
  · exact .onward fun hcs q => scanString _ hcs
  · exact scanSign c cs

end Scan.Stays

end Faults

section Crossing

/-- What the first scan gives, the second one gives in a text that a line end and more stand behind.
The line end is on line `n`. -/
def Scan.Extends (more : List Char) (n : Nat) (s s' : Scan α) : Prop :=
  ∀ a, s.outcome = .ok a → s'.outcome = .ok a ∧ s'.cursor.chars = s.cursor.chars ++ '\n' :: more ∧
    s'.cursor.pos.line + s.cursor.chars.count '\n' = n

theorem Position.line_step (rest : List Char) (h : pos.line + (c :: cs).count '\n' = n) :
    (pos.step c rest).line + cs.count '\n' = n := by
  have hpast : (pos.past c).line + cs.count '\n' = n := by
    unfold past
    split
    · next hc =>
      rw [hc, List.count_cons_self] at h
      show pos.line + 1 + _ = n
      omega
    · next hc => rwa [List.count_cons_of_ne hc] at h
  unfold step
  split
  · exact hpast
  · exact hpast

/-- In front of a line end one can always go on. -/
theorem onward_append (k : Position → Scan α) : onward fault mark c (cs ++ '\n' :: more) pos k =
    k (pos.step c (cs ++ '\n' :: more)) := by
  cases cs <;> rfl

/-- A line end does not complete a sign of two characters. -/
theorem append_ne {d e : Char} (he : e ≠ '\n') (h : ∀ rest, c = d → cs = e :: rest → False)
    (rest : List Char) (hc : c = d) (hcs : cs ++ '\n' :: more = e :: rest) : False := by
  cases cs with
  | nil => exact he (List.cons.inj hcs).1.symm
  | cons e' cs =>
    obtain ⟨rfl, _⟩ := List.cons.inj hcs
    exact h cs hc rfl

namespace Scan.Extends

variable {s s' : Scan α}

theorem map (h : Extends more n s s') (g : α → β) : Extends more n (s.map g) (s'.map g) := by
  obtain ⟨outcome, cur⟩ := s
  cases outcome with
  | ok a =>
    obtain ⟨hok, hcur⟩ := h a rfl
    rintro _ ⟨⟩
    refine ⟨?_, hcur⟩
    show s'.outcome.map g = _
    rw [hok]
    rfl
  | error e => exact fun _ h => by cases h

theorem andThen {g g' : α → Cursor → Scan β} (h : Extends more n s s')
    (hg : ∀ a cur cur', s = ⟨.ok a, cur⟩ → cur'.chars = cur.chars ++ '\n' :: more →
      cur'.pos.line + cur.chars.count '\n' = n → Extends more n (g a cur) (g' a cur')) :
    Extends more n (s.andThen g) (s'.andThen g') := by
  obtain ⟨outcome, cur⟩ := s
  obtain ⟨outcome', cur'⟩ := s'
  cases outcome with
  | ok a =>
    obtain ⟨rfl, hchars, hline⟩ : outcome' = _ ∧ _ := h a rfl
    exact hg a cur cur' rfl hchars hline
  | error e => exact fun _ h => by cases h

theorem onward {g g' : Position → Scan α} (hpos : pos'.line + (c :: cs).count '\n' = n)
    (hg : ∀ q, q.line + cs.count '\n' = n → Extends more n (g (pos.step c cs)) (g' q)) :
    Extends more n (onward none mark c cs pos g)
      (onward fault mark' c (cs ++ '\n' :: more) pos' g') := by
  rw [onward_none, onward_append]
  exact hg _ (Position.line_step _ hpos)

theorem eq_ok {a : α} {cur : Cursor} (h : Extends more n s s') (hs : s = ⟨.ok a, cur⟩) :
    ∃ cur', s' = ⟨.ok a, cur'⟩ ∧ cur'.chars = cur.chars ++ '\n' :: more ∧
      cur'.pos.line + cur.chars.count '\n' = n := by
  subst hs
  obtain ⟨hok, hcur⟩ := h a rfl
  exact ⟨s'.cursor, by rw [← hok], hcur⟩

/-- A scan that has taken nothing yet. -/
theorem ok (a : α) (cs : List Char) (hpos : pos'.line + cs.count '\n' = n) :
    Extends more n ⟨.ok a, cs, pos, mark⟩ ⟨.ok a, cs ++ '\n' :: more, pos', mark'⟩ := by
  rintro _ ⟨⟩
  exact ⟨rfl, rfl, hpos⟩

/-- The characters taken end in front of the line end, if they do not end earlier. -/
theorem takeWhile (cs : List Char) (hpos : pos'.line + cs.count '\n' = n)
    (hend : p '\n' = false ∨ (takeWhile none mark p cs pos).cursor.chars ≠ []) :
    Extends more n (takeWhile none mark p cs pos)
      (takeWhile fault mark' p (cs ++ '\n' :: more) pos') := by
  induction cs generalizing pos pos' with
  | nil =>
    have hp : p '\n' = false := hend.resolve_right (absurd rfl)
    rw [List.nil_append]
    unfold SsaCompiler.takeWhile
    rw [if_neg (by simp [hp])]
    exact .ok [] [] hpos
  | cons c cs ih =>
    rw [List.cons_append]
    unfold SsaCompiler.takeWhile at hend ⊢
    split
    · next hc =>
      rw [if_pos hc, onward_none] at hend
      exact .onward hpos fun q hq => (ih hq hend).map _
    · exact .ok [] (c :: cs) hpos

theorem takeNumber (taken cs : List Char) (hpos : pos'.line + cs.count '\n' = n) :
    Extends more n (takeNumber none mark taken cs pos)
      (takeNumber fault mark' taken (cs ++ '\n' :: more) pos') := by
  induction cs generalizing pos pos' taken with
  | nil => exact .ok _ [] hpos
  | cons c cs ih =>
    rw [List.cons_append]
    unfold SsaCompiler.takeNumber
    split
    · exact fun _ h => by cases h
    split
    · exact .onward hpos fun q hq => ih _ hq
    · exact .ok _ (c :: cs) hpos

theorem scanNumber (cs : List Char) (hpos : pos'.line + cs.count '\n' = n) :
    Extends more n (scanNumber none mark cs pos)
      (scanNumber fault mark' (cs ++ '\n' :: more) pos') := by
  refine (takeNumber [] cs hpos).andThen fun text cur cur' _ hchars hline => ?_
  split
  · obtain ⟨chars', q', m'⟩ := cur'
    obtain rfl : chars' = _ := hchars
    exact .ok _ _ hline
  · exact fun _ h => by cases h

/-- A string that can be read in strict mode ends in the text. -/
theorem scanString (hpos : pos'.line + cs.count '\n' = n) :
    Extends more n (scanString true none mark cs pos)
      (scanString true fault mark' (cs ++ '\n' :: more) pos') := by
  unfold SsaCompiler.scanString
  by_cases hend : (SsaCompiler.takeWhile none mark (· ≠ '"') cs pos).cursor.chars = []
  · rintro a h
    obtain ⟨text, cur, heq, h⟩ := Scan.andThen_eq_ok (show _ = Scan.mk (.ok a) _ by rw [← h])
    rw [heq] at hend
    rw [hend] at h
    cases h
  · refine (takeWhile cs hpos (.inr hend)).andThen fun text cur cur' heq hchars hline => ?_
    rw [heq] at hend
    obtain ⟨_ | ⟨c, rest⟩, q, m⟩ := cur
    · exact absurd rfl hend
    · obtain ⟨chars', q', m'⟩ := cur'
      obtain rfl : chars' = _ := hchars
      exact .onward hline fun q hq => .ok _ _ hq

theorem scanSign (hpos : pos'.line + (c :: cs).count '\n' = n) :
    Extends more n (scanSign none mark c cs pos)
      (scanSign fault mark' c (cs ++ '\n' :: more) pos') := by
  refine .onward hpos fun q hq => ?_
  split
  · exact .onward hq fun q hq => .ok _ _ hq
  · next hne =>
    split
    · next hrest => exact (append_ne (by decide) hne _ rfl hrest).elim
    · exact .ok _ _ hq

theorem startsNumber_append (c : Char) (cs more : List Char) :
    startsNumber c (cs ++ '\n' :: more) = startsNumber c cs := by
  cases cs <;> rfl

theorem scanLexeme (ho : o.strict = true) (hpos : pos'.line + (c :: cs).count '\n' = n) :
    Extends more n (scanLexeme o none mark c cs pos)
      (scanLexeme o fault mark' c (cs ++ '\n' :: more) pos') := by
  unfold SsaCompiler.scanLexeme
  rw [startsNumber_append, ho]
  split
  · exact (takeWhile (c :: cs) hpos (.inl (by decide))).map _
  split
  · exact scanNumber (c :: cs) hpos
  split
  · exact .onward hpos fun q hq => scanString hq
  · exact scanSign hpos

end Scan.Extends

/-- Two modes that differ in places only. -/
inductive GapMode.Like : GapMode → GapMode → Prop
  | outside : Like .outside .outside
  | lineComment : Like .lineComment .lineComment
  | blockComment (start start' : Position) : Like (.blockComment start) (.blockComment start')

/-- A gap that leads to a lexeme leads to it in front of a line end too. A gap that leads to the end of
the text goes on behind the line end. -/
def Scan.Crosses (o : LexOptions) (fault : Option Fault) (more : List Char) (n : Nat)
    (s s' : Scan Unit) : Prop :=
  s.outcome = .ok () → (s.cursor.chars ≠ [] ∧ Extends more n s s') ∨
    (s.cursor.chars = [] ∧ ∃ q m, q.line = n ∧
      s' = onward fault m '\n' more q fun p => skipGap o fault .outside more p m)

namespace Scan.Crosses

theorem onward {g g' : Position → Scan Unit} (hpos : pos'.line + (c :: cs).count '\n' = n)
    (hg : ∀ q q', q'.line + cs.count '\n' = n → Crosses o fault more n (g q) (g' q')) :
    Crosses o fault more n (onward none mark c cs pos g)
      (onward fault mark' c (cs ++ '\n' :: more) pos' g') := by
  rw [onward_none, onward_append]
  exact hg _ _ (Position.line_step _ hpos)

theorem stop (hpos : pos'.line + (c :: cs).count '\n' = n) : Crosses o fault more n
    ⟨.ok (), c :: cs, pos, mark⟩ ⟨.ok (), c :: (cs ++ '\n' :: more), pos', mark'⟩ :=
  fun _ => .inl ⟨List.cons_ne_nil c cs, .ok () (c :: cs) hpos⟩

theorem skipGap (ho : o.strict = true) (hn : o.skips '\n' = true) {mode mode' : GapMode}
    (hmode : mode.Like mode') (hpos : pos'.line + cs.count '\n' = n) :
    Crosses o fault more n (skipGap o none mode cs pos mark)
      (skipGap o fault mode' (cs ++ '\n' :: more) pos' mark') := by
  fun_induction SsaCompiler.skipGap o none mode cs pos mark generalizing mode' pos' mark' with
  | case1 start pos mark =>
    intro h
    rw [if_pos ho] at h
    cases h
  | case2 start cs pos mark ih =>
    cases hmode
    exact .onward hpos fun q q' hq => ih q .outside hq
  | case3 start c cs pos mark hclose ih =>
    cases hmode with
    | blockComment _ start' =>
      rw [List.cons_append, skipGap.eq_3 _ _ _ _ _ _ _ (append_ne (by decide) hclose)]
      exact .onward hpos fun q q' hq => ih q (.blockComment start start') hq
  | case4 pos mark =>
    cases hmode
    rw [List.nil_append, skipGap.eq_5, if_pos (.inl rfl), if_pos hn]
    exact fun _ => .inr ⟨rfl, pos', mark', hpos, rfl⟩
  | case5 c cs pos mark hend hskip ih =>
    cases hmode
    rw [List.cons_append, skipGap.eq_5, if_pos hend, if_pos hskip]
    exact .onward hpos fun q q' hq => ih q .outside hq
  | case6 c cs pos mark hend hskip =>
    cases hmode
    rw [List.cons_append, skipGap.eq_5, if_pos hend, if_neg hskip]
    exact .stop hpos
  | case7 c cs pos mark hend ih =>
    cases hmode
    rw [List.cons_append, skipGap.eq_5, if_neg hend]
    exact .onward hpos fun q q' hq => ih q .lineComment hq
  | case8 pos mark =>
    cases hmode
    rw [List.nil_append, skipGap.eq_9 _ _ _ _ _ _ (fun _ h => by cases h) (fun _ h => by cases h),
      if_pos hn]
    exact fun _ => .inr ⟨rfl, pos', mark', hpos, rfl⟩
  | case9 cs pos mark ih =>
    cases hmode
    exact .onward hpos fun q q' hq => ih q .lineComment hq
  | case10 cs pos mark ih =>
    cases hmode
    exact .onward hpos fun q q' hq => ih q (.blockComment pos pos') hq
  | case11 c cs pos mark hline hblock hskip ih =>
    cases hmode
    rw [List.cons_append, skipGap.eq_9 _ _ _ _ _ _ (append_ne (by decide) hline)
      (append_ne (by decide) hblock), if_pos hskip]
    exact .onward hpos fun q q' hq => ih q .outside hq
  | case12 c cs pos mark hline hblock hskip =>
    cases hmode
    rw [List.cons_append, skipGap.eq_9 _ _ _ _ _ _ (append_ne (by decide) hline)
      (append_ne (by decide) hblock), if_neg hskip]
    exact .stop hpos

end Scan.Crosses

end Crossing

section Runs

theorem Scan.andThen_assoc {γ : Type} (s : Scan α) (g : α → Cursor → Scan β)
    (g' : β → Cursor → Scan γ) :
    (s.andThen g).andThen g' = s.andThen fun a cur => (g a cur).andThen g' := by
  obtain ⟨outcome, cur⟩ := s
  cases outcome <;> rfl

theorem Token.ofWord_ne_eof (word : String) : Token.ofWord word ≠ .eof := by
  unfold Token.ofWord
  split <;> simp

theorem signOf_ne_eof (c : Char) : signOf c ≠ .eof := by
  unfold signOf
  repeat' split
  all_goals simp

/-- A lexeme is taken for the end of the text only if the text ends in it, and not in strict mode. -/
theorem scanLexeme_eof {cur : Cursor} (h : scanLexeme o fault mark c cs pos = ⟨.ok .eof, cur⟩) :
    o.strict = false ∧ cur.chars = [] := by
  unfold scanLexeme at h
  split at h
  · have hword := congrArg Scan.outcome h
    unfold scanWord Scan.map at hword
    cases htext : (takeWhile fault mark isWordChar (c :: cs) pos).outcome with
    | ok text =>
      rw [htext] at hword
      exact absurd (Except.ok.inj hword) (Token.ofWord_ne_eof _)
    | error e =>
      rw [htext] at hword
      cases hword
  split at h
  · obtain ⟨text, mid, _, h⟩ := Scan.andThen_eq_ok h
    split at h <;> cases h
  split at h
  · obtain ⟨q, h⟩ := onward_eq_ok h
    obtain ⟨text, mid, _, h⟩ := Scan.andThen_eq_ok h
    split at h
    · next hnil =>
      cases ho : o.strict with
      | true =>
        rw [ho] at h
        cases h
      | false =>
        rw [ho] at h
        cases h
        exact ⟨rfl, hnil⟩
    · obtain ⟨q, h⟩ := onward_eq_ok h
      cases h
  · obtain ⟨q, h⟩ := onward_eq_ok h
    split at h
    · obtain ⟨q, h⟩ := onward_eq_ok h
      cases h
    · exact absurd (Except.ok.inj (Scan.mk.inj h).1) (signOf_ne_eof c)

theorem scanLexeme_ne_eof (ho : o.strict = true) {t : Token} {cur : Cursor}
    (h : scanLexeme o fault mark c cs pos = ⟨.ok t, cur⟩) : t ≠ .eof := by
  rintro rfl
  rw [(scanLexeme_eof h).1] at ho
  cases ho

/-- The lexeme behind a gap, or the end of the text. -/
def lexemeAt (o : LexOptions) (fault : Option Fault) (cur : Cursor) : Scan Token :=
  match cur.chars with
  | [] => ⟨.ok .eof, cur⟩
  | c :: cs => scanLexeme o fault cur.mark c cs cur.pos

theorem Scan.Sinks.lexemeAt (o : LexOptions) (fault : Option Fault) (cur : Cursor) :
    Sinks k (lexemeAt o fault cur) (lexemeAt o fault (cur.down k)) := by
  obtain ⟨_ | ⟨c, cs⟩, q, m⟩ := cur
  · exact .ok _ _
  · exact .scanLexeme c cs

namespace Lexer

variable {lx lx' : Lexer} {t : Token} {ts : List Token} {e : LexError} {cur : Cursor}

/-- The lexer behind a token. -/
def behind (lx : Lexer) (t : Token) (cur : Cursor) : Lexer :=
  { lx with cursor := cur, started := true, token := t }

theorem advance_of_scan (h : lx.scan = ⟨.ok t, cur⟩) : lx.advance = (.ok t, lx.behind t cur) := by
  unfold advance
  rw [h]
  rfl

theorem advance_failed (h : lx.scan = ⟨.error e, cur⟩) :
    lx.advance = (.error e, { lx with cursor := cur, started := true }) := by
  unfold advance
  rw [h]

theorem tokens_failed (h : lx.scan = ⟨.error e, cur⟩) : lx.tokens = .error e := by
  unfold tokens
  rw [run_of_error (advance_failed h)]

theorem tokens_ended (h : lx.scan = ⟨.ok .eof, cur⟩) : lx.tokens = .ok [] := by
  unfold tokens
  rw [run_of_ok (advance_of_scan h), if_pos rfl]
  rfl

theorem tokens_onward (h : lx.scan = ⟨.ok t, cur⟩) (ht : t ≠ .eof) :
    lx.tokens = (lx.behind t cur).tokens.map (t :: ·) := by
  unfold tokens
  rw [run_of_ok (advance_of_scan h), if_neg ht]
  dsimp only
  cases (lx.behind t cur).run.error with
  | none => rfl
  | some e => rfl

/-- The text entered, if it has not been before. -/
def entered (lx : Lexer) : Scan Unit :=
  if lx.started then ⟨.ok (), lx.cursor⟩ else enter lx.fault lx.cursor

theorem scan_eq (lx : Lexer) : lx.scan = lx.entered.andThen fun _ cur =>
    (skipGap lx.options lx.fault .outside cur.chars cur.pos cur.mark).andThen fun _ cur =>
      lexemeAt lx.options lx.fault cur := rfl

/-- Lexers that scan the same, one some lines further down, read the same tokens. -/
theorem tokens_sink (ho : lx.options.strict = true) (hoptions : lx'.options = lx.options)
    (hfault : lx'.fault = lx.fault) (h : Scan.Sinks k lx.scan lx'.scan) :
    lx'.tokens = lx.tokens.mapError (·.down k) := by
  induction hlen : lx.cursor.chars.length using Nat.strongRecOn generalizing lx lx' with
  | _ len ih =>
    obtain ⟨houtcome, hcursor⟩ := h
    cases hscan : lx.scan with
    | mk outcome cur =>
    cases hscan' : lx'.scan with
    | mk outcome' cur' =>
    rw [hscan, hscan'] at houtcome hcursor
    obtain rfl : outcome' = _ := houtcome
    cases outcome with
    | error e =>
      rw [tokens_failed hscan, tokens_failed hscan']
      rfl
    | ok t =>
      obtain rfl : cur' = cur.down k := hcursor t rfl
      by_cases ht : t = .eof
      · subst ht
        rw [tokens_ended hscan, tokens_ended hscan']
        rfl
      have hlt : (lx.behind t cur).cursor.chars.length < len :=
        hlen ▸ advance_length_lt (advance_of_scan hscan) ht
      have hsink : Scan.Sinks k (lx.behind t cur).scan (lx'.behind t (cur.down k)).scan := by
        unfold scan behind
        rw [hoptions, hfault]
        exact (Scan.Sinks.skipGap ho .outside _ _ _ _).andThen fun _ cur _ => .lexemeAt _ _ cur
      have hrest : (lx'.behind t (cur.down k)).tokens = (lx.behind t cur).tokens.mapError (·.down k) :=
        ih _ hlt ho hoptions hfault hsink rfl
      rw [tokens_onward hscan ht, tokens_onward hscan' ht, hrest]
      cases (lx.behind t cur).tokens with
      | ok ts => rfl
      | error e => rfl

/-- How a token is scanned: behind a gap there is a lexeme, if it is not the end of the text. -/
theorem scan_eq_ok (h : lx.scan = ⟨.ok t, cur⟩) : ∃ c1 c2, lx.entered = ⟨.ok (), c1⟩ ∧
    skipGap lx.options lx.fault .outside c1.chars c1.pos c1.mark = ⟨.ok (), c2⟩ ∧
      ((c2.chars = [] ∧ t = .eof) ∨ ∃ c cs, c2.chars = c :: cs ∧
        scanLexeme lx.options lx.fault c2.mark c cs c2.pos = ⟨.ok t, cur⟩) := by
  obtain ⟨_, c1, h1, h⟩ := Scan.andThen_eq_ok h
  obtain ⟨_, c2, h2, h⟩ := Scan.andThen_eq_ok h
  refine ⟨c1, c2, h1, h2, ?_⟩
  split at h
  · next hnil =>
    cases h
    exact .inl ⟨hnil, rfl⟩
  · next c cs hcs => exact .inr ⟨c, cs, hcs, h⟩

/-- In front of a fault the lexer does not get to the end of the text, so it gets to the fault. -/
theorem tokens_faulted {f : Fault} (ho : lx.options.strict = true) (hfault : lx.fault = some f)
    (h : lx.entered.Stays) : lx.tokens ≠ .ok ts := by
  induction hlen : lx.cursor.chars.length using Nat.strongRecOn generalizing lx ts with
  | _ len ih =>
    cases hscan : lx.scan with
    | mk outcome cur =>
    cases outcome with
    | error e =>
      rw [tokens_failed hscan]
      simp
    | ok t =>
      obtain ⟨c1, c2, h1, h2, hend⟩ := scan_eq_ok hscan
      rw [h1] at h
      rw [hfault] at h2 hend
      have hgap : Scan.Stays (skipGap lx.options (some f) .outside c1.chars c1.pos c1.mark) :=
        .skipGap .outside (h () rfl)
      rw [h2] at hgap
      obtain ⟨hnil, _⟩ | ⟨c, cs, hcs, hlexeme⟩ := hend
      · exact absurd hnil (hgap () rfl)
      have ht := scanLexeme_ne_eof ho hlexeme
      have hlt : (lx.behind t cur).cursor.chars.length < len :=
        hlen ▸ advance_length_lt (advance_of_scan hscan) ht
      have hcur : Scan.Stays (scanLexeme lx.options (some f) c2.mark c cs c2.pos) := .scanLexeme c cs
      rw [hlexeme] at hcur
      have hentered : (lx.behind t cur).entered.Stays := fun _ _ => hcur t rfl
      have hne : ∀ us, (lx.behind t cur).tokens ≠ .ok us := fun us =>
        ih _ hlt ho hfault hentered rfl
      rw [tokens_onward hscan ht]
      cases htokens : (lx.behind t cur).tokens with
      | ok us => exact absurd htokens (hne us)
      | error e => exact fun h => by cases h

theorem stays_ofSource {f : Fault} : (ofSource ⟨cs, some f⟩ o).entered.Stays := by
  show (enter (some f) ⟨cs, .start, .unset⟩).Stays
  cases cs with
  | nil => exact fun _ h => by cases h
  | cons c cs =>
    simp only [enter]
    split
    · exact .onward fun hcs q _ _ => hcs
    · exact fun _ _ => List.cons_ne_nil c cs

/-- The second lexer has the text of the first one left, and behind it a line end, on line `n`, and
more. -/
structure Fronts (more : List Char) (n : Nat) (lx lx' : Lexer) : Prop where
  options : lx'.options = lx.options
  strict : lx.options.strict = true
  newline : lx.options.skips '\n' = true
  faultless : lx.fault = none
  entered : Scan.Extends more n lx.entered lx'.entered

/-- Behind a line end a text is read as if it began there. -/
theorem sinks_newline (fault : Option Fault) (mark : Position) (ho : o.strict = true)
    (hmore : more.head? ≠ some Source.byteOrderMark) {q : Position} (hq : q.line = n) :
    Scan.Sinks n
      ((enter fault ⟨more, .start, .unset⟩).andThen fun _ cur =>
        skipGap o fault .outside cur.chars cur.pos cur.mark)
      (onward fault mark '\n' more q fun p => skipGap o fault .outside more p mark) := by
  subst hq
  have hpast : q.past '\n' = Position.start.down q.line := by
    simp [Position.past, Position.down, Position.start, Nat.add_comm]
  cases more with
  | nil =>
    cases fault with
    | none =>
      rw [onward_none, Position.step, List.isEmpty_nil, if_pos rfl, hpast]
      exact .skipGap ho .outside _ _ _ _
    | some f =>
      refine ⟨?_, fun _ h => by cases h⟩
      show Except.error _ = Except.error _
      rw [hpast]
      rfl
  | cons c cs =>
    have hc : c ≠ Source.byteOrderMark := fun h => hmore (congrArg some h)
    have hright : q.step '\n' (c :: cs) = Position.start.right.down q.line := by
      rw [Position.step, List.isEmpty_cons, if_neg (by decide), hpast]
      rfl
    have henter : enter fault ⟨c :: cs, .start, .unset⟩ =
        ⟨.ok (), c :: cs, Position.start.right, .unset⟩ := by
      simp [enter, hc]
    have honward : onward fault mark '\n' (c :: cs) q
        (fun p => skipGap o fault .outside (c :: cs) p mark) =
          skipGap o fault .outside (c :: cs) (q.step '\n' (c :: cs)) mark := rfl
    rw [henter, honward, hright]
    exact .skipGap ho .outside _ _ _ _

/-- A token in front of the line end is scanned in the longer text too. At the end of the shorter one
the lexer is where it would begin with what stands behind the line end. -/
theorem Fronts.scan (h : Fronts more n lx lx') (hmore : more.head? ≠ some Source.byteOrderMark)
    (hscan : lx.scan = ⟨.ok t, cur⟩) :
    (t = .eof ∧ Scan.Sinks n (ofSource ⟨more, lx'.fault⟩ lx'.options).scan lx'.scan) ∨
      (t ≠ .eof ∧ ∃ cur', lx'.scan = ⟨.ok t, cur'⟩ ∧
        Fronts more n (lx.behind t cur) (lx'.behind t cur')) := by
  obtain ⟨c1, c2, h1, h2, hend⟩ := scan_eq_ok hscan
  obtain ⟨c1', h1', hchars, hline⟩ := h.entered.eq_ok h1
  have hcross : Scan.Crosses lx.options lx'.fault more n
      (skipGap lx.options none .outside c1.chars c1.pos c1.mark)
      (skipGap lx.options lx'.fault .outside (c1.chars ++ '\n' :: more) c1'.pos c1'.mark) :=
    .skipGap h.strict h.newline .outside hline
  rw [← hchars, ← h.faultless, h2] at hcross
  rw [scan_eq lx', h1', h.options]
  obtain ⟨hne, hgap⟩ | ⟨hnil, q, m, hq, hgap⟩ := hcross rfl
  · obtain ⟨hnil, _⟩ | ⟨c, cs, hcs, hlexeme⟩ := hend
    · exact absurd hnil hne
    obtain ⟨⟨chars2', pos2', mark2'⟩, h2', hchars2, hline2⟩ := hgap.eq_ok rfl
    rw [hcs] at hchars2 hline2
    obtain rfl : chars2' = c :: (cs ++ '\n' :: more) := hchars2
    rw [h.faultless] at hlexeme
    have hextends : Scan.Extends more n (scanLexeme lx.options none c2.mark c cs c2.pos)
        (scanLexeme lx.options lx'.fault mark2' c (cs ++ '\n' :: more) pos2') :=
      .scanLexeme h.strict hline2
    obtain ⟨cur', h3', hchars3, hline3⟩ := hextends.eq_ok hlexeme
    refine .inr ⟨scanLexeme_ne_eof h.strict hlexeme, cur', ?_, h.options, h.strict, h.newline,
      h.faultless, ?_⟩
    · simp only [Scan.andThen, h2']
      exact h3'
    · rintro _ ⟨⟩
      exact ⟨rfl, hchars3, hline3⟩
  · refine .inl ⟨?_, ?_⟩
    · obtain ⟨_, ht⟩ | ⟨c, cs, hcs, _⟩ := hend
      · exact ht
      · rw [hnil] at hcs
        cases hcs
    · have hsinks := (sinks_newline lx'.fault m h.strict hmore hq).andThen
        fun _ cur _ => .lexemeAt lx.options lx'.fault cur
      rw [← hgap, Scan.andThen_assoc] at hsinks
      exact hsinks

/-- The lexer reads the tokens in front of the line end and then those behind it. -/
theorem Fronts.tokens (h : Fronts more n lx lx') (hmore : more.head? ≠ some Source.byteOrderMark)
    (hts : lx.tokens = .ok ts) : lx'.tokens =
      ((ofSource ⟨more, lx'.fault⟩ lx'.options).tokens.mapError (·.down n)).map (ts ++ ·) := by
  induction hlen : lx.cursor.chars.length using Nat.strongRecOn generalizing lx lx' ts with
  | _ len ih =>
    cases hscan : lx.scan with
    | mk outcome cur =>
    cases outcome with
    | error e =>
      rw [tokens_failed hscan] at hts
      cases hts
    | ok t =>
      obtain ⟨rfl, hsinks⟩ | ⟨ht, cur', hscan', hnext⟩ := h.scan hmore hscan
      · rw [tokens_ended hscan] at hts
        cases hts
        have hstrict : lx'.options.strict = true := h.options ▸ h.strict
        have htokens : lx'.tokens =
            (ofSource ⟨more, lx'.fault⟩ lx'.options).tokens.mapError (·.down n) :=
          tokens_sink hstrict rfl rfl hsinks
        rw [htokens]
        cases ((ofSource ⟨more, lx'.fault⟩ lx'.options).tokens.mapError (·.down n)) with
        | ok us => rfl
        | error e => rfl
      · have hlt : (lx.behind t cur).cursor.chars.length < len :=
          hlen ▸ advance_length_lt (advance_of_scan hscan) ht
        rw [tokens_onward hscan ht] at hts
        cases hrest : (lx.behind t cur).tokens with
        | error e =>
          rw [hrest] at hts
          cases hts
        | ok us =>
          rw [hrest] at hts
          cases hts
          rw [tokens_onward hscan' ht, ih _ hlt hnext hrest rfl]
          show Except.map _ (Except.map _ ((ofSource ⟨more, lx'.fault⟩ lx'.options).tokens.mapError _)) = _
          cases ((ofSource ⟨more, lx'.fault⟩ lx'.options).tokens.mapError (·.down n)) with
          | ok us => rfl
          | error e => rfl

/-- Before anything is read, the lexer is in front of the line end. -/
theorem fronts_ofSource (fault : Option Fault) (ho : o.strict = true) (hn : o.skips '\n' = true) :
    Fronts more (1 + cs.count '\n') (ofSource ⟨cs, none⟩ o)
      (ofSource ⟨cs ++ '\n' :: more, fault⟩ o) := by
  refine ⟨rfl, ho, hn, rfl, ?_⟩
  show Scan.Extends more _ (enter none ⟨cs, .start, .unset⟩)
    (enter fault ⟨cs ++ '\n' :: more, .start, .unset⟩)
  cases cs with
  | nil =>
    rintro _ ⟨⟩
    exact ⟨rfl, rfl, rfl⟩
  | cons c cs =>
    simp only [enter, List.cons_append]
    split
    · exact .onward rfl fun q hq => .ok () _ hq
    · exact .ok () (c :: cs) rfl

/-- A line end separates texts. If the tokens of a text can be read, then in front of a line end and
another text, one that does not begin with a byte order mark, they are read first. The tokens of the
other text follow, or its error, on the line that it has in the whole. -/
theorem tokens_append_newline (a b : List UInt8) (ts : List Token)
    (ha : (ofSource (.ofBytes a) { strict := true }).tokens = .ok ts)
    (hb : ¬ String.utf8EncodeChar Source.byteOrderMark <+: b) :
    (∀ us, (ofSource (.ofBytes b) { strict := true }).tokens = .ok us →
      (ofSource (.ofBytes (a ++ 10 :: b)) { strict := true }).tokens = .ok (ts ++ us)) ∧
    ∀ e, (ofSource (.ofBytes b) { strict := true }).tokens = .error e →
      (ofSource (.ofBytes (a ++ 10 :: b)) { strict := true }).tokens =
        .error ⟨e.cause, e.pos.line + 1 + a.count 10, e.pos.col⟩ := by
  -- The first text is read to its end, so it has no fault.
  obtain ⟨cs, hcs⟩ : ∃ cs, Source.ofBytes a = ⟨cs, none⟩ := by
    cases hsource : Source.ofBytes a with
    | mk cs fault =>
      cases fault with
      | none => exact ⟨cs, rfl⟩
      | some f =>
        rw [hsource] at ha
        exact absurd ha (tokens_faulted rfl rfl stays_ofSource)
  obtain ⟨hwhole, hcount⟩ := Source.readFrom_line hcs b
  have hbytes : Source.ofBytes b = Source.readFrom false 0 b := Source.readFrom_first hb
  have hhead : (Source.ofBytes b).chars.head? ≠ some Source.byteOrderMark := by
    rw [hbytes]
    cases hchars : (Source.readFrom false 0 b).chars with
    | nil => simp
    | cons c cs => exact fun h => Source.head_readFrom hchars (Option.some.inj h)
  rw [← hbytes] at hwhole
  rw [hcs] at ha
  have htokens := (fronts_ofSource (Source.ofBytes b).fault rfl rfl).tokens hhead ha
  have happend : (ofSource (.ofBytes (a ++ 10 :: b)) { strict := true }).tokens =
      ((ofSource (.ofBytes b) { strict := true }).tokens.mapError
        (·.down (1 + cs.count '\n'))).map (ts ++ ·) := by
    rw [Source.ofBytes, hwhole]
    exact htokens
  rw [happend]
  refine ⟨?_, ?_⟩
  · intro us hus
    rw [hus]
    rfl
  · intro e he
    rw [he, hcount, Nat.add_assoc]
    rfl

/-- A text that ends in a line comment and one with a string that is not closed. -/
theorem tokens_append_newline_comment :
    (ofSource (.ofBytes "f = // g".toUTF8.data.toList) { strict := true }).tokens =
        .ok [.identifier "f", .assign] ∧
      (ofSource (.ofBytes "= 7\n  \"g".toUTF8.data.toList) { strict := true }).tokens =
        .error ⟨.unterminatedString, 2, 3⟩ ∧
      (ofSource (.ofBytes ("f = // g".toUTF8.data.toList ++ 10 :: "= 7\n  \"g".toUTF8.data.toList))
        { strict := true }).tokens = .error ⟨.unterminatedString, 3, 3⟩ := by
  have ha : (ofSource (.ofBytes "f = // g".toUTF8.data.toList) { strict := true }).tokens =
      .ok [.identifier "f", .assign] := by decide +kernel
  have hb : (ofSource (.ofBytes "= 7\n  \"g".toUTF8.data.toList) { strict := true }).tokens =
      .error ⟨.unterminatedString, 2, 3⟩ := by decide +kernel
  exact ⟨ha, hb, (tokens_append_newline _ _ _ ha (by decide)).2 _ hb⟩

end Lexer

end Runs

end SsaCompiler
