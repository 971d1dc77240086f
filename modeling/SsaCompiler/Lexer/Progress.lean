import SsaCompiler.Lexer.Advance

/-!
Scanning makes progress: no scan lengthens the text, and a token other than the end of input takes
at least one character. So a text has finitely many tokens.
-/
namespace SsaCompiler

theorem onward_length_le {α : Type} {fault : Option Fault} {mark pos : Position} {c : Char}
    {rest : List Char} {k : Position → Scan α}
    (h : ∀ p, (k p).cursor.chars.length ≤ rest.length + 1) :
    (onward fault mark c rest pos k).cursor.chars.length ≤ rest.length + 1 := by
  unfold onward
  split
  · simp
  · exact h _

theorem takeWhile_length_le (fault : Option Fault) (mark : Position) (p : Char → Bool)
    (cs : List Char) (pos : Position) :
    (takeWhile fault mark p cs pos).cursor.chars.length ≤ cs.length := by
  induction cs generalizing pos with
  | nil => simp [takeWhile]
  | cons c cs ih =>
    unfold takeWhile
    split
    · exact onward_length_le fun q => Nat.le_succ_of_le (ih q)
    · simp

theorem takeNumber_length_le (fault : Option Fault) (mark : Position) (taken cs : List Char)
    (pos : Position) : (takeNumber fault mark taken cs pos).cursor.chars.length ≤ cs.length := by
  induction cs generalizing pos taken with
  | nil => simp [takeNumber]
  | cons c cs ih =>
    unfold takeNumber
    split
    · simp
    · split
      · exact onward_length_le fun q => Nat.le_succ_of_le (ih (c :: taken) q)
      · simp

theorem skipGap_length_le (o : LexOptions) (fault : Option Fault) (mode : GapMode)
    (cs : List Char) (pos mark : Position) :
    (skipGap o fault mode cs pos mark).cursor.chars.length ≤ cs.length := by
  fun_induction skipGap o fault mode cs pos mark with
  | case1 => simp
  | case2 start cs pos mark ih =>
    exact Nat.le_succ_of_le (onward_length_le fun q => Nat.le_succ_of_le (ih q))
  | case3 start c cs pos mark _ ih => exact onward_length_le fun q => Nat.le_succ_of_le (ih q)
  | case4 => simp
  | case5 c cs pos mark _ _ ih => exact onward_length_le fun q => Nat.le_succ_of_le (ih q)
  | case6 => simp
  | case7 c cs pos mark _ ih => exact onward_length_le fun q => Nat.le_succ_of_le (ih q)
  | case8 => simp
  | case9 cs pos mark ih =>
    exact Nat.le_succ_of_le (onward_length_le fun q => Nat.le_succ_of_le (ih q))
  | case10 cs pos mark ih =>
    exact Nat.le_succ_of_le (onward_length_le fun q => Nat.le_succ_of_le (ih q))
  | case11 c cs pos mark _ _ _ ih => exact onward_length_le fun q => Nat.le_succ_of_le (ih q)
  | case12 => simp

/-- A step that succeeds has gone on behind its character. -/
theorem onward_eq_ok {α : Type} {fault : Option Fault} {mark pos : Position} {c : Char}
    {rest : List Char} {k : Position → Scan α} {a : α} {cur : Cursor}
    (h : onward fault mark c rest pos k = ⟨.ok a, cur⟩) : ∃ p, k p = ⟨.ok a, cur⟩ := by
  unfold onward at h
  split at h
  · simp at h
  · exact ⟨_, h⟩

theorem Scan.andThen_eq_ok {α β : Type} {s : Scan α} {k : α → Cursor → Scan β} {b : β}
    {cur : Cursor} (h : s.andThen k = ⟨.ok b, cur⟩) :
    ∃ a mid, s = ⟨.ok a, mid⟩ ∧ k a mid = ⟨.ok b, cur⟩ := by
  obtain ⟨r, mid⟩ := s
  cases r with
  | ok a => exact ⟨a, mid, rfl, h⟩
  | error e => simp [Scan.andThen] at h

theorem Scan.map_eq_ok {α β : Type} {s : Scan α} {f : α → β} {b : β} {cur : Cursor}
    (h : s.map f = ⟨.ok b, cur⟩) : ∃ a, s = ⟨.ok a, cur⟩ := by
  obtain ⟨r, mid⟩ := s
  cases r with
  | ok a => exact ⟨a, congrArg (Scan.mk _) (Scan.mk.inj h).2⟩
  | error e => simp [Scan.map, Except.map] at h

theorem takeWhile_ok_length {fault : Option Fault} {mark pos : Position} {p : Char → Bool}
    {c : Char} {cs text : List Char} {cur : Cursor} (hp : p c = true)
    (h : takeWhile fault mark p (c :: cs) pos = ⟨.ok text, cur⟩) :
    cur.chars.length ≤ cs.length := by
  unfold takeWhile at h
  rw [if_pos hp] at h
  obtain ⟨q, hq⟩ := onward_eq_ok h
  obtain ⟨_, hq⟩ := Scan.map_eq_ok hq
  have hlen := takeWhile_length_le fault mark p cs q
  rwa [hq] at hlen

theorem takeNumber_ok_length {fault : Option Fault} {mark pos : Position} {c : Char}
    {cs text : List Char} {cur : Cursor} (hc : c = '.' ∨ c.isDigit = true)
    (h : takeNumber fault mark [] (c :: cs) pos = ⟨.ok text, cur⟩) :
    cur.chars.length ≤ cs.length := by
  unfold takeNumber at h
  rw [if_neg (by simp), if_pos hc] at h
  obtain ⟨q, hq⟩ := onward_eq_ok h
  have hlen := takeNumber_length_le fault mark [c] cs q
  rwa [hq] at hlen

theorem scanString_ok_length {strict : Bool} {fault : Option Fault} {mark pos : Position}
    {cs : List Char} {t : Token} {cur : Cursor}
    (h : scanString strict fault mark cs pos = ⟨.ok t, cur⟩) : cur.chars.length ≤ cs.length := by
  obtain ⟨text, mid, hmid, h⟩ := Scan.andThen_eq_ok h
  have hlen := takeWhile_length_le fault mark (· ≠ '"') cs pos
  rw [hmid] at hlen
  split at h
  · obtain rfl := (Scan.mk.inj h).2
    exact hlen
  · next c rest hrest =>
    obtain ⟨q, hq⟩ := onward_eq_ok h
    obtain rfl := (Scan.mk.inj hq).2
    simp only [hrest, List.length_cons] at hlen
    exact Nat.le_of_succ_le hlen

theorem scanSign_ok_length {fault : Option Fault} {mark pos : Position} {c : Char}
    {cs : List Char} {t : Token} {cur : Cursor}
    (h : scanSign fault mark c cs pos = ⟨.ok t, cur⟩) : cur.chars.length ≤ cs.length := by
  obtain ⟨q, hq⟩ := onward_eq_ok h
  split at hq
  · obtain ⟨r, hr⟩ := onward_eq_ok hq
    obtain rfl := (Scan.mk.inj hr).2
    simp
  · obtain rfl := (Scan.mk.inj hq).2
    exact Nat.le_refl _

/-- A lexeme takes at least its first character. -/
theorem scanLexeme_ok_length {o : LexOptions} {fault : Option Fault} {mark pos : Position}
    {c : Char} {cs : List Char} {t : Token} {cur : Cursor}
    (h : scanLexeme o fault mark c cs pos = ⟨.ok t, cur⟩) : cur.chars.length ≤ cs.length := by
  unfold scanLexeme at h
  split at h
  · next ha =>
    obtain ⟨word, hw⟩ := Scan.map_eq_ok h
    exact takeWhile_ok_length (by simp [isWordChar, ha]) hw
  · split at h
    · next hn =>
      obtain ⟨text, mid, hmid, h⟩ := Scan.andThen_eq_ok h
      have hc : c = '.' ∨ c.isDigit = true := by
        simp only [startsNumber, Bool.or_eq_true, Bool.and_eq_true, decide_eq_true_eq] at hn
        exact hn.symm.imp And.left id
      have hlen := takeNumber_ok_length hc hmid
      split at h
      · obtain rfl := (Scan.mk.inj h).2
        exact hlen
      · simp at h
    · split at h
      · obtain ⟨q, hq⟩ := onward_eq_ok h
        exact scanString_ok_length hq
      · exact scanSign_ok_length h

theorem Lexer.enter_length_le (fault : Option Fault) (cur : Cursor) :
    (Lexer.enter fault cur).cursor.chars.length ≤ cur.chars.length := by
  unfold Lexer.enter
  split
  · exact Nat.le_refl _
  · simp
  · next hcs =>
    rw [hcs]
    split
    · exact onward_length_le fun q => by simp
    · simp

/-- A token other than the end of input shortens the text. -/
theorem Lexer.advance_length_lt {lx next : Lexer} {t : Token} (h : lx.advance = (.ok t, next))
    (ht : t ≠ .eof) : next.cursor.chars.length < lx.cursor.chars.length := by
  unfold Lexer.advance at h
  split at h
  · next t cur hscan =>
    simp only [Prod.mk.injEq, Except.ok.injEq] at h
    obtain ⟨rfl, rfl⟩ := h
    unfold Lexer.scan at hscan
    obtain ⟨_, c1, h1, hscan⟩ := Scan.andThen_eq_ok hscan
    obtain ⟨_, c2, h2, hscan⟩ := Scan.andThen_eq_ok hscan
    have hle1 : c1.chars.length ≤ lx.cursor.chars.length := by
      split at h1
      · obtain rfl := (Scan.mk.inj h1).2
        exact Nat.le_refl _
      · have hlen := Lexer.enter_length_le lx.fault lx.cursor
        rwa [h1] at hlen
    have hle2 := skipGap_length_le lx.options lx.fault .outside c1.chars c1.pos c1.mark
    rw [h2] at hle2
    split at hscan
    · exact absurd (Except.ok.inj (Scan.mk.inj hscan).1).symm ht
    · next c cs hcs =>
      have hlt := scanLexeme_ok_length hscan
      simp only [hcs, List.length_cons] at hle2
      simp only
      omega
  · simp at h

end SsaCompiler
