import SsaCompiler.Proofs.Reading.Composition
import SsaCompiler.Proofs.Reading.Tracking

/-!
Strict and lenient lexers. A strict lexer refuses a text that ends inside a string or a block comment,
and a lenient one takes this for the end of the text. Up to there both read the same tokens, and they
fail for any other reason with the same error at the same place.
-/
namespace SsaCompiler

/-- The text ended inside a string or a block comment. -/
def LexCause.Unterminated (cause : LexCause) : Prop :=
  cause = .unterminatedComment ∨ cause = .unterminatedString

instance (cause : LexCause) : Decidable cause.Unterminated := inferInstanceAs (Decidable (_ ∨ _))

/-- How the scan of a lenient lexer compares with that of a strict one: it is the same, or it ends with
the text, giving `stop`, where the strict one misses the end of a string or a comment. -/
inductive Scan.Relaxes {α : Type} (stop : Option α) : Scan α → Scan α → Prop
  | ok (a : α) (cur : Cursor) : Relaxes stop ⟨.ok a, cur⟩ ⟨.ok a, cur⟩
  | error {e : LexError} (cur : Cursor) (he : ¬ e.cause.Unterminated) :
    Relaxes stop ⟨.error e, cur⟩ ⟨.error e, cur⟩
  | ended {a : α} {e : LexError} {cur : Cursor} (ha : stop = some a) (he : e.cause.Unterminated)
    (hcur : cur.chars = []) : Relaxes stop ⟨.ok a, cur⟩ ⟨.error e, cur⟩

namespace Scan.Relaxes

variable {α β : Type} {stop : Option α} {s s' : Scan α} {fault : Option Fault} {mark pos : Position}
  {c : Char} {cs : List Char} {o : LexOptions}

theorem onward {k k' : Position → Scan α} (h : ∀ q, Relaxes stop (k q) (k' q)) :
    Relaxes stop (onward fault mark c cs pos k) (onward fault mark c cs pos k') := by
  unfold SsaCompiler.onward
  split
  · exact .error _ (by simp [LexCause.Unterminated])
  · exact h _

theorem map (h : Relaxes stop s s') (f : α → β) : Relaxes (stop.map f) (s.map f) (s'.map f) := by
  cases h with
  | ok a cur => exact .ok _ _
  | error cur he => exact .error _ he
  | ended ha he hcur => exact .ended (by rw [ha, Option.map_some]) he hcur

theorem weaken (h : Relaxes none s s') : Relaxes stop s s' := by
  cases h with
  | ok a cur => exact .ok _ _
  | error cur he => exact .error _ he
  | ended ha => cases ha

/-- Where a scan has ended with the text, so does what follows it. -/
theorem andThen {stop' : Option β} {k k' : α → Cursor → Scan β} (h : Relaxes stop s s')
    (hk : ∀ a cur, Relaxes stop' (k a cur) (k' a cur))
    (hstop : ∀ a, stop = some a → ∃ b, stop' = some b ∧
      ∀ cur : Cursor, cur.chars = [] → k a cur = ⟨.ok b, cur⟩) :
    Relaxes stop' (s.andThen k) (s'.andThen k') := by
  cases h with
  | ok a cur => exact hk a cur
  | error cur he => exact .error _ he
  | @ended a e cur ha he hcur =>
    obtain ⟨b, hb, hk⟩ := hstop a ha
    rw [show Scan.andThen ⟨.ok a, cur⟩ k = ⟨.ok b, cur⟩ from hk cur hcur]
    exact .ended hb he hcur

theorem takeWhile (p : Char → Bool) (cs : List Char) :
    Relaxes none (takeWhile fault mark p cs pos) (takeWhile fault mark p cs pos) := by
  induction cs generalizing pos with
  | nil => exact .ok _ _
  | cons c cs ih =>
    unfold SsaCompiler.takeWhile
    split
    · exact .onward fun q => ih.map _
    · exact .ok _ _

theorem takeNumber (taken cs : List Char) :
    Relaxes none (takeNumber fault mark taken cs pos) (takeNumber fault mark taken cs pos) := by
  induction cs generalizing pos taken with
  | nil => exact .ok _ _
  | cons c cs ih =>
    unfold SsaCompiler.takeNumber
    split
    · exact .error _ (by simp [LexCause.Unterminated])
    split
    · exact .onward fun q => ih _
    · exact .ok _ _

theorem skipGap (mode : GapMode) (cs : List Char) (pos mark : Position) :
    Relaxes (some ()) (skipGap { o with strict := false } fault mode cs pos mark)
      (skipGap { o with strict := true } fault mode cs pos mark) := by
  have hskips : { o with strict := false }.skips = { o with strict := true }.skips := rfl
  fun_induction SsaCompiler.skipGap { o with strict := true } fault mode cs pos mark with
  | case1 start pos mark => exact .ended rfl (.inl rfl) rfl
  | case2 start cs pos mark ih => exact .onward ih
  | case3 start c cs pos mark hopen ih =>
    rw [skipGap.eq_3 _ _ _ _ _ _ _ hopen]
    exact .onward ih
  | case4 pos mark => exact .ok _ _
  | case5 c cs pos mark hend hskip ih =>
    rw [skipGap.eq_5, if_pos hend, hskips, if_pos hskip]
    exact .onward ih
  | case6 c cs pos mark hend hskip =>
    rw [skipGap.eq_5, if_pos hend, hskips, if_neg hskip]
    exact .ok _ _
  | case7 c cs pos mark hend ih =>
    rw [skipGap.eq_5, if_neg hend]
    exact .onward ih
  | case8 pos mark => exact .ok _ _
  | case9 cs pos mark ih => exact .onward ih
  | case10 cs pos mark ih => exact .onward ih
  | case11 c cs pos mark hline hblock hskip ih =>
    rw [skipGap.eq_9 _ _ _ _ _ _ hline hblock, hskips, if_pos hskip]
    exact .onward ih
  | case12 c cs pos mark hline hblock hskip =>
    rw [skipGap.eq_9 _ _ _ _ _ _ hline hblock, hskips, if_neg hskip]
    exact .ok _ _

theorem scanNumber (cs : List Char) :
    Relaxes (some .eof) (scanNumber fault mark cs pos) (scanNumber fault mark cs pos) := by
  refine (takeNumber [] cs).andThen (fun text cur => ?_) (by simp)
  split
  · exact .ok _ _
  · exact .error _ (by simp [LexCause.Unterminated])

theorem scanString (cs : List Char) :
    Relaxes (some .eof) (scanString false fault mark cs pos) (scanString true fault mark cs pos) := by
  refine (takeWhile _ cs).andThen (fun text cur => ?_) (by simp)
  obtain ⟨_ | ⟨c, rest⟩, q, m⟩ := cur
  · exact .ended rfl (.inr rfl) rfl
  · exact .onward fun q => .ok _ _

theorem scanSign (c : Char) (cs : List Char) :
    Relaxes (some .eof) (scanSign fault mark c cs pos) (scanSign fault mark c cs pos) := by
  refine .onward fun q => ?_
  split
  · exact .onward fun q => .ok _ _
  · exact .ok _ _

theorem lexemeAt (cur : Cursor) : Relaxes (some .eof)
    (lexemeAt { o with strict := false } fault cur) (lexemeAt { o with strict := true } fault cur) := by
  obtain ⟨_ | ⟨c, cs⟩, pos, mark⟩ := cur
  · exact .ok _ _
  unfold SsaCompiler.lexemeAt scanLexeme
  dsimp only
  split
  · exact ((takeWhile isWordChar (c :: cs)).map _).weaken
  split
  · exact scanNumber _
  split
  · exact .onward fun q => scanString cs
  · exact scanSign c cs

end Scan.Relaxes

namespace Lexer

/-- The lexer with another strictness. -/
def demanding (strict : Bool) (lx : Lexer) : Lexer :=
  { lx with options := { lx.options with strict } }

theorem scan_relaxes (lx : Lexer) :
    Scan.Relaxes (some .eof) (lx.demanding false).scan (lx.demanding true).scan := by
  have hentered : Scan.Relaxes none lx.entered lx.entered := by
    unfold entered enter
    split
    · exact .ok _ _
    split
    · exact .ok _ _
    · exact .error _ (by simp [LexCause.Unterminated])
    · split
      · exact .onward fun q => .ok _ _
      · exact .ok _ _
  rw [scan_eq, scan_eq]
  refine hentered.andThen (fun _ cur => ?_) (by simp)
  refine (Scan.Relaxes.skipGap .outside _ _ _).andThen (fun _ cur => .lexemeAt cur) fun _ _ => ?_
  refine ⟨.eof, rfl, fun cur hcur => ?_⟩
  unfold lexemeAt
  rw [hcur]

/-- Both lexers read the same tokens, and a lenient one takes the end of the text as it is. -/
theorem run_relaxes (lx : Lexer) :
    (lx.demanding false).run.tokens = (lx.demanding true).run.tokens ∧
    (lx.demanding false).run.error =
      (lx.demanding true).run.error.filter fun e => ¬ e.cause.Unterminated := by
  induction hlen : lx.cursor.chars.length using Nat.strongRecOn generalizing lx with
  | _ len ih =>
    have hscan := lx.scan_relaxes
    generalize hl : (lx.demanding false).scan = s, hs : (lx.demanding true).scan = s' at hscan
    cases hscan with
    | ok t cur =>
      by_cases ht : t = .eof
      · rw [run_of_ok (advance_of_scan hl), run_of_ok (advance_of_scan hs), if_pos ht, if_pos ht]
        exact ⟨rfl, rfl⟩
      · rw [run_of_ok (advance_of_scan hl), run_of_ok (advance_of_scan hs), if_neg ht, if_neg ht]
        have hlt := advance_length_lt (advance_of_scan hs) ht
        obtain ⟨htokens, herror⟩ := ih _ (hlen ▸ hlt) (lx.behind t cur) rfl
        exact ⟨congrArg (⟨t, cur.mark⟩ :: ·) htokens, herror⟩
    | error cur he =>
      rw [run_of_error (advance_failed hl), run_of_error (advance_failed hs)]
      simp [Option.filter, he]
    | ended ha he hcur =>
      cases ha
      rw [run_of_ok (advance_of_scan hl), run_of_error (advance_failed hs), if_pos rfl]
      simp [Option.filter, he]

/-- For every text and all settings of what is skipped: what a strict lexer reads, a lenient one reads
as well. Where the strict one misses the end of a string or a block comment, the lenient one reads just
the tokens that the strict one had delivered before. Any other error is an error of both. -/
theorem tokens_by_strictness (bytes : List UInt8) (o : LexOptions) :
    let strict := ofSource (.ofBytes bytes) { o with strict := true }
    let lenient := ofSource (.ofBytes bytes) { o with strict := false }
    match strict.tokens with
    | .ok ts => lenient.tokens = .ok ts
    | .error e =>
      if e.cause = .unterminatedComment ∨ e.cause = .unterminatedString then
        ∃ ts, lenient.tokens = .ok ts ∧
          (∀ i t, ts[i]? = some t → (strict.after i).advance.1 = .ok t) ∧
          (strict.after ts.length).advance.1 = .error e
      else lenient.tokens = .error e := by
  intro strict lenient
  obtain ⟨htokens, herror⟩ : lenient.run.tokens = strict.run.tokens ∧
      lenient.run.error = strict.run.error.filter fun e => ¬ e.cause.Unterminated :=
    strict.run_relaxes
  cases he : strict.run.error with
  | none =>
    rw [he, Option.filter_none] at herror
    rw [tokens_of_ended he, tokens_of_ended herror, htokens]
  | some e =>
    rw [he, Option.filter_some] at herror
    rw [tokens_of_failed he]
    dsimp only
    split
    · next hcause =>
      rw [if_neg (by simp [show e.cause.Unterminated from hcause])] at herror
      refine ⟨_, tokens_of_ended herror, fun i t ht => ?_, ?_⟩
      · rw [htokens, List.getElem?_map] at ht
        obtain ⟨u, hu, rfl⟩ := Option.map_eq_some_iff.mp ht
        exact ((strict.run_delivers).1 u hu).1.1
      · rw [htokens, List.length_map, (strict.run_delivers (n := 0)).2, he]
    · next hcause =>
      rw [if_pos (by simp [show ¬ e.cause.Unterminated from hcause])] at herror
      exact tokens_of_failed herror

end Lexer

end SsaCompiler
