import SsaCompiler.Ir.Text
import SsaCompiler.Ir.Verify
import SsaCompiler.Proofs.Flow.Blocks
import SsaCompiler.Proofs.Reading.Lexing

/-!
Names in IR text. A name can be read back from its written form, and that form is never a number. The
names of the parameters, the registers and the blocks of a function are told apart by their written
forms, except that parameters may share a name, and that the entry block has no number in its label
and may share its name with a parameter.
-/
namespace SsaCompiler

namespace Text

section Escapes

variable {a b : UInt8} {u v : List Char}

theorem hexDigit_inj {n k : Nat} (hn : n < 16) (hk : k < 16) (h : hexDigit n = hexDigit k) :
    n = k := by
  have hall : ∀ n < 16, ∀ k < 16, hexDigit n = hexDigit k → n = k := by decide
  exact hall n hn k hk h

/-- A byte that stands for itself is no backslash. -/
theorem plain_ne_backslash (h : 0x20 ≤ a.toNat ∧ a.toNat < 0x7f ∧ a.toNat ≠ 0x22 ∧ a.toNat ≠ 0x5c) :
    Char.ofNat a.toNat ≠ '\\' := by
  have hall : ∀ n < 0x7f, n ≠ 0x5c → Char.ofNat n ≠ '\\' := by decide
  exact hall a.toNat h.2.1 h.2.2.2

/-- The byte at the start of an escaped text can be told from the text. -/
theorem escapeByte_append_inj (h : escapeByte a ++ u = escapeByte b ++ v) : a = b ∧ u = v := by
  unfold escapeByte at h
  split at h <;> split at h
  · rename_i ha hb
    obtain ⟨hchar, rfl⟩ := List.cons.inj h
    have hall : ∀ n < 0x7f, (Char.ofNat n).toNat = n := by decide
    have hnat := congrArg Char.toNat hchar
    rw [hall _ ha.2.1, hall _ hb.2.1] at hnat
    exact ⟨UInt8.toNat_inj.mp hnat, rfl⟩
  · rename_i ha _
    exact absurd (List.cons.inj h).1 (plain_ne_backslash ha)
  · rename_i _ hb
    exact absurd (List.cons.inj h).1.symm (plain_ne_backslash hb)
  · obtain ⟨_, h⟩ := List.cons.inj h
    obtain ⟨hhigh, h⟩ := List.cons.inj h
    obtain ⟨hlow, rfl⟩ := List.cons.inj h
    have ha := a.toNat_lt
    have hb := b.toNat_lt
    have hhigh := hexDigit_inj (by omega) (by omega) hhigh
    have hlow := hexDigit_inj (by omega) (by omega) hlow
    exact ⟨UInt8.toNat_inj.mp (by omega), rfl⟩

theorem escapeByte_ne_nil (a : UInt8) : escapeByte a ≠ [] := by
  unfold escapeByte
  split <;> simp

theorem flatMap_escapeByte_inj {as bs : List UInt8}
    (h : as.flatMap escapeByte = bs.flatMap escapeByte) : as = bs := by
  induction as generalizing bs with
  | nil =>
    cases bs with
    | nil => rfl
    | cons b bs => simp [escapeByte_ne_nil] at h
  | cons a as ih =>
    cases bs with
    | nil => simp [escapeByte_ne_nil] at h
    | cons b bs =>
      rw [List.flatMap_cons, List.flatMap_cons] at h
      obtain ⟨rfl, hrest⟩ := escapeByte_append_inj h
      rw [ih hrest]

theorem escape_injective : Function.Injective escape := by
  intro s t h
  have hbytes := flatMap_escapeByte_inj (String.ofList_injective h)
  rw [Array.toList_inj] at hbytes
  exact String.toByteArray_inj.mp (ByteArray.ext hbytes)

end Escapes

theorem isNameStart_of_isPlainName {name : String} (h : isPlainName name.toList = true) :
    ∃ c cs, name.toList = c :: cs ∧ isNameStart c = true := by
  cases hname : name.toList with
  | nil => simp [hname, isPlainName] at h
  | cons c cs =>
    rw [hname, isPlainName, Bool.and_eq_true] at h
    exact ⟨c, cs, rfl, h.1⟩

/-- How a written name starts. -/
theorem exists_toList_quote (name : String) :
    ∃ c cs, (quote name).toList = c :: cs ∧
      if isPlainName name.toList then isNameStart c = true else c = '"' := by
  unfold quote
  split
  · exact isNameStart_of_isPlainName ‹_›
  · exact ⟨'"', (escape name).toList ++ ['"'], by simp, rfl⟩

theorem quote_injective : Function.Injective quote := by
  intro s t h
  obtain ⟨c, cs, hc, hstart⟩ := exists_toList_quote s
  obtain ⟨d, ds, hd, hstart'⟩ := exists_toList_quote t
  obtain ⟨rfl, -⟩ := List.cons.inj (hc.symm.trans ((congrArg String.toList h).trans hd))
  unfold quote at h
  split at hstart <;> split at hstart'
  case isTrue.isTrue hs ht => rwa [if_pos hs, if_pos ht] at h
  case isTrue.isFalse =>
    subst hstart'
    cases hstart
  case isFalse.isTrue =>
    subst hstart
    cases hstart'
  case isFalse.isFalse hs ht =>
    rw [if_neg hs, if_neg ht] at h
    have hlist := congrArg String.toList h
    simp only [String.toList_append, List.append_cancel_left_eq, List.append_cancel_right_eq,
      String.toList_inj] at hlist
    exact escape_injective hlist

theorem toList_toString (n : Nat) : (toString n).toList = Nat.toDigits 10 n := by
  change n.repr.toList = _
  rw [Nat.repr_eq_ofList_toDigits, String.toList_ofList]

theorem toString_inj {n k : Nat} (h : toString n = toString k) : n = k := by
  have hread := congrArg (fun s : String => Number.readNat? s.toList) h
  simp only [toList_toString, Number.readNat?_toDigits] at hread
  exact Option.some.inj hread

/-- A written name is no number. -/
theorem quote_ne_toString (name : String) (n : Nat) : quote name ≠ toString n := by
  intro h
  obtain ⟨c, cs, hc, hstart⟩ := exists_toList_quote name
  have hmem : c ∈ Nat.toDigits 10 n := by
    rw [← toList_toString, ← h, hc]
    exact List.mem_cons_self
  have hdigit : c.isDigit = true := Nat.isDigit_of_mem_toDigits (by decide) (by decide) hmem
  split at hstart
  · unfold isNameStart at hstart
    simp only [Bool.or_eq_true, decide_eq_true_eq] at hstart
    rcases hstart with (((halpha | rfl) | rfl) | rfl) | rfl
    · have hascii : c.toNat < 128 := (Char.isDigit_iff_toNat.mp hdigit).2.trans_lt (by decide)
      have hnot := not_alphabetic_of_isDigit hdigit
      rw [isAlphabetic, if_pos hascii, halpha] at hnot
      cases hnot
    all_goals cases hdigit
  · subst hstart
    cases hdigit

end Text

namespace Ir

open Text (quote quote_injective quote_ne_toString)

namespace Block

variable {x y : Block}

theorem toList_label (h : x.id ≠ 0) :
    x.label.toList = x.name.toList ++ '.' :: Nat.toDigits 10 x.id := by
  unfold label
  rw [if_neg h, String.toList_append, String.toList_append, Text.toList_toString]
  simp

/-- A label that ends with a number ends with one number only. -/
theorem id_eq_of_label_eq (hx : x.id ≠ 0) (hy : y.id ≠ 0) (h : x.label = y.label) : x.id = y.id := by
  have hnumber : ∀ (name : List Char) (n : Nat),
      (name ++ '.' :: Nat.toDigits 10 n).reverse.takeWhile (· ≠ '.') =
        (Nat.toDigits 10 n).reverse := by
    intro name n
    rw [List.reverse_append, List.reverse_cons, List.append_assoc,
      List.takeWhile_append_of_pos fun c hc => ?_]
    · simp
    · have hmem := List.mem_reverse.mp hc
      simpa using fun heq : c = '.' => Number.point_notMem_toDigits n (heq ▸ hmem)
  have hlist := congrArg (fun s : String => s.toList.reverse.takeWhile (· ≠ '.')) h
  simp only [toList_label hx, toList_label hy, hnumber, List.reverse_inj] at hlist
  refine Text.toString_inj ?_
  rw [← String.toList_inj, Text.toList_toString, Text.toList_toString, hlist]

end Block

namespace Function

variable {f : Function} {b : Body}

/-- The texts of the parameters, the registers and the blocks of a function as operands. -/
def localNames (f : Function) (b : Body) : List String :=
  (List.range f.params.length).map (fun i => f.valueText (.param i)) ++
    (b.results.map (fun r => f.valueText (.reg r)) ++ b.ids.map f.labelText)

theorem map_valueText_param (f : Function) :
    (List.range f.params.length).map (fun i => f.valueText (.param i)) =
      (f.params.map (·.name)).map fun name => "%" ++ quote name := by
  apply List.ext_getElem
  · simp
  · intro i hi hi'
    have hlt : i < f.params.length := by simpa using hi
    simp [valueText, List.getElem?_eq_getElem hlt]

theorem map_labelText (hbody : f.body = some b) (hids : b.ids.Nodup) :
    b.ids.map f.labelText = b.blocks.map fun x => "%" ++ quote x.label := by
  rw [Body.ids, List.map_map]
  refine List.map_congr_left fun x hx => ?_
  simp [labelText, hbody, (Body.block?_eq_some hids).mpr ⟨hx, rfl⟩]

/-- When the texts are all different. -/
theorem nodup_localNames_iff (hbody : f.body = some b) (hids : b.ids.Nodup)
    (hresults : b.results.Nodup) (hmem : 0 ∈ b.ids)
    (hentry : ∀ x ∈ b.blocks, x.id = 0 → x.name = "entry")
    (hwords : ∀ p ∈ f.params, '.' ∉ p.name.toList) :
    (f.localNames b).Nodup ↔
      (f.params.map (·.name)).Nodup ∧ "entry" ∉ f.params.map (·.name) := by
  have hinj : Function.Injective fun name => "%" ++ quote name := fun s t h =>
    quote_injective (by simpa using h)
  have hlabel : ∀ x ∈ b.blocks, x.id = 0 ∧ x.label = "entry" ∨ x.id ≠ 0 ∧ '.' ∈ x.label.toList := by
    intro x hx
    by_cases hid : x.id = 0
    · exact .inl ⟨hid, by rw [Block.label, if_pos hid, hentry x hx hid]⟩
    · exact .inr ⟨hid, by simp [Block.toList_label hid]⟩
  have hregs : (b.results.map fun r => f.valueText (.reg r)).Nodup :=
    hresults.map fun r q h => Text.toString_inj (by simpa [valueText] using h)
  have hblocks : (b.blocks.map fun x => "%" ++ quote x.label).Nodup := by
    refine List.Nodup.map_on (fun x hx y hy h => ?_) (List.Nodup.of_map _ hids)
    have h := hinj h
    refine Body.eq_of_id_eq hids hx hy ?_
    rcases hlabel x hx with ⟨hx, hlx⟩ | ⟨hx, hlx⟩ <;> rcases hlabel y hy with ⟨hy, hly⟩ | ⟨hy, hly⟩
    · rw [hx, hy]
    · rw [← h, hlx] at hly
      exact absurd hly (by decide)
    · rw [h, hly] at hlx
      exact absurd hlx (by decide)
    · exact Block.id_eq_of_label_eq hx hy h
  unfold localNames
  rw [map_valueText_param, map_labelText hbody hids, List.nodup_append, List.nodup_append,
    List.nodup_map_iff hinj]
  constructor
  · rintro ⟨hparams, -, happart⟩
    refine ⟨hparams, fun hname => ?_⟩
    obtain ⟨x, hx, hid⟩ := List.mem_map.mp hmem
    refine happart _ (List.mem_map_of_mem hname) _ (List.mem_append_right _
      (List.mem_map_of_mem hx)) ?_
    rw [Block.label, if_pos hid, hentry x hx hid]
  · rintro ⟨hparams, hname⟩
    refine ⟨hparams, ⟨hregs, hblocks, ?_⟩, ?_⟩
    · intro _ hr _ hx h
      obtain ⟨r, -, rfl⟩ := List.mem_map.mp hr
      obtain ⟨x, -, rfl⟩ := List.mem_map.mp hx
      exact quote_ne_toString x.label r (by simpa [valueText] using h.symm)
    · intro _ hparam _ hother h
      obtain ⟨_, hmem, rfl⟩ := List.mem_map.mp hparam
      obtain ⟨p, hp, rfl⟩ := List.mem_map.mp hmem
      rcases List.mem_append.mp hother with hreg | hblock
      · obtain ⟨r, -, rfl⟩ := List.mem_map.mp hreg
        exact quote_ne_toString p.name r (by simpa [valueText] using h)
      · obtain ⟨x, hx, rfl⟩ := List.mem_map.mp hblock
        have heq : p.name = x.label := hinj h
        rcases hlabel x hx with ⟨-, hentry⟩ | ⟨-, hpoint⟩
        · exact hname (List.mem_map.mpr ⟨p, hp, heq.trans hentry⟩)
        · exact hwords p hp (heq ▸ hpoint)

end Function

end Ir

end SsaCompiler
