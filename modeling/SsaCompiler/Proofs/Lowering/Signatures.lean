import SsaCompiler.Proofs.Building.Typing
import SsaCompiler.Typing.Signature

/-!
Types of the language and their representation. A representation is read back as the type that it
represents, if that is a type of the language. So a declaration has one signature, the one that its
prototype stands for.
-/
namespace SsaCompiler

open Ir

/-- The elements of sequences are scalar. -/
def DataType.Proper : DataType → Prop
  | .sequence elem _ => elem.isScalar = true
  | _ => True

theorem DataType.proper_of_isScalar {ty : DataType} (h : ty.isScalar = true) : ty.Proper := by
  cases ty with
  | sequence elem n => simp [isScalar] at h
  | _ => trivial

theorem DataType.ne_void_of_isScalar {ty : DataType} (h : ty.isScalar = true) : ty ≠ .void := by
  rintro rfl
  simp [isScalar] at h

theorem DataType.toIr_ne_void {ty : DataType} (h : ty ≠ .void) : ty.toIr ≠ .void := by
  cases ty <;> simp_all [toIr, Ty.string]

theorem DataType.ofIr?_eq_some {t : Ty} {ty : DataType} (h : ofIr? t = some ty) :
    ty.toIr = t ∧ ty.Proper := by
  fun_induction ofIr? t generalizing ty with
  | case1 | case2 | case3 | case4 | case5 =>
    obtain rfl := Option.some.inj h
    exact ⟨rfl, trivial⟩
  | case6 t n elem hof hscalar ih =>
    obtain rfl := Option.some.inj h
    exact ⟨by rw [toIr, (ih hof).1], hscalar⟩
  | case7 | case8 | case9 => cases h

theorem DataType.ofIr?_toIr {ty : DataType} (h : ty.Proper) : ofIr? ty.toIr = some ty := by
  induction ty with
  | sequence elem n ih =>
    rw [toIr, ofIr?, ih (proper_of_isScalar h)]
    exact if_pos h
  | _ => rfl

theorem DataType.ofIr?_eq_some_iff {t : Ty} {ty : DataType} :
    ofIr? t = some ty ↔ ty.toIr = t ∧ ty.Proper := by
  refine ⟨ofIr?_eq_some, ?_⟩
  rintro ⟨rfl, hproper⟩
  exact ofIr?_toIr hproper

theorem mapM_ofIr?_eq_some_iff {ps : List Ir.Param} {types : List DataType} :
    ps.mapM (fun p => DataType.ofIr? p.ty) = some types ↔
      ps.map (·.ty) = types.map DataType.toIr ∧ ∀ ty ∈ types, ty.Proper := by
  induction ps generalizing types with
  | nil => cases types <;> simp
  | cons p ps ih =>
    simp only [List.mapM_cons, Option.bind_eq_bind, Option.bind_eq_some_iff, ih,
      DataType.ofIr?_eq_some_iff]
    cases types with
    | nil => simp
    | cons ty types => grind

/-- A function has a signature exactly if its types represent that signature. -/
theorem Signature.of?_eq_some_iff {f : Function} {sig : Signature} :
    Signature.of? f = some sig ↔ f.paramTypes = sig.params.map DataType.toIr ∧
      f.ret = sig.result.toIr ∧ (∀ ty ∈ sig.params, ty.Proper) ∧ sig.result.Proper := by
  simp only [Signature.of?, Option.bind_eq_bind, Option.bind_eq_some_iff, mapM_ofIr?_eq_some_iff,
    DataType.ofIr?_eq_some_iff]
  constructor
  · rintro ⟨params, ⟨hparams, hproper⟩, result, ⟨hret, hresult⟩, heq⟩
    cases heq
    exact ⟨hparams, hret.symm, hproper, hresult⟩
  · rintro ⟨hparams, hret, hproper, hresult⟩
    exact ⟨sig.params, ⟨hparams, hproper⟩, sig.result, ⟨hret.symm, hresult⟩, rfl⟩

theorem Ir.Function.sameSignature_iff {f g : Function} :
    f.sameSignature g = true ↔ f.ret = g.ret ∧ f.paramTypes = g.paramTypes := by
  simp [sameSignature]

theorem Signature.of?_congr {f g : Function} (hret : f.ret = g.ret)
    (hparams : f.paramTypes = g.paramTypes) : of? f = of? g :=
  Option.ext fun sig => by rw [of?_eq_some_iff, of?_eq_some_iff, hret, hparams]

/-- Written types stand for proper types. -/
theorem DataType.resolve?_proper {t : TypeName} {ty : DataType} (h : resolve? t = some ty) :
    ty.Proper := by
  have hname : ∀ {name : String} {ty : DataType}, ofName? name = some ty → ty ≠ .void →
      ty.isScalar = true := by
    intro name ty hof hvoid
    unfold ofName? at hof
    split at hof <;> cases hof <;> first | rfl | exact absurd rfl hvoid
  unfold resolve? at h
  split at h
  · rename_i ty' hof _
    obtain rfl := Option.some.inj h
    by_cases hvoid : ty' = .void
    · rw [hvoid]
      trivial
    · exact proper_of_isScalar (hname hof hvoid)
  · rename_i ty' n hof _
    split at h
    · cases h
    · rename_i hvoid
      cases h
      exact hname hof hvoid
  · cases h

theorem Signature.resolveParam_proper {t : TypeName} {ty : DataType} (h : resolveParam t = .ok ty) :
    ty.Proper := by
  unfold resolveParam at h
  split at h
  · cases h
  · cases h
  · rename_i hresolve
    cases h
    exact DataType.resolve?_proper hresolve

theorem Signature.resolveResult_proper {t : TypeName} {ty : DataType}
    (h : resolveResult t = .ok ty) : ty.Proper := by
  unfold resolveResult at h
  split at h
  · cases h
  · cases h
  · rename_i hresolve
    cases h
    exact DataType.resolve?_proper hresolve

theorem Signature.resolveParams_eq_ok {ps : List Param} {types : List DataType}
    (h : resolveParams ps = .ok types) :
    types.length = ps.length ∧ ∀ ty ∈ types, ty.Proper := by
  induction ps generalizing types with
  | nil =>
    cases h
    simp
  | cons p ps ih =>
    obtain ⟨ty, hty, h⟩ := bind_eq_ok.mp h
    obtain ⟨rest, hrest, h⟩ := bind_eq_ok.mp h
    cases h
    obtain ⟨hlen, hproper⟩ := ih hrest
    exact ⟨by simp [hlen], List.forall_mem_cons.mpr ⟨resolveParam_proper hty, hproper⟩⟩

/-- A declaration has the types of its signature. -/
theorem Signature.resolve_eq_ok {proto : Prototype} {sig : Signature}
    (h : resolve proto = .ok sig) :
    (sig.declaration proto).paramTypes = sig.params.map DataType.toIr ∧
      (∀ ty ∈ sig.params, ty.Proper) ∧ sig.result.Proper := by
  obtain ⟨types, htypes, h⟩ := bind_eq_ok.mp h
  obtain ⟨result, hresult, h⟩ := bind_eq_ok.mp h
  cases h
  obtain ⟨hlen, hproper⟩ := resolveParams_eq_ok htypes
  refine ⟨?_, hproper, resolveResult_proper hresult⟩
  unfold declaration Function.paramTypes
  rw [List.map_map]
  change (proto.params.zip types).map (DataType.toIr ∘ Prod.snd) = _
  rw [← List.map_map, List.map_snd_zip hlen.le]

theorem Signature.of?_declaration {proto : Prototype} {sig : Signature}
    (h : resolve proto = .ok sig) : of? (sig.declaration proto) = some sig := by
  obtain ⟨hparams, hproper, hresult⟩ := resolve_eq_ok h
  exact of?_eq_some_iff.mpr ⟨hparams, rfl, hproper, hresult⟩

/-- Two declarations agree exactly if they have one signature, whatever the names. -/
theorem Signature.sameSignature_declaration_iff {p q : Prototype} {sig sig' : Signature}
    (hp : resolve p = .ok sig) (hq : resolve q = .ok sig') :
    (sig.declaration p).sameSignature (sig'.declaration q) = true ↔ sig = sig' := by
  rw [Function.sameSignature_iff]
  constructor
  · rintro ⟨hret, hparams⟩
    exact Option.some.inj <| calc
      some sig = of? (sig.declaration p) := (of?_declaration hp).symm
      _ = of? (sig'.declaration q) := of?_congr hret hparams
      _ = some sig' := of?_declaration hq
  · rintro rfl
    exact ⟨rfl, (resolve_eq_ok hp).1.trans (resolve_eq_ok hq).1.symm⟩

/-- A representation is read back as a type exactly if it represents the type, and what is read back is
no sequence of void or of sequences. A declaration is read back as the signature that its prototype
stands for, so two declarations agree exactly if their prototypes stand for one signature. -/
theorem Signature.declaration_represents (t : Ty) (p q : Prototype) :
    (∀ ty : DataType, ty.Proper → (DataType.ofIr? t = some ty ↔ ty.toIr = t)) ∧
    (∀ elem n, DataType.ofIr? t = some (.sequence elem n) →
      elem ≠ .void ∧ ∀ inner m, elem ≠ .sequence inner m) ∧
    (∀ sig, resolve p = .ok sig → of? (sig.declaration p) = some sig) ∧
    ∀ sig sig', resolve p = .ok sig → resolve q = .ok sig' →
      ((sig.declaration p).sameSignature (sig'.declaration q) = true ↔ sig = sig') := by
  refine ⟨fun ty hty => ?_, fun elem n h => ?_, fun _ => of?_declaration,
    fun _ _ => sameSignature_declaration_iff⟩
  · rw [DataType.ofIr?_eq_some_iff, and_iff_left hty]
  · have hscalar : elem.isScalar = true := (DataType.ofIr?_eq_some h).2
    refine ⟨DataType.ne_void_of_isScalar hscalar, ?_⟩
    rintro inner m rfl
    simp [DataType.isScalar] at hscalar

/-- A function of a sequence and a string. -/
def Signature.summing (n : Nat) : Prototype :=
  ⟨"sum", [⟨"xs", ⟨"float", some n⟩⟩, ⟨"label", ⟨"string", none⟩⟩], ⟨"float", none⟩⟩

def Signature.summed (n : Nat) : Signature := ⟨[.sequence .float n, .string], .float⟩

theorem Signature.summing_represents :
    resolve (summing 3) = .ok (summed 3) ∧ resolve (summing 4) = .ok (summed 4) ∧
    DataType.ofIr? (.ptr (.array .double 3)) = some (.sequence .float 3) ∧
    of? ((summed 3).declaration (summing 3)) = some (summed 3) ∧
    ¬ ((summed 3).declaration (summing 3)).sameSignature ((summed 4).declaration (summing 4)) := by
  obtain ⟨hread, _, hof, hsame⟩ :=
    declaration_represents (.ptr (.array .double 3)) (summing 3) (summing 4)
  refine ⟨rfl, rfl, (hread (.sequence .float 3) rfl).mpr rfl, hof (summed 3) rfl, fun h => ?_⟩
  exact absurd ((hsame (summed 3) (summed 4) rfl rfl).mp h) (by decide)

end SsaCompiler
