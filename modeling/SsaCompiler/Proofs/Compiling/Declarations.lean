import SsaCompiler.Proofs.Compiling.Histories
import SsaCompiler.Proofs.Lowering.Relabeling

/-!
Declaring the prototypes of a program. All of them can be declared exactly if each can be declared on
its own and those of one name have one signature; the order makes no difference. From then on the
functions of the module have the signatures of the prototypes.
-/
namespace SsaCompiler

open Ir LowerM

namespace Compilation

/-- The prototype can be declared, as the function `f`. -/
def Declares (p : Prototype) (f : Function) : Prop :=
  ∃ sig, Signature.resolve p = .ok sig ∧ conflictingRoutine? f = none ∧ f = sig.declaration p

/-- The prototypes can be declared, and those of one name have one signature. -/
structure Consistent (protos : List Prototype) : Prop where
  declares : ∀ p ∈ protos, ∃ f, Declares p f
  same : ∀ {p q f g}, p ∈ protos → q ∈ protos → p.name = q.name → Declares p f → Declares q g →
    f.sameSignature g = true

/-- The functions of the module are those of the prototypes. -/
structure Announces (protos : List Prototype) (m : Module) : Prop where
  origin : ∀ f ∈ m.functions, ∃ p ∈ protos, Declares p f
  found : ∀ p ∈ protos, ∃ g, Declares p g ∧
    ∃ f, m.function? p.name = some f ∧ f.sameSignature g = true

variable {p q : Prototype} {f g : Function} {protos done : List Prototype} {m : Module}
  {c c' : Compilation} {items : List Item}

theorem Declares.eq (h : Declares p f) (h' : Declares p g) : f = g := by
  obtain ⟨sig, hsig, _, rfl⟩ := h
  obtain ⟨sig', hsig', _, rfl⟩ := h'
  rw [Except.ok.inj (hsig.symm.trans hsig')]

theorem Declares.name (h : Declares p f) : f.name = p.name := by
  obtain ⟨sig, _, _, rfl⟩ := h
  rfl

theorem Announces.consistent (h : Announces protos m) : Consistent protos where
  declares p hp := by
    obtain ⟨g, hg, _⟩ := h.found p hp
    exact ⟨g, hg⟩
  same {p q f g} hp hq hname hf hg := by
    obtain ⟨f', hf', d, hd, hsame⟩ := h.found p hp
    obtain ⟨g', hg', d', hd', hsame'⟩ := h.found q hq
    rw [hname, hd'] at hd
    obtain rfl := Option.some.inj hd
    rw [hf.eq hf', hg.eq hg']
    rw [Function.sameSignature_iff] at hsame hsame' ⊢
    exact ⟨hsame.1.symm.trans hsame'.1, hsame.2.symm.trans hsame'.2⟩

theorem Announces.of_declare (h : Announces done c.module) (hy : Yields (declare p) c () c') :
    Announces (done ++ [p]) c'.module ∧ c'.toplevel = c.toplevel ∧ c'.settings = c.settings ∧
      c'.module.strings = c.module.strings := by
  obtain ⟨sig, hsig, hroutine, decl, hfound, hsame, hcases⟩ := yields_declare hy
  have hdeclares : Declares p (sig.declaration p) := ⟨sig, hsig, hroutine, rfl⟩
  rcases hcases with rfl | ⟨rfl, rfl⟩
  · refine ⟨⟨fun f hf => ?_, fun q hq => ?_⟩, rfl, rfl, rfl⟩
    · obtain ⟨q, hq, hdecl⟩ := h.origin f hf
      exact ⟨q, List.mem_append_left _ hq, hdecl⟩
    · rcases List.mem_append.mp hq with hq | hq
      · exact h.found q hq
      · rw [List.mem_singleton.mp hq]
        exact ⟨_, hdeclares, decl, hfound, hsame⟩
  · refine ⟨⟨fun f hf => ?_, fun q hq => ?_⟩, rfl, rfl, rfl⟩
    · rcases List.mem_append.mp hf with hf | hf
      · obtain ⟨q, hq, hdecl⟩ := h.origin f hf
        exact ⟨q, List.mem_append_left _ hq, hdecl⟩
      · rw [List.mem_singleton.mp hf]
        exact ⟨p, by simp, hdeclares⟩
    · rcases List.mem_append.mp hq with hq | hq
      · obtain ⟨g, hg, f, hf, hsame⟩ := h.found q hq
        refine ⟨g, hg, f, ?_, hsame⟩
        change (c.module.addFunction _).function? q.name = _
        rw [Module.function?_addFunction, hf]
        rfl
      · rw [List.mem_singleton.mp hq]
        exact ⟨_, hdeclares, _, hfound, hsame⟩

/-- What is consistent with the prototypes before it can be declared. -/
theorem Announces.exists_declare (h : Announces done c.module) (hp : p ∈ protos)
    (hdone : ∀ q ∈ done, q ∈ protos) (hcons : Consistent protos) :
    ∃ c', Yields (declare p) c () c' := by
  obtain ⟨_, hdeclares⟩ := hcons.declares p hp
  obtain ⟨sig, hsig, hroutine, rfl⟩ := id hdeclares
  unfold Yields
  rw [run_declare hsig hroutine]
  cases hfound : c.module.function? p.name with
  | none => exact ⟨_, rfl⟩
  | some f =>
    obtain ⟨q, hq, hf⟩ := h.origin f (List.mem_of_find?_eq_some hfound)
    have hname : q.name = p.name := by
      rw [← hf.name]
      simpa using List.find?_some hfound
    dsimp only
    rw [if_pos (hcons.same (hdone q hq) hp hname hf hdeclares)]
    exact ⟨_, rfl⟩

/-- The prototypes of the items. -/
def protosOf (items : List Item) : List Prototype := items.filterMap Item.proto?

theorem protosOf_cons (item : Item) (items : List Item) :
    protosOf (item :: items) = item.proto?.toList ++ protosOf items := by
  unfold protosOf
  cases h : item.proto? <;> simp [h]

theorem yields_declareItem {item : Item} : Yields (declareItem item) c () c' ↔
    (item.proto? = none ∧ c' = c) ∨ ∃ p, item.proto? = some p ∧ Yields (declare p) c () c' := by
  unfold declareItem
  cases item.proto? with
  | none => simp [yields_pure]
  | some p => simp

/-- After the first pass over the items. -/
theorem Announces.of_declareItems (h : Announces done c.module)
    (hy : Yields (items.forM declareItem) c () c') :
    Announces (done ++ protosOf items) c'.module ∧ c'.toplevel = c.toplevel ∧
      c'.settings = c.settings ∧ c'.module.strings = c.module.strings := by
  induction items generalizing done c with
  | nil =>
    obtain ⟨_, rfl⟩ := yields_pure.mp hy
    exact ⟨by simpa [protosOf] using h, rfl, rfl, rfl⟩
  | cons item items ih =>
    obtain ⟨_, c1, hitem, hrest⟩ := yields_bind.mp hy
    rw [protosOf_cons, ← List.append_assoc]
    rcases yields_declareItem.mp hitem with ⟨hproto, rfl⟩ | ⟨p, hproto, hp⟩
    · rw [hproto]
      exact ih (by simpa using h) hrest
    · obtain ⟨h1, htop, hset, hstrings⟩ := h.of_declare hp
      obtain ⟨h', htop', hset', hstrings'⟩ := ih h1 hrest
      rw [hproto]
      exact ⟨h', htop'.trans htop, hset'.trans hset, hstrings'.trans hstrings⟩

theorem Announces.exists_declareItems (h : Announces done c.module) (hdone : ∀ q ∈ done, q ∈ protos)
    (hitems : ∀ p ∈ protosOf items, p ∈ protos) (hcons : Consistent protos) :
    ∃ c', Yields (items.forM declareItem) c () c' := by
  induction items generalizing done c with
  | nil => exact ⟨c, rfl⟩
  | cons item items ih =>
    rw [protosOf_cons] at hitems
    have hrest : ∀ p ∈ protosOf items, p ∈ protos := fun p hp => hitems p (List.mem_append_right _ hp)
    cases hproto : item.proto? with
    | none =>
      obtain ⟨c', hy⟩ := ih h hdone hrest
      exact ⟨c', yields_bind.mpr ⟨(), c, yields_declareItem.mpr (.inl ⟨hproto, rfl⟩), hy⟩⟩
    | some p =>
      have hp : p ∈ protos := hitems p (by simp [hproto])
      obtain ⟨c1, hdeclare⟩ := h.exists_declare hp hdone hcons
      have hdone' : ∀ q ∈ done ++ [p], q ∈ protos :=
        List.forall_mem_append.mpr ⟨hdone, by simpa using hp⟩
      obtain ⟨c', hy⟩ := ih (h.of_declare hdeclare).1 hdone' hrest
      exact ⟨c', yields_bind.mpr
        ⟨(), c1, yields_declareItem.mpr (.inr ⟨p, hproto, hdeclare⟩), hy⟩⟩

theorem announces_start (name : String) (settings : Settings) :
    Announces [] (start name settings).module := ⟨nofun, nofun⟩

theorem exists_declareItems_iff (name : String) (settings : Settings) :
    (∃ c, Yields (items.forM declareItem) (.start name settings) () c) ↔
      Consistent (protosOf items) := by
  constructor
  · rintro ⟨c, hy⟩
    exact ((announces_start name settings).of_declareItems hy).1.consistent
  · intro hcons
    exact (announces_start name settings).exists_declareItems nofun (fun _ hp => hp) hcons

/-- The functions of the module have the signatures of the prototypes, and besides them there may be
the function of the statements outside of functions. -/
structure Offers (protos : List Prototype) (m : Module) : Prop where
  origin : ∀ f ∈ m.functions, f.name = toplevelName ∨ ∃ p ∈ protos, p.name = f.name
  found : ∀ p ∈ protos, ∃ g, Declares p g ∧
    ∃ f, m.function? p.name = some f ∧ f.ret = g.ret ∧ f.paramTypes = g.paramTypes
  toplevel : ∀ f, m.function? toplevelName = some f → f.ret = .void ∧ f.paramTypes = []

theorem Announces.offers (h : Announces protos m) (hprotos : ∀ p ∈ protos, p.name ≠ toplevelName) :
    Offers protos m where
  origin f hf := by
    obtain ⟨p, hp, hdecl⟩ := h.origin f hf
    exact .inr ⟨p, hp, hdecl.name.symm⟩
  found p hp := by
    obtain ⟨g, hg, f, hf, hsame⟩ := h.found p hp
    exact ⟨g, hg, f, hf, Function.sameSignature_iff.mp hsame⟩
  toplevel f hf := by
    obtain ⟨p, hp, hdecl⟩ := h.origin f (List.mem_of_find?_eq_some hf)
    have hname : f.name = toplevelName := by simpa using List.find?_some hf
    exact absurd (hdecl.name.symm.trans hname) (hprotos p hp)

/-- In modules that offer the same, a name stands for the same function up to its body. -/
theorem Offers.function? {protos' : List Prototype} {m' : Module} (h : Offers protos m)
    (h' : Offers protos' m') (hprotos : ∀ p ∈ protos, p ∈ protos') {name : String}
    (hname : name ≠ toplevelName) (hf : m.function? name = some f) :
    ∃ f', m'.function? name = some f' ∧ f'.ret = f.ret ∧ f'.paramTypes = f.paramTypes := by
  obtain rfl : f.name = name := by simpa using List.find?_some hf
  obtain ⟨p, hp, hpname⟩ := (h.origin f (List.mem_of_find?_eq_some hf)).resolve_left hname
  obtain ⟨g, hg, d, hd, hret, hparams⟩ := h.found p hp
  obtain ⟨g', hg', d', hd', hret', hparams'⟩ := h'.found p (hprotos p hp)
  rw [hpname] at hd hd'
  obtain rfl := Option.some.inj (hf.symm.trans hd)
  obtain rfl := hg.eq hg'
  exact ⟨d', hd', hret'.trans hret.symm, hparams'.trans hparams.symm⟩

theorem Offers.concurs {protos' : List Prototype} {m' : Module} (h : Offers protos m)
    (h' : Offers protos' m') (hprotos : ∀ p, p ∈ protos ↔ p ∈ protos') : m.Concurs m' where
  others {name} hname := by
    cases hf : m.function? name with
    | none =>
      cases hf' : m'.function? name with
      | none => rfl
      | some f' =>
        obtain ⟨f, hf1, _⟩ := h'.function? h (fun p hp => (hprotos p).mpr hp) hname hf'
        rw [hf] at hf1
        cases hf1
    | some f =>
      obtain ⟨f', hf', hret, hparams⟩ := h.function? h' (fun p hp => (hprotos p).mp hp) hname hf
      rw [hf']
      exact Signature.of?_congr hret hparams
  both {name sig sig'} hsig hsig' := by
    obtain ⟨f, hf, hsig⟩ := Option.bind_eq_some_iff.mp hsig
    obtain ⟨f', hf', hsig'⟩ := Option.bind_eq_some_iff.mp hsig'
    suffices hof : Signature.of? f' = Signature.of? f by
      rw [hsig, hsig'] at hof
      exact Option.some.inj hof
    by_cases hname : name = toplevelName
    · rw [hname] at hf hf'
      have hsame := h.toplevel f hf
      have hsame' := h'.toplevel f' hf'
      exact Signature.of?_congr (hsame'.1.trans hsame.1.symm) (hsame'.2.trans hsame.2.symm)
    · obtain ⟨d, hd, hret, hparams⟩ := h.function? h' (fun p hp => (hprotos p).mp hp) hname hf
      obtain rfl := Option.some.inj (hf'.symm.trans hd)
      exact Signature.of?_congr hret hparams

end Compilation

end SsaCompiler
