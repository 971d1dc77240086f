import SsaCompiler.Proofs.Compiling.Table
import SsaCompiler.Proofs.Typing.Resolution

/-!
The names in a program that compiles. A function body starts with the parameters in sight, and
statements outside of functions with nothing; functions are those of the prototypes of the program,
wherever these stand. Then every name in live code resolves.
-/
namespace SsaCompiler

open Ir

theorem DataType.len?_resolve? {t : TypeName} {ty : DataType} (h : resolve? t = some ty) :
    ty.len? = t.len := by
  unfold resolve? at h
  split at h
  · rename_i ty' hof hlen
    obtain rfl := Option.some.inj h
    rw [hlen]
    unfold ofName? at hof
    split at hof <;> cases hof <;> rfl
  · rename_i n _ hlen
    split at h
    · cases h
    · cases h
      exact hlen.symm
  · cases h

namespace Signature

theorem len?_resolveParam {t : TypeName} {ty : DataType} (h : resolveParam t = .ok ty) :
    ty.len? = t.len := by
  unfold resolveParam at h
  split at h
  · cases h
  · cases h
  · rename_i hresolve
    cases h
    exact DataType.len?_resolve? hresolve

theorem len?_resolveResult {t : TypeName} {ty : DataType} (h : resolveResult t = .ok ty) :
    ty.len? = none := by
  unfold resolveResult at h
  split at h
  · cases h
  · cases h
  · rename_i ty' hsequence hresolve
    cases h
    cases ty with
    | sequence elem n => exact absurd rfl (hsequence elem n)
    | _ => rfl

theorem zip_resolveParams {ps : List Param} {types : List DataType}
    (h : resolveParams ps = .ok types) :
    (ps.zip types).map (fun p => (p.1.name, p.2.len?)) = ps.map fun p => (p.name, p.type.len) := by
  induction ps generalizing types with
  | nil => rfl
  | cons p ps ih =>
    obtain ⟨ty, hty, h⟩ := bind_eq_ok.mp h
    obtain ⟨rest, hrest, h⟩ := bind_eq_ok.mp h
    cases h
    rw [List.zip_cons_cons, List.map_cons, List.map_cons, ih hrest, len?_resolveParam hty]

end Signature

namespace Compilation

variable {protos : List Prototype} {m : Module} {Γ : Bindings} {p : Prototype} {sig : Signature}
  {items : List Item} {settings : Settings}

theorem namesIn_bind (m : Module) (scope : Scope) (name : String) (v : TypedValue) :
    namesIn m (scope.bind name v) = (namesIn m scope).bind name v.type := by
  unfold namesIn Names.bind
  congr 1
  funext n
  rw [Scope.lookup?_bind]
  split <;> rfl

/-- The parameters of a prototype, and the number of them. -/
theorem length_params (h : Signature.resolve p = .ok sig) : sig.params.length = p.params.length := by
  obtain ⟨types, htypes, h⟩ := bind_eq_ok.mp h
  obtain ⟨result, _, h⟩ := bind_eq_ok.mp h
  cases h
  exact (Signature.resolveParams_eq_ok htypes).1

/-- A function that can be called has the signature of each of its prototypes. -/
theorem Announces.signature? (h : Announces protos m) {callee : String}
    (hsig : (m.function? callee).bind Signature.of? = some sig) :
    (∃ p ∈ protos, p.name = callee) ∧
      ∀ p ∈ protos, p.name = callee → Signature.resolve p = .ok sig := by
  obtain ⟨f, hf, hof⟩ := Option.bind_eq_some_iff.mp hsig
  have hname : f.name = callee := by simpa using List.find?_some hf
  refine ⟨?_, fun p hp hpname => ?_⟩
  · obtain ⟨p, hp, hdecl⟩ := h.origin f (List.mem_of_find?_eq_some hf)
    exact ⟨p, hp, hdecl.name.symm.trans hname⟩
  · obtain ⟨_, ⟨declared, hdeclared, _, rfl⟩, g, hg, hsame⟩ := h.found p hp
    obtain rfl := Option.some.inj (hf.symm.trans (hpname ▸ hg))
    obtain ⟨hret, hparams⟩ := Function.sameSignature_iff.mp hsame
    rw [Signature.of?_congr hret hparams, Signature.of?_declaration hdeclared] at hof
    rw [hdeclared, Option.some.inj hof]

/-- Where statements outside of functions start. -/
theorem Announces.describes (h : Announces protos m) :
    Bindings.Describes protos [] (namesIn m .empty) where
  lookup _ := rfl
  proper := nofun
  callees {callee sig} hsig := by
    obtain ⟨hsome, hall⟩ := h.signature? hsig
    exact ⟨hsome, fun p hp hname => (length_params (hall p hp hname)).symm⟩
  results {callee sig} hsig := by
    obtain ⟨⟨p, hp, hname⟩, hall⟩ := h.signature? hsig
    obtain ⟨types, _, hresolve⟩ := bind_eq_ok.mp (hall p hp hname)
    obtain ⟨result, hresult, hresolve⟩ := bind_eq_ok.mp hresolve
    cases hresolve
    exact Signature.len?_resolveResult hresult

/-- Binding parameters one after the other. -/
theorem describes_bindAll (l : List ((Param × DataType) × Nat)) {scope : Scope}
    (h : Γ.Describes protos (namesIn m scope)) (hproper : ∀ p ∈ l, p.1.2.Proper) :
    Bindings.Describes protos ((l.map fun p => (p.1.1.name, p.1.2.len?)).reverse ++ Γ)
      (namesIn m (l.foldl (fun s p => s.bind p.1.1.name ⟨.param p.2, p.1.2⟩) scope)) := by
  induction l generalizing Γ scope with
  | nil => exact h
  | cons p l ih =>
    obtain ⟨hp, hl⟩ := List.forall_mem_cons.mp hproper
    rw [List.foldl_cons, List.map_cons, List.reverse_cons, List.append_assoc, List.singleton_append]
    refine ih ?_ hl
    rw [namesIn_bind]
    exact h.bind p.1.1.name hp

/-- Where the body of a function starts. -/
theorem Announces.describes_params (h : Announces protos m) (hsig : Signature.resolve p = .ok sig) :
    (Bindings.ofParams p.params).Describes protos (namesIn m (paramScope p sig)) := by
  obtain ⟨types, htypes, hsig⟩ := bind_eq_ok.mp hsig
  obtain ⟨result, _, hsig⟩ := bind_eq_ok.mp hsig
  cases hsig
  have hall := describes_bindAll ((p.params.zip types).zipIdx) h.describes fun q hq => by
    have hmem : q.1.2 ∈ types := (List.of_mem_zip (List.fst_mem_of_mem_zipIdx hq)).2
    exact (Signature.resolveParams_eq_ok htypes).2 _ hmem
  have hnames : ((p.params.zip types).zipIdx).map (fun q => (q.1.1.name, q.1.2.len?)) =
      p.params.map fun p => (p.name, p.type.len) := by
    rw [← Signature.zip_resolveParams htypes]
    conv_rhs => rw [← List.zipIdx_map_fst 0 (p.params.zip types), List.map_map]
    rfl
  rw [hnames, List.append_nil] at hall
  exact hall

end Compilation

open Compilation

/-- In a program that compiles, every name in live code resolves: a variable is a parameter of the
function or a variable of a loop around it, and a call names a function that has a prototype and
passes as many arguments as it has parameters. -/
theorem compile_resolves (source : Source) (name : String) (settings : Settings) (m : Module)
    (hok : compile source name settings = .ok m) :
    ∃ items, (Parser.ofLexer (.ofSource source { strict := settings.strict })).parse = .ok items ∧
      (∀ fd ∈ functionsOf items, ∀ p ∈ usesOfStmts .live (.ofParams fd.proto.params) fd.body,
        p.2.Resolves (protosOf items) p.1) ∧
      ∀ p ∈ usesOfStmts .live [] (statementsOf items), p.2.Resolves (protosOf items) p.1 := by
  obtain ⟨items, c, hread, hy⟩ := read_of_compile hok
  obtain ⟨c1, hdeclare, hacc⟩ :=
    (exists_compileItems_iff (Parser.avoids_of_parse hread)).mp ⟨m, c, hy⟩
  have hann : Announces (protosOf items) c1.module := by
    simpa using ((announces_start name settings).of_declareItems hdeclare).1
  refine ⟨items, hread, fun fd hfd => ?_, ?_⟩
  · obtain ⟨sig, flow, hsig, hflow, _⟩ := hacc.bodies fd hfd
    exact ((hann.describes_params hsig).stmts_resolve _ ((Names.stmtsFlow_eq_ok _).mp hflow)).1
  · obtain ⟨flow, hflow⟩ := hacc.statements
    exact (hann.describes.stmts_resolve _ ((Names.stmtsFlow_eq_ok _).mp hflow)).1

/-- Names are lost in the body of a loop over an empty sequence and behind a loop that returns. -/
def strandedSource : Source :=
  .ofString ("@show(n int) fun last(s int[0], t int[2]) int \x7b for x in s \x7b show(lost, x) \x7d " ++
    "for i, x in t \x7b show(i) return x \x7d gone \x7d show(2)")

theorem strandedSource_compiles : ∃ m, compile strandedSource "m" {} = .ok m := by
  have hok : (compile strandedSource "m" {}).isOk = true := by decide +kernel
  cases hm : compile strandedSource "m" {} with
  | ok m => exact ⟨m, rfl⟩
  | error e =>
    rw [hm] at hok
    cases hok

theorem stranded_resolves : ∃ m, compile strandedSource "m" {} = .ok m ∧
    ∃ items, (Parser.ofLexer (.ofSource strandedSource {})).parse = .ok items ∧
      (∀ fd ∈ functionsOf items, ∀ p ∈ usesOfStmts .live (.ofParams fd.proto.params) fd.body,
        p.2.Resolves (protosOf items) p.1) ∧
      ∀ p ∈ usesOfStmts .live [] (statementsOf items), p.2.Resolves (protosOf items) p.1 := by
  obtain ⟨m, hok⟩ := strandedSource_compiles
  exact ⟨m, hok, compile_resolves strandedSource "m" {} m hok⟩

/-- The names in code that control cannot get to need not resolve. -/
theorem compile_keeps_unresolved :
    ¬ ∀ (source : Source) (name : String) (settings : Settings) (m : Module),
      compile source name settings = .ok m →
      ∃ items, (Parser.ofLexer (.ofSource source { strict := settings.strict })).parse = .ok items ∧
        (∀ fd ∈ functionsOf items, ∀ p ∈ usesOfStmts .all (.ofParams fd.proto.params) fd.body,
          p.2.Resolves (protosOf items) p.1) ∧
        ∀ p ∈ usesOfStmts .all [] (statementsOf items), p.2.Resolves (protosOf items) p.1 := by
  intro hall
  obtain ⟨m, hok⟩ := strandedSource_compiles
  obtain ⟨items, hread, hbodies, _⟩ := hall strandedSource "m" {} m hok
  have hlost : (Parser.ofLexer (.ofSource strandedSource {})).parse.toOption.any (fun items =>
      decide (¬ ∀ fd ∈ functionsOf items, ∀ p ∈ usesOfStmts .all (.ofParams fd.proto.params) fd.body,
        p.2.Resolves (protosOf items) p.1)) = true := by decide +kernel
  rw [hread] at hlost
  exact of_decide_eq_true hlost hbodies

end SsaCompiler
