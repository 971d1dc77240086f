import SsaCompiler.Proofs.Compiling.Order

/-!
The table of functions of a compiled program. Declaring the prototypes lists their names in the order
in which they first appear. Afterwards a definition takes the place of its declaration, and the first
statement outside of functions adds one more function at the end; nothing else changes the list.
-/
namespace SsaCompiler

open Ir LowerM

/-- What is added to a list is new, or it is left out. -/
theorem eraseDups_concat (names : List String) (name : String) : (names ++ [name]).eraseDups =
    names.eraseDups ++ if name ∈ names then [] else [name] := by
  rw [List.eraseDups_append]
  by_cases h : name ∈ names
  · simp [List.removeAll, h]
  · simp [List.removeAll, h, List.eraseDups_cons]

namespace Ir.Module

variable {m m' : Module} {name : String}

theorem mem_names : name ∈ m.functions.map (·.name) ↔ (m.function? name).isSome = true := by
  rw [Option.isSome_iff_ne_none, ne_eq, function?_eq_none]
  simp

/-- Preparing adds at most one name, which is new. -/
theorem Prepares.names (h : m.Prepares m') :
    m'.functions.map (·.name) = m.functions.map (·.name) ∨
      ∃ n, n ∉ m.functions.map (·.name) ∧
        m'.functions.map (·.name) = m.functions.map (·.name) ++ [n] := by
  obtain ⟨m1, hgrows, rfl | ⟨decl, hnew, _, _, rfl⟩⟩ := h.declared
  · exact .inl (by rw [hgrows.functions])
  · refine .inr ⟨decl.name, by simp [mem_names, hnew], ?_⟩
    rw [hgrows.functions]
    simp [addFunction]

/-- A call that succeeds adds at most one name, which is new. -/
theorem Leaves.names (h : m.Leaves (.ok ()) m') :
    m'.functions.map (·.name) = m.functions.map (·.name) ∨
      ∃ n, n ∉ m.functions.map (·.name) ∧
        m'.functions.map (·.name) = m.functions.map (·.name) ++ [n] := by
  cases h with
  | prepared h => exact h.names
  | stored h hdecl =>
    rw [names_define hdecl]
    exact h.names

end Ir.Module

namespace Compilation

/-- The module lists the functions of the prototypes in the order in which they first appear, and
behind them the function of the statements outside of functions if there is one. -/
def Lists (protos : List Prototype) (m : Module) : Prop :=
  m.functions.map (·.name) = (protos.map (·.name)).eraseDups ++
    if (m.function? toplevelName).isSome then [toplevelName] else []

variable {protos done : List Prototype} {p : Prototype} {c c' : Compilation} {items before : List Item}
  {m m0 : Module} {settings : Settings}

theorem names_of_declare (h : c.module.functions.map (·.name) = (done.map (·.name)).eraseDups)
    (hy : Yields (declare p) c () c') :
    c'.module.functions.map (·.name) = ((done ++ [p]).map (·.name)).eraseDups := by
  obtain ⟨sig, hsig, hroutine, _⟩ := yields_declare hy
  have hrun := hy.symm.trans (run_declare hsig hroutine)
  have hknown : p.name ∈ done.map (·.name) ↔ (c.module.function? p.name).isSome = true := by
    rw [← Module.mem_names, h, List.mem_eraseDups]
  rw [List.map_append, List.map_singleton, eraseDups_concat, ← h]
  cases hfound : c.module.function? p.name with
  | some f =>
    rw [hfound] at hrun
    dsimp only at hrun
    split at hrun
    · cases hrun
      rw [if_pos (hknown.mpr (by simp [hfound])), List.append_nil]
    · cases hrun
  | none =>
    rw [hfound] at hrun
    cases hrun
    rw [if_neg (by simp [hknown, hfound])]
    simp [Module.addFunction, Signature.declaration]

theorem names_of_declareItems
    (h : c.module.functions.map (·.name) = (done.map (·.name)).eraseDups)
    (hy : Yields (items.forM declareItem) c () c') :
    c'.module.functions.map (·.name) = ((done ++ protosOf items).map (·.name)).eraseDups := by
  induction items generalizing done c with
  | nil =>
    obtain ⟨_, rfl⟩ := yields_pure.mp hy
    simpa [protosOf] using h
  | cons item items ih =>
    obtain ⟨_, c1, hitem, hrest⟩ := yields_bind.mp hy
    rw [protosOf_cons, ← List.append_assoc]
    rcases yields_declareItem.mp hitem with ⟨hproto, rfl⟩ | ⟨p, hproto, hp⟩
    · rw [hproto]
      exact ih (by simpa using h) hrest
    · rw [hproto]
      exact ih (names_of_declare h hp) hrest

/-- A name that is new is the one of the function of the statements: prototypes have been declared. -/
theorem lists_step (m m' : Module) (hm : Offers protos m) (hm' : Offers protos m')
    (hleaves : m.Leaves (.ok ()) m') (h : Lists protos m) : Lists protos m' := by
  have htop : ∀ m : Module, (m.function? toplevelName).isSome = true ↔
      toplevelName ∈ m.functions.map (·.name) := fun m => Module.mem_names.symm
  unfold Lists at h ⊢
  rcases hleaves.names with hsame | ⟨n, hnew, hadded⟩
  · rw [hsame, h]
    simp only [htop, hsame]
  · obtain rfl : n = toplevelName := by
      have hmem : n ∈ m'.functions.map (·.name) := by simp [hadded]
      obtain ⟨f, hf, rfl⟩ := List.mem_map.mp hmem
      refine (hm'.origin f hf).resolve_right fun ⟨p, hp, hname⟩ => hnew ?_
      obtain ⟨_, _, g, hg, _⟩ := hm.found p hp
      rw [← hname, Module.mem_names, hg]
      rfl
    rw [if_neg (fun hsome => hnew ((htop _).mp hsome)), List.append_nil] at h
    rw [if_pos ((htop _).mpr (by simp [hadded])), hadded, h]

/-- The function of the statements outside of functions has been listed before it is finished. -/
theorem Lowered.names_finishToplevel (h : Lowered protos m0 items c)
    (hy : Yields finishToplevel c () c') :
    c'.module.functions.map (·.name) = c.module.functions.map (·.name) := by
  cases htop : c.toplevel with
  | none =>
    have hrun := hy.symm.trans run_finishToplevel
    rw [htop] at hrun
    cases hrun
    rfl
  | some b =>
    obtain ⟨K, b', _, _, hname, _, _, hy'⟩ := h.sane.exists_finishToplevel htop
    cases hy.symm.trans hy'
    obtain ⟨decl, hdecl⟩ := (h.sane.toplevel b htop).exists_function
    have hfound : c.module.function? (c.stored b'.finish).name = some decl := by
      rw [stored_name, show b'.finish.name = toplevelName from hname]
      exact hdecl
    exact Module.names_define hfound

/-- What a compilation gives, and the list of its functions. -/
theorem exists_listed (havoids : ∀ item ∈ items, item.Avoids) {name : String}
    (hy : Yields (compileItems items none) (.start name settings) m c) :
    ∃ m1, Finished (protosOf items) settings items m1 ∧ Lists (protosOf items) m1 ∧
      m = m1.discardUnused := by
  obtain ⟨c1, c2, c3, hdeclare, h1, hlower, h2, hfinish, h3, heq⟩ := exists_stages havoids hy
  have hdeclared : c1.module.functions.map (·.name) =
      ((protosOf items).map (·.name)).eraseDups := by
    simpa using @names_of_declareItems [] _ _ _ rfl hdeclare
  have hlists1 : Lists (protosOf items) c1.module := by
    have hfree : c1.module.function? toplevelName = none := by
      rcases h1.begun with ⟨_, _, hfree⟩ | ⟨hne, _⟩
      · exact hfree
      · exact absurd rfl hne
    unfold Lists
    rw [hdeclared, hfree]
    simp
  have hlists2 := h1.keeps h1.stocked.offers
    (fun item hitem => ⟨havoids item hitem, among_protosOf items item hitem⟩) hlower
    (fun m m' _ _ => lists_step m m') hlists1
  have hnames := h2.names_finishToplevel hfinish
  refine ⟨c3.module, h3, ?_, heq⟩
  unfold Lists at hlists2 ⊢
  rw [hnames, hlists2]
  simp only [← Module.mem_names, hnames]

section Finished

variable {f : Function} (h : Finished (protosOf items) settings items m) (hf : f ∈ m.functions)
include h hf

/-- A function has the types that its prototypes stand for. -/
theorem Finished.types (hp : p ∈ protosOf items) (hname : p.name = f.name) :
    ∃ sig, Signature.resolve p = .ok sig ∧ f.paramTypes = sig.params.map DataType.toIr ∧
      f.ret = sig.result.toIr := by
  obtain ⟨_, ⟨sig, hsig, _, rfl⟩, d, hd, hret, hparams⟩ := h.stocked.offers.found p hp
  obtain rfl := Option.some.inj ((h.names.function? hf).symm.trans (hname ▸ hd))
  exact ⟨sig, hsig, hparams.trans (Signature.resolve_eq_ok hsig).1, hret⟩

/-- A function has a body exactly if it is defined. -/
theorem Finished.isSome_body : f.body.isSome = true ↔
    f.name = toplevelName ∨ ∃ fd ∈ functionsOf items, fd.proto.name = f.name := by
  by_cases hname : f.name = toplevelName
  · have hfound := h.names.function? hf
    obtain ⟨_, hnone⟩ | ⟨_, _, _, d, _, _, hd, hbody⟩ := h.outside
    · rw [← hname, hfound] at hnone
      cases hnone
    · obtain rfl := Option.some.inj (hfound.symm.trans (hname ▸ hd))
      exact iff_of_true (by simp [hbody]) (.inl hname)
  · rcases h.stocked.bodies f hf hname with ⟨hnone, hfree⟩ | ⟨fd, hfd, hfdname, hbuilt⟩
    · refine iff_of_false (by simp [hnone]) ?_
      rintro (htop | ⟨fd, hfd, hfdname⟩)
      · exact hname htop
      · exact hfree fd hfd hfdname
    · obtain ⟨_, _, _, _, _, _, _, _, hbody⟩ := hbuilt
      exact iff_of_true (by simp [hbody]) (.inr ⟨fd, hfd, hfdname⟩)

end Finished

/-- A program that compiles was read without an error. -/
theorem read_of_compile {source : Source} {name : String}
    (hok : compile source name settings = .ok m) :
    ∃ items c, (Parser.ofLexer (.ofSource source { strict := settings.strict })).parse = .ok items ∧
      Yields (compileItems items none) (.start name settings) m c := by
  obtain ⟨⟨items, e⟩, hread⟩ :
      ∃ p, (Parser.ofLexer (.ofSource source { strict := settings.strict })).program = p := ⟨_, rfl⟩
  unfold compile at hok
  rw [hread] at hok
  cases e with
  | some e =>
    obtain ⟨_, _, _, hthrow⟩ := yields_bind.mp (yields_of_eq_ok hok)
    exact absurd hthrow not_yields_throw
  | none =>
    refine ⟨items, _, ?_, yields_of_eq_ok hok⟩
    unfold Parser.parse
    rw [hread]

end Compilation

open Compilation

/-- The functions of a compiled module are those of the source: its prototypes in the order in which
their names first appear, and behind them the function of the statements outside of functions if
there are any. Each has the types that its prototypes stand for, and it has a body exactly if it is
defined. -/
theorem compile_functions (source : Source) (name : String) (settings : Settings) (m : Module)
    (hok : compile source name settings = .ok m) :
    ∃ items, (Parser.ofLexer (.ofSource source { strict := settings.strict })).parse = .ok items ∧
      (m.functions.map (·.name)).Nodup ∧
      m.functions.map (·.name) = ((protosOf items).map (·.name)).eraseDups ++
        (if (statementsOf items).isEmpty then [] else [toplevelName]) ∧
      ∀ f ∈ m.functions,
        (∀ p ∈ protosOf items, p.name = f.name → ∃ sig, Signature.resolve p = .ok sig ∧
          f.paramTypes = sig.params.map DataType.toIr ∧ f.ret = sig.result.toIr) ∧
        (f.name = toplevelName → f.paramTypes = [] ∧ f.ret = .void) ∧
        (f.body.isSome = true ↔
          f.name = toplevelName ∨ ∃ fd ∈ functionsOf items, fd.proto.name = f.name) := by
  obtain ⟨items, c, hread, hy⟩ := read_of_compile hok
  obtain ⟨m1, hfinished, hlists, rfl⟩ := exists_listed (Parser.avoids_of_parse hread) hy
  refine ⟨items, hread, ?_, ?_, fun f hf => ?_⟩
  · rw [Module.names_discardUnused]
    exact hfinished.names
  · rw [Module.names_discardUnused, show m1.functions.map _ = _ from hlists]
    rcases hfinished.outside with ⟨hnil, hnone⟩ | ⟨hne, _, _, f, _, _, hsome, _⟩
    · simp [hnil, hnone]
    · simp [hne, hsome]
  · obtain ⟨g, hg, rfl⟩ := List.mem_map.mp hf
    have htypes := fun p hp => hfinished.types (p := p) hg hp
    refine ⟨htypes, fun hname => ?_, ?_⟩
    · have hfound := hfinished.names.function? hg
      obtain ⟨hret, hparams⟩ := hfinished.stocked.offers.toplevel g (hname ▸ hfound)
      exact ⟨hparams, hret⟩
    · rw [Option.isSome_map]
      exact hfinished.isSome_body hg

/-- A function is declared before and after its definition, and a statement stands between them. -/
def relaySource : Source :=
  .ofString ("@show(n int) fun relay(n int) int \x7b show(n) return n \x7d relay(1) " ++
    "@relay(k int) int fun show(m int) \x7b \x7d")

def relayModule : Module where
  name := "m"
  functions := [
    ⟨"show", [⟨"n", .i64⟩], .void, some ⟨[⟨0, "entry", [], some (.ret none)⟩], [], 1⟩⟩,
    ⟨"relay", [⟨"n", .i64⟩], .i64, some ⟨[⟨0, "entry", [⟨none, .void, .call "show" [.param 0]⟩],
      some (.ret (some (.param 0)))⟩], [], 1⟩⟩,
    ⟨toplevelName, [], .void, some ⟨[⟨0, "entry", [⟨some 0, .i64, .call "relay" [.int 1]⟩],
      some (.ret none)⟩], [.i64], 1⟩⟩]
  strings := []
  routines := []

theorem relay_functions : compile relaySource "m" {} = .ok relayModule ∧
    ∃ items, (Parser.ofLexer (.ofSource relaySource {})).parse = .ok items ∧
      relayModule.functions.map (·.name) = ((protosOf items).map (·.name)).eraseDups ++
        (if (statementsOf items).isEmpty then [] else [toplevelName]) := by
  have hok : compile relaySource "m" {} = .ok relayModule := by decide +kernel
  obtain ⟨items, hread, _, hnames, _⟩ := compile_functions relaySource "m" {} relayModule hok
  exact ⟨hok, items, hread, hnames⟩

end SsaCompiler
