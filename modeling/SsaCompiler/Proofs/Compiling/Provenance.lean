import SsaCompiler.Proofs.Compiling.Acceptance
import SsaCompiler.Proofs.Compiling.Declarations

/-!
Where the code of a module comes from. While the items of a program are lowered one after the other,
every body in the module is that of a definition among them, lowered in a module that offers the
prototypes of the program; the function of the statements outside of functions is built up statement
by statement. The pass succeeds exactly if no function is defined twice and the rules accept every
definition and the statements as a whole, which does not depend on the order of the items.
-/
namespace SsaCompiler

open Ir LowerM

/-- The definition that an item is. -/
def Item.decl? : Item → Option FunctionDecl
  | .function decl => some decl
  | _ => none

/-- The statement that an item is. -/
def Item.stmt? : Item → Option Stmt
  | .statement stmt => some stmt
  | _ => none

theorem Names.stmtsFlow_append (names : Names) (result : DataType) (stmts : List Stmt) (stmt : Stmt) :
    names.stmtsFlow result (stmts ++ [stmt]) = (do
      match ← names.stmtsFlow result stmts with
      | .terminated => return .terminated
      | .continues => names.stmtFlow result stmt) := by
  induction stmts with
  | nil =>
    simp only [List.nil_append, Names.stmtsFlow]
    change (names.stmtFlow result stmt >>= _) = names.stmtFlow result stmt
    cases names.stmtFlow result stmt with
    | error e => rfl
    | ok flow => cases flow <;> rfl
  | cons first stmts ih =>
    simp only [List.cons_append, Names.stmtsFlow, ih]
    cases names.stmtFlow result first with
    | error e => rfl
    | ok flow => cases flow <;> rfl

theorem Names.stmtsFlow_initial {names : Names} {result : DataType} {stmts rest : List Stmt}
    {flow : Flow} (h : names.stmtsFlow result (stmts ++ rest) = .ok flow) :
    ∃ flow, names.stmtsFlow result stmts = .ok flow := by
  induction stmts with
  | nil => exact ⟨.continues, by rw [Names.stmtsFlow]⟩
  | cons first stmts ih =>
    rw [List.cons_append, Names.stmtsFlow] at h
    rw [Names.stmtsFlow]
    cases hfirst : names.stmtFlow result first with
    | error e =>
      rw [hfirst] at h
      cases h
    | ok next =>
      rw [hfirst] at h
      cases next with
      | terminated => exact ⟨.terminated, rfl⟩
      | continues => exact ih h

/-- The strings that a function under construction refers to are in the table. -/
theorem Ir.Builder.Sound.within {K : Ways} {open_ : List BlockId} {b : Builder} {m : Module}
    (h : b.Sound K open_ m) : b.body.Within m.strings.length := by
  intro i hi
  obtain ⟨x, hx, hi⟩ := List.mem_flatMap.mp hi
  rcases List.mem_append.mp hi with hi | hi
  · obtain ⟨j, hj, hi⟩ := List.mem_flatMap.mp hi
    have hop := Function.checkOp_eq_ok.mp ((h.blocks x hx).fits j hj).checkOp
    simpa [Function.exists_iff] using hop.1 _ hi
  · obtain ⟨t, ht⟩ : ∃ t, x.term = some t := Option.ne_none_iff_exists'.mp fun hnone => by
      simp [hnone] at hi
    have hfits := (h.blocks x hx).termFits t ht
    rw [ht] at hi
    cases t with
    | br _ => simp [Terminator.operands] at hi
    | condBr v _ _ =>
      obtain rfl : Value.global i = v := by simpa [Terminator.operands] using hi
      cases hfits
    | ret v =>
      cases v with
      | none => simp [Terminator.operands] at hi
      | some v =>
        obtain rfl : Value.global i = v := by simpa [Terminator.operands, eq_comm] using hi
        simpa [Function.exists_iff] using hfits.2.exists_

namespace Compilation

def functionsOf (items : List Item) : List FunctionDecl := items.filterMap Item.decl?

def statementsOf (items : List Item) : List Stmt := items.filterMap Item.stmt?

/-- What names stand for in code of the module. -/
def namesIn (m : Module) (scope : Scope) : Names where
  signature? n := (m.function? n).bind Signature.of?
  type? n := (scope.lookup? n).map (·.type)

/-- The rules accept the definition, and control does not get to its end if it has a result. -/
def Accepts (m : Module) (fd : FunctionDecl) : Prop :=
  ∃ sig flow, Signature.resolve fd.proto = .ok sig ∧
    (namesIn m (paramScope fd.proto sig)).stmtsFlow sig.result fd.body = .ok flow ∧
    (sig.result = .void ∨ flow = .terminated)

/-- The items can be lowered where `m` offers their prototypes. -/
structure Acceptable (m : Module) (items : List Item) : Prop where
  once : ((functionsOf items).map (·.proto.name)).Nodup
  bodies : ∀ fd ∈ functionsOf items, Accepts m fd
  statements : ∃ flow, (namesIn m .empty).stmtsFlow .void (statementsOf items) = .ok flow

/-- The body that is put into the module. -/
def finished (settings : Settings) (b : Body) : Body :=
  if settings.optimize then Optimize.optimizeBody Optimize.standardPasses Optimize.maxRounds b else b

/-- The function has the body of the definition, lowered where the prototypes were offered. -/
def Built (protos : List Prototype) (settings : Settings) (strings : List String)
    (fd : FunctionDecl) (f : Function) : Prop :=
  ∃ m decl sig s, Offers protos m ∧ Signature.resolve fd.proto = .ok sig ∧
    Yields (lowerBody ⟨settings.guardDivision, sig.result⟩ fd.body)
      (.ofFunction m decl (paramScope fd.proto sig)) () s ∧
    s.module.strings <+: strings ∧ f.body = some (finished settings s.builder.body)

/-- The function of the statements outside of functions, built up to the first of the given ones,
which come in reverse. Behind a return nothing is added. -/
def Continued (protos : List Prototype) (settings : Settings) (strings : List String) :
    List Stmt → Builder → Prop
  | [], b => b = .start toplevelDecl
  | stmt :: before, b => ∃ b0, Continued protos settings strings before b0 ∧
      (b0.isTerminated = true ∧ b = b0 ∨ b0.isTerminated = false ∧ ∃ m flow s, Offers protos m ∧
        Yields (lowerStmt ⟨settings.guardDivision, .void⟩ stmt) ⟨m, some b0, .empty⟩ flow s ∧
        s.module.strings <+: strings ∧ b = s.builder)

/-- The bodies of the module are those of the definitions. -/
structure Stocked (protos : List Prototype) (settings : Settings) (fds : List FunctionDecl)
    (m : Module) : Prop where
  offers : Offers protos m
  bodies : ∀ f ∈ m.functions, f.name ≠ toplevelName →
    (f.body = none ∧ ∀ fd ∈ fds, fd.proto.name ≠ f.name) ∨
      ∃ fd ∈ fds, fd.proto.name = f.name ∧ Built protos settings m.strings fd f

/-- The function of the statements outside of functions is there if there are such statements, and
has come as far as they go. -/
def Begun (protos : List Prototype) (m0 : Module) (stmts : List Stmt) (c : Compilation) : Prop :=
  (stmts = [] ∧ c.toplevel = none ∧ c.module.function? toplevelName = none) ∨
    stmts ≠ [] ∧ ∃ b flow, c.toplevel = some b ∧
      Continued protos c.settings c.module.strings stmts.reverse b ∧
      (namesIn m0 .empty).stmtsFlow .void stmts = .ok flow ∧ b.isTerminated = !flow.goesOn

/-- The items `done` have been lowered, none of them having failed. -/
structure Lowered (protos : List Prototype) (m0 : Module) (done : List Item) (c : Compilation) :
    Prop where
  sane : c.Sane fun _ => True
  orderly : Orderly c.module
  stocked : Stocked protos c.settings (functionsOf done) c.module
  acceptable : Acceptable m0 done
  begun : Begun protos m0 (statementsOf done) c

variable {protos : List Prototype} {settings : Settings} {m m' m0 : Module} {f g : Function}
  {fd : FunctionDecl} {fds : List FunctionDecl} {c c' : Compilation} {done : List Item}
  {strings strings' : List String} {stmts : List Stmt} {stmt : Stmt} {b : Builder} {p : Prototype}

theorem concurs_namesIn (h : m.Concurs m') (scope : Scope) :
    (namesIn m scope).Concurs (namesIn m' scope) := ⟨rfl, h.others⟩

theorem body_stored (c : Compilation) (b : Builder) :
    (c.stored b.finish).body = some (finished c.settings b.body) := by
  unfold Compilation.stored finished
  split <;> rfl

theorem Built.mono (h : Built protos settings strings fd f) (hs : strings <+: strings') :
    Built protos settings strings' fd f := by
  obtain ⟨m, decl, sig, s, hm, hsig, hy, hstrings, hbody⟩ := h
  exact ⟨m, decl, sig, s, hm, hsig, hy, hstrings.trans hs, hbody⟩

theorem Continued.mono (h : Continued protos settings strings stmts b) (hs : strings <+: strings') :
    Continued protos settings strings' stmts b := by
  induction stmts generalizing b with
  | nil => exact h
  | cons stmt before ih =>
    obtain ⟨b0, hb0, hcases⟩ := h
    refine ⟨b0, ih hb0, hcases.imp_right ?_⟩
    rintro ⟨hopen, m, flow, s, hm, hy, hstrings, rfl⟩
    exact ⟨hopen, m, flow, s, hm, hy, hstrings.trans hs, rfl⟩

section Modules

theorem Offers.grows (h : Offers protos m) (hm : m.Grows m') : Offers protos m' where
  origin f hf := h.origin f (hm.functions ▸ hf)
  found p hp := by
    rw [hm.function?]
    exact h.found p hp
  toplevel f hf := h.toplevel f (hm.function? _ ▸ hf)

theorem Offers.addToplevel (h : Offers protos m) (hfree : m.function? toplevelName = none) :
    Offers protos (m.addFunction toplevelDecl) where
  origin f hf := by
    rcases List.mem_append.mp hf with hf | hf
    · exact h.origin f hf
    · rw [List.mem_singleton.mp hf]
      exact .inl rfl
  found p hp := by
    obtain ⟨g, hg, f, hf, hsame⟩ := h.found p hp
    refine ⟨g, hg, f, ?_, hsame⟩
    rw [Module.function?_addFunction, hf]
    rfl
  toplevel f hf := by
    rw [Module.function?_addFunction, hfree] at hf
    cases hf
    exact ⟨rfl, rfl⟩

/-- A function takes the place of one with its signature. -/
theorem Offers.define (h : Offers protos m) {decl : Function} (hdecl : m.function? g.name = some decl)
    (hret : g.ret = decl.ret) (hparams : g.paramTypes = decl.paramTypes) :
    Offers protos (m.define g) where
  origin f hf := by
    rcases Module.mem_functions_define hf with hf | rfl
    · exact h.origin f hf
    · have hname : decl.name = f.name := by simpa using List.find?_some hdecl
      rw [← hname]
      exact h.origin decl (List.mem_of_find?_eq_some hdecl)
  found p hp := by
    obtain ⟨d, hd, f, hf, hsame⟩ := h.found p hp
    rw [Module.function?_define]
    by_cases hname : g.name = p.name
    · rw [hname, hf] at hdecl
      obtain rfl := Option.some.inj hdecl
      exact ⟨d, hd, g, if_pos hname, hret.trans hsame.1, hparams.trans hsame.2⟩
    · exact ⟨d, hd, f, by rw [if_neg hname, hf], hsame⟩
  toplevel f hf := by
    rw [Module.function?_define] at hf
    split at hf
    · rename_i hname
      cases hf
      rw [hname] at hdecl
      obtain ⟨hr, hp⟩ := h.toplevel decl hdecl
      exact ⟨hret.trans hr, hparams.trans hp⟩
    · exact h.toplevel f hf

theorem Stocked.grows (h : Stocked protos settings fds m) (hm : m.Grows m') :
    Stocked protos settings fds m' where
  offers := h.offers.grows hm
  bodies f hf hname := by
    refine (h.bodies f (hm.functions ▸ hf) hname).imp_right ?_
    rintro ⟨fd, hfd, hfdname, hbuilt⟩
    exact ⟨fd, hfd, hfdname, hbuilt.mono hm.strings⟩

theorem Stocked.addToplevel (h : Stocked protos settings fds m)
    (hfree : m.function? toplevelName = none) :
    Stocked protos settings fds (m.addFunction toplevelDecl) where
  offers := h.offers.addToplevel hfree
  bodies f hf hname := by
    rcases List.mem_append.mp hf with hf | hf
    · exact h.bodies f hf hname
    · rw [List.mem_singleton.mp hf] at hname
      exact absurd rfl hname

theorem mem_define (m : Module) (g : Function) : g ∈ (m.define g).functions := by
  have hfound : (m.define g).function? g.name = some g := by
    rw [Module.function?_define, if_pos rfl]
  exact List.mem_of_find?_eq_some hfound

/-- A definition is put into the place of its declaration. -/
theorem Stocked.define (h : Stocked protos settings fds m) (hm : m.NamesApart) {decl : Function}
    (hdecl : m.function? g.name = some decl) (hret : g.ret = decl.ret)
    (hparams : g.paramTypes = decl.paramTypes) (hname : fd.proto.name = g.name)
    (hbuilt : Built protos settings m.strings fd g) :
    Stocked protos settings (fds ++ [fd]) (m.define g) where
  offers := h.offers.define hdecl hret hparams
  bodies f hf htop := by
    rw [Module.strings_define]
    by_cases hfg : f.name = g.name
    · obtain rfl : f = g := hm.define.eq hf (mem_define m g) hfg
      exact .inr ⟨fd, by simp, hname, hbuilt⟩
    · have hold : f ∈ m.functions := (Module.mem_functions_define hf).resolve_right
        fun heq => hfg (congrArg Function.name heq)
      refine (h.bodies f hold htop).imp ?_ ?_
      · rintro ⟨hnone, hother⟩
        refine ⟨hnone, List.forall_mem_append.mpr ⟨hother, ?_⟩⟩
        simpa [hname] using Ne.symm hfg
      · rintro ⟨fd', hfd', hrest⟩
        exact ⟨fd', List.mem_append_left _ hfd', hrest⟩

/-- The function of the statements outside of functions is put into the module. -/
theorem Stocked.defineToplevel (h : Stocked protos settings fds m) {decl : Function}
    (hdecl : m.function? g.name = some decl) (hret : g.ret = decl.ret)
    (hparams : g.paramTypes = decl.paramTypes) (hname : g.name = toplevelName) :
    Stocked protos settings fds (m.define g) where
  offers := h.offers.define hdecl hret hparams
  bodies f hf htop := by
    rw [Module.strings_define]
    rcases Module.mem_functions_define hf with hf | rfl
    · exact h.bodies f hf htop
    · exact absurd hname htop

end Modules

section Steps

/-- Declaring again what is offered changes nothing. -/
theorem Offers.declare (h : Offers protos c.module) (hp : p ∈ protos) :
    Yields (declare p) c () c := by
  obtain ⟨_, ⟨sig, hsig, hroutine, rfl⟩, f, hf, hret, hparams⟩ := h.found p hp
  unfold Yields
  rw [run_declare hsig hroutine, hf]
  dsimp only
  rw [if_pos (Function.sameSignature_iff.mpr ⟨hret, hparams⟩)]

theorem functionsOf_function (done : List Item) (fd : FunctionDecl) :
    functionsOf (done ++ [.function fd]) = functionsOf done ++ [fd] := by
  simp [functionsOf, Item.decl?]

theorem statementsOf_function (done : List Item) (fd : FunctionDecl) :
    statementsOf (done ++ [.function fd]) = statementsOf done := by
  simp [statementsOf, Item.stmt?]

/-- A function is declared by its prototype and has no body yet, unless it was defined before. -/
theorem Stocked.declared (h : Stocked protos settings fds c.module) {decl : Function}
    (hdecl : c.module.function? fd.proto.name = some decl) (htop : fd.proto.name ≠ toplevelName) :
    decl.body = none ↔ ∀ fd' ∈ fds, fd'.proto.name ≠ fd.proto.name := by
  have hname : decl.name = fd.proto.name := by simpa using List.find?_some hdecl
  rw [← hname] at htop ⊢
  rcases h.bodies decl (List.mem_of_find?_eq_some hdecl) htop with ⟨hnone, hother⟩ | hdone
  · exact iff_of_true hnone hother
  · obtain ⟨fd', hfd', hsame, _, _, _, _, _, _, _, _, hbody⟩ := hdone
    exact iff_of_false (by simp [hbody]) fun hother => hother fd' hfd' hsame

theorem Past.names_concurs {decl : Function} {sig : Signature} (h : Offers protos c.module)
    (h0 : Offers protos m0) (fd : FunctionDecl) :
    (namesIn m0 (paramScope fd.proto sig)).Concurs (c.bodyStart fd decl sig).names :=
  concurs_namesIn (h0.concurs h fun _ => .rfl) _

/-- The rules accept a body that was carried out. -/
theorem Past.accepts {c1 : Compilation} {decl : Function} {sig : Signature}
    (h : Past c fd c1 decl sig) (hc : c.module.Honest) (hy : Yields (define fd) c () c') :
    ∃ flow, (c1.bodyStart fd decl sig).names.stmtsFlow sig.result fd.body = .ok flow ∧
      (sig.result = .void ∨ flow = .terminated) := by
  have hjudged := h.judged hc
  rw [show (define fd).run.run c = _ from hy] at hjudged
  generalize Names.stmtsFlow _ _ fd.body = verdict at hjudged ⊢
  cases hjudged with
  | defined hflow => exact ⟨_, rfl, hflow⟩

theorem Acceptable.function (h : Acceptable m done) (hfd : Accepts m fd)
    (hnew : ∀ fd' ∈ functionsOf done, fd'.proto.name ≠ fd.proto.name) :
    Acceptable m (done ++ [.function fd]) where
  once := by
    rw [functionsOf_function, List.map_append, List.nodup_append]
    refine ⟨h.once, List.nodup_singleton _, ?_⟩
    intro a ha b hb
    obtain ⟨fd', hfd', rfl⟩ := List.mem_map.mp ha
    obtain rfl : b = fd.proto.name := by simpa using hb
    exact hnew fd' hfd'
  bodies := by
    rw [functionsOf_function]
    exact List.forall_mem_append.mpr ⟨h.bodies, by simpa using hfd⟩
  statements := by
    rw [statementsOf_function]
    exact h.statements

theorem Begun.mono (h : Begun protos m0 stmts c) (htop : c'.toplevel = c.toplevel)
    (hset : c'.settings = c.settings) (hstrings : c.module.strings <+: c'.module.strings)
    (hfree : c.module.function? toplevelName = none → c'.module.function? toplevelName = none) :
    Begun protos m0 stmts c' := by
  rcases h with ⟨hnil, hnone, hfun⟩ | ⟨hne, b, flow, hb, hcont, hflow⟩
  · exact .inl ⟨hnil, htop.trans hnone, hfree hfun⟩
  · refine .inr ⟨hne, b, flow, htop.trans hb, ?_, hflow⟩
    rw [hset]
    exact hcont.mono hstrings

theorem Lowered.of_define (h : Lowered protos m0 done c) (h0 : Offers protos m0)
    (hp : fd.proto ∈ protos) (havoids : (Item.function fd).Avoids)
    (hy : Yields (define fd) c () c') : Lowered protos m0 (done ++ [.function fd]) c' := by
  have hsane := (h.sane.of_define (upheld_true _) hy).1
  have hleaves := leaves_define h.orderly.honest fd
  have houtcome := define_outcome c fd
  rw [show (define fd).run.run c = _ from hy] at hleaves houtcome
  cases houtcome with
  | @defined c1 decl sig s past hrun hverify =>
    obtain rfl : c = c1 := congrArg Prod.snd ((h.stocked.offers.declare hp).symm.trans past.declared)
    obtain ⟨K, hsound, hsince⟩ := past.sound h.sane.honest hrun hverify
    have hgrows : c.module.Grows s.module := hsince.grows.module
    have hname : (c.stored s.builder.finish).name = fd.proto.name :=
      (stored_name c _).trans (past.since h.sane.honest hrun).1
    have hdecl : s.module.function? (c.stored s.builder.finish).name = some decl := by
      rw [hname, hgrows.function?]
      exact past.found
    have hbuilt : Built protos c.settings s.module.strings fd (c.stored s.builder.finish) :=
      ⟨c.module, decl, sig, s, h.stocked.offers, past.resolved, hrun, List.prefix_rfl,
        body_stored c s.builder⟩
    have hnames : s.module.NamesApart := by
      unfold Module.NamesApart
      rw [hgrows.functions]
      exact h.orderly.names
    have hret : (c.stored s.builder.finish).ret = decl.ret := by
      unfold Compilation.stored
      split <;> exact hsince.grows.ret
    have hparams : (c.stored s.builder.finish).paramTypes = decl.paramTypes := by
      unfold Compilation.stored
      split <;> exact congrArg (List.map Ir.Param.ty) hsince.grows.params
    refine ⟨hsane, h.orderly.leaves hleaves, ?_, ?_, ?_⟩
    · rw [functionsOf_function]
      exact (h.stocked.grows hgrows).define hnames hdecl hret hparams hname.symm hbuilt
    · have hnew := (h.stocked.declared past.found havoids.1).mp past.bodiless
      obtain ⟨flow, hverdict, hflow⟩ := past.accepts h.sane.honest hy
      rw [(Past.names_concurs h.stocked.offers h0 fd).stmtsFlow fd.body havoids.2] at hverdict
      exact h.acceptable.function ⟨sig, flow, past.resolved, hverdict, hflow⟩ hnew
    · rw [statementsOf_function]
      refine h.begun.mono rfl rfl ?_ fun hfree => ?_
      · change c.module.strings <+: (s.module.define _).strings
        rw [Module.strings_define]
        exact hgrows.strings
      · change (s.module.define _).function? toplevelName = none
        rw [Module.function?_define, hname, if_neg havoids.1, hgrows.function?, hfree]

/-- A definition that the rules accept is carried out, unless there was one before. -/
theorem Lowered.exists_define (h : Lowered protos m0 done c) (h0 : Offers protos m0)
    (hp : fd.proto ∈ protos) (havoids : (Item.function fd).Avoids)
    (hacc : Acceptable m0 (done ++ [.function fd])) : ∃ c', Yields (define fd) c () c' := by
  have hdeclare := h.stocked.offers.declare hp
  rcases define_cases c fd with ⟨e, c1, herror, _⟩ | ⟨c1, decl, hyields, hfound, hcases⟩
  · cases hdeclare.symm.trans herror
  obtain rfl : c = c1 := congrArg Prod.snd (hdeclare.symm.trans hyields)
  have hdeclared := h.stocked.declared hfound havoids.1
  have honce := hacc.once
  rw [functionsOf_function, List.map_append, List.nodup_append] at honce
  have hnew : ∀ fd' ∈ functionsOf done, fd'.proto.name ≠ fd.proto.name := fun fd' hfd' =>
    honce.2.2 _ (List.mem_map_of_mem hfd') _ (by simp)
  rcases hcases with ⟨hsome, _⟩ | ⟨sig, past⟩
  · rw [hdeclared.mpr hnew] at hsome
    cases hsome
  · obtain ⟨sig', flow, hsig', hverdict, hflow⟩ := hacc.bodies fd (by simp [functionsOf_function])
    obtain rfl : sig = sig' := Except.ok.inj (past.resolved.symm.trans hsig')
    have hjudged := past.judged h.sane.honest
    rw [(Past.names_concurs h.stocked.offers h0 fd).stmtsFlow fd.body havoids.2, hverdict] at hjudged
    generalize hrun : (define fd).run.run c = result at hjudged
    cases hjudged with
    | unfinished hopen => exact absurd hflow hopen
    | defined _ => exact ⟨_, hrun⟩

theorem Lowered.of_declare (h : Lowered protos m0 done c) (hp : p ∈ protos)
    (hy : Yields (declare p) c () c') : Lowered protos m0 (done ++ [.foreign p]) c' := by
  obtain rfl : c = c' := congrArg Prod.snd ((h.stocked.offers.declare hp).symm.trans hy)
  have hfunctions : functionsOf (done ++ [.foreign p]) = functionsOf done := by
    simp [functionsOf, Item.decl?]
  have hstatements : statementsOf (done ++ [.foreign p]) = statementsOf done := by
    simp [statementsOf, Item.stmt?]
  refine ⟨h.sane, h.orderly, ?_, ⟨?_, ?_, ?_⟩, ?_⟩
  · rw [hfunctions]
    exact h.stocked
  · rw [hfunctions]
    exact h.acceptable.once
  · rw [hfunctions]
    exact h.acceptable.bodies
  · rw [hstatements]
    exact h.acceptable.statements
  · rw [hstatements]
    exact h.begun

theorem functionsOf_statement (done : List Item) (stmt : Stmt) :
    functionsOf (done ++ [.statement stmt]) = functionsOf done := by
  simp [functionsOf, Item.decl?]

theorem statementsOf_statement (done : List Item) (stmt : Stmt) :
    statementsOf (done ++ [.statement stmt]) = statementsOf done ++ [stmt] := by
  simp [statementsOf, Item.stmt?]

/-- The function of the statements outside of functions, before the next statement. -/
theorem Lowered.toplevelBuilder (h : Lowered protos m0 done c) : ∃ b c1 flow,
    Yields toplevelBuilder c b c1 ∧ c1.settings = c.settings ∧
    Stocked protos c.settings (functionsOf done) c1.module ∧
    c1.module.strings = c.module.strings ∧
    Continued protos c.settings c.module.strings (statementsOf done).reverse b ∧
    (namesIn m0 .empty).stmtsFlow .void (statementsOf done) = .ok flow ∧
    b.isTerminated = !flow.goesOn := by
  unfold Yields
  rw [run_toplevelBuilder]
  rcases h.begun with ⟨hnil, hnone, hfree⟩ | ⟨_, b, flow, hb, hcont, hflow, hterm⟩
  · rw [hnone, hfree]
    refine ⟨.start toplevelDecl, _, .continues, rfl, rfl, h.stocked.addToplevel hfree, rfl, ?_, ?_,
      rfl⟩
    · rw [hnil]
      rfl
    · rw [hnil, Names.stmtsFlow]
  · rw [hb]
    exact ⟨b, c, flow, rfl, rfl, h.stocked, rfl, hcont, hflow, hterm⟩

theorem Acceptable.statement {flow : Flow} (h : Acceptable m done)
    (hflow : (namesIn m .empty).stmtsFlow .void (statementsOf done ++ [stmt]) = .ok flow) :
    Acceptable m (done ++ [.statement stmt]) where
  once := by
    rw [functionsOf_statement]
    exact h.once
  bodies := by
    rw [functionsOf_statement]
    exact h.bodies
  statements := by
    rw [statementsOf_statement]
    exact ⟨flow, hflow⟩

theorem Lowered.of_lowerToplevel (h : Lowered protos m0 done c) (h0 : Offers protos m0)
    (havoids : stmt.Avoids) (hy : Yields (lowerToplevel stmt) c () c') :
    Lowered protos m0 (done ++ [.statement stmt]) c' := by
  have hsane := (h.sane.of_lowerToplevel (upheld_true _) hy).1
  have hleaves := leaves_lowerItem h.orderly.honest (.statement stmt)
  rw [show (lowerItem (.statement stmt)).run.run c = _ from hy] at hleaves
  obtain ⟨b, c1, flow, hb, hset, hstocked, hstrings, hcont, hflow, hterm⟩ := h.toplevelBuilder
  have hout := (h.sane.of_toplevelBuilder trivial hb).2.1
  have hrun := hy.symm.trans (run_lowerToplevel stmt hb)
  have happend := (namesIn m0 .empty).stmtsFlow_append .void (statementsOf done) stmt
  rw [hflow] at happend
  rcases hout.underway.cases with ⟨⟨K, hlive⟩, hopen⟩ | ⟨_, hended⟩
  · obtain ⟨⟨r, s⟩, hstmt⟩ : ∃ p, (lowerStmt ⟨c1.settings.guardDivision, .void⟩ stmt).run.run
      ⟨c1.module, some b, .empty⟩ = p := ⟨_, rfl⟩
    rw [hopen, hstmt] at hrun
    obtain rfl : flow = .continues := by
      rw [hopen] at hterm
      cases flow <;> first | rfl | cases hterm
    cases r with
    | error e => cases hrun
    | ok next =>
      cases hrun
      obtain ⟨_, hgrows, hend⟩ := hout.of_lowerStmt (upheld_true _) hlive hstmt
      obtain ⟨_, hverdict, rfl⟩ := (Lowering.judged_stmt _ stmt).inv hstmt
      have hnames : (namesIn m0 .empty).Concurs (namesIn c1.module .empty) :=
        concurs_namesIn (h0.concurs hstocked.offers fun _ => .rfl) .empty
      have hnext : (namesIn m0 .empty).stmtsFlow .void (statementsOf done ++ [stmt]) = .ok next :=
        happend.trans ((hnames.stmtFlow stmt havoids).symm.trans hverdict)
      have hgrown : c.module.strings <+: s.module.strings := hstrings ▸ hgrows.strings
      refine ⟨hsane, h.orderly.leaves hleaves, ?_, h.acceptable.statement hnext, .inr ?_⟩
      · rw [functionsOf_statement, hset]
        exact hstocked.grows hgrows
      · rw [statementsOf_statement, List.reverse_append]
        refine ⟨by simp, s.builder, next, rfl, ?_, hnext, hend⟩
        rw [hset]
        refine ⟨b, hcont.mono hgrown, .inr ⟨hopen, c1.module, next, s, hstocked.offers, ?_,
          List.prefix_rfl, rfl⟩⟩
        rw [← hset]
        exact hstmt
  · rw [hended] at hrun
    cases hrun
    obtain rfl : flow = .terminated := by
      rw [hended] at hterm
      cases flow <;> first | rfl | cases hterm
    refine ⟨hsane, h.orderly.leaves hleaves, ?_, h.acceptable.statement happend, .inr ?_⟩
    · rw [functionsOf_statement, hset]
      exact hstocked
    · rw [statementsOf_statement, List.reverse_append]
      refine ⟨by simp, b, .terminated, rfl, ?_, happend, hended⟩
      rw [hset, hstrings]
      exact ⟨b, hcont, .inl ⟨hended, rfl⟩⟩

/-- A statement is carried out if the rules accept the statements up to it. -/
theorem Lowered.exists_lowerToplevel (h : Lowered protos m0 done c) (h0 : Offers protos m0)
    (havoids : stmt.Avoids) (hacc : Acceptable m0 (done ++ [.statement stmt])) :
    ∃ c', Yields (lowerToplevel stmt) c () c' := by
  obtain ⟨b, c1, flow, hb, hset, hstocked, hstrings, hcont, hflow, hterm⟩ := h.toplevelBuilder
  have hout := (h.sane.of_toplevelBuilder trivial hb).2.1
  unfold Yields
  rw [run_lowerToplevel stmt hb]
  rcases hout.underway.cases with ⟨⟨K, hlive⟩, hopen⟩ | ⟨_, hended⟩
  · have hfollows := hlive.ready.follows_stmt ⟨c1.settings.guardDivision, .void⟩ stmt
    obtain ⟨last, hlast⟩ := hacc.statements
    rw [statementsOf_statement, Names.stmtsFlow_append, hflow] at hlast
    have hnames : (namesIn m0 .empty).Concurs (namesIn c1.module .empty) :=
      concurs_namesIn (h0.concurs hstocked.offers fun _ => .rfl) .empty
    obtain rfl : flow = .continues := by
      rw [hopen] at hterm
      cases flow <;> first | rfl | cases hterm
    change Lowering.Follows _ _ _ ((namesIn c1.module .empty).stmtFlow .void stmt) at hfollows
    rw [hnames.stmtFlow stmt havoids, show (namesIn m0 .empty).stmtFlow .void stmt = _ from hlast]
      at hfollows
    obtain ⟨next, s, hy, _⟩ := hfollows
    rw [hopen]
    dsimp only
    rw [show (lowerStmt _ stmt).run.run _ = _ from hy]
    exact ⟨_, rfl⟩
  · rw [hended]
    exact ⟨_, rfl⟩

theorem Lowered.of_lowerItem (h : Lowered protos m0 done c) (h0 : Offers protos m0) {item : Item}
    (hproto : ∀ p, item.proto? = some p → p ∈ protos) (havoids : item.Avoids)
    (hy : Yields (lowerItem item) c () c') : Lowered protos m0 (done ++ [item]) c' := by
  cases item with
  | function fd => exact h.of_define h0 (hproto fd.proto rfl) havoids hy
  | foreign p => exact h.of_declare (hproto p rfl) hy
  | statement stmt => exact h.of_lowerToplevel h0 havoids hy

theorem Lowered.exists_lowerItem (h : Lowered protos m0 done c) (h0 : Offers protos m0) {item : Item}
    (hproto : ∀ p, item.proto? = some p → p ∈ protos) (havoids : item.Avoids)
    (hacc : Acceptable m0 (done ++ [item])) : ∃ c', Yields (lowerItem item) c () c' := by
  cases item with
  | function fd => exact h.exists_define h0 (hproto fd.proto rfl) havoids hacc
  | foreign p => exact ⟨c, h.stocked.offers.declare (hproto p rfl)⟩
  | statement stmt => exact h.exists_lowerToplevel h0 havoids hacc

end Steps

section Passes

variable {items rest : List Item} {name : String}

theorem Acceptable.initial (h : Acceptable m (items ++ rest)) : Acceptable m items := by
  have hfunctions : functionsOf (items ++ rest) = functionsOf items ++ functionsOf rest :=
    List.filterMap_append
  have hstatements : statementsOf (items ++ rest) = statementsOf items ++ statementsOf rest :=
    List.filterMap_append
  refine ⟨?_, fun fd hfd => ?_, ?_⟩
  · have honce := h.once
    rw [hfunctions, List.map_append] at honce
    exact (List.nodup_append.mp honce).1
  · refine h.bodies fd ?_
    rw [hfunctions]
    exact List.mem_append_left _ hfd
  · obtain ⟨flow, hflow⟩ := h.statements
    rw [hstatements] at hflow
    exact Names.stmtsFlow_initial hflow

/-- The second pass over the items. -/
theorem Lowered.of_lowerItems (h : Lowered protos m0 done c) (h0 : Offers protos m0)
    (hitems : ∀ item ∈ items, item.Avoids ∧ ∀ p, item.proto? = some p → p ∈ protos)
    (hy : Yields (items.forM lowerItem) c () c') : Lowered protos m0 (done ++ items) c' := by
  induction items generalizing done c with
  | nil =>
    obtain ⟨_, rfl⟩ := yields_pure.mp hy
    simpa using h
  | cons item items ih =>
    obtain ⟨hitem, hrest⟩ := List.forall_mem_cons.mp hitems
    obtain ⟨_, c1, hfirst, hy⟩ := yields_bind.mp hy
    have h1 := h.of_lowerItem h0 hitem.2 hitem.1 hfirst
    simpa using ih h1 hrest hy

/-- What every step of the second pass keeps in the module holds after it. -/
theorem Lowered.keeps {I : Module → Prop} (h : Lowered protos m0 done c) (h0 : Offers protos m0)
    (hitems : ∀ item ∈ items, item.Avoids ∧ ∀ p, item.proto? = some p → p ∈ protos)
    (hy : Yields (items.forM lowerItem) c () c')
    (hstep : ∀ m m' : Module, m.NamesApart → m'.NamesApart → Offers protos m → Offers protos m' →
      m.Leaves (.ok ()) m' → I m → I m') (hI : I c.module) : I c'.module := by
  induction items generalizing done c with
  | nil =>
    obtain ⟨_, rfl⟩ := yields_pure.mp hy
    exact hI
  | cons item items ih =>
    obtain ⟨hitem, hrest⟩ := List.forall_mem_cons.mp hitems
    obtain ⟨_, c1, hfirst, hy⟩ := yields_bind.mp hy
    have h1 := h.of_lowerItem h0 hitem.2 hitem.1 hfirst
    have hleaves := leaves_lowerItem h.orderly.honest item
    rw [show (lowerItem item).run.run c = _ from hfirst] at hleaves
    exact ih h1 hrest hy (hstep _ _ h.orderly.names h1.orderly.names h.stocked.offers
      h1.stocked.offers hleaves hI)

theorem Lowered.exists_lowerItems (h : Lowered protos m0 done c) (h0 : Offers protos m0)
    (hitems : ∀ item ∈ items, item.Avoids ∧ ∀ p, item.proto? = some p → p ∈ protos)
    (hacc : Acceptable m0 (done ++ items)) : ∃ c', Yields (items.forM lowerItem) c () c' := by
  induction items generalizing done c with
  | nil => exact ⟨c, rfl⟩
  | cons item items ih =>
    obtain ⟨hitem, hrest⟩ := List.forall_mem_cons.mp hitems
    have hacc' : Acceptable m0 ((done ++ [item]) ++ items) := by simpa using hacc
    obtain ⟨c1, hfirst⟩ := h.exists_lowerItem h0 hitem.2 hitem.1 hacc'.initial
    obtain ⟨c', hy⟩ := ih (h.of_lowerItem h0 hitem.2 hitem.1 hfirst) hrest hacc'
    exact ⟨c', yields_bind.mpr ⟨(), c1, hfirst, hy⟩⟩

/-- Where the second pass starts. -/
theorem lowered_declared (havoids : ∀ item ∈ items, item.Avoids)
    (hy : Yields (items.forM declareItem) (.start name settings) () c) :
    Lowered (protosOf items) c.module [] c ∧ Offers (protosOf items) c.module ∧
      c.settings = settings := by
  have hprotos : ∀ p ∈ protosOf items, p.name ≠ toplevelName := by
    intro p hp
    obtain ⟨item, hitem, hproto⟩ := List.mem_filterMap.mp hp
    have hitem := havoids item hitem
    cases item with
    | function fd =>
      cases hproto
      exact hitem.1
    | foreign q =>
      cases hproto
      exact hitem
    | statement stmt => cases hproto
  obtain ⟨hann, htop, hset, hstrings⟩ := (announces_start name settings).of_declareItems hy
  rw [List.nil_append] at hann
  have hoffers := hann.offers hprotos
  have hstart : (Compilation.start name settings).Sane (fun _ => True) ∧
      Orderly (Compilation.start name settings).module := ⟨sane_start name settings, orderly_start ..⟩
  have hinv := forM_invariant
    (P := fun c => c.Sane (fun _ => True) ∧ Orderly c.module) (fun item c c' hc hy => by
      refine ⟨(hc.1.of_declareItem hy).1, ?_⟩
      rcases yields_declareItem.mp hy with ⟨_, rfl⟩ | ⟨p, _, hp⟩
      · exact hc.2
      · have hprepares := prepares_declare p c
        rw [show (declare p).run.run c = _ from hp] at hprepares
        exact hc.2.leaves (.prepared (r := .ok ()) hprepares)) items hstart hy
  refine ⟨⟨hinv.1, hinv.2, ⟨hoffers, fun f hf _ => .inl ⟨?_, nofun⟩⟩, ⟨List.nodup_nil, nofun,
    .continues, ?_⟩, .inl ⟨rfl, htop, ?_⟩⟩, hoffers, hset⟩
  · obtain ⟨p, _, sig, _, _, rfl⟩ := hann.origin f hf
    rfl
  · change Names.stmtsFlow _ _ [] = _
    rw [Names.stmtsFlow]
  · refine Module.function?_eq_none.mpr fun f hf hname => ?_
    obtain ⟨p, hp, hdecl⟩ := hann.origin f hf
    exact hprotos p hp (hdecl.name.symm.trans hname)

theorem among_protosOf (items : List Item) :
    ∀ item ∈ items, ∀ p, item.proto? = some p → p ∈ protosOf items :=
  fun item hitem _ hp => List.mem_filterMap.mpr ⟨item, hitem, hp⟩

/-- A program is compiled exactly if its prototypes can be declared and its items are acceptable where
they are. -/
theorem exists_compileItems_iff (havoids : ∀ item ∈ items, item.Avoids) :
    (∃ m c, Yields (compileItems items none) (.start name settings) m c) ↔
      ∃ c, Yields (items.forM declareItem) (.start name settings) () c ∧
        Acceptable c.module items := by
  have hitems : ∀ item ∈ items, item.Avoids ∧ ∀ p, item.proto? = some p → p ∈ protosOf items :=
    fun item hitem => ⟨havoids item hitem, among_protosOf items item hitem⟩
  constructor
  · rintro ⟨m, c, hy⟩
    obtain ⟨_, c1, hdeclare, hy⟩ := yields_bind.mp hy
    obtain ⟨_, c2, hlower, _⟩ := yields_bind.mp hy
    obtain ⟨h1, hoffers, _⟩ := lowered_declared havoids hdeclare
    exact ⟨c1, hdeclare, (h1.of_lowerItems hoffers hitems hlower).acceptable⟩
  · rintro ⟨c1, hdeclare, hacc⟩
    obtain ⟨h1, hoffers, _⟩ := lowered_declared havoids hdeclare
    obtain ⟨c2, hlower⟩ := h1.exists_lowerItems hoffers hitems hacc
    obtain ⟨c3, m, hfinish⟩ := (h1.of_lowerItems hoffers hitems hlower).sane.finish
    exact ⟨m, c3, yields_bind.mpr ⟨(), c1, hdeclare, yields_bind.mpr ⟨(), c2, hlower, hfinish⟩⟩⟩

/-- What a compilation of the items leads to, before what is unused is discarded. -/
structure Finished (protos : List Prototype) (settings : Settings) (items : List Item) (m : Module) :
    Prop where
  stocked : Stocked protos settings (functionsOf items) m
  names : m.NamesApart
  strings : m.strings.Nodup
  within : ∀ f ∈ m.functions, ∀ b, f.body = some b → b.Within m.strings.length
  once : ((functionsOf items).map (·.proto.name)).Nodup
  outside : (statementsOf items = [] ∧ m.function? toplevelName = none) ∨
    statementsOf items ≠ [] ∧ ∃ b b' f,
      Continued protos settings m.strings (statementsOf items).reverse b ∧
      b.terminate (.ret none) = .ok b' ∧ m.function? toplevelName = some f ∧
      f.body = some (finished settings b'.body)

theorem Sane.within {I : Builder → Prop} (h : c.Sane I) :
    ∀ f ∈ c.module.functions, ∀ b, f.body = some b → b.Within c.module.strings.length := by
  intro f hf body hbody
  obtain ⟨K, b, m, hsound, _, hserves, rfl⟩ := h.stored f hf (by simp [hbody])
  rw [body_stored] at hbody
  obtain rfl := Option.some.inj hbody
  have hwithin := hsound.within
  have hfinished : (finished c.settings b.body).Within m.strings.length := by
    unfold Compilation.finished
    split
    · exact Optimize.within_optimizeBody hwithin _ _
    · exact hwithin
  exact fun i hi => (hfinished i hi).trans_le hserves.strings

theorem Outside.exists_function {I : Builder → Prop} (h : Outside I m b) :
    ∃ decl, m.function? toplevelName = some decl := by
  have hdeclared := h.declared
  unfold Module.calleeSignature? at hdeclared
  cases hf : m.function? toplevelName with
  | some decl => exact ⟨decl, rfl⟩
  | none =>
    rw [hf] at hdeclared
    obtain ⟨r, hr, _⟩ := Option.map_eq_some_iff.mp hdeclared
    have hname : r.name = toplevelName := by simpa using List.find?_some hr
    cases r <;> simp [toplevelName, Routine.name] at hname

theorem Lowered.finished (h : Lowered protos m0 items c) :
    ∃ c1, Yields finishToplevel c () c1 ∧ Finished protos c.settings items c1.module := by
  obtain ⟨c1, hy, hsane, _⟩ := h.sane.of_finishToplevel (upheld_true _)
  refine ⟨c1, hy, ?_⟩
  rcases h.begun with ⟨hnil, hnone, hfree⟩ | ⟨hne, b, flow, hb, hcont, _⟩
  · have hrun := hy.symm.trans run_finishToplevel
    rw [hnone] at hrun
    cases hrun
    exact ⟨h.stocked, h.orderly.names, h.orderly.strings, hsane.within, h.acceptable.once,
      .inl ⟨hnil, hfree⟩⟩
  · obtain ⟨K, b', hterm, _, hname, hparams, hret, hy'⟩ := h.sane.exists_finishToplevel hb
    cases hy.symm.trans hy'
    obtain ⟨decl, hdecl⟩ := (h.sane.toplevel b hb).exists_function
    have hgname : (c.stored b'.finish).name = toplevelName := (stored_name c _).trans hname
    obtain ⟨hdret, hdparams⟩ := h.stocked.offers.toplevel decl hdecl
    have hgret : (c.stored b'.finish).ret = decl.ret := by
      rw [hdret]
      unfold Compilation.stored
      split <;> exact hret
    have hgparams : (c.stored b'.finish).paramTypes = decl.paramTypes := by
      rw [hdparams]
      unfold Compilation.stored
      split <;> exact congrArg (List.map Ir.Param.ty) hparams
    have hstocked := h.stocked.defineToplevel (g := c.stored b'.finish) (hgname ▸ hdecl) hgret hgparams
      hgname
    refine ⟨hstocked, h.orderly.names.define, ?_, hsane.within, h.acceptable.once,
      .inr ⟨hne, b, b', _, ?_, hterm, ?_, body_stored c b'⟩⟩
    · change (c.module.define _).strings.Nodup
      rw [Module.strings_define]
      exact h.orderly.strings
    · change Continued protos c.settings (c.module.define _).strings _ b
      rw [Module.strings_define]
      exact hcont
    · change (c.module.define (c.stored b'.finish)).function? toplevelName = _
      rw [Module.function?_define, if_pos hgname]

end Passes

end Compilation

end SsaCompiler
