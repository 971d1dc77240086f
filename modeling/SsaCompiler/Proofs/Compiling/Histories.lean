import SsaCompiler.Proofs.Compiling.Sanity

/-!
What holds of the module after any calls, carried out or given up with an error. A call may declare
one function; then strings and routines are added; in the end a definition may be put into the
module, or taken out of it if the verifier finds a flaw. Main statement: names and strings stay
distinct, routines keep their signatures and so does every function as long as it is there, and
without a flaw so far, all bodies are well formed in the module as it is now.
-/
namespace SsaCompiler

open Ir LowerM

namespace Ir.Module

variable {m m' m1 m2 : Module} {f g decl : Function} {name : String}

/-- No two functions have the same name. -/
def NamesApart (m : Module) : Prop := (m.functions.map (·.name)).Nodup

theorem NamesApart.eq (h : m.NamesApart) (hf : f ∈ m.functions) (hg : g ∈ m.functions)
    (hname : f.name = g.name) : f = g := List.inj_on_of_nodup_map h hf hg hname

theorem function?_eq_none : m.function? name = none ↔ ∀ f ∈ m.functions, f.name ≠ name := by
  simp [function?, List.find?_eq_none]

theorem NamesApart.addFunction (h : m.NamesApart) (hnew : m.function? f.name = none) :
    (m.addFunction f).NamesApart := by
  unfold NamesApart Module.addFunction
  rw [List.map_append, List.nodup_append]
  refine ⟨h, List.nodup_singleton _, ?_⟩
  intro a ha b hb
  obtain ⟨g, hg, rfl⟩ := List.mem_map.mp ha
  obtain rfl : b = f.name := by simpa using hb
  exact function?_eq_none.mp hnew g hg

/-- A function that takes the place of another one leaves the names as they are. -/
theorem names_define (hdecl : m.function? f.name = some decl) :
    (m.define f).functions.map (·.name) = m.functions.map (·.name) := by
  unfold Module.define
  split
  · rename_i i hidx
    obtain ⟨hlt, hname, _⟩ := List.findIdx?_eq_some_iff_getElem.mp hidx
    change (m.functions.set i f).map (·.name) = _
    rw [List.map_set]
    apply List.ext_getElem?
    intro j
    rw [List.getElem?_set]
    split
    · rename_i hj
      subst hj
      simpa [hlt] using (of_decide_eq_true hname).symm
    · rfl
  · rename_i hnone
    have hfree : m.function? f.name = none :=
      function?_eq_none.mpr (by simpa using List.findIdx?_eq_none_iff.mp hnone)
    rw [hfree] at hdecl
    cases hdecl

theorem NamesApart.define (h : m.NamesApart) : (m.define f).NamesApart := by
  cases hfound : m.function? f.name with
  | some decl =>
    unfold NamesApart
    rw [names_define hfound]
    exact h
  | none =>
    have hidx : m.functions.findIdx? (·.name = f.name) = none :=
      List.findIdx?_eq_none_iff.mpr (by simpa using function?_eq_none.mp hfound)
    unfold Module.define
    rw [hidx]
    exact h.addFunction hfound

theorem NamesApart.removeFunction (h : m.NamesApart) (name : String) :
    (m.removeFunction name).NamesApart :=
  h.sublist ((List.eraseP_sublist).map _)

theorem nodup_strings_internString (h : m.strings.Nodup) (text : String) :
    (m.internString text).2.strings.Nodup := by
  unfold internString
  split
  · exact h
  · rename_i hnone
    have hnew : text ∉ m.strings := by
      intro hmem
      simpa using List.findIdx?_eq_none_iff.mp hnone text hmem
    exact List.nodup_append.mpr ⟨h, List.nodup_singleton _, by
      intro a ha b hb
      rw [List.mem_singleton.mp hb]
      exact fun heq => hnew (heq ▸ ha)⟩

/-- What every call may do: at most one function is declared, and strings and routines are added. -/
structure Prepares (m m' : Module) : Prop where
  declared : ∃ m1, m1.Grows m' ∧ (m1 = m ∨ ∃ decl : Function, m.function? decl.name = none ∧
    decl.Fits ∧ decl.body = none ∧ m1 = m.addFunction decl)
  strings : m.strings.Nodup → m'.strings.Nodup

/-- What a call leaves of the module `m`, by its result. -/
inductive Leaves (m : Module) : Except CompileError Unit → Module → Prop
  | prepared {r : Except CompileError Unit} {m2 : Module} (h : m.Prepares m2) : Leaves m r m2
  | removed {m2 : Module} {name : String} {flaw : Flaw} (h : m.Prepares m2) :
      Leaves m (.error (.verification name flaw)) (m2.removeFunction name)
  | stored {m2 : Module} {decl g : Function} (h : m.Prepares m2)
      (hdecl : m2.function? g.name = some decl) (hparams : g.params = decl.params)
      (hret : g.ret = decl.ret) (hbody : ∀ b, g.body = some b → b.ids.Nodup ∧ b.Valid g m2) :
      Leaves m (.ok ()) (m2.define g)

namespace Prepares

variable (h : m.Prepares m')
include h

theorem cases (hf : f ∈ m'.functions) : f ∈ m.functions ∨
    m.function? f.name = none ∧ f.Fits ∧ f.body = none := by
  obtain ⟨m1, hgrows, rfl | ⟨decl, hnew, hfits, hbody, rfl⟩⟩ := h.declared
  · rw [hgrows.functions] at hf
    exact .inl hf
  · rw [hgrows.functions] at hf
    rcases List.mem_append.mp hf with hf | hf
    · exact .inl hf
    · rw [List.mem_singleton.mp hf]
      exact .inr ⟨hnew, hfits, hbody⟩

theorem namesApart (hm : m.NamesApart) : m'.NamesApart := by
  obtain ⟨m1, hgrows, rfl | ⟨decl, hnew, _, _, rfl⟩⟩ := h.declared
  · unfold NamesApart
    rw [hgrows.functions]
    exact hm
  · unfold NamesApart
    rw [hgrows.functions]
    exact hm.addFunction hnew

theorem honest (hm : m.Honest) : m'.Honest := by
  intro f hf
  rcases h.cases hf with hold | ⟨_, hfits, _⟩
  · exact hm f hold
  · exact hfits

theorem serves : m.Serves m' := by
  obtain ⟨m1, hgrows, rfl | ⟨decl, _, hfits, _, rfl⟩⟩ := h.declared
  · exact hgrows.serves
  · exact (serves_addFunction m hfits).trans hgrows.serves

theorem checked (hm : m.Checked) : m'.Checked := by
  intro f hf b hb
  rcases h.cases hf with hold | ⟨_, _, hnone⟩
  · obtain ⟨hids, hvalid⟩ := hm f hold b hb
    exact ⟨hids, hvalid.serves h.serves⟩
  · rw [hnone] at hb
    cases hb

/-- A function that was there has not been touched. -/
theorem same (hm : m.NamesApart) (hf : f ∈ m.functions) (hg : g ∈ m'.functions)
    (hname : g.name = f.name) : g = f := by
  rcases h.cases hg with hold | ⟨hnew, _⟩
  · exact hm.eq hold hf hname
  · exact absurd hname.symm (function?_eq_none.mp hnew f hf)

end Prepares

namespace Leaves

variable {r : Except CompileError Unit} (h : m.Leaves r m')
include h

theorem namesApart (hm : m.NamesApart) : m'.NamesApart := by
  cases h with
  | prepared h => exact h.namesApart hm
  | removed h => exact (h.namesApart hm).removeFunction _
  | stored h => exact (h.namesApart hm).define

theorem strings (hm : m.strings.Nodup) : m'.strings.Nodup := by
  cases h with
  | prepared h => exact h.strings hm
  | removed h => exact h.strings hm
  | stored h =>
    rw [strings_define]
    exact h.strings hm

theorem honest (hm : m.Honest) : m'.Honest := by
  cases h with
  | prepared h => exact h.honest hm
  | removed h => exact (h.honest hm).removeFunction _
  | @stored m2 decl g h hdecl hparams hret _ =>
    refine (h.honest hm).define fun r hr => ?_
    have hname : decl.name = g.name := by simpa using List.find?_some hdecl
    obtain ⟨htypes, hresult⟩ := h.honest hm _ (List.mem_of_find?_eq_some hdecl) r (hname.trans hr)
    exact ⟨(congrArg (List.map Ir.Param.ty) hparams).trans htypes, hret.trans hresult⟩

/-- A function that is there before and after a call has the same parameters and result. -/
theorem signature (hm : m.NamesApart) (hf : f ∈ m.functions) (hg : g ∈ m'.functions)
    (hname : g.name = f.name) : g.params = f.params ∧ g.ret = f.ret := by
  cases h with
  | prepared h =>
    rw [h.same hm hf hg hname]
    exact ⟨rfl, rfl⟩
  | removed h =>
    rw [h.same hm hf (List.mem_of_mem_eraseP hg) hname]
    exact ⟨rfl, rfl⟩
  | @stored m2 decl g' h hdecl hparams hret _ =>
    rcases mem_functions_define hg with hold | rfl
    · rw [h.same hm hf hold hname]
      exact ⟨rfl, rfl⟩
    · have hdecl' : decl.name = g.name := by simpa using List.find?_some hdecl
      rw [hparams, hret,
        h.same hm hf (List.mem_of_find?_eq_some hdecl) (hdecl'.trans hname)]
      exact ⟨rfl, rfl⟩

/-- Bodies stay well formed unless a function is taken out. -/
theorem checked (hm : m.Checked) (hr : ∀ e, r = .error e → e.Plain) : m'.Checked := by
  cases h with
  | prepared h => exact h.checked hm
  | removed h => exact (hr _ rfl).elim
  | @stored m2 decl g h hdecl hparams hret hbody =>
    have hserves : m2.Serves (m2.define g) := by
      refine serves_define ?_
      unfold calleeSignature?
      rw [hdecl, hret, show g.paramTypes = decl.paramTypes from congrArg (List.map _) hparams]
    intro f hf b hb
    rcases mem_functions_define hf with hold | rfl
    · obtain ⟨hids, hvalid⟩ := h.checked hm f hold b hb
      exact ⟨hids, hvalid.serves hserves⟩
    · obtain ⟨hids, hvalid⟩ := hbody b hb
      exact ⟨hids, hvalid.serves hserves⟩

end Leaves

end Ir.Module

namespace Compilation

variable {c c1 : Compilation} {fd : FunctionDecl} {decl : Function} {sig : Signature}

theorem prepares_refl (m : Module) : m.Prepares m := ⟨⟨m, .refl m, .inl rfl⟩, id⟩

theorem prepares_declare (proto : Prototype) (c : Compilation) :
    c.module.Prepares ((declare proto).run.run c).2.module := by
  by_cases hsig : ∃ sig, Signature.resolve proto = .ok sig ∧
      conflictingRoutine? (sig.declaration proto) = none
  · obtain ⟨sig, hresolve, hroutine⟩ := hsig
    rw [run_declare hresolve hroutine]
    cases hfound : c.module.function? proto.name with
    | some f =>
      dsimp only
      split <;> exact prepares_refl _
    | none =>
      refine ⟨⟨_, .refl _, .inr ⟨sig.declaration proto, hfound, ?_, rfl, rfl⟩⟩, id⟩
      exact fits_of_conflictingRoutine? hroutine
  · obtain ⟨e, hrun⟩ := run_declare_refused hsig
    rw [hrun c]
    exact prepares_refl _

/-- Lowering adds to what was declared. -/
theorem prepares_lowering {α : Type} {x : LowerM α} {s : Lowering} {m : Module}
    (hx : ∀ {P : (α : Type) → LowerM α → Prop}, Inherited P → P α x) (hs : m.Prepares s.module) :
    m.Prepares (x.run.run s).2.module := by
  have hadds : s.module.Grows (x.run.run s).2.module :=
    (hx (inherited_adds s.module) s (.refl _)).1
  have hdistinct : s.module.strings.Nodup → (x.run.run s).2.module.strings.Nodup := fun hnodup =>
    (hx (inherited_keeps (I := fun s => s.module.strings.Nodup) (fun _ _ h => h) (fun _ _ h => h)
      (fun _ text h => Module.nodup_strings_internString h text) fun _ _ h => h) s hnodup).1
  obtain ⟨⟨m1, hgrows, hdeclared⟩, hstrings⟩ := hs
  exact ⟨⟨m1, hgrows.trans hadds, hdeclared⟩, fun hm => hdistinct (hstrings hm)⟩

theorem Past.stored {s : Lowering} (h : Past c fd c1 decl sig) (hc : c.module.Honest)
    (hrun : Yields (lowerBody (c1.context sig) fd.body) (c1.bodyStart fd decl sig) () s)
    (hverify : s.builder.finish.verify s.module = .ok ()) :
    (∀ b, (c1.stored s.builder.finish).body = some b →
      b.ids.Nodup ∧ b.Valid (c1.stored s.builder.finish) s.module) ∧
    s.module.function? s.builder.name = some decl ∧ s.builder.params = decl.params ∧
    s.builder.ret = decl.ret := by
  obtain ⟨K, hsound, hsince⟩ := h.sound hc hrun hverify
  refine ⟨fun b hb => valid_stored hsound hb, ?_, hsince.grows.params, hsince.grows.ret⟩
  rw [hsince.grows.module.function?, (h.since hc hrun).1]
  exact h.found

theorem leaves_define (hc : c.module.Honest) (fd : FunctionDecl) :
    c.module.Leaves ((define fd).run.run c).1 ((define fd).run.run c).2.module := by
  have hdeclare := prepares_declare fd.proto c
  have houtcome := define_outcome c fd
  generalize (define fd).run.run c = p at houtcome
  have hbody : ∀ {c1 : Compilation} (decl : Function) (sig : Signature),
      Yields (declare fd.proto) c () c1 → c.module.Prepares
        ((lowerBody (c1.context sig) fd.body).run.run (c1.bodyStart fd decl sig)).2.module := by
    intro c1 decl sig hy
    rw [show (declare fd.proto).run.run c = _ from hy] at hdeclare
    exact prepares_lowering (fun hP => hP.lowerBody fd.body) hdeclare
  cases houtcome with
  | undeclared h =>
    rw [h] at hdeclare
    exact .prepared hdeclare
  | repeated h =>
    rw [show (declare fd.proto).run.run c = _ from h] at hdeclare
    exact .prepared hdeclare
  | @failed c1 decl sig e s h hrun =>
    have hprepares := hbody decl sig h.declared
    rw [hrun] at hprepares
    exact .prepared hprepares
  | @flawed c1 decl sig s flaw h hrun hverify =>
    have hprepares := hbody decl sig h.declared
    rw [show (lowerBody _ fd.body).run.run _ = _ from hrun] at hprepares
    exact .removed hprepares
  | @defined c1 decl sig s h hrun hverify =>
    have hprepares := hbody decl sig h.declared
    rw [show (lowerBody _ fd.body).run.run _ = _ from hrun] at hprepares
    obtain ⟨hvalid, hfound, hparams, hret⟩ := h.stored hc hrun hverify
    refine @Ir.Module.Leaves.stored _ _ decl _ hprepares ?_ ?_ ?_ hvalid
    · rw [stored_name]
      exact hfound
    · unfold Compilation.stored
      split <;> exact hparams
    · unfold Compilation.stored
      split <;> exact hret

theorem prepares_toplevelBuilder (c : Compilation) :
    c.module.Prepares (toplevelBuilder.run.run c).2.module := by
  rw [run_toplevelBuilder]
  cases c.toplevel with
  | some b => exact prepares_refl _
  | none =>
    dsimp only
    split
    · exact prepares_refl _
    · rename_i hfree
      have hnew : c.module.function? toplevelDecl.name = none := by
        simpa [toplevelDecl] using hfree
      exact ⟨⟨_, .refl _, .inr ⟨toplevelDecl, hnew, fits_toplevelDecl, rfl, rfl⟩⟩, id⟩

theorem prepares_lowerToplevel (stmt : Stmt) (c : Compilation) :
    c.module.Prepares ((lowerToplevel stmt).run.run c).2.module := by
  have hbuilder := prepares_toplevelBuilder c
  obtain ⟨⟨r, c1⟩, hb⟩ : ∃ p, toplevelBuilder.run.run c = p := ⟨_, rfl⟩
  rw [hb] at hbuilder
  cases r with
  | error e =>
    rw [run_lowerToplevel_refused stmt hb]
    exact hbuilder
  | ok b =>
    rw [run_lowerToplevel stmt hb]
    split
    · exact hbuilder
    · exact prepares_lowering (s := ⟨c1.module, some b, .empty⟩) (fun hP => hP.lowerStmt stmt) hbuilder

theorem leaves_lowerItem (hc : c.module.Honest) (item : Item) :
    c.module.Leaves ((lowerItem item).run.run c).1 ((lowerItem item).run.run c).2.module := by
  cases item with
  | function fd => exact leaves_define hc fd
  | foreign proto => exact .prepared (prepares_declare proto c)
  | statement stmt => exact .prepared (prepares_lowerToplevel stmt c)

/-- The errors of a call that defines nothing are not those of the verifier. -/
theorem plain_of_lowerItem (hc : c.module.Honest) {item : Item} (hitem : ∀ fd, item ≠ .function fd)
    {e : CompileError} (he : ((lowerItem item).run.run c).1 = .error e) : e.Plain := by
  cases item with
  | function fd => exact absurd rfl (hitem fd)
  | foreign proto => exact (keeps_declare proto c hc).2 e he
  | statement stmt =>
    change ((lowerToplevel stmt).run.run c).1 = _ at he
    obtain ⟨⟨r, c1⟩, hb⟩ : ∃ p, toplevelBuilder.run.run c = p := ⟨_, rfl⟩
    cases r with
    | error e' =>
      rw [run_lowerToplevel_refused stmt hb] at he
      cases he
      have hrun := run_toplevelBuilder (c := c)
      rw [hb] at hrun
      split at hrun
      · cases hrun
      · split at hrun
        · cases hrun
          trivial
        · cases hrun
    | ok b =>
      rw [run_lowerToplevel stmt hb] at he
      split at he
      · cases he
      · have hadds : Adds c1.module (lowerStmt ⟨c1.settings.guardDivision, .void⟩ stmt) :=
          adds_lowerStmt stmt
        cases hstmt : ((lowerStmt ⟨c1.settings.guardDivision, .void⟩ stmt).run.run
          ⟨c1.module, some b, .empty⟩).1 with
        | error e' =>
          simp only [hstmt, Except.map] at he
          cases he
          exact (hadds ⟨c1.module, some b, .empty⟩ (.refl _)).2 e hstmt
        | ok flow =>
          simp only [hstmt, Except.map] at he
          cases he

/-- The compilation after a call for each item, whether the calls succeed or fail. -/
def after (c : Compilation) (items : List Item) : Compilation :=
  items.foldl (fun c item => ((lowerItem item).run.run c).2) c

theorem after_append (c : Compilation) (items items' : List Item) :
    c.after (items ++ items') = (c.after items).after items' := List.foldl_append

theorem after_concat (c : Compilation) (items : List Item) (item : Item) :
    c.after (items ++ [item]) = ((lowerItem item).run.run (c.after items)).2 := by
  rw [after_append]
  rfl

/-- What holds of every module that calls lead to. -/
structure Orderly (m : Module) : Prop where
  names : m.NamesApart
  strings : m.strings.Nodup
  honest : m.Honest

theorem Orderly.leaves {m m' : Module} {r : Except CompileError Unit} (h : Orderly m)
    (hl : m.Leaves r m') : Orderly m' :=
  ⟨hl.namesApart h.names, hl.strings h.strings, hl.honest h.honest⟩

theorem orderly_after (h : Orderly c.module) (items : List Item) : Orderly (c.after items).module := by
  induction items using List.reverseRecOn with
  | nil => exact h
  | append_singleton items item ih =>
    rw [after_concat]
    exact ih.leaves (leaves_lowerItem ih.honest item)

/-- A function keeps its parameters and its result as long as it is there. -/
theorem signature_after (h : Orderly c.module) {f g : Function} (hf : f ∈ c.module.functions)
    {items : List Item}
    (hstays : ∀ p, p <+: items → ∃ g ∈ (c.after p).module.functions, g.name = f.name)
    (hg : g ∈ (c.after items).module.functions) (hname : g.name = f.name) :
    g.params = f.params ∧ g.ret = f.ret := by
  induction items using List.reverseRecOn generalizing g with
  | nil =>
    rw [h.names.eq hg hf hname]
    exact ⟨rfl, rfl⟩
  | append_singleton items item ih =>
    obtain ⟨g1, hg1, hname1⟩ := hstays items (List.prefix_append items [item])
    obtain ⟨hparams, hret⟩ := ih (fun p hp => hstays p (hp.trans (List.prefix_append ..))) hg1 hname1
    have hmid := orderly_after h items
    rw [after_concat] at hg
    obtain ⟨hparams', hret'⟩ := (leaves_lowerItem hmid.honest item).signature hmid.names hg1 hg
      (hname.trans hname1.symm)
    exact ⟨hparams'.trans hparams, hret'.trans hret⟩

/-- As long as no definition was given up by the verifier, all bodies are well formed. -/
theorem checked_after (h : Orderly c.module) (hc : c.module.Checked) {items : List Item}
    (hplain : ∀ before fd rest, items = before ++ .function fd :: rest →
      ∀ e, ((define fd).run.run (c.after before)).1 = .error e → e.Plain) :
    (c.after items).module.Checked := by
  induction items using List.reverseRecOn with
  | nil => exact hc
  | append_singleton items item ih =>
    have hmid := orderly_after h items
    have hchecked := ih fun before fd rest heq => hplain before fd (rest ++ [item]) (by simp [heq])
    rw [after_concat]
    refine (leaves_lowerItem hmid.honest item).checked hchecked fun e he => ?_
    by_cases hitem : ∃ fd, item = .function fd
    · obtain ⟨fd, rfl⟩ := hitem
      exact hplain items fd [] rfl e he
    · exact plain_of_lowerItem hmid.honest (fun fd heq => hitem ⟨fd, heq⟩) he

theorem orderly_start (name : String) (settings : Settings) :
    Orderly (start name settings).module where
  names := List.nodup_nil
  strings := List.nodup_nil
  honest := by simp [start, Module.empty, Module.Honest]

/-- After any calls, whether they succeed or fail: functions have distinct names, strings are
distinct, functions with the name of a routine have its signature, a function has kept its parameters
and its result as long as it was there, and if no definition was given up by the verifier, every
function with a body is accepted in the module as it is. -/
theorem after_consistent (name : String) (settings : Settings) (items : List Item) :
    let c := (start name settings).after items
    (c.module.functions.map (·.name)).Nodup ∧ c.module.strings.Nodup ∧
    (∀ f ∈ c.module.functions, ∀ r : Routine, f.name = r.name →
      f.paramTypes = r.params ∧ f.ret = r.ret) ∧
    (∀ before items', items = before ++ items' →
      ∀ f ∈ ((start name settings).after before).module.functions,
      (∀ p, p <+: items' → ∃ g ∈ ((start name settings).after (before ++ p)).module.functions,
        g.name = f.name) →
      ∀ g ∈ c.module.functions, g.name = f.name → g.params = f.params ∧ g.ret = f.ret) ∧
    ((∀ before fd rest, items = before ++ .function fd :: rest → ∀ g flaw,
        ((define fd).run.run ((start name settings).after before)).1 ≠
          .error (.verification g flaw)) →
      ∀ f ∈ c.module.functions, f.body.isSome = true → f.verify c.module = .ok ()) := by
  have hstart := orderly_start name settings
  have hafter := orderly_after hstart items
  refine ⟨hafter.names, hafter.strings, hafter.honest, ?_, ?_⟩
  · intro before items' heq f hf hstays g hg hname
    rw [heq, after_append] at hg
    refine signature_after (orderly_after hstart before) hf (fun p hp => ?_) hg hname
    rw [← after_append]
    exact hstays p hp
  · intro hflawless f hf hbody
    obtain ⟨b, hb⟩ := Option.isSome_iff_exists.mp hbody
    have hchecked : Module.Checked ((start name settings).after items).module := by
      refine checked_after hstart (fun f hf => nomatch hf) fun before fd rest heq e he => ?_
      cases e with
      | verification g flaw => exact absurd he (hflawless before fd rest heq g flaw)
      | _ => trivial
    obtain ⟨hids, hvalid⟩ := hchecked f hf b hb
    exact (Function.verify_eq_ok_iff hb hids).mpr hvalid

/-- A function that logs a number. -/
def counting : FunctionDecl where
  proto := ⟨"count", [], ⟨"int", none⟩⟩
  body := [.expr (.call "log" [.number (.int 1)]), .ret (some (.number (.int 2)))]

/-- It is defined twice, which fails the second time. -/
def recount : List Item :=
  [.foreign ⟨"log", [⟨"n", ⟨"int", none⟩⟩], .void⟩, .function counting, .function counting]

theorem recount_consistent :
    ((define counting).run.run ((start "m" {}).after (recount.take 2))).1 =
      .error (.redefinition "count") ∧
    ∃ f ∈ ((start "m" {}).after recount).module.functions, f.body.isSome = true ∧
      f.verify ((start "m" {}).after recount).module = .ok () := by
  have hfirst : ((define counting).run.run ((start "m" {}).after (recount.take 1))).1 = .ok () := by
    decide +kernel
  have hsecond : ((define counting).run.run ((start "m" {}).after (recount.take 2))).1 =
      .error (.redefinition "count") := by decide +kernel
  have hbody : ((start "m" {}).after recount).module.functions.any (·.body.isSome) = true := by
    decide +kernel
  obtain ⟨f, hf, hsome⟩ := List.any_eq_true.mp hbody
  refine ⟨hsecond, f, hf, hsome, ?_⟩
  obtain ⟨_, _, _, _, hverify⟩ := after_consistent "m" {} recount
  refine hverify (fun before fd rest heq g flaw => ?_) f hf hsome
  rcases before with _ | ⟨a, _ | ⟨b, _ | ⟨d, before⟩⟩⟩
  · simp [recount] at heq
  · obtain ⟨rfl, rfl, _⟩ : .foreign _ = a ∧ counting = fd ∧ _ := by simpa [recount] using heq
    exact hfirst ▸ nofun
  · obtain ⟨rfl, rfl, rfl, _⟩ : .foreign _ = a ∧ .function counting = b ∧ counting = fd ∧ _ := by
      simpa [recount] using heq
    exact hsecond ▸ nofun
  · simp [recount] at heq

end Compilation

end SsaCompiler
