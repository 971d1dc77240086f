import SsaCompiler.Proofs.Compiling.Histories

/-!
What a definition leaves alone. A definition works in the module that all functions share, and it can
be given up at any point. Whatever it comes to, the other functions and the function of the statements
outside of functions are as before, and strings and routines are only added. A definition that fails
leaves no part of a body behind.
-/
namespace SsaCompiler

open Ir LowerM

namespace Ir.Module

variable {m : Module} {f g : Function} {name : String}

/-- The functions of other names, in their order. -/
def others (m : Module) (name : String) : List Function := m.functions.filter (·.name ≠ name)

theorem others_addFunction (h : f.name = name) : (m.addFunction f).others name = m.others name := by
  simp [others, addFunction, h]

theorem others_define (h : g.name = name) : (m.define g).others name = m.others name := by
  unfold define
  split
  · rename_i i hidx
    obtain ⟨hlt, hname, _⟩ := List.findIdx?_eq_some_iff_getElem.mp hidx
    have hold : m.functions[i].name = name := (of_decide_eq_true hname).trans h
    have hsplit : m.functions = m.functions.take i ++ m.functions[i] :: m.functions.drop (i + 1) := by
      rw [← List.drop_eq_getElem_cons hlt, List.take_append_drop]
    calc (m.functions.set i g).filter (·.name ≠ name)
        = (m.functions.take i ++ m.functions.drop (i + 1)).filter (·.name ≠ name) := by
          rw [List.set_eq_take_append_cons_drop, if_pos hlt]
          simp [h]
      _ = (m.functions.take i ++ m.functions[i] :: m.functions.drop (i + 1)).filter
            (·.name ≠ name) := by
          rw [List.filter_append, List.filter_append, List.filter_cons_of_neg (by simp [hold])]
      _ = m.functions.filter (·.name ≠ name) := by rw [← hsplit]
  · exact others_addFunction h

theorem others_removeFunction (m : Module) (name : String) :
    (m.removeFunction name).others name = m.others name := by
  unfold others removeFunction
  rcases List.exists_or_eq_self_of_eraseP (fun f : Function => decide (f.name = name)) m.functions
    with hsame | ⟨f, before, behind, _, hf, hsplit, herased⟩
  · rw [hsame]
  · have hname : f.name = name := of_decide_eq_true hf
    rw [herased, hsplit]
    simp [hname]

theorem NamesApart.function?_removeFunction (h : m.NamesApart) (name : String) :
    (m.removeFunction name).function? name = none := by
  rw [function?_eq_none]
  intro g hg hname
  obtain ⟨f, before, behind, _, hf, hsplit, herased⟩ := List.exists_of_eraseP
    (p := fun f : Function => decide (f.name = name)) (List.mem_of_mem_eraseP hg)
    (decide_eq_true hname)
  have hapart : f.name ∉ (before ++ behind).map (·.name) := by
    have hnodup : ((before ++ f :: behind).map (·.name)).Nodup := hsplit ▸ h
    rw [List.map_append, List.map_cons] at hnodup
    rw [List.map_append]
    exact (List.nodup_middle.mp hnodup).notMem
  refine hapart (List.mem_map.mpr ⟨g, ?_, hname.trans (of_decide_eq_true hf).symm⟩)
  exact herased ▸ hg

end Ir.Module

namespace Compilation

variable {c c' c'' : Compilation} {m : Module} {g : Function} {name : String}

/-- Only the function of the given name may have changed. -/
structure Frames (name : String) (c c' : Compilation) : Prop where
  others : c'.module.others name = c.module.others name
  toplevel : c'.toplevel = c.toplevel
  settings : c'.settings = c.settings
  strings : c.module.strings <+: c'.module.strings
  routines : ∀ r ∈ c.module.routines, r ∈ c'.module.routines

namespace Frames

theorem refl (name : String) (c : Compilation) : Frames name c c :=
  ⟨rfl, rfl, rfl, List.prefix_rfl, fun _ h => h⟩

theorem trans (h : Frames name c c') (h' : Frames name c' c'') : Frames name c c'' where
  others := h'.others.trans h.others
  toplevel := h'.toplevel.trans h.toplevel
  settings := h'.settings.trans h.settings
  strings := h.strings.trans h'.strings
  routines r hr := h'.routines r (h.routines r hr)

theorem grows (name : String) (h : c.module.Grows m) : Frames name c { c with module := m } where
  others := by
    unfold Module.others
    rw [h.functions]
  toplevel := rfl
  settings := rfl
  strings := h.strings
  routines := h.routines

theorem addFunction (hname : g.name = name) :
    Frames name c { c with module := c.module.addFunction g } :=
  { refl name c with others := Module.others_addFunction hname }

theorem removeFunction (name : String) (c : Compilation) :
    Frames name c { c with module := c.module.removeFunction name } :=
  { refl name c with others := Module.others_removeFunction c.module name }

theorem define (hname : g.name = name) : Frames name c { c with module := c.module.define g } where
  others := Module.others_define hname
  toplevel := rfl
  settings := rfl
  strings := by rw [Module.strings_define]
  routines r hr := by rwa [Module.routines_define]

end Frames

/-- The functions are the same, or one of the given name was appended that has no body. -/
def AtMostDeclares (name : String) (m m' : Module) : Prop :=
  m'.functions = m.functions ∨ m.function? name = none ∧ ∃ decl : Function, decl.name = name ∧
    decl.body = none ∧ m'.functions = m.functions ++ [decl]

theorem AtMostDeclares.namesApart {m' : Module} (h : AtMostDeclares name m m') (hm : m.NamesApart) :
    m'.NamesApart := by
  unfold Module.NamesApart
  rcases h with hsame | ⟨hfree, decl, rfl, _, hadded⟩
  · rw [hsame]
    exact hm
  · rw [hadded]
    exact hm.addFunction hfree

/-- What a definition leaves of its function, by its result: a body; nothing, if the verifier gave it
up; and otherwise what was there, or a declaration. -/
def Entry (name : String) (m m' : Module) : Except CompileError Unit → Prop
  | .ok () => ∃ g, m'.function? name = some g ∧ g.body.isSome = true
  | .error (.verification _ _) => m'.function? name = none
  | .error _ => AtMostDeclares name m m'

theorem Entry.of_plain {m' : Module} {e : CompileError} (he : e.Plain)
    (h : AtMostDeclares name m m') : Entry name m m' (.error e) := by
  cases e with
  | verification f flaw => exact he.elim
  | _ => exact h

/-- A declaration that fails changes nothing, and any other may append a function. -/
theorem declare_frames (proto : Prototype) (c : Compilation) :
    Frames proto.name c ((declare proto).run.run c).2 ∧
      AtMostDeclares proto.name c.module ((declare proto).run.run c).2.module := by
  have hsame : Frames proto.name c c ∧ AtMostDeclares proto.name c.module c.module :=
    ⟨.refl _ c, .inl rfl⟩
  by_cases hsig : ∃ sig, Signature.resolve proto = .ok sig ∧
      conflictingRoutine? (sig.declaration proto) = none
  · obtain ⟨sig, hresolve, hroutine⟩ := hsig
    rw [run_declare hresolve hroutine]
    cases hfound : c.module.function? proto.name with
    | some f =>
      dsimp only
      split <;> exact hsame
    | none => exact ⟨.addFunction rfl, .inr ⟨hfound, sig.declaration proto, rfl, rfl, rfl⟩⟩
  · obtain ⟨e, hrun⟩ := run_declare_refused hsig
    rw [hrun c]
    exact hsame

/-- Lowering a body adds strings and routines to the module, whether it fails or not. -/
theorem lowerBody_frames {fd : FunctionDecl} {c1 : Compilation} {decl : Function} {sig : Signature}
    {s : Lowering} {r : Except CompileError Unit} (hdeclare : Yields (declare fd.proto) c () c1)
    (hrun : (lowerBody (c1.context sig) fd.body).run.run (c1.bodyStart fd decl sig) = (r, s)) :
    Frames fd.proto.name c { c1 with module := s.module } ∧
      AtMostDeclares fd.proto.name c.module s.module ∧ ∀ e, r = .error e → e.Plain := by
  have hadds : Adds c1.module (lowerBody (c1.context sig) fd.body) := adds_lowerBody fd.body
  obtain ⟨hgrows, hplain⟩ := hadds (c1.bodyStart fd decl sig) (.refl _)
  rw [hrun] at hgrows hplain
  obtain ⟨hframes, hdeclares⟩ := declare_frames fd.proto c
  rw [show (declare fd.proto).run.run c = _ from hdeclare] at hframes hdeclares
  refine ⟨hframes.trans (.grows _ hgrows), ?_, hplain⟩
  unfold AtMostDeclares
  rw [hgrows.functions]
  exact hdeclares

/-- After any calls, a definition changes no function of another name and not the function of the
statements outside of functions, and it only adds strings and routines. If it succeeds, its function
has a body; if the verifier gives it up, its function is gone; and if it fails in another way, no
function has changed, or its function was appended without a body. -/
theorem define_touches_own (name : String) (settings : Settings) (items : List Item)
    (fd : FunctionDecl) :
    let c := (start name settings).after items
    let run := (define fd).run.run c
    Frames fd.proto.name c run.2 ∧ Entry fd.proto.name c.module run.2.module run.1 := by
  intro c run
  have horderly : Orderly c.module := orderly_after (orderly_start name settings) items
  obtain ⟨hframes, hdeclares⟩ := declare_frames fd.proto c
  have hdeclare := (keeps_declare fd.proto c horderly.honest).2
  have houtcome : Outcome c fd run := define_outcome c fd
  generalize run = p at houtcome
  -- Behind the body, only a flawed function is taken out and only a verified one is put in.
  cases houtcome with
  | undeclared h =>
    rw [h] at hframes hdeclares hdeclare
    exact ⟨hframes, .of_plain (hdeclare _ rfl) hdeclares⟩
  | repeated h =>
    rw [show (declare fd.proto).run.run c = _ from h] at hframes hdeclares
    exact ⟨hframes, hdeclares⟩
  | failed h hrun =>
    obtain ⟨hframes, hdeclares, hplain⟩ := lowerBody_frames h.declared hrun
    exact ⟨hframes, .of_plain (hplain _ rfl) hdeclares⟩
  | flawed h hrun hverify =>
    obtain ⟨hframes, hdeclares, _⟩ := lowerBody_frames h.declared hrun
    rw [(h.since horderly.honest hrun).1]
    have hapart := hdeclares.namesApart horderly.names
    exact ⟨hframes.trans (.removeFunction _ _), hapart.function?_removeFunction _⟩
  | @defined c1 _ _ s h hrun hverify =>
    obtain ⟨hframes, _, _⟩ := lowerBody_frames h.declared hrun
    have hname : (c1.stored s.builder.finish).name = fd.proto.name :=
      (stored_name c1 _).trans (h.since horderly.honest hrun).1
    refine ⟨hframes.trans (.define hname), c1.stored s.builder.finish, ?_, ?_⟩
    · rw [Module.function?_define, if_pos hname]
    · unfold Compilation.stored
      split <;> rfl

end Compilation

end SsaCompiler
