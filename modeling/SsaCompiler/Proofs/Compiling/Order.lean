import SsaCompiler.Proofs.Compiling.Provenance
import SsaCompiler.Proofs.Reading.Programs
import SsaCompiler.Proofs.Reading.Tracking

/-!
The order of the items of a program does not matter, as long as the statements outside of functions
keep theirs. A program compiles in one order exactly if it does in the other, and the functions come
out with the same code, but for the numbers of the strings. Those differ because the texts enter the
table in the order in which the bodies are lowered.
-/
namespace SsaCompiler

open Ir LowerM

namespace Renumbering

/-- Takes the number of a text in the one table to its number in the other one, and the numbers of
texts that are not there behind the end. -/
def between (source target : List String) (h : target.Nodup) : Renumbering where
  source := source
  target := target
  number i := match source[i]? with
    | some text => if text ∈ target then target.idxOf text else target.length + i
    | none => target.length + i
  number_eq {i j text} hi hj := by
    obtain ⟨hlt, rfl⟩ := List.getElem?_eq_some_iff.mp hj
    simp [hi, h.idxOf_getElem]

variable {source target : List String} {h : target.Nodup}

theorem number_between (source : List String) (h : target.Nodup) (i : Nat) :
    (∃ text, source[i]? = some text ∧ target[(between source target h).number i]? = some text) ∨
      (between source target h).number i = target.length + i := by
  cases hi : source[i]? with
  | none => exact .inr (by simp [between, hi])
  | some text =>
    by_cases hmem : text ∈ target
    · refine .inl ⟨text, rfl, ?_⟩
      simp [between, hi, hmem]
    · exact .inr (by simp [between, hi, hmem])

/-- A number below the end of the other table stands for the same text there. -/
theorem exists_text {i : Nat} (hlt : (between source target h).number i < target.length) :
    ∃ text, source[i]? = some text ∧ target[(between source target h).number i]? = some text := by
  rcases number_between source h i with htext | hbehind
  · exact htext
  · omega

theorem number_injective (hsource : source.Nodup) : (between source target h).number.Injective := by
  intro i j hij
  rcases number_between source h i with ⟨text, hi, hi'⟩ | hi
  · rcases number_between source h j with ⟨text', hj, hj'⟩ | hj
    · rw [← hij, hi'] at hj'
      obtain rfl := Option.some.inj hj'
      exact (List.getElem?_inj (List.getElem?_eq_some_iff.mp hi).1 hsource).mp (hi.trans hj.symm)
    · have hlt := (List.getElem?_eq_some_iff.mp hi').1
      omega
  · rcases number_between source h j with ⟨text', hj, hj'⟩ | hj
    · have hlt := (List.getElem?_eq_some_iff.mp hj').1
      omega
    · omega

theorem scope_bind (R : Renumbering) (s : Scope) (name : String) (tv : TypedValue) :
    R.scope (s.bind name tv) = (R.scope s).bind name (R.typed tv) := rfl

/-- Parameters are no strings. -/
theorem scope_paramScope (R : Renumbering) (proto : Prototype) (sig : Signature) :
    R.scope (Compilation.paramScope proto sig) = Compilation.paramScope proto sig := by
  have hfold : ∀ (params : List ((Param × DataType) × Nat)) (s : Scope), R.scope s = s →
      R.scope (params.foldl (fun s p => s.bind p.1.1.name ⟨.param p.2, p.1.2⟩) s) =
        params.foldl (fun s p => s.bind p.1.1.name ⟨.param p.2, p.1.2⟩) s := by
    intro params
    induction params with
    | nil => exact fun s hs => hs
    | cons p params ih =>
      intro s hs
      refine ih _ ?_
      rw [scope_bind, hs]
      rfl
  exact hfold _ _ rfl

end Renumbering

namespace Ir

/-- The same function but for the names of its parameters, with the strings renumbered. -/
structure Function.Mirrors (ρ : Nat → Nat) (f f' : Function) : Prop where
  ret : f'.ret = f.ret
  params : f'.paramTypes = f.paramTypes
  body : f'.body = f.body.map (Body.mapOperands (Value.relabel ρ))

/-- The modules have the same functions with the same code, where the number of a string in the one
stands for the number of the same text in the other. -/
structure Module.SameCode (m m' : Module) : Prop where
  distinct : m.strings.Nodup
  texts : m'.strings.Perm m.strings
  names : (m'.functions.map (·.name)).Perm (m.functions.map (·.name))
  functions : ∃ ρ : Nat → Nat,
    (∀ i text, m.strings[i]? = some text → m'.strings[ρ i]? = some text) ∧
      ∀ f ∈ m.functions, ∀ f' ∈ m'.functions, f'.name = f.name → f.Mirrors ρ f'

namespace Module

variable {m : Module} {f : Function} {i : Nat} {text : String}

theorem NamesApart.function? (h : m.NamesApart) (hf : f ∈ m.functions) :
    m.function? f.name = some f := by
  cases hfound : m.function? f.name with
  | none => exact absurd rfl (function?_eq_none.mp hfound f hf)
  | some g =>
    have hname : g.name = f.name := by simpa using List.find?_some hfound
    rw [h.eq (List.mem_of_find?_eq_some hfound) hf hname]

theorem mem_referenced :
    i ∈ m.referenced ↔ ∃ f ∈ m.functions, ∃ b, f.body = some b ∧ .global i ∈ b.operands := by
  have hglobal : ∀ v : Value, v.global? = some i ↔ v = .global i := by
    intro v
    cases v <;> simp [Value.global?]
  simp only [referenced, bodies, List.mem_eraseDups, List.mem_filterMap, List.mem_flatMap, hglobal,
    exists_eq_right]
  constructor
  · rintro ⟨b, ⟨f, hf, hb⟩, hi⟩
    exact ⟨f, hf, b, hb, hi⟩
  · rintro ⟨f, hf, b, hb, hi⟩
    exact ⟨b, ⟨f, hf, hb⟩, hi⟩

theorem mem_strings_discardUnused :
    text ∈ m.discardUnused.strings ↔ ∃ i ∈ m.referenced, m.strings[i]? = some text := by
  simp only [discardUnused, List.mem_map, List.mem_filter, decide_eq_true_eq, Prod.exists,
    List.mem_zipIdx_iff_getElem?, exists_and_right, exists_eq_right]
  constructor
  · rintro ⟨i, htext, hi⟩
    exact ⟨i, hi, htext⟩
  · rintro ⟨i, hi, htext⟩
    exact ⟨i, htext, hi⟩

theorem names_discardUnused (m : Module) :
    m.discardUnused.functions.map (·.name) = m.functions.map (·.name) := by
  simp [discardUnused, Function.comp_def]

theorem strings_discardUnused (m : Module) : m.discardUnused.strings.Sublist m.strings := by
  have hsub := (List.filter_sublist (p := fun s => s.2 ∈ m.referenced) (l := m.strings.zipIdx)).map
    Prod.fst
  rwa [List.zipIdx_map_fst] at hsub

theorem getElem?_discardUnused (hi : i ∈ m.referenced) (htext : m.strings[i]? = some text) :
    m.discardUnused.strings[rank m.referenced i]? = some text :=
  (getElem?_rank (nodup_referenced _) hi (List.getElem?_eq_some_iff.mp htext).1).trans htext

end Module

end Ir

namespace Compilation

variable {protos protos' : List Prototype} {settings : Settings} {m m' : Module} {f f' : Function}
  {fd : FunctionDecl} {items items' : List Item} {stmts : List Stmt} {b b' : Builder}
  {R : Renumbering}

theorem finished_relabel {ρ : Nat → Nat} (hρ : ρ.Injective) (settings : Settings) (b : Body) :
    finished settings (b.mapOperands (Value.relabel ρ)) =
      (finished settings b).mapOperands (Value.relabel ρ) := by
  unfold finished
  split
  · exact Optimize.optimizeBody_relabel hρ _ _ b
  · rfl

/-- Both bodies of a definition are the same. -/
theorem Built.mirrors (h : Built protos settings R.source fd f)
    (h' : Built protos' settings R.target fd f') (hprotos : ∀ p, p ∈ protos ↔ p ∈ protos')
    (hR : R.number.Injective) : f'.body = f.body.map (Body.mapOperands (Value.relabel R.number)) := by
  obtain ⟨m, decl, sig, s, hm, hsig, hs, hstrings, hbody⟩ := h
  obtain ⟨m', decl', sig', s', hm', hsig', hs', hstrings', hbody'⟩ := h'
  obtain rfl := Except.ok.inj (hsig.symm.trans hsig')
  have hstart : (Lowering.ofFunction m decl (paramScope fd.proto sig)).Mirrors R
      (.ofFunction m' decl' (paramScope fd.proto sig)) :=
    ⟨Builder.mirrors_start, (R.scope_paramScope _ _).symm, hm.concurs hm' hprotos⟩
  have hmirrors := ((parallel_body fd.body).mirrors trivial hstart hs hs' hstrings hstrings').2
  rw [hbody, hbody', hmirrors.builder.body, finished_relabel hR]
  rfl

/-- The statements outside of functions come out the same. -/
theorem Continued.mirrors (h : Continued protos settings R.source stmts b)
    (h' : Continued protos' settings R.target stmts b') (hprotos : ∀ p, p ∈ protos ↔ p ∈ protos') :
    b.Mirrors R.number b' := by
  induction stmts generalizing b b' with
  | nil =>
    rw [show b = _ from h, show b' = _ from h']
    exact Builder.mirrors_start
  | cons stmt before ih =>
    obtain ⟨b0, h0, hcases⟩ := h
    obtain ⟨b0', h0', hcases'⟩ := h'
    have hmirrors := ih h0 h0'
    have hterm := hmirrors.isTerminated
    rcases hcases with ⟨hdone, rfl⟩ | ⟨hopen, m, flow, s, hm, hs, hstrings, rfl⟩
    · rcases hcases' with ⟨_, rfl⟩ | ⟨hopen', _⟩
      · exact hmirrors
      · rw [hdone, hopen'] at hterm
        cases hterm
    · rcases hcases' with ⟨hdone', _⟩ | ⟨_, m', flow', s', hm', hs', hstrings', rfl⟩
      · rw [hopen, hdone'] at hterm
        cases hterm
      · have hstart : (⟨m, some b0, .empty⟩ : Lowering).Mirrors R ⟨m', some b0', .empty⟩ :=
          ⟨hmirrors, rfl, hm.concurs hm' hprotos⟩
        exact ((parallel_stmt stmt).mirrors trivial hstart hs hs' hstrings hstrings').2.builder

/-- What both orders of the items have in common. -/
structure Reordered (items items' : List Item) : Prop where
  perm : items.Perm items'
  statements : statementsOf items = statementsOf items'

theorem Reordered.symm (h : Reordered items items') : Reordered items' items :=
  ⟨h.perm.symm, h.statements.symm⟩

theorem Reordered.mem_protosOf (h : Reordered items items') (p : Prototype) :
    p ∈ protosOf items ↔ p ∈ protosOf items' := (h.perm.filterMap _).mem_iff

theorem Reordered.perm_functionsOf (h : Reordered items items') :
    (functionsOf items).Perm (functionsOf items') := h.perm.filterMap _

/-- The renumbering from the one finished module to the other. -/
def Finished.renumbering (_ : Finished protos settings items m)
    (h' : Finished protos' settings items' m') : Renumbering := .between m.strings m'.strings h'.strings

section Finished

variable (h : Finished (protosOf items) settings items m)
  (h' : Finished (protosOf items') settings items' m') (hitems : Reordered items items')
include hitems

theorem Finished.function? {name : String} (hf : m.function? name = some f) :
    ∃ f', m'.function? name = some f' ∧ f.Mirrors (h.renumbering h').number f' := by
  have hR : (h.renumbering h').number.Injective := Renumbering.number_injective h.strings
  by_cases hname : name = toplevelName
  · rw [hname] at hf ⊢
    obtain ⟨_, hnone⟩ | ⟨hne, b, b1, g, hcont, hterm, hg, hbody⟩ := h.outside
    · rw [hnone] at hf
      cases hf
    obtain rfl := Option.some.inj (hf.symm.trans hg)
    obtain ⟨hnil, _⟩ | ⟨_, b', b1', f', hcont', hterm', hf', hbody'⟩ := h'.outside
    · exact absurd (hitems.statements.trans hnil) hne
    rw [← hitems.statements] at hcont'
    have hmirrors : b.Mirrors (h.renumbering h').number b' := hcont.mirrors hcont' hitems.mem_protosOf
    have hends := hmirrors.terminate hterm hterm'
    obtain ⟨hret, hparams⟩ := h.stocked.offers.toplevel f hf
    obtain ⟨hret', hparams'⟩ := h'.stocked.offers.toplevel f' hf'
    refine ⟨f', hf', hret'.trans hret.symm, hparams'.trans hparams.symm, ?_⟩
    rw [hbody, hbody', hends.body, finished_relabel hR]
    rfl
  · obtain ⟨f', hf', hret, hparams⟩ := h.stocked.offers.function? h'.stocked.offers
      (fun p hp => (hitems.mem_protosOf p).mp hp) hname hf
    refine ⟨f', hf', hret, hparams, ?_⟩
    obtain rfl : f.name = name := by simpa using List.find?_some hf
    have hname' : f'.name = f.name := by simpa using List.find?_some hf'
    rcases h.stocked.bodies f (List.mem_of_find?_eq_some hf) hname with
      ⟨hnone, hfree⟩ | ⟨fd, hfd, hfdname, hbuilt⟩
    · rcases h'.stocked.bodies f' (List.mem_of_find?_eq_some hf') (hname' ▸ hname) with
        ⟨hnone', _⟩ | ⟨fd', hfd', hfdname', _⟩
      · rw [hnone, hnone']
        rfl
      · exact absurd (hfdname'.trans hname') (hfree fd' (hitems.perm_functionsOf.mem_iff.mpr hfd'))
    · rcases h'.stocked.bodies f' (List.mem_of_find?_eq_some hf') (hname' ▸ hname) with
        ⟨_, hfree'⟩ | ⟨fd', hfd', hfdname', hbuilt'⟩
      · exact absurd (hfdname.trans hname'.symm) (hfree' fd (hitems.perm_functionsOf.mem_iff.mp hfd))
      · obtain rfl : fd = fd' := List.inj_on_of_nodup_map h.once hfd
          (hitems.perm_functionsOf.mem_iff.mpr hfd') (hfdname.trans (hname'.symm.trans hfdname'.symm))
        exact hbuilt.mirrors hbuilt' hitems.mem_protosOf hR

/-- A string that is used in the one module is used in the other, with the same text. -/
theorem Finished.referenced {i : Nat} (hi : i ∈ m.referenced) :
    (h.renumbering h').number i ∈ m'.referenced ∧ ∃ text, m.strings[i]? = some text ∧
      m'.strings[(h.renumbering h').number i]? = some text := by
  obtain ⟨f, hf, b, hb, hi⟩ := Module.mem_referenced.mp hi
  obtain ⟨f', hf', hmirrors⟩ := h.function? h' hitems (h.names.function? hf)
  have hmem' := List.mem_of_find?_eq_some hf'
  have hb' := hmirrors.body
  rw [hb] at hb'
  have hi' : .global ((h.renumbering h').number i) ∈
      (b.mapOperands (Value.relabel (h.renumbering h').number)).operands := by
    rw [Body.operands_mapOperands]
    exact List.mem_map_of_mem (f := Value.relabel _) hi
  exact ⟨Module.mem_referenced.mpr ⟨f', hmem', _, hb', hi'⟩,
    Renumbering.exists_text (h'.within f' hmem' _ hb' _ hi')⟩

include h h'

theorem Finished.names_subset :
    ∀ name ∈ m.functions.map (·.name), name ∈ m'.functions.map (·.name) := by
  intro name hname
  obtain ⟨f, hf, rfl⟩ := List.mem_map.mp hname
  obtain ⟨f', hf', _⟩ := h.function? h' hitems (h.names.function? hf)
  exact List.mem_map.mpr ⟨f', List.mem_of_find?_eq_some hf', by simpa using List.find?_some hf'⟩

theorem Finished.texts_subset : ∀ text ∈ m.discardUnused.strings, text ∈ m'.discardUnused.strings := by
  intro text htext
  obtain ⟨i, hi, htext⟩ := Module.mem_strings_discardUnused.mp htext
  obtain ⟨hi', text', htext', hfound⟩ := h.referenced h' hitems hi
  obtain rfl := Option.some.inj (htext.symm.trans htext')
  exact Module.mem_strings_discardUnused.mpr ⟨_, hi', hfound⟩

/-- What is left after discarding has the same code. -/
theorem Finished.sameCode : m.discardUnused.SameCode m'.discardUnused := by
  have hdistinct : m.discardUnused.strings.Nodup := h.strings.sublist m.strings_discardUnused
  have hdistinct' : m'.discardUnused.strings.Nodup := h'.strings.sublist m'.strings_discardUnused
  have htexts : ∀ text, text ∈ m'.discardUnused.strings ↔ text ∈ m.discardUnused.strings :=
    fun text => ⟨h'.texts_subset h hitems.symm text, h.texts_subset h' hitems text⟩
  let R := Renumbering.between m.discardUnused.strings m'.discardUnused.strings hdistinct'
  have hnumber : ∀ i ∈ m.referenced, Ir.Module.rank m'.referenced ((h.renumbering h').number i) =
      R.number (Ir.Module.rank m.referenced i) := by
    intro i hi
    obtain ⟨hi', text, htext, hfound⟩ := h.referenced h' hitems hi
    exact (R.number_eq (Module.getElem?_discardUnused hi htext)
      (Module.getElem?_discardUnused hi' hfound)).symm
  refine ⟨hdistinct, (List.perm_ext_iff_of_nodup hdistinct' hdistinct).mpr htexts, ?_, R.number,
    ?_, ?_⟩
  · rw [m.names_discardUnused, m'.names_discardUnused]
    exact (List.perm_ext_iff_of_nodup h'.names h.names).mpr fun name =>
      ⟨h'.names_subset h hitems.symm name, h.names_subset h' hitems name⟩
  · intro i text htext
    obtain ⟨j, hj⟩ := List.mem_iff_getElem?.mp ((htexts text).mpr (List.mem_of_getElem? htext))
    rw [R.number_eq htext hj]
    exact hj
  · intro g hg g' hg' hname
    obtain ⟨f, hf, rfl⟩ := List.mem_map.mp hg
    obtain ⟨f', hf', rfl⟩ := List.mem_map.mp hg'
    obtain ⟨f1, hf1, hmirrors⟩ := h.function? h' hitems (h.names.function? hf)
    have hname1 : f1.name = f.name := by simpa using List.find?_some hf1
    obtain rfl := h'.names.eq hf' (List.mem_of_find?_eq_some hf1) (hname.trans hname1.symm)
    refine ⟨hmirrors.ret, hmirrors.params, ?_⟩
    dsimp only
    rw [hmirrors.body]
    cases hb : f.body with
    | none => rfl
    | some b =>
      refine congrArg some ?_
      rw [Body.mapOperands_mapOperands, Body.mapOperands_mapOperands]
      refine Body.mapOperands_congr fun v hv => ?_
      cases v with
      | global i =>
        exact congrArg Value.global (hnumber i (Module.mem_referenced.mpr ⟨f, hf, b, hb, hv⟩))
      | _ => rfl

end Finished

theorem Consistent.reordered (h : Consistent (protosOf items)) (hitems : Reordered items items') :
    Consistent (protosOf items') where
  declares p hp := h.declares p ((hitems.mem_protosOf p).mpr hp)
  same hp hq := h.same ((hitems.mem_protosOf _).mpr hp) ((hitems.mem_protosOf _).mpr hq)

theorem Accepts.concurs (h : Accepts m fd) (hm : m.Concurs m') (hfd : StmtsAvoid fd.body) :
    Accepts m' fd := by
  obtain ⟨sig, flow, hsig, hflow, hends⟩ := h
  exact ⟨sig, flow, hsig, (Names.Concurs.stmtsFlow _ (concurs_namesIn hm _) hfd).trans hflow, hends⟩

theorem Acceptable.reordered (h : Acceptable m items) (hm : m.Concurs m')
    (hitems : Reordered items items') (havoids : ∀ item ∈ items, item.Avoids) :
    Acceptable m' items' where
  once := ((hitems.perm_functionsOf.map _).nodup_iff).mp h.once
  bodies fd hfd := by
    have hfd := hitems.perm_functionsOf.mem_iff.mpr hfd
    refine (h.bodies fd hfd).concurs hm ?_
    obtain ⟨item, hitem, hdecl⟩ := List.mem_filterMap.mp hfd
    cases item with
    | function decl =>
      cases hdecl
      exact (havoids _ hitem).2
    | _ => cases hdecl
  statements := by
    obtain ⟨flow, hflow⟩ := h.statements
    have hstmts : StmtsAvoid (statementsOf items) := by
      refine stmtsAvoid_iff.mpr fun stmt hstmt => ?_
      obtain ⟨item, hitem, hdecl⟩ := List.mem_filterMap.mp hstmt
      cases item with
      | statement stmt =>
        cases hdecl
        exact havoids _ hitem
      | _ => cases hdecl
    rw [← hitems.statements]
    exact ⟨flow, (Names.Concurs.stmtsFlow _ (concurs_namesIn hm _) hstmts).trans hflow⟩

/-- A program that compiles also does in another order. -/
theorem Reordered.exists_compileItems (hitems : Reordered items items')
    (havoids : ∀ item ∈ items, item.Avoids) {name : String}
    (h : ∃ m c, Yields (compileItems items none) (.start name settings) m c) :
    ∃ m c, Yields (compileItems items' none) (.start name settings) m c := by
  have havoids' : ∀ item ∈ items', item.Avoids := fun item hitem =>
    havoids item (hitems.perm.mem_iff.mpr hitem)
  obtain ⟨c, hdeclare, hacc⟩ := (exists_compileItems_iff havoids).mp h
  have hcons := (exists_declareItems_iff name settings).mp ⟨c, hdeclare⟩
  obtain ⟨c', hdeclare'⟩ := (exists_declareItems_iff name settings).mpr (hcons.reordered hitems)
  refine (exists_compileItems_iff havoids').mpr ⟨c', hdeclare', ?_⟩
  have hoffers := (lowered_declared havoids hdeclare).2.1
  have hoffers' := (lowered_declared havoids' hdeclare').2.1
  exact hacc.reordered (hoffers.concurs hoffers' hitems.mem_protosOf) hitems havoids

/-- The stages of a compilation: prototypes are declared, items are lowered, and the function of the
statements outside of functions is finished. -/
theorem exists_stages (havoids : ∀ item ∈ items, item.Avoids) {name : String} {c : Compilation}
    (hy : Yields (compileItems items none) (.start name settings) m c) :
    ∃ c1 c2 c3 : Compilation, Yields (items.forM declareItem) (.start name settings) () c1 ∧
      Lowered (protosOf items) c1.module [] c1 ∧ Yields (items.forM lowerItem) c1 () c2 ∧
      Lowered (protosOf items) c1.module items c2 ∧ Yields finishToplevel c2 () c3 ∧
      Finished (protosOf items) settings items c3.module ∧ m = c3.module.discardUnused := by
  obtain ⟨_, c1, hdeclare, hy⟩ := yields_bind.mp hy
  obtain ⟨_, c2, hlower, hy⟩ := yields_bind.mp hy
  obtain ⟨h1, hoffers, hsettings⟩ := lowered_declared havoids hdeclare
  have h2 := h1.of_lowerItems hoffers
    (fun item hitem => ⟨havoids item hitem, among_protosOf items item hitem⟩) hlower
  obtain ⟨c3, hfinish, h3⟩ := h2.finished
  rw [(sane_passes (upheld_true _) hdeclare hlower).2] at h3
  refine ⟨c1, c2, c3, hdeclare, h1, hlower, h2, hfinish, h3, ?_⟩
  have hrun := hy.symm.trans (run_finish hfinish)
  split at hrun
  · cases hrun
  · cases hrun
    rfl

/-- What a compilation gives is what is left of a finished module. -/
theorem exists_finished (havoids : ∀ item ∈ items, item.Avoids) {name : String} {c : Compilation}
    (hy : Yields (compileItems items none) (.start name settings) m c) :
    ∃ m1, Finished (protosOf items) settings items m1 ∧ m = m1.discardUnused := by
  obtain ⟨_, _, c3, _, _, _, _, _, hfinished, heq⟩ := exists_stages havoids hy
  exact ⟨c3.module, hfinished, heq⟩

/-- The order of the items of a program that was read does not matter, if the statements outside of
functions keep theirs. -/
theorem compileItems_reordered {lx : Lexer} (hread : (Parser.ofLexer lx).parse = .ok items)
    (hitems : Reordered items items') (name : String) (settings : Settings) :
    ((∃ m c, Yields (compileItems items none) (.start name settings) m c) ↔
      ∃ m c, Yields (compileItems items' none) (.start name settings) m c) ∧
    ∀ m c m' c', Yields (compileItems items none) (.start name settings) m c →
      Yields (compileItems items' none) (.start name settings) m' c' → m.SameCode m' := by
  have havoids := Parser.avoids_of_parse hread
  have havoids' : ∀ item ∈ items', item.Avoids := fun item hitem =>
    havoids item (hitems.perm.mem_iff.mpr hitem)
  refine ⟨⟨hitems.exists_compileItems havoids, hitems.symm.exists_compileItems havoids'⟩, ?_⟩
  intro m c m' c' hy hy'
  obtain ⟨m1, h, rfl⟩ := exists_finished havoids hy
  obtain ⟨m1', h', rfl⟩ := exists_finished havoids' hy'
  exact h.sameCode h' hitems

/-- Two functions with a string each, and a statement with one more. -/
def notes : List Item := [
  .foreign ⟨"show", [⟨"s", ⟨"string", none⟩⟩], .void⟩,
  .function ⟨⟨"first", [], ⟨"string", none⟩⟩, [.ret (some (.string "one"))]⟩,
  .function ⟨⟨"second", [], ⟨"string", none⟩⟩, [.ret (some (.string "two"))]⟩,
  .statement (.expr (.call "show" [.string "three"]))]

def notesStyle : PrintStyle := ⟨fun _ => [], false, false⟩

def notesText : String :=
  "@ show ( s string ) void fun first ( ) string \x7b return ( \"one\" ) \x7d " ++
  "fun second ( ) string \x7b return ( \"two\" ) \x7d ( show ( \"three\" ) )"

/-- A function of one block. -/
def note (name : String) (ret : Ty) (instrs : List Instr) (t : Terminator) : Function :=
  ⟨name, [], ret, some ⟨[⟨0, "entry", instrs, some t⟩], [], 1⟩⟩

def notesModule : Module where
  name := "m"
  functions := [⟨"show", [⟨"s", .string⟩], .void, none⟩,
    note "first" .string [] (.ret (some (.global 0))),
    note "second" .string [] (.ret (some (.global 1))),
    note toplevelName .void [⟨none, .void, .call "show" [.global 2]⟩] (.ret none)]
  strings := ["one", "two", "three"]
  routines := []

def reversedModule : Module where
  name := "m"
  functions := [note "second" .string [] (.ret (some (.global 1))),
    note "first" .string [] (.ret (some (.global 2))),
    ⟨"show", [⟨"s", .string⟩], .void, none⟩,
    note toplevelName .void [⟨none, .void, .call "show" [.global 0]⟩] (.ret none)]
  strings := ["three", "two", "one"]
  routines := []

set_option maxRecDepth 2000 in
theorem notes_reordered : (Parser.ofLexer (.ofSource (.ofString notesText) {})).parse = .ok notes ∧
    Reordered notes notes.reverse ∧
    Yields (compileItems notes none) (.start "m" {}) notesModule ⟨notesModule, none, {}⟩ ∧
    Yields (compileItems notes.reverse none) (.start "m" {}) reversedModule
      ⟨reversedModule, none, {}⟩ ∧
    notesModule.SameCode reversedModule := by
  have hprintable : ProgramPrintable notesStyle notes := by decide +kernel
  have htext : notesStyle.text notes = notesText := by decide +kernel
  have hread : (Parser.ofLexer (.ofSource (.ofString notesText) {})).parse = .ok notes := by
    rw [← htext]
    exact Parser.parse_of_spells hprintable (Lexer.spells_ofSource hprintable.readable false)
  have hitems : Reordered notes notes.reverse := ⟨(List.reverse_perm notes).symm, rfl⟩
  have hy : Yields (compileItems notes none) (.start "m" {}) notesModule ⟨notesModule, none, {}⟩ := by
    change @Eq (Except CompileError Module × Compilation) _ _
    decide +kernel
  have hy' : Yields (compileItems notes.reverse none) (.start "m" {}) reversedModule
      ⟨reversedModule, none, {}⟩ := by
    change @Eq (Except CompileError Module × Compilation) _ _
    decide +kernel
  exact ⟨hread, hitems, hy, hy', (compileItems_reordered hread hitems "m" {}).2 _ _ _ _ hy hy'⟩

end Compilation

end SsaCompiler
