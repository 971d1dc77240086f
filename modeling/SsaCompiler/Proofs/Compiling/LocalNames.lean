import SsaCompiler.Proofs.Compiling.Guards
import SsaCompiler.Proofs.Compiling.Table
import SsaCompiler.Proofs.Lowering.Labels
import SsaCompiler.Proofs.Printing.Names

/-!
The local names in the text of a compiled function. The entry block is block 0 and is called `entry`
from the start to the end of a compilation, and parameters are named as in a prototype of the
function, so by words. Hence the names are told apart unless the source repeats the name of a
parameter or gives a parameter the name of the entry block.
-/
namespace SsaCompiler

open Ir LowerM

namespace Compilation

/-- The block of number zero is there, and it is called `entry`. -/
structure Entered (b : Body) : Prop where
  entry : b.entry = 0
  name : ∀ x ∈ b.blocks, x.id = 0 → x.name = "entry"

/-- The same while a function is under construction; then numbers of blocks are given out. -/
structure Opened (b : Builder) : Prop where
  next : 0 < b.body.nextBlock
  entered : Entered b.body

theorem Opened.keeps {b b' : Builder} (h : Opened b) (hkeeps : b.KeepsBlocks b')
    (hentry : b'.body.entry = 0) : Opened b' where
  next := h.next.trans_le hkeeps.next
  entered := by
    refine ⟨hentry, fun y hy hid => ?_⟩
    rcases hkeeps.blocks y hy with ⟨x, hx, hsame, hname, _⟩ | hnew
    · rw [← hname]
      exact h.entered.name x hx (hsame.trans hid)
    · rw [hid] at hnew
      exact absurd h.next (Nat.not_lt.mpr hnew)

theorem upheld_opened (guard : Bool) : Upheld guard Opened where
  start f := ⟨Nat.one_pos, rfl, by simp [Builder.start, Body.empty, Body.addBlock]⟩
  stmt hguard hlive hret h hy :=
    h.keeps (traversed_naming.composed.lowerStmt _ [] _ _ _ hy)
      ((upheld_entry guard).stmt hguard hlive hret h.entered.entry hy)
  body hguard hlive hret h hy :=
    h.keeps (traversed_naming.composed.lowerBody (V := []) _ _ _ _ hy)
      ((upheld_entry guard).body hguard hlive hret h.entered.entry hy)
  ret h hterm :=
    h.keeps (Builder.moves_terminate hterm).keepsBlocks ((upheld_entry guard).ret h.entered.entry hterm)

variable {c c' : Compilation} {f : Function} {body : Body} {m m0 : Module} {p : Prototype}
  {protos : List Prototype} {sig : Signature} {items before : List Item} {settings : Settings}

/-- Functions are put into the module with their entry block. -/
theorem Made.entered (h : c.Made Opened f) (hbody : f.body = some body) : Entered body := by
  obtain ⟨K, b, m, hsound, hopened, _, rfl⟩ := h
  unfold Compilation.stored at hbody
  split at hbody
  · obtain rfl : Optimize.optimizeBody _ Optimize.maxRounds b.body = body := Option.some.inj hbody
    have hderived := Function.optimize_derived (f := b.finish) rfl hsound.verify hsound.orderly
      Optimize.standardPasses
    have hregular := hsound.orderly.regular (f := b.finish) rfl hsound.verify
    refine ⟨(hderived.rewrites.entry hregular).2.trans hopened.entered.entry, fun y hy hid => ?_⟩
    obtain ⟨x, hx, hsame, hname⟩ := hderived.rewrites.names y hy
    rw [← hname]
    exact hopened.entered.name x hx (hsame.trans hid)
  · obtain rfl : b.body = body := Option.some.inj hbody
    exact hopened.entered

theorem Sane.entered_discardUnused (h : c.Sane Opened) (hf : f ∈ c.module.discardUnused.functions)
    (hbody : f.body = some body) : Entered body := by
  obtain ⟨g, hg, rfl⟩ := List.mem_map.mp hf
  obtain ⟨b, hb, rfl⟩ := Option.map_eq_some_iff.mp hbody
  have hentered := (h.stored g hg (by simp [hb])).entered hb
  refine ⟨(Body.sameFlow_mapOperands _ b).entry.trans hentered.entry, fun y hy hid => ?_⟩
  obtain ⟨x, hx, rfl⟩ := List.mem_map.mp hy
  exact hentered.name x hx hid

/-- The parameters of a function are named as in one of its prototypes. -/
def NamedBy (protos : List Prototype) (f : Function) : Prop :=
  f.params = [] ∨ ∃ p ∈ protos, p.name = f.name ∧ f.params.map (·.name) = p.params.map (·.name)

theorem names_declaration (h : Signature.resolve p = .ok sig) :
    (sig.declaration p).params.map (·.name) = p.params.map (·.name) := by
  obtain ⟨types, htypes, h⟩ := bind_eq_ok.mp h
  obtain ⟨result, _, h⟩ := bind_eq_ok.mp h
  cases h
  have hlen := (Signature.resolveParams_eq_ok htypes).1
  unfold Signature.declaration
  rw [List.map_map]
  change (p.params.zip types).map ((·.name) ∘ Prod.fst) = _
  rw [← List.map_map, List.map_fst_zip hlen.ge]

theorem Announces.namedBy (h : Announces protos m) (hf : f ∈ m.functions) : NamedBy protos f := by
  obtain ⟨p, hp, sig, hsig, _, rfl⟩ := h.origin f hf
  exact .inr ⟨p, hp, rfl, names_declaration hsig⟩

/-- A function that is new is the one of the statements outside of functions, which has no
parameters. -/
theorem namedBy_step (m m' : Module) (hm : m.NamesApart) (hm' : m'.NamesApart)
    (hoffers : Offers protos m) (hoffers' : Offers protos m') (hleaves : m.Leaves (.ok ()) m')
    (h : ∀ f ∈ m.functions, NamedBy protos f) : ∀ g ∈ m'.functions, NamedBy protos g := by
  intro g hg
  have hold : ∀ f ∈ m.functions, f.name = g.name → NamedBy protos g := by
    intro f hf hname
    have hparams := (hleaves.signature hm hf hg hname.symm).1
    unfold NamedBy
    rw [hparams, ← hname]
    exact h f hf
  rcases hoffers'.origin g hg with htop | ⟨p, hp, hname⟩
  · have hfound := hm'.function? hg
    have htypes := (hoffers'.toplevel g (htop ▸ hfound)).2
    exact .inl (List.map_eq_nil_iff.mp htypes)
  · obtain ⟨_, _, f, hf, _⟩ := hoffers.found p hp
    refine hold f (List.mem_of_find?_eq_some hf) (Eq.trans ?_ hname)
    simpa using List.find?_some hf

/-- The function of the statements outside of functions has no parameters when it is finished. -/
theorem namedBy_finishToplevel (h : ∀ f ∈ c.module.functions, NamedBy protos f)
    (hlow : Lowered protos m0 items c) (hy : Yields finishToplevel c () c') :
    ∀ f ∈ c'.module.functions, NamedBy protos f := by
  cases htop : c.toplevel with
  | none =>
    have hrun := hy.symm.trans run_finishToplevel
    rw [htop] at hrun
    cases hrun
    exact h
  | some b =>
    obtain ⟨K, b', _, _, _, hparams, _, hy'⟩ := hlow.sane.exists_finishToplevel htop
    cases hy.symm.trans hy'
    intro f hf
    rcases Module.mem_functions_define hf with hf | rfl
    · exact h f hf
    · refine .inl ?_
      unfold Compilation.stored
      split <;> exact hparams

/-- What a compilation gives, and the names of the parameters of its functions. -/
theorem exists_named (havoids : ∀ item ∈ items, item.Avoids) {name : String}
    (hy : Yields (compileItems items none) (.start name settings) m c) :
    ∀ f ∈ m.functions, NamedBy (protosOf items) f := by
  obtain ⟨c1, c2, c3, hdeclare, h1, hlower, h2, hfinish, h3, rfl⟩ := exists_stages havoids hy
  have hann : Announces (protosOf items) c1.module := by
    simpa using ((announces_start name settings).of_declareItems hdeclare).1
  have hlowered := h1.keeps h1.stocked.offers
    (fun item hitem => ⟨havoids item hitem, among_protosOf items item hitem⟩) hlower namedBy_step
    fun f hf => hann.namedBy hf
  intro f hf
  obtain ⟨g, hg, rfl⟩ := List.mem_map.mp hf
  exact namedBy_finishToplevel hlowered h2 hfinish g hg

end Compilation

open Compilation

/-- The names of the parameters, the registers and the blocks of a compiled function are printed
differently exactly if no two of its parameters share a name and none has the name of the entry
block. -/
theorem compile_localNames (source : Source) (name : String) (settings : Settings) (m : Module)
    (hok : compile source name settings = .ok m) (f : Function) (hf : f ∈ m.functions) (b : Body)
    (hbody : f.body = some b) :
    (f.localNames b).Nodup ↔
      (f.params.map (·.name)).Nodup ∧ "entry" ∉ f.params.map (·.name) := by
  obtain ⟨items, c, hread, hy⟩ := read_of_compile hok
  have hwords : ∀ p ∈ f.params, '.' ∉ p.name.toList := by
    intro p hp
    rcases exists_named (Parser.avoids_of_parse hread) hy f hf with hnil | ⟨proto, hproto, _, hnames⟩
    · rw [hnil] at hp
      cases hp
    · obtain ⟨item, hitem, hsome⟩ := List.mem_filterMap.mp hproto
      have hmem : p.name ∈ proto.params.map (·.name) := hnames ▸ List.mem_map_of_mem hp
      obtain ⟨q, hq, heq⟩ := List.mem_map.mp hmem
      exact heq ▸ ((Parser.itemRead_of_parse hread item hitem).params proto hsome q hq).point_notMem
  obtain ⟨c', hsane, rfl⟩ := sane_of_compile (upheld_opened _) hok
  obtain ⟨hids, hvalid⟩ := hsane.checked.discardUnused f hf b hbody
  have hentered := hsane.entered_discardUnused hf hbody
  have hmem : 0 ∈ b.ids := hentered.entry ▸ Body.entry_mem_ids hvalid.nonempty
  exact Function.nodup_localNames_iff hbody hids hvalid.unique hmem hentered.name hwords

/-- In the first function names are shared, in the second they are not. -/
def keepSource : Source :=
  .ofString ("fun keep(entry int, x int, x int) int \x7b return x \x7d " ++
    "fun least(größe int, y int) int \x7b if größe < y \x7b return größe \x7d return y \x7d")

def keepBody : Body where
  blocks := [⟨0, "entry", [], some (.ret (some (.param 2)))⟩]
  regTypes := []
  nextBlock := 1

def leastBody : Body where
  blocks := [
    ⟨0, "entry", [⟨some 0, .i1, .icmp .slt (.param 0) (.param 1)⟩], some (.condBr (.reg 0) 1 2)⟩,
    ⟨1, "if.then", [], some (.ret (some (.param 0)))⟩,
    ⟨2, "if.else", [], some (.ret (some (.param 1)))⟩]
  regTypes := [.i1]
  nextBlock := 4

def keepFunction : Function :=
  ⟨"keep", [⟨"entry", .i64⟩, ⟨"x", .i64⟩, ⟨"x", .i64⟩], .i64, some keepBody⟩

def leastFunction : Function :=
  ⟨"least", [⟨"größe", .i64⟩, ⟨"y", .i64⟩], .i64, some leastBody⟩

def keepModule : Module := ⟨"m", [keepFunction, leastFunction], [], []⟩

theorem compile_keepSource : compile keepSource "m" {} = .ok keepModule := by decide +kernel

theorem keep_localNames : compile keepSource "m" {} = .ok keepModule ∧
    ¬ (keepFunction.localNames keepBody).Nodup ∧ (leastFunction.localNames leastBody).Nodup := by
  refine ⟨compile_keepSource, fun hnodup => ?_, ?_⟩
  · have hparams := (compile_localNames keepSource "m" {} keepModule compile_keepSource keepFunction
      List.mem_cons_self keepBody rfl).mp hnodup
    exact absurd hparams.1 (by decide)
  · exact (compile_localNames keepSource "m" {} keepModule compile_keepSource leastFunction
      (List.mem_cons_of_mem _ List.mem_cons_self) leastBody rfl).mpr ⟨by decide, by decide⟩

/-- Two parameters may be printed alike, and a parameter like the entry block. -/
theorem compile_repeats_localNames :
    ¬ ∀ (source : Source) (name : String) (settings : Settings) (m : Module),
      compile source name settings = .ok m → ∀ f ∈ m.functions, ∀ b, f.body = some b →
        (f.localNames b).Nodup := by
  intro hall
  have hnodup := hall keepSource "m" {} keepModule compile_keepSource keepFunction
    List.mem_cons_self keepBody rfl
  exact absurd hnodup (by decide)

end SsaCompiler
