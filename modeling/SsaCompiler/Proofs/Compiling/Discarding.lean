import SsaCompiler.Proofs.Compiling.Safety
import SsaCompiler.Proofs.Validity.Places
import Mathlib.Data.Nat.Nth

/-!
Discarding what a module does not use. The strings that some operand refers to stay in their order,
and every operand still refers to its text; the routines that some instruction calls stay. Nothing
else changes, and there is nothing to discard a second time.
-/
namespace SsaCompiler.Ir

/-- The same operand where the strings may be numbered in another way: both refer to the same text. -/
inductive Value.SameText (texts texts' : List String) : Value → Value → Prop
  | const {c} : SameText texts texts' (.const c) (.const c)
  | reg {r} : SameText texts texts' (.reg r) (.reg r)
  | param {i} : SameText texts texts' (.param i) (.param i)
  | global {i j text} (h : texts[i]? = some text) (h' : texts'[j]? = some text) :
      SameText texts texts' (.global i) (.global j)

/-- The same function, with operands that `R` relates place by place. -/
structure Function.Like (R : Value → Value → Prop) (f f' : Function) : Prop where
  name : f.name = f'.name
  params : f.params = f'.params
  ret : f.ret = f'.ret
  body : Option.Rel (Body.Like R) f.body f'.body

def Body.Calls (name : String) (b : Body) : Prop :=
  ∃ x ∈ b.blocks, ∃ i ∈ x.instrs, ∃ args, i.op = .call name args

namespace Module

variable {m : Module} {i j : Nat} {used : List Nat}

/-- Some operand refers to the string. -/
def Refers (m : Module) (i : Nat) : Prop := ∃ b ∈ m.bodies, b.Takes (.global i)

theorem mem_bodies {b : Body} : b ∈ m.bodies ↔ ∃ f ∈ m.functions, f.body = some b := by
  simp [bodies]

theorem mem_referenced_iff : i ∈ m.referenced ↔ m.Refers i := by
  simp only [mem_referenced, Refers, mem_bodies, Body.takes_iff]
  constructor
  · rintro ⟨f, hf, b, hb, hi⟩
    exact ⟨b, ⟨f, hf, hb⟩, hi⟩
  · rintro ⟨b, ⟨f, hf, hb⟩, hi⟩
    exact ⟨f, hf, b, hb, hi⟩

theorem mem_callees {name : String} : name ∈ m.callees ↔ ∃ b ∈ m.bodies, b.Calls name := by
  have hcallee : ∀ op : Op, op.callee? = some name ↔ ∃ args, op = .call name args := by
    intro op
    cases op <;> simp [Op.callee?]
  simp [callees, Body.Calls, hcallee]

theorem bodies_discardUnused (m : Module) :
    m.discardUnused.bodies = m.bodies.map (Body.mapOperands (renumber m.referenced)) := by
  simp only [bodies, discardUnused, List.filterMap_map, List.map_filterMap]
  rfl

theorem callees_discardUnused (m : Module) : m.discardUnused.callees = m.callees := by
  have hcallee : ∀ (σ : Value → Value) (op : Op), (op.mapOperands σ).callee? = op.callee? := by
    intro σ op
    cases op <;> rfl
  simp [callees, bodies_discardUnused, List.flatMap_map, Body.mapOperands, Block.mapOperands,
    Instr.mapOperands, Function.comp_def, hcallee]

/-- The strings that stay, by their old numbers. -/
theorem map_some_strings (m : Module) : m.discardUnused.strings.map some =
    ((List.range m.strings.length).filter (· ∈ m.referenced)).map (m.strings[·]?) := by
  rw [← map_snd_kept, List.map_map, discardUnused, List.map_map]
  refine List.map_congr_left fun s hs => ?_
  exact (List.mem_zipIdx_iff_getElem?.mp (List.mem_of_mem_filter hs)).symm

/-- Where everything is used, nothing is discarded. -/
theorem discardUnused_eq_self (hstrings : ∀ j, m.Refers j ↔ j < m.strings.length)
    (hroutines : ∀ r ∈ m.routines, r.name ∈ m.callees) : m.discardUnused = m := by
  have hfunctions : m.discardUnused.functions = m.functions := by
    rw [functions_discardUnused m (fun v => v)]
    · have hbody : Body.mapOperands (fun v => v) = id := funext Body.mapOperands_id
      simp [hbody]
    · intro v hv
      cases v with
      | global j =>
        have hj := (hstrings j).mp (mem_referenced_iff.mp (hv j rfl))
        refine congrArg Value.global (Eq.symm ?_)
        rw [rank_eq_count (nodup_referenced m), Nat.count_iff_forall]
        exact fun k hk => mem_referenced_iff.mpr ((hstrings k).mpr (hk.trans hj))
      | _ => rfl
  have hkept : (m.strings.zipIdx.filter fun s => s.2 ∈ m.referenced) = m.strings.zipIdx := by
    refine List.filter_eq_self.mpr fun s hs => ?_
    have hlt := (List.getElem?_eq_some_iff.mp (List.mem_zipIdx_iff_getElem?.mp hs)).1
    simpa [mem_referenced_iff] using (hstrings s.2).mpr hlt
  have hcalled : (m.routines.filter fun r => r.name ∈ m.callees) = m.routines :=
    List.filter_eq_self.mpr fun r hr => by simpa using hroutines r hr
  calc m.discardUnused
      = ⟨m.name, m.discardUnused.functions,
          (m.strings.zipIdx.filter fun s => s.2 ∈ m.referenced).map (·.1),
          m.routines.filter fun r => r.name ∈ m.callees⟩ := rfl
    _ = m := by rw [hfunctions, hkept, hcalled, List.zipIdx_map_fst]

section

variable (hm : ∀ i, m.Refers i → i < m.strings.length)

include hm

theorem sameText_renumber {v : Value} (hv : ∀ i, v = .global i → m.Refers i) :
    v.SameText m.strings m.discardUnused.strings (renumber m.referenced v) := by
  cases v with
  | const c => exact .const
  | reg r => exact .reg
  | param i => exact .param
  | global i =>
    have hi := hv i rfl
    have hget := List.getElem?_eq_getElem (hm i hi)
    exact .global hget
      ((getElem?_rank (nodup_referenced m) (mem_referenced_iff.mpr hi) (hm i hi)).trans hget)

/-- After discarding, every string is referred to, and nothing else is. -/
theorem refers_discardUnused : m.discardUnused.Refers j ↔ j < m.discardUnused.strings.length := by
  have hrefers : m.discardUnused.Refers j ↔ ∃ i, m.Refers i ∧ rank m.referenced i = j := by
    simp only [Refers, bodies_discardUnused, List.mem_map, Body.takes_iff]
    constructor
    · rintro ⟨_, ⟨b, hb, rfl⟩, hj⟩
      rw [Body.operands_mapOperands] at hj
      obtain ⟨v, hv, hvj⟩ := List.mem_map.mp hj
      cases v with
      | global i => exact ⟨i, ⟨b, hb, hv⟩, by simpa [renumber] using hvj⟩
      | _ => simp [renumber] at hvj
    · rintro ⟨i, ⟨b, hb, hi⟩, rfl⟩
      refine ⟨_, ⟨b, hb, rfl⟩, ?_⟩
      rw [Body.operands_mapOperands]
      exact List.mem_map_of_mem (f := renumber m.referenced) hi
  have hlen : m.discardUnused.strings.length = Nat.count (· ∈ m.referenced) m.strings.length := by
    rw [← length_kept]
    exact List.length_map _
  rw [hrefers, hlen]
  constructor
  · rintro ⟨i, hi, rfl⟩
    rw [rank_eq_count (nodup_referenced m)]
    exact Nat.count_strict_mono (mem_referenced_iff.mpr hi) (hm i hi)
  · intro hj
    have hcard : ∀ hfin : (Set.ofPred (· ∈ m.referenced)).Finite, j < hfin.toFinset.card :=
      fun hfin => hj.trans_le (Nat.count_le_card hfin _)
    refine ⟨Nat.nth (· ∈ m.referenced) j, mem_referenced_iff.mp (Nat.nth_mem j hcard), ?_⟩
    rw [rank_eq_count (nodup_referenced m)]
    exact Nat.count_nth hcard

theorem discardUnused_discardUnused : m.discardUnused.discardUnused = m.discardUnused := by
  refine discardUnused_eq_self (fun j => refers_discardUnused hm) fun r hr => ?_
  rw [callees_discardUnused]
  simpa using (List.mem_filter.mp hr).2

end

/-- Where operands refer only to strings that exist: the strings that some operand refers to stay, in
their order; every operand of every function refers to the same text as before, and the functions are
otherwise the same; the declared routines that some instruction calls stay; the name of the module is
the same; and discarding again changes nothing. -/
theorem discardUnused_intact (m : Module) (hm : ∀ i, m.Refers i → i < m.strings.length) :
    (∃ kept : List Nat, kept.Pairwise (· < ·) ∧ (∀ i, i ∈ kept ↔ m.Refers i) ∧
      m.discardUnused.strings.map some = kept.map (m.strings[·]?)) ∧
    List.Forall₂ (Function.Like (Value.SameText m.strings m.discardUnused.strings)) m.functions
      m.discardUnused.functions ∧
    (m.discardUnused.routines.Sublist m.routines ∧
      ∀ r, r ∈ m.discardUnused.routines ↔ r ∈ m.routines ∧ ∃ b ∈ m.bodies, b.Calls r.name) ∧
    m.discardUnused.name = m.name ∧
    m.discardUnused.discardUnused = m.discardUnused := by
  refine ⟨⟨_, List.pairwise_lt_range.filter _, fun i => ?_, map_some_strings m⟩, ?_,
    ⟨List.filter_sublist, fun r => ?_⟩, rfl, discardUnused_discardUnused hm⟩
  · simp only [List.mem_filter, List.mem_range, decide_eq_true_eq, mem_referenced_iff]
    exact ⟨And.right, fun hi => ⟨hm i hi, hi⟩⟩
  · refine forall₂_map_self fun f hf => ⟨rfl, rfl, rfl, rel_map_self fun b hb => ?_⟩
    refine Body.like_mapOperands fun v hv => sameText_renumber hm fun i hi => ?_
    exact ⟨b, mem_bodies.mpr ⟨f, hf, hb⟩, hi ▸ hv⟩
  · simp [discardUnused, mem_callees]

/-- The two texts that are used stand in an argument, at an edge and in a terminator. -/
def greetings : Module where
  name := "greetings"
  functions := [⟨"count", [], .i64, none⟩, ⟨"greet", [⟨"late", .i1⟩], .string, some
    ⟨[⟨0, "entry", [⟨some 0, .i64, .call "puts" [.global 3]⟩], some (.condBr (.param 0) 1 2)⟩,
      ⟨1, "day", [], some (.ret (some (.global 1)))⟩,
      ⟨2, "night", [⟨some 1, .string, .phi [(.global 3, 0)]⟩], some (.ret (some (.reg 1)))⟩],
      [.i64, .string], 3⟩⟩]
  strings := ["good morning", "hello", "good evening", "goodbye"]
  routines := [.puts, .abort]

theorem greetings_intact :
    (∀ i, greetings.Refers i → i < greetings.strings.length) ∧
    greetings.discardUnused.strings = ["hello", "goodbye"] ∧
    greetings.discardUnused.routines = [.puts] ∧
    List.Forall₂ (Function.Like (Value.SameText greetings.strings ["hello", "goodbye"]))
      greetings.functions greetings.discardUnused.functions ∧
    greetings.discardUnused.discardUnused = greetings.discardUnused := by
  have hm : ∀ i, greetings.Refers i → i < greetings.strings.length := by
    intro i hi
    have hall : ∀ i ∈ greetings.referenced, i < greetings.strings.length := by decide
    exact hall i (mem_referenced_iff.mpr hi)
  have hintact := discardUnused_intact greetings hm
  exact ⟨hm, by decide, by decide, hintact.2.1, hintact.2.2.2.2⟩

end Module

end SsaCompiler.Ir
