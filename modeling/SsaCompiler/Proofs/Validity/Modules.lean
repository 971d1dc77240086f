import SsaCompiler.Proofs.Building.Typing
import SsaCompiler.Proofs.Validity.Substitution
import Mathlib.Data.Nat.Count

/-!
Bodies in a module that changes. A body stays well formed when functions and strings are added to its
module, and when the strings and routines that nothing uses are taken away, with the remaining
strings numbered anew.
-/
namespace SsaCompiler.Ir

/-- A function fits a module if it does not take the name of a routine without its signature. -/
def Function.Fits (f : Function) : Prop :=
  ∀ r : Routine, f.name = r.name → f.paramTypes = r.params ∧ f.ret = r.ret

namespace Module

variable {m m' m'' : Module} {f g : Function} {name : String} {b : Body}

theorem function?_addFunction (f : Function) : (m.addFunction f).function? name =
    (m.function? name).or (if f.name = name then some f else none) := by
  unfold function? addFunction
  rw [List.find?_append]
  by_cases hname : f.name = name
  · simp [hname]
  · simp [hname]

theorem find?_set_findIdx? {fs : List Function} {i : Nat}
    (h : fs.findIdx? (·.name = g.name) = some i) : (fs.set i g).find? (·.name = name) =
      if g.name = name then some g else fs.find? (·.name = name) := by
  induction fs generalizing i with
  | nil => simp at h
  | cons f fs ih =>
    rw [List.findIdx?_cons] at h
    by_cases hf : f.name = g.name
    · obtain rfl : i = 0 := by simpa [hf, eq_comm] using h
      by_cases hname : g.name = name
      · simp [hname]
      · simp [hf, hname]
    · simp only [hf, decide_false, Bool.false_eq_true, if_false, Option.map_eq_some_iff] at h
      obtain ⟨j, hj, rfl⟩ := h
      rw [List.set_cons_succ, List.find?_cons, List.find?_cons, ih hj]
      by_cases hname : g.name = name
      · simp [hname ▸ hf, hname]
      · simp [hname]

theorem function?_define (g : Function) :
    (m.define g).function? name = if g.name = name then some g else m.function? name := by
  unfold define
  cases hidx : m.functions.findIdx? (·.name = g.name) with
  | some i => exact find?_set_findIdx? hidx
  | none =>
    have hold : m.function? g.name = none :=
      List.find?_eq_none.mpr (by simpa using List.findIdx?_eq_none_iff.mp hidx)
    dsimp only
    rw [function?_addFunction]
    by_cases hname : g.name = name
    · rw [← hname, hold]
      simp
    · simp [hname]

theorem mem_functions_define (hf : f ∈ (m.define g).functions) : f ∈ m.functions ∨ f = g := by
  unfold define at hf
  split at hf
  · exact List.mem_or_eq_of_mem_set hf
  · simpa [addFunction] using hf

theorem serves_addFunction (m : Module) (hf : f.Fits) : m.Serves (m.addFunction f) := by
  refine ⟨le_rfl, fun name sig hsig => ?_⟩
  unfold calleeSignature? at hsig ⊢
  rw [function?_addFunction]
  cases hold : m.function? name with
  | some g => simpa [hold] using hsig
  | none =>
    rw [hold] at hsig
    obtain ⟨r, hr, hsig⟩ := Option.map_eq_some_iff.mp hsig
    by_cases hname : f.name = name
    · have hrname : r.name = name := by simpa using List.find?_some hr
      obtain ⟨hparams, hret⟩ := hf r (hname.trans hrname.symm)
      simp [hname, hparams, hret, ← hsig]
    · rw [if_neg hname]
      exact Option.map_eq_some_iff.mpr ⟨r, hr, hsig⟩

theorem strings_define (m : Module) (g : Function) : (m.define g).strings = m.strings := by
  unfold define
  split <;> rfl

theorem routines_define (m : Module) (g : Function) : (m.define g).routines = m.routines := by
  unfold define
  split <;> rfl

/-- A definition takes the place of a declaration with its signature. -/
theorem serves_define (hg : m.calleeSignature? g.name = some (g.paramTypes, g.ret)) :
    m.Serves (m.define g) := by
  refine ⟨le_of_eq (by rw [strings_define]), fun name sig hsig => ?_⟩
  by_cases hname : g.name = name
  · rw [← hname, hg] at hsig
    rw [calleeSignature?, function?_define, if_pos hname]
    exact hsig
  · rw [calleeSignature?, function?_define, if_neg hname, routines_define]
    exact hsig

end Module

section Serving

variable {f : Function} {m m' : Module} {ty : Ty} {op : Op} {b : Body}

theorem Function.checkOp_serves (h : m.Serves m') (hop : f.checkOp m ty op = .ok ()) :
    f.checkOp m' ty op = .ok () := by
  rw [← Op.mapOperands_id op]
  refine Function.checkOp_mapOperands (fun _ => rfl) (fun v _ hv => ?_)
    (fun callee sig _ => h.callees callee sig) hop
  have hex := Function.exists_iff.mp hv
  exact Function.exists_iff.mpr ⟨hex.1, fun i hi => (hex.2 i hi).trans_le h.strings⟩

theorem Body.Valid.serves (hb : b.Valid f m) (h : m.Serves m') : b.Valid f m' :=
  { hb with
    shape := fun x hx =>
      { hb.shape x hx with
        typed := fun i hi => Function.checkOp_serves h ((hb.shape x hx).typed i hi) } }

end Serving

namespace Module

/-- All bodies of a module are well formed. -/
def Checked (m : Module) : Prop :=
  ∀ f ∈ m.functions, ∀ b, f.body = some b → b.ids.Nodup ∧ b.Valid f m

variable {m : Module} {f : Function} {b : Body} {v : Value} {used : List Nat}

theorem rank_eq_count (hused : used.Nodup) (i : Nat) : rank used i = Nat.count (· ∈ used) i := by
  rw [Nat.count_eq_card_filter_range, rank, ← List.toFinset_card_of_nodup (hused.filter _)]
  congr 1
  ext j
  simp [and_comm]

/-- The numbers of the strings that stay, in their order. -/
theorem map_snd_kept (strings : List String) (used : List Nat) :
    (strings.zipIdx.filter fun s => s.2 ∈ used).map (·.2) =
      (List.range strings.length).filter (· ∈ used) := by
  rw [List.range_eq_range', ← List.zipIdx_map_snd 0 strings, List.filter_map]
  rfl

theorem length_kept (strings : List String) (used : List Nat) :
    (strings.zipIdx.filter fun s => s.2 ∈ used).length = Nat.count (· ∈ used) strings.length := by
  rw [← List.length_map (·.2), map_snd_kept, ← List.countP_eq_length_filter]
  rfl

/-- A string that stays is found under its new number. -/
theorem getElem?_rank {strings : List String} {i : Nat} (hused : used.Nodup) (hi : i ∈ used)
    (hlt : i < strings.length) :
    ((strings.zipIdx.filter fun s => s.2 ∈ used).map (·.1))[rank used i]? = strings[i]? := by
  have hlen : (strings.take i).length = i := by simp [hlt.le]
  have hrank : ((strings.take i).zipIdx.filter fun s => s.2 ∈ used).length = rank used i := by
    rw [length_kept, hlen, rank_eq_count hused]
  have hsplit : strings = strings.take i ++ strings[i] :: strings.drop (i + 1) := by simp
  have hzip : strings.zipIdx = (strings.take i).zipIdx ++
      (strings[i], i) :: (strings.drop (i + 1)).zipIdx (i + 1) := by
    conv_lhs => rw [hsplit]
    rw [List.zipIdx_append, List.zipIdx_cons, hlen, Nat.zero_add]
  rw [hzip, List.filter_append, List.filter_cons_of_pos (by simpa using hi), List.map_append,
    List.map_cons, List.getElem?_append_right (by simp [hrank])]
  simp [hrank, hlt]

/-- A string that stays gets a number below the number of strings that stay. -/
theorem rank_lt {strings : List String} {i : Nat} (hused : used.Nodup) (hi : i ∈ used)
    (hlt : i < strings.length) :
    rank used i < ((strings.zipIdx.filter fun s => s.2 ∈ used).map (·.1)).length := by
  have hsome := getElem?_rank hused hi hlt
  rw [List.getElem?_eq_getElem hlt] at hsome
  exact (List.getElem?_eq_some_iff.mp hsome).1

theorem typeOf_renumber (f : Function) (used : List Nat) (v : Value) :
    f.typeOf (renumber used v) = f.typeOf v := by
  cases v <;> rfl

theorem renumber_eq_reg {r : Reg} : renumber used v = .reg r ↔ v = .reg r := by
  cases v <;> simp [renumber]

theorem function?_discardUnused (m : Module) (name : String) :
    m.discardUnused.function? name = (m.function? name).map fun f =>
      { f with body := f.body.map (Body.mapOperands (renumber m.referenced)) } := by
  unfold function? discardUnused
  rw [List.find?_map]
  rfl

theorem nodup_eraseDups (l : List Nat) : l.eraseDups.Nodup := by
  induction hn : l.length using Nat.strong_induction_on generalizing l with
  | _ n ih =>
    cases l with
    | nil => simp
    | cons a l =>
      have hlt : (l.filter fun c => !c == a).length < n := by
        rw [← hn]
        exact Nat.lt_succ_of_le (List.length_filter_le _ _)
      rw [List.eraseDups_cons]
      exact List.nodup_cons.mpr ⟨by simp, ih _ hlt _ rfl⟩

theorem nodup_referenced (m : Module) : m.referenced.Nodup := nodup_eraseDups _

/-- Discarding keeps what the bodies of the module use. -/
theorem admits_discardUnused (hf : f ∈ m.functions) (hb : f.body = some b) :
    b.Admits f m m.discardUnused (renumber m.referenced) where
  type := typeOf_renumber f _
  exists_ v hv hex := by
    have hex := Function.exists_iff.mp hex
    refine Function.exists_iff.mpr ⟨fun k hk => hex.1 k ?_, fun k hk => ?_⟩
    · cases v <;> simp_all [renumber]
    · cases v with
      | global i =>
        obtain rfl : rank m.referenced i = k := by simpa [renumber] using hk
        refine rank_lt m.nodup_referenced ?_ (hex.2 i rfl)
        refine List.mem_eraseDups.mpr (List.mem_filterMap.mpr ⟨.global i, ?_, rfl⟩)
        exact List.mem_flatMap.mpr ⟨b, List.mem_filterMap.mpr ⟨f, hf, hb⟩, hv⟩
      | _ => simp [renumber] at hk
  follows u q hu hne := absurd (renumber_eq_reg.mp hu) hne
  callees x hx i hi callee sig hcallee hsig := by
    have hcalled : callee ∈ m.callees := by
      refine List.mem_flatMap.mpr ⟨b, List.mem_filterMap.mpr ⟨f, hf, hb⟩, ?_⟩
      exact List.mem_flatMap.mpr ⟨x, hx, List.mem_filterMap.mpr ⟨i, hi, hcallee⟩⟩
    unfold calleeSignature? at hsig ⊢
    rw [function?_discardUnused]
    cases hold : m.function? callee with
    | some g =>
      rw [hold] at hsig
      exact hsig
    | none =>
      rw [hold] at hsig
      obtain ⟨r, hr, hr'⟩ := Option.map_eq_some_iff.mp hsig
      obtain rfl : r.name = callee := by simpa using List.find?_some hr
      have hkept : r ∈ m.discardUnused.routines :=
        List.mem_filter.mpr ⟨List.mem_of_find?_eq_some hr, by simpa using hcalled⟩
      exact Option.map_eq_some_iff.mpr ⟨r, find?_routine hkept, hr'⟩

theorem Checked.verify (h : m.Checked) : m.verify = .ok () := by
  refine forM_eq_ok.mpr fun f hf => ?_
  suffices hverify : f.verify m = .ok () by
    rw [hverify]
    rfl
  cases hb : f.body with
  | none => simp [Function.verify, hb, pure, Except.pure]
  | some b =>
    obtain ⟨hids, hvalid⟩ := h f hf b hb
    exact (Function.verify_eq_ok_iff hb hids).mpr hvalid

/-- Bodies stay well formed when what is unused is discarded. -/
theorem Checked.discardUnused (h : m.Checked) : m.discardUnused.Checked := by
  intro g hg b' hb'
  obtain ⟨f, hf, rfl⟩ := List.mem_map.mp hg
  obtain ⟨b, hb, rfl⟩ := Option.map_eq_some_iff.mp hb'
  obtain ⟨hids, hvalid⟩ := h f hf b hb
  refine ⟨(Body.sameFlow_mapOperands _ b).ids ▸ hids, ?_⟩
  refine ((admits_discardUnused hf hb).valid hvalid).congr rfl rfl ?_
  funext v
  cases v with
  | reg r => simp [Function.typeOf, hb, Body.mapOperands]
  | _ => rfl

end Module

end SsaCompiler.Ir
