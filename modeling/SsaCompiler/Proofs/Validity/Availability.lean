import SsaCompiler.Proofs.Validity.Types

/-!
Where registers are available. What is available at the definition of a register is available
wherever that register is, and no two registers are available at each other's definitions. A body
is regular if it is valid, has no two blocks of one number and no block out of reach, and gives its
registers the types of the instructions that define them.
-/
namespace SsaCompiler.Ir.Body

variable {b b' : Body} {x x0 : Block} {q r : Reg} {place : BlockId}
  {done done0 rest rest0 : List Instr} {i i0 : Instr}

/-- The instruction `i` behind `done` in the block `x` defines `r`. -/
structure Defines (b : Body) (x : Block) (done : List Instr) (i : Instr) (rest : List Instr)
    (r : Reg) : Prop where
  mem : x ∈ b.blocks
  split : x.instrs = done ++ i :: rest
  result : i.result = some r

theorem Defines.mem_definedBy (h : b.Defines x done i rest r) : r ∈ definedBy x.instrs :=
  Ir.mem_definedBy.mpr ⟨i, by simp [h.split], h.result⟩

theorem exists_defines (hx : x ∈ b.blocks) (hr : r ∈ definedBy x.instrs) :
    ∃ done i rest, b.Defines x done i rest r := by
  obtain ⟨i, hi, hres⟩ := Ir.mem_definedBy.mp hr
  obtain ⟨done, rest, hsplit⟩ := List.append_of_mem hi
  exact ⟨done, i, rest, hx, hsplit, hres⟩

theorem Defines.unique (hu : b.results.Nodup) (h0 : b.Defines x0 done0 i0 rest0 r)
    (h : b.Defines x done i rest r) : x0 = x ∧ done0 = done ∧ i0 = i ∧ rest0 = rest := by
  obtain rfl := definition_unique hu h0.mem h.mem h0.mem_definedBy h.mem_definedBy
  exact ⟨rfl, split_unique (nodup_definedBy hu h0.mem) h0.split h.split h0.result h.result⟩

/-- A register is available behind its definition in its block, and in the blocks that its block
dominates. -/
theorem Defines.avail_cases (hu : b.results.Nodup)
    (h0 : b.Defines x0 done0 i0 rest0 r) (hx : x ∈ b.blocks) (hsplit : x.instrs = done ++ rest)
    (h : b.AvailIn x.id done r) :
    (x0 = x ∧ ∃ mid, done = done0 ++ i0 :: mid) ∨ (x0.id ≠ x.id ∧ b.Dominates x0.id x.id) := by
  rcases h with hr | ⟨y, hy, hr, hne, hdom⟩
  · left
    obtain ⟨i, hi, hres⟩ := Ir.mem_definedBy.mp hr
    obtain ⟨pre, mid, rfl⟩ := List.append_of_mem hi
    have hdef : b.Defines x pre i (mid ++ rest) r := ⟨hx, by simp [hsplit], hres⟩
    obtain ⟨rfl, rfl, rfl, _⟩ := h0.unique hu hdef
    exact ⟨rfl, mid, rfl⟩
  · right
    obtain rfl := definition_unique hu h0.mem hy h0.mem_definedBy hr
    exact ⟨hne, hdom⟩

/-- What is available at the definition of a register is available wherever the register is. -/
theorem Defines.avail_trans (hu : b.results.Nodup)
    (h0 : b.Defines x0 done0 i0 rest0 r) (hq : b.AvailIn x0.id done0 q) (hx : x ∈ b.blocks)
    (hreach : b.Reaches x.id) (hsplit : x.instrs = done ++ rest) (h : b.AvailIn x.id done r) :
    b.AvailIn x.id done q := by
  rcases h0.avail_cases hu hx hsplit h with ⟨rfl, mid, rfl⟩ | ⟨hne, hdom⟩
  · exact hq.mono fun i hi => List.mem_append_left _ hi
  · rcases hq with hq | ⟨y, hy, hq, _, hydom⟩
    · refine .inr ⟨x0, h0.mem, ?_, hne, hdom⟩
      rw [h0.split, definedBy_append]
      exact List.mem_append_left _ hq
    · refine .inr ⟨y, hy, hq, ?_, Dom.trans hydom hdom⟩
      intro hid
      rw [hid] at hydom
      exact hne (Dom.antisymm hdom hydom (Dom.reach hdom hreach))

/-- The same at the end of a block. -/
theorem Defines.avail_out_trans (hb : b.ids.Nodup) (hu : b.results.Nodup)
    (h0 : b.Defines x0 done0 i0 rest0 r) (hq : b.AvailIn x0.id done0 q) (hx : x ∈ b.blocks)
    (hreach : b.Reaches x.id) (h : b.AvailOut x.id r) : b.AvailOut x.id q :=
  (h0.avail_trans hu hq hx hreach (List.append_nil _).symm (h.inside hb hx)).out hx

/-- A register is not available at its own definition. -/
theorem Defines.not_avail_self (hu : b.results.Nodup)
    (h0 : b.Defines x0 done0 i0 rest0 r) : ¬ b.AvailIn x0.id done0 r := by
  intro h
  rcases h0.avail_cases hu h0.mem h0.split h with ⟨_, mid, heq⟩ | ⟨hne, _⟩
  · have hlen := congrArg List.length heq
    simp at hlen
  · exact hne rfl

/-- Of two registers one is not available at the definition of the other. -/
theorem Defines.avail_asymm (hu : b.results.Nodup)
    (h0 : b.Defines x0 done0 i0 rest0 r) (hq : b.AvailIn x0.id done0 q)
    (h : b.Defines x done i rest q) (hreach : b.Reaches x.id) : ¬ b.AvailIn x.id done r :=
  fun hr => h.not_avail_self hu (h0.avail_trans hu hq h.mem hreach h.split hr)

theorem AvailIn.mem_results (hx : x ∈ b.blocks) (hsplit : x.instrs = done ++ rest)
    (h : b.AvailIn x.id done r) : r ∈ b.results := by
  rcases h with hr | ⟨y, hy, hr, _⟩
  · refine Body.mem_results.mpr ⟨x, hx, ?_⟩
    rw [hsplit, definedBy_append]
    exact List.mem_append_left _ hr
  · exact Body.mem_results.mpr ⟨y, hy, hr⟩

/-- Nothing is available at the start of the entry block. -/
theorem not_avail_entry : ¬ b.AvailIn b.entry [] r := by
  rintro (hr | ⟨y, _, _, hne, hdom⟩)
  · simp at hr
  · exact hdom (.here (Ne.symm hne))

/-- What is available at the start of a block is available where control leaves the block before. -/
theorem AvailIn.before_edge {u : BlockId} (h : b.AvailIn place [] r) (he : b.Leads u place) :
    b.AvailOut u r := by
  rcases h with hr | ⟨y, hy, hr, hne, hdom⟩
  · simp at hr
  · exact ⟨y, hy, hr, hdom.of_edge he hne⟩

/-- Two bodies with the same blocks by number, and the same edges between them. -/
structure SameFlow (b b' : Body) : Prop where
  ids : b'.ids = b.ids
  leads : b'.Leads = b.Leads

namespace SameFlow

theorem of_map {T : Block → Block} (h : b'.blocks = b.blocks.map T) (hid : ∀ x, (T x).id = x.id)
    (htargets : ∀ x, (T x).targets = x.targets) : SameFlow b b' := by
  constructor
  · simp [Body.ids, h, Function.comp_def, hid]
  · funext u v
    simp only [Body.Leads, h, List.mem_map, exists_exists_and_eq_and, hid, htargets]

theorem refl (b : Body) : SameFlow b b := ⟨rfl, rfl⟩

theorem trans {b'' : Body} (h : SameFlow b b') (h' : SameFlow b' b'') : SameFlow b b'' :=
  ⟨h'.ids.trans h.ids, h'.leads.trans h.leads⟩

theorem entry (h : SameFlow b b') : b'.entry = b.entry := by
  have heads : ∀ b : Body, b.entry = b.ids.head?.getD 0 := by simp [Body.entry, entryId?, Body.ids]
  rw [heads b', heads b, h.ids]

theorem reaches (h : SameFlow b b') : b'.Reaches = b.Reaches := by
  funext v
  rw [Reaches, Reaches, h.leads, h.entry]

theorem dominates (h : SameFlow b b') : b'.Dominates = b.Dominates := by
  funext u v
  rw [Dominates, Dominates, h.leads, h.entry]

end SameFlow

end SsaCompiler.Ir.Body

namespace SsaCompiler.Ir

def Op.isCompare : Op → Bool
  | icmp .. | fcmp .. => true
  | _ => false

/-- A result has the type of its instruction, and a comparison gives a boolean. -/
def Instr.Typed (f : Function) (i : Instr) : Prop :=
  ∀ r, i.result = some r → f.typeOf (.reg r) = i.ty ∧ (i.op.isCompare → i.ty = .i1)

/-- A change that keeps the result, the type and the kind of an instruction keeps it typed. -/
theorem Instr.Typed.of_eq {f : Function} {i j : Instr} (h : i.Typed f)
    (hresult : j.result = i.result) (hty : j.ty = i.ty)
    (hop : j.op.isCompare = i.op.isCompare) : j.Typed f := by
  intro r hr
  rw [hty, hop]
  exact h r (hresult ▸ hr)

/-- What the passes rely on and keep. -/
structure Body.Regular (f : Function) (m : Module) (b : Body) : Prop where
  ids : b.ids.Nodup
  valid : b.Valid f m
  reached : ∀ x ∈ b.blocks, b.Reaches x.id
  typed : ∀ x ∈ b.blocks, ∀ i ∈ x.instrs, i.Typed f

end SsaCompiler.Ir
