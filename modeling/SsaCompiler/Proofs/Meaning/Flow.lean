import SsaCompiler.Proofs.Meaning.Substitution

/-!
Pruning and joining keep the outcome of runs. A run never takes an edge that pruning gives up, and
in a joined body it goes on where it would jump.
-/
namespace SsaCompiler.Ir

variable {α μ : Type} {env : Environment α μ} {args : List (Val α)} {b : Body} {f : Function}
  {m : Module} {o : Outcome α μ} {w : μ}

theorem Instr.exec_mapIncoming {ev : Value → Option (Val α)}
    {F : List (Value × BlockId) → List (Value × BlockId)} (i : Instr) (w : μ) :
    (i.mapIncoming F).exec env ev w = i.exec env ev w := by
  cases hphi : i.op.isPhi with
  | true => rw [exec_phi hphi, exec_phi (by simpa [mapIncoming] using hphi)]
  | false => rw [mapIncoming, Op.mapIncoming_of_plain hphi]

section Pruning

variable {keep : BlockId → Bool} {live : BlockId → BlockId → Bool} {τ : Terminator → Terminator}

/-- The run in the pruned body. -/
def Config.pruned (live : BlockId → BlockId → Bool) (τ : Terminator → Terminator)
    (c : Config α μ) : Config α μ :=
  { c with
    block := c.block.pruned live τ
    rest := c.rest.map (Instr.mapIncoming (·.filter fun e => live e.2 c.block.id)) }

theorem Config.rest_pruned {c : Config α μ} {i : Instr} {rest : List Instr}
    (h : c.rest = i :: rest) : (c.pruned live τ).rest =
      i.mapIncoming (·.filter fun e => live e.2 c.block.id) ::
        rest.map (Instr.mapIncoming (·.filter fun e => live e.2 c.block.id)) := by
  simp [pruned, h]

theorem Config.enter_pruned (c : Config α μ) (y : Block) (h : live c.block.id y.id) :
    (c.pruned live τ).enter env args (y.pruned live τ) = (c.enter env args y).pruned live τ := by
  have hphi : ∀ i : Instr, (i.mapIncoming (·.filter fun e => live e.2 y.id)).op.isPhi =
      i.op.isPhi := fun i => Op.isPhi_mapIncoming i.op
  simp only [enter, pruned, Config.mk.injEq, true_and, and_true]
  refine ⟨dropWhile_map_phis hphi y.instrs, ?_⟩
  have hphis : (y.pruned live τ).phis = y.phis.map (Instr.mapIncoming _) :=
    takeWhile_map_phis hphi y.instrs
  rw [hphis]
  refine phiRegs_map (fun _ => rfl) fun i _ => ?_
  cases hop : i.op with
  | phi incoming =>
    simp only [Instr.mapIncoming, hop, Op.mapIncoming, Op.phiValue?]
    have hfind : (incoming.filter fun e => live e.2 y.id).find? (·.2 = c.block.id) =
        incoming.find? (·.2 = c.block.id) := by
      refine find?_filter_of_imp fun e _ he => ?_
      have hsource : e.2 = c.block.id := by simpa using he
      rw [hsource]
      exact h
    have hid : (c.block.pruned live τ).id = c.block.id := rfl
    rw [hid, hfind]
    rfl
  | _ => simp only [Instr.mapIncoming, hop, Op.mapIncoming, Op.phiValue?]

/-- A pruned body runs like the body, if the changed terminators go where the old ones go. -/
theorem Body.Prunes.runs (h : b.Prunes f keep live τ) (hb : b.ids.Nodup)
    (hτ : ∀ (ρ : Regs α) t s, t.goesTo? (Value.eval env args ρ) = some s →
      (τ t).goesTo? (Value.eval env args ρ) = some s)
    (hret : ∀ v, τ (.ret v) = .ret v) (hrun : b.Runs env args w o) :
    (b.pruned keep live τ).Runs env args w o := by
  obtain ⟨x, hx, hrun⟩ := hrun
  have hmem : x ∈ b.blocks := List.mem_of_mem_head? hx
  have hentry : keep x.id := entry_of_head hx ▸ h.entry
  have hhead : (b.pruned keep live τ).blocks.head? = some (x.pruned live τ) := by
    cases hblocks : b.blocks with
    | nil => simp [hblocks] at hx
    | cons y ys =>
      obtain rfl : y = x := by simpa [hblocks] using hx
      simp [pruned, hblocks, hentry]
  refine ⟨_, hhead, ?_⟩
  let R (c d : Config α μ) : Prop :=
    (∃ done, c.At b done) ∧ keep c.block.id ∧ d = c.pruned live τ
  refine hrun.simulate (R := R) ?_ ?_ ⟨⟨_, .start hmem w⟩, hentry, rfl⟩
  · rintro c _ c' ⟨⟨done, hat⟩, hkeep, rfl⟩ hstep
    have hat' := hstep.at hb hat
    cases hstep with
    | @instr i rest v w calls regs hrest hexec hwrite =>
      refine .inr ⟨_, ?_, hat', hkeep, rfl⟩
      exact .instr (Config.rest_pruned hrest) ((Instr.exec_mapIncoming i _).trans hexec) hwrite
    | @jump t y hrest hterm hgoes hy =>
      obtain ⟨hy, _⟩ := (block?_eq_some hb).mp hy
      have hgoes' := hτ c.regs t y.id hgoes
      have hsucc := Terminator.goesTo?_mem hgoes'
      have hky := (h.targets _ hat.mem hkeep t hterm y.id hsucc).2
      have hlive : live c.block.id y.id :=
        (h.live _ _ (hat.leads hterm hgoes) hky).mpr
          ((leads_pruned hb hat.mem hkeep hterm).mpr hsucc)
      refine .inr ⟨_, ?_, hat', hky, rfl⟩
      rw [← Config.enter_pruned c y hlive]
      refine .jump (by simp [Config.pruned, hrest])
        (by simp only [Config.pruned, Block.pruned, hterm, Option.map_some]) hgoes' ?_
      exact (block?_eq_some (nodup_ids_pruned hb)).mpr
        ⟨mem_blocks_pruned.mpr ⟨y, hy, hky, rfl⟩, rfl⟩
  · rintro c _ o ⟨_, _, rfl⟩ hends
    cases hends with
    | ret hrest hterm =>
      exact .ret (by simp [Config.pruned, hrest])
        (by simp [Config.pruned, Block.pruned, hterm, hret])
    | retValue hrest hterm heval =>
      exact .retValue (by simp [Config.pruned, hrest])
        (by simp [Config.pruned, Block.pruned, hterm, hret]) heval
    | @stop i rest w calls hrest hexec =>
      exact .stop (Config.rest_pruned hrest) ((Instr.exec_mapIncoming i _).trans hexec)

end Pruning

section Joining

variable {x y z : Block} {u : BlockId}

/-- Instructions without phis at the end do not change the top of a block. -/
theorem phis_append (is : List Instr) {js : List Instr} (h : ∀ j ∈ js, j.op.isPhi = false) :
    (is ++ js).takeWhile (·.op.isPhi) = is.takeWhile (·.op.isPhi) ∧
      (is ++ js).dropWhile (·.op.isPhi) = is.dropWhile (·.op.isPhi) ++ js := by
  induction is with
  | nil =>
    cases js with
    | nil => simp
    | cons j js => simp [h j (by simp)]
  | cons i is ih => cases hphi : i.op.isPhi <;> simp [hphi, ih]

/-- The run in the joined body: in the joined block it stands behind the first one. -/
def Config.joined (x y : Block) (c : Config α μ) : Config α μ :=
  { c with
    block := x.joined y (if c.block.id = y.id then x else c.block)
    rest := c.rest.map (Instr.mapIncoming (renamedSource y.id x.id)) ++
      if c.block.id = x.id then y.instrs else [] }

/-- The edge from `u` is found under the name of the block that `u` moved to. -/
theorem find?_renamedSource {es : List (Value × BlockId)} (hux : u ≠ x.id)
    (hnot : x.id ∉ es.map (·.2)) :
    ((renamedSource y.id x.id es).find? (·.2 = Body.Follow.move x y u)).map (·.1) =
      (es.find? (·.2 = u)).map (·.1) := by
  have hsame : ∀ e ∈ es, ((if e.2 = y.id then (e.1, x.id) else e).2 = Body.Follow.move x y u ↔
      e.2 = u) := by
    intro e he
    have hex : e.2 ≠ x.id := fun heq => hnot (List.mem_map.mpr ⟨e, he, heq⟩)
    unfold Body.Follow.move
    by_cases hey : e.2 = y.id <;> by_cases huy : u = y.id
    · simp [hey, huy]
    · simp only [hey, if_true, huy, if_false]
      exact ⟨fun h => absurd h.symm hux, fun h => absurd h.symm huy⟩
    · simp only [hey, if_false, huy, if_true]
      exact ⟨fun h => absurd h hex, fun h => h.elim⟩
    · simp [hey, huy]
  induction es with
  | nil => rfl
  | cons e es ih =>
    have hhead := hsame e (by simp)
    have htail := ih (fun h => hnot (by simp [h])) fun e he => hsame e (by simp [he])
    unfold renamedSource at htail ⊢
    rw [List.map_cons]
    by_cases heu : e.2 = u
    · rw [List.find?_cons_of_pos (by simpa using hhead.mpr heu),
        List.find?_cons_of_pos (by simpa using heu), Option.map_some, Option.map_some]
      split <;> rfl
    · rw [List.find?_cons_of_neg (by simpa using mt hhead.mp heu),
        List.find?_cons_of_neg (by simpa using heu)]
      exact htail

theorem phiValue?_phi {ev : Value → Option (Val α)} (es : List (Value × BlockId)) :
    (Op.phi es).phiValue? ev u = ((es.find? (·.2 = u)).map (·.1)).bind ev := by
  cases hfind : es.find? (·.2 = u) <;> simp [Op.phiValue?, hfind]

theorem Config.enter_joined (h : b.Follow x y) (hb : b.Regular f m) {c : Config α μ}
    (hz : z ∈ b.blocks) (hzy : z.id ≠ y.id) (hcx : c.block.id ≠ x.id) :
    (c.joined x y).enter env args (x.joined y z) = (c.enter env args z).joined x y := by
  have hphi : ∀ i : Instr, (i.mapIncoming (renamedSource y.id x.id)).op.isPhi = i.op.isPhi :=
    fun i => Op.isPhi_mapIncoming i.op
  have htail : ∀ j ∈ (if z.id = x.id then y.instrs else []), j.op.isPhi = false := by
    intro j hj
    split at hj
    · exact h.plain j hj
    · simp at hj
  obtain ⟨htake, hdrop⟩ :=
    phis_append (z.instrs.map (Instr.mapIncoming (renamedSource y.id x.id))) htail
  have hsource : (c.joined x y).block.id = Body.Follow.move x y c.block.id := by
    simp only [Config.joined, Block.id_joined, Body.Follow.move]
    split <;> rfl
  simp only [enter, Config.joined, Config.mk.injEq, and_true, hzy, if_false, true_and]
  refine ⟨?_, ?_⟩
  · rw [Block.instrs_joined, hdrop, dropWhile_map_phis hphi]
    rfl
  · have hphis : (x.joined y z).phis = z.phis.map (Instr.mapIncoming (renamedSource y.id x.id)) := by
      rw [Block.phis, Block.instrs_joined, htake, takeWhile_map_phis hphi]
      rfl
    rw [hphis]
    refine phiRegs_map (fun _ => rfl) fun i hi => ?_
    cases hop : i.op with
    | phi incoming =>
      have hnot : x.id ∉ incoming.map (·.2) := by
        intro hmem
        have hedges := (hb.valid.shape z hz).edges i (List.takeWhile_subset _ hi) incoming hop
        exact hzy ((h.leads_first hb.ids).mp ((hedges.2 x.id).mp hmem))
      have hvalue : (i.mapIncoming (renamedSource y.id x.id)).op =
          .phi (renamedSource y.id x.id incoming) := by
        simp [Instr.mapIncoming, hop, Op.mapIncoming]
      rw [hvalue, phiValue?_phi, phiValue?_phi, ← find?_renamedSource (y := y) hcx hnot, ← hsource]
      rfl
    | _ => simp only [Instr.mapIncoming, hop, Op.mapIncoming, Op.phiValue?]

/-- The terminator that a run comes to is the same. -/
theorem Config.term_joined (h : b.Follow x y) (hb : b.ids.Nodup) {c : Config α μ}
    {done : List Instr} (hat : c.At b done) (hcx : c.block.id ≠ x.id) :
    (c.joined x y).block.term = c.block.term := by
  simp only [Config.joined, Block.term_joined]
  by_cases hcy : c.block.id = y.id
  · rw [Body.eq_of_id_eq hb hat.mem h.second hcy]
    simp
  · simp [hcy, hcx]

theorem Config.rest_joined {c : Config α μ} {i : Instr} {rest : List Instr}
    (h : c.rest = i :: rest) : (c.joined x y).rest =
      i.mapIncoming (renamedSource y.id x.id) ::
        (rest.map (Instr.mapIncoming (renamedSource y.id x.id)) ++
          if c.block.id = x.id then y.instrs else []) := by
  simp [joined, h]

/-- Where the body jumps from the first block to the second one, the joined body stands still. -/
theorem Config.enter_second (h : b.Follow x y) (hb : b.ids.Nodup) {c : Config α μ}
    {done : List Instr} (hat : c.At b done) (hcx : c.block.id = x.id) (hrest : c.rest = []) :
    (c.enter env args y).joined x y = c.joined x y := by
  obtain ⟨htake, hdrop⟩ := phis_append [] h.plain
  simp only [List.nil_append, List.takeWhile_nil, List.dropWhile_nil] at htake hdrop
  have hplain : y.instrs.map (Instr.mapIncoming (renamedSource y.id x.id)) = y.instrs := by
    refine (List.map_congr_left fun i hi => ?_).trans y.instrs.map_id
    simp [Instr.mapIncoming, Op.mapIncoming_of_plain (h.plain i hi)]
  have hx := Body.eq_of_id_eq hb hat.mem h.first hcx
  have hphis : y.phis = [] := htake
  simp only [Config.joined, enter, Config.mk.injEq, and_true, if_true, hdrop, hrest, hx, h.ne,
    Ne.symm h.ne, if_false, hplain, List.append_nil, List.map_nil, List.nil_append, true_and]
  funext q
  exact phiRegs_other (by simp [hphis])

theorem Body.Follow.runs (h : b.Follow x y) (hb : b.Regular f m) (hrun : b.Runs env args w o) :
    (b.joined x y).Runs env args w o := by
  obtain ⟨e, he, hrun⟩ := hrun
  have hmem : e ∈ b.blocks := List.mem_of_mem_head? he
  have hey : e.id ≠ y.id := entry_of_head he ▸ h.entry
  have hhead : (b.joined x y).blocks.head? = some (x.joined y e) := by
    cases hblocks : b.blocks with
    | nil => simp [hblocks] at he
    | cons z zs =>
      obtain rfl : z = e := by simpa [hblocks] using he
      simp [Body.joined, hblocks, hey]
  refine ⟨_, hhead, ?_⟩
  let R (c d : Config α μ) : Prop := (∃ done, c.At b done) ∧ d = c.joined x y
  refine hrun.simulate (R := R) ?_ ?_ ⟨⟨_, .start hmem w⟩, ?_⟩
  · rintro c _ c' ⟨⟨done, hat⟩, rfl⟩ hstep
    have hat' := hstep.at hb.ids hat
    cases hstep with
    | @instr i rest v w calls regs hrest hexec hwrite =>
      refine .inr ⟨_, ?_, hat', rfl⟩
      exact .instr (Config.rest_joined hrest) ((Instr.exec_mapIncoming i _).trans hexec) hwrite
    | @jump t z hrest hct hgoes hz =>
      obtain ⟨hz, _⟩ := (block?_eq_some hb.ids).mp hz
      have hlead := hat.leads hct hgoes
      by_cases hcx : c.block.id = x.id
      · rw [hcx] at hlead
        obtain rfl := eq_of_id_eq hb.ids hz h.second ((h.leads_first hb.ids).mp hlead)
        exact .inl ⟨hat', (Config.enter_second h hb.ids hat hcx hrest).symm⟩
      · have hzy := h.ne_of_leads hlead hcx
        refine .inr ⟨_, ?_, hat', rfl⟩
        rw [← Config.enter_joined h hb hz hzy hcx]
        refine .jump (by simp [Config.joined, hrest, hcx])
          ((Config.term_joined h hb.ids hat hcx).trans hct) ?_ ?_
        · rw [Block.id_joined]
          exact hgoes
        · exact block?_of_mem (nodup_ids_joined hb.ids) (mem_blocks_joined.mpr ⟨z, hz, hzy, rfl⟩)
  · rintro c _ o ⟨⟨done, hat⟩, rfl⟩ hends
    have hreturn : ∀ {v}, c.block.term = some (.ret v) → c.block.id ≠ x.id := by
      intro v hct hcx
      rw [eq_of_id_eq hb.ids hat.mem h.first hcx, h.term] at hct
      cases hct
    cases hends with
    | ret hrest hct =>
      have hcx := hreturn hct
      exact .ret (by simp [Config.joined, hrest, hcx])
        ((Config.term_joined h hb.ids hat hcx).trans hct)
    | retValue hrest hct heval =>
      have hcx := hreturn hct
      exact .retValue (by simp [Config.joined, hrest, hcx])
        ((Config.term_joined h hb.ids hat hcx).trans hct) heval
    | @stop i rest w calls hrest hexec =>
      exact .stop (Config.rest_joined hrest) ((Instr.exec_mapIncoming i _).trans hexec)
  · simp only [Config.joined, Block.start, hey, if_false, Block.instrs_joined]
    rfl

end Joining

end SsaCompiler.Ir
