import SsaCompiler.Proofs.Flow.Edges
import SsaCompiler.Proofs.Flow.Paths
import SsaCompiler.Proofs.Stable
import Mathlib.Data.List.Flatten
import Mathlib.Data.List.Pairwise

/-!
Both searches find exactly what paths lead to: the one with a stack, which gives the reachable blocks of
a flow graph, and the depth-first one, which gives their reverse postorder.
-/
namespace SsaCompiler.Ir.FlowGraph

variable {g : FlowGraph} {s t : Search} {u v w : BlockId} {us : List BlockId}

/-- Control may go from `u` to `v`. -/
def Leads (g : FlowGraph) (u v : BlockId) : Prop := v ∈ g.succs u

/-- The edges of the blocks that have not been entered. -/
def ahead (t : Table) (entered : List BlockId) : List BlockId :=
  (t.filter (·.1 ∉ entered)).flatMap (·.2)

theorem ahead_cons (r : BlockId × List BlockId) (t : Table) (entered : List BlockId) :
    ahead (r :: t) entered = if r.1 ∈ entered then ahead t entered else r.2 ++ ahead t entered := by
  by_cases hr : r.1 ∈ entered <;> simp [ahead, hr]

/-- The edges of a block that is entered are ahead no more. -/
theorem length_ahead_enter {entered : List BlockId} (t : Table) (hu : u ∉ entered) :
    (t.row u).length + (ahead t (u :: entered)).length ≤ (ahead t entered).length := by
  induction t with
  | nil => simp [ahead, Table.row]
  | cons r t ih =>
    rw [ahead_cons, ahead_cons, Table.row_cons]
    by_cases hr : u = r.1
    · rw [if_pos hr, if_pos (by simp [hr]), if_neg (hr ▸ hu), List.length_append]
      omega
    · by_cases hold : r.1 ∈ entered
      · rwa [if_neg hr, if_pos (List.mem_cons_of_mem _ hold), if_pos hold]
      · rw [if_neg hr, if_neg (by simp [Ne.symm hr, hold]), if_neg hold, List.length_append,
          List.length_append]
        omega

theorem length_ahead_mono {entered entered' : List BlockId} (t : Table)
    (h : ∀ u ∈ entered, u ∈ entered') : (ahead t entered').length ≤ (ahead t entered).length := by
  have hsub : (t.filter (·.1 ∉ entered')).Sublist (t.filter (·.1 ∉ entered)) := by
    refine List.monotone_filter_right t fun r hr => ?_
    rw [decide_eq_true_iff] at hr ⊢
    exact fun hold => hr (h _ hold)
  exact (hsub.flatMap _).length_le

namespace Worklist

variable {w w' : Worklist}

/-- The steps that are left: a block that waits is taken once, and so is what an edge leads to. -/
def size (g : FlowGraph) (w : Worklist) : Nat := w.waiting.length + (ahead g.outgoing w.reached).length

theorem size_advance (h : g.advance? w = some w') : w'.size g < w.size g := by
  obtain ⟨reached, waiting⟩ := w
  cases waiting with
  | nil => cases h
  | cons u rest =>
    obtain rfl := Option.some.inj h
    by_cases hu : u ∈ reached
    · simp [size, hu]
    · have hless := length_ahead_enter g.outgoing hu
      simp only [hu, if_false, size, succs, List.length_append, List.length_reverse, List.length_cons]
      omega

/-- What has been reached or waits can be reached, and no edge leads elsewhere. -/
structure Sound (g : FlowGraph) (w : Worklist) : Prop where
  reach : ∀ v ∈ w.reached ++ w.waiting, Reach g.Leads g.entry v
  start : g.entry ∈ w.reached ++ w.waiting
  closed : ∀ u ∈ w.reached, ∀ v, g.Leads u v → v ∈ w.reached ++ w.waiting

theorem Sound.advance (h : w.Sound g) (hstep : g.advance? w = some w') : w'.Sound g := by
  obtain ⟨reached, waiting⟩ := w
  cases waiting with
  | nil => cases hstep
  | cons u rest =>
    obtain rfl := Option.some.inj hstep
    have hfound : ∀ v, v ∈ reached ++ u :: rest ↔ v = u ∨ v ∈ reached ++ rest := by
      simp only [List.mem_append, List.mem_cons]
      tauto
    dsimp only
    split
    · -- the block on top has been reached before, so nothing is lost with it
      rename_i hu
      have hkept : ∀ v, v ∈ reached ++ u :: rest → v ∈ reached ++ rest := by
        intro v hv
        rcases (hfound v).mp hv with rfl | hv
        · exact List.mem_append_left _ hu
        · exact hv
      exact ⟨fun v hv => h.reach v ((hfound v).mpr (.inr hv)), hkept _ h.start,
        fun a ha v hedge => hkept v (h.closed a ha v hedge)⟩
    · have hmem : ∀ v, v ∈ u :: reached ++ ((g.succs u).reverse ++ rest) ↔
          v ∈ reached ++ u :: rest ∨ g.Leads u v := by
        simp only [List.mem_append, List.mem_cons, List.mem_reverse, Leads]
        tauto
      have hu : Reach g.Leads g.entry u := h.reach u (by simp)
      refine ⟨fun v hv => ?_, (hmem _).mpr (.inl h.start), fun a ha v hedge => (hmem v).mpr ?_⟩
      · rcases (hmem v).mp hv with hold | hedge
        · exact h.reach v hold
        · exact hu.next hedge
      · rcases List.mem_cons.mp ha with rfl | ha
        · exact .inr hedge
        · exact .inl (h.closed a ha v hedge)

end Worklist

/-- The search with a stack gets to the end of its stack. -/
theorem search_settles (g : FlowGraph) : ∃ w : Worklist, w.waiting = [] ∧ w.reached = g.reachable ∧
    Settles (roundOf g.advance?) ⟨[], [g.entry]⟩ w := by
  have hsize : Worklist.size g ⟨[], [g.entry]⟩ = g.bound := by
    simp [Worklist.size, ahead, bound, Nat.add_comm]
  have hsettles := roundOf_settles (P := fun _ => True) (Worklist.size g) (fun _ _ h _ => h)
    (fun _ _ _ hstep => Worklist.size_advance hstep) (a := ⟨[], [g.entry]⟩) trivial
  rw [hsize] at hsettles
  refine ⟨_, ?_, rfl, hsettles⟩
  have hend := hsettles.step_eq_none
  unfold advance? at hend
  split at hend
  · assumption
  · cases hend

/-- The search with a stack reaches what paths lead to. -/
theorem mem_reachable : v ∈ g.reachable ↔ Reach g.Leads g.entry v := by
  obtain ⟨w, hempty, hreached, hsettles⟩ := g.search_settles
  have hsound : w.Sound g := by
    refine hsettles.keeps (fun _ => roundOf_keeps fun _ _ => Worklist.Sound.advance) ⟨?_, ?_, ?_⟩
    · exact fun v hv => List.mem_singleton.mp hv ▸ Reach.start
    · simp
    · simp
  rw [← hreached]
  constructor
  · exact fun hv => hsound.reach v (List.mem_append_left _ hv)
  · intro hpath
    have hstart := hsound.start
    have hclosed := hsound.closed
    rw [hempty, List.append_nil] at hstart hclosed
    induction hpath with
    | here _ => exact hstart
    | step _ hedge _ ih => exact hclosed _ ih _ hedge

/-- A path from `u` that keeps out of the blocks entered before. -/
abbrev Fresh (g : FlowGraph) (s : Search) (u w : BlockId) : Prop :=
  Path g.Leads (· ∈ s.entered) u w

/-- A path from one of `us` to `v` that keeps out of the blocks entered before and of `w`. -/
def Around (g : FlowGraph) (us : List BlockId) (s : Search) (v w : BlockId) : Prop :=
  ∃ u ∈ us, Path g.Leads (fun z => z ∈ s.entered ∨ z = w) u v

theorem Around.mono {us' : List BlockId} (h : g.Around us t v w) (hus : ∀ u ∈ us, u ∈ us')
    (hentered : ∀ z ∈ s.entered, z ∈ t.entered) : g.Around us' s v w := by
  obtain ⟨u, hu, hpath⟩ := h
  exact ⟨u, hus u hu, hpath.avoid_less fun z => Or.imp_left (hentered z)⟩

/-- From `s` to `t` a search has entered, and left, what fresh paths from `us` lead to. What was left
last stands first. There is a way to it around everything behind it, and an edge back to it closes a
circle. -/
structure Explores (g : FlowGraph) (us : List BlockId) (s t : Search) : Prop where
  entered : ∀ w, w ∈ t.entered ↔ w ∈ s.entered ∨ ∃ u ∈ us, g.Fresh s u w
  left : ∃ new, t.left = new ++ s.left ∧
    new.Pairwise (fun v w => g.Around us s v w ∧ (g.Leads w v → Reach g.Leads v w)) ∧
    ∀ w, w ∈ new ↔ ∃ u ∈ us, g.Fresh s u w

namespace Explores

theorem nil (g : FlowGraph) (s : Search) : Explores g [] s s :=
  ⟨fun w => by simp, [], by simp⟩

theorem entered_mono (h : Explores g us s t) (hw : w ∈ s.entered) : w ∈ t.entered :=
  (h.entered w).mpr (.inl hw)

/-- After a search from `u` a further path is fresh, unless the search has found its end. -/
theorem fresh_iff (h : Explores g [u] s t) :
    (∃ x ∈ u :: us, g.Fresh s x w) ↔ g.Fresh s u w ∨ ∃ x ∈ us, g.Fresh t x w := by
  constructor
  · rintro ⟨x, hx, hpath⟩
    rcases List.mem_cons.mp hx with rfl | hx
    · exact .inl hpath
    · rcases hpath.avoid_or_from (· ∈ t.entered) with hkept | ⟨y, hy, hfrom⟩
      · exact .inr ⟨x, hx, hkept.avoid_less fun _ => Or.inr⟩
      · rcases (h.entered y).mp hy with hold | ⟨u', hu', hto⟩
        · exact absurd hold hfrom.start_free
        · obtain rfl : u' = u := by simpa using hu'
          exact .inl (hto.trans hfrom)
  · rintro (hpath | ⟨x, hx, hpath⟩)
    · exact ⟨u, by simp, hpath⟩
    · exact ⟨x, by simp [hx], hpath.avoid_less fun _ hold => h.entered_mono hold⟩

theorem cons {t' : Search} (h : Explores g [u] s t) (h' : Explores g us t t') :
    Explores g (u :: us) s t' := by
  obtain ⟨new, hnew, haround, hmem⟩ := h.left
  obtain ⟨new', hnew', haround', hmem'⟩ := h'.left
  have hfirst : ∀ w, (∃ x ∈ [u], g.Fresh s x w) ↔ g.Fresh s u w := by simp
  constructor
  · intro w
    rw [h'.entered w, h.entered w, hfirst w, h.fresh_iff, or_assoc]
  · refine ⟨new' ++ new, by rw [hnew', hnew, List.append_assoc], ?_, ?_⟩
    · refine List.pairwise_append.mpr ⟨haround'.imp (And.imp_left fun hpath => ?_),
        haround.imp (And.imp_left fun hpath => ?_), ?_⟩
      · exact hpath.mono (fun _ => List.mem_cons_of_mem _) fun z => h.entered_mono
      · exact hpath.mono (by simp) fun z hz => hz
      · -- what the first search has left was entered before the others began, and has no edge to what
        -- they enter
        intro v hv w hw
        obtain ⟨x, hx, hpath⟩ := (hmem' v).mp hv
        refine ⟨⟨x, List.mem_cons_of_mem _ hx, hpath.avoid_less ?_⟩, fun hedge => absurd ?_ hpath.stop_free⟩
        · rintro z (hz | rfl)
          · exact h.entered_mono hz
          · exact (h.entered z).mpr (.inr ((hmem z).mp hw))
        · obtain ⟨y, hy, hfrom⟩ := (hmem w).mp hw
          have hfree : v ∉ s.entered := fun hold => hpath.stop_free (h.entered_mono hold)
          exact (h.entered v).mpr (.inr ⟨y, hy, hfrom.step hedge hfree⟩)
    · intro w
      rw [List.mem_append, hmem' w, hmem w, hfirst w, h.fresh_iff, or_comm]

/-- Entering `u` and searching from all its successors explores from `u`. -/
theorem enter (hu : u ∉ s.entered)
    (h : Explores g (g.succs u) { s with entered := u :: s.entered } t) :
    Explores g [u] s { t with left := u :: t.left } := by
  have hsplit : ∀ w, g.Fresh s u w ↔
      w = u ∨ ∃ x ∈ g.succs u, g.Fresh { s with entered := u :: s.entered } x w := by
    intro w
    constructor
    · intro hpath
      rcases hpath.leave_start with rfl | ⟨x, hx, hlater⟩
      · exact .inl rfl
      · refine .inr ⟨x, hx, hlater.avoid_less fun y hy => ?_⟩
        rcases List.mem_cons.mp hy with rfl | hy
        · exact .inr rfl
        · exact .inl hy
    · rintro (rfl | ⟨x, hx, hpath⟩)
      · exact .here hu
      · exact .head hu hx (hpath.avoid_less fun y hy => List.mem_cons_of_mem _ hy)
  obtain ⟨new, hnew, haround, hmem⟩ := h.left
  have hfree : ∀ w ∈ new, ¬ (u ∈ s.entered ∨ u = w) := by
    rintro w hw (hold | rfl)
    · exact hu hold
    · obtain ⟨x, _, hpath⟩ := (hmem u).mp hw
      exact hpath.stop_free (by simp)
  constructor
  · intro w
    rw [h.entered w, List.mem_cons]
    simp only [List.mem_singleton, exists_eq_left, hsplit w]
    tauto
  · refine ⟨u :: new, by rw [hnew, List.cons_append], ?_, ?_⟩
    · refine List.pairwise_cons.mpr ⟨fun w hw => ⟨⟨u, by simp, .here (hfree w hw)⟩, fun _ => ?_⟩, ?_⟩
      · obtain ⟨x, hx, hpath⟩ := (hmem w).mp hw
        exact .head id hx hpath.reach
      · refine haround.imp_of_mem fun {v w} _ hw hpath => ⟨?_, hpath.2⟩
        obtain ⟨x, hx, hpath⟩ := hpath.1
        refine ⟨u, by simp, .head (hfree w hw) hx (hpath.avoid_less fun z => ?_)⟩
        exact Or.imp_left (List.mem_cons_of_mem _)
    · intro w
      rw [List.mem_cons, hmem w]
      simp only [List.mem_singleton, exists_eq_left, hsplit w]

end Explores

/-- The search from one block after the other, with no bound on its depth. -/
inductive Visits (g : FlowGraph) : List BlockId → Search → Search → Prop
  | done {s : Search} : Visits g [] s s
  | skip {s t : Search} {u : BlockId} {us : List BlockId} (hu : u ∈ s.entered) (h : Visits g us s t) :
      Visits g (u :: us) s t
  | enter {s t t' : Search} {u : BlockId} {us : List BlockId} (hu : u ∉ s.entered)
      (hin : Visits g (g.succs u) { s with entered := u :: s.entered } t)
      (h : Visits g us { t with left := u :: t.left } t') : Visits g (u :: us) s t'

namespace Visits

theorem cons {t' : Search} (h : g.Visits [u] s t) (h' : g.Visits us t t') : g.Visits (u :: us) s t' := by
  cases h with
  | skip hu h =>
    cases h
    exact .skip hu h'
  | enter hu hin h =>
    cases h
    exact .enter hu hin h'

theorem unique {t' : Search} (h : g.Visits us s t) (h' : g.Visits us s t') : t = t' := by
  induction h generalizing t' with
  | done =>
    cases h'
    rfl
  | skip hu _ ih =>
    cases h' with
    | skip _ h' => exact ih h'
    | enter hnot => exact absurd hu hnot
  | enter hu _ _ ihin ih =>
    cases h' with
    | skip hold => exact absurd hold hu
    | enter _ hin h' =>
      cases ihin hin
      exact ih h'

theorem explores (h : g.Visits us s t) : Explores g us s t := by
  induction h with
  | done => exact .nil g _
  | @skip s t u us hu _ ih =>
    have hnone : ∀ w, ¬ g.Fresh s u w := fun w hpath => hpath.start_free hu
    exact .cons ⟨fun w => by simp [hnone], [], by simp [hnone]⟩ ih
  | enter hu _ _ ihin ih => exact (Explores.enter hu ihin).cons ih

end Visits

/-- A visit is a search from its block if `n` is above the number of edges of the blocks that have not
been entered. The induction is on `n`; the inner one follows the successors, whose searches only enter
more. -/
theorem visit_visits (n : Nat) (s : Search) (u : BlockId)
    (hn : (ahead g.outgoing s.entered).length < n) : g.Visits [u] s (g.visit n s u) := by
  induction n generalizing s u with
  | zero => exact absurd hn (Nat.not_lt_zero _)
  | succ n ih =>
    by_cases hu : u ∈ s.entered
    · simpa only [visit, hu, if_true] using .skip hu .done
    · have hfold : ∀ (us : List BlockId) (s : Search),
          us.length + (ahead g.outgoing s.entered).length ≤ n →
          g.Visits us s (us.foldl (visit g n) s) := by
        intro us
        induction us with
        | nil => exact fun s _ => .done
        | cons x xs ihxs =>
          intro s hle
          rw [List.length_cons] at hle
          have hfirst := ih s x (by omega)
          have hmono := length_ahead_mono g.outgoing fun w hw => hfirst.explores.entered_mono hw
          exact hfirst.cons (ihxs _ (by omega))
      have hless := length_ahead_enter g.outgoing hu
      simp only [visit, hu, if_false]
      exact .enter hu (hfold _ _ (hless.trans (Nat.le_of_lt_succ hn))) .done

theorem search_visits (g : FlowGraph) : g.Visits [g.entry] ⟨[], []⟩ g.search :=
  visit_visits _ _ _ (by simp [ahead, bound])

theorem mem_reversePostorder : v ∈ g.reversePostorder ↔ Reach g.Leads g.entry v := by
  obtain ⟨new, hnew, _, hmem⟩ := g.search_visits.explores.left
  have h := hmem v
  rw [reversePostorder, hnew, List.append_nil]
  simpa [Reach, Fresh] using h

/-- Nothing dominates what stands before it in reverse postorder. -/
theorem reversePostorder_around (g : FlowGraph) :
    g.reversePostorder.Pairwise fun v w => ¬ Dom g.Leads g.entry w v := by
  obtain ⟨new, hnew, haround, _⟩ := g.search_visits.explores.left
  rw [reversePostorder, hnew, List.append_nil]
  refine haround.imp fun {v w} hpath hdom => ?_
  obtain ⟨u, hu, hpath⟩ := hpath.1
  obtain rfl : u = g.entry := by simpa using hu
  exact hdom (hpath.avoid_less fun z => Or.inr)

/-- An edge back to what stands before in reverse postorder closes a circle. -/
theorem reversePostorder_back (g : FlowGraph) :
    g.reversePostorder.Pairwise fun v u => g.Leads u v → Reach g.Leads v u := by
  obtain ⟨new, hnew, haround, _⟩ := g.search_visits.explores.left
  rw [reversePostorder, hnew, List.append_nil]
  exact haround.imp fun hpath => hpath.2

theorem nodup_reversePostorder (g : FlowGraph) : g.reversePostorder.Nodup := by
  refine List.Pairwise.imp (fun {v w} hdom => ?_) g.reversePostorder_around
  rintro rfl
  exact hdom (Dom.refl _ _ _)

/-- A dominator stands before what it dominates in reverse postorder. -/
theorem before_of_dom (hdom : Dom g.Leads g.entry u v) (hv : Reach g.Leads g.entry v) (hne : u ≠ v) :
    [u, v].Sublist g.reversePostorder := by
  let Before : BlockId → BlockId → Prop := fun a c =>
    [a, c].Sublist g.reversePostorder ∧ ¬ Dom g.Leads g.entry c a
  have hpairs : g.reversePostorder.Pairwise fun a c => Before a c ∨ Before c a :=
    List.pairwise_iff_forall_sublist.mpr fun hsub =>
      .inl ⟨hsub, List.pairwise_iff_forall_sublist.mp g.reversePostorder_around hsub⟩
  have hsymm : Std.Symm fun a c => Before a c ∨ Before c a := ⟨fun _ _ => Or.symm⟩
  have hmem := mem_reversePostorder.mpr (hdom.reach hv)
  rcases hpairs.forall hmem (mem_reversePostorder.mpr hv) hne with hbefore | hbehind
  · exact hbefore.1
  · exact absurd hdom hbehind.2

end SsaCompiler.Ir.FlowGraph
