import Midend.Proofs.Ranges.Constraining
import Midend.Proofs.Ranges.Preserving

/-! # The analysis leaves no trace

Constraints are made, ranges are inferred, and the constraints are taken out again. If this comes to its end, the
instructions are what they were, apart from bounds checks that are gone and operations that are known not to overflow.
-/

namespace Midend.Ranges

open FlowGraph Ssa

variable {α β : Type} {g₀ g g' : FlowGraph} {s s' : Progress} {cs gone : List InstId} {ρ : InstId → InstId}
    {b : BlockId}
  {c d e i : InstId} {n : Node} {u : Use}

/-- The graph `g₀` can be seen behind the constraints made so far. -/
def Veiled (g₀ : FlowGraph) (s : Progress) (g : FlowGraph) : Prop := ∃ gone ρ, Veil g₀ s.constraints gone ρ g

def VeiledWith (g₀ : FlowGraph) (cs : List InstId) (s : Progress) (g : FlowGraph) : Prop :=
  Veiled g₀ s g ∧ cs ⊆ s.constraints

/-! ## Making constraints -/

theorem analyzes_constrain (h : Veiled g₀ s g) (hd : Known g₀ s.constraints d) {range : Range} {p : Position}
    {dependency : Option InstId} :
    Threads True g s (constrain d range p dependency) fun _ s' g' => VeiledWith g₀ s.constraints s' g' := by
  obtain ⟨gone, ρ, h⟩ := h
  unfold constrain
  rw [Threads.bind_iff, Threads.getThe_iff, Threads.bind_iff, Threads.read_iff]
  refine Yields.of_ok fun value _ => ?_
  split
  · exact ⟨⟨gone, ρ, h⟩, List.Subset.refl _⟩
  have hnew : g.nextId ∈ s.constraints ++ [g.nextId] := by simp
  have hmake (rest : List InstId) (place : InstId → Edit Unit)
      (hplace : ∀ g₁, Veil g₀ (s.constraints ++ [g.nextId]) gone (Below.rootWith ρ g.nextId d) g₁ →
        Leads True g₁ (place g.nextId)
          fun _ g₂ => Veil g₀ (s.constraints ++ [g.nextId]) gone (Below.rootWith ρ g.nextId d) g₂) : Threads True g s
          (do
        let constraint ← Edit.addInst (.constraint range (d :: rest))
        renameBehind p d constraint
        place constraint
        discard <| Edit.allocSsaIndex constraint
        modify fun s => { s with constraints := s.constraints ++ [constraint] })
      fun _ s' g' => VeiledWith g₀ s.constraints s' g' := by
    have hroot : Below.rootWith ρ g.nextId d g.nextId = Below.rootWith ρ g.nextId d d := by
      unfold Below.rootWith
      rw [if_pos rfl]
      split <;> rfl
    have hveil : Veil g₀ (s.constraints ++ [g.nextId]) gone (Below.rootWith ρ g.nextId d)
        (g.withInst { inst := .constraint range (d :: rest) }) :=
      ⟨h.below.withConstraint hd, ⟨h.spread.sound, h.spread.kept,
        fun b c hc => (h.spread.placed b c hc).imp id (List.mem_append_left _)⟩, h.shell, h.checks⟩
    rw [Threads.bind_iff, Threads.lift_iff, Leads.addInst_iff, Threads.bind_iff, Threads.lift_iff]
    refine (hveil.renameBehind hnew (hd.mono (List.subset_append_left _ _)) hroot).mono fun _ g₁ h₁ => ?_
    rw [Threads.bind_iff, Threads.lift_iff]
    refine (hplace g₁ h₁).mono fun _ g₂ h₂ => ?_
    rw [Threads.bind_iff, Threads.discard_iff, Threads.lift_iff]
    refine h₂.allocSsaIndex.mono fun _ g₃ h₃ => ?_
    rw [Threads.modify_iff]
    exact ⟨⟨gone, _, h₃⟩, List.subset_append_left _ _⟩
  -- Whether the bound is an input has nothing to do with where the constraint goes.
  cases dependency with
  | some x =>
    rw [Threads.bind_iff, Threads.read_iff]
    refine Yields.of_ok fun value _ => ?_
    split
    all_goals
      cases p with
      | start b => exact hmake _ (Edit.prepend b) fun _ h₁ => h₁.prepend hnew
      | after i => exact hmake _ (Edit.insertAfter i) fun _ h₁ => h₁.insertAfter hnew
  | none =>
    cases p with
    | start b => exact hmake [] (Edit.prepend b) fun _ h₁ => h₁.prepend hnew
    | after i => exact hmake [] (Edit.insertAfter i) fun _ h₁ => h₁.insertAfter hnew

theorem VeiledWith.trans {cs : List InstId} (h : VeiledWith g₀ s.constraints s' g') (hcs : cs ⊆ s.constraints) :
    VeiledWith g₀ cs s' g' := ⟨h.1, List.Subset.trans hcs h.2⟩

theorem VeiledWith.known (h : VeiledWith g₀ cs s g) (hd : Known g₀ cs d) : Known g₀ s.constraints d := hd.mono h.2

/-- `g₀` can be seen behind the constraints `cs`, and these are all. -/
def VeiledBy (g₀ : FlowGraph) (cs : List InstId) (s : Progress) (g : FlowGraph) : Prop :=
  s.constraints = cs ∧ ∃ gone ρ, Veil g₀ cs gone ρ g

theorem Veiled.by (h : Veiled g₀ s g) : VeiledBy g₀ s.constraints s g := ⟨rfl, h⟩

theorem VeiledBy.veiledWith (h : VeiledBy g₀ cs s g) : VeiledWith g₀ cs s g := by
  obtain ⟨rfl, h⟩ := h
  exact ⟨h, List.Subset.refl _⟩

theorem upholds_lengthSymbol {cls : ClassId} : Upholds (VeiledBy g₀ cs) (lengthSymbol d cls) := by
  rintro s g ⟨hcs, gone, ρ, h⟩
  show Threads True g s _ fun _ s' g' => VeiledBy g₀ cs s' g'
  unfold lengthSymbol
  cases cls.lengthOffset? with
  | none => exact ⟨hcs, gone, ρ, h⟩
  | some offset =>
    have hnew (inst : Inst) : Veil g₀ cs gone ρ (g.withInst { inst }) :=
      ⟨h.below.withInst inst, h.spread, h.shell, h.checks⟩
    dsimp only
    rw [Threads.bind_iff, Threads.lift_iff, Leads.addInst_iff, Threads.bind_iff, Threads.discard_iff,
      Threads.lift_iff]
    refine (hnew _).allocSsaIndex.mono fun _ g₁ h₁ => ?_
    rw [Threads.bind_iff, Threads.lift_iff]
    exact h₁.setRange.mono fun _ g₂ h₂ => ⟨hcs, gone, ρ, h₂⟩

theorem tolerant_veil : Tolerant (VeiledBy g₀ cs) fun i => i.index < g₀.nodes.size ∨ i ∈ cs where
  visited := fun s g b ⟨_, gone, ρ, h⟩ i hi => h.spread.placed b i hi
  range := fun s i r g ⟨hcs, gone, ρ, h⟩ => h.setRange.mono fun _ _ h' => ⟨hcs, gone, ρ, h'⟩
  clear := by
    rintro s g i ⟨hcs, gone, ρ, h⟩
    rw [Leads.modifyNode_iff]
    exact ⟨fun _ => ⟨hcs, gone, ρ, h.below.clear, h.spread, h.shell, h.checks⟩, fun _ => trivial⟩
  remove := by
    rintro s g i ⟨hcs, gone, ρ, h⟩ hi hcheck
    obtain ⟨n, hn, hop⟩ := opcode_eq_ok.mp hcheck
    obtain hold | hc := hi
    · obtain ⟨m, hm, hsame, -⟩ := h.below.node_of_old (Array.getElem?_eq_getElem hold)
      obtain rfl := Option.some_inj.mp (hn.symm.trans hm)
      exact (h.removeCheck (Array.getElem?_eq_getElem hold) (hsame.symm.trans hop)).mono fun _ g' h' =>
        ⟨hcs, i :: gone, ρ, h'⟩
    · obtain ⟨m, r, a, rest, hm, hinst, -⟩ := h.below.constraint i hc
      obtain rfl := Option.some_inj.mp (hn.symm.trans hm)
      rw [hinst] at hop
      cases hop
  symbol _ _ := upholds_lengthSymbol
  lengths _ _ _ h := h

theorem analyzes_constrainAfterBranch (h : Veiled g₀ s g) (hd : Known g₀ s.constraints d) :
    Threads True g s (constrainAfterBranch d u) fun _ s' g' => VeiledWith g₀ s.constraints s' g' := by
  have hsame : VeiledWith g₀ s.constraints s g := ⟨h, List.Subset.refl _⟩
  unfold constrainAfterBranch
  rw [Threads.bind_iff, Threads.getThe_iff, Threads.bind_iff, Threads.read_iff]
  refine Yields.of_ok fun inst _ => ?_
  split
  case h_2 => exact hsame
  split
  · exact hsame
  dsimp only
  rw [Threads.bind_iff, Threads.read_iff]
  refine Yields.of_ok fun holds _ => ?_
  cases holds with
  | none => exact hsame
  | some holds =>
    dsimp only
    rw [Threads.bind_iff, Threads.read_iff]
    refine Yields.of_ok fun negated _ => ?_
    rw [Threads.bind_iff, Threads.read_iff]
    refine Yields.of_ok fun fails _ => ?_
    cases fails with
    | none => exact hsame
    | some fails =>
      dsimp only
      rw [Threads.bind_iff]
      refine (analyzes_constrain h hd).mono fun _ s₁ g₁ h₁ => ?_
      exact (analyzes_constrain h₁.1 (h₁.known hd)).mono fun _ s₂ g₂ h₂ => h₂.trans h₁.2

theorem analyzes_constrainAfterCheck (h : Veiled g₀ s g) (hd : Known g₀ s.constraints d) :
    Threads True g s (constrainAfterCheck d i) fun _ s' g' => VeiledWith g₀ s.constraints s' g' := by
  have hsame : VeiledWith g₀ s.constraints s g := ⟨h, List.Subset.refl _⟩
  unfold constrainAfterCheck
  rw [Threads.bind_iff, Threads.getThe_iff, Threads.bind_iff, Threads.read_iff]
  refine Yields.of_ok fun inst _ => ?_
  split
  case h_2 => exact hsame
  split
  · exact hsame
  rw [Threads.bind_iff]
  refine (tolerant_veil.arrayLength.threads h.by).mono fun length s₁ g₁ hveil => ?_
  have h₁ := hveil.veiledWith
  rw [Threads.bind_iff, Threads.read_iff]
  refine Yields.of_ok fun max _ => ?_
  exact (analyzes_constrain h₁.1 (h₁.known hd)).mono fun _ s₂ g₂ h₂ => h₂.trans h₁.2

theorem analyzes_constrainUses (h : Veiled g₀ s g) (hd : Known g₀ s.constraints d) :
    Threads True g s (constrainUses d) fun _ s' g' => VeiledWith g₀ s.constraints s' g' := by
  unfold constrainUses
  rw [Threads.bind_iff, Threads.getThe_iff, Threads.bind_iff, Threads.read_iff]
  refine Yields.of_ok fun uses _ => ?_
  refine Threads.forM_of_forall (VeiledWith g₀ s.constraints) ⟨h, List.Subset.refl _⟩ fun u _ s₁ g₁ h₁ => ?_
  have hd₁ := h₁.known hd
  rw [Threads.bind_iff, Threads.getThe_iff, Threads.bind_iff, Threads.read_iff]
  refine Yields.of_ok fun home _ => ?_
  split
  · exact h₁
  rw [Threads.bind_iff, Threads.read_iff]
  refine Yields.of_ok fun arg _ => ?_
  split
  · exact h₁
  rw [Threads.bind_iff, Threads.read_iff]
  refine Yields.of_ok fun opcode _ => ?_
  split
  · exact (analyzes_constrainAfterBranch h₁.1 hd₁).mono fun _ s₂ g₂ h₂ => h₂.trans h₁.2
  · split
    · exact (analyzes_constrainAfterCheck h₁.1 hd₁).mono fun _ s₂ g₂ h₂ => h₂.trans h₁.2
    · exact h₁
  · exact h₁

theorem analyzes_constrainFurther (steps k : Nat) (h : Veiled g₀ s g) :
    Threads True g s (constrainFurther steps k) fun _ s' g' => Veiled g₀ s' g' := by
  induction steps generalizing k s g with
  | zero => exact trivial
  | succ steps ih =>
    unfold constrainFurther
    rw [Threads.bind_iff, Threads.get_iff]
    split
    · exact h
    case h_2 c hc =>
      rw [Threads.bind_iff]
      refine (analyzes_constrainUses h (.inr (List.mem_of_getElem? hc))).mono fun _ s₁ g₁ h₁ => ?_
      exact ih (k + 1) h₁.1

theorem analyzes_insertConstraints (h : Veiled g₀ s g) {checks values : List InstId}
    (hchecks : ∀ i ∈ checks, ∃ n₀, g₀.nodes[i.index]? = some n₀ ∧ ∀ a ∈ n₀.inst.args, Tracked g₀ a)
    (hvalues : ∀ d ∈ values, Tracked g₀ d) :
    Threads True g s (insertConstraints checks values) fun _ s' g' => Veiled g₀ s' g' := by
  unfold insertConstraints
  rw [Threads.bind_iff]
  refine (Threads.forM_of_forall (Veiled g₀) h fun i hi s₁ g₁ h₁ => ?_).mono fun _ s₁ g₁ h₁ => ?_
  · obtain ⟨n₀, hn₀, hargs⟩ := hchecks i hi
    rw [Threads.bind_iff, Threads.getThe_iff, Threads.bind_iff, Threads.read_iff]
    refine Yields.of_ok fun a ha => ?_
    obtain ⟨gone, ρ, hveil⟩ := id h₁
    exact (analyzes_constrain h₁ (hveil.below.known_arg hn₀ hargs ha)).mono fun _ s₂ g₂ h₂ => h₂.1
  rw [Threads.bind_iff]
  refine (Threads.forM_of_forall (Veiled g₀) h₁ fun d hd s₂ g₂ h₂ => ?_).mono fun _ s₂ g₂ h₂ => ?_
  · exact (analyzes_constrainUses h₂ (.inl (hvalues d hd))).mono fun _ s₃ g₃ h₃ => h₃.1
  · rw [Threads.bind_iff, Threads.getThe_iff]
    exact analyzes_constrainFurther _ _ h₂

/-! ## Taking the constraints out -/

/-- Nothing uses the constraints `done` any more, and they have no place. -/
def Unveiled (done : List InstId) (g : FlowGraph) : Prop :=
  ∀ c ∈ done, g.layout.home? c = none ∧ ∀ n, g.nodes[c.index]? = some n → n.inputUses = []

theorem Unveiled.setRange {done : List InstId} (h : Veil g₀ cs gone ρ g) (hdone : Unveiled done g) {r : Option Range} :
    Leads True g (Edit.setRange d r) fun _ g' => Veil g₀ cs gone ρ g' ∧ Unveiled done g' := by
  refine h.setRange.and ?_
  unfold Edit.setRange
  rw [Leads.modifyNode_iff]
  refine ⟨fun _ c hc => ⟨(hdone c hc).1, fun n hn => ?_⟩, fun _ => trivial⟩
  rw [nodes_withNode] at hn
  obtain ⟨m, hm, rfl⟩ := Option.map_eq_some_iff.mp hn
  split
  all_goals exact (hdone c hc).2 m hm

theorem leads_settleRange {unwrapped : List (InstId × InstId)} {loads done : List InstId} (h : Veil g₀ cs gone ρ g)
    (hdone : Unveiled done g) :
    Leads True g (settleRange unwrapped loads d) fun _ g' => Veil g₀ cs gone ρ g' ∧ Unveiled done g' := by
  unfold settleRange
  rw [Leads.bind_iff, Leads.get_iff, Leads.bind_iff, Leads.lift_iff]
  refine Yields.of_ok fun range _ => ?_
  cases range with
  | none => exact ⟨h, hdone⟩
  | some r =>
    dsimp only
    rw [Leads.bind_iff, Leads.lift_iff]
    refine Yields.of_ok fun min _ => ?_
    rw [Leads.bind_iff, Leads.lift_iff]
    exact Yields.of_ok fun max _ => hdone.setRange h

theorem leads_removeConstraints (h : Veil g₀ cs gone ρ g) {loads : List InstId} :
    Leads True g (removeConstraints cs loads) fun _ g' => Veil g₀ cs gone ρ g' ∧ Unveiled cs g' := by
  have hread : (fun c => (do return (c, ← unwrap g c) : Edit (InstId × InstId))) =
      fun c => (liftM (do return (c, ← unwrap g c) : Except Fault (InstId × InstId)) : Edit _) := by
    funext c
    simp
  unfold removeConstraints
  rw [Leads.bind_iff, Leads.get_iff, Leads.bind_iff, hread, Leads.mapM_lift_iff]
  refine Yields.of_ok fun unwrapped hunwrapped => ?_
  have hpairs : ∀ x ∈ unwrapped, x.1 ∈ cs ∧ Known g₀ cs x.2 ∧ ρ x.2 = ρ x.1 := by
    intro x hx
    obtain ⟨c, hc, hpair⟩ := forall₂_mem_right (mapM_eq_ok.mp hunwrapped) hx
    obtain ⟨e, he, hx⟩ := bind_eq_ok.mp hpair
    obtain rfl := Except.ok.inj hx
    exact ⟨hc, h.below.unwrap (.inr hc) he⟩
  rw [Leads.bind_iff]
  refine (Leads.forM_of_forall (Veil g₀ cs gone ρ) h fun x hx g₁ h₁ => ?_).mono fun _ g₁ h₁ => ?_
  · obtain ⟨hc, hknown, hroot⟩ := hpairs x hx
    exact h₁.replaceUses hc hknown hroot
  rw [Leads.bind_iff]
  refine (Leads.forM (fun done g₂ => Veil g₀ cs gone ρ g₂ ∧ Unveiled done g₂) ⟨h₁, fun c hc => nomatch hc⟩
    fun done c rest g₂ hcs h₂ => ?_).mono fun _ g₂ h₂ => ?_
  · obtain ⟨h₂, hdone⟩ := h₂
    refine (h₂.removeConstraint (hcs ▸ by simp)).mono fun _ g₃ h₃ => ?_
    obtain ⟨h₃, ⟨n, hn, hunused⟩, ⟨b, hb, hlayout⟩, hchanges⟩ := h₃
    refine ⟨h₃, fun x hx => ?_⟩
    have hlist (m' : Node) (hm' : g₃.nodes[x.index]? = some m') : m'.inputUses = [] := by
      obtain ⟨m, hm, hsub⟩ := hchanges.node x m' hm'
      suffices hnil : m.inputUses = [] from List.subset_nil.mp (hnil ▸ hsub)
      obtain hx | hx := List.mem_append.mp hx
      · exact (hdone x hx).2 m hm
      · rw [List.mem_singleton.mp hx] at hm
        obtain rfl := Option.some_inj.mp (hn.symm.trans hm)
        exact hunused
    refine ⟨?_, hlist⟩
    rw [hlayout, Layout.home?_unplace]
    split
    · rfl
    case isFalse hne =>
      have hx' : x ∈ done := (List.mem_append.mp hx).resolve_right fun hx => hne (List.mem_singleton.mp hx)
      exact (hdone x hx').1
  rw [Leads.bind_iff, Leads.get_iff, Leads.bind_iff, Leads.lift_iff]
  refine Yields.of_ok fun definitions _ => ?_
  exact Leads.forM_of_forall (fun g₃ => Veil g₀ cs gone ρ g₃ ∧ Unveiled cs g₃) h₂ fun d _ g₃ h₃ =>
    leads_settleRange h₃.1 h₃.2

/-! ## Clean graphs -/

def ConstraintFree (g : FlowGraph) : Prop :=
  ∀ b, ∀ i ∈ g.insts b, ∀ n, g.nodes[i.index]? = some n → n.inst.opcode ≠ .constraint

instance : Decidable (ConstraintFree g) :=
  decidable_of_iff (∀ b < g.layout.lists.slots.size, ∀ i ∈ g.insts ⟨b⟩, ∀ n ∈ g.nodes[i.index]?,
      n.inst.opcode ≠ .constraint) <| by
    refine ⟨fun h b i hi => ?_, fun h b _ i hi n hn => h ⟨b⟩ i hi n hn⟩
    obtain hlt | hge := Nat.lt_or_ge b.index g.layout.lists.slots.size
    · exact h b.index hlt i hi
    · simp [FlowGraph.insts, Layout.insts, SideTable.get?, Array.getElem?_eq_none hge] at hi

/-- A graph in SSA form without constraints that the check finds nothing wrong with. -/
@[mk_iff]
structure Unconstrained (g : FlowGraph) : Prop where
  located : g.Located
  upToDate : g.UpToDate
  phisApart : g.PhisApart
  consistent : g.Consistent
  entry : g.insts graphEntry = []
  initial : ∀ d ∈ g.initialDefinitions, ∃ n ∈ g.nodes[d.index]?, n.inst.isGiven = true
  free : ConstraintFree g

instance : Decidable (Unconstrained g) := decidable_of_iff _ (unconstrained_iff g).symm

theorem tracked_of_useHolds (hn : g.nodes[d.index]? = some n) (hop : n.inst.opcode ≠ .constraint)
    (huses : ∀ u ∈ n.inputUses, g.UseHolds d u) : Tracked g d := by
  refine ⟨n, hn, hop, fun u hu => ?_⟩
  obtain ⟨m, hm, ⟨hphi, hdead⟩ | ⟨-, harg⟩⟩ := huses u hu
  · exact .inl ⟨m, hm, hphi, hdead⟩
  · exact .inr (by rw [inputOf, hm, Option.bind_some, harg])

namespace Unconstrained

variable (hg : Unconstrained g)

include hg

theorem tracked_phi (hb : b ∈ g.reversePostorder) (hd : d ∈ g.live b) : Tracked g d := by
  obtain ⟨ps, hps, hmem⟩ := mem_live_iff.mp hd
  obtain ⟨ps', hps', hall⟩ := ((consistent_iff.mp hg.consistent).blocks b hb).phis
  obtain rfl := Except.ok.inj (hps.symm.trans hps')
  obtain ⟨-, n, hn, hoperands⟩ := hall d hmem
  refine tracked_of_useHolds hn ?_ hoperands.uses
  obtain ⟨all, -, -, rfl⟩ := livePhis_eq_ok.mp hps
  obtain ⟨m, hm, halive⟩ := isAlivePhi_eq_ok.mp
    (toOption_eq_some_iff.mp (of_decide_eq_true (List.mem_filter.mp hmem).2))
  obtain rfl := Option.some_inj.mp (hn.symm.trans hm)
  rw [Inst.opcode_of_isPhi (Inst.isPhi_of_isAlivePhi halive)]
  exact fun h => nomatch h

theorem tracked_inst (hb : b ∈ g.reversePostorder) (hi : i ∈ g.insts b) : Tracked g i := by
  have hne : b ≠ graphEntry := by
    rintro rfl
    rw [hg.entry] at hi
    cases hi
  obtain ⟨last, -, hall⟩ := ((consistent_iff.mp hg.consistent).blocks b hb).insts hne
  obtain ⟨n, hn, hinst⟩ := hall i hi
  exact tracked_of_useHolds hn (hg.free b i hi n hn) hinst.operands.uses

theorem tracked_initial (hd : d ∈ g.initialDefinitions) : Tracked g d := by
  obtain ⟨n, hn, huses⟩ := (consistent_iff.mp hg.consistent).initial d hd
  obtain ⟨m, hm, hgiven⟩ := hg.initial d hd
  obtain rfl := Option.some_inj.mp (hn.symm.trans hm)
  refine tracked_of_useHolds hn (fun hop => ?_) huses
  obtain ⟨k, heq⟩ | ⟨k, heq⟩ := Inst.eq_of_isGiven hgiven
  all_goals
    rw [heq] at hop
    cases hop

theorem tracked_arg (hb : b ∈ g.reversePostorder) (hi : i ∈ g.insts b) :
    ∃ n, g.nodes[i.index]? = some n ∧ ∀ a ∈ n.inst.args, Tracked g a := by
  obtain ⟨path, hpath, rfl⟩ := exists_path_of_reachable (hg.upToDate.reachable_of_mem_order hb)
  have hne : path.headD graphEntry ≠ graphEntry := by
    intro heq
    rw [heq, hg.entry] at hi
    cases hi
  obtain ⟨front, back, hsplit⟩ := List.append_of_mem hi
  obtain ⟨n, hn, hargs⟩ := inputs_defined hg.located hg.upToDate hg.phisApart (consistent_iff.mp hg.consistent) hpath
    hne hsplit
  refine ⟨n, hn, fun a ha => ?_⟩
  obtain ha | hmem := hargs a ha
  · exact hg.tracked_initial ha
  obtain harrived | hfront := List.mem_append.mp hmem
  · obtain ⟨x, hx, hmem⟩ := exists_of_mem_arrived harrived
    have hreach : g.Reachable x := by
      obtain hx | hx := List.mem_append.mp hx
      · exact hpath.reachable_of_mem hx
      · rw [List.mem_singleton.mp hx]
        exact .refl
    have hx' := hg.upToDate.exact.1 x hreach
    obtain hmem | hmem := hmem
    · exact hg.tracked_inst hx' hmem
    · exact hg.tracked_phi hx' hmem
  · have hmem : a ∈ g.insts (path.headD graphEntry) := by rw [hsplit]; exact List.mem_append_left _ hfront
    exact hg.tracked_inst hb hmem

end Unconstrained

/-! ## The whole analysis -/

theorem veil_computeLoops (h : Veil g₀ cs gone ρ g) :
    Leads True g Flow.computeLoops fun _ g' => Veil g₀ cs gone ρ g' := by
  unfold Flow.computeLoops
  rw [Leads.bind_iff, Leads.get_iff, Leads.bind_iff, Leads.lift_iff]
  refine Yields.of_ok fun preds _ => Leads.filterM_of_forall (Veil g₀ cs gone ρ) h fun b _ g₁ h₁ => ?_
  rw [Leads.bind_iff, Leads.lift_iff]
  refine Yields.of_ok fun loop _ => ?_
  rw [Leads.bind_iff, Leads.modifyBlock_iff]
  refine ⟨fun _ => ?_, fun _ => trivial⟩
  refine ⟨h₁.below.books ⟨rfl, fun j n hn => ⟨n, hn, rfl, rfl, rfl, rfl⟩⟩, h₁.spread, ?_, h₁.checks⟩
  have hblocks : ((g₁.withBlock b fun k => { k with loop }).blocks.map fun k => { k with loop := none }) =
      g₁.blocks.map fun k => { k with loop := none } := by
    refine Array.ext_getElem? fun k => ?_
    have hk := blocks_withBlock (g := g₁) b ⟨k⟩ fun k => { k with loop }
    rw [Array.getElem?_map, Array.getElem?_map, hk, Option.map_map]
    congr 1
    funext k
    simp only [Function.comp_apply]
    split <;> rfl
  rw [← h₁.shell]
  unfold shell
  rw [hblocks]
  rfl

/-- The graph is what it was, up to the bounds checks `gone`, operations that are known not to overflow, and what is
kept of loops. -/
structure Undone (g g' : FlowGraph) (gone : List InstId) : Prop where
  shell : shell g' = shell g
  checks : ∀ i ∈ gone, ∃ n, g.nodes[i.index]? = some n ∧ n.inst.opcode = .checkArrayBound
  insts : ∀ b, g'.insts b = (g.insts b).filter (· ∉ gone)
  nodes : ∀ (i : InstId) n, g.nodes[i.index]? = some n → i ∉ gone → ∃ n', g'.nodes[i.index]? = some n' ∧
    n'.env = n.env ∧ (n'.inst = n.inst ∨ n'.inst = clearOverflow n.inst)

theorem Veil.undone (h : Veil g₀ cs gone ρ g) (hcs : Unveiled cs g) : Undone g₀ g gone where
  shell := h.shell
  checks := h.checks
  insts b := by
    have hold : (g.insts b).filter (·.index < g₀.nodes.size) = g.insts b := by
      refine List.filter_eq_self.mpr fun i hi => decide_eq_true ((h.spread.placed b i hi).resolve_right fun hc => ?_)
      have hplace := h.spread.sound.mem_iff.mp hi
      rw [(hcs i hc).1] at hplace
      cases hplace
    rw [← hold]
    exact h.spread.kept b
  nodes i n₀ hn₀ hgone := by
    obtain ⟨n, f, hn, henv, hinst, hstands⟩ := h.below.old i n₀ hn₀
    have hargs (k : Nat) (a₀ : InstId) (ha₀ : n₀.inst.args[k]? = some a₀) : f k a₀ = a₀ := by
      obtain heq | ⟨hmem, -, hgone' | ⟨m, hm, hlisted⟩⟩ := hstands k a₀ ha₀
      · exact heq
      · exact absurd hgone' hgone
      · rw [(hcs _ hmem).2 m hm] at hlisted
        cases hlisted
    refine ⟨n, hn, henv, hinst.imp (fun hinst => ?_) fun hinst => ?_⟩
    · rw [hinst, Inst.mapArgs_congr hargs, Inst.mapArgs_id]
    · rw [hinst, Inst.mapArgs_congr (by simpa using hargs), Inst.mapArgs_id]

namespace Veil

theorem reversePostorder (h : Veil g₀ cs gone ρ g) : g.reversePostorder = g₀.reversePostorder := by
  have hpostorder : (Ranges.shell g).postorder = (Ranges.shell g₀).postorder := by rw [h.shell]
  exact congrArg List.reverse hpostorder

theorem phis (h : Veil g₀ cs gone ρ g) {ps : List InstId} (hps : g.phis b = .ok ps) : g₀.phis b = .ok ps := by
  obtain ⟨k, hk, rfl⟩ := phis_eq_ok.mp hps
  have hblock := congrArg (fun x : FlowGraph => x.blocks[b.index]?) h.shell
  simp only [Ranges.shell, Array.getElem?_map, hk, Option.map_some] at hblock
  obtain ⟨k₀, hk₀, hsame⟩ := Option.map_eq_some_iff.mp hblock.symm
  rw [Block.mk.injEq] at hsame
  exact phis_eq_ok.mpr ⟨k₀, hk₀, hsame.2.2.1⟩

theorem insts_subset (h : Veil g₀ [] gone ρ g) : g.insts b ⊆ g₀.insts b := by
  intro i hi
  have hold := (h.spread.placed b i hi).resolve_right List.not_mem_nil
  have hmem : i ∈ (g.insts b).filter (·.index < g₀.nodes.size) := List.mem_filter.mpr ⟨hi, decide_eq_true hold⟩
  rw [FlowGraph.insts, h.spread.kept] at hmem
  exact List.mem_of_mem_filter hmem

theorem livePhis_subset (h : Veil g₀ cs gone ρ g) {ps ps₀ : List InstId} (hps : g.livePhis b = .ok ps)
    (hps₀ : g₀.livePhis b = .ok ps₀) : ps ⊆ ps₀ := by
  obtain ⟨all, hall, -, rfl⟩ := livePhis_eq_ok.mp hps
  obtain ⟨all₀, hall₀, hread₀, rfl⟩ := livePhis_eq_ok.mp hps₀
  obtain rfl := Except.ok.inj (hall₀.symm.trans (h.phis hall))
  intro phi hphi
  obtain ⟨hmem, halive⟩ := List.mem_filter.mp hphi
  obtain ⟨n, hn, halive⟩ := isAlivePhi_eq_ok.mp (toOption_eq_some_iff.mp (of_decide_eq_true halive))
  obtain ⟨a, ha⟩ := hread₀ phi hmem
  obtain ⟨n₀, hn₀, rfl⟩ := isAlivePhi_eq_ok.mp ha
  obtain ⟨m, hm, -, hsame⟩ := h.below.node_of_old hn₀
  obtain rfl := Option.some_inj.mp (hn.symm.trans hm)
  refine List.mem_filter.mpr ⟨hmem, decide_eq_true (toOption_eq_some_iff.mpr ?_)⟩
  rw [ha, ← hsame, halive]

end Veil

theorem analyzes_placeConstraints (hg : Unconstrained g₀) (h : Veil g₀ [] [] id g) :
    Threads True g {} placeConstraints fun _ s g' => Veiled g₀ s g' := by
  unfold placeConstraints clearRanges
  rw [Threads.bind_iff, Threads.lift_iff, Leads.bind_iff, Leads.get_iff, Leads.bind_iff, Leads.lift_iff]
  refine Yields.of_ok fun definitions _ => ?_
  refine (Leads.forM_of_forall (Veil g₀ [] [] id) h fun d _ g₁ h₁ => h₁.setRange).mono fun _ g₁ h₁ => ?_
  rw [Threads.bind_iff, Threads.getThe_iff, Threads.bind_iff, Threads.mapM_read_iff]
  refine Yields.of_ok fun checks hchecks => ?_
  rw [Threads.bind_iff, Threads.mapM_read_iff]
  refine Yields.of_ok fun values hvalues => ?_
  rw [h₁.reversePostorder] at hchecks hvalues
  rw [Threads.bind_iff]
  refine (analyzes_insertConstraints ⟨[], id, h₁⟩ (fun i hi => ?_) fun d hd => ?_).mono fun _ s₂ g₂ h₂ => h₂
  · obtain ⟨is, his, hi⟩ := List.mem_flatten.mp hi
    obtain ⟨b, hb, hrun⟩ := forall₂_mem_right (mapM_eq_ok.mp hchecks) his
    obtain ⟨-, rfl⟩ := filterM_eq_ok.mp hrun
    exact hg.tracked_arg hb (h₁.insts_subset (List.mem_of_mem_filter hi))
  · obtain ⟨ds, hds, hd⟩ := List.mem_flatten.mp hd
    obtain ⟨b, hb, hrun⟩ := forall₂_mem_right (mapM_eq_ok.mp hvalues) hds
    unfold valuesIn at hrun
    simp only [bind_eq_ok, pure_eq_ok] at hrun
    obtain ⟨insts, hinsts, live, hlive, phis, hphis, rfl⟩ := hrun
    obtain ⟨-, rfl⟩ := filterM_eq_ok.mp hinsts
    obtain ⟨-, rfl⟩ := filterM_eq_ok.mp hphis
    obtain hd | hd := List.mem_append.mp hd
    · exact hg.tracked_inst hb (h₁.insts_subset (List.mem_of_mem_filter hd))
    · obtain ⟨ps₀, hps₀, -⟩ := ((consistent_iff.mp hg.consistent).blocks b hb).phis
      exact hg.tracked_phi hb (mem_live_iff.mpr ⟨ps₀, hps₀, h₁.livePhis_subset hlive hps₀ (List.mem_of_mem_filter hd)⟩)

theorem analyzes_analyze {ctx : Context} (hg : Unconstrained g₀) (h : Veil g₀ [] [] id g) :
    Threads True g {} (analyze ctx) fun _ _ g' => ∃ gone, Undone g₀ g' gone := by
  unfold analyze
  rw [Threads.bind_iff]
  refine (analyzes_placeConstraints hg h).mono fun _ s₂ g₂ h₂ => ?_
  rw [Threads.bind_iff, Threads.get_iff, Threads.bind_iff, Threads.getThe_iff, Threads.bind_iff]
  refine ((tolerant_veil.inferTree _ _).threads h₂.by).mono fun _ s₃ g₃ ⟨hcs, gone, ρ, h₃⟩ => ?_
  rw [← hcs] at h₃
  rw [Threads.bind_iff, Threads.get_iff, Threads.bind_iff, Threads.get_iff, Threads.lift_iff]
  exact (leads_removeConstraints h₃).mono fun _ g₄ h₄ => ⟨gone, h₄.1.undone h₄.2⟩

theorem undone_analyzeRanges {ctx : Context} {changed : Bool} (hg : Unconstrained g)
    (hrun : (analyzeRanges ctx).run g = .ok (changed, g')) : ∃ gone, Undone g g' gone := by
  have hbounded (b : BlockId) (i : InstId) (hi : i ∈ g.insts b) : i.index < g.nodes.size :=
    hg.located.bounded i b (hg.located.mem_insts_iff.mp hi)
  have hlead : Leads True g (analyzeRanges ctx) fun _ g' => ∃ gone, Undone g g' gone := by
    unfold analyzeRanges
    rw [Leads.bind_iff, Leads.discard_iff]
    refine (veil_computeLoops (.start hg.located.sound hbounded)).mono fun _ g₁ h₁ => ?_
    rw [Leads.bind_iff]
    exact analyzes_analyze hg h₁
  exact hlead.post_of_ok hrun

end Midend.Ranges
