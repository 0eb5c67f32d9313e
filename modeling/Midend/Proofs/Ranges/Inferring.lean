import Midend.Proofs.Ranges.Deepening

/-! # Inference comes to its end

The ranges of definitions are found from those of the definitions they look up, which are all there. A bounds check that
goes away was not needed by anything, and the walk over the tree of dominators visits every block once.
-/

namespace Midend.Ranges

open FlowGraph

variable {g₀ g g' : FlowGraph} {pos : InstId → Position} {gone smis : List InstId} {s s' : Progress}
  {b : BlockId} {d i : InstId} {n : Node} {ctx : Context}

/-- No constraints were made, and of all instructions `i` alone may be gone. -/
def Inferred (g₀ : FlowGraph) (pos : InstId → Position) (gone : List InstId) (i : InstId) (s s' : Progress)
    (g' : FlowGraph) : Prop :=
  s'.constraints = s.constraints ∧ ∃ gone', Working g₀ pos gone' s' g' ∧ ∀ x ∈ gone', x ∈ gone ∨ x = i

section

variable (hu : Unconstrained g₀) (ht : Tractable g₀)

include hu ht

theorem Steady.leads_setRange {cs placed loads : List InstId} (h : Steady g₀ pos cs placed loads gone g)
    (hd : Symbolic g₀ cs loads d) {r : Range} (hr : RangeIn (Symbolic g₀ cs loads) r) :
    Leads False g (Edit.setRange d (some r)) fun _ g' => Steady g₀ pos cs placed loads gone g' := by
  obtain ⟨v, hv⟩ := (h.selfContained ht hu).listed d hd
  obtain ⟨n, hn, -⟩ := inst_eq_ok.mp hv
  unfold Edit.setRange
  rw [Leads.modifyNode_iff]
  refine ⟨fun _ => h.ranged d fun r' heq => Option.some_inj.mp heq ▸ hr, fun hge => ?_⟩
  exact absurd (Array.getElem?_eq_some_iff.mp hn).1 (Nat.not_lt.mpr hge)

theorem threads_inferDefinition (h : Working g₀ pos gone s g) (hd : Operand g₀ s.constraints d) :
    Threads False g s (inferDefinition d) fun _ s' g' =>
      s'.constraints = s.constraints ∧ Working g₀ pos gone s' g' := by
  have hcontained := h.steady.selfContained ht hu
  unfold inferDefinition
  rw [Threads.bind_iff, Threads.getThe_iff, Threads.bind_iff, Threads.read_iff]
  refine (hcontained.inst (.inl hd)).mono fun v _ hv => ?_
  have hconstraint (r : Range) (inputs : List InstId) (heq : v = .constraint r inputs) :
      RangeIn (Symbolic g₀ s.constraints s.lengthLoads) r := by
    subst heq
    obtain ⟨n, hn, hinst⟩ := inst_eq_ok.mp hv
    obtain hoffer | hc := hd
    · obtain ⟨m, -, hm, -, -, -, hop, -⟩ := h.steady.node_of_offer hu hoffer
      obtain rfl := Option.some_inj.mp (hn.symm.trans hm)
      exact absurd (by simp [hinst, Inst.opcode]) hop
    · obtain ⟨m, r', a, rest, hm, hinst', hr, -⟩ := h.steady.made d hc
      obtain rfl := Option.some_inj.mp (hn.symm.trans hm)
      obtain ⟨rfl, -⟩ := Inst.constraint.inj (hinst.symm.trans hinst')
      exact hr
  rw [Threads.bind_iff, Threads.read_iff]
  refine (hcontained.definitionRange (.inl hd) hv hconstraint).mono fun ⟨range, clears⟩ _ hrange => ?_
  dsimp only at hrange ⊢
  split
  · obtain ⟨n, hn, -⟩ := inst_eq_ok.mp hv
    rw [Threads.bind_iff, Threads.lift_iff, Leads.modifyNode_iff]
    refine ⟨fun _ => ?_, fun hge => absurd (Array.getElem?_eq_some_iff.mp hn).1 (Nat.not_lt.mpr hge)⟩
    unfold noteChange
    rw [Threads.bind_iff, Threads.modify_iff, Threads.lift_iff]
    exact ((h.steady.cleared d).leads_setRange hu ht (.inl hd) hrange).mono fun _ _ h' => ⟨rfl, h', h.lengths⟩
  · rw [Threads.lift_iff]
    exact (h.steady.leads_setRange hu ht (.inl hd) hrange).mono fun _ _ h' => ⟨rfl, h', h.lengths⟩

theorem threads_inferPhi {isHeader : Bool} (h : Working g₀ pos gone s g) (hd : Operand g₀ s.constraints d)
    (hb : g₀.Reachable b) :
    Leads False g (inferPhi b isHeader d) fun _ g' => Working g₀ pos gone s g' := by
  have hcontained := h.steady.selfContained ht hu
  obtain ⟨k₀, hk₀⟩ := ht.exists_block hb
  obtain ⟨k, hk, -⟩ := block_of_shell h.steady.shell hk₀
  have hset {r : Range} (hr : RangeIn (Symbolic g₀ s.constraints s.lengthLoads) r) :
      Leads False g (Edit.setRange d (some r)) fun _ g' => Working g₀ pos gone s g' :=
    (h.steady.leads_setRange hu ht (.inl hd) hr).mono fun _ _ h' => ⟨h', h.lengths⟩
  have hphi : Leads False g (do Edit.setRange d (some (← phiRange g d)) : Edit Unit) fun _ g' =>
      Working g₀ pos gone s g' := by
    rw [Leads.bind_iff, Leads.lift_iff]
    exact (hcontained.phiRange (.inl hd)).mono fun r _ hr => hset hr
  unfold inferPhi
  rw [Leads.bind_iff, Leads.get_iff]
  cases isHeader with
  | false => exact hphi
  | true =>
    dsimp only
    rw [if_pos rfl, Leads.bind_iff, Leads.lift_iff]
    refine (hcontained.inductionRange (h.steady.charted ht hu) ⟨k, block_eq_ok.mpr hk⟩ (.inl hd)).mono
      fun induction _ hinduction => ?_
    cases induction with
    | some range => exact hset (hinduction range rfl)
    | none => exact hphi

theorem leads_inferInitial (h : Working g₀ pos gone s g) (hd : d ∈ g₀.initialDefinitions) :
    Leads False g (inferInitial d) fun _ g' => Working g₀ pos gone s g' := by
  have hsymbol : Symbolic g₀ s.constraints s.lengthLoads d := .inl (.inl (.inl hd))
  unfold inferInitial
  rw [Leads.bind_iff, Leads.get_iff, Leads.bind_iff, Leads.lift_iff]
  refine ((h.steady.selfContained ht hu).smiConstantOf hsymbol).mono fun value _ _ => ?_
  split
  · exact (h.steady.leads_setRange hu ht hsymbol rangeIn_between).mono fun _ _ h' => ⟨h', h.lengths⟩
  · exact h

/-- Nothing reads a bounds check, so it can be taken out. -/
theorem threads_removeIfRedundant (h : Working g₀ pos gone s g) (hb : g₀.Reachable b) (hi : i ∈ g₀.insts b)
    (hgone : i ∉ gone) {n₀ : Node} (hn₀ : g₀.nodes[i.index]? = some n₀) (hcheck : n₀.inst.opcode = .checkArrayBound) :
    Threads False g s (removeIfRedundant i) fun _ s' g' => Inferred g₀ pos gone i s s' g' := by
  have hr : Reader g₀ s.constraints gone i := .inl ⟨ht.discovered hb hi, hgone⟩
  unfold removeIfRedundant
  rw [Threads.bind_iff]
  refine (threads_arrayLength hu ht (d := i) h hr).mono fun length s₁ g₁ ⟨h₁, hadvanced, hlength⟩ => ?_
  have hcs : s₁.constraints = s.constraints := hadvanced.constraints.trans (List.append_nil _)
  have hr₁ : Reader g₀ s₁.constraints gone i := hcs ▸ hr
  obtain ⟨n, hn, hshape, hblock, henv⟩ := h₁.steady.kept i n₀ hn₀
  have hargs := h₁.steady.operands i n (.inl (ht.discovered hb hi)) hn
  rw [Threads.bind_iff, Threads.getThe_iff, Threads.bind_iff, Threads.read_iff]
  refine ((h₁.steady.selfContained ht hu).isRedundant (inst_eq_ok.mpr ⟨n, hn, rfl⟩) (fun a ha => .inl (hargs a ha))
    hlength.1).mono fun redundant _ _ => ?_
  split
  case isFalse => exact ⟨hcs, gone, h₁, fun _ => .inl⟩
  case isTrue =>
    have hnew : i ∉ s₁.constraints := fun hc =>
      Nat.not_lt.mpr (h₁.steady.fresh i (.inl hc)) (Array.getElem?_eq_some_iff.mp hn₀).1
    have hunused : n.inputUses = [] := by
      obtain ⟨-, hmem⟩ := h₁.steady.lists i n.inputUses (by unfold inputUses?; rw [hn]; rfl)
      refine List.eq_nil_iff_forall_not_mem.mpr fun u hu' => ?_
      obtain ⟨hreader, hinput⟩ := (hmem u).mp hu'
      obtain ⟨-, m, -, hm, -⟩ := h₁.steady.node_of_reader ht hreader
      obtain ⟨k, hk, hinst⟩ := Option.bind_eq_some_iff.mp hinput
      obtain hoffer | hc := h₁.steady.operands u.user k (hreader.imp And.left .inl) hk i (List.mem_of_getElem? hinst)
      · obtain ⟨m₀, hm₀, hop, -⟩ := hoffer.exists_node hu
        obtain rfl := Option.some_inj.mp (hn₀.symm.trans hm₀)
        exact hop (by simp [hcheck])
      · exact hnew hc
    have henvUses : n.envUses = [] :=
      henv (ht.checks b ((mem_order_iff ht.current).mpr hb) i hi n₀ hn₀ hcheck)
    have hplaced : g₁.layout.home? i = some b :=
      h₁.steady.spread.sound.mem_iff.mp (h₁.steady.mem_of_old hi hgone)
    rw [Threads.bind_iff, Threads.lift_iff]
    refine (Leads.remove hn fun _ => ⟨hunused, henvUses, Layout.isPlaced_iff.mpr ⟨b, hplaced⟩⟩).mono ?_
    rintro _ _ ⟨-, -, b', hb', rfl⟩
    unfold noteChange
    rw [Threads.modify_iff]
    refine ⟨hcs, i :: gone, ⟨?_, h₁.lengths⟩, fun x hx => (List.mem_cons.mp hx).symm⟩
    refine h₁.steady.removed ht hr₁ (fun x => (and_iff_left_of_imp ?_).symm) (fun x => ?_)
      (fun _ => ⟨n₀, hn₀, hcheck⟩) hn hb'
    · rintro hx rfl
      exact hnew hx
    · rw [List.mem_cons, or_comm]
      exact or_congr_right (and_iff_left (Array.getElem?_eq_some_iff.mp hn₀).1).symm

theorem threads_inferInst (h : Working g₀ pos gone s g) (hsmis : ∀ d ∈ smis, Operand g₀ s.constraints d)
    (hb : g₀.Reachable b) (hi : i ∈ g₀.insts b ∧ i ∉ gone ∨ i ∈ s.constraints) :
    Threads False g s (inferInst ctx smis i) fun _ s' g' => Inferred g₀ pos gone i s s' g' := by
  have hsame : Inferred g₀ pos gone i s s g := ⟨rfl, gone, h, fun _ => .inl⟩
  unfold inferInst
  split
  case isTrue hmem =>
    exact (threads_inferDefinition hu ht h (hsmis i hmem)).mono fun _ _ _ h' => ⟨h'.1, gone, h'.2, fun _ => .inl⟩
  split
  case isFalse => exact hsame
  have hr : Reader g₀ s.constraints gone i := hi.imp_left fun hi => ⟨ht.discovered hb hi.1, hi.2⟩
  obtain ⟨-, n, -, hn, -⟩ := h.steady.node_of_reader ht hr
  rw [Threads.bind_iff, Threads.getThe_iff, Threads.bind_iff, Threads.read_iff, opcode_eq_ok.mpr ⟨n, hn, rfl⟩,
    Yields.ok_iff]
  split
  case isFalse => exact hsame
  case isTrue hcheck =>
    obtain ⟨hi, hgone⟩ | hc := hi
    · obtain ⟨n₀, hn₀, -⟩ := ht.node_of_mem hi
      obtain ⟨m, hm, hshape, -⟩ := h.steady.kept i n₀ hn₀
      obtain rfl := Option.some_inj.mp (hn.symm.trans hm)
      exact threads_removeIfRedundant hu ht h hb hi hgone hn₀ ((opcode_of_shape hshape).symm.trans hcheck)
    · obtain ⟨m, r, a, rest, hm, hinst, -⟩ := h.steady.made i hc
      obtain rfl := Option.some_inj.mp (hn.symm.trans hm)
      rw [hinst] at hcheck
      cases hcheck

/-! ## Blocks -/

/-- All constraints are still the same, and some instructions may be gone. -/
def Underway (g₀ : FlowGraph) (pos : InstId → Position) (cs : List InstId) (s : Progress) (g : FlowGraph) : Prop :=
  s.constraints = cs ∧ ∃ gone, Working g₀ pos gone s g

theorem threads_inferInsts (h : Working g₀ pos gone s g) (hsmis : ∀ d ∈ smis, Operand g₀ s.constraints d)
    (hb : g₀.Reachable b) {is : List InstId} (hnodup : is.Nodup)
    (his : ∀ i ∈ is, i ∈ g₀.insts b ∧ i ∉ gone ∨ i ∈ s.constraints) :
    Threads False g s (is.forM (inferInst ctx smis)) fun _ s' g' => Underway g₀ pos s.constraints s' g' := by
  refine (Threads.forM (fun done s₁ g₁ => s₁.constraints = s.constraints ∧ ∃ gone₁, Working g₀ pos gone₁ s₁ g₁ ∧
    ∀ x ∈ gone₁, x ∈ gone ∨ x ∈ done) ⟨rfl, gone, h, fun _ => .inl⟩ ?_).mono
      fun _ s₁ g₁ ⟨hcs, gone₁, h₁, _⟩ => ⟨hcs, gone₁, h₁⟩
  rintro done i rest s₁ g₁ hsplit ⟨hcs, gone₁, h₁, hgone₁⟩
  have hnot : i ∉ done := fun hmem => by
    rw [hsplit] at hnodup
    exact (List.nodup_append.mp hnodup).2.2 i hmem i List.mem_cons_self rfl
  have hi : i ∈ g₀.insts b ∧ i ∉ gone₁ ∨ i ∈ s₁.constraints := by
    rw [hcs]
    exact (his i (by simp [hsplit])).imp_left fun hi => ⟨hi.1, fun hmem => (hgone₁ i hmem).elim hi.2 hnot⟩
  refine (threads_inferInst hu ht h₁ (hcs ▸ hsmis) hb hi).mono fun _ s₂ g₂ ⟨hcs₂, gone₂, h₂, hgone₂⟩ => ?_
  refine ⟨hcs₂.trans hcs, gone₂, h₂, fun x hx => ?_⟩
  rw [List.mem_append, List.mem_singleton, ← or_assoc]
  exact (hgone₂ x hx).imp_left (hgone₁ x)

theorem threads_inferBlock (h : Working g₀ pos gone s g) (hsmis : ∀ d ∈ smis, Operand g₀ s.constraints d)
    (hb : g₀.Reachable b) :
    Threads False g s (inferBlock ctx smis b) fun _ s' g' => Underway g₀ pos s.constraints s' g' := by
  obtain ⟨k₀, hk₀⟩ := ht.exists_block hb
  obtain ⟨k, hk, hsame⟩ := block_of_shell h.steady.shell hk₀
  have hsound := h.steady.spread.sound
  have his (i : InstId) (hi : i ∈ g.insts b) : i ∈ g₀.insts b ∧ i ∉ gone ∨ i ∈ s.constraints := by
    refine (h.steady.spread.placed b i hi).imp_left fun hlt => ?_
    have hmem : i ∈ (g.layout.insts b).filter (·.index < g₀.nodes.size) :=
      List.mem_filter.mpr ⟨hi, decide_eq_true hlt⟩
    rw [h.steady.spread.kept b] at hmem
    simpa using hmem
  have hinsts (s₁ : Progress) (g₁ : FlowGraph) (hcs : s₁.constraints = s.constraints) (h₁ : Working g₀ pos gone s₁ g₁) :
      Threads False g₁ s₁ ((g.insts b).forM (inferInst ctx smis)) fun _ s' g' =>
        Underway g₀ pos s.constraints s' g' := by
    refine (threads_inferInsts hu ht h₁ (hcs ▸ hsmis) hb (hsound.nodup b) (hcs ▸ his)).mono fun _ s₂ g₂ h₂ => ?_
    rwa [hcs] at h₂
  have hlifted {m : Edit Unit} {s₁ : Progress} {g₁ : FlowGraph} (hcs : s₁.constraints = s.constraints)
      (hm : Leads False g₁ m fun _ g' => Working g₀ pos gone s₁ g') : Threads False g₁ s₁ (liftM m) fun _ s' g' =>
        s'.constraints = s.constraints ∧ Working g₀ pos gone s' g' := by
    rw [Threads.lift_iff]
    exact hm.mono fun _ _ h' => ⟨hcs, h'⟩
  have hphis (s₁ : Progress) (g₁ : FlowGraph) (hcs : s₁.constraints = s.constraints) (h₁ : Working g₀ pos gone s₁ g₁) :
      Threads False g₁ s₁ (do
        if ← g.isJoin b then
          let isHeader := (← g.block b).loop.isSome
          (← g.phis b).forM fun phi => do
            if (← (← getThe FlowGraph).isAlivePhi phi) && phi ∈ smis then inferPhi b isHeader phi
        (g.insts b).forM (inferInst ctx smis)) fun _ s' g' => Underway g₀ pos s.constraints s' g' := by
    have hjoin : g.isJoin b = .ok (k.kind == .join) := by
      unfold isJoin kind
      rw [block_eq_ok.mpr hk]
      rfl
    rw [Threads.bind_iff, Threads.read_iff, hjoin, Yields.ok_iff]
    split
    case isFalse => exact hinsts s₁ g₁ hcs h₁
    dsimp only
    rw [Threads.bind_iff, Threads.read_iff, block_eq_ok.mpr hk, Yields.ok_iff, Threads.bind_iff, Threads.read_iff,
      phis_eq_ok.mpr ⟨k, hk, rfl⟩, Yields.ok_iff, Threads.bind_iff]
    refine (Threads.forM_of_forall (fun s₂ g₂ => s₂.constraints = s.constraints ∧ Working g₀ pos gone s₂ g₂) ⟨hcs, h₁⟩
      fun phi hphi s₂ g₂ ⟨hcs₂, h₂⟩ => ?_).mono fun _ s₂ g₂ ⟨hcs₂, h₂⟩ => hinsts s₂ g₂ hcs₂ h₂
    obtain ⟨n₀, hn₀⟩ : ∃ n₀, g₀.nodes[phi.index]? = some n₀ := by
      obtain ⟨ps, hps, -⟩ := ((consistent_iff.mp hu.consistent).blocks b ((mem_order_iff ht.current).mpr hb)).phis
      obtain ⟨all, hall, halive, -⟩ := livePhis_eq_ok.mp hps
      obtain ⟨k', hk', rfl⟩ := phis_eq_ok.mp hall
      obtain rfl := Option.some_inj.mp (hk₀.symm.trans hk')
      rw [(Block.mk.inj hsame).2.2.1] at hphi
      obtain ⟨a, ha⟩ := halive phi hphi
      obtain ⟨n₀, hn₀, -⟩ := isAlivePhi_eq_ok.mp ha
      exact ⟨n₀, hn₀⟩
    obtain ⟨n, hn, -⟩ := h₂.steady.kept phi n₀ hn₀
    rw [Threads.bind_iff, Threads.getThe_iff, Threads.bind_iff, Threads.read_iff, isAlivePhi_eq_ok.mpr ⟨n, hn, rfl⟩,
      Yields.ok_iff]
    split
    case isTrue hmem =>
      rw [Bool.and_eq_true, decide_eq_true_eq] at hmem
      exact hlifted hcs₂ (threads_inferPhi hu ht h₂ (hcs₂ ▸ hsmis phi hmem.2) hb)
    case isFalse => exact ⟨hcs₂, h₂⟩
  unfold inferBlock
  rw [Threads.bind_iff, Threads.getThe_iff]
  split
  · rw [Threads.bind_iff]
    refine (Threads.forM_of_forall (fun s₁ g₁ => s₁.constraints = s.constraints ∧ Working g₀ pos gone s₁ g₁) ⟨rfl, h⟩
      fun d hd s₁ g₁ ⟨hcs, h₁⟩ => ?_).mono fun _ s₁ g₁ ⟨hcs, h₁⟩ => hphis s₁ g₁ hcs h₁
    exact hlifted hcs (leads_inferInitial hu ht h₁ (h.steady.alike.initialDefinitions ▸ hd))
  · exact hphis s g rfl h

theorem threads_inferTree (steps : Nat) {stack : List BlockId} (h : Working g₀ pos gone s g)
    (hsmis : ∀ d ∈ smis, Operand g₀ s.constraints d) (hfringe : g₀.Fringe stack)
    (hsteps : (g₀.ahead stack).ncard ≤ steps) :
    Threads False g s (inferTree ctx smis steps stack) fun _ s' g' => Underway g₀ pos s.constraints s' g' := by
  have hexact := ht.current.exactDominators
  induction steps generalizing gone s g stack with
  | zero =>
    cases stack with
    | nil => exact ⟨rfl, gone, h⟩
    | cons b stack =>
      obtain ⟨k₀, hk₀⟩ := ht.exists_block (hfringe.reachable b List.mem_cons_self)
      have hlt := hfringe.ncard_push_lt hexact hk₀ (.refl _)
      omega
  | succ steps ih =>
    cases stack with
    | nil => exact ⟨rfl, gone, h⟩
    | cons b stack =>
      have hb : g₀.Reachable b := hfringe.reachable b List.mem_cons_self
      obtain ⟨k₀, hk₀⟩ := ht.exists_block hb
      unfold inferTree
      rw [Threads.bind_iff]
      refine (threads_inferBlock hu ht h hsmis hb).mono fun _ s₁ g₁ ⟨hcs, gone₁, h₁⟩ => ?_
      obtain ⟨k, hk, hsame⟩ := block_of_shell h₁.steady.shell hk₀
      have hdominated : k.dominated = k₀.dominated := by simpa using congrArg Block.dominated hsame
      have hlt := hfringe.ncard_push_lt hexact hk₀ (.refl _)
      rw [Threads.bind_iff, Threads.getThe_iff, Threads.bind_iff, Threads.read_iff, block_eq_ok.mpr hk, Yields.ok_iff,
        hdominated]
      have hrun := ih h₁ (hcs ▸ hsmis) (hfringe.push hexact hk₀ (.refl _)) (by omega)
      rwa [hcs] at hrun

end

end Midend.Ranges
