import Midend.Proofs.Classes.Visits
import Midend.Proofs.Execution.Definite

/-! # Where class propagation comes to rest

Rounds go on until one of them changes nothing. A round may raise the class of a phi and may lower it again, so that
rounds may go on for ever. They end exactly if they come to a graph in which no check is decided and every phi has a
class that its inputs can only raise.
-/

namespace Midend

namespace Classes

open Execution Ssa

variable {h : Hierarchy} {g g' g'' : FlowGraph} {b : BlockId} {i d phi : InstId} {n : Node} {c : ClassId}

/-! ## Classes that rise -/

theorem OrDynamic.trans {a b c : ClassId} (hab : OrDynamic a b) (hbc : OrDynamic b c) : OrDynamic a c := by
  obtain rfl | rfl := hbc
  · exact hab
  · exact .inr rfl

theorem phiClass_mono {cs cs' : List ClassId} (hcs : .illegal ∉ cs) (hle : List.Forall₂ OrDynamic cs cs') :
    OrDynamic (phiClass cs) (phiClass cs') := by
  by_cases hdyn : phiClass cs' = .dynamic
  · exact .inr hdyn
  suffices heq : cs' = cs by
    rw [heq]
    exact .inl rfl
  -- Inputs that do not merge to `dynamic` are all the same, so that none of them has been raised.
  have hall (x : ClassId) (hx : x ∈ cs') (hne : x ≠ .illegal) : x ≠ .dynamic := by
    rw [← (phiClass_keeps hne hx (.inl rfl)).resolve_right hdyn]
    exact hdyn
  clear hdyn
  induction hle with
  | nil => rfl
  | @cons a a' cs cs' ha _ ih =>
    simp only [List.mem_cons, not_or] at hcs
    have hne : a' ≠ .illegal := by
      obtain rfl | rfl := ha
      · exact Ne.symm hcs.1
      · decide
    rw [ha.resolve_right (hall a' List.mem_cons_self hne)]
    rw [ih hcs.2 fun x hx => hall x (List.mem_cons_of_mem _ hx)]

/-- The class that is recorded for a definition, `illegal` where there is none. -/
def classAt (g : FlowGraph) (d : InstId) : ClassId := ((g.nodes[d.index]?).map current).getD .illegal

theorem classAt_eq (hn : g.nodes[d.index]? = some n) : classAt g d = current n := by simp [classAt, hn]

theorem classOf_of_classAt (hne : classAt g d ≠ .illegal) : g.classOf d = .ok (classAt g d) := by
  cases hn : g.nodes[d.index]? with
  | none => simp [classAt, hn] at hne
  | some n => exact classOf_eq_ok.mpr ⟨n, hn, (classAt_eq hn).symm⟩

def OnlyClasses (g g' : FlowGraph) : Prop :=
  ∃ κ : InstId → Node → Option ClassId, g' = g.mapNodes fun i n => { n with cls := κ i n }

namespace OnlyClasses

theorem refl (g : FlowGraph) : OnlyClasses g g := ⟨fun _ n => n.cls, FlowGraph.mapNodes_id.symm⟩

theorem trans (h : OnlyClasses g g') (h' : OnlyClasses g' g'') : OnlyClasses g g'' := by
  obtain ⟨κ, rfl⟩ := h
  obtain ⟨κ', rfl⟩ := h'
  exact ⟨fun i n => κ' i { n with cls := κ i n }, FlowGraph.mapNodes_mapNodes⟩

theorem withNode (g : FlowGraph) (d : InstId) (c : ClassId) :
    OnlyClasses g (g.withNode d fun n => { n with cls := some c }) := by
  refine ⟨fun i n => if i = d then some c else n.cls, ?_⟩
  refine FlowGraph.mapNodes_congr fun i n _ => ?_
  by_cases hi : i = d <;> simp [hi]

theorem symm (h : OnlyClasses g g') : OnlyClasses g' g := by
  obtain ⟨κ, rfl⟩ := h
  refine ⟨fun i _ => (g.nodes[i.index]?).bind Node.cls, ?_⟩
  rw [FlowGraph.mapNodes_mapNodes]
  refine FlowGraph.mapNodes_id.symm.trans (FlowGraph.mapNodes_congr fun i n hn => ?_)
  simp [hn]

theorem node (h : OnlyClasses g g') (hn : g.nodes[i.index]? = some n) :
    ∃ cls, g'.nodes[i.index]? = some { n with cls } := by
  obtain ⟨κ, rfl⟩ := h
  exact ⟨κ i n, by simp [hn]⟩

theorem reversePostorder (h : OnlyClasses g g') : g'.reversePostorder = g.reversePostorder := by
  obtain ⟨κ, rfl⟩ := h
  rfl

theorem blocks (h : OnlyClasses g g') : g'.blocks = g.blocks := by
  obtain ⟨κ, rfl⟩ := h
  rfl

theorem layout (h : OnlyClasses g g') : g'.layout = g.layout := by
  obtain ⟨κ, rfl⟩ := h
  rfl

theorem reaching (h : OnlyClasses g g') : g'.reaching = g.reaching := by
  obtain ⟨κ, rfl⟩ := h
  rfl

theorem phisOf (h : OnlyClasses g g') (b : BlockId) :
    phisOf g' b = phisOf g b := by rw [Ssa.phisOf, Ssa.phisOf, h.blocks]

theorem eq_of_classes (h : OnlyClasses g g') (hcls : g'.nodes.map Node.cls = g.nodes.map Node.cls) : g' = g := by
  obtain ⟨κ, rfl⟩ := h
  refine Eq.trans (FlowGraph.mapNodes_congr fun i n hn => ?_) FlowGraph.mapNodes_id
  have hi := congrArg (·[i.index]?) hcls
  simp only [Array.getElem?_map, FlowGraph.nodes_mapNodes, hn, Option.map_some, Option.some_inj] at hi
  rw [hi]

end OnlyClasses

structure Raised (g g' : FlowGraph) : Prop where
  only : OnlyClasses g g'
  keeps : ∀ d, OrDynamic (classAt g d) (classAt g' d)

structure Agrees (g g' : FlowGraph) : Prop where
  only : OnlyClasses g g'
  same : classAt g' = classAt g

theorem Raised.refl (g : FlowGraph) : Raised g g := ⟨.refl g, fun _ => .inl rfl⟩

theorem Raised.trans (h : Raised g g') (h' : Raised g' g'') : Raised g g'' :=
  ⟨h.only.trans h'.only, fun d => (h.keeps d).trans (h'.keeps d)⟩

theorem Agrees.refl (g : FlowGraph) : Agrees g g := ⟨.refl g, rfl⟩

theorem Agrees.trans (h : Agrees g g') (h' : Agrees g' g'') : Agrees g g'' :=
  ⟨h.only.trans h'.only, h'.same.trans h.same⟩

theorem Agrees.symm (h : Agrees g g') : Agrees g' g := ⟨h.only.symm, h.same.symm⟩

theorem Agrees.raised (h : Agrees g g') : Raised g g' := ⟨h.only, fun d => .inl (congrFun h.same d)⟩

theorem classAt_withNode (hn : g.nodes[d.index]? = some n) (i : InstId) :
    classAt (g.withNode d fun n => { n with cls := some c }) i = if i = d then c else classAt g i := by
  unfold classAt
  rw [FlowGraph.nodes_withNode]
  by_cases hi : i = d
  · subst hi
    simp [hn, current]
  · cases g.nodes[i.index]? <;> simp [hi]

theorem leads_setClass {fault : Prop} (hn : g.nodes[d.index]? = some n) :
    Leads fault g (Edit.setClass d c) fun changed g' =>
    changed = (current n != c) ∧ g' = g.withNode d fun n => { n with cls := some c } := by
  unfold Edit.setClass
  rw [Leads.bind_iff, Leads.get_iff, Leads.bind_iff, Leads.lift_iff, classOf_eq_ok.mpr ⟨n, hn, rfl⟩, Yields.ok_iff,
    Leads.bind_iff, Leads.modifyNode_iff]
  exact ⟨fun _ => ⟨rfl, rfl⟩, fun hle => absurd (Array.getElem?_eq_some_iff.mp hn).1 (Nat.not_lt.mpr hle)⟩

theorem leads_setClass_same {fault : Prop} (hn : g.nodes[d.index]? = some n) :
    Leads fault g (Edit.setClass d c) fun changed g' =>
      (changed = false ↔ current n = c) ∧ (current n = c → Agrees g g') := by
  refine (leads_setClass hn).mono ?_
  rintro _ _ ⟨rfl, rfl⟩
  refine ⟨by simp, fun hsame => ⟨.withNode _ _ _, funext fun i => ?_⟩⟩
  rw [classAt_withNode hn]
  split
  case isTrue hi => rw [hi, classAt_eq hn, hsame]
  case isFalse => rfl

/-! ## Graphs in which classes only rise -/

/-- An instruction that is taken out where the class of its input decides it. -/
def isCheck : Inst → Bool
  | .assertAssignable .. | .unary .assertBoolean _ | .instanceOf .. => true
  | _ => false

structure Idle (h : Hierarchy) (g : FlowGraph) (i : InstId) (n : Node) : Prop where
  undecided : isCheck n.inst = true → ∃ known, knownClass? g i = .ok known ∧
    ∀ cls, known = some cls → outcome? h n.inst cls = none
  recorded : n.inst.isDefinition = true → n.inst.opcode ≠ .pushArgument → current n = n.inst.resultClass

structure Rises (g : FlowGraph) (n : Node) : Prop where
  inputs : ∀ d ∈ n.inst.args, classAt g d ≠ .illegal
  keeps : OrDynamic (current n) (phiClass (n.inst.args.map (classAt g)))

/-- No visit in the block takes a check out or changes the class of an instruction, and visits to its phis can only
raise classes. -/
structure BlockRises (h : Hierarchy) (g : FlowGraph) (b : BlockId) : Prop where
  block : ∃ k, g.blocks[b.index]? = some k
  phis : ∀ phi ∈ phisOf g b, ∃ n, g.nodes[phi.index]? = some n ∧ (n.inst.isAlivePhi = true → Rises g n)
  insts : ∀ i ∈ g.insts b, g.isPlaced i = true → ∃ n, g.nodes[i.index]? = some n ∧ Idle h g i n

def OnlyRises (h : Hierarchy) (g : FlowGraph) : Prop := ∀ b ∈ g.reversePostorder, BlockRises h g b

theorem useClass_of_raised (hr : Raised g g') {k : Nat} (hc : g.useClass i k = .ok c) :
    ∃ c', g'.useClass i k = .ok c' ∧ OrDynamic c c' := by
  unfold FlowGraph.useClass FlowGraph.reachingClass? at *
  rw [hr.only.reaching]
  cases hlookup : g.reaching.lookup ⟨i, k⟩ with
  | some cls =>
    rw [hlookup] at hc
    exact ⟨cls, rfl, .inl (Except.ok.inj hc)⟩
  | none =>
    rw [hlookup] at hc
    obtain ⟨d, hd, hclass⟩ := bind_eq_ok.mp hc
    obtain ⟨n, hn, hd⟩ := FlowGraph.arg_eq_ok.mp hd
    obtain ⟨m, hm, rfl⟩ := classOf_eq_ok.mp hclass
    obtain ⟨cls, hn'⟩ := hr.only.node hn
    obtain ⟨cls', hm'⟩ := hr.only.node hm
    have harg : g'.arg i k = .ok d := FlowGraph.arg_eq_ok.mpr ⟨_, hn', hd⟩
    refine ⟨classAt g' d, ?_, classAt_eq hm ▸ hr.keeps d⟩
    simp only [harg, bind, Except.bind]
    exact classOf_eq_ok.mpr ⟨_, hm', (classAt_eq hm').symm⟩

theorem knownClass?_of_raised (hr : Raised g g') {known : Option ClassId} (hk : knownClass? g i = .ok known) :
    ∃ known', knownClass? g' i = .ok known' ∧ (known' = known ∨ known' = none) := by
  unfold knownClass? at *
  obtain ⟨c, hc, hknown⟩ := bind_eq_ok.mp hk
  obtain ⟨c', hc', hkeeps⟩ := useClass_of_raised hr hc
  refine ⟨_, bind_eq_ok.mpr ⟨c', hc', rfl⟩, ?_⟩
  obtain rfl | rfl := hkeeps
  · exact .inl (Except.ok.inj hknown)
  · exact .inr (by simp)

theorem Idle.of_raised (hidle : Idle h g i n) (hn : g.nodes[i.index]? = some n) (hr : Raised g g')
    (hsame : classAt g' i = classAt g i) : ∃ n', g'.nodes[i.index]? = some n' ∧ Idle h g' i n' := by
  obtain ⟨cls, hn'⟩ := hr.only.node hn
  refine ⟨_, hn', fun hcheck => ?_, fun hdef hpush => ?_⟩
  · obtain ⟨known, hknown, hnone⟩ := hidle.undecided hcheck
    obtain ⟨known', hknown', rfl | rfl⟩ := knownClass?_of_raised hr hknown
    · exact ⟨_, hknown', hnone⟩
    · exact ⟨_, hknown', fun cls hcls => (nomatch hcls)⟩
  · rw [← classAt_eq hn', hsame, classAt_eq hn]
    exact hidle.recorded hdef hpush

theorem OnlyRises.of_raised (hg : OnlyRises h g) (hr : Raised g g') (hchanged : ∀ d n, g.nodes[d.index]? = some n →
    classAt g' d ≠ classAt g d → n.inst.isAlivePhi = true ∧
    OrDynamic (classAt g' d) (phiClass (n.inst.args.map (classAt g)))) : OnlyRises h g' := by
  intro b hb
  rw [hr.only.reversePostorder] at hb
  refine ⟨hr.only.blocks ▸ (hg b hb).block, fun phi hphi => ?_, fun i hi hplaced => ?_⟩
  · rw [hr.only.phisOf] at hphi
    obtain ⟨n, hn, hrises⟩ := (hg b hb).phis phi hphi
    obtain ⟨cls, hn'⟩ := hr.only.node hn
    refine ⟨_, hn', fun halive => ?_⟩
    obtain ⟨hinputs, hkeeps⟩ := hrises halive
    have hmono : OrDynamic (phiClass (n.inst.args.map (classAt g))) (phiClass (n.inst.args.map (classAt g'))) := by
      refine phiClass_mono (fun hmem => ?_) (List.forall₂_map_right_iff.mpr (List.forall₂_map_left_iff.mpr ?_))
      · obtain ⟨d, hd, hillegal⟩ := List.mem_map.mp hmem
        exact hinputs d hd hillegal
      · exact List.forall₂_same.mpr fun d _ => hr.keeps d
    refine ⟨fun d hd => ?_, ?_⟩
    · obtain heq | heq := hr.keeps d
      · rw [heq]
        exact hinputs d hd
      · rw [heq]
        decide
    · rw [← classAt_eq hn']
      by_cases hsame : classAt g' phi = classAt g phi
      · rw [hsame, classAt_eq hn]
        exact hkeeps.trans hmono
      · exact (hchanged phi n hn hsame).2.trans hmono
  · unfold FlowGraph.insts at hi
    unfold FlowGraph.isPlaced at hplaced
    rw [hr.only.layout] at hi hplaced
    obtain ⟨n, hn, hidle⟩ := (hg b hb).insts i hi hplaced
    refine hidle.of_raised hn hr ?_
    by_contra hne
    -- A phi among the instructions has the class `dynamic` already.
    obtain ⟨halive, -⟩ := hchanged i n hn hne
    obtain ⟨slot, as, r, hphi⟩ := Inst.eq_phi_of_isAlivePhi halive
    have hdyn := hidle.recorded (by rw [hphi]; rfl) (by rw [hphi]; exact Opcode.noConfusion)
    rw [Inst.resultClass_of_isPhi (Inst.isPhi_of_isAlivePhi halive), ← classAt_eq hn] at hdyn
    obtain heq | heq := hr.keeps i
    · exact hne heq
    · exact hne (heq.trans hdyn.symm)

/-! ## Visits where classes only rise -/

theorem leads_eliminateCheck_of_undecided (hn : g.nodes[i.index]? = some n) (hidle : Idle h g i n) :
    Leads False g (eliminateCheck h i) fun changed g' => changed = false ∧ g' = g := by
  unfold eliminateCheck
  rw [Leads.bind_iff, Leads.get_iff, Leads.bind_iff, Leads.lift_iff, FlowGraph.inst_eq_ok.mpr ⟨n, hn, rfl⟩,
    Yields.ok_iff]
  have hundecided := hidle.undecided
  split
  case h_1 type value hinst =>
    obtain ⟨known, hknown, hnone⟩ := hundecided (by rw [hinst]; rfl)
    rw [Leads.bind_iff, Leads.lift_iff, hknown, Yields.ok_iff]
    cases known with
    | none => exact ⟨rfl, rfl⟩
    | some cls =>
      have hfails := hnone cls rfl
      rw [hinst, outcome?] at hfails
      split at hfails
      case isTrue => cases hfails
      case isFalse hpass =>
        dsimp only
        rw [if_neg hpass]
        exact ⟨rfl, rfl⟩
  case h_2 value hinst =>
    obtain ⟨known, hknown, hnone⟩ := hundecided (by rw [hinst]; rfl)
    rw [Leads.bind_iff, Leads.lift_iff, hknown, Yields.ok_iff]
    rw [if_neg]
    · exact ⟨rfl, rfl⟩
    · rintro rfl
      have hfails := hnone .bool rfl
      rw [hinst] at hfails
      cases hfails
  case h_3 type negate value hinst =>
    obtain ⟨known, hknown, hnone⟩ := hundecided (by rw [hinst]; rfl)
    rw [Leads.bind_iff, Leads.lift_iff, hknown, Yields.ok_iff]
    cases known with
    | none => exact ⟨rfl, rfl⟩
    | some cls =>
      have hfails := hnone cls rfl
      rw [hinst] at hfails
      cases hfails
  case h_4 => exact ⟨rfl, rfl⟩

theorem leads_visitInst_of_idle (hidle : g.isPlaced i = true → ∃ n, g.nodes[i.index]? = some n ∧ Idle h g i n) :
    Leads False g (visitInst h i) fun changed g' => changed = false ∧ Agrees g g' := by
  unfold visitInst
  rw [Leads.bind_iff, Leads.get_iff]
  split
  case isTrue => exact ⟨rfl, .refl g⟩
  case isFalse hplaced =>
    obtain ⟨n, hn, hidle⟩ := hidle (by simpa using hplaced)
    rw [Leads.bind_iff]
    refine (leads_eliminateCheck_of_undecided hn hidle).mono ?_
    rintro _ _ ⟨rfl, rfl⟩
    simp only [Bool.false_eq_true, if_false]
    rw [Leads.bind_iff, Leads.get_iff, Leads.bind_iff, Leads.lift_iff, FlowGraph.inst_eq_ok.mpr ⟨n, hn, rfl⟩,
      Yields.ok_iff]
    split
    case isFalse => exact ⟨rfl, .refl _⟩
    case isTrue hdef =>
      simp only [Bool.and_eq_true, decide_eq_true_eq] at hdef
      have hrecorded := hidle.recorded hdef.1 hdef.2
      exact (leads_setClass_same hn).mono fun _ _ ⟨hchanged, hagrees⟩ => ⟨hchanged.mpr hrecorded, hagrees hrecorded⟩

/-- A phi that rises takes the class that its inputs merge to. It counts as changed where it has become `dynamic`. -/
theorem leads_visitPhi_of_rises (hg : OnlyRises h g) (hn : g.nodes[phi.index]? = some n)
    (halive : n.inst.isAlivePhi = true) (hrises : Rises g n) : Leads False g (visitPhi phi) fun changed g' =>
    OnlyRises h g' ∧ Raised g g' ∧
      (changed = true → classAt g phi ≠ .dynamic ∧ classAt g' phi = .dynamic) := by
  unfold visitPhi
  rw [Leads.bind_iff, Leads.get_iff, Leads.bind_iff, Leads.lift_iff, FlowGraph.args_eq_ok.mpr ⟨n, hn, rfl⟩,
    Yields.ok_iff, Leads.bind_iff, Leads.mapM_lift_iff]
  have hinputs : n.inst.args.mapM g.classOf = .ok (n.inst.args.map (classAt g)) := by
    rw [mapM_eq_ok, List.forall₂_map_right_iff]
    exact List.forall₂_same.mpr fun d hd => classOf_of_classAt (hrises.inputs d hd)
  rw [hinputs, Yields.ok_iff, Leads.bind_iff]
  refine (leads_setClass hn).mono ?_
  rintro _ _ ⟨rfl, rfl⟩
  have hclass := classAt_withNode (c := phiClass (n.inst.args.map (classAt g))) hn
  have hraised : Raised g (g.withNode phi fun m =>
    { m with cls := some (phiClass (n.inst.args.map (classAt g))) }) := by
    refine ⟨.withNode _ _ _, fun d => ?_⟩
    rw [hclass]
    split
    case isTrue hd =>
      rw [hd, classAt_eq hn]
      exact hrises.keeps
    case isFalse => exact .inl rfl
  have hvisited : ((n.inst.args.map (classAt g)).any (· == .illegal)) = false := by
    rw [List.any_eq_false]
    intro c hc
    obtain ⟨d, hd, rfl⟩ := List.mem_map.mp hc
    simpa using hrises.inputs d hd
  refine ⟨hg.of_raised hraised fun d m hm hne => ?_, hraised, fun hchanged => ?_⟩
  · rw [hclass] at hne ⊢
    split at hne
    case isFalse => exact absurd rfl hne
    case isTrue hd =>
      subst hd
      obtain rfl := Option.some_inj.mp (hn.symm.trans hm)
      rw [if_pos rfl]
      exact ⟨halive, .inl rfl⟩
  · rw [hvisited, Bool.or_false, bne_iff_ne] at hchanged
    have hdyn := hrises.keeps.resolve_left fun heq => hchanged heq.symm
    rw [hclass, if_pos rfl, classAt_eq hn]
    exact ⟨fun heq => hchanged (heq.trans hdyn.symm), hdyn⟩

/-! ## Rounds where classes only rise -/

/-- The number of phis whose class may still rise. -/
def risers (g : FlowGraph) : Nat :=
  ((g.reversePostorder.flatMap (phisOf g)).filter fun phi => classAt g phi ≠ .dynamic).length

theorem risers_eq_of_raised (hr : Raised g g') : risers g' =
    (((g.reversePostorder.flatMap (phisOf g)).filter fun phi => classAt g phi ≠ .dynamic).filter fun phi =>
      classAt g' phi ≠ .dynamic).length := by
  have hphis : phisOf g' = phisOf g := funext hr.only.phisOf
  unfold risers
  rw [hr.only.reversePostorder, hphis, List.filter_filter]
  congr 2
  funext phi
  have hkeeps := hr.keeps phi
  by_cases hdyn : classAt g phi = .dynamic
  · have hdyn' : classAt g' phi = .dynamic := hkeeps.elim (·.trans hdyn) id
    simp [hdyn, hdyn']
  · simp [hdyn]

theorem risers_le_of_raised (hr : Raised g g') : risers g' ≤ risers g := by
  rw [risers_eq_of_raised hr]
  exact List.length_filter_le _ _

theorem risers_lt_of_raised (hr : Raised g g') (hb : b ∈ g.reversePostorder) (hphi : phi ∈ phisOf g b)
    (hold : classAt g phi ≠ .dynamic) (hnew : classAt g' phi = .dynamic) : risers g' < risers g := by
  rw [risers_eq_of_raised hr, risers, List.length_filter_lt_length_iff_exists]
  refine ⟨phi, List.mem_filter.mpr ⟨List.mem_flatMap.mpr ⟨b, hb, hphi⟩, by simpa using hold⟩, ?_⟩
  simp [hnew]

/-- In the middle of a round: what changed so far has been raised. -/
structure Climbs (h : Hierarchy) (g : FlowGraph) (changed : Bool) (g' : FlowGraph) : Prop where
  rising : OnlyRises h g'
  raised : Raised g g'
  fewer : changed = true → risers g' < risers g

theorem Climbs.step {changed r : Bool} (hc : Climbs h g changed g') (hrising : OnlyRises h g'') (hr : Raised g' g'')
    (hfewer : r = true → risers g'' < risers g') : Climbs h g (r || changed) g'' := by
  refine ⟨hrising, hc.raised.trans hr, fun hchanged => ?_⟩
  have hle := risers_le_of_raised hr
  have hle' := risers_le_of_raised hc.raised
  obtain hr | hchanged := Bool.or_eq_true_iff.mp hchanged
  · exact Nat.lt_of_lt_of_le (hfewer hr) hle'
  · exact Nat.lt_of_le_of_lt hle (hc.fewer hchanged)

theorem OnlyRises.of_agrees (hg : OnlyRises h g) (ha : Agrees g g') : OnlyRises h g' :=
  hg.of_raised ha.raised fun d _ _ hne => absurd (congrFun ha.same d) hne

theorem Climbs.visitPhis {changed : Bool} (hc : Climbs h g changed g') (hb : b ∈ g.reversePostorder) :
    Leads False g' (anyChange (phisOf g' b) fun phi => do
      if ← (← get).isAlivePhi phi then visitPhi phi else return false) fun r g'' => Climbs h g (r || changed) g'' := by
  refine Leads.anyChange (fun _ r g'' => Climbs h g (r || changed) g'') hc fun done phi rest r g₁ hphis h₁ => ?_
  have hb' : b ∈ g₁.reversePostorder := h₁.raised.only.reversePostorder ▸ hb
  have hphi : phi ∈ phisOf g₁ b := by
    rw [h₁.raised.only.phisOf, ← hc.raised.only.phisOf, hphis]
    exact List.mem_append_right _ List.mem_cons_self
  obtain ⟨n, hn, hrises⟩ := (h₁.rising b hb').phis phi hphi
  rw [Leads.bind_iff, Leads.get_iff, Leads.bind_iff, Leads.lift_iff, FlowGraph.isAlivePhi_eq_ok.mpr ⟨n, hn, rfl⟩,
    Yields.ok_iff]
  split
  case isFalse => simpa using h₁
  case isTrue halive =>
    refine (leads_visitPhi_of_rises h₁.rising hn halive (hrises halive)).mono ?_
    rintro r' g₂ ⟨hrising, hraised, hchanged⟩
    rw [Bool.or_assoc]
    refine h₁.step hrising hraised fun hr' => ?_
    obtain ⟨hold, hnew⟩ := hchanged hr'
    exact risers_lt_of_raised hraised hb' hphi hold hnew

theorem Climbs.visitInsts {changed : Bool} (hc : Climbs h g changed g') (hb : b ∈ g.reversePostorder) :
    Leads False g' (anyChange (g'.insts b) (visitInst h)) fun r g'' => Climbs h g (r || changed) g'' := by
  refine Leads.anyChange (fun _ r g'' => Climbs h g (r || changed) g'') hc fun done i rest r g₁ hinsts h₁ => ?_
  have hb' : b ∈ g₁.reversePostorder := h₁.raised.only.reversePostorder ▸ hb
  have hi : i ∈ g₁.insts b := by
    rw [FlowGraph.insts, h₁.raised.only.layout, ← hc.raised.only.layout, ← FlowGraph.insts, hinsts]
    exact List.mem_append_right _ List.mem_cons_self
  refine (leads_visitInst_of_idle ((h₁.rising b hb').insts i hi)).mono ?_
  rintro _ g₂ ⟨rfl, hagrees⟩
  rw [Bool.or_assoc]
  exact h₁.step (h₁.rising.of_agrees hagrees) hagrees.raised Bool.noConfusion

theorem OnlyRises.visitBlocks (hg : OnlyRises h g) : Leads False g (visitBlocks h) fun changed g' =>
    Climbs h g changed g' := by
  unfold Classes.visitBlocks
  rw [Leads.bind_iff, Leads.get_iff]
  refine Leads.anyChange (fun _ changed g' => Climbs h g changed g') ⟨hg, .refl g, Bool.noConfusion⟩
    fun done b rest changed g₁ horder h₁ => ?_
  have hb : b ∈ g.reversePostorder := by
    rw [horder]
    exact List.mem_append_right _ List.mem_cons_self
  obtain ⟨k, hk⟩ := (h₁.rising b (h₁.raised.only.reversePostorder ▸ hb)).block
  rw [Leads.bind_iff, Leads.get_iff, Leads.bind_iff, Leads.lift_iff, FlowGraph.phis_eq_ok.mpr ⟨k, hk, rfl⟩,
    Yields.ok_iff, Leads.bind_iff, ← phisOf_eq hk]
  refine (h₁.visitPhis hb).mono fun r g₂ h₂ => ?_
  rw [Leads.bind_iff, Leads.get_iff, Leads.bind_iff]
  refine (h₂.visitInsts hb).mono fun r' g₃ h₃ => ?_
  rw [Leads.pure_iff, Bool.or_comm r r', Bool.or_assoc]
  exact h₃

/-! ## The last round -/

theorem settle_of_changed {rounds : Nat} (hround : visitBlocks h g = .ok (true, g')) :
    settle h (rounds + 1) g = (settle h rounds g').map fun r => (true, r.2) := by
  cases hrest : settle h rounds g' <;>
    simp only [settle, bind, StateT.bind, Except.bind, hround, if_true, discard, Functor.discard, Functor.mapConst,
      Function.comp_apply, StateT.map, hrest] <;> rfl

theorem settle_of_still {rounds : Nat} (hround : visitBlocks h g = .ok (false, g')) :
    settle h (rounds + 1) g = .ok (false, g') := by
  simp only [settle, bind, StateT.bind, Except.bind, hround]
  rfl

theorem OnlyRises.settles (hg : OnlyRises h g) {rounds : Nat} (hrounds : risers g < rounds) :
    ∃ r, settle h rounds g = .ok r := by
  induction rounds generalizing g with
  | zero => exact absurd hrounds (Nat.not_lt_zero _)
  | succ rounds ih =>
    obtain ⟨⟨changed, g'⟩, hround, hclimbs⟩ := Yields.exists_ok hg.visitBlocks
    replace hclimbs : Climbs h g changed g' := hclimbs
    cases changed with
    | false => exact ⟨_, settle_of_still hround⟩
    | true =>
      have hfewer := hclimbs.fewer rfl
      obtain ⟨r, hr⟩ := ih hclimbs.rising (by omega)
      exact ⟨_, by rw [settle_of_changed hround, hr]; rfl⟩

theorem undecided_of_eliminateCheck : Leads True g (eliminateCheck h i) fun changed g' => changed = false →
    g' = g ∧ ∃ n, g.nodes[i.index]? = some n ∧ (isCheck n.inst = true → ∃ known, knownClass? g i = .ok known ∧
      ∀ cls, known = some cls → outcome? h n.inst cls = none) := by
  unfold eliminateCheck
  rw [Leads.bind_iff, Leads.get_iff, Leads.bind_iff, Leads.lift_iff]
  refine Yields.of_ok fun d hd => ?_
  obtain ⟨n, hn, rfl⟩ := FlowGraph.inst_eq_ok.mp hd
  split
  case h_1 type value hinst =>
    rw [Leads.bind_iff, Leads.lift_iff]
    refine Yields.of_ok fun known hknown => ?_
    cases known with
    | none => exact fun _ => ⟨rfl, n, hn, fun _ => ⟨none, hknown, fun cls hcls => (nomatch hcls)⟩⟩
    | some cls =>
      dsimp only
      split
      case isTrue =>
        rw [Leads.bind_iff]
        exact Leads.of_ok fun _ _ _ => Bool.noConfusion
      case isFalse hpass =>
        refine fun _ => ⟨rfl, n, hn, fun _ => ⟨some cls, hknown, fun cls' hcls => ?_⟩⟩
        obtain rfl := Option.some_inj.mp hcls
        rw [hinst, outcome?, if_neg hpass]
  case h_2 value hinst =>
    rw [Leads.bind_iff, Leads.lift_iff]
    refine Yields.of_ok fun known hknown => ?_
    split
    case isTrue =>
      rw [Leads.bind_iff]
      exact Leads.of_ok fun _ _ _ => Bool.noConfusion
    case isFalse hbool =>
      refine fun _ => ⟨rfl, n, hn, fun _ => ⟨known, hknown, fun cls hcls => ?_⟩⟩
      rw [hinst, outcome?, if_neg]
      rintro rfl
      exact hbool hcls
  case h_3 type negate value hinst =>
    rw [Leads.bind_iff, Leads.lift_iff]
    refine Yields.of_ok fun known hknown => ?_
    cases known with
    | none => exact fun _ => ⟨rfl, n, hn, fun _ => ⟨none, hknown, fun cls hcls => (nomatch hcls)⟩⟩
    | some cls =>
      rw [Leads.bind_iff]
      refine Leads.of_ok fun _ _ _ => ?_
      rw [Leads.bind_iff]
      exact Leads.of_ok fun _ _ _ => Bool.noConfusion
  case h_4 hassign hassert hof =>
    refine fun _ => ⟨rfl, n, hn, fun hcheck => ?_⟩
    unfold isCheck at hcheck
    split at hcheck
    case h_1 => exact absurd ‹_› (hassign _ _)
    case h_2 => exact absurd ‹_› (hassert _)
    case h_3 => exact absurd ‹_› (hof _ _ _)
    case h_4 => cases hcheck

theorem idle_of_visitInst : Leads True g (visitInst h i) fun changed g' => changed = false → Agrees g g' ∧
    (g.isPlaced i = true → ∃ n, g.nodes[i.index]? = some n ∧ Idle h g i n) := by
  unfold visitInst
  rw [Leads.bind_iff, Leads.get_iff]
  split
  case isTrue hplaced =>
    refine fun _ => ⟨.refl g, fun hplaced' => ?_⟩
    rw [hplaced'] at hplaced
    cases hplaced
  case isFalse =>
    rw [Leads.bind_iff]
    refine undecided_of_eliminateCheck.mono fun taken g₁ hg₁ => ?_
    cases taken with
    | true => exact Bool.noConfusion
    | false =>
      obtain ⟨rfl, n, hn, hundecided⟩ := hg₁ rfl
      simp only [Bool.false_eq_true, if_false]
      rw [Leads.bind_iff, Leads.get_iff, Leads.bind_iff, Leads.lift_iff, FlowGraph.inst_eq_ok.mpr ⟨n, hn, rfl⟩,
        Yields.ok_iff]
      split
      case isFalse hdef =>
        refine fun _ => ⟨.refl _, fun _ => ⟨n, hn, hundecided, fun hdef' hpush => absurd ?_ hdef⟩⟩
        simp [hdef', hpush]
      case isTrue =>
        refine (leads_setClass_same hn).mono fun changed g₂ ⟨hchanged, hagrees⟩ hstill => ?_
        have hclass := hchanged.mp hstill
        exact ⟨hagrees hclass, fun _ => ⟨n, hn, hundecided, fun _ _ => hclass⟩⟩

theorem rises_of_visitPhi : Leads True g (visitPhi phi) fun changed g' => changed = false → Agrees g g' ∧
    ∃ n, g.nodes[phi.index]? = some n ∧ Rises g n := by
  unfold visitPhi
  rw [Leads.bind_iff, Leads.get_iff, Leads.bind_iff, Leads.lift_iff]
  refine Yields.of_ok fun as has => ?_
  obtain ⟨n, hn, rfl⟩ := FlowGraph.args_eq_ok.mp has
  rw [Leads.bind_iff, Leads.mapM_lift_iff]
  refine Yields.of_ok fun cs hcs => ?_
  obtain rfl : cs = n.inst.args.map (classAt g) := by
    refine (List.forall₂_eq_eq_eq ▸ List.forall₂_map_left_iff.mpr ((mapM_eq_ok.mp hcs).imp fun d c hc => ?_)).symm
    obtain ⟨m, hm, rfl⟩ := classOf_eq_ok.mp hc
    exact classAt_eq hm
  rw [Leads.bind_iff]
  refine (leads_setClass_same hn).mono fun changed g' ⟨hchanged, hagrees⟩ hstill => ?_
  obtain ⟨hsame, hvisited⟩ := Bool.or_eq_false_iff.mp hstill
  have hclass := hchanged.mp hsame
  refine ⟨hagrees hclass, n, hn, fun d hd => ?_, .inl hclass.symm⟩
  simpa using List.any_eq_false.mp hvisited _ (List.mem_map_of_mem hd)

theorem Rises.of_agrees (hrises : Rises g n) (hn : g.nodes[phi.index]? = some n) (ha : Agrees g g') :
    ∃ n', g'.nodes[phi.index]? = some n' ∧ Rises g' n' := by
  obtain ⟨cls, hn'⟩ := ha.only.node hn
  refine ⟨_, hn', ?_, ?_⟩
  · rw [ha.same]
    exact hrises.inputs
  · rw [← classAt_eq hn', ha.same, classAt_eq hn]
    exact hrises.keeps

theorem phis_rise_of_still (ha : Agrees g g') : Leads True g' (anyChange (phisOf g' b) fun phi => do
    if ← (← get).isAlivePhi phi then visitPhi phi else return false) fun changed g'' => changed = false → Agrees g g'' ∧
      ∀ phi ∈ phisOf g b, ∃ n, g.nodes[phi.index]? = some n ∧ (n.inst.isAlivePhi = true → Rises g n) := by
  rw [ha.only.phisOf]
  refine Leads.anyChange (fun (done : List InstId) changed g'' => changed = false → Agrees g g'' ∧ ∀ phi ∈ done,
    ∃ n, g.nodes[phi.index]? = some n ∧ (n.inst.isAlivePhi = true → Rises g n)) (fun _ => ⟨ha, by simp⟩)
    fun done phi rest changed g₁ _ h₁ => ?_
  cases changed with
  | true => exact Leads.of_ok fun r _ _ hstill => by simp at hstill
  | false =>
    obtain ⟨ha₁, hdone⟩ := h₁ rfl
    rw [Leads.bind_iff, Leads.get_iff, Leads.bind_iff, Leads.lift_iff]
    refine Yields.of_ok fun alive halive => ?_
    obtain ⟨n₁, hn₁, rfl⟩ := FlowGraph.isAlivePhi_eq_ok.mp halive
    split
    case isFalse hdead =>
      obtain ⟨cls, hn⟩ := ha₁.symm.only.node hn₁
      refine fun _ => ⟨ha₁, fun phi' hphi' => ?_⟩
      obtain hphi' | hphi' := List.mem_append.mp hphi'
      · exact hdone phi' hphi'
      · obtain rfl := List.mem_singleton.mp hphi'
        exact ⟨_, hn, fun halive => absurd halive hdead⟩
    case isTrue =>
      refine rises_of_visitPhi.mono fun r g₂ h₂ hstill => ?_
      obtain ⟨ha₂, m, hm, hrises⟩ := h₂ (Bool.or_eq_false_iff.mp hstill).1
      refine ⟨ha₁.trans ha₂, fun phi' hphi' => ?_⟩
      obtain hphi' | hphi' := List.mem_append.mp hphi'
      · exact hdone phi' hphi'
      · obtain rfl := List.mem_singleton.mp hphi'
        obtain ⟨n, hn, hrises⟩ := hrises.of_agrees hm ha₁.symm
        exact ⟨n, hn, fun _ => hrises⟩

theorem insts_idle_of_still (ha : Agrees g g') : Leads True g' (anyChange (g'.insts b) (visitInst h)) fun changed g'' =>
    changed = false → Agrees g g'' ∧
      ∀ i ∈ g.insts b, g.isPlaced i = true → ∃ n, g.nodes[i.index]? = some n ∧ Idle h g i n := by
  have hinsts : g'.insts b = g.insts b := by rw [FlowGraph.insts, FlowGraph.insts, ha.only.layout]
  rw [hinsts]
  refine Leads.anyChange (fun done changed g'' => changed = false → Agrees g g'' ∧ ∀ i ∈ done, g.isPlaced i = true →
    ∃ n, g.nodes[i.index]? = some n ∧ Idle h g i n) (fun _ => ⟨ha, by simp⟩) fun done i rest changed g₁ _ h₁ => ?_
  cases changed with
  | true => exact Leads.of_ok fun r _ _ hstill => by simp at hstill
  | false =>
    obtain ⟨ha₁, hdone⟩ := h₁ rfl
    refine idle_of_visitInst.mono fun r g₂ h₂ hstill => ?_
    obtain ⟨ha₂, hidle⟩ := h₂ (Bool.or_eq_false_iff.mp hstill).1
    refine ⟨ha₁.trans ha₂, fun i' hi' hplaced => ?_⟩
    obtain hi' | hi' := List.mem_append.mp hi'
    · exact hdone i' hi' hplaced
    · obtain rfl := List.mem_singleton.mp hi'
      have hplaced₁ : g₁.isPlaced i' = true := by
        rw [FlowGraph.isPlaced, ha₁.only.layout]
        exact hplaced
      obtain ⟨m, hm, hidle⟩ := hidle hplaced₁
      exact hidle.of_raised hm ha₁.symm.raised (congrFun ha₁.symm.same i')

theorem rising_of_still (hround : visitBlocks h g = .ok (false, g')) : OnlyRises h g := by
  have hleads : Leads True g (visitBlocks h) fun changed g' => changed = false → Agrees g g' ∧ OnlyRises h g := by
    unfold visitBlocks
    rw [Leads.bind_iff, Leads.get_iff]
    refine Leads.anyChange (fun done changed g' => changed = false → Agrees g g' ∧ ∀ b ∈ done, BlockRises h g b)
      (fun _ => ⟨.refl g, by simp⟩) fun done b rest changed g₁ _ h₁ => ?_
    cases changed with
    | true => exact Leads.of_ok fun r _ _ hstill => by simp at hstill
    | false =>
      obtain ⟨ha₁, hdone⟩ := h₁ rfl
      rw [Leads.bind_iff, Leads.get_iff, Leads.bind_iff, Leads.lift_iff]
      refine Yields.of_ok fun phis hphis => ?_
      obtain ⟨k, hk, rfl⟩ := FlowGraph.phis_eq_ok.mp hphis
      rw [Leads.bind_iff, ← phisOf_eq hk]
      refine (phis_rise_of_still ha₁).mono fun r g₂ h₂ => ?_
      rw [Leads.bind_iff, Leads.get_iff, Leads.bind_iff]
      cases r with
      | true => exact Leads.of_ok fun r' _ _ hstill => by simp at hstill
      | false =>
        obtain ⟨ha₂, hrise⟩ := h₂ rfl
        refine (insts_idle_of_still ha₂).mono fun r' g₃ h₃ hstill => ?_
        obtain ⟨ha₃, hidle⟩ := h₃ (by simpa using hstill)
        refine ⟨ha₃, fun b' hb' => ?_⟩
        obtain hb' | hb' := List.mem_append.mp hb'
        · exact hdone b' hb'
        · obtain rfl := List.mem_singleton.mp hb'
          exact ⟨⟨k, ha₁.only.blocks ▸ hk⟩, hrise, hidle⟩
  exact (hleads.post_of_ok hround rfl).2

/-! ## The end of the rounds -/

def VisitRound (h : Hierarchy) (g g' : FlowGraph) : Prop := ∃ changed, visitBlocks h g = .ok (changed, g')

theorem exists_rising_of_settle {rounds : Nat} {r : Bool × FlowGraph} (hrun : settle h rounds g = .ok r) :
    ∃ g', Relation.ReflTransGen (VisitRound h) g g' ∧ OnlyRises h g' := by
  induction rounds generalizing g r with
  | zero => cases hrun
  | succ rounds ih =>
    cases hround : visitBlocks h g with
    | error e => simp [settle, bind, StateT.bind, Except.bind, hround] at hrun
    | ok result =>
      obtain ⟨changed, g₁⟩ := result
      cases changed with
      | false => exact ⟨g, .refl, rising_of_still hround⟩
      | true =>
        rw [settle_of_changed hround] at hrun
        cases hrest : settle h rounds g₁ with
        | error e => rw [hrest] at hrun; cases hrun
        | ok r₁ =>
          obtain ⟨g', hrounds, hrising⟩ := ih hrest
          exact ⟨g', .head ⟨true, hround⟩ hrounds, hrising⟩

theorem exists_settle_of_rising (hrounds : Relation.ReflTransGen (VisitRound h) g g') (hrising : OnlyRises h g') :
    ∃ rounds r, settle h rounds g = .ok r := by
  induction hrounds using Relation.ReflTransGen.head_induction_on with
  | refl =>
    obtain ⟨r, hr⟩ := hrising.settles (Nat.lt_succ_self _)
    exact ⟨_, r, hr⟩
  | head hround _ ih =>
    obtain ⟨changed, hround⟩ := hround
    obtain ⟨rounds, r, hr⟩ := ih
    cases changed with
    | false => exact ⟨1, _, settle_of_still hround⟩
    | true => exact ⟨rounds + 1, _, by rw [settle_of_changed hround, hr]; rfl⟩

/-- The rounds come to an end exactly if they lead to a graph in which they can only raise classes. In such a graph no
more rounds follow than there are phis whose class may rise, and one that changes nothing. -/
theorem settle_ends_iff (h : Hierarchy) (g : FlowGraph) : ((∃ rounds r, settle h rounds g = .ok r) ↔
    ∃ g', Relation.ReflTransGen (VisitRound h) g g' ∧ OnlyRises h g') ∧
      (OnlyRises h g → ∃ r, settle h (risers g + 1) g = .ok r) := by
  refine ⟨⟨?_, ?_⟩, fun hg => hg.settles (Nat.lt_succ_self _)⟩
  · rintro ⟨rounds, r, hrun⟩
    exact exists_rising_of_settle hrun
  · rintro ⟨g', hrounds, hrising⟩
    exact exists_settle_of_rising hrounds hrising

/-! ## Rounds without an end -/

def CheckFree (g : FlowGraph) : Prop :=
  ∀ b ∈ g.reversePostorder, ∀ i ∈ g.insts b, ∀ n ∈ g.nodes[i.index]?, isCheck n.inst = false

instance : Decidable (CheckFree g) :=
  inferInstanceAs (Decidable (∀ b ∈ g.reversePostorder, ∀ i ∈ g.insts b, ∀ n ∈ g.nodes[i.index]?, isCheck n.inst =
  false))

theorem CheckFree.of_onlyClasses (hfree : CheckFree g) (h : OnlyClasses g g') : CheckFree g' := by
  intro b hb i hi n' hn'
  obtain ⟨cls, hn⟩ := h.symm.node hn'
  have hmem : i ∈ g.insts b := by rwa [FlowGraph.insts, ← h.layout]
  have hcheck := hfree b (h.reversePostorder ▸ hb) i hmem { n' with cls } hn
  exact hcheck

theorem isCheck_of_outcome? {e : Inst} {v : Verdict} (hv : outcome? h e c = some v) : isCheck e = true := by
  unfold outcome? at hv
  split at hv
  case h_4 => cases hv
  all_goals rfl

theorem onlyClasses_visitBlocks (hfree : CheckFree g) : Leads True g (visitBlocks h) fun _ g' => OnlyClasses g g' := by
  have hset (g₁ : FlowGraph) (d : InstId) (c : ClassId) (h₁ : OnlyClasses g g₁) :
      Leads True g₁ (Edit.setClass d c) fun _ g' => OnlyClasses g g' := by
    refine setClass_spec.mono ?_
    rintro _ _ ⟨n, -, rfl⟩
    exact h₁.trans (.withNode _ _ _)
  unfold visitBlocks
  rw [Leads.bind_iff, Leads.get_iff]
  refine Leads.anyChange_of_forall (OnlyClasses g) (.refl g) fun b hb g₁ h₁ => ?_
  rw [Leads.bind_iff, Leads.get_iff, Leads.bind_iff, Leads.lift_iff]
  refine Yields.of_ok fun phis _ => ?_
  rw [Leads.bind_iff]
  refine (Leads.anyChange_of_forall (OnlyClasses g) h₁ fun phi _ g₂ h₂ => ?_).mono fun _ g₃ h₃ => ?_
  · rw [Leads.bind_iff, Leads.get_iff, Leads.bind_iff, Leads.lift_iff]
    refine Yields.of_ok fun alive _ => ?_
    split
    case isFalse => exact h₂
    case isTrue =>
      refine visitPhi_spec.mono ?_
      rintro _ g₃ ⟨n, -, cs, -, r, hrun⟩
      exact (hset g₂ phi _ h₂).post_of_ok hrun
  rw [Leads.bind_iff, Leads.get_iff, Leads.bind_iff]
  refine (Leads.anyChange_of_forall (OnlyClasses g) h₃ fun i hi g₄ h₄ => ?_).mono fun _ g₅ h₅ => h₅
  refine visitInst_spec.mono ?_
  rintro _ g₅ (rfl | ⟨check, cls, v, htaken⟩ | ⟨n, r, -, hrun⟩)
  · exact h₄
  · obtain ⟨n₄, hn₄, rfl⟩ := FlowGraph.inst_eq_ok.mp htaken.inst
    have hmem : i ∈ g₄.insts b := by rwa [FlowGraph.insts, h₄.layout, ← h₃.layout]
    have hcheck := hfree.of_onlyClasses h₄ b (h₄.reversePostorder ▸ hb) i hmem n₄ hn₄
    rw [isCheck_of_outcome? htaken.decided] at hcheck
    cases hcheck
  · exact (hset g₄ i _ h₄).post_of_ok hrun

theorem settle_unsettled (hround : visitBlocks h g = .ok (true, g')) (hback : visitBlocks h g' = .ok (true, g))
    (rounds : Nat) : settle h rounds g = .error .unsettled ∧ settle h rounds g' = .error .unsettled := by
  induction rounds with
  | zero => exact ⟨rfl, rfl⟩
  | succ rounds ih =>
    rw [settle_of_changed hround, settle_of_changed hback, ih.1, ih.2]
    exact ⟨rfl, rfl⟩

theorem settle_unsettled_of_changed (hround : visitBlocks h g = .ok (true, g'))
    (hrest : ∀ rounds, settle h rounds g' = .error .unsettled) (rounds : Nat) :
    settle h rounds g = .error .unsettled := by
  cases rounds with
  | zero => rfl
  | succ rounds =>
    rw [settle_of_changed hround, hrest]
    rfl

/-- A loop that passes the values of three variables around. All of them are small integers, and one is asserted to be
an integer on the way. -/
def rotatingLoop : Build Unit := do
  let header ← Build.joinBlock
  let body ← Build.targetBlock
  let exit ← Build.targetBlock
  discard <| Build.storeLocal 1 (← Build.smi 0)
  discard <| Build.storeLocal 2 (← Build.smi 0)
  discard <| Build.storeLocal 3 (← Build.smi 0)
  discard <| Build.goto header
  Build.appendTo header
  discard <| Build.branchIf (← Build.loadLocal 0) body exit
  Build.appendTo body
  let first ← Build.loadLocal 1
  discard <| Build.storeLocal 1 (← Build.loadLocal 2)
  discard <| Build.storeLocal 2 (← Build.loadLocal 3)
  discard <| Build.storeLocal 3 (← Build.inst (.assertAssignable .int first))
  discard <| Build.goto header
  Build.appendTo exit
  discard <| Build.returnValue (← Build.loadLocal 1)

def rotatingHolds : Except Fault Bool := do
  let ((), raw) ← rotatingLoop.run (FlowGraph.new "f" 1 3)
  let (result, g) ← Ssa.construct.run raw
  let (_, g₀) ← visitParameters {} g
  let (changed₁, g₁) ← visitBlocks .core g₀
  let (changed₂, g₂) ← visitBlocks .core g₁
  let (changed₃, g₃) ← visitBlocks .core g₂
  let (changed₄, g₄) ← visitBlocks .core g₃
  return result.isOk && (← g.check).isEmpty && changed₁ && changed₂ && changed₃ && changed₄ && decide (CheckFree g₂) &&
    decide (g₄.nodes.map Node.cls = g₂.nodes.map Node.cls)

/-- In the first round the assertion goes, because the first phi has the class of small integers then. Without it the
phis disagree, and each following round turns two of them up and one down, or one up and two down. -/
theorem rotatingLoop_never_settles : ∃ raw g g₀, rotatingLoop.run (FlowGraph.new "f" 1 3) = .ok ((), raw) ∧
    Ssa.construct.run raw = .ok (.ok (), g) ∧ g.Consistent ∧ (∃ changed, visitParameters {} g = .ok (changed, g₀)) ∧
    ∀ rounds, settle .core rounds g₀ = .error .unsettled := by
  have hholds : rotatingHolds = .ok true := by
    have h : rotatingHolds.toOption = some true := by decide +kernel
    exact toOption_eq_some_iff.mp h
  simp only [rotatingHolds, bind_eq_ok, pure_eq_ok, Bool.and_eq_true, List.isEmpty_iff, decide_eq_true_eq] at hholds
  obtain ⟨⟨⟨⟩, raw⟩, hraw, ⟨result, g⟩, hg, ⟨changed, g₀⟩, hg₀, ⟨changed₁, g₁⟩, hg₁, ⟨changed₂, g₂⟩, hg₂,
    ⟨changed₃, g₃⟩, hg₃, ⟨changed₄, g₄⟩, hg₄, found, hfound, ⟨⟨⟨⟨⟨⟨⟨hok, rfl⟩, rfl⟩, rfl⟩, rfl⟩, rfl⟩, hfree⟩, hcls⟩⟩ :=
    hholds
  have hresult : result = .ok () := by cases result <;> simp_all [Except.isOk, Except.toBool]
  have h₃ : OnlyClasses g₂ g₃ := (onlyClasses_visitBlocks hfree).post_of_ok hg₃
  have h₄ : OnlyClasses g₃ g₄ := (onlyClasses_visitBlocks (hfree.of_onlyClasses h₃)).post_of_ok hg₄
  obtain rfl : g₄ = g₂ := (h₃.trans h₄).eq_of_classes hcls
  refine ⟨raw, g, g₀, hraw, hresult ▸ hg, hfound, ⟨changed, hg₀⟩, ?_⟩
  refine settle_unsettled_of_changed hg₁ (settle_unsettled_of_changed hg₂ fun rounds => ?_)
  exact (settle_unsettled hg₃ hg₄ rounds).1

end Classes

end Midend
