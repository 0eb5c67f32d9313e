import Midend.Proofs.Builder
import Midend.Proofs.Representations.Converting

/-! # Selecting representations

The phis are decided first. Then all definitions are converted, and in the end every reader reads what it expects.
-/

namespace Midend

namespace Representations

open FlowGraph Execution Ssa

variable {g₀ g g' : FlowGraph} {b c p : BlockId} {d e i phi : InstId} {n m : Node} {u : Use} {ctx : Context}

/-! ## All definitions -/

theorem leads_each {α : Type} {xs : List α} {f : α → Edit Bool} (goal : α → FlowGraph → Prop)
    (hkeeps : ∀ x g g', goal x g → Advances g g' → goal x g') (hg : Converting g₀ g)
    (hf : ∀ x ∈ xs, ∀ g', Converting g₀ g' → Advances g g' →
      Leads False g' (f x) fun _ g'' => Converting g₀ g'' ∧ Advances g' g'' ∧ goal x g'') :
    Leads False g (anyChange xs f) fun _ g' => Converting g₀ g' ∧ Advances g g' ∧ ∀ x ∈ xs, goal x g' := by
  refine Leads.anyChange (fun done _ g' => Converting g₀ g' ∧ Advances g g' ∧ ∀ x ∈ done, goal x g')
    ⟨hg, .refl hg.linked, by simp⟩ ?_
  rintro done x rest _ g' hxs ⟨hg', hadvances, hdone⟩
  refine (hf x (by simp [hxs]) g' hg' hadvances).mono ?_
  rintro _ g'' ⟨hg'', hadvances', hx⟩
  refine ⟨hg'', hadvances.trans hadvances', fun y hy => ?_⟩
  obtain hy | hy := List.mem_append.mp hy
  · exact hkeeps y g' g'' (hdone y hy) hadvances'
  · obtain rfl := List.mem_singleton.mp hy
    exact hx

theorem leads_convertInitial (hg₀ : Linked g₀) (hg : Converting g₀ g) :
    Leads False g (anyChange g.initialDefinitions convertUses) fun _ g' =>
      Converting g₀ g' ∧ Advances g g' ∧ ∀ d ∈ g.initialDefinitions, Settled g' d := by
  refine leads_each (fun d g' => Settled g' d) (fun d g g' h hadvances => h.advances hadvances) hg fun d hd g' hg'
    hadvances => ?_
  have hvalue : Value g' d := hg.linked.value_mono hadvances.toGrows (.inl hd)
  obtain ⟨n, hn, hgiven⟩ := hg'.linked.initial d
    ((hadvances.mem_initial_iff (hg.linked.lt_size_of_value (.inl hd))).mpr hd)
  exact leads_convertUses hg₀ hg' hvalue hn (Inst.isDefinition_of_isGiven hgiven)

def BlockSettled (g : FlowGraph) (b : BlockId) (g' : FlowGraph) : Prop :=
  ∀ d n, d ∈ g.insts b ∨ LivePhi g b d → g.nodes[d.index]? = some n → n.inst.isDefinition = true → Settled g' d

theorem leads_convertBlock (hg₀ : Linked g₀) (hg : Converting g₀ g) (hb : b ∈ g.reversePostorder) :
    Leads False g (convertBlock b) fun _ g' => Converting g₀ g' ∧ Advances g g' ∧ BlockSettled g b g' := by
  obtain ⟨k, hk, hphis⟩ := hg.linked.phis b hb
  unfold convertBlock
  rw [Leads.bind_iff, Leads.get_iff, Leads.bind_iff, Leads.lift_iff, phis_eq_ok.mpr ⟨k, hk, rfl⟩, Yields.ok_iff,
    Leads.bind_iff]
  refine (leads_each (fun phi g' => LivePhi g b phi → Settled g' phi)
    (fun phi g g' h hadvances hphi => (h hphi).advances hadvances) hg fun phi hphi g' hg' hadvances => ?_).mono ?_
  · have hlt := hphis phi hphi
    have hn := Array.getElem?_eq_getElem (hadvances.lt_size hlt)
    rw [Leads.bind_iff, Leads.get_iff, Leads.bind_iff, Leads.lift_iff, isAlivePhi_eq_ok.mpr ⟨_, hn, rfl⟩, Yields.ok_iff]
    refine Leads.ite_iff.mpr ⟨fun halive => ?_, fun hdead => ?_⟩
    · have hlive : LivePhi g' b phi :=
        ⟨by rwa [hadvances.phisOf_eq, phisOf_eq hk], aliveIn_iff.mpr ⟨_, hn, halive⟩⟩
      refine (leads_convertUses hg₀ hg' (.inr ⟨b, hadvances.order_eq ▸ hb, .inr hlive⟩) hn
        (Inst.isDefinition_of_isAlivePhi halive)).mono ?_
      exact fun _ g'' ⟨hg'', hadvances', hsettled⟩ => ⟨hg'', hadvances', fun _ => hsettled⟩
    · refine ⟨hg', .refl hg'.linked, fun hlive => absurd ?_ hdead⟩
      obtain ⟨m, hm, halive⟩ := Definite.exists_alive ((hadvances.livePhi_iff hlt).mpr hlive)
      obtain rfl := Option.some_inj.mp (hn.symm.trans hm)
      exact halive
  rintro _ g' ⟨hg', hadvances, hsettled⟩
  rw [Leads.bind_iff, Leads.get_iff, Leads.bind_iff]
  refine (leads_each (fun i g'' => ∀ n, g'.nodes[i.index]? = some n → n.inst.isDefinition = true → Settled g'' i)
    (by exact fun i g₁ g₂ h hadvances n hn hdef => (h n hn hdef).advances hadvances) hg'
    fun i hi g₁ hg₁ hadvances₁ => ?_).mono ?_
  · have hlt := hg'.linked.bounded b i hi
    have hn := Array.getElem?_eq_getElem (hadvances₁.lt_size hlt)
    rw [Leads.bind_iff, Leads.get_iff, Leads.bind_iff, Leads.lift_iff, inst_eq_ok.mpr ⟨_, hn, rfl⟩, Yields.ok_iff]
    refine Leads.ite_iff.mpr ⟨fun hdef => ?_, fun hnot => ?_⟩
    · have hvalue : Value g₁ i := .inr ⟨b, by rwa [hadvances₁.order_eq, hadvances.order_eq],
        .inl ((hadvances₁.mem_insts_iff hlt).mpr hi)⟩
      refine (leads_convertUses hg₀ hg₁ hvalue hn hdef).mono ?_
      exact fun _ g'' ⟨hg'', hadvances', hsettled⟩ => ⟨hg'', hadvances', fun _ _ _ => hsettled⟩
    · refine ⟨hg₁, .refl hg₁.linked, fun m hm hdef => absurd ?_ hnot⟩
      obtain ⟨m', hm', ⟨f, hf⟩, -⟩ := hadvances₁.nodes i m hm
      obtain rfl := Option.some_inj.mp (hn.symm.trans hm')
      rwa [hf, Inst.isDefinition_mapArgs]
  rintro _ g'' ⟨hg'', hadvances', hsettled'⟩
  refine ⟨hg'', hadvances.trans hadvances', fun d n hd hn hdef => ?_⟩
  obtain hd | hd := hd
  · have hlt := hg.linked.bounded b d hd
    obtain ⟨n', hn', ⟨f, hf⟩, -⟩ := hadvances.nodes d n hn
    exact hsettled' d ((hadvances.mem_insts_iff hlt).mpr hd) n' hn' (by rwa [hf, Inst.isDefinition_mapArgs])
  · exact (hsettled d (by rw [← phisOf_eq hk]; exact hd.1) hd).advances hadvances'

def AllSettled (g : FlowGraph) : Prop :=
  ∀ d n, Value g d → g.nodes[d.index]? = some n → n.inst.isDefinition = true → Settled g d

theorem leads_convertAll (hg : Linked g) (f : Bool → Bool → Bool) : Leads False g (do
      let initial ← anyChange (← get).initialDefinitions convertUses
      let blocks ← anyChange (← get).reversePostorder convertBlock
      return f initial blocks) fun _ g' => Converting g g' ∧ AllSettled g' := by
  rw [Leads.bind_iff, Leads.get_iff, Leads.bind_iff]
  refine (leads_convertInitial hg (.refl hg)).mono ?_
  rintro _ g₁ ⟨hg₁, -, hinitial⟩
  rw [Leads.bind_iff, Leads.get_iff, Leads.bind_iff]
  refine (leads_each (fun b g' => BlockSettled g₁ b g')
    (fun b g g' h hadvances d n hd hn hdef => (h d n hd hn hdef).advances hadvances) hg₁ fun b hb g' hg' hadvances =>
    ?_).mono ?_
  · refine (leads_convertBlock hg hg' (hadvances.order_eq ▸ hb)).mono ?_
    rintro _ g'' ⟨hg'', hadvances', hsettled⟩
    refine ⟨hg'', hadvances', fun d n hd hn hdef => ?_⟩
    have hlt := (Array.getElem?_eq_some_iff.mp hn).1
    obtain ⟨n', hn', ⟨f, hf⟩, -⟩ := hadvances.nodes d n hn
    refine hsettled d n' ?_ hn' (by rwa [hf, Inst.isDefinition_mapArgs])
    rwa [hadvances.mem_insts_iff hlt, hadvances.livePhi_iff hlt]
  · rintro _ g' ⟨hg', hadvances, hblocks⟩
    refine ⟨hg', fun d n hd hn hdef => ?_⟩
    obtain hlt | hge := Nat.lt_or_ge d.index g.nodes.size
    · obtain hd | ⟨b, hb, hd⟩ := (hg'.value_iff hlt).mp hd
      · exact (hinitial d hd).advances hadvances
      · have hlt₁ := hg₁.lt_size hlt
        have hn₁ := Array.getElem?_eq_getElem hlt₁
        obtain ⟨n', hn', ⟨f, hf⟩, -⟩ := hadvances.nodes d _ hn₁
        obtain rfl := Option.some_inj.mp (hn.symm.trans hn')
        refine hblocks b (hg₁.order_eq ▸ hb) d _ ?_ hn₁ (by rwa [hf, Inst.isDefinition_mapArgs] at hdef)
        rwa [hg₁.mem_insts_iff hlt, hg₁.livePhi_iff hlt]
    · exact hg'.fresh d hge

/-! ## A second time -/

theorem leads_convertBlock_of_settled (hg : Linked g) (hsettled : AllSettled g) (hb : b ∈ g.reversePostorder) :
    Leads False g (convertBlock b) fun changed g' => changed = false ∧ g' = g := by
  obtain ⟨k, hk, hphis⟩ := hg.phis b hb
  unfold convertBlock
  rw [Leads.bind_iff, Leads.get_iff, Leads.bind_iff, Leads.lift_iff, phis_eq_ok.mpr ⟨k, hk, rfl⟩, Yields.ok_iff,
    Leads.bind_iff]
  refine (Leads.anyChange_idle fun phi hphi => ?_).mono ?_
  · have hn := Array.getElem?_eq_getElem (hphis phi hphi)
    rw [Leads.bind_iff, Leads.get_iff, Leads.bind_iff, Leads.lift_iff, isAlivePhi_eq_ok.mpr ⟨_, hn, rfl⟩, Yields.ok_iff]
    refine Leads.ite_iff.mpr ⟨fun halive => ?_, fun _ => ⟨rfl, rfl⟩⟩
    have hvalue : Value g phi := .inr ⟨b, hb, .inr ⟨by rwa [phisOf_eq hk], aliveIn_iff.mpr ⟨_, hn, halive⟩⟩⟩
    exact leads_convertUses_of_settled hg hvalue (hsettled phi _ hvalue hn (Inst.isDefinition_of_isAlivePhi halive))
  rintro _ _ ⟨rfl, rfl⟩
  rw [Leads.bind_iff, Leads.get_iff, Leads.bind_iff]
  refine (Leads.anyChange_idle fun i hi => ?_).mono ?_
  · have hn := Array.getElem?_eq_getElem (hg.bounded b i hi)
    rw [Leads.bind_iff, Leads.get_iff, Leads.bind_iff, Leads.lift_iff, inst_eq_ok.mpr ⟨_, hn, rfl⟩, Yields.ok_iff]
    refine Leads.ite_iff.mpr ⟨fun hdef => ?_, fun _ => ⟨rfl, rfl⟩⟩
    have hvalue : Value _ i := .inr ⟨b, hb, .inl hi⟩
    exact leads_convertUses_of_settled hg hvalue (hsettled i _ hvalue hn hdef)
  · rintro _ _ ⟨rfl, rfl⟩
    exact ⟨rfl, rfl⟩

/-! ## Phis -/

/-- The nodes differ in their representation at most. -/
structure SameShape (n n' : Node) : Prop where
  args : n'.inst.args = n.inst.args
  opcode : n'.inst.opcode = n.inst.opcode
  alive : n'.inst.isAlivePhi = n.inst.isAlivePhi
  given : n'.inst.isGiven = n.inst.isGiven
  successors : n'.inst.successors = n.inst.successors
  block : n'.block = n.block
  uses : n'.inputUses = n.inputUses

/-- Nothing but representations differs from `g` to `g'`. -/
structure Reshaped (g g' : FlowGraph) : Prop where
  nodes : Changes g g' fun _ n n' => SameShape n n'
  blocks : g'.blocks = g.blocks
  layout : g'.layout = g.layout
  postorder : g'.postorder = g.postorder
  catchEntries : g'.catchEntries = g.catchEntries
  initial : g'.initialDefinitions = g.initialDefinitions

namespace Reshaped

theorem refl (g : FlowGraph) : Reshaped g g where
  nodes := ⟨rfl, fun _ n hn => ⟨n, hn, rfl, rfl, rfl, rfl, rfl, rfl, rfl⟩⟩
  blocks := rfl
  layout := rfl
  postorder := rfl
  catchEntries := rfl
  initial := rfl

theorem trans {g₁ g₂ g₃ : FlowGraph} (h : Reshaped g₁ g₂) (h' : Reshaped g₂ g₃) : Reshaped g₁ g₃ where
  nodes := by
    refine ⟨h'.nodes.size.trans h.nodes.size, fun i n'' hn'' => ?_⟩
    obtain ⟨n', hn', hs'⟩ := h'.nodes.node i n'' hn''
    obtain ⟨n, hn, hs⟩ := h.nodes.node i n' hn'
    exact ⟨n, hn, hs'.args.trans hs.args, hs'.opcode.trans hs.opcode, hs'.alive.trans hs.alive,
      hs'.given.trans hs.given, hs'.successors.trans hs.successors, hs'.block.trans hs.block, hs'.uses.trans hs.uses⟩
  blocks := h'.blocks.trans h.blocks
  layout := h'.layout.trans h.layout
  postorder := h'.postorder.trans h.postorder
  catchEntries := h'.catchEntries.trans h.catchEntries
  initial := h'.initial.trans h.initial

variable (h : Reshaped g g')

include h

theorem order_eq : g'.reversePostorder = g.reversePostorder := by unfold reversePostorder; rw [h.postorder]

theorem insts_eq (b : BlockId) : g'.insts b = g.insts b := by unfold FlowGraph.insts; rw [h.layout]

theorem lastInst_eq (b : BlockId) : g'.lastInst b = g.lastInst b := by unfold FlowGraph.lastInst; rw [h.layout]

theorem preds_eq (b : BlockId) : g'.preds b = g.preds b := by unfold FlowGraph.preds FlowGraph.block; rw [h.blocks]

theorem phisOf_eq (b : BlockId) : phisOf g' b = phisOf g b := by unfold phisOf; rw [h.blocks]

theorem livePhi_iff : LivePhi g' b d ↔ LivePhi g b d := by
  unfold LivePhi
  rw [h.phisOf_eq, aliveIn_iff, aliveIn_iff]
  refine and_congr_right fun _ => ⟨fun ⟨n', hn', halive⟩ => ?_, fun ⟨n, hn, halive⟩ => ?_⟩
  · obtain ⟨n, hn, hs⟩ := h.nodes.node d n' hn'
    exact ⟨n, hn, hs.alive ▸ halive⟩
  · obtain ⟨n', hn', hs⟩ := h.nodes.exists_node hn
    exact ⟨n', hn', hs.alive ▸ halive⟩

theorem next_eq (b : BlockId) : g'.next b = g.next b := by
  refine next_congr h.catchEntries (h.lastInst_eq b) fun i _ => ?_
  cases hn : g.nodes[i.index]? with
  | none => rw [Array.getElem?_eq_none (h.nodes.size ▸ Array.getElem?_eq_none_iff.mp hn)]
  | some n =>
    obtain ⟨n', hn', hs⟩ := h.nodes.exists_node hn
    rw [hn', Option.map_some, Option.map_some, hs.successors]

theorem reader_iff : Reader g' i ↔ Reader g i := by
  unfold Reader
  simp only [h.order_eq, h.insts_eq, h.livePhi_iff]

theorem value_iff : Value g' d ↔ Value g d := by
  unfold Value
  rw [h.initial, h.reader_iff]

theorem conversionPoint?_eq (hn : g.nodes[u.user.index]? = some n) : conversionPoint? g' u = conversionPoint? g u := by
  obtain ⟨n', hn', hs⟩ := h.nodes.exists_node hn
  have hlast : g'.lastInst = g.lastInst := funext h.lastInst_eq
  have hplaced : g'.isPlaced u.user = g.isPlaced u.user := by unfold FlowGraph.isPlaced; rw [h.layout]
  unfold conversionPoint?
  rw [opcode_eq_ok.mpr ⟨n', hn', hs.opcode⟩, opcode_eq_ok.mpr ⟨n, hn, rfl⟩, isAlivePhi_eq_ok.mpr ⟨n', hn', hs.alive⟩,
    isAlivePhi_eq_ok.mpr ⟨n, hn, rfl⟩, instBlock_eq_ok.mpr ⟨n', hn', hs.block⟩, instBlock_eq_ok.mpr ⟨n, hn, rfl⟩]
  simp only [h.preds_eq, hlast, hplaced]

theorem linked (hg : Linked g) : Linked g' where
  sound := h.layout ▸ hg.sound
  bounded b i hi := h.nodes.size ▸ hg.bounded b i (h.insts_eq b ▸ hi)
  initial d hd := by
    obtain ⟨n, hn, hgiven⟩ := hg.initial d (h.initial ▸ hd)
    obtain ⟨n', hn', hs⟩ := h.nodes.exists_node hn
    exact ⟨n', hn', hs.given.trans hgiven⟩
  phis b hb := by
    obtain ⟨k, hk, hall⟩ := hg.phis b (h.order_eq ▸ hb)
    exact ⟨k, h.blocks ▸ hk, fun phi hphi => h.nodes.size ▸ hall phi hphi⟩
  apart b i hi n' hn' := by
    obtain ⟨n, hn, hs⟩ := h.nodes.node i n' hn'
    rw [hs.opcode]
    exact hg.apart b i (h.insts_eq b ▸ hi) n hn
  ends b hb phi hphi := by
    obtain ⟨n, ps, hn, hblock, hps, hlen, hall⟩ := hg.ends b (h.order_eq ▸ hb) phi (h.livePhi_iff.mp hphi)
    obtain ⟨n', hn', hs⟩ := h.nodes.exists_node hn
    refine ⟨n', ps, hn', hs.block.trans hblock, (h.preds_eq b).trans hps, by rw [hs.args, hlen], fun p hp => ?_⟩
    rw [h.order_eq, h.lastInst_eq]
    exact hall p hp
  inputs i hi := by
    obtain ⟨n, hn, hargs⟩ := hg.inputs i (h.reader_iff.mp hi)
    obtain ⟨n', hn', hs⟩ := h.nodes.exists_node hn
    refine ⟨n', hn', fun k d hk => ?_⟩
    obtain ⟨hd, m, hm, hdef, hmem⟩ := hargs k d (hs.args ▸ hk)
    obtain ⟨m', hm', hs'⟩ := h.nodes.exists_node hm
    refine ⟨h.value_iff.mpr hd, m', hm', ?_, hs'.uses ▸ hmem⟩
    unfold Inst.isDefinition at *
    rwa [hs'.opcode]
  uses d n' hd hn' u hu := by
    obtain ⟨n, hn, hs⟩ := h.nodes.node d n' hn'
    obtain ⟨⟨l, point, hl, hpoint, hlen⟩, hused⟩ := hg.uses d n (h.value_iff.mp hd) hn u (hs.uses ▸ hu)
    obtain ⟨l', hl', hs'⟩ := h.nodes.exists_node hl
    refine ⟨⟨l', point, hl', (h.conversionPoint?_eq hl).trans hpoint, hs'.args ▸ hlen⟩, fun r e hr hpoint' => ?_⟩
    obtain rfl := Option.some_inj.mp (hl'.symm.trans hr)
    rw [hs'.args]
    exact hused l e hl (h.conversionPoint?_eq hl ▸ hpoint')

end Reshaped

/-- A phi of which the class asks for a representation has it. -/
def Chosen (unboxedMints : Bool) (g : FlowGraph) (phi : InstId) : Prop :=
  ∀ n r, g.nodes[phi.index]? = some n → n.inst.isPhi = true → unboxed? unboxedMints (n.cls.getD n.ownClass) = some r →
    n.inst.representation = r

theorem Chosen.grows {mints : Bool} (hphi : Chosen mints g phi) (h : Grows g g') (hlt : phi.index < g.nodes.size) :
    Chosen mints g' phi := by
  intro n' r hn' hisPhi hr
  have hn := Array.getElem?_eq_getElem hlt
  obtain ⟨n'', hn'', ⟨f, hf⟩, -, hcls⟩ := h.nodes phi _ hn
  obtain rfl := Option.some_inj.mp (hn'.symm.trans hn'')
  rw [hf, Inst.representation_mapArgs]
  refine hphi _ r hn (by rwa [hf, Inst.isPhi_mapArgs] at hisPhi) ?_
  unfold Node.ownClass at *
  rwa [hf, Inst.opcode_mapArgs, Inst.resultClass_mapArgs, hcls] at hr

theorem leads_unboxPhi {mints : Bool} (hlt : phi.index < g.nodes.size) :
    Leads False g (unboxPhi mints phi) fun changed g' => (Chosen mints g phi ∧ changed = false ∧ g' = g) ∨
      (¬ Chosen mints g phi ∧ Reshaped g g' ∧ ∀ x, x = phi ∨ Chosen mints g x → Chosen mints g' x) := by
  obtain ⟨n, hn⟩ : ∃ n, g.nodes[phi.index]? = some n := ⟨_, Array.getElem?_eq_getElem hlt⟩
  have hcls : g.classOf phi = .ok (n.cls.getD n.ownClass) := by
    unfold classOf
    rw [node_eq_ok.mpr hn]
    rfl
  unfold unboxPhi
  rw [Leads.bind_iff, Leads.get_iff, Leads.bind_iff, Leads.lift_iff, hcls, Yields.ok_iff]
  have hidle (hr : ∀ r, unboxed? mints (n.cls.getD n.ownClass) = some r → n.inst.isPhi = true →
    n.inst.representation = r) :
      Chosen mints g phi := by
    intro m r hm hisPhi hr'
    obtain rfl := Option.some_inj.mp (hn.symm.trans hm)
    exact hr r hr' hisPhi
  cases hwants : unboxed? mints (n.cls.getD n.ownClass) with
  | none => exact .inl ⟨hidle (by simp [hwants]), rfl, rfl⟩
  | some unboxed =>
    dsimp only
    rw [Leads.bind_iff, Leads.lift_iff, inst_eq_ok.mpr ⟨n, hn, rfl⟩, Yields.ok_iff]
    split
    case h_2 hnot =>
      refine .inl ⟨hidle fun r _ hisPhi => ?_, rfl, rfl⟩
      cases hinst : n.inst with
      | phi slot inputs alive r => exact absurd hinst (hnot slot inputs alive r)
      | _ => simp [hinst, Inst.isPhi] at hisPhi
    case h_1 slot inputs alive r hinst =>
      refine Leads.ite_iff.mpr ⟨fun hr => ?_, fun hr => ?_⟩
      · refine .inl ⟨hidle fun r' hr' _ => ?_, rfl, rfl⟩
        rw [hinst, ← Option.some_inj.mp (hwants.symm.trans hr')]
        exact hr
      rw [Leads.bind_iff, Edit.setInst, Leads.modifyNode_iff]
      refine ⟨fun _ => .inr ⟨fun hchosen => hr ?_, ⟨?_, rfl, rfl, rfl, rfl, rfl⟩, fun x hx m r' hm hisPhi hr' => ?_⟩,
        fun h => absurd hlt (Nat.not_lt.mpr h)⟩
      · have := hchosen n unboxed hn (by rw [hinst]; rfl) hwants
        rwa [hinst] at this
      · refine ⟨size_withNode _ _, fun i m hm => ?_⟩
        rw [nodes_withNode] at hm
        obtain ⟨l, hl, rfl⟩ := Option.map_eq_some_iff.mp hm
        refine ⟨l, hl, ?_⟩
        split
        case isTrue hi =>
          subst hi
          obtain rfl := Option.some_inj.mp (hn.symm.trans hl)
          constructor <;> simp only [hinst] <;> rfl
        case isFalse => exact ⟨rfl, rfl, rfl, rfl, rfl, rfl, rfl⟩
      · rw [nodes_withNode] at hm
        obtain ⟨l, hl, rfl⟩ := Option.map_eq_some_iff.mp hm
        by_cases hxphi : x = phi
        · subst hxphi
          obtain rfl := Option.some_inj.mp (hn.symm.trans hl)
          rw [if_pos rfl] at hr' ⊢
          refine Option.some_inj.mp (hwants.symm.trans ?_)
          rw [← hr']
          simp only [Node.ownClass, hinst, Inst.opcode]
        · rw [if_neg hxphi] at hisPhi hr' ⊢
          exact hx.resolve_left hxphi l r' hl hisPhi hr'

theorem leads_unboxPhis {mints : Bool} (hg : Linked g) :
    Leads False g (unboxPhis mints) fun _ g' => Reshaped g g' ∧
      ∀ b ∈ g'.reversePostorder, ∀ phi ∈ phisOf g' b, Chosen mints g' phi := by
  unfold unboxPhis
  rw [Leads.bind_iff, Leads.get_iff]
  refine (Leads.anyChange (fun done _ g' => Reshaped g g' ∧ ∀ b ∈ done, ∀ phi ∈ phisOf g b, Chosen mints g' phi)
    ⟨.refl g, by simp⟩ ?_).mono ?_
  · rintro done b rest _ g₁ hblocks ⟨h₁, hdone⟩
    have hb : b ∈ g.reversePostorder := by simp [hblocks]
    obtain ⟨k, hk, hphis⟩ := hg.phis b hb
    rw [Leads.bind_iff, Leads.get_iff, Leads.bind_iff, Leads.lift_iff, phis_eq_ok.mpr ⟨k, h₁.blocks ▸ hk, rfl⟩,
      Yields.ok_iff]
    refine (Leads.anyChange (fun done' _ g' => Reshaped g g' ∧ (∀ x, Chosen mints g₁ x → Chosen mints g' x) ∧
      ∀ phi ∈ done', Chosen mints g' phi) ⟨h₁, fun _ hx => hx, by simp⟩ ?_).mono ?_
    · rintro done' phi rest' _ g₂ hphis' ⟨h₂, hkept, hdone'⟩
      have hlt : phi.index < g₂.nodes.size := h₂.nodes.size ▸ hphis phi (by simp [hphis'])
      refine (leads_unboxPhi hlt).mono ?_
      rintro _ g₃ (⟨hchosen, -, rfl⟩ | ⟨-, h₃, hmore⟩)
      · refine ⟨h₂, hkept, fun x hx => ?_⟩
        obtain hx | hx := List.mem_append.mp hx
        · exact hdone' x hx
        · rwa [List.mem_singleton.mp hx]
      · refine ⟨h₂.trans h₃, fun x hx => hmore x (.inr (hkept x hx)), fun x hx => ?_⟩
        obtain hx | hx := List.mem_append.mp hx
        · exact hmore x (.inr (hdone' x hx))
        · exact hmore x (.inl (List.mem_singleton.mp hx))
    · rintro _ g₂ ⟨h₂, hkept, hall⟩
      refine ⟨h₂, fun b' hb' phi hphi => ?_⟩
      obtain hb' | hb' := List.mem_append.mp hb'
      · exact hkept phi (hdone b' hb' phi hphi)
      · obtain rfl := List.mem_singleton.mp hb'
        exact hall phi (by rwa [phisOf_eq hk] at hphi)
  · rintro _ g' ⟨h, hall⟩
    refine ⟨h, fun b hb phi hphi => hall b (h.order_eq ▸ hb) phi (h.phisOf_eq b ▸ hphi)⟩

theorem leads_unboxPhis_of_chosen {mints : Bool} (hg : Linked g)
    (hall : ∀ b ∈ g.reversePostorder, ∀ phi ∈ phisOf g b, Chosen mints g phi) :
    Leads False g (unboxPhis mints) fun changed g' => changed = false ∧ g' = g := by
  unfold unboxPhis
  rw [Leads.bind_iff, Leads.get_iff]
  refine Leads.anyChange_idle fun b hb => ?_
  obtain ⟨k, hk, hphis⟩ := hg.phis b hb
  rw [Leads.bind_iff, Leads.get_iff, Leads.bind_iff, Leads.lift_iff, phis_eq_ok.mpr ⟨k, hk, rfl⟩, Yields.ok_iff]
  refine Leads.anyChange_idle fun phi hphi => (leads_unboxPhi (hphis phi hphi)).mono ?_
  rintro _ _ (⟨-, rfl, rfl⟩ | ⟨hnot, -⟩)
  · exact ⟨rfl, rfl⟩
  · exact absurd (hall b hb phi (by rwa [phisOf_eq hk])) hnot

/-! ## Graphs in SSA form -/

/-- Control comes to `i`, which is an instruction or a live phi of `b`. -/
def Read (g : FlowGraph) (b : BlockId) (i : InstId) : Prop := g.Reachable b ∧ (i ∈ g.insts b ∨ LivePhi g b i)

def ReadsDefinitions (g : FlowGraph) : Prop :=
  ∀ b i n, Read g b i → g.nodes[i.index]? = some n → ∀ d ∈ n.inst.args, ∀ m, g.nodes[d.index]? = some m →
    m.inst.isDefinition = true

theorem predsOf_eq {ps : List BlockId} (h : g.preds b = .ok ps) : predsOf g b = ps := by
  obtain ⟨k, hk, rfl⟩ := preds_eq_ok.mp h
  unfold predsOf
  rw [hk]
  rfl

section Definite

variable (hg : Definite g)

include hg

theorem reader_of_definite : Reader g i ↔ ∃ b, Read g b i := by
  refine ⟨fun ⟨b, hb, hi⟩ => ⟨b, hg.reachable_of_mem_order hb, hi⟩, fun ⟨b, hb, hi⟩ => ⟨b, hg.mem_order hb, hi⟩⟩

theorem value_of_arrived {path : List BlockId} (hpath : g.IsPath path)
    (hd : d ∈ g.arrived path ++ g.insts (path.headD graphEntry)) : Value g d := by
  obtain hd | hd := List.mem_append.mp hd
  · obtain ⟨a, ha, hd⟩ := exists_of_mem_arrived hd
    obtain ⟨-, back, -, hback, rfl⟩ := hpath.suffix ha
    refine .inr ⟨_, hg.mem_order hback.reachable, hd.imp_right fun hd => ?_⟩
    obtain ⟨ps, -, hphi⟩ := live_iff.mp hd
    exact hphi
  · exact .inr ⟨_, hg.mem_order hpath.reachable, .inl hd⟩

theorem value_of_input (hi : Read g b i) (hn : g.nodes[i.index]? = some n) {k : Nat} (hk : n.inst.args[k]? = some d) :
    Value g d := by
  obtain ⟨hb, hi | hphi⟩ := hi
  · obtain ⟨path, hpath, rfl⟩ := exists_path_of_reachable hb
    obtain ⟨front, back, hsplit⟩ := List.append_of_mem hi
    obtain ⟨m, hm, hall⟩ := hg.reads.inputs path hpath (hg.ne_graphEntry hi) front i back hsplit
    obtain rfl := Option.some_inj.mp (hn.symm.trans hm)
    obtain hd | hd := hall d (List.mem_of_getElem? hk)
    · exact .inl hd
    · refine value_of_arrived hg hpath (List.mem_append.mpr ((List.mem_append.mp hd).imp_right fun hd => ?_))
      rw [hsplit]
      exact List.mem_append_left _ hd
  · obtain ⟨⟨as, ps, has, hps, hlen⟩, -⟩ := hg.phi_holds hb hphi
    obtain ⟨m, hm, rfl⟩ := args_eq_ok.mp has
    obtain rfl := Option.some_inj.mp (hn.symm.trans hm)
    obtain ⟨p, hp⟩ : ∃ p, ps[k]? = some p :=
      ⟨_, List.getElem?_eq_getElem (hlen ▸ (List.getElem?_eq_some_iff.mp hk).1)⟩
    obtain ⟨hreach, hedge⟩ := hg.edge_of_mem_preds hb (predsOf_eq hps ▸ List.mem_of_getElem? hp)
    obtain ⟨path, hpath, hhead⟩ := exists_path_of_reachable hreach
    obtain ⟨ps', hps', -, hall⟩ := hg.reads.edges path b hpath (hhead ▸ hedge)
    obtain rfl := Except.ok.inj (hps.symm.trans hps')
    obtain ⟨as, has', hall⟩ := hall i (hg.live_of_livePhi hb hphi)
    obtain rfl := Except.ok.inj (has.symm.trans has')
    obtain ⟨d', hd', hd⟩ := hall k (hp.trans (congrArg some hhead.symm))
    obtain rfl := Option.some_inj.mp (hk.symm.trans hd')
    exact hd.elim .inl (value_of_arrived hg hpath)

theorem convertible_of_use (hu : g.UseHolds d u) : Convertible g u ∧ UsedAt g d u := by
  obtain ⟨n, hn, ⟨hphi, hdead⟩ | ⟨hpresent, harg⟩⟩ := hu
  · have hpoint : conversionPoint? g u = .ok none := by
      unfold conversionPoint?
      rw [opcode_eq_ok.mpr ⟨n, hn, hphi⟩, isAlivePhi_eq_ok.mpr ⟨n, hn, hdead⟩]
      rfl
    refine ⟨⟨n, none, hn, hpoint, fun h => absurd rfl h⟩, fun m e _ he => ?_⟩
    rw [hpoint] at he
    cases he
  have hused : UsedAt g d u := by
    intro m e hm _
    obtain rfl := Option.some_inj.mp (hn.symm.trans hm)
    exact harg
  have hlen := (List.getElem?_eq_some_iff.mp harg).1
  by_cases hphi : n.inst.opcode = .phi
  · obtain ⟨m, a, hm, hblock, hinitial | hplaced | ⟨-, halive, k, hk, -⟩⟩ := hg.located.cases_present hpresent
    · obtain ⟨m', hm', hgiven, -⟩ := hg.initial _ hinitial
      obtain rfl := Option.some_inj.mp (hn.symm.trans hm')
      obtain ⟨c, hc⟩ | ⟨c, hc⟩ := Inst.eq_of_isGiven hgiven <;> simp [hc, Inst.opcode] at hphi
    · exact absurd hphi (hg.phisApart.opcode_ne_phi hg.located hplaced hn)
    · obtain rfl := Option.some_inj.mp (hn.symm.trans hm)
      exact ⟨⟨n, _, hn, conversionPoint?_of_phi hn halive hblock (preds_eq_ok.mpr ⟨k, hk, rfl⟩), fun _ => hlen⟩, hused⟩
  · exact ⟨⟨n, _, hn, conversionPoint?_of_not_phi hn hphi, fun _ => hlen⟩, hused⟩

theorem linked_of_definite (hreads : ReadsDefinitions g) : Linked g where
  sound := hg.located.sound
  bounded _ _ hi := hg.lt_size hi
  initial d hd := by
    obtain ⟨n, hn, hgiven, -⟩ := hg.initial d hd
    exact ⟨n, hn, hgiven⟩
  phis b hb := by
    obtain ⟨ps, hps, -⟩ := (hg.block_holds (hg.reachable_of_mem_order hb)).phis
    obtain ⟨all, hall, -⟩ := livePhis_eq_ok.mp hps
    obtain ⟨k, hk, rfl⟩ := phis_eq_ok.mp hall
    exact ⟨k, hk, fun phi hphi => (hg.located.phis b phi ⟨k, hk, hphi⟩).1⟩
  apart b i hi n hn := hg.phisApart.opcode_ne_phi hg.located hi hn
  ends b hb phi hphi := by
    have hb := hg.reachable_of_mem_order hb
    obtain ⟨⟨as, ps, has, hps, hlen⟩, n, hn, hoperands⟩ := hg.phi_holds hb hphi
    obtain ⟨m, hm, rfl⟩ := args_eq_ok.mp has
    obtain rfl := Option.some_inj.mp (hn.symm.trans hm)
    refine ⟨n, ps, hn, hg.block_of_livePhi hb hphi hn, hps, hlen, fun p hp => ?_⟩
    refine ⟨hg.mem_order (hg.edge_of_mem_preds hb (predsOf_eq hps ▸ hp)).1, ?_⟩
    obtain ⟨k, hk⟩ := List.mem_iff_getElem?.mp hp
    have harg := List.getElem?_eq_getElem (hlen ▸ (List.getElem?_eq_some_iff.mp hk).1 : k < n.inst.args.length)
    obtain ⟨last, hlast, -⟩ :=
      phi_reads hg.located hg.phisApart (hg.live_of_livePhi hb hphi) hps hk (hoperands.inputs k _ harg).arrives
    exact ⟨last, hlast⟩
  inputs i hi := by
    obtain ⟨b, hi⟩ := (reader_of_definite hg).mp hi
    obtain ⟨n, hn, hall⟩ : ∃ n, g.nodes[i.index]? = some n ∧ OperandsHold g i n := by
      obtain ⟨hb, hi | hi⟩ := hi
      · obtain ⟨n, last, hn, -, hholds⟩ := hg.inst_holds hb hi
        exact ⟨n, hn, hholds.operands⟩
      · exact (hg.phi_holds hb hi).operands
    refine ⟨n, hn, fun k d hk => ?_⟩
    obtain ⟨-, ⟨m, hm, hmem⟩, -⟩ := hall.inputs k d hk
    exact ⟨value_of_input hg hi hn hk, m, hm, hreads b i n hi hn d (List.mem_of_getElem? hk) m hm, hmem⟩
  uses d n hd hn u hu := by
    refine convertible_of_use hg ?_
    obtain hd | ⟨b, hb, hd | hd⟩ := hd
    · obtain ⟨m, hm, hall⟩ := (consistent_iff.mp hg.consistent).initial d hd
      obtain rfl := Option.some_inj.mp (hn.symm.trans hm)
      exact hall u hu
    · obtain ⟨m, last, hm, -, hholds⟩ := hg.inst_holds (hg.reachable_of_mem_order hb) hd
      obtain rfl := Option.some_inj.mp (hn.symm.trans hm)
      exact hholds.operands.uses u hu
    · obtain ⟨-, m, hm, hoperands⟩ := hg.phi_holds (hg.reachable_of_mem_order hb) hd
      obtain rfl := Option.some_inj.mp (hn.symm.trans hm)
      exact hoperands.uses u hu

end Definite

/-! ## The stage -/

/-- Every input that is read is in the representation that its reader expects. -/
def Matched (g : FlowGraph) : Prop :=
  ∀ b i n, Read g b i → g.nodes[i.index]? = some n → ∀ k d, n.inst.args[k]? = some d →
    ∃ m, g.nodes[d.index]? = some m ∧ m.inst.representation = n.inst.requiredRepresentation k

/-- Each input of a live phi is what it was, or is converted at the end of the predecessor that it comes from, in front
of the terminator. -/
def ConvertsPhisAtEnds (g g' : FlowGraph) : Prop :=
  ∀ b phi n', g.Reachable b → LivePhi g b phi → g'.nodes[phi.index]? = some n' → ∀ (k : Nat) d,
    n'.inst.args[k]? = some d → (∃ n, g.nodes[phi.index]? = some n ∧ n.inst.args[k]? = some d) ∨
      ∃ p last, (predsOf g b)[k]? = some p ∧ g.lastInst p = some last ∧ EndsBlock g last ∧
        Converts g.nodes.size g' p last d

theorem matched_of_settled (hg : Linked g) (hsettled : AllSettled g)
    (horder : ∀ b, g.Reachable b → b ∈ g.reversePostorder) : Matched g := by
  rintro b i n ⟨hb, hi⟩ hn k d hk
  have hreader : Reader g i := ⟨b, horder b hb, hi⟩
  obtain ⟨n', hn', hargs⟩ := hg.inputs i hreader
  obtain rfl := Option.some_inj.mp (hn.symm.trans hn')
  obtain ⟨hd, m, hm, hdef, hmem⟩ := hargs k d hk
  obtain ⟨n', m', hn', hm', hfits⟩ := hsettled d m hd hm hdef m hm _ hmem
  obtain rfl := Option.some_inj.mp (hn.symm.trans hn')
  obtain rfl := Option.some_inj.mp (hm.symm.trans hm')
  refine ⟨m, hm, hfits.resolve_right fun hnone => ?_⟩
  obtain ⟨e, he, -⟩ := hg.conversionPoint?_of_reader hreader hn (List.getElem?_eq_some_iff.mp hk).1
  rw [hnone] at he
  cases he

end Representations

open Representations FlowGraph Execution Ssa

theorem leads_selectRepresentations (ctx : Context) {g : FlowGraph} (hg : Linked g) :
    Leads False g (selectRepresentations ctx) fun _ g' => ∃ g₁, Reshaped g g₁ ∧ Converting g₁ g' ∧ AllSettled g' ∧
      ∀ b ∈ g'.reversePostorder, ∀ phi ∈ phisOf g' b, Chosen ctx.config.unboxedMints g' phi := by
  unfold selectRepresentations
  rw [Leads.bind_iff]
  refine (leads_unboxPhis hg).mono ?_
  rintro phis g₁ ⟨hshape, hchosen⟩
  refine (leads_convertAll (hshape.linked hg) fun initial blocks => phis || initial || blocks).mono ?_
  rintro _ g' ⟨hg', hsettled⟩
  refine ⟨g₁, hshape, hg', hsettled, fun b hb phi hphi => ?_⟩
  rw [hg'.order_eq] at hb
  rw [hg'.phisOf_eq] at hphi
  exact (hchosen b hb phi hphi).grows hg'.toGrows ((hshape.linked hg).lt_size_of_phi hb hphi)

theorem leads_selectRepresentations_of_settled (ctx : Context) {g : FlowGraph} (hg : Linked g) (hsettled : AllSettled g)
    (hchosen : ∀ b ∈ g.reversePostorder, ∀ phi ∈ phisOf g b, Chosen ctx.config.unboxedMints g phi) :
    Leads False g (selectRepresentations ctx) fun changed g' => changed = false ∧ g' = g := by
  unfold selectRepresentations
  rw [Leads.bind_iff]
  refine (leads_unboxPhis_of_chosen hg hchosen).mono ?_
  rintro _ _ ⟨rfl, rfl⟩
  rw [Leads.bind_iff, Leads.get_iff, Leads.bind_iff]
  refine (Leads.anyChange_idle fun d hd => ?_).mono ?_
  · obtain ⟨n, hn, hgiven⟩ := hg.initial d hd
    exact leads_convertUses_of_settled hg (.inl hd) (hsettled d n (.inl hd) hn (Inst.isDefinition_of_isGiven hgiven))
  rintro _ _ ⟨rfl, rfl⟩
  rw [Leads.bind_iff, Leads.get_iff, Leads.bind_iff]
  refine (Leads.anyChange_idle fun b hb => leads_convertBlock_of_settled hg hsettled hb).mono ?_
  rintro _ _ ⟨rfl, rfl⟩
  exact ⟨rfl, rfl⟩

theorem convertsPhisAtEnds {g g₁ g' : FlowGraph} (hg : Definite g) (hlinked : Linked g) (hshape : Reshaped g g₁)
    (hg' : Converting g₁ g') : ConvertsPhisAtEnds g g' := by
  intro b phi n' hb hphi hn' k d hk
  obtain ⟨n, hn, halive⟩ := Definite.exists_alive hphi
  obtain ⟨n₁, hn₁, hs⟩ := hshape.nodes.exists_node hn
  refine (hg'.inputs phi n₁ n' hn₁ hn' k d hk).imp (fun hk => ⟨n, hn, hs.args ▸ hk⟩) ?_
  rintro ⟨last, p', hpoint, hlast', hconverts⟩
  obtain ⟨m, ps, hm, hblock, hps, -⟩ := hlinked.ends b (hg.mem_order hb) phi hphi
  obtain rfl := Option.some_inj.mp (hn.symm.trans hm)
  rw [hshape.conversionPoint?_eq hn, conversionPoint?_of_phi hn halive hblock hps] at hpoint
  obtain ⟨p, hp, hlast⟩ := Option.bind_eq_some_iff.mp (Except.ok.inj hpoint)
  have hmem : last ∈ g.insts p := List.mem_of_getLast? hlast
  obtain rfl : p' = p := by
    have hmem' : last ∈ g'.insts p := by
      rw [hg'.mem_insts_iff (hshape.nodes.size ▸ hg.lt_size hmem), hshape.insts_eq]
      exact hmem
    exact Option.some_inj.mp ((hg'.linked.sound.mem_iff.mp hlast').symm.trans (hg'.linked.sound.mem_iff.mp hmem'))
  rw [← predsOf_eq hps] at hp
  refine ⟨p', last, hp, hlast, ?_, hshape.nodes.size ▸ hconverts⟩
  obtain ⟨l, last', hl, hlast'', hholds⟩ :=
    hg.inst_holds (hg.edge_of_mem_preds hb (List.mem_of_getElem? hp)).1 hmem
  exact ⟨l, hl, hholds.terminates.mpr (Option.some_inj.mp (hlast.symm.trans hlast''))⟩

/-- Selection ends, and leaves no input in another representation than its reader expects. Conversions for the inputs of
phis are at the ends of the predecessors. Selecting once more changes nothing. -/
theorem selectRepresentations_matches (ctx : Context) {g : FlowGraph} (hg : Definite g) (hreads : ReadsDefinitions g) :
    ∃ changed g', selectRepresentations ctx g = .ok (changed, g') ∧ Matched g' ∧ ConvertsPhisAtEnds g g' ∧
      selectRepresentations ctx g' = .ok (false, g') := by
  have hlinked := linked_of_definite hg hreads
  obtain ⟨⟨changed, g'⟩, hrun, g₁, hshape, hg', hsettled, hchosen⟩ :=
    Yields.exists_ok (leads_selectRepresentations ctx hlinked)
  have hnext : g'.next = g.next := by
    funext b
    refine (hg'.next_eq b fun i hi => ?_).trans (hshape.next_eq b)
    exact (hshape.linked hlinked).bounded b i (List.mem_of_getLast? hi)
  have horder (b : BlockId) (hb : g'.Reachable b) : b ∈ g'.reversePostorder := by
    unfold Reachable Edge at hb
    rw [hnext] at hb
    rw [hg'.order_eq, hshape.order_eq]
    exact hg.mem_order hb
  obtain ⟨⟨again, g''⟩, hrun', rfl, rfl⟩ :=
    Yields.exists_ok (leads_selectRepresentations_of_settled ctx hg'.linked hsettled hchosen)
  exact ⟨changed, g'', hrun, matched_of_settled hg'.linked hsettled horder, convertsPhisAtEnds hg hlinked hshape hg',
    hrun'⟩

/-- Adds the parameter to a double, which starts as a small integer, until it is large enough. -/
def doublingLoop : List Command :=
  [.joinBlock, .targetBlock, .targetBlock,
    .inst (.constant (.smi 1)), .inst (.storeLocal 1 ⟨0⟩), .inst (.goto ⟨2⟩),
    .appendTo ⟨2⟩, .inst (.loadLocal 1), .inst (.loadLocal 0), .inst (.branch (.relational .lt ⟨3⟩ ⟨4⟩ none) ⟨3⟩ ⟨4⟩),
    .appendTo ⟨3⟩, .inst (.loadLocal 1), .inst (.loadLocal 0), .inst (.binaryOp .binaryDoubleOp .add ⟨6⟩ ⟨7⟩ false),
    .inst (.storeLocal 1 ⟨8⟩), .inst (.goto ⟨2⟩),
    .appendTo ⟨4⟩, .inst (.loadLocal 1), .inst (.unary .ret ⟨11⟩)]

/-- What is to be seen of the loop, with its phi annotated as a double, computed. -/
def doublingLoopHolds (r : FlowGraph) : Bool :=
  match (Ssa.construct.run r).toOption.bind fun s => (Edit.setClass ⟨13⟩ .double s.2).toOption with
  | some (_, g) => decide (DefiniteSeen g) && decide (LivePhi g ⟨2⟩ ⟨13⟩) &&
    decide (∀ n ∈ g.nodes, ∀ d ∈ n.inst.args, ∀ m ∈ g.nodes[d.index]?, m.inst.isDefinition = true) &&
    match selectRepresentations {} g with
    | .ok (changed, g') => changed && (g'.nodes[13]?).any (·.inst.representation == .unboxedDouble)
    | .error _ => false
  | none => false

/-- The phi of the loop is kept unboxed, and everything around it is converted. -/
theorem doublingLoop_unboxed : ∃ g g', Definite g ∧ ReadsDefinitions g ∧ LivePhi g ⟨2⟩ ⟨13⟩ ∧
    selectRepresentations {} g = .ok (true, g') ∧
    (∃ n, g'.nodes[13]? = some n ∧ n.inst.representation = .unboxedDouble) ∧ Matched g' ∧ ConvertsPhisAtEnds g g' ∧
    selectRepresentations {} g' = .ok (false, g') := by
  have hcompute : (Command.script doublingLoop normalEntry (FlowGraph.new "f" 1 1)).map (doublingLoopHolds ·.2) =
    some true := by
    decide +kernel
  obtain ⟨⟨b, r⟩, -, hholds⟩ := Option.map_eq_some_iff.mp hcompute
  unfold doublingLoopHolds at hholds
  split at hholds
  case h_2 => cases hholds
  case h_1 x g _ =>
    simp only [Bool.and_eq_true, decide_eq_true_eq] at hholds
    obtain ⟨⟨⟨hseen, hphi⟩, hdefs⟩, hrun⟩ := hholds
    have hreads : ReadsDefinitions g := fun _ _ n _ hn d hd m hm => hdefs n (Array.mem_of_getElem? hn) d hd m hm
    obtain ⟨changed, g', hrun', hmatched, hphis, hagain⟩ := selectRepresentations_matches {} hseen.definite hreads
    rw [hrun'] at hrun
    obtain ⟨rfl, n, hn, hrep⟩ : changed = true ∧ ∃ n, g'.nodes[13]? = some n ∧
      n.inst.representation = .unboxedDouble := by
      simpa [Option.any_eq_true] using hrun
    exact ⟨g, g', hseen.definite, hreads, hphi, hrun', ⟨n, hn, hrep⟩, hmatched, hphis, hagain⟩

end Midend
