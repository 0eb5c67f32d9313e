import Midend.Proofs.Graph.Revisions
import Midend.Proofs.Ranges.Stations

/-! # Graphs while constraints are made

The analysis puts constraints into a graph, names their uses after them, and leaves the graph alone otherwise. Whatever
it looks up meanwhile is there, and a constraint is used only where it holds.
-/

namespace Midend.Ranges

open FlowGraph
open Edit (usesBy)

variable {β : Type} {g₀ g g' : FlowGraph} {pos : InstId → Position} {cs placed loads gone : List InstId}
  {b : BlockId} {a c d i : InstId} {n n₀ : Node} {v w : Inst} {k : Nat} {p : Position} {f : InstId → Node → Node}

/-! ## What stays of an instruction -/

/-- The instruction without its inputs, and without what is known of overflow. -/
def shape (v : Inst) : Inst := (clearOverflow v).mapArgs fun _ _ => .unset

@[simp] theorem shape_mapArgs {f : Nat → InstId → InstId} : shape (v.mapArgs f) = shape v := by
  unfold shape
  rw [clearOverflow_mapArgs, Inst.mapArgs_mapArgs]

@[simp] theorem shape_clearOverflow : shape (clearOverflow v) = shape v := by
  unfold shape
  rw [clearOverflow_clearOverflow]

theorem eq_of_shape {f : Inst → β} (hf : ∀ v, f (shape v) = f v) (h : shape v = shape w) : f v = f w := by
  rw [← hf v, h, hf w]

theorem opcode_of_shape (h : shape v = shape w) : v.opcode = w.opcode :=
  eq_of_shape (fun v => by unfold shape; simp) h

theorem isAlivePhi_of_shape (h : shape v = shape w) : v.isAlivePhi = w.isAlivePhi :=
  eq_of_shape (fun v => by unfold shape; simp) h

theorem length_args_of_shape (h : shape v = shape w) : v.args.length = w.args.length :=
  eq_of_shape (f := fun v => v.args.length) (fun v => by unfold shape; simp) h

theorem constant?_of_shape (h : shape v = shape w) : v.constant? = w.constant? :=
  eq_of_shape (fun v => by cases v <;> rfl) h

theorem waysOut_of_shape (h : shape v = shape w) : waysOut v = waysOut w :=
  eq_of_shape (fun v => by cases v <;> rfl) h

theorem measured_of_shape (h : shape v = shape w) : Measured g₀ v ↔ Measured g₀ w := by
  have hshape (v : Inst) : Measured g₀ (shape v) = Measured g₀ v := by cases v <;> rfl
  rw [eq_of_shape hshape h]

theorem constraint_of_shape {r : Range} {as : List InstId} (h : shape v = shape (.constraint r as)) :
    ∃ bs, v = .constraint r bs ∧ bs.length = as.length := by
  have hlength := length_args_of_shape h
  cases v with
  | constraint r' bs =>
    obtain ⟨rfl, -⟩ := Inst.constraint.inj h
    exact ⟨bs, rfl, hlength⟩
  | _ => cases h

theorem loadField_of_shape {offset : Nat} {cls : ClassId} {recognized : Recognized} {immutable : Bool} {o : InstId}
    (h : shape v = shape (.loadField offset cls recognized immutable o)) :
    ∃ o', v = .loadField offset cls recognized immutable o' := by
  cases v with
  | loadField =>
    obtain ⟨rfl, rfl, rfl, rfl, -⟩ := Inst.loadField.inj h
    exact ⟨_, rfl⟩
  | _ => cases h

/-! ## Constraints in a graph -/

/-- An instruction of `g₀` may read it: a definition that `g₀` offers, or a constraint. -/
def Operand (g₀ : FlowGraph) (cs : List InstId) (d : InstId) : Prop := Offers g₀ d ∨ d ∈ cs

/-- A boundary may name it: an operand, or the load of a length that is in no block. -/
def Symbolic (g₀ : FlowGraph) (cs loads : List InstId) (d : InstId) : Prop := Operand g₀ cs d ∨ d ∈ loads

/-- The instruction's inputs are on use lists. -/
def Reader (g₀ : FlowGraph) (placed gone : List InstId) (i : InstId) : Prop :=
  Discovered g₀ i ∧ i ∉ gone ∨ i ∈ placed

/-- What has become of `g₀` while the constraints `cs` were made, of which those in `placed` have a place, and while the
bounds checks `gone` were taken out. Each constraint holds behind its position, and is used by instructions that are
there. Loads in `loads` are only symbols. -/
structure Steady (g₀ : FlowGraph) (pos : InstId → Position) (cs placed loads gone : List InstId) (g : FlowGraph) :
    Prop where
  shell : Ranges.shell g = Ranges.shell g₀
  spread : Spread g₀ placed gone g.layout
  kept : ∀ (i : InstId) n₀, g₀.nodes[i.index]? = some n₀ → ∃ n, g.nodes[i.index]? = some n ∧
    shape n.inst = shape n₀.inst ∧ (i ∉ gone → n.block = n₀.block) ∧ (n₀.envUses = [] → n.envUses = [])
  fresh : ∀ c, c ∈ cs ∨ c ∈ loads → g₀.nodes.size ≤ c.index
  made : ∀ c ∈ cs, ∃ n r a rest, g.nodes[c.index]? = some n ∧ n.inst = .constraint r (a :: rest) ∧
    RangeIn (Symbolic g₀ cs loads) r ∧ n.env = none ∧ n.envUses = []
  loaded : ∀ d ∈ loads, ∃ n offset cls recognized immutable o, g.nodes[d.index]? = some n ∧
    n.inst = .loadField offset cls recognized immutable o
  homes : ∀ c ∈ placed, c ∈ cs ∧ ∃ b n, g₀.Reachable b ∧ c ∈ g.insts b ∧ g.nodes[c.index]? = some n ∧ n.block = some b
  homeless : ∀ (c : InstId) n, g₀.nodes.size ≤ c.index → c ∉ placed → g.nodes[c.index]? = some n → n.block = none
  checks : ∀ i ∈ gone, ∃ n₀, g₀.nodes[i.index]? = some n₀ ∧ n₀.inst.opcode = .checkArrayBound
  lists : Lists g.inputUses? (fun u => Reader g₀ placed gone u.user) g.inputAt
  operands : ∀ i n, Discovered g₀ i ∨ i ∈ cs ∨ i ∈ loads → g.nodes[i.index]? = some n →
    ∀ a ∈ n.inst.args, Operand g₀ cs a
  ranges : ∀ d r, Symbolic g₀ cs loads d → g.range d = .ok (some r) → RangeIn (Symbolic g₀ cs loads) r
  behind : ∀ c ∈ cs, ∀ i k b, g₀.Reachable b → i ∈ g₀.insts b → g.inputAt ⟨i, k⟩ = some c → Passed g₀ (pos c) i
  once : cs.Nodup
  count : cs.length + g₀.nodes.size ≤ g.nodes.size

/-! ## What is known of the graph at first -/

theorem hasPhi_of_live (hi : i ∈ g.live b) : g.HasPhi b i ∧
    ∃ n, g.nodes[i.index]? = some n ∧ n.inst.isAlivePhi = true := by
  obtain ⟨ps, hps, hmem⟩ := mem_live_iff.mp hi
  obtain ⟨all, hall, -, rfl⟩ := livePhis_eq_ok.mp hps
  obtain ⟨hmem, halive⟩ := List.mem_filter.mp hmem
  obtain ⟨k, hk, rfl⟩ := phis_eq_ok.mp hall
  exact ⟨⟨k, hk, hmem⟩, isAlivePhi_eq_ok.mp (toOption_eq_some_iff.mp (of_decide_eq_true halive))⟩

namespace Tractable

variable (ht : Tractable g₀)

include ht

theorem exists_block (hb : g₀.Reachable b) : ∃ k, g₀.blocks[b.index]? = some k :=
  ht.current.exactDominators.exists_block hb

theorem node_of_mem (hi : i ∈ g₀.insts b) : ∃ n, g₀.nodes[i.index]? = some n ∧ n.block = some b :=
  Option.bind_eq_some_iff.mp (ht.housed.placed i b (ht.housed.sound.mem_iff.mp hi))

theorem exists_home (hi : Discovered g₀ i) :
    ∃ b n, g₀.Reachable b ∧ g₀.nodes[i.index]? = some n ∧ n.block = some b := by
  obtain ⟨b, hb, hi | hphi⟩ := hi
  · obtain ⟨n, hn, hblock⟩ := ht.node_of_mem hi
    exact ⟨b, n, (mem_order_iff ht.current).mp hb, hn, hblock⟩
  · obtain ⟨n, hn, hblock⟩ := Option.bind_eq_some_iff.mp (ht.housed.phis b i (hasPhi_of_live hphi).1).2
    exact ⟨b, n, (mem_order_iff ht.current).mp hb, hn, hblock⟩

theorem discovered (hb : g₀.Reachable b) (hi : i ∈ g₀.insts b) : Discovered g₀ i :=
  ⟨b, (mem_order_iff ht.current).mpr hb, .inl hi⟩

end Tractable

/-- What is offered is an instruction that can be looked at. Either it has no inputs, or it is discovered. -/
theorem Offers.exists_node (hu : Unconstrained g₀) (hd : Offers g₀ d) : ∃ n, g₀.nodes[d.index]? = some n ∧
    n.inst.opcode ∉ [Opcode.constraint, .checkClass, .checkArrayBound] ∧ (n.inst.args = [] ∨ Discovered g₀ d) := by
  obtain hd | ⟨b, hb, hphi | ⟨hd, n, hn, hdef⟩⟩ := hd
  · obtain ⟨n, hn, hgiven⟩ := hu.initial d hd
    obtain ⟨v, heq⟩ | ⟨v, heq⟩ := Inst.eq_of_isGiven hgiven
    all_goals exact ⟨n, hn, by rw [heq]; simp [Inst.opcode], .inl (by rw [heq]; rfl)⟩
  · obtain ⟨-, n, hn, halive⟩ := hasPhi_of_live hphi
    refine ⟨n, hn, ?_, .inr ⟨b, hb, .inr hphi⟩⟩
    rw [Inst.opcode_of_isPhi (Inst.isPhi_of_isAlivePhi halive)]
    decide
  · refine ⟨n, hn, fun hmem => ?_, .inr ⟨b, hb, .inl hd⟩⟩
    unfold Inst.isDefinition at hdef
    simp only [List.mem_cons, List.not_mem_nil, or_false] at hmem
    obtain hop | hop | hop := hmem
    · exact hu.free b d hd n hn hop
    all_goals
      rw [hop] at hdef
      cases hdef

/-! ## Reading -/

theorem Operand.mono {cs' : List InstId} (h : Operand g₀ cs d) (hsub : cs ⊆ cs') : Operand g₀ cs' d :=
  h.imp id fun hd => hsub hd

theorem Symbolic.mono {cs' loads' : List InstId} (h : Symbolic g₀ cs loads d) (hsub : cs ⊆ cs')
    (hloads : loads ⊆ loads') : Symbolic g₀ cs' loads' d :=
  h.imp (·.mono hsub) fun hd => hloads hd

theorem block_of_shell (h : shell g = shell g₀) {k₀ : Block} (hk₀ : g₀.blocks[b.index]? = some k₀) :
    ∃ k, g.blocks[b.index]? = some k ∧ { k with loop := none } = { k₀ with loop := none } := by
  have hblock := congrArg (fun x : FlowGraph => x.blocks[b.index]?) h
  simp only [Ranges.shell, Array.getElem?_map, hk₀, Option.map_some] at hblock
  exact Option.map_eq_some_iff.mp hblock

/-- Blocks and instructions of `g₀` are there, and look alike. -/
structure Alike (g₀ g : FlowGraph) : Prop where
  shell : Ranges.shell g = Ranges.shell g₀
  kept : ∀ (i : InstId) n₀, g₀.nodes[i.index]? = some n₀ →
    ∃ n, g.nodes[i.index]? = some n ∧ shape n.inst = shape n₀.inst

namespace Alike

variable (h : Alike g₀ g)

include h

theorem reversePostorder : g.reversePostorder = g₀.reversePostorder := by
  have hpostorder : (Ranges.shell g).postorder = (Ranges.shell g₀).postorder := by rw [h.shell]
  exact congrArg List.reverse hpostorder

theorem initialDefinitions : g.initialDefinitions = g₀.initialDefinitions := by
  have hinitial : (Ranges.shell g).initialDefinitions = (Ranges.shell g₀).initialDefinitions := by rw [h.shell]
  exact hinitial

theorem livePhis {ps : List InstId} (hps : g₀.livePhis b = .ok ps) : g.livePhis b = .ok ps := by
  obtain ⟨all, hall, halive, rfl⟩ := livePhis_eq_ok.mp hps
  obtain ⟨k₀, hk₀, rfl⟩ := phis_eq_ok.mp hall
  obtain ⟨k, hk, hsame⟩ := block_of_shell h.shell hk₀
  have hphis : g.phis b = .ok k₀.phis := phis_eq_ok.mpr ⟨k, hk, (Block.mk.inj hsame).2.2.1⟩
  have hsame (phi : InstId) (hphi : phi ∈ k₀.phis) : g.isAlivePhi phi = g₀.isAlivePhi phi := by
    obtain ⟨a, ha⟩ := halive phi hphi
    obtain ⟨n₀, hn₀, rfl⟩ := isAlivePhi_eq_ok.mp ha
    obtain ⟨n, hn, hshape⟩ := h.kept phi n₀ hn₀
    rw [ha, isAlivePhi_eq_ok.mpr ⟨n, hn, isAlivePhi_of_shape hshape⟩]
  refine livePhis_eq_ok.mpr ⟨_, hphis, fun phi hphi => (hsame phi hphi) ▸ halive phi hphi, ?_⟩
  exact List.filter_congr fun phi hphi => by rw [hsame phi hphi]

/-- If only bounds checks are gone from the blocks, the definitions are those of `g₀`. -/
theorem definitions (hu : Unconstrained g₀) (ht : Tractable g₀)
    (hinsts : ∀ b, g₀.Reachable b → ∀ d, d ∈ g.insts b ↔ d ∈ g₀.insts b ∧ d ∉ gone)
    (hchecks : ∀ i ∈ gone, ∃ n₀, g₀.nodes[i.index]? = some n₀ ∧ n₀.inst.opcode = .checkArrayBound) :
    ∃ ds, g.definitions = .ok ds ∧ ∀ d, d ∈ ds ↔ Offers g₀ d := by
  have hphis (b : BlockId) (hb : b ∈ g₀.reversePostorder) :
      ∃ ps, g.livePhis b = .ok ps ∧ g₀.livePhis b = .ok ps := by
    obtain ⟨ps, hps, -⟩ := ((consistent_iff.mp hu.consistent).blocks b hb).phis
    exact ⟨ps, h.livePhis hps, hps⟩
  have hnode {b : BlockId} {i : InstId} (hi : i ∈ g₀.insts b) : ∃ n n₀, g.nodes[i.index]? = some n ∧
      g₀.nodes[i.index]? = some n₀ ∧ n.inst.isDefinition = n₀.inst.isDefinition := by
    obtain ⟨n₀, hn₀, -⟩ := ht.node_of_mem hi
    obtain ⟨n, hn, hshape⟩ := h.kept i n₀ hn₀
    exact ⟨n, n₀, hn, hn₀, congrArg Opcode.isDefinition (opcode_of_shape hshape)⟩
  have hreach {b : BlockId} (hb : b ∈ g₀.reversePostorder) := (mem_order_iff ht.current).mp hb
  obtain ⟨ds, hds, hmem⟩ := definitions_offered (g := g) (fun b hb => by
      rw [h.reversePostorder] at hb
      exact (hphis b hb).imp fun _ => And.left) fun b hb i hi => by
    rw [h.reversePostorder] at hb
    obtain ⟨n, -, hn, -⟩ := hnode ((hinsts b (hreach hb) i).mp hi).1
    exact (Array.getElem?_eq_some_iff.mp hn).1
  refine ⟨ds, hds, fun d => (hmem d).trans ?_⟩
  unfold Offers
  rw [h.reversePostorder, h.initialDefinitions]
  refine or_congr_right (exists_congr fun b => and_congr_right fun hb => or_congr ?_ ?_)
  · obtain ⟨ps, hps, hps₀⟩ := hphis b hb
    rw [mem_live_iff, mem_live_iff, hps, hps₀]
  · rw [hinsts b (hreach hb)]
    constructor
    · rintro ⟨⟨hd, -⟩, n, hn, hdef⟩
      obtain ⟨m, n₀, hm, hn₀, hsame⟩ := hnode hd
      obtain rfl := Option.some_inj.mp (hm.symm.trans hn)
      exact ⟨hd, n₀, hn₀, hsame ▸ hdef⟩
    · rintro ⟨hd, n₀, hn₀, hdef⟩
      obtain ⟨n, m₀, hn, hm₀, hsame⟩ := hnode hd
      obtain rfl := Option.some_inj.mp (hm₀.symm.trans hn₀)
      refine ⟨⟨hd, fun hgone => ?_⟩, n, hn, hsame ▸ hdef⟩
      obtain ⟨k₀, hk₀, hcheck⟩ := hchecks d hgone
      obtain rfl := Option.some_inj.mp (hk₀.symm.trans hn₀)
      rw [Inst.isDefinition, hcheck] at hdef
      cases hdef

end Alike

theorem inputAt_withNode {t : Node → Node} (ht : ∀ n, (t n).inst = n.inst) (u : Use) :
    (g.withNode d t).inputAt u = g.inputAt u := by
  have hmaps : Maps g (g.withNode d t) fun j n => if j = d then t n else n := fun j => nodes_withNode _ _ _
  exact hmaps.inputAt (fun j n => by split <;> simp [ht]) u

theorem inputAt_numbered (u : Use) : (g.numbered d).inputAt u = g.inputAt u := by
  have hmaps : Maps g (g.numbered d) fun j n => if j = d then { n with ssaIndex := some g.nextSsaIndex } else n :=
    fun j => nodes_withNode _ _ _
  exact hmaps.inputAt (fun j n => by split <;> rfl) u

theorem inputAt_withInst {u : Use} (hu : u.user.index < g.nodes.size) : (g.withInst n).inputAt u = g.inputAt u := by
  unfold inputAt Ssa.inputOf
  rw [nodes_withInst, if_neg]
  exact fun heq : u.user = g.nextId => Nat.lt_irrefl _ (heq ▸ hu : g.nextId.index < g.nodes.size)

theorem size_settled {is : List InstId} : (g.settled c n b is).nodes.size = g.nodes.size := by
  unfold FlowGraph.settled
  rw [size_mapNodes, size_withNode]
  rfl

theorem shell_settled {is : List InstId} : shell (g.settled c n b is) = shell g := by
  unfold shell FlowGraph.settled mapNodes withNode mapNodes withLayout
  rfl

namespace Steady

variable (h : Steady g₀ pos cs placed loads gone g)

include h

theorem node_of_reader (ht : Tractable g₀) (hi : Reader g₀ placed gone i) :
    ∃ b n, g₀.Reachable b ∧ g.nodes[i.index]? = some n ∧ n.block = some b := by
  obtain ⟨hi, hgone⟩ | hi := hi
  · obtain ⟨b, n₀, hb, hn₀, hblock⟩ := ht.exists_home hi
    obtain ⟨n, hn, -, hsame, -⟩ := h.kept i n₀ hn₀
    exact ⟨b, n, hb, hn, (hsame hgone).trans hblock⟩
  · obtain ⟨-, b, n, hb, -, hn, hblock⟩ := h.homes i hi
    exact ⟨b, n, hb, hn, hblock⟩

theorem old_lt (hi : i.index < g₀.nodes.size) : i.index < g.nodes.size :=
  Nat.lt_of_lt_of_le hi (Nat.le_trans (Nat.le_add_left _ _) h.count)

theorem operand_lt (hu : Unconstrained g₀) (hd : Operand g₀ cs d) : d.index < g.nodes.size := by
  obtain hd | hd := hd
  · obtain ⟨n, hn, -⟩ := hd.exists_node hu
    exact h.old_lt (Array.getElem?_eq_some_iff.mp hn).1
  · obtain ⟨n, -, -, -, hn, -⟩ := h.made d hd
    exact (Array.getElem?_eq_some_iff.mp hn).1

theorem node_of_offer (hu : Unconstrained g₀) (hd : Offers g₀ d) : ∃ n n₀, g.nodes[d.index]? = some n ∧
    g₀.nodes[d.index]? = some n₀ ∧ shape n.inst = shape n₀.inst ∧ n.block = n₀.block ∧
      n.inst.opcode ∉ [Opcode.constraint, .checkClass, .checkArrayBound] ∧ ∀ a ∈ n.inst.args, Operand g₀ cs a := by
  obtain ⟨n₀, hn₀, hop, hargs⟩ := hd.exists_node hu
  obtain ⟨n, hn, hshape, hblock, -⟩ := h.kept d n₀ hn₀
  have hop' : n.inst.opcode = n₀.inst.opcode := opcode_of_shape hshape
  refine ⟨n, n₀, hn, hn₀, hshape, hblock fun hgone => ?_, hop' ▸ hop, fun a ha => ?_⟩
  · obtain ⟨m, hm, hcheck⟩ := h.checks d hgone
    obtain rfl := Option.some_inj.mp (hn₀.symm.trans hm)
    exact hop (by simp [hcheck])
  · obtain hnil | hd := hargs
    · have hlength := length_args_of_shape hshape
      rw [hnil] at hlength
      rw [List.eq_nil_of_length_eq_zero hlength] at ha
      cases ha
    · exact h.operands d n (.inl hd) hn a ha

/-- Whatever the analysis looks up is there. -/
theorem selfContained (ht : Tractable g₀) (hu : Unconstrained g₀) : SelfContained g (Symbolic g₀ cs loads) := by
  have hcases (d : InstId) (v : Inst) (hd : Symbolic g₀ cs loads d) (hv : g.inst d = .ok v) :
      Offers g₀ d ∨ (∃ r a rest, v = .constraint r (a :: rest)) ∨ ∃ o cls r m a, v = .loadField o cls r m a := by
    obtain ⟨n, hn, rfl⟩ := inst_eq_ok.mp hv
    obtain (hd | hd) | hd := hd
    · exact .inl hd
    · obtain ⟨m, r, a, rest, hm, hinst, -⟩ := h.made d hd
      obtain rfl := Option.some_inj.mp (hn.symm.trans hm)
      exact .inr (.inl ⟨r, a, rest, hinst⟩)
    · obtain ⟨m, o, cls, r, im, a, hm, hinst⟩ := h.loaded d hd
      obtain rfl := Option.some_inj.mp (hn.symm.trans hm)
      exact .inr (.inr ⟨o, cls, r, im, a, hinst⟩)
  have hoffer (d : InstId) (v : Inst) (hd : Offers g₀ d) (hv : g.inst d = .ok v) :
      v.opcode ∉ [Opcode.constraint, .checkClass, .checkArrayBound] := by
    obtain ⟨n, n₀, hn, -, -, -, hop, -⟩ := h.node_of_offer hu hd
    obtain ⟨m, hm, rfl⟩ := inst_eq_ok.mp hv
    obtain rfl := Option.some_inj.mp (hn.symm.trans hm)
    exact hop
  constructor
  case listed =>
    intro d hd
    obtain (hd | hd) | hd := hd
    · obtain ⟨n, -, hn, -⟩ := h.node_of_offer hu hd
      exact ⟨_, inst_eq_ok.mpr ⟨n, hn, rfl⟩⟩
    · obtain ⟨n, -, -, -, hn, -⟩ := h.made d hd
      exact ⟨_, inst_eq_ok.mpr ⟨n, hn, rfl⟩⟩
    · obtain ⟨n, -, -, -, -, -, hn, -⟩ := h.loaded d hd
      exact ⟨_, inst_eq_ok.mpr ⟨n, hn, rfl⟩⟩
  case args =>
    intro d v hd hv a ha
    obtain ⟨n, hn, rfl⟩ := inst_eq_ok.mp hv
    obtain (hd | hd) | hd := hd
    · obtain ⟨m, -, hm, -, -, -, -, hargs⟩ := h.node_of_offer hu hd
      obtain rfl := Option.some_inj.mp (hn.symm.trans hm)
      exact .inl (hargs a ha)
    · exact .inl (h.operands d n (.inr (.inl hd)) hn a ha)
    · exact .inl (h.operands d n (.inr (.inr hd)) hn a ha)
  case values =>
    intro d r inputs hd hv
    obtain hd | ⟨r', a, rest, heq⟩ | ⟨o, cls, r', m, a, heq⟩ := hcases d _ hd hv
    · exact absurd (by simp [Inst.opcode]) (hoffer d _ hd hv)
    · obtain ⟨-, rfl⟩ := Inst.constraint.inj heq
      exact List.cons_ne_nil _ _
    · cases heq
  case receivers =>
    intro d ic a hd hv
    obtain hd | ⟨r', a, rest, heq⟩ | ⟨o, cls, r', m, a, heq⟩ := hcases d _ hd hv
    · exact absurd (by simp [Inst.opcode]) (hoffer d _ hd hv)
    all_goals cases heq
  case symbols => exact h.ranges
  case smis =>
    intro d c hd hc
    obtain ⟨constant, hconstant, hsmi⟩ := bind_eq_ok.mp hc
    obtain ⟨v, hv, hpure⟩ := bind_eq_ok.mp hconstant
    obtain rfl := Except.ok.inj hpure
    have hsmi : v.constant?.bind Constant.smi? = some c := Except.ok.inj hsmi
    obtain hd | ⟨r', a, rest, rfl⟩ | ⟨o, cls, r', m, a, rfl⟩ := hcases d _ hd hv
    · obtain ⟨n, n₀, hn, hn₀, hshape, -⟩ := h.node_of_offer hu hd
      obtain ⟨m, hm, rfl⟩ := inst_eq_ok.mp hv
      obtain rfl := Option.some_inj.mp (hn.symm.trans hm)
      rw [constant?_of_shape hshape] at hsmi
      exact ht.smis n₀ (Array.mem_of_getElem? hn₀ |> Array.mem_toList_iff.mpr) c hsmi
    all_goals cases hsmi

theorem charted (ht : Tractable g₀) (hu : Unconstrained g₀) : Charted g (Symbolic g₀ cs loads) := by
  have hexists {b : BlockId} (hb : b.index < g₀.blocks.size) : ∃ k, g.block b = .ok k := by
    obtain ⟨k, hk, -⟩ := block_of_shell h.shell (Array.getElem?_eq_getElem hb)
    exact ⟨k, block_eq_ok.mpr hk⟩
  intro d n b hd hn hb
  have hnew (hfresh : g₀.nodes.size ≤ d.index) : ∃ k, g.block b = .ok k := by
    by_cases hplaced : d ∈ placed
    · obtain ⟨-, b', m, hb', -, hm, hblock⟩ := h.homes d hplaced
      obtain rfl := Option.some_inj.mp (hn.symm.trans hm)
      obtain rfl := Option.some_inj.mp (hb.symm.trans hblock)
      obtain ⟨k₀, hk₀⟩ := ht.exists_block hb'
      exact hexists (Array.getElem?_eq_some_iff.mp hk₀).1
    · rw [h.homeless d n hfresh hplaced hn] at hb
      cases hb
  obtain (hd | hd) | hd := hd
  · obtain ⟨m, n₀, hm, hn₀, -, hblock, -⟩ := h.node_of_offer hu hd
    obtain rfl := Option.some_inj.mp (hn.symm.trans hm)
    exact hexists (ht.blocks n₀ (Array.mem_of_getElem? hn₀ |> Array.mem_toList_iff.mpr) b (hblock ▸ hb))
  · exact hnew (h.fresh d (.inl hd))
  · exact hnew (h.fresh d (.inr hd))

theorem alike : Alike g₀ g where
  shell := h.shell
  kept i n₀ hn₀ := (h.kept i n₀ hn₀).imp fun _ hn => ⟨hn.1, hn.2.1⟩

theorem dominates (a b : BlockId) : g.dominates a b = g₀.dominates a b := by
  have hshell := congrArg FlowGraph.blocks h.shell
  have hsize : g.blocks.size = g₀.blocks.size := by simpa [Ranges.shell] using congrArg Array.size hshell
  unfold FlowGraph.dominates
  rw [hsize]
  refine dominatesUpTo_congr (fun c => ?_) _
  have hc := congrArg (fun bs : Array Block => (bs[c.index]?).map Block.dominator) hshell
  simpa [Ranges.shell, Function.comp_def] using hc

theorem preds (ht : Tractable g₀) (hb : g₀.Reachable b) :
    ∃ ps, g.preds b = .ok ps ∧ ∀ p ∈ ps, g₀.Reachable p := by
  obtain ⟨k₀, hk₀⟩ := ht.exists_block hb
  obtain ⟨k, hk, hsame⟩ := block_of_shell h.shell hk₀
  have hpreds : k.preds = k₀.preds := (Block.mk.inj hsame).2.1
  exact ⟨k.preds, preds_eq_ok.mpr ⟨k, hk, rfl⟩, fun p hp => ((ht.current.mem_preds_iff hb hk₀).mp (hpreds ▸ hp)).1⟩

/-- The instructions behind one of `g₀` are those that were behind it, and constraints. -/
theorem split_of_after (hi : i ∈ g₀.insts b) (hgone : i ∉ gone) {is : List InstId}
    (hafter : g.layout.after i = .ok is) :
    ∃ front, (g₀.insts b).filter (· ∉ gone) = front ++ i :: is.filter (·.index < g₀.nodes.size) := by
  obtain ⟨b', front, hsplit⟩ := h.spread.sound.after_eq_ok.mp hafter
  have hold : i ∈ (g₀.insts b).filter (· ∉ gone) := List.mem_filter.mpr ⟨hi, decide_eq_true hgone⟩
  rw [← h.spread.kept b] at hold
  obtain ⟨hmem, hlt⟩ := List.mem_filter.mp hold
  obtain rfl := h.spread.sound.block_unique hmem (hsplit ▸ by simp : i ∈ g.layout.insts b')
  refine ⟨front.filter (·.index < g₀.nodes.size), ?_⟩
  rw [← h.spread.kept b, hsplit, List.filter_append, List.filter_cons, if_pos hlt]

end Steady

/-! ## Changes -/

namespace Steady

section

variable {placed' gone' : List InstId} (h : Steady g₀ pos cs placed loads gone g)

include h

theorem new_of_placed (hc : c ∈ placed) : g₀.nodes.size ≤ c.index := h.fresh c (.inl (h.homes c hc).1)

/-- Instructions keep all but their inputs, ranges and uses. Those that are taken out lose their place. -/
theorem change (hmaps : Maps g g' f) (hsize : g'.nodes.size = g.nodes.size) (hshell : Ranges.shell g' = Ranges.shell g)
    (hspread : Spread g₀ placed' gone' g'.layout) (hplaced : placed' ⊆ placed)
    (hhomes : ∀ c ∈ placed', ∀ b, c ∈ g.insts b → c ∈ g'.insts b)
    (hchecks : ∀ i ∈ gone', ∃ n₀, g₀.nodes[i.index]? = some n₀ ∧ n₀.inst.opcode = .checkArrayBound)
    (hgone : gone ⊆ gone')
    (hf : ∀ j n, shape (f j n).inst = shape n.inst ∧ (f j n).env = n.env ∧ (n.envUses = [] → (f j n).envUses = []))
    (hblock : ∀ j n, (f j n).block = if j ∈ gone' ∧ j ∉ gone ∨ j ∈ placed ∧ j ∉ placed' then none else n.block)
    (hlists : Lists g'.inputUses? (fun u => Reader g₀ placed' gone' u.user) g'.inputAt)
    (hoperands : ∀ i n, (∀ a ∈ n.inst.args, Operand g₀ cs a) → ∀ a ∈ (f i n).inst.args, Operand g₀ cs a)
    (hranges : ∀ d r, Symbolic g₀ cs loads d → g'.range d = .ok (some r) → RangeIn (Symbolic g₀ cs loads) r)
    (hbehind : ∀ c ∈ cs, ∀ i k b, g₀.Reachable b → i ∈ g₀.insts b → g'.inputAt ⟨i, k⟩ = some c →
      g.inputAt ⟨i, k⟩ = some c ∨ Passed g₀ (pos c) i) : Steady g₀ pos cs placed' loads gone' g' := by
  have hforth {j : InstId} {n : Node} (hn : g.nodes[j.index]? = some n) : g'.nodes[j.index]? = some (f j n) := by
    rw [hmaps, hn, Option.map_some]
  have hback {j : InstId} {m : Node} (hm : g'.nodes[j.index]? = some m) :
      ∃ n, g.nodes[j.index]? = some n ∧ f j n = m := Option.map_eq_some_iff.mp (hmaps j ▸ hm)
  have hnew {j : InstId} (hj : g₀.nodes.size ≤ j.index) : j ∉ gone' := fun hmem => by
    obtain ⟨n₀, hn₀, -⟩ := hchecks j hmem
    exact Nat.not_lt.mpr hj (Array.getElem?_eq_some_iff.mp hn₀).1
  constructor
  case shell => exact hshell.trans h.shell
  case spread => exact hspread
  case kept =>
    intro i n₀ hn₀
    obtain ⟨n, hn, hshape, hhome, henv⟩ := h.kept i n₀ hn₀
    obtain ⟨hshape', -, henv'⟩ := hf i n
    refine ⟨_, hforth hn, hshape'.trans hshape, fun hi => ?_, fun hnil => henv' (henv hnil)⟩
    rw [hblock, if_neg, hhome fun hmem => hi (hgone hmem)]
    rintro (⟨hmem, -⟩ | ⟨hmem, -⟩)
    · exact hi hmem
    · exact Nat.not_lt.mpr (h.new_of_placed hmem) (Array.getElem?_eq_some_iff.mp hn₀).1
  case fresh => exact h.fresh
  case made =>
    intro c hc
    obtain ⟨n, r, a, rest, hn, hinst, hr, henv, henvUses⟩ := h.made c hc
    obtain ⟨hshape, henv', henvUses'⟩ := hf c n
    rw [hinst] at hshape
    obtain ⟨as, hinst', hlength⟩ := constraint_of_shape hshape
    obtain ⟨a', rest', rfl⟩ := List.exists_cons_of_length_eq_add_one hlength
    exact ⟨_, r, a', rest', hforth hn, hinst', hr, henv'.trans henv, henvUses' henvUses⟩
  case loaded =>
    intro d hd
    obtain ⟨n, offset, cls, recognized, immutable, o, hn, hinst⟩ := h.loaded d hd
    obtain ⟨o', hinst'⟩ := loadField_of_shape (hinst ▸ (hf d n).1)
    exact ⟨_, offset, cls, recognized, immutable, o', hforth hn, hinst'⟩
  case homes =>
    intro c hc
    obtain ⟨hcs, b, n, hb, hmem, hn, hhome⟩ := h.homes c (hplaced hc)
    refine ⟨hcs, b, _, hb, hhomes c hc b hmem, hforth hn, ?_⟩
    rw [hblock, if_neg, hhome]
    rintro (⟨hmem', -⟩ | ⟨-, hnot⟩)
    · exact hnew (h.new_of_placed (hplaced hc)) hmem'
    · exact hnot hc
  case homeless =>
    intro c m hc hnot hm
    obtain ⟨n, hn, rfl⟩ := hback hm
    rw [hblock]
    split
    · rfl
    case isFalse hkept =>
      rw [not_or, not_and, not_and] at hkept
      exact h.homeless c n hc (fun hmem => hkept.2 hmem hnot) hn
  case checks => exact hchecks
  case lists => exact hlists
  case operands =>
    intro i m hi hm
    obtain ⟨n, hn, rfl⟩ := hback hm
    exact hoperands i n (h.operands i n hi hn)
  case ranges => exact hranges
  case behind =>
    intro c hc i k b hb hi hk
    exact (hbehind c hc i k b hb hi hk).elim (h.behind c hc i k b hb hi) id
  case once => exact h.once
  case count => exact hsize ▸ h.count

theorem aside (hmaps : Maps g g' f) (hsize : g'.nodes.size = g.nodes.size) (hshell : Ranges.shell g' = Ranges.shell g)
    (hlayout : g'.layout = g.layout)
    (hf : ∀ j n, shape (f j n).inst = shape n.inst ∧ (f j n).inst.args = n.inst.args ∧ (f j n).block = n.block ∧
      (f j n).env = n.env ∧ (f j n).inputUses = n.inputUses ∧ (f j n).envUses = n.envUses)
    (hranges : ∀ d r, Symbolic g₀ cs loads d → g'.range d = .ok (some r) → RangeIn (Symbolic g₀ cs loads) r) :
    Steady g₀ pos cs placed loads gone g' := by
  have hinput (u : Use) : g'.inputAt u = g.inputAt u := hmaps.inputAt (fun j n => (hf j n).2.1) u
  refine h.change hmaps hsize hshell (hlayout ▸ h.spread) (List.Subset.refl _) (fun c _ b hc => ?_) h.checks
    (List.Subset.refl _) (fun j n => ⟨(hf j n).1, (hf j n).2.2.2.1, fun hnil => (hf j n).2.2.2.2.2.trans hnil⟩)
    (fun j n => by rw [if_neg (by simp), (hf j n).2.2.1])
    (h.lists.congr (fun d => hmaps.inputUses?_eq fun n => (hf d n).2.2.2.2.1) (fun _ => .rfl) fun u _ => hinput u)
    (fun i n hn a ha => hn a ((hf i n).2.1 ▸ ha)) hranges fun c _ i k b _ _ hk => .inl (hinput _ ▸ hk)
  unfold FlowGraph.insts
  rwa [hlayout]

theorem ranged (d : InstId) {r : Option Range} (hr : ∀ r', r = some r' → RangeIn (Symbolic g₀ cs loads) r') :
    Steady g₀ pos cs placed loads gone (g.withNode d fun n => { n with range := r }) := by
  refine h.aside (f := fun j n => if j = d then { n with range := r } else n) (fun j => nodes_withNode _ _ _)
    (size_withNode _ _) rfl rfl (fun j n => ?_) fun e r' he hrun => ?_
  · split <;> exact ⟨rfl, rfl, rfl, rfl, rfl, rfl⟩
  · obtain ⟨m, hm, hrange⟩ := range_eq_ok.mp hrun
    rw [nodes_withNode] at hm
    obtain ⟨n, hn, rfl⟩ := Option.map_eq_some_iff.mp hm
    split at hrange
    · exact hr r' hrange
    · exact h.ranges e r' he (range_eq_ok.mpr ⟨n, hn, hrange⟩)

theorem numbered (d : InstId) : Steady g₀ pos cs placed loads gone (g.numbered d) := by
  refine h.aside (f := fun j n => if j = d then { n with ssaIndex := some g.nextSsaIndex } else n)
    (fun j => nodes_withNode _ _ _) (size_withNode _ _) rfl rfl (fun j n => ?_) fun e r he hrun => ?_
  · split <;> exact ⟨rfl, rfl, rfl, rfl, rfl, rfl⟩
  · obtain ⟨m, hm, hrange⟩ := range_eq_ok.mp hrun
    have hm : (g.withNode d _).nodes[e.index]? = some m := hm
    rw [nodes_withNode] at hm
    obtain ⟨n, hn, rfl⟩ := Option.map_eq_some_iff.mp hm
    refine h.ranges e r he (range_eq_ok.mpr ⟨n, hn, ?_⟩)
    split at hrange <;> exact hrange

theorem cleared (d : InstId) :
    Steady g₀ pos cs placed loads gone (g.withNode d fun n => { n with inst := clearOverflow n.inst }) := by
  refine h.aside (f := fun j n => if j = d then { n with inst := clearOverflow n.inst } else n)
    (fun j => nodes_withNode _ _ _) (size_withNode _ _) rfl rfl (fun j n => ?_) fun e r he hrun => ?_
  · split
    · exact ⟨shape_clearOverflow, args_clearOverflow, rfl, rfl, rfl, rfl⟩
    · exact ⟨rfl, rfl, rfl, rfl, rfl, rfl⟩
  · obtain ⟨m, hm, hrange⟩ := range_eq_ok.mp hrun
    rw [nodes_withNode] at hm
    obtain ⟨n, hn, rfl⟩ := Option.map_eq_some_iff.mp hm
    refine h.ranges e r he (range_eq_ok.mpr ⟨n, hn, ?_⟩)
    split at hrange <;> exact hrange

/-- An input becomes another one. If that is a constraint, the input is behind its position. -/
theorem rewired {user : InstId} (huser : Reader g₀ placed gone user) (hd : g.inputAt ⟨user, k⟩ = some d)
    (hc : Operand g₀ cs c) (hpassed : c ∈ cs → ∀ b, g₀.Reachable b → user ∈ g₀.insts b → Passed g₀ (pos c) user) :
    Steady g₀ pos cs placed loads gone (g.rewired user k d c) := by
  refine h.change maps_rewired size_rewired rfl h.spread (List.Subset.refl _) (fun _ _ _ hmem => hmem) h.checks
    (List.Subset.refl _) (fun j n => ⟨?_, rfl, id⟩) (fun j n => (if_neg (by simp)).symm) ?_
    (fun i n hn a ha => ?_) (fun e r he hrun => ?_) fun e he i k' b hb hi hk => ?_
  · dsimp only
    split
    · rw [Inst.setArg_eq, shape_mapArgs]
    · rfl
  · refine (h.lists.set hd inputUses?_rewired (by rw [inputAt_rewired hd, if_pos rfl]) fun u hu => ?_).congr
      (fun _ => rfl) (fun u => (or_iff_left_of_imp ?_).symm) fun _ _ => rfl
    · rw [inputAt_rewired hd, if_neg hu]
    · rintro rfl
      exact huser
  · dsimp only at ha
    split at ha
    · rw [Inst.setArg_eq, Inst.args_mapArgs] at ha
      obtain ⟨j, hj, heq⟩ := List.mem_mapIdx.mp ha
      split at heq
      · exact heq ▸ hc
      · exact heq ▸ hn _ (List.getElem_mem hj)
    · exact hn a ha
  · obtain ⟨m, hm, hrange⟩ := range_eq_ok.mp hrun
    rw [maps_rewired] at hm
    obtain ⟨n, hn, rfl⟩ := Option.map_eq_some_iff.mp hm
    exact h.ranges e r he (range_eq_ok.mpr ⟨n, hn, hrange⟩)
  · rw [inputAt_rewired hd] at hk
    split at hk
    case isTrue heq =>
      obtain ⟨rfl, rfl⟩ := Use.mk.inj heq
      obtain rfl := Option.some_inj.mp hk
      exact .inr (hpassed he b hb hi)
    case isFalse => exact .inl hk

/-- A bounds check or a constraint is taken out. -/
theorem removed (ht : Tractable g₀) (hi : Reader g₀ placed gone i) (hplaced : ∀ x, x ∈ placed' ↔ x ∈ placed ∧ x ≠ i)
    (hgone : ∀ x, x ∈ gone' ↔ x ∈ gone ∨ x = i ∧ i.index < g₀.nodes.size)
    (hcheck : i.index < g₀.nodes.size → ∃ n₀, g₀.nodes[i.index]? = some n₀ ∧ n₀.inst.opcode = .checkArrayBound)
    (hn : g.nodes[i.index]? = some n) (hb : g.layout.home? i = some b) :
    Steady g₀ pos cs placed' loads gone' (g.removed i n b) := by
  have hplace : i.index < g₀.nodes.size ∨ i ∈ placed :=
    h.spread.placed b i (h.spread.sound.mem_iff.mpr hb)
  have hspread := h.spread.unplace hplace hb hgone
  refine h.change maps_removed size_removed rfl ⟨hspread.sound, hspread.kept, fun x c hc => ?_⟩
    (fun x hx => ((hplaced x).mp hx).1) (fun c hc x hx => ?_) (fun x hx => ?_) (fun x hx => (hgone x).mpr (.inl hx))
    (fun j m => ⟨rfl, rfl, fun hnil => by simp [Node.dropUses, hnil]⟩) (fun j m => ?_) ?_ (fun _ _ hm => hm)
    (fun e r he hrun => ?_) fun c hc j k x hx hj hk => .inl ?_
  · refine (hspread.placed x c hc).imp_right fun hmem => (hplaced c).mpr ⟨hmem, ?_⟩
    rintro rfl
    have hhome := hspread.sound.mem_iff.mp hc
    rw [Layout.home?_unplace, if_pos rfl] at hhome
    cases hhome
  · show c ∈ (g.layout.unplace i b).insts x
    rw [Layout.insts_unplace]
    split
    case isTrue heq => exact (List.mem_erase_of_ne ((hplaced c).mp hc).2).mpr (heq ▸ hx)
    case isFalse => exact hx
  · obtain hx | ⟨rfl, hlt⟩ := (hgone x).mp hx
    · exact h.checks x hx
    · exact hcheck hlt
  · have hiff : (j ∈ gone' ∧ j ∉ gone ∨ j ∈ placed ∧ j ∉ placed') ↔ j = i := by
      rw [hgone, hplaced]
      constructor
      · rintro (⟨hj | hj, hnot⟩ | ⟨hj, hnot⟩)
        · exact absurd hj hnot
        · exact hj.1
        · exact not_ne_iff.mp fun hne => hnot ⟨hj, hne⟩
      · rintro rfl
        obtain hlt | hmem := hplace
        · refine .inl ⟨.inr ⟨rfl, hlt⟩, fun hmem => ?_⟩
          obtain ⟨-, hnot⟩ | hmem' := hi
          · exact hnot hmem
          · exact Nat.not_lt.mpr (h.new_of_placed hmem') hlt
        · exact .inr ⟨hmem, fun hne => hne.2 rfl⟩
    simp only [hiff]
  · refine (h.lists.drop (fun _ hu => inputAt_of_node hn hu) fun d => maps_removed.inputUses? fun _ => rfl).congr
      (fun _ => rfl) (fun u => ?_) fun u _ => maps_removed.inputAt (fun _ _ => rfl) u
    unfold Reader
    rw [hplaced, hgone, not_or, not_and]
    constructor
    · rintro (⟨hu, hnot, hold⟩ | ⟨hu, hne⟩)
      · refine ⟨.inl ⟨hu, hnot⟩, ?_⟩
        rintro rfl
        obtain hlt | hmem := hplace
        · exact hold rfl hlt
        · obtain ⟨-, n₀, -, hn₀, -⟩ := ht.exists_home hu
          exact Nat.not_lt.mpr (h.new_of_placed hmem) (Array.getElem?_eq_some_iff.mp hn₀).1
      · exact ⟨.inr hu, hne⟩
    · rintro ⟨⟨hu, hnot⟩ | hu, hne⟩
      · exact .inl ⟨hu, hnot, fun heq => absurd heq hne⟩
      · exact .inr ⟨hu, hne⟩
  · obtain ⟨m, hm, hrange⟩ := range_eq_ok.mp hrun
    rw [maps_removed] at hm
    obtain ⟨n', hn', rfl⟩ := Option.map_eq_some_iff.mp hm
    exact h.ranges e r he (range_eq_ok.mpr ⟨n', hn', hrange⟩)
  · rwa [maps_removed.inputAt fun _ _ => rfl] at hk

/-! ## New instructions -/

/-- A new instruction is a constraint or the load of a length, and is in no block yet. -/
theorem extended (hu : Unconstrained g₀) (ht : Tractable g₀) {pos' : InstId → Position} {cs' loads' : List InstId}
    {v : Inst} (hcs : cs ⊆ cs') (hloads : loads ⊆ loads') (hargs : ∀ a ∈ v.args, Operand g₀ cs a)
    (hpos : ∀ c ∈ cs, pos' c = pos c) (honce : cs'.Nodup) (hlength : cs'.length ≤ cs.length + 1)
    (hmade : ∀ c ∈ cs', c ∈ cs ∨ c = g.nextId ∧ ∃ r a rest, v = .constraint r (a :: rest) ∧
      RangeIn (Symbolic g₀ cs' loads') r)
    (hloaded : ∀ d ∈ loads', d ∈ loads ∨ d = g.nextId ∧ ∃ offset cls recognized immutable o,
      v = .loadField offset cls recognized immutable o) :
    Steady g₀ pos' cs' placed loads' gone (g.withInst { inst := v }) := by
  have hold : g₀.nodes.size ≤ g.nodes.size := Nat.le_trans (Nat.le_add_left _ _) h.count
  have hlt {j : InstId} {m : Node} (hm : g.nodes[j.index]? = some m) :
      (g.withInst { inst := v }).nodes[j.index]? = some m := by
    rw [nodes_withInst, if_neg ?_, hm]
    rintro rfl
    exact Nat.lt_irrefl _ (Array.getElem?_eq_some_iff.mp hm).1
  have hself : (g.withInst { inst := v }).nodes[g.nextId.index]? = some { inst := v } := by
    rw [nodes_withInst, if_pos rfl]
  have hback {j : InstId} {m : Node} (hm : (g.withInst { inst := v }).nodes[j.index]? = some m) :
      g.nodes[j.index]? = some m ∨ j = g.nextId ∧ m = { inst := v } := by
    rw [nodes_withInst] at hm
    split at hm
    case isTrue hj => exact .inr ⟨hj, (Option.some_inj.mp hm).symm⟩
    case isFalse => exact .inl hm
  have hsymbolic {d : InstId} (hd : Symbolic g₀ cs' loads' d) : Symbolic g₀ cs loads d ∨ d = g.nextId := by
    obtain (hd | hd) | hd := hd
    · exact .inl (.inl (.inl hd))
    · exact (hmade d hd).imp (fun hd => .inl (.inr hd)) And.left
    · exact (hloaded d hd).imp .inr And.left
  have hmono {d : InstId} (hd : Symbolic g₀ cs loads d) : Symbolic g₀ cs' loads' d := hd.mono hcs hloads
  have hinput {u : Use} (hu : Reader g₀ placed gone u.user) : (g.withInst { inst := v }).inputAt u = g.inputAt u := by
    obtain ⟨-, n, -, hn, -⟩ := h.node_of_reader ht hu
    rw [inputAt_of_node hn rfl, inputAt_of_node (hlt hn) rfl]
  -- nothing refers to the new instruction
  have hunread {u : Use} (hr : Reader g₀ placed gone u.user) : g.inputAt u ≠ some g.nextId := fun hvalue => by
    obtain ⟨-, n, -, hn, -⟩ := h.node_of_reader ht hr
    rw [inputAt_of_node hn rfl] at hvalue
    have hreads : Discovered g₀ u.user ∨ u.user ∈ cs ∨ u.user ∈ loads :=
      hr.imp And.left fun hp => .inl (h.homes _ hp).1
    exact Nat.lt_irrefl _ (h.operand_lt hu (h.operands u.user n hreads hn _ (List.mem_of_getElem? hvalue)))
  constructor
  case shell => exact h.shell
  case spread => exact h.spread
  case kept =>
    intro i n₀ hn₀
    obtain ⟨n, hn, hrest⟩ := h.kept i n₀ hn₀
    exact ⟨n, hlt hn, hrest⟩
  case fresh =>
    rintro c (hc | hc)
    · exact (hmade c hc).elim (fun hc => h.fresh c (.inl hc)) fun hc => hc.1 ▸ hold
    · exact (hloaded c hc).elim (fun hc => h.fresh c (.inr hc)) fun hc => hc.1 ▸ hold
  case made =>
    intro c hc
    obtain hc | ⟨rfl, r, a, rest, rfl, hr⟩ := hmade c hc
    · obtain ⟨n, r, a, rest, hn, hinst, hr, henv⟩ := h.made c hc
      exact ⟨n, r, a, rest, hlt hn, hinst, hr.mono fun _ => hmono, henv⟩
    · exact ⟨_, r, a, rest, hself, rfl, hr, rfl, rfl⟩
  case loaded =>
    intro d hd
    obtain hd | ⟨rfl, offset, cls, recognized, immutable, o, rfl⟩ := hloaded d hd
    · obtain ⟨n, offset, cls, recognized, immutable, o, hn, hinst⟩ := h.loaded d hd
      exact ⟨n, offset, cls, recognized, immutable, o, hlt hn, hinst⟩
    · exact ⟨_, offset, cls, recognized, immutable, o, hself, rfl⟩
  case homes =>
    intro c hc
    obtain ⟨hmem, b, n, hb, hplace, hn, hblock⟩ := h.homes c hc
    exact ⟨hcs hmem, b, n, hb, hplace, hlt hn, hblock⟩
  case homeless =>
    intro c m hc hnot hm
    obtain hm | ⟨-, rfl⟩ := hback hm
    · exact h.homeless c m hc hnot hm
    · rfl
  case checks => exact h.checks
  case lists =>
    have huses (j : InstId) : (g.withInst { inst := v }).inputUses? j =
        if j = g.nextId then some [] else g.inputUses? j := by
      unfold inputUses?
      rw [nodes_withInst]
      split <;> rfl
    exact h.lists.extend huses (fun u hu => hinput hu) fun u hr => hunread hr
  case operands =>
    intro i m hi hm a ha
    obtain hm | ⟨-, rfl⟩ := hback hm
    · refine (h.operands i m ?_ hm a ha).mono hcs
      have hne : i ≠ g.nextId := by
        rintro rfl
        exact Nat.lt_irrefl _ (Array.getElem?_eq_some_iff.mp hm).1
      exact hi.imp id fun hi => hi.imp (fun hi => (hmade i hi).resolve_right fun hnew => hne hnew.1)
        fun hi => (hloaded i hi).resolve_right fun hnew => hne hnew.1
    · exact (hargs a ha).mono hcs
  case ranges =>
    intro d r hd hrun
    obtain ⟨m, hm, hrange⟩ := range_eq_ok.mp hrun
    obtain hm | ⟨-, rfl⟩ := hback hm
    · obtain hd | rfl := hsymbolic hd
      · exact (h.ranges d r hd (range_eq_ok.mpr ⟨m, hm, hrange⟩)).mono fun _ => hmono
      · exact absurd (Array.getElem?_eq_some_iff.mp hm).1 (Nat.lt_irrefl _)
    · cases hrange
  case behind =>
    intro c hc i k b hb hi hk
    have hreader : Reader g₀ placed gone i ∨ i ∈ gone :=
      (em (i ∈ gone)).symm.imp_left fun hgone => .inl ⟨ht.discovered hb hi, hgone⟩
    obtain ⟨n₀, hn₀, -⟩ := ht.node_of_mem hi
    obtain ⟨n, hn, -⟩ := h.kept i n₀ hn₀
    rw [inputAt_of_node (hlt hn) rfl, ← inputAt_of_node hn rfl] at hk
    obtain hc' | ⟨rfl, -⟩ := hmade c hc
    · rw [hpos c hc']
      exact h.behind c hc' i k b hb hi hk
    · rw [inputAt_of_node hn rfl] at hk
      exact absurd (h.operand_lt hu (h.operands i n (.inl (ht.discovered hb hi)) hn _ (List.mem_of_getElem? hk)))
        (Nat.lt_irrefl _)
  case once => exact honce
  case count =>
    have hcount := h.count
    rw [size_withInst]
    omega

theorem free (hc : c ∈ cs) (hnot : c ∉ placed) : g.layout.home? c = none := by
  cases hhome : g.layout.home? c with
  | none => rfl
  | some x =>
    obtain hlt | hmem := h.spread.placed x c (h.spread.sound.mem_iff.mpr hhome)
    · exact absurd hlt (Nat.not_lt.mpr (h.fresh c (.inl hc)))
    · exact absurd hmem hnot

/-- A constraint gets its place, and its inputs are on use lists. -/
theorem settled (ht : Tractable g₀) (hc : c ∈ cs) (hnot : c ∉ placed) (hb : g₀.Reachable b)
    (hn : g.nodes[c.index]? = some n)
    {is : List InstId} (hperm : is.Perm (c :: g.insts b))
    (hkept : is.filter (·.index < g₀.nodes.size) = (g.insts b).filter (·.index < g₀.nodes.size)) :
    Steady g₀ pos cs (placed ++ [c]) loads gone (g.settled c n b is) := by
  have hnew := h.fresh c (.inl hc)
  have hgone : c ∉ gone := fun hmem => by
    obtain ⟨n₀, hn₀, -⟩ := h.checks c hmem
    exact Nat.not_lt.mpr hnew (Array.getElem?_eq_some_iff.mp hn₀).1
  have hfree := h.free hc hnot
  have henv : n.envValues = [] := by
    obtain ⟨m, r, a, rest, hm, -, -, henv, -⟩ := h.made c hc
    obtain rfl := Option.some_inj.mp (hn.symm.trans hm)
    rw [Node.envValues, henv]
    rfl
  have hnode {j : InstId} {m : Node} (hm : g.nodes[j.index]? = some m) : ∃ m', (g.settled c n b is).nodes[j.index]? =
      some m' ∧ m'.inst = m.inst ∧ m'.env = m.env ∧ m'.range = m.range ∧ (j ≠ c → m'.block = m.block) ∧
        (j = c → m'.block = some b) ∧ m'.envUses = m.envUses := by
    have hmaps : Maps g (g.settled c n b is) _ := maps_settled
    have hmap := hmaps j
    rw [hm, Option.map_some, henv] at hmap
    refine ⟨_, hmap, ?_⟩
    by_cases hj : j = c <;> simp [hj, Node.addUses, usesBy, Edit.usesOf]
  have hback {j : InstId} {m' : Node} (hm' : (g.settled c n b is).nodes[j.index]? = some m') :
      ∃ m, g.nodes[j.index]? = some m ∧ m'.inst = m.inst ∧ m'.range = m.range ∧ (j ≠ c → m'.block = m.block) := by
    have hm'' := hm'
    rw [maps_settled] at hm''
    obtain ⟨m, hm, -⟩ := Option.map_eq_some_iff.mp hm''
    obtain ⟨m₁, hm₁, hinst, -, hrange, hblock, -⟩ := hnode hm
    obtain rfl := Option.some_inj.mp (hm'.symm.trans hm₁)
    exact ⟨m, hm, hinst, hrange, hblock⟩
  have hinput (u : Use) : (g.settled c n b is).inputAt u = g.inputAt u :=
    maps_settled.inputAt (fun j m => by rw [inst_settled]) u
  constructor
  case shell => exact shell_settled.trans h.shell
  case spread =>
    have hwide : Spread g₀ (placed ++ [c]) gone g.layout :=
      ⟨h.spread.sound, h.spread.kept, fun b d hd => (h.spread.placed b d hd).imp_right (List.mem_append_left _)⟩
    rw [layout_settled]
    exact hwide.place (by simp) hnew hfree hperm hkept
  case kept =>
    intro i n₀ hn₀
    obtain ⟨m, hm, hshape, hblock, henvUses⟩ := h.kept i n₀ hn₀
    obtain ⟨m', hm', hinst, -, -, hblock', -, henvUses'⟩ := hnode hm
    have hne : i ≠ c := by
      rintro rfl
      exact Nat.not_lt.mpr hnew (Array.getElem?_eq_some_iff.mp hn₀).1
    exact ⟨m', hm', hinst ▸ hshape, fun hi => (hblock' hne).trans (hblock hi),
      fun hnil => henvUses'.trans (henvUses hnil)⟩
  case fresh => exact h.fresh
  case made =>
    intro e he
    obtain ⟨m, r, a, rest, hm, hinst, hr, henv, henvUses⟩ := h.made e he
    obtain ⟨m', hm', hinst', henv', -, -, -, henvUses'⟩ := hnode hm
    exact ⟨m', r, a, rest, hm', hinst'.trans hinst, hr, henv'.trans henv, henvUses'.trans henvUses⟩
  case loaded =>
    intro d hd
    obtain ⟨m, offset, cls, recognized, immutable, o, hm, hinst⟩ := h.loaded d hd
    obtain ⟨m', hm', hinst', -⟩ := hnode hm
    exact ⟨m', offset, cls, recognized, immutable, o, hm', hinst'.trans hinst⟩
  case homes =>
    intro e he
    obtain he | he := List.mem_append.mp he
    · obtain ⟨hmem, x, m, hx, hplace, hm, hblock⟩ := h.homes e he
      obtain ⟨m', hm', -, -, -, hblock', -⟩ := hnode hm
      have hne : e ≠ c := fun heq => hnot (heq ▸ he)
      refine ⟨hmem, x, m', hx, ?_, hm', (hblock' hne).trans hblock⟩
      show e ∈ (g.settled c n b is).layout.insts x
      rw [layout_settled, Layout.insts_place]
      split
      case isTrue hxb => exact hperm.mem_iff.mpr (List.mem_cons_of_mem _ (hxb ▸ hplace))
      case isFalse => exact hplace
    · obtain rfl := List.mem_singleton.mp he
      obtain ⟨m', hm', -, -, -, -, hblock, -⟩ := hnode hn
      refine ⟨hc, b, m', hb, ?_, hm', hblock rfl⟩
      show e ∈ (g.settled e n b is).layout.insts b
      rw [layout_settled, Layout.insts_place, if_pos rfl]
      exact hperm.mem_iff.mpr List.mem_cons_self
  case homeless =>
    intro e m he hfree' hm
    rw [List.mem_append, List.mem_singleton, not_or] at hfree'
    obtain ⟨m₀, hm₀, -, -, hblock⟩ := hback hm
    exact (hblock hfree'.2).trans (h.homeless e m₀ he hfree'.1 hm₀)
  case checks => exact h.checks
  case lists =>
    refine ((h.lists.add (i := c) (fun u hu hr => ?_) (fun _ hu => inputAt_of_node hn hu) inputUses?_settled)).congr
      (fun _ => rfl) (fun u => ?_) fun u _ => hinput u
    · rw [hu] at hr
      obtain ⟨⟨b', hb', hi⟩, -⟩ | hr := hr
      · obtain ⟨-, n₀, -, hn₀, -⟩ := ht.exists_home ⟨b', hb', hi⟩
        exact Nat.not_lt.mpr hnew (Array.getElem?_eq_some_iff.mp hn₀).1
      · exact hnot hr
    · unfold Reader
      rw [List.mem_append, List.mem_singleton, or_assoc]
  case operands =>
    intro i m hi hm
    obtain ⟨m₀, hm₀, hinst, -⟩ := hback hm
    rw [hinst]
    exact h.operands i m₀ hi hm₀
  case ranges =>
    intro d r hd hrun
    obtain ⟨m, hm, hrange⟩ := range_eq_ok.mp hrun
    obtain ⟨m₀, hm₀, -, hrange', -⟩ := hback hm
    exact h.ranges d r hd (range_eq_ok.mpr ⟨m₀, hm₀, hrange' ▸ hrange⟩)
  case behind =>
    intro e he i k x hx hi hk
    exact h.behind e he i k x hx hi (hinput _ ▸ hk)
  case once => exact h.once
  case count =>
    rw [size_settled]
    exact h.count

end

end Steady

end Midend.Ranges
