import Midend.Proofs.Classes.Rest
import Midend.Proofs.Constants.Reaching
import Midend.Proofs.Graph.Changes
import Midend.Proofs.Keeping
import Midend.Proofs.Reports.Honest
import Midend.Proofs.Reports.Shown
import Midend.SmallIntegers

/-! # Stages that change what is not shown

Class propagation and the propagation of small integers record classes. Constant propagation that finds nothing to do
discovers the blocks anew, and loops are recorded. What has changed in this way is not to be seen in the text of a
graph, loops apart.
-/

namespace Midend.Reports

open FlowGraph

variable {α : Type} {g₀ g g' : FlowGraph} {b : BlockId} {i : InstId} {ctx : Context}

/-- Nothing that is to be seen in the text of the graph is different. -/
structure Alike (g g' : FlowGraph) : Prop where
  shows : Shows g g'
  loops : SameLoops g g'
  ranges : SameRanges g g'
  phis : SamePhis g g'

theorem Alike.refl (g : FlowGraph) : Alike g g := ⟨.refl g, .refl g, .refl g, .refl g⟩

theorem SamePhis.of_lines (hphis : ∀ (b : BlockId) k, g.blocks[b.index]? = some k →
      ∃ k', g'.blocks[b.index]? = some k' ∧ k'.phis = k.phis)
    (hlines : ∀ (i : InstId) n, g.nodes[i.index]? = some n → ∃ n', g'.nodes[i.index]? = some n' ∧ SameLine n n') :
    SamePhis g g' := by
  intro b ps hps
  obtain ⟨all, hall, hread, rfl⟩ := livePhis_eq_ok.mp hps
  obtain ⟨k, hk, rfl⟩ := phis_eq_ok.mp hall
  obtain ⟨k', hk', hsame⟩ := hphis b k hk
  have halive (phi : InstId) (hphi : phi ∈ k.phis) : g'.isAlivePhi phi = g.isAlivePhi phi := by
    obtain ⟨a, ha⟩ := hread phi hphi
    obtain ⟨n, hn, rfl⟩ := isAlivePhi_eq_ok.mp ha
    obtain ⟨n', hn', hline⟩ := hlines phi n hn
    rw [ha]
    exact isAlivePhi_eq_ok.mpr ⟨n', hn', by rw [hline.inst]⟩
  refine livePhis_eq_ok.mpr ⟨k.phis, hsame ▸ phis_eq_ok.mpr ⟨k', hk', rfl⟩, fun phi hphi => ?_, ?_⟩
  · rw [halive phi hphi]
    exact hread phi hphi
  · refine List.filter_congr fun phi hphi => ?_
    rw [halive phi hphi]

/-! ## Records of classes -/

/-- Nothing has changed but what is known of classes. -/
def OnlyRecords (g g' : FlowGraph) : Prop := ∃ reaching, Classes.OnlyClasses { g with reaching } g'

namespace OnlyRecords

theorem of_only (h : Classes.OnlyClasses g g') : OnlyRecords g g' := ⟨g.reaching, h⟩

theorem refl (g : FlowGraph) : OnlyRecords g g := of_only (.refl g)

theorem node (h : OnlyRecords g g') (i : InstId) (n : Node) (hn : g.nodes[i.index]? = some n) :
    ∃ n', g'.nodes[i.index]? = some n' ∧ SameLine n n' := by
  obtain ⟨reaching, honly⟩ := h
  obtain ⟨cls, hn'⟩ := honly.node hn
  exact ⟨_, hn', rfl, rfl, rfl, rfl⟩

theorem alike (h : OnlyRecords g g') : Alike g g' := by
  have hlines := h.node
  obtain ⟨reaching, honly⟩ := h
  have hblocks : g'.blocks = g.blocks := honly.blocks
  have hheading : heading g' = heading g := by
    obtain ⟨κ, rfl⟩ := honly
    rfl
  have hinsts (b : BlockId) : g'.insts b = g.insts b := by rw [FlowGraph.insts, honly.layout, FlowGraph.insts]
  obtain ⟨hshows, hranges⟩ :=
    Shows.of_lines hheading hinsts (fun _ k hk => ⟨k, hblocks ▸ hk, rfl, rfl, rfl⟩) hlines
  exact ⟨hshows, .of_eq hblocks, hranges, .of_lines (fun _ k hk => ⟨k, hblocks ▸ hk, rfl⟩) hlines⟩

theorem setClass {c : ClassId} : Keeps (OnlyRecords g₀) (Edit.setClass i c) := by
  rintro g ⟨reaching, honly⟩
  refine Classes.setClass_spec.mono ?_
  rintro _ _ ⟨n, -, rfl⟩
  exact ⟨reaching, honly.trans (.withNode g i c)⟩

theorem setReaching {u : Use} {c : ClassId} : Keeps (OnlyRecords g₀) (Edit.setReaching u c) := by
  rintro g ⟨reaching, κ, rfl⟩
  exact ⟨(u, c) :: reaching.filter (·.1 != u), κ, rfl⟩

end OnlyRecords

/-! ### Small integers -/

section

open SmallIntegers

variable {checked : NumberSet} {phis stack : List InstId}

theorem upholds_markUse {u : Use} : Upholds (fun _ : Progress => OnlyRecords g₀) (markUse u) :=
  .graph fun _ => .ite (fun _ => .bind (.edit fun _ => .setReaching) fun _ => .note fun _ _ h => h) fun _ => .value

theorem upholds_visitInst : Upholds (fun _ : Progress => OnlyRecords g₀) (visitInst checked i) := by
  refine .graph fun _ => .bind .read fun opcode => ?_
  split
  · exact .bind .read fun _ => .read
  · refine .bind .read fun _ => .bind (.each fun dk _ => ?_) fun _ => .value
    exact .ite (fun _ => upholds_markUse) fun _ => .value
  · exact .value

theorem upholds_visitJoinEdge : Upholds (fun _ : Progress => OnlyRecords g₀) (visitJoinEdge checked b) := by
  refine .graph fun g => ?_
  split
  · exact .value
  · refine .bind .read fun last => ?_
    split
    · refine .bind .read fun position => ?_
      cases position with
      | none => exact .value
      | some k =>
        refine .bind .read fun _ => ?_
        refine .each fun phi _ => ?_
        refine .bind .read fun _ => ?_
        refine .ite (fun _ => ?_) fun _ => .value
        refine .bind .read fun _ => .ite (fun _ => .bind upholds_markUse fun _ => ?_) fun _ => .value
        exact .note fun _ _ h => h
    · exact .value

theorem upholds_walk (height : Nat) : Upholds (fun _ : Progress => OnlyRecords g₀) (walk height checked b) := by
  induction height generalizing checked b with
  | zero => exact .fault
  | succ height ih =>
    unfold walk
    refine .graph fun g => ?_
    refine .bind (.foldlM fun inside i hi => upholds_visitInst) fun inside => ?_
    refine .graph fun g => ?_
    refine .bind .read fun k => ?_
    refine .bind (.foldlM fun inside c hc => ih) fun inside => ?_
    refine .bind upholds_visitJoinEdge fun _ => ?_
    exact .value

theorem keeps_enqueuePossible : Keeps (OnlyRecords g₀) (enqueuePossible phis phi) := by
  refine .reading fun g => ?_
  refine .andThen .lifted fun cls => ?_
  by_cases hsmi : cls = .smi
  case pos =>
    rw [if_pos hsmi]
    exact .value _
  case neg =>
    rw [if_neg hsmi]
    exact .andThen .lifted fun possible => .value _

theorem keeps_promote (steps k : Nat) : Keeps (OnlyRecords g₀) (promote steps k phis) := by
  induction steps generalizing k phis with
  | zero => exact .fault _
  | succ steps ih =>
    unfold promote
    cases phis[k]? with
    | none => exact .value _
    | some phi =>
      refine .andThen (.ignoring OnlyRecords.setClass) fun _ => ?_
      refine .reading fun g => ?_
      refine .andThen .lifted fun users => ?_
      exact .andThen (.foldlM fun _ _ _ => keeps_enqueuePossible) fun phis => ih _

theorem keeps_pushDoubtful : Keeps (OnlyRecords g₀) (pushDoubtful stack phi) := by
  refine .reading fun g => ?_
  refine .andThen .lifted fun cls => ?_
  split
  case isTrue => exact .value _
  case isFalse => exact .value _

theorem keeps_demote (steps : Nat) : Keeps (OnlyRecords g₀) (demote steps stack) := by
  induction steps generalizing stack with
  | zero => cases stack with
    | nil => exact .value _
    | cons => exact .fault _
  | succ steps ih =>
    cases stack with
    | nil => exact .value _
    | cons phi stack =>
      refine .reading fun g => ?_
      refine .andThen .lifted fun allSmi => ?_
      refine .either ih ?_
      refine .andThen (.ignoring OnlyRecords.setClass) fun _ => ?_
      refine .reading fun g => ?_
      refine .andThen .lifted fun users => ?_
      exact .andThen (.foldlM fun _ _ _ => keeps_pushDoubtful) fun stack => ih

theorem onlyRecords_propagateSmis {changed : Bool} (hrun : propagateSmis.run g = .ok (changed, g')) :
    OnlyRecords g g' := by
  have hlead : Leads True g propagateSmis fun _ g' => OnlyRecords g g' := by
    unfold propagateSmis
    rw [Leads.bind_iff, Leads.get_iff]
    dsimp only
    rw [Leads.bind_iff, Leads.lift_iff]
    refine Yields.of_ok fun _ _ => ?_
    rw [Leads.bind_iff]
    refine (upholds_walk _ {} g (.refl g)).mono fun r g₁ h₁ => ?_
    exact (Keeps.andThen (keeps_promote _ _) fun _ => .andThen (keeps_demote _) fun _ =>
      .reading fun _ => .andThen .lifted fun _ => .value _) g₁ h₁
  exact hlead.post_of_ok hrun

end

/-! ### Classes -/

section

open Classes

variable {h : Hierarchy} {phi : InstId}

/-- Unless it tells of a change, the edit, run from `g`, changes nothing but recorded classes. -/
def Discreet (g : FlowGraph) (m : Edit Bool) : Prop := Leads True g m fun changed g' => changed = false →
    OnlyClasses g g'

theorem onlyClasses_setClass {c : ClassId} : Leads True g (Edit.setClass i c) fun _ g' => OnlyClasses g g' := by
  refine setClass_spec.mono ?_
  rintro _ _ ⟨n, -, rfl⟩
  exact .withNode g i c

theorem discreet_setClass {c : ClassId} : Discreet g (Edit.setClass i c) := onlyClasses_setClass.mono fun _ _ h _ => h

theorem Discreet.anyChange {xs : List α} {f : α → Edit Bool} (hf : ∀ x ∈ xs, ∀ g, Discreet g (f x)) :
    Discreet g (Midend.anyChange xs f) :=
  Leads.anyChange_still (.refl g) (fun _ _ _ h h' => h.trans h') fun x hx g' _ => hf x hx g'

theorem Discreet.andThen {m : Edit Bool} {f : Bool → Edit Bool} (hm : Discreet g m)
    (hf : ∀ changed g, Leads True g (f changed) fun r g' => r = false → changed = false ∧ OnlyClasses g g') :
    Discreet g (m >>= f) := by
  unfold Discreet
  rw [Leads.bind_iff]
  refine Leads.mono hm fun changed g₁ h₁ => (hf changed g₁).mono fun r g₂ h₂ hnone => ?_
  obtain ⟨hunchanged, h₂⟩ := h₂ hnone
  exact (h₁ hunchanged).trans h₂

theorem Discreet.together {m : Edit Bool} {changed : Bool} (hm : Discreet g m) :
    Leads True g (m >>= fun r => pure (changed || r)) fun r g' => r = false → changed = false ∧ OnlyClasses g g' := by
  rw [Leads.bind_iff]
  exact Leads.mono hm fun r g' h hnone => (Bool.or_eq_false_iff.mp hnone).imp_right h

theorem honest_eliminateCheck : Honest g (eliminateCheck h i) := by
  refine .reading (.lifted fun d => ?_)
  split
  · refine .lifted fun known => ?_
    cases known with
    | none => exact .no
    | some cls => exact .ite (Affirms.bind fun _ => .yes).honest .no
  · exact .lifted fun _ => .ite (Affirms.bind fun _ => .yes).honest .no
  · refine .lifted fun known => ?_
    cases known with
    | none => exact .no
    | some cls => exact (Affirms.bind fun _ => .bind fun _ => .yes).honest
  · exact .no

theorem discreet_visitInst : Discreet g (Classes.visitInst h i) := by
  unfold Discreet Classes.visitInst
  rw [Leads.bind_iff, Leads.get_iff]
  split
  · exact fun _ => .refl g
  rw [Leads.bind_iff]
  refine Leads.mono honest_eliminateCheck fun taken g₁ h₁ => ?_
  cases taken with
  | true => exact fun hnone => absurd hnone Bool.noConfusion
  | false =>
    obtain rfl := h₁ rfl
    rw [if_neg Bool.false_ne_true, Leads.bind_iff, Leads.get_iff, Leads.bind_iff, Leads.lift_iff]
    refine Yields.of_ok fun d _ => ?_
    split
    · exact discreet_setClass
    · exact fun _ => .refl g₁

theorem discreet_visitPhi : Discreet g (visitPhi phi) := by
  refine visitPhi_spec.mono ?_
  rintro _ g' ⟨n, -, cs, -, r, hrun⟩ -
  exact onlyClasses_setClass.post_of_ok hrun

theorem discreet_visitBlocks : Discreet g (visitBlocks h) := by
  unfold Discreet visitBlocks
  rw [Leads.bind_iff, Leads.get_iff]
  refine Discreet.anyChange fun b _ g => ?_
  unfold Discreet
  rw [Leads.bind_iff, Leads.get_iff, Leads.bind_iff, Leads.lift_iff]
  refine Yields.of_ok fun phis _ => Discreet.andThen (.anyChange fun phi _ g => ?_) fun changed g => ?_
  · unfold Discreet
    rw [Leads.bind_iff, Leads.get_iff, Leads.bind_iff, Leads.lift_iff]
    refine Yields.of_ok fun alive _ => ?_
    split
    · exact discreet_visitPhi
    · exact fun _ => .refl g
  · rw [Leads.bind_iff, Leads.get_iff]
    exact Discreet.together (.anyChange fun i _ g => discreet_visitInst)

theorem discreet_settle (rounds : Nat) : Discreet g (settle h rounds) := by
  cases rounds with
  | zero => exact trivial
  | succ rounds =>
    unfold Discreet settle
    rw [Leads.bind_iff]
    refine Leads.mono discreet_visitBlocks fun changed g₁ h₁ => ?_
    cases changed with
    | true =>
      rw [if_pos rfl, Leads.bind_iff]
      exact .of_ok fun _ _ _ hnone => absurd hnone Bool.noConfusion
    | false => exact fun _ => h₁ rfl

theorem discreet_visitParameters : Discreet g (visitParameters ctx) := by
  unfold Discreet visitParameters
  rw [Leads.bind_iff, Leads.get_iff]
  refine Discreet.anyChange fun d _ g => ?_
  unfold Discreet
  rw [Leads.bind_iff, Leads.get_iff, Leads.bind_iff, Leads.lift_iff]
  refine Yields.of_ok fun e _ => ?_
  split
  · exact discreet_setClass
  · exact fun _ => .refl g

theorem discreet_propagateClasses : Discreet g (propagateClasses ctx) := by
  refine Discreet.andThen discreet_visitParameters fun changed g => ?_
  rw [Leads.bind_iff, Leads.get_iff]
  exact Discreet.together (discreet_settle _)

end

/-! ## Blocks that are discovered anew -/

/-- What discovery and the computation of dominators leave alone in a block. -/
def fixed (k : Block) : BlockKind × List InstId × Option (List Nat) := (k.kind, k.phis, k.loop)

/-- The text of `g` shows what the text of `g₀` shows, besides the orders of blocks and what follows from them. -/
structure Retains (g₀ g : FlowGraph) : Prop where
  header : (g.name, g.parameterCount, g.localCount, g.initialDefinitions) =
    (g₀.name, g₀.parameterCount, g₀.localCount, g₀.initialDefinitions)
  layout : g.layout = g₀.layout
  blocks : ∀ b : BlockId, (g.blocks[b.index]?).map fixed = (g₀.blocks[b.index]?).map fixed
  lines : ∀ (i : InstId) n, g₀.nodes[i.index]? = some n → ∃ n', g.nodes[i.index]? = some n' ∧ SameLine n n'

namespace Retains

theorem refl (g : FlowGraph) : Retains g g := ⟨rfl, rfl, fun _ => rfl, fun _ n hn => ⟨n, hn, .refl n⟩⟩

theorem changes (h : Retains g₀ g) (hc : Changes g g' fun _ n n' => SameLine n n')
    (hheader : (g'.name, g'.parameterCount, g'.localCount, g'.initialDefinitions) =
      (g.name, g.parameterCount, g.localCount, g.initialDefinitions))
    (hlayout : g'.layout = g.layout)
    (hblocks : ∀ b : BlockId, (g'.blocks[b.index]?).map fixed = (g.blocks[b.index]?).map fixed) : Retains g₀ g' where
  header := hheader.trans h.header
  layout := hlayout.trans h.layout
  blocks b := (hblocks b).trans (h.blocks b)
  lines i n hn := by
    obtain ⟨n₁, hn₁, hline₁⟩ := h.lines i n hn
    obtain ⟨n₂, hn₂, hline₂⟩ := hc.exists_node hn₁
    exact ⟨n₂, hn₂, hline₁.trans hline₂⟩

theorem rearrange {f : FlowGraph → FlowGraph} (hnodes : ∀ g, (f g).nodes = g.nodes)
    (hheader : ∀ g, ((f g).name, (f g).parameterCount, (f g).localCount, (f g).initialDefinitions) =
      (g.name, g.parameterCount, g.localCount, g.initialDefinitions))
    (hlayout : ∀ g, (f g).layout = g.layout)
    (hblocks : ∀ g (b : BlockId), ((f g).blocks[b.index]?).map fixed = (g.blocks[b.index]?).map fixed) :
    Keeps (Retains g₀) (modify f : Edit PUnit) := fun g h =>
  h.changes ⟨by rw [hnodes], fun _ n hn => ⟨n, hnodes g ▸ hn, .refl n⟩⟩ (hheader g) (hlayout g) (hblocks g)

theorem modifyBlock {f : Block → Block} (hf : ∀ k, fixed (f k) = fixed k) :
    Keeps (Retains g₀) (Edit.modifyBlock b f) := by
  intro g h
  rw [Leads.modifyBlock_iff]
  refine ⟨fun _ => h.changes ⟨rfl, fun _ n hn => ⟨n, hn, .refl n⟩⟩ rfl rfl fun c => ?_, fun _ => trivial⟩
  rw [blocks_withBlock, Option.map_map]
  refine Option.map_congr fun k _ => ?_
  dsimp only [Function.comp_apply]
  split
  · exact hf k
  · rfl

theorem uses {us : List (InstId × Use)} {f : InstId × Use → Node → Node} (hf : ∀ u n, SameLine n (f u n)) :
    Keeps (Retains g₀) (us.forM fun u => Edit.modifyNode? u.1 (f u)) := by
  refine .each fun u _ g h => ?_
  rw [Leads.modifyNode?_iff]
  refine h.changes (.mapNodes (f := fun j n => if j = u.1 then f u n else n) rfl fun j n => ?_) rfl rfl fun _ => rfl
  split
  · exact hf u n
  · exact .refl n

theorem addInputUses : Keeps (Retains g₀) (Edit.addInputUses i) :=
  .reading fun _ => .andThen .lifted fun _ =>
    uses (f := fun u m => { m with inputUses := m.inputUses ++ [u.2] }) fun _ _ => ⟨rfl, rfl, rfl, rfl⟩

theorem addEnvUses : Keeps (Retains g₀) (Edit.addEnvUses i) := by
  refine .andThen (.reading fun _ => .andThen .lifted fun e => ?_) fun _ =>
    uses (f := fun u m => { m with envUses := m.envUses ++ [u.2] }) fun _ _ => ⟨rfl, rfl, rfl, rfl⟩
  split <;> exact .value _

theorem computeUseLists : Keeps (Retains g₀) Edit.computeUseLists := by
  refine .andThen (fun g h => ?_) fun _ => .reading fun _ => .each fun b _ => ?_
  · refine h.changes ⟨by simp, fun i n' hn' => ?_⟩ rfl rfl fun _ => rfl
    simp only [Array.getElem?_map] at hn'
    obtain ⟨n, hn, rfl⟩ := Option.map_eq_some_iff.mp hn'
    exact ⟨n, hn, rfl, rfl, rfl, rfl⟩
  · refine .reading fun _ => ?_
    refine .andThen .lifted fun _ => ?_
    refine .andThen (.each fun _ _ => addInputUses) fun _ => ?_
    refine .reading fun _ => ?_
    refine .each fun _ _ => ?_
    exact .andThen addInputUses fun _ => addEnvUses

theorem visitBlock {pred : Option BlockId} : Keeps (Retains g₀) (Flow.visitBlock b pred) := by
  have hrest (parent : Option Nat) (g : FlowGraph) : Keeps (Retains g₀) (do
      let slots ← Flow.assignedSlots g (g.insts b)
      Edit.modifyBlock b fun k => { k with preorderNumber := some g.preorder.length }
      modify fun g => { g with
        preorder := g.preorder ++ [b]
        parents := g.parents.push parent
        assigned := g.assigned.push slots }) :=
    .andThen .lifted fun _ => .andThen (modifyBlock fun _ => rfl) fun _ =>
      rearrange (fun _ => rfl) (fun _ => rfl) (fun _ => rfl) fun _ _ => rfl
  unfold Flow.visitBlock
  refine .andThen (modifyBlock fun _ => rfl) fun _ => ?_
  cases pred with
  | none => exact .reading fun g => hrest none g
  | some p =>
    refine .andThen (modifyBlock fun _ => rfl) fun _ => ?_
    exact .reading fun g => .andThen .lifted fun k => hrest k.preorderNumber g

theorem walk {steps : Nat} {stack : List (BlockId × List BlockId)} : Keeps (Retains g₀) (Flow.walk steps stack) := by
  induction steps generalizing stack with
  | zero =>
    cases stack with
    | nil => exact .value _
    | cons e stack => exact .fault _
  | succ steps ih =>
    obtain _ | ⟨⟨b, _ | ⟨s, rest⟩⟩, stack⟩ := stack
    · exact .value _
    · refine .andThen (.reading fun _ => .andThen (modifyBlock fun _ => rfl) fun _ => ?_) fun _ => ih
      exact rearrange (fun _ => rfl) (fun _ => rfl) (fun _ => rfl) fun _ _ => rfl
    · refine .reading fun _ => .andThen .lifted fun _ => .either (.andThen (modifyBlock fun _ => rfl) fun _ => ih) ?_
      refine .andThen visitBlock fun _ => ?_
      refine .reading fun _ => ?_
      exact .andThen .lifted fun _ => ih

theorem discover : Keeps (Retains g₀) Flow.discover := by
  refine .andThen (rearrange (fun _ => rfl) (fun _ => rfl) (fun _ => rfl) fun g b => ?_) fun _ =>
    .andThen visitBlock fun _ => .reading fun _ => .andThen .lifted fun _ => walk
  rw [Array.getElem?_map, Option.map_map]
  rfl

theorem computeDominators : Keeps (Retains g₀) Flow.computeDominators := by
  refine .reading fun g => ?_
  refine .andThen .lifted fun preds => ?_
  refine .andThen (.each fun _ _ => modifyBlock fun _ => rfl) fun _ => ?_
  refine .andThen (.each fun bn _ => ?_) fun _ => .value _
  dsimp only
  split
  · refine .reading fun _ => ?_
    refine .andThen .lifted fun _ => ?_
    refine .andThen (modifyBlock fun _ => rfl) fun _ => ?_
    exact modifyBlock fun _ => rfl
  · exact .value _

theorem alike (h : Retains g g') (horders : g'.orders = g.orders) : Alike g g' := by
  obtain ⟨hpostorder, hblocks⟩ := Prod.mk.inj horders
  have hfixed (b : BlockId) (k : Block) (hk : g.blocks[b.index]? = some k) :
      ∃ k', g'.blocks[b.index]? = some k' ∧ fixed k' = fixed k ∧ (k'.preds, k'.dominator) = (k.preds, k.dominator) := by
    have hshape := h.blocks b
    rw [hk, Option.map_some] at hshape
    obtain ⟨k', hk', hsame⟩ := Option.map_eq_some_iff.mp hshape
    have horder := congrArg (·[b.index]?) hblocks
    simp only [List.getElem?_map, Array.getElem?_toList, hk, hk', Option.map_some, Option.some_inj] at horder
    exact ⟨k', hk', hsame, horder⟩
  simp only [fixed, Prod.mk.injEq] at hfixed
  have hheader := h.header
  simp only [Prod.mk.injEq] at hheader
  obtain ⟨hname, hparameters, hlocals, hinitial⟩ := hheader
  have hheading : heading g' = heading g := by rw [heading, hname, hparameters, hlocals, hinitial, hpostorder, heading]
  have hinsts (b : BlockId) : g'.insts b = g.insts b := by rw [FlowGraph.insts, h.layout, FlowGraph.insts]
  obtain ⟨hshows, hranges⟩ := Shows.of_lines hheading hinsts (fun b k hk => by
    obtain ⟨k', hk', ⟨hkind, -, -⟩, hpreds, hdominator⟩ := hfixed b k hk
    exact ⟨k', hk', hkind, hpreds, hdominator⟩) h.lines
  refine ⟨hshows, fun b k k₁ hk hk₁ => ?_, hranges, .of_lines (fun b k hk => ?_) h.lines⟩
  · obtain ⟨k', hk', ⟨-, -, hloop⟩, -⟩ := hfixed b k hk
    rw [Option.some_inj.mp (hk₁.symm.trans hk'), hloop]
  · obtain ⟨k', hk', ⟨-, hphis, -⟩, -⟩ := hfixed b k hk
    exact ⟨k', hk', hphis⟩

end Retains

/-! ## Constants -/

section

open Constants

variable {f : Facts} {blocks : List BlockId} {phi : InstId}

theorem honest_rematerialize : Honest g (rematerialize f i) := by
  unfold rematerialize
  split
  · exact .no
  · refine .reading (.lifted fun _ => .ite .no (Affirms.honest ?_))
    refine .bind fun _ => ?_
    refine .bind fun _ => ?_
    refine .bind fun _ => ?_
    refine .bind fun _ => ?_
    exact .bind fun _ => .yes

theorem honest_rematerializeAll : Honest g (rematerializeAll f blocks) :=
  .anyChange fun _ _ => .reading (.anyChange fun _ _ => honest_rematerialize)

theorem honest_straighten : Honest g (straighten f b) := by
  refine .reading ?_
  split
  · exact .no
  · refine .lifted fun _ => .ite .no (.lifted fun _ => .lifted fun _ => ?_)
    split
    · exact (Affirms.bind fun _ => .yes).honest
    · exact .no

theorem reads_compactPhis (hpreds : ∀ ps, g.preds b = .ok ps → ∀ p ∈ ps, f.isReachable p = true) :
    Reads g (compactPhis f b) := by
  unfold Reads compactPhis
  rw [Leads.bind_iff, Leads.get_iff, Leads.bind_iff, Leads.lift_iff]
  refine Yields.of_ok fun join _ => ?_
  split
  · rfl
  rw [Leads.bind_iff, Leads.lift_iff]
  refine Yields.of_ok fun ps hps => ?_
  have hall : ps.zipIdx.filter (fun x => f.isReachable x.1) = ps.zipIdx :=
    List.filter_eq_self.mpr fun x hx => hpreds ps hps x.1 (List.fst_mem_of_mem_zipIdx hx)
  rw [Leads.bind_iff, Leads.lift_iff]
  refine Yields.of_ok fun phis _ => Leads.filterM_of_forall (· = g) rfl fun phi _ g₁ hg₁ => ?_
  rw [if_neg (by simp [hall]), Leads.bind_iff, Leads.get_iff, Leads.bind_iff, Leads.lift_iff]
  exact .of_ok fun _ _ => hg₁

theorem reached_of_cutEdges : Leads True g (cutEdges f blocks) fun r _ =>
    r.1 = false → ∀ b ∈ blocks, f.isReachable b = true := by
  unfold cutEdges
  refine Leads.foldlM (fun done (r : Bool × List InstId) _ => r.1 = false → ∀ b ∈ done, f.isReachable b = true)
    (by simp) ?_
  rintro done b rest ⟨changed, redundant⟩ g₁ - h₁
  dsimp only
  split
  case isTrue => exact fun hnone => absurd hnone Bool.noConfusion
  case isFalse hb =>
    rw [Leads.bind_iff]
    refine .of_ok fun phis g₂ _ => ?_
    rw [Leads.bind_iff]
    refine .of_ok fun straightened g₃ _ hnone => List.forall_mem_append.mpr ⟨h₁ (Bool.or_eq_false_iff.mp hnone).1, ?_⟩
    simpa using hb

theorem cutEdges_unchanged (hpreds : ∀ b ∈ blocks, ∀ ps, g.preds b = .ok ps → ∀ p ∈ ps, p ∈ blocks) :
    Leads True g (cutEdges f blocks) fun r g' => r.1 = false → g' = g := by
  by_cases hall : ∀ b ∈ blocks, f.isReachable b = true
  case neg => exact reached_of_cutEdges.mono fun r _ h hnone => absurd (h hnone) hall
  unfold cutEdges
  refine Leads.foldlM (fun _ (r : Bool × List InstId) g' => r.1 = false → g' = g) (fun _ => rfl) ?_
  rintro done b rest ⟨changed, redundant⟩ g₁ hblocks h₁
  have hb : b ∈ blocks := by simp [hblocks]
  dsimp only
  rw [if_neg (by simp [hall b hb])]
  cases changed with
  | true =>
    rw [Leads.bind_iff]
    refine .of_ok fun phis g₂ _ => ?_
    rw [Leads.bind_iff]
    exact .of_ok fun straightened g₃ _ hnone => absurd hnone Bool.noConfusion
  | false =>
    obtain rfl := h₁ rfl
    rw [Leads.bind_iff]
    refine Leads.mono (reads_compactPhis fun ps hps p hp => hall p (hpreds b hb ps hps p hp)) fun phis g₂ hsame => ?_
    obtain rfl := hsame
    rw [Leads.bind_iff]
    exact Leads.mono honest_straighten fun straightened g₃ h hnone => h hnone

theorem honest_dropRedundant : Honest g (dropRedundant phi) := by
  refine .reading (.lifted fun _ => ?_)
  split
  · exact .no
  · exact (Affirms.bind fun _ => .bind fun _ => .yes).honest

theorem orders_frame : Frame fun g g' => g'.orders = g.orders where
  refl _ := rfl
  trans h h' := h'.trans h
  nodes _ := rfl
  numbered _ _ := rfl

/-- Discovering the blocks of a graph that is up to date, and computing their dominators, leaves its text alone. -/
theorem alike_rediscovery (hg : g.UpToDate) (redundant : List InstId) : Leads True g (do
      Flow.discover
      discard Flow.computeDominators
      Edit.computeUseLists
      anyChange redundant dropRedundant) fun dropped g' => dropped = false → Alike g g' := by
  obtain ⟨frontier, h, hrun, horders⟩ := hg
  have hfound : Leads True g Flow.discover fun _ g₁ =>
      Leads True g₁ Flow.computeDominators fun _ g₂ => g₂.orders = g.orders := by
    rw [← Leads.bind_iff]
    refine .of_ok fun _ g₂ hrun' => ?_
    cases hrun.symm.trans hrun'
    exact horders
  rw [Leads.bind_iff]
  refine (hfound.and (Retains.discover g (.refl g))).mono fun _ g₁ ⟨hfound, h₁⟩ => ?_
  rw [Leads.bind_iff, Leads.discard_iff]
  refine (hfound.and (Retains.computeDominators g₁ h₁)).mono fun _ g₂ ⟨horders₂, h₂⟩ => ?_
  rw [Leads.bind_iff]
  refine ((Retains.computeUseLists g₂ h₂).and orders_frame.computeUseLists).mono fun _ g₃ ⟨h₃, horders₃⟩ => ?_
  refine Leads.mono (.anyChange fun _ _ => honest_dropRedundant : Honest g₃ _) fun dropped g₄ hsame hnone => ?_
  rw [hsame hnone]
  exact h₃.alike (horders₃.trans horders₂)

/-- Constant propagation that tells of no change has only discovered the blocks anew. -/
theorem alike_propagateConstants (hg : g.UpToDate) (hrun : propagateConstants.run g = .ok (false, g')) :
    Alike g g' := by
  have hpreds : ∀ b ∈ g.reversePostorder, ∀ ps, g.preds b = .ok ps → ∀ p ∈ ps, p ∈ g.reversePostorder := by
    intro b hb ps hps p hp
    obtain ⟨t, ht, -, hsame⟩ := exists_tour_of_upToDate hg
    have hmem : b ∈ t.preorder := ht.mem_preorder_iff_reachable.mpr (hg.reachable_of_mem_order hb)
    obtain ⟨k, hk, rfl⟩ := preds_eq_ok.mp hps
    have hpredsOf : Execution.predsOf g b = k.preds := by rw [Execution.predsOf, hk, Option.map_some, Option.getD_some]
    rw [← hpredsOf, hsame b hmem] at hp
    exact hg.exact.1 p (ht.mem_preorder_iff_reachable.mp (ht.known b p hp))
  have hlead : Leads True g propagateConstants fun changed g' => changed = false → Alike g g' := by
    unfold propagateConstants transform
    rw [Leads.bind_iff, Leads.get_iff, Leads.bind_iff, Leads.lift_iff]
    refine Yields.of_ok fun f _ => ?_
    rw [Leads.bind_iff, Leads.get_iff, Leads.bind_iff]
    refine Leads.mono honest_rematerializeAll fun made g₁ h₁ => ?_
    cases made with
    | true => exact (Affirms.bind fun _ => .bind fun _ => .bind fun _ => .bind fun _ => .bind fun _ => .yes).leads
    | false =>
      obtain rfl := h₁ rfl
      rw [Leads.bind_iff]
      refine Leads.mono (cutEdges_unchanged hpreds) fun r g₂ h₂ => ?_
      obtain ⟨cut, redundant⟩ := r
      cases cut with
      | true => exact (Affirms.bind fun _ => .bind fun _ => .bind fun _ => .bind fun _ => .yes).leads
      | false =>
        obtain rfl := h₂ rfl
        simpa using alike_rediscovery hg redundant
  exact hlead.post_of_ok hrun rfl

end

end Midend.Reports
