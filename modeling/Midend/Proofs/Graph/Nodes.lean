import Midend.Inst.Traits
import Midend.Inst.Value
import Midend.Proofs.Outcome
import Midend.Proofs.Reading

/-! # Edits of single instructions and blocks

Every edit of instructions comes down to a map over the nodes of the graph, and every edit of blocks to one over the
blocks. This module has the maps, and what each of the small edits leads to.
-/

/-! ## Changing the inputs of an instruction

Exchanging inputs changes nothing else: an instruction keeps its opcode and all that follows from it.
-/

namespace Midend.Inst

variable {f h : Nat → InstId → InstId} {i : Inst}

@[simp] theorem args_mapArgs : (i.mapArgs f).args = i.args.mapIdx f := by
  cases i <;> simp [mapArgs, args]

@[simp] theorem mapArgs_mapArgs : (i.mapArgs f).mapArgs h = i.mapArgs fun k a => h k (f k a) := by
  cases i <;> simp [mapArgs, List.mapIdx_mapIdx, Function.comp_def]

/-- Only what happens to the inputs that are there counts. -/
theorem mapArgs_congr (heq : ∀ k a, i.args[k]? = some a → f k a = h k a) : i.mapArgs f = i.mapArgs h := by
  have hmap (as : List InstId) (hall : ∀ k a, as[k]? = some a → f k a = h k a) :
      as.mapIdx f = as.mapIdx h := by
    refine List.ext_getElem? fun k => ?_
    simp only [List.getElem?_mapIdx]
    cases hk : as[k]? with
    | none => rfl
    | some a => simp [hall k a hk]
  cases i <;> simp only [args] at heq <;> simp only [mapArgs]
  case phi | invokeMath | constraint => rw [hmap _ heq]
  all_goals
    simp only [List.getElem?_cons, List.getElem?_nil] at heq
    try rw [heq 0 _ (by simp)]
    try rw [heq 1 _ (by simp)]
    try rw [heq 2 _ (by simp)]

@[simp] theorem mapArgs_id : (i.mapArgs fun _ a => a) = i := by
  cases i <;> simp [mapArgs, List.mapIdx_eq_zipIdx_map]

@[simp] theorem opcode_mapArgs : (i.mapArgs f).opcode = i.opcode := by cases i <;> rfl

@[simp] theorem arguments_mapArgs : (i.mapArgs f).arguments = i.arguments := by cases i <;> rfl

@[simp] theorem successors_mapArgs : (i.mapArgs f).successors = i.successors := by cases i <;> rfl

@[simp] theorem isPhi_mapArgs : (i.mapArgs f).isPhi = i.isPhi := by cases i <;> rfl

@[simp] theorem isAlivePhi_mapArgs : (i.mapArgs f).isAlivePhi = i.isAlivePhi := by cases i <;> rfl

@[simp] theorem resultClass_mapArgs : (i.mapArgs f).resultClass = i.resultClass := by cases i <;> rfl

@[simp] theorem canDeoptimize_mapArgs : (i.mapArgs f).canDeoptimize = i.canDeoptimize := by
  cases i <;> rfl

@[simp] theorem hasSideEffect_mapArgs : (i.mapArgs f).hasSideEffect = i.hasSideEffect := by
  cases i with
  | compare c => simp [mapArgs, hasSideEffect, Comparison.isGeneric]
  | branch c => simp [mapArgs, hasSideEffect, Comparison.isGeneric]
  | _ => rfl

@[simp] theorem affectedBySideEffect_mapArgs : (i.mapArgs f).affectedBySideEffect = i.affectedBySideEffect := by
  cases i <;> rfl

@[simp] theorem isTerminator_mapArgs : (i.mapArgs f).isTerminator = i.isTerminator := by
  simp [isTerminator]

@[simp] theorem isDefinition_mapArgs : (i.mapArgs f).isDefinition = i.isDefinition := by
  simp [isDefinition]

theorem setArg_eq (k : Nat) (d : InstId) : i.setArg k d = i.mapArgs fun j a => if j = k then d else a := rfl

theorem isTerminator_of_mem_successors {b : BlockId} (h : b ∈ i.successors) : i.isTerminator = true := by
  cases i <;> first | rfl | cases h

/-! ### Phis -/

theorem eq_phi_of_isAlivePhi (h : i.isAlivePhi = true) : ∃ slot as r, i = phi slot as true r := by
  cases i with
  | phi slot as alive r =>
    obtain rfl : alive = true := h
    exact ⟨slot, as, r, rfl⟩
  | _ => exact absurd h Bool.false_ne_true

theorem isPhi_of_isAlivePhi (h : i.isAlivePhi = true) : i.isPhi = true := by
  obtain ⟨slot, as, r, rfl⟩ := eq_phi_of_isAlivePhi h
  rfl

theorem isAlivePhi_of_not_isPhi (h : i.isPhi = false) : i.isAlivePhi = false := by
  cases i with
  | phi => cases h
  | _ => rfl

theorem opcode_of_isPhi (h : i.isPhi = true) : i.opcode = .phi := by
  cases i with
  | phi => rfl
  | _ => exact absurd h Bool.false_ne_true

theorem resultClass_of_isPhi (h : i.isPhi = true) : i.resultClass = .dynamic := by
  cases i with
  | phi => rfl
  | _ => exact absurd h Bool.false_ne_true

/-- Constants and parameters are there from the start. -/
def isGiven : Inst → Bool
  | constant _ | parameter _ => true
  | _ => false

@[simp] theorem isGiven_mapArgs : (i.mapArgs f).isGiven = i.isGiven := by cases i <;> rfl

theorem eq_of_isGiven (h : i.isGiven = true) : (∃ c, i = .constant c) ∨ ∃ k, i = .parameter k := by
  cases i with
  | constant c => exact .inl ⟨c, rfl⟩
  | parameter k => exact .inr ⟨k, rfl⟩
  | _ => cases h

theorem isDefinition_of_isTerminator (h : i.isTerminator = true) : i.isDefinition = false := by
  unfold isTerminator at h
  unfold isDefinition
  cases hop : i.opcode <;> simp_all [Opcode.isTerminator, Opcode.isDefinition]

theorem revive_mapArgs : (i.mapArgs f).revive = i.revive.mapArgs f := by cases i <;> rfl

@[simp] theorem args_revive : i.revive.args = i.args := by cases i <;> rfl

@[simp] theorem opcode_revive : i.revive.opcode = i.opcode := by cases i <;> rfl

@[simp] theorem isPhi_revive : i.revive.isPhi = i.isPhi := by cases i <;> rfl

@[simp] theorem revive_revive : i.revive.revive = i.revive := by cases i <;> rfl

theorem isAlivePhi_revive : i.revive.isAlivePhi = i.isPhi := by cases i <;> rfl

theorem revive_of_not_isPhi (h : i.isPhi = false) : i.revive = i := by
  cases i with
  | phi => cases h
  | _ => rfl

end Midend.Inst

namespace Midend

/-! ## Maps over nodes -/

namespace FlowGraph

variable {g : FlowGraph} {f h : InstId → Node → Node}

def mapNodes (g : FlowGraph) (f : InstId → Node → Node) : FlowGraph :=
  { g with nodes := g.nodes.mapIdx fun k n => f ⟨k⟩ n }

@[simp] theorem nodes_mapNodes (i : InstId) :
    (g.mapNodes f).nodes[i.index]? = (g.nodes[i.index]?).map (f i) := by
  simp [mapNodes]

@[simp] theorem size_mapNodes : (g.mapNodes f).nodes.size = g.nodes.size := by simp [mapNodes]

@[simp] theorem layout_mapNodes : (g.mapNodes f).layout = g.layout := rfl

@[simp] theorem blocks_mapNodes : (g.mapNodes f).blocks = g.blocks := rfl

@[simp] theorem mapNodes_mapNodes : (g.mapNodes f).mapNodes h = g.mapNodes fun i n => h i (f i n) := by
  simp [mapNodes, Array.mapIdx_mapIdx, Function.comp_def]

theorem mapNodes_congr (heq : ∀ i n, g.nodes[i.index]? = some n → f i n = h i n) :
    g.mapNodes f = g.mapNodes h := by
  have hnodes : (g.mapNodes f).nodes = (g.mapNodes h).nodes := by
    refine Array.ext_getElem? fun k => ?_
    have hf := nodes_mapNodes (g := g) (f := f) ⟨k⟩
    have hh := nodes_mapNodes (g := g) (f := h) ⟨k⟩
    rw [hf, hh]
    cases hn : g.nodes[k]? with
    | none => rfl
    | some n => simp [heq ⟨k⟩ n hn]
  unfold mapNodes at *
  simp only at hnodes
  rw [hnodes]

@[simp] theorem mapNodes_id : (g.mapNodes fun _ n => n) = g := by
  have hnodes : (g.nodes.mapIdx fun _ n => n) = g.nodes := by
    refine Array.ext_getElem? fun k => ?_
    simp
  rw [mapNodes, hnodes]

/-- The graph with `f` applied to the node of `i` alone. -/
def withNode (g : FlowGraph) (i : InstId) (f : Node → Node) : FlowGraph :=
  g.mapNodes fun j n => if j = i then f n else n

theorem modify_eq_withNode (i : InstId) (f : Node → Node) :
    { g with nodes := g.nodes.modify i.index f } = g.withNode i f := by
  have hnodes : g.nodes.modify i.index f = g.nodes.mapIdx fun k n => if (⟨k⟩ : InstId) = i then f n else n := by
    refine Array.ext_getElem? fun k => ?_
    rw [Array.getElem?_modify, Array.getElem?_mapIdx]
    by_cases hk : i.index = k
    · subst hk
      simp
    · have hne : (⟨k⟩ : InstId) ≠ i := fun h => hk (by rw [← h])
      rw [if_neg hk]
      cases g.nodes[k]? <;> simp [hne]
  rw [withNode, mapNodes, hnodes]

theorem nodes_withNode (i j : InstId) (f : Node → Node) :
    (g.withNode i f).nodes[j.index]? = (g.nodes[j.index]?).map fun n => if j = i then f n else n :=
  nodes_mapNodes j

@[simp] theorem nodes_withNode_self (i : InstId) (f : Node → Node) :
    (g.withNode i f).nodes[i.index]? = (g.nodes[i.index]?).map f := by
  simp [nodes_withNode]

theorem nodes_withNode_ne {i j : InstId} (hne : j ≠ i) (f : Node → Node) :
    (g.withNode i f).nodes[j.index]? = g.nodes[j.index]? := by
  simp [nodes_withNode, hne]

@[simp] theorem size_withNode (i : InstId) (f : Node → Node) : (g.withNode i f).nodes.size = g.nodes.size :=
  size_mapNodes

@[simp] theorem layout_withNode (i : InstId) (f : Node → Node) : (g.withNode i f).layout = g.layout := rfl

@[simp] theorem blocks_withNode (i : InstId) (f : Node → Node) : (g.withNode i f).blocks = g.blocks := rfl

def withLayout (g : FlowGraph) (l : Layout) : FlowGraph := { g with layout := l }

@[simp] theorem nodes_withLayout (l : Layout) : (g.withLayout l).nodes = g.nodes := rfl

@[simp] theorem layout_withLayout (l : Layout) : (g.withLayout l).layout = l := rfl

@[simp] theorem withNode_withLayout (l : Layout) (i : InstId) (f : Node → Node) :
    (g.withLayout l).withNode i f = (g.withNode i f).withLayout l := rfl

end FlowGraph

/-! ## Small edits -/

namespace Leads

variable {fault : Prop} {g : FlowGraph}

theorem modifyNode_iff {i : InstId} {f : Node → Node} {post : PUnit → FlowGraph → Prop} :
    Leads fault g (Edit.modifyNode i f) post ↔
      (i.index < g.nodes.size → post ⟨⟩ (g.withNode i f)) ∧ (g.nodes.size ≤ i.index → fault) := by
  simp only [Edit.modifyNode, bind_iff, get_iff, ite_iff, set_iff, throw_iff, FlowGraph.modify_eq_withNode,
    Nat.not_lt]

@[simp] theorem modifyNode?_iff {i : InstId} {f : Node → Node} {post : PUnit → FlowGraph → Prop} :
    Leads fault g (Edit.modifyNode? i f) post ↔ post ⟨⟩ (g.withNode i f) := by
  simp only [Edit.modifyNode?, modify_iff, FlowGraph.modify_eq_withNode]

theorem onLayout_iff {f : Layout → Except Fault Layout} {post : PUnit → FlowGraph → Prop} :
    Leads fault g (Edit.onLayout f) post ↔ Yields fault (f g.layout) fun l => post ⟨⟩ (g.withLayout l) := by
  simp only [Edit.onLayout, bind_iff, get_iff, lift_iff, modify_iff, FlowGraph.withLayout]

end Leads

end Midend

/-! ## Edits of single blocks -/

namespace Midend

theorem getElem?_modify_block (bs : Array Block) (b c : BlockId) (f : Block → Block) :
    (bs.modify b.index f)[c.index]? = (bs[c.index]?).map fun k => if c = b then f k else k := by
  have hc : b.index = c.index ↔ c = b := BlockId.index_inj.trans eq_comm
  rw [Array.getElem?_modify]
  by_cases h : c = b
  · simp [h]
  · simp [hc, h]

theorem modify_modify_block (bs : Array Block) (b : BlockId) (f h : Block → Block) :
    (bs.modify b.index f).modify b.index h = bs.modify b.index fun k => h (f k) := by
  refine Array.ext_getElem? fun k => ?_
  rw [getElem?_modify_block (bs.modify b.index f) b ⟨k⟩, getElem?_modify_block bs b ⟨k⟩,
    getElem?_modify_block bs b ⟨k⟩, Option.map_map]
  congr 1
  funext x
  by_cases hk : (⟨k⟩ : BlockId) = b <;> simp [hk]

namespace FlowGraph

variable {g : FlowGraph}

/-- The graph with `f` applied to the block `b` alone. -/
def withBlock (g : FlowGraph) (b : BlockId) (f : Block → Block) : FlowGraph :=
  { g with blocks := g.blocks.modify b.index f }

theorem blocks_withBlock (b c : BlockId) (f : Block → Block) :
    (g.withBlock b f).blocks[c.index]? = (g.blocks[c.index]?).map fun k => if c = b then f k else k :=
  getElem?_modify_block g.blocks b c f

@[simp] theorem nodes_withBlock (b : BlockId) (f : Block → Block) : (g.withBlock b f).nodes = g.nodes := rfl

def mapBlocks (g : FlowGraph) (f : BlockId → Block → Block) : FlowGraph :=
  { g with blocks := g.blocks.mapIdx fun n k => f ⟨n⟩ k }

variable {f h : BlockId → Block → Block}

theorem blocks_mapBlocks (b : BlockId) : (g.mapBlocks f).blocks[b.index]? = (g.blocks[b.index]?).map (f b) := by
  simp [mapBlocks]

@[simp] theorem size_mapBlocks : (g.mapBlocks f).blocks.size = g.blocks.size := by simp [mapBlocks]

theorem ext_blocks {bs bs' : Array Block} (h : ∀ b : BlockId, bs[b.index]? = bs'[b.index]?) : bs = bs' :=
  Array.ext_getElem? fun k => h ⟨k⟩

theorem mapBlocks_mapBlocks : (g.mapBlocks f).mapBlocks h = g.mapBlocks fun b k => h b (f b k) := by
  simp [mapBlocks, Array.mapIdx_mapIdx, Function.comp_def]

theorem mapBlocks_congr (heq : ∀ b k, g.blocks[b.index]? = some k → f b k = h b k) :
    g.mapBlocks f = g.mapBlocks h := by
  have hblocks : (g.mapBlocks f).blocks = (g.mapBlocks h).blocks := by
    refine ext_blocks fun b => ?_
    rw [blocks_mapBlocks, blocks_mapBlocks]
    cases hk : g.blocks[b.index]? with
    | none => rfl
    | some k => rw [Option.map_some, Option.map_some, heq b k hk]
  unfold mapBlocks at *
  simp only at hblocks
  rw [hblocks]

theorem withBlock_eq_mapBlocks (b : BlockId) (f : Block → Block) :
    g.withBlock b f = g.mapBlocks fun c k => if c = b then f k else k := by
  have hblocks : (g.withBlock b f).blocks = (g.mapBlocks fun c k => if c = b then f k else k).blocks := by
    refine ext_blocks fun c => ?_
    rw [blocks_withBlock, blocks_mapBlocks]
  unfold mapBlocks withBlock at *
  simp only at hblocks
  rw [hblocks]

theorem mapBlocks_id : (g.mapBlocks fun _ k => k) = g := by
  have hblocks : (g.mapBlocks fun _ k => k).blocks = g.blocks := by
    refine ext_blocks fun c => ?_
    rw [blocks_mapBlocks, Option.map_id']
  unfold mapBlocks at *
  simp only at hblocks
  rw [hblocks]

end FlowGraph

/-- Control comes to a target block on one edge only. -/
def FlowGraph.SingleEntry (g : FlowGraph) : Prop :=
  ∀ b ∈ g.preorder, ∀ k ∈ g.blocks[b.index]?, k.kind = .target → k.preds.length = 1

instance {g : FlowGraph} : Decidable g.SingleEntry :=
  inferInstanceAs (Decidable (∀ b ∈ g.preorder, ∀ k ∈ g.blocks[b.index]?, k.kind = .target → k.preds.length = 1))

theorem Leads.modifyBlock_iff {fault : Prop} {g : FlowGraph} {b : BlockId} {f : Block → Block}
    {post : PUnit → FlowGraph → Prop} :
    Leads fault g (Edit.modifyBlock b f) post ↔
      (b.index < g.blocks.size → post ⟨⟩ (g.withBlock b f)) ∧ (g.blocks.size ≤ b.index → fault) := by
  simp only [Edit.modifyBlock, bind_iff, get_iff, ite_iff, set_iff, throw_iff, FlowGraph.withBlock, Nat.not_lt]

end Midend
