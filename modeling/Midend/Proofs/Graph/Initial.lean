import Midend.Proofs.Graph.Nodes

/-! # New definitions of the graph entry

A constant is looked for among the initial definitions before it is made.
-/

namespace Midend

theorem Leads.findM? {α : Type} {fault : Prop} {g : FlowGraph} {p : α → Edit Bool} {xs : List α}
    {r : α → Bool → Prop} (hp : ∀ x ∈ xs, Leads fault g (p x) fun b g' => g' = g ∧ r x b) :
    Leads fault g (xs.findM? p) fun o g' => g' = g ∧
      match o with
      | some x => x ∈ xs ∧ r x true
      | none => ∀ x ∈ xs, r x false := by
  induction xs with
  | nil => simp [List.findM?]
  | cons x xs ih =>
    rw [List.findM?, Leads.bind_iff]
    refine (hp x (by simp)).mono ?_
    rintro b _ ⟨rfl, hb⟩
    cases b with
    | true => simp [hb]
    | false =>
      refine (ih fun y hy => hp y (by simp [hy])).mono fun o g' ho => ⟨ho.1, ?_⟩
      cases o <;> simp_all

namespace FlowGraph

variable {g : FlowGraph}

def nextId (g : FlowGraph) : InstId := ⟨g.nodes.size⟩

def withInst (g : FlowGraph) (n : Node) : FlowGraph := { g with nodes := g.nodes.push n }

theorem nodes_withInst (n : Node) (j : InstId) :
    (g.withInst n).nodes[j.index]? = if j = g.nextId then some n else g.nodes[j.index]? := by
  have hj : j = g.nextId ↔ j.index = g.nodes.size := InstId.index_inj.symm
  simp only [withInst, Array.getElem?_push, hj]

@[simp] theorem size_withInst (n : Node) : (g.withInst n).nodes.size = g.nodes.size + 1 := by
  simp [withInst]

@[simp] theorem withNode_withInst (n : Node) (f : Node → Node) :
    (g.withInst n).withNode g.nextId f = g.withInst (f n) := by
  have hnodes : ((g.withInst n).withNode g.nextId f).nodes = (g.withInst (f n)).nodes := by
    refine Array.ext_getElem? fun k => ?_
    have hleft := nodes_withNode (g := g.withInst n) g.nextId ⟨k⟩ f
    rw [nodes_withInst] at hleft
    rw [hleft, nodes_withInst (g := g) (f n) ⟨k⟩]
    by_cases hk : (⟨k⟩ : InstId) = g.nextId
    · simp [hk]
    · cases g.nodes[k]? <;> simp [hk]
  unfold withNode mapNodes withInst at *
  simp only at hnodes
  rw [hnodes]

/-- The graph in which `i` has the next index for values. -/
def numbered (g : FlowGraph) (i : InstId) : FlowGraph :=
  { g.withNode i fun n => { n with ssaIndex := some g.nextSsaIndex } with nextSsaIndex := g.nextSsaIndex + 1 }

def withInitial (g : FlowGraph) (d : Inst) : FlowGraph :=
  { g.withInst { inst := d, block := some graphEntry, ssaIndex := some g.nextSsaIndex } with
    nextSsaIndex := g.nextSsaIndex + 1
    initialDefinitions := g.initialDefinitions ++ [g.nextId] }

theorem nodes_withInitial (d : Inst) (j : InstId) : (g.withInitial d).nodes[j.index]? =
    if j = g.nextId then some { inst := d, block := some graphEntry, ssaIndex := some g.nextSsaIndex }
    else g.nodes[j.index]? :=
  nodes_withInst _ j

theorem nodes_withInitial_of_some {d : Inst} {j : InstId} {n : Node} (hn : g.nodes[j.index]? = some n) :
    (g.withInitial d).nodes[j.index]? = some n := by
  have hlt : j.index < g.nodes.size := (Array.getElem?_eq_some_iff.mp hn).1
  rw [nodes_withInitial, if_neg fun h => by simp [h, nextId] at hlt, hn]

end FlowGraph

namespace Leads

variable {fault : Prop} {g : FlowGraph}

@[simp] theorem addInst_iff {d : Inst} {post : InstId → FlowGraph → Prop} :
    Leads fault g (Edit.addInst d) post ↔ post g.nextId (g.withInst { inst := d }) := .rfl

theorem allocSsaIndex_iff {i : InstId} {post : Nat → FlowGraph → Prop} :
    Leads fault g (Edit.allocSsaIndex i) post ↔
      (i.index < g.nodes.size → post g.nextSsaIndex (g.numbered i)) ∧ (g.nodes.size ≤ i.index → fault) := by
  unfold Edit.allocSsaIndex
  simp only [bind_iff, modifyNode_iff, modify_iff, get_iff, pure_iff]
  rfl

theorem addInitialDefinition_iff {d : Inst} {post : InstId → FlowGraph → Prop} :
    Leads fault g (Edit.addInitialDefinition d) post ↔
      post g.nextId { g.withInst { inst := d, block := some FlowGraph.graphEntry } with
        initialDefinitions := g.initialDefinitions ++ [g.nextId] } := by
  unfold Edit.addInitialDefinition
  simp only [bind_iff, addInst_iff, modifyNode_iff, modify_iff, pure_iff, FlowGraph.withNode_withInst,
    FlowGraph.size_withInst]
  have hlt : g.nextId.index < g.nodes.size + 1 := Nat.lt_succ_self _
  simp only [hlt, Nat.not_le.mpr hlt, true_implies, false_implies, and_true]
  rfl

theorem addInitial_iff {d : Inst} {post : InstId → FlowGraph → Prop} :
    Leads fault g (do
        let i ← Edit.addInitialDefinition d
        discard <| Edit.allocSsaIndex i
        return i) post ↔ post g.nextId (g.withInitial d) := by
  simp only [bind_iff, addInitialDefinition_iff, discard_iff, allocSsaIndex_iff, pure_iff,
    FlowGraph.size_withInst]
  have hlt : g.nextId.index < g.nodes.size + 1 := Nat.lt_succ_self _
  simp only [hlt, Nat.not_le.mpr hlt, true_implies, false_implies, and_true]
  have hsame := congrArg FlowGraph.nodes (FlowGraph.withNode_withInst (g := g)
    { inst := d, block := some FlowGraph.graphEntry } fun n => { n with ssaIndex := some g.nextSsaIndex })
  have hgraph : FlowGraph.numbered { g.withInst { inst := d, block := some FlowGraph.graphEntry } with
      initialDefinitions := g.initialDefinitions ++ [g.nextId] } g.nextId = g.withInitial d := by
    unfold FlowGraph.numbered FlowGraph.withInitial FlowGraph.withNode FlowGraph.mapNodes at *
    simp only at hsame ⊢
    rw [FlowGraph.mk.injEq]
    exact ⟨rfl, rfl, rfl, rfl, rfl, rfl, rfl, hsame, rfl, rfl, rfl, rfl, rfl, rfl, rfl, rfl⟩
  rw [hgraph]

/-- A constant is made only if no initial definition has it. -/
theorem getConstant_cases {c : Constant}
    (hok : ¬ fault → ∀ d ∈ g.initialDefinitions, d.index < g.nodes.size) :
    Leads fault g (Edit.getConstant c) fun i g' =>
      (g' = g ∧ i ∈ g.initialDefinitions ∧
        ∃ n c', g.nodes[i.index]? = some n ∧ n.inst = .constant c' ∧ c' == c) ∨
      ((∀ d ∈ g.initialDefinitions, ∃ n, g.nodes[d.index]? = some n ∧ (n.inst.constant? == some c) = false) ∧
        i = g.nextId ∧ g' = g.withInitial (.constant c)) := by
  unfold Edit.getConstant
  rw [bind_iff, get_iff, bind_iff]
  refine (findM? (r := fun d b => ∃ n, g.nodes[d.index]? = some n ∧
    (n.inst.constant? == some c) = b) fun d hd => ?_).mono ?_
  · simp only [bind_iff, lift_iff, FlowGraph.constantOf, FlowGraph.inst, FlowGraph.node, Yields.bind_iff,
      Yields.orFault_iff, Yields.pure_iff, pure_iff, true_and]
    refine ⟨fun n hn => ⟨n, hn, rfl⟩, fun hnone => ?_⟩
    by_contra hfault
    rw [Array.getElem?_eq_none_iff] at hnone
    exact Nat.not_le.mpr (hok hfault d hd) hnone
  · rintro r _ ⟨rfl, hr⟩
    cases r with
    | some i =>
      obtain ⟨hmem, n, hn, hc⟩ := hr
      cases hinst : n.inst.constant? with
      | none => simp [hinst] at hc
      | some c' =>
        have hconst : n.inst = .constant c' := by
          cases hi : n.inst <;> simp [hi, Inst.constant?] at hinst
          rw [hinst]
        exact .inl ⟨rfl, hmem, n, c', hn, hconst, by simpa [hinst] using hc⟩
    | none =>
      refine (addInitial_iff (d := .constant c)).mpr ?_
      exact .inr ⟨hr, rfl, rfl⟩

theorem getConstant {c : Constant}
    (hok : ¬ fault → ∀ d ∈ g.initialDefinitions, d.index < g.nodes.size) :
    Leads fault g (Edit.getConstant c) fun i g' =>
      (g' = g ∧ i ∈ g.initialDefinitions ∧
        ∃ n c', g.nodes[i.index]? = some n ∧ n.inst = .constant c' ∧ c' == c) ∨
      (i = g.nextId ∧ g' = g.withInitial (.constant c)) :=
  (getConstant_cases hok).mono fun _ _ => Or.imp_right And.right

end Leads

end Midend
