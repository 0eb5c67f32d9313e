import Midend.Proofs.Graph.Initial
import Midend.Proofs.Graph.Uses

/-! # What becomes of the nodes

Most edits leave every node at its place and change something in it. A new instruction in front of another one adds its
uses to the definitions that it reads.
-/

namespace Midend

namespace FlowGraph

variable {h h' : FlowGraph} {d : InstId} {n : Node}

structure Changes (h h' : FlowGraph) (change : InstId → Node → Node → Prop) : Prop where
  size : h'.nodes.size = h.nodes.size
  node : ∀ (j : InstId) n', h'.nodes[j.index]? = some n' → ∃ n, h.nodes[j.index]? = some n ∧ change j n n'

namespace Changes

variable {change change' : InstId → Node → Node → Prop}

theorem exists_node (hc : Changes h h' change) (hn : h.nodes[d.index]? = some n) :
    ∃ n', h'.nodes[d.index]? = some n' ∧ change d n n' := by
  have hlt : d.index < h'.nodes.size := hc.size ▸ (Array.getElem?_eq_some_iff.mp hn).1
  obtain ⟨m, hm, hchange⟩ := hc.node d _ (Array.getElem?_eq_getElem hlt)
  obtain rfl := Option.some_inj.mp (hn.symm.trans hm)
  exact ⟨_, Array.getElem?_eq_getElem hlt, hchange⟩

theorem mono (hc : Changes h h' change) (himp : ∀ j n n', change j n n' → change' j n n') : Changes h h' change' :=
  ⟨hc.size, fun j n' hn' => (hc.node j n' hn').imp fun n hn => ⟨hn.1, himp j n n' hn.2⟩⟩

theorem trans {h'' : FlowGraph} {change'' : InstId → Node → Node → Prop} (hc : Changes h h' change)
    (hc' : Changes h' h'' change') (himp : ∀ j n n' n'', change j n n' → change' j n' n'' → change'' j n n'') :
    Changes h h'' change'' := by
  refine ⟨hc'.size.trans hc.size, fun j n'' hn'' => ?_⟩
  obtain ⟨n', hn', hchange'⟩ := hc'.node j n'' hn''
  obtain ⟨n, hn, hchange⟩ := hc.node j n' hn'
  exact ⟨n, hn, himp j n n' n'' hchange hchange'⟩

theorem mapNodes {f : InstId → Node → Node} (hnodes : h'.nodes = (h.mapNodes f).nodes)
    (hf : ∀ j n, change j n (f j n)) : Changes h h' change := by
  refine ⟨by rw [hnodes, size_mapNodes], fun j n' hn' => ?_⟩
  rw [hnodes, nodes_mapNodes] at hn'
  obtain ⟨n, hn, rfl⟩ := Option.map_eq_some_iff.mp hn'
  exact ⟨n, hn, hf j n⟩

theorem redirected {old new : InstId} {us es : List Use} (hchange : ∀ j n, h.nodes[j.index]? = some n →
    change j n (((n.redirectInputs us new j).redirectEnv es new j).takeOver old new us es j)) :
    Changes h (h.redirected old new us es) change := by
  refine ⟨by rw [FlowGraph.redirected, nodes_forgetUses, size_mapNodes], fun j n' hn' => ?_⟩
  rw [FlowGraph.redirected, nodes_forgetUses, nodes_mapNodes] at hn'
  obtain ⟨n, hn, rfl⟩ := Option.map_eq_some_iff.mp hn'
  exact ⟨n, hn, hchange j n hn⟩

theorem removed {i : InstId} {m : Node} {b : BlockId} (hchange : ∀ j n block, (j ≠ i → block = n.block) →
    change j n { n.dropUses (Edit.usesBy i m.inst.args) (Edit.usesBy i m.envValues) j with block }) :
    Changes h (h.removed i m b) change := by
  refine mapNodes (f := fun j n => if j = i then { n.dropUses (Edit.usesBy i m.inst.args) (Edit.usesBy i m.envValues) j
    with block := none } else n.dropUses (Edit.usesBy i m.inst.args) (Edit.usesBy i m.envValues) j) ?_ fun j n => ?_
  · unfold FlowGraph.removed withNode
    rw [mapNodes_mapNodes]
    rfl
  · dsimp only
    split
    case isTrue hj => exact hchange j n none fun hne => absurd hj hne
    case isFalse => exact hchange j n n.block fun _ => rfl

end Changes

/-- The graph in which input `k` of `user`, which was `a`, is `d`. -/
def rewired (g : FlowGraph) (user : InstId) (k : Nat) (a d : InstId) : FlowGraph :=
  (g.mapNodes fun j n =>
    { n with
      inst := if j = user then n.inst.setArg k d else n.inst
      inputUses := (if j = a then n.inputUses.filter (· != ⟨user, k⟩) else n.inputUses) ++
        if j = d then [⟨user, k⟩] else [] }).forgetUses [⟨user, k⟩]

theorem size_rewired {user a d : InstId} {k : Nat} : (h.rewired user k a d).nodes.size = h.nodes.size := by
  simp [rewired]

theorem Changes.rewired {change : InstId → Node → Node → Prop} {user a : InstId} {k : Nat} (hchange : ∀ j n, change j n
    { n with
      inst := if j = user then n.inst.setArg k d else n.inst
      inputUses := (if j = a then n.inputUses.filter (· != ⟨user, k⟩) else n.inputUses) ++
        if j = d then [⟨user, k⟩] else [] }) : Changes h (h.rewired user k a d) change :=
  .mapNodes (f := fun j n =>
    { n with
      inst := if j = user then n.inst.setArg k d else n.inst
      inputUses := (if j = a then n.inputUses.filter (· != ⟨user, k⟩) else n.inputUses) ++
        if j = d then [⟨user, k⟩] else [] }) rfl hchange

end FlowGraph

namespace Leads

variable {fault : Prop} {g : FlowGraph} {user d : InstId} {k : Nat}

theorem setArg (hok : ¬ fault → ∃ n, g.nodes[user.index]? = some n ∧ k < n.inst.args.length) :
    Leads fault g (Edit.setArg user k d) fun _ g' => ∃ n a, g.nodes[user.index]? = some n ∧ n.inst.args[k]? = some a ∧
      g' = g.rewired user k a d := by
  unfold Edit.setArg Edit.dropInputUse Edit.addInputUse Edit.forgetReaching
  simp only [bind_iff, get_iff, lift_iff, modifyNode?_iff, setArgQuietly_iff, modify_iff]
  refine Yields.of_ok_or ?_ fun a ha => ?_
  · by_cases hfault : fault
    · exact .inl hfault
    · obtain ⟨n, hn, hk⟩ := hok hfault
      exact .inr ⟨_, FlowGraph.arg_eq_ok.mpr ⟨n, hn, List.getElem?_eq_getElem hk⟩⟩
  obtain ⟨n, hn, harg⟩ := FlowGraph.arg_eq_ok.mp ha
  refine ⟨fun _ _ _ => ⟨n, a, hn, harg, ?_⟩, fun hbad => ?_⟩
  · have hnodes : ((((g.withNode a fun n => { n with inputUses := n.inputUses.filter (· != ⟨user, k⟩) }).withNode user
        fun n => { n with inst := n.inst.setArg k d })).withNode d
          fun n => { n with inputUses := n.inputUses ++ [⟨user, k⟩] }) = g.mapNodes fun j n =>
        { n with
          inst := if j = user then n.inst.setArg k d else n.inst
          inputUses := (if j = a then n.inputUses.filter (· != ⟨user, k⟩) else n.inputUses) ++
            if j = d then [⟨user, k⟩] else [] } := by
      unfold FlowGraph.withNode
      rw [FlowGraph.mapNodes_mapNodes, FlowGraph.mapNodes_mapNodes]
      refine FlowGraph.mapNodes_congr fun j n _ => ?_
      split <;> split <;> split <;> simp
    have hreaching : (g.reaching.filter fun r => r.1 != ⟨user, k⟩) = g.reaching.filter (·.1 ∉ [(⟨user, k⟩ : Use)]) := by
      refine List.filter_congr fun r _ => ?_
      simp [bne, beq_eq_decide]
    unfold FlowGraph.rewired
    rw [← hnodes, FlowGraph.forgetUses]
    simp only [FlowGraph.withNode, FlowGraph.mapNodes, hreaching]
  · have hshort := hbad (if user = a then { n with inputUses := n.inputUses.filter (· != ⟨user, k⟩) } else n)
      (by rw [FlowGraph.nodes_withNode, hn]; rfl)
    have hlt : k < n.inst.args.length := (List.getElem?_eq_some_iff.mp harg).1
    split at hshort <;> exact absurd hlt (Nat.not_lt.mpr hshort)

theorem setArg_of_ok : Leads True g (Edit.setArg user k d) fun _ g' => ∃ a, g' = g.rewired user k a d :=
  (setArg fun h => absurd trivial h).mono fun _ _ ⟨_, a, _, _, heq⟩ => ⟨a, heq⟩

end Leads

end Midend

/-! ## New instructions in front of others

What a graph looks like once a new instruction has its place. Nothing else moves, and the definitions that it reads
have one more use.
-/

namespace Midend

/-! ### Lists of instructions -/

namespace Layout

variable {a i : InstId} {is : List InstId}

theorem putBefore_eq (h : a ∈ is) : ∃ front rest, is = front ++ a :: rest ∧ putBefore a i is = front ++ i :: a ::
    rest := by
  induction is with
  | nil => cases h
  | cons x xs ih =>
    unfold putBefore
    by_cases hx : x = a
    · exact ⟨[], xs, by rw [hx]; rfl, by rw [if_pos hx, hx]; rfl⟩
    · obtain ⟨front, rest, rfl, heq⟩ := ih ((List.mem_cons.mp h).resolve_left (Ne.symm hx))
      exact ⟨x :: front, rest, rfl, by rw [if_neg hx, heq]; rfl⟩

theorem filter_putBefore {p : InstId → Bool} (hi : p i = false) : (putBefore a i is).filter p = is.filter p := by
  induction is with
  | nil => rfl
  | cons x xs ih =>
    unfold putBefore
    split
    · rw [List.filter_cons_of_neg (by simp [hi])]
    · rw [List.filter_cons, List.filter_cons, ih]

theorem getLast?_putBefore (h : a ∈ is) : (putBefore a i is).getLast? = is.getLast? := by
  obtain ⟨front, rest, rfl, heq⟩ := putBefore_eq (i := i) h
  rw [heq, List.getLast?_append_cons, List.getLast?_append_cons, List.getLast?_cons_cons]

end Layout

/-! ### Uses -/

/-- The node of `j` with the uses of it among `us` and, in environments, among `es`. -/
def Node.addUses (us es : List (InstId × Use)) (j : InstId) (n : Node) : Node :=
  { n with inputUses := n.inputUses ++ Edit.usesOf us j, envUses := n.envUses ++ Edit.usesOf es j }

namespace Leads

open FlowGraph

variable {fault : Prop} {g : FlowGraph} {i a : InstId} {n m : Node} {b : BlockId}

theorem addInputUses (hn : g.nodes[i.index]? = some n) : Leads fault g (Edit.addInputUses i) fun _ g' =>
    g' = g.mapNodes fun j m => m.addUses (Edit.usesBy i n.inst.args) [] j := by
  unfold Edit.addInputUses
  rw [bind_iff, get_iff, bind_iff, lift_iff, args_iff]
  refine ⟨fun n' hn' => ?_, fun hnone => by simp [hn] at hnone⟩
  obtain rfl := Option.some_inj.mp (hn.symm.trans hn')
  refine forM (fun done g' => g' = g.mapNodes fun j m => m.addUses done [] j) (by simp [Node.addUses, Edit.usesOf]) ?_
  rintro done ⟨d, u⟩ rest _ - rfl
  simp only [Edit.addInputUse, modifyNode?_iff, withNode, mapNodes_mapNodes]
  refine mapNodes_congr fun j m _ => ?_
  simp only [Node.addUses, Edit.usesOf_concat]
  by_cases hj : j = d
  · simp [hj]
  · simp [hj, Ne.symm hj]

theorem addEnvUses (hn : g.nodes[i.index]? = some n) : Leads fault g (Edit.addEnvUses i) fun _ g' =>
    g' = g.mapNodes fun j m => m.addUses [] (Edit.usesBy i n.envValues) j := by
  unfold Edit.addEnvUses
  rw [bind_iff, envValues_iff]
  refine ⟨fun n' hn' => ?_, fun hnone => by simp [hn] at hnone⟩
  obtain rfl := Option.some_inj.mp (hn.symm.trans hn')
  refine forM (fun done g' => g' = g.mapNodes fun j m => m.addUses [] done j) (by simp [Node.addUses, Edit.usesOf]) ?_
  rintro done ⟨d, u⟩ rest _ - rfl
  simp only [Edit.addEnvUse, modifyNode?_iff, withNode, mapNodes_mapNodes]
  refine mapNodes_congr fun j m _ => ?_
  simp only [Node.addUses, Edit.usesOf_concat]
  by_cases hj : j = d
  · simp [hj]
  · simp [hj, Ne.symm hj]

theorem addUses (hn : g.nodes[i.index]? = some n) : Leads fault g (Edit.addUses i) fun _ g' =>
    g' = g.mapNodes fun j m => m.addUses (Edit.usesBy i n.inst.args) (Edit.usesBy i n.envValues) j := by
  unfold Edit.addUses
  rw [bind_iff]
  refine (addInputUses hn).mono ?_
  rintro _ _ rfl
  refine (addEnvUses (n := n.addUses (Edit.usesBy i n.inst.args) [] i) (by rw [nodes_mapNodes, hn]; rfl)).mono ?_
  rintro _ _ rfl
  rw [mapNodes_mapNodes]
  refine mapNodes_congr fun j m _ => ?_
  simp [Node.addUses, Edit.usesOf, Node.envValues]

end Leads

namespace FlowGraph

/-- The graph with `i`, of which `n` is known, in front of `a` in `b`. -/
def inserted (g : FlowGraph) (i : InstId) (n : Node) (a : InstId) (b : BlockId) (home : Option BlockId) : FlowGraph :=
  ((g.withLayout (g.layout.place i b (Layout.putBefore a i (g.layout.insts b)))).withNode i
    fun m => { m with block := home }).mapNodes
      fun j m => m.addUses (Edit.usesBy i n.inst.args) (Edit.usesBy i n.envValues) j

end FlowGraph

namespace Leads

open FlowGraph

variable {fault : Prop} {g : FlowGraph} {i a : InstId} {n m : Node} {b : BlockId}

theorem insertBefore (hi : g.nodes[i.index]? = some n) (hfree : g.layout.home? i = none)
    (ha : g.nodes[a.index]? = some m) (hb : g.layout.home? a = some b) :
    Leads fault g (Edit.insertBefore a i) fun _ g' => g' = g.inserted i n a b m.block := by
  unfold Edit.insertBefore Edit.setBlock
  have ha' (l : Layout) : (g.withLayout l).node a = .ok m := node_eq_ok.mpr ha
  rw [bind_iff, onLayout_iff, Layout.insertBefore_eq_ok.mpr ⟨b, hb, hfree, rfl⟩, Yields.ok_iff, bind_iff, get_iff,
    bind_iff, lift_iff, ha', Yields.ok_iff, bind_iff, modifyNode_iff]
  have hlt : i.index < g.nodes.size := (Array.getElem?_eq_some_iff.mp hi).1
  refine ⟨fun _ => ?_, fun h => absurd hlt (Nat.not_lt.mpr h)⟩
  refine (addUses (n := { n with block := m.block }) ?_).mono fun _ _ heq => heq
  rw [nodes_withNode, nodes_withLayout, hi]
  simp

/-- A new instruction that resumes where another one does. -/
theorem copyDeoptTarget_new {d : Inst} (ha : g.nodes[a.index]? = some m) :
    Leads fault (g.withInst { inst := d }) (Edit.copyDeoptTarget g.nextId a) fun _ g' =>
      g' = g.withInst { inst := d, deoptId := m.deoptId, env := m.env } := by
  have hnew : g.nextId.index < (g.withInst { inst := d }).nodes.size := by simp [nextId]
  have ha' : (g.withInst { inst := d }).nodes[a.index]? = some m := by
    have hlt : a.index < g.nodes.size := (Array.getElem?_eq_some_iff.mp ha).1
    rw [nodes_withInst, if_neg fun h => by simp [h, nextId] at hlt, ha]
  unfold Edit.copyDeoptTarget Edit.setEnv
  rw [bind_iff, get_iff, bind_iff, lift_iff, node_eq_ok.mpr ha', Yields.ok_iff, bind_iff, modifyNode_iff]
  refine ⟨fun _ => ?_, fun h => absurd hnew (Nat.not_lt.mpr h)⟩
  rw [withNode_withInst, bind_iff]
  have hnode (n : Node) : (g.withInst n).nodes[g.nextId.index]? = some n := by rw [nodes_withInst, if_pos rfl]
  refine (dropEnvUses (hnode _)).mono ?_
  rintro _ _ rfl
  have hsame (n : Node) : ((g.withInst n).mapNodes fun j k => k.dropUses [] (Edit.usesBy g.nextId []) j) =
      g.withInst n := by
    refine Eq.trans (mapNodes_congr fun j k _ => ?_) mapNodes_id
    simp [Node.dropUses, Edit.usesBy]
  rw [show Node.envValues _ = [] from rfl, hsame, bind_iff, modifyNode_iff]
  refine ⟨fun _ => ?_, fun h => absurd (by simp [nextId]) (Nat.not_lt.mpr h)⟩
  rw [withNode_withInst, bind_iff, get_iff, bind_iff, lift_iff, node_eq_ok.mpr (hnode _), Yields.ok_iff]
  rfl

end Leads

end Midend
