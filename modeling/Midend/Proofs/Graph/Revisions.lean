import Midend.Proofs.Graph.UseLists

/-! # Revisions of graphs

The edits that place, move, replace and remove instructions keep the use lists exact, each of them alone and one after
another, where the graph allows them. And what was known to reach an input is forgotten when the input is changed.
-/

namespace Midend

open FlowGraph Edit

namespace FlowGraph

variable {g : FlowGraph}

@[simp] theorem reaching_withLayout (l : Layout) : (g.withLayout l).reaching = g.reaching := rfl

@[simp] theorem reaching_mapNodes (f : InstId → Node → Node) : (g.mapNodes f).reaching = g.reaching := rfl

@[simp] theorem reaching_withNode (i : InstId) (f : Node → Node) : (g.withNode i f).reaching = g.reaching := rfl

end FlowGraph

namespace Leads

variable {fault : Prop} {g : FlowGraph} {i anchor : InstId} {n m : Node} {b c : BlockId}

/-! ## What single edits lead to -/

theorem tell {is : List InstId} (hn : g.nodes[i.index]? = some n) :
    Leads fault (g.withLayout (g.layout.place i b is)) (do Edit.setBlock i (some b); Edit.addUses i) fun _ g' =>
      g' = g.settled i n b is := by
  have hlt : i.index < g.nodes.size := (Array.getElem?_eq_some_iff.mp hn).1
  unfold Edit.setBlock
  rw [bind_iff, modifyNode_iff]
  refine ⟨fun _ => ?_, fun hge => absurd hlt (Nat.not_lt.mpr hge)⟩
  refine (addUses (n := { n with block := some b }) ?_).mono fun _ _ heq => heq
  rw [nodes_withNode_self, nodes_withLayout, hn]
  rfl

theorem append (hn : g.nodes[i.index]? = some n) (hfree : g.layout.home? i = none) :
    Leads fault g (Edit.append b i) fun _ g' => g' = g.settled i n b (g.layout.insts b ++ [i]) := by
  unfold Edit.append Edit.link
  rw [bind_iff, bind_iff, onLayout_iff, Layout.append_eq_ok.mpr ⟨hfree, rfl⟩, Yields.ok_iff]
  exact bind_iff.mp (tell hn)

theorem prepend (hn : g.nodes[i.index]? = some n) (hfree : g.layout.home? i = none) :
    Leads fault g (Edit.prepend b i) fun _ g' => g' = g.settled i n b (i :: g.layout.insts b) := by
  unfold Edit.prepend
  rw [bind_iff, onLayout_iff, Layout.prepend_eq_ok.mpr ⟨hfree, rfl⟩, Yields.ok_iff]
  exact tell hn

theorem insertAfter (hn : g.nodes[i.index]? = some n) (hfree : g.layout.home? i = none)
    (ha : g.nodes[anchor.index]? = some m) (hb : g.layout.home? anchor = some b) (hm : m.block = some b) :
    Leads fault g (Edit.insertAfter anchor i) fun _ g' =>
      g' = g.settled i n b (Layout.putAfter anchor i (g.layout.insts b)) := by
  have ha' (l : Layout) : (g.withLayout l).node anchor = .ok m := node_eq_ok.mpr ha
  unfold Edit.insertAfter Edit.linkAfter
  rw [bind_iff, bind_iff, onLayout_iff, Layout.insertAfter_eq_ok.mpr ⟨b, hb, hfree, rfl⟩, Yields.ok_iff, bind_iff,
    get_iff, bind_iff, lift_iff, ha', Yields.ok_iff, hm]
  exact bind_iff.mp (tell hn)

/-- The graph with `i` taken off the list of `c` and put in front of an anchor on that of `b`. -/
def moved (g : FlowGraph) (i anchor : InstId) (c b : BlockId) : FlowGraph :=
  (g.withLayout ((g.layout.unplace i c).place i b
  (Layout.putBefore anchor i ((g.layout.unplace i c).insts b)))).withNode i
    fun n => { n with block := some b }

theorem moveBefore (hi : i.index < g.nodes.size) (hc : g.layout.home? i = some c) (ha : g.nodes[anchor.index]? = some m)
    (hb : g.layout.home? anchor = some b) (hm : m.block = some b) (hne : i ≠ anchor) :
    Leads fault g (Edit.moveBefore i anchor) fun _ g' => g' = moved g i anchor c b := by
  have hnode (l l' : Layout) : ((g.withLayout l).withLayout l').node anchor = .ok m := node_eq_ok.mpr ha
  have hanchor : (g.layout.unplace i c).home? anchor = some b := by rw [Layout.home?_unplace, if_neg (Ne.symm hne), hb]
  have hfree : (g.layout.unplace i c).home? i = none := by rw [Layout.home?_unplace, if_pos rfl]
  unfold Edit.moveBefore Edit.setBlock
  rw [bind_iff, onLayout_iff, Layout.remove_eq_ok.mpr ⟨c, hc, rfl⟩, Yields.ok_iff, bind_iff, onLayout_iff,
    layout_withLayout, Layout.insertBefore_eq_ok.mpr ⟨b, hanchor, hfree, rfl⟩, Yields.ok_iff, bind_iff, get_iff,
    bind_iff, lift_iff]
  rw [hnode, Yields.ok_iff, hm, modifyNode_iff, nodes_withLayout, nodes_withLayout]
  refine ⟨fun _ => ?_, fun hge => absurd hi (Nat.not_lt.mpr hge)⟩
  unfold moved
  rfl

/-- The graph with the instructions of one block behind those of another. -/
def gathered (g : FlowGraph) (source target : BlockId) : FlowGraph :=
  (g.withLayout (g.layout.moveAll source target)).mapNodes fun j n =>
    if j ∈ g.layout.insts source then { n with block := some target } else n

theorem moveAll {source target : BlockId} (hbounded : ∀ i ∈ g.layout.insts source, i.index < g.nodes.size) :
    Leads fault g (Edit.moveAll source target) fun _ g' => g' = gathered g source target := by
  unfold Edit.moveAll Edit.setBlock
  rw [bind_iff, get_iff, bind_iff, onLayout_iff, Yields.ok_iff]
  refine forM (fun done g' => g' = (g.withLayout (g.layout.moveAll source target)).mapNodes fun j n =>
    if j ∈ done then { n with block := some target } else n) (by simp) ?_
  rintro done i rest _ hsplit rfl
  rw [modifyNode_iff]
  refine ⟨fun _ => ?_, fun hge => absurd (hbounded i ?_) (Nat.not_lt.mpr (by simpa using hge))⟩
  · unfold withNode
    rw [mapNodes_mapNodes]
    refine mapNodes_congr fun k n _ => ?_
    by_cases hk : k = i
    · by_cases hd : i ∈ done <;> simp [hk, hd]
    · simp [hk]
  · show i ∈ g.insts source
    rw [hsplit]
    simp

theorem setEnv {e : Option Environment} (hn : g.nodes[i.index]? = some n) :
    Leads fault g (Edit.setEnv i e) fun _ g' => g' = g.resuming i n e := by
  have hlt : i.index < g.nodes.size := (Array.getElem?_eq_some_iff.mp hn).1
  unfold Edit.setEnv
  rw [bind_iff]
  refine (dropEnvUses hn).mono ?_
  rintro _ _ rfl
  rw [bind_iff, modifyNode_iff]
  refine ⟨fun _ => ?_, fun hge => absurd hlt (Nat.not_lt.mpr (by simpa using hge))⟩
  have hnode : ((g.mapNodes fun j m => m.dropUses [] (usesBy i n.envValues) j).withNode i
      fun m => { m with env := e }).nodes[i.index]? =
      some { n.dropUses [] (usesBy i n.envValues) i with env := e } := by
    rw [nodes_withNode_self, nodes_mapNodes, hn]
    rfl
  rw [bind_iff, get_iff, bind_iff, lift_iff, node_eq_ok.mpr hnode, Yields.ok_iff, ite_iff]
  unfold resuming
  refine ⟨fun hsome => ?_, fun hnone => ?_⟩
  · rw [if_pos (show n.block.isSome = true from hsome)]
    exact addEnvUses hnode
  · rw [if_neg (show ¬ n.block.isSome = true from hnone)]
    rfl

theorem copyDeoptTarget {target source : InstId} (hs : g.nodes[source.index]? = some m)
    (ht : g.nodes[target.index]? = some n) :
    Leads fault g (Edit.copyDeoptTarget target source) fun _ g' =>
      g' = (g.withNode target fun k => { k with deoptId := m.deoptId }).resuming target { n with deoptId := m.deoptId }
        m.env := by
  have hlt : target.index < g.nodes.size := (Array.getElem?_eq_some_iff.mp ht).1
  unfold Edit.copyDeoptTarget
  rw [bind_iff, get_iff, bind_iff, lift_iff, node_eq_ok.mpr hs, Yields.ok_iff, bind_iff, modifyNode_iff]
  refine ⟨fun _ => setEnv ?_, fun hge => absurd hlt (Nat.not_lt.mpr hge)⟩
  rw [nodes_withNode_self, ht]
  rfl

theorem ensureSsaIndex {new old : InstId} (hnew : new.index < g.nodes.size) (hold : old.index < g.nodes.size) :
    Leads fault g (Edit.ensureSsaIndex new old) fun _ g' => g' = g ∨ g' = g.numbered new := by
  unfold Edit.ensureSsaIndex
  rw [bind_iff, get_iff, bind_iff, lift_iff, node_eq_ok.mpr (Array.getElem?_eq_getElem hnew), Yields.ok_iff, ite_iff]
  refine ⟨fun _ => ?_, fun _ => .inl rfl⟩
  rw [bind_iff, lift_iff, node_eq_ok.mpr (Array.getElem?_eq_getElem hold), Yields.ok_iff, ite_iff, discard_iff,
    allocSsaIndex_iff]
  exact ⟨fun _ => ⟨fun _ => .inr rfl, fun hge => absurd hnew (Nat.not_lt.mpr hge)⟩, fun _ => .inl rfl⟩

def withoutPhi (g : FlowGraph) (i : InstId) (n : Node) (b : BlockId) : FlowGraph :=
  ((g.withBlock b fun k => { k with phis := k.phis.filter (· != i) }).mapNodes fun j m =>
    m.dropUses (usesBy i n.inst.args) (usesBy i n.envValues) j).withNode i fun m => { m with block := none }

theorem removePhi (hn : g.nodes[i.index]? = some n) (hblock : n.block = some b) (hb : b.index < g.blocks.size) :
    Leads fault g (Edit.removePhi i) fun _ g' => g' = withoutPhi g i n b := by
  have hlt : i.index < g.nodes.size := (Array.getElem?_eq_some_iff.mp hn).1
  unfold Edit.removePhi Edit.setBlock
  rw [bind_iff, get_iff, bind_iff, lift_iff, node_eq_ok.mpr hn, Yields.ok_iff]
  simp only [hblock, bind_iff, modifyBlock_iff]
  refine ⟨fun _ => ?_, fun hge => absurd hb (Nat.not_lt.mpr hge)⟩
  refine (dropInputUses (g := g.withBlock b _) (n := n) hn).mono ?_
  rintro _ _ rfl
  have hleft : ((g.withBlock b fun k => { k with phis := k.phis.filter (· != i) }).mapNodes fun j m =>
      m.dropUses (usesBy i n.inst.args) [] j).nodes[i.index]? = some (n.dropUses (usesBy i n.inst.args) [] i) := by
    rw [nodes_mapNodes, nodes_withBlock, hn]
    rfl
  refine (dropEnvUses hleft).mono ?_
  rintro _ _ rfl
  rw [modifyNode_iff]
  refine ⟨fun _ => ?_, fun hge => absurd hlt (Nat.not_lt.mpr (by simpa using hge))⟩
  have hdrop (j : InstId) (m : Node) : (m.dropUses (usesBy i n.inst.args) [] j).dropUses [] (usesBy i n.envValues) j =
      m.dropUses (usesBy i n.inst.args) (usesBy i n.envValues) j := by
    simp [Node.dropUses]
  have hsame : (n.dropUses (usesBy i n.inst.args) [] i).envValues = n.envValues := rfl
  unfold withoutPhi
  simp only [mapNodes_mapNodes, hsame, hdrop]

end Leads

namespace FlowGraph

variable {g g' g'' : FlowGraph} {f : InstId → Node → Node} {i anchor old new : InstId} {n : Node} {b c : BlockId}

/-! ## Classes that reach inputs -/

/-- What was known to reach an input is forgotten if the input is another one, and nothing new is known. -/
structure Forgets (g g' : FlowGraph) : Prop where
  changed : ∀ u, g'.inputAt u ≠ g.inputAt u → g'.reachingClass? u = none
  kept : ∀ u, g'.reachingClass? u = g.reachingClass? u ∨ g'.reachingClass? u = none

namespace Forgets

theorem of_same (hinput : ∀ u, g'.inputAt u = g.inputAt u) (hreaching : g'.reaching = g.reaching) : Forgets g g' where
  changed u hu := absurd (hinput u) hu
  kept u := .inl (by unfold reachingClass?; rw [hreaching])

theorem refl (g : FlowGraph) : Forgets g g := of_same (fun _ => rfl) rfl

theorem trans (h : Forgets g g') (h' : Forgets g' g'') : Forgets g g'' where
  changed u hu := by
    by_cases hsame : g''.inputAt u = g'.inputAt u
    · have hnone := h.changed u (hsame ▸ hu)
      exact (h'.kept u).elim (fun heq => heq.trans hnone) id
    · exact h'.changed u hsame
  kept u := (h'.kept u).elim (fun heq => heq ▸ h.kept u) .inr

theorem rewired {user a d : InstId} {k : Nat} (ha : g.inputAt ⟨user, k⟩ = some a) :
    Forgets g (g.rewired user k a d) := by
  have hreaching (u : Use) : (g.rewired user k a d).reachingClass? u =
      if u ∈ [(⟨user, k⟩ : Use)] then none else g.reachingClass? u := reachingClass?_forgetUses _ u
  refine ⟨fun u hu => ?_, fun u => ?_⟩
  · rw [inputAt_rewired ha] at hu
    rw [hreaching, if_pos]
    by_contra hnot
    rw [if_neg fun heq => hnot (List.mem_singleton.mpr heq)] at hu
    exact hu rfl
  · rw [hreaching]
    split
    · exact .inr rfl
    · exact .inl rfl

theorem redirected {us es : List Use} : Forgets g (g.redirected old new us es) := by
  have hreaching (u : Use) : (g.redirected old new us es).reachingClass? u =
      if u ∈ us then none else g.reachingClass? u := reachingClass?_forgetUses us u
  refine ⟨fun u hu => ?_, fun u => ?_⟩
  · rw [inputAt_redirected] at hu
    rw [hreaching, if_pos]
    by_contra hnot
    exact hu (by simp [hnot])
  · rw [hreaching]
    split
    · exact .inr rfl
    · exact .inl rfl

end Forgets

/-- The use lists are exact, and nothing is known of inputs but what was known of them before. -/
structure Revised (g g' : FlowGraph) : Prop where
  exact : g'.Exact
  forgets : Forgets g g'

theorem Revised.trans (h : Revised g g') (h' : Revised g' g'') : Revised g g'' := ⟨h'.exact, h.forgets.trans h'.forgets⟩

/-! ## Graphs that edits lead to -/

/-- The instruction is of the graph, but on no list and among the phis of no block. -/
structure Unplaced (g : FlowGraph) (i : InstId) : Prop where
  known : i.index < g.nodes.size
  free : g.layout.home? i = none
  noPhi : ∀ b, ¬ g.HasPhi b i

structure Unmoved (g g' : FlowGraph) : Prop where
  size : g'.nodes.size = g.nodes.size
  layout : g'.layout = g.layout
  blocks : g'.blocks = g.blocks

namespace Unmoved

theorem onList_iff (h : Unmoved g g') (i : InstId) : g'.OnList i ↔ g.OnList i := by
  unfold OnList
  rw [h.layout]

theorem unplaced (h : Unmoved g g') (hi : g.Unplaced i) : g'.Unplaced i where
  known := h.size ▸ hi.known
  free := h.layout ▸ hi.free
  noPhi b hb := hi.noPhi b ((hasPhi_of_blocks h.blocks).mp hb)

end Unmoved

def Unused (g : FlowGraph) (i : InstId) : Prop := g.inputUses? i = some [] ∧ g.envUses? i = some []

theorem size_resuming {e : Option Environment} : (g.resuming i n e).nodes.size = g.nodes.size := by
  unfold FlowGraph.resuming
  split <;> simp

namespace Exact

theorem block_of_home (h : g.Exact) (hb : g.layout.home? i = some b) :
    ∃ n, g.nodes[i.index]? = some n ∧ n.block = some b := Option.bind_eq_some_iff.mp (h.housed.placed i b hb)

theorem known (h : g.Exact) (hi : g.OnList i) : i.index < g.nodes.size := by
  obtain ⟨b, hb⟩ := hi
  obtain ⟨n, hn, -⟩ := h.block_of_home hb
  exact (Array.getElem?_eq_some_iff.mp hn).1

theorem settled (h : g.Exact) (hn : g.nodes[i.index]? = some n) (hi : g.Unplaced i) {is : List InstId}
    (his : is.Perm (i :: g.layout.insts b)) : Revised g (g.settled i n b is) := by
  refine ⟨h.settle hn hi.free hi.noPhi his, .of_same (maps_settled.inputAt fun j m => by rw [inst_settled]) ?_⟩
  unfold FlowGraph.settled
  rw [reaching_mapNodes, reaching_withNode, reaching_withLayout]

theorem moved (h : g.Exact) (hc : g.layout.home? i = some c) (hb : g.layout.home? anchor = some b) (hne : i ≠ anchor) :
    Revised g (Leads.moved g i anchor c b) := by
  obtain ⟨n, hn, -⟩ := h.block_of_home hc
  have hmaps : Maps g (Leads.moved g i anchor c b) fun j m => if j = i then { m with block := some b } else m := by
    intro j
    unfold Leads.moved
    rw [nodes_withNode, nodes_withLayout]
  have hmem : anchor ∈ (g.layout.unplace i c).insts b := by
    rw [(h.housed.sound.unplace hc).mem_iff, Layout.home?_unplace, if_neg (Ne.symm hne), hb]
  have hlayout : (Leads.moved g i anchor c b).layout =
      (g.layout.unplace i c).place i b (Layout.putBefore anchor i ((g.layout.unplace i c).insts b)) := by
    rw [Leads.moved, layout_withNode, layout_withLayout]
  have hblocks : (Leads.moved g i anchor c b).blocks = g.blocks := by
    rw [Leads.moved, blocks_withNode, blocks_withLayout]
  have hhere : (Leads.moved g i anchor c b).blockOf i = some b := by
    unfold blockOf
    rw [hmaps, hn]
    simp
  have hphis (d : BlockId) (j : InstId) : (Leads.moved g i anchor c b).HasPhi d j ↔ g.HasPhi d j :=
    hasPhi_of_blocks hblocks
  have hlist (j : InstId) : (Leads.moved g i anchor c b).OnList j ↔ g.OnList j := by
    unfold OnList
    rw [hlayout, Layout.home?_place, Layout.home?_unplace]
    by_cases hj : j = i
    · simp [hj, hc]
    · simp [hj]
  have hhoused := h.housed.move hc (Layout.putBefore_perm hmem) hlayout hhere
    (fun j hj => hmaps.blockOf fun m => by rw [if_neg hj]) hphis
  refine ⟨h.relocate hhoused hmaps (fun j m => ?_) hlist hphis, .of_same (hmaps.inputAt fun j m => by split <;> rfl) ?_⟩
  · split <;> exact ⟨rfl, rfl, rfl, rfl⟩
  · rw [Leads.moved, reaching_withNode, reaching_withLayout]

theorem gathered (h : g.Exact) (source target : BlockId) : Revised g (Leads.gathered g source target) := by
  have hmaps : Maps g (Leads.gathered g source target) fun j m =>
      if j ∈ g.layout.insts source then { m with block := some target } else m := by
    intro j
    unfold Leads.gathered
    rw [nodes_mapNodes, nodes_withLayout]
  have hlayout : (Leads.gathered g source target).layout = g.layout.moveAll source target := rfl
  refine ⟨h.relocate (h.housed.moveAll hlayout (fun j => ?_) fun _ _ => .rfl) hmaps (fun j m => ?_) (fun j => ?_)
    fun _ _ => .rfl, .of_same (hmaps.inputAt fun j m => by split <;> rfl) rfl⟩
  · split
    case isTrue hj =>
      obtain ⟨n, hn, -⟩ := h.block_of_home (h.housed.sound.mem_iff.mp hj)
      unfold blockOf
      rw [hmaps, hn]
      simp [hj]
    case isFalse hj => exact hmaps.blockOf fun m => by rw [if_neg hj]
  · split <;> exact ⟨rfl, rfl, rfl, rfl⟩
  · unfold OnList
    rw [hlayout, h.housed.sound.home?_moveAll]
    split
    case isTrue hj => exact iff_of_true ⟨target, rfl⟩ ⟨source, h.housed.sound.mem_iff.mp hj⟩
    case isFalse => exact .rfl

theorem removed (h : g.Exact) (hn : g.nodes[i.index]? = some n) (hb : g.layout.home? i = some b) :
    Revised g (g.removed i n b) := by
  have hlist (j : InstId) : (g.removed i n b).OnList j ↔ g.OnList j ∧ j ≠ i := by
    show (∃ c, (g.layout.unplace i b).home? j = some c) ↔ _
    rw [Layout.home?_unplace]
    by_cases hj : j = i <;> simp [hj, OnList]
  refine ⟨h.withdraw hn (h.housed.unplace hb rfl (fun j hj => maps_removed.blockOf fun m => if_neg hj) fun _ _ => .rfl)
    maps_removed hlist fun j => ?_, .of_same (maps_removed.inputAt fun _ _ => rfl) rfl⟩
  unfold Present
  rw [hlist, maps_removed.aliveIn fun _ _ => rfl, or_and_right]
  refine or_congr_right (and_iff_left_of_imp ?_).symm
  rintro ⟨⟨c, hc⟩, -⟩ rfl
  rw [(h.housed.phis c j hc).1] at hb
  cases hb

theorem withoutPhi (h : g.Exact) (hn : g.nodes[i.index]? = some n) (hb : g.HasPhi b i) :
    Revised g (Leads.withoutPhi g i n b) := by
  obtain ⟨hfree, hblock⟩ := h.housed.phis b i hb
  have hmaps : Maps g (Leads.withoutPhi g i n b) fun j m =>
      { m.dropUses (usesBy i n.inst.args) (usesBy i n.envValues) j with block := if j = i then none else m.block } := by
    intro j
    unfold Leads.withoutPhi
    rw [nodes_withNode, nodes_mapNodes, nodes_withBlock, Option.map_map]
    congr 1
    funext m
    simp only [Function.comp_apply]
    split <;> rfl
  have hphis (c : BlockId) (j : InstId) : (Leads.withoutPhi g i n b).HasPhi c j ↔ g.HasPhi c j ∧ j ≠ i := by
    have hother : c ≠ b → g.HasPhi c j → j ≠ i := by
      rintro hc hphi rfl
      exact hc (Option.some_inj.mp ((h.housed.phis c j hphi).2.symm.trans hblock))
    unfold HasPhi at hother ⊢
    unfold Leads.withoutPhi
    rw [blocks_withNode, blocks_mapNodes, blocks_withBlock]
    cases hk : g.blocks[c.index]? with
    | none => simp
    | some k =>
      by_cases hc : c = b
      · simp [hc]
      · simp only [Option.map_some, if_neg hc, Option.some_inj, exists_eq_left']
        refine (and_iff_left_of_imp fun hj => hother hc ⟨k, hk, hj⟩).symm
  have hlist (j : InstId) : (Leads.withoutPhi g i n b).OnList j ↔ g.OnList j ∧ j ≠ i := by
    show g.OnList j ↔ _
    refine (and_iff_left_of_imp ?_).symm
    rintro ⟨c, hc⟩ rfl
    rw [hfree] at hc
    cases hc
  refine ⟨h.withdraw hn (h.housed.forget rfl hfree (fun j hj => hmaps.blockOf fun m => if_neg hj) fun c j hj =>
    (hphis c j).mp hj) hmaps hlist fun j => ?_, .of_same (hmaps.inputAt fun _ _ => rfl) rfl⟩
  unfold Present
  rw [hlist, hmaps.aliveIn fun _ _ => rfl, or_and_right]
  simp only [hphis]
  tauto

theorem rewired (h : g.Exact) {user a d : InstId} {k : Nat} (huser : g.Present user)
    (ha : g.inputAt ⟨user, k⟩ = some a) : Revised g (g.rewired user k a d) := ⟨h.rewire huser ha, .rewired ha⟩

theorem redirected (h : g.Exact) (hn : g.nodes[old.index]? = some n) (hne : old ≠ new) :
    Revised g (g.redirected old new n.inputUses n.envUses) := ⟨h.redirect hn hne, .redirected⟩

theorem resuming (h : g.Exact) (hn : g.nodes[i.index]? = some n) (hi : g.OnList i ∨ n.block = none)
    {e : Option Environment} : Revised g (g.resuming i n e) :=
  ⟨h.resume hn hi, .of_same inputAt_resuming (by unfold FlowGraph.resuming; split <;> rfl)⟩

theorem aside (h : g.Exact) (hmaps : Maps g g' f) (hf : ∀ j n, (f j n).inst = n.inst ∧ (f j n).env = n.env ∧
    (f j n).inputUses = n.inputUses ∧ (f j n).envUses = n.envUses) (hblock : ∀ j n, (f j n).block = n.block)
    (hlayout : g'.layout = g.layout) (hblocks : g'.blocks = g.blocks) (hreaching : g'.reaching = g.reaching) :
    Revised g g' := by
  have hphis (c : BlockId) (j : InstId) : g'.HasPhi c j ↔ g.HasPhi c j := hasPhi_of_blocks hblocks
  have hhoused := h.housed.congr hlayout (fun j => hmaps.blockOf fun n => hblock j n) hphis
  refine ⟨h.relocate hhoused hmaps hf (fun j => ?_) hphis, .of_same (hmaps.inputAt fun j n => by rw [(hf j n).1])
    hreaching⟩
  unfold OnList
  rw [hlayout]

theorem numbered (h : g.Exact) : Revised g (g.numbered i) := by
  refine h.aside (f := fun j n => if j = i then { n with ssaIndex := some g.nextSsaIndex } else n) (fun j => ?_)
    (fun j n => ?_) (fun j n => ?_) rfl rfl rfl
  · exact nodes_withNode ..
  · split <;> exact ⟨rfl, rfl, rfl, rfl⟩
  · split <;> rfl

theorem copied (h : g.Exact) (hn : g.nodes[i.index]? = some n) (hi : g.OnList i ∨ n.block = none) {k : Option Nat}
    {e : Option Environment} :
    Revised g ((g.withNode i fun m => { m with deoptId := k }).resuming i { n with deoptId := k } e) := by
  have haside : Revised g (g.withNode i fun m => { m with deoptId := k }) := by
    refine h.aside (f := fun j m => if j = i then { m with deoptId := k } else m) (fun j => nodes_withNode ..)
      (fun j m => ?_) (fun j m => ?_) rfl rfl rfl
    · split <;> exact ⟨rfl, rfl, rfl, rfl⟩
    · split <;> rfl
  have hnode : (g.withNode i fun m => { m with deoptId := k }).nodes[i.index]? = some { n with deoptId := k } := by
    rw [nodes_withNode_self, hn]
    rfl
  exact haside.trans (haside.exact.resuming hnode hi)

theorem usesExist (h : g.Exact) (hn : g.nodes[i.index]? = some n) : g.UsesExist n where
  inputs u hu := by
    have hat := ((h.inputs i n.inputUses (by unfold inputUses?; rw [hn]; rfl)).2 u).mp hu
    obtain ⟨m, hm, hk⟩ := Option.bind_eq_some_iff.mp hat.2
    exact ⟨m, hm, (List.getElem?_eq_some_iff.mp hk).1⟩
  envs u hu := by
    have hat := ((h.envs i n.envUses (by unfold envUses?; rw [hn]; rfl)).2 u).mp hu
    obtain ⟨m, hm, hk⟩ := Option.bind_eq_some_iff.mp hat.2
    refine ⟨m, hm, fun e he => ?_⟩
    unfold Node.envValues at hk
    rw [he] at hk
    exact (List.getElem?_eq_some_iff.mp hk).1

theorem replaceUses (h : g.Exact) (hold : old.index < g.nodes.size) (hnew : new.index < g.nodes.size) :
    Leads False g (Edit.replaceUses old new) fun _ g' => Revised g g' := by
  by_cases hne : old = new
  · unfold Edit.replaceUses
    rw [if_pos hne]
    exact ⟨h, .refl g⟩
  · have hn := Array.getElem?_eq_getElem hold
    refine (Leads.replaceUses hn hne fun _ => ⟨hnew, h.usesExist hn⟩).mono ?_
    rintro _ _ rfl
    exact h.redirected hn hne

theorem replaceByExisting (h : g.Exact) (hold : g.OnList old) (hnew : new.index < g.nodes.size)
    (hself : old = new → g.Unused old) : Leads False g (Edit.replaceByExisting old new) fun _ g' => Revised g g' := by
  obtain ⟨b, hb⟩ := id hold
  obtain ⟨n, hn, -⟩ := h.block_of_home hb
  have hplaced : g.layout.isPlaced old = true := Layout.isPlaced_iff.mpr hold
  unfold Edit.replaceByExisting
  rw [Leads.bind_iff]
  by_cases hne : old = new
  · obtain ⟨hin, henv⟩ := hself hne
    unfold inputUses? at hin
    unfold envUses? at henv
    rw [hn, Option.map_some, Option.some_inj] at hin henv
    unfold Edit.replaceUses
    rw [if_pos hne, Leads.pure_iff]
    refine (Leads.remove hn fun _ => ⟨hin, henv, hplaced⟩).mono ?_
    rintro _ _ ⟨-, -, c, hc, rfl⟩
    exact h.removed hn hc
  · refine (Leads.replaceUses hn hne fun _ => ⟨hnew, h.usesExist hn⟩).mono ?_
    rintro _ _ rfl
    have hrev : Revised g (g.redirected old new n.inputUses n.envUses) := h.redirected hn hne
    obtain ⟨m, hm, hin, henv⟩ : ∃ m, (g.redirected old new n.inputUses n.envUses).nodes[old.index]? = some m ∧
        m.inputUses = [] ∧ m.envUses = [] :=
      ⟨_, by rw [maps_redirected, hn]; rfl, by simp [Node.takeOver], by simp [Node.takeOver]⟩
    refine (Leads.remove hm fun _ => ⟨hin, henv, hplaced⟩).mono ?_
    rintro _ _ ⟨-, -, c, hc, rfl⟩
    exact hrev.trans (hrev.exact.removed hm hc)

theorem insertBefore (h : g.Exact) (ha : g.OnList anchor) (hi : g.Unplaced i) :
    Leads False g (Edit.insertBefore anchor i) fun _ g' =>
      Revised g g' ∧ g'.nodes.size = g.nodes.size ∧ ∀ j, g.OnList j → g'.OnList j := by
  obtain ⟨b, hb⟩ := ha
  obtain ⟨m, hm, hmb⟩ := h.block_of_home hb
  obtain ⟨n, hn⟩ : ∃ n, g.nodes[i.index]? = some n := ⟨_, Array.getElem?_eq_getElem hi.known⟩
  refine (Leads.insertBefore hn hi.free hm hb).mono ?_
  rintro _ _ rfl
  rw [hmb]
  refine ⟨h.settled hn hi (Layout.putBefore_perm (h.housed.sound.mem_iff.mpr hb)), ?_, fun j hj => ?_⟩
  · unfold inserted
    rw [size_mapNodes, size_withNode, nodes_withLayout]
  · exact onList_settled.mpr (.inl hj)

theorem setEnv (h : g.Exact) (hknown : i.index < g.nodes.size) (hi : g.OnList i ∨ g.blockOf i = none)
    {e : Option Environment} : Leads False g (Edit.setEnv i e) fun _ g' => Revised g g' := by
  have hn := Array.getElem?_eq_getElem hknown
  refine (Leads.setEnv hn).mono ?_
  rintro _ _ rfl
  exact h.resuming hn (hi.imp_right fun hnone => blockOf_of_node hn ▸ hnone)

theorem copyDeoptTarget (h : g.Exact) {target source : InstId} (hs : source.index < g.nodes.size)
    (ht : target.index < g.nodes.size) (htarget : g.OnList target ∨ g.blockOf target = none) :
    Leads False g (Edit.copyDeoptTarget target source) fun _ g' => Revised g g' ∧ Unmoved g g' := by
  have hn := Array.getElem?_eq_getElem ht
  refine (Leads.copyDeoptTarget (Array.getElem?_eq_getElem hs) hn).mono ?_
  rintro _ _ rfl
  refine ⟨h.copied hn (htarget.imp_right fun hnone => blockOf_of_node hn ▸ hnone), ?_, layout_resuming, blocks_resuming⟩
  rw [size_resuming, size_withNode]

theorem ensureSsaIndex (h : g.Exact) (hnew : new.index < g.nodes.size) (hold : old.index < g.nodes.size) :
    Leads False g (Edit.ensureSsaIndex new old) fun _ g' => Revised g g' ∧ Unmoved g g' := by
  refine (Leads.ensureSsaIndex hnew hold).mono ?_
  rintro _ _ (rfl | rfl)
  · exact ⟨⟨h, .refl _⟩, rfl, rfl, rfl⟩
  · refine ⟨h.numbered, ?_, rfl, rfl⟩
    show (g.withNode new _).nodes.size = g.nodes.size
    rw [size_withNode]

theorem replaceInst (h : g.Exact) (hold : g.OnList old) (hnew : g.Unplaced new) (hblock : g.blockOf new = none) :
    Leads False g (Edit.replaceInst old new) fun _ g' => Revised g g' := by
  have hne : old ≠ new := by
    rintro rfl
    obtain ⟨b, hb⟩ := hold
    rw [hnew.free] at hb
    cases hb
  have hknown := h.known hold
  unfold Edit.replaceInst
  rw [Leads.bind_iff]
  -- the replacement is nowhere yet, so that its environment does not count
  refine (h.copyDeoptTarget hknown hnew.known (.inr hblock)).mono ?_
  rintro _ g₁ ⟨hrev₁, hsame₁⟩
  have hold₁ := (hsame₁.onList_iff old).mpr hold
  rw [Leads.bind_iff]
  refine (hrev₁.exact.insertBefore hold₁ (hsame₁.unplaced hnew)).mono ?_
  rintro _ g₂ ⟨hrev₂, hsize₂, hlist₂⟩
  have hold₂ := hlist₂ old hold₁
  have hnew₂ : new.index < g₂.nodes.size := by
    rw [hsize₂, hsame₁.size]
    exact hnew.known
  rw [Leads.bind_iff]
  refine (hrev₂.exact.ensureSsaIndex hnew₂ (hrev₂.exact.known hold₂)).mono ?_
  rintro _ g₃ ⟨hrev₃, hsame₃⟩
  have hold₃ := (hsame₃.onList_iff old).mpr hold₂
  refine (hrev₃.exact.replaceByExisting hold₃ (hsame₃.size ▸ hnew₂) fun heq => absurd heq hne).mono ?_
  rintro _ g₄ hrev₄
  exact ((hrev₁.trans hrev₂).trans hrev₃).trans hrev₄

end Exact

end FlowGraph

/-! ## Any number of revisions -/

namespace Operation

/-- The operation places, moves, replaces or removes what is in the graph already, and the graph has what it takes. -/
def Revises (g : FlowGraph) : Operation → Prop
  | append _ i | prepend _ i => g.Unplaced i
  | insertBefore anchor i | insertAfter anchor i => g.OnList anchor ∧ g.Unplaced i
  | remove i => (Edit.remove i g).isOk = true
  | moveBefore i anchor => g.OnList i ∧ g.OnList anchor ∧ i ≠ anchor
  | moveAll _ _ => True
  | setArg user k _ => g.Present user ∧ (g.inputAt ⟨user, k⟩).isSome = true
  | replaceUses old new => old.index < g.nodes.size ∧ new.index < g.nodes.size
  | replaceInst old new => g.OnList old ∧ g.Unplaced new ∧ g.blockOf new = none
  | replaceByExisting old existing => g.OnList old ∧ existing.index < g.nodes.size ∧ (old = existing → g.Unused old)
  | setEnv i _ => i.index < g.nodes.size ∧ (g.OnList i ∨ g.blockOf i = none)
  | copyDeoptTarget target source =>
    source.index < g.nodes.size ∧ target.index < g.nodes.size ∧ (g.OnList target ∨ g.blockOf target = none)
  | removePhi i => ∃ b, g.HasPhi b i
  | _ => False

/-- Each operation revises the graph to which those before it lead. -/
def ReviseAll (g : FlowGraph) : List Operation → Prop
  | [] => True
  | op :: ops => op.Revises g ∧ ∀ g', op.run g = .ok ((), g') → ReviseAll g' ops

end Operation

namespace FlowGraph

variable {g : FlowGraph}

theorem Exact.revise (h : g.Exact) {op : Operation} (hop : op.Revises g) :
    Leads False g op.run fun _ g' => Revised g g' := by
  cases op with
  | append b i =>
    have hn := Array.getElem?_eq_getElem hop.known
    refine (Leads.append hn hop.free).mono ?_
    rintro _ _ rfl
    exact h.settled hn hop List.perm_append_comm
  | prepend b i =>
    have hn := Array.getElem?_eq_getElem hop.known
    refine (Leads.prepend hn hop.free).mono ?_
    rintro _ _ rfl
    exact h.settled hn hop (.refl _)
  | insertBefore anchor i => exact (h.insertBefore hop.1 hop.2).mono fun _ _ h' => h'.1
  | insertAfter anchor i =>
    obtain ⟨⟨b, hb⟩, hi⟩ := hop
    obtain ⟨m, hm, hmb⟩ := h.block_of_home hb
    have hn := Array.getElem?_eq_getElem hi.known
    refine (Leads.insertAfter hn hi.free hm hb hmb).mono ?_
    rintro _ _ rfl
    exact h.settled hn hi (Layout.putAfter_perm (h.housed.sound.mem_iff.mpr hb))
  | remove i =>
    show Leads False g (Edit.remove i) _
    have hok : (Edit.remove i g).isOk = true := hop
    unfold Leads
    cases hrun : Edit.remove i g with
    | error e => simp [hrun, Except.isOk, Except.toBool] at hok
    | ok r =>
      obtain ⟨n, b, hn, hb, hg'⟩ := Leads.remove_of_ok.post_of_ok hrun
      rw [Yields.ok_iff, hg']
      exact h.removed hn hb
  | moveBefore i anchor =>
    obtain ⟨⟨c, hc⟩, ⟨b, hb⟩, hne⟩ := hop
    obtain ⟨m, hm, hmb⟩ := h.block_of_home hb
    refine (Leads.moveBefore (h.known ⟨c, hc⟩) hc hm hb hmb hne).mono ?_
    rintro _ _ rfl
    exact h.moved hc hb hne
  | moveAll source target =>
    refine (Leads.moveAll fun i hi => h.known ⟨source, h.housed.sound.mem_iff.mp hi⟩).mono ?_
    rintro _ _ rfl
    exact h.gathered source target
  | setArg user k d =>
    obtain ⟨huser, hsome⟩ := hop
    obtain ⟨a, ha⟩ := Option.isSome_iff_exists.mp hsome
    obtain ⟨n, hn, hk⟩ := Option.bind_eq_some_iff.mp ha
    refine (Leads.setArg fun _ => ⟨n, hn, (List.getElem?_eq_some_iff.mp hk).1⟩).mono ?_
    rintro _ _ ⟨_, a, hn', ha', rfl⟩
    exact h.rewired huser ((inputAt_of_node hn' rfl).trans ha')
  | replaceUses old new => exact h.replaceUses hop.1 hop.2
  | replaceInst old new => exact h.replaceInst hop.1 hop.2.1 hop.2.2
  | replaceByExisting old existing => exact h.replaceByExisting hop.1 hop.2.1 hop.2.2
  | setEnv i e => exact h.setEnv hop.1 hop.2
  | copyDeoptTarget target source => exact (h.copyDeoptTarget hop.1 hop.2.1 hop.2.2).mono fun _ _ h' => h'.1
  | removePhi i =>
    obtain ⟨b, hb⟩ := hop
    obtain ⟨n, hn, hblock⟩ := Option.bind_eq_some_iff.mp (h.housed.phis b i hb).2
    obtain ⟨k, hk, -⟩ := id hb
    refine (Leads.removePhi hn hblock (Array.getElem?_eq_some_iff.mp hk).1).mono ?_
    rintro _ _ rfl
    exact h.withoutPhi hn hb
  | _ => exact hop.elim

end FlowGraph

/-- One revision after another goes through, and the use lists are exact after all of them. -/
theorem Operation.revisions_exact {g : FlowGraph} (h : g.Exact) {ops : List Operation} (hops : ReviseAll g ops) :
    ∃ g', script ops g = some g' ∧ g'.Exact ∧ g.Forgets g' := by
  suffices hrevised : ∃ g', script ops g = some g' ∧ g.Revised g' by
    obtain ⟨g', hscript, hrev⟩ := hrevised
    exact ⟨g', hscript, hrev.exact, hrev.forgets⟩
  induction ops generalizing g with
  | nil => exact ⟨g, rfl, h, .refl g⟩
  | cons op ops ih =>
    obtain ⟨⟨_, g₁⟩, hrun, hrev⟩ := (h.revise hops.1).exists_ok
    obtain ⟨g', hscript, hrev'⟩ := ih hrev.exact (hops.2 g₁ hrun)
    refine ⟨g', ?_, hrev.trans hrev'⟩
    unfold script
    rw [hrun]
    exact hscript

/-! ### Revisions of a small graph -/

namespace FlowGraph

variable {g : FlowGraph} {i : InstId}

instance : Decidable (g.Unplaced i) :=
  decidable_of_iff (i.index < g.nodes.size ∧ g.layout.home? i = none ∧ ¬ ∃ b, g.HasPhi b i)
    ⟨fun ⟨hknown, hfree, hphi⟩ => ⟨hknown, hfree, fun b hb => hphi ⟨b, hb⟩⟩,
      fun h => ⟨h.known, h.free, fun ⟨b, hb⟩ => h.noPhi b hb⟩⟩

instance : Decidable (g.Unused i) := inferInstanceAs (Decidable (_ ∧ _))

end FlowGraph

instance {α : Type} {fault : Prop} [Decidable fault] {g : FlowGraph} {m : Edit α} {post : α → FlowGraph → Prop}
    [∀ a g', Decidable (post a g')] : Decidable (Leads fault g m post) :=
  match hrun : m g with
  | .ok r => decidable_of_iff (post r.1 r.2) (by unfold Leads; rw [hrun, Yields.ok_iff])
  | .error _ => decidable_of_iff fault (by unfold Leads; rw [hrun, Yields.error_iff])

namespace Operation

instance {g : FlowGraph} (op : Operation) : Decidable (op.Revises g) := by
  cases op <;> dsimp only [Revises] <;> infer_instance

instance decidableReviseAll : {g : FlowGraph} → (ops : List Operation) → Decidable (ReviseAll g ops)
  | _, [] => inferInstanceAs (Decidable True)
  | g, op :: ops =>
    match hrun : op.run g with
    | .ok ((), g') =>
      have := decidableReviseAll (g := g') ops
      decidable_of_iff (op.Revises g ∧ ReviseAll g' ops) <| by
        refine and_congr_right fun _ => ⟨fun h g'' hg'' => ?_, fun h => h g' hrun⟩
        obtain rfl : g' = g'' := by simpa [hrun] using hg''
        exact h
    | .error e => decidable_of_iff (op.Revises g) <| by
        refine (and_iff_left fun g' hg' => ?_).symm
        rw [hrun] at hg'
        cases hg'

end Operation

/-- A parameter, its sum with itself, the difference of the sum and the parameter, and an argument that is the sum;
besides them a dead phi. -/
def adding : FlowGraph :=
  { name := "adding", parameterCount := 1, localCount := 0
    blocks := #[{ kind := .graphEntry }, { kind := .target, phis := [⟨4⟩] }]
    nodes := #[
      { inst := .parameter 0, block := some FlowGraph.graphEntry },
      { inst := .smiOp .add ⟨0⟩ ⟨0⟩, env := some ⟨[⟨0⟩], 1⟩ },
      { inst := .smiOp .sub ⟨1⟩ ⟨0⟩ },
      { inst := .pushArgument ⟨1⟩ },
      { inst := .phi none [⟨0⟩] false .tagged, block := some ⟨1⟩ }] }

/-- The difference takes the place of the sum, so that it reads itself at first, and is not needed in the end. -/
def addingRevisions : List Operation :=
  [.append ⟨1⟩ ⟨1⟩, .insertAfter ⟨1⟩ ⟨3⟩, .replaceInst ⟨1⟩ ⟨2⟩, .setArg ⟨2⟩ 0 ⟨0⟩, .moveBefore ⟨3⟩ ⟨2⟩,
  .setEnv ⟨3⟩ none,
    .replaceUses ⟨2⟩ ⟨0⟩, .remove ⟨2⟩, .removePhi ⟨4⟩]

theorem adding_revised : adding.Exact ∧ Operation.ReviseAll adding addingRevisions ∧
    ∃ g', Operation.script addingRevisions adding = some g' ∧ g'.Exact ∧ adding.Forgets g' :=
  have hexact : adding.Exact := by decide +kernel
  have hrevise : Operation.ReviseAll adding addingRevisions := by decide +kernel
  ⟨hexact, hrevise, Operation.revisions_exact hexact hrevise⟩

/-- Where the instruction knows its block but is on no list, the uses come out wrong: an environment of the parameter
counts, that of the sum counts twice for the phi in its place, and the phi is forgotten on the list that it is put on.
-/
theorem adding_unlisted :
    (adding.Exact ∧ Leads False adding (Edit.setEnv ⟨0⟩ (some ⟨[⟨0⟩], 1⟩)) fun _ g =>
      ¬ Lists g.envUses? (fun u => g.OnList u.user) g.resumeAt) ∧
    (Leads False adding (Edit.append ⟨1⟩ ⟨1⟩) fun _ g => g.Exact ∧ Leads False g (Edit.replaceInst ⟨1⟩ ⟨4⟩) fun _ g' =>
      ¬ Lists g'.envUses? (fun u => g'.OnList u.user) g'.resumeAt) ∧
    Leads False adding (Edit.append ⟨1⟩ ⟨4⟩) fun _ g =>
      (Lists g.inputUses? (fun u => g.Present u.user) g.inputAt ∧
        Lists g.envUses? (fun u => g.OnList u.user) g.resumeAt) ∧
      Leads False g (Edit.removePhi ⟨4⟩) fun _ g' => ¬ Lists g'.inputUses? (fun u => g'.Present u.user) g'.inputAt := by
  decide +kernel

end Midend
