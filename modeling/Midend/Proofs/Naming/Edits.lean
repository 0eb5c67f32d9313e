import Midend.Flow.Loops
import Midend.Proofs.Flow.Tree
import Midend.Proofs.Graph.Changes
import Midend.Proofs.Graph.Initial
import Midend.Proofs.Graph.Nodes
import Midend.Proofs.Naming

/-! # Edits that keep names

For each edit, what is to be known of the values it puts in place so that all that is read still has a name.
-/

namespace Midend.Naming

open FlowGraph

variable {α β : Type} {S : Scope} {g g' : FlowGraph} {a d i j anchor user old new : InstId} {b c : BlockId}
  {n n' : Node} {e : Inst} {k : Nat}

/-! ## Changes of nodes -/

structure Kept (S : Scope) (g : FlowGraph) (i : InstId) (n n' : Node) : Prop where
  definition : n'.inst.isDefinition = n.inst.isDefinition
  push : n'.inst.opcode = .pushArgument ↔ n.inst.opcode = .pushArgument
  terminator : n'.inst.isTerminator = n.inst.isTerminator
  successors : n'.inst.successors = n.inst.successors
  index : n'.ssaIndex = n.ssaIndex
  watched : S.insts i → Watched S g n.inst → Watched S g n'.inst
  uses : ∀ u ∈ n'.inputUses, u ∈ n.inputUses ∨ S.insts u.user ∧ Usable S g i

theorem Kept.of_same (hinst : n'.inst = n.inst) (hindex : n'.ssaIndex = n.ssaIndex)
    (huses : ∀ u ∈ n'.inputUses, u ∈ n.inputUses ∨ S.insts u.user ∧ Usable S g i) : Kept S g i n n' where
  definition := by rw [hinst]
  push := by rw [hinst]
  terminator := by rw [hinst]
  successors := by rw [hinst]
  index := hindex
  watched _ h := hinst ▸ h
  uses := huses

theorem Kept.of_opcode (hop : n'.inst.opcode = n.inst.opcode) (hsuccs : n'.inst.successors = n.inst.successors)
    (hindex : n'.ssaIndex = n.ssaIndex) (hwatched : S.insts i → Watched S g n.inst → Watched S g n'.inst)
    (huses : ∀ u ∈ n'.inputUses, u ∈ n.inputUses ∨ S.insts u.user ∧ Usable S g i) : Kept S g i n n' where
  definition := by rw [Inst.isDefinition, hop, Inst.isDefinition]
  push := by rw [hop]
  terminator := by rw [Inst.isTerminator, hop, Inst.isTerminator]
  successors := hsuccs
  index := hindex
  watched := hwatched
  uses := huses

theorem Kept.refl (S : Scope) (g : FlowGraph) (i : InstId) (n : Node) : Kept S g i n n :=
  .of_same rfl rfl fun _ hu => .inl hu

theorem Watched.mapArgs {f : Nat → InstId → InstId} (h : Watched S g e)
    (hf : ∀ k a, e.args[k]? = some a → Usable S g a → Usable S g (f k a)) : Watched S g (e.mapArgs f) where
  args a ha := by
    rw [Inst.args_mapArgs] at ha
    obtain ⟨k, hk⟩ := List.mem_iff_getElem?.mp ha
    rw [List.getElem?_mapIdx] at hk
    obtain ⟨a', ha', rfl⟩ := Option.map_eq_some_iff.mp hk
    exact hf k a' ha' (h.args a' (List.mem_of_getElem? ha'))
  arguments := by
    rw [Inst.arguments_mapArgs]
    exact h.arguments
  firm := by
    rw [Inst.affectedBySideEffect_mapArgs, Inst.isTerminator_mapArgs]
    exact h.firm

theorem Kept.continues (h : Kept S g i n n') : Continues n n' where
  definition := h.definition
  push := h.push
  terminator := h.terminator
  indexed hindex := by rwa [h.index]

theorem extends_of_changes (hc : Changes g g' (Kept S g)) : g.Extends g' where
  size := hc.size.ge
  node i n hn := by
    obtain ⟨n', hn', hkept⟩ := hc.exists_node hn
    exact ⟨n', hn', hkept.continues⟩

theorem Stays.extends {is : List InstId} (h : Stays S g is) (hext : g.Extends g')
    (hto : ∀ (i : InstId) (n' : Node), g'.nodes[i.index]? = some n' →
      (∃ n, g.nodes[i.index]? = some n ∧ n'.inst.successors = n.inst.successors) ∨ ∀ c ∈ n'.inst.successors,
      S.blocks c) :
    Stays S g' is := by
  intro i n' hfinal hn' c hc
  obtain ⟨n, hn, hsame⟩ | hto := hto i n' hn'
  · exact h i n (hfinal.of_extends hext) hn c (hsame ▸ hc)
  · exact hto c hc

theorem Stays.changes {is : List InstId} (h : Stays S g is) (hc : Changes g g' (Kept S g)) : Stays S g' is :=
  h.extends (extends_of_changes hc) fun i n' hn' =>
  .inl ((hc.node i n' hn').imp fun _ ⟨hn, hkept⟩ => ⟨hn, hkept.successors⟩)

theorem Vetted.changed (hg : Vetted S g) (hc : Changes g g' (Kept S g)) (hnext : g'.nextSsaIndex = g.nextSsaIndex)
    (hinitial : g'.initialDefinitions = g.initialDefinitions) (hbounded : Bounded S g')
    (hstays : S.strict → S.guided → ∀ b, S.blocks b → Stays S g (g'.insts b)) : Vetted S g' where
  numbered := hg.numbered.changes (hc.mono fun _ _ _ hkept => hkept.index) hnext
  watched i n' hn' hi := by
    obtain ⟨n, hn, hkept⟩ := hc.node i n' hn'
    exact (hkept.watched hi (hg.watched i n hn hi)).mono (extends_of_changes hc)
  uses d n' hn' u hu := by
    obtain ⟨n, hn, hkept⟩ := hc.node d n' hn'
    have h : S.insts u.user ∧ Usable S g d := (hkept.uses u hu).elim (fun h => hg.uses d n hn u h) id
    exact h.imp_right fun h => h.mono (extends_of_changes hc)
  initial d hd := (hg.initial d (hinitial ▸ hd)).mono (extends_of_changes hc)
  bounded := hbounded
  stays hstrict hguided b hb := (hstays hstrict hguided b hb).changes hc
  created i hi := hg.created i (hc.size ▸ hi)

theorem changes_withNode {f : Node → Node} (hf : ∀ n, g.nodes[i.index]? = some n → Kept S g i n (f n)) :
    Changes g (g.withNode i f) (Kept S g) := by
  refine ⟨size_withNode i f, fun j n' hn' => ?_⟩
  rw [nodes_withNode] at hn'
  obtain ⟨n, hn, rfl⟩ := Option.map_eq_some_iff.mp hn'
  refine ⟨n, hn, ?_⟩
  split
  case isTrue h => exact h ▸ hf n (h ▸ hn)
  case isFalse => exact .refl S g j n

theorem Vetted.withNode (hg : Vetted S g) {f : Node → Node}
    (hf : ∀ n, g.nodes[i.index]? = some n → Kept S g i n (f n)) :
    Vetted S (g.withNode i f) ∧ g.Extends (g.withNode i f) ∧ True :=
  ⟨hg.changed (changes_withNode hf) rfl rfl (hg.bounded.congr rfl rfl rfl rfl rfl) hg.stays,
    extends_of_changes (changes_withNode hf), trivial⟩

theorem minds_modifyNode {f : Node → Node} (hf : Vetted S g → ∀ n, g.nodes[i.index]? = some n → Kept S g i n (f n)) :
    Minds S g (Edit.modifyNode i f) := by
  intro hg
  rw [Leads.modifyNode_iff]
  exact ⟨fun _ => hg.withNode (hf hg), fun _ => trivial⟩

theorem minds_modifyNode? {f : Node → Node} (hf : Vetted S g → ∀ n, g.nodes[i.index]? = some n → Kept S g i n (f n)) :
    Minds S g (Edit.modifyNode? i f) := by
  intro hg
  rw [Leads.modifyNode?_iff]
  exact hg.withNode (hf hg)

theorem minds_note {f : Node → Node}
    (hf : ∀ n, (f n).inst = n.inst ∧ (f n).ssaIndex = n.ssaIndex ∧ (f n).inputUses = n.inputUses) :
    Minds S g (Edit.modifyNode i f) :=
  minds_modifyNode fun _ n _ => .of_same (hf n).1 (hf n).2.1 fun _ hu => .inl ((hf n).2.2 ▸ hu)

theorem minds_setInst {e' : Inst} (he : g.inst i = .ok e) (hop : e'.opcode = e.opcode)
    (hsuccs : e'.successors = e.successors) (hwatched : S.insts i → Watched S g e → Watched S g e') :
    Minds S g (Edit.setInst i e') := by
  refine minds_modifyNode fun _ n hn => ?_
  obtain ⟨m, hm, rfl⟩ := inst_eq_ok.mp he
  obtain rfl := Option.some_inj.mp (hn.symm.trans hm)
  exact .of_opcode hop hsuccs rfl hwatched fun _ hu => .inl hu

theorem minds_setBlock {o : Option BlockId} : Minds S g (Edit.setBlock i o) := minds_note fun _ => ⟨rfl, rfl, rfl⟩

theorem minds_setRange {r : Option Range} : Minds S g (Edit.setRange i r) := minds_note fun _ => ⟨rfl, rfl, rfl⟩

theorem minds_setClass {cls : ClassId} : Minds S g (Edit.setClass i cls) :=
  .reading (.lifted fun _ _ => .andThen (minds_note fun _ => ⟨rfl, rfl, rfl⟩) fun _ _ _ _ => .value trivial)

/-! ## Changes besides the nodes -/

theorem Vetted.same_nodes (hg : Vetted S g) (hnodes : g'.nodes = g.nodes) (hnext : g'.nextSsaIndex = g.nextSsaIndex)
    (hinitial : g'.initialDefinitions = g.initialDefinitions) (hbounded : Bounded S g')
    (hstays : S.strict → S.guided → ∀ b, S.blocks b → Stays S g (g'.insts b)) : Vetted S g' ∧ g.Extends g' ∧ True := by
  have hc : Changes g g' (Kept S g) := ⟨by rw [hnodes], fun i n hn => ⟨n, hnodes ▸ hn, .refl S g i n⟩⟩
  exact ⟨hg.changed hc hnext hinitial hbounded hstays, extends_of_changes hc, trivial⟩

theorem minds_modify {f : FlowGraph → FlowGraph} (hnodes : (f g).nodes = g.nodes)
    (hnext : (f g).nextSsaIndex = g.nextSsaIndex) (hinitial : (f g).initialDefinitions = g.initialDefinitions)
    (hlayout : (f g).layout = g.layout) (hbounded : Bounded S g → Bounded S (f g)) :
    Minds S g (modify f : Edit PUnit) := by
  intro hg
  rw [Leads.modify_iff]
  refine hg.same_nodes hnodes hnext hinitial (hbounded hg.bounded) ?_
  unfold FlowGraph.insts
  rw [hlayout]
  exact hg.stays

theorem minds_forgetReaching {u : Use} : Minds S g (Edit.forgetReaching u) :=
  minds_modify rfl rfl rfl rfl fun h => h.congr rfl rfl rfl rfl rfl

theorem minds_modifyBlock {f : Block → Block} (hphis : ∀ k, ∀ i ∈ (f k).phis, i ∈ k.phis ∨ S.insts i)
    (hbelow : ∀ k, ∀ c ∈ (f k).dominated, c ∈ k.dominated ∨ S.blocks c) : Minds S g (Edit.modifyBlock b f) := by
  intro hg
  rw [Leads.modifyBlock_iff]
  refine ⟨fun _ => hg.same_nodes rfl rfl rfl ?_ hg.stays, fun _ => trivial⟩
  have hblocks (c : BlockId) (k' : Block) (hk' : (g.withBlock b f).blocks[c.index]? = some k') :
      ∃ k, g.blocks[c.index]? = some k ∧ (∀ i ∈ k'.phis, i ∈ k.phis ∨ S.insts i) ∧
        ∀ d ∈ k'.dominated, d ∈ k.dominated ∨ S.blocks d := by
    rw [blocks_withBlock] at hk'
    obtain ⟨k, hk, rfl⟩ := Option.map_eq_some_iff.mp hk'
    refine ⟨k, hk, ?_⟩
    split
    · exact ⟨hphis k, hbelow k⟩
    · exact ⟨fun _ => .inl, fun _ => .inl⟩
  refine ⟨hg.bounded.sound, hg.bounded.insts, fun c k' hk' i hi => ?_, fun c k' hc hk' d hd => ?_, hg.bounded.ordered,
    hg.bounded.entries⟩
  · obtain ⟨k, hk, h, -⟩ := hblocks c k' hk'
    exact (h i hi).elim (hg.bounded.phis c k hk i) id
  · obtain ⟨k, hk, -, h⟩ := hblocks c k' hk'
    exact (h d hd).elim (hg.bounded.below c k hc hk d) id

theorem minds_throw {f : Fault} : Minds S g (throw f : Edit α) := .fault

/-! ## New instructions -/

theorem size_le_of_push (hnodes : g'.nodes = g.nodes.push n) : g.nodes.size ≤ g'.nodes.size := by
  rw [hnodes, Array.size_push]
  exact Nat.le_succ _

theorem Vetted.grown (hg : Vetted S g) (hnodes : g'.nodes = g.nodes.push n) (hd : Watched S g n.inst)
    (huses : n.inputUses = []) (hindex : ∀ k, n.ssaIndex = some k → g.nextSsaIndex ≤ k ∧ k < g'.nextSsaIndex)
    (hnext : g.nextSsaIndex ≤ g'.nextSsaIndex) (hbounded : Bounded S g') (hlayout : g'.layout = g.layout)
    (hto : ∀ c ∈ n.inst.successors, S.blocks c)
    (hinitial : g.Extends g' → ∀ d ∈ g'.initialDefinitions, d ∈ g.initialDefinitions ∨ Usable S g' d) :
    Vetted S g' ∧ g.Extends g' := by
  have hnode (j : InstId) (m : Node) (hm : g'.nodes[j.index]? = some m) : g.nodes[j.index]? = some m ∨ m = n := by
    rw [hnodes, Array.getElem?_push] at hm
    split at hm
    · exact .inr (Option.some_inj.mp hm).symm
    · exact .inl hm
  have hext : g.Extends g' := by
    refine ⟨size_le_of_push hnodes, fun j m hm => ⟨m, ?_, .refl m⟩⟩
    have hlt : j.index < g.nodes.size := (Array.getElem?_eq_some_iff.mp hm).1
    rw [hnodes, Array.getElem?_push, if_neg (Nat.ne_of_lt hlt), hm]
  refine ⟨⟨hg.numbered.grown hnodes hindex hnext, fun j m hm hj => ?_, fun d m hm u hu => ?_, fun d hd => ?_, hbounded,
    fun hstrict hguided b hb => ?_, fun j hj => ?_⟩, hext⟩
  · obtain hm | rfl := hnode j m hm
    · exact (hg.watched j m hm hj).mono hext
    · exact hd.mono hext
  · obtain hm | rfl := hnode d m hm
    · exact (hg.uses d m hm u hu).imp_right fun h => h.mono hext
    · rw [huses] at hu
      cases hu
  · exact (hinitial hext d hd).elim (fun hd => (hg.initial d hd).mono hext) id
  · unfold FlowGraph.insts
    rw [hlayout]
    refine (hg.stays hstrict hguided b hb).extends hext fun j m hm => ?_
    obtain hm | rfl := hnode j m hm
    · exact .inl ⟨m, hm, rfl⟩
    · exact .inr hto
  · exact hg.created j ((size_le_of_push hnodes).trans hj)

theorem vets_addInst_inst (he : Watched S g e) (hto : ∀ c ∈ e.successors, S.blocks c) :
    Vets S g (Edit.addInst e) fun i g' => S.insts i ∧ g'.inst i = .ok e ∧ g'.layout = g.layout := by
  intro hg
  rw [Leads.addInst_iff]
  obtain ⟨hg', hext⟩ := @Vetted.grown S g (g.withInst { inst := e }) { inst := e } hg rfl he rfl nofun (Nat.le_refl _)
    (hg.bounded.congr rfl rfl rfl rfl rfl) rfl hto fun _ _ => .inl
  exact ⟨hg', hext, hg.created g.nextId (Nat.le_refl _), inst_eq_ok.mpr ⟨_, by rw [nodes_withInst, if_pos rfl], rfl⟩,
    rfl⟩

/-- What an edit may add to the middle of a block. -/
structure Addable (S : Scope) (g : FlowGraph) (e : Inst) : Prop where
  args : ∀ a ∈ e.args, Usable S g a
  arguments : ∀ a ∈ e.arguments, Inner S g a
  plain : e.isTerminator = false

theorem Addable.watched (h : Addable S g e) : Watched S g e := ⟨h.args, h.arguments, fun _ _ => h.plain⟩

theorem Addable.mono (h : Addable S g e) (hext : g.Extends g') : Addable S g' e :=
  ⟨(h.watched.mono hext).args, (h.watched.mono hext).arguments, h.plain⟩

theorem vets_addInst (he : Addable S g e) : Vets S g (Edit.addInst e) fun i g' => Inner S g' i := by
  refine (vets_addInst_inst he.watched fun c hc => ?_).mono fun i g' _ ⟨hi, hinst, _⟩ =>
    ⟨hi, fun _ => plain_of_inst hinst he.plain⟩
  exact absurd (Inst.isTerminator_of_mem_successors hc) (by rw [he.plain]; exact Bool.false_ne_true)

theorem vets_allocSsaIndex : Vets S g (Edit.allocSsaIndex i) fun _ g' => g'.Named i := by
  intro hg
  rw [Leads.allocSsaIndex_iff]
  refine ⟨fun hlt => ?_, fun _ => trivial⟩
  have hext : g.Extends (g.numbered i) := by
    refine ⟨(size_withNode i _).ge, fun j n hn => ⟨_, by rw [nodes_numbered, hn]; rfl, ?_⟩⟩
    split
    · exact .of_inst rfl fun _ => rfl
    · exact .of_inst rfl id
  have hfrom (j : InstId) (n' : Node) (hn' : (g.numbered i).nodes[j.index]? = some n') :
      ∃ n, g.nodes[j.index]? = some n ∧ n'.inst = n.inst ∧ n'.inputUses = n.inputUses := by
    rw [nodes_numbered] at hn'
    obtain ⟨n, hn, rfl⟩ := Option.map_eq_some_iff.mp hn'
    refine ⟨n, hn, ?_⟩
    split <;> exact ⟨rfl, rfl⟩
  refine ⟨⟨hg.numbered.next i, fun j n' hn' hj => ?_, fun d n' hn' u hu => ?_, fun d hd => (hg.initial d hd).mono hext,
    hg.bounded.congr rfl rfl rfl rfl rfl, fun hstrict hguided b hb => ?_, fun j hj =>
    hg.created j (by rwa [numbered, size_withNode] at hj)⟩, hext, (indexed_numbered hlt).named⟩
  · obtain ⟨n, hn, hinst, -⟩ := hfrom j n' hn'
    rw [hinst]
    exact (hg.watched j n hn hj).mono hext
  · obtain ⟨n, hn, -, huses⟩ := hfrom d n' hn'
    rw [huses] at hu
    exact (hg.uses d n hn u hu).imp_right fun h => h.mono hext
  · refine (hg.stays hstrict hguided b hb).extends hext fun j n' hn' => .inl ?_
    obtain ⟨n, hn, hinst, -⟩ := hfrom j n' hn'
    exact ⟨n, hn, by rw [hinst]⟩

theorem named_of_index (hn : g.nodes[i.index]? = some n) (h : n.ssaIndex.isSome = true) : g.Named i :=
  ⟨n, hn, fun _ _ => h⟩

theorem vets_ensureSsaIndex (hS : S.Impartial) (hnew : S.insts new) (hold : g.Valued old) :
    Vets S g (Edit.ensureSsaIndex new old) fun _ g' => Usable S g' old → Usable S g' new := by
  refine .reading (.lifted fun n hn => .either (fun hnone => ?_) fun hsome => .value fun _ => ⟨hnew, .inr ?_⟩)
  · refine .lifted fun m hm => .either (fun _ => ?_) fun hneither => .value fun h => ⟨hnew, ?_⟩
    · refine .ignoring (vets_allocSsaIndex.mono fun _ _ _ hnamed => ?_)
      exact fun _ => ⟨hnew, .inr hnamed⟩
    · refine h.2.imp (hS old new) fun hnamed => ?_
      obtain ⟨m', hm', hdef, hpush⟩ := hold
      obtain rfl := Option.some_inj.mp ((node_eq_ok.mp hm).symm.trans hm')
      obtain ⟨m'', hm'', hindex⟩ := hnamed
      obtain rfl := Option.some_inj.mp ((node_eq_ok.mp hm).symm.trans hm'')
      refine ⟨n, node_eq_ok.mp hn, fun hdef' _ => absurd ?_ hneither⟩
      rw [hindex hdef hpush, hdef']
      rfl
  · exact named_of_index (node_eq_ok.mp hn) (by simpa [Option.isSome_iff_ne_none] using hsome)

theorem vets_getConstant {v : Constant} : Vets S g (Edit.getConstant v) fun d g' => Usable S g' d := by
  intro hg
  refine (Leads.getConstant fun h => absurd trivial h).mono ?_
  rintro d g' (⟨rfl, hd, -⟩ | ⟨rfl, rfl⟩)
  · exact ⟨hg, .refl g', hg.initial d hd⟩
  · have husable : Usable S (g.withInitial (.constant v)) g.nextId :=
      ⟨hg.created g.nextId (Nat.le_refl _), .inr (named_of_index (by rw [nodes_withInitial, if_pos rfl]) rfl)⟩
    have hinitial : ∀ d ∈ g.initialDefinitions ++ [g.nextId], d ∈ g.initialDefinitions ∨
        Usable S (g.withInitial (.constant v)) d := by
      intro d hd
      obtain hd | hd := List.mem_append.mp hd
      · exact .inl hd
      · exact .inr (List.mem_singleton.mp hd ▸ husable)
    obtain ⟨hg', hext⟩ := @Vetted.grown S g (g.withInitial (.constant v)) _ hg rfl ⟨nofun, nofun, fun _ _ => rfl⟩ rfl
      (fun k hk => ⟨(Option.some_inj.mp hk).le, (Option.some_inj.mp hk).symm ▸ Nat.lt_succ_self _⟩) (Nat.le_succ _)
      (hg.bounded.congr rfl rfl rfl rfl rfl) rfl nofun fun _ => hinitial
    exact ⟨hg', hext, husable⟩

/-! ## Uses -/

theorem minds_addInputUse {u : Use} (hd : Usable S g d) (hu : S.insts u.user) : Minds S g (Edit.addInputUse d u) := by
  refine minds_modifyNode? fun _ n _ => .of_same rfl rfl fun v hv => ?_
  obtain hv | hv := List.mem_append.mp hv
  · exact .inl hv
  · exact .inr (List.mem_singleton.mp hv ▸ ⟨hu, hd⟩)

theorem minds_dropInputUse {u : Use} : Minds S g (Edit.dropInputUse d u) :=
  minds_modifyNode? fun _ _ _ => .of_same rfl rfl fun _ hv => .inl (List.mem_filter.mp hv).1

theorem minds_addInputUses (hi : S.insts i) : Minds S g (Edit.addInputUses i) := by
  refine .knowing fun hg => .reading (.lifted fun as has => .each fun ⟨d, u⟩ hdu g₁ hext => ?_)
  obtain ⟨⟨a, k⟩, hmem, heq⟩ := List.mem_map.mp hdu
  obtain ⟨rfl, rfl⟩ := Prod.mk.inj heq
  exact minds_addInputUse ((hg.usable_of_args hi has (List.fst_mem_of_mem_zipIdx hmem)).mono hext) hi

theorem minds_dropInputUses : Minds S g (Edit.dropInputUses i) :=
  .reading (.lifted fun _ _ => .each fun _ _ _ _ => minds_dropInputUse)

theorem minds_envValues : Minds S g (Edit.envValues i) := by
  refine .reading (.lifted fun e _ => ?_)
  cases e with
  | none => exact .value trivial
  | some e => exact .value trivial

theorem minds_addEnvUses : Minds S g (Edit.addEnvUses i) := by
  refine minds_envValues.andThen fun _ _ _ _ => .each fun _ _ _ _ => ?_
  exact minds_modifyNode? fun _ _ _ => .of_same rfl rfl fun _ hv => .inl hv

theorem minds_dropEnvUses : Minds S g (Edit.dropEnvUses i) := by
  refine minds_envValues.andThen fun _ _ _ _ => .each fun _ _ _ _ => ?_
  exact minds_modifyNode? fun _ _ _ => .of_same rfl rfl fun _ hv => .inl hv

theorem minds_addUses (hi : S.insts i) : Minds S g (Edit.addUses i) :=
  (minds_addInputUses hi).andThen fun _ _ _ _ => minds_addEnvUses

/-! ## Placing and removing -/

structure Relocates (i : InstId) (l l' : Layout) : Prop where
  sound : l.Sound → l'.Sound
  others : ∀ b, (l'.insts b).filter (· ≠ i) = (l.insts b).filter (· ≠ i)

theorem filter_putBefore (is : List InstId) :
    (Layout.putBefore anchor i is).filter (· ≠ i) = is.filter (· ≠ i) := by
  induction is with
  | nil => rfl
  | cons x xs ih =>
    unfold Layout.putBefore
    split
    · exact List.filter_cons_of_neg (by simp)
    · rw [List.filter_cons, List.filter_cons, ih]

theorem filter_erase (is : List InstId) : (is.erase i).filter (· ≠ i) = is.filter (· ≠ i) := by
  induction is with
  | nil => rfl
  | cons x xs ih =>
    rw [List.erase_cons]
    split
    case isTrue hx => exact (List.filter_cons_of_neg (by simpa using hx)).symm
    case isFalse => rw [List.filter_cons, List.filter_cons, ih]

section

variable {l l' : Layout}

theorem Relocates.place {is : List InstId} (hfree : l.home? i = none) (hperm : l.Sound → is.Perm (i :: l.insts b))
    (his : is.filter (· ≠ i) = (l.insts b).filter (· ≠ i)) : Relocates i l (l.place i b is) where
  sound hl := hl.place hfree (hperm hl)
  others c := by
    rw [Layout.insts_place]
    split
    case isTrue hc => rw [his, hc]
    case isFalse => rfl

theorem relocates_append (h : l.append i b = .ok l') : Relocates i l l' := by
  obtain ⟨hfree, rfl⟩ := Layout.append_eq_ok.mp h
  exact .place hfree (fun _ => List.perm_append_singleton i _) (by simp)

theorem relocates_prepend (h : l.prepend i b = .ok l') : Relocates i l l' := by
  obtain ⟨hfree, rfl⟩ := Layout.prepend_eq_ok.mp h
  exact .place hfree (fun _ => .refl _) (by simp)

theorem relocates_insertBefore (h : l.insertBefore i anchor = .ok l') : Relocates i l l' := by
  obtain ⟨b, hb, hfree, rfl⟩ := Layout.insertBefore_eq_ok.mp h
  exact .place hfree (fun hl => Layout.putBefore_perm (hl.mem_iff.mpr hb)) (filter_putBefore _)

theorem relocates_insertAfter (h : l.insertAfter i anchor = .ok l') : Relocates i l l' := by
  obtain ⟨b, hb, hfree, rfl⟩ := Layout.insertAfter_eq_ok.mp h
  exact .place hfree (fun hl => Layout.putAfter_perm (hl.mem_iff.mpr hb)) (Layout.filter_putAfter (by simp) _)

theorem relocates_remove (h : l.remove i = .ok l') : Relocates i l l' := by
  obtain ⟨b, hb, rfl⟩ := Layout.remove_eq_ok.mp h
  refine ⟨fun hl => hl.unplace hb, fun c => ?_⟩
  rw [Layout.insts_unplace]
  split
  case isTrue hc => rw [filter_erase, hc]
  case isFalse => rfl

end

theorem Final.of_filter {is is' : List InstId} (hplain : ¬ g.Ends i) (hne : j ≠ i)
    (hsame : is'.filter (· ≠ i) = is.filter (· ≠ i)) (h : Final g is' j) : Final g is j := by
  obtain ⟨front, back, rfl, hback⟩ := h
  rw [List.filter_append, List.filter_cons_of_pos (by simpa using hne), eq_comm, List.filter_eq_append_iff] at hsame
  obtain ⟨front', rest, rfl, -, hrest⟩ := hsame
  obtain ⟨skipped, back', rfl, -, -, hback'⟩ := List.filter_eq_cons_iff.mp hrest
  refine ⟨front' ++ skipped, back', by simp, fun x hx hends => ?_⟩
  have hx' : x ≠ i := fun h => hplain (h ▸ hends)
  have hmem : x ∈ back.filter (· ≠ i) := hback' ▸ List.mem_filter.mpr ⟨hx, by simpa using hx'⟩
  exact hback x (List.mem_filter.mp hmem).1 hends

theorem Stays.of_filter {is is' : List InstId} (h : Stays S g is) (hplain : ¬ g.Ends i)
    (hsame : is'.filter (· ≠ i) = is.filter (· ≠ i)) : Stays S g is' := by
  intro j n hfinal hn c hc
  have hends : g.Ends j := ⟨n, hn, Inst.isTerminator_of_mem_successors hc⟩
  exact h j n (hfinal.of_filter hplain (fun h => hplain (h ▸ hends)) hsame) hn c hc

theorem minds_onLayout {f : Layout → Except Fault Layout} (hloose : Loose S g i)
    (hf : ∀ l, f g.layout = .ok l → Relocates i g.layout l ∧ ∀ b, i ∈ l.insts b → i ∈ g.insts b ∨ S.insts i) :
    Minds S g (Edit.onLayout f) := by
  intro hg
  rw [Leads.onLayout_iff]
  refine Yields.of_ok fun l hl => ?_
  obtain ⟨hmoves, hi⟩ := hf l hl
  refine hg.same_nodes rfl rfl rfl ?_ fun hstrict hguided b hb => ?_
  · refine ⟨fun hstrict => hmoves.sound (hg.bounded.sound hstrict), fun b j hb hj =>
      ?_, hg.bounded.phis, hg.bounded.below, hg.bounded.ordered, hg.bounded.entries⟩
    by_cases hne : j = i
    · subst hne
      exact (hi b hj).elim (hg.bounded.insts b j hb) id
    · have hmem : j ∈ (g.insts b).filter (· ≠ i) := hmoves.others b ▸ List.mem_filter.mpr ⟨hj, by simpa using hne⟩
      exact hg.bounded.insts b j hb (List.mem_filter.mp hmem).1
  · exact (hg.stays hstrict hguided b hb).of_filter (hloose hstrict hguided).not_ends (hmoves.others b)

theorem minds_place {f : Layout → Except Fault Layout} (hi : S.insts i) (hloose : Loose S g i)
    (hf : ∀ l, f g.layout = .ok l → Relocates i g.layout l) : Minds S g (Edit.onLayout f) :=
  minds_onLayout hloose fun l hl => ⟨hf l hl, fun _ _ => .inr hi⟩

theorem minds_append (hi : S.insts i) (hloose : Loose S g i) : Minds S g (Edit.append b i) :=
  .andThen (Vets.andThen (minds_place hi hloose fun _ => relocates_append) fun _ _ _ _ => minds_setBlock) fun _ _ _ _ =>
    minds_addUses hi

theorem minds_prepend (hi : Inner S g i) : Minds S g (Edit.prepend b i) :=
  .andThen (minds_place hi.mem hi.loose fun _ => relocates_prepend) fun _ _ _ _ =>
    minds_setBlock.andThen fun _ _ _ _ => minds_addUses hi.mem

theorem minds_insertBefore (hi : Inner S g i) : Minds S g (Edit.insertBefore anchor i) :=
  .andThen (minds_place hi.mem hi.loose fun _ => relocates_insertBefore) fun _ _ _ _ => .reading (.lifted fun _ _ =>
    minds_setBlock.andThen fun _ _ _ _ => minds_addUses hi.mem)

theorem minds_insertAfter (hi : Inner S g i) : Minds S g (Edit.insertAfter anchor i) :=
  .andThen (Vets.andThen (minds_place hi.mem hi.loose fun _ => relocates_insertAfter) fun _ _ _ _ =>
    .reading (.lifted fun _ _ => minds_setBlock)) fun _ _ _ _ => minds_addUses hi.mem

theorem minds_unlink (hi : Loose S g i) : Minds S g (Edit.onLayout (·.remove i)) := by
  refine minds_onLayout hi fun l hl => ⟨relocates_remove hl, fun c hi => .inl ?_⟩
  obtain ⟨b, -, rfl⟩ := Layout.remove_eq_ok.mp hl
  rw [Layout.insts_unplace] at hi
  split at hi
  case isTrue hc => exact hc ▸ List.mem_of_mem_erase hi
  case isFalse => exact hi

theorem minds_remove (hi : Loose S g i) : Minds S g (Edit.remove i) := by
  have hrest (g' : FlowGraph) (hext : g.Extends g') : Minds S g' (do
      Edit.dropInputUses i
      Edit.dropEnvUses i
      Edit.onLayout (·.remove i)
      Edit.setBlock i none) :=
    minds_dropInputUses.andThen fun _ _ hext₁ _ => minds_dropEnvUses.andThen fun _ _ hext₂ _ =>
      (minds_unlink (hi.mono (hext.trans (hext₁.trans hext₂)))).andThen fun _ _ _ _ => minds_setBlock
  exact .reading (.lifted fun _ _ =>
    .either (fun _ => .lifted fun _ _ => minds_throw.andThen fun _ g' hext _ => hrest g' hext) fun _ =>
    hrest g (.refl g))

theorem minds_moveBefore (hi : Inner S g i) : Minds S g (Edit.moveBefore i anchor) :=
  (minds_unlink hi.loose).andThen fun _ _ hext _ =>
    .andThen (minds_place hi.mem (hi.loose.mono hext) fun _ => relocates_insertBefore) fun _ _ _ _ =>
      .reading (.lifted fun _ _ => minds_setBlock)

/-! ## Inputs -/

theorem minds_setArgQuietly (hd : S.insts user → Usable S g d) : Minds S g (Edit.setArgQuietly user k d) := by
  intro hg
  rw [Leads.setArgQuietly_iff]
  refine ⟨fun n hn hk => hg.withNode fun m _ => ?_, fun _ => trivial⟩
  refine .of_opcode (by rw [Inst.setArg_eq, Inst.opcode_mapArgs]) (by rw [Inst.setArg_eq, Inst.successors_mapArgs]) rfl
    (fun hi h => ?_) fun u hu => .inl hu
  show Watched S g (m.inst.mapArgs fun j a => if j = k then d else a)
  refine h.mapArgs fun j a _ ha => ?_
  split
  · exact hd hi
  · exact ha

theorem minds_setArg (hi : S.insts user) (hd : Usable S g d) : Minds S g (Edit.setArg user k d) :=
  .reading (.lifted fun _ _ => minds_dropInputUse.andThen fun _ _ hext₁ _ =>
    .andThen (minds_setArgQuietly fun _ => hd.mono hext₁) fun _ _ hext₂ _ =>
    minds_forgetReaching.andThen fun _ _ hext₃ _ =>
      minds_addInputUse (hd.mono ((hext₁.trans hext₂).trans hext₃)) hi)

theorem minds_setEnvValue : Minds S g (Edit.setEnvValue user k d) := by
  refine .reading (.lifted fun e _ => ?_)
  cases e with
  | none => exact .value trivial
  | some e => exact .lifted fun _ _ => minds_note fun _ => ⟨rfl, rfl, rfl⟩

theorem minds_replaceUses (hnew : ∀ n, g.nodes[old.index]? = some n → n.inputUses ≠ [] → Usable S g new) :
    Minds S g (Edit.replaceUses old new) := by
  refine .knowing fun hg => .either (fun _ => .value trivial) fun _ => .reading (.lifted fun us hus => ?_)
  obtain ⟨n, hn, rfl⟩ := inputUses_eq_ok.mp hus
  have husable : ∀ u ∈ n.inputUses, Usable S g new := fun u hu => hnew n hn (List.ne_nil_of_mem hu)
  refine .andThen (minds_modifyNode fun _ _ _ => .of_same rfl rfl nofun) fun _ g₁ hext₁ _ => ?_
  refine .andThen (.each fun u hu g₂ hext₂ => ?_) fun _ g₂ hext₂ _ => ?_
  · exact .andThen (minds_setArgQuietly fun _ => (husable u hu).mono (hext₁.trans hext₂)) fun _ _ _ _ =>
      minds_forgetReaching
  refine .andThen (minds_modifyNode fun _ m _ => .of_same rfl rfl fun u hu => ?_) fun _ g₃ _ _ => ?_
  · refine (List.mem_append.mp hu).imp_right fun hu => ?_
    exact ⟨(hg.uses old n hn u hu).1, (husable u hu).mono (hext₁.trans hext₂)⟩
  · refine .reading (.lifted fun es _ => .andThen (minds_note fun _ => ⟨rfl, rfl, rfl⟩) fun _ _ _ _ => ?_)
    exact .andThen (.each fun _ _ _ _ => minds_setEnvValue) fun _ _ _ _ => minds_note fun _ => ⟨rfl, rfl, rfl⟩

theorem minds_replaceByExisting (hnew : ∀ n, g.nodes[old.index]? = some n → n.inputUses ≠ [] → Usable S g new)
    (hold : Loose S g old) : Minds S g (Edit.replaceByExisting old new) :=
  (minds_replaceUses hnew).andThen fun _ _ hext _ => minds_remove (hold.mono hext)

/-! ## Environments -/

theorem minds_setEnv {o : Option Environment} : Minds S g (Edit.setEnv i o) :=
  minds_dropEnvUses.andThen fun _ _ _ _ => .andThen (minds_note fun _ => ⟨rfl, rfl, rfl⟩) fun _ _ _ _ =>
    .reading (.lifted fun _ _ => .either (fun _ => minds_addEnvUses) fun _ => .value trivial)

theorem minds_copyDeoptTarget : Minds S g (Edit.copyDeoptTarget i j) :=
  .reading (.lifted fun _ _ => .andThen (minds_note fun _ => ⟨rfl, rfl, rfl⟩) fun _ _ _ _ => minds_setEnv)

theorem minds_replaceInst (hS : S.Impartial) (hnew : Inner S g new) (hold : g.Valued old) :
    Minds S g (Edit.replaceInst old new) := by
  refine minds_copyDeoptTarget.andThen fun _ g₁ hext₁ _ => (minds_insertBefore (hnew.mono hext₁)).andThen fun _ g₂ hext₂
    _ => ?_
  have hold₂ := hold.mono (hext₁.trans hext₂)
  refine (vets_ensureSsaIndex hS hnew.mem hold₂).andThen fun _ g₃ hext₃ husable => ?_
  refine .knowing fun hg₃ => .andThen (minds_replaceUses fun n hn hne => ?_) fun _ _ hext₄ _ =>
    minds_remove (loose_of_plain (hold₂.mono (hext₃.trans hext₄)).plain)
  obtain ⟨u, hu⟩ := List.exists_mem_of_ne_nil _ hne
  exact husable (hg₃.uses old n hn u hu).2

/-! ## Phis -/

theorem minds_revivePhi : Minds S g (Edit.revivePhi i) := by
  refine minds_modifyNode fun _ n _ => ?_
  have hsuccs : n.inst.revive.successors = n.inst.successors := by cases n.inst <;> rfl
  refine .of_opcode (Inst.opcode_revive ..) hsuccs rfl (fun _ h => ?_) fun _ hu => .inl hu
  show Watched S g n.inst.revive
  revert h
  cases n.inst with
  | phi slot as alive r => exact fun h => ⟨h.args, h.arguments, fun _ _ => rfl⟩
  | _ => exact id

theorem minds_removePhi : Minds S g (Edit.removePhi i) := by
  have hrest (g' : FlowGraph) : Minds S g' (do
      Edit.dropInputUses i
      Edit.dropEnvUses i
      Edit.setBlock i none) :=
    minds_dropInputUses.andThen fun _ _ _ _ => minds_dropEnvUses.andThen fun _ _ _ _ => minds_setBlock
  refine .reading (.lifted fun n _ => ?_)
  cases n.block with
  | none => exact hrest g
  | some b =>
    refine .andThen (minds_modifyBlock (fun k j hj => .inl (List.mem_filter.mp hj).1) fun _ _ => .inl) fun _ g' _ _ =>
      ?_
    exact hrest g'

/-! ## Books -/

theorem minds_computeUseLists : Minds S g Edit.computeUseLists := by
  have hclear : Minds S g (modify fun g =>
    { g with nodes := g.nodes.map fun n => { n with inputUses := [], envUses := [] } } :
      Edit Unit) := by
    intro hg
    have hc : Changes g { g with nodes := g.nodes.map fun n => { n with inputUses := [], envUses := [] } }
      (Kept S g) := by
      refine ⟨by simp, fun i n' hn' => ?_⟩
      simp only [Array.getElem?_map] at hn'
      obtain ⟨n, hn, rfl⟩ := Option.map_eq_some_iff.mp hn'
      exact ⟨n, hn, .of_same rfl rfl nofun⟩
    rw [Leads.modify_iff]
    exact ⟨hg.changed hc rfl rfl (hg.bounded.congr rfl rfl rfl rfl rfl) hg.stays, extends_of_changes hc, trivial⟩
  refine hclear.andThen fun _ g₁ _ _ => .reading (.knowing fun hg₁ => .each fun b hb g₂ _ => ?_)
  have hblock : S.blocks b := hg₁.bounded.ordered b (.inl hb)
  refine .reading (.knowing fun hg₂ => .lifted fun ps hps => ?_)
  refine .andThen (.each fun phi hphi g₃ _ => minds_addInputUses ?_) fun _ g₃ _ _ => ?_
  · obtain ⟨as, has, hps⟩ := bind_eq_ok.mp hps
    obtain ⟨k, hk, rfl⟩ := phis_eq_ok.mp has
    obtain ⟨-, rfl⟩ := filterM_eq_ok.mp hps
    exact hg₂.bounded.phis b k hk phi (List.mem_filter.mp hphi).1
  · refine .reading (.knowing fun hg₃ => .each fun i hi g₄ _ => ?_)
    exact (minds_addInputUses (hg₃.bounded.insts b i hblock hi)).andThen fun _ _ _ _ => minds_addEnvUses

/-- The blocks that are discovered are those that control comes to. -/
theorem minds_discover (hS : S.Closed) : Minds S g Flow.discover := by
  intro hg
  refine (Flow.leads_discover (.inl trivial)).mono ?_
  rintro _ _ ⟨t, rfl, ht⟩
  have hblock (b : BlockId) (k : Block) (hk : t.blocks[b.index]? = some k) :
      ∃ k', g.blocks[b.index]? = some k' ∧ k.phis = k'.phis ∧ k.dominated = k'.dominated := by
    obtain ⟨k', hk', -, hphis, -, hbelow⟩ := ht.kept b k hk
    exact ⟨k', hk', hphis, hbelow⟩
  refine hg.same_nodes rfl rfl rfl ⟨hg.bounded.sound, hg.bounded.insts, fun b k hk i hi => ?_, fun b k hb hk c hc => ?_,
    fun b hb => ?_, hg.bounded.entries⟩ hg.stays
  · obtain ⟨k', hk', hphis, -⟩ := hblock b k hk
    exact hg.bounded.phis b k' hk' i (hphis ▸ hi)
  · obtain ⟨k', hk', -, hbelow⟩ := hblock b k hk
    exact hg.bounded.below b k' hb hk' c (hbelow ▸ hc)
  · have hb : b ∈ t.preorder := hb.elim id fun hb => ht.opened.subset hb
    exact hg.blocks_of_reachable hS (ht.mem_preorder_iff_reachable.mp hb)

theorem minds_computeDominators : Minds S g Flow.computeDominators := by
  refine .knowing fun hg => .reading (.lifted fun preds _ => ?_)
  refine .andThen (.each fun _ _ _ _ => minds_modifyBlock (fun _ _ => .inl) nofun) fun _ g₁ _ _ => ?_
  refine .andThen (.each fun ⟨b, m⟩ hb g₂ _ => ?_) fun _ _ _ _ => .value trivial
  have hblock : S.blocks b := hg.bounded.ordered b (.inl (List.fst_mem_of_mem_zipIdx hb))
  dsimp only
  split
  · refine .reading (.lifted fun dom _ => .andThen (minds_modifyBlock (fun _ _ => .inl) fun _ _ => .inl) fun _ _ _ _ =>
      ?_)
    refine minds_modifyBlock (fun _ _ => .inl) fun k c hc => ?_
    obtain hc | hc := List.mem_append.mp hc
    · exact .inl hc
    · exact .inr (List.mem_singleton.mp hc ▸ hblock)
  · exact .value trivial

theorem minds_computeLoops : Minds S g Flow.computeLoops :=
  .reading (.lifted fun _ _ => .filterM fun _ _ _ _ => .lifted fun _ _ =>
    .andThen (minds_modifyBlock (fun _ _ => .inl) fun _ _ => .inl) fun _ _ _ _ => .value trivial)

end Midend.Naming
