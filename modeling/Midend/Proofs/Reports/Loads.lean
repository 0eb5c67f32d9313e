import Midend.Proofs.Keeping
import Midend.Proofs.Loads.Emitting
import Midend.Proofs.Reports.Shown

/-! # What load elimination leaves alone

A load that gives way is told of. Without one, all that is left behind are phis that were made to carry values, and
nothing but these phis refers to them.
-/

namespace Midend.Loads

open FlowGraph Reports

variable {c : Prop} {g₀ g g' : FlowGraph} {p : Progress} {b : BlockId} {d i phi : InstId} {n n' : Node} {k : Nat}

/-! ## New phis -/

/-- All of the graph but its instructions and its phis. -/
def skeleton (g : FlowGraph) : FlowGraph :=
  { g with
    nodes := #[], nextSsaIndex := 0, reaching := []
    blocks := g.blocks.map fun k => { k with phis := [] } }

/-- Besides phis that are used by none but each other, `g` has what `g₀` has. -/
structure Beyond (g₀ g : FlowGraph) : Prop where
  rest : skeleton g = skeleton g₀
  old : ∀ (i : InstId) n, g₀.nodes[i.index]? = some n → ∃ n', g.nodes[i.index]? = some n' ∧ SameLine n n'
  users : ∀ (i : InstId) n, g.nodes[i.index]? = some n → g₀.nodes.size ≤ i.index →
    (∀ u ∈ n.inputUses, g₀.nodes.size ≤ u.user.index) ∧ n.envUses = []

/-- The graph has not shrunk, and unless `c` holds, there is nothing new in it but phis. -/
structure Calm (c : Prop) (g₀ g : FlowGraph) : Prop where
  size : g₀.nodes.size ≤ g.nodes.size
  beyond : c ∨ Beyond g₀ g

/-- Phis that were made are new, and as long as no load was replaced, there is nothing else that is new. -/
structure Quiet (g₀ : FlowGraph) (p : Progress) (g : FlowGraph) : Prop where
  phis : ∀ i ∈ p.phis, g₀.nodes.size ≤ i.index
  pending : ∀ i ∈ p.pending, g₀.nodes.size ≤ i.index
  calm : Calm (p.changed = true) g₀ g

theorem Beyond.refl (g : FlowGraph) : Beyond g g where
  rest := rfl
  old _ n hn := ⟨n, hn, .refl n⟩
  users _ _ hn hge := absurd (Array.getElem?_eq_some_iff.mp hn).1 (Nat.not_lt.mpr hge)

structure Tidy (g₀ : FlowGraph) (i : InstId) (n n' : Node) : Prop where
  old : i.index < g₀.nodes.size → SameLine n n'
  uses : g₀.nodes.size ≤ i.index → ∀ u ∈ n'.inputUses, u ∈ n.inputUses ∨ g₀.nodes.size ≤ u.user.index
  envUses : g₀.nodes.size ≤ i.index → n.envUses = [] → n'.envUses = []

theorem Tidy.of_same (h : SameLine n n') (huses : ∀ u ∈ n'.inputUses, u ∈ n.inputUses)
    (henvs : ∀ u ∈ n'.envUses, u ∈ n.envUses) : Tidy g₀ i n n' where
  old _ := h
  uses _ u hu := .inl (huses u hu)
  envUses _ hnil := List.eq_nil_iff_forall_not_mem.mpr fun u hu => by
    have hu := henvs u hu
    rw [hnil] at hu
    cases hu

theorem Beyond.changes (h : Beyond g₀ g) (hrest : skeleton g' = skeleton g) (hc : Changes g g' (Tidy g₀)) :
    Beyond g₀ g' where
  rest := hrest.trans h.rest
  old i n hn := by
    obtain ⟨n₁, hn₁, hsame⟩ := h.old i n hn
    obtain ⟨n₂, hn₂, htidy⟩ := hc.exists_node hn₁
    exact ⟨n₂, hn₂, hsame.trans (htidy.old (Array.getElem?_eq_some_iff.mp hn).1)⟩
  users i n' hn' hge := by
    obtain ⟨n, hn, htidy⟩ := hc.node i n' hn'
    obtain ⟨huses, henvs⟩ := h.users i n hn hge
    exact ⟨fun u hu => (htidy.uses hge u hu).elim (huses u) id, htidy.envUses hge henvs⟩

theorem Calm.changes (h : Calm c g₀ g) (hsize : g'.nodes.size = g.nodes.size) (hrest : skeleton g' = skeleton g)
    (hc : Beyond g₀ g → Changes g g' (Tidy g₀)) : Calm c g₀ g' :=
  ⟨hsize ▸ h.size, h.beyond.imp_right fun hb => hb.changes hrest (hc hb)⟩

/-! ## Edits -/

theorem changes_withNode {f : Node → Node} (hf : ∀ n, Tidy g₀ i n (f n)) : Changes g (g.withNode i f) (Tidy g₀) := by
  refine .mapNodes (f := fun j n => if j = i then f n else n) rfl fun j n => ?_
  split
  case isTrue h => exact h ▸ hf n
  case isFalse => exact .of_same (.refl n) (fun _ => id) fun _ => id

theorem keeps_modifyNode {f : Node → Node} (hf : ∀ n, Tidy g₀ i n (f n)) : Keeps (Calm c g₀) (Edit.modifyNode i f) := by
  intro g h
  rw [Leads.modifyNode_iff]
  exact ⟨fun _ => h.changes (size_withNode i f) rfl fun _ => changes_withNode hf, fun _ => trivial⟩

theorem keeps_modifyNode? {f : Node → Node} (hf : ∀ n, Tidy g₀ i n (f n)) :
    Keeps (Calm c g₀) (Edit.modifyNode? i f) := by
  intro g h
  rw [Leads.modifyNode?_iff]
  exact h.changes (size_withNode i f) rfl fun _ => changes_withNode hf

theorem keeps_setReplacement {r : InstId} : Keeps (Calm c g₀) (setReplacement i r) :=
  keeps_modifyNode fun _ => .of_same ⟨rfl, rfl, rfl, rfl⟩ (fun _ => id) fun _ => id

theorem keeps_setBlock {o : Option BlockId} : Keeps (Calm c g₀) (Edit.setBlock i o) :=
  keeps_modifyNode fun _ => .of_same ⟨rfl, rfl, rfl, rfl⟩ (fun _ => id) fun _ => id

theorem skeleton_withBlock {f : Block → Block} (hf : ∀ k, { f k with phis := [] } = { k with phis := [] }) :
    skeleton (g.withBlock b f) = skeleton g := by
  have hblocks : ((g.withBlock b f).blocks.map fun k => { k with phis := [] }) = g.blocks.map fun k =>
    { k with phis := [] } := by
    refine ext_blocks fun c => ?_
    rw [Array.getElem?_map, Array.getElem?_map, blocks_withBlock, Option.map_map]
    congr 1
    funext k
    dsimp only [Function.comp_apply]
    split
    · exact hf k
    · rfl
  unfold skeleton
  rw [hblocks]
  rfl

theorem keeps_modifyPhis {f : List InstId → List InstId} :
    Keeps (Calm c g₀) (Edit.modifyBlock b fun k => { k with phis := f k.phis }) := by
  intro g h
  rw [Leads.modifyBlock_iff]
  exact ⟨fun _ => h.changes rfl (skeleton_withBlock fun _ => rfl) fun _ => ⟨rfl, fun _ n hn =>
    ⟨n, hn, .of_same (.refl n) (fun _ => id) fun _ => id⟩⟩, fun _ => trivial⟩

theorem keeps_allocSsaIndex (hi : g₀.nodes.size ≤ i.index) : Keeps (Calm c g₀) (Edit.allocSsaIndex i) := by
  intro g h
  rw [Leads.allocSsaIndex_iff]
  have hchange (n : Node) : Tidy g₀ i n { n with ssaIndex := some g.nextSsaIndex } :=
    ⟨fun hlt => absurd hi (Nat.not_le.mpr hlt), fun _ _ hu => .inl hu, fun _ => id⟩
  have hc := changes_withNode (g := g) hchange
  exact ⟨fun _ => h.changes (size_withNode i _) rfl fun _ => ⟨hc.size, hc.node⟩, fun _ => trivial⟩

theorem keeps_setArg (hi : g₀.nodes.size ≤ i.index) : Keeps (Calm c g₀) (Edit.setArg i k d) := by
  intro g h
  refine Leads.setArg_of_ok.mono ?_
  rintro _ _ ⟨a, rfl⟩
  have hsize : (g.rewired i k a d).nodes.size = g.nodes.size := by rw [rewired, nodes_forgetUses, size_mapNodes]
  refine h.changes hsize rfl fun _ => .rewired fun j n =>
    ⟨fun hlt => ⟨?_, rfl, rfl, rfl⟩, fun _ u hu => ?_, fun _ => id⟩
  · refine if_neg ?_
    rintro rfl
    exact absurd hi (Nat.not_le.mpr hlt)
  · obtain hu | hu := List.mem_append.mp hu
    · split at hu
      · exact .inl (List.mem_filter.mp hu).1
      · exact .inl hu
    · split at hu
      · exact .inr (List.mem_singleton.mp hu ▸ hi)
      · cases hu

theorem keeps_replaceUses (hi : g₀.nodes.size ≤ i.index) : Keeps (Calm c g₀) (Edit.replaceUses i d) := by
  intro g h
  refine Leads.replaceUses_of_ok.mono ?_
  rintro _ _ (⟨-, rfl⟩ | ⟨m, hm, rfl⟩)
  · exact h
  have hsize : (g.redirected i d m.inputUses m.envUses).nodes.size = g.nodes.size := by
    rw [redirected, nodes_forgetUses, size_mapNodes]
  refine h.changes hsize rfl fun hb => .redirected fun j n hn => ?_
  obtain ⟨huses, henvs⟩ := hb.users i m hm hi
  rw [henvs, Node.redirectEnv_nil]
  have hold (hlt : j.index < g₀.nodes.size) : (n.redirectInputs m.inputUses d j).inst = n.inst := by
    have hnot (k : Nat) : (⟨j, k⟩ : Use) ∉ m.inputUses := fun hu => Nat.not_lt.mpr (huses _ hu) hlt
    simp only [Node.redirectInputs, hnot, if_false]
    exact Inst.mapArgs_id
  unfold Node.takeOver
  split
  · exact ⟨fun hlt => ⟨hold hlt, rfl, rfl, rfl⟩, fun _ _ h => absurd h List.not_mem_nil, fun _ _ => rfl⟩
  · split
    · refine ⟨fun hlt => ⟨hold hlt, rfl, rfl, rfl⟩, fun _ u hu => ?_, fun _ hnil => ?_⟩
      · exact (List.mem_append.mp hu).imp_right (huses u)
      · exact (List.append_nil _).trans hnil
    · exact ⟨fun hlt => ⟨hold hlt, rfl, rfl, rfl⟩, fun _ _ hu => .inl hu, fun _ => id⟩

theorem keeps_dropInputUse {u : Use} : Keeps (Calm c g₀) (Edit.dropInputUse i u) :=
  keeps_modifyNode? fun _ => .of_same ⟨rfl, rfl, rfl, rfl⟩ (fun _ hv => (List.mem_filter.mp hv).1) fun _ => id

theorem keeps_dropEnvUse {u : Use} : Keeps (Calm c g₀) (Edit.dropEnvUse i u) :=
  keeps_modifyNode? fun _ => .of_same ⟨rfl, rfl, rfl, rfl⟩ (fun _ => id) fun _ hv => (List.mem_filter.mp hv).1

theorem keeps_removePhi : Keeps (Calm c g₀) (Edit.removePhi i) := by
  have hrest : Keeps (Calm c g₀) (do
      Edit.dropInputUses i
      Edit.dropEnvUses i
      Edit.setBlock i none) := by
    refine .andThen (.reading fun _ => .andThen .lifted fun _ => .each fun _ _ => keeps_dropInputUse) fun _ => ?_
    refine .andThen (.andThen (.reading fun _ => .andThen .lifted fun e => ?_) fun _ => .each fun _ _ =>
      keeps_dropEnvUse) fun _ => keeps_setBlock
    split <;> exact .value _
  refine .reading fun _ => .andThen .lifted fun n => ?_
  split
  · exact .andThen keeps_modifyPhis fun _ => hrest
  · exact hrest

theorem keeps_revivePhi (hi : g₀.nodes.size ≤ i.index) : Keeps (Calm c g₀) (Edit.revivePhi i) :=
  keeps_modifyNode fun _ => ⟨fun hlt => absurd hi (Nat.not_le.mpr hlt), fun _ _ hu => .inl hu, fun _ => id⟩

theorem calm_addPhi {count : Nat} (h : Calm c g₀ g) : Leads True g (Edit.addPhi b none count) fun phi g' =>
    g₀.nodes.size ≤ phi.index ∧ Calm c g₀ g' := by
  refine addPhi_of_ok.mono ?_
  rintro _ _ ⟨rfl, -, rfl⟩
  refine ⟨h.size, ?_, h.beyond.imp_right fun hb => ⟨?_, fun i n hn => ?_, fun i n hn hge => ?_⟩⟩
  · rw [nodes_withBlock, size_withInst]
    exact Nat.le_succ_of_le h.size
  · rw [skeleton_withBlock (f := fun k => { k with phis := k.phis ++ [g.nextId] }) fun _ => rfl]
    exact hb.rest
  · obtain ⟨n', hn', hsame⟩ := hb.old i n hn
    refine ⟨n', ?_, hsame⟩
    rw [nodes_withBlock, nodes_withInst, if_neg, hn']
    rintro rfl
    exact absurd (Array.getElem?_eq_some_iff.mp hn').1 (Nat.lt_irrefl _)
  · rw [nodes_withBlock, nodes_withInst] at hn
    split at hn
    · obtain rfl := Option.some_inj.mp hn
      exact ⟨nofun, rfl⟩
    · exact hb.users i n hn hge

/-! ## The elimination -/

theorem upholds_edit {α : Type} {m : Edit α} (hm : ∀ c, Keeps (Calm c g₀) m) :
    Upholds (Quiet g₀) (liftM m : Forward α) :=
  .edit fun _ g h => (hm _ g h.calm).mono fun _ _ hcalm => ⟨h.phis, h.pending, hcalm⟩

theorem upholds_setAvailable {a : Availability} : Upholds (Quiet g₀) (setAvailable b a) :=
  .note fun _ _ h => ⟨h.phis, h.pending, h.calm⟩

theorem size_replaceLoad (load value : InstId) : Keeps (g₀.nodes.size ≤ ·.nodes.size) (do
    Edit.ensureSsaIndex value load
    Edit.replaceUses load value
    Edit.remove load
    setReplacement load value) := by
  refine .andThen (fun g h => ?_) fun _ => .andThen (fun g h => ?_) fun _ => .andThen (fun g h => ?_) fun _ g h => ?_
  · exact ensureSsaIndex_of_ok.mono fun _ g' hrenumbered => hrenumbered.2.size ▸ h
  · refine Leads.replaceUses_of_ok.mono ?_
    rintro _ _ (⟨-, rfl⟩ | ⟨m, -, rfl⟩)
    · exact h
    · rwa [redirected, nodes_forgetUses, size_mapNodes]
  · refine Leads.remove_of_ok.mono ?_
    rintro _ _ ⟨n, b, -, -, rfl⟩
    rwa [removed, nodes_withLayout, size_withNode, size_mapNodes]
  · unfold setReplacement
    rw [Leads.modifyNode_iff]
    exact ⟨fun _ => by rwa [size_withNode], fun _ => trivial⟩

theorem upholds_replaceLoad {load value : InstId} : Upholds (Quiet g₀) (replaceLoad load value) := by
  intro p g h
  show Threads True g p (replaceLoad load value) fun _ p' g' => Quiet g₀ p' g'
  have hsize := size_replaceLoad load value g h.calm.size
  simp only [Leads.bind_iff] at hsize
  simp only [replaceLoad, Threads.bind_iff, Threads.lift_iff, Threads.modify_iff]
  refine hsize.mono fun _ _ h₁ => ?_
  refine h₁.mono fun _ _ h₂ => ?_
  refine h₂.mono fun _ _ h₃ => ?_
  exact h₃.mono fun _ _ h₄ => ⟨h.phis, h.pending, h₄, .inl rfl⟩

theorem upholds_visitLoad {a : Availability} : Upholds (Quiet g₀) (visitLoad a i k) := by
  unfold visitLoad
  refine .ite (fun _ => ?_) fun _ => .value
  split
  · refine .graph fun _ => ?_
    refine .bind .read fun _ => ?_
    exact .bind upholds_replaceLoad fun _ => .value
  · exact .value

theorem upholds_visitInst {m : Numbering} {a : Availability} : Upholds (Quiet g₀) (visitInst m a i) := by
  refine .graph fun _ => .bind .read fun _ => ?_
  split
  · exact .value
  · refine .ite (fun _ => .value) fun _ => ?_
    split
    · exact upholds_visitLoad
    · exact .value

theorem upholds_visitBlock {m : Numbering} : Upholds (Quiet g₀) (visitBlock m b) :=
  .graph fun _ => .bind (.foldlM fun _ _ _ => upholds_visitInst) fun _ => upholds_setAvailable

theorem upholds_mergePhi {values : List InstId} : Upholds (Quiet g₀) (mergePhi b values) := by
  intro p g h
  show Threads True g p (mergePhi b values) fun _ p' g' => Quiet g₀ p' g'
  unfold mergePhi
  rw [Threads.bind_iff, Threads.lift_iff]
  refine (calm_addPhi h.calm).mono fun phi g₁ hadded => ?_
  obtain ⟨hnew, hcalm⟩ := hadded
  refine (?_ : Upholds (Quiet g₀) _) p g₁ ⟨h.phis, h.pending, hcalm⟩
  refine .bind (.each fun vk _ => upholds_edit fun _ => keeps_setArg (d := vk.1) hnew) fun _ => ?_
  refine .bind (.ignoring (upholds_edit fun _ => keeps_allocSsaIndex hnew)) fun _ =>
    .bind (.note fun p g h => ?_) fun _ => .value
  refine ⟨List.forall_mem_append.mpr ⟨h.phis, List.forall_mem_singleton.mpr hnew⟩, ?_, h.calm⟩
  exact List.forall_mem_cons.mpr ⟨hnew, h.pending⟩

theorem upholds_mergeIncoming : Upholds (Quiet g₀) (mergeIncoming b k) := by
  refine .graph fun _ => ?_
  refine .state fun _ => ?_
  refine .bind .read fun _ => ?_
  refine .bind .read fun _ => ?_
  split
  · exact .ite (fun _ => .value) fun _ => .bind upholds_mergePhi fun _ => .value
  · exact .value

theorem upholds_fillValue : Upholds (Quiet g₀) (fillValue b k) := by
  refine .bind upholds_mergeIncoming fun v => ?_
  cases v with
  | none => exact .value
  | some v =>
    refine .state fun p => ?_
    split
    · exact upholds_setAvailable
    · exact .value

theorem upholds_carryInto {m : Numbering} : Upholds (Quiet g₀) (carryInto m b) := by
  refine .state fun p => ?_
  refine .graph fun _ => ?_
  refine .bind .read fun _ => ?_
  refine .state fun _ => ?_
  dsimp only
  split
  · exact .value
  · refine .ite (fun _ => .value) fun _ => ?_
    refine .bind upholds_setAvailable fun _ => ?_
    refine .ite (fun _ => .value) fun _ => ?_
    exact .bind (.each fun _ _ => upholds_fillValue) fun _ => .value

theorem upholds_settle {m : Numbering} {order : List BlockId} (rounds : Nat) :
    Upholds (Quiet g₀) (settle m order rounds) := by
  induction rounds with
  | zero => exact .fault
  | succ rounds ih =>
    refine .bind (.foldlM fun _ _ _ => .bind upholds_carryInto fun _ => .value) fun _ => ?_
    exact .ite (fun _ => ih) fun _ => .value

theorem upholds_forwardBlock {m : Numbering} : Upholds (Quiet g₀) (forwardBlock m b) := by
  refine .state fun p => ?_
  split
  · exact .value
  · refine .each fun load _ => ?_
    split
    · refine .ite (fun _ => .bind upholds_mergeIncoming fun v => ?_) fun _ => .value
      cases v with
      | none => exact .value
      | some v => exact .graph fun _ => .bind .read fun _ => .ite (fun _ => upholds_replaceLoad) fun _ => .value
    · exact .value

/-! ### Phis that are brought to life -/

theorem upholds_discardPhi : Upholds (Quiet g₀) (discardPhi phi) :=
  .bind (upholds_edit fun _ => keeps_removePhi) fun _ =>
    .note fun _ _ h => ⟨h.phis, fun i hi => h.pending i (List.mem_filter.mp hi).1, h.calm⟩

theorem mem_of_closeCluster {R : InstId → Prop} {pending : List InstId} (hpending : ∀ d ∈ pending, R d) {steps : Nat}
    {x y : Cluster} (hx : ∀ d ∈ x.phis, R d) (hclose : closeCluster g pending steps x = .ok (some y)) :
    ∀ d ∈ y.phis, R d := by
  induction steps generalizing x with
  | zero => cases hclose
  | succ steps ih =>
    unfold closeCluster at hclose
    split at hclose
    case h_1 =>
      obtain rfl := Option.some_inj.mp (pure_eq_ok.mp hclose)
      exact hx
    case h_2 current hcurrent =>
      obtain ⟨as, has, hclose⟩ := bind_eq_ok.mp hclose
      split at hclose
      case h_1 => cases pure_eq_ok.mp hclose
      case h_2 z hz =>
        obtain ⟨new, hnew, hall⟩ := (addInputs_joins hz (List.mem_of_getElem? hcurrent)).phis
        refine ih (fun d hd => ?_) hclose
        have hd : d ∈ x.phis ++ new := hnew ▸ hd
        exact (List.mem_append.mp hd).elim (hx d) fun hd => hpending d (hall d hd)

theorem upholds_eliminateRedundant (hphi : g₀.nodes.size ≤ phi.index) :
    Upholds (Quiet g₀) (eliminateRedundant phi) := by
  intro p g h
  show Threads True g p (eliminateRedundant phi) fun _ p' g' => Quiet g₀ p' g'
  unfold eliminateRedundant
  rw [Threads.bind_iff, Threads.get_iff]
  dsimp only
  rw [Threads.bind_iff, Threads.getThe_iff, Threads.bind_iff, Threads.read_iff]
  refine Yields.of_ok fun result hclose => ?_
  split
  case h_1 phis position v =>
    have hphis : ∀ d ∈ phis, g₀.nodes.size ≤ d.index :=
      mem_of_closeCluster (R := (g₀.nodes.size ≤ ·.index)) h.pending (by simpa using hphi) hclose
    have hrest : Upholds (Quiet g₀) (do
        phis.forM fun p => do
          Edit.replaceUses p v
          setReplacement p v
        phis.forM discardPhi
        return true : Forward Bool) := by
      refine .bind (.each fun d hd => .bind (upholds_edit fun _ => keeps_replaceUses (hphis d hd)) fun _ => ?_) fun _ =>
        ?_
      · exact upholds_edit fun _ => keeps_setReplacement
      · exact .bind (.each fun _ _ => upholds_discardPhi) fun _ => .value
    exact hrest p g h
  case h_2 => exact h

theorem upholds_emitPhi (hphi : g₀.nodes.size ≤ phi.index) : Upholds (Quiet g₀) (emitPhi phi) := by
  refine .graph fun _ => ?_
  refine .bind .read fun _ => ?_
  refine .ite (fun _ => .value) fun _ => ?_
  refine .bind .read fun _ => ?_
  refine .ite (fun _ => upholds_discardPhi) fun _ => .bind (upholds_eliminateRedundant hphi) fun _ => ?_
  refine .ite (fun _ => .bind (upholds_edit fun _ => keeps_revivePhi hphi) fun _ => ?_) fun _ => .value
  exact .note fun _ _ h => ⟨h.phis, fun i hi => h.pending i (List.mem_filter.mp hi).1, h.calm⟩

theorem upholds_forwardAll {m : Numbering} : Upholds (Quiet g₀) (forwardAll m) := by
  refine .graph fun _ => ?_
  refine .bind (.each fun _ _ => upholds_visitBlock) fun _ => ?_
  refine .bind (upholds_settle _) fun _ => ?_
  refine .bind (.each fun _ _ => upholds_forwardBlock) fun _ p g h => ?_
  have hrest : Upholds (Quiet g₀) (p.phis.forM emitPhi) := .each fun phi hphi => upholds_emitPhi (h.phis phi hphi)
  exact hrest p g h

/-! ## What is to be seen -/

/-- If no change is told of, the text of the graph shows nothing new but phis. -/
theorem shows_eliminateLoads (hrun : eliminateLoads.run g = .ok (false, g')) : Shows g g' ∧ SameLoops g g' ∧
    SameRanges g g' := by
  have hlead : Leads True g eliminateLoads fun changed g' => changed = false → Beyond g g' := by
    unfold eliminateLoads
    rw [Leads.bind_iff, Leads.get_iff, Leads.bind_iff, Leads.lift_iff]
    refine Yields.of_ok fun m _ => ?_
    split
    · exact fun _ => .refl g
    · rw [Leads.bind_iff]
      refine (upholds_forwardAll {} g
        ⟨List.forall_mem_nil _, List.forall_mem_nil _, Nat.le_refl _, .inr (.refl g)⟩).mono ?_
      intro r g₁ h hnone
      exact h.calm.beyond.resolve_left fun hsome => Bool.false_ne_true (hnone.symm.trans hsome)
  have hbeyond := hlead.post_of_ok hrun rfl
  have hblock (b : BlockId) (k : Block) (hk : g.blocks[b.index]? = some k) :
      ∃ k', g'.blocks[b.index]? = some k' ∧ { k' with phis := [] } = { k with phis := [] } := by
    have h := congrArg (fun x : FlowGraph => x.blocks[b.index]?) hbeyond.rest
    simp only [skeleton, Array.getElem?_map, hk, Option.map_some] at h
    exact Option.map_eq_some_iff.mp h
  have hheading : heading g' = heading g := (congrArg heading hbeyond.rest :)
  have hinsts (b : BlockId) : g'.insts b = g.insts b := (congrArg (FlowGraph.insts · b) hbeyond.rest :)
  obtain ⟨hshows, hranges⟩ := Shows.of_lines hheading hinsts (fun b k hk => by
    obtain ⟨k', hk', hsame⟩ := hblock b k hk
    rw [Block.mk.injEq] at hsame
    exact ⟨k', hk', hsame.1, hsame.2.1, hsame.2.2.2.2.2.1⟩) hbeyond.old
  refine ⟨hshows, fun b k k' hk hk' => ?_, hranges⟩
  obtain ⟨k₁, hk₁, hsame⟩ := hblock b k hk
  obtain rfl := Option.some_inj.mp (hk'.symm.trans hk₁)
  rw [Block.mk.injEq] at hsame
  rw [hsame.2.2.2.2.2.2.2]

end Midend.Loads
