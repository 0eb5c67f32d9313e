import Midend.Proofs.Ssa.Liveness
import Midend.Proofs.Ssa.UseLists
import Midend.Ssa

/-! # Removing dead phis

A phi that nothing reads goes away. Environments that mention it see the null constant.
-/

namespace Midend.Ssa

open Midend.Flow

/-- The graph in which dead phis are removed: use lists are exact, and nothing reads a dead phi. -/
structure Clearable (g : FlowGraph) : Prop where
  listed : Listed g
  block : ∀ b ∈ g.preorder, ∃ k, g.blocks[b.index]? = some k
  phis_nodup : ∀ b, (phisOf g b).Nodup
  phis : ∀ b, ∀ phi ∈ phisOf g b, (∀ c, phi ∉ g.insts c) ∧ phi ∉ g.initialDefinitions ∧
    ∃ n, g.nodes[phi.index]? = some n ∧ n.inst.isPhi = true ∧ n.block = some b ∧ n.env = none
  unread : ∀ u d, Reads g u d → isPhiIn g d = true → aliveIn g d = true

structure Cleared (g : FlowGraph) (null : InstId) (D : List InstId) (g' : FlowGraph) : Prop where
  preorder : g'.preorder = g.preorder
  postorder : g'.postorder = g.postorder
  layout : g'.layout = g.layout
  initialDefinitions : g'.initialDefinitions = g.initialDefinitions
  catchEntries : g'.catchEntries = g.catchEntries
  size : g'.nodes.size = g.nodes.size
  blocks : ∀ b : BlockId, g'.blocks[b.index]? =
    (g.blocks[b.index]?).map fun k => { k with phis := k.phis.filter (· ∉ D) }
  nodes : ∀ (i : InstId) (n : Node), g.nodes[i.index]? = some n → ∃ n', g'.nodes[i.index]? = some n' ∧
    n'.inst = n.inst ∧ (n'.block = if i ∈ D then none else n.block) ∧ n'.env.isSome = n.env.isSome ∧
    n'.deoptId = n.deoptId
  envs : ∀ (b : BlockId) (i : InstId) (j : Nat), b ∈ g.preorder → i ∈ g.insts b →
    resumeOf g' i j = (resumeOf g i j).map fun v => if v ∈ D then null else v
  listed : Listed g'
  names : g.KeepsNames g'

section Clearing

variable {g g' : FlowGraph} {null phi : InstId} {D : List InstId} {b : BlockId}

theorem Cleared.refl (h : Clearable g) (null : InstId) : Cleared g null [] g where
  preorder := rfl
  postorder := rfl
  layout := rfl
  initialDefinitions := rfl
  catchEntries := rfl
  size := rfl
  blocks := by
    intro b
    cases g.blocks[b.index]? <;> simp
  nodes := fun i n hn => ⟨n, hn, rfl, rfl, rfl, rfl⟩
  envs := by
    intro b i j _ _
    cases resumeOf g i j <;> simp
  listed := h.listed
  names := .refl g

/-- The instructions and what they read are the same in both graphs, but for phis that are dead. -/
structure SameReads (g g' : FlowGraph) : Prop where
  preorder : g'.preorder = g.preorder
  layout : g'.layout = g.layout
  size : g'.nodes.size = g.nodes.size
  inst : ∀ (i : InstId) (n : Node), g.nodes[i.index]? = some n → ∃ n', g'.nodes[i.index]? = some n' ∧ n'.inst = n.inst
  phis : ∀ c i, aliveIn g i = true → (i ∈ phisOf g' c ↔ i ∈ phisOf g c)

namespace SameReads

variable (h : SameReads g g')

include h

theorem map_inst {α : Type} (f : Inst → α) (i : InstId) :
    (g'.nodes[i.index]?).map (fun n => f n.inst) = (g.nodes[i.index]?).map fun n => f n.inst := by
  cases hn : g.nodes[i.index]? with
  | none =>
    have hnone : g'.nodes[i.index]? = none := by
      rw [Array.getElem?_eq_none_iff] at hn ⊢
      rwa [h.size]
    rw [hnone]
  | some n =>
    obtain ⟨n', hn', hinst⟩ := h.inst i n hn
    rw [hn', Option.map_some, Option.map_some, hinst]

theorem aliveIn_eq (i : InstId) : aliveIn g' i = aliveIn g i := by
  unfold aliveIn
  rw [h.map_inst Inst.isAlivePhi]

theorem inputOf_eq (i : InstId) (j : Nat) : inputOf g' i j = inputOf g i j := by
  have hmap := h.map_inst (fun d => d.args[j]?) i
  unfold inputOf
  cases hn : g.nodes[i.index]? <;> cases hn' : g'.nodes[i.index]? <;> simp_all

theorem reads_iff {u : Use} {d : InstId} : Reads g' u d ↔ Reads g u d := by
  unfold Reads
  rw [h.inputOf_eq, h.preorder, h.aliveIn_eq]
  refine and_congr_left fun _ => exists_congr fun c => and_congr_right fun _ => ?_
  have hinsts : g'.insts c = g.insts c := by rw [FlowGraph.insts, h.layout]; rfl
  rw [hinsts]
  exact or_congr_left (and_congr_left fun halive => h.phis c _ halive)

end SameReads

theorem Cleared.sameReads (h : Cleared g null D g') (hD : ∀ i ∈ D, aliveIn g i = false) : SameReads g g' where
  preorder := h.preorder
  layout := h.layout
  size := h.size
  inst := by
    intro i n hn
    obtain ⟨n', hn', hinst, -⟩ := h.nodes i n hn
    exact ⟨n', hn', hinst⟩
  phis := by
    intro c i halive
    have hi : i ∉ D := fun hmem => by simp [hD i hmem] at halive
    unfold phisOf
    rw [h.blocks]
    cases g.blocks[c.index]? <;> simp [hi]

/-- The graph with the phi taken out of `b`, and with `null` in its place at the uses `es` in environments. -/
structure Dropped (g : FlowGraph) (phi null : InstId) (es : List Use) (b : BlockId) (g' : FlowGraph) : Prop where
  preorder : g'.preorder = g.preorder
  postorder : g'.postorder = g.postorder
  layout : g'.layout = g.layout
  initialDefinitions : g'.initialDefinitions = g.initialDefinitions
  catchEntries : g'.catchEntries = g.catchEntries
  size : g'.nodes.size = g.nodes.size
  blocks : ∀ c : BlockId, g'.blocks[c.index]? =
    (g.blocks[c.index]?).map fun k => if c = b then { k with phis := k.phis.filter (· != phi) } else k
  nodes : ∀ (i : InstId) (n : Node), g.nodes[i.index]? = some n → ∃ n', g'.nodes[i.index]? = some n' ∧
    n'.inst = n.inst ∧ (n'.block = if i = phi then none else n.block) ∧
    (n'.env = n.env.map fun e => { e with values := e.values.mapIdx fun k v => if ⟨i, k⟩ ∈ es then null else v }) ∧
    n'.deoptId = n.deoptId ∧ (∀ u, u ∈ n'.inputUses ↔ u ∈ n.inputUses) ∧
    ∀ u, u ∈ n'.envUses ↔ i ≠ phi ∧ (u ∈ n.envUses ∨ (i = null ∧ u ∈ es))
  names : g.KeepsNames g'

theorem Dropped.sameReads {es : List Use} (h : Dropped g phi null es b g') (hdead : aliveIn g phi = false) :
    SameReads g g' where
  preorder := h.preorder
  layout := h.layout
  size := h.size
  inst := by
    intro i n hn
    obtain ⟨n', hn', hinst, -⟩ := h.nodes i n hn
    exact ⟨n', hn', hinst⟩
  phis := by
    intro c i halive
    have hi : i ≠ phi := fun heq => by simp [heq, hdead] at halive
    unfold phisOf
    rw [h.blocks]
    cases g.blocks[c.index]? with
    | none => simp
    | some k => by_cases hc : c = b <;> simp [hc, hi]

theorem leads_dropPhi {n : Node} (hn : g.nodes[phi.index]? = some n) (hunread : n.inputUses = [])
    (hblock : n.block = some b) (henv : n.env = none) (hb : b.index < g.blocks.size) (hne : phi ≠ null)
    (hnull : null.index < g.nodes.size) (hexist : g.UsesExist n)
    (hfresh : ∀ (i : InstId) (m : Node), g.nodes[i.index]? = some m → ∀ u ∈ m.inputUses, u.user ≠ phi) :
    Leads False g (do
      Edit.replaceUses phi null
      Edit.removePhi phi) fun _ g' => Dropped g phi null n.envUses b g' := by
  have hlt : phi.index < g.nodes.size := (Array.getElem?_eq_some_iff.mp hn).1
  rw [Leads.bind_iff]
  refine (Leads.replaceUses hn hne fun _ => ⟨hnull, hexist⟩).mono ?_
  rintro _ _ rfl
  rw [hunread]
  obtain ⟨m, hm, hmblock, hmenv⟩ : ∃ m, (g.redirected phi null [] n.envUses).nodes[phi.index]? = some m ∧
      m.block = some b ∧ m.envValues = [] := by
    refine ⟨_, by simp only [FlowGraph.redirected, FlowGraph.nodes_forgetUses, FlowGraph.nodes_mapNodes, hn]; rfl, ?_,
      ?_⟩
    · simp only [Node.takeOver, if_true]
      exact hblock
    · simp only [Node.takeOver, if_true, Node.envValues, Node.redirectEnv, Node.redirectInputs, henv]
      rfl
  have hnode : (g.redirected phi null [] n.envUses).node phi = .ok m := FlowGraph.node_eq_ok.mpr hm
  unfold Edit.removePhi Edit.setBlock
  rw [Leads.bind_iff, Leads.get_iff, Leads.bind_iff, Leads.lift_iff, hnode, Yields.ok_iff, hmblock]
  simp only [Leads.bind_iff, Leads.modifyBlock_iff]
  refine ⟨fun _ => ?_, fun hle => absurd hb (Nat.not_lt.mpr hle)⟩
  -- From here on only the nodes change.
  generalize hg₂ : ((g.redirected phi null [] n.envUses).withBlock b fun k =>
    { k with phis := k.phis.filter (· != phi) }) = g₂
  have hnodes₂ : g₂.nodes = (g.redirected phi null [] n.envUses).nodes := by rw [← hg₂, FlowGraph.nodes_withBlock]
  have hm₂ : g₂.nodes[phi.index]? = some m := hnodes₂ ▸ hm
  have hsize₂ : g₂.nodes.size = g.nodes.size := by simp [hnodes₂, FlowGraph.redirected]
  refine (Leads.dropInputUses hm₂).mono ?_
  rintro _ _ rfl
  have hm₃ : (g₂.mapNodes fun j m' => m'.dropUses (Edit.usesBy phi m.inst.args) [] j).nodes[phi.index]? =
      some (m.dropUses (Edit.usesBy phi m.inst.args) [] phi) := by rw [FlowGraph.nodes_mapNodes, hm₂]; rfl
  have hmenv₃ : (m.dropUses (Edit.usesBy phi m.inst.args) [] phi).envValues = [] := hmenv
  refine (Leads.dropEnvUses hm₃).mono ?_
  rintro _ _ rfl
  rw [Leads.modifyNode_iff, FlowGraph.size_mapNodes, FlowGraph.size_mapNodes, hsize₂, hmenv₃,
    FlowGraph.mapNodes_mapNodes, FlowGraph.withNode, FlowGraph.mapNodes_mapNodes]
  refine ⟨fun _ => ?_, fun hle => absurd hlt (Nat.not_lt.mpr hle)⟩
  refine ⟨by subst hg₂; rfl, by subst hg₂; rfl, by subst hg₂; rfl, by subst hg₂; rfl, by subst hg₂; rfl, ?_, fun c =>
    ?_, fun i k hk => ?_, ?_⟩
  · rw [FlowGraph.size_mapNodes, hsize₂]
  · subst hg₂
    exact FlowGraph.blocks_withBlock b c _
  · rw [FlowGraph.nodes_mapNodes, hnodes₂, FlowGraph.redirected, FlowGraph.nodes_forgetUses, FlowGraph.nodes_mapNodes,
      hk]
    have hread : ∀ u ∈ k.inputUses, (i, u) ∉ Edit.usesBy phi m.inst.args := fun u hu hmem =>
      hfresh i k hk u hu (Edit.mem_usesBy.mp hmem).1
    have hnil : Edit.usesBy phi [] = [] := rfl
    by_cases hi : i = phi
    · subst hi
      obtain rfl : n = k := by simpa [hn] using hk
      refine ⟨_, rfl, ?_, ?_, ?_, ?_, ?_, ?_⟩ <;>
        simp [Node.takeOver, Node.dropUses, Node.redirectEnv, Node.redirectInputs, hunread]
    · by_cases hi' : i = null
      · subst hi'
        refine ⟨_, rfl, ?_, ?_, ?_, ?_, ?_, ?_⟩ <;>
          simp [Node.takeOver, Node.dropUses, Node.redirectEnv, Node.redirectInputs, hi, hnil]
        exact hread
      · refine ⟨_, rfl, ?_, ?_, ?_, ?_, ?_, ?_⟩ <;>
          simp [Node.takeOver, Node.dropUses, Node.redirectEnv, Node.redirectInputs, hi, hi', hnil]
        exact hread
  · have hnames₂ : g.KeepsNames g₂ := by
      refine .changes (.mapNodes (hnodes₂.trans (FlowGraph.nodes_forgetUses _)) fun j n => ?_) (by subst hg₂; rfl)
      unfold Node.takeOver
      split
      · rfl
      · split <;> rfl
    refine hnames₂.trans (.mapNodes fun j n => ?_)
    split <;> rfl

theorem Cleared.drop {es : List Use} {g'' : FlowGraph} (h : Cleared g null D g') (hne : phi ≠ null)
    (hdead : aliveIn g phi = false) (hD : ∀ i ∈ D, aliveIn g i = false)
    (hhome : ∀ c, phi ∈ phisOf g c → c = b)
    (hes : ∀ u, u ∈ es ↔ Resumes g' u phi) (hdrop : Dropped g' phi null es b g'') :
    Cleared g null (phi :: D) g'' := by
  have hdead' : aliveIn g' phi = false := ((h.sameReads hD).aliveIn_eq phi).trans hdead
  have hinsts (c : BlockId) : g'.insts c = g.insts c := by rw [FlowGraph.insts, h.layout]; rfl
  have hinsts' (c : BlockId) : g''.insts c = g'.insts c := by rw [FlowGraph.insts, hdrop.layout]; rfl
  have hresume (i : InstId) (j : Nat) : resumeOf g'' i j =
      (resumeOf g' i j).map fun v => if ⟨i, j⟩ ∈ es then null else v := by
    unfold resumeOf
    cases hn : g'.nodes[i.index]? with
    | none =>
      have hnone : g''.nodes[i.index]? = none := by
        rw [Array.getElem?_eq_none_iff] at hn ⊢
        rwa [hdrop.size]
      rw [hnone]
      rfl
    | some n =>
      obtain ⟨n', hn', -, -, henv, -⟩ := hdrop.nodes i n hn
      rw [hn', Option.bind_some, Option.bind_some, Node.envValues, henv, Node.envValues]
      cases n.env with
      | none => simp
      | some e => simp
  have hplaced (u : Use) (hu : ∃ c ∈ g'.preorder, u.user ∈ g'.insts c) :
      resumeOf g'' u.user u.index = (resumeOf g' u.user u.index).map fun v => if v = phi then null else v := by
    have hmem : u ∈ es ↔ resumeOf g' u.user u.index = some phi := by
      rw [hes, Resumes]
      exact and_iff_right hu
    rw [hresume]
    cases hv : resumeOf g' u.user u.index with
    | none => rfl
    | some v =>
      rw [hv, Option.some_inj] at hmem
      by_cases hv' : v = phi <;> simp [hmem, hv']
  refine ⟨hdrop.preorder.trans h.preorder, hdrop.postorder.trans h.postorder, hdrop.layout.trans h.layout,
    hdrop.initialDefinitions.trans h.initialDefinitions, hdrop.catchEntries.trans h.catchEntries,
    hdrop.size.trans h.size, fun c => ?_, fun i n hn => ?_, fun c i j hc hi => ?_,
    ⟨fun d n hn u => ?_, fun d n hn u => ?_⟩, h.names.trans hdrop.names⟩
  · rw [hdrop.blocks, h.blocks, Option.map_map]
    cases hk : g.blocks[c.index]? with
    | none => rfl
    | some k =>
      simp only [Option.map_some, Function.comp_apply, Option.some_inj]
      by_cases hc : c = b
      · simp only [hc, if_true, List.filter_filter]
        congr 1
        refine List.filter_congr fun i _ => ?_
        simp [bne, beq_eq_decide]
      · have hphi : phi ∉ k.phis := fun hmem => hc (hhome c (by rwa [phisOf_eq hk]))
        simp only [hc, if_false]
        congr 1
        refine List.filter_congr fun i hi => ?_
        have hi : i ≠ phi := fun heq => hphi (heq ▸ hi)
        simp [hi]
  · obtain ⟨n', hn', hinst, hblock, henv, hid⟩ := h.nodes i n hn
    obtain ⟨n'', hn'', hinst', hblock', henv', hid', -⟩ := hdrop.nodes i n' hn'
    refine ⟨n'', hn'', hinst'.trans hinst, ?_, by rw [henv', Option.isSome_map, henv], hid'.trans hid⟩
    rw [hblock', hblock]
    by_cases hi : i = phi <;> simp [hi]
  · have hu := hplaced ⟨i, j⟩ ⟨c, h.preorder ▸ hc, by rwa [hinsts]⟩
    simp only at hu
    rw [hu, h.envs c i j hc hi]
    cases resumeOf g i j with
    | none => rfl
    | some v =>
      by_cases hv : v ∈ D
      · simp [hv, Ne.symm hne]
      · by_cases hv' : v = phi
        · subst hv'
          simp [hv]
        · simp [hv, hv']
  · obtain ⟨n', hn'⟩ : ∃ n', g'.nodes[d.index]? = some n' :=
      ⟨_, Array.getElem?_eq_getElem (hdrop.size ▸ (Array.getElem?_eq_some_iff.mp hn).1)⟩
    obtain ⟨n'', hn'', -, -, -, -, hin, -⟩ := hdrop.nodes d n' hn'
    obtain rfl : n'' = n := by simpa [hn''] using hn
    rw [hin, h.listed.inputs d n' hn', (hdrop.sameReads hdead').reads_iff]
  · obtain ⟨n', hn'⟩ : ∃ n', g'.nodes[d.index]? = some n' :=
      ⟨_, Array.getElem?_eq_getElem (hdrop.size ▸ (Array.getElem?_eq_some_iff.mp hn).1)⟩
    obtain ⟨n'', hn'', -, -, -, -, -, henv⟩ := hdrop.nodes d n' hn'
    obtain rfl : n'' = n := by simpa [hn''] using hn
    rw [henv, h.listed.envs d n' hn', hes, Resumes, Resumes, Resumes, hdrop.preorder]
    simp only [hinsts']
    by_cases hu : ∃ c ∈ g'.preorder, u.user ∈ g'.insts c
    · rw [hplaced u hu]
      simp only [hu, true_and]
      cases resumeOf g' u.user u.index with
      | none => simp
      | some v =>
        simp only [Option.some_inj, Option.map_some]
        by_cases hv : v = phi
        · subst hv
          simp only [if_true, and_true]
          constructor
          · rintro ⟨hd, rfl | rfl⟩
            · exact absurd rfl hd
            · rfl
          · rintro rfl
            exact ⟨Ne.symm hne, .inr rfl⟩
        · simp only [hv, if_false, and_false, or_false]
          refine and_iff_right_of_imp ?_
          rintro rfl
          exact hv
    · simp [hu]

theorem Cleared.leads_remove (hg : Clearable g) (h : Cleared g null D g') (hD : ∀ i ∈ D, aliveIn g i = false)
    (hb : b ∈ g.preorder) (hphi : phi ∈ phisOf g b) (hdead : aliveIn g phi = false) (hnew : phi ∉ D)
    (hnull : null ∈ g.initialDefinitions) (hlt : null.index < g.nodes.size) :
    Leads False g' (do
      Edit.replaceUses phi null
      Edit.removePhi phi) fun _ g'' => Cleared g null (phi :: D) g'' := by
  obtain ⟨k, hk⟩ := hg.block b hb
  obtain ⟨hunplaced, hnotInitial, n, hn, hisPhi, hblock, henv⟩ := hg.phis b phi hphi
  have hne : phi ≠ null := fun heq => hnotInitial (heq ▸ hnull)
  have hsame := h.sameReads hD
  obtain ⟨n', hn', hinst, hblock', henv', -⟩ := h.nodes phi n hn
  have hnone : n'.env = none := by
    rw [← Option.not_isSome_iff_eq_none, henv', henv]
    simp
  rw [if_neg hnew] at hblock'
  have hunread : n'.inputUses = [] := by
    rw [List.eq_nil_iff_forall_not_mem]
    intro u hu
    have hread := hsame.reads_iff.mp ((h.listed.inputs phi n' hn' u).mp hu)
    have halive := hg.unread u phi hread (isPhiIn_iff.mpr ⟨n, hn, hisPhi⟩)
    simp [hdead] at halive
  have hexist : g'.UsesExist n' := by
    refine ⟨by simp [hunread], fun u hu => ?_⟩
    have hres := ((h.listed.envs phi n' hn' u).mp hu).2
    unfold resumeOf at hres
    obtain ⟨m, hm, hget⟩ := Option.bind_eq_some_iff.mp hres
    refine ⟨m, hm, fun e he => ?_⟩
    rw [Node.envValues, he, Option.map_some, Option.getD_some] at hget
    exact (List.getElem?_eq_some_iff.mp hget).1
  have hfresh : ∀ (i : InstId) (m : Node), g'.nodes[i.index]? = some m → ∀ u ∈ m.inputUses, u.user ≠ phi := by
    rintro i m hm u hu rfl
    obtain ⟨⟨c, -, hc⟩, -⟩ := hsame.reads_iff.mp ((h.listed.inputs i m hm u).mp hu)
    obtain ⟨-, halive⟩ | hplaced := hc
    · simp [hdead] at halive
    · exact hunplaced c hplaced
  obtain ⟨k', hk'⟩ : ∃ k', g'.blocks[b.index]? = some k' := ⟨_, by rw [h.blocks, hk]; rfl⟩
  have hsize : b.index < g'.blocks.size := (Array.getElem?_eq_some_iff.mp hk').1
  refine (leads_dropPhi hn' hunread (hblock'.trans hblock) hnone hsize hne (h.size ▸ hlt) hexist hfresh).mono ?_
  intro _ g'' hdrop
  refine h.drop hne hdead hD (fun c hmem => ?_) (fun u => h.listed.envs phi n' hn' u) hdrop
  obtain ⟨-, -, m, hm, -, hmblock, -⟩ := hg.phis c phi hmem
  obtain rfl : n = m := by simpa [hn] using hm
  rw [hblock, Option.some_inj] at hmblock
  exact hmblock.symm

def IsDead (g : FlowGraph) (i : InstId) : Prop := (∃ b, i ∈ phisOf g b) ∧ aliveIn g i = false

theorem Cleared.leads_clearBlock (hg : Clearable g) (h : Cleared g null D g') (hD : ∀ i ∈ D, IsDead g i)
    (hb : b ∈ g.preorder) (hnull : null ∈ g.initialDefinitions) (hlt : null.index < g.nodes.size) :
    Leads False g' (do
      (← (← get).phis b).forM fun phi => do
        if !(← (← get).isAlivePhi phi) then
          Edit.replaceUses phi null
          Edit.removePhi phi) fun _ g'' => ∃ D', (∀ i ∈ D', IsDead g i) ∧ (∀ i ∈ D, i ∈ D') ∧
      (∀ phi ∈ phisOf g b, aliveIn g phi = false → phi ∈ D') ∧ Cleared g null D' g'' := by
  obtain ⟨k, hk⟩ := hg.block b hb
  have hphis : g'.phis b = .ok ((phisOf g b).filter (· ∉ D)) := by
    refine FlowGraph.phis_eq_ok.mpr ⟨_, by rw [h.blocks, hk]; rfl, ?_⟩
    rw [phisOf_eq hk]
  rw [Leads.bind_iff, Leads.get_iff, Leads.bind_iff, Leads.lift_iff, hphis, Yields.ok_iff]
  refine (Leads.forM (fun done g'' => ∃ D', (∀ i ∈ D', IsDead g i) ∧ (∀ i ∈ D, i ∈ D') ∧
    (∀ i ∈ D', i ∈ D ∨ i ∈ done) ∧ (∀ phi ∈ done, aliveIn g phi = false → phi ∈ D') ∧ Cleared g null D' g'')
    ⟨D, hD, fun _ h => h, fun _ h => .inl h, by simp, h⟩ ?_).mono ?_
  · rintro done phi rest g₂ hsplit ⟨D', hD', hsub, hnew, hdone, h₂⟩
    have hmem : phi ∈ (phisOf g b).filter (· ∉ D) := hsplit ▸ List.mem_append_right _ List.mem_cons_self
    obtain ⟨hphi, hphiD⟩ : phi ∈ phisOf g b ∧ phi ∉ D := by simpa using hmem
    have hphidone : phi ∉ done := by
      have hnodup : (done ++ phi :: rest).Nodup := hsplit ▸ (hg.phis_nodup b).filter _
      exact fun hmem => (List.nodup_append.mp hnodup).2.2 phi hmem phi List.mem_cons_self rfl
    obtain ⟨-, -, m, hm, -⟩ := hg.phis b phi hphi
    obtain ⟨m', hm', hinst', -⟩ := h₂.nodes phi m hm
    have halive : g₂.isAlivePhi phi = .ok (aliveIn g phi) :=
      FlowGraph.isAlivePhi_eq_ok.mpr ⟨m', hm', by rw [hinst', aliveIn_eq hm]⟩
    rw [Leads.bind_iff, Leads.get_iff, Leads.bind_iff, Leads.lift_iff, halive, Yields.ok_iff]
    cases hdead : aliveIn g phi with
    | true =>
      simp only [Bool.not_true, Bool.false_eq_true, if_false, Leads.pure_iff]
      refine ⟨D', hD', hsub, fun i hi => ?_, fun i hi hdead' => ?_, h₂⟩
      · exact (hnew i hi).imp_right fun h => List.mem_append_left _ h
      · obtain hi | hi := List.mem_append.mp hi
        · exact hdone i hi hdead'
        · rw [List.mem_singleton.mp hi, hdead] at hdead'
          cases hdead'
    | false =>
      simp only [Bool.not_false, if_true]
      have hphiD' : phi ∉ D' := fun hmem => (hnew phi hmem).elim hphiD hphidone
      refine (h₂.leads_remove hg (fun i hi => (hD' i hi).2) hb hphi hdead hphiD' hnull hlt).mono fun _ g₃ h₃ => ?_
      refine ⟨phi :: D', List.forall_mem_cons.mpr ⟨⟨⟨b, hphi⟩, hdead⟩, hD'⟩,
        fun i hi => List.mem_cons_of_mem phi (hsub i hi), fun i hi => ?_, fun i hi hdead' => ?_, h₃⟩
      · obtain rfl | hi := List.mem_cons.mp hi
        · exact .inr (by simp)
        · exact (hnew i hi).imp_right fun h => List.mem_append_left _ h
      · obtain hi | hi := List.mem_append.mp hi
        · exact List.mem_cons_of_mem phi (hdone i hi hdead')
        · rw [List.mem_singleton.mp hi]
          exact List.mem_cons_self
  · rintro _ g₂ ⟨D', hD', hsub, -, hall, h₂⟩
    refine ⟨D', hD', hsub, fun phi hphi hdead => ?_, h₂⟩
    by_cases hmem : phi ∈ D
    · exact hsub phi hmem
    · exact hall phi (List.mem_filter.mpr ⟨hphi, by simpa using hmem⟩) hdead

/-- All dead phis go, and the null constant stands in for them. -/
theorem leads_removeDeadPhis (hg : Clearable g) (hinitial : ∀ d ∈ g.initialDefinitions, d.index < g.nodes.size)
    (hnull : ∃ d ∈ g.initialDefinitions, ∃ n, g.nodes[d.index]? = some n ∧ n.inst = .constant .null) :
    Leads False g removeDeadPhis fun _ g' => ∃ null D, null ∈ g.initialDefinitions ∧
      (∃ n, g.nodes[null.index]? = some n ∧ n.inst = .constant .null) ∧ (∀ i ∈ D, IsDead g i) ∧
      (∀ b ∈ g.preorder, ∀ phi ∈ phisOf g b, aliveIn g phi = false → phi ∈ D) ∧ Cleared g null D g' := by
  unfold removeDeadPhis
  rw [Leads.bind_iff]
  refine (Leads.getConstant_cases fun _ => hinitial).mono ?_
  rintro null g₁ (⟨hg₁, hmem, n, c, hn, hinst, hc⟩ | ⟨hnone, -⟩)
  · subst g₁
    obtain rfl : c = .null := by cases c <;> simp_all [BEq.beq, Constant.same]
    rw [Leads.bind_iff, Leads.get_iff]
    refine (Leads.forM (fun done g' => ∃ D, (∀ i ∈ D, IsDead g i) ∧
      (∀ b ∈ done, ∀ phi ∈ phisOf g b, aliveIn g phi = false → phi ∈ D) ∧ Cleared g null D g')
      ⟨[], by simp, by simp, .refl hg null⟩ ?_).mono ?_
    · rintro done b rest g₁ hsplit ⟨D, hD, hdone, h₁⟩
      have hb : b ∈ g.preorder := by simp [hsplit]
      refine (h₁.leads_clearBlock hg hD hb hmem (hinitial null hmem)).mono ?_
      rintro _ g₂ ⟨D', hD', hsub, hall, h₂⟩
      refine ⟨D', hD', fun c hc phi hphi hdead => ?_, h₂⟩
      obtain hc | hc := List.mem_append.mp hc
      · exact hsub phi (hdone c hc phi hphi hdead)
      · rw [List.mem_singleton.mp hc] at hphi
        exact hall phi hphi hdead
    · rintro _ g' ⟨D, hD, hdone, h⟩
      exact ⟨null, D, hmem, ⟨n, hn, hinst⟩, hD, hdone, h⟩
  · obtain ⟨d, hd, n, hn, hinst⟩ := hnull
    obtain ⟨m, hm, hfalse⟩ := hnone d hd
    obtain rfl : n = m := by simpa [hn] using hm
    rw [hinst] at hfalse
    cases hfalse

end Clearing

end Midend.Ssa
