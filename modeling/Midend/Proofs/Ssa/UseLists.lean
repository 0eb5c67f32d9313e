import Midend.Proofs.Consistency
import Midend.Proofs.Ssa.Walk

/-! # Use lists built anew

After they are built, the use lists have exactly the inputs and environments of the visited blocks.
-/

namespace Midend.Ssa

open Midend.Flow
open Edit (usesOf mem_usesOf usesOf_concat mem_usesBy)

/-- Value `j` of the environment of an instruction. -/
def resumeOf (g : FlowGraph) (i : InstId) (j : Nat) : Option InstId :=
  (g.nodes[i.index]?).bind fun n => n.envValues[j]?

/-- The use is an input of a live phi or of an instruction in a visited block. -/
def Reads (g : FlowGraph) (u : Use) (d : InstId) : Prop :=
  (∃ b ∈ g.preorder, (u.user ∈ phisOf g b ∧ aliveIn g u.user = true) ∨ u.user ∈ g.insts b) ∧
    inputOf g u.user u.index = some d

/-- The use is in the environment of an instruction in a visited block. -/
def Resumes (g : FlowGraph) (u : Use) (d : InstId) : Prop :=
  (∃ b ∈ g.preorder, u.user ∈ g.insts b) ∧ resumeOf g u.user u.index = some d

/-- The use lists have exactly the inputs and environments of the visited blocks. -/
structure Listed (g : FlowGraph) : Prop where
  inputs : ∀ (d : InstId) (n : Node), g.nodes[d.index]? = some n → ∀ u, u ∈ n.inputUses ↔ Reads g u d
  envs : ∀ (d : InstId) (n : Node), g.nodes[d.index]? = some n → ∀ u, u ∈ n.envUses ↔ Resumes g u d

variable {g : FlowGraph} {us es : List (InstId × Use)} {i d : InstId} {u : Use}

def listing (g : FlowGraph) (us es : List (InstId × Use)) : FlowGraph :=
  g.mapNodes fun j n => { n with inputUses := usesOf us j, envUses := usesOf es j }

theorem nodes_listing (g : FlowGraph) (us es : List (InstId × Use)) (i : InstId) : (listing g us es).nodes[i.index]? =
    (g.nodes[i.index]?).map fun n => { n with inputUses := usesOf us i, envUses := usesOf es i } :=
  FlowGraph.nodes_mapNodes i

theorem leads_addInputUses {n : Node} (hn : g.nodes[i.index]? = some n) :
    Leads False (listing g us es) (Edit.addInputUses i) fun _ g' =>
      g' = listing g (us ++ Edit.usesBy i n.inst.args) es := by
  have hargs : (listing g us es).args i = .ok n.inst.args :=
    FlowGraph.args_eq_ok.mpr ⟨{ n with inputUses := usesOf us i, envUses := usesOf es i },
      by rw [nodes_listing, hn]; rfl, rfl⟩
  unfold Edit.addInputUses
  rw [Leads.bind_iff, Leads.get_iff, Leads.bind_iff, Leads.lift_iff, hargs, Yields.ok_iff]
  refine Leads.forM (fun done g' => g' = listing g (us ++ done) es) (by rw [List.append_nil]) ?_
  rintro done ⟨d, u⟩ rest _ - rfl
  simp only [Edit.addInputUse, Leads.modifyNode?_iff, FlowGraph.withNode, listing, FlowGraph.mapNodes_mapNodes]
  refine FlowGraph.mapNodes_congr fun j m _ => ?_
  rw [← List.append_assoc, usesOf_concat]
  by_cases hj : j = d
  · simp [hj]
  · simp [hj, Ne.symm hj]

theorem leads_addEnvUses {n : Node} (hn : g.nodes[i.index]? = some n) :
    Leads False (listing g us es) (Edit.addEnvUses i) fun _ g' =>
      g' = listing g us (es ++ Edit.usesBy i n.envValues) := by
  have hnode : (listing g us es).nodes[i.index]? =
      some { n with inputUses := usesOf us i, envUses := usesOf es i } := by rw [nodes_listing, hn]; rfl
  unfold Edit.addEnvUses
  simp only [Leads.bind_iff, Leads.envValues_iff, hnode, Option.some.injEq, forall_eq', reduceCtorEq, false_implies,
    and_true]
  refine Leads.forM (fun done g' => g' = listing g us (es ++ done)) (by rw [List.append_nil]) ?_
  rintro done ⟨d, u⟩ rest _ - rfl
  simp only [Edit.addEnvUse, Leads.modifyNode?_iff, FlowGraph.withNode, listing, FlowGraph.mapNodes_mapNodes]
  refine FlowGraph.mapNodes_congr fun j m _ => ?_
  rw [← List.append_assoc, usesOf_concat]
  by_cases hj : j = d
  · simp [hj]
  · simp [hj, Ne.symm hj]

/-- The lists have the inputs of the `readers` and the environments of the `resumers`. -/
structure Covered (g : FlowGraph) (readers resumers : InstId → Prop) (us es : List (InstId × Use)) : Prop where
  inputs : ∀ d u, (d, u) ∈ us ↔ readers u.user ∧ inputOf g u.user u.index = some d
  envs : ∀ d u, (d, u) ∈ es ↔ resumers u.user ∧ resumeOf g u.user u.index = some d

theorem Covered.addInput {readers resumers : InstId → Prop} (h : Covered g readers resumers us es) {n : Node}
    (hn : g.nodes[i.index]? = some n) :
    Covered g (fun j => readers j ∨ j = i) resumers (us ++ Edit.usesBy i n.inst.args) es where
  inputs := by
    intro d u
    rw [List.mem_append, h.inputs, mem_usesBy, or_and_right]
    refine or_congr_right (and_congr_right ?_)
    rintro rfl
    rw [inputOf, hn, Option.bind_some]
  envs := h.envs

theorem Covered.addEnv {readers resumers : InstId → Prop} (h : Covered g readers resumers us es) {n : Node}
    (hn : g.nodes[i.index]? = some n) :
    Covered g readers (fun j => resumers j ∨ j = i) us (es ++ Edit.usesBy i n.envValues) where
  inputs := h.inputs
  envs := by
    intro d u
    rw [List.mem_append, h.envs, mem_usesBy, or_and_right]
    refine or_congr_right (and_congr_right ?_)
    rintro rfl
    rw [resumeOf, hn, Option.bind_some]

theorem Covered.congr {readers readers' resumers resumers' : InstId → Prop} (h : Covered g readers resumers us es)
    (hr : ∀ i, readers i ↔ readers' i) (hs : ∀ i, resumers i ↔ resumers' i) : Covered g readers' resumers' us es :=
  ⟨fun d u => (h.inputs d u).trans (and_congr_left fun _ => hr u.user),
    fun d u => (h.envs d u).trans (and_congr_left fun _ => hs u.user)⟩

theorem leads_addInputUses_all {readers resumers : InstId → Prop} (h : Covered g readers resumers us es)
    {is : List InstId} (his : ∀ i ∈ is, i.index < g.nodes.size) :
    Leads False (listing g us es) (is.forM Edit.addInputUses) fun _ g' => ∃ us', g' = listing g us' es ∧
      Covered g (fun j => readers j ∨ j ∈ is) resumers us' es := by
  refine Leads.forM (fun done g' => ∃ us', g' = listing g us' es ∧
    Covered g (fun j => readers j ∨ j ∈ done) resumers us' es) ⟨us, rfl, h.congr (by simp) (by simp)⟩ ?_
  rintro done i rest _ hsplit ⟨us', rfl, h'⟩
  obtain ⟨n, hn⟩ : ∃ n, g.nodes[i.index]? = some n := ⟨_, Array.getElem?_eq_getElem (his i (by simp [hsplit]))⟩
  refine (leads_addInputUses hn).mono ?_
  rintro _ _ rfl
  exact ⟨_, rfl, (h'.addInput hn).congr (fun j => by simp [or_assoc]) fun _ => .rfl⟩

theorem leads_addUses_all {readers resumers : InstId → Prop} (h : Covered g readers resumers us es) {is : List InstId}
    (his : ∀ i ∈ is, i.index < g.nodes.size) :
    Leads False (listing g us es) (is.forM fun i => do
      Edit.addInputUses i
      Edit.addEnvUses i) fun _ g' => ∃ us' es', g' = listing g us' es' ∧
        Covered g (fun j => readers j ∨ j ∈ is) (fun j => resumers j ∨ j ∈ is) us' es' := by
  refine Leads.forM (fun done g' => ∃ us' es', g' = listing g us' es' ∧
    Covered g (fun j => readers j ∨ j ∈ done) (fun j => resumers j ∨ j ∈ done) us' es')
    ⟨us, es, rfl, h.congr (by simp) (by simp)⟩ ?_
  rintro done i rest _ hsplit ⟨us', es', rfl, h'⟩
  obtain ⟨n, hn⟩ : ∃ n, g.nodes[i.index]? = some n := ⟨_, Array.getElem?_eq_getElem (his i (by simp [hsplit]))⟩
  rw [Leads.bind_iff]
  refine (leads_addInputUses hn).mono ?_
  rintro _ _ rfl
  refine (leads_addEnvUses hn).mono ?_
  rintro _ _ rfl
  exact ⟨_, _, rfl, ((h'.addInput hn).addEnv hn).congr (fun j => by simp [or_assoc]) fun j => by simp [or_assoc]⟩

/-- Blocks and instructions that are referred to are there. -/
structure Referred (g : FlowGraph) : Prop where
  blocks : ∀ b ∈ g.preorder, ∃ k, g.blocks[b.index]? = some k ∧ ∀ phi ∈ k.phis, phi.index < g.nodes.size
  insts : ∀ b ∈ g.preorder, ∀ i ∈ g.insts b, i.index < g.nodes.size

theorem aliveIn_listing (g : FlowGraph) (us es : List (InstId × Use)) (i : InstId) :
    aliveIn (listing g us es) i = aliveIn g i := by
  unfold aliveIn
  rw [nodes_listing]
  cases g.nodes[i.index]? <;> rfl

theorem livePhis_listing (h : Referred g) {b : BlockId} (hb : b ∈ g.preorder) :
    (listing g us es).livePhis b = .ok ((phisOf g b).filter (aliveIn g)) := by
  obtain ⟨k, hk, hphis⟩ := h.blocks b hb
  have halive : ∀ phi ∈ k.phis, (listing g us es).isAlivePhi phi = .ok (aliveIn g phi) := by
    intro phi hphi
    obtain ⟨n, hn⟩ : ∃ n, g.nodes[phi.index]? = some n := ⟨_, Array.getElem?_eq_getElem (hphis phi hphi)⟩
    refine FlowGraph.isAlivePhi_eq_ok.mpr ⟨{ n with inputUses := usesOf us phi, envUses := usesOf es phi },
      by rw [nodes_listing, hn]; rfl, ?_⟩
    rw [aliveIn_eq hn]
  rw [FlowGraph.livePhis_eq_ok, phisOf_eq hk]
  refine ⟨k.phis, FlowGraph.phis_eq_ok.mpr ⟨k, hk, rfl⟩, fun phi hphi => ⟨_, halive phi hphi⟩, ?_⟩
  refine List.filter_congr fun phi hphi => ?_
  rw [halive phi hphi]
  cases aliveIn g phi <;> rfl

/-- The use lists are built without a fault, whatever they were before. -/
theorem leads_computeUseLists (h : Referred g) :
    Leads False g Edit.computeUseLists fun _ g' => ∃ us es, g' = listing g us es ∧ Listed g' := by
  have hclear : { g with nodes := g.nodes.map fun n => { n with inputUses := [], envUses := [] } } =
      listing g [] [] := by
    unfold listing FlowGraph.mapNodes
    congr 1
    refine Array.ext_getElem? fun k => ?_
    simp [usesOf]
  unfold Edit.computeUseLists
  rw [Leads.bind_iff, Leads.modify_iff, Leads.bind_iff, Leads.get_iff, hclear]
  refine (Leads.forM (fun done g' => ∃ us es, g' = listing g us es ∧
    Covered g (fun j => ∃ b ∈ done, (j ∈ phisOf g b ∧ aliveIn g j = true) ∨ j ∈ g.insts b)
      (fun j => ∃ b ∈ done, j ∈ g.insts b) us es) ⟨[], [], rfl, by constructor <;> simp⟩ ?_).mono ?_
  · rintro done b rest _ hsplit ⟨us, es, rfl, hcov⟩
    have hb : b ∈ g.preorder := by
      rw [show g.preorder = done ++ b :: rest from hsplit]
      simp
    obtain ⟨k, hk, hphis⟩ := h.blocks b hb
    rw [Leads.bind_iff, Leads.get_iff, Leads.bind_iff, Leads.lift_iff, livePhis_listing h hb, Yields.ok_iff,
      Leads.bind_iff]
    have hlive : ∀ phi ∈ (phisOf g b).filter (aliveIn g), phi.index < g.nodes.size := by
      intro phi hphi
      rw [phisOf_eq hk] at hphi
      exact hphis phi (List.mem_of_mem_filter hphi)
    refine (leads_addInputUses_all hcov hlive).mono ?_
    rintro _ _ ⟨us', rfl, hcov'⟩
    rw [Leads.bind_iff, Leads.get_iff]
    refine (leads_addUses_all hcov' (h.insts b hb)).mono ?_
    rintro _ _ ⟨us'', es'', rfl, hcov''⟩
    refine ⟨us'', es'', rfl, hcov''.congr (fun j => ?_) fun j => ?_⟩
    · simp only [List.mem_append, List.mem_singleton, List.mem_filter, or_and_right, exists_or, exists_eq_left]
      rw [or_assoc]
    · simp only [List.mem_append, List.mem_singleton, or_and_right, exists_or, exists_eq_left]
  · rintro _ _ ⟨us, es, rfl, hcov⟩
    have hinput (i : InstId) (j : Nat) : inputOf (listing g us es) i j = inputOf g i j := by
      unfold inputOf
      rw [nodes_listing]
      cases g.nodes[i.index]? <;> rfl
    have hresume (i : InstId) (j : Nat) : resumeOf (listing g us es) i j = resumeOf g i j := by
      unfold resumeOf
      rw [nodes_listing]
      cases g.nodes[i.index]? <;> rfl
    refine ⟨us, es, rfl, fun d n hn u => ?_, fun d n hn u => ?_⟩
    · rw [nodes_listing] at hn
      obtain ⟨m, -, rfl⟩ := Option.map_eq_some_iff.mp hn
      rw [mem_usesOf, hcov.inputs, Reads, hinput, aliveIn_listing]
      rfl
    · rw [nodes_listing] at hn
      obtain ⟨m, -, rfl⟩ := Option.map_eq_some_iff.mp hn
      rw [mem_usesOf, hcov.envs, Resumes, hresume]
      rfl

end Midend.Ssa
