import Midend.Hoisting
import Midend.Pipeline
import Midend.Proofs.Ssa.Sound

/-! # Where hoisted instructions resume

An instruction that may give up needs a place to resume at: an id, and an environment of values that are there.
Construction gives every such instruction both. Moved out of a loop, an instruction resumes where the goto at the
end of the pre-header does, and gotos have an environment, but no id.
-/

namespace Midend

open Midend.Flow

theorem Inst.fits_mapArgs {d : Inst} {f : Nat → InstId → InstId} : (d.mapArgs f).fits = d.fits := by cases d <;> rfl

namespace FlowGraph

/-- The instruction has an environment, and the values in it come before the instruction. -/
def CanResume (g : FlowGraph) (i : InstId) : Prop :=
  ∃ (n : Node) (e : Environment), g.nodes[i.index]? = some n ∧ n.env = some e ∧
    ∀ v ∈ e.values, g.instDominates v i = .ok true

end FlowGraph

/-! ## After construction -/

namespace Ssa

variable {r g : FlowGraph} {b₀ b : BlockId} {i : InstId} {n : Node}

theorem exists_finished (h : Built b₀ r) (hok : Ssa.construct.run r = .ok (.ok (), g)) :
    ∃ t g₀ init s g₁ out L D null, AllRenamed r t g₀ init s g₁ out ∧ Finished t g₁ L D null g := by
  obtain ⟨result, g', hrun, hpost⟩ := (gives_construct h.raw.1).exists_ok
  rw [hok, Except.ok.injEq, Prod.mk.injEq] at hrun
  obtain ⟨rfl, rfl⟩ := hrun
  obtain ⟨p, t, g₀, init, s, g₁, out, L, D, null, -, -, -, hall, hfin⟩ := hpost () rfl
  exact ⟨t, g₀, init, s, g₁, out, L, D, null, hall, hfin⟩

/-- What construction leaves: the instructions that may give up and the gotos can resume, and the former have an
id. -/
theorem construct_canResume (h : Built b₀ r) (hok : Ssa.construct.run r = .ok (.ok (), g)) (hb : r.Reachable b)
    (hi : i ∈ g.insts b) (hn : g.nodes[i.index]? = some n) :
    (n.inst.canDeoptimize = true ∨ n.inst.opcode = .goto → g.CanResume i) ∧
      n.deoptId.isSome = Build.needsDeoptId n.inst.opcode ∧ n.inst.fits = true := by
  obtain ⟨t, g₀, init, s, g₁, out, L, D, null, hall, hfin⟩ := exists_finished h hok
  have hbt : b ∈ t.preorder := hall.base.touring.mem_preorder_iff_reachable.mpr hb
  have hmem : i ∈ g₁.insts b := insts_finished hfin ▸ hi
  obtain ⟨front, back, f, f', -, ⟨n₀, as, rest, hstep⟩, -⟩ := hall.exists_step_of_mem hbt (hall.mem_built hmem)
  obtain ⟨n₁, hn₁, hinst₁, henv₁⟩ := hstep.renamed
  obtain ⟨n', hn', hinst', -, henv', hid'⟩ := hfin.nodes i n₁ hn₁
  obtain rfl : n = n' := by simpa [hn] using hn'
  have hinst : n.inst = n₀.inst.withArgs as := by
    have hphi : n₁.inst.isPhi = false := by
      rw [hinst₁, Inst.withArgs, Inst.isPhi_mapArgs, hall.base.isPhi_of_raw hstep.built]
    rw [hinst', ← hinst₁]
    split
    · exact Inst.revive_of_not_isPhi hphi
    · rfl
  obtain ⟨n₂, hn₂, hev⟩ := hall.progress.nodes i n₀ (hall.base.old i n₀ hstep.built)
  obtain rfl : n₁ = n₂ := by simpa [hn₁] using hn₂
  refine ⟨fun hresume => ?_, ?_, ?_⟩
  · have hsome : n.env.isSome = true := by
      rw [henv', henv₁, resumeAt, if_pos]
      · rfl
      · rw [hinst, Inst.withArgs, Inst.canDeoptimize_mapArgs, Inst.opcode_mapArgs] at hresume
        simpa using hresume
    obtain ⟨e, he⟩ := Option.isSome_iff_exists.mp hsome
    refine ⟨n, e, hn, he, fun v hv => ?_⟩
    obtain ⟨k, hk⟩ := List.mem_iff_getElem?.mp hv
    refine (arrives_of_resumes hall hfin hbt hi (k := k) ?_).2
    rw [resumeOf, hn, Option.bind_some, Node.envValues, he]
    exact hk
  · rw [hid', hev.deoptId, hinst, Inst.withArgs, Inst.opcode_mapArgs]
    exact hall.base.raw.deoptIds i n₀ hstep.built
  · have hfits := (hall.base.raw.admits i n₀ hstep.built).fits
    rwa [hinst, Inst.withArgs, Inst.fits_mapArgs]

end Ssa

/-! ## Edits that move nothing -/

/-- The instructions resume as they did, and none has come to a new place. -/
structure SameResume (g g' : FlowGraph) : Prop where
  preorder : g'.preorder = g.preorder
  sound : g.layout.Sound → g'.layout.Sound
  home : ∀ i c, g'.layout.home? i = some c → g.layout.home? i = some c
  nodes : ∀ (i : InstId) (n' : Node), g'.nodes[i.index]? = some n' → ∃ n, g.nodes[i.index]? = some n ∧
    (∃ f, n'.inst = n.inst.mapArgs f) ∧ n'.env = n.env ∧ n'.deoptId = n.deoptId

namespace SameResume

variable {g g' g'' : FlowGraph} {i : InstId} {f : Node → Node}

theorem refl (g : FlowGraph) : SameResume g g :=
  ⟨rfl, fun h => h, fun _ _ h => h, fun _ n hn => ⟨n, hn, ⟨fun _ a => a, by simp⟩, rfl, rfl⟩⟩

theorem trans (h : SameResume g g') (h' : SameResume g' g'') : SameResume g g'' := by
  refine ⟨h'.preorder.trans h.preorder, fun hs => h'.sound (h.sound hs), fun i c hc => h.home i c (h'.home i c hc), ?_⟩
  intro i n'' hn''
  obtain ⟨n', hn', ⟨f', hf'⟩, henv', hid'⟩ := h'.nodes i n'' hn''
  obtain ⟨n, hn, ⟨f, hf⟩, henv, hid⟩ := h.nodes i n' hn'
  exact ⟨n, hn, ⟨fun k a => f' k (f k a), by rw [hf', hf, Inst.mapArgs_mapArgs]⟩, henv'.trans henv, hid'.trans hid⟩

theorem withNode (hf : ∀ n, g.nodes[i.index]? = some n →
    (∃ e, (f n).inst = n.inst.mapArgs e) ∧ (f n).env = n.env ∧ (f n).deoptId = n.deoptId) :
    SameResume g (g.withNode i f) := by
  refine ⟨rfl, fun h => h, fun _ _ h => h, fun j n' hn' => ?_⟩
  rw [FlowGraph.nodes_withNode] at hn'
  obtain ⟨n, hn, rfl⟩ := Option.map_eq_some_iff.mp hn'
  refine ⟨n, hn, ?_⟩
  split
  case isTrue hj =>
    subst hj
    exact hf n hn
  case isFalse => exact ⟨⟨fun _ a => a, by simp⟩, rfl, rfl⟩

theorem withNode_of_same (hf : ∀ n, (f n).inst = n.inst ∧ (f n).env = n.env ∧ (f n).deoptId = n.deoptId) :
    SameResume g (g.withNode i f) :=
  withNode fun n _ => ⟨⟨fun _ a => a, by simp [(hf n).1]⟩, (hf n).2⟩

end SameResume

namespace Leads

variable {g : FlowGraph} {i d : InstId}

theorem sameResume_modifyNode {f : Node → Node}
    (hf : ∀ n, (f n).inst = n.inst ∧ (f n).env = n.env ∧ (f n).deoptId = n.deoptId) :
    Leads True g (Edit.modifyNode i f) fun _ g' => SameResume g g' := by
  rw [modifyNode_iff]
  exact ⟨fun _ => .withNode_of_same hf, fun _ => trivial⟩

theorem sameResume_forM {us : List (InstId × Use)} {f : InstId × Use → Node → Node}
    (hf : ∀ u n, (f u n).inst = n.inst ∧ (f u n).env = n.env ∧ (f u n).deoptId = n.deoptId) :
    Leads True g (us.forM fun u => Edit.modifyNode? u.1 (f u)) fun _ g' => SameResume g g' := by
  refine forM_of_forall (SameResume g) (.refl g) fun u _ g₁ h => ?_
  rw [modifyNode?_iff]
  exact h.trans (.withNode_of_same (hf u))

theorem sameResume_addEnvUses : Leads True g (Edit.addEnvUses i) fun _ g' => SameResume g g' := by
  unfold Edit.addEnvUses
  rw [bind_iff, envValues_iff]
  refine ⟨fun n _ => ?_, fun _ => trivial⟩
  exact sameResume_forM (f := fun u n => { n with envUses := n.envUses ++ [u.2] }) fun _ _ => ⟨rfl, rfl, rfl⟩

theorem sameResume_dropEnvUses : Leads True g (Edit.dropEnvUses i) fun _ g' => SameResume g g' := by
  unfold Edit.dropEnvUses
  rw [bind_iff, envValues_iff]
  refine ⟨fun n _ => ?_, fun _ => trivial⟩
  exact sameResume_forM (f := fun u n => { n with envUses := n.envUses.filter (· != u.2) }) fun _ _ => ⟨rfl, rfl, rfl⟩

theorem sameResume_setArg {k : Nat} : Leads True g (Edit.setArg i k d) fun _ g' => SameResume g g' := by
  unfold Edit.setArg Edit.dropInputUse Edit.forgetReaching Edit.addInputUse
  rw [bind_iff, get_iff, bind_iff, lift_iff]
  refine Yields.of_ok fun a _ => ?_
  rw [bind_iff, modifyNode?_iff, bind_iff, setArgQuietly_iff]
  refine ⟨fun _ _ _ => ?_, fun _ => trivial⟩
  rw [bind_iff, modify_iff, modifyNode?_iff]
  have hdrop : SameResume g (g.withNode a fun n => { n with inputUses := n.inputUses.filter (· != ⟨i, k⟩) }) :=
    .withNode_of_same fun _ => ⟨rfl, rfl, rfl⟩
  have hset (g₁ : FlowGraph) : SameResume g₁ (g₁.withNode i fun n => { n with inst := n.inst.setArg k d }) :=
    .withNode fun n _ => ⟨⟨_, Inst.setArg_eq k d⟩, rfl, rfl⟩
  have hadd (g₁ : FlowGraph) : SameResume g₁ (g₁.withNode d fun n => { n with inputUses := n.inputUses ++ [⟨i, k⟩] }) :=
    .withNode_of_same fun _ => ⟨rfl, rfl, rfl⟩
  have hforget (g₁ : FlowGraph) : SameResume g₁ { g₁ with reaching := g₁.reaching.filter (·.1 != ⟨i, k⟩) } :=
    ⟨rfl, fun h => h, fun _ _ h => h, (SameResume.refl g₁).nodes⟩
  exact ((hdrop.trans (hset _)).trans (hforget _)).trans (hadd _)

theorem sameResume_setClass {c : ClassId} : Leads True g (Edit.setClass i c) fun _ g' => SameResume g g' := by
  unfold Edit.setClass
  rw [bind_iff, get_iff, bind_iff, lift_iff]
  refine Yields.of_ok fun _ _ => ?_
  rw [bind_iff]
  exact sameResume_modifyNode fun _ => ⟨rfl, rfl, rfl⟩

theorem sameResume_remove (hsound : g.layout.Sound) : Leads True g (Edit.remove i) fun _ g' => SameResume g g' := by
  refine remove_of_ok.mono ?_
  rintro _ _ ⟨n, b, hn, hb, rfl⟩
  refine ⟨rfl, fun _ => hsound.unplace hb, fun j c hc => ?_, fun j n' hn' => ?_⟩
  · change (g.layout.unplace i b).home? j = some c at hc
    rw [Layout.home?_unplace] at hc
    split at hc
    · cases hc
    · exact hc
  · rw [FlowGraph.removed, FlowGraph.nodes_withLayout, FlowGraph.nodes_withNode, FlowGraph.nodes_mapNodes,
      Option.map_map] at hn'
    obtain ⟨m, hm, rfl⟩ := Option.map_eq_some_iff.mp hn'
    refine ⟨m, hm, ⟨fun _ a => a, ?_⟩, ?_, ?_⟩ <;> by_cases hj : j = i <;> simp [hj, Node.dropUses]

end Leads

/-! ## One instruction -/

namespace Hoisting

variable {g g₁ g₂ : FlowGraph} {i last : InstId} {b c header preHeader : BlockId} {n m : Node} {written : Bool}

/-- Nothing but `i` resumes in another way or has come to a new place. -/
structure MovedOnly (i : InstId) (g g' : FlowGraph) : Prop where
  preorder : g'.preorder = g.preorder
  sound : g'.layout.Sound
  home : ∀ j c, j ≠ i → g'.layout.home? j = some c → g.layout.home? j = some c
  nodes : ∀ (j : InstId) (n' : Node), g'.nodes[j.index]? = some n' → ∃ n, g.nodes[j.index]? = some n ∧
    (∃ f, n'.inst = n.inst.mapArgs f) ∧ (j ≠ i → n'.env = n.env ∧ n'.deoptId = n.deoptId)

theorem MovedOnly.same (h : MovedOnly i g g₁) (h' : SameResume g₁ g₂) : MovedOnly i g g₂ := by
  refine ⟨h'.preorder.trans h.preorder, h'.sound h.sound, fun j c hj hc => h.home j c hj (h'.home j c hc), ?_⟩
  intro j n₂ hn₂
  obtain ⟨n₁, hn₁, ⟨f₁, hf₁⟩, henv₁, hid₁⟩ := h'.nodes j n₂ hn₂
  obtain ⟨n, hn, ⟨f, hf⟩, hkept⟩ := h.nodes j n₁ hn₁
  refine ⟨n, hn, ⟨fun k a => f₁ k (f k a), by rw [hf₁, hf, Inst.mapArgs_mapArgs]⟩, fun hj => ?_⟩
  exact ⟨henv₁.trans (hkept hj).1, hid₁.trans (hkept hj).2⟩

/-- The instruction `i` in the block `c`, among its instructions `is`. -/
def movedTo (g : FlowGraph) (i : InstId) (b c : BlockId) (is : List InstId) (place : Option BlockId) : FlowGraph :=
  (g.withLayout ((g.layout.unplace i b).place i c is)).withNode i fun n => { n with block := place }

theorem home?_movedTo (j : InstId) (is : List InstId) (place : Option BlockId) :
    (movedTo g i b c is place).layout.home? j = if j = i then some c else g.layout.home? j := by
  unfold movedTo
  rw [FlowGraph.layout_withNode, FlowGraph.layout_withLayout, Layout.home?_place, Layout.home?_unplace]
  split <;> rfl

theorem preorder_movedTo (is : List InstId) (place : Option BlockId) :
    (movedTo g i b c is place).preorder = g.preorder := by
  unfold movedTo FlowGraph.withNode FlowGraph.mapNodes FlowGraph.withLayout
  rfl

theorem nodes_movedTo (j : InstId) (is : List InstId) (place : Option BlockId) :
    (movedTo g i b c is place).nodes[j.index]? =
      (g.nodes[j.index]?).map fun n => if j = i then { n with block := place } else n := by
  unfold movedTo
  rw [FlowGraph.nodes_withNode, FlowGraph.nodes_withLayout]

theorem leads_moveBefore (hsound : g.layout.Sound) : Leads True g (Edit.moveBefore i last) fun _ g' =>
    ∃ b c is place, i ≠ last ∧ g.layout.home? i = some b ∧ g.layout.home? last = some c ∧
      is = Layout.putBefore last i ((g.layout.unplace i b).insts c) ∧ g' = movedTo g i b c is place ∧
      g'.layout.Sound := by
  unfold Edit.moveBefore Edit.setBlock
  rw [Leads.bind_iff, Leads.onLayout_iff]
  refine Yields.of_ok fun l hl => ?_
  obtain ⟨b, hb, rfl⟩ := Layout.remove_eq_ok.mp hl
  rw [Leads.bind_iff, Leads.onLayout_iff]
  refine Yields.of_ok fun l' hl' => ?_
  rw [FlowGraph.layout_withLayout] at hl'
  obtain ⟨c, hc, hfree, rfl⟩ := Layout.insertBefore_eq_ok.mp hl'
  rw [Leads.bind_iff, Leads.get_iff, Leads.bind_iff, Leads.lift_iff]
  refine Yields.of_ok fun n' _ => ?_
  rw [Leads.modifyNode_iff]
  have hsound' : (g.layout.unplace i b).Sound := hsound.unplace hb
  have hmem : last ∈ (g.layout.unplace i b).insts c := hsound'.mem_iff.mpr hc
  rw [Layout.home?_unplace] at hc
  have hne : last ≠ i := by
    rintro rfl
    simp at hc
  rw [if_neg hne] at hc
  have hsame (l l' : Layout) : (g.withLayout l).withLayout l' = g.withLayout l' := rfl
  rw [hsame]
  refine ⟨fun _ => ⟨b, c, Layout.putBefore last i ((g.layout.unplace i b).insts c), n'.block, hne.symm, hb, hc, rfl,
    rfl, ?_⟩, fun _ => trivial⟩
  rw [FlowGraph.layout_withNode, FlowGraph.layout_withLayout]
  exact hsound'.place hfree (Layout.putBefore_perm hmem)

theorem movedOnly_movedTo {is : List InstId} {place : Option BlockId}
    (hsound : (movedTo g i b c is place).layout.Sound) : MovedOnly i g (movedTo g i b c is place) := by
  refine ⟨preorder_movedTo is place, hsound, fun j d hj hd => ?_, fun j n' hn' => ?_⟩
  · rwa [home?_movedTo, if_neg hj] at hd
  · rw [nodes_movedTo] at hn'
    obtain ⟨n, hn, rfl⟩ := Option.map_eq_some_iff.mp hn'
    refine ⟨n, hn, ⟨fun _ a => a, by split <;> simp⟩, fun hj => ?_⟩
    rw [if_neg hj]
    exact ⟨rfl, rfl⟩

theorem leads_copyDeoptTarget (hsound : g.layout.Sound) :
    Leads True g (Edit.copyDeoptTarget i last) fun _ g' => MovedOnly i g g' ∧
      (∀ c, g'.layout.home? i = some c → g.layout.home? i = some c) ∧
      ∀ n' m, g'.nodes[i.index]? = some n' → g.nodes[last.index]? = some m → n'.env = m.env ∧
      n'.deoptId = m.deoptId := by
  unfold Edit.copyDeoptTarget Edit.setEnv
  rw [Leads.bind_iff, Leads.get_iff, Leads.bind_iff, Leads.lift_iff]
  refine Yields.of_ok fun m hm => ?_
  rw [FlowGraph.node_eq_ok] at hm
  rw [Leads.bind_iff, Leads.modifyNode_iff]
  refine ⟨fun _ => ?_, fun _ => trivial⟩
  rw [Leads.bind_iff]
  refine Leads.sameResume_dropEnvUses.mono fun _ g₁ h₁ => ?_
  rw [Leads.bind_iff, Leads.modifyNode_iff]
  refine ⟨fun _ => ?_, fun _ => trivial⟩
  have hset : MovedOnly i g (g.withNode i fun n => { n with deoptId := m.deoptId }) := by
    refine ⟨rfl, hsound, fun _ _ _ h => h, fun j n' hn' => ?_⟩
    rw [FlowGraph.nodes_withNode] at hn'
    obtain ⟨n, hn, rfl⟩ := Option.map_eq_some_iff.mp hn'
    refine ⟨n, hn, ⟨fun _ a => a, by split <;> simp⟩, fun hj => ?_⟩
    rw [if_neg hj]
    exact ⟨rfl, rfl⟩
  have hset' : MovedOnly i g (g₁.withNode i fun n => { n with env := m.env }) := by
    have h := hset.same h₁
    refine ⟨h.preorder, h.sound, h.home, fun j n' hn' => ?_⟩
    rw [FlowGraph.nodes_withNode] at hn'
    obtain ⟨n, hn, rfl⟩ := Option.map_eq_some_iff.mp hn'
    obtain ⟨n₀, hn₀, hinst, hkept⟩ := h.nodes j n hn
    refine ⟨n₀, hn₀, ?_, fun hj => ?_⟩
    · split <;> exact hinst
    · rw [if_neg hj]
      exact hkept hj
  have htarget : ∀ n', (g₁.withNode i fun n => { n with env := m.env }).nodes[i.index]? = some n' →
      n'.env = m.env ∧ n'.deoptId = m.deoptId := by
    intro n' hn'
    rw [FlowGraph.nodes_withNode_self] at hn'
    obtain ⟨n₁, hn₁, rfl⟩ := Option.map_eq_some_iff.mp hn'
    obtain ⟨n, hn, -, -, hid⟩ := h₁.nodes i n₁ hn₁
    rw [FlowGraph.nodes_withNode_self] at hn
    obtain ⟨n₀, -, rfl⟩ := Option.map_eq_some_iff.mp hn
    exact ⟨rfl, hid⟩
  have hdone : ∀ g₂, SameResume (g₁.withNode i fun n => { n with env := m.env }) g₂ → MovedOnly i g g₂ ∧
      (∀ c, g₂.layout.home? i = some c → g.layout.home? i = some c) ∧
      ∀ n' m, g₂.nodes[i.index]? = some n' → g.nodes[last.index]? = some m → n'.env = m.env ∧
      n'.deoptId = m.deoptId := by
    intro g₂ h₂
    refine ⟨hset'.same h₂, fun c hc => h₁.home i c (h₂.home i c hc), fun n' m' hn' hm' => ?_⟩
    obtain rfl : m = m' := by simpa [hm] using hm'
    obtain ⟨n, hn, -, henv, hid⟩ := h₂.nodes i n' hn'
    exact ⟨henv.trans (htarget n hn).1, hid.trans (htarget n hn).2⟩
  rw [Leads.bind_iff, Leads.get_iff, Leads.bind_iff, Leads.lift_iff]
  refine Yields.of_ok fun _ _ => ?_
  split
  · exact Leads.sameResume_addEnvUses.mono fun _ g₂ h₂ => hdone g₂ h₂
  · rw [Leads.pure_iff]
    exact hdone _ (.refl _)

/-! ## Moving out of loops -/

/-- In the visited blocks, a goto by its opcode is a goto. -/
def GotosFit (g : FlowGraph) : Prop :=
  ∀ (i : InstId) (n : Node) (b : BlockId), b ∈ g.preorder → g.layout.home? i = some b →
    g.nodes[i.index]? = some n → n.inst.opcode = .goto → ∃ target, n.inst = .goto target

/-- The instruction, which is `n'` now, resumes where a goto of the block `c` does. -/
def ResumesAtGoto (g : FlowGraph) (c : BlockId) (n' : Node) : Prop :=
  ∃ (last : InstId) (m : Node), g.nodes[last.index]? = some m ∧ m.inst.opcode = .goto ∧ g.layout.home? last = some c ∧
    m.env.isSome = true ∧ n'.env = m.env ∧ n'.deoptId = m.deoptId

/-- Where the instructions of `g` are after some of them have been moved. Each is where it was and resumes there, or
comes from a visited block and, if it may give up, resumes where a goto of its new block does. -/
structure Moved (g g' : FlowGraph) : Prop where
  preorder : g'.preorder = g.preorder
  sound : g'.layout.Sound
  home : ∀ i c, g'.layout.home? i = some c → g.layout.home? i = some c ∨ ∃ b ∈ g.preorder, g.layout.home? i = some b
  nodes : ∀ (i : InstId) (n' : Node), g'.nodes[i.index]? = some n' → ∃ n, g.nodes[i.index]? = some n ∧
    (∃ f, n'.inst = n.inst.mapArgs f) ∧ (n.inst.opcode = .goto → n'.env = n.env ∧ n'.deoptId = n.deoptId) ∧
    ∀ c, g'.layout.home? i = some c →
      (g.layout.home? i = some c ∧ n'.env = n.env ∧ n'.deoptId = n.deoptId) ∨
      (n.inst.opcode ≠ .goto ∧ (n.inst.canDeoptimize = true → ResumesAtGoto g c n'))

theorem Moved.refl (hsound : g.layout.Sound) : Moved g g :=
  ⟨rfl, hsound, fun _ _ hc => .inl hc,
    fun _ n hn => ⟨n, hn, ⟨fun _ a => a, by simp⟩, fun _ => ⟨rfl, rfl⟩, fun _ hc => .inl ⟨hc, rfl, rfl⟩⟩⟩

theorem Moved.same (h : Moved g g₁) (h' : SameResume g₁ g₂) : Moved g g₂ := by
  refine ⟨h'.preorder.trans h.preorder, h'.sound h.sound, fun i c hc => h.home i c (h'.home i c hc), fun i n₂ hn₂ => ?_⟩
  obtain ⟨n₁, hn₁, ⟨f₁, hf₁⟩, henv₁, hid₁⟩ := h'.nodes i n₂ hn₂
  obtain ⟨n, hn, ⟨f, hf⟩, hgoto, hplaced⟩ := h.nodes i n₁ hn₁
  refine ⟨n, hn, ⟨fun k a => f₁ k (f k a), by rw [hf₁, hf, Inst.mapArgs_mapArgs]⟩, ?_, fun c hc => ?_⟩
  · rw [henv₁, hid₁]
    exact hgoto
  · have hcase := hplaced c (h'.home i c hc)
    unfold ResumesAtGoto at hcase ⊢
    rwa [henv₁, hid₁]

theorem Moved.movedOnly (h : Moved g g₁) (h' : MovedOnly i g₁ g₂) (hi : ∃ b ∈ g.preorder, g.layout.home? i = some b)
    {n₁ : Node} (hn₁ : g₁.nodes[i.index]? = some n₁) (hop : n₁.inst.opcode ≠ .goto)
    (hlast : g₁.nodes[last.index]? = some m) (hgoto : m.inst.opcode = .goto) (hhome : g₁.layout.home? last = some c)
    (hplace : ∀ d, g₂.layout.home? i = some d → d = c)
    (hresume : ∀ n₂, g₂.nodes[i.index]? = some n₂ → n₁.inst.canDeoptimize = true →
      m.env.isSome = true ∧ n₂.env = m.env ∧ n₂.deoptId = m.deoptId) : Moved g g₂ := by
  refine ⟨h'.preorder.trans h.preorder, h'.sound, fun j d hd => ?_, fun j n₂ hn₂ => ?_⟩
  · by_cases hj : j = i
    · exact .inr (hj ▸ hi)
    · exact h.home j d (h'.home j d hj hd)
  obtain ⟨k₁, hk₁, ⟨f₁, hf₁⟩, hkept⟩ := h'.nodes j n₂ hn₂
  obtain ⟨n, hn, ⟨f, hf⟩, hgoto', hplaced⟩ := h.nodes j k₁ hk₁
  refine ⟨n, hn, ⟨fun k a => f₁ k (f k a), by rw [hf₁, hf, Inst.mapArgs_mapArgs]⟩, fun hop' => ?_, fun d hd => ?_⟩
  · have hj : j ≠ i := by
      rintro rfl
      obtain rfl : n₁ = k₁ := by simpa [hn₁] using hk₁
      rw [hf, Inst.opcode_mapArgs] at hop
      exact hop hop'
    rw [(hkept hj).1, (hkept hj).2]
    exact hgoto' hop'
  · by_cases hj : j = i
    · subst hj
      obtain rfl : n₁ = k₁ := by simpa [hn₁] using hk₁
      rw [hf, Inst.opcode_mapArgs] at hop
      refine .inr ⟨hop, fun hdeopt => ?_⟩
      obtain ⟨hsome, henv, hid⟩ := hresume n₂ hn₂ (by rw [hf, Inst.canDeoptimize_mapArgs, hdeopt])
      -- The goto itself has stayed where it was.
      obtain ⟨m₀, hm₀, ⟨e, he⟩, hsame, hcase⟩ := h.nodes last m hlast
      rw [he, Inst.opcode_mapArgs] at hgoto
      obtain ⟨henv₀, hid₀⟩ := hsame hgoto
      obtain ⟨hhome₀, -⟩ | ⟨hnot, -⟩ := hcase c hhome
      · refine ⟨last, m₀, hm₀, hgoto, ?_, henv₀ ▸ hsome, henv.trans henv₀, hid.trans hid₀⟩
        rw [hhome₀, hplace d hd]
      · exact absurd hgoto hnot
    · obtain ⟨henv, hid⟩ := hkept hj
      have hcase := hplaced d (h'.home j d hj hd)
      unfold ResumesAtGoto at hcase ⊢
      rwa [henv, hid]

theorem leads_hoist (h : Moved g g₁) (hi : ∃ b ∈ g.preorder, g.layout.home? i = some b) {n₁ : Node}
    (hn₁ : g₁.nodes[i.index]? = some n₁) (hop : n₁.inst.opcode ≠ .goto) :
    Leads True g₁ (hoist i preHeader) fun _ g₂ => Moved g g₂ := by
  unfold hoist
  rw [Leads.bind_iff, Leads.get_iff]
  cases hlast : g₁.lastInst preHeader with
  | none => exact h
  | some last =>
    simp only
    rw [Leads.bind_iff, Leads.lift_iff]
    refine Yields.of_ok fun o ho => ?_
    obtain ⟨m, hm, rfl⟩ := FlowGraph.opcode_eq_ok.mp ho
    split
    · exact h
    case isFalse hgoto =>
      have hgoto : m.inst.opcode = .goto := not_not.mp hgoto
      have hinst : g₁.inst i = .ok n₁.inst := FlowGraph.inst_eq_ok.mpr ⟨n₁, hn₁, rfl⟩
      have henv : g₁.env last = .ok m.env := FlowGraph.env_eq_ok.mpr ⟨m, hm, rfl⟩
      simp only [Leads.bind_iff, Leads.lift_iff, hinst, henv, Yields.ok_iff]
      split
      · exact h
      case isFalse hsome =>
        have hsome : n₁.inst.canDeoptimize = true → m.env.isSome = true := by
          intro hdeopt
          simpa [hdeopt, ← Option.isSome_iff_ne_none] using hsome
        have hhome : g₁.layout.home? last = some preHeader := h.sound.mem_iff.mp (List.mem_of_getLast? hlast)
        rw [Leads.bind_iff]
        refine (leads_moveBefore h.sound).mono ?_
        rintro _ _ ⟨b, c, is, place, hne, -, hc, -, rfl, hsound⟩
        obtain rfl : preHeader = c := by simpa [hhome] using hc
        have hmoved := movedOnly_movedTo hsound
        have hplace : ∀ d, (movedTo g₁ i b preHeader is place).layout.home? i = some d → d = preHeader := by
          intro d hd
          rw [home?_movedTo, if_pos rfl, Option.some_inj] at hd
          exact hd.symm
        split
        case isTrue hdeopt =>
          rw [Leads.bind_iff]
          refine (leads_copyDeoptTarget hsound).mono ?_
          rintro _ g₂ ⟨h₂, hhome₂, htarget⟩
          rw [Leads.pure_iff]
          have hboth : MovedOnly i g₁ g₂ := by
            refine ⟨h₂.preorder.trans hmoved.preorder, h₂.sound, fun j d hj hd =>
              hmoved.home j d hj (h₂.home j d hj hd), ?_⟩
            intro j k₂ hk₂
            obtain ⟨k, hk, ⟨f, hf⟩, hkept⟩ := h₂.nodes j k₂ hk₂
            obtain ⟨k₀, hk₀, ⟨f₀, hf₀⟩, hkept₀⟩ := hmoved.nodes j k hk
            refine ⟨k₀, hk₀, ⟨fun x a => f x (f₀ x a), by rw [hf, hf₀, Inst.mapArgs_mapArgs]⟩, fun hj => ?_⟩
            exact ⟨(hkept hj).1.trans (hkept₀ hj).1, (hkept hj).2.trans (hkept₀ hj).2⟩
          refine h.movedOnly hboth hi hn₁ hop hm hgoto hhome (fun d hd => hplace d (hhome₂ d hd)) fun n₂ hn₂ _ => ?_
          have hm' : (movedTo g₁ i b preHeader is place).nodes[last.index]? = some m := by
            rw [nodes_movedTo, hm, Option.map_some, if_neg (Ne.symm hne)]
          exact ⟨hsome hdeopt, htarget n₂ m hn₂ hm'⟩
        case isFalse hdeopt =>
          rw [Leads.pure_iff]
          exact h.movedOnly hmoved hi hn₁ hop hm hgoto hhome hplace fun _ _ hyes => absurd hyes hdeopt

theorem leads_hoistThroughPhi (h : Moved g g₁) (hi : ∃ b ∈ g.preorder, g.layout.home? i = some b) {n₁ : Node}
    (hn₁ : g₁.nodes[i.index]? = some n₁) (hop : n₁.inst.opcode ≠ .goto) :
    Leads True g₁ (hoistThroughPhi i header preHeader) fun _ g₂ => Moved g g₂ := by
  unfold hoistThroughPhi
  rw [Leads.bind_iff, Leads.get_iff, Leads.bind_iff, Leads.lift_iff]
  refine Yields.of_ok fun phi _ => ?_
  rw [Leads.bind_iff, Leads.lift_iff]
  refine Yields.of_ok fun place _ => ?_
  cases place with
  | none => exact h
  | some b =>
    simp only [Leads.bind_iff, Leads.lift_iff]
    refine Yields.of_ok fun inLoop _ => ?_
    split
    · exact h
    · simp only [Leads.bind_iff, Leads.lift_iff]
      refine Yields.of_ok fun cls _ => ?_
      split
      · rw [Leads.bind_iff]
        exact (Leads.sameResume_remove h.sound).mono fun _ g₂ h₂ => h.same h₂
      · simp only [Leads.bind_iff, Leads.lift_iff]
        refine Yields.of_ok fun as _ => Yields.of_ok fun found _ => ?_
        cases found with
        | none => exact h
        | some k =>
          simp only [Leads.bind_iff, Leads.lift_iff]
          refine Yields.of_ok fun ps _ => ?_
          split
          · exact h
          · rw [Leads.bind_iff]
            refine (leads_hoist h hi hn₁ hop).mono fun moved g₂ h₂ => ?_
            split
            · exact h₂
            · rw [Leads.bind_iff, Leads.get_iff, Leads.bind_iff, Leads.lift_iff]
              refine Yields.of_ok fun a _ => ?_
              rw [Leads.bind_iff]
              refine Leads.sameResume_setArg.mono fun _ g₃ h₃ => ?_
              rw [Leads.bind_iff, Leads.discard_iff]
              exact Leads.sameResume_setClass.mono fun _ g₄ h₄ => (h₂.same h₃).same h₄

theorem not_isMovable_goto {target : BlockId} : isMovable written (.goto target) = .ok false := rfl

theorem leads_visit (hfit : GotosFit g) (h : Moved g g₁) (hi : ∃ b ∈ g.preorder, g.layout.home? i = some b) :
    Leads True g₁ (visit header preHeader written i) fun _ g₂ => Moved g g₂ := by
  unfold visit
  rw [Leads.bind_iff, Leads.get_iff, Leads.bind_iff, Leads.lift_iff]
  refine Yields.of_ok fun d hd => ?_
  obtain ⟨n₁, hn₁, rfl⟩ := FlowGraph.inst_eq_ok.mp hd
  rw [Leads.bind_iff, Leads.lift_iff]
  refine Yields.of_ok fun movable hmovable => ?_
  split
  · exact h
  case isFalse hyes =>
    obtain rfl : movable = true := by simpa using hyes
    have hop : n₁.inst.opcode ≠ .goto := by
      intro hop
      obtain ⟨n, hn, ⟨f, hf⟩, -⟩ := h.nodes i n₁ hn₁
      rw [hf, Inst.opcode_mapArgs] at hop
      obtain ⟨b, hb, hhome⟩ := hi
      obtain ⟨target, htarget⟩ := hfit i n b hb hhome hn hop
      rw [hf, htarget, show (Inst.goto target).mapArgs f = .goto target from rfl, not_isMovable_goto] at hmovable
      cases hmovable
    rw [Leads.bind_iff, Leads.lift_iff]
    refine Yields.of_ok fun invariant _ => ?_
    split
    · exact leads_hoist h hi hn₁ hop
    · split
      · simp only [Leads.bind_iff, Leads.lift_iff]
        refine Yields.of_ok fun a _ => Yields.of_ok fun o _ => ?_
        split
        · exact leads_hoistThroughPhi h hi hn₁ hop
        · exact h
      · exact h

theorem leads_hoistLoop (hfit : GotosFit g) (h : Moved g g₁) :
    Leads True g₁ (hoistLoop header preHeader) fun _ g₂ => Moved g g₂ := by
  unfold hoistLoop
  rw [Leads.bind_iff, Leads.get_iff, Leads.bind_iff, Leads.lift_iff]
  refine Yields.of_ok fun blocks hblocks => ?_
  have hvisited : ∀ b ∈ blocks, b ∈ g.preorder := by
    unfold loopBlocks at hblocks
    obtain ⟨k, -, hmap⟩ := bind_eq_ok.mp hblocks
    intro b hb
    obtain ⟨k, hk, rfl⟩ := List.mem_iff_getElem.mp hb
    have hat := (List.forall₂_iff_get.mp (mapM_eq_ok.mp hmap)).2 k ((mapM_eq_ok.mp hmap).length_eq ▸ hk) hk
    exact h.preorder ▸ List.mem_of_getElem? (orFault_eq_ok.mp hat)
  rw [Leads.bind_iff, Leads.lift_iff]
  refine Yields.of_ok fun written _ => ?_
  refine Leads.anyChange_of_forall (Moved g) h fun b hb g₂ h₂ => ?_
  rw [Leads.bind_iff, Leads.get_iff]
  refine Leads.anyChange_of_forall (Moved g) h₂ fun i hi g₃ h₃ => ?_
  refine leads_visit hfit h₃ ?_
  -- What is in the block now was in a visited block from the start.
  obtain hhome | hhome := h₂.home i b (h₂.sound.mem_iff.mp hi)
  · exact ⟨b, hvisited b hb, hhome⟩
  · exact hhome

theorem leads_computeLoops : Leads True g computeLoops fun _ g' => SameResume g g' := by
  unfold computeLoops
  rw [Leads.bind_iff, Leads.get_iff, Leads.bind_iff, Leads.lift_iff]
  refine Yields.of_ok fun preds _ => ?_
  refine Leads.filterM_of_forall (SameResume g) (.refl g) fun b _ g₁ h₁ => ?_
  rw [Leads.bind_iff, Leads.lift_iff]
  refine Yields.of_ok fun loop _ => ?_
  rw [Leads.bind_iff, Leads.modifyBlock_iff]
  exact ⟨fun _ => h₁.trans ⟨rfl, fun h => h, fun _ _ h => h, (SameResume.refl g₁).nodes⟩, fun _ => trivial⟩

theorem leads_hoistInvariants (hfit : GotosFit g) (hsound : g.layout.Sound) :
    Leads True g hoistInvariants fun _ g' => Moved g g' := by
  unfold hoistInvariants
  rw [Leads.bind_iff]
  refine leads_computeLoops.mono fun headers g₁ h₁ => ?_
  refine Leads.anyChange_of_forall (Moved g) ((Moved.refl hsound).same h₁) fun header _ g₂ h₂ => ?_
  rw [Leads.bind_iff, Leads.get_iff, Leads.bind_iff, Leads.lift_iff]
  refine Yields.of_ok fun preHeader _ => ?_
  cases preHeader with
  | none => exact h₂
  | some preHeader => exact leads_hoistLoop hfit h₂

end Hoisting

/-! ## After hoisting -/

theorem Inst.needsDeoptId_of_canDeoptimize {d : Inst} (hfits : d.fits = true) (h : d.canDeoptimize = true) :
    Build.needsDeoptId d.opcode = true := by
  cases d with
  | unary o _ => cases o <;> simp_all [Inst.canDeoptimize, Inst.opcode, Build.needsDeoptId]
  | binaryOp o => cases o <;> simp_all [Inst.fits, Opcode.isBinaryOp, Inst.opcode, Build.needsDeoptId]
  | unaryOp o => cases o <;> simp_all [Inst.fits, Opcode.isUnaryOp, Inst.opcode, Build.needsDeoptId]
  | binary o => simp_all [Inst.fits, Inst.opcode, Build.needsDeoptId]
  | compare c =>
    unfold Inst.opcode Comparison.opcode
    dsimp only
    split <;> rfl
  | _ => simp_all [Inst.canDeoptimize, Inst.opcode, Build.needsDeoptId]

theorem Inst.eq_goto {d : Inst} (hfits : d.fits = true) (h : d.opcode = .goto) : ∃ target, d = .goto target := by
  cases d with
  | goto target => exact ⟨target, rfl⟩
  | compare c =>
    have h : c.opcode = .goto := h
    unfold Comparison.opcode at h
    split at h <;> cases h
  | _ => simp_all [Inst.fits, Inst.opcode, Opcode.isUnary, Opcode.isBinaryOp, Opcode.isUnaryOp]

namespace Hoisting

variable {r g g' : FlowGraph} {b₀ c : BlockId} {i : InstId} {n' : Node} {changed : Bool}

/-- An instruction that may give up could resume before hoisting, by its id. It either has not been moved and still
can, or it now resumes where the goto of its block does: in an environment of values that come before the goto, but
with no id. -/
theorem guards_after_hoisting (h : Built b₀ r) (hok : Ssa.construct.run r = .ok (.ok (), g))
    (hrun : hoistInvariants.run g = .ok (changed, g')) (hc : r.Reachable c) (hi : i ∈ g'.insts c)
    (hn' : g'.nodes[i.index]? = some n') (hdeopt : n'.inst.canDeoptimize = true) :
    ∃ n, g.nodes[i.index]? = some n ∧ n.deoptId.isSome = true ∧ g.CanResume i ∧
      ((i ∈ g.insts c ∧ n'.env = n.env ∧ n'.deoptId = n.deoptId) ∨
        ∃ last ∈ g.insts c, ∃ m, g.nodes[last.index]? = some m ∧ m.inst.opcode = .goto ∧ g.CanResume last ∧
          n'.env = m.env ∧ n'.deoptId = none) := by
  obtain ⟨t, g₀, init, s, g₁, out, L, D, null, hall, hfin⟩ := Ssa.exists_finished h hok
  have hreach : ∀ b, b ∈ g.preorder ↔ r.Reachable b := fun b =>
    hfin.preorder ▸ hall.base.touring.mem_preorder_iff_reachable
  have hsound : g.layout.Sound := hfin.layout ▸ hall.progress.layout
  have hfit : GotosFit g := by
    intro j n b hb hhome hn hop
    have hplaced := Ssa.construct_canResume h hok ((hreach b).mp hb) (hsound.mem_iff.mpr hhome) hn
    exact Inst.eq_goto hplaced.2.2 hop
  have hmoved : Moved g g' := (leads_hoistInvariants hfit hsound).post_of_ok hrun
  have hhome' : g'.layout.home? i = some c := hmoved.sound.mem_iff.mp hi
  obtain ⟨n, hn, ⟨f, hinst⟩, -, hcase⟩ := hmoved.nodes i n' hn'
  rw [hinst, Inst.canDeoptimize_mapArgs] at hdeopt
  have hbefore : ∃ b, r.Reachable b ∧ i ∈ g.insts b := by
    obtain hhome | ⟨b, hb, hhome⟩ := hmoved.home i c hhome'
    · exact ⟨c, hc, hsound.mem_iff.mpr hhome⟩
    · exact ⟨b, (hreach b).mp hb, hsound.mem_iff.mpr hhome⟩
  obtain ⟨b, hb, hib⟩ := hbefore
  obtain ⟨hresume, hid, hfits⟩ := Ssa.construct_canResume h hok hb hib hn
  refine ⟨n, hn, hid.trans (Inst.needsDeoptId_of_canDeoptimize hfits hdeopt), hresume (.inl hdeopt), ?_⟩
  obtain ⟨hhome, hsame⟩ | ⟨-, hgoto⟩ := hcase c hhome'
  · exact .inl ⟨hsound.mem_iff.mpr hhome, hsame⟩
  · obtain ⟨last, m, hm, hop, hhome, -, henv, hid'⟩ := hgoto hdeopt
    have hlast : last ∈ g.insts c := hsound.mem_iff.mpr hhome
    obtain ⟨hresume', hnone, -⟩ := Ssa.construct_canResume h hok hc hlast hm
    have hnone : m.deoptId = none := by simpa [hop, Build.needsDeoptId] using hnone
    exact .inr ⟨last, hlast, m, hm, hop, hresume' (.inr hop), henv, hid'.trans hnone⟩

/-- Tests the parameter in a loop that goes on as long as the parameter is true. -/
def guardedLoop : List Command :=
  [.joinBlock, .targetBlock, .targetBlock,
    .inst (.constant (.smi 0)), .inst (.storeLocal 1 ⟨0⟩), .inst (.goto ⟨2⟩),
    .appendTo ⟨2⟩, .inst (.loadLocal 0), .branchIf ⟨3⟩ ⟨3⟩ ⟨4⟩,
    .appendTo ⟨3⟩, .inst (.loadLocal 0), .inst (.unary .checkSmi ⟨6⟩), .inst (.goto ⟨2⟩),
    .appendTo ⟨4⟩, .inst (.loadLocal 0), .inst (.unary .ret ⟨9⟩)]

/-- The test stands in the block in front of the loop and has no id. -/
def idLost (g : FlowGraph) : Bool :=
  (g.next FlowGraph.graphEntry).contains FlowGraph.normalEntry && (g.insts FlowGraph.normalEntry).contains ⟨7⟩ &&
    (g.nodes[7]?).any fun n => n.inst.canDeoptimize && n.deoptId.isNone

/-- Whatever may give up can resume, by its id and in an environment of values that come before it. -/
def Resumable (g : FlowGraph) : Prop :=
  ∀ (b : BlockId) (i : InstId) (n : Node), g.Reachable b → i ∈ g.insts b → g.nodes[i.index]? = some n →
    n.inst.canDeoptimize = true → n.deoptId.isSome = true ∧ g.CanResume i

def losesId (r : FlowGraph) : Bool :=
  match (optimize {}).run r with
  | .ok (.ok (), g) => idLost g
  | _ => false

/-- Optimization need not leave a graph in which whatever may give up can resume. -/
theorem guardedLoop_loses_id : ¬ ∀ (b₀ : BlockId) (r g : FlowGraph) (ctx : Context), Built b₀ r →
    (optimize ctx).run r = .ok (.ok (), g) → Resumable g := by
  intro h
  have hcompute : ((Command.script guardedLoop FlowGraph.normalEntry (FlowGraph.new "f" 1 1)).map (losesId ·.2)) =
      some true := by decide +kernel
  obtain ⟨⟨b₀, r⟩, hscript, hloses⟩ := Option.map_eq_some_iff.mp hcompute
  have hstart : Built FlowGraph.normalEntry (FlowGraph.new "f" 1 1) := @Built.start "f" 1 1 none (by decide)
  unfold losesId at hloses
  split at hloses
  case h_2 => cases hloses
  case h_1 g hg =>
    simp only [idLost, Bool.and_eq_true, List.contains_iff_mem, Option.any_eq_true, Option.isNone_iff_eq_none]
      at hloses
    obtain ⟨⟨hentry, hplaced⟩, n, hn, hdeopt, hnone⟩ := hloses
    obtain ⟨hsome, -⟩ := h b₀ r g {} (hstart.script hscript) hg FlowGraph.normalEntry ⟨7⟩ n (.single hentry) hplaced hn
      hdeopt
    rw [hnone] at hsome
    cases hsome

end Hoisting

end Midend
