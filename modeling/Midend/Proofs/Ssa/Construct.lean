import Midend.Proofs.Ssa.Cleanup
import Midend.Proofs.Ssa.Frames

/-! # SSA construction as a whole

Construction ends without a fault. What it makes of a graph is described by the frames of renaming, the phis
that are live in the end, and the constant that environments show in place of the others.
-/

namespace Midend

open Midend.Flow

theorem Inst.args_withArgs {d : Inst} {as : List InstId} (h : d.args.length = as.length) :
    (d.withArgs as).args = as := by
  unfold Inst.withArgs
  rw [Inst.args_mapArgs]
  refine List.ext_getElem? fun k => ?_
  rw [List.getElem?_mapIdx]
  by_cases hk : k < as.length
  · rw [List.getElem?_eq_getElem (h ▸ hk), List.getElem?_eq_getElem hk]
    simp [hk]
  · rw [List.getElem?_eq_none (h ▸ Nat.not_lt.mp hk), List.getElem?_eq_none (Nat.not_lt.mp hk)]
    rfl

namespace Ssa

variable {r g₀ g : FlowGraph} {t : Tour} {b c : BlockId} {i : InstId}

theorem Base.ne_graphEntry (h : Base r t g₀) (hi : i ∈ r.insts b) : b ≠ FlowGraph.graphEntry := by
  obtain ⟨n, hn⟩ := h.raw.exists_node hi
  obtain ⟨c, -, hc, hhandle⟩ := h.raw.home i n hn
  rw [h.raw.layout.mem_iff.mp hi, Option.some_inj] at hc
  exact hc ▸ hhandle.2

namespace AllRenamed

variable {init : Frame} {s : Names} {out : BlockId → Frame} (h : AllRenamed r t g₀ init s g out)

include h

theorem exists_step_of_mem (hb : b ∈ t.preorder) (hi : i ∈ r.insts b) :
    ∃ front back f f', r.insts b = front ++ i :: back ∧ Step r g₀ s g i f f' ∧ Stocked r t g₀ g b front f := by
  obtain ⟨front, back, hsplit⟩ := List.append_of_mem hi
  obtain ⟨f, f', hstep, hf⟩ := h.exists_step hb (h.base.ne_graphEntry hi) hsplit
  exact ⟨front, back, f, f', hsplit, hstep, hf⟩

theorem exists_operand (hb : b ∈ t.preorder) (hi : i ∈ r.insts b) {j : Nat} {v : InstId}
    (hj : inputOf g i j = some v) : ∃ front back, r.insts b = front ++ i :: back ∧
      Origin r t g₀ b front v ∧ Lives g₀ g v := by
  obtain ⟨front, back, f, f', hsplit, ⟨n, as, rest, hstep⟩, hf⟩ := h.exists_step_of_mem hb hi
  obtain ⟨n', hn', hinst, -⟩ := hstep.renamed
  rw [inputOf, hn', Option.bind_some, hinst, Inst.args_withArgs hstep.inputs.length_eq] at hj
  have hv : v ∈ as := List.mem_of_getElem? hj
  have hframe := hstep.frame
  subst hframe
  refine ⟨front, back, hsplit, hf.origin v (by simp [hv]), hf.lives_of_mem ?_ hv⟩
  rw [List.length_append]
  exact Nat.le_add_right_of_le hstep.room

theorem exists_incoming {phi v : InstId} (hphi : phi ∈ phisOf g₀ c) {j : Nat} (hj : inputOf g phi j = some v) :
    ∃ p, (t.preds c)[j]? = some p ∧ p ∈ t.preorder ∧ p ≠ FlowGraph.graphEntry ∧
      (out p)[slotOf g₀ phi]? = some v := by
  obtain ⟨-, hc, hjoin, -, hnode⟩ := h.base.phi_of_mem hphi
  obtain ⟨n, hn, hev⟩ := h.progress.nodes phi _ hnode
  have hlt : j < (t.preds c).length := by
    rw [inputOf, hn, Option.bind_some] at hj
    have hlt := (List.getElem?_eq_some_iff.mp hj).1
    rw [hev.length_args] at hlt
    simpa [phiNode, Inst.args] using hlt
  have hp : (t.preds c)[j]? = some (t.preds c)[j] := List.getElem?_eq_getElem hlt
  have hmem : (t.preds c)[j] ∈ t.preds c := List.getElem_mem hlt
  have hpre := h.base.touring.known c _ hmem
  obtain ⟨hne, -⟩ := goto_of_mem_preds h.base.raw h.base.catchEntries h.base.touring h.base.split hjoin hmem
  obtain ⟨w, hw, hinput⟩ := (h.block _ hpre hne).filled c phi j hphi hp
  obtain rfl : w = v := by simpa [hj] using hinput.symm
  exact ⟨_, hp, hpre, hne, hw⟩

theorem isPhi_of_opcode {n : Node} (hn : g.nodes[i.index]? = some n) (hop : n.inst.opcode = .phi) :
    n.inst.isPhi = true := by
  obtain ⟨n₀, hn₀, hev⟩ := h.progress.exists_base hn
  rw [hev.isPhi]
  exact h.base.isPhi_of_opcode hn₀ (hev.opcode.symm.trans hop)

theorem exists_home {n : Node} (hn : g.nodes[i.index]? = some n) (hphi : n.inst.isPhi = true) :
    ∃ c, i ∈ phisOf g₀ c := by
  obtain ⟨n₀, hn₀, hev⟩ := h.progress.exists_base hn
  rw [hev.isPhi] at hphi
  obtain hlt | ⟨c, k, hk, hi⟩ | hi := h.base.all i n₀ hn₀
  · have hr : r.nodes[i.index]? = some r.nodes[i.index] := Array.getElem?_eq_getElem hlt
    obtain rfl : r.nodes[i.index] = n₀ := by simpa [h.base.old i _ hr] using hn₀
    simp [h.base.isPhi_of_raw hr] at hphi
  · exact ⟨c, by rwa [phisOf_eq hk]⟩
  · obtain ⟨-, m, hm, -, -, hphi', -⟩ := h.base.initial i hi
    obtain rfl : m = n₀ := by simpa [hm] using hn₀
    simp [hphi'] at hphi

theorem spreads : Spreads g where
  opcode := fun _ _ hn hop => h.isPhi_of_opcode hn hop
  inputs := by
    intro i n hn hphi d hd
    obtain ⟨c, hc⟩ := h.exists_home hn hphi
    obtain ⟨j, hj⟩ := List.mem_iff_getElem?.mp hd
    obtain ⟨p, -, hp, hne, hv⟩ := h.exists_incoming hc (show inputOf g i j = some d by rw [inputOf, hn]; exact hj)
    rw [h.progress.size]
    exact (h.block p hp hne).sized.known d (List.mem_of_getElem? hv)

theorem mem_built (hi : i ∈ g.insts b) : i ∈ r.insts b := (h.progress.sub b).subset hi

theorem lt_of_mem (hi : i ∈ r.insts b) : i.index < r.nodes.size :=
  h.base.raw.placed i b (h.base.raw.layout.mem_iff.mp hi)

theorem preorder_eq : g.preorder = t.preorder := h.progress.outline.preorder.trans h.base.preorder

theorem phisOf_eq (b : BlockId) : phisOf g b = phisOf g₀ b := by
  unfold phisOf
  rw [h.progress.outline.blocks]

end AllRenamed

/-! ## From the end of renaming to the end -/

section Finishing

variable {init : Frame} {s : Names} {out : BlockId → Frame} {L : List InstId} {us es : List (InstId × Use)}

theorem inputOf_revived (g : FlowGraph) (L : List InstId) (i : InstId) (j : Nat) :
    inputOf (revived g L) i j = inputOf g i j := by
  unfold inputOf
  rw [nodes_revived]
  cases g.nodes[i.index]? with
  | none => rfl
  | some n =>
    simp only [Option.map_some, Option.bind_some]
    split <;> simp

theorem isPhiIn_revived (g : FlowGraph) (L : List InstId) (i : InstId) : isPhiIn (revived g L) i = isPhiIn g i := by
  unfold isPhiIn
  rw [nodes_revived]
  cases g.nodes[i.index]? with
  | none => rfl
  | some n =>
    simp only [Option.map_some, Option.getD_some]
    split <;> simp

theorem AllRenamed.referred (h : AllRenamed r t g₀ init s g out) : Referred (revived g L) where
  blocks := by
    intro b hb
    obtain ⟨k, hk⟩ := h.base.exists_block (h.preorder_eq ▸ hb)
    refine ⟨k, (congrArg (·[b.index]?) h.progress.outline.blocks).trans hk, fun phi hphi => ?_⟩
    obtain ⟨-, -, -, -, hnode⟩ := h.base.phi_of_mem (by rwa [Ssa.phisOf_eq hk])
    rw [revived, FlowGraph.size_mapNodes, h.progress.size]
    exact (Array.getElem?_eq_some_iff.mp hnode).1
  insts := by
    intro b hb i hi
    have hr := h.lt_of_mem (h.mem_built hi)
    have hnode := h.base.old i _ (Array.getElem?_eq_getElem hr)
    rw [revived, FlowGraph.size_mapNodes, h.progress.size]
    exact (Array.getElem?_eq_some_iff.mp hnode).1

theorem AllRenamed.clearable (h : AllRenamed r t g₀ init s g out) (hL : Alive g L (revived g L))
    (hlisted : Listed (listing (revived g L) us es)) : Clearable (listing (revived g L) us es) where
  listed := hlisted
  block := fun b hb => (h.referred (L := L)).blocks b hb |>.imp fun _ hk => hk.1
  phis_nodup := by
    intro b
    show (phisOf g b).Nodup
    rw [h.phisOf_eq]
    unfold phisOf
    cases hk : g₀.blocks[b.index]? with
    | none => exact List.nodup_nil
    | some k => exact h.base.phis_nodup b k hk
  phis := by
    intro b phi hphi
    have hphi : phi ∈ phisOf g₀ b := h.phisOf_eq b ▸ hphi
    obtain ⟨hnew, -, -, -, hnode⟩ := h.base.phi_of_mem hphi
    obtain ⟨n, hn, hev⟩ := h.progress.nodes phi _ hnode
    refine ⟨fun c hc => ?_, fun hd => ?_, ?_⟩
    · exact absurd (h.lt_of_mem (h.mem_built hc)) (Nat.not_lt.mpr hnew)
    · obtain ⟨-, m, hm, -, -, hm', -⟩ := h.base.initial phi (h.progress.outline.initialDefinitions ▸ hd)
      obtain rfl : phiNode t b (slotOf g₀ phi) = m := by simpa [hnode] using hm
      cases hm'
    · have hblock : n.block = some b := by
        rw [h.progress.block phi _ n hnode hn, if_neg (Nat.not_lt.mpr hnew)]
        rfl
      have henv : n.env = none := h.progress.env phi _ n hnew hnode hn
      refine ⟨_, by rw [nodes_listing, nodes_revived, hn]; rfl, ?_, ?_, ?_⟩
      · split
        · rw [Inst.isPhi_revive]
          exact hev.isPhi
        · exact hev.isPhi
      · split <;> exact hblock
      · split <;> exact henv
  unread := by
    rintro u d ⟨⟨b, hb, huser⟩, hread⟩ hphi
    have hread : inputOf g u.user u.index = some d := by
      rw [← inputOf_revived g L, ← hread]
      unfold inputOf
      rw [nodes_listing]
      cases (revived g L).nodes[u.user.index]? <;> rfl
    have hphi : isPhiIn g d = true := by
      rw [← isPhiIn_revived g L, ← hphi]
      unfold isPhiIn
      rw [nodes_listing]
      cases (revived g L).nodes[d.index]? <;> rfl
    rw [aliveIn_listing]
    obtain ⟨-, halive⟩ | hplaced := huser
    · rw [aliveIn_listing] at halive
      obtain ⟨n, hn, hget⟩ := Option.bind_eq_some_iff.mp hread
      exact (hL.mem_iff d).mp (hL.closed u.user ((hL.mem_iff u.user).mpr halive) n hn d (List.mem_of_getElem? hget)
        hphi)
    · obtain ⟨-, -, -, -, hlives⟩ := h.exists_operand (h.preorder_eq ▸ hb) (h.mem_built hplaced) hread
      obtain ⟨n, hn, hisPhi⟩ := isPhiIn_iff.mp hphi
      obtain ⟨n₀, hn₀, hev⟩ := h.progress.exists_base hn
      rw [aliveIn_revived, hlives n₀ hn₀ (hev.isPhi.symm.trans hisPhi), Bool.true_or]

end Finishing

/-- What is left of the graph `g` at the end of renaming: the phis of `L` are live, and those of `D` are gone, with
`null` in their place. -/
structure Finished (t : Tour) (g : FlowGraph) (L D : List InstId) (null : InstId) (g' : FlowGraph) : Prop where
  preorder : g'.preorder = t.preorder
  postorder : g'.postorder = t.postorder
  layout : g'.layout = g.layout
  initialDefinitions : g'.initialDefinitions = g.initialDefinitions
  catchEntries : g'.catchEntries = []
  size : g'.nodes.size = g.nodes.size
  blocks : ∀ b : BlockId, g'.blocks[b.index]? =
    (g.blocks[b.index]?).map fun k => { k with phis := k.phis.filter (· ∉ D) }
  nodes : ∀ (i : InstId) (n : Node), g.nodes[i.index]? = some n → ∃ n', g'.nodes[i.index]? = some n' ∧
    (n'.inst = if i ∈ L then n.inst.revive else n.inst) ∧ (n'.block = if i ∈ D then none else n.block) ∧
    n'.env.isSome = n.env.isSome ∧ n'.deoptId = n.deoptId
  envs : ∀ (b : BlockId) (i : InstId) (j : Nat), b ∈ t.preorder → i ∈ g.insts b →
    resumeOf g' i j = (resumeOf g i j).map fun v => if v ∈ D then null else v
  listed : Listed g'
  live : ∀ i, i ∈ L ↔ aliveIn g' i = true
  kept : ∀ i, aliveIn g i = true → i ∈ L
  closed : ∀ i ∈ L, ∀ j d, inputOf g i j = some d → isPhiIn g d = true → d ∈ L
  gone : ∀ i, i ∈ D ↔ (∃ b, i ∈ phisOf g b) ∧ i ∉ L
  null : IsInitial g null (.constant .null)
  names : g.KeepsNames g'

theorem AllRenamed.finished {init : Frame} {s : Names} {out : BlockId → Frame} {L D : List InstId}
    {us es : List (InstId × Use)} {null : InstId} {g' : FlowGraph} (h : AllRenamed r t g₀ init s g out)
    (hL : Alive g L (revived g L)) (hmem : null ∈ g.initialDefinitions)
    (hnull : ∃ n, (listing (revived g L) us es).nodes[null.index]? = some n ∧ n.inst = .constant .null)
    (hD : ∀ i ∈ D, IsDead (listing (revived g L) us es) i)
    (hall : ∀ b ∈ g.preorder, ∀ phi ∈ phisOf g b, aliveIn (listing (revived g L) us es) phi = false → phi ∈ D)
    (hclear : Cleared (listing (revived g L) us es) null D g') : Finished t g L D null g' := by
  have hnodes : ∀ i : InstId, (listing (revived g L) us es).nodes[i.index]? = (g.nodes[i.index]?).map fun n =>
      { (if i ∈ L then { n with inst := n.inst.revive } else n) with
        inputUses := Edit.usesOf us i, envUses := Edit.usesOf es i } := by
    intro i
    rw [nodes_listing, nodes_revived, Option.map_map]
    rfl
  have halive : ∀ i, aliveIn (listing (revived g L) us es) i = true ↔ i ∈ L := fun i => by
    rw [aliveIn_listing, hL.mem_iff]
  have hinst : ∀ (i : InstId) (n : Node), g.nodes[i.index]? = some n → ∃ n', g'.nodes[i.index]? = some n' ∧
      (n'.inst = if i ∈ L then n.inst.revive else n.inst) ∧ (n'.block = if i ∈ D then none else n.block) ∧
      n'.env.isSome = n.env.isSome ∧ n'.deoptId = n.deoptId := by
    intro i n hn
    obtain ⟨n', hn', hinst, hblock, henv, hid⟩ := hclear.nodes i _ (by rw [hnodes, hn]; rfl)
    refine ⟨n', hn', hinst.trans ?_, hblock.trans ?_, henv.trans ?_, hid.trans ?_⟩
    · split <;> rfl
    · split
      · rfl
      · split <;> rfl
    · split <;> rfl
    · split <;> rfl
  refine ⟨hclear.preorder.trans h.preorder_eq, ?_, hclear.layout, hclear.initialDefinitions, ?_, ?_, hclear.blocks,
    hinst, ?_, hclear.listed, ?_, ?_, ?_, ?_, ⟨hmem, ?_⟩, ?_⟩
  · exact hclear.postorder.trans (h.progress.outline.postorder.trans h.base.postorder)
  · exact hclear.catchEntries.trans (h.progress.outline.catchEntries.trans h.base.noCatch)
  · rw [hclear.size]
    simp [listing, revived]
  · intro b i j hb hi
    rw [hclear.envs b i j (h.preorder_eq ▸ hb) hi]
    congr 1
    unfold resumeOf
    rw [hnodes]
    cases g.nodes[i.index]? with
    | none => rfl
    | some n =>
      simp only [Option.map_some, Option.bind_some]
      split <;> rfl
  · intro i
    rw [← halive]
    unfold aliveIn
    cases hn : (listing (revived g L) us es).nodes[i.index]? with
    | none =>
      have hnone : g'.nodes[i.index]? = none := by
        rw [Array.getElem?_eq_none_iff] at hn ⊢
        rwa [hclear.size]
      rw [hnone]
    | some n =>
      obtain ⟨n', hn', hsame, -⟩ := hclear.nodes i n hn
      rw [hn', Option.map_some, Option.map_some, hsame]
  · intro i hi
    rw [hL.mem_iff, aliveIn_revived, hi, Bool.true_or]
  · intro i hi j d hd hphi
    obtain ⟨n, hn, hget⟩ := Option.bind_eq_some_iff.mp hd
    exact hL.closed i hi n hn d (List.mem_of_getElem? hget) hphi
  · intro i
    constructor
    · intro hi
      obtain ⟨hb, hdead⟩ := hD i hi
      refine ⟨hb, fun hmem => ?_⟩
      rw [(halive i).mpr hmem] at hdead
      cases hdead
    · rintro ⟨⟨b, hb⟩, hi⟩
      obtain ⟨-, hpre, -⟩ := h.base.phi_of_mem (h.phisOf_eq b ▸ hb)
      refine hall b (h.preorder_eq ▸ hpre) i hb ?_
      rw [← Bool.not_eq_true, halive]
      exact hi
  · obtain ⟨n, hn, hnull⟩ := hnull
    rw [hnodes] at hn
    obtain ⟨m, hm, rfl⟩ := Option.map_eq_some_iff.mp hn
    refine ⟨m, hm, ?_⟩
    split at hnull
    · have hphi : m.inst.revive.isPhi = false := congrArg Inst.isPhi hnull
      rw [Inst.isPhi_revive] at hphi
      exact (Inst.revive_of_not_isPhi hphi).symm.trans hnull
    · exact hnull
  · have hlisting : (revived g L).KeepsNames (listing (revived g L) us es) := .mapNodes fun _ _ => rfl
    refine .trans (.mapNodes fun i n => ?_) (hlisting.trans hclear.names)
    split <;> rfl

/-! ## The whole of construction -/

def placePhis : Construct Unit := do
  Flow.discover
  checkEdgeSplitForm
  insertPhis (← Flow.computeDominators)

theorem construct_eq : construct = (do
    if !(← getThe FlowGraph).catchEntries.isEmpty then throw .catchEntry
    placePhis
    let live ← rename
    markLivePhis live
    Edit.computeUseLists
    removeDeadPhis) := by
  unfold construct placePhis
  simp only [bind_assoc]

/-- The graph `p` has the phis that `r` needs: wherever two values of a variable may meet. -/
structure PhisPlaced (r : FlowGraph) (t : Tour) (p : FlowGraph) : Prop where
  base : Base r t p
  initial : p.initialDefinitions = []
  meets : ∀ v < r.parameterCount + r.localCount, ∀ m n (b c : BlockId), t.preorder[n]? = some b →
    t.preorder[m]? = some c → Stores t n v ∨ PhiFor p b v → m ∈ (frontiers t.predNumbers t.tree).getD n [] →
    PhiFor p c v

theorem ends_placePhis (hraw : Raw r) (hcatch : r.catchEntries = []) :
    Ends False Unplaced r placePhis fun _ p => ∃ t, PhisPlaced r t p := by
  unfold placePhis
  rw [Ends.bind_iff, Ends.lift_iff]
  refine (leads_discover (.inr (hraw.walkable hcatch))).mono ?_
  rintro _ _ ⟨t, rfl, ht⟩
  rw [Ends.bind_iff]
  refine (ends_checkEdgeSplitForm hraw ht).mono ?_
  rintro _ _ ⟨rfl, hsplit⟩
  have htoured : Toured r t := ⟨hraw, hcatch, ht, hsplit⟩
  have hfollows : InTourOrder t (onTour r t) := ⟨rfl, rfl, rfl, rfl, rfl, fun b k hk => ⟨k, hk, rfl, rfl, rfl⟩⟩
  rw [Ends.bind_iff, Ends.lift_iff]
  refine (leads_computeDominators ht hfollows).mono ?_
  rintro _ _ ⟨rfl, rfl⟩
  have hcount : (recorded r t).variableCount = .ok (r.parameterCount + r.localCount) :=
    if_pos (Nat.lt_trans hraw.slots (by decide))
  refine ((ends_insertPhis htoured.ready hcount fun n m hm => ?_).weaken ?_ id).mono ?_
  · rw [← Tour.size_predNumbers]
    exact (lt_of_mem_frontiers hm).1
  · rintro _ ⟨v, n, b, -, -, -, -, rfl⟩
    exact .notJoin b
  · rintro _ _ ⟨ps, rfl, hplaced, -, hvars, hcomplete⟩
    refine ⟨t, htoured.base hplaced hvars, hraw.initial, fun v hv m n b c hn hm hsource hmem => ?_⟩
    have hhas : Stores t n v ∨ HasPhi t ps n v :=
      hsource.imp_right fun hphi => ⟨b, hn, (htoured.phiFor_iff hplaced).mp hphi⟩
    obtain ⟨c', hc', hphi⟩ := (hcomplete v hv).closed n hhas m hmem
    obtain rfl : c' = c := by simpa [hm] using hc'.symm
    exact (htoured.phiFor_iff hplaced).mpr hphi

/-- Construction ends without a fault. -/
theorem gives_construct (hraw : Raw r) : Gives False r construct fun _ g' =>
    ∃ p t g₀ init s g out L D null, placePhis.run r = .ok (.ok (), p) ∧ PhisPlaced r t p ∧ Extends p g₀ ∧
      AllRenamed r t g₀ init s g out ∧ Finished t g L D null g' := by
  rw [construct_eq, Gives.bind_iff, Gives.getThe_iff]
  by_cases hcatch : r.catchEntries = []
  case neg => simp [hcatch]
  simp only [hcatch, List.isEmpty_nil, Bool.not_true, Bool.false_eq_true, if_false]
  rw [Gives.bind_iff]
  refine (ends_placePhis hraw hcatch).gives.with_run.mono ?_
  rintro _ p ⟨hrun, t, hp⟩
  rw [Gives.bind_iff]
  refine (gives_rename hp.base hp.initial).mono ?_
  rintro _ g ⟨g₀, init, s, out, hext, rfl, h⟩
  rw [Gives.bind_iff, Gives.lift_iff]
  refine (leads_markLivePhis h.spreads h.live).mono ?_
  rintro _ g₁ ⟨L, hL⟩
  obtain rfl := hL.graph
  rw [Gives.bind_iff, Gives.lift_iff]
  refine (leads_computeUseLists h.referred).mono ?_
  rintro _ _ ⟨us, es, rfl, hlisted⟩
  rw [Gives.lift_iff]
  have hinitial : ∀ d ∈ g.initialDefinitions, d.index < (listing (revived g L) us es).nodes.size := by
    intro d hd
    obtain ⟨-, n, hn, -⟩ := h.base.initial d (h.progress.outline.initialDefinitions ▸ hd)
    have hlt := (Array.getElem?_eq_some_iff.mp hn).1
    simpa [listing, revived, h.progress.size] using hlt
  refine (leads_removeDeadPhis (h.clearable hL hlisted) hinitial ?_).mono ?_
  · obtain ⟨d, hd, n, hn, hinst⟩ := h.starts.null
    obtain ⟨n', hn', hev⟩ := h.progress.nodes d n hn
    obtain ⟨f, hf⟩ := hev.inst_of_not_isPhi (by rw [hinst]; rfl)
    refine ⟨d, h.progress.outline.initialDefinitions ▸ hd, _, by rw [nodes_listing, nodes_revived, hn']; rfl, ?_⟩
    rw [hinst] at hf
    split
    · simp only [hf]
      rfl
    · exact hf
  · rintro _ g' ⟨null, D, hmem, hnull, hD, hall, hclear⟩
    exact ⟨p, t, g₀, init, s, g, out, L, D, null, hrun, hp, hext, h, h.finished hL hmem hnull hD hall hclear⟩

end Ssa

end Midend
