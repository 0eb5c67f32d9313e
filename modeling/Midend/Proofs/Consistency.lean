import Midend.Proofs.Reading

/-! # What the check of a graph establishes

The check computes a list of findings. Here the graphs without any are described by what holds in them.
-/

namespace Midend.FlowGraph

variable {g : FlowGraph}

/-! ## Definitions and their uses -/

/-- The use is listed, and what it refers to arrives in time. -/
structure InputHolds (g : FlowGraph) (user : InstId) (k : Nat) (d : InstId) : Prop where
  present : g.isPresent d = .ok true
  listed : ∃ n, g.nodes[d.index]? = some n ∧ ⟨user, k⟩ ∈ n.inputUses
  arrives : g.inputArrives user k d = .ok true

theorem inputFindings_eq_nil_iff {user : InstId} {k : Nat} {d : InstId} :
    g.inputFindings user k d = .ok [] ↔ InputHolds g user k d := by
  unfold inputFindings
  simp only [bind_eq_ok, ite_eq_ok, pure_eq_ok, inputUses_eq_ok, exists_eq_left', List.append_eq_nil_iff,
    List.cons_ne_nil, and_false, or_false, false_or, and_true, exists_false, Bool.not_eq_true',
    Bool.not_eq_false]
  constructor
  · rintro ⟨_, hp, rfl, _, ⟨n, hn, rfl⟩, hmem, _, hc, rfl⟩
    exact ⟨hp, ⟨n, hn, hmem⟩, hc⟩
  · rintro ⟨hp, ⟨n, hn, hmem⟩, hc⟩
    exact ⟨true, hp, rfl, _, ⟨n, hn, rfl⟩, hmem, true, hc, rfl⟩

theorem checkInputs_eq_nil_iff {user : InstId} :
    g.checkInputs user = .ok [] ↔ ∃ n, g.nodes[user.index]? = some n ∧
      ∀ k d, n.inst.args[k]? = some d → InputHolds g user k d := by
  unfold checkInputs
  rw [bind_eq_ok]
  simp only [args_eq_ok, findings_eq_nil_iff, inputFindings_eq_nil_iff]
  constructor
  · rintro ⟨_, ⟨n, hn, rfl⟩, h⟩
    exact ⟨n, hn, fun k d hk => h (d, k) (List.mk_mem_zipIdx_iff_getElem?.mpr hk)⟩
  · rintro ⟨n, hn, h⟩
    exact ⟨_, ⟨n, hn, rfl⟩, fun ⟨d, k⟩ hk => h k d (List.mk_mem_zipIdx_iff_getElem?.mp hk)⟩

/-- Value `k` of the environment of `user` is there and knows of it. -/
structure EnvValueHolds (g : FlowGraph) (user : InstId) (k : Nat) (d : InstId) : Prop where
  present : g.isPresent d = .ok true
  listed : ∃ n, g.nodes[d.index]? = some n ∧ ⟨user, k⟩ ∈ n.envUses

theorem checkEnv_eq_nil_iff {user : InstId} :
    g.checkEnv user = .ok [] ↔ ∃ n, g.nodes[user.index]? = some n ∧
      ∀ e, n.env = some e → ∀ k d, e.values[k]? = some d → EnvValueHolds g user k d := by
  unfold checkEnv
  rw [bind_eq_ok]
  simp only [env_eq_ok]
  constructor
  · rintro ⟨_, ⟨n, hn, rfl⟩, h⟩
    refine ⟨n, hn, fun e he k d hk => ?_⟩
    rw [he] at h
    have h := findings_eq_nil_iff.mp h (d, k) (List.mk_mem_zipIdx_iff_getElem?.mpr hk)
    simp only [bind_eq_ok, ite_eq_ok, pure_eq_ok, envUses_eq_ok, List.cons_ne_nil, and_false, or_false,
      false_or, and_true, exists_false, Bool.not_eq_true', Bool.not_eq_false] at h
    obtain ⟨_, hp, rfl, _, ⟨m, hm, rfl⟩, hmem⟩ := h
    exact ⟨hp, m, hm, hmem⟩
  · rintro ⟨n, hn, h⟩
    refine ⟨n.env, ⟨n, hn, rfl⟩, ?_⟩
    cases he : n.env with
    | none => rfl
    | some e =>
      refine findings_eq_nil_iff.mpr fun ⟨d, k⟩ hk => ?_
      obtain ⟨hp, m, hm, hmem⟩ := h e he k d (List.mk_mem_zipIdx_iff_getElem?.mp hk)
      simp only [bind_eq_ok, ite_eq_ok, pure_eq_ok, envUses_eq_ok]
      exact ⟨true, hp, .inr ⟨by simp, _, ⟨m, hm, rfl⟩, .inl ⟨hmem, trivial⟩⟩⟩

/-- A listed use of `d` is by a dead phi, or by a present instruction that refers to `d` there. -/
def UseHolds (g : FlowGraph) (d : InstId) (u : Use) : Prop :=
  ∃ n, g.nodes[u.user.index]? = some n ∧
    ((n.inst.opcode = .phi ∧ n.inst.isAlivePhi = false) ∨
      (g.isPresent u.user = .ok true ∧ n.inst.args[u.index]? = some d))

theorem useFindings_eq_nil_iff {d : InstId} {u : Use} :
    g.useFindings d u = .ok [] ↔ UseHolds g d u := by
  unfold useFindings UseHolds
  simp only [bind_eq_ok, ite_eq_ok, pure_eq_ok, opcode_eq_ok, isAlivePhi_eq_ok, args_eq_ok, and_true,
    List.cons_ne_nil, and_false, or_false, false_or, exists_false, Bool.not_eq_true', Bool.not_eq_false,
    Bool.and_eq_true, beq_iff_eq]
  constructor
  · rintro ⟨_, ⟨n, hn, rfl⟩, _, ⟨m, hm, rfl⟩, h⟩
    obtain rfl : n = m := by simpa [hn] using hm
    refine ⟨n, hn, ?_⟩
    obtain h | ⟨-, _, hp, rfl, _, ⟨m, hm, rfl⟩, h⟩ := h
    · exact .inl h
    · obtain rfl : n = m := by simpa [hn] using hm
      exact .inr ⟨hp, h⟩
  · rintro ⟨n, hn, h⟩
    refine ⟨_, ⟨n, hn, rfl⟩, _, ⟨n, hn, rfl⟩, ?_⟩
    by_cases hdead : n.inst.opcode = .phi ∧ n.inst.isAlivePhi = false
    · exact .inl hdead
    · obtain ⟨hp, harg⟩ := h.resolve_left hdead
      exact .inr ⟨hdead, true, hp, rfl, _, ⟨n, hn, rfl⟩, harg⟩

theorem checkUses_eq_nil_iff {d : InstId} :
    g.checkUses d = .ok [] ↔ ∃ n, g.nodes[d.index]? = some n ∧ ∀ u ∈ n.inputUses, UseHolds g d u := by
  unfold checkUses
  rw [bind_eq_ok]
  simp only [inputUses_eq_ok, findings_eq_nil_iff, useFindings_eq_nil_iff]
  constructor
  · rintro ⟨_, ⟨n, hn, rfl⟩, h⟩
    exact ⟨n, hn, h⟩
  · rintro ⟨n, hn, h⟩
    exact ⟨_, ⟨n, hn, rfl⟩, h⟩

/-! ## Blocks -/

/-- The inputs of `i` hold, and so do the uses that are listed for it. -/
structure OperandsHold (g : FlowGraph) (i : InstId) (n : Node) : Prop where
  inputs : ∀ k d, n.inst.args[k]? = some d → InputHolds g i k d
  uses : ∀ u ∈ n.inputUses, UseHolds g i u

/-- A live phi of `b` has an input for each predecessor. -/
structure PhiHolds (g : FlowGraph) (b : BlockId) (phi : InstId) : Prop where
  count : ∃ as ps, g.args phi = .ok as ∧ g.preds b = .ok ps ∧ as.length = ps.length
  operands : ∃ n, g.nodes[phi.index]? = some n ∧ OperandsHold g phi n

theorem checkPhi_eq_nil_iff {b : BlockId} {phi : InstId} :
    g.checkPhi b phi = .ok [] ↔ PhiHolds g b phi := by
  unfold checkPhi
  simp only [bind_eq_ok, ite_eq_ok, pure_eq_ok, exists_eq_left', List.append_eq_nil_iff, List.cons_ne_nil,
    and_false, false_and, or_false, exists_false]
  constructor
  · rintro ⟨as, has, ps, hps, hlen, _, hin, _, hus, ⟨-, rfl⟩, rfl⟩
    obtain ⟨n, hn, hin⟩ := checkInputs_eq_nil_iff.mp hin
    obtain ⟨m, hm, hus⟩ := checkUses_eq_nil_iff.mp hus
    obtain rfl : n = m := by simpa [hn] using hm
    exact ⟨⟨as, ps, has, hps, hlen⟩, n, hn, hin, hus⟩
  · rintro ⟨⟨as, ps, has, hps, hlen⟩, n, hn, hin, hus⟩
    exact ⟨as, has, ps, hps, hlen, [], checkInputs_eq_nil_iff.mpr ⟨n, hn, hin⟩, [],
      checkUses_eq_nil_iff.mpr ⟨n, hn, hus⟩, ⟨trivial, rfl⟩, rfl⟩

/-- An instruction of `b`, of which `last` is the last one. -/
structure InstHolds (g : FlowGraph) (b : BlockId) (last i : InstId) (n : Node) : Prop where
  terminates : n.inst.isTerminator = true ↔ i = last
  placed : n.block = some b
  operands : OperandsHold g i n
  env : ∀ e, n.env = some e → ∀ k d, e.values[k]? = some d → EnvValueHolds g i k d

theorem checkInst_eq_nil_iff {b : BlockId} {last i : InstId} :
    g.checkInst b last i = .ok [] ↔ ∃ n, g.nodes[i.index]? = some n ∧ InstHolds g b last i n := by
  unfold checkInst
  simp only [bind_eq_ok, ite_eq_ok, pure_eq_ok, exists_eq_left', List.append_eq_nil_iff, List.cons_ne_nil,
    and_false, false_and, or_false, false_or, exists_false, inst_eq_ok, instBlock_eq_ok,
    Bool.and_eq_true, Bool.not_eq_true', bne_iff_ne, beq_iff_eq, ne_eq]
  constructor
  · rintro ⟨_, ⟨n, hn, rfl⟩, hearly, hmissing, _, ⟨m, hm, rfl⟩, hblock, _, hin, _, henv, _, hus, ⟨⟨-, rfl⟩, rfl⟩, rfl⟩
    obtain rfl : n = m := by simpa [hn] using hm
    obtain ⟨m, hm, hin⟩ := checkInputs_eq_nil_iff.mp hin
    obtain rfl : n = m := by simpa [hn] using hm
    obtain ⟨m, hm, henv⟩ := checkEnv_eq_nil_iff.mp henv
    obtain rfl : n = m := by simpa [hn] using hm
    obtain ⟨m, hm, hus⟩ := checkUses_eq_nil_iff.mp hus
    obtain rfl : n = m := by simpa [hn] using hm
    refine ⟨n, hn, ?_, hblock, ⟨hin, hus⟩, henv⟩
    grind
  · rintro ⟨n, hn, hterm, hblock, ⟨hin, hus⟩, henv⟩
    refine ⟨_, ⟨n, hn, rfl⟩, by grind, by grind, _, ⟨n, hn, rfl⟩, hblock, [],
      checkInputs_eq_nil_iff.mpr ⟨n, hn, hin⟩, [], checkEnv_eq_nil_iff.mpr ⟨n, hn, henv⟩, [],
      checkUses_eq_nil_iff.mpr ⟨n, hn, hus⟩, ⟨⟨?_, rfl⟩, rfl⟩, rfl⟩
    simp

theorem checkEdges_eq_nil_iff {b : BlockId} :
    g.checkEdges b = .ok [] ↔ ∃ ss, g.succs b = .ok ss ∧ ∀ s ∈ ss, ∃ ps, g.preds s = .ok ps ∧ b ∈ ps := by
  unfold checkEdges
  rw [bind_eq_ok]
  refine exists_congr fun ss => and_congr_right fun _ => ?_
  rw [findings_eq_nil_iff]
  refine forall₂_congr fun s _ => ?_
  simp only [predIndex, bind_eq_ok, ite_eq_ok, pure_eq_ok, List.cons_ne_nil, and_false, or_false, and_true]
  constructor
  · rintro ⟨_, ⟨ps, hps, rfl⟩, hsome⟩
    obtain ⟨x, hx, hxb⟩ := List.findIdx?_isSome.symm.trans hsome |> List.any_eq_true.mp
    exact ⟨ps, hps, by rwa [← beq_iff_eq.mp hxb]⟩
  · rintro ⟨ps, hps, hb⟩
    refine ⟨_, ⟨ps, hps, rfl⟩, ?_⟩
    rw [List.findIdx?_isSome, List.any_eq_true]
    exact ⟨b, hb, beq_self_eq_true b⟩

theorem livePhis_eq_ok {b : BlockId} {ps : List InstId} :
    g.livePhis b = .ok ps ↔ ∃ all, g.phis b = .ok all ∧ (∀ phi ∈ all, ∃ a, g.isAlivePhi phi = .ok a) ∧
      ps = all.filter fun phi => (g.isAlivePhi phi).toOption = some true := by
  unfold livePhis
  simp only [bind_eq_ok, filterM_eq_ok]

structure BlockHolds (g : FlowGraph) (b : BlockId) : Prop where
  edges : ∃ ss, g.succs b = .ok ss ∧ ∀ s ∈ ss, ∃ ps, g.preds s = .ok ps ∧ b ∈ ps
  phis : ∃ ps, g.livePhis b = .ok ps ∧ ∀ phi ∈ ps, PhiHolds g b phi
  insts : b ≠ graphEntry → ∃ last, g.lastInst b = some last ∧
    ∀ i ∈ g.insts b, ∃ n, g.nodes[i.index]? = some n ∧ InstHolds g b last i n

theorem checkBlock_eq_nil_iff {b : BlockId} : g.checkBlock b = .ok [] ↔ BlockHolds g b := by
  have hphis (pss : List InstId) : (∃ fs, pss.mapM (g.checkPhi b) = .ok fs ∧ fs.flatten = []) ↔
      ∀ phi ∈ pss, PhiHolds g b phi := by
    simp only [← checkPhi_eq_nil_iff, ← findings_eq_nil_iff, bind_eq_ok, pure_eq_ok]
  have hinsts (last : InstId) (is : List InstId) :
      (∃ fs, is.mapM (g.checkInst b last) = .ok fs ∧ fs.flatten = []) ↔
        ∀ i ∈ is, ∃ n, g.nodes[i.index]? = some n ∧ InstHolds g b last i n := by
    simp only [← checkInst_eq_nil_iff, ← findings_eq_nil_iff, bind_eq_ok, pure_eq_ok]
  unfold checkBlock
  simp only [bind_eq_ok]
  constructor
  · rintro ⟨es, hes, ps, hps, fs, hfs, h⟩
    have hnil : es = [] ∧ fs.flatten = [] ∧ (b ≠ graphEntry → ∃ last, g.lastInst b = some last ∧
        ∀ i ∈ g.insts b, ∃ n, g.nodes[i.index]? = some n ∧ InstHolds g b last i n) := by
      split at h
      case isTrue hb =>
        rw [pure_eq_ok, List.append_eq_nil_iff] at h
        exact ⟨h.1, h.2, fun hne => absurd hb hne⟩
      · cases hlast : g.lastInst b with
        | none => simp [hlast, pure_eq_ok] at h
        | some last =>
          simp only [hlast, bind_eq_ok, pure_eq_ok, List.append_eq_nil_iff] at h
          obtain ⟨is, his, ⟨rfl, hf⟩, hi⟩ := h
          exact ⟨rfl, hf, fun _ => ⟨last, rfl, (hinsts last _).mp ⟨is, his, hi⟩⟩⟩
    obtain ⟨rfl, hf, hi⟩ := hnil
    exact ⟨checkEdges_eq_nil_iff.mp hes, ⟨ps, hps, (hphis ps).mp ⟨fs, hfs, hf⟩⟩, hi⟩
  · rintro ⟨hes, ⟨ps, hps, hall⟩, hi⟩
    obtain ⟨fs, hfs, hf⟩ := (hphis ps).mpr hall
    refine ⟨[], checkEdges_eq_nil_iff.mpr hes, ps, hps, fs, hfs, ?_⟩
    by_cases hb : b = graphEntry
    · simp [hb, hf, pure_eq_ok]
    · obtain ⟨last, hlast, hi⟩ := hi hb
      obtain ⟨is, his, hnil⟩ := (hinsts last _).mpr hi
      simp only [if_neg hb, hlast, bind_eq_ok, pure_eq_ok]
      exact ⟨is, his, by simp [hf, hnil]⟩

theorem consistent_iff_computed : g.Consistent ↔ g.check.toOption = some [] := by
  unfold Consistent
  cases g.check <;> simp [Except.toOption]

structure Holds (g : FlowGraph) : Prop where
  blocks : ∀ b ∈ g.reversePostorder, BlockHolds g b
  initial : ∀ d ∈ g.initialDefinitions, ∃ n, g.nodes[d.index]? = some n ∧ ∀ u ∈ n.inputUses, UseHolds g d u

/-- The check finds nothing exactly where everything holds that it looks at. -/
theorem consistent_iff : g.Consistent ↔ g.Holds := by
  have hblocks : (∃ fs, g.reversePostorder.mapM g.checkBlock = .ok fs ∧ fs.flatten = []) ↔
      ∀ b ∈ g.reversePostorder, BlockHolds g b := by
    simp only [← checkBlock_eq_nil_iff, ← findings_eq_nil_iff, bind_eq_ok, pure_eq_ok]
  have hinitial : (∃ fs, g.initialDefinitions.mapM g.checkUses = .ok fs ∧ fs.flatten = []) ↔
      ∀ d ∈ g.initialDefinitions, ∃ n, g.nodes[d.index]? = some n ∧ ∀ u ∈ n.inputUses, UseHolds g d u := by
    simp only [← checkUses_eq_nil_iff, ← findings_eq_nil_iff, bind_eq_ok, pure_eq_ok]
  unfold Consistent check
  simp only [bind_eq_ok, pure_eq_ok, List.append_eq_nil_iff]
  constructor
  · rintro ⟨fs, hfs, is, his, hf, hi⟩
    exact ⟨hblocks.mp ⟨fs, hfs, hf⟩, hinitial.mp ⟨is, his, hi⟩⟩
  · rintro ⟨hb, hi⟩
    obtain ⟨fs, hfs, hf⟩ := hblocks.mpr hb
    obtain ⟨is, his, hi⟩ := hinitial.mpr hi
    exact ⟨fs, hfs, is, his, hf, hi⟩

end Midend.FlowGraph
