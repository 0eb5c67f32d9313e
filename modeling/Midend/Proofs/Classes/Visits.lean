import Mathlib.Logic.Relation
import Midend.Proofs.Classes.Tracking

/-! # The visits of class propagation

The pass is a sequence of visits to parameters, phis and instructions. A visit records a class or takes a
decided check out.
-/

namespace Midend.Classes

variable {ctx : Context} {start g g' : FlowGraph} {κ : InstId → Option ClassId}

/-! ## Verdicts -/

inductive Verdict where
  /-- The assertion holds. -/
  | passes
  /-- The test has an answer. -/
  | answers (answer : Bool)
deriving DecidableEq

/-- What a check makes of a value of class `cls`, if that decides it. -/
def outcome? (h : Hierarchy) (check : Inst) (cls : ClassId) : Option Verdict :=
  match check with
  | .assertAssignable type _ => if passesAssertion h type cls then some .passes else none
  | .unary .assertBoolean _ => if cls = .bool then some .passes else none
  | .instanceOf type negate _ => some (.answers (testAnswer h type negate cls))
  | _ => none

theorem outcome?_mapArgs {h : Hierarchy} {check : Inst} {cls : ClassId} (f : Nat → InstId → InstId) :
    outcome? h (check.mapArgs f) cls = outcome? h check cls := by
  cases check with
  | unary opcode value => cases opcode <;> rfl
  | _ => rfl

def enact (i : InstId) : Verdict → Edit Unit
  | .passes => do Edit.replaceByExisting i (← (← get).arg i 0)
  | .answers answer => do Edit.replaceByExisting i (← Edit.getConstant (.bool answer))

/-- A check is taken out where the class of its input decides it. -/
structure Taken (h : Hierarchy) (g g' : FlowGraph) (i : InstId) (check : Inst) (cls : ClassId) (v : Verdict) :
    Prop where
  inst : g.inst i = .ok check
  known : knownClass? g i = .ok (some cls)
  decided : outcome? h check cls = some v
  enacted : enact i v g = .ok ((), g')

theorem enact_passes {i v : InstId} (hv : g.arg i 0 = .ok v) :
    enact i .passes g = Edit.replaceByExisting i v g := by
  simp [enact, bind, StateT.bind, get, getThe, MonadStateOf.get, StateT.get, Except.bind, pure, liftM, monadLift,
    MonadLift.monadLift, StateT.lift, Except.pure, hv]

theorem enact_answers {i d : InstId} {answer : Bool} (hd : Edit.getConstant (.bool answer) g = .ok (d, g')) :
    enact i (.answers answer) g = Edit.replaceByExisting i d g' := by
  simp [enact, bind, StateT.bind, Except.bind, hd]

theorem eliminateCheck_spec {h : Hierarchy} {i : InstId} :
    Leads True g (eliminateCheck h i) fun changed g' => (changed = false ∧ g' = g) ∨
      (changed = true ∧ ∃ check cls v, Taken h g g' i check cls v) := by
  unfold eliminateCheck
  rw [Leads.bind_iff, Leads.get_iff, Leads.bind_iff, Leads.lift_iff]
  refine Yields.of_ok fun d hd => ?_
  have harg {v : InstId} (hv : d.args[0]? = some v) : g.arg i 0 = .ok v := by
    obtain ⟨n, hn, rfl⟩ := FlowGraph.inst_eq_ok.mp hd
    exact FlowGraph.arg_eq_ok.mpr ⟨n, hn, hv⟩
  split
  case h_1 type value =>
    rw [Leads.bind_iff, Leads.lift_iff]
    refine Yields.of_ok fun known hknown => ?_
    cases known with
    | none => exact .inl ⟨rfl, rfl⟩
    | some cls =>
      simp only
      split
      · rename_i hpass
        rw [Leads.bind_iff]
        refine Leads.of_ok fun _ g' hrun => .inr ⟨rfl, _, cls, .passes, hd, hknown, ?_, ?_⟩
        · simp [outcome?, hpass]
        · rw [enact_passes (harg rfl), hrun]
      · exact .inl ⟨rfl, rfl⟩
  case h_2 value =>
    rw [Leads.bind_iff, Leads.lift_iff]
    refine Yields.of_ok fun known hknown => ?_
    split
    · rename_i hbool
      rw [Leads.bind_iff]
      refine Leads.of_ok fun _ g' hrun => .inr ⟨rfl, _, .bool, .passes, hd, hbool ▸ hknown, ?_, ?_⟩
      · simp [outcome?]
      · rw [enact_passes (harg rfl), hrun]
    · exact .inl ⟨rfl, rfl⟩
  case h_3 type negate value =>
    rw [Leads.bind_iff, Leads.lift_iff]
    refine Yields.of_ok fun known hknown => ?_
    cases known with
    | none => exact .inl ⟨rfl, rfl⟩
    | some cls =>
      simp only [Leads.bind_iff]
      refine Leads.of_ok fun d g₁ hconst => Leads.of_ok fun _ g' hrun => ?_
      exact .inr ⟨rfl, _, cls, _, hd, hknown, rfl, by rw [enact_answers hconst, hrun]⟩
  case h_4 => exact .inl ⟨rfl, rfl⟩

/-! ## Runs -/

/-- One visit of a run that began with the graph `start`. -/
inductive Visit (ctx : Context) (start : FlowGraph) : FlowGraph → FlowGraph → Prop where
  | parameter {g g' : FlowGraph} {d : InstId} {index : Nat} {changed : Bool}
      (hd : g.inst d = .ok (.parameter index))
      (hvisit : Edit.setClass d (parameterClass ctx start.owner index) g = .ok (changed, g')) :
      Visit ctx start g g'
  | phi {g g' : FlowGraph} {d : InstId} {changed : Bool} (hd : g.isAlivePhi d = .ok true)
      (hvisit : visitPhi d g = .ok (changed, g')) : Visit ctx start g g'
  | inst {g g' : FlowGraph} {b : BlockId} {i : InstId} {changed : Bool}
      (hb : b ∈ start.reversePostorder) (hi : i ∈ start.insts b)
      (hvisit : visitInst ctx.hierarchy i g = .ok (changed, g')) : Visit ctx start g g'

def Visits (ctx : Context) (start : FlowGraph) : FlowGraph → FlowGraph → Prop :=
  Relation.ReflTransGen (Visit ctx start)

/-! ## Checks that are gone -/

/-- `i` is not listed as a user of any instruction, and keeps the inputs it had. -/
structure Retired (start : FlowGraph) (i : InstId) (d : Inst) (g : FlowGraph) : Prop where
  inst : g.inst i = .ok d
  unlisted : ∀ b ∈ start.reversePostorder, ∀ j ∈ start.insts b, ∀ n, g.nodes[j.index]? = some n →
    ∀ u ∈ n.inputUses, u.user ≠ i

theorem Retired.mapNodes {F : InstId → Node → Node} {i : InstId} {d : Inst} (h : Retired start i d g)
    (hinst : ∀ n, g.nodes[i.index]? = some n → (F i n).inst = n.inst)
    (huses : ∀ b ∈ start.reversePostorder, ∀ j ∈ start.insts b, ∀ n, g.nodes[j.index]? = some n →
      ∀ u ∈ (F j n).inputUses, u.user ≠ i) : Retired start i d (g.mapNodes F) where
  inst := by
    obtain ⟨n, hn, rfl⟩ := FlowGraph.inst_eq_ok.mp h.inst
    exact FlowGraph.inst_eq_ok.mpr ⟨F i n, by simp [hn], hinst n hn⟩
  unlisted := by
    intro b hb j hj n hn
    rw [FlowGraph.nodes_mapNodes] at hn
    obtain ⟨m, hm, rfl⟩ := Option.map_eq_some_iff.mp hn
    exact huses b hb j hj m hm

theorem Retired.redirected {b : BlockId} {i old new : InstId} {d : Inst} {n : Node} (h : Retired start i d g)
    (hb : b ∈ start.reversePostorder) (hold : old ∈ start.insts b) (hn : g.nodes[old.index]? = some n) :
    Retired start i d (g.redirected old new n.inputUses n.envUses) := by
  have hunlisted := h.unlisted b hb old hold n hn
  have hmap := h.mapNodes (F := fun j m => ((m.redirectInputs n.inputUses new j).redirectEnv n.envUses new
    j).takeOver old new n.inputUses n.envUses j) ?_ ?_
  · exact ⟨hmap.inst, hmap.unlisted⟩
  · intro m _
    have hargs : (m.inst.mapArgs fun k a => if ⟨i, k⟩ ∈ n.inputUses then new else a) = m.inst := by
      refine (Inst.mapArgs_congr fun k a _ => ?_).trans Inst.mapArgs_id
      exact if_neg fun hu => hunlisted _ hu rfl
    unfold Node.takeOver
    split_ifs <;> exact hargs
  · intro c hc j hj m hm u hu
    have hown := h.unlisted c hc j hj m hm
    unfold Node.takeOver at hu
    split_ifs at hu
    · simp at hu
    · exact (List.mem_append.mp hu).elim (hown u) (hunlisted u)
    · exact hown u hu

theorem Retired.removed {i j : InstId} {d : Inst} {n : Node} {b : BlockId} (h : Retired start i d g) :
    Retired start i d (g.removed j n b) := by
  have hmap := h.mapNodes (F := fun k m => if k = j then
    { m.dropUses (Edit.usesBy j n.inst.args) (Edit.usesBy j n.envValues) k with block := none }
    else m.dropUses (Edit.usesBy j n.inst.args) (Edit.usesBy j n.envValues) k) ?_ ?_
  · unfold FlowGraph.removed
    rw [FlowGraph.withNode, FlowGraph.mapNodes_mapNodes]
    exact ⟨hmap.inst, hmap.unlisted⟩
  · intro m _
    split <;> rfl
  · intro c hc k hk m hm u hu
    refine h.unlisted c hc k hk m hm u ?_
    split at hu <;> exact List.mem_of_mem_filter hu

theorem Retired.withInitial {i : InstId} {d c : Inst} (h : Retired start i d g) :
    Retired start i d (g.withInitial c) where
  inst := by
    obtain ⟨n, hn, rfl⟩ := FlowGraph.inst_eq_ok.mp h.inst
    exact FlowGraph.inst_eq_ok.mpr ⟨n, FlowGraph.nodes_withInitial_of_some hn, rfl⟩
  unlisted := by
    intro b hb j hj n hn u hu
    rw [FlowGraph.nodes_withInitial] at hn
    split at hn
    · obtain rfl := Option.some.inj hn
      simp at hu
    · exact h.unlisted b hb j hj n hn u hu

theorem retired_removed {i : InstId} {n : Node} {b : BlockId} (hn : g.nodes[i.index]? = some n)
    (hphi : n.inst.opcode ≠ .phi)
    (huses : ∀ b ∈ start.reversePostorder, ∀ j ∈ start.insts b, UsesSound g j) :
    Retired start i n.inst (g.removed i n b) := by
  have hnodes {j : InstId} {m : Node} (hm : g.nodes[j.index]? = some m) :
      ∃ m', (g.removed i n b).nodes[j.index]? = some m' ∧ m'.inst = m.inst ∧
        m'.inputUses = m.inputUses.filter fun u => (j, u) ∉ Edit.usesBy i n.inst.args := by
    simp only [FlowGraph.removed, FlowGraph.nodes_withLayout, FlowGraph.nodes_withNode,
      FlowGraph.nodes_mapNodes, hm, Option.map_some, Option.some.injEq, exists_eq_left']
    split <;> exact ⟨rfl, rfl⟩
  constructor
  · obtain ⟨m, hm, hinst, -⟩ := hnodes hn
    exact FlowGraph.inst_eq_ok.mpr ⟨m, hm, hinst⟩
  · intro c hc j hj m hm u hu huser
    obtain ⟨m₀, hm₀⟩ : ∃ m₀, g.nodes[j.index]? = some m₀ := by
      simp only [FlowGraph.removed, FlowGraph.nodes_withLayout, FlowGraph.nodes_withNode,
        FlowGraph.nodes_mapNodes, Option.map_map] at hm
      obtain ⟨m₀, hm₀, -⟩ := Option.map_eq_some_iff.mp hm
      exact ⟨m₀, hm₀⟩
    obtain ⟨m', hm', -, huses'⟩ := hnodes hm₀
    obtain rfl : m = m' := by simpa [hm] using hm'
    rw [huses'] at hu
    obtain ⟨hu, hkept⟩ := List.mem_filter.mp hu
    obtain ⟨k, hk, hdead | harg⟩ := huses c hc j hj m₀ hm₀ u hu
    · obtain rfl : n = k := by simpa [huser, hn] using hk
      exact hphi hdead.1
    · obtain rfl : n = k := by simpa [huser, hn] using hk
      simp only [decide_not, Bool.not_eq_true', decide_eq_false_iff_not] at hkept
      refine hkept (List.mem_map.mpr ⟨(j, u.index), List.mk_mem_zipIdx_iff_getElem?.mpr harg, ?_⟩)
      rw [← huser]

/-- `i` is retired as the check it was, and its input is known to have had the class `cls`. -/
def Gone (start : FlowGraph) (κ : InstId → Option ClassId) (i : InstId) (check : Inst) (cls : ClassId)
    (g : FlowGraph) : Prop :=
  ∃ f x, Retired start i (check.mapArgs f) g ∧ (check.mapArgs f).args[0]? = some x ∧ κ x = some cls

/-! ## What a visit does -/

theorem setClass_spec {d : InstId} {c : ClassId} :
    Leads True g (Edit.setClass d c) fun _ g' => ∃ n, g.nodes[d.index]? = some n ∧
      g' = g.withNode d fun n => { n with cls := some c } := by
  unfold Edit.setClass
  rw [Leads.bind_iff, Leads.get_iff, Leads.bind_iff, Leads.lift_iff]
  refine Yields.of_ok fun old hold => ?_
  obtain ⟨n, hn, -⟩ := classOf_eq_ok.mp hold
  rw [Leads.bind_iff, Leads.modifyNode_iff]
  exact ⟨fun _ => ⟨n, hn, rfl⟩, fun _ => trivial⟩

theorem replaceByExisting_spec {b : BlockId} {i new d : InstId} {n : Node} {cls : ClassId}
    (h : Tracked ctx start κ g) (hb : b ∈ start.reversePostorder) (hi : i ∈ start.insts b)
    (hn : g.nodes[i.index]? = some n) (hphi : n.inst.opcode ≠ .phi) (hd : n.inst.args[0]? = some d)
    (hcls : κ d = some cls) (hκ : ∀ c, κ i = some c → κ new = some c) :
    Leads True g (Edit.replaceByExisting i new)
      fun _ g' => Tracked ctx start κ g' ∧ Gone start κ i n.inst cls g' := by
  have hremove {g₁ : FlowGraph} {n₁ : Node} {f : Nat → InstId → InstId} {x : InstId}
      (h₁ : Tracked ctx start κ g₁) (hn₁ : g₁.nodes[i.index]? = some n₁) (hf : n₁.inst = n.inst.mapArgs f)
      (hx : n₁.inst.args[0]? = some x) (hκx : κ x = some cls) : Leads True g₁ (Edit.remove i)
        fun _ g' => Tracked ctx start κ g' ∧ Gone start κ i n.inst cls g' := by
    refine Leads.remove_of_ok.mono fun _ g₂ hg₂ => ?_
    obtain ⟨m, b, hm, -, rfl⟩ := hg₂
    obtain rfl : n₁ = m := by simpa [hn₁] using hm
    have hretired := retired_removed (b := b) hn₁ (by rwa [hf, Inst.opcode_mapArgs]) h₁.uses
    exact ⟨h₁.removed, f, x, hf ▸ hretired, hf ▸ hx, hκx⟩
  unfold Edit.replaceByExisting
  rw [Leads.bind_iff]
  refine Leads.replaceUses_of_ok.mono fun _ g₁ hg₁ => ?_
  obtain ⟨-, rfl⟩ | ⟨m, hm, rfl⟩ := hg₁
  · exact hremove h hn Inst.mapArgs_id.symm hd hcls
  · obtain rfl : n = m := by simpa [hn] using hm
    have hnode : (g.redirected i new n.inputUses n.envUses).nodes[i.index]? =
        some (((n.redirectInputs n.inputUses new i).redirectEnv n.envUses new i).takeOver i new n.inputUses
          n.envUses i) := by
      simp [FlowGraph.redirected, hn]
    refine hremove (x := if ⟨i, 0⟩ ∈ n.inputUses then new else d) (h.redirected hn (h.uses b hb i hi) hκ) hnode
      (f := fun k a => if ⟨i, k⟩ ∈ n.inputUses then new else a) (by simp [Node.takeOver]; rfl) ?_ ?_
    · simp [Node.takeOver, Node.redirectEnv, Node.redirectInputs, hd]
    · split
      · -- Only an input that is `i` itself can be among the uses of `i`.
        rename_i hu
        obtain ⟨k, hk, hdead | harg⟩ := h.uses b hb i hi n hn ⟨i, 0⟩ hu
        · obtain rfl : n = k := by simpa [hn] using hk
          exact absurd hdead.1 hphi
        · obtain rfl : n = k := by simpa [hn] using hk
          obtain rfl : d = i := by simpa [hd] using harg
          exact hκ cls hcls
      · exact hcls

theorem knownClass?_eq_ok {i : InstId} {c : ClassId} (hr : g.reaching = [])
    (h : knownClass? g i = .ok (some c)) : IsKnown c ∧ ∃ d, g.arg i 0 = .ok d ∧ g.classOf d = .ok c := by
  simp only [knownClass?, FlowGraph.useClass, FlowGraph.reachingClass?, hr, List.lookup_nil, bind_eq_ok,
    pure_eq_ok] at h
  obtain ⟨c', ⟨d, hd, hc'⟩, h⟩ := h
  split_ifs at h with hc
  obtain rfl : c' = c := by simpa using h
  simp only [Bool.or_eq_true, decide_eq_true_eq, not_or] at hc
  exact ⟨hc, d, hd, hc'⟩

theorem enact_spec {b : BlockId} {i d : InstId} {check : Inst} {cls : ClassId} {v : Verdict}
    (h : Tracked ctx start κ g) (hb : b ∈ start.reversePostorder) (hi : i ∈ start.insts b)
    (hcheck : g.inst i = .ok check) (hd : g.arg i 0 = .ok d) (hknown : IsKnown cls)
    (hcls : g.classOf d = .ok cls) (hv : outcome? ctx.hierarchy check cls = some v) :
    Leads True g (enact i v) fun _ g' => ∃ κ', Extends κ κ' ∧ Tracked ctx start κ' g' ∧
      Gone start κ' i check cls g' := by
  obtain ⟨n, hn, rfl⟩ := FlowGraph.inst_eq_ok.mp hcheck
  obtain ⟨m, hm, rfl⟩ := classOf_eq_ok.mp hcls
  have harg : n.inst.args[0]? = some d := by
    obtain ⟨m, hm, harg⟩ := FlowGraph.arg_eq_ok.mp hd
    obtain rfl : n = m := by simpa [hn] using hm
    exact harg
  have hκd : κ d = some (current m) := h.known d m hm hknown
  have hfixed {c : ClassId} (hc : κ i = some c) (hphi : n.inst.isPhi = false) :
      IsKnown c ∧ fixedClass ctx start.owner n.inst = c := ⟨(h.keeps i c hc).1, h.fixed i c n hc hn hphi⟩
  have hpass (hphi : n.inst.opcode ≠ .phi) (hκ : ∀ c, κ i = some c → κ d = some c) :
      Leads True g (enact i .passes) fun _ g' => ∃ κ', Extends κ κ' ∧ Tracked ctx start κ' g' ∧
        Gone start κ' i n.inst (current m) g' := by
    refine Leads.of_ok fun _ g' hrun => ?_
    rw [enact_passes hd] at hrun
    exact ⟨κ, .refl κ, (replaceByExisting_spec h hb hi hn hphi harg hκd hκ).post_of_ok hrun⟩
  unfold outcome? at hv
  split at hv
  case h_1 type value hinst =>
    -- An assertion of a type is never known to have a class.
    obtain rfl : v = .passes := by split at hv <;> simp_all
    refine hpass (by simp [hinst, Inst.opcode]) fun c hc => ?_
    obtain ⟨hc, rfl⟩ := hfixed hc (by simp [hinst, Inst.isPhi])
    exact absurd (by simp [hinst, fixedClass, Inst.resultClass]) hc.1
  case h_2 value hinst =>
    obtain ⟨hbool, rfl⟩ : current m = .bool ∧ v = .passes := by split at hv <;> simp_all
    refine hpass (by simp [hinst, Inst.opcode]) fun c hc => ?_
    obtain ⟨-, rfl⟩ := hfixed hc (by simp [hinst, Inst.isPhi])
    rw [hκd, hbool, hinst]
    rfl
  case h_3 type negate value hinst =>
    obtain rfl := Option.some.inj hv
    have hκ {c : ClassId} (hc : κ i = some c) : c = .bool := by
      obtain ⟨-, rfl⟩ := hfixed hc (by simp [hinst, Inst.isPhi])
      rw [hinst]
      rfl
    have hphi : n.inst.opcode ≠ .phi := by simp [hinst, Inst.opcode]
    have hbool : IsKnown .bool := by decide
    rw [enact, Leads.bind_iff]
    refine (Leads.getConstant fun hfault => absurd trivial hfault).mono fun e g₁ hg₁ => ?_
    obtain ⟨rfl, -, k, c, hk, hconst, hsame⟩ | ⟨rfl, rfl⟩ := hg₁
    · have hclass : current k = .bool := by
        rw [h.plain e k hk (by simp [hconst, IsPlain, Inst.opcode]), hconst]
        cases c <;> first | rfl | simp [BEq.beq, Constant.same] at hsame
      have hκe : κ e = some .bool := hclass ▸ h.known e k hk (hclass ▸ hbool)
      refine (replaceByExisting_spec h hb hi hn hphi harg hκd fun c hc => ?_).mono fun _ g' hg' =>
        ⟨κ, .refl κ, hg'⟩
      rw [hκ hc, hκe]
    · obtain ⟨hext, htracked⟩ := h.withInitial (c := .bool (testAnswer ctx.hierarchy type negate (current m))) hbool
      refine (replaceByExisting_spec htracked hb hi (FlowGraph.nodes_withInitial_of_some hn) hphi harg
        (hext _ _ hκd) fun c hc => ?_).mono fun _ g' hg' => ⟨_, hext, hg'⟩
      have hc : c = .bool := by
        unfold learn at hc
        split at hc
        · exact (Option.some.inj hc).symm
        · exact hκ hc
      simp [learn, hc, hbool, Constant.classId]
  case h_4 => simp at hv

theorem visitPhi_spec {d : InstId} : Leads True g (visitPhi d) fun _ g' =>
    ∃ n, g.nodes[d.index]? = some n ∧ ∃ cs, List.Forall₂ (fun x c => g.classOf x = .ok c) n.inst.args cs ∧
      ∃ r, Edit.setClass d (phiClass cs) g = .ok (r, g') := by
  unfold visitPhi
  simp only [Leads.bind_iff, Leads.get_iff, Leads.lift_iff, Leads.mapM_lift_iff]
  refine Yields.of_ok fun as has => ?_
  obtain ⟨n, hn, rfl⟩ := FlowGraph.args_eq_ok.mp has
  refine Yields.of_ok fun cs hcs => ?_
  rw [mapM_eq_ok] at hcs
  refine Leads.of_ok fun r g' hrun => ?_
  exact ⟨n, hn, cs, hcs, r, hrun⟩

theorem visitInst_spec {h : Hierarchy} {i : InstId} : Leads True g (visitInst h i) fun _ g' =>
    (g' = g) ∨
    (∃ check cls v, Taken h g g' i check cls v) ∨
    (∃ n r, g.nodes[i.index]? = some n ∧ Edit.setClass i n.inst.resultClass g = .ok (r, g')) := by
  unfold visitInst
  rw [Leads.bind_iff, Leads.get_iff, Leads.ite_iff]
  refine ⟨fun _ => .inl rfl, fun _ => ?_⟩
  rw [Leads.bind_iff]
  refine eliminateCheck_spec.mono fun changed g₁ hg₁ => ?_
  obtain ⟨rfl, rfl⟩ | ⟨rfl, hcheck⟩ := hg₁
  · simp only [Bool.false_eq_true, if_false, Leads.bind_iff, Leads.get_iff, Leads.lift_iff]
    refine Yields.of_ok fun d hd => ?_
    obtain ⟨n, hn, rfl⟩ := FlowGraph.inst_eq_ok.mp hd
    rw [Leads.ite_iff]
    exact ⟨fun _ => Leads.of_ok fun r g' hrun => .inr (.inr ⟨n, r, hn, hrun⟩), fun _ => .inl rfl⟩
  · exact .inr (.inl hcheck)

theorem Visit.tracked (hvisit : Visit ctx start g g') (h : Tracked ctx start κ g) :
    ∃ κ', Extends κ κ' ∧ Tracked ctx start κ' g' := by
  have hrecord {d : InstId} {n : Node} {c : ClassId} {changed : Bool} (hn : g.nodes[d.index]? = some n)
      (hc : MayRecord ctx start κ d n c) (hrun : Edit.setClass d c g = .ok (changed, g')) :
      ∃ κ', Extends κ κ' ∧ Tracked ctx start κ' g' := by
    obtain ⟨m, hm, rfl⟩ := setClass_spec.post_of_ok hrun
    exact ⟨_, hc.extends, h.record hn hc⟩
  cases hvisit with
  | @parameter d index changed hd hvisit =>
    obtain ⟨n, hn, hinst⟩ := FlowGraph.inst_eq_ok.mp hd
    refine hrecord hn ⟨fun c₀ hc₀ => .inl ?_, fun _ _ => ?_, fun _ halive => ?_, fun hplain => ?_⟩ hvisit
    · have hfixed := h.fixed d c₀ n hc₀ hn (by simp [hinst, Inst.isPhi])
      rw [← hfixed, hinst]
      rfl
    · rw [hinst]
      rfl
    · simp [hinst, Inst.isAlivePhi] at halive
    · simp [hinst, IsPlain, Inst.opcode] at hplain
  | @phi d changed hd hvisit =>
    obtain ⟨n, hn, cs, hcs, r, hrun⟩ := visitPhi_spec.post_of_ok hvisit
    obtain ⟨n', hn', halive⟩ := FlowGraph.isAlivePhi_eq_ok.mp hd
    obtain rfl : n = n' := by simpa [hn] using hn'
    have hphi : n.inst.isPhi = true := Inst.isPhi_of_isAlivePhi halive
    refine hrecord hn ⟨fun c₀ hc₀ => ?_, fun _ hno => ?_, fun hknown _ => ?_, fun hplain => ?_⟩ hrun
    · -- The input that `c₀` came from still has it, or has given it up.
      obtain ⟨x, hx, hκx⟩ := h.fed d c₀ n hc₀ hn halive
      obtain ⟨hc₀, m, hm, hkeeps⟩ := h.keeps x c₀ hκx
      obtain ⟨c, hc, hclass⟩ := forall₂_mem_left hcs hx
      obtain ⟨m', hm', rfl⟩ := classOf_eq_ok.mp hclass
      obtain rfl : m = m' := by simpa [hm] using hm'
      exact phiClass_keeps hc₀.2 hc hkeeps
    · simp [hphi] at hno
    · obtain ⟨x, hx, hclass⟩ := forall₂_mem_right hcs (phiClass_mem hknown)
      obtain ⟨m, hm, hcur⟩ := classOf_eq_ok.mp hclass
      exact ⟨x, hx, hcur ▸ h.known x m hm (hcur ▸ hknown)⟩
    · exact absurd (Inst.opcode_of_isPhi hphi) hplain.1
  | @inst b i changed hb hi hvisit =>
    obtain rfl | ⟨check, cls, v, htaken⟩ | ⟨n, r, hn, hrun⟩ := visitInst_spec.post_of_ok hvisit
    · exact ⟨κ, .refl κ, h⟩
    · obtain ⟨hcls, d, hd, hclass⟩ := knownClass?_eq_ok h.reaching htaken.known
      obtain ⟨κ', hext, htracked, -⟩ :=
        (enact_spec h hb hi htaken.inst hd hcls hclass htaken.decided).post_of_ok htaken.enacted
      exact ⟨κ', hext, htracked⟩
    · refine hrecord hn ⟨fun c₀ hc₀ => ?_, fun hknown hphi => ?_, fun hknown halive => ?_, fun _ => rfl⟩ hrun
      · cases hphi : n.inst.isPhi with
        | true => exact .inr (Inst.resultClass_of_isPhi hphi)
        | false =>
          rw [← h.fixed i c₀ n hc₀ hn hphi]
          exact resultClass_eq_fixedClass_or n.inst
      · exact ((resultClass_eq_fixedClass_or n.inst).resolve_right hknown.1).symm
      · exact absurd (Inst.resultClass_of_isPhi (Inst.isPhi_of_isAlivePhi halive)) hknown.1

theorem Visits.tracked (hrun : Visits ctx start g g') (h : Tracked ctx start κ g) :
    ∃ κ', Extends κ κ' ∧ Tracked ctx start κ' g' := by
  induction hrun with
  | refl => exact ⟨κ, .refl κ, h⟩
  | tail _ hvisit ih =>
    obtain ⟨κ₁, hext₁, h₁⟩ := ih
    obtain ⟨κ₂, hext₂, h₂⟩ := hvisit.tracked h₁
    exact ⟨κ₂, hext₁.trans hext₂, h₂⟩

/-! ## What a visit takes out -/

/-- Blocks keep their order and get no new instructions. -/
structure Shrinks (g g' : FlowGraph) : Prop where
  postorder : g'.postorder = g.postorder
  insts : ∀ b, g'.insts b ⊆ g.insts b

theorem Shrinks.refl (g : FlowGraph) : Shrinks g g := ⟨rfl, fun _ => List.Subset.refl _⟩

theorem Shrinks.trans {g₁ g₂ g₃ : FlowGraph} (h : Shrinks g₁ g₂) (h' : Shrinks g₂ g₃) : Shrinks g₁ g₃ :=
  ⟨h'.postorder.trans h.postorder, fun b => List.Subset.trans (h'.insts b) (h.insts b)⟩

structure Drops (i : InstId) (g g' : FlowGraph) : Prop where
  shrinks : Shrinks g g'
  placed : ∀ j, j ≠ i → g'.isPlaced j = g.isPlaced j

theorem drops_of_layout_eq {i : InstId} (hp : g'.postorder = g.postorder) (hl : g'.layout = g.layout) :
    Drops i g g' :=
  ⟨⟨hp, fun b => by simp [FlowGraph.insts, hl]⟩, fun j _ => by simp [FlowGraph.isPlaced, hl]⟩

theorem Drops.trans {i : InstId} {g₁ g₂ g₃ : FlowGraph} (h : Drops i g₁ g₂) (h' : Drops i g₂ g₃) :
    Drops i g₁ g₃ :=
  ⟨h.shrinks.trans h'.shrinks, fun j hj => (h'.placed j hj).trans (h.placed j hj)⟩

theorem drops_removed {i : InstId} {n : Node} {b : BlockId} : Drops i g (g.removed i n b) := by
  refine ⟨⟨rfl, fun c => ?_⟩, fun j hj => ?_⟩
  · show (g.layout.unplace i b).insts c ⊆ g.layout.insts c
    rw [Layout.insts_unplace]
    split
    · rename_i hcb
      exact hcb ▸ List.erase_subset
    · exact List.Subset.refl _
  · show (g.layout.unplace i b).isPlaced j = g.layout.isPlaced j
    rw [Bool.eq_iff_iff, Layout.isPlaced_iff, Layout.isPlaced_iff, Layout.home?_unplace, if_neg hj]

theorem replaceByExisting_drops {i new : InstId} :
    Leads True g (Edit.replaceByExisting i new) fun _ g' => Drops i g g' := by
  unfold Edit.replaceByExisting
  rw [Leads.bind_iff]
  refine Leads.replaceUses_of_ok.mono fun _ g₁ hg₁ => ?_
  have h₁ : Drops i g g₁ := by
    obtain ⟨-, rfl⟩ | ⟨n, -, rfl⟩ := hg₁ <;> exact drops_of_layout_eq rfl rfl
  refine Leads.remove_of_ok.mono fun _ g₂ hg₂ => ?_
  obtain ⟨n, b, -, -, rfl⟩ := hg₂
  exact h₁.trans drops_removed

theorem enact_drops {i : InstId} {v : Verdict} : Leads True g (enact i v) fun _ g' => Drops i g g' := by
  cases v with
  | passes =>
    simp only [enact, Leads.bind_iff, Leads.get_iff, Leads.lift_iff]
    exact Yields.of_ok fun d _ => replaceByExisting_drops
  | answers answer =>
    rw [enact, Leads.bind_iff]
    refine (Leads.getConstant fun hfault => absurd trivial hfault).mono fun e g₁ hg₁ => ?_
    have h₁ : Drops i g g₁ := by
      obtain ⟨rfl, -⟩ | ⟨-, rfl⟩ := hg₁ <;> exact drops_of_layout_eq rfl rfl
    exact replaceByExisting_drops.mono fun _ g' hg' => h₁.trans hg'

theorem Visit.drops (hvisit : Visit ctx start g g') :
    Shrinks g g' ∧ ∀ i, g.isPlaced i = true → g'.isPlaced i = false →
      (∃ b ∈ start.reversePostorder, i ∈ start.insts b) ∧
        ∃ check cls v, Taken ctx.hierarchy g g' i check cls v := by
  have hclass {d : InstId} {c : ClassId} {r : Bool} (hrun : Edit.setClass d c g = .ok (r, g')) :
      Shrinks g g' ∧ ∀ i, g'.isPlaced i = g.isPlaced i := by
    obtain ⟨n, -, rfl⟩ := setClass_spec.post_of_ok hrun
    exact ⟨⟨rfl, fun b => List.Subset.refl _⟩, fun i => rfl⟩
  cases hvisit with
  | parameter hd hvisit =>
    obtain ⟨hshrinks, hplaced⟩ := hclass hvisit
    exact ⟨hshrinks, fun i hin hout => by simp [hplaced, hin] at hout⟩
  | phi hd hvisit =>
    obtain ⟨n, -, cs, -, r, hrun⟩ := visitPhi_spec.post_of_ok hvisit
    obtain ⟨hshrinks, hplaced⟩ := hclass hrun
    exact ⟨hshrinks, fun i hin hout => by simp [hplaced, hin] at hout⟩
  | @inst b i changed hb hi hvisit =>
    obtain rfl | ⟨check, cls, v, htaken⟩ | ⟨n, r, hn, hrun⟩ := visitInst_spec.post_of_ok hvisit
    · exact ⟨.refl g', fun i hin hout => by simp [hin] at hout⟩
    · have hdrops := enact_drops.post_of_ok htaken.enacted
      refine ⟨hdrops.shrinks, fun j hin hout => ?_⟩
      obtain rfl : j = i := by
        by_contra hj
        simp [hdrops.placed j hj, hin] at hout
      exact ⟨⟨b, hb, hi⟩, check, cls, v, htaken⟩
    · obtain ⟨hshrinks, hplaced⟩ := hclass hrun
      exact ⟨hshrinks, fun i hin hout => by simp [hplaced, hin] at hout⟩

theorem Retired.replaceByExisting {b : BlockId} {i j new : InstId} {d : Inst} (h : Retired start i d g)
    (hb : b ∈ start.reversePostorder) (hj : j ∈ start.insts b) :
    Leads True g (Edit.replaceByExisting j new) fun _ g' => Retired start i d g' := by
  unfold Edit.replaceByExisting
  rw [Leads.bind_iff]
  refine Leads.replaceUses_of_ok.mono fun _ g₁ hg₁ => ?_
  have h₁ : Retired start i d g₁ := by
    obtain ⟨-, rfl⟩ | ⟨n, hn, rfl⟩ := hg₁
    · exact h
    · exact h.redirected hb hj hn
  refine Leads.remove_of_ok.mono fun _ g₂ hg₂ => ?_
  obtain ⟨n, b, -, -, rfl⟩ := hg₂
  exact h₁.removed

theorem Retired.enact {b : BlockId} {i j : InstId} {d : Inst} {v : Verdict} (h : Retired start i d g)
    (hb : b ∈ start.reversePostorder) (hj : j ∈ start.insts b) :
    Leads True g (enact j v) fun _ g' => Retired start i d g' := by
  cases v with
  | passes =>
    simp only [Classes.enact, Leads.bind_iff, Leads.get_iff, Leads.lift_iff]
    exact Yields.of_ok fun x _ => h.replaceByExisting hb hj
  | answers answer =>
    rw [Classes.enact, Leads.bind_iff]
    refine (Leads.getConstant fun hfault => absurd trivial hfault).mono fun e g₁ hg₁ => ?_
    have h₁ : Retired start i d g₁ := by
      obtain ⟨rfl, -⟩ | ⟨-, rfl⟩ := hg₁
      · exact h
      · exact h.withInitial
    exact h₁.replaceByExisting hb hj

theorem Visit.retired {i : InstId} {d : Inst} (hvisit : Visit ctx start g g') (h : Retired start i d g) :
    Retired start i d g' := by
  have hclass {j : InstId} {c : ClassId} {r : Bool} (hrun : Edit.setClass j c g = .ok (r, g')) :
      Retired start i d g' := by
    obtain ⟨n, -, rfl⟩ := setClass_spec.post_of_ok hrun
    refine h.mapNodes (fun m _ => by split <;> rfl) fun b hb k hk m hm u hu => ?_
    refine h.unlisted b hb k hk m hm u ?_
    split at hu <;> exact hu
  cases hvisit with
  | parameter hd hvisit => exact hclass hvisit
  | phi hd hvisit =>
    obtain ⟨n, -, cs, -, r, hrun⟩ := visitPhi_spec.post_of_ok hvisit
    exact hclass hrun
  | inst hb hi hvisit =>
    obtain rfl | ⟨check, cls, v, htaken⟩ | ⟨n, r, hn, hrun⟩ := visitInst_spec.post_of_ok hvisit
    · exact h
    · exact (h.enact hb hi).post_of_ok htaken.enacted
    · exact hclass hrun

theorem Visits.retired {i : InstId} {d : Inst} (hrun : Visits ctx start g g') (h : Retired start i d g) :
    Retired start i d g' := by
  induction hrun with
  | refl => exact h
  | tail _ hvisit ih => exact hvisit.retired ih

/-! ## The whole pass -/

structure Reached (ctx : Context) (start g : FlowGraph) : Prop where
  visits : Visits ctx start start g
  shrinks : Shrinks start g

theorem Reached.visit (h : Reached ctx start g) (hvisit : Visit ctx start g g') : Reached ctx start g' :=
  ⟨h.visits.tail hvisit, h.shrinks.trans hvisit.drops.1⟩

theorem visitParameters_reached :
    Leads True start (visitParameters ctx) fun _ g' => Reached ctx start g' := by
  unfold visitParameters
  rw [Leads.bind_iff, Leads.get_iff]
  refine Leads.anyChange_of_forall (Reached ctx start) ⟨.refl, .refl start⟩ fun d _ g hg => ?_
  simp only [Leads.bind_iff, Leads.get_iff, Leads.lift_iff]
  refine Yields.of_ok fun inst hd => ?_
  split
  · exact Leads.of_ok fun r g' hrun => hg.visit (.parameter hd hrun)
  · exact hg

theorem visitBlocks_reached (hg : Reached ctx start g) :
    Leads True g (visitBlocks ctx.hierarchy) fun _ g' => Reached ctx start g' := by
  unfold visitBlocks
  rw [Leads.bind_iff, Leads.get_iff]
  refine Leads.anyChange_of_forall (Reached ctx start) hg fun b hb g₁ hg₁ => ?_
  have hb : b ∈ start.reversePostorder := by
    simpa [FlowGraph.reversePostorder, hg.shrinks.postorder] using hb
  simp only [Leads.bind_iff, Leads.get_iff, Leads.lift_iff, Leads.pure_iff]
  refine Yields.of_ok fun phis _ => ?_
  refine (Leads.anyChange_of_forall (Reached ctx start) hg₁ fun d _ g₂ hg₂ => ?_).mono fun _ g₂ hg₂ => ?_
  · simp only [Leads.bind_iff, Leads.get_iff, Leads.lift_iff]
    refine Yields.of_ok fun alive hd => ?_
    rw [Leads.ite_iff]
    refine ⟨fun halive => Leads.of_ok fun r g' hrun => hg₂.visit (.phi (halive ▸ hd) hrun), fun _ => hg₂⟩
  · refine Leads.anyChange_of_forall (Reached ctx start) hg₂ fun i hi g₃ hg₃ => ?_
    exact Leads.of_ok fun r g' hrun => hg₃.visit (.inst hb (hg₂.shrinks.insts b hi) hrun)

theorem settle_reached {rounds : Nat} (hg : Reached ctx start g) :
    Leads True g (settle ctx.hierarchy rounds) fun _ g' => Reached ctx start g' := by
  induction rounds generalizing g with
  | zero => exact trivial
  | succ rounds ih =>
    rw [settle, Leads.bind_iff]
    refine (visitBlocks_reached hg).mono fun changed g₁ hg₁ => ?_
    rw [Leads.ite_iff]
    refine ⟨fun _ => ?_, fun _ => hg₁⟩
    rw [Leads.bind_iff, Leads.discard_iff]
    exact (ih hg₁).mono fun _ g' hg' => hg'

/-- The pass is a sequence of visits. -/
theorem propagateClasses_reached :
    Leads True start (propagateClasses ctx) fun _ g' => Reached ctx start g' := by
  unfold propagateClasses
  rw [Leads.bind_iff]
  refine visitParameters_reached.mono fun _ g hg => ?_
  rw [Leads.bind_iff, Leads.get_iff, Leads.bind_iff]
  exact (settle_reached hg).mono fun _ g' hg' => hg'

end Midend.Classes
