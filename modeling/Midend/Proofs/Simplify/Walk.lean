import Midend.Proofs.Execution.Since
import Midend.Proofs.Loads.Replacing
import Midend.Proofs.Naming.Rewrites

/-! # The visits of simplification

Each visit takes an instruction out, lets one of its inputs stand in for it, or moves a comparison into a branch. After
any number of visits, what an instruction reads is still evaluated before it on every path.
-/

namespace Midend.Simplify

open Midend.Flow FlowGraph Execution
open Loads (UsesRight SameShape Renumbered Traced instead)

variable {g h h' : FlowGraph} {H : Hierarchy} {a d i u branch compare : InstId} {b : BlockId} {n : Node}
  {c tested : Comparison}

/-! ## What the visits leave -/

/-- `a` may be read at `u`: it is where it was, and is evaluated before `u`. -/
def Readable (g h : FlowGraph) (a u : InstId) : Prop :=
  (g.isPlaced a = true → h.isPlaced a = true) ∧ (a ∈ g.initialDefinitions ∨ Precedes g a u)

theorem Readable.congr (hr : Readable g h a u) (hs : SameShape h h') : Readable g h' a u := by
  unfold Readable FlowGraph.isPlaced at *
  rwa [hs.layout]

theorem Readable.trans (hg : Definite g) (hr : Readable g h a d) (hr' : Readable g h d u) (hd : d ∈ g.insts b) :
    Readable g h a u :=
  ⟨hr.1, hr.2.imp_right fun h => hg.precedes_trans h (hr'.2.resolve_left (hg.not_initial hd))⟩

theorem Readable.ne (hg : Definite g) (hr : Readable g h a u) (hu : u ∈ g.insts b) : a ≠ u := by
  rintro rfl
  exact hg.not_precedes_self (hr.2.resolve_left (hg.not_initial hu))

/-- `h` is `g` with some instructions taken out, and what the others read is evaluated before them. -/
structure Simplified (g h : FlowGraph) : Prop where
  thinned : Thinned g h
  uses : UsesRight g h
  reads : ∀ b u n a, g.Reachable b → u ∈ h.insts b → h.nodes[u.index]? = some n → a ∈ n.inst.args → Readable g h a u

namespace Simplified

theorem of_definite (hg : Definite g) : Simplified g g where
  thinned := .of_definite hg
  uses := .of_definite hg
  reads _ _ _ _ hb hu hn ha := ⟨id, hg.precedes_input hb hu hn ha⟩

variable (hg : Definite g) (hs : Simplified g h)

include hs

theorem step (hshape : SameShape h h') (hnodes : Changes h h' fun _ n n' => n.inst.SameKind n'.inst)
    (huses : UsesRight g h') (hreads : ∀ b u n n' a, g.Reachable b → u ∈ h.insts b → h.nodes[u.index]? = some n →
    h'.nodes[u.index]? = some n' →
      a ∈ n'.inst.args → Readable g h a u) : Simplified g h' where
  thinned :=
    { outline := hs.thinned.outline.congr hshape
      blocks := hshape.blocks.trans hs.thinned.blocks
      nodes := hs.thinned.nodes.trans hnodes fun _ _ _ _ => Inst.SameKind.trans
      ends b i n hi hn hterm := by
        unfold FlowGraph.isPlaced
        rw [hshape.layout]
        exact hs.thinned.ends b i n hi hn hterm }
  uses := huses
  reads b u n' a hb hu hn' ha := by
    obtain ⟨n, hn, -⟩ := hshape.nodes.node u n' hn'
    unfold FlowGraph.insts at hu
    rw [hshape.layout] at hu
    exact (hreads b u n n' a hb hu hn hn' ha).congr hshape

theorem renumbered (hr : Renumbered h h') : Simplified g h' := by
  refine hs.step hr.1 (hr.2.mono fun _ _ _ hc => hc.1 ▸ .refl) (hs.uses.congr hr.1 (hr.2.mono fun _ _ _ hc =>
    ⟨by rw [hc.1], hc.2.1⟩)) fun b u n n' a hb hu hn hn' ha => ?_
  obtain ⟨m, hm, hinst, -⟩ := hr.2.node u n' hn'
  obtain rfl := Option.some_inj.mp (hn.symm.trans hm)
  exact hs.reads b u n a hb hu hn (hinst ▸ ha)

theorem rewired {k : Nat} (hn : h.nodes[i.index]? = some n) (ha : n.inst.args[k]? = some a)
    (hd : d.index < h.nodes.size) (hread : Readable g h d i) : Simplified g (h.rewired i k a d) := by
  have hchange := @Loads.changes_rewired h d i a k
  refine hs.step Loads.sameShape_rewired (hchange.mono fun j m m' hc => ?_) (hs.uses.rewired hn ha hd)
    fun b u m m' e hb hu hm hm' he => ?_
  · rw [hc.1]
    split
    · exact .mapArgs
    · exact .refl
  · obtain ⟨o, ho, hinst, -⟩ := hchange.node u m' hm'
    obtain rfl := Option.some_inj.mp (hm.symm.trans ho)
    obtain ⟨l, hl⟩ := List.mem_iff_getElem?.mp he
    rw [Loads.getElem?_args_rewired hinst] at hl
    split at hl
    case isTrue hset =>
      obtain ⟨-, -, rfl⟩ := Option.map_eq_some_iff.mp hl
      exact hset.1 ▸ hread
    case isFalse => exact hs.reads b u m e hb hu hm (List.mem_of_getElem? hl)

theorem compared {f : Comparison → Comparison} (hf : ∀ c, (f c).left = c.left ∧ (f c).right = c.right)
    (hn : h.nodes[i.index]? = some n) (hkind : n.inst.SameKind (n.inst.mapComparison f)) :
    Simplified g (h.withNode i fun m => { m with inst := m.inst.mapComparison f }) := by
  have hargs (e : Inst) : (e.mapComparison f).args = e.args := by
    cases e <;> simp [Inst.mapComparison, Inst.args, hf]
  have hchange : Changes h (h.withNode i fun m => { m with inst := m.inst.mapComparison f }) fun j m m' =>
      (m'.inst.args = m.inst.args ∧ m'.inputUses = m.inputUses) ∧ m'.block = m.block ∧
        (m'.inst = m.inst ∨ j = i ∧ m'.inst = m.inst.mapComparison f) := by
    refine .mapNodes (f := fun j m => if j = i then { m with inst := m.inst.mapComparison f } else m) rfl fun j m => ?_
    split
    case isTrue hj => exact ⟨⟨hargs _, rfl⟩, rfl, .inr ⟨hj, rfl⟩⟩
    case isFalse => exact ⟨⟨rfl, rfl⟩, rfl, .inl rfl⟩
  have hshape : SameShape h (h.withNode i fun m => { m with inst := m.inst.mapComparison f }) :=
    ⟨rfl, rfl, rfl, rfl, rfl, hchange.mono fun _ _ _ hc => hc.2.1⟩
  refine hs.step hshape ⟨hchange.size, fun j m' hm' => ?_⟩ (hs.uses.congr hshape (hchange.mono fun _ _ _ hc => hc.1))
    fun b u m m' a hb hu hm hm' ha => ?_
  · obtain ⟨m, hm, -, -, heq | ⟨rfl, heq⟩⟩ := hchange.node j m' hm'
    · exact ⟨m, hm, heq ▸ .refl⟩
    · obtain rfl := Option.some_inj.mp (hn.symm.trans hm)
      exact ⟨n, hm, heq ▸ hkind⟩
  · obtain ⟨o, ho, ⟨heq, -⟩, -⟩ := hchange.node u m' hm'
    obtain rfl := Option.some_inj.mp (hm.symm.trans ho)
    exact hs.reads b u m a hb hu hm (heq ▸ ha)

theorem traced (hb : g.Reachable b) (hi : i ∈ h.insts b) : Traced g i := .inl ⟨b, hb, hs.thinned.mem_insts hi⟩

include hg

theorem removed (hb : g.Reachable b) (hi : i ∈ h.insts b) (hn : h.nodes[i.index]? = some n)
    (hplain : n.inst.isTerminator = false) (hunused : n.inputUses = []) : Simplified g (h.removed i n b) := by
  have hhome : h.layout.home? i = some b := hs.thinned.outline.sound.mem_iff.mp hi
  have hsub {c : BlockId} {u : InstId} (hu : u ∈ (h.removed i n b).insts c) : u ∈ h.insts c := by
    rw [Loads.insts_removed hs.thinned.outline hhome, List.mem_filter] at hu
    exact hu.1
  refine ⟨⟨hs.thinned.outline.removed hg hhome hb, hs.thinned.blocks, ?_, fun c j m hj hm hterm => ?_⟩,
    hs.uses.removed hg hs.thinned.outline hhome, fun c u m' a hc hu hm' ha => ?_⟩
  · exact hs.thinned.nodes.trans Loads.changes_removed fun _ _ _ _ hkind hc => hc.1 ▸ hkind
  · rw [Loads.isPlaced_removed, hs.thinned.ends c j m hj hm hterm, Bool.and_true, decide_eq_true_eq]
    rintro rfl
    obtain ⟨o, ho, hkind⟩ := hs.thinned.nodes.node j n hn
    obtain rfl := Option.some_inj.mp (hm.symm.trans ho)
    rw [← hkind.isTerminator, hplain] at hterm
    cases hterm
  · replace hu := hsub hu
    obtain ⟨m, hm, hinst, -⟩ := Loads.changes_removed.node u m' hm'
    rw [hinst] at ha
    obtain ⟨hplaced, hbefore⟩ := hs.reads c u m a hc hu hm ha
    refine ⟨fun h => ?_, hbefore⟩
    rw [Loads.isPlaced_removed, hplaced h, Bool.and_true, decide_eq_true_eq]
    -- A reader would be listed.
    rintro rfl
    obtain ⟨k, hk⟩ := List.mem_iff_getElem?.mp ha
    obtain ⟨o, ho, hmem⟩ := hs.uses.listed u m k a (.inl ⟨c, hc, hu⟩) hm hk
    obtain rfl := Option.some_inj.mp (hn.symm.trans ho)
    rw [hunused] at hmem
    cases hmem

theorem redirected {es : List Use} (hb : g.Reachable b) (hi : i ∈ h.insts b) (hn : h.nodes[i.index]? = some n)
    (hd : d ∈ n.inst.args) : Simplified g (h.redirected i d n.inputUses es) := by
  have hread := hs.reads b i n d hb hi hn hd
  have hne : i ≠ d := (hread.ne hg (hs.thinned.mem_insts hi)).symm
  obtain ⟨k, hk⟩ := List.mem_iff_getElem?.mp hd
  obtain ⟨m, hm, -⟩ := hs.uses.listed i n k d (.inl ⟨b, hb, hi⟩) hn hk
  have hchange := @Loads.changes_redirected h i d n.inputUses es
  refine hs.step Loads.sameShape_redirected (hchange.mono fun _ _ _ hc => hc.1 ▸ .mapArgs)
    (hs.uses.redirected (hs.traced hb hi) hn hne (Array.getElem?_eq_some_iff.mp hm).1) fun c u l l' a hc hu hl hl' ha =>
    ?_
  obtain ⟨o, ho, hinst, -⟩ := hchange.node u l' hl'
  obtain rfl := Option.some_inj.mp (hl.symm.trans ho)
  rw [hs.uses.inst_redirected (hs.traced hb hi) hn (.inl ⟨c, hc, hu⟩) hl hinst, Inst.args_mapArgs_const] at ha
  obtain ⟨e, he, rfl⟩ := List.mem_map.mp ha
  have hread' := hs.reads c u l e hc hu hl he
  by_cases heq : e = i
  · subst heq
    rw [Loads.instead_self]
    exact hread.trans hg hread' (hs.thinned.mem_insts hi)
  · rwa [Loads.instead_of_ne heq]

end Simplified

/-! ## A visit -/

theorem Simplified.remove (hg : Definite g) (hs : Simplified g h) (hb : g.Reachable b) (hi : i ∈ h.insts b)
    (hn : h.nodes[i.index]? = some n) (hplain : n.inst.isTerminator = false) :
    Leads True h (Edit.remove i) fun _ h' => h' = h.removed i n b ∧ Simplified g h' := by
  refine (Leads.remove hn fun h => absurd trivial h).mono ?_
  rintro _ _ ⟨hunused, -, c, hc, rfl⟩
  obtain rfl := Option.some_inj.mp ((hs.thinned.outline.sound.mem_iff.mp hi).symm.trans hc)
  exact ⟨rfl, hs.removed hg hb hi hn hplain hunused⟩

theorem simplified_apply {o : Outcome} (hg : Definite g) (hs : Simplified g h) (hb : g.Reachable b) (hi : i ∈ h.insts b)
    (ho : outcome? H h i = .ok (some o)) : Leads True h (apply i o) fun _ h' => Simplified g h' := by
  obtain ⟨n, hn, hplain⟩ := Naming.plain_of_outcome? ho
  cases o with
  | drop => exact (hs.remove hg hb hi hn hplain).mono fun _ _ h => h.2
  | standIn d =>
    obtain ⟨e, he, hd⟩ := Naming.inputs_of_outcome? ho
    obtain ⟨m, hm, rfl⟩ := inst_eq_ok.mp he
    obtain rfl := Option.some_inj.mp (hn.symm.trans hm)
    unfold apply Edit.replaceByExisting
    rw [Leads.bind_iff]
    refine Loads.ensureSsaIndex_of_ok.mono fun _ h₁ hn₁ => ?_
    have hs₁ := hs.renumbered hn₁
    have hi₁ : i ∈ h₁.insts b := by
      unfold FlowGraph.insts
      rwa [hn₁.1.layout]
    obtain ⟨n₁, hn₁', hinst₁, -⟩ := hn₁.2.exists_node hn
    rw [← hinst₁] at hd hplain
    have hne := (hs₁.reads b i n₁ d hb hi₁ hn₁' hd).ne hg (hs₁.thinned.mem_insts hi₁)
    rw [Leads.bind_iff]
    refine Leads.replaceUses_of_ok.mono ?_
    rintro _ h₂ (⟨heq, -⟩ | ⟨l, hl, rfl⟩)
    · exact absurd heq.symm hne
    obtain rfl := Option.some_inj.mp (hn₁'.symm.trans hl)
    obtain ⟨n₂, hn₂, hinst₂, -⟩ := (@Loads.changes_redirected h₁ i d n₁.inputUses n₁.envUses).exists_node hl
    refine ((hs₁.redirected hg hb hi₁ hl hd).remove hg hb hi₁ hn₂ ?_).mono fun _ _ h => h.2
    rw [hinst₂, Inst.isTerminator_mapArgs, hplain]

theorem eq_branch_of_opcode {e : Inst} (hop : e.opcode = .branch) (he : e.comparison? = some tested) :
    ∃ onTrue onFalse, e = .branch tested onTrue onFalse := by
  cases e with
  | compare c =>
    have hop : c.opcode = .branch := hop
    unfold Comparison.opcode at hop
    split at hop <;> cases hop
  | branch c onTrue onFalse => exact ⟨onTrue, onFalse, congrArg (Inst.branch · onTrue onFalse) (Option.some_inj.mp he)⟩
  | _ => cases he

/-- The graph in which the branch makes the comparison that it tests. -/
def taken (h : FlowGraph) (branch : InstId) (tested c : Comparison) : FlowGraph :=
  ((h.rewired branch 0 tested.left c.left).rewired branch 1 tested.right c.right).withNode branch fun n =>
    { n with inst := n.inst.mapComparison fun own => { c with left := own.left, right := own.right } }

section

variable {onTrue onFalse : BlockId}

/-- The branch makes the comparison, and nothing else has changed. -/
structure Takes (h h' : FlowGraph) (branch : InstId) (c : Comparison) (onTrue onFalse : BlockId) : Prop where
  shape : SameShape h h'
  node : ∃ n, h'.nodes[branch.index]? = some n ∧ n.inst = .branch c onTrue onFalse
  others : Changes h h' fun j n n' => j ≠ branch → n'.inst = n.inst

theorem Takes.renumbered {h'' : FlowGraph} (ht : Takes h h' branch c onTrue onFalse) (hr : Renumbered h' h'') :
    Takes h h'' branch c onTrue onFalse where
  shape := ht.shape.trans hr.1
  node := by
    obtain ⟨n, hn, hinst⟩ := ht.node
    obtain ⟨n', hn', hsame, -⟩ := hr.2.exists_node hn
    exact ⟨n', hn', hsame.trans hinst⟩
  others := ht.others.trans hr.2 fun _ _ _ _ hsame hsame' hne => hsame'.1.trans (hsame hne)

structure Alters (h h' : FlowGraph) (i : InstId) (f : Inst → Inst) : Prop where
  shape : SameShape h h'
  nodes : Changes h h' fun j n n' => n'.inst = if j = i then f n.inst else n.inst

theorem Alters.trans {h'' : FlowGraph} {f f' : Inst → Inst} (ha : Alters h h' i f) (ha' : Alters h' h'' i f') :
    Alters h h'' i fun e => f' (f e) := by
  refine ⟨ha.shape.trans ha'.shape, ha.nodes.trans ha'.nodes fun j n n' n'' hinst hinst' => ?_⟩
  rw [hinst', hinst]
  split <;> rfl

theorem alters_rewired {k : Nat} : Alters h (h.rewired i k a d) i (·.setArg k d) :=
  ⟨Loads.sameShape_rewired, Loads.changes_rewired.mono fun _ _ _ hc => hc.1⟩

theorem alters_withNode {f : Inst → Inst} : Alters h (h.withNode i fun n => { n with inst := f n.inst }) i f := by
  have hchange : Changes h (h.withNode i fun n => { n with inst := f n.inst }) fun j n n' =>
      n'.block = n.block ∧ n'.inst = if j = i then f n.inst else n.inst := by
    refine .mapNodes (f := fun j n => if j = i then { n with inst := f n.inst } else n) rfl fun j n => ?_
    split <;> exact ⟨rfl, rfl⟩
  exact ⟨⟨rfl, rfl, rfl, rfl, rfl, hchange.mono fun _ _ _ hc => hc.1⟩, hchange.mono fun _ _ _ hc => hc.2⟩

theorem takes_taken (hn : h.nodes[branch.index]? = some n) (hinst : n.inst = .branch tested onTrue onFalse) :
    Takes h (taken h branch tested c) branch c onTrue onFalse := by
  obtain ⟨hshape, hnodes⟩ := (alters_rewired.trans alters_rewired).trans alters_withNode
  refine ⟨hshape, ?_, hnodes.mono fun _ _ _ hinst' hne => hinst'.trans (if_neg hne)⟩
  obtain ⟨n', hn', hinst'⟩ := hnodes.exists_node hn
  refine ⟨n', hn', ?_⟩
  rw [hinst', if_pos rfl, hinst]
  rfl

/-- The branch on `tested` makes the comparison `c` instead, which was the instruction that it tested. -/
structure Merged (h h' : FlowGraph) (branch : InstId) (tested c : Comparison) (onTrue onFalse : BlockId) : Prop where
  mergeable : Mergeable h branch tested c
  before : ∃ n, h.nodes[branch.index]? = some n ∧ n.inst = .branch tested onTrue onFalse
  after : ∃ n, h'.nodes[branch.index]? = some n ∧ n.inst = .branch c onTrue onFalse
  others : Changes h h' fun j n n' => j ≠ branch → n'.inst = n.inst
  placed : h.isPlaced tested.left = true
  gone : ∀ i, h'.isPlaced i = (decide (i ≠ tested.left) && h.isPlaced i)
  insts : ∀ b, h'.insts b = (h.insts b).filter (· ≠ tested.left)

theorem Simplified.cases_read (hg : Definite g) (hs : Simplified g h) (hb : g.Reachable b) (hu : u ∈ h.insts b)
    (hn : h.nodes[u.index]? = some n) (ha : a ∈ n.inst.args) {m : Node} (hm : h.nodes[a.index]? = some m) :
    a ∈ g.initialDefinitions ∨ (Precedes g a u ∧ ∃ c, g.Reachable c ∧ a ∈ h.insts c) ∨ m.inst.isAlivePhi = true := by
  obtain ⟨hplaced, hinitial | hbefore⟩ := hs.reads b u n a hb hu hn ha
  · exact .inl hinitial
  obtain ⟨c, b', hhome, hb', -, hdom, -⟩ := id hbefore
  obtain hmem | hlive := hhome
  · refine .inr (.inl ⟨hbefore, c, hdom.reachable hb', ?_⟩)
    rw [hs.thinned.outline.insts]
    exact List.mem_filter.mpr ⟨hmem, hplaced (hg.isPlaced_of_mem hmem)⟩
  · obtain ⟨-, -, hlive⟩ := live_iff.mp hlive
    obtain ⟨o, ho, halive⟩ := Definite.exists_alive hlive
    obtain ⟨o', ho', hkind⟩ := hs.thinned.nodes.node a m hm
    obtain rfl := Option.some_inj.mp (ho.symm.trans ho')
    exact .inr (.inr (hkind.alive.trans halive))

theorem Simplified.home (hg : Definite g) (hs : Simplified g h) (hb : g.Reachable b) (hu : u ∈ h.insts b)
    (hn : h.nodes[u.index]? = some n) (ha : a ∈ n.inst.args) {m : Node} (hm : h.nodes[a.index]? = some m)
    (hc : m.inst = .compare c) : Precedes g a u ∧ ∃ b, g.Reachable b ∧ a ∈ h.insts b := by
  obtain hinitial | hhome | halive := hs.cases_read hg hb hu hn ha hm
  · obtain ⟨o, ho, hkind⟩ := hs.thinned.nodes.node a m hm
    obtain ⟨l, hl, hgiven, -⟩ := hg.initial a hinitial
    obtain rfl := Option.some_inj.mp (ho.symm.trans hl)
    have hopcode : o.inst.opcode = c.opcode := by rw [← hkind.opcode, hc]; rfl
    unfold Comparison.opcode at hopcode
    obtain ⟨k, hk⟩ | ⟨k, hk⟩ := Inst.eq_of_isGiven hgiven <;> rw [hk] at hopcode <;> split at hopcode <;> cases hopcode
  · exact hhome
  · rw [hc] at halive
    cases halive

theorem simplified_taken (hg : Definite g) (hs : Simplified g h) (hb : g.Reachable b) (hbranch : branch ∈ h.insts b)
    (hn : h.nodes[branch.index]? = some n) (hinst : n.inst = .branch tested onTrue onFalse) {a : BlockId}
    (ha : g.Reachable a) (hcompare : tested.left ∈ h.insts a) {m : Node} (hm : h.nodes[tested.left.index]? = some m)
    (hc : m.inst = .compare c) : Simplified g (taken h branch tested c) := by
  have hread := hs.reads b branch n tested.left hb hbranch hn (by simp [hinst, Inst.args])
  have hoperand {k : Nat} {d : InstId} (hd : m.inst.args[k]? = some d) : d.index < h.nodes.size ∧
    Readable g h d branch := by
    obtain ⟨l, hl, -⟩ := hs.uses.listed tested.left m k d (.inl ⟨a, ha, hcompare⟩) hm hd
    have hd := hs.reads a tested.left m d ha hcompare hm (List.mem_of_getElem? hd)
    exact ⟨(Array.getElem?_eq_some_iff.mp hl).1, hd.trans hg hread (hs.thinned.mem_insts hcompare)⟩
  obtain ⟨hlt, hl⟩ := hoperand (k := 0) (d := c.left) (by rw [hc]; rfl)
  obtain ⟨hlt', hr⟩ := hoperand (k := 1) (d := c.right) (by rw [hc]; rfl)
  have hs₁ := hs.rewired hn (k := 0) (by rw [hinst]; rfl : n.inst.args[0]? = some tested.left) hlt hl
  obtain ⟨n₁, hn₁, hinst₁⟩ := (alters_rewired (k := 0) (a := tested.left) (d := c.left)).nodes.exists_node hn
  rw [if_pos rfl, hinst] at hinst₁
  have hs₂ := hs₁.rewired hn₁ (k := 1) (by rw [hinst₁]; rfl : n₁.inst.args[1]? = some tested.right)
    (Nat.lt_of_lt_of_eq hlt' Loads.sameShape_rewired.nodes.size.symm) (hr.congr Loads.sameShape_rewired)
  obtain ⟨n₂, hn₂, hinst₂⟩ := (alters_rewired (k := 1) (a := tested.right) (d := c.right)).nodes.exists_node hn₁
  rw [if_pos rfl, hinst₁] at hinst₂
  refine hs₂.compared (fun _ => ⟨rfl, rfl⟩) hn₂ ?_
  rw [hinst₂]
  exact ⟨rfl, rfl, rfl⟩

theorem merged_of_takes (hg : Definite g) (hs : Simplified g h') (ht : Takes h h' branch c onTrue onFalse)
    (hm : Mergeable h branch tested c) (hn : h.nodes[branch.index]? = some n)
    (hinst : n.inst = .branch tested onTrue onFalse) {a : BlockId} (ha : g.Reachable a)
    (hcompare : tested.left ∈ h.insts a) : Leads True h' (Edit.remove tested.left) fun _ h'' => Simplified g h'' ∧
    Merged h h'' branch tested c onTrue onFalse := by
  obtain ⟨m, hmnode, hc, -⟩ := hm.comparison
  have hne : tested.left ≠ branch := by
    rintro heq
    obtain rfl := Option.some_inj.mp (hn.symm.trans (heq ▸ hmnode))
    rw [hinst] at hc
    cases hc
  obtain ⟨m', hm', hinst'⟩ := ht.others.exists_node hmnode
  have hcompare' : tested.left ∈ h'.insts a := by
    unfold FlowGraph.insts
    rwa [ht.shape.layout]
  have hhome := hs.thinned.outline.sound.mem_iff.mp hcompare'
  refine (hs.remove hg ha hcompare' hm' ?_).mono ?_
  · rw [hinst' hne, hc]
    exact (Naming.Comparison.opcode_traits c).2.2
  rintro _ _ ⟨rfl, hs'⟩
  obtain ⟨n', hn', hbranch⟩ := ht.node
  have hremoved : Changes h' (h'.removed tested.left m' a) fun _ n n' => n'.inst = n.inst :=
    Loads.changes_removed.mono fun _ _ _ hc => hc.1
  have hothers := ht.others.trans hremoved fun _ _ _ _ hsame hsame' hne => hsame'.trans (hsame hne)
  obtain ⟨n'', hn'', hsame⟩ := hremoved.exists_node hn'
  refine ⟨hs', hm, ⟨n, hn, hinst⟩, ⟨n'', hn'', hsame.trans hbranch⟩, hothers, ?_, fun i => ?_, fun b => ?_⟩
  · exact Layout.isPlaced_iff.mpr ⟨a, by rw [← ht.shape.layout]; exact hhome⟩
  · rw [Loads.isPlaced_removed]
    unfold FlowGraph.isPlaced
    rw [ht.shape.layout]
  · rw [Loads.insts_removed hs.thinned.outline hhome]
    unfold FlowGraph.insts
    rw [ht.shape.layout]

end

theorem mergeComparison_of_ok (hg : Definite g) (hs : Simplified g h) (hb : g.Reachable b)
    (hbranch : branch ∈ h.insts b) (hop : h.opcode branch = .ok .branch) :
    Leads True h (mergeComparison branch) fun changed h' => Simplified g h' ∧
      (changed = true → ∃ tested c onTrue onFalse, Merged h h' branch tested c onTrue onFalse) := by
  unfold mergeComparison
  rw [Leads.bind_iff, Leads.get_iff, Leads.bind_iff, Leads.lift_iff]
  refine Yields.of_ok fun merge hmerge => ?_
  split
  case h_1 => exact ⟨hs, nofun⟩
  case h_2 compare c =>
  obtain ⟨tested, hm, rfl⟩ := mergeable_of_mergeable? hmerge
  obtain ⟨n, hn, htested⟩ := hm.tests.comparison
  obtain ⟨n', hn', hbranchOp⟩ := opcode_eq_ok.mp hop
  obtain rfl := Option.some_inj.mp (hn.symm.trans hn')
  obtain ⟨onTrue, onFalse, hinst⟩ := eq_branch_of_opcode hbranchOp htested
  obtain ⟨m, hmnode, hc, -⟩ := hm.comparison
  obtain ⟨-, a, ha, hcompare⟩ := hs.home hg hb hbranch hn (by simp [hinst, Inst.args]) hmnode hc
  have htakes := takes_taken (c := c) hn hinst
  have hs' := simplified_taken hg hs hb hbranch hn hinst ha hcompare hmnode hc
  have hremove {h₁ : FlowGraph} (hs₁ : Simplified g h₁) (ht : Takes h h₁ branch c onTrue onFalse) :
      Leads True h₁ (do Edit.remove tested.left; return true) fun changed h' => Simplified g h' ∧
        (changed = true → ∃ tested c onTrue onFalse, Merged h h' branch tested c onTrue onFalse) := by
    rw [Leads.bind_iff]
    refine (merged_of_takes hg hs₁ ht hm hn hinst ha hcompare).mono fun _ _ h => ?_
    exact ⟨h.1, fun _ => ⟨tested, c, onTrue, onFalse, h.2⟩⟩
  rw [Leads.bind_iff]
  refine (Leads.setArg fun h => absurd trivial h).mono ?_
  rintro _ _ ⟨n₁, a, hn₁, ha, rfl⟩
  obtain rfl := Option.some_inj.mp (hn.symm.trans hn₁)
  obtain rfl : tested.left = a := by simpa [hinst, Inst.args] using ha
  obtain ⟨n₁, hn₁, hinst₁⟩ := (alters_rewired (k := 0) (a := tested.left) (d := c.left)).nodes.exists_node hn
  rw [if_pos rfl, hinst] at hinst₁
  rw [Leads.bind_iff]
  refine (Leads.setArg fun h => absurd trivial h).mono ?_
  rintro _ _ ⟨n₂, a, hn₂, ha, rfl⟩
  obtain rfl := Option.some_inj.mp (hn₁.symm.trans hn₂)
  obtain rfl : tested.right = a := by simpa [hinst₁, Inst.setArg, Inst.mapArgs, Inst.args] using ha
  rw [Leads.bind_iff, Leads.modifyNode_iff]
  refine ⟨fun _ => ?_, fun _ => trivial⟩
  split
  · rw [Leads.bind_iff]
    exact Loads.copyDeoptTarget_of_ok.mono fun _ _ hr => hremove (hs'.renumbered hr) (htakes.renumbered hr)
  · exact hremove hs' htakes

theorem leads_branch {post : Bool → FlowGraph → Prop} (hop : h.opcode i = .ok .branch)
    (hmerge : Leads True h (mergeComparison i) post) : Leads True h (simplifyInst H i) post := by
  unfold simplifyInst
  rwa [Leads.bind_iff, Leads.get_iff, Leads.bind_iff, Leads.lift_iff, hop, Yields.ok_iff, if_pos rfl]

theorem simplified_visit (hg : Definite g) (hs : Simplified g h) (hb : g.Reachable b) (hi : i ∈ h.insts b) :
    Leads True h (simplifyInst H i) fun _ h' => Simplified g h' := by
  by_cases hop : h.opcode i = .ok .branch
  · exact leads_branch hop ((mergeComparison_of_ok hg hs hb hi hop).mono fun _ _ h => h.1)
  unfold simplifyInst
  rw [Leads.bind_iff, Leads.get_iff, Leads.bind_iff, Leads.lift_iff]
  refine Yields.of_ok fun op hop' => ?_
  rw [if_neg fun (hbranch : op = .branch) => hop (hbranch ▸ hop'), Leads.bind_iff, Leads.get_iff, Leads.bind_iff,
    Leads.lift_iff]
  refine Yields.of_ok fun o ho => ?_
  cases o with
  | none => exact hs
  | some o =>
    rw [Leads.bind_iff]
    exact simplified_apply hg hs hb hi ho

/-! ## All visits -/

/-- The visit of an instruction that is executed turns `h` into `h'`. -/
def Visits (H : Hierarchy) (h h' : FlowGraph) : Prop :=
  ∃ b i changed, h.Reachable b ∧ i ∈ h.insts b ∧ (simplifyInst H i).run h = .ok (changed, h')

theorem simplified_of_visits (hg : Definite g) (hvisits : Relation.ReflTransGen (Visits H) g h) : Simplified g h := by
  induction hvisits with
  | refl => exact .of_definite hg
  | tail _ hvisit ih =>
    obtain ⟨b, i, changed, hb, hi, hrun⟩ := hvisit
    exact (simplified_visit hg ih ((ih.thinned.reachable_iff hg).mp hb) hi).post_of_ok hrun

/-- Simplification is one visit after the other. -/
theorem simplify_of_ok {ctx : Context} (hg : Definite g) :
    Leads True g (simplify ctx) fun _ g' => Relation.ReflTransGen (Visits ctx.hierarchy) g g' := by
  unfold simplify visitInsts
  rw [Leads.bind_iff, Leads.get_iff]
  refine Leads.anyChange_of_forall (Relation.ReflTransGen (Visits ctx.hierarchy) g) .refl fun b hb h₀ hvisits₀ => ?_
  have hs₀ := simplified_of_visits hg hvisits₀
  rw [Leads.bind_iff, Leads.get_iff]
  refine Leads.anyChange_of_forall (Relation.ReflTransGen (Visits ctx.hierarchy) g) hvisits₀ fun i hi h hvisits => ?_
  have hs := simplified_of_visits hg hvisits
  rw [Leads.bind_iff, Leads.get_iff]
  split
  case isFalse => exact hvisits
  case isTrue hplaced =>
    refine Leads.of_ok fun changed h' hrun => hvisits.tail ⟨b, i, changed, ?_, ?_, hrun⟩
    · exact (hs.thinned.reachable_iff hg).mpr (hg.reachable_of_mem_order hb)
    · rw [hs.thinned.outline.insts]
      exact List.mem_filter.mpr ⟨hs₀.thinned.mem_insts hi, hplaced⟩

end Midend.Simplify
