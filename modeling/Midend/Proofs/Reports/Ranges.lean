import Midend.Proofs.Keeping
import Midend.Proofs.Ranges.Transparency
import Midend.Proofs.Reports.Shown

/-! # What range analysis leaves alone

The analysis names nothing but what it makes itself, and an instruction that goes away is told of. If it tells of no
change, the text of the graph shows nothing new but ranges and loops.
-/

namespace Midend.Ranges

open FlowGraph Reports

variable {g₀ g g' : FlowGraph} {s : Progress} {b c : BlockId} {d i j : InstId} {n n' : Node}

/-! ## Old instructions -/

/-- The instruction has the number it had, and is as much alive as it was. -/
def SameName (n n' : Node) : Prop := n'.ssaIndex = n.ssaIndex ∧ n'.inst.isAlivePhi = n.inst.isAlivePhi

/-- The instructions of `g₀` are in `g`, under their names. -/
structure Labelled (g₀ g : FlowGraph) : Prop where
  size : g₀.nodes.size ≤ g.nodes.size
  node : ∀ (i : InstId) n, g₀.nodes[i.index]? = some n → ∃ n', g.nodes[i.index]? = some n' ∧ SameName n n'

/-- What is in a block of `g`, of the first `size` instructions, is in that block of `g'`. -/
def Stays (size : Nat) (g g' : FlowGraph) : Prop := ∀ b, ∀ i ∈ g.insts b, i.index < size → i ∈ g'.insts b

/-- What was there has its name, constraints were not there, and if no change has been noted, nothing is gone. -/
structure Framed (g₀ : FlowGraph) (s : Progress) (g : FlowGraph) : Prop where
  labels : Labelled g₀ g
  placed : s.changed = true ∨ Stays g₀.nodes.size g₀ g
  constraints : ∀ c ∈ s.constraints, g₀.nodes.size ≤ c.index

theorem Labelled.refl (g : FlowGraph) : Labelled g g := ⟨Nat.le_refl _, fun _ n hn => ⟨n, hn, rfl, rfl⟩⟩

theorem Labelled.changes (h : Labelled g₀ g) (hc : Changes g g' fun i n n' => i.index < g₀.nodes.size → SameName n n') :
    Labelled g₀ g' where
  size := hc.size ▸ h.size
  node i n hn := by
    obtain ⟨n₁, hn₁, hsame⟩ := h.node i n hn
    obtain ⟨n₂, hn₂, hsame'⟩ := hc.exists_node hn₁
    obtain ⟨hindex, halive⟩ := hsame' (Array.getElem?_eq_some_iff.mp hn).1
    exact ⟨n₂, hn₂, hindex.trans hsame.1, halive.trans hsame.2⟩

theorem Framed.changes (h : Framed g₀ s g) (hc : Changes g g' fun i n n' => i.index < g₀.nodes.size → SameName n n')
    (hplaced : Stays g₀.nodes.size g g') : Framed g₀ s g' :=
  ⟨h.labels.changes hc, h.placed.imp_right fun hp b i hi hlt => hplaced b i (hp b i hi hlt) hlt, h.constraints⟩

theorem Framed.same_nodes (h : Framed g₀ s g) (hnodes : g'.nodes = g.nodes) (hplaced : Stays g₀.nodes.size g g') :
    Framed g₀ s g' :=
  h.changes ⟨by rw [hnodes], fun _ n hn => ⟨n, hnodes ▸ hn, fun _ => ⟨rfl, rfl⟩⟩⟩ hplaced

/-! ## Edits -/

theorem keeps_modifyNode {f : Node → Node} (hf : ∀ n, SameName n (f n)) :
    Keeps (Framed g₀ s) (Edit.modifyNode i f) := by
  intro g h
  rw [Leads.modifyNode_iff]
  refine ⟨fun _ => h.changes (.mapNodes (f := fun j n => if j = i then f n else n) rfl fun j n _ => ?_) fun _ _ hi _ =>
    hi, fun _ => trivial⟩
  split
  · exact hf n
  · exact ⟨rfl, rfl⟩

theorem keeps_modifyNode? {f : Node → Node} (hf : ∀ n, SameName n (f n)) :
    Keeps (Framed g₀ s) (Edit.modifyNode? i f) := by
  intro g h
  rw [Leads.modifyNode?_iff]
  refine h.changes (.mapNodes (f := fun j n => if j = i then f n else n) rfl fun j n _ => ?_) fun _ _ hi _ => hi
  split
  · exact hf n
  · exact ⟨rfl, rfl⟩

theorem keeps_setRange {r : Option Range} : Keeps (Framed g₀ s) (Edit.setRange i r) :=
  keeps_modifyNode fun _ => ⟨rfl, rfl⟩

theorem keeps_addUses : Keeps (Framed g₀ s) (Edit.addUses i) := by
  have hinput (u : InstId × Use) : Keeps (Framed g₀ s) (Edit.addInputUse u.1 u.2) := keeps_modifyNode? fun _ =>
    ⟨rfl, rfl⟩
  have henv (u : InstId × Use) : Keeps (Framed g₀ s) (Edit.addEnvUse u.1 u.2) := keeps_modifyNode? fun _ => ⟨rfl, rfl⟩
  refine .andThen (.reading fun _ => .andThen .lifted fun _ => .each fun u _ => hinput u) fun _ =>
    .andThen (.reading fun _ => .andThen .lifted fun e => ?_) fun _ => .each fun u _ => henv u
  split <;> exact .value _

theorem keeps_onLayout {f : Layout → Except Fault Layout}
    (hf : ∀ l l', f l = .ok l' → ∀ b, ∀ i ∈ l.insts b, i ∈ l'.insts b) : Keeps (Framed g₀ s) (Edit.onLayout f) := by
  intro g h
  rw [Leads.onLayout_iff]
  exact Yields.of_ok fun l' hl' => h.same_nodes rfl fun b i hi _ => hf _ _ hl' b i hi

theorem mem_place {l : Layout} {is : List InstId} (his : ∀ j ∈ l.insts b, j ∈ is) (hd : d ∈ l.insts c) :
    d ∈ (l.place i b is).insts c := by
  rw [Layout.insts_place]
  split
  case isTrue h => exact his d (h ▸ hd)
  case isFalse => exact hd

theorem mem_putAfter {is : List InstId} (hd : d ∈ is) : d ∈ Layout.putAfter j i is := by
  induction is with
  | nil => cases hd
  | cons x xs ih =>
    unfold Layout.putAfter
    obtain rfl | hd := List.mem_cons.mp hd
    · split <;> exact List.mem_cons_self
    · split
      · exact List.mem_cons_of_mem x (List.mem_cons_of_mem i hd)
      · exact List.mem_cons_of_mem x (ih hd)

theorem keeps_setBlock {o : Option BlockId} : Keeps (Framed g₀ s) (Edit.setBlock i o) :=
  keeps_modifyNode fun _ => ⟨rfl, rfl⟩

theorem keeps_prepend : Keeps (Framed g₀ s) (Edit.prepend b i) := by
  refine .andThen (keeps_onLayout fun l l' hl => ?_) fun _ => .andThen keeps_setBlock fun _ => keeps_addUses
  obtain ⟨-, rfl⟩ := Layout.prepend_eq_ok.mp hl
  exact fun b d hd => mem_place (fun _ => List.mem_cons_of_mem _) hd

theorem keeps_insertAfter : Keeps (Framed g₀ s) (Edit.insertAfter j i) := by
  refine .andThen (.andThen (keeps_onLayout fun l l' hl => ?_) fun _ => .reading fun _ => .andThen .lifted fun _ =>
    keeps_setBlock) fun _ => keeps_addUses
  obtain ⟨_, -, -, rfl⟩ := Layout.insertAfter_eq_ok.mp hl
  exact fun b d hd => mem_place (fun _ => mem_putAfter) hd

theorem keeps_setArg {k : Nat} : Keeps (Framed g₀ s) (Edit.setArg i k d) := by
  intro g h
  refine Leads.setArg_of_ok.mono ?_
  rintro _ _ ⟨a, rfl⟩
  refine h.changes (.rewired fun j n _ => ⟨rfl, ?_⟩) fun _ _ hi _ => hi
  dsimp only
  split
  · rw [Inst.setArg_eq, Inst.isAlivePhi_mapArgs]
  · rfl

theorem keeps_renameBehind {p : Position} : Keeps (Framed g₀ s) (renameBehind p d i) :=
  .reading fun _ => .andThen .lifted fun _ => .each fun _ _ => .either (.value _) <| .reading fun _ => .andThen .lifted
    fun _ => .either (.value _) <| .reading fun _ => .andThen .lifted fun _ => .either keeps_setArg (.value _)

theorem keeps_allocSsaIndex (hi : g₀.nodes.size ≤ i.index) : Keeps (Framed g₀ s) (Edit.allocSsaIndex i) := by
  intro g h
  rw [Leads.allocSsaIndex_iff]
  refine ⟨fun _ => h.changes (.mapNodes
    (f := fun j n => if j = i then { n with ssaIndex := some g.nextSsaIndex } else n) rfl fun j n hj => ?_) fun _ _ hi
    _ => hi, fun _ => trivial⟩
  split
  case isTrue heq => exact absurd hi (Nat.not_le.mpr (heq ▸ hj))
  case isFalse => exact ⟨rfl, rfl⟩

theorem keeps_replaceUses : Keeps (Framed g₀ s) (Edit.replaceUses i d) := by
  intro g h
  refine Leads.replaceUses_of_ok.mono ?_
  rintro _ _ (⟨-, rfl⟩ | ⟨m, -, rfl⟩)
  · exact h
  · refine h.changes (.redirected fun j n _ _ => ?_) fun _ _ hi _ => hi
    have halive : (n.redirectInputs m.inputUses d j).inst.isAlivePhi = n.inst.isAlivePhi := by
      rw [Node.redirectInputs, Inst.isAlivePhi_mapArgs]
    unfold Node.takeOver
    split
    · exact ⟨rfl, halive⟩
    · split <;> exact ⟨rfl, halive⟩

theorem labelled_remove (h : Labelled g₀ g) : Leads True g (Edit.remove i) fun _ g' => Labelled g₀ g' ∧
    ∀ b, ∀ j ∈ g.insts b, j ≠ i → j ∈ g'.insts b := by
  refine Leads.remove_of_ok.mono ?_
  rintro _ _ ⟨n, b, -, -, rfl⟩
  refine ⟨h.changes (.removed fun _ _ _ _ _ => ⟨rfl, rfl⟩), fun c j hj hne => ?_⟩
  rw [removed, FlowGraph.insts, layout_withLayout, Layout.insts_unplace]
  split
  case isTrue hc => exact (List.mem_erase_of_ne hne).mpr (hc ▸ hj)
  case isFalse => exact hj

theorem keeps_remove (hi : g₀.nodes.size ≤ i.index) : Keeps (Framed g₀ s) (Edit.remove i) := by
  intro g h
  refine (labelled_remove h.labels).mono fun _ g' ⟨hlabels, hplaced⟩ => ?_
  refine ⟨hlabels, h.placed.imp_right fun hp b j hj hlt => hplaced b j (hp b j hj hlt) ?_, h.constraints⟩
  rintro rfl
  exact absurd hi (Nat.not_le.mpr hlt)

theorem keeps_computeLoops : Keeps (Framed g₀ s) Flow.computeLoops := by
  have hblock {f : Block → Block} (b : BlockId) : Keeps (Framed g₀ s) (Edit.modifyBlock b f) := fun g h => by
    rw [Leads.modifyBlock_iff]
    exact ⟨fun _ => h.same_nodes rfl fun _ _ hi _ => hi, fun _ => trivial⟩
  refine .reading fun _ => ?_
  refine .andThen .lifted fun _ => ?_
  refine .filterM fun b _ => ?_
  refine .andThen .lifted fun _ => ?_
  exact .andThen (hblock b) fun _ => .value _

/-! ## The analysis -/

theorem upholds_addInst {β : Type} {e : Inst} {f : InstId → Analysis β}
    (hf : ∀ i : InstId, g₀.nodes.size ≤ i.index → Upholds (Framed g₀) (f i)) :
    Upholds (Framed g₀) ((liftM (Edit.addInst e) : Analysis InstId) >>= f) := by
  intro s g h
  show Threads True g s _ fun _ s' g' => Framed g₀ s' g'
  rw [Threads.bind_iff, Threads.lift_iff, Leads.addInst_iff]
  refine hf g.nextId h.labels.size s _ ⟨⟨?_, fun i n hn => ?_⟩, h.placed, h.constraints⟩
  · rw [size_withInst]
    exact Nat.le_succ_of_le h.labels.size
  · obtain ⟨n', hn', hsame⟩ := h.labels.node i n hn
    refine ⟨n', ?_, hsame⟩
    rw [nodes_withInst, if_neg, hn']
    rintro rfl
    exact absurd (Array.getElem?_eq_some_iff.mp hn').1 (Nat.lt_irrefl _)

theorem upholds_constrain {range : Range} {p : Position} {dependency : Option InstId} :
    Upholds (Framed g₀) (constrain d range p dependency) := by
  have hmake (rest : List InstId) (place : InstId → Edit Unit) (hplace : ∀ c s, Keeps (Framed g₀ s) (place c)) :
      Upholds (Framed g₀) (do
        let constraint ← Edit.addInst (.constraint range (d :: rest))
        renameBehind p d constraint
        place constraint
        discard <| Edit.allocSsaIndex constraint
        modify fun s => { s with constraints := s.constraints ++ [constraint] } : Analysis Unit) := by
    refine upholds_addInst fun c hc => ?_
    refine .bind (.edit fun _ => keeps_renameBehind) fun _ => ?_
    refine .bind (.edit (hplace c)) fun _ => ?_
    refine .bind (.ignoring (.edit fun _ => keeps_allocSsaIndex hc)) fun _ => .note fun s g h =>
      ⟨h.labels, h.placed, ?_⟩
    exact List.forall_mem_append.mpr ⟨h.constraints, List.forall_mem_singleton.mpr hc⟩
  have hprepend (b c : _) (s : Progress) : Keeps (Framed g₀ s) (Edit.prepend b c) := keeps_prepend
  have hinsert (i c : _) (s : Progress) : Keeps (Framed g₀ s) (Edit.insertAfter i c) := keeps_insertAfter
  unfold constrain
  refine .graph fun g => ?_
  refine .bind .read fun _ => ?_
  refine .ite (fun _ => .value) fun _ => ?_
  cases dependency with
  | some x =>
    refine .bind .read fun _ => .ite (fun _ => ?_) fun _ => ?_
    all_goals
      cases p with
      | start b => exact hmake _ _ (hprepend b)
      | after i => exact hmake _ _ (hinsert i)
  | none =>
    cases p with
    | start b => exact hmake [] _ (hprepend b)
    | after i => exact hmake [] _ (hinsert i)

theorem framed_lengthSymbol {cls : ClassId} : Upholds (Framed g₀) (lengthSymbol d cls) := by
  unfold lengthSymbol
  split
  · exact .value
  · refine upholds_addInst fun i hi => .bind (.ignoring (.edit fun _ => keeps_allocSsaIndex hi)) fun _ => ?_
    refine .bind (.edit fun _ => keeps_setRange) fun _ => .bind (.note fun _ _ h => ?_) fun _ => .value
    exact ⟨h.labels, h.placed, h.constraints⟩

theorem tolerant_framed : Tolerant (Framed g₀) fun _ => True where
  visited _ _ _ _ _ _ := trivial
  range _ _ _ := keeps_setRange
  clear s g i h := by
    have hkeeps : Keeps (Framed g₀ s) (Edit.modifyNode i fun n => { n with inst := clearOverflow n.inst }) :=
      keeps_modifyNode fun n => ⟨rfl, isAlivePhi_clearOverflow⟩
    exact (hkeeps g h).mono fun _ _ h' => ⟨h'.labels, .inl rfl, h'.constraints⟩
  remove s g i h _ _ := by
    refine (labelled_remove h.labels).mono fun _ g' ⟨hlabels, _⟩ => ?_
    exact ⟨hlabels, .inl rfl, h.constraints⟩
  symbol _ _ := framed_lengthSymbol
  lengths _ _ _ h := ⟨h.labels, h.placed, h.constraints⟩

theorem upholds_constrainAfterBranch {u : Use} : Upholds (Framed g₀) (constrainAfterBranch d u) := by
  refine .graph fun _ => .bind .read fun _ => ?_
  split
  · refine .ite (fun _ => .value) fun _ => ?_
    dsimp only
    refine .bind .read fun _ => ?_
    split
    · exact .value
    · refine .bind .read fun _ => .bind .read fun _ => ?_
      split
      · exact .value
      · exact .bind upholds_constrain fun _ => upholds_constrain
  · exact .value

theorem upholds_constrainAfterCheck : Upholds (Framed g₀) (constrainAfterCheck d i) := by
  refine .graph fun _ => .bind .read fun _ => ?_
  split
  · refine .ite (fun _ => .value) fun _ => ?_
    refine .bind tolerant_framed.arrayLength fun _ => ?_
    exact .bind .read fun _ => upholds_constrain
  · exact .value

theorem upholds_constrainUses : Upholds (Framed g₀) (constrainUses d) := by
  refine .graph fun _ => ?_
  refine .bind .read fun _ => ?_
  refine .each fun u _ => ?_
  refine .graph fun _ => ?_
  refine .bind .read fun _ => ?_
  refine .ite (fun _ => .value) fun _ => ?_
  refine .bind .read fun _ => ?_
  refine .ite (fun _ => .value) fun _ => ?_
  refine .bind .read fun _ => ?_
  split
  · exact upholds_constrainAfterBranch
  · exact .ite (fun _ => upholds_constrainAfterCheck) fun _ => .value
  · exact .value

theorem upholds_constrainFurther (steps k : Nat) : Upholds (Framed g₀) (constrainFurther steps k) := by
  induction steps generalizing k with
  | zero => exact .fault
  | succ steps ih =>
    refine .state fun s => ?_
    split
    · exact .value
    · exact .bind upholds_constrainUses fun _ => ih (k + 1)

theorem upholds_insertConstraints {checks values : List InstId} :
    Upholds (Framed g₀) (insertConstraints checks values) := by
  refine .bind (.each fun _ _ => .graph fun _ => .bind .read fun _ => upholds_constrain) fun _ => ?_
  exact .bind (.each fun _ _ => upholds_constrainUses) fun _ => .graph fun _ => upholds_constrainFurther _ 0

theorem keeps_settleRange {unwrapped : List (InstId × InstId)} {loads : List InstId} :
    Keeps (Framed g₀ s) (settleRange unwrapped loads d) := by
  refine .reading fun _ => .andThen .lifted fun r => ?_
  cases r with
  | none => exact .value _
  | some r => exact .andThen .lifted fun _ => .andThen .lifted fun _ => keeps_setRange

theorem keeps_removeConstraints {constraints loads : List InstId} (hnew : ∀ c ∈ constraints, g₀.nodes.size ≤ c.index) :
    Keeps (Framed g₀ s) (removeConstraints constraints loads) := by
  refine .reading fun _ => .andThen (.mapM fun _ _ => .andThen .lifted fun _ => .value _) fun _ => ?_
  refine .andThen (.each fun _ _ => keeps_replaceUses) fun _ =>
    .andThen (.each fun c hc => keeps_remove (hnew c hc)) fun _ => ?_
  refine .reading fun _ => ?_
  refine .andThen .lifted fun _ => ?_
  exact .each fun _ _ => keeps_settleRange

theorem upholds_placeConstraints : Upholds (Framed g₀) placeConstraints := by
  refine .bind (.edit fun _ => .reading fun _ => .andThen .lifted fun _ => .each fun _ _ => keeps_setRange) fun _ => ?_
  refine .graph fun g => ?_
  refine .bind (.mapM fun _ _ => .read) fun checks => ?_
  refine .bind (.mapM fun _ _ => .read) fun values => ?_
  exact .bind upholds_insertConstraints fun _ => .value

theorem upholds_analyze {ctx : Context} : Upholds (Framed g₀) (analyze ctx) := by
  refine .bind upholds_placeConstraints fun _ => ?_
  refine .state fun s => ?_
  refine .graph fun _ => ?_
  refine .bind (tolerant_framed.inferTree _ _) fun _ => ?_
  intro s g h
  show Threads True g s _ fun _ s' g' => Framed g₀ s' g'
  rw [Threads.bind_iff, Threads.get_iff, Threads.bind_iff, Threads.get_iff, Threads.lift_iff]
  exact keeps_removeConstraints h.constraints g h

theorem framed_analyzeRanges {ctx : Context} {changed : Bool} (hrun : (analyzeRanges ctx).run g = .ok (changed, g')) :
    Labelled g g' ∧ (changed = false → Stays g.nodes.size g g') := by
  have hlead : Leads True g (analyzeRanges ctx) fun changed g' =>
      Labelled g g' ∧ (changed = false → Stays g.nodes.size g g') := by
    unfold analyzeRanges
    rw [Leads.bind_iff, Leads.discard_iff]
    refine (keeps_computeLoops (s := {}) g ⟨.refl g, .inr fun _ _ hi _ => hi, List.forall_mem_nil _⟩).mono fun _ g₁
      h₁ => ?_
    rw [Leads.bind_iff]
    refine (upholds_analyze {} g₁ h₁).mono fun r g₂ h₂ => ⟨h₂.labels, fun hnone => h₂.placed.resolve_left ?_⟩
    exact fun h => Bool.false_ne_true (hnone.symm.trans h)
  exact hlead.post_of_ok hrun

/-! ## What is to be seen -/

/-- If no change is told of, the text of the graph shows nothing new but ranges and loops. -/
theorem shows_analyzeRanges {ctx : Context} (hg : Unconstrained g)
    (hrun : (analyzeRanges ctx).run g = .ok (false, g')) : Shows g g' ∧ SamePhis g g' := by
  obtain ⟨gone, hundone⟩ := undone_analyzeRanges hg hrun
  obtain ⟨hlabels, hstays⟩ := framed_analyzeRanges hrun
  have hplaced {b : BlockId} {i : InstId} (hi : i ∈ g.insts b) : i ∉ gone := by
    have hi' := hstays rfl b i hi (hg.located.bounded i b (hg.located.mem_insts_iff.mp hi))
    rw [hundone.insts] at hi'
    exact of_decide_eq_true (List.mem_filter.mp hi').2
  have hblock (b : BlockId) (k : Block) (hk : g.blocks[b.index]? = some k) :
      ∃ k', g'.blocks[b.index]? = some k' ∧ { k' with loop := none } = { k with loop := none } := by
    have h := congrArg (fun x : FlowGraph => x.blocks[b.index]?) hundone.shell
    simp only [Ranges.shell, Array.getElem?_map, hk, Option.map_some] at h
    exact Option.map_eq_some_iff.mp h
  have hphis (b : BlockId) (ps : List InstId) (hps : g.livePhis b = .ok ps) : g'.livePhis b = .ok ps := by
    obtain ⟨all, hall, hread, rfl⟩ := livePhis_eq_ok.mp hps
    obtain ⟨k, hk, rfl⟩ := phis_eq_ok.mp hall
    obtain ⟨k', hk', hsame⟩ := hblock b k hk
    rw [Block.mk.injEq] at hsame
    have halive (phi : InstId) (hphi : phi ∈ k.phis) : g'.isAlivePhi phi = g.isAlivePhi phi := by
      obtain ⟨a, ha⟩ := hread phi hphi
      obtain ⟨n, hn, rfl⟩ := isAlivePhi_eq_ok.mp ha
      obtain ⟨n', hn', -, hsame'⟩ := hlabels.node phi n hn
      rw [ha]
      exact isAlivePhi_eq_ok.mpr ⟨n', hn', hsame'⟩
    refine livePhis_eq_ok.mpr ⟨k.phis, phis_eq_ok.mpr ⟨k', hk', hsame.2.2.1⟩, fun phi hphi => ?_, ?_⟩
    · rw [halive phi hphi]
      exact hread phi hphi
    · refine List.filter_congr fun phi hphi => ?_
      rw [halive phi hphi]
  have hline {i : InstId} (hi : HasLine g i) : i ∉ gone := by
    intro hgone
    obtain ⟨n, hn, hop⟩ := hundone.checks i hgone
    obtain hi | ⟨b, hi⟩ | ⟨b, ps, hps, hi⟩ := hi
    · obtain ⟨m, hm, hgiven⟩ := hg.initial i hi
      obtain rfl := Option.some_inj.mp (hn.symm.trans hm)
      obtain ⟨c, heq⟩ | ⟨k, heq⟩ := Inst.eq_of_isGiven hgiven
      all_goals
        rw [heq] at hop
        cases hop
    · exact hplaced hi hgone
    · obtain ⟨all, hall, -, rfl⟩ := livePhis_eq_ok.mp hps
      obtain ⟨m, hm, halive⟩ := isAlivePhi_eq_ok.mp
        (toOption_eq_some_iff.mp (of_decide_eq_true (List.mem_filter.mp hi).2))
      obtain rfl := Option.some_inj.mp (hn.symm.trans hm)
      rw [Inst.opcode_of_isPhi (Inst.isPhi_of_isAlivePhi halive)] at hop
      cases hop
  have hheading : heading (Ranges.shell g') = heading (Ranges.shell g) := congrArg heading hundone.shell
  refine ⟨⟨hheading, fun b => ?_, fun b k hk => ?_, fun i n hn => ?_, fun i n n' hi hn hn' => ?_⟩, hphis⟩
  · rw [hundone.insts]
    exact List.filter_eq_self.mpr fun i hi => decide_eq_true (hplaced hi)
  · obtain ⟨k', hk', hsame⟩ := hblock b k hk
    rw [Block.mk.injEq] at hsame
    exact ⟨k', hk', hsame.1, hsame.2.1, hsame.2.2.2.2.2.1⟩
  · obtain ⟨n', hn', hindex, -⟩ := hlabels.node i n hn
    exact ⟨n', hn', hindex⟩
  · obtain ⟨m, hm, henv, hinst⟩ := hundone.nodes i n hn (hline hi)
    obtain rfl := Option.some_inj.mp (hn'.symm.trans hm)
    exact ⟨henv, hinst⟩

end Midend.Ranges
