import Midend.Pipeline
import Midend.Proofs.Builder
import Midend.Proofs.Hoisting.Walk
import Midend.Proofs.Reports.Loads
import Midend.Proofs.Reports.Ranges
import Midend.Proofs.Reports.Records
import Midend.Proofs.Reports.Rewrites

/-! # Stages that tell of no change

A stage that tells of no change leaves the text of the graph alone, marks apart: hoisting and the analysis of ranges
record the loops that they look at, the analysis records the ranges that it finds, and the elimination of loads may
leave a phi alive that it has merged values in.
-/

namespace Midend.Reports

open FlowGraph

variable {g g' : FlowGraph} {b : BlockId} {loops : BlockId → Block → Option (List Nat)} {stage : Stage} {ctx : Context}

/-! ## Loops -/

theorem leads_loops : Leads True g Flow.computeLoops fun _ g' => ∃ loops, g' = g.withLoops loops := by
  unfold Flow.computeLoops
  rw [Leads.bind_iff, Leads.get_iff, Leads.bind_iff, Leads.lift_iff]
  refine Yields.of_ok fun preds _ => Leads.filterM_of_forall (fun g' => ∃ loops, g' = g.withLoops loops) ?_ ?_
  · exact ⟨fun _ k => k.loop, by simp [withLoops, mapBlocks_id]⟩
  · rintro b - _ ⟨loops, rfl⟩
    rw [Leads.bind_iff, Leads.lift_iff]
    refine Yields.of_ok fun loop _ => ?_
    rw [Leads.bind_iff, Leads.modifyBlock_iff]
    exact ⟨fun _ => ⟨_, withBlock_withLoops⟩, fun _ => trivial⟩

theorem recorded_hoistInvariants (hrun : hoistInvariants.run g = .ok (false, g')) :
    ∃ loops, g' = g.withLoops loops := by
  obtain ⟨⟨headers, g₁⟩, hloops, -⟩ := bind_eq_ok.mp hrun
  obtain rfl := (honest_hoistInvariants hloops).post_of_ok hrun rfl
  exact leads_loops.post_of_ok hloops

theorem shows_withLoops : Shows g (g.withLoops loops) ∧ SameRanges g (g.withLoops loops) ∧
    SamePhis g (g.withLoops loops) := by
  have hblock (b : BlockId) (k : Block) (hk : g.blocks[b.index]? = some k) :
      (g.withLoops loops).blocks[b.index]? = some { k with loop := loops b k } := by
    rw [withLoops, blocks_mapBlocks, hk, Option.map_some]
  have hline (i : InstId) (n : Node) (hn : g.nodes[i.index]? = some n) :
      ∃ n', (g.withLoops loops).nodes[i.index]? = some n' ∧ SameLine n n' := ⟨n, hn, .refl n⟩
  have hlines : Shows g (g.withLoops loops) ∧ SameRanges g (g.withLoops loops) :=
    Shows.of_lines rfl (fun _ => rfl) (fun b k hk => ⟨_, hblock b k hk, rfl, rfl, rfl⟩) hline
  obtain ⟨hshows, hranges⟩ := hlines
  exact ⟨hshows, hranges, .of_lines (fun b k hk => ⟨_, hblock b k hk, rfl⟩) hline⟩

/-! ## All stages -/

theorem alike_of_honest {m : Edit Bool} (hm : Honest g m) (hrun : m.run g = .ok (false, g')) : Alike g g' := by
  obtain rfl := Leads.post_of_ok hm hrun rfl
  exact .refl g'

theorem alike_of_unmodified (hg : g.UpToDate) (hhoist : stage ≠ .hoistInvariants) (hranges : stage ≠ .analyzeRanges)
    (hloads : stage ≠ .eliminateLoads) (hrun : (stage.run ctx).run g = .ok (false, g')) : Alike g g' := by
  cases stage with
  | specialize => exact alike_of_honest honest_specialize hrun
  | applyClasses => exact alike_of_honest honest_applyClasses hrun
  | simplify => exact alike_of_honest honest_simplify hrun
  | propagateClasses => exact (OnlyRecords.of_only (Leads.post_of_ok discreet_propagateClasses hrun rfl)).alike
  | propagateConstants => exact alike_propagateConstants hg hrun
  | eliminateLoads => exact absurd rfl hloads
  | shareValues => exact alike_of_honest honest_shareValues hrun
  | hoistInvariants => exact absurd rfl hhoist
  | propagateSmis => exact (onlyRecords_propagateSmis hrun).alike
  | analyzeRanges => exact absurd rfl hranges
  | selectRepresentations => exact alike_of_honest honest_selectRepresentations hrun

/-- The text shows nothing new but marks, which three stages make without telling. Where they are as before, so is the
text. -/
theorem unmodified_shows (hg : Ranges.Unconstrained g) (hrun : (stage.run ctx).run g = .ok (false, g')) :
    Shows g g' ∧ (stage = .hoistInvariants ∨ stage = .analyzeRanges ∨ SameLoops g g') ∧
      (stage = .analyzeRanges ∨ SameRanges g g') ∧ (stage = .eliminateLoads ∨ SamePhis g g') ∧
      (SameLoops g g' → SameRanges g g' → SamePhis g g' → ∀ t, g.text = .ok t → g'.text = .ok t) := by
  by_cases hhoist : stage = .hoistInvariants
  · subst hhoist
    obtain ⟨loops, rfl⟩ := recorded_hoistInvariants hrun
    obtain ⟨hshows, hranges, hphis⟩ := shows_withLoops
    exact ⟨hshows, .inl rfl, .inr hranges, .inr hphis, hshows.text⟩
  by_cases hranges : stage = .analyzeRanges
  · subst hranges
    obtain ⟨hshows, hphis⟩ := Ranges.shows_analyzeRanges hg hrun
    exact ⟨hshows, .inr (.inl rfl), .inl rfl, .inr hphis, hshows.text⟩
  by_cases hloads : stage = .eliminateLoads
  · subst hloads
    obtain ⟨hshows, hloops, hsame⟩ := Loads.shows_eliminateLoads hrun
    exact ⟨hshows, .inr (.inr hloops), .inr hsame, .inl rfl, hshows.text⟩
  obtain ⟨hshows, hloops, hsame, hphis⟩ := alike_of_unmodified hg.upToDate hhoist hranges hloads hrun
  exact ⟨hshows, .inr (.inr hloops), .inr hsame, .inr hphis, hshows.text⟩

/-- The graph that commands lead to, in SSA form, and what a stage that tells of no change leaves. -/
def unmodified (stage : Stage) (parameters : Nat) (commands : List Command) : Option (FlowGraph × FlowGraph) :=
  (Build.run (commands.forM Command.run) (FlowGraph.new "f" parameters 0)).toOption.bind fun built =>
    (Ssa.construct.run built.2).toOption.bind fun constructed =>
      ((stage.run {}).run constructed.2).toOption.bind fun left =>
        if left.1 then none else some (constructed.2, left.2)

theorem run_of_unmodified {n : Nat} {commands : List Command} (h : unmodified stage n commands = some (g, g')) :
    (stage.run {}).run g = .ok (false, g') := by
  obtain ⟨built, -, h⟩ := Option.bind_eq_some_iff.mp h
  obtain ⟨constructed, -, h⟩ := Option.bind_eq_some_iff.mp h
  obtain ⟨⟨changed, left⟩, hrun, h⟩ := Option.bind_eq_some_iff.mp h
  cases changed with
  | true => cases h
  | false =>
    cases h
    exact toOption_eq_some_iff.mp hrun

def spinning : List Command := [.joinBlock, .inst (.goto ⟨2⟩), .appendTo ⟨2⟩, .inst (.goto ⟨2⟩)]

/-- Constant propagation discovers the blocks of the loop anew, and the text stays what it was. -/
theorem spinning_text_kept : ∃ g g' t, Ranges.Unconstrained g ∧
    (Stage.propagateConstants.run {}).run g = .ok (false, g') ∧ g.text = .ok t ∧ g'.text = .ok t := by
  have hcompute : (unmodified .propagateConstants 0 spinning).map (fun r =>
      (decide (Ranges.Unconstrained r.1), r.1.text.toOption.isSome)) = some (true, true) := by decide +kernel
  obtain ⟨⟨g, g'⟩, hleft, hholds⟩ := Option.map_eq_some_iff.mp hcompute
  simp only [Prod.mk.injEq, decide_eq_true_eq, Option.isSome_iff_exists, toOption_eq_some_iff] at hholds
  obtain ⟨hg, t, ht⟩ := hholds
  have hrun := run_of_unmodified hleft
  obtain ⟨-, hloops, hranges, hphis, htext⟩ := unmodified_shows hg hrun
  refine ⟨g, g', t, hg, hrun, ht, htext ?_ ?_ ?_ t ht⟩
  · simpa using hloops
  · simpa using hranges
  · simpa using hphis

/-! ## Marks that are not told of -/

/-- The stage tells of no change, and the text of the graph is another one. -/
def Misreports (stage : Stage) : Prop :=
  ∃ g g' t t', Ranges.Unconstrained g ∧ (stage.run {}).run g = .ok (false, g') ∧ g.text = .ok t ∧ g'.text = .ok t' ∧
  t' ≠ t

/-- Whether the texts of two graphs are known and differ. -/
def textsDiffer (r : FlowGraph × FlowGraph) : Bool :=
  decide (Ranges.Unconstrained r.1) && r.1.text.toOption.isSome && r.2.text.toOption.any (some · != r.1.text.toOption)

theorem misreports_of_textsDiffer {n : Nat} {commands : List Command}
    (h : (unmodified stage n commands).map textsDiffer = some true) : Misreports stage := by
  obtain ⟨⟨g, g'⟩, hleft, hholds⟩ := Option.map_eq_some_iff.mp h
  simp only [textsDiffer, Bool.and_eq_true, decide_eq_true_eq, Option.isSome_iff_exists, Option.any_eq_true,
    toOption_eq_some_iff, bne_iff_ne, ne_eq] at hholds
  obtain ⟨⟨hg, t, ht⟩, t', ht', hne⟩ := hholds
  refine ⟨g, g', t, t', hg, run_of_unmodified hleft, ht, ht', ?_⟩
  rintro rfl
  exact hne (toOption_eq_some_iff.mpr ht).symm

/-- A field that is loaded, and stored on both sides of a branch. Behind the join it is stored on one side of another
branch. -/
def storedTwice : List Command :=
  [.targetBlock, .targetBlock, .joinBlock, .targetBlock, .targetBlock, .joinBlock,
    .inst (.loadLocal 0), .inst (.loadField 16 .dynamic .unknown false ⟨0⟩), .inst (.loadLocal 0),
    .branchIf ⟨2⟩ ⟨2⟩ ⟨3⟩, .appendTo ⟨2⟩, .inst (.loadLocal 0), .inst (.loadLocal 0),
    .inst (.storeField 16 true ⟨5⟩ ⟨6⟩), .inst (.goto ⟨4⟩), .appendTo ⟨3⟩, .inst (.loadLocal 0), .inst (.loadLocal 1),
    .inst (.storeField 16 true ⟨9⟩ ⟨10⟩), .inst (.goto ⟨4⟩), .appendTo ⟨4⟩, .inst (.loadLocal 0),
    .branchIf ⟨13⟩ ⟨5⟩ ⟨6⟩, .appendTo ⟨5⟩, .inst (.goto ⟨7⟩), .appendTo ⟨6⟩, .inst (.loadLocal 0), .inst (.loadLocal 0),
    .inst (.storeField 16 true ⟨17⟩ ⟨18⟩), .inst (.goto ⟨7⟩), .appendTo ⟨7⟩, .inst (.loadLocal 0),
    .inst (.unary .ret ⟨21⟩)]

/-- Each of the three stages marks what it does not tell of: the head of a loop, the range of a constant, and a phi that
is left alive. -/
theorem marks_misreported : Misreports .hoistInvariants ∧ Misreports .analyzeRanges ∧ Misreports .eliminateLoads := by
  have hloop : (unmodified .hoistInvariants 0 spinning).map textsDiffer = some true := by decide +kernel
  have hrange : (unmodified .analyzeRanges 0 [.inst (.constant (.smi 3)), .inst (.unary .ret ⟨0⟩)]).map textsDiffer =
      some true := by decide +kernel
  have hphi : (unmodified .eliminateLoads 2 storedTwice).map textsDiffer = some true := by decide +kernel
  exact ⟨misreports_of_textsDiffer hloop, misreports_of_textsDiffer hrange, misreports_of_textsDiffer hphi⟩

end Midend.Reports
